import Wrkrs.Config
import Wrkrs.Framer

/-!
# Verifying a request

The probe that counts the messages of a generated pipeline. The request parser is a
library of its own and a parameter here, as the response parser is.
-/

namespace Wrkrs

set_option autoImplicit false

open Text Machine

/-- What one parse call reports about a request: the end of its head and the headers, a
need for more input or for more room, or an error with its text. -/
inductive RequestVerdict where
  | complete (headerEnd : Nat) (headers : List Header)
  | incomplete
  | tooManyHeaders
  | rejected (message : Str)
  deriving DecidableEq, Repr

abbrev RequestParser := Nat → Bytes → RequestVerdict

inductive RequestFraming where
  | complete (headers body : Nat)
  | incomplete
  | malformed (message : Str)
  deriving DecidableEq, Repr

/-- Grows the room for headers on demand. -/
def frameWithin (parse : RequestParser) (input : Bytes) : List Nat → RequestFraming
  | [] => .malformed "too many headers".toList
  | capacity :: capacities =>
    match parse capacity input with
    | .complete headerEnd headers => .complete headerEnd ((contentLength headers).getD 0)
    | .incomplete => .incomplete
    | .tooManyHeaders => frameWithin parse input capacities
    | .rejected message => .malformed message

def frameRequest (parse : RequestParser) (input : Bytes) : RequestFraming :=
  frameWithin parse input [16, 64, 256]

/-- A counter of 32 bits with a sign. -/
def bump (build : Build) (n : Int) : Except Fault Int :=
  if n + 1 < 0x80000000 then .ok (n + 1)
  else match build with
    | .debug => .error .overflow
    | .release => .ok (-0x80000000)

def position (build : Build) : Bytes → Int → Int → Except Fault (Int × Int)
  | [], line, column => .ok (line, column)
  | byte :: rest, line, column => do
    let column ← bump build column
    if byte = 10 then
      let line ← bump build line
      position build rest line 1
    else position build rest line column

def signed (n : Int) : Str := if n < 0 then '-' :: decimal n.natAbs else decimal n.natAbs

def diagnostic (build : Build) (message : Str) (request : Bytes) (consumed : Nat) :
    Except Fault Str := do
  let (line, column) ← position build (request.take consumed) 1 1
  return message ++ " at ".toList ++ signed line ++ ':' :: signed column

/-- Counts messages from an offset on; the bound on the turns runs out exactly where the
offset, which may wrap, comes back to an earlier one. -/
def verifyFrom (build : Build) (parse : RequestParser) (request : Bytes) :
    Nat → Nat → Nat → Except Fault (Except Str Nat)
  | 0, _, _ => .error .fuel
  | fuel + 1, count, offset =>
    if offset < request.length then
      match frameRequest parse (request.drop offset) with
      | .complete headers body => do
        let next ← build.add offset headers
        let next ← build.add next body
        if request.length < next then
          return .error (← diagnostic build "incomplete request".toList request request.length)
        else verifyFrom build parse request fuel (count + 1) next
      | .incomplete => do
        return .error (← diagnostic build "incomplete request".toList request request.length)
      | .malformed message => do
        return .error (← diagnostic build message request offset)
    else if count = 0 then do
      return .error (← diagnostic build "incomplete request".toList request request.length)
    else .ok (.ok count)

def verifyRequest (build : Build) (parse : RequestParser) (request : Bytes) :
    Except Fault (Except Str Nat) :=
  verifyFrom build parse request (request.length + 1) 0 0

section One
variable {build : Build} {parse : RequestParser} {request : Bytes}

theorem report_not_ok {message : Str} {consumed n : Nat} :
    (diagnostic build message request consumed >>= fun text =>
      (pure (.error text) : Except Fault (Except Str Nat))) ≠ .ok (.ok n) := by
  cases diagnostic build message request consumed <;> intro h <;> cases h

/-- What a probe that counts has done at an offset. -/
theorem verifyFrom_ok {fuel count offset n : Nat}
    (h : verifyFrom build parse request (fuel + 1) count offset = .ok (.ok n)) :
    (request.length ≤ offset ∧ n = count ∧ count ≠ 0) ∨
      (offset < request.length ∧ ∃ headers body next,
        frameRequest parse (request.drop offset) = .complete headers body ∧
        (build.add offset headers >>= fun sum => build.add sum body) = .ok next ∧
        next ≤ request.length ∧
        verifyFrom build parse request fuel (count + 1) next = .ok (.ok n)) := by
  rw [verifyFrom] at h
  by_cases hinside : offset < request.length
  · rw [if_pos hinside] at h
    right
    refine ⟨hinside, ?_⟩
    cases hframe : frameRequest parse (request.drop offset) with
    | incomplete =>
      rw [hframe] at h
      exact absurd h report_not_ok
    | malformed message =>
      rw [hframe] at h
      exact absurd h report_not_ok
    | complete headers body =>
      rw [hframe] at h
      cases hsum : build.add offset headers with
      | error fault =>
        simp only [hsum, error_bind] at h
        cases h
      | ok sum =>
        simp only [hsum, ok_bind] at h
        cases hnext : build.add sum body with
        | error fault =>
          simp only [hnext, error_bind] at h
          cases h
        | ok next =>
          simp only [hnext, ok_bind] at h
          by_cases hlong : request.length < next
          · rw [if_pos hlong] at h
            exact absurd h report_not_ok
          · rw [if_neg hlong] at h
            exact ⟨headers, body, next, rfl, by rw [hsum]; exact hnext, Nat.le_of_not_lt hlong, h⟩
  · rw [if_neg hinside] at h
    left
    by_cases hzero : count = 0
    · rw [if_pos hzero] at h
      exact absurd h report_not_ok
    · rw [if_neg hzero] at h
      exact ⟨Nat.le_of_not_lt hinside, (Except.ok.inj (Except.ok.inj h)).symm, hzero⟩

theorem verifyFrom_le {fuel count offset n : Nat}
    (h : verifyFrom build parse request fuel count offset = .ok (.ok n)) :
    count ≤ n ∧ (offset < request.length → count < n) := by
  induction fuel generalizing count offset with
  | zero => cases h
  | succ fuel ih =>
    rcases verifyFrom_ok h with ⟨hend, rfl, _⟩ | ⟨_, _, _, next, _, _, _, hrest⟩
    · exact ⟨Nat.le_refl _, fun hinside => absurd hend (Nat.not_le_of_lt hinside)⟩
    · have hle := (ih hrest).1
      exact ⟨Nat.le_of_succ_le hle, fun _ => hle⟩

/-- The sum of the two lengths wraps at a word. -/
theorem add_lengths {h b next : Nat} (hh : h < word) (hb : b < word)
    (hnext : (build.add 0 h >>= fun sum => build.add sum b) = .ok next) :
    next = h + b ∨ next + word = h + b := by
  rw [build.add_eq (by omega), ok_bind, Nat.zero_add] at hnext
  by_cases hfits : h + b < word
  · rw [build.add_eq hfits] at hnext
    exact .inl (Except.ok.inj hnext).symm
  · cases build with
    | debug =>
      rw [Build.add_debug (Nat.le_of_not_lt hfits)] at hnext
      cases hnext
    | release =>
      rw [Build.add_release] at hnext
      have hmod : (h + b) % word = h + b - word := by
        rw [Nat.mod_eq_sub_mod (Nat.le_of_not_lt hfits), Nat.mod_eq_of_lt (by omega)]
      have hvalue := Except.ok.inj hnext
      omega

theorem contentLength_lt {headers : List Header} : (contentLength headers).getD 0 < word := by
  unfold contentLength
  cases hfind : headers.find? fun header => eqIgnoreCase header.name "content-length".toList with
  | none => exact (by decide : 0 < word)
  | some header =>
    cases htext : fromUtf8 header.value with
    | none =>
      simp only [Option.bind_some, htext, Option.bind_none]
      exact (by decide : 0 < word)
    | some text =>
      simp only [Option.bind_some, htext]
      cases hnumber : fromStrRadix 10 word text with
      | none => exact (by decide : 0 < word)
      | some n => exact fromStrRadix_lt (by decide) hnumber

theorem frameWithin_complete {capacities : List Nat} {input : Bytes} {headers body : Nat}
    (h : frameWithin parse input capacities = .complete headers body) :
    ∃ capacity fields, parse capacity input = .complete headers fields ∧
      (contentLength fields).getD 0 = body := by
  induction capacities with
  | nil => cases h
  | cons capacity capacities ih =>
    rw [frameWithin] at h
    cases hparse : parse capacity input with
    | complete headerEnd fields =>
      rw [hparse] at h
      obtain ⟨rfl, hbody⟩ := RequestFraming.complete.inj h
      exact ⟨capacity, fields, hparse, hbody⟩
    | tooManyHeaders =>
      rw [hparse] at h
      exact ih h
    | incomplete => rw [hparse] at h; cases h
    | rejected message => rw [hparse] at h; cases h

theorem frameWithin_body {capacities : List Nat} {input : Bytes} {headers body : Nat}
    (h : frameWithin parse input capacities = .complete headers body) : body < word := by
  obtain ⟨_, _, _, rfl⟩ := frameWithin_complete h
  exact contentLength_lt

/-- A probe counts one message exactly when that message fills the request. -/
theorem verifyRequest_one (headers : Nat) (hlength : request.length ≤ vecMax) (hne : request ≠ [])
    (hheaders : ∀ h b, frameRequest parse request = .complete h b → h = headers)
    (hwithin : headers ≤ request.length) :
    verifyRequest build parse request = .ok (.ok 1) ↔
      ∃ body, frameRequest parse request = .complete headers body ∧
        headers + body = request.length := by
  have hpos : 0 < request.length := List.length_pos_iff.mpr hne
  have hword : vecMax < word := by decide
  obtain ⟨length, hlen⟩ : ∃ length, request.length = length + 1 :=
    ⟨request.length - 1, by omega⟩
  constructor
  · intro h
    rcases verifyFrom_ok h with ⟨hend, _⟩ | ⟨_, h', body, next, hframe, hnext, hle, hrest⟩
    · omega
    · rw [List.drop_zero] at hframe
      obtain rfl := hheaders h' body hframe
      refine ⟨body, hframe, ?_⟩
      have hbody : body < word := frameWithin_body hframe
      have hfull : ¬ next < request.length := fun hinside =>
        Nat.lt_irrefl 1 ((verifyFrom_le hrest).2 hinside)
      rcases add_lengths (by omega) hbody hnext with hsum | hsum
      · omega
      · omega
  · rintro ⟨body, hframe, hsum⟩
    have hfirst : build.add 0 headers = .ok headers := by
      rw [build.add_eq (by omega), Nat.zero_add]
    have hsecond : build.add headers body = .ok (headers + body) := build.add_eq (by omega)
    rw [verifyRequest, hlen, verifyFrom, if_pos hpos, List.drop_zero, hframe]
    simp only [hfirst, ok_bind, hsecond]
    rw [if_neg (by omega), verifyFrom, if_neg (by omega), if_neg (by decide)]

end One

end Wrkrs
