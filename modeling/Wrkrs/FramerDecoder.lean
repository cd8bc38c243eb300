import Wrkrs.Library.Incremental
import Wrkrs.Framer

/-!
# The framer as an incremental decoder

`decode` says what the framer does next with its unconsumed bytes, with no buffer
and no offset. Every method of the framer is one or several of its attempts.
-/

namespace Wrkrs

set_option autoImplicit false
set_option maxRecDepth 4096

open Text Machine Incremental

inductive Stop where
  | frame (error : FrameError)
  | fault (fault : Fault)
  deriving DecidableEq, Repr

def parseHead (parse : ResponseParser) (input : Bytes) : HeadVerdict ResponseHead :=
  match parse 16 input with
  | .tooManyHeaders => parse 64 input
  | verdict => verdict

/-- The length of a line whose CR is followed by one more byte. -/
def lineIn (input : Bytes) : Option Nat :=
  (input.findIdx? (· == 13)).bind fun line =>
    if line + 2 ≤ input.length then some line else none

def chunkSize (line : Bytes) : Option Nat := fromStrRadix 16 word (trim (fromUtf8Lossy line))

namespace Message

def setState (m : Message) (state : FrameState) : Message := { m with state := state }

def decodeHead (parse : ResponseParser) (m : Message) (input : Bytes) :
    Attempt Message Response Stop :=
  match parseHead parse input with
  | .complete headerEnd head =>
    let chosen := (m.readHead head).chooseFraming head.headers
    .advance headerEnd chosen.2 chosen.1.toList
  | .incomplete => .wait
  | .tooManyHeaders => .fail (.frame .badResponse)
  | .rejected => .fail (.frame .badResponse)

def decodeBody (m : Message) (remaining : Nat) (input : Bytes) : Attempt Message Response Stop :=
  if input.length < remaining then .wait
  else
    let m := m.pushBody (input.take remaining)
    .advance remaining m.finished [m.response]

def decodeSize (m : Message) (input : Bytes) : Attempt Message Response Stop :=
  match lineIn input with
  | none => .wait
  | some line =>
    match chunkSize (input.take line) with
    | none => .fail (.frame .badResponse)
    | some size =>
      .advance (line + 2)
        (m.setState (.chunked (if size = 0 then .trailers else .data size))) []

/-- The release build wraps the word that holds the data and its CRLF, and slices
past the end only where it keeps the data. -/
def decodeData (build : Build) (m : Message) (remaining : Nat) (input : Bytes) :
    Attempt Message Response Stop :=
  match build.add remaining 2 with
  | .error fault => .fail (.fault fault)
  | .ok needed =>
    if input.length < needed then .wait
    else if m.capture ∧ word ≤ remaining + 2 then .fail (.fault .slice)
    else .advance needed ((m.pushBody (input.take remaining)).setState (.chunked .size)) []

def decodeTrailers (m : Message) (input : Bytes) : Attempt Message Response Stop :=
  match lineIn input with
  | none => .wait
  | some line =>
    if line = 0 then .advance (line + 2) m.finished [m.response] else .advance (line + 2) m []

end Message

def decode (build : Build) (parse : ResponseParser) : Decoder UInt8 Message Response Stop :=
  fun m input =>
    match m.state with
    | .headers => m.decodeHead parse input
    | .body remaining => m.decodeBody remaining input
    | .chunked .size => m.decodeSize input
    | .chunked (.data remaining) => m.decodeData build remaining input
    | .chunked .trailers => m.decodeTrailers input
    | .untilClose => .wait
    | .broken => .wait

section Attempts
variable {build : Build} {parse : ResponseParser} {m : Message} {input : Bytes}

/-- Everything an attempt can advance over, one case for each state and branch. -/
inductive Advance (build : Build) (parse : ResponseParser) (m : Message) (input : Bytes) :
    Nat → Message → List Response → Prop where
  | head {n : Nat} {head : ResponseHead} : m.state = .headers →
      parseHead parse input = .complete n head →
      Advance build parse m input n ((m.readHead head).chooseFraming head.headers).2
        ((m.readHead head).chooseFraming head.headers).1.toList
  | body {remaining : Nat} : m.state = .body remaining → remaining ≤ input.length →
      Advance build parse m input remaining (m.pushBody (input.take remaining)).finished
        [(m.pushBody (input.take remaining)).response]
  | size {line size : Nat} : m.state = .chunked .size → lineIn input = some line →
      chunkSize (input.take line) = some size →
      Advance build parse m input (line + 2)
        (m.setState (.chunked (if size = 0 then .trailers else .data size))) []
  | data {remaining needed : Nat} : m.state = .chunked (.data remaining) →
      build.add remaining 2 = .ok needed → needed ≤ input.length →
      ¬ (m.capture = true ∧ word ≤ remaining + 2) →
      Advance build parse m input needed
        ((m.pushBody (input.take remaining)).setState (.chunked .size)) []
  | last : m.state = .chunked .trailers → lineIn input = some 0 →
      Advance build parse m input 2 m.finished [m.response]
  | trailer {line : Nat} : m.state = .chunked .trailers → lineIn input = some line → line ≠ 0 →
      Advance build parse m input (line + 2) m []

/-- Everything an attempt can fail with. -/
inductive Refusal (build : Build) (parse : ResponseParser) (m : Message) (input : Bytes) :
    Stop → Prop where
  | tooMany : m.state = .headers → parseHead parse input = .tooManyHeaders →
      Refusal build parse m input (.frame .badResponse)
  | rejected : m.state = .headers → parseHead parse input = .rejected →
      Refusal build parse m input (.frame .badResponse)
  | size {line : Nat} : m.state = .chunked .size → lineIn input = some line →
      chunkSize (input.take line) = none → Refusal build parse m input (.frame .badResponse)
  | overflow {remaining : Nat} {fault : Fault} : m.state = .chunked (.data remaining) →
      build.add remaining 2 = .error fault → Refusal build parse m input (.fault fault)
  | slice {remaining needed : Nat} : m.state = .chunked (.data remaining) →
      build.add remaining 2 = .ok needed → needed ≤ input.length →
      m.capture = true ∧ word ≤ remaining + 2 → Refusal build parse m input (.fault .slice)

inductive Attempted (build : Build) (parse : ResponseParser) (m : Message) (input : Bytes) :
    Attempt Message Response Stop → Prop where
  | waits : Attempted build parse m input .wait
  | advances {n : Nat} {t : Message} {out : List Response} : Advance build parse m input n t out →
      Attempted build parse m input (.advance n t out)
  | fails {stop : Stop} : Refusal build parse m input stop →
      Attempted build parse m input (.fail stop)

theorem decode_attempted (build : Build) (parse : ResponseParser) (m : Message) (input : Bytes) :
    Attempted build parse m input (decode build parse m input) := by
  unfold decode
  cases hstate : m.state with
  | headers =>
    simp only [Message.decodeHead]
    cases hparse : parseHead parse input with
    | complete n head => exact .advances (.head hstate hparse)
    | incomplete => exact .waits
    | tooManyHeaders => exact .fails (.tooMany hstate hparse)
    | rejected => exact .fails (.rejected hstate hparse)
  | body remaining =>
    simp only [Message.decodeBody]
    split
    · exact .waits
    · exact .advances (.body hstate (by omega))
  | chunked chunk =>
    cases chunk with
    | size =>
      simp only [Message.decodeSize]
      cases hline : lineIn input with
      | none => exact .waits
      | some line =>
        simp only
        cases hsize : chunkSize (input.take line) with
        | none => exact .fails (.size hstate hline hsize)
        | some size => exact .advances (.size hstate hline hsize)
    | data remaining =>
      simp only [Message.decodeData]
      cases hneeded : build.add remaining 2 with
      | error fault => exact .fails (.overflow hstate hneeded)
      | ok needed =>
        simp only
        split
        · exact .waits
        · rename_i hlong
          split
          · rename_i hwrapped
            exact .fails (.slice hstate hneeded (Nat.le_of_not_lt hlong) hwrapped)
          · rename_i hkept
            exact .advances (.data hstate hneeded (Nat.le_of_not_lt hlong) hkept)
    | trailers =>
      simp only [Message.decodeTrailers]
      cases hline : lineIn input with
      | none => exact .waits
      | some line =>
        simp only
        split
        · rename_i hempty
          subst hempty
          exact .advances (.last hstate hline)
        · rename_i hfield
          exact .advances (.trailer hstate hline hfield)
  | untilClose => exact .waits
  | broken => exact .waits

theorem decode_advance_iff {n : Nat} {t : Message} {out : List Response} :
    decode build parse m input = .advance n t out ↔ Advance build parse m input n t out := by
  constructor
  · intro h
    have hattempted := decode_attempted build parse m input
    rw [h] at hattempted
    cases hattempted with
    | advances hadvance => exact hadvance
  · intro h
    cases h with
    | head hstate hparse => simp only [decode, hstate, Message.decodeHead, hparse]
    | body hstate hle =>
      simp only [decode, hstate, Message.decodeBody, if_neg (Nat.not_lt.mpr hle)]
    | size hstate hline hsize => simp only [decode, hstate, Message.decodeSize, hline, hsize]
    | data hstate hneeded hle hkept =>
      simp only [decode, hstate, Message.decodeData, hneeded, if_neg (Nat.not_lt.mpr hle),
        if_neg hkept]
    | last hstate hline => simp only [decode, hstate, Message.decodeTrailers, hline, if_true]
    | trailer hstate hline hfield =>
      simp only [decode, hstate, Message.decodeTrailers, hline, if_neg hfield]

theorem decode_fail_iff {stop : Stop} :
    decode build parse m input = .fail stop ↔ Refusal build parse m input stop := by
  constructor
  · intro h
    have hattempted := decode_attempted build parse m input
    rw [h] at hattempted
    cases hattempted with
    | fails hrefusal => exact hrefusal
  · intro h
    cases h with
    | tooMany hstate hparse => simp only [decode, hstate, Message.decodeHead, hparse]
    | rejected hstate hparse => simp only [decode, hstate, Message.decodeHead, hparse]
    | size hstate hline hsize => simp only [decode, hstate, Message.decodeSize, hline, hsize]
    | overflow hstate hneeded => simp only [decode, hstate, Message.decodeData, hneeded]
    | slice hstate hneeded hle hwrapped =>
      simp only [decode, hstate, Message.decodeData, hneeded, if_neg (Nat.not_lt.mpr hle),
        if_pos hwrapped]

end Attempts

theorem Message.pushBody_of_not_capture {m : Message} (h : ¬ m.capture = true) (bytes : Bytes) :
    m.pushBody bytes = m := by
  simp only [Message.pushBody, if_neg h]

theorem lineIn_append {input : Bytes} {line : Nat} (h : lineIn input = some line)
    (more : Bytes) : lineIn (input ++ more) = some line := by
  obtain ⟨i, hi, hif⟩ := Option.bind_eq_some_iff.mp h
  split at hif
  · obtain rfl : i = line := Option.some.inj hif
    have hlt : i + 2 ≤ (input ++ more).length := by
      rw [List.length_append]
      omega
    simp only [lineIn, List.findIdx?_append, hi, Option.some_or, Option.bind_some, if_pos hlt]
  · cases hif

theorem lineIn_le {input : Bytes} {line : Nat} (h : lineIn input = some line) :
    line + 2 ≤ input.length := by
  obtain ⟨i, _, hif⟩ := Option.bind_eq_some_iff.mp h
  split at hif
  · obtain rfl : i = line := Option.some.inj hif
    assumption
  · cases hif

theorem parseHead_le {parse : ResponseParser} (within : parse.Within) {input : Bytes} {n : Nat}
    {head : ResponseHead} (h : parseHead parse input = .complete n head) : n ≤ input.length := by
  unfold parseHead at h
  split at h
  · exact within h
  · exact within h

theorem decode_le {parse : ResponseParser} (within : parse.Within) {build : Build}
    {m t : Message} {input : Bytes} {n : Nat} {out : List Response}
    (h : decode build parse m input = .advance n t out) : n ≤ input.length := by
  rw [decode_advance_iff] at h
  cases h with
  | head _ hparse => exact parseHead_le within hparse
  | body _ hle => exact hle
  | size _ hline _ => exact lineIn_le hline
  | data _ _ hle _ => exact hle
  | last _ hline => exact lineIn_le hline
  | trailer _ hline _ => exact lineIn_le hline

section Parser
variable {parse : ResponseParser} (laws : parse.Lawful)
include laws

theorem parseHead_empty : parseHead parse [] = .incomplete := by
  simp [parseHead, laws.empty]

theorem parseHead_append {input : Bytes} (h : parseHead parse input ≠ .incomplete)
    (more : Bytes) : parseHead parse (input ++ more) = parseHead parse input := by
  unfold parseHead at h ⊢
  cases h16 : parse 16 input with
  | incomplete => simp [h16] at h
  | complete n head => rw [laws.complete h16 more]
  | rejected => rw [laws.rejected h16 more]
  | tooManyHeaders =>
    rw [laws.tooMany h16 more]
    cases h64 : parse 64 input with
    | incomplete => simp [h16, h64] at h
    | complete n head => exact laws.complete h64 more
    | rejected => exact laws.rejected h64 more
    | tooManyHeaders => exact laws.tooMany h64 more

theorem parseHead_pos {input : Bytes} {n : Nat} {head : ResponseHead}
    (h : parseHead parse input = .complete n head) : 0 < n := by
  unfold parseHead at h
  split at h
  · exact laws.progress h
  · exact laws.progress h

/-- The framer's verdicts stand when bytes arrive. -/
theorem decode_stable (build : Build) : Stable (decode build parse) where
  bound := decode_le laws.within
  advance := by
    intro m input n t out h more
    rw [decode_advance_iff] at h ⊢
    cases h with
    | head hstate hparse =>
      refine .head hstate ?_
      rw [parseHead_append laws (by simp [hparse])]
      exact hparse
    | body hstate hle =>
      have hlong : n ≤ (input ++ more).length := by
        rw [List.length_append]
        omega
      have hmore : Advance build parse m (input ++ more) _ _ _ := .body hstate hlong
      rwa [List.take_append_of_le_length hle] at hmore
    | @size line size hstate hline hsize =>
      have hle := lineIn_le hline
      have hinside : line ≤ input.length := by omega
      refine .size hstate (lineIn_append hline more) ?_
      rwa [List.take_append_of_le_length hinside]
    | @data remaining _ hstate hneeded hle hkept =>
      have hlong : n ≤ (input ++ more).length := by
        rw [List.length_append]
        omega
      have hmore : Advance build parse m (input ++ more) _ _ _ := .data hstate hneeded hlong hkept
      -- Either nothing is kept, or the word did not wrap and the data is all there.
      have hpush : m.pushBody ((input ++ more).take remaining) =
          m.pushBody (input.take remaining) := by
        by_cases hcapture : m.capture = true
        · have hlt : remaining + 2 < word := by
            have hnot : ¬ word ≤ remaining + 2 := fun hbig => hkept ⟨hcapture, hbig⟩
            omega
          obtain rfl := Build.add_ok hneeded hlt
          have hinside : remaining ≤ input.length := by omega
          rw [List.take_append_of_le_length hinside]
        · rw [Message.pushBody_of_not_capture hcapture, Message.pushBody_of_not_capture hcapture]
      rwa [hpush] at hmore
    | last hstate hline => exact .last hstate (lineIn_append hline more)
    | trailer hstate hline hfield => exact .trailer hstate (lineIn_append hline more) hfield
  fail := by
    intro m input e h more
    rw [decode_fail_iff] at h ⊢
    cases h with
    | tooMany hstate hparse =>
      refine .tooMany hstate ?_
      rw [parseHead_append laws (by simp [hparse])]
      exact hparse
    | rejected hstate hparse =>
      refine .rejected hstate ?_
      rw [parseHead_append laws (by simp [hparse])]
      exact hparse
    | @size line hstate hline hsize =>
      have hle := lineIn_le hline
      have hinside : line ≤ input.length := by omega
      refine .size hstate (lineIn_append hline more) ?_
      rwa [List.take_append_of_le_length hinside]
    | overflow hstate hneeded => exact .overflow hstate hneeded
    | slice hstate hneeded hle hwrapped =>
      refine .slice hstate hneeded ?_ hwrapped
      rw [List.length_append]
      omega

end Parser

/-- What is left to do: two units for every byte, one for a pending body or chunk. -/
def work (m : Message) (input : Bytes) : Nat :=
  2 * input.length +
    match m.state with
    | .body _ => 1
    | .chunked (.data _) => 1
    | _ => 0

theorem work_le (m : Message) (input : Bytes) : work m input ≤ 2 * input.length + 1 := by
  unfold work
  split <;> omega

theorem work_finished (m : Message) (input : Bytes) : work m.finished input = 2 * input.length :=
  rfl

theorem decode_lowers {parse : ResponseParser} (laws : parse.Lawful) (build : Build) :
    Lowers (decode build parse) work := by
  intro m input n t out h
  have hbound := (decode_stable laws build).bound h
  have hdrop : (input.drop n).length = input.length - n := List.length_drop
  rw [decode_advance_iff] at h
  cases h with
  | @head _ head hstate hparse =>
    have hpos := parseHead_pos laws hparse
    have hle := work_le ((m.readHead head).chooseFraming head.headers).2 (input.drop n)
    have hwork : work m input = 2 * input.length := by simp only [work, hstate, Nat.add_zero]
    omega
  | body hstate _ =>
    rw [work_finished]
    simp only [work, hstate]
    omega
  | @size line size hstate _ _ =>
    have hle := work_le (m.setState (.chunked (if size = 0 then .trailers else .data size)))
      (input.drop (line + 2))
    have hwork : work m input = 2 * input.length := by simp only [work, hstate, Nat.add_zero]
    omega
  | data hstate _ _ _ =>
    simp only [work, hstate, Message.setState]
    omega
  | last hstate _ =>
    rw [work_finished]
    simp only [work, hstate]
    omega
  | trailer hstate _ _ =>
    simp only [work, hstate]
    omega

def Message.Sized (m : Message) : Prop :=
  ∀ remaining, m.state = .chunked (.data remaining) → remaining < word

theorem chooseFraming_state (m : Message) (headers : List Header) (remaining : Nat) :
    (m.chooseFraming headers).2.state ≠ .chunked (.data remaining) := by
  unfold Message.chooseFraming
  split
  · simp [Message.finished]
  · split
    · simp
    · split <;> simp

theorem decode_sized {build : Build} {parse : ResponseParser} {m t : Message} {input : Bytes}
    {n : Nat} {out : List Response} (h : decode build parse m input = .advance n t out)
    (hm : m.Sized) : t.Sized := by
  intro remaining ht
  rw [decode_advance_iff] at h
  cases h with
  | head _ _ => exact absurd ht (chooseFraming_state _ _ _)
  | body _ _ => cases ht
  | @size line size _ _ hsize =>
    simp only [Message.setState] at ht
    split at ht
    · cases ht
    · obtain rfl : size = remaining := by simpa using ht
      exact fromStrRadix_lt (by decide) hsize
  | data _ _ _ _ => cases ht
  | last _ _ => cases ht
  | trailer _ _ _ => exact hm _ ht

/-- Only chunk data whose length and CRLF overflow a word makes the decoder fault. -/
theorem decode_fault {build : Build} {parse : ResponseParser} {m : Message} {input : Bytes}
    {fault : Fault} (h : decode build parse m input = .fail (.fault fault)) :
    ∃ remaining, m.state = .chunked (.data remaining) ∧ word ≤ remaining + 2 ∧
      (fault = .overflow ∨ fault = .slice) := by
  rw [decode_fail_iff] at h
  cases h with
  | @overflow remaining _ hstate hneeded =>
    obtain ⟨hbig, rfl⟩ := Build.add_error hneeded
    exact ⟨remaining, hstate, hbig, .inl rfl⟩
  | @slice remaining _ hstate _ _ hwrapped => exact ⟨remaining, hstate, hwrapped.2, .inr rfl⟩

namespace ResponseFramer

def rest (f : ResponseFramer) : Bytes := f.buf.drop f.scanned

/-- The offset lies in the buffer, and the buffer is a vector. -/
structure Fits (f : ResponseFramer) : Prop where
  scanned : f.scanned ≤ f.buf.length
  buf : f.buf.length ≤ vecMax

def goto (f : ResponseFramer) (m : Message) (ys : Bytes) : ResponseFramer :=
  { f with toMessage := m, scanned := f.buf.length - ys.length }

def asBroken (f : ResponseFramer) : ResponseFramer := { f with state := .broken }

variable {f : ResponseFramer} {m : Message} {ys : Bytes}

theorem drop_scanned (f : ResponseFramer) : f.buf.drop f.scanned = f.rest := rfl

theorem length_rest (f : ResponseFramer) : f.rest.length = f.buf.length - f.scanned :=
  List.length_drop

@[simp] theorem goto_toMessage : (f.goto m ys).toMessage = m := rfl

@[simp] theorem goto_goto (m' : Message) (zs : Bytes) :
    (f.goto m ys).goto m' zs = f.goto m' zs := rfl

theorem goto_self (hf : f.Fits) : f.goto f.toMessage f.rest = f := by
  have hlen := f.length_rest
  have hle := hf.scanned
  have hscanned : f.buf.length - f.rest.length = f.scanned := by omega
  unfold goto
  rw [hscanned]

theorem goto_rest (h : ys <:+ f.rest) : (f.goto m ys).rest = ys := by
  have hbuf : ys <:+ f.buf := h.trans (List.drop_suffix _ _)
  obtain ⟨front, hfront⟩ := hbuf
  have hlen : f.buf.length - ys.length = front.length := by
    rw [← hfront, List.length_append]
    omega
  unfold rest goto
  simp only [hlen]
  rw [← hfront, List.drop_left]

theorem Fits.goto (hf : f.Fits) (m : Message) (ys : Bytes) : (f.goto m ys).Fits :=
  ⟨Nat.sub_le _ _, hf.buf⟩

theorem goto_drop {n : Nat} (hf : f.Fits) (hn : n ≤ f.rest.length) (m : Message) :
    f.goto m (f.rest.drop n) = { f with toMessage := m, scanned := f.scanned + n } := by
  have hlen := f.length_rest
  have hle := hf.scanned
  have hscanned : f.buf.length - (f.rest.drop n).length = f.scanned + n := by
    rw [List.length_drop]
    omega
  unfold ResponseFramer.goto
  rw [hscanned]

def settle (f : ResponseFramer) : Attempt Message Response Stop →
    Except Fault (Outcome (Option Response))
  | .wait => .ok (.ok none, f)
  | .advance n m out => .ok (.ok out.head?, f.goto m (f.rest.drop n))
  | .fail (.frame error) => .ok (.error error, f.asBroken)
  | .fail (.fault fault) => .error fault

theorem add_scanned (hf : f.Fits) (build : Build) {n : Nat} (hn : n ≤ f.rest.length + 2) :
    build.add f.scanned n = .ok (f.scanned + n) := by
  have hlen := f.length_rest
  have hle := hf.scanned
  have hbuf := hf.buf
  have hword := vecMax_add_lt_word
  have hvec : vecMax = 0x7FFFFFFFFFFFFFFF := rfl
  exact build.add_eq (by omega)

theorem add_line (hf : f.Fits) (build : Build) {line : Nat} (hline : line ≤ f.rest.length) :
    build.add line 2 = .ok (line + 2) := by
  have hlen := f.length_rest
  have hbuf := hf.buf
  have hword := vecMax_add_lt_word
  have hvec : vecMax = 0x7FFFFFFFFFFFFFFF := rfl
  exact build.add_eq (by omega)

theorem completeLine_eq (hf : f.Fits) (build : Build) :
    f.completeLine build = .ok (lineIn f.rest) := by
  unfold completeLine lineIn
  rw [sliceFrom_eq hf.scanned]
  simp only [ok_bind]
  change (match f.rest.findIdx? (· == 13) with | none => _ | some line => _) = _
  cases hline : f.rest.findIdx? (· == 13) with
  | none => rfl
  | some line =>
    obtain ⟨hlt, _⟩ := List.findIdx?_eq_some_iff_findIdx_eq.mp hline
    have hlen := f.length_rest
    have hadd : (build.add (f.scanned + line) 2) = .ok (f.scanned + (line + 2)) := by
      have hadd := add_scanned hf build (show line + 2 ≤ f.rest.length + 2 by omega)
      unfold Build.add at hadd ⊢
      rwa [Nat.add_assoc]
    have hstop : f.scanned + (line + 2) ≤ f.buf.length ↔ line + 2 ≤ f.rest.length := by
      have hle := hf.scanned
      omega
    simp only [add_scanned hf build (show line ≤ f.rest.length + 2 by omega), hadd, ok_bind,
      Option.bind_some, hstop]
    rfl

theorem frameHeaders_eq {parse : ResponseParser} (within : parse.Within) (hf : f.Fits)
    (build : Build) :
    f.frameHeaders build parse = f.settle (f.decodeHead parse f.rest) := by
  have hcomplete : ∀ {n head}, parseHead parse f.rest = .complete n head →
      n ≤ f.rest.length := fun h => parseHead_le within h
  unfold frameHeaders Message.decodeHead
  simp only [frameHeadersFrom, sliceFrom_eq hf.scanned, ok_bind, drop_scanned]
  cases h16 : parse 16 f.rest with
  | complete n head =>
    have hhead : parseHead parse f.rest = .complete n head := by simp [parseHead, h16]
    have hn := hcomplete hhead
    simp only [hhead, add_scanned hf build (Nat.le_add_right_of_le hn), ok_bind, settle,
      goto_drop hf hn]
    cases ((f.readHead head).chooseFraming head.headers).1 <;> rfl
  | incomplete => simp [parseHead, h16, settle]; rfl
  | rejected => simp [parseHead, h16, settle]; rfl
  | tooManyHeaders =>
    cases h64 : parse 64 f.rest with
    | complete n head =>
      have hhead : parseHead parse f.rest = .complete n head := by simp [parseHead, h16, h64]
      have hn := hcomplete hhead
      simp only [hhead, add_scanned hf build (Nat.le_add_right_of_le hn), ok_bind, settle,
        goto_drop hf hn]
      cases ((f.readHead head).chooseFraming head.headers).1 <;> rfl
    | incomplete => simp [parseHead, h16, h64, settle]; rfl
    | rejected => simp [parseHead, h16, h64, settle]; rfl
    | tooManyHeaders => simp [parseHead, h16, h64, settle]; rfl

theorem slice_rest (hf : f.Fits) {n : Nat} (hn : n ≤ f.rest.length) :
    slice f.buf f.scanned (f.scanned + n) = .ok (f.rest.take n) := by
  have hlen := f.length_rest
  have hle := hf.scanned
  rw [slice_eq (Nat.le_add_right _ _) (by omega), Nat.add_sub_cancel_left]
  rfl

theorem frameBody_eq (hf : f.Fits) (build : Build) {remaining : Nat}
    (hstate : f.state = .body remaining) :
    f.frameBody build =
      match f.decodeBody remaining f.rest with
      | .advance n m out => .ok (out.head?, f.goto m (f.rest.drop n))
      | _ => .ok (none, f) := by
  have hlen := f.length_rest
  unfold frameBody Message.decodeBody
  simp only [hstate, Build.sub_eq build hf.scanned, ok_bind, ← hlen]
  by_cases hshort : f.rest.length < remaining
  · simp only [if_pos hshort]
    rfl
  · have hn : remaining ≤ f.rest.length := Nat.le_of_not_lt hshort
    have hadd := add_scanned hf build (Nat.le_add_right_of_le hn)
    simp only [if_neg hshort, hadd, ok_bind, slice_rest hf hn, goto_drop hf hn]
    by_cases hcapture : f.capture = true
    · simp only [if_pos hcapture, Message.pushBody, Message.finished, Message.response]
      rfl
    · simp only [if_neg hcapture, Message.pushBody, Message.finished, Message.response]
      rfl

def turnOf (f : ResponseFramer) : Attempt Message Response Stop → Except Fault Turn
  | .wait => .ok (.done (.ok none) f)
  | .advance n m [] => .ok (.again (f.goto m (f.rest.drop n)))
  | .advance n m (message :: _) =>
    .ok (.done (.ok (some message)) (f.goto m (f.rest.drop n)))
  | .fail (.frame error) => .ok (.done (.error error) f.asBroken)
  | .fail (.fault fault) => .error fault

theorem chunkTurn_size (hf : f.Fits) (build : Build) (hstate : f.state = .chunked .size) :
    f.chunkTurn build = f.turnOf (f.decodeSize f.rest) := by
  unfold chunkTurn Message.decodeSize
  simp only [hstate, completeLine_eq hf, ok_bind]
  cases hline : lineIn f.rest with
  | none => rfl
  | some line =>
    have hle := lineIn_le hline
    have hadd := add_scanned hf build (show line ≤ f.rest.length + 2 by omega)
    have hskip := add_scanned hf build (show line + 2 ≤ f.rest.length + 2 by omega)
    have htwo := add_line hf build (show line ≤ f.rest.length by omega)
    simp only [hadd, hskip, htwo, ok_bind, slice_rest hf (show line ≤ f.rest.length by omega)]
    change (match chunkSize (f.rest.take line) with | none => _ | some size => _) = _
    cases chunkSize (f.rest.take line) with
    | none => rfl
    | some size =>
      simp only [turnOf, goto_drop hf hle]
      by_cases hzero : size = 0
      · simp only [if_pos hzero]
        rfl
      · simp only [if_neg hzero]
        rfl

theorem chunkTurn_trailers (hf : f.Fits) (build : Build)
    (hstate : f.state = .chunked .trailers) :
    f.chunkTurn build = f.turnOf (f.decodeTrailers f.rest) := by
  unfold chunkTurn Message.decodeTrailers
  simp only [hstate, completeLine_eq hf, ok_bind]
  cases hline : lineIn f.rest with
  | none => rfl
  | some line =>
    have hle := lineIn_le hline
    have hskip := add_scanned hf build (show line + 2 ≤ f.rest.length + 2 by omega)
    have htwo := add_line hf build (show line ≤ f.rest.length by omega)
    simp only [hskip, htwo, ok_bind]
    by_cases hzero : line = 0
    · simp only [if_pos hzero, turnOf, goto_drop hf hle]
      rfl
    · simp only [if_neg hzero, turnOf, goto_drop hf hle]
      rfl

theorem slice_wrapped (hf : f.Fits) {remaining : Nat} (hbig : word ≤ remaining + 2)
    (hsmall : remaining < word) :
    slice f.buf f.scanned ((f.scanned + remaining) % word) = .error .slice := by
  have hle := hf.scanned
  have hbuf := hf.buf
  have hvec : vecMax = 0x7FFFFFFFFFFFFFFF := rfl
  have hword : word = 0x10000000000000000 := rfl
  apply slice_error
  by_cases hwrap : f.scanned + remaining < word
  · rw [Nat.mod_eq_of_lt hwrap]
    exact .inr (by omega)
  · rw [Nat.mod_eq_sub_mod (by omega), Nat.mod_eq_of_lt (by omega)]
    exact .inl (by omega)

theorem chunkTurn_data (hf : f.Fits) (build : Build) {remaining : Nat}
    (hstate : f.state = .chunked (.data remaining)) (hsmall : remaining < word) :
    f.chunkTurn build = f.turnOf (f.decodeData build remaining f.rest) := by
  have hlen := f.length_rest
  have hle := hf.scanned
  unfold chunkTurn Message.decodeData
  simp only [hstate, Build.sub_eq build hf.scanned, ok_bind, ← hlen]
  cases hneeded : build.add remaining 2 with
  | error fault => rfl
  | ok needed =>
    simp only [ok_bind]
    by_cases hshort : f.rest.length < needed
    · simp only [if_pos hshort]
      rfl
    · simp only [if_neg hshort]
      have hn : needed ≤ f.rest.length := Nat.le_of_not_lt hshort
      have hscan := add_scanned hf build (Nat.le_add_right_of_le hn)
      by_cases hbig : word ≤ remaining + 2
      · -- Only a release build gets here: the needed length has wrapped.
        have hrelease : build = .release := by
          cases build with
          | debug => rw [Build.add_debug hbig] at hneeded; cases hneeded
          | release => rfl
        subst hrelease
        by_cases hcapture : f.capture = true
        · simp only [if_pos hcapture, Build.add_release, ok_bind, slice_wrapped hf hbig hsmall,
            error_bind, if_pos (And.intro hcapture hbig)]
          rfl
        · have hkeep : ¬ (f.capture = true ∧ word ≤ remaining + 2) := fun h => hcapture h.1
          simp only [if_neg hkeep, if_neg hcapture, hscan, turnOf, goto_drop hf hn,
            Message.pushBody_of_not_capture hcapture]
          rfl
      · obtain rfl := Build.add_ok hneeded (Nat.lt_of_not_le hbig)
        have hkeep : ¬ (f.capture = true ∧ word ≤ remaining + 2) := fun h => hbig h.2
        have hadd := add_scanned hf build (show remaining ≤ f.rest.length + 2 by omega)
        have hdata := slice_rest hf (show remaining ≤ f.rest.length by omega)
        simp only [if_neg hkeep, hadd, hscan, ok_bind, hdata, turnOf, goto_drop hf hn]
        by_cases hcapture : f.capture = true
        · simp only [if_pos hcapture, Message.pushBody]
          rfl
        · simp only [if_neg hcapture, Message.pushBody]
          rfl

end ResponseFramer

end Wrkrs
