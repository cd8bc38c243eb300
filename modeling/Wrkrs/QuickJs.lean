import Wrkrs.Verify
import Wrkrs.WrkLua

/-!
# Formatting in the script engine

A call formats the headers of an object and writes Host and Content-Length back into it.
The object is an ordered table in which an assignment keeps the place of its key.
-/

namespace Wrkrs

set_option autoImplicit false

open Text Machine Tables

variable {F : Type}

/-- The float type of the engine: a length as a float and the text of a float. -/
structure Floats (F : Type) where
  ofLength : Nat → F
  text : F → Str

/-- The scalars, and everything that does not convert to text. -/
inductive JsValue (F : Type) where
  | string (value : Str)
  | int (value : Int)
  | float (value : F)
  | bool (value : Bool)
  | other

abbrev JsObject (F : Type) := Table Str (JsValue F)

inductive JsError where
  | fromJs (source target message : Str)
  | fromUtf8 (request : Bytes)
  | fault (fault : Fault)

def scalarError : JsError :=
  .fromJs "value".toList "string".toList "only scalars convert".toList

def coerceScalar (floats : Floats F) : JsValue F → Except JsError Str
  | .string value => .ok value
  | .int value => .ok (signed value)
  | .float value => .ok (floats.text value)
  | .bool value => .ok (if value then "true".toList else "false".toList)
  | .other => .error scalarError

/-- A length is an integer of the engine up to 31 bits and a float beyond. -/
def lengthValue (floats : Floats F) (length : Nat) : JsValue F :=
  if length ≤ 0x7FFFFFFF then .int length else .float (floats.ofLength length)

structure JsWrk (F : Type) where
  method : Str
  path : Str
  headers : JsObject F
  body : Option Str

def coercePairs (floats : Floats F) : List (Str × JsValue F) → Except JsError Headers
  | [] => .ok []
  | entry :: entries => do
    let value ← coerceScalar floats entry.2
    let pairs ← coercePairs floats entries
    return (entry.1, value) :: pairs

/-- An absent Host and one that is no scalar are the same. -/
def JsWrk.defaultHost (floats : Floats F) (wrk : JsWrk F) : Option Str :=
  (wrk.headers.get hostName).bind fun value => (coerceScalar floats value).toOption

def writeHost (headers : JsObject F) (hasHost : Bool) : Option Str → JsObject F
  | some host => if hasHost then headers else headers.set hostName (some (.string host))
  | none => headers

def writeBack (floats : Floats F) (headers : JsObject F) (hasHost : Bool)
    (defaultHost body : Option Str) : JsObject F :=
  (writeHost headers hasHost defaultHost).set contentLengthName
    (body.map fun body => lengthValue floats (encode body).length)

/-- What a call returns and the object it leaves; an error before the write-back leaves the
object as it was. -/
def formatRequestJs (floats : Floats F) (wrk : JsWrk F) (method path : Option Str)
    (headers : Option (JsObject F)) (body : Option Str) : Except JsError Str × JsObject F :=
  let headers := headers.getD wrk.headers
  let method := method.getD wrk.method
  let path := path.getD wrk.path
  let body := body.or wrk.body
  match coercePairs floats headers.pairs with
  | .error error => (.error error, headers)
  | .ok pairs =>
    let defaultHost := wrk.defaultHost floats
    let hasHost := pairs.any fun entry => entry.1 == hostName
    match formatRequest method path pairs (body.map encode) defaultHost with
    | .error fault => (.error (.fault fault), headers)
    | .ok request =>
      (match fromUtf8 request with
        | some text => .ok text
        | none => .error (.fromUtf8 request),
        writeBack floats headers hasHost defaultHost body)

def requestText (method path : Str) (pairs : Headers) (body host : Option Str) : RequestText :=
  ⟨requestLine method path, (effectiveHeaders pairs (body.map encode) host).map headerText,
    body.getD []⟩

/-- The object a call formats: that of wrk, or one the script passes. -/
inductive HeadersArgument where
  | absent
  | shared
  deriving DecidableEq, Repr

structure JsCall where
  method : Option Str
  path : Option Str
  headers : HeadersArgument
  body : Option Str
  deriving DecidableEq, Repr

structure JsState (F : Type) where
  wrk : JsWrk F
  shared : JsObject F

namespace JsState
variable (floats : Floats F) (s : JsState F)

def object : HeadersArgument → JsObject F
  | .absent => s.wrk.headers
  | .shared => s.shared

def argument : HeadersArgument → Option (JsObject F)
  | .absent => none
  | .shared => some s.shared

def store (headers : JsObject F) : HeadersArgument → JsState F
  | .absent => { s with wrk := { s.wrk with headers := headers } }
  | .shared => { s with shared := headers }

def call (c : JsCall) : Except JsError Str × JsState F :=
  let answer := formatRequestJs floats s.wrk c.method c.path (s.argument c.headers) c.body
  (answer.1, s.store answer.2 c.headers)

def after (calls : List JsCall) : JsState F := calls.foldl (fun s c => (s.call floats c).2) s

def writes (c : JsCall) (pairs : Headers) : RequestText :=
  requestText (c.method.getD s.wrk.method) (c.path.getD s.wrk.path) pairs (c.body.or s.wrk.body)
    (s.wrk.defaultHost floats)

def lines (c : JsCall) : Except JsError RequestText :=
  (coercePairs floats (s.object c.headers).pairs).map (s.writes floats c)

end JsState

section Rules
variable {pairs : Headers} {host : Option Str}

/-- The headers that the rules leave, with the text of a length or none. -/
def written (pairs : Headers) (host length : Option Str) : Headers :=
  put (addHost pairs host) contentLengthName length

/-- What the rules leave apart from the length. -/
def lasting (pairs : Headers) (host : Option Str) : Headers :=
  remove (addHost pairs host) contentLengthName

theorem addHost_written (length : Option Str) :
    addHost (written pairs host length) host = written pairs host length := by
  cases host with
  | none => rfl
  | some host =>
    have hmem : hostName ∈ keys (written pairs (some host) length) := by
      rw [written, mem_keys_put length (by decide), addHost_some]
      exact mem_keys_assignNew
    rw [addHost_some, assignNew, if_pos hmem]

/-- The rules may be applied any number of times. -/
theorem lasting_written (length : Option Str) :
    lasting (written pairs host length) host = lasting pairs host := by
  rw [lasting, addHost_written, written, remove_put, ← lasting]

theorem nodup_addHost (h : (keys pairs).Nodup) : (keys (addHost pairs host)).Nodup := by
  cases host with
  | none => exact h
  | some host =>
    rw [addHost_some]
    exact nodup_assignNew h

theorem written_perm (length : Option Str) (h : (keys pairs).Nodup) :
    (written pairs host length).Perm
      ((length.map fun text => (contentLengthName, text)).toList ++ lasting pairs host) :=
  put_perm length (nodup_addHost h)

theorem effectiveHeaders_written (body : Option Str) :
    effectiveHeaders pairs (body.map encode) host =
      written pairs host (body.map fun body => decimal (encode body).length) := by
  rw [effectiveHeaders_put, written, Option.map_map]
  rfl

theorem sent_perm {pairs' : Headers} (body : Option Str) (hn : (keys pairs).Nodup)
    (hn' : (keys pairs').Nodup) (h : lasting pairs host = lasting pairs' host) :
    (effectiveHeaders pairs (body.map encode) host).Perm
      (effectiveHeaders pairs' (body.map encode) host) := by
  rw [effectiveHeaders_written, effectiveHeaders_written]
  refine (written_perm _ hn).trans ?_
  rw [h]
  exact (written_perm _ hn').symm

end Rules

section Objects
variable {floats : Floats F} {headers : JsObject F} {pairs : Headers}

def Reads (floats : Floats F) (value : JsValue F) (text : Str) : Prop :=
  coerceScalar floats value = .ok text

theorem coercePairs_ok {entries : List (Str × JsValue F)}
    (h : coercePairs floats entries = .ok pairs) :
    Related (Reads floats) entries pairs := by
  induction entries generalizing pairs with
  | nil =>
    cases h
    exact .nil
  | cons entry entries ih =>
    rw [coercePairs] at h
    cases hvalue : coerceScalar floats entry.2 with
    | error e =>
      rw [hvalue] at h
      cases h
    | ok text =>
      cases hrest : coercePairs floats entries with
      | error e =>
        rw [hvalue, hrest] at h
        cases h
      | ok rest =>
        rw [hvalue, hrest] at h
        cases h
        exact .cons ⟨rfl, hvalue⟩ (ih hrest)

theorem coercePairs_of_related {entries : List (Str × JsValue F)}
    (h : Related (Reads floats) entries pairs) : coercePairs floats entries = .ok pairs := by
  induction h with
  | nil => rfl
  | @cons entry pair entries pairs hentry _ ih =>
    have hvalue : coerceScalar floats entry.2 = .ok pair.2 := hentry.2
    rw [coercePairs, hvalue, ih, hentry.1]
    rfl

def lengthText (floats : Floats F) (length : Nat) : Str :=
  if length ≤ 0x7FFFFFFF then decimal length else floats.text (floats.ofLength length)

theorem reads_length (length : Nat) :
    Reads floats (lengthValue floats length) (lengthText floats length) := by
  unfold Reads lengthValue lengthText
  split
  · exact congrArg Except.ok (if_neg (by omega))
  · rfl

theorem writeBack_reads (host body : Option Str) (h : Related (Reads floats) headers.pairs pairs) :
    Related (Reads floats)
      (writeBack floats headers (pairs.any fun entry => entry.1 == hostName) host body).pairs
      (written pairs host (body.map fun body => lengthText floats (encode body).length)) := by
  have hlength : Option.Rel (Reads floats)
      (body.map fun body => lengthValue floats (encode body).length)
      (body.map fun body => lengthText floats (encode body).length) := by
    cases body with
    | none => exact .none
    | some body => exact .some (reads_length _)
  rw [any_name, writeBack, Table.pairs_set]
  apply Related.put _ hlength
  cases host with
  | none => exact h
  | some host =>
    rw [addHost_some, assignNew, writeHost]
    by_cases hmem : hostName ∈ keys pairs
    · rw [decide_eq_true hmem, if_pos rfl, if_pos hmem]
      exact h
    · rw [decide_eq_false hmem, if_neg Bool.false_ne_true, if_neg hmem]
      exact h.assign rfl

theorem writeBack_host {hasHost : Bool} {host : Option Str} (body : Option Str)
    (h : hasHost = true ∨ host = none) :
    (writeBack floats headers hasHost host body).get hostName = headers.get hostName := by
  have hkept : writeHost headers hasHost host = headers := by
    rcases h with rfl | rfl
    · cases host <;> rfl
    · rfl
  rw [writeBack, hkept, Table.get, Table.pairs_set, value_put _ (by decide)]
  rfl

end Objects

def RequestText.joined (text : RequestText) : Str :=
  ['\r', '\n'].intercalate (text.line :: text.headers ++ [[], text.body])

/-- A request of text is returned unless it is too long for a vector. -/
def RequestText.returned (text : RequestText) : Except JsError Str :=
  if text.bytes.length ≤ vecMax then .ok text.joined else .error (.fault .capacity)

namespace JsState
variable {floats : Floats F} {s : JsState F} {c : JsCall}

theorem getD_argument (a : HeadersArgument) :
    (s.argument a).getD s.wrk.headers = s.object a := by
  cases a <;> rfl

theorem store_object (a : HeadersArgument) : s.store (s.object a) a = s := by
  cases a <;> rfl

theorem formatRequest_cases (method path : Str) (pairs : Headers) (body host : Option Str) :
    (formatRequest method path pairs (body.map encode) host =
        .ok (requestText method path pairs body host).bytes ∧
      (requestText method path pairs body host).returned =
        .ok (requestText method path pairs body host).joined) ∨
    (formatRequest method path pairs (body.map encode) host = .error .capacity ∧
      (requestText method path pairs body host).returned = .error (.fault .capacity)) := by
  have hformat : formatRequest method path pairs (body.map encode) host =
      extend [] (requestText method path pairs body host).bytes :=
    congrArg (extend []) (requestBytes_text method path pairs body host)
  rw [hformat, extend, RequestText.returned, List.length_nil, Nat.zero_add]
  by_cases hfits : (requestText method path pairs body host).bytes.length ≤ vecMax
  · rw [if_pos hfits, if_pos hfits]
    exact .inl ⟨rfl, rfl⟩
  · rw [if_neg hfits, if_neg hfits]
    exact .inr ⟨rfl, rfl⟩

theorem call_cases (floats : Floats F) (s : JsState F) (c : JsCall) :
    (s.call floats c).1 = (s.lines floats c).bind RequestText.returned ∧
      ((s.call floats c).2 = s ∨
        ∃ pairs, coercePairs floats (s.object c.headers).pairs = .ok pairs ∧
          (s.call floats c).2 = s.store (writeBack floats (s.object c.headers)
            (pairs.any fun entry => entry.1 == hostName) (s.wrk.defaultHost floats)
            (c.body.or s.wrk.body)) c.headers) := by
  unfold call lines formatRequestJs
  simp only [getD_argument]
  cases hpairs : coercePairs floats (s.object c.headers).pairs with
  | error e => exact ⟨rfl, .inl (store_object c.headers)⟩
  | ok pairs =>
    rcases formatRequest_cases (c.method.getD s.wrk.method) (c.path.getD s.wrk.path) pairs
      (c.body.or s.wrk.body) (s.wrk.defaultHost floats) with
      ⟨hformat, hreturned⟩ | ⟨hformat, hreturned⟩
    · simp only [hformat, RequestText.bytes, fromUtf8_encode]
      exact ⟨hreturned.symm, .inr ⟨pairs, rfl, rfl⟩⟩
    · simp only [hformat]
      exact ⟨hreturned.symm, .inl (store_object c.headers)⟩

def lastingOf (floats : Floats F) (s : JsState F) (a : HeadersArgument) : Except JsError Headers :=
  (coercePairs floats (s.object a).pairs).map (lasting · (s.wrk.defaultHost floats))

/-- Calls tell two states apart by the order of the headers at most. -/
structure Alike (floats : Floats F) (s t : JsState F) : Prop where
  method : t.wrk.method = s.wrk.method
  path : t.wrk.path = s.wrk.path
  body : t.wrk.body = s.wrk.body
  host : t.wrk.defaultHost floats = s.wrk.defaultHost floats
  lasting : ∀ a, t.lastingOf floats a = s.lastingOf floats a

theorem Alike.refl (s : JsState F) : Alike floats s s := ⟨rfl, rfl, rfl, rfl, fun _ => rfl⟩

theorem Alike.trans {t u : JsState F} (h : Alike floats s t) (h' : Alike floats t u) :
    Alike floats s u where
  method := h'.method.trans h.method
  path := h'.path.trans h.path
  body := h'.body.trans h.body
  host := h'.host.trans h.host
  lasting a := (h'.lasting a).trans (h.lasting a)

theorem store_host {pairs : Headers} (body : Option Str) (a : HeadersArgument)
    (h : coercePairs floats (s.object a).pairs = .ok pairs) :
    (s.store (writeBack floats (s.object a) (pairs.any fun entry => entry.1 == hostName)
      (s.wrk.defaultHost floats) body) a).wrk.defaultHost floats = s.wrk.defaultHost floats := by
  cases a with
  | shared => rfl
  | absent =>
    have hnone : hostName ∉ keys pairs → s.wrk.defaultHost floats = none := by
      intro hmem
      have hkeys : keys s.wrk.headers.pairs = keys pairs := (coercePairs_ok h).keys_eq
      have hget : s.wrk.headers.get hostName = none := value_none.mpr (hkeys ▸ hmem)
      rw [JsWrk.defaultHost, hget]
      rfl
    have hkept : (pairs.any fun entry => entry.1 == hostName) = true ∨
        s.wrk.defaultHost floats = none := by
      rw [any_name, decide_eq_true_eq]
      exact or_iff_not_imp_left.mpr hnone
    exact congrArg (Option.bind · fun value => (coerceScalar floats value).toOption)
      (writeBack_host body hkept)

theorem object_store (headers : JsObject F) (a : HeadersArgument) :
    (s.store headers a).object a = headers := by
  cases a <;> rfl

theorem object_store_of_ne (headers : JsObject F) {a b : HeadersArgument} (h : a ≠ b) :
    (s.store headers a).object b = s.object b := by
  cases a <;> cases b <;> first | rfl | exact absurd rfl h

theorem call_alike (floats : Floats F) (s : JsState F) (c : JsCall) :
    Alike floats s (s.call floats c).2 := by
  rcases (call_cases floats s c).2 with hsame | ⟨pairs, hpairs, hstate⟩
  · rw [hsame]
    exact .refl s
  · have hreads := writeBack_reads (s.wrk.defaultHost floats) (c.body.or s.wrk.body)
      (coercePairs_ok hpairs)
    have hhost := store_host (c.body.or s.wrk.body) c.headers hpairs
    rw [hstate]
    refine ⟨?_, ?_, ?_, hhost, ?_⟩
    · cases c.headers <;> rfl
    · cases c.headers <;> rfl
    · cases c.headers <;> rfl
    · intro a
      rw [lastingOf, hhost]
      by_cases ha : c.headers = a
      · subst ha
        rw [object_store, coercePairs_of_related hreads, lastingOf, hpairs]
        exact congrArg Except.ok (lasting_written _)
      · rw [object_store_of_ne _ ha]
        rfl

theorem after_alike (floats : Floats F) (s : JsState F) (calls : List JsCall) :
    Alike floats s (s.after floats calls) := by
  induction calls generalizing s with
  | nil => exact .refl s
  | cons c calls ih => exact (call_alike floats s c).trans (ih _)

end JsState

/-- The same request with its header lines in any order. -/
structure RequestText.Reordered (a b : RequestText) : Prop where
  line : a.line = b.line
  headers : a.headers.Perm b.headers
  body : a.body = b.body

theorem RequestText.Reordered.length_bytes {a b : RequestText} (h : a.Reordered b) :
    a.bytes.length = b.bytes.length := by
  have hlines : (a.headers ++ [[], a.body]).Perm (b.headers ++ [[], b.body]) := by
    rw [h.body]
    exact h.headers.append_right _
  rw [RequestText.bytes, RequestText.bytes, List.cons_append, List.cons_append, encode_join,
    encode_join, List.length_append, List.length_append, h.line,
    (hlines.flatMap_right fun next => 13 :: 10 :: encode next).length_eq]

theorem RequestText.Reordered.returned {a b : RequestText} (h : a.Reordered b) :
    (a.returned = .ok a.joined ∧ b.returned = .ok b.joined) ∨
      (a.returned = .error (.fault .capacity) ∧ b.returned = .error (.fault .capacity)) := by
  unfold RequestText.returned
  rw [h.length_bytes]
  by_cases hfits : b.bytes.length ≤ vecMax
  · rw [if_pos hfits, if_pos hfits]
    exact .inl ⟨rfl, rfl⟩
  · rw [if_neg hfits, if_neg hfits]
    exact .inr ⟨rfl, rfl⟩

namespace JsState
variable {floats : Floats F} {s t : JsState F} {c : JsCall}

theorem nodup_pairs {pairs : Headers} {headers : JsObject F}
    (h : coercePairs floats headers.pairs = .ok pairs) : (keys pairs).Nodup :=
  (coercePairs_ok h).keys_eq ▸ headers.nodup

theorem Alike.writes {pairs pairs' : Headers} (h : Alike floats s t) (hn : (keys pairs).Nodup)
    (hn' : (keys pairs').Nodup)
    (hlasting : Wrkrs.lasting pairs' (s.wrk.defaultHost floats) =
      Wrkrs.lasting pairs (s.wrk.defaultHost floats)) :
    (t.writes floats c pairs').Reordered (s.writes floats c pairs) := by
  unfold JsState.writes
  rw [h.method, h.path, h.body, h.host]
  exact ⟨rfl, (sent_perm _ hn' hn hlasting).map headerText, rfl⟩

theorem Alike.lines (h : Alike floats s t) (c : JsCall) :
    (∃ e, t.lines floats c = .error e ∧ s.lines floats c = .error e) ∨
      ∃ a b, t.lines floats c = .ok a ∧ s.lines floats c = .ok b ∧ a.Reordered b := by
  have hlasting := h.lasting c.headers
  unfold lastingOf at hlasting
  unfold JsState.lines
  rw [h.host] at hlasting
  cases hold : coercePairs floats (s.object c.headers).pairs with
  | error e =>
    cases hnew : coercePairs floats (t.object c.headers).pairs with
    | error e' =>
      rw [hold, hnew] at hlasting
      obtain rfl : e' = e := Except.error.inj hlasting
      exact .inl ⟨e', rfl, rfl⟩
    | ok pairs' =>
      rw [hold, hnew] at hlasting
      cases hlasting
  | ok pairs =>
    cases hnew : coercePairs floats (t.object c.headers).pairs with
    | error e =>
      rw [hold, hnew] at hlasting
      cases hlasting
    | ok pairs' =>
      rw [hold, hnew] at hlasting
      exact .inr ⟨_, _, rfl, rfl,
        h.writes (nodup_pairs hold) (nodup_pairs hnew) (Except.ok.inj hlasting)⟩

/-- A call on an empty object leaves both headers in it. -/
example (floats : Floats F) :
    (JsState.call floats
      ⟨⟨[], [], Table.empty.set hostName (some (.string "h".toList)), none⟩, Table.empty⟩
      ⟨some "POST".toList, some ['/'], .shared, some "xx".toList⟩).2.shared.pairs =
      [(hostName, .string "h".toList), (contentLengthName, .int 2)] := rfl

end JsState

end Wrkrs
