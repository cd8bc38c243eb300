import Mathlib.Data.List.TakeDrop
import Wrkrs.ConfigWire

/-!
# The script environment

The request of the embedded environment under a script that assigns what a benchmark file
says, beside the request made from the file. Headers of the command line come first in both.
-/

namespace Wrkrs

set_option autoImplicit false

open Text Machine Splitting Tables

/-- A header splits at its first colon when a space follows. -/
def splitHeader (header : Str) : Option (Str × Str) :=
  match header.span (· != ':') with
  | (name, ':' :: ' ' :: value) => some (name, value)
  | _ => none

/-- Headers without that separator drop silently. -/
def splitHeaders (raw : List Str) : Headers := raw.filterMap splitHeader

/-- The wrk table; a missing field is nil. -/
structure Wrk where
  scheme : Option Str
  host : Option Str
  port : Option Str
  method : Str
  path : Str
  headers : Table Str Str
  body : Option Str

/-- An order of visiting the entries of a table. -/
structure Traversal where
  visit : Table Str Str → Headers
  perm : ∀ t, (visit t).Perm t.pairs

def Traversal.inOrder : Traversal := ⟨Table.pairs, fun _ => .refl _⟩

structure RequestText where
  line : Str
  headers : List Str
  body : Str
  deriving DecidableEq, Repr

def RequestText.bytes (text : RequestText) : Bytes :=
  encode (['\r', '\n'].intercalate (text.line :: text.headers ++ [[], text.body]))

/-- The same lines in any order. -/
structure RequestText.Same (a b : RequestText) : Prop where
  line : a.line = b.line
  headers : ∀ line, line ∈ a.headers ↔ line ∈ b.headers
  body : a.body = b.body

namespace Wrk

def defaults : Wrk :=
  ⟨some "http".toList, some "localhost".toList, none, "GET".toList, "/".toList, .empty, none⟩

def installWrkTable (spec : ScriptSpec) : Wrk :=
  { defaults with
    scheme := spec.parts.scheme
    host := spec.parts.host
    port := spec.parts.port
    path := spec.parts.path
    headers := defaults.headers.setAll spec.headers }

/-- Without a Host header the URL gives one; a nil host is an error. -/
def init (wrk : Wrk) : Option Wrk :=
  match wrk.headers.get hostName, wrk.host with
  | some _, _ => some wrk
  | none, none => none
  | none, some host =>
    let host := if host.contains ':' then '[' :: (host ++ [']']) else host
    let host := match wrk.port with
      | some port => host ++ ':' :: port
      | none => host
    some { wrk with headers := wrk.headers.set hostName (some host) }

/-- What is not given is taken from the table. -/
def format (order : Traversal) (wrk : Wrk) (method path : Option Str)
    (headers : Option (Table Str Str)) (body : Option Str) : RequestText :=
  let method := method.getD wrk.method
  let path := path.getD wrk.path
  let headers := headers.getD wrk.headers
  let body := body.or wrk.body
  let headers := match headers.get hostName with
    | some _ => headers
    | none => headers.set hostName (wrk.headers.get hostName)
  let headers := headers.set contentLengthName (body.map fun b => decimal (encode b).length)
  ⟨requestLine method path, (order.visit headers).map headerText, body.getD []⟩

end Wrk

inductive Assignment where
  | method (value : Str)
  | path (value : Str)
  | body (value : Str)
  | header (name value : Str)
  deriving DecidableEq, Repr

def Assignment.run (wrk : Wrk) : Assignment → Wrk
  | .method value => { wrk with method := value }
  | .path value => { wrk with path := value }
  | .body value => { wrk with body := some value }
  | .header name value => { wrk with headers := wrk.headers.set name (some value) }

/-- The assignments of what a file says. -/
def BenchFile.script (file : BenchFile) : List Assignment :=
  (file.request.method.map .method).toList ++ (file.request.path.map .path).toList ++
    (file.request.body.map .body).toList ++
    file.request.headers.map fun entry => .header entry.1 entry.2

def scriptText (order : Traversal) (spec : ScriptSpec) (file : BenchFile) : Option RequestText :=
  ((file.script.foldl Assignment.run (Wrk.installWrkTable spec)).init).map fun wrk =>
    wrk.format order none none none none

def fileText (spec : ScriptSpec) (file : BenchFile) : RequestText where
  line := requestLine (file.request.method.getD "GET".toList)
    (file.request.path.getD spec.parts.path)
  headers := (effectiveHeaders (overlay spec.headers file.request.headers)
    (file.request.body.map encode)
    (some (hostHeader (spec.parts.host.getD []) spec.parts.port))).map headerText
  body := file.request.body.getD []

theorem encode_join (line : Str) (lines : List Str) :
    encode (['\r', '\n'].intercalate (line :: lines)) =
      encode line ++ lines.flatMap fun next => 13 :: 10 :: encode next := by
  rw [join_cons, encode_append]
  congr 1
  induction lines with
  | nil => rfl
  | cons next lines ih =>
    rw [List.flatMap_cons, List.flatMap_cons, encode_append, ih]
    rfl

theorem requestBytes_text (method path : Str) (headers : Headers) (body host : Option Str) :
    requestBytes method path headers (body.map encode) host =
      RequestText.bytes ⟨requestLine method path,
        (effectiveHeaders headers (body.map encode) host).map headerText, body.getD []⟩ := by
  rw [RequestText.bytes, List.cons_append, encode_join, requestBytes, List.flatMap_append]
  simp only [List.flatMap_map, List.flatMap_cons, List.flatMap_nil, List.append_assoc,
    List.append_nil]
  cases body <;> rfl

theorem formatted_text {spec : ScriptSpec} {file : BenchFile} {request : Bytes}
    (h : ConfigEngine.formatted spec file = .ok request) :
    request = (fileText spec file).bytes :=
  (formatRequest_eq h).1.trans (requestBytes_text _ _ _ _ _)

section Script
variable {spec : ScriptSpec} {file : BenchFile}

def BenchFile.assigned (file : BenchFile) (wrk : Wrk) : Wrk :=
  { wrk with
    method := file.request.method.getD wrk.method
    path := file.request.path.getD wrk.path
    headers := wrk.headers.setAll file.request.headers
    body := file.request.body.or wrk.body }

theorem run_headers (wrk : Wrk) (headers : Headers) :
    (headers.map fun entry => Assignment.header entry.1 entry.2).foldl Assignment.run wrk =
      { wrk with headers := wrk.headers.setAll headers } := by
  induction headers generalizing wrk with
  | nil => rfl
  | cons entry headers ih => exact ih _

theorem run_script (file : BenchFile) (wrk : Wrk) :
    file.script.foldl Assignment.run wrk = file.assigned wrk := by
  rw [BenchFile.script, List.foldl_append, List.foldl_append, List.foldl_append, run_headers,
    BenchFile.assigned]
  cases file.request.method <;> cases file.request.path <;> cases file.request.body <;> rfl

theorem installWrkTable_headers (spec : ScriptSpec) :
    (Wrk.installWrkTable spec).headers.pairs = assignAll [] spec.headers :=
  Table.pairs_setAll Table.empty spec.headers

theorem assigned_headers (spec : ScriptSpec) (file : BenchFile) :
    (file.assigned (Wrk.installWrkTable spec)).headers.pairs =
      assignAll [] (spec.headers ++ file.request.headers) := by
  change (Table.setAll _ file.request.headers).pairs = _
  rw [Table.pairs_setAll, installWrkTable_headers]
  exact (List.foldl_append ..).symm

/-- A Host header named on the command line or in the file, or a host in the URL. -/
def HostGiven (spec : ScriptSpec) (file : BenchFile) : Prop :=
  hostName ∈ keys (spec.headers ++ file.request.headers) ∨ spec.parts.host ≠ none

def hostRule (headers : Headers) (host : Str) : Headers := assignNew headers hostName host

theorem get_host {wrk : Wrk} {headers : Headers} (h : wrk.headers.pairs = headers) :
    (∃ host, wrk.headers.get hostName = some host) ↔ hostName ∈ keys headers := by
  rw [← value_isSome, ← h, Option.isSome_iff_exists]
  rfl

/-- The environment keeps a request exactly when it has a host to send. -/
theorem init_cases (wrk : Wrk) :
    (wrk.init = none ∧ hostName ∉ keys wrk.headers.pairs ∧ wrk.host = none) ∨
      ∃ wrk', wrk.init = some wrk' ∧
        wrk'.headers.pairs = hostRule wrk.headers.pairs (hostHeader (wrk.host.getD []) wrk.port) ∧
        (hostName ∈ keys wrk.headers.pairs ∨ wrk.host ≠ none) ∧
        wrk'.method = wrk.method ∧ wrk'.path = wrk.path ∧ wrk'.body = wrk.body := by
  unfold Wrk.init
  cases hget : wrk.headers.get hostName with
  | some host =>
    have hmem := (get_host rfl).mp ⟨host, hget⟩
    exact .inr ⟨wrk, rfl, (if_pos hmem).symm, .inl hmem, rfl, rfl, rfl⟩
  | none =>
    have hnone : hostName ∉ keys wrk.headers.pairs := value_none.mp hget
    cases hhost : wrk.host with
    | none => exact .inl ⟨rfl, hnone, rfl⟩
    | some host =>
      refine .inr ⟨_, rfl, ?_, .inr (Option.some_ne_none host), rfl, rfl, rfl⟩
      rw [hostRule, assignNew, if_neg hnone]
      rfl

theorem withLength_set (headers : Table Str Str) (body : Option Str) :
    (headers.set contentLengthName (body.map fun b => decimal (encode b).length)).pairs =
      withLength headers.pairs (body.map encode) := by
  cases body <;> rfl

theorem format_headers {order : Traversal} {wrk : Wrk} {headers : Headers}
    (h : wrk.headers.pairs = headers) (hhost : hostName ∈ keys headers) (line : Str) :
    line ∈ (wrk.format order none none none none).headers ↔
      line ∈ (withLength headers (wrk.body.map encode)).map headerText := by
  obtain ⟨host, hget⟩ := (get_host h).mpr hhost
  unfold Wrk.format
  simp only [Option.getD_none, Option.none_or, hget]
  rw [((order.perm _).map headerText).mem_iff, withLength_set, h]

theorem mem_keys_hostRule (headers : Headers) (host : Str) :
    hostName ∈ keys (hostRule headers host) := mem_keys_assignNew

/-- The request of a script has the line, the body and the table of headers that its
assignments leave. -/
theorem scriptText_cases (order : Traversal) (spec : ScriptSpec) (file : BenchFile) :
    (scriptText order spec file = none ∧ ¬ HostGiven spec file) ∨
      ∃ text, scriptText order spec file = some text ∧ HostGiven spec file ∧
        text.line = (fileText spec file).line ∧ text.body = (fileText spec file).body ∧
        ∀ line, line ∈ text.headers ↔
          line ∈ (withLength (hostRule (assignAll [] (spec.headers ++ file.request.headers))
            (hostHeader (spec.parts.host.getD []) spec.parts.port))
              (file.request.body.map encode)).map headerText := by
  have hheaders := assigned_headers spec file
  have hkeys : hostName ∈ keys (assignAll [] (spec.headers ++ file.request.headers)) ↔
      hostName ∈ keys (spec.headers ++ file.request.headers) := by
    rw [mem_keys_assignAll]
    exact or_iff_right List.not_mem_nil
  unfold scriptText
  rw [run_script]
  rcases init_cases (file.assigned (Wrk.installWrkTable spec)) with
    ⟨hinit, hnone, hhost⟩ | ⟨wrk, hinit, hset, hgiven, hmethod, hpath, hbody⟩
  · rw [hheaders, hkeys] at hnone
    refine .inl ⟨by rw [hinit]; rfl, ?_⟩
    rintro (hmem | hurl)
    · exact hnone hmem
    · exact hurl hhost
  · rw [hheaders, hkeys] at hgiven
    rw [hheaders] at hset
    refine .inr ⟨wrk.format order none none none none, by rw [hinit]; rfl, hgiven, ?_, ?_, ?_⟩
    · change requestLine wrk.method wrk.path = _
      rw [hmethod, hpath]
      rfl
    · change (Option.or none wrk.body).getD [] = _
      rw [hbody]
      change (file.request.body.or none).getD [] = _
      rw [Option.or_none]
      rfl
    · intro line
      rw [format_headers hset (mem_keys_hostRule _ _), hbody]
      change line ∈ (withLength _ ((file.request.body.or none).map encode)).map headerText ↔ _
      rw [Option.or_none]
      rfl

end Script

section Names
variable {base : Headers} {file : BenchFile} {host name : Str}

def finalValue (base : Headers) (file : BenchFile) (name : Str) : Option Str :=
  if name = contentLengthName then file.request.body.map fun body => decimal (encode body).length
  else value (base ++ file.request.headers).reverse name

/-- The headers of the command line that the file leaves as they are: all of a name but the
first where the file or its body sets the name, and none of Content-Length without a body. -/
def leftAsGiven (base : Headers) (file : BenchFile) (name : Str) : Headers :=
  if name = contentLengthName then
    match file.request.body with
    | some _ => (entries base name).tail
    | none => []
  else leftover base file.request.headers name

/-- No header of the command line is left with another value than the last of its name. -/
def NoStale (base : Headers) (file : BenchFile) : Prop :=
  ∀ name, ∀ entry ∈ leftAsGiven base file name, some entry.2 = finalValue base file name

/-- The names of the command line decide it. -/
theorem noStale_iff (base : Headers) (file : BenchFile) :
    NoStale base file ↔ ∀ name ∈ keys base, ∀ entry ∈ leftAsGiven base file name,
      some entry.2 = finalValue base file name := by
  constructor
  · intro h name _
    exact h name
  · intro h name entry hmem
    have hentries : entry ∈ entries base name := by
      unfold leftAsGiven leftover at hmem
      split at hmem
      · cases hbody : file.request.body with
        | none =>
          rw [hbody] at hmem
          cases hmem
        | some body =>
          rw [hbody] at hmem
          exact List.mem_of_mem_tail hmem
      · split at hmem
        · exact List.mem_of_mem_tail hmem
        · exact hmem
    obtain ⟨hbase, rfl⟩ := mem_entries.mp hentries
    exact h _ (List.mem_map_of_mem hbase) entry hmem

theorem entries_withLength (headers : Headers) (body : Option Bytes) :
    entries (withLength headers body) name =
      if name = contentLengthName then
        match body with
        | some body => (contentLengthName, decimal body.length) :: (entries headers name).tail
        | none => []
      else entries headers name := by
  unfold withLength
  cases body with
  | none =>
    change entries (remove headers contentLengthName) name = _
    rw [entries_remove]
    by_cases hname : contentLengthName = name
    · rw [if_pos hname, if_pos hname.symm]
    · rw [if_neg hname, if_neg (Ne.symm hname)]
  | some body =>
    change entries (assign headers contentLengthName _) name = _
    rw [entries_assign]
    by_cases hname : contentLengthName = name
    · rw [if_pos hname, if_pos hname.symm, hname]
    · rw [if_neg hname, if_neg (Ne.symm hname)]

theorem same_one {l : Headers} {v : Str} (hkeys : ∀ e ∈ l, e.1 = name) (hmem : (name, v) ∈ l) :
    (∀ e, e ∈ l ↔ e ∈ [(name, v)]) ↔ ∀ e ∈ l, some e.2 = some v := by
  constructor
  · intro h e he
    rw [List.mem_singleton.mp ((h e).mp he)]
  · intro h e
    rw [List.mem_singleton]
    constructor
    · intro he
      exact Prod.ext (hkeys e he) (Option.some.inj (h e he))
    · rintro rfl
      exact hmem

theorem same_head {tail : Headers} {v : Str} (hkeys : ∀ e ∈ tail, e.1 = name) :
    (∀ e, e ∈ (name, v) :: tail ↔ e ∈ [(name, v)]) ↔ ∀ e ∈ tail, some e.2 = some v := by
  rw [same_one (List.forall_mem_cons.mpr ⟨rfl, hkeys⟩) List.mem_cons_self, List.forall_mem_cons]
  exact and_iff_right rfl

theorem keys_entries (headers : Headers) : ∀ e ∈ entries headers name, e.1 = name :=
  fun _ he => (mem_entries.mp he).2

theorem keys_tail (headers : Headers) : ∀ e ∈ (entries headers name).tail, e.1 = name :=
  fun e he => keys_entries headers e (List.mem_of_mem_tail he)

theorem entries_agree (base layer : Headers) (name : Str) :
    (∀ e, e ∈ entries (assignAll base layer) name ↔
      e ∈ entries (assignAll [] (base ++ layer)) name) ↔
      ∀ e ∈ leftover base layer name, some e.2 = value (base ++ layer).reverse name := by
  have hlast : value (base ++ layer).reverse name =
      (value layer.reverse name).or (value base.reverse name) := by
    rw [List.reverse_append, value_append]
  have hnil : entries ([] : Headers) name = [] := rfl
  rw [entries_assignAll, entries_assignAll, hlast, hnil, leftover]
  by_cases hlayer : name ∈ keys layer
  · obtain ⟨v, hv⟩ := Option.isSome_iff_exists.mp (value_isSome.mpr (mem_keys_reverse.mpr hlayer))
    rw [if_pos hlayer, hv]
    exact same_head (keys_tail base)
  · have hnone : value layer.reverse name = none :=
      value_none.mpr fun hmem => hlayer (mem_keys_reverse.mp hmem)
    rw [if_neg hlayer, hnone, Option.none_or]
    cases hbase : value base.reverse name with
    | none =>
      have hempty : entries base name = [] :=
        entries_eq_nil.mpr fun hmem => value_none.mp hbase (mem_keys_reverse.mpr hmem)
      rw [hempty]
      exact iff_of_true (fun _ => Iff.rfl) (by intro e he; cases he)
    | some v =>
      have hmem : (name, v) ∈ entries base name :=
        mem_entries.mpr ⟨List.mem_reverse.mp (mem_of_value hbase), rfl⟩
      exact same_one (keys_entries base) hmem

theorem entries_nil_agree (base layer : Headers) (name : Str) :
    entries (assignAll base layer) name = [] ↔
      entries (assignAll [] (base ++ layer)) name = [] := by
  rw [entries_eq_nil, entries_eq_nil, mem_keys_assignAll, mem_keys_assignAll, keys_append,
    List.mem_append]
  exact not_congr (or_iff_right List.not_mem_nil).symm

/-- The headers sent are those of the script exactly when none is stale. -/
theorem entries_sent_agree (base : Headers) (file : BenchFile) (host name : Str) :
    (∀ e, e ∈ entries (withLength (hostRule (assignAll base file.request.headers) host)
        (file.request.body.map encode)) name ↔
      e ∈ entries (withLength (hostRule (assignAll [] (base ++ file.request.headers)) host)
        (file.request.body.map encode)) name) ↔
      ∀ e ∈ leftAsGiven base file name, some e.2 = finalValue base file name := by
  rw [entries_withLength, entries_withLength, hostRule, hostRule, entries_assignNew,
    entries_assignNew, leftAsGiven, finalValue]
  by_cases hlength : name = contentLengthName
  · have hother : name ≠ hostName := by
      rw [hlength]
      decide
    rw [if_pos hlength, if_pos hlength, if_pos hlength, if_pos hlength,
      if_neg fun h => hother h.1, if_neg fun h => hother h.1]
    cases file.request.body with
    | none => exact iff_of_true (fun _ => Iff.rfl) (by intro e he; cases he)
    | some body =>
      have htails : (entries (assignAll base file.request.headers) name).tail =
          (entries base name).tail := by
        rw [entries_assignAll]
        cases value file.request.headers.reverse name <;> rfl
      have hempty : (entries (assignAll [] (base ++ file.request.headers)) name).tail = [] := by
        rw [entries_assignAll]
        cases value (base ++ file.request.headers).reverse name <;> rfl
      simp only [Option.map_some, htails, hempty, ← hlength]
      exact same_head (keys_tail base)
  · rw [if_neg hlength, if_neg hlength, if_neg hlength, if_neg hlength, ← entries_agree]
    by_cases hdefault : name = hostName ∧ entries (assignAll base file.request.headers) name = []
    · have hdefault' := And.imp_right (entries_nil_agree base file.request.headers name).mp hdefault
      rw [if_pos hdefault, if_pos hdefault', hdefault.2, hdefault'.2]
      exact iff_of_true (fun _ => Iff.rfl) fun _ => Iff.rfl
    · rw [if_neg hdefault, if_neg fun h => hdefault
        (And.imp_right (entries_nil_agree base file.request.headers name).mpr h)]

end Names

theorem headerText_inj {e e' : Str × Str} (h : ':' ∉ e.1) (h' : ':' ∉ e'.1)
    (heq : headerText e = headerText e') : e = e' := by
  have hcut : cutAt [':', ' '] (headerText e) = some (e.1, e.2) := cutAt_first h
  have hcut' : cutAt [':', ' '] (headerText e') = some (e'.1, e'.2) := cutAt_first h'
  rw [heq, hcut'] at hcut
  exact (Option.some.inj hcut).symm

theorem lines_agree {l l' : Headers} (h : ∀ e ∈ l, ':' ∉ e.1) (h' : ∀ e ∈ l', ':' ∉ e.1) :
    (∀ line, line ∈ l.map headerText ↔ line ∈ l'.map headerText) ↔
      ∀ name, ∀ e, e ∈ entries l name ↔ e ∈ entries l' name := by
  have hone : ∀ {l l' : Headers}, (∀ e ∈ l, ':' ∉ e.1) → (∀ e ∈ l', ':' ∉ e.1) →
      (∀ line, line ∈ l.map headerText → line ∈ l'.map headerText) → ∀ e ∈ l, e ∈ l' := by
    intro l l' h h' hlines e he
    obtain ⟨e', he', heq⟩ := List.mem_map.mp (hlines _ (List.mem_map_of_mem he))
    rw [← headerText_inj (h' e' he') (h e he) heq]
    exact he'
  constructor
  · intro hlines name e
    rw [mem_entries, mem_entries]
    exact and_congr_left' ⟨hone h h' (fun line => (hlines line).mp) e,
      hone h' h (fun line => (hlines line).mpr) e⟩
  · intro hentries line
    have hmem : ∀ e, e ∈ l ↔ e ∈ l' := by
      intro e
      have hname := hentries e.1 e
      rw [mem_entries, mem_entries] at hname
      exact ⟨fun he => (hname.mp ⟨he, rfl⟩).1, fun he => (hname.mpr ⟨he, rfl⟩).1⟩
    simp only [List.mem_map, hmem]

theorem splitHeaders_colonless {raw : List Str} {e : Str × Str} (h : e ∈ splitHeaders raw) :
    ':' ∉ e.1 := by
  obtain ⟨header, _, hsplit⟩ := List.mem_filterMap.mp h
  unfold splitHeader at hsplit
  rw [List.span_eq_takeWhile_dropWhile] at hsplit
  split at hsplit
  · rename_i name value hspan
    obtain ⟨hname, _⟩ := Prod.mk.inj hspan
    rw [← Option.some.inj hsplit, ← hname]
    intro hmem
    have hother := List.mem_takeWhile_imp hmem
    exact absurd rfl (bne_iff_ne.mp hother)
  · cases hsplit

theorem ValidHeader.no_colon {e : Str × Str} (h : ValidHeader e) : ':' ∉ e.1 := by
  intro hmem
  have hascii : String.utf8EncodeChar ':' = [byte ':'] := encodeChar_ascii (by decide)
  have hbyte : byte ':' ∈ encode e.1 := List.mem_flatMap.mpr
    ⟨':', hmem, by rw [hascii]; exact List.mem_singleton.mpr rfl⟩
  exact absurd (h.colonless _ hbyte) (by decide)

section Sent
variable {base : Headers} {host : Str} {body : Option Bytes}

theorem keys_sent {headers : Headers} {e : Str × Str}
    (h : e ∈ withLength (hostRule headers host) body) :
    e.1 ∈ keys headers ∨ e.1 = hostName ∨ e.1 = contentLengthName := by
  have hrule : ∀ name, name ∈ keys (hostRule headers host) →
      name ∈ keys headers ∨ name = hostName := by
    intro name hname
    unfold hostRule assignNew at hname
    by_cases hmem : hostName ∈ keys headers
    · rw [if_pos hmem] at hname
      exact .inl hname
    · rw [if_neg hmem, keys_assign] at hname
      exact mem_addKey.mp hname
  have hkey : e.1 ∈ keys (withLength (hostRule headers host) body) := List.mem_map_of_mem h
  cases body with
  | none =>
    change e.1 ∈ keys (remove _ _) at hkey
    rw [keys_remove] at hkey
    exact (hrule _ (List.mem_filter.mp hkey).1).imp id .inl
  | some body =>
    change e.1 ∈ keys (assign _ _ _) at hkey
    rw [keys_assign] at hkey
    rcases mem_addKey.mp hkey with hold | hnew
    · exact (hrule _ hold).imp id .inl
    · exact .inr (.inr hnew)

theorem sent_colonless {layer headers : Headers} (host : Str) (body : Option Bytes)
    (hbase : ∀ e ∈ base, ':' ∉ e.1) (hlayer : ∀ e ∈ layer, ':' ∉ e.1)
    (hkeys : ∀ name ∈ keys headers, name ∈ keys base ∨ name ∈ keys layer) :
    ∀ e ∈ withLength (hostRule headers host) body, ':' ∉ e.1 := by
  intro e he
  rcases keys_sent he with hmem | hhost | hlength
  · rcases hkeys _ hmem with hold | hnew
    · obtain ⟨e', he', heq⟩ := List.mem_map.mp hold
      exact heq ▸ hbase e' he'
    · obtain ⟨e', he', heq⟩ := List.mem_map.mp hnew
      exact heq ▸ hlayer e' he'
  · rw [hhost]
    decide
  · rw [hlength]
    decide

end Sent

theorem fileText_headers (spec : ScriptSpec) (file : BenchFile) :
    (fileText spec file).headers =
      (withLength (hostRule (assignAll spec.headers file.request.headers)
        (hostHeader (spec.parts.host.getD []) spec.parts.port))
          (file.request.body.map encode)).map headerText := by
  rw [fileText, effectiveHeaders_eq, overlay_eq]
  rfl

/-- The request of a file is that of its script, up to the order of the headers, exactly
when the script has a host to send and no header of the command line is stale. -/
theorem file_same_script (order : Traversal) {raw : List Str} {parts : UrlRef} {name : Str}
    {file : BenchFile} {engine : ConfigEngine}
    (hcreate : ConfigEngine.create ⟨parts, splitHeaders raw⟩ name file = .ok (.ok engine)) :
    engine.request = (fileText ⟨parts, splitHeaders raw⟩ file).bytes ∧
      ((∃ text, scriptText order ⟨parts, splitHeaders raw⟩ file = some text ∧
        (fileText ⟨parts, splitHeaders raw⟩ file).Same text) ↔
          HostGiven ⟨parts, splitHeaders raw⟩ file ∧ NoStale (splitHeaders raw) file) := by
  have hbase : ∀ e ∈ splitHeaders raw, ':' ∉ e.1 := fun e he => splitHeaders_colonless he
  obtain ⟨hfile, hformat, -⟩ := create_ok hcreate
  have hlayer : ∀ e ∈ file.request.headers, ':' ∉ e.1 :=
    fun e he => (hfile.headers e he).no_colon
  refine ⟨formatted_text hformat, ?_⟩
  have hkept : ∀ name ∈ keys (assignAll (splitHeaders raw) file.request.headers),
      name ∈ keys (splitHeaders raw) ∨ name ∈ keys file.request.headers :=
    fun name hname => mem_keys_assignAll.mp hname
  have hassigned : ∀ name ∈ keys (assignAll [] (splitHeaders raw ++ file.request.headers)),
      name ∈ keys (splitHeaders raw) ∨ name ∈ keys file.request.headers := by
    intro name hname
    rw [mem_keys_assignAll, keys_append, List.mem_append] at hname
    exact hname.resolve_left List.not_mem_nil
  have hlines := lines_agree
    (sent_colonless (hostHeader (parts.host.getD []) parts.port) (file.request.body.map encode)
      hbase hlayer hkept)
    (sent_colonless (hostHeader (parts.host.getD []) parts.port) (file.request.body.map encode)
      hbase hlayer hassigned)
  have hagree : (∀ line, line ∈ (fileText ⟨parts, splitHeaders raw⟩ file).headers ↔
      line ∈ (withLength (hostRule (assignAll [] (splitHeaders raw ++ file.request.headers))
        (hostHeader (parts.host.getD []) parts.port)) (file.request.body.map encode)).map
          headerText) ↔ NoStale (splitHeaders raw) file := by
    rw [fileText_headers, hlines]
    exact forall_congr' fun name => entries_sent_agree (splitHeaders raw) file _ name
  rcases scriptText_cases order ⟨parts, splitHeaders raw⟩ file with
    ⟨hnone, hhost⟩ | ⟨text, htext, hhost, hline, hbody, hheaders⟩
  · rw [hnone]
    exact iff_of_false (by rintro ⟨_, h, _⟩; cases h) fun h => hhost h.1
  · rw [htext]
    constructor
    · rintro ⟨_, ⟨⟩, hsame⟩
      refine ⟨hhost, hagree.mp fun line => ?_⟩
      exact (hsame.headers line).trans (hheaders line)
    · rintro ⟨_, hfresh⟩
      refine ⟨text, rfl, hline.symm, fun line => ?_, hbody.symm⟩
      exact (hagree.mpr hfresh line).trans (hheaders line).symm

/-- Two headers of the command line, one of which the file sets twice. -/
def layeredRaw : List Str := ["C: 1".toList, "A: 0".toList]

theorem file_same_script_sample :
    (fileText ⟨sampleParts, splitHeaders layeredRaw⟩ sampleFile).bytes =
        ascii
          "POST /a HTTP/1.1\r\nC: 1\r\nA: 2\r\nB: \r\nHost: h\r\nContent-Length: 4\r\n\r\n\r\n\r\n" ∧
      ∃ text, scriptText .inOrder ⟨sampleParts, splitHeaders layeredRaw⟩ sampleFile = some text ∧
        (fileText ⟨sampleParts, splitHeaders layeredRaw⟩ sampleFile).Same text := by
  have hcreate : ConfigEngine.create ⟨sampleParts, splitHeaders layeredRaw⟩ "f".toList sampleFile =
      .ok (.ok
        ⟨ascii
            "POST /a HTTP/1.1\r\nC: 1\r\nA: 2\r\nB: \r\nHost: h\r\nContent-Length: 4\r\n\r\n\r\n\r\n",
          sampleFile, 0, 0, false⟩) := by
    decide +kernel
  have hfresh : NoStale (splitHeaders layeredRaw) sampleFile := by
    rw [noStale_iff]
    decide +kernel
  obtain ⟨hbytes, hsame⟩ := file_same_script .inOrder hcreate
  exact ⟨hbytes.symm, hsame.mpr ⟨.inr (Option.some_ne_none _), hfresh⟩⟩
def emptyFile : BenchFile := ⟨⟨none, none, none, []⟩, ⟨none, none⟩⟩

def repeatedHeaders : Headers := [("A".toList, "1".toList), ("A".toList, "2".toList)]

/-- A header given twice on the command line is sent twice, and its script sends the
last value only. -/
theorem repeated_header_sent_twice :
    splitHeaders ["A: 1".toList, "A: 2".toList] = repeatedHeaders ∧
      ConfigEngine.create ⟨sampleParts, repeatedHeaders⟩ "f".toList emptyFile = .ok (.ok
        ⟨ascii "GET / HTTP/1.1\r\nA: 1\r\nA: 2\r\nHost: h\r\n\r\n", emptyFile, 0, 0, false⟩) ∧
      ∀ order, ¬ ∃ text, scriptText order ⟨sampleParts, repeatedHeaders⟩ emptyFile = some text ∧
        (fileText ⟨sampleParts, repeatedHeaders⟩ emptyFile).Same text := by
  refine ⟨by decide, by decide +kernel, ?_⟩
  rintro order ⟨text, htext, hsame⟩
  have hsent : "A: 1".toList ∈ (fileText ⟨sampleParts, repeatedHeaders⟩ emptyFile).headers := by
    decide +kernel
  rcases scriptText_cases order ⟨sampleParts, repeatedHeaders⟩ emptyFile with
    ⟨hnone, _⟩ | ⟨_, hsome, _, _, _, hheaders⟩
  · rw [hnone] at htext
    cases htext
  · rw [hsome] at htext
    cases htext
    have hkept := (hheaders _).mp ((hsame.headers _).mp hsent)
    revert hkept
    decide +kernel

end Wrkrs
