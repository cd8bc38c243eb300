import Wrkrs.QuickJs
import Wrkrs.ValueObjects

/-!
# Requests of both script engines

The formatter of the Lua environment, with the tables that it writes back into, beside the one
of the JavaScript engine. Scripts that assign the same and call the same get the same requests,
up to the order of the header lines.
-/

namespace Wrkrs

set_option autoImplicit false

open Text Machine Tables

variable {F : Type}

def Wrk.formatHeaders (wrk : Wrk) (headers : Table Str Str) (body : Option Str) :
    Table Str Str :=
  let headers := match headers.get hostName with
    | some _ => headers
    | none => headers.set hostName (wrk.headers.get hostName)
  headers.set contentLengthName (body.map fun b => decimal (encode b).length)

theorem format_lines (order : Traversal) (wrk : Wrk) (method path : Option Str)
    (headers : Option (Table Str Str)) (body : Option Str) :
    wrk.format order method path headers body =
      ⟨requestLine (method.getD wrk.method) (path.getD wrk.path),
        (order.visit (wrk.formatHeaders (headers.getD wrk.headers) (body.or wrk.body))).map
          headerText, (body.or wrk.body).getD []⟩ := rfl

theorem get_formatHeaders (wrk : Wrk) (headers : Table Str Str) (body : Option Str) (k : Str) :
    (wrk.formatHeaders headers body).get k =
      if contentLengthName = k then body.map fun b => decimal (encode b).length
      else if hostName = k then (headers.get hostName).or (wrk.headers.get hostName)
      else headers.get k := by
  rw [Wrk.formatHeaders, Table.get_set]
  cases hget : headers.get hostName with
  | some host =>
    dsimp only
    by_cases hname : hostName = k
    · rw [if_pos hname, ← hname, hget]
      rfl
    · rw [if_neg hname]
  | none =>
    dsimp only
    rw [Table.get_set]
    rfl

structure LuaScript where
  wrk : Wrk
  shared : Table Str Str

namespace LuaScript

variable (order : Traversal) (s : LuaScript)

def object : HeadersArgument → Table Str Str
  | .absent => s.wrk.headers
  | .shared => s.shared

def argument : HeadersArgument → Option (Table Str Str)
  | .absent => none
  | .shared => some s.shared

def store (headers : Table Str Str) : HeadersArgument → LuaScript
  | .absent => { s with wrk := { s.wrk with headers := headers } }
  | .shared => { s with shared := headers }

def call (c : JsCall) : RequestText × LuaScript :=
  (s.wrk.format order c.method c.path (s.argument c.headers) c.body,
    s.store (s.wrk.formatHeaders (s.object c.headers) (c.body.or s.wrk.body)) c.headers)

def after (calls : List JsCall) : LuaScript := calls.foldl (fun s c => (s.call order c).2) s

/-- What calls leave alone in a table: all but the length, with a Host that is added once. -/
def lasting (a : HeadersArgument) (k : Str) : Option Str :=
  if contentLengthName = k then none
  else if hostName = k then ((s.object a).get hostName).or (s.wrk.headers.get hostName)
  else (s.object a).get k

/-- Calls tell two environments apart by the order of their tables at most. -/
structure Alike (s t : LuaScript) : Prop where
  method : t.wrk.method = s.wrk.method
  path : t.wrk.path = s.wrk.path
  body : t.wrk.body = s.wrk.body
  host : t.wrk.headers.get hostName = s.wrk.headers.get hostName
  lasting : ∀ a k, t.lasting a k = s.lasting a k

variable {order s} {t u : LuaScript}

theorem Alike.refl (s : LuaScript) : Alike s s := ⟨rfl, rfl, rfl, rfl, fun _ _ => rfl⟩

theorem Alike.trans (h : Alike s t) (h' : Alike t u) : Alike s u where
  method := h'.method.trans h.method
  path := h'.path.trans h.path
  body := h'.body.trans h.body
  host := h'.host.trans h.host
  lasting a k := (h'.lasting a k).trans (h.lasting a k)

theorem getD_argument (a : HeadersArgument) : (s.argument a).getD s.wrk.headers = s.object a := by
  cases a <;> rfl

theorem object_store (headers : Table Str Str) (a : HeadersArgument) :
    (s.store headers a).object a = headers := by
  cases a <;> rfl

theorem object_store_of_ne (headers : Table Str Str) {a b : HeadersArgument} (h : a ≠ b) :
    (s.store headers a).object b = s.object b := by
  cases a <;> cases b <;> first | rfl | exact absurd rfl h

/-- A call gives the default table no other Host than it has. -/
theorem store_host (body : Option Str) (a : HeadersArgument) :
    (s.store (s.wrk.formatHeaders (s.object a) body) a).wrk.headers.get hostName =
      s.wrk.headers.get hostName := by
  cases a with
  | shared => rfl
  | absent =>
    change (s.wrk.formatHeaders s.wrk.headers body).get hostName = _
    rw [get_formatHeaders, if_neg (by decide), if_pos rfl, Option.or_self]

theorem call_alike (order : Traversal) (s : LuaScript) (c : JsCall) :
    Alike s (s.call order c).2 := by
  have hhost := s.store_host (c.body.or s.wrk.body) c.headers
  refine ⟨?_, ?_, ?_, hhost, ?_⟩
  · unfold call
    cases c.headers <;> rfl
  · unfold call
    cases c.headers <;> rfl
  · unfold call
    cases c.headers <;> rfl
  · intro a k
    unfold lasting
    rw [call, hhost]
    by_cases ha : c.headers = a
    · subst ha
      rw [object_store]
      by_cases hlength : contentLengthName = k
      · rw [if_pos hlength, if_pos hlength]
      · rw [if_neg hlength, if_neg hlength]
        by_cases hname : hostName = k
        · -- a second look at the Host finds what the first put there
          rw [if_pos hname, if_pos hname, get_formatHeaders,
            if_neg (show ¬contentLengthName = hostName by decide), if_pos rfl, Option.or_assoc,
            Option.or_self]
        · rw [if_neg hname, if_neg hname, get_formatHeaders, if_neg hlength, if_neg hname]
    · rw [object_store_of_ne _ ha]

theorem after_alike (order : Traversal) (s : LuaScript) (calls : List JsCall) :
    Alike s (s.after order calls) := by
  induction calls generalizing s with
  | nil => exact .refl s
  | cons c calls ih => exact (call_alike order s c).trans (ih _)

theorem headers_call (order : Traversal) (s : LuaScript) (c : JsCall) :
    (s.call order c).1.headers.Perm
      ((s.wrk.formatHeaders (s.object c.headers) (c.body.or s.wrk.body)).pairs.map headerText) := by
  rw [call, format_lines, getD_argument]
  exact (order.perm _).map headerText

theorem get_lasting (a : HeadersArgument) (body : Option Str) (k : Str) :
    (s.wrk.formatHeaders (s.object a) body).get k =
      if contentLengthName = k then body.map fun b => decimal (encode b).length
      else s.lasting a k := by
  rw [get_formatHeaders, lasting]
  by_cases hlength : contentLengthName = k
  · rw [if_pos hlength, if_pos hlength]
  · rw [if_neg hlength, if_neg hlength, if_neg hlength]

end LuaScript

section Rules
variable {pairs : Headers} {host : Option Str}

theorem value_written (length : Option Str) (k : Str) :
    value (written pairs host length) k =
      if contentLengthName = k then length else value (lasting pairs host) k := by
  rw [written, lasting, value_remove]
  by_cases hlength : contentLengthName = k
  · rw [if_pos hlength, ← hlength, value_put_self]
  · rw [if_neg hlength, if_neg hlength, value_put _ hlength]

theorem value_addHost (k : Str) :
    value (addHost pairs host) k =
      if hostName = k then (value pairs hostName).or host else value pairs k := by
  cases host with
  | none =>
    rw [Option.or_none]
    by_cases hname : hostName = k
    · rw [if_pos hname, hname]
      rfl
    · rw [if_neg hname]
      rfl
  | some host =>
    rw [addHost_some, assignNew]
    by_cases hmem : hostName ∈ keys pairs
    · obtain ⟨text, htext⟩ := Option.isSome_iff_exists.mp (value_isSome.mpr hmem)
      rw [if_pos hmem, htext, Option.some_or]
      by_cases hname : hostName = k
      · rw [if_pos hname, ← hname, htext]
      · rw [if_neg hname]
    · rw [if_neg hmem, value_none.mpr hmem, Option.none_or, value_assign]

theorem nodup_written (length : Option Str) (h : (keys pairs).Nodup) :
    (keys (written pairs host length)).Nodup := by
  have htable := (Table.set ⟨addHost pairs host, nodup_addHost h⟩ contentLengthName length).nodup
  rwa [Table.pairs_set] at htable

end Rules

/-- Two environments from which the engines send the same. -/
structure Agree (floats : Floats F) (j : JsState F) (l : LuaScript) : Prop where
  method : j.wrk.method = l.wrk.method
  path : j.wrk.path = l.wrk.path
  body : j.wrk.body = l.wrk.body
  host : j.wrk.defaultHost floats = l.wrk.headers.get hostName
  lasting : ∀ a, ∃ headers, j.lastingOf floats a = .ok headers ∧
    ∀ k, value headers k = l.lasting a k

namespace Agree
variable {floats : Floats F} {j j' : JsState F} {l l' : LuaScript}

theorem of_alike (h : Agree floats j l) (hjs : JsState.Alike floats j j')
    (hlua : LuaScript.Alike l l') : Agree floats j' l' where
  method := hjs.method.trans (h.method.trans hlua.method.symm)
  path := hjs.path.trans (h.path.trans hlua.path.symm)
  body := hjs.body.trans (h.body.trans hlua.body.symm)
  host := hjs.host.trans (h.host.trans hlua.host.symm)
  lasting a := by
    obtain ⟨headers, hheaders, hvalue⟩ := h.lasting a
    refine ⟨headers, (hjs.lasting a).trans hheaders, ?_⟩
    intro k
    rw [hvalue, hlua.lasting]

/-- The next call gives one request in both, but for the order of its header lines. -/
theorem lines (h : Agree floats j l) (order : Traversal) (c : JsCall) :
    ∃ text, j.lines floats c = .ok text ∧ text.Reordered (l.call order c).1 := by
  obtain ⟨headers, hheaders, hvalue⟩ := h.lasting c.headers
  unfold JsState.lastingOf at hheaders
  cases hpairs : coercePairs floats (j.object c.headers).pairs with
  | error e =>
    rw [hpairs] at hheaders
    cases hheaders
  | ok pairs =>
    rw [hpairs] at hheaders
    have hnodup := JsState.nodup_pairs hpairs
    have hsame : Wrkrs.lasting pairs (j.wrk.defaultHost floats) = headers :=
      Except.ok.inj hheaders
    refine ⟨j.writes floats c pairs, ?_, ?_, ?_, ?_⟩
    · rw [JsState.lines, hpairs]
      rfl
    · rw [JsState.writes, h.method, h.path]
      rfl
    · refine List.Perm.trans ?_ (l.headers_call order c).symm
      apply List.Perm.map
      rw [effectiveHeaders_written, h.body]
      apply perm_of_value (nodup_written _ hnodup) (Table.nodup _)
      intro k
      rw [value_written, hsame, hvalue]
      exact (LuaScript.get_lasting c.headers (c.body.or l.wrk.body) k).symm
    · rw [JsState.writes, h.body]
      rfl

end Agree

def assignText (object : JsObject F) (name text : Str) : JsObject F :=
  if name = Transfer.protoKey then object else object.set name (some (.string text))

def assignTexts (object : JsObject F) (entries : Headers) : JsObject F :=
  entries.foldl (fun object entry => assignText object entry.1 entry.2) object

namespace JsWrk

def install (spec : ScriptSpec) : JsWrk F :=
  ⟨"GET".toList, spec.parts.path, assignTexts .empty spec.headers, none⟩

def run (wrk : JsWrk F) : Assignment → JsWrk F
  | .method value => { wrk with method := value }
  | .path value => { wrk with path := value }
  | .body value => { wrk with body := some value }
  | .header name value => { wrk with headers := assignText wrk.headers name value }

/-- Without a Host header the URL gives one, if it can. -/
def init (wrk : JsWrk F) (host port : Option Str) : JsWrk F :=
  match wrk.headers.get hostName, host with
  | none, some host =>
    { wrk with headers := wrk.headers.set hostName (some (.string (hostHeader host port))) }
  | _, _ => wrk

end JsWrk

/-- The state after the script, which holds a table of its own, and init. -/
def JsState.start (spec : ScriptSpec) (script : List Assignment) (table : Headers) : JsState F :=
  ⟨(script.foldl JsWrk.run (.install spec)).init spec.parts.host spec.parts.port,
    assignTexts .empty table⟩

def LuaScript.start (spec : ScriptSpec) (script : List Assignment) (table : Headers) :
    Option LuaScript :=
  ((script.foldl Assignment.run (Wrk.installWrkTable spec)).init).map fun wrk =>
    ⟨wrk, Table.empty.setAll table⟩

def plainHeaders (headers : Headers) : Headers :=
  headers.filter fun entry => entry.1 ≠ Transfer.protoKey

def ScriptSpec.plain (spec : ScriptSpec) : ScriptSpec :=
  { spec with headers := plainHeaders spec.headers }

def Assignment.plain : Assignment → Bool
  | .header name _ => name ≠ Transfer.protoKey
  | _ => true

/-- The text of both engines in their tables. -/
structure Installed (floats : Floats F) (spec : ScriptSpec) (j : JsWrk F) (l : Wrk) : Prop where
  host : l.host = spec.parts.host
  port : l.port = spec.parts.port
  method : j.method = l.method
  path : j.path = l.path
  headers : Related (Reads floats) j.headers.pairs l.headers.pairs
  body : j.body = l.body

section Starts
variable {floats : Floats F} {spec : ScriptSpec} {j : JsWrk F} {l : Wrk}

theorem related_set {object : JsObject F} {table : Table Str Str} (name text : Str)
    (h : Related (Reads floats) object.pairs table.pairs) :
    Related (Reads floats) (object.set name (some (.string text))).pairs
      (table.set name (some text)).pairs :=
  h.assign rfl

theorem related_assignTexts {object : JsObject F} {table : Table Str Str} (entries : Headers)
    (h : Related (Reads floats) object.pairs table.pairs) :
    Related (Reads floats) (assignTexts object entries).pairs
      (table.setAll (plainHeaders entries)).pairs := by
  induction entries generalizing object table with
  | nil => exact h
  | cons entry entries ih =>
    rw [assignTexts, List.foldl_cons, ← assignTexts, plainHeaders, List.filter_cons, assignText]
    by_cases hproto : entry.1 = Transfer.protoKey
    · rw [if_pos hproto, hproto]
      exact ih h
    · have hplain : decide (entry.1 ≠ Transfer.protoKey) = true := decide_eq_true hproto
      rw [if_neg hproto, if_pos hplain]
      exact ih (related_set _ _ h)

theorem install_installed (spec : ScriptSpec) :
    Installed floats spec (.install spec) (Wrk.installWrkTable spec.plain) where
  host := rfl
  port := rfl
  method := rfl
  path := rfl
  headers := related_assignTexts spec.headers .nil
  body := rfl

theorem Installed.run (h : Installed floats spec j l) (a : Assignment) :
    Installed floats spec (j.run a) (if a.plain then a.run l else l) := by
  cases a with
  | method value => exact { h with method := rfl }
  | path value => exact { h with path := rfl }
  | body value => exact { h with body := rfl }
  | header name value =>
    rw [JsWrk.run, assignText]
    by_cases hproto : name = Transfer.protoKey
    · rw [if_pos hproto, hproto]
      exact h
    · have hplain : (Assignment.header name value).plain = true := decide_eq_true hproto
      rw [if_neg hproto, if_pos hplain]
      exact { h with headers := related_set _ _ h.headers }

theorem Installed.script (h : Installed floats spec j l) (script : List Assignment) :
    Installed floats spec (script.foldl JsWrk.run j)
      ((script.filter Assignment.plain).foldl Assignment.run l) := by
  induction script generalizing j l with
  | nil => exact h
  | cons a script ih =>
    rw [List.foldl_cons, List.filter_cons]
    have hrun := h.run a
    cases hplain : a.plain with
    | true =>
      rw [hplain] at hrun
      exact ih hrun
    | false =>
      rw [hplain] at hrun
      exact ih hrun

theorem defaultHost_reads (h : Related (Reads floats) j.headers.pairs l.headers.pairs) :
    j.defaultHost floats = l.headers.get hostName := by
  have hhost := h.value hostName
  unfold JsWrk.defaultHost Table.get
  generalize value j.headers.pairs hostName = given at hhost ⊢
  generalize value l.headers.pairs hostName = text at hhost ⊢
  cases hhost with
  | none => rfl
  | some hvalue => exact congrArg Except.toOption hvalue

theorem Installed.init (h : Installed floats spec j l) :
    (l.init = none ∧ (j.init spec.parts.host spec.parts.port).defaultHost floats = none) ∨
      ∃ l', l.init = some l' ∧
        Installed floats spec (j.init spec.parts.host spec.parts.port) l' := by
  have hhost := h.headers.value hostName
  unfold Wrk.init JsWrk.init Table.get
  cases htext : value l.headers.pairs hostName with
  | some text =>
    rw [htext] at hhost
    cases hvalue : value j.headers.pairs hostName with
    | none =>
      rw [hvalue] at hhost
      cases hhost
    | some given => exact .inr ⟨l, rfl, h⟩
  | none =>
    rw [htext] at hhost
    cases hvalue : value j.headers.pairs hostName with
    | some given =>
      rw [hvalue] at hhost
      cases hhost
    | none =>
      rw [h.host, h.port]
      cases hspec : spec.parts.host with
      | none =>
        refine .inl ⟨rfl, ?_⟩
        exact (defaultHost_reads h.headers).trans htext
      | some host =>
        refine .inr ⟨_, rfl, ?_⟩
        exact ⟨hspec.symm, rfl, h.method, h.path, related_set _ _ h.headers, h.body⟩

theorem Installed.agree {shared : JsObject F} {table : Table Str Str}
    (h : Installed floats spec j l)
    (hshared : Related (Reads floats) shared.pairs table.pairs) :
    Agree floats ⟨j, shared⟩ ⟨l, table⟩ where
  method := h.method
  path := h.path
  body := h.body
  host := defaultHost_reads h.headers
  lasting a := by
    have hreads : Related (Reads floats) ((⟨j, shared⟩ : JsState F).object a).pairs
        ((⟨l, table⟩ : LuaScript).object a).pairs := by
      cases a with
      | absent => exact h.headers
      | shared => exact hshared
    refine ⟨Wrkrs.lasting (LuaScript.object ⟨l, table⟩ a).pairs (j.defaultHost floats), ?_, ?_⟩
    · exact congrArg (Except.map _) (coercePairs_of_related hreads)
    · intro k
      rw [lasting, value_remove, value_addHost, LuaScript.lasting, defaultHost_reads h.headers]
      rfl

theorem mem_keys_script (l : Wrk) (script : List Assignment) (k : Str) :
    k ∈ keys (script.foldl Assignment.run l).headers.pairs ↔
      k ∈ keys l.headers.pairs ∨ ∃ value, .header k value ∈ script := by
  induction script generalizing l with
  | nil => simp
  | cons a script ih =>
    rw [List.foldl_cons, ih]
    cases a with
    | header name value =>
      have hkeys : k ∈ keys (Assignment.run l (.header name value)).headers.pairs ↔
          k ∈ keys l.headers.pairs ∨ k = name := by
        change k ∈ keys (assign l.headers.pairs name value) ↔ _
        rw [keys_assign, mem_addKey]
      rw [hkeys]
      constructor
      · rintro ((hmem | rfl) | ⟨text, hmem⟩)
        · exact .inl hmem
        · exact .inr ⟨value, List.mem_cons_self⟩
        · exact .inr ⟨text, List.mem_cons_of_mem _ hmem⟩
      · rintro (hmem | ⟨text, hmem⟩)
        · exact .inl (.inl hmem)
        · rcases List.mem_cons.mp hmem with heq | hmem
          · exact .inl (.inr (Assignment.header.inj heq).1)
          · exact .inr ⟨text, hmem⟩
    | method value => simp [Assignment.run]
    | path value => simp [Assignment.run]
    | body value => simp [Assignment.run]

theorem host_script (l : Wrk) (script : List Assignment) :
    (script.foldl Assignment.run l).host = l.host := by
  induction script generalizing l with
  | nil => rfl
  | cons a script ih =>
    have hrun : (Assignment.run l a).host = l.host := by cases a <;> rfl
    exact (ih _).trans hrun

theorem start_none (spec : ScriptSpec) (script : List Assignment) (table : Headers) :
    LuaScript.start spec script table = none ↔
      spec.parts.host = none ∧ hostName ∉ keys spec.headers ∧
        ∀ value, .header hostName value ∉ script := by
  have hhost : (script.foldl Assignment.run (Wrk.installWrkTable spec)).host = spec.parts.host :=
    host_script (Wrk.installWrkTable spec) script
  have hkeys := mem_keys_script (Wrk.installWrkTable spec) script hostName
  have hinstall : hostName ∈ keys (Wrk.installWrkTable spec).headers.pairs ↔
      hostName ∈ keys spec.headers := by
    rw [Wrk.installWrkTable, Table.pairs_setAll, mem_keys_assignAll]
    exact or_iff_right List.not_mem_nil
  rw [hinstall] at hkeys
  rw [LuaScript.start, Option.map_eq_none_iff]
  rcases init_cases (script.foldl Assignment.run (Wrk.installWrkTable spec)) with
    ⟨hnone, hmem, hgiven⟩ | ⟨wrk, hsome, hrest⟩
  · rw [hkeys, not_or, not_exists] at hmem
    exact iff_of_true hnone ⟨hhost.symm.trans hgiven, hmem⟩
  · refine iff_of_false (by rw [hsome]; exact Option.some_ne_none wrk) ?_
    rintro ⟨hnone, hfree⟩
    rcases hrest.2.1 with hmem | hgiven
    · rcases hkeys.mp hmem with hmem | ⟨value, hmem⟩
      · exact hfree.1 hmem
      · exact hfree.2 value hmem
    · exact hgiven (hhost.trans hnone)

theorem mem_keys_plainHeaders {headers : Headers} {k : Str} (h : k ≠ Transfer.protoKey) :
    k ∈ keys (plainHeaders headers) ↔ k ∈ keys headers := by
  constructor
  · intro hmem
    obtain ⟨entry, hentry, rfl⟩ := List.mem_map.mp hmem
    exact List.mem_map_of_mem (List.mem_of_mem_filter hentry)
  · intro hmem
    obtain ⟨entry, hentry, rfl⟩ := List.mem_map.mp hmem
    exact List.mem_map_of_mem (List.mem_filter.mpr ⟨hentry, decide_eq_true h⟩)

/-- The name of the prototype is no Host, and what is dropped does not matter here. -/
theorem start_plain_none (spec : ScriptSpec) (script : List Assignment) (table : Headers) :
    LuaScript.start spec.plain (script.filter Assignment.plain) table = none ↔
      spec.parts.host = none ∧ hostName ∉ keys spec.headers ∧
        ∀ value, .header hostName value ∉ script := by
  have hname : hostName ≠ Transfer.protoKey := by decide
  have hheader : ∀ value, Assignment.header hostName value ∈ script.filter Assignment.plain ↔
      Assignment.header hostName value ∈ script := by
    intro value
    rw [List.mem_filter]
    exact and_iff_left (decide_eq_true hname)
  rw [start_none, ScriptSpec.plain, mem_keys_plainHeaders hname]
  simp only [hheader]

end Starts

/-- Under scripts that assign the same, any calls made before on either side, a call returns the
same request in both engines, but for the order of its header lines; text assigned to the name
of the prototype is dropped by the one. The other engine refuses to start exactly when neither the
URL nor a header nor the script gives a host, and the first then sends none. -/
theorem engines_format_alike (floats : Floats F) (order : Traversal) (spec : ScriptSpec)
    (script : List Assignment) (table : Headers) (calls calls' : List JsCall) (c : JsCall) :
    (LuaScript.start spec.plain (script.filter Assignment.plain) (plainHeaders table) = none ↔
      spec.parts.host = none ∧ hostName ∉ keys spec.headers ∧
        ∀ value, .header hostName value ∉ script) ∧
    ((LuaScript.start spec.plain (script.filter Assignment.plain) (plainHeaders table) = none ∧
        (JsState.start spec script table).wrk.defaultHost floats = none) ∨
      ∃ start,
        LuaScript.start spec.plain (script.filter Assignment.plain) (plainHeaders table) =
          some start ∧
        ∃ text,
          (((JsState.start spec script table).after floats calls).call floats c).1 =
            RequestText.returned text ∧
          text.Reordered ((start.after order calls').call order c).1) := by
  refine ⟨start_plain_none spec script _, ?_⟩
  have hinstall : Installed floats spec (.install spec) (Wrk.installWrkTable spec.plain) :=
    install_installed spec
  have hscript := hinstall.script script
  have hshared : Related (Reads floats) (assignTexts .empty table).pairs
      (Table.empty.setAll (plainHeaders table)).pairs := related_assignTexts table .nil
  unfold LuaScript.start JsState.start
  rcases hscript.init with ⟨hnone, hhost⟩ | ⟨l, hsome, hinstalled⟩
  · rw [hnone]
    exact .inl ⟨rfl, hhost⟩
  · rw [hsome]
    refine .inr ⟨_, rfl, ?_⟩
    have hagree := (hinstalled.agree hshared).of_alike (JsState.after_alike floats _ calls)
      (LuaScript.after_alike order _ calls')
    obtain ⟨text, htext, hreordered⟩ := hagree.lines order c
    refine ⟨text, ?_, hreordered⟩
    rw [(JsState.call_cases floats _ c).1, htext]
    rfl

end Wrkrs
