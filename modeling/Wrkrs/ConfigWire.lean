import Wrkrs.FormatTables
import Wrkrs.Library.Splitting
import Wrkrs.UrlRebuild

/-!
# Requests of benchmark files on the wire

What validation keeps out of every field is what separates them in the bytes sent, so a
request is split again into exactly the fields it was made from.
-/

namespace Wrkrs

set_option autoImplicit false

open Text Machine Splitting Tables

def NoByte (p : UInt8 → Bool) (s : Str) : Prop := ∀ b ∈ encode s, p b = false

instance (p : UInt8 → Bool) (s : Str) : Decidable (NoByte p s) :=
  List.decidableBAll (fun b => p b = false) (encode s)

structure IsWord (s : Str) : Prop where
  nonempty : s ≠ []
  unbroken : NoByte breaksWord s

structure ValidHeader (entry : Str × Str) : Prop where
  name : IsWord entry.1
  colonless : NoByte (· == byte ':') entry.1
  value : NoByte (fun b => decide (b < 0x20)) entry.2 ∧ NoByte (· == 0x7F) entry.2
  leading : entry.2.head? ≠ some ' '
  trailing : entry.2.getLast? ≠ some ' '

structure BenchFile.Valid (file : BenchFile) : Prop where
  method : ∀ m ∈ file.request.method, IsWord m
  path : ∀ p ∈ file.request.path, (p = ['*'] ∨ p.head? = some '/') ∧ NoByte breaksWord p
  headers : ∀ entry ∈ file.request.headers, ValidHeader entry
  requests : file.stop.requests ≠ some 0
  bytes : file.stop.bytes ≠ some 0

theorem noByte_iff {p : UInt8 → Bool} {s : Str} : (encode s).any p = false ↔ NoByte p s := by
  rw [List.any_eq_false]
  exact forall₂_congr fun b _ => Bool.eq_false_iff.symm

theorem noByte_or {p q : UInt8 → Bool} {s : Str} :
    NoByte (fun b => p b || q b) s ↔ NoByte p s ∧ NoByte q s := by
  simp only [NoByte, Bool.or_eq_false_iff]
  exact forall₂_and

theorem check_iff {c : Bool} {message : Str} {rest : Except Str Unit} :
    (if c = true then .error message else rest) = .ok () ↔ c = false ∧ rest = .ok () := by
  cases c with
  | true => exact iff_of_false (by intro h; cases h) fun h => Bool.noConfusion h.1
  | false => simp

theorem isWord_iff {s : Str} : (s.isEmpty || (encode s).any breaksWord) = false ↔ IsWord s := by
  rw [Bool.or_eq_false_iff, noByte_iff, List.isEmpty_eq_false_iff]
  exact ⟨fun h => ⟨h.1, h.2⟩, fun h => ⟨h.nonempty, h.unbroken⟩⟩

theorem checkMethod_iff {m : Str} : checkMethod m = .ok () ↔ IsWord m := by
  rw [checkMethod, check_iff, isWord_iff]
  exact and_iff_left rfl

theorem checkPath_iff {p : Str} :
    checkPath p = .ok () ↔ (p = ['*'] ∨ p.head? = some '/') ∧ NoByte breaksWord p := by
  unfold checkPath
  by_cases hstart : p ≠ ['*'] ∧ p.head? ≠ some '/'
  · rw [if_pos hstart]
    refine iff_of_false (by intro h; cases h) ?_
    rintro ⟨hstar | hslash, _⟩
    · exact hstart.1 hstar
    · exact hstart.2 hslash
  · have hopens : p = ['*'] ∨ p.head? = some '/' := by
      by_contra hnone
      exact hstart (not_or.mp hnone)
    rw [if_neg hstart, check_iff, noByte_iff]
    exact ⟨fun h => ⟨hopens, h.1⟩, fun h => ⟨h.2, rfl⟩⟩

theorem checkHeader_iff {entry : Str × Str} : checkHeader entry = .ok () ↔ ValidHeader entry := by
  rw [checkHeader, check_iff, check_iff]
  simp only [Bool.or_eq_false_iff, noByte_iff, noByte_or, List.isEmpty_eq_false_iff,
    beq_eq_false_iff_ne]
  constructor
  · rintro ⟨⟨hne, hunbroken, hcolon⟩, ⟨⟨hvalue, hleading⟩, htrailing⟩, _⟩
    exact ⟨⟨hne, hunbroken⟩, hcolon, hvalue, hleading, htrailing⟩
  · rintro ⟨⟨hne, hunbroken⟩, hcolon, hvalue, hleading, htrailing⟩
    exact ⟨⟨hne, hunbroken, hcolon⟩, ⟨⟨hvalue, hleading⟩, htrailing⟩, trivial⟩

theorem checkLimit_iff {field : Str} {limit : Option UInt64} :
    checkLimit field limit = .ok () ↔ limit ≠ some 0 := by
  rw [checkLimit, check_iff, beq_eq_false_iff_ne]
  exact and_iff_left rfl

theorem checkPresent_iff {α : Type} {check : α → Except Str Unit} {P : α → Prop} {o : Option α}
    (h : ∀ a, check a = .ok () ↔ P a) : checkPresent check o = .ok () ↔ ∀ a ∈ o, P a := by
  cases o with
  | none => exact iff_of_true rfl (by intro a ha; cases ha)
  | some a =>
    refine (h a).trans ⟨fun hp b hb => Option.some.inj hb ▸ hp, fun hall => hall a rfl⟩

theorem seq_iff {first rest : Except Str Unit} :
    (first >>= fun _ => rest) = .ok () ↔ first = .ok () ∧ rest = .ok () := by
  cases first with
  | error message => exact iff_of_false (by intro h; cases h) fun h => by cases h.1
  | ok _ => exact (and_iff_right rfl).symm

theorem forM_iff {headers : Headers} :
    headers.forM checkHeader = .ok () ↔ ∀ entry ∈ headers, ValidHeader entry := by
  induction headers with
  | nil => exact iff_of_true rfl (by intro a ha; cases ha)
  | cons entry headers ih =>
    rw [List.forall_mem_cons, ← ih, ← checkHeader_iff]
    exact seq_iff

/-- What `validate` accepts. -/
theorem validate_iff (file : BenchFile) : file.validate = .ok () ↔ file.Valid := by
  unfold BenchFile.validate
  rw [seq_iff, seq_iff, seq_iff, seq_iff, checkPresent_iff fun m => checkMethod_iff,
    checkPresent_iff fun p => checkPath_iff, forM_iff, checkLimit_iff, checkLimit_iff]
  constructor
  · rintro ⟨hmethod, hpath, hheaders, hrequests, hbytes⟩
    exact ⟨hmethod, hpath, hheaders, hrequests, hbytes⟩
  · rintro ⟨hmethod, hpath, hheaders, hrequests, hbytes⟩
    exact ⟨hmethod, hpath, hheaders, hrequests, hbytes⟩

structure Decoded where
  method : Bytes
  path : Bytes
  version : Bytes
  headers : List (Bytes × Bytes)
  body : Bytes
  deriving DecidableEq, Repr

/-- The head up to the first empty line, its lines, the words of the first one and the
two parts of the others, and what follows. -/
def decodeRequest (bytes : Bytes) : Option Decoded := do
  let (head, body) ← cutAt [13, 10, 13, 10] bytes
  match pieces [13, 10] head with
  | [] => none
  | line :: lines =>
    match pieces [32] line with
    | [method, path, version] =>
      let headers ← lines.mapM (cutAt [58, 32])
      return ⟨method, path, version, headers, body⟩
    | _ => none

def encodePair (entry : Str × Str) : Bytes × Bytes := (encode entry.1, encode entry.2)

/-- What stands in a head without being taken for more than one field. -/
structure WireFields (method path : Str) (headers : Headers) : Prop where
  method : NoByte breaksWord method
  path : NoByte breaksWord path
  names : ∀ entry ∈ headers, NoByte (· == 13) entry.1 ∧ NoByte (· == byte ':') entry.1
  values : ∀ entry ∈ headers, NoByte (· == 13) entry.2

theorem not_mem_of_noByte {p : UInt8 → Bool} {s : Str} {b : UInt8} (h : NoByte p s)
    (hb : p b = true) : b ∉ encode s := by
  intro hmem
  rw [h b hmem] at hb
  cases hb

theorem encode_headerText (entry : Str × Str) :
    encode (headerText entry) = encode entry.1 ++ ([58, 32] ++ encode entry.2) := by
  rw [headerText, encode_append]
  rfl

theorem encode_requestLine (method path : Str) :
    encode (requestLine method path) =
      [32].intercalate [encode method, encode path, encode "HTTP/1.1".toList] := by
  rw [requestLine, encode_append]
  change encode method ++ (32 :: encode (path ++ ' ' :: "HTTP/1.1".toList)) = _
  rw [encode_append]
  simp [List.intercalate_cons_cons, encode]
  rfl

section Decode
variable {method path : Str} {headers : Headers} {body : Option Bytes} {host : Option Str}

def headTexts (method path : Str) (headers : Headers) : List Bytes :=
  encode (requestLine method path) :: headers.map fun entry => encode (headerText entry)

theorem requestBytes_eq :
    requestBytes method path headers body host =
      [13, 10].intercalate (headTexts method path (effectiveHeaders headers body host)) ++
        ([13, 10, 13, 10] ++ body.getD []) := by
  rw [headTexts, join_cons, requestBytes, List.flatMap_map, List.append_assoc]
  rfl

theorem requestLine_no_cr (hmethod : NoByte breaksWord method) (hpath : NoByte breaksWord path) :
    13 ∉ encode (requestLine method path) := by
  have hm : (13 : UInt8) ∉ encode method := not_mem_of_noByte hmethod (by decide)
  have hp : (13 : UInt8) ∉ encode path := not_mem_of_noByte hpath (by decide)
  rw [encode_requestLine, join_cons]
  simp [hm, hp]
  decide

theorem headerText_no_cr {entry : Str × Str} (hname : NoByte (· == 13) entry.1)
    (hvalue : NoByte (· == 13) entry.2) : 13 ∉ encode (headerText entry) := by
  have hn : (13 : UInt8) ∉ encode entry.1 := not_mem_of_noByte hname (by decide)
  have hv : (13 : UInt8) ∉ encode entry.2 := not_mem_of_noByte hvalue (by decide)
  rw [encode_headerText]
  simp [hn, hv]

theorem headTexts_clean (h : WireFields method path headers) :
    ∀ line ∈ headTexts method path headers, line ≠ [] ∧ 13 ∉ line := by
  intro line hline
  rcases List.mem_cons.mp hline with rfl | hmem
  · refine ⟨?_, requestLine_no_cr h.method h.path⟩
    rw [encode_requestLine, join_cons]
    simp
  · obtain ⟨entry, hentry, rfl⟩ := List.mem_map.mp hmem
    refine ⟨?_, headerText_no_cr (h.names entry hentry).1 (h.values entry hentry)⟩
    rw [encode_headerText]
    simp

theorem pieces_requestLine (hmethod : NoByte breaksWord method) (hpath : NoByte breaksWord path) :
    pieces [32] (encode (requestLine method path)) =
      [encode method, encode path, encode "HTTP/1.1".toList] := by
  rw [encode_requestLine]
  refine pieces_join (List.cons_ne_nil _ _) ?_
  have hm : (32 : UInt8) ∉ encode method := not_mem_of_noByte hmethod (by decide)
  have hp : (32 : UInt8) ∉ encode path := not_mem_of_noByte hpath (by decide)
  intro piece hpiece
  simp only [List.mem_cons, List.not_mem_nil, or_false] at hpiece
  rcases hpiece with rfl | rfl | rfl
  · exact hm
  · exact hp
  · decide

theorem mapM_headers (h : ∀ entry ∈ headers, NoByte (· == byte ':') entry.1) :
    (headers.map fun entry => encode (headerText entry)).mapM (cutAt [58, 32]) =
      some (headers.map encodePair) := by
  induction headers with
  | nil => rfl
  | cons entry headers ih =>
    obtain ⟨hentry, hrest⟩ := List.forall_mem_cons.mp h
    have hcolon : (58 : UInt8) ∉ encode entry.1 := not_mem_of_noByte hentry (by decide)
    rw [List.map_cons, List.mapM_cons, encode_headerText, cutAt_first hcolon, ih hrest]
    rfl

/-- A request made from such fields is split into them again. -/
theorem decode_requestBytes (h : WireFields method path (effectiveHeaders headers body host)) :
    decodeRequest (requestBytes method path headers body host) =
      some ⟨encode method, encode path, encode "HTTP/1.1".toList,
        (effectiveHeaders headers body host).map encodePair, body.getD []⟩ := by
  have hclean := headTexts_clean h
  have hne : headTexts method path (effectiveHeaders headers body host) ≠ [] :=
    List.cons_ne_nil _ _
  have hcut : cutAt [13, 10, 13, 10] (requestBytes method path headers body host) =
      some ([13, 10].intercalate (headTexts method path (effectiveHeaders headers body host)),
        body.getD []) := by
    rw [requestBytes_eq]
    exact @cutAt_twice _ _ 13 [10] _ _ (by decide) hne hclean
  have hlines : pieces [13, 10] ([13, 10].intercalate
      (headTexts method path (effectiveHeaders headers body host))) =
      headTexts method path (effectiveHeaders headers body host) :=
    pieces_join hne fun line hline => (hclean line hline).2
  have hheaders := mapM_headers fun entry hentry => (h.names entry hentry).2
  have hline := pieces_requestLine h.method h.path
  unfold decodeRequest
  simp only [hcut, Option.bind_eq_bind, Option.bind_some, hlines]
  simp only [headTexts, hline, hheaders]
  rfl

end Decode

theorem visible_unbroken {s : Str} (h : Among isVisible s) : NoByte breaksWord s := by
  intro b hb
  rw [encode_ascii h.ascii] at hb
  have hvisible := h.bytes b hb
  have htable := forall_byte (p := fun b => !isVisible b || !breaksWord b) (by decide +kernel) b
  simpa [hvisible] using htable

theorem noByte_mono {p q : UInt8 → Bool} {s : Str} (h : NoByte p s)
    (hpq : ∀ b, q b = true → p b = true) : NoByte q s := by
  intro b hb
  have hp := h b hb
  cases hq : q b with
  | false => rfl
  | true => rw [hpq b hq] at hp; cases hp

theorem cr_breaks (b : UInt8) (h : (b == 13) = true) : breaksWord b = true := by
  rw [eq_of_beq h]
  rfl

theorem ValidHeader.no_cr {entry : Str × Str} (h : ValidHeader entry) :
    NoByte (· == 13) entry.1 ∧ NoByte (· == 13) entry.2 := by
  refine ⟨noByte_mono h.name.unbroken cr_breaks, noByte_mono h.value.1 ?_⟩
  intro b hb
  rw [eq_of_beq hb]
  rfl

theorem parseUrl_path {url : Str} {parts : UrlRef} (h : parseUrl url = .ok (some parts)) :
    NoByte breaksWord parts.path := by
  obtain ⟨hvisible, u, rfl, rfl⟩ := parseUrl_sound h
  change NoByte breaksWord u.path
  unfold UrlShape.path
  split
  · refine visible_unbroken fun c hc => hvisible c ?_
    exact List.mem_append_right _ hc
  · decide

theorem among_append {p : UInt8 → Bool} {s t : Str} :
    Among p (s ++ t) ↔ Among p s ∧ Among p t := List.forall_mem_append

theorem parseUrl_host {url : Str} {parts : UrlRef} (h : parseUrl url = .ok (some parts)) :
    Among isVisible (hostHeader (parts.host.getD []) parts.port) := by
  obtain ⟨hvisible, u, rfl, rfl⟩ := parseUrl_sound h
  change Among isVisible (hostHeader u.host.value u.port)
  have hauthority := (among_append.mp (among_append.mp hvisible).1).2
  have hparts := among_append.mp hauthority
  obtain ⟨before, after, htext, _⟩ := u.host.text_value
  have hhost := (among_append.mp hparts.1).2
  rw [htext] at hhost
  have hvalue : Among isVisible u.host.value := (among_append.mp (among_append.mp hhost).1).2
  rw [hostHeader_text rfl]
  refine among_append.mpr ⟨?_, hparts.2⟩
  by_cases hcolon : u.host.value.contains ':' = true
  · rw [if_pos hcolon]
    exact (among_one (c := '[') (by decide) (by decide)).append
      (hvalue.append (among_one (c := ']') (by decide) (by decide)))
  · rw [if_neg hcolon]
    exact hvalue

/-- File headers with later duplicates in the place of earlier ones, then the default Host
unless one is named, then the length of the body, or none. -/
def BenchFile.headersSent (file : BenchFile) (host : Str) : Headers :=
  let headers := lastWins file.request.headers
  let headers := if hostName ∈ keys headers then headers else headers ++ [(hostName, host)]
  match file.request.body with
  | some body => assign headers contentLengthName (decimal (encode body).length)
  | none => headers.filter fun entry => entry.1 ≠ contentLengthName

theorem effectiveHeaders_file (file : BenchFile) (host : Str) :
    effectiveHeaders (overlay [] file.request.headers) (file.request.body.map encode) (some host) =
      file.headersSent host := by
  rw [effectiveHeaders_eq, overlay_eq, assignAll_nil, BenchFile.headersSent]
  have hhost : assignNew (lastWins file.request.headers) hostName host =
      if hostName ∈ keys (lastWins file.request.headers) then lastWins file.request.headers
      else lastWins file.request.headers ++ [(hostName, host)] := by
    rw [assignNew]
    by_cases hmem : hostName ∈ keys (lastWins file.request.headers)
    · rw [if_pos hmem, if_pos hmem]
    · rw [if_neg hmem, if_neg hmem, assign_of_not_mem hmem]
  rw [hhost]
  cases file.request.body <;> rfl

theorem mem_headersSent {file : BenchFile} {host : Str} {entry : Str × Str}
    (h : entry ∈ file.headersSent host) :
    entry ∈ file.request.headers ∨ entry = (hostName, host) ∨
      ∃ body ∈ file.request.body,
        entry = (contentLengthName, decimal (encode body).length) := by
  have hbase : ∀ entry ∈ (if hostName ∈ keys (lastWins file.request.headers) then
      lastWins file.request.headers else lastWins file.request.headers ++ [(hostName, host)]),
      entry ∈ file.request.headers ∨ entry = (hostName, host) := by
    intro entry hentry
    by_cases hmem : hostName ∈ keys (lastWins file.request.headers)
    · rw [if_pos hmem] at hentry
      exact .inl (mem_lastWins hentry)
    · rw [if_neg hmem, List.mem_append, List.mem_singleton] at hentry
      exact hentry.imp mem_lastWins id
  unfold BenchFile.headersSent at h
  cases hbody : file.request.body with
  | none =>
    rw [hbody] at h
    exact (hbase entry (List.mem_filter.mp h).1).imp id .inl
  | some body =>
    rw [hbody] at h
    rcases mem_assign h with rfl | hold
    · exact .inr (.inr ⟨body, rfl, rfl⟩)
    · exact (hbase entry hold).imp id .inl

theorem decimal_no_cr (n : Nat) : NoByte (· == 13) (decimal n) := by
  intro b hb
  rw [encode_ascii fun c hc => (decimal_digits n c hc).1] at hb
  obtain ⟨c, hc, rfl⟩ := List.mem_map.mp hb
  obtain ⟨hascii, hdigit⟩ := decimal_digits n c hc
  refine beq_eq_false_iff_ne.mpr fun heq => ?_
  have hcr : c = '\r' := byte_inj hascii (by decide) heq
  rw [hcr] at hdigit
  cases hdigit

theorem ruled_names : (NoByte (· == 13) hostName ∧ NoByte (· == byte ':') hostName) ∧
    (NoByte (· == 13) contentLengthName ∧ NoByte (· == byte ':') contentLengthName) := by
  decide

theorem wireFields_file {file : BenchFile} {url : Str} {parts : UrlRef} (hfile : file.Valid)
    (hurl : parseUrl url = .ok (some parts)) :
    WireFields (file.request.method.getD "GET".toList) (file.request.path.getD parts.path)
      (file.headersSent (hostHeader (parts.host.getD []) parts.port)) := by
  have hhost := visible_unbroken (parseUrl_host hurl)
  refine ⟨?_, ?_, ?_, ?_⟩
  · cases hmethod : file.request.method with
    | none => decide
    | some m => exact (hfile.method m hmethod).unbroken
  · cases hpath : file.request.path with
    | none => exact parseUrl_path hurl
    | some p => exact (hfile.path p hpath).2
  · intro entry hentry
    rcases mem_headersSent hentry with hmem | rfl | ⟨_, _, rfl⟩
    · exact ⟨(hfile.headers entry hmem).no_cr.1, (hfile.headers entry hmem).colonless⟩
    · exact ruled_names.1
    · exact ruled_names.2
  · intro entry hentry
    rcases mem_headersSent hentry with hmem | rfl | ⟨_, _, rfl⟩
    · exact (hfile.headers entry hmem).no_cr.2
    · exact noByte_mono hhost cr_breaks
    · exact decimal_no_cr _

/-- A file with an engine is valid, and the engine starts from its formatted request. -/
theorem create_ok {spec : ScriptSpec} {name : Str} {file : BenchFile} {engine : ConfigEngine}
    (h : ConfigEngine.create spec name file = .ok (.ok engine)) :
    file.Valid ∧ ConfigEngine.formatted spec file = .ok engine.request ∧
      engine = ⟨engine.request, file, 0, 0, false⟩ := by
  unfold ConfigEngine.create at h
  cases hvalid : file.validate with
  | error message =>
    rw [hvalid] at h
    cases h
  | ok _ =>
    rw [hvalid] at h
    cases hformat : ConfigEngine.formatted spec file with
    | error fault =>
      rw [hformat] at h
      cases h
    | ok request =>
      rw [hformat] at h
      cases h
      exact ⟨(validate_iff file).mp hvalid, rfl, rfl⟩

theorem formatRequest_eq {method path : Str} {headers : Headers} {body : Option Bytes}
    {host : Option Str} {request : Bytes}
    (h : formatRequest method path headers body host = .ok request) :
    request = requestBytes method path headers body host ∧ request.length ≤ vecMax := by
  unfold formatRequest extend at h
  split at h
  · rename_i hfits
    cases h
    exact ⟨rfl, by simpa using hfits⟩
  · cases h

/-- The request of a validated file is split into the method, the path, the headers and
the body it was made from. -/
theorem create_decodes {url name : Str} {parts : UrlRef} {file : BenchFile} {engine : ConfigEngine}
    (hvalid : file.validate = .ok ()) (hurl : parseUrl url = .ok (some parts))
    (hcreate : ConfigEngine.create ⟨parts, []⟩ name file = .ok (.ok engine)) :
    decodeRequest engine.request =
      some ⟨encode (file.request.method.getD "GET".toList),
        encode (file.request.path.getD parts.path), encode "HTTP/1.1".toList,
        (file.headersSent (hostHeader (parts.host.getD []) parts.port)).map encodePair,
        (file.request.body.map encode).getD []⟩ := by
  have hfields := wireFields_file ((validate_iff file).mp hvalid) hurl
  obtain ⟨hrequest, _⟩ := formatRequest_eq (create_ok hcreate).2.1
  rw [← effectiveHeaders_file] at hfields ⊢
  rw [hrequest]
  exact decode_requestBytes hfields

def sampleFile : BenchFile :=
  ⟨⟨some "POST".toList, some "/a".toList, some "\r\n\r\n".toList,
    [("A".toList, "1".toList), ("B".toList, []), ("A".toList, "2".toList)]⟩, ⟨none, none⟩⟩

def sampleParts : UrlRef := ⟨some "http".toList, some "h".toList, none, ['/']⟩

def sampleEngine : ConfigEngine :=
  ⟨ascii "POST /a HTTP/1.1\r\nA: 2\r\nB: \r\nHost: h\r\nContent-Length: 4\r\n\r\n\r\n\r\n",
    sampleFile, 0, 0, false⟩

theorem sample_create :
    ConfigEngine.create ⟨sampleParts, []⟩ "f".toList sampleFile = .ok (.ok sampleEngine) := by
  decide +kernel

theorem create_decodes_sample :
    decodeRequest sampleEngine.request =
      some ⟨encode (sampleFile.request.method.getD "GET".toList),
        encode (sampleFile.request.path.getD sampleParts.path), encode "HTTP/1.1".toList,
        (sampleFile.headersSent (hostHeader (sampleParts.host.getD []) sampleParts.port)).map
          encodePair,
        (sampleFile.request.body.map encode).getD []⟩ :=
  create_decodes (by decide +kernel) (by decide +kernel : parseUrl "http://h".toList = _)
    sample_create

end Wrkrs
