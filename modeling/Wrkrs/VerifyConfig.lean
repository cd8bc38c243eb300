import Wrkrs.RequestHeads

/-!
# Probing the request of a benchmark file

When the probe counts one message in the request of a validated file: the validator lets
more through than a parser of requests takes, and a file may name a length of its own.
-/

namespace Wrkrs

set_option autoImplicit false

open Text Machine Splitting Tables

section Frame
variable {parse : RequestParser} {visible : UInt8 → Bool} {head : RequestHead}

theorem frame_accepted (hparse : parse.Reads visible) (haccepted : head.Accepted visible)
    (body : Bytes) :
    frameRequest parse (head.bytes ++ body) =
      if head.headers.length ≤ 256 then
        .complete head.bytes.length ((contentLength head.fields).getD 0)
      else .malformed "too many headers".toList := by
  have hread := fun capacity => (hparse head capacity body).1 haccepted
  unfold frameRequest
  simp only [frameWithin, hread]
  by_cases h16 : head.headers.length ≤ 16
  · simp only [if_pos h16, if_pos (Nat.le_trans h16 (by decide : 16 ≤ 256))]
  · simp only [if_neg h16]
    by_cases h64 : head.headers.length ≤ 64
    · simp only [if_pos h64, if_pos (Nat.le_trans h64 (by decide : 64 ≤ 256))]
    · simp only [if_neg h64]
      by_cases h256 : head.headers.length ≤ 256
      · simp only [if_pos h256]
      · simp only [if_neg h256]

theorem frame_refused (hparse : parse.Reads visible) (hrefused : ¬ head.Accepted visible)
    (rest : Bytes) (n body : Nat) : frameRequest parse (head.bytes ++ rest) ≠ .complete n body := by
  have hread := fun capacity => (hparse head capacity rest).2 hrefused
  have hwithin : ∀ capacities,
      frameWithin parse (head.bytes ++ rest) capacities ≠ .complete n body := by
    intro capacities
    induction capacities with
    | nil => intro h; cases h
    | cons capacity capacities ih =>
      rw [frameWithin]
      cases hverdict : parse capacity (head.bytes ++ rest) with
      | complete m headers => exact absurd hverdict (hread capacity m headers)
      | tooManyHeaders => exact ih
      | incomplete => intro h; cases h
      | rejected message => intro h; cases h
  exact hwithin _

theorem verify_head (build : Build) (hparse : parse.Reads visible) {body : Bytes}
    (hlength : (head.bytes ++ body).length ≤ vecMax) :
    verifyRequest build parse (head.bytes ++ body) = .ok (.ok 1) ↔
      head.Accepted visible ∧ head.headers.length ≤ 256 ∧
        (contentLength head.fields).getD 0 = body.length := by
  have hne : head.bytes ++ body ≠ [] := by
    rw [RequestHead.bytes]
    simp
  have hwithin : head.bytes.length ≤ (head.bytes ++ body).length := by
    rw [List.length_append]
    omega
  by_cases haccepted : head.Accepted visible
  · have hframe := frame_accepted hparse haccepted body
    rw [verifyRequest_one head.bytes.length hlength hne ?_ hwithin, hframe]
    · by_cases hfew : head.headers.length ≤ 256
      · rw [if_pos hfew]
        constructor
        · rintro ⟨b, hb, hsum⟩
          obtain ⟨_, rfl⟩ := RequestFraming.complete.inj hb
          rw [List.length_append] at hsum
          exact ⟨haccepted, hfew, by omega⟩
        · rintro ⟨_, _, hbody⟩
          exact ⟨_, rfl, by rw [hbody, List.length_append]⟩
      · rw [if_neg hfew]
        exact iff_of_false (by rintro ⟨b, hb, _⟩; cases hb) fun h => hfew h.2.1
    · intro h b hb
      rw [hframe] at hb
      by_cases hfew : head.headers.length ≤ 256
      · rw [if_pos hfew] at hb
        exact (RequestFraming.complete.inj hb).1.symm
      · rw [if_neg hfew] at hb
        cases hb
  · have hframe := frame_refused hparse haccepted body
    rw [verifyRequest_one head.bytes.length hlength hne
      (fun h b hb => absurd hb (hframe h b)) hwithin]
    exact iff_of_false (fun ⟨b, hb, _⟩ => hframe _ b hb) fun h => haccepted h.1

end Frame

def BenchFile.sentNames (file : BenchFile) : List Str :=
  let names := (keys file.request.headers ++ [hostName]).foldl addKey []
  match file.request.body with
  | some _ => addKey names contentLengthName
  | none => names.filter fun name => name ≠ contentLengthName

/-- The first name that a parser takes for the length is the formatter's own, or the file
gives it the length of the body. -/
def BenchFile.LengthAgrees (file : BenchFile) : Prop :=
  ∀ name ∈ file.sentNames.find? namesLength, name ≠ contentLengthName →
    ((value file.request.headers.reverse name).bind (fromStrRadix 10 word)).getD 0 =
      (encode (file.request.body.getD [])).length

/-- What a file must also satisfy for its request to pass the probe. -/
structure BenchFile.Verifiable (visible : UInt8 → Bool) (parts : UrlRef) (file : BenchFile) :
    Prop where
  method : IsToken (file.request.method.getD "GET".toList)
  target : ∀ b ∈ encode (file.request.path.getD parts.path), visible b = true
  names : ∀ entry ∈ file.request.headers, IsToken entry.1
  few : file.sentNames.length ≤ 256
  agrees : file.LengthAgrees

section Sent
variable {file : BenchFile} {host : Str}

theorem keys_withHost :
    keys (if hostName ∈ keys (lastWins file.request.headers) then lastWins file.request.headers
      else lastWins file.request.headers ++ [(hostName, host)]) =
      (keys file.request.headers ++ [hostName]).foldl addKey [] := by
  rw [List.foldl_append, ← keys_lastWins, List.foldl_cons, List.foldl_nil, addKey]
  by_cases hmem : hostName ∈ keys (lastWins file.request.headers)
  · rw [if_pos hmem, if_pos hmem]
  · rw [if_neg hmem, if_neg hmem, keys_append]
    rfl

theorem keys_headersSent (file : BenchFile) (host : Str) :
    keys (file.headersSent host) = file.sentNames := by
  unfold BenchFile.headersSent BenchFile.sentNames
  cases file.request.body with
  | none => exact keys_remove.trans (congrArg _ keys_withHost)
  | some body => rw [keys_assign, keys_withHost]

theorem value_headersSent {name : Str} (hhost : name ≠ hostName)
    (hlength : name ≠ contentLengthName) :
    value (file.headersSent host) name = value file.request.headers.reverse name := by
  have hbase : value (if hostName ∈ keys (lastWins file.request.headers) then
      lastWins file.request.headers else lastWins file.request.headers ++ [(hostName, host)]) name =
      value file.request.headers.reverse name := by
    rw [← value_lastWins]
    by_cases hmem : hostName ∈ keys (lastWins file.request.headers)
    · rw [if_pos hmem]
    · rw [if_neg hmem, value_append]
      simp [value, hhost.symm]
  unfold BenchFile.headersSent
  cases file.request.body with
  | none =>
    refine Eq.trans ?_ hbase
    exact value_remove.trans (if_neg hlength.symm)
  | some body => exact value_assign.trans ((if_neg hlength.symm).trans hbase)

theorem mem_sentNames {name : Str} (h : name ∈ file.sentNames) :
    name ∈ keys file.request.headers ∨ name = hostName ∨ name = contentLengthName := by
  have hnames : ∀ name ∈ (keys file.request.headers ++ [hostName]).foldl addKey [],
      name ∈ keys file.request.headers ∨ name = hostName := by
    intro name hname
    rcases mem_foldl_addKey.mp hname with hnil | hmem
    · cases hnil
    · exact (List.mem_append.mp hmem).imp id List.mem_singleton.mp
  unfold BenchFile.sentNames at h
  cases hbody : file.request.body with
  | none =>
    rw [hbody] at h
    exact (hnames name (List.mem_filter.mp h).1).imp id .inl
  | some body =>
    rw [hbody] at h
    rcases mem_addKey.mp h with hold | rfl
    · exact (hnames name hold).imp id .inl
    · exact .inr (.inr rfl)

theorem sentNames_mem {name : Str} (h : name ∈ keys file.request.headers)
    (hlength : name ≠ contentLengthName) : name ∈ file.sentNames := by
  have hname : name ∈ (keys file.request.headers ++ [hostName]).foldl addKey [] :=
    mem_foldl_addKey.mpr (.inr (List.mem_append_left _ h))
  unfold BenchFile.sentNames
  cases file.request.body with
  | none => exact List.mem_filter.mpr ⟨hname, decide_eq_true hlength⟩
  | some body => exact mem_addKey.mpr (.inl hname)

theorem contentLength_headersSent :
    contentLength ((file.headersSent host).map fun entry => ⟨entry.1, encode entry.2⟩) =
      (file.sentNames.find? namesLength).bind fun name =>
        (value (file.headersSent host) name).bind (fromStrRadix 10 word) := by
  have hfind : ((file.headersSent host).map fun entry => (⟨entry.1, encode entry.2⟩ : Header)).find?
      (fun header => namesLength header.name) =
      ((file.headersSent host).find? fun entry => namesLength entry.1).map
        fun entry => ⟨entry.1, encode entry.2⟩ := List.find?_map
  change ((((file.headersSent host).map fun entry => (⟨entry.1, encode entry.2⟩ : Header)).find?
      fun header => namesLength header.name).bind _) = _
  rw [hfind, find?_keys, keys_headersSent]
  cases file.sentNames.find? namesLength with
  | none => rfl
  | some name =>
    rw [Option.bind_some, Option.bind_some]
    cases value (file.headersSent host) name with
    | none => rfl
    | some v =>
      simp only [Option.map_some, Option.bind_some, fromUtf8_encode]

/-- The length read is that of the body exactly when the file agrees. -/
theorem length_iff (hbody : (encode (file.request.body.getD [])).length < word) :
    (contentLength ((file.headersSent host).map fun entry => ⟨entry.1, encode entry.2⟩)).getD 0 =
      (encode (file.request.body.getD [])).length ↔ file.LengthAgrees := by
  rw [contentLength_headersSent, BenchFile.LengthAgrees]
  cases hfind : file.sentNames.find? namesLength with
  | none =>
    refine iff_of_true ?_ (by intro name h; cases h)
    cases hpresent : file.request.body with
    | none => rfl
    | some body =>
      -- with a body the formatter's own name is among those sent
      have hmem : contentLengthName ∈ file.sentNames := by
        unfold BenchFile.sentNames
        rw [hpresent]
        exact mem_addKey.mpr (.inr rfl)
      exact absurd (by decide : namesLength contentLengthName = true)
        (List.find?_eq_none.mp hfind contentLengthName hmem)
  | some name =>
    have hnames : namesLength name = true := List.find?_some hfind
    have hmem := List.mem_of_find?_eq_some hfind
    rw [Option.bind_some]
    by_cases hown : name = contentLengthName
    · refine iff_of_true ?_ ?_
      · subst hown
        cases hpresent : file.request.body with
        | none =>
          unfold BenchFile.sentNames at hmem
          rw [hpresent] at hmem
          exact absurd rfl (of_decide_eq_true (List.mem_filter.mp hmem).2)
        | some body =>
          rw [hpresent] at hbody
          have hvalue : value (file.headersSent host) contentLengthName =
              some (decimal (encode body).length) := by
            unfold BenchFile.headersSent
            rw [hpresent]
            exact value_assign.trans (if_pos rfl)
          have hlimit : (encode body).length < word := hbody
          rw [hvalue, Option.bind_some, fromStrRadix_decimal hlimit]
          rfl
      · intro other hother hne
        exact absurd ((Option.some.inj hother).symm.trans hown) hne
    · have hhost : name ≠ hostName := by
        rintro rfl
        exact absurd hnames (by decide)
      rw [value_headersSent hhost hown]
      constructor
      · intro h other hother _
        rw [← Option.some.inj hother]
        exact h
      · intro h
        exact h name rfl hown

end Sent

theorem decimal_visible (n : Nat) : Among isVisible (decimal n) := by
  intro c hc
  obtain ⟨hascii, hdigit⟩ := decimal_digits n c hc
  refine ⟨hascii, ?_⟩
  have htable := forall_byte
    (p := fun b => !(toDigit 10 (Char.ofNat b.toNat)).isSome || isVisible b) (by decide +kernel)
    (byte c)
  rw [toNat_byte_ascii hascii, Char.ofNat_toNat, hdigit] at htable
  exact htable

theorem validHeader_visible {name text : Str} (hname : IsWord name)
    (hcolon : NoByte (· == byte ':') name) (h : Among isVisible text) :
    ValidHeader (name, text) := by
  have hunbroken := visible_unbroken h
  have hspace : ' ' ∉ text := by
    intro hmem
    exact absurd (h ' ' hmem).2 (by decide)
  refine ⟨hname, hcolon, ⟨noByte_mono hunbroken ?_, noByte_mono hunbroken ?_⟩, ?_, ?_⟩
  · intro b hb
    have hle : b ≤ 0x20 := UInt8.le_of_lt (of_decide_eq_true hb)
    exact Bool.or_eq_true_iff.mpr (.inl (decide_eq_true hle))
  · intro b hb
    exact Bool.or_eq_true_iff.mpr (.inr hb)
  · intro hhead
    exact hspace (List.mem_of_head? hhead)
  · intro hlast
    exact hspace (List.mem_of_getLast? hlast)

theorem isWord_names : IsWord hostName ∧ IsWord contentLengthName :=
  ⟨⟨by decide, by decide⟩, ⟨by decide, by decide⟩⟩

section Head
variable {file : BenchFile} {url : Str} {parts : UrlRef}

theorem headersSent_valid (hfile : file.Valid) (hurl : parseUrl url = .ok (some parts)) :
    ∀ entry ∈ file.headersSent (hostHeader (parts.host.getD []) parts.port), ValidHeader entry := by
  intro entry hentry
  rcases mem_headersSent hentry with hmem | rfl | ⟨body, _, rfl⟩
  · exact hfile.headers entry hmem
  · exact validHeader_visible isWord_names.1 ruled_names.1.2 (parseUrl_host hurl)
  · exact validHeader_visible isWord_names.2 ruled_names.2.2 (decimal_visible _)

theorem methodSent_word (hfile : file.Valid) : IsWord (file.request.method.getD "GET".toList) := by
  cases hmethod : file.request.method with
  | none => exact ⟨by decide, by decide⟩
  | some m => exact hfile.method m hmethod

theorem pathSent_word (hfile : file.Valid) (hurl : parseUrl url = .ok (some parts)) :
    IsWord (file.request.path.getD parts.path) := by
  cases hpath : file.request.path with
  | none =>
    refine ⟨?_, parseUrl_path hurl⟩
    obtain ⟨_, u, rfl, rfl⟩ := parseUrl_sound hurl
    change u.path ≠ []
    unfold UrlShape.path
    split
    · rename_i hslash
      intro hnil
      rw [hnil] at hslash
      cases hslash
    · exact List.cons_ne_nil _ _
  | some p =>
    obtain ⟨hopens, hunbroken⟩ := hfile.path p hpath
    refine ⟨?_, hunbroken⟩
    rintro rfl
    rcases hopens with hstar | hslash
    · cases hstar
    · cases hslash

def BenchFile.headSent (hfile : file.Valid) (hurl : parseUrl url = .ok (some parts)) :
    RequestHead where
  method := file.request.method.getD "GET".toList
  path := file.request.path.getD parts.path
  headers := file.headersSent (hostHeader (parts.host.getD []) parts.port)
  method_word := methodSent_word hfile
  path_word := pathSent_word hfile hurl
  headers_valid := headersSent_valid hfile hurl

theorem request_head {name : Str} {engine : ConfigEngine} (hfile : file.Valid)
    (hurl : parseUrl url = .ok (some parts))
    (hcreate : ConfigEngine.create ⟨parts, []⟩ name file = .ok (.ok engine)) :
    engine.request = (BenchFile.headSent hfile hurl).bytes ++
      encode (file.request.body.getD []) ∧ engine.request.length ≤ vecMax := by
  obtain ⟨hrequest, hlength⟩ := formatRequest_eq (create_ok hcreate).2.1
  refine ⟨?_, hlength⟩
  rw [hrequest, requestBytes_eq, effectiveHeaders_file, ← List.append_assoc]
  cases hbody : file.request.body <;> rfl

theorem headSent_accepted (hfile : file.Valid) (hurl : parseUrl url = .ok (some parts))
    (visible : UInt8 → Bool) :
    (BenchFile.headSent hfile hurl).Accepted visible ↔
      IsToken (file.request.method.getD "GET".toList) ∧
        (∀ b ∈ encode (file.request.path.getD parts.path), visible b = true) ∧
        ∀ entry ∈ file.request.headers, IsToken entry.1 := by
  constructor
  · intro h
    refine ⟨h.method, h.target, fun entry hentry => ?_⟩
    by_cases hlength : entry.1 = contentLengthName
    · rw [hlength]
      decide
    · have hsent := sentNames_mem (List.mem_map_of_mem hentry) hlength
      rw [← keys_headersSent file (hostHeader (parts.host.getD []) parts.port)] at hsent
      obtain ⟨sent, hmem, hname⟩ := List.mem_map.mp hsent
      rw [← hname]
      exact h.names sent hmem
  · rintro ⟨hmethod, htarget, hnames⟩
    refine ⟨hmethod, htarget, fun entry hentry => ?_⟩
    have hsent : entry.1 ∈ file.sentNames := by
      rw [← keys_headersSent file (hostHeader (parts.host.getD []) parts.port)]
      exact List.mem_map_of_mem hentry
    rcases mem_sentNames hsent with hfield | hhost | hlength
    · obtain ⟨given, hmem, hname⟩ := List.mem_map.mp hfield
      rw [← hname]
      exact hnames given hmem
    · rw [hhost]
      decide
    · rw [hlength]
      decide

end Head

/-- The probe counts one message in the request of a validated file exactly when the file
is verifiable. -/
theorem create_verifies {build : Build} {parse : RequestParser} {visible : UInt8 → Bool}
    {url name : Str} {parts : UrlRef} {file : BenchFile} {engine : ConfigEngine}
    (hparse : parse.Reads visible) (hvalid : file.validate = .ok ())
    (hurl : parseUrl url = .ok (some parts))
    (hcreate : ConfigEngine.create ⟨parts, []⟩ name file = .ok (.ok engine)) :
    verifyRequest build parse engine.request = .ok (.ok 1) ↔ file.Verifiable visible parts := by
  have hfile := (validate_iff file).mp hvalid
  obtain ⟨hrequest, hlength⟩ := request_head hfile hurl hcreate
  rw [hrequest] at hlength ⊢
  have hbody : (encode (file.request.body.getD [])).length < word := by
    have hword : vecMax < word := by decide
    rw [List.length_append] at hlength
    omega
  have hfew : (BenchFile.headSent hfile hurl).headers.length = file.sentNames.length := by
    rw [← keys_headersSent file (hostHeader (parts.host.getD []) parts.port)]
    exact (List.length_map _).symm
  have hagrees : (contentLength (BenchFile.headSent hfile hurl).fields).getD 0 =
      (encode (file.request.body.getD [])).length ↔ file.LengthAgrees := length_iff hbody
  rw [verify_head build hparse hlength, headSent_accepted, hfew, hagrees]
  constructor
  · rintro ⟨⟨hmethod, htarget, hnames⟩, hcount, hlen⟩
    exact ⟨hmethod, htarget, hnames, hcount, hlen⟩
  · intro h
    exact ⟨⟨h.method, h.target, h.names⟩, h.few, h.agrees⟩

theorem create_verifies_sample :
    verifyRequest .release requestReference sampleEngine.request = .ok (.ok 1) ↔
      sampleFile.Verifiable isVisible sampleParts :=
  create_verifies requestReference_reads (by decide +kernel)
    (by decide +kernel : parseUrl "http://h".toList = _) sample_create

def claimingFile : BenchFile :=
  ⟨⟨none, none, none, [("content-length".toList, "5".toList)]⟩, ⟨none, none⟩⟩

/-- The probe of a validated file finds an incomplete request. -/
theorem verify_claimed_length :
    requestReference.Reads isVisible ∧ claimingFile.validate = .ok () ∧
      parseUrl "http://h".toList = .ok (some sampleParts) ∧ ∃ engine,
        ConfigEngine.create ⟨sampleParts, []⟩ "f".toList claimingFile = .ok (.ok engine) ∧
        verifyRequest .release requestReference engine.request =
          .ok (.error "incomplete request at 5:1".toList) := by
  refine ⟨requestReference_reads, by decide +kernel, by decide +kernel, ⟨ascii
    "GET / HTTP/1.1\r\ncontent-length: 5\r\nHost: h\r\n\r\n", claimingFile, 0, 0, false⟩, ?_, ?_⟩
  · decide +kernel
  · decide +kernel

end Wrkrs
