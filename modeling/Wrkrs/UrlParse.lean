import Wrkrs.UrlHost

/-!
# Parsed URLs

A URL is accepted exactly when it is the text of a shape, and then its parts are those of
the shape; no cut falls off a character boundary.
-/

namespace Wrkrs

set_option autoImplicit false
set_option maxRecDepth 4096

open Text Machine Scanning

section Cuts
variable {url piece : Str} {start stop : Nat}

theorem cut_piece (before after : Str) (hascii : Ascii url) (hurl : url = before ++ piece ++ after)
    (hstart : start = before.length) (hstop : stop = before.length + piece.length) :
    cut url start stop = .ok piece := by
  subst hurl hstart hstop
  rw [cut, substr_ascii hascii]

end Cuts

theorem toDigit_digit {c : Char} (hc : c.toNat < 128) (h : isDigit (byte c) = true) :
    (toDigit 10 c).isSome := by
  have hle := Bool.and_eq_true_iff.mp h
  have hlow : (byte '0').toNat ≤ (byte c).toNat := UInt8.le_iff_toNat_le.mp (of_decide_eq_true hle.1)
  have hhigh : (byte c).toNat ≤ (byte '9').toNat := UInt8.le_iff_toNat_le.mp (of_decide_eq_true hle.2)
  rw [toNat_byte_ascii hc] at hlow hhigh
  have hrange : 48 ≤ c.toNat ∧ c.toNat ≤ 57 := ⟨hlow, hhigh⟩
  simp only [toDigit, if_pos hrange]
  rw [if_pos (by omega)]
  rfl

theorem Among.allDigits {s : Str} (h : Among isDigit s) : AllDigits 10 s :=
  fun c hc => toDigit_digit (h c hc).1 (h c hc).2

def PortFits (digits : Option Str) : Prop := ∀ d ∈ digits, digitsValue 10 0 d ≤ 0xFFFF

instance (digits : Option Str) : Decidable (PortFits digits) :=
  match digits with
  | none => isTrue fun _ hd => nomatch hd
  | some d =>
    if h : digitsValue 10 0 d ≤ 0xFFFF then isTrue fun _ hd => Option.some.inj hd ▸ h
    else isFalse fun hall => h (hall d rfl)

theorem port_value {d : Str} (hne : d ≠ []) (hd : Among isDigit d) :
    (fromStrRadix 10 word d).any (· ≤ 0xFFFF) = decide (digitsValue 10 0 d ≤ 0xFFFF) := by
  by_cases hlt : digitsValue 10 0 d < word
  · rw [fromStrRadix_digits (by decide) hne hd.allDigits hlt, Option.any_some]
  · have hword : ¬ digitsValue 10 0 d ≤ 0xFFFF := fun hle =>
      hlt (Nat.lt_of_le_of_lt hle (by decide))
    rw [decide_eq_false hword]
    cases hparse : fromStrRadix 10 word d with
    | none => rfl
    | some n =>
      have hvalue := fromStrRadix_value hd.allDigits hparse
      have hless := fromStrRadix_lt (by decide) hparse
      omega

section Parts
variable {url scheme authority tail : Str} {user digits : Option Str} {host : HostShape} {s : Scan}

structure Parts (url scheme authority tail : Str) (user digits : Option Str) (host : HostShape)
    (s : Scan) : Prop where
  split : authority = userText user ++ host.text ++ portText digits
  text : url = scheme ++ marker ++ authority ++ tail
  ascii : Ascii url
  read : scan Scan.step 0 .start (encode url) = some s
  marked : Marked scheme authority s
  path : s.path.map Span.start =
    if tail.head? = some '/' then some (scheme.length + 3 + authority.length) else none
  isUser : IsUser s.foundAt user
  isPort : ∀ d ∈ digits, d ≠ [] ∧ Among isDigit d

theorem HostShape.text_value (host : HostShape) :
    ∃ before after, host.text = before ++ host.value ++ after ∧ before.length = host.lead := by
  cases host with
  | name host _ _ => exact ⟨[], [], (List.append_nil _).symm, rfl⟩
  | literal address zone _ _ _ => exact ⟨['['], [']'], rfl, rfl⟩

theorem authority_bytes (hurl : url = scheme ++ marker ++ authority ++ tail) (hascii : Ascii url) :
    ((encode url).drop (scheme.length + 3)).take authority.length = authority.map byte := by
  have hlength : scheme.length + 3 = ((scheme ++ marker).map byte).length := by
    rw [List.length_map, List.length_append]
    rfl
  rw [encode_ascii hascii, hurl, List.append_assoc (scheme ++ marker), List.map_append, hlength,
    List.drop_left, List.map_append, ← List.length_map (f := byte), List.take_left]

theorem Parts.hostSplit (h : Parts url scheme authority tail user digits host s) :
    splitHost (encode url) ⟨scheme.length + 3, scheme.length + 3 + authority.length⟩ s.foundAt =
      some (host.span (scheme.length + 3 + (userText user).length),
        portSpan (scheme.length + 3 + (userText user ++ host.text).length) digits) := by
  exact splitHost_text h.split (authority_bytes h.text h.ascii) h.isUser h.isPort

theorem Parts.cutHost (h : Parts url scheme authority tail user digits host s) :
    cut url (host.span (scheme.length + 3 + (userText user).length)).start
      (host.span (scheme.length + 3 + (userText user).length)).stop = .ok host.value := by
  obtain ⟨before, after, htext, hlead⟩ := host.text_value
  refine cut_piece (scheme ++ marker ++ userText user ++ before) (after ++ portText digits ++ tail)
    h.ascii ?_ ?_ ?_
  · rw [h.text, h.split, htext]
    simp only [List.append_assoc]
  · simp [HostShape.span, hlead, marker]
    omega
  · simp [HostShape.span, hlead, marker]
    omega

theorem Parts.cutPort (h : Parts url scheme authority tail user digits host s) {d : Str}
    (hd : digits = some d) :
    cut url (scheme.length + 3 + (userText user ++ host.text).length + 1)
      (scheme.length + 3 + (userText user ++ host.text).length + 1 + d.length) = .ok d := by
  refine cut_piece (scheme ++ marker ++ (userText user ++ host.text) ++ [':']) tail
    h.ascii ?_ ?_ ?_
  · rw [h.text, h.split, hd]
    simp [portText, List.append_assoc]
  · simp [marker, Nat.add_assoc]
    omega
  · simp [marker, Nat.add_assoc]
    omega

theorem Parts.portFits_eq (h : Parts url scheme authority tail user digits host s) :
    portFits url (portSpan (scheme.length + 3 + (userText user ++ host.text).length) digits) =
      .ok (decide (PortFits digits)) := by
  cases hdigits : digits with
  | none => exact congrArg Except.ok (decide_eq_true (by intro d hd; cases hd)).symm
  | some d =>
    obtain ⟨hne, hd⟩ := h.isPort d hdigits
    change (cut url _ _ >>= _) = _
    rw [h.cutPort hdigits, ok_bind]
    refine congrArg Except.ok ((port_value hne hd).trans (decide_eq_decide.mpr ?_))
    constructor
    · intro hle e he
      exact Option.some.inj he ▸ hle
    · intro hall
      exact hall d rfl

theorem Parts.parseFields_eq (h : Parts url scheme authority tail user digits host s) :
    parseFields url = .ok (if PortFits digits then
      some ⟨some ⟨0, scheme.length⟩, some (host.span (scheme.length + 3 + (userText user).length)),
        portSpan (scheme.length + 3 + (userText user ++ host.text).length) digits, s.path⟩
      else none) := by
  unfold parseFields
  simp only [h.read, h.marked.authority, h.marked.schema, h.hostSplit, h.portFits_eq, ok_bind,
    decide_eq_true_eq]
  split <;> rfl

theorem Parts.cutOption_eq (h : Parts url scheme authority tail user digits host s) :
    cutOption url (portSpan (scheme.length + 3 + (userText user ++ host.text).length) digits) =
      .ok digits := by
  cases hdigits : digits with
  | none => rfl
  | some d =>
    change (cut url _ _ >>= _) = _
    rw [h.cutPort hdigits]
    rfl

theorem Parts.cutPath_eq (h : Parts url scheme authority tail user digits host s) :
    cutPath url s.path = .ok (if tail.head? = some '/' then tail else ['/']) := by
  have hpath := h.path
  cases hrange : s.path with
  | none =>
    rw [hrange] at hpath
    have hopens : ¬ tail.head? = some '/' := by
      intro hopens
      rw [if_pos hopens] at hpath
      cases hpath
    rw [if_neg hopens]
    rfl
  | some range =>
    rw [hrange] at hpath
    have hopens : tail.head? = some '/' := by
      by_contra hopens
      rw [if_neg hopens] at hpath
      cases hpath
    rw [if_pos hopens] at hpath ⊢
    have hbefore : (scheme ++ marker ++ authority).length = scheme.length + 3 + authority.length := by
      rw [List.length_append, List.length_append]
      rfl
    refine cut_piece (scheme ++ marker ++ authority) [] h.ascii ?_ ?_ ?_
    · rw [h.text, List.append_nil]
    · rw [hbefore]
      exact Option.some.inj hpath
    · rw [encode_ascii h.ascii, List.length_map, h.text, List.length_append]

/-- The parts of an accepted URL, and the only reason to reject one that is split. -/
theorem Parts.parseUrl_eq (h : Parts url scheme authority tail user digits host s) :
    parseUrl url = .ok (if PortFits digits then
      some ⟨some scheme, some host.value, digits, if tail.head? = some '/' then tail else ['/']⟩
      else none) := by
  have hscheme : cut url 0 scheme.length = .ok scheme :=
    cut_piece [] (marker ++ authority ++ tail) h.ascii
      (by rw [h.text]; simp only [List.nil_append, List.append_assoc]) rfl (Nat.zero_add _).symm
  unfold parseUrl
  rw [h.parseFields_eq, ok_bind]
  by_cases hfits : PortFits digits
  · rw [if_pos hfits, if_pos hfits]
    simp only [h.cutOption_eq, ok_bind, h.cutPath_eq, hscheme, h.cutHost]
    rfl
  · rw [if_neg hfits, if_neg hfits]
    rfl

end Parts

theorem Tailed.tailOk {offset : Nat} {tail : Str} {state : UrlState} {path : Option Span}
    (h : Tailed offset tail state path) (hascii : Ascii tail) : TailOk tail := by
  refine .inr ⟨h.opens, hascii, ?_⟩
  rw [h.run]
  rcases h.inner with hstate | hstate | hstate | hstate | hstate <;> rw [hstate] <;> decide

theorem parts_of_split {url : Str} {s : Scan} {span : Span} {result : Span × Option Span}
    (hscan : scan Scan.step 0 .start (encode url) = some s) (hauthority : s.authority = some span)
    (hsplit : splitHost (encode url) span s.foundAt = some result) :
    ∃ scheme authority tail user digits host,
      Parts url scheme authority tail user digits host s ∧ TailOk tail := by
  obtain ⟨hvisible, hscanned⟩ := scan_url hscan
  obtain ⟨scheme, authority, tail, hurl, hmarked, htail⟩ := hscanned.parts hauthority
  obtain rfl := Option.some.inj (hauthority.symm.trans hmarked.authority)
  have hascii := hvisible.ascii
  have hparts : Ascii (scheme ++ marker) ∧ Ascii authority ∧ Ascii tail := by
    rw [hurl, ascii_append, ascii_append] at hascii
    exact ⟨hascii.1.1, hascii.1.2, hascii.2⟩
  obtain ⟨user, host, digits, huser, hdigits, hsplit'⟩ :=
    splitHost_sound hparts.2.1 (authority_bytes hurl hascii) hsplit
  refine ⟨scheme, authority, tail, user, digits, host,
    ⟨hsplit', hurl, hascii, hscan, hmarked, ?_, huser, hdigits⟩, ?_⟩
  · rcases htail with ⟨rfl, hpath⟩ | htail
    · rw [hpath]
      rfl
    · exact htail.path
  · rcases htail with ⟨rfl, _⟩ | htail
    · exact .inl rfl
    · exact htail.tailOk hparts.2.2

theorem parseUrl_cases (url : Str) :
    parseUrl url = .ok none ∨ ∃ scheme authority tail user digits host s,
      Parts url scheme authority tail user digits host s ∧ TailOk tail := by
  cases hscan : scan Scan.step 0 .start (encode url) with
  | none =>
    left
    unfold parseUrl parseFields
    rw [hscan]
    rfl
  | some s =>
    cases hauthority : s.authority with
    | none =>
      left
      unfold parseUrl parseFields
      simp only [hscan, hauthority]
      rfl
    | some span =>
      obtain ⟨_, _, _, _, hmarked, _⟩ := (scan_url hscan).2.parts hauthority
      cases hsplit : splitHost (encode url) span s.foundAt with
      | none =>
        left
        unfold parseUrl parseFields
        simp only [hscan, hauthority, hmarked.schema, hsplit]
        rfl
      | some result =>
        right
        obtain ⟨scheme, authority, tail, user, digits, host, hparts⟩ :=
          parts_of_split hscan hauthority hsplit
        exact ⟨scheme, authority, tail, user, digits, host, s, hparts⟩

theorem Parts.shape {url scheme authority tail : Str} {user digits : Option Str} {host : HostShape}
    {s : Scan} (h : Parts url scheme authority tail user digits host s) (htail : TailOk tail)
    (hfits : PortFits digits) :
    ∃ u : UrlShape, u.text = url ∧ u.user = user ∧
      u.ref = ⟨some scheme, some host.value, digits, if tail.head? = some '/' then tail else ['/']⟩ :=
  ⟨⟨scheme, user, host, digits, tail, h.marked.isScheme.nonempty, h.marked.isScheme.letters,
    h.isUser.chars, fun d hd => ⟨(h.isPort d hd).1, (h.isPort d hd).2, hfits d hd⟩, htail⟩,
    (h.text.trans (congrArg (scheme ++ marker ++ · ++ tail) h.split)).symm, rfl, rfl⟩

/-- No cut of any text falls off a character boundary. -/
theorem parseUrl_total (url : Str) : ∃ result, parseUrl url = .ok result := by
  rcases parseUrl_cases url with hnone | ⟨_, _, _, _, _, _, _, hparts, _⟩
  · exact ⟨none, hnone⟩
  · exact ⟨_, hparts.parseUrl_eq⟩

theorem parseUrl_sound {url : Str} {ref : UrlRef} (h : parseUrl url = .ok (some ref)) :
    Among isVisible url ∧ ∃ u : UrlShape, u.text = url ∧ u.ref = ref := by
  rcases parseUrl_cases url with
    hnone | ⟨scheme, authority, tail, user, digits, host, s, hparts, htail⟩
  · rw [hnone] at h
    cases h
  · refine ⟨(scan_url hparts.read).1, ?_⟩
    rw [hparts.parseUrl_eq] at h
    by_cases hfits : PortFits digits
    · rw [if_pos hfits] at h
      obtain ⟨u, htext, _, href⟩ := hparts.shape htail hfits
      exact ⟨u, htext, href.trans (Option.some.inj (Except.ok.inj h))⟩
    · rw [if_neg hfits] at h
      cases h

theorem Among.mono {p q : UInt8 → Bool} {s : Str} (h : Among p s)
    (hpq : ∀ ch, p ch = true → q ch = true) : Among q s :=
  fun c hc => ⟨(h c hc).1, hpq _ (h c hc).2⟩

theorem Among.append {p : UInt8 → Bool} {s t : Str} (hs : Among p s) (ht : Among p t) :
    Among p (s ++ t) := List.forall_mem_append.mpr ⟨hs, ht⟩

theorem server_of_class {ch : UInt8} (h : isUserinfoChar ch = true ∨ isHostChar ch = true ∨
    isV6Char ch = true ∨ isZoneChar ch = true ∨ isDigit ch = true) : isServerChar ch = true := by
  have htable := forall_byte
    (p := fun ch => !(isUserinfoChar ch || isHostChar ch || isV6Char ch || isZoneChar ch ||
      isDigit ch) || isServerChar ch)
    (by decide +kernel) ch
  rcases h with h | h | h | h | h <;> simpa [h] using htable

theorem HostShape.server (host : HostShape) : host.text ≠ [] ∧ Among isServerChar host.text := by
  cases host with
  | name host hne hchars =>
    exact ⟨hne, hchars.mono fun _ h => server_of_class (.inr (.inl h))⟩
  | literal address zone hne hchars hzone =>
    have haddress : Among isServerChar address :=
      hchars.mono fun _ h => server_of_class (.inr (.inr (.inl h)))
    have hzoneText : Among isServerChar (zoneText zone) := by
      cases zone with
      | none => exact among_nil
      | some z =>
        exact (among_one (c := '%') (by decide) (by decide)).append
          ((hzone z rfl).2.mono fun _ h => server_of_class (.inr (.inr (.inr (.inl h)))))
    refine ⟨List.cons_ne_nil _ _, ?_⟩
    exact (among_one (c := '[') (by decide) (by decide)).append
      ((haddress.append hzoneText).append (among_one (c := ']') (by decide) (by decide)))

theorem portText_server {digits : Option Str} (h : ∀ d ∈ digits, Among isDigit d) :
    Among isServerChar (portText digits) := by
  cases digits with
  | none => exact among_nil
  | some d =>
    exact (among_one (c := ':') (by decide) (by decide)).append
      ((h d rfl).mono fun _ h => server_of_class (.inr (.inr (.inr (.inr h)))))

namespace UrlShape

theorem user_server (u : UrlShape) : ∀ user ∈ u.user, Among isServerChar user :=
  fun user huser => (u.user_chars user huser).mono fun _ h => server_of_class (.inl h)

theorem rest_server (u : UrlShape) :
    u.host.text ++ portText u.port ≠ [] ∧ Among isServerChar (u.host.text ++ portText u.port) :=
  ⟨List.append_ne_nil_of_left_ne_nil u.host.server.1 _,
    u.host.server.2.append (portText_server fun d hd => (u.port_digits d hd).2.1)⟩

theorem ascii (u : UrlShape) : Ascii u.text := by
  have huser : Ascii (userText u.user) := by
    cases h : u.user with
    | none => exact fun c hc => nomatch hc
    | some user => exact ascii_append.mpr ⟨(u.user_chars user h).ascii, by decide⟩
  have htail : Ascii u.tail := by
    rcases u.tail_ok with hnil | ⟨_, hascii, _⟩
    · rw [hnil]
      exact fun c hc => nomatch hc
    · exact hascii
  have hrest := ascii_append.mp u.rest_server.2.ascii
  exact ascii_append.mpr ⟨ascii_append.mpr ⟨ascii_append.mpr ⟨u.scheme_letters.ascii, by decide⟩,
    ascii_append.mpr ⟨ascii_append.mpr ⟨huser, hrest.1⟩, hrest.2⟩⟩, htail⟩

theorem parts (u : UrlShape) :
    ∃ s, Parts u.text u.scheme u.authority u.tail u.user u.port u.host s := by
  have hmarker : (u.scheme ++ marker).length = u.scheme.length + 3 := List.length_append
  have hauthority := scan_authority (u.scheme.length + 3) (some ⟨0, u.scheme.length⟩) u.user_server
    u.rest_server.1 u.rest_server.2
  rw [← List.append_assoc] at hauthority
  obtain ⟨s, hs, hspan, hschema, hfound, hpath⟩ :=
    scan_tail (u.scheme.length + 3 + u.authority.length)
      (s := ⟨.server, some ⟨u.scheme.length + 3, u.scheme.length + 3 + u.authority.length⟩,
        some ⟨0, u.scheme.length⟩, none, u.user.isSome⟩) rfl rfl u.tail_ok
  refine ⟨s, rfl, rfl, u.ascii, ?_, ⟨⟨u.scheme_nonempty, u.scheme_letters⟩, hschema, hspan⟩, hpath,
    ⟨hfound.symm, u.user_chars⟩, fun d hd => ⟨(u.port_digits d hd).1, (u.port_digits d hd).2.1⟩⟩
  rw [encode_ascii u.ascii, text, List.map_append, List.map_append, scan_append, scan_append,
    scan_scheme ⟨u.scheme_nonempty, u.scheme_letters⟩, Option.bind_some, Nat.zero_add,
    List.length_map, hmarker, authority, hauthority, Option.bind_some, ← List.map_append,
    List.length_map, List.length_append, hmarker, Nat.zero_add]
  exact hs

end UrlShape

theorem parseUrl_text (u : UrlShape) : parseUrl u.text = .ok (some u.ref) := by
  obtain ⟨s, hparts⟩ := u.parts
  have hfits : PortFits u.port := fun d hd => (u.port_digits d hd).2.2
  rw [hparts.parseUrl_eq, if_pos hfits]
  rfl

/-- The URLs accepted are the texts of shapes. -/
theorem parseUrl_iff {url : Str} {ref : UrlRef} :
    parseUrl url = .ok (some ref) ↔ ∃ u : UrlShape, u.text = url ∧ u.ref = ref := by
  constructor
  · exact fun h => (parseUrl_sound h).2
  · rintro ⟨u, rfl, rfl⟩
    exact parseUrl_text u

theorem forall_ascii {p : Char → Bool}
    (h : (List.range 128).all (fun n => p (Char.ofNat n)) = true) {c : Char} (hc : c.toNat < 128) :
    p c = true := by
  have hp := List.all_eq_true.mp h c.toNat (List.mem_range.mpr hc)
  rwa [Char.ofNat_toNat] at hp

theorem Among.imp {p : UInt8 → Bool} {q : Char → Bool} {s : Str} (h : Among p s)
    (htable : (List.range 128).all (fun n => !p (byte (Char.ofNat n)) || q (Char.ofNat n)) = true) :
    ∀ c ∈ s, q c = true := by
  intro c hc
  obtain ⟨hascii, hp⟩ := h c hc
  have hq := forall_ascii (p := fun c => !p (byte c) || q c) htable hascii
  simpa [hp] using hq

theorem Among.not_mem {p : UInt8 → Bool} {s : Str} {c : Char} (h : Among p s)
    (hc : p (byte c) = false) : c ∉ s := by
  intro hmem
  rw [(h c hmem).2] at hc
  cases hc

/-- What stands where in an accepted URL, and what of it is returned. -/
structure UrlRef.Describes (ref : UrlRef) (url scheme userinfo hostpart portpart tail : Str) :
    Prop where
  text : url = scheme ++ "://".toList ++ userinfo ++ hostpart ++ portpart ++ tail
  scheme : ref.scheme = some scheme ∧ scheme ≠ [] ∧ ∀ c ∈ scheme, c.isAlpha = true
  userinfo : userinfo = [] ∨ ∃ user, userinfo = user ++ ['@'] ∧ '@' ∉ user
  authority : '@' ∉ hostpart ++ portpart
  host : ∃ host, ref.host = some host ∧
    ((hostpart = host ∧ host ≠ [] ∧ ∀ c ∈ host, (c.isAlphanum || c == '.' || c == '-') = true) ∨
      ∃ address zone, hostpart = '[' :: host ++ [']'] ∧ host = address ++ zone ∧
        address ≠ [] ∧ Among isV6Char address ∧
        (zone = [] ∨ ∃ z, zone = '%' :: z ∧ z ≠ [] ∧ Among isZoneChar z))
  port : (portpart = [] ∧ ref.port = none) ∨ ∃ digits, portpart = ':' :: digits ∧
    ref.port = some digits ∧ digits ≠ [] ∧ (∀ c ∈ digits, c.isDigit = true) ∧
    digitsValue 10 0 digits ≤ 65535
  rest : tail = [] ∨ tail.head? = some '/' ∨ tail.head? = some '?'
  path : ref.path = if tail.head? = some '/' then tail else ['/']

theorem HostShape.text_no_at (host : HostShape) : '@' ∉ host.text := by
  cases host with
  | name host _ hchars => exact hchars.not_mem (by decide)
  | literal address zone _ hchars hzone =>
    have haddress : '@' ∉ address := hchars.not_mem (by decide)
    cases zone with
    | none => simp [text, zoneText, haddress]
    | some z =>
      have hz : '@' ∉ z := (hzone z rfl).2.not_mem (by decide)
      simp [text, zoneText, haddress, hz]

theorem portText_no_at {digits : Option Str} (h : ∀ d ∈ digits, Among isDigit d) :
    '@' ∉ portText digits := by
  cases digits with
  | none => exact List.not_mem_nil
  | some d =>
    have hd : '@' ∉ d := (h d rfl).not_mem (by decide)
    simp [portText, hd]

theorem UrlShape.describes (u : UrlShape) :
    u.ref.Describes u.text u.scheme (userText u.user) u.host.text (portText u.port) u.tail where
  text := by
    simp only [text, authority, marker, List.append_assoc]
    rfl
  scheme := ⟨rfl, u.scheme_nonempty, u.scheme_letters.imp (by decide +kernel)⟩
  userinfo := by
    cases huser : u.user with
    | none => exact .inl rfl
    | some user => exact .inr ⟨user, rfl, (u.user_chars user huser).not_mem (by decide)⟩
  authority := by
    intro hmem
    rcases List.mem_append.mp hmem with hhost | hport
    · exact u.host.text_no_at hhost
    · exact portText_no_at (fun d hd => (u.port_digits d hd).2.1) hport
  host := by
    refine ⟨u.host.value, rfl, ?_⟩
    cases u.host with
    | name host hne hchars => exact .inl ⟨rfl, hne, hchars.imp (by decide +kernel)⟩
    | literal address zone hne hchars hzone =>
      refine .inr ⟨address, zoneText zone, rfl, rfl, hne, hchars, ?_⟩
      cases zone with
      | none => exact .inl rfl
      | some z => exact .inr ⟨z, rfl, hzone z rfl⟩
  port := by
    change (portText u.port = [] ∧ u.port = none) ∨ _
    cases hport : u.port with
    | none => exact .inl ⟨rfl, rfl⟩
    | some d =>
      obtain ⟨hne, hdigits, hvalue⟩ := u.port_digits d hport
      exact .inr ⟨d, rfl, hport, hne, hdigits.imp (by decide +kernel), hvalue⟩
  rest := by
    rcases u.tail_ok with hnil | ⟨hopens, _⟩
    · exact .inl hnil
    · exact .inr hopens
  path := rfl

theorem Among.no_space {s : Str} (h : Among isVisible s) :
    ∀ c ∈ s, c.toNat < 128 ∧ isSpace c = false := by
  intro c hc
  refine ⟨h.ascii c hc, ?_⟩
  have hspace := h.imp (q := fun c => !isSpace c) (by decide +kernel) c hc
  simpa using hspace

/-- Every text is parsed without a fault, and an accepted one is ASCII without blanks and
falls into the parts returned. -/
theorem parseUrl_describes (url : Str) :
    ∃ result, parseUrl url = .ok result ∧ ∀ ref, result = some ref →
      (∀ c ∈ url, c.toNat < 128 ∧ isSpace c = false) ∧
      ∃ scheme userinfo hostpart portpart tail,
        ref.Describes url scheme userinfo hostpart portpart tail := by
  obtain ⟨result, hresult⟩ := parseUrl_total url
  refine ⟨result, hresult, ?_⟩
  rintro ref rfl
  obtain ⟨hvisible, u, rfl, rfl⟩ := parseUrl_sound hresult
  exact ⟨hvisible.no_space, _, _, _, _, _, u.describes⟩

example : parseUrl "http://me@[fe80::1%eth0]:8080/a?b#c".toList =
    .ok (some ⟨some "http".toList, some "fe80::1%eth0".toList, some "8080".toList,
      "/a?b#c".toList⟩) := by decide +kernel

end Wrkrs
