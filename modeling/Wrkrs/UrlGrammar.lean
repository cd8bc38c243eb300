import Wrkrs.Url

/-!
# What the URL parser accepts

The texts of accepted URLs as a grammar. Either automaton keeps a description of the part
it has read, one step for every state, and reads the text of a shape back.
-/

namespace Wrkrs

set_option autoImplicit false
set_option maxRecDepth 4096

open Text Machine Scanning

def Among (p : UInt8 → Bool) (s : Str) : Prop := ∀ c ∈ s, c.toNat < 128 ∧ p (byte c) = true

instance (p : UInt8 → Bool) (s : Str) : Decidable (Among p s) :=
  List.decidableBAll (fun c : Char => c.toNat < 128 ∧ p (byte c) = true) s

theorem Among.ascii {p : UInt8 → Bool} {s : Str} (h : Among p s) : Ascii s :=
  fun c hc => (h c hc).1

theorem Among.append_one {p : UInt8 → Bool} {s : Str} {c : Char} (h : Among p s)
    (hc : c.toNat < 128) (hp : p (byte c) = true) : Among p (s ++ [c]) := by
  intro d hd
  rcases List.mem_append.mp hd with hold | hnew
  · exact h d hold
  · rw [List.mem_singleton.mp hnew]
    exact ⟨hc, hp⟩

theorem Among.bytes {p : UInt8 → Bool} {s : Str} (h : Among p s) : ∀ b ∈ s.map byte, p b = true := by
  intro b hb
  obtain ⟨c, hc, rfl⟩ := List.mem_map.mp hb
  exact (h c hc).2

theorem among_nil {p : UInt8 → Bool} : Among p [] := List.forall_mem_nil _

theorem among_one {p : UInt8 → Bool} {c : Char} (hc : c.toNat < 128) (hp : p (byte c) = true) :
    Among p [c] :=
  among_nil.append_one hc hp

def isV6Char (ch : UInt8) : Bool := isHexdigit ch || ch == byte ':' || ch == byte '.'

/-- A name, or a bracketed literal with an optional zone. -/
inductive HostShape where
  | name (host : Str) (nonempty : host ≠ []) (chars : Among isHostChar host)
  | literal (address : Str) (zone : Option Str) (nonempty : address ≠ [])
      (chars : Among isV6Char address) (zoned : ∀ z ∈ zone, z ≠ [] ∧ Among isZoneChar z)

def zoneText : Option Str → Str
  | none => []
  | some zone => '%' :: zone

namespace HostShape

def value : HostShape → Str
  | name host _ _ => host
  | literal address zone _ _ _ => address ++ zoneText zone

def text : HostShape → Str
  | name host _ _ => host
  | literal address zone _ _ _ => '[' :: (address ++ zoneText zone ++ [']'])

def lead : HostShape → Nat
  | name _ _ _ => 0
  | literal _ _ _ _ _ => 1

end HostShape

def userText : Option Str → Str
  | none => []
  | some user => user ++ ['@']

def portText : Option Str → Str
  | none => []
  | some digits => ':' :: digits

def marker : Str := [':', '/', '/']

/-- A path, a query or a fragment that the main automaton reads to its end. -/
def TailOk (tail : Str) : Prop :=
  tail = [] ∨ ((tail.head? = some '/' ∨ tail.head? = some '?') ∧ Ascii tail ∧
    (tail.map byte).foldl urlStep .server ≠ .dead)

structure UrlShape where
  scheme : Str
  user : Option Str
  host : HostShape
  port : Option Str
  tail : Str
  scheme_nonempty : scheme ≠ []
  scheme_letters : Among isAlphabetic scheme
  user_chars : ∀ u ∈ user, Among isUserinfoChar u
  port_digits : ∀ p ∈ port, p ≠ [] ∧ Among isDigit p ∧ digitsValue 10 0 p ≤ 0xFFFF
  tail_ok : TailOk tail

namespace UrlShape

def authority (u : UrlShape) : Str := userText u.user ++ u.host.text ++ portText u.port

def text (u : UrlShape) : Str := u.scheme ++ marker ++ u.authority ++ u.tail

def path (u : UrlShape) : Str := if u.tail.head? = some '/' then u.tail else ['/']

def ref (u : UrlShape) : UrlRef := ⟨some u.scheme, some u.host.value, u.port, u.path⟩

end UrlShape

section Steps
variable {ch : UInt8} {state : UrlState}

/-- The states after the authority. -/
def TailState (state : UrlState) : Prop :=
  state = .path ∨ state = .queryStart ∨ state = .query ∨ state = .fragmentStart ∨
    state = .fragment

theorem not_space_of_live (hlive : urlStep state ch ≠ .dead) : ¬ isSpaceByte ch = true := by
  intro hspace
  apply hlive
  unfold urlStep
  exact if_pos hspace

theorem urlStep_start (hlive : urlStep .spacesBeforeUrl ch ≠ .dead) :
    urlStep .spacesBeforeUrl ch = .path ∨
      (urlStep .spacesBeforeUrl ch = .schema ∧ isAlphabetic ch = true) := by
  have hspace := not_space_of_live hlive
  unfold urlStep at hlive ⊢
  rw [if_neg hspace] at hlive ⊢
  dsimp only at hlive ⊢
  split_ifs at hlive ⊢ with hpath hletter
  · exact .inl rfl
  · exact .inr ⟨rfl, hletter⟩
  · exact absurd rfl hlive

theorem urlStep_schema (hlive : urlStep .schema ch ≠ .dead) :
    (urlStep .schema ch = .schema ∧ isAlphabetic ch = true) ∨
      (urlStep .schema ch = .schemaSlash ∧ ch = byte ':') := by
  have hspace := not_space_of_live hlive
  unfold urlStep at hlive ⊢
  rw [if_neg hspace] at hlive ⊢
  dsimp only at hlive ⊢
  split_ifs at hlive ⊢ with hletter hcolon
  · exact .inl ⟨rfl, hletter⟩
  · exact .inr ⟨rfl, hcolon⟩
  · exact absurd rfl hlive

theorem urlStep_schemaSlash (hlive : urlStep .schemaSlash ch ≠ .dead) :
    urlStep .schemaSlash ch = .schemaSlashSlash ∧ ch = byte '/' := by
  have hspace := not_space_of_live hlive
  unfold urlStep at hlive ⊢
  rw [if_neg hspace] at hlive ⊢
  dsimp only at hlive ⊢
  split_ifs at hlive ⊢ with hslash
  · exact ⟨rfl, hslash⟩
  · exact absurd rfl hlive

theorem urlStep_schemaSlashSlash (hlive : urlStep .schemaSlashSlash ch ≠ .dead) :
    urlStep .schemaSlashSlash ch = .serverStart ∧ ch = byte '/' := by
  have hspace := not_space_of_live hlive
  unfold urlStep at hlive ⊢
  rw [if_neg hspace] at hlive ⊢
  dsimp only at hlive ⊢
  split_ifs at hlive ⊢ with hslash
  · exact ⟨rfl, hslash⟩
  · exact absurd rfl hlive

theorem serverStep_cases (hlive : serverStep ch ≠ .dead) :
    serverStep ch = .server ∨ serverStep ch = .serverWithAt ∨
      (serverStep ch = .path ∧ ch = byte '/') ∨ (serverStep ch = .queryStart ∧ ch = byte '?') := by
  unfold serverStep at hlive ⊢
  split_ifs at hlive ⊢ with hpath hquery hat hserver
  · exact .inr (.inr (.inl ⟨rfl, hpath⟩))
  · exact .inr (.inr (.inr ⟨rfl, hquery⟩))
  · exact .inr (.inl rfl)
  · exact .inl rfl
  · exact absurd rfl hlive

def AuthorityState (state : UrlState) : Prop :=
  state = .serverStart ∨ state = .server ∨ state = .serverWithAt

theorem urlStep_serverStep (hstate : AuthorityState state) (hlive : urlStep state ch ≠ .dead) :
    urlStep state ch = serverStep ch := by
  have hspace := not_space_of_live hlive
  unfold urlStep at hlive ⊢
  rw [if_neg hspace] at hlive ⊢
  rcases hstate with rfl | rfl | rfl
  · rfl
  · rfl
  · dsimp only at hlive ⊢
    split_ifs at hlive ⊢
    · exact absurd rfl hlive
    · rfl

theorem urlStep_authority (hstate : AuthorityState state) (hlive : urlStep state ch ≠ .dead) :
    urlStep state ch = .server ∨ urlStep state ch = .serverWithAt ∨
      (urlStep state ch = urlStep .server ch ∧ ((urlStep state ch = .path ∧ ch = byte '/') ∨
        (urlStep state ch = .queryStart ∧ ch = byte '?'))) := by
  have hserver : urlStep .server ch = serverStep ch := by
    unfold urlStep
    exact if_neg (not_space_of_live hlive)
  have hstep := urlStep_serverStep hstate hlive
  rw [hstep] at hlive ⊢
  rcases serverStep_cases hlive with hsame | hat | htail
  · exact .inl hsame
  · exact .inr (.inl hat)
  · exact .inr (.inr ⟨hserver.symm, htail⟩)

theorem urlStep_tail (hstate : TailState state) (hlive : urlStep state ch ≠ .dead) :
    TailState (urlStep state ch) ∧ (urlStep state ch = .path → state = .path) := by
  have hspace := not_space_of_live hlive
  unfold urlStep at hlive ⊢
  rw [if_neg hspace] at hlive ⊢
  rcases hstate with rfl | rfl | rfl | rfl | rfl <;> dsimp only at hlive ⊢ <;>
    split_ifs at hlive ⊢ <;> simp [TailState] at hlive ⊢

theorem Scan.step_live {index : Nat} {s t : Scan} (h : Scan.step index s ch = some t) :
    urlStep s.state ch ≠ .dead := by
  intro hdead
  rw [Scan.step, hdead] at h
  cases h

end Steps

/-- A tail that starts at an offset, the state it ends in and the path marked. -/
structure Tailed (offset : Nat) (tail : Str) (state : UrlState) (path : Option Span) : Prop where
  opens : tail.head? = some '/' ∨ tail.head? = some '?'
  run : (tail.map byte).foldl urlStep .server = state
  inner : TailState state
  marked : state = .path → path ≠ none
  path : path.map Span.start = if tail.head? = some '/' then some offset else none

structure IsScheme (scheme : Str) : Prop where
  nonempty : scheme ≠ []
  letters : Among isAlphabetic scheme

structure Marked (scheme authority : Str) (s : Scan) : Prop where
  isScheme : IsScheme scheme
  schema : s.schema = some ⟨0, scheme.length⟩
  authority : s.authority = some ⟨scheme.length + 3, scheme.length + 3 + authority.length⟩

inductive Scanned : Str → Scan → Prop where
  | start : Scanned [] .start
  | schema {scheme : Str} : IsScheme scheme →
      Scanned scheme ⟨.schema, none, some ⟨0, scheme.length⟩, none, false⟩
  | slash {scheme : Str} : IsScheme scheme →
      Scanned (scheme ++ [':']) ⟨.schemaSlash, none, some ⟨0, scheme.length⟩, none, false⟩
  | slashes {scheme : Str} : IsScheme scheme →
      Scanned (scheme ++ [':', '/'])
        ⟨.schemaSlashSlash, none, some ⟨0, scheme.length⟩, none, false⟩
  | server {scheme : Str} : IsScheme scheme →
      Scanned (scheme ++ marker) ⟨.serverStart, none, some ⟨0, scheme.length⟩, none, false⟩
  | authority {scheme authority : Str} {s : Scan} : Marked scheme authority s →
      AuthorityState s.state → s.path = none → Scanned (scheme ++ marker ++ authority) s
  | tail {scheme authority tail : Str} {s : Scan} : Marked scheme authority s →
      Tailed (scheme.length + 3 + authority.length) tail s.state s.path →
      Scanned (scheme ++ marker ++ authority ++ tail) s
  | loose {past : Str} {s : Scan} : s.authority = none → TailState s.state → Scanned past s

theorem Tailed.next {offset index : Nat} {tail : Str} {s t : Scan} {c : Char}
    (h : Tailed offset tail s.state s.path) (hstep : Scan.step index s (byte c) = some t) :
    Tailed offset (tail ++ [c]) t.state t.path ∧ t.authority = s.authority ∧
      t.schema = s.schema ∧ t.foundAt = s.foundAt := by
  have hhead : (tail ++ [c]).head? = tail.head? := by
    rcases h.opens with hopens | hopens <;> rw [List.head?_append, hopens] <;> rfl
  have hrun : ((tail ++ [c]).map byte).foldl urlStep .server = urlStep s.state (byte c) := by
    rw [List.map_append, List.foldl_append, h.run]
    rfl
  obtain ⟨hinner, hpath⟩ := urlStep_tail h.inner (Scan.step_live hstep)
  unfold Scan.step at hstep
  generalize urlStep s.state (byte c) = next at hstep hrun hinner hpath
  rcases hinner with rfl | hquiet
  · obtain ⟨range, hrange⟩ := Option.ne_none_iff_exists'.mp (h.marked (hpath rfl))
    have hstart := h.path
    obtain rfl := Option.some.inj hstep
    rw [hrange] at hstart
    refine ⟨⟨hhead.symm ▸ h.opens, hrun, .inl rfl, fun _ => ?_, ?_⟩, rfl, rfl, rfl⟩
    · rw [hrange]
      exact Option.some_ne_none _
    · rw [hrange, hhead, ← hstart]
      rfl
  · have hsame : t = { s with state := next } := by
      rcases hquiet with rfl | rfl | rfl | rfl <;> exact (Option.some.inj hstep).symm
    subst hsame
    refine ⟨⟨hhead.symm ▸ h.opens, hrun, .inr hquiet, ?_, hhead.symm ▸ h.path⟩, rfl, rfl, rfl⟩
    intro hpath'
    subst hpath'
    simp at hquiet

theorem mark_tail {s t : Scan} {index : Nat} {state : UrlState} (hstate : TailState state)
    (h : s.mark index state = some t) : t.state = state ∧ t.authority = s.authority := by
  rcases hstate with rfl | rfl | rfl | rfl | rfl <;> rw [← Option.some.inj h] <;> exact ⟨rfl, rfl⟩

theorem Marked.grow {scheme authority : Str} {s t : Scan} {c : Char} {index : Nat}
    (h : Marked scheme authority s) (hindex : index = scheme.length + 3 + authority.length)
    (hschema : t.schema = s.schema) (hauthority : t.authority = Span.extend index s.authority) :
    Marked scheme (authority ++ [c]) t := by
  refine ⟨h.isScheme, hschema.trans h.schema, ?_⟩
  rw [hauthority, h.authority, hindex, List.length_append, List.length_singleton]
  rfl

theorem IsScheme.opened {scheme : Str} {c : Char} {t : Scan} (h : IsScheme scheme)
    (hschema : t.schema = some ⟨0, scheme.length⟩)
    (hauthority : t.authority = Span.extend (scheme ++ marker).length none) :
    Marked scheme [c] t := by
  refine ⟨h, hschema, ?_⟩
  rw [hauthority, List.length_append]
  rfl

section Scanned
variable {past : Str} {s t : Scan} {c : Char}

/-- What one more character adds, for every phase of the scan. -/
theorem Scanned.next (hc : c.toNat < 128) (h : Scanned past s)
    (hstep : Scan.step past.length s (byte c) = some t) : Scanned (past ++ [c]) t := by
  have hlive := Scan.step_live hstep
  unfold Scan.step at hstep
  cases h with
  | start =>
    rcases urlStep_start hlive with hnext | ⟨hnext, hletter⟩
    · rw [show urlStep Scan.start.state (byte c) = _ from hnext] at hstep
      obtain rfl := Option.some.inj hstep
      exact .loose rfl (.inl rfl)
    · rw [show urlStep Scan.start.state (byte c) = _ from hnext] at hstep
      obtain rfl := Option.some.inj hstep
      exact .schema ⟨List.cons_ne_nil _ _, among_one hc hletter⟩
  | schema hscheme =>
    rcases urlStep_schema hlive with ⟨hnext, hletter⟩ | ⟨hnext, hcolon⟩
    · rw [hnext] at hstep
      obtain rfl := Option.some.inj hstep
      have hmore : IsScheme (past ++ [c]) :=
        ⟨List.append_ne_nil_of_left_ne_nil hscheme.nonempty _,
          hscheme.letters.append_one hc hletter⟩
      have hlength : past.length + 1 = (past ++ [c]).length := by simp
      simp only [Span.extend]
      rw [hlength]
      exact .schema hmore
    · rw [hnext] at hstep
      obtain rfl := Option.some.inj hstep
      obtain rfl : c = ':' := byte_inj hc (by decide) hcolon
      exact .slash hscheme
  | @slash scheme hscheme =>
    obtain ⟨hnext, hslash⟩ := urlStep_schemaSlash hlive
    rw [hnext] at hstep
    obtain rfl := Option.some.inj hstep
    obtain rfl : c = '/' := byte_inj hc (by decide) hslash
    rw [List.append_assoc]
    exact .slashes hscheme
  | @slashes scheme hscheme =>
    obtain ⟨hnext, hslash⟩ := urlStep_schemaSlashSlash hlive
    rw [hnext] at hstep
    obtain rfl := Option.some.inj hstep
    obtain rfl : c = '/' := byte_inj hc (by decide) hslash
    rw [List.append_assoc]
    exact .server hscheme
  | @server scheme hscheme =>
    rcases urlStep_authority (.inl rfl) hlive with
      hnext | hnext | ⟨_, ⟨hnext, _⟩ | ⟨hnext, _⟩⟩
    · rw [hnext] at hstep
      obtain rfl := Option.some.inj hstep
      exact .authority (hscheme.opened rfl rfl) (.inr (.inl rfl)) rfl
    · rw [hnext] at hstep
      obtain rfl := Option.some.inj hstep
      exact .authority (hscheme.opened rfl rfl) (.inr (.inr rfl)) rfl
    · rw [hnext] at hstep
      obtain rfl := Option.some.inj hstep
      exact .loose rfl (.inl rfl)
    · rw [hnext] at hstep
      obtain rfl := Option.some.inj hstep
      exact .loose rfl (.inr (.inl rfl))
  | @authority scheme authority _ hmarked hstate hpath =>
    have hlength :
        (scheme ++ marker ++ authority).length = scheme.length + 3 + authority.length := by
      rw [List.length_append, List.length_append]
      rfl
    rcases urlStep_authority hstate hlive with
      hnext | hnext | ⟨hsame, ⟨hnext, hopens⟩ | ⟨hnext, hopens⟩⟩
    · rw [hnext] at hstep
      obtain rfl := Option.some.inj hstep
      rw [List.append_assoc]
      exact .authority (hmarked.grow hlength rfl rfl) (.inr (.inl rfl)) hpath
    · rw [hnext] at hstep
      obtain rfl := Option.some.inj hstep
      rw [List.append_assoc]
      exact .authority (hmarked.grow hlength rfl rfl) (.inr (.inr rfl)) hpath
    · rw [hnext] at hstep hsame
      obtain rfl := Option.some.inj hstep
      obtain rfl : c = '/' := byte_inj hc (by decide) hopens
      refine .tail ⟨hmarked.isScheme, hmarked.schema, hmarked.authority⟩ ?_
      refine ⟨.inl rfl, hsame.symm, .inl rfl, fun _ => ?_, ?_⟩
      · rw [hpath]
        exact Option.some_ne_none _
      · rw [hpath, hlength]
        rfl
    · rw [hnext] at hstep hsame
      obtain rfl := Option.some.inj hstep
      obtain rfl : c = '?' := byte_inj hc (by decide) hopens
      refine .tail ⟨hmarked.isScheme, hmarked.schema, hmarked.authority⟩ ?_
      exact ⟨.inr rfl, hsame.symm, .inr (.inl rfl), fun h => UrlState.noConfusion h,
        congrArg (Option.map Span.start) hpath⟩
  | @tail scheme authority tail _ hmarked htail =>
    obtain ⟨hnext, hauthority, hschema, _⟩ := htail.next hstep
    rw [List.append_assoc]
    exact .tail ⟨hmarked.isScheme, hschema.trans hmarked.schema,
      hauthority.trans hmarked.authority⟩ hnext
  | loose hnone hinner =>
    have hnext := (urlStep_tail hinner hlive).1
    obtain ⟨hstate, hauthority⟩ := mark_tail hnext hstep
    exact .loose (hauthority.trans hnone) (hstate.symm ▸ hnext)

end Scanned

theorem forall_byte {p : UInt8 → Bool}
    (h : (List.range 256).all (fun n => p (UInt8.ofNat n)) = true) (ch : UInt8) : p ch = true := by
  have hmem : ch.toNat ∈ List.range 256 := List.mem_range.mpr ch.toNat_lt
  have hp := List.all_eq_true.mp h ch.toNat hmem
  rwa [UInt8.ofNat_toNat] at hp

def isVisible (ch : UInt8) : Bool := byte '!' ≤ ch && ch ≤ byte '~'

theorem isVisible_toNat {ch : UInt8} (h : isVisible ch = true) : 33 ≤ ch.toNat ∧ ch.toNat < 127 := by
  have hle := Bool.and_eq_true_iff.mp h
  have hlow : (byte '!').toNat ≤ ch.toNat := UInt8.le_iff_toNat_le.mp (of_decide_eq_true hle.1)
  have hhigh : ch.toNat ≤ (byte '~').toNat := UInt8.le_iff_toNat_le.mp (of_decide_eq_true hle.2)
  exact ⟨hlow, Nat.lt_succ_of_le hhigh⟩

/-- The bytes outside of visible text belong to no class, blanks apart. -/
theorem invisible_classes {ch : UInt8} (h : isVisible ch = false) :
    isSpaceByte ch = true ∨
      (isUrlChar ch = false ∧ isAlphabetic ch = false ∧ isUserinfoChar ch = false) := by
  have htable := forall_byte
    (p := fun ch => isVisible ch || isSpaceByte ch ||
      !(isUrlChar ch || isAlphabetic ch || isUserinfoChar ch))
    (by decide +kernel) ch
  simpa [h, and_assoc] using htable

theorem urlStep_visible (state : UrlState) {ch : UInt8} (h : urlStep state ch ≠ .dead) :
    isVisible ch = true := by
  by_contra hinvisible
  have hne : ∀ c, isVisible (byte c) = true → ch ≠ byte c := by
    rintro c hc rfl
    exact hinvisible hc
  apply h
  unfold urlStep
  rcases invisible_classes (eq_false_of_ne_true hinvisible) with hspace | ⟨hurl, hletter, huser⟩
  · rw [if_pos hspace]
  · split
    · rfl
    · cases state <;> simp [serverStep, hurl, hletter, huser, hne '/' rfl, hne '*' rfl,
        hne ':' rfl, hne '@' rfl, hne '?' rfl, hne '#' rfl, hne '[' rfl, hne ']' rfl]

theorem step_visible {index : Nat} {s t : Scan} {ch : UInt8} (h : Scan.step index s ch = some t) :
    isVisible ch = true := by
  refine urlStep_visible s.state fun hdead => ?_
  rw [Scan.step, hdead] at h
  cases h

/-- A URL that is read to its end is visible ASCII text. -/
theorem scan_url {url : Str} {s : Scan} (h : scan Scan.step 0 .start (encode url) = some s) :
    Among isVisible url ∧ Scanned url s := by
  have hvisible : ∀ b ∈ encode url, isVisible b = true :=
    scan_forall (P := fun b => isVisible b = true) step_visible h
  have hascii : Ascii url := by
    refine ascii_of_encode fun b hb => ?_
    have hrange := isVisible_toNat (hvisible b hb)
    omega
  rw [encode_ascii hascii] at h hvisible
  refine ⟨fun c hc => ⟨hascii c hc, hvisible (byte c) (List.mem_map_of_mem hc)⟩, ?_⟩
  rw [scan_map] at h
  have hrun : Scanned ([] ++ url) s := scan_history 0 .start
    (fun hb hpast hstep => hpast.next (hascii _ hb) (by rwa [Nat.zero_add] at hstep)) h
  exact hrun

theorem Scanned.parts {url : Str} {s : Scan} {span : Span} (h : Scanned url s)
    (hauthority : s.authority = some span) :
    ∃ scheme authority tail, url = scheme ++ marker ++ authority ++ tail ∧
      Marked scheme authority s ∧
      (tail = [] ∧ s.path = none ∨
        Tailed (scheme.length + 3 + authority.length) tail s.state s.path) := by
  cases h with
  | @authority scheme authority _ hmarked _ hpath =>
    exact ⟨scheme, authority, [], (List.append_nil _).symm, hmarked, .inl ⟨rfl, hpath⟩⟩
  | @tail scheme authority tail _ hmarked htail =>
    exact ⟨scheme, authority, tail, rfl, hmarked, .inr htail⟩
  | loose hnone _ =>
    rw [hnone] at hauthority
    cases hauthority
  | _ => cases hauthority

def isServerChar (ch : UInt8) : Bool := isUserinfoChar ch || ch == byte '[' || ch == byte ']'

theorem alphabetic_step {ch : UInt8} (h : isAlphabetic ch = true) :
    urlStep .spacesBeforeUrl ch = .schema ∧ urlStep .schema ch = .schema := by
  have htable := forall_byte
    (p := fun ch => !isAlphabetic ch ||
      urlStep .spacesBeforeUrl ch == .schema && urlStep .schema ch == .schema)
    (by decide +kernel) ch
  simpa [h] using htable

theorem server_step {ch : UInt8} {state : UrlState} (hstate : AuthorityState state)
    (h : isServerChar ch = true) : urlStep state ch = .server := by
  have htable := forall_byte
    (p := fun ch => !isServerChar ch || urlStep .serverStart ch == .server &&
      urlStep .server ch == .server && urlStep .serverWithAt ch == .server)
    (by decide +kernel) ch
  have hsteps : (urlStep .serverStart ch = .server ∧ urlStep .server ch = .server) ∧
      urlStep .serverWithAt ch = .server := by
    simpa [h] using htable
  rcases hstate with rfl | rfl | rfl
  · exact hsteps.1.1
  · exact hsteps.1.2
  · exact hsteps.2

theorem foldl_dead (bs : Bytes) : bs.foldl urlStep .dead = .dead := by
  induction bs with
  | nil => rfl
  | cons c bs ih =>
    have hstep : urlStep .dead c = .dead := by
      unfold urlStep
      split <;> rfl
    rw [List.foldl_cons, hstep, ih]

theorem scan_alive (index : Nat) (s : Scan) {bs : Bytes} (h : bs.foldl urlStep s.state ≠ .dead) :
    ∃ t, scan Scan.step index s bs = some t := by
  induction bs generalizing index s with
  | nil => exact ⟨s, rfl⟩
  | cons b bs ih =>
    rw [List.foldl_cons] at h
    generalize hnext : urlStep s.state b = next at h
    have hmark : ∃ m, s.mark index next = some m ∧ m.state = next := by
      cases next with
      | dead => exact absurd (foldl_dead bs) h
      | _ => exact ⟨_, rfl, rfl⟩
    obtain ⟨m, hm, hstate⟩ := hmark
    obtain ⟨t, ht⟩ := ih (index + 1) m (hstate ▸ h)
    refine ⟨t, ?_⟩
    rw [scan_cons, Scan.step, hnext, hm, Option.bind_some, ht]

theorem scan_scheme {scheme : Str} (h : IsScheme scheme) :
    scan Scan.step 0 .start ((scheme ++ marker).map byte) =
      some ⟨.serverStart, none, some ⟨0, scheme.length⟩, none, false⟩ := by
  rw [List.map_append, scan_append, scan_enter (fun ch => isAlphabetic ch = true)
    (fun i => ⟨.schema, none, some ⟨0, i⟩, none, false⟩) 0 _ _ _ h.letters.bytes,
    Option.bind_some, List.length_map, Nat.zero_add]
  · rfl
  · intro ch hch
    rw [Scan.step, show urlStep Scan.start.state ch = _ from (alphabetic_step hch).1]
    rfl
  · intro i ch hch
    rw [Scan.step, (alphabetic_step hch).2]
    rfl
  · exact fun h' => h.nonempty (List.map_eq_nil_iff.mp h')

section Forward
variable {index : Nat} {state : UrlState} {schema : Option Span} {foundAt : Bool}

theorem scan_server (start : Option Span) {s : Str} (hstate : AuthorityState state) (hne : s ≠ [])
    (hchars : Among isServerChar s) :
    scan Scan.step index ⟨state, start, schema, none, foundAt⟩ (s.map byte) =
      some ⟨.server, some ⟨(start.map Span.start).getD index, index + s.length⟩, schema, none,
        foundAt⟩ := by
  rw [scan_enter (fun ch => isServerChar ch = true)
    (fun i => ⟨.server, some ⟨(start.map Span.start).getD index, i⟩, schema, none, foundAt⟩) index
    _ _ _ hchars.bytes, List.length_map]
  · intro ch hch
    rw [Scan.step, server_step hstate hch]
    cases start <;> rfl
  · intro i ch hch
    rw [Scan.step, server_step (.inr (.inl rfl)) hch]
    rfl
  · exact fun h => hne (List.map_eq_nil_iff.mp h)

theorem scan_authority (index : Nat) (schema : Option Span) {user : Option Str} {rest : Str}
    (huser : ∀ u ∈ user, Among isServerChar u) (hne : rest ≠ []) (hrest : Among isServerChar rest) :
    scan Scan.step index ⟨.serverStart, none, schema, none, false⟩
        ((userText user ++ rest).map byte) =
      some ⟨.server, some ⟨index, index + (userText user ++ rest).length⟩, schema, none,
        user.isSome⟩ := by
  cases user with
  | none => exact scan_server none (.inl rfl) hne hrest
  | some user =>
    have hat : scan Scan.step index ⟨.serverStart, none, schema, none, false⟩
        ((user ++ ['@']).map byte) =
        some ⟨.serverWithAt, some ⟨index, index + user.length + 1⟩, schema, none, true⟩ := by
      by_cases huser' : user = []
      · subst huser'
        rfl
      · rw [List.map_append, scan_append, scan_server none (.inl rfl) huser' (huser user rfl),
          Option.bind_some, List.length_map]
        rfl
    rw [userText, List.map_append, scan_append, hat, Option.bind_some,
      scan_server _ (.inr (.inr rfl)) hne hrest, List.length_map, List.length_append,
      List.length_append, List.length_singleton]
    simp [Nat.add_assoc]

/-- The tail so far, and the marks before it. -/
structure TailedFrom (index : Nat) (origin : Scan) (tail : Str) (s : Scan) : Prop where
  tailed : Tailed index tail s.state s.path
  authority : s.authority = origin.authority
  schema : s.schema = origin.schema
  foundAt : s.foundAt = origin.foundAt

theorem tailedFrom_open {s t : Scan} {c : Char} (hserver : s.state = .server) (hpath : s.path = none)
    (hopens : c = '/' ∨ c = '?') (hstep : Scan.step index s (byte c) = some t) :
    TailedFrom index s [c] t := by
  obtain ⟨state, authority, schema, path, foundAt⟩ := s
  obtain rfl : state = .server := hserver
  obtain rfl : path = none := hpath
  rcases hopens with rfl | rfl
  · obtain rfl := Option.some.inj hstep
    exact ⟨⟨.inl rfl, rfl, .inl rfl, fun _ => Option.some_ne_none _, rfl⟩, rfl, rfl, rfl⟩
  · obtain rfl := Option.some.inj hstep
    exact ⟨⟨.inr rfl, rfl, .inr (.inl rfl), fun h => UrlState.noConfusion h, rfl⟩, rfl, rfl, rfl⟩

theorem TailedFrom.next {origin s t : Scan} {tail : Str} {c : Char} {i : Nat}
    (h : TailedFrom index origin tail s) (hstep : Scan.step i s (byte c) = some t) :
    TailedFrom index origin (tail ++ [c]) t := by
  obtain ⟨htailed, hauthority, hschema, hfound⟩ := h.tailed.next hstep
  exact ⟨htailed, hauthority.trans h.authority, hschema.trans h.schema, hfound.trans h.foundAt⟩

theorem scan_tail (index : Nat) {tail : Str} {s : Scan} (hserver : s.state = .server)
    (hpath : s.path = none) (htail : TailOk tail) :
    ∃ t, scan Scan.step index s (tail.map byte) = some t ∧ t.authority = s.authority ∧
      t.schema = s.schema ∧ t.foundAt = s.foundAt ∧
      t.path.map Span.start = if tail.head? = some '/' then some index else none := by
  rcases htail with rfl | ⟨hopens, hascii, hrun⟩
  · exact ⟨s, rfl, rfl, rfl, rfl, congrArg (Option.map Span.start) hpath⟩
  · rw [← hserver] at hrun
    obtain ⟨t, ht⟩ := scan_alive index s hrun
    refine ⟨t, ht, ?_⟩
    cases tail with
    | nil => rcases hopens with hopens | hopens <;> cases hopens
    | cons c rest =>
      rw [scan_map] at ht
      obtain ⟨m, hm, hrest⟩ := Option.bind_eq_some_iff.mp ht
      have hopens' : c = '/' ∨ c = '?' := hopens.imp Option.some.inj Option.some.inj
      have hrun' : TailedFrom index s ([c] ++ rest) t :=
        scan_history index (tailedFrom_open hserver hpath hopens' hm)
          (fun _ hpast hstep => hpast.next hstep) hrest
      exact ⟨hrun'.authority, hrun'.schema, hrun'.foundAt, hrun'.tailed.path⟩

end Forward

end Wrkrs
