import Wrkrs.UrlRebuild

/-!
# Legal benchmark URLs

The URLs of the generic grammar with a scheme of letters, a name for a host, an optional
port and a rooted path, and which of them the parser takes.
-/

namespace Wrkrs

set_option autoImplicit false
set_option maxRecDepth 4096

open Text Machine

def isPchar (ch : UInt8) : Bool := isAlphanumeric ch || (ascii "-._~%!$&'()*+,;=:@").contains ch

def isPathChar (ch : UInt8) : Bool := isPchar ch || ch == byte '/'

def isQueryChar (ch : UInt8) : Bool := isPathChar ch || ch == byte '?'

def opened (c : Char) : Option Str → Str
  | none => []
  | some part => c :: part

structure LegalUrl where
  scheme : Str
  host : Str
  port : Option Str
  path : Str
  query : Option Str
  fragment : Option Str
  scheme_nonempty : scheme ≠ []
  scheme_letters : Among isAlphabetic scheme
  host_nonempty : host ≠ []
  host_chars : Among isHostChar host
  port_digits : ∀ p ∈ port, p ≠ [] ∧ Among isDigit p ∧ digitsValue 10 0 p ≤ 0xFFFF
  path_rooted : path.head? = some '/'
  path_chars : Among isPathChar path
  query_chars : ∀ q ∈ query, Among isQueryChar q
  fragment_chars : ∀ f ∈ fragment, Among isQueryChar f

namespace LegalUrl

def tail (u : LegalUrl) : Str := u.path ++ opened '?' u.query ++ opened '#' u.fragment

def text (u : LegalUrl) : Str := u.scheme ++ marker ++ (u.host ++ portText u.port) ++ u.tail

def ref (u : LegalUrl) : UrlRef := ⟨some u.scheme, some u.host, u.port, u.tail⟩

end LegalUrl

def InQuery (state : UrlState) : Prop := state = .queryStart ∨ state = .query

def InFragment (state : UrlState) : Prop := state = .fragmentStart ∨ state = .fragment

/-- The states in which a fragment can be opened. -/
def BeforeFragment (state : UrlState) : Prop := state = .path ∨ InQuery state

theorem path_step {ch : UInt8} (h : isPathChar ch = true) (hat : ch ≠ byte '@') :
    urlStep .path ch = .path := by
  have htable := forall_byte
    (p := fun ch => !isPathChar ch || ch == byte '@' || urlStep .path ch == .path)
    (by decide +kernel) ch
  simpa [h, hat] using htable

theorem query_step {ch : UInt8} (h : isQueryChar ch = true) (hat : ch ≠ byte '@') :
    (urlStep .queryStart ch = .query ∧ urlStep .query ch = .query) ∧
      urlStep .fragmentStart ch = .fragment ∧ urlStep .fragment ch = .fragment := by
  have htable := forall_byte
    (p := fun ch => !isQueryChar ch || ch == byte '@' ||
      (urlStep .queryStart ch == .query && urlStep .query ch == .query) &&
        (urlStep .fragmentStart ch == .fragment && urlStep .fragment ch == .fragment))
    (by decide +kernel) ch
  simpa [h, hat] using htable

theorem run_within {p : UInt8 → Bool} {S : UrlState → Prop}
    (hstep : ∀ state ch, S state → p ch = true → ch ≠ byte '@' → S (urlStep state ch))
    {s : Str} {state : UrlState} (hstate : S state) (hchars : Among p s) (hat : '@' ∉ s) :
    S ((s.map byte).foldl urlStep state) := by
  induction s generalizing state with
  | nil => exact hstate
  | cons c rest ih =>
    obtain ⟨⟨hascii, hc⟩, hrest⟩ := List.forall_mem_cons.mp hchars
    obtain ⟨hfirst, hlater⟩ := List.ne_and_not_mem_of_not_mem_cons hat
    have hne : byte c ≠ byte '@' := by
      intro heq
      exact hfirst (byte_inj hascii (by decide) heq).symm
    rw [List.map_cons, List.foldl_cons]
    exact ih (hstep state (byte c) hstate hc hne) hrest hlater

theorem run_path {path : Str} (hrooted : path.head? = some '/') (hchars : Among isPathChar path)
    (hat : '@' ∉ path) : (path.map byte).foldl urlStep .server = .path := by
  cases path with
  | nil => cases hrooted
  | cons c rest =>
    obtain rfl := Option.some.inj hrooted
    have hrest := (List.forall_mem_cons.mp hchars).2
    have hlater := (List.ne_and_not_mem_of_not_mem_cons hat).2
    rw [List.map_cons, List.foldl_cons]
    refine run_within (S := (· = .path)) ?_ rfl hrest hlater
    rintro state ch rfl hch hne
    exact path_step hch hne

theorem run_query {query : Option Str} (hchars : ∀ q ∈ query, Among isQueryChar q)
    (hat : '@' ∉ opened '?' query) :
    BeforeFragment (((opened '?' query).map byte).foldl urlStep .path) := by
  cases query with
  | none => exact .inl rfl
  | some q =>
    have hlater := (List.ne_and_not_mem_of_not_mem_cons hat).2
    rw [opened, List.map_cons, List.foldl_cons]
    refine .inr (run_within (S := InQuery) ?_ (.inl rfl) (hchars q rfl) hlater)
    rintro state ch (rfl | rfl) hch hne
    · exact .inr (query_step hch hne).1.1
    · exact .inr (query_step hch hne).1.2

theorem run_fragment {fragment : Option Str} (hchars : ∀ f ∈ fragment, Among isQueryChar f)
    (hat : '@' ∉ opened '#' fragment) {state : UrlState} (hstate : BeforeFragment state) :
    ((opened '#' fragment).map byte).foldl urlStep state ≠ .dead := by
  cases fragment with
  | none => rcases hstate with rfl | rfl | rfl <;> decide
  | some f =>
    have hlater := (List.ne_and_not_mem_of_not_mem_cons hat).2
    have hopen : urlStep state (byte '#') = .fragmentStart := by
      rcases hstate with rfl | rfl | rfl <;> rfl
    rw [opened, List.map_cons, List.foldl_cons, hopen]
    have hrun : InFragment ((f.map byte).foldl urlStep .fragmentStart) := by
      apply run_within ?_ (.inl rfl) (hchars f rfl) hlater
      rintro state ch (rfl | rfl) hch hne
      · exact .inr (query_step hch hne).2.1
      · exact .inr (query_step hch hne).2.2
    rcases hrun with hrun | hrun <;> rw [hrun] <;> decide

namespace LegalUrl
variable (u : LegalUrl)

theorem opened_ascii {p : UInt8 → Bool} {c : Char} {part : Option Str} (hc : c.toNat < 128)
    (h : ∀ s ∈ part, Among p s) : Ascii (opened c part) := by
  cases part with
  | none => exact List.forall_mem_nil _
  | some s => exact List.forall_mem_cons.mpr ⟨hc, (h s rfl).ascii⟩

theorem tail_opens : u.tail.head? = some '/' := by
  have hpath : u.path ≠ [] := by
    intro hnil
    have hrooted := u.path_rooted
    rw [hnil] at hrooted
    cases hrooted
  rw [tail, List.append_assoc, List.head?_append_of_ne_nil _ hpath]
  exact u.path_rooted

theorem tail_ascii : Ascii u.tail := by
  apply ascii_append.mpr ⟨ascii_append.mpr ⟨u.path_chars.ascii, ?_⟩, ?_⟩
  · exact opened_ascii (by decide) u.query_chars
  · exact opened_ascii (by decide) u.fragment_chars

/-- The main automaton stops at nothing but an at sign. -/
theorem tailOk (hat : '@' ∉ u.tail) : TailOk u.tail := by
  refine .inr ⟨.inl u.tail_opens, u.tail_ascii, ?_⟩
  simp only [tail, List.mem_append, not_or] at hat
  obtain ⟨⟨hpath, hquery⟩, hfragment⟩ := hat
  rw [tail, List.map_append, List.map_append, List.foldl_append, List.foldl_append,
    run_path u.path_rooted u.path_chars hpath]
  exact run_fragment u.fragment_chars hfragment (run_query u.query_chars hquery)

theorem no_user : ∀ user ∈ (none : Option Str), Among isUserinfoChar user := by
  intro user huser
  cases huser

def shape (htail : TailOk u.tail) : UrlShape where
  scheme := u.scheme
  user := none
  host := .name u.host u.host_nonempty u.host_chars
  port := u.port
  tail := u.tail
  scheme_nonempty := u.scheme_nonempty
  scheme_letters := u.scheme_letters
  user_chars := no_user
  port_digits := u.port_digits
  tail_ok := htail

theorem shape_ref (htail : TailOk u.tail) : (u.shape htail).ref = u.ref := by
  have hpath : (u.shape htail).path = u.tail := if_pos u.tail_opens
  rw [UrlShape.ref, hpath]
  rfl

end LegalUrl

/-- A legal URL is taken apart into its parts exactly when it has no at sign behind its
authority. -/
theorem parseUrl_legal (u : LegalUrl) : parseUrl u.text = .ok (some u.ref) ↔ '@' ∉ u.tail := by
  constructor
  · intro hparse
    obtain ⟨v, _, href⟩ := parseUrl_iff.mp hparse
    have hpath : v.path = u.tail := congrArg UrlRef.path href
    by_cases hopens : v.tail.head? = some '/'
    · rw [← hpath, UrlShape.path, if_pos hopens]
      apply v.tail_ok.not_mem
      rintro state (rfl | rfl | rfl | rfl | rfl) <;> decide
    · rw [← hpath, UrlShape.path, if_neg hopens]
      decide
  · intro hat
    rw [← u.shape_ref (u.tailOk hat)]
    exact parseUrl_text (u.shape (u.tailOk hat))

def atSign : LegalUrl where
  scheme := "http".toList
  host := "a".toList
  port := none
  path := "/@".toList
  query := none
  fragment := none
  scheme_nonempty := by decide
  scheme_letters := by decide
  host_nonempty := by decide
  host_chars := by decide
  port_digits := by
    intro p hp
    cases hp
  path_rooted := rfl
  path_chars := by decide
  query_chars := by
    intro q hq
    cases hq
  fragment_chars := by
    intro f hf
    cases hf

/-- An at sign is a legal path character that the class of the automaton leaves out. -/
theorem parseUrl_at_sign : ¬ ∀ u : LegalUrl, parseUrl u.text = .ok (some u.ref) := by
  intro h
  have hnone : parseUrl atSign.text = .ok none := by decide +kernel
  rw [h atSign] at hnone
  cases hnone

end Wrkrs
