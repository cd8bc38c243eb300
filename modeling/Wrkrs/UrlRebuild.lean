import Wrkrs.Format
import Wrkrs.UrlParse
import Mathlib.Data.List.TakeWhile

/-!
# URLs from their parts

The Host value of a parsed URL put back between its scheme and its path. The formatter
restores the brackets of a literal by looking for a colon.
-/

namespace Wrkrs

set_option autoImplicit false

open Text Machine

/-- The URL written from its parts with the Host value sent. -/
def UrlRef.rebuild (ref : UrlRef) : Str :=
  ref.scheme.getD [] ++ marker ++ hostHeader (ref.host.getD []) ref.port ++ ref.path

def bracketed (url : Str) : Str :=
  ((url.dropWhile (· != '[')).drop 1).takeWhile (· != ']')

section Stops
variable {c : Char} (hstop : ∀ state, TailState state → urlStep state (byte c) = .dead)
include hstop

theorem run_not_mem {tail : Str} {state : UrlState} (hstate : TailState state)
    (h : (tail.map byte).foldl urlStep state ≠ .dead) : c ∉ tail := by
  induction tail generalizing state with
  | nil => exact List.not_mem_nil
  | cons d rest ih =>
    rw [List.map_cons, List.foldl_cons] at h
    have hlive : urlStep state (byte d) ≠ .dead := by
      intro hdead
      rw [hdead, foldl_dead] at h
      exact h rfl
    intro hmem
    cases hmem with
    | head => exact hlive (hstop state hstate)
    | tail _ hmem => exact ih (urlStep_tail hstate hlive).1 h hmem

theorem TailOk.not_mem {tail : Str} (h : TailOk tail) : c ∉ tail := by
  rcases h with rfl | ⟨hopens, _, hrun⟩
  · exact List.not_mem_nil
  · cases tail with
    | nil => exact List.not_mem_nil
    | cons d rest =>
      have hd : d = '/' ∨ d = '?' := hopens.imp Option.some.inj Option.some.inj
      have hrest : c ∉ rest := by
        rcases hd with rfl | rfl
        · exact run_not_mem hstop (.inl rfl) hrun
        · exact run_not_mem hstop (.inr (.inl rfl)) hrun
      have hread : urlStep .path (byte d) ≠ .dead := by
        rcases hd with rfl | rfl <;> decide
      rintro (_ | ⟨_, hmem⟩)
      · exact hread (hstop .path (.inl rfl))
      · exact hrest hmem

end Stops

theorem TailOk.no_bracket {tail : Str} (h : TailOk tail) : '[' ∉ tail := by
  apply h.not_mem
  rintro state (rfl | rfl | rfl | rfl | rfl) <;> decide

theorem Among.no_bracket {p : UInt8 → Bool} {s : Str} (h : Among p s)
    (hp : p (byte '[') = false := by decide) : '[' ∉ s := h.not_mem hp

theorem portText_no_bracket {digits : Option Str} (h : ∀ d ∈ digits, Among isDigit d) :
    '[' ∉ portText digits := by
  cases digits with
  | none => exact List.not_mem_nil
  | some d =>
    have hd : '[' ∉ d := (h d rfl).no_bracket
    simp [portText, hd]

namespace UrlShape
variable (u : UrlShape)

theorem start_no_bracket : '[' ∉ u.scheme ++ marker ++ userText u.user := by
  have hscheme : '[' ∉ u.scheme := u.scheme_letters.no_bracket
  have huser : '[' ∉ userText u.user := by
    cases h : u.user with
    | none => exact List.not_mem_nil
    | some user =>
      have huser : '[' ∉ user := (u.user_chars user h).no_bracket
      simp [userText, huser]
  simp [marker, hscheme, huser]

theorem port_no_bracket : '[' ∉ portText u.port :=
  portText_no_bracket fun d hd => (u.port_digits d hd).2.1

theorem path_no_bracket : '[' ∉ u.path := by
  unfold path
  split
  · exact u.tail_ok.no_bracket
  · decide

end UrlShape

theorem other_of_not_mem {s : Str} {c : Char} (h : c ∉ s) : ∀ d ∈ s, (d != c) = true :=
  fun _ hd => bne_iff_ne.mpr fun heq => h (heq ▸ hd)

theorem bracketed_none {url : Str} (h : '[' ∉ url) : bracketed url = [] := by
  have hdrop : url.dropWhile (· != '[') = [] := List.dropWhile_eq_nil_iff.mpr (other_of_not_mem h)
  rw [bracketed, hdrop]
  rfl

theorem bracketed_literal {before value after : Str} (hbefore : '[' ∉ before)
    (hvalue : ']' ∉ value) : bracketed (before ++ '[' :: (value ++ ']' :: after)) = value := by
  rw [bracketed, List.dropWhile_append_of_pos (other_of_not_mem hbefore)]
  change (value ++ ']' :: after).takeWhile (· != ']') = value
  rw [List.takeWhile_append_of_pos (other_of_not_mem hvalue)]
  exact List.append_nil value

theorem literal_not_mem {address : Str} {zone : Option Str} {c : Char}
    (hchars : Among isV6Char address) (hzone : ∀ z ∈ zone, z ≠ [] ∧ Among isZoneChar z)
    (hv6 : isV6Char (byte c) = false) (hz : isZoneChar (byte c) = false) (hpercent : c ≠ '%') :
    c ∉ address ++ zoneText zone := by
  have haddress : c ∉ address := hchars.not_mem hv6
  cases zone with
  | none => simpa [zoneText] using haddress
  | some z =>
    have hzone : c ∉ z := (hzone z rfl).2.not_mem hz
    simp [zoneText, haddress, hpercent, hzone]

/-- What a URL has in brackets is its literal. -/
theorem bracketed_text (u : UrlShape) :
    bracketed u.text = match u.host with
      | .name _ _ _ => []
      | .literal address zone _ _ _ => address ++ zoneText zone := by
  cases h : u.host with
  | name host hne hchars =>
    refine bracketed_none ?_
    have hhost : '[' ∉ host := hchars.no_bracket
    have htext : u.text =
        u.scheme ++ marker ++ userText u.user ++ (host ++ portText u.port) ++ u.tail := by
      simp [UrlShape.text, UrlShape.authority, h, HostShape.text]
    rw [htext]
    intro hmem
    simp only [List.mem_append] at hmem
    have hstart := u.start_no_bracket
    simp only [List.mem_append] at hstart
    rcases hmem with (hmem | hmem | hmem) | hmem
    · exact hstart hmem
    · exact hhost hmem
    · exact u.port_no_bracket hmem
    · exact u.tail_ok.no_bracket hmem
  | literal address zone hne hchars hzone =>
    have htext : u.text = u.scheme ++ marker ++ userText u.user ++
        '[' :: (address ++ zoneText zone ++ ']' :: (portText u.port ++ u.tail)) := by
      simp [UrlShape.text, UrlShape.authority, h, HostShape.text]
    rw [htext]
    exact bracketed_literal u.start_no_bracket
      (literal_not_mem hchars hzone (by decide) (by decide) (by decide))

def UrlShape.around (u : UrlShape) (host : HostShape) : UrlShape where
  scheme := u.scheme
  user := none
  host := host
  port := u.port
  tail := u.path
  scheme_nonempty := u.scheme_nonempty
  scheme_letters := u.scheme_letters
  user_chars := by
    intro user huser
    cases huser
  port_digits := u.port_digits
  tail_ok := by
    unfold UrlShape.path
    split
    · exact u.tail_ok
    · exact .inr ⟨.inl rfl, by decide, by decide⟩

theorem UrlShape.around_ref (u : UrlShape) {host : HostShape} (h : host.value = u.host.value) :
    (u.around host).ref = u.ref := by
  have hpath : (u.around host).path = u.path := by
    change (if u.path.head? = some '/' then u.path else ['/']) = u.path
    unfold UrlShape.path
    by_cases hopens : u.tail.head? = some '/'
    · rw [if_pos hopens, if_pos hopens]
    · rw [if_neg hopens]
      rfl
  rw [UrlShape.ref, UrlShape.ref, hpath]
  exact congrArg (fun value => (⟨some u.scheme, some value, u.port, u.path⟩ : UrlRef)) h

theorem UrlShape.rebuild_around (u : UrlShape) {host : HostShape}
    (h : hostHeader u.host.value u.port = host.text ++ portText u.port) :
    u.ref.rebuild = (u.around host).text := by
  change u.scheme ++ marker ++ hostHeader u.host.value u.port ++ u.path = _
  rw [h]
  rfl

theorem hostHeader_text {host value : Str} {port : Option Str}
    (h : value = if host.contains ':' then '[' :: (host ++ [']']) else host) :
    hostHeader host port = value ++ portText port := by
  subst h
  cases port with
  | none => exact (List.append_nil _).symm
  | some port => rfl

/-- A host for which the formatter finds the right text. -/
theorem UrlShape.rebuild_of_text (u : UrlShape) (host : HostShape)
    (hvalue : host.value = u.host.value)
    (htext : host.text =
      if u.host.value.contains ':' then '[' :: (u.host.value ++ [']']) else u.host.value) :
    parseUrl u.ref.rebuild = .ok (some u.ref) := by
  rw [u.rebuild_around (hostHeader_text htext), parseUrl_text, u.around_ref hvalue]

theorem UrlShape.rebuild_no_bracket (u : UrlShape) (hhost : '[' ∉ u.host.value)
    (hcolon : u.host.value.contains ':' = false) : '[' ∉ u.ref.rebuild := by
  have hstart := u.start_no_bracket
  have hport := u.port_no_bracket
  have hpath := u.path_no_bracket
  have hheader : hostHeader u.host.value u.port = u.host.value ++ portText u.port :=
    hostHeader_text (by rw [hcolon]; rfl)
  change '[' ∉ u.scheme ++ marker ++ hostHeader u.host.value u.port ++ u.path
  rw [hheader]
  simp only [List.mem_append] at hstart ⊢
  tauto

theorem name_no {host : Str} {c : Char} (hchars : Among isHostChar host)
    (hc : isHostChar (byte c) = false := by decide) : c ∉ host := hchars.not_mem hc

theorem address_name {address : Str} (h : Among isV6Char address) (hcolon : ':' ∉ address) :
    Among isHostChar address := by
  intro c hc
  have htable := forall_byte
    (p := fun ch => !isV6Char ch || ch == byte ':' || isHostChar ch) (by decide +kernel) (byte c)
  have hother : byte c ≠ byte ':' := fun heq =>
    hcolon (byte_inj (h c hc).1 (by decide) heq ▸ hc)
  refine ⟨(h c hc).1, ?_⟩
  simpa [(h c hc).2, hother] using htable

theorem HostShape.text_bracket (host : HostShape) (h : '%' ∈ host.value) : '[' ∈ host.text := by
  cases host with
  | name host _ hchars => exact absurd h (name_no hchars)
  | literal address zone _ _ _ => exact List.mem_cons_self

theorem rebuild_literal (u : UrlShape) {address : Str} {zone : Option Str} (hne : address ≠ [])
    (hchars : Among isV6Char address) (hzone : ∀ z ∈ zone, z ≠ [] ∧ Among isZoneChar z)
    (hhost : u.host = .literal address zone hne hchars hzone) :
    parseUrl u.ref.rebuild = .ok (some u.ref) ↔
      ':' ∈ address ++ zoneText zone ∨ '%' ∉ address ++ zoneText zone := by
  have hvalue : u.host.value = address ++ zoneText zone := by rw [hhost]; rfl
  by_cases hcolon : ':' ∈ address ++ zoneText zone
  · refine iff_of_true (u.rebuild_of_text u.host rfl ?_) (.inl hcolon)
    rw [hvalue, List.contains_iff_mem.mpr hcolon, if_pos rfl, hhost]
    rfl
  · have hcontains : u.host.value.contains ':' = false := by
      rw [hvalue, ← Bool.not_eq_true, List.contains_iff_mem]
      exact hcolon
    by_cases hpercent : '%' ∈ address ++ zoneText zone
    · refine iff_of_false ?_ (not_or.mpr ⟨hcolon, not_not.mpr hpercent⟩)
      intro hparse
      obtain ⟨v, htext, href⟩ := (parseUrl_sound hparse).2
      have hsame : v.host.value = u.host.value := Option.some.inj (congrArg UrlRef.host href)
      have hopen : '[' ∈ u.ref.rebuild := by
        rw [← htext]
        have hmem := v.host.text_bracket (by rw [hsame, hvalue]; exact hpercent)
        simp [UrlShape.text, UrlShape.authority, hmem]
      have hclosed : '[' ∉ u.host.value := by
        rw [hvalue]
        exact literal_not_mem hchars hzone (by decide) (by decide) (by decide)
      exact u.rebuild_no_bracket hclosed hcontains hopen
    · refine iff_of_true ?_ (.inr hpercent)
      cases zone with
      | some z => exact absurd (by simp [zoneText]) hpercent
      | none =>
        rw [zoneText, List.append_nil] at hvalue hcolon
        refine u.rebuild_of_text (.name address hne (address_name hchars hcolon)) hvalue.symm ?_
        rw [hcontains, hvalue]
        rfl

theorem rebuild_name (u : UrlShape) {host : Str} (hne : host ≠ []) (hchars : Among isHostChar host)
    (hhost : u.host = .name host hne hchars) : parseUrl u.ref.rebuild = .ok (some u.ref) := by
  have hvalue : u.host.value = host := by rw [hhost]; rfl
  have hcontains : u.host.value.contains ':' = false := by
    rw [hvalue, ← Bool.not_eq_true, List.contains_iff_mem]
    exact name_no hchars
  refine u.rebuild_of_text u.host rfl ?_
  rw [hcontains, hvalue, hhost]
  rfl

/-- Rebuilding a parsed URL gives its parts back exactly when its literal, if it has one,
has a colon or no zone. -/
theorem parseUrl_rebuild_iff {url : Str} {ref : UrlRef} (h : parseUrl url = .ok (some ref)) :
    parseUrl ref.rebuild = .ok (some ref) ↔ ':' ∈ bracketed url ∨ '%' ∉ bracketed url := by
  obtain ⟨u, rfl, rfl⟩ := (parseUrl_sound h).2
  rw [bracketed_text]
  cases hhost : u.host with
  | name host hne hchars =>
    exact iff_of_true (rebuild_name u hne hchars hhost) (.inr List.not_mem_nil)
  | literal address zone hne hchars hzone => exact rebuild_literal u hne hchars hzone hhost

/-- A literal with a zone and without a colon loses its brackets. -/
theorem rebuild_drops_brackets :
    ¬ ∀ url ref, parseUrl url = .ok (some ref) → parseUrl ref.rebuild = .ok (some ref) := by
  intro h
  have hparse : parseUrl "http://[1%a]/".toList =
      .ok (some ⟨some "http".toList, some "1%a".toList, none, ['/']⟩) := by decide +kernel
  have hrebuilt := h _ _ hparse
  have hnone : parseUrl (UrlRef.rebuild ⟨some "http".toList, some "1%a".toList, none, ['/']⟩) =
      .ok none := by decide +kernel
  rw [hnone] at hrebuilt
  cases hrebuilt

theorem parseUrl_rebuild_loopback :
    parseUrl (UrlRef.rebuild ⟨some "http".toList, some "::1".toList, some "80".toList, ['/']⟩) =
      .ok (some ⟨some "http".toList, some "::1".toList, some "80".toList, ['/']⟩) ↔
      ':' ∈ bracketed "http://u@[::1]:80?q".toList ∨ '%' ∉ bracketed "http://u@[::1]:80?q".toList :=
  parseUrl_rebuild_iff (by decide +kernel)

end Wrkrs
