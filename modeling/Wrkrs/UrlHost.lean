import Wrkrs.UrlGrammar

/-!
# What the host automaton accepts

The authority again, from the left: user information when an at sign was seen, a name or
a bracketed literal, and a port.
-/

namespace Wrkrs

set_option autoImplicit false
set_option maxRecDepth 4096

open Text Machine Scanning

/-- User information stands before the host exactly when an at sign was seen. -/
structure IsUser (foundAt : Bool) (user : Option Str) : Prop where
  found : user.isSome = foundAt
  chars : ∀ u ∈ user, Among isUserinfoChar u

def HostShape.span (offset : Nat) (h : HostShape) : Span :=
  ⟨offset + h.lead, offset + h.lead + h.value.length⟩

structure IsAddress (address : Str) : Prop where
  nonempty : address ≠ []
  chars : Among isV6Char address

inductive Hosted (base : Nat) (foundAt : Bool) : Str → Split → Prop where
  | user {user : Str} {s : Split} : foundAt = true → Among isUserinfoChar user →
      s.state = .userInfoStart ∨ s.state = .userInfo → s.port = none → Hosted base foundAt user s
  | hostStart {user : Option Str} {s : Split} : IsUser foundAt user → s.state = .hostStart →
      s.port = none → Hosted base foundAt (userText user) s
  | name {user : Option Str} {host : Str} : IsUser foundAt user → host ≠ [] →
      Among isHostChar host →
      Hosted base foundAt (userText user ++ host)
        ⟨.host, ⟨base + (userText user).length, base + (userText user).length + host.length⟩, none⟩
  | v6Start {user : Option Str} {s : Split} : IsUser foundAt user → s.state = .v6Start →
      s.port = none → Hosted base foundAt (userText user ++ ['[']) s
  | v6 {user : Option Str} {address : Str} : IsUser foundAt user → IsAddress address →
      Hosted base foundAt (userText user ++ '[' :: address)
        ⟨.v6, ⟨base + (userText user).length + 1,
          base + (userText user).length + 1 + address.length⟩, none⟩
  | zoneStart {user : Option Str} {address : Str} : IsUser foundAt user → IsAddress address →
      Hosted base foundAt (userText user ++ '[' :: (address ++ ['%']))
        ⟨.v6ZoneStart, ⟨base + (userText user).length + 1,
          base + (userText user).length + 1 + (address ++ ['%']).length⟩, none⟩
  | zone {user : Option Str} {address zone : Str} : IsUser foundAt user → IsAddress address →
      zone ≠ [] → Among isZoneChar zone →
      Hosted base foundAt (userText user ++ '[' :: (address ++ '%' :: zone))
        ⟨.v6Zone, ⟨base + (userText user).length + 1,
          base + (userText user).length + 1 + (address ++ '%' :: zone).length⟩, none⟩
  | v6End {user : Option Str} (host : HostShape) : IsUser foundAt user →
      Hosted base foundAt (userText user ++ host.text)
        ⟨.v6End, host.span (base + (userText user).length), none⟩
  | portStart {user : Option Str} (host : HostShape) : IsUser foundAt user →
      Hosted base foundAt (userText user ++ host.text ++ [':'])
        ⟨.portStart, host.span (base + (userText user).length), none⟩
  | port {user : Option Str} (host : HostShape) {digits : Str} : IsUser foundAt user →
      digits ≠ [] → Among isDigit digits →
      Hosted base foundAt (userText user ++ host.text ++ ':' :: digits)
        ⟨.port, host.span (base + (userText user).length),
          some ⟨base + (userText user ++ host.text).length + 1,
            base + (userText user ++ host.text).length + 1 + digits.length⟩⟩

section Steps
variable {ch : UInt8} {state : HostState}

theorem hostStep_user (hstate : state = .userInfoStart ∨ state = .userInfo)
    (hlive : hostStep state ch ≠ .dead) :
    (hostStep state ch = .hostStart ∧ ch = byte '@') ∨
      (hostStep state ch = .userInfo ∧ isUserinfoChar ch = true) := by
  have heq : hostStep state ch = hostStep .userInfo ch := by
    rcases hstate with rfl | rfl <;> rfl
  rw [heq] at hlive ⊢
  unfold hostStep at hlive ⊢
  dsimp only at hlive ⊢
  split_ifs at hlive ⊢ with hat huser
  · exact .inl ⟨rfl, hat⟩
  · exact .inr ⟨rfl, huser⟩
  · exact absurd rfl hlive

theorem hostStep_hostStart (hlive : hostStep .hostStart ch ≠ .dead) :
    (hostStep .hostStart ch = .v6Start ∧ ch = byte '[') ∨
      (hostStep .hostStart ch = .host ∧ isHostChar ch = true) := by
  unfold hostStep at hlive ⊢
  dsimp only at hlive ⊢
  split_ifs at hlive ⊢ with hopen hchar
  · exact .inl ⟨rfl, hopen⟩
  · exact .inr ⟨rfl, hchar⟩
  · exact absurd rfl hlive

theorem hostStep_host (hlive : hostStep .host ch ≠ .dead) :
    (hostStep .host ch = .host ∧ isHostChar ch = true) ∨
      (hostStep .host ch = .portStart ∧ ch = byte ':') := by
  unfold hostStep at hlive ⊢
  dsimp only at hlive ⊢
  split_ifs at hlive ⊢ with hchar hcolon
  · exact .inl ⟨rfl, hchar⟩
  · exact .inr ⟨rfl, hcolon⟩
  · exact absurd rfl hlive

theorem hostStep_v6End (hlive : hostStep .v6End ch ≠ .dead) :
    hostStep .v6End ch = .portStart ∧ ch = byte ':' := by
  unfold hostStep at hlive ⊢
  dsimp only at hlive ⊢
  split_ifs at hlive ⊢ with hcolon
  · exact ⟨rfl, hcolon⟩
  · exact absurd rfl hlive

theorem hostStep_v6Start (hlive : hostStep .v6Start ch ≠ .dead) :
    hostStep .v6Start ch = .v6 ∧ isV6Char ch = true := by
  unfold hostStep at hlive ⊢
  dsimp only at hlive ⊢
  split_ifs at hlive ⊢ with hchar
  · exact ⟨rfl, hchar⟩
  · exact absurd rfl hlive

theorem hostStep_v6 (hlive : hostStep .v6 ch ≠ .dead) :
    (hostStep .v6 ch = .v6End ∧ ch = byte ']') ∨
      (hostStep .v6 ch = .v6 ∧ isV6Char ch = true) ∨
      (hostStep .v6 ch = .v6ZoneStart ∧ ch = byte '%') := by
  unfold hostStep at hlive ⊢
  dsimp only at hlive ⊢
  split_ifs at hlive ⊢ with hclose hchar hzone
  · exact .inl ⟨rfl, hclose⟩
  · exact .inr (.inl ⟨rfl, hchar⟩)
  · exact .inr (.inr ⟨rfl, hzone⟩)
  · exact absurd rfl hlive

theorem hostStep_zoneStart (hlive : hostStep .v6ZoneStart ch ≠ .dead) :
    hostStep .v6ZoneStart ch = .v6Zone ∧ isZoneChar ch = true := by
  unfold hostStep at hlive ⊢
  dsimp only at hlive ⊢
  split_ifs at hlive ⊢ with hchar
  · exact ⟨rfl, hchar⟩
  · exact absurd rfl hlive

theorem hostStep_zone (hlive : hostStep .v6Zone ch ≠ .dead) :
    (hostStep .v6Zone ch = .v6End ∧ ch = byte ']') ∨
      (hostStep .v6Zone ch = .v6Zone ∧ isZoneChar ch = true) := by
  unfold hostStep at hlive ⊢
  dsimp only at hlive ⊢
  split_ifs at hlive ⊢ with hclose hchar
  · exact .inl ⟨rfl, hclose⟩
  · exact .inr ⟨rfl, hchar⟩
  · exact absurd rfl hlive

theorem hostStep_port (hstate : state = .portStart ∨ state = .port)
    (hlive : hostStep state ch ≠ .dead) :
    hostStep state ch = .port ∧ isDigit ch = true := by
  have heq : hostStep state ch = hostStep .port ch := by
    rcases hstate with rfl | rfl <;> rfl
  rw [heq] at hlive ⊢
  unfold hostStep at hlive ⊢
  dsimp only at hlive ⊢
  split_ifs at hlive ⊢ with hdigit
  · exact ⟨rfl, hdigit⟩
  · exact absurd rfl hlive

theorem Split.step_live {index : Nat} {s t : Split} (h : Split.step index s ch = some t) :
    hostStep s.state ch ≠ .dead := by
  intro hdead
  rw [Split.step, hdead] at h
  cases h

end Steps

section Hosted
variable {base : Nat} {foundAt : Bool} {past : Str} {s t : Split} {c : Char}

theorem Hosted.of_eq {past' : Str} (h : Hosted base foundAt past s) (hpast : past = past')
    (hs : s = t) : Hosted base foundAt past' t := hpast ▸ hs ▸ h

/-- What one more character adds, for every phase. -/
theorem Hosted.next (hc : c.toNat < 128) (h : Hosted base foundAt past s)
    (hstep : Split.step (base + past.length) s (byte c) = some t) :
    Hosted base foundAt (past ++ [c]) t := by
  have hlive := Split.step_live hstep
  unfold Split.step at hstep
  cases h with
  | user hfound hchars hstate hport =>
    obtain ⟨hnext, hat⟩ | ⟨hnext, hchar⟩ := hostStep_user hstate hlive
    · rw [hnext] at hstep
      obtain rfl := Option.some.inj hstep
      obtain rfl : c = '@' := byte_inj hc (by decide) hat
      have huser : IsUser foundAt (some past) :=
        ⟨hfound.symm, fun u hu => Option.some.inj hu ▸ hchars⟩
      exact .hostStart huser rfl hport
    · rw [hnext] at hstep
      obtain rfl := Option.some.inj hstep
      exact .user hfound (hchars.append_one hc hchar) (.inr rfl) hport
  | @hostStart user _ huser hstate hport =>
    rw [hstate] at hstep hlive
    obtain ⟨hnext, hopen⟩ | ⟨hnext, hchar⟩ := hostStep_hostStart hlive
    · rw [hnext] at hstep
      obtain rfl := Option.some.inj hstep
      obtain rfl : c = '[' := byte_inj hc (by decide) hopen
      exact .v6Start huser rfl hport
    · rw [hnext] at hstep
      obtain rfl := Option.some.inj hstep
      have hopened : Hosted base foundAt _ _ :=
        .name huser (List.cons_ne_nil _ _) (among_one hc hchar)
      simpa [hstate, hport] using hopened
  | @name user host huser hne hchars =>
    obtain ⟨hnext, hchar⟩ | ⟨hnext, hcolon⟩ := hostStep_host hlive
    · rw [hnext] at hstep
      obtain rfl := Option.some.inj hstep
      have hmore : Hosted base foundAt _ _ := .name huser (List.append_ne_nil_of_left_ne_nil hne [c])
        (hchars.append_one hc hchar)
      simpa [Nat.add_assoc] using hmore
    · rw [hnext] at hstep
      obtain rfl := Option.some.inj hstep
      obtain rfl : c = ':' := byte_inj hc (by decide) hcolon
      exact .portStart (.name host hne hchars) huser
  | @v6Start user _ huser hstate hport =>
    rw [hstate] at hstep hlive
    obtain ⟨hnext, hchar⟩ := hostStep_v6Start hlive
    rw [hnext] at hstep
    obtain rfl := Option.some.inj hstep
    have hopened : Hosted base foundAt _ _ := .v6 huser
      ⟨List.cons_ne_nil c [], among_one hc hchar⟩
    simpa [hstate, hport, Nat.add_assoc] using hopened
  | @v6 user address huser haddress =>
    obtain ⟨hnext, hclose⟩ | ⟨hnext, hchar⟩ | ⟨hnext, hzone⟩ := hostStep_v6 hlive
    · rw [hnext] at hstep
      obtain rfl := Option.some.inj hstep
      obtain rfl : c = ']' := byte_inj hc (by decide) hclose
      have hend : Hosted base foundAt _ _ := .v6End
        (.literal address none haddress.nonempty haddress.chars fun _ hz => nomatch hz) huser
      simpa [HostShape.text, HostShape.span, HostShape.lead, HostShape.value, zoneText] using hend
    · rw [hnext] at hstep
      obtain rfl := Option.some.inj hstep
      have hmore : Hosted base foundAt _ _ := .v6 huser
        ⟨List.append_ne_nil_of_left_ne_nil haddress.nonempty [c],
          haddress.chars.append_one hc hchar⟩
      refine hmore.of_eq (by simp) ?_
      simp [Nat.add_assoc]
      omega
    · rw [hnext] at hstep
      obtain rfl := Option.some.inj hstep
      obtain rfl : c = '%' := byte_inj hc (by decide) hzone
      have hmore : Hosted base foundAt _ _ := .zoneStart huser haddress
      refine hmore.of_eq (by simp) ?_
      simp [Nat.add_assoc]
      omega
  | @zoneStart user address huser haddress =>
    obtain ⟨hnext, hchar⟩ := hostStep_zoneStart hlive
    rw [hnext] at hstep
    obtain rfl := Option.some.inj hstep
    have hmore : Hosted base foundAt _ _ := .zone huser haddress (List.cons_ne_nil c [])
      (among_one hc hchar)
    refine hmore.of_eq (by simp) ?_
    simp [Nat.add_assoc]
    omega
  | @zone user address zone huser haddress hne hchars =>
    obtain ⟨hnext, hclose⟩ | ⟨hnext, hchar⟩ := hostStep_zone hlive
    · rw [hnext] at hstep
      obtain rfl := Option.some.inj hstep
      obtain rfl : c = ']' := byte_inj hc (by decide) hclose
      have hend : Hosted base foundAt _ _ := .v6End
        (.literal address (some zone) haddress.nonempty haddress.chars
          fun _ hz => Option.some.inj hz ▸ ⟨hne, hchars⟩) huser
      simpa [HostShape.text, HostShape.span, HostShape.lead, HostShape.value, zoneText] using hend
    · rw [hnext] at hstep
      obtain rfl := Option.some.inj hstep
      have hmore : Hosted base foundAt _ _ := .zone huser haddress
        (List.append_ne_nil_of_left_ne_nil hne [c]) (hchars.append_one hc hchar)
      refine hmore.of_eq (by simp) ?_
      simp [Nat.add_assoc]
      omega
  | v6End host huser =>
    obtain ⟨hnext, hcolon⟩ := hostStep_v6End hlive
    rw [hnext] at hstep
    obtain rfl := Option.some.inj hstep
    obtain rfl : c = ':' := byte_inj hc (by decide) hcolon
    exact .portStart host huser
  | @portStart user host huser =>
    obtain ⟨hnext, hdigit⟩ := hostStep_port (.inl rfl) hlive
    rw [hnext] at hstep
    obtain rfl := Option.some.inj hstep
    have hmore : Hosted base foundAt _ _ := .port host huser (List.cons_ne_nil c [])
      (among_one hc hdigit)
    simpa [Span.extend, Nat.add_assoc] using hmore
  | @port user host digits huser hne hdigits =>
    obtain ⟨hnext, hdigit⟩ := hostStep_port (.inr rfl) hlive
    rw [hnext] at hstep
    obtain rfl := Option.some.inj hstep
    have hmore : Hosted base foundAt _ _ := .port host huser
      (List.append_ne_nil_of_left_ne_nil hne [c]) (hdigits.append_one hc hdigit)
    refine hmore.of_eq (by simp) ?_
    simp [Span.extend, Nat.add_assoc]
    omega

end Hosted

theorem start_hosted (base : Nat) (foundAt : Bool) :
    Hosted base foundAt [] (.start base foundAt) := by
  cases foundAt with
  | true => exact .user rfl among_nil (.inl rfl) rfl
  | false =>
    have huser : IsUser false none := ⟨rfl, fun _ hu => nomatch hu⟩
    exact .hostStart huser rfl rfl

theorem port_none : ∀ d ∈ (none : Option Str), d ≠ [] ∧ Among isDigit d := by
  intro d hd
  cases hd

theorem Hosted.finish {base : Nat} {foundAt : Bool} {past : Str} {s : Split}
    {result : Span × Option Span} (h : Hosted base foundAt past s)
    (hfinish : s.finish = some result) :
    ∃ user host digits, IsUser foundAt user ∧ (∀ d ∈ digits, d ≠ [] ∧ Among isDigit d) ∧
      past = userText user ++ HostShape.text host ++ portText digits := by
  cases h with
  | user _ _ hstate _ =>
    rcases hstate with hstate | hstate <;> rw [Split.finish, hstate] at hfinish <;> cases hfinish
  | hostStart _ hstate _ =>
    rw [Split.finish, hstate] at hfinish
    cases hfinish
  | v6Start _ hstate _ =>
    rw [Split.finish, hstate] at hfinish
    cases hfinish
  | @name user host huser hne hchars =>
    exact ⟨user, .name host hne hchars, none, huser, port_none, (List.append_nil _).symm⟩
  | @v6End user host huser =>
    exact ⟨user, host, none, huser, port_none, (List.append_nil _).symm⟩
  | @port user host digits huser hne hdigits =>
    exact ⟨user, host, some digits, huser, fun d hd => Option.some.inj hd ▸ ⟨hne, hdigits⟩, rfl⟩
  | _ => cases hfinish

theorem splitHost_sound {bytes : Bytes} {base : Nat} {foundAt : Bool} {authority : Str}
    {result : Span × Option Span} (hascii : Ascii authority)
    (hbytes : (bytes.drop base).take authority.length = authority.map byte)
    (h : splitHost bytes ⟨base, base + authority.length⟩ foundAt = some result) :
    ∃ user host digits, IsUser foundAt user ∧ (∀ d ∈ digits, d ≠ [] ∧ Among isDigit d) ∧
      authority = userText user ++ HostShape.text host ++ portText digits := by
  unfold splitHost at h
  rw [Nat.add_sub_cancel_left, hbytes, scan_map] at h
  obtain ⟨s, hs, hfinish⟩ := Option.bind_eq_some_iff.mp h
  have hhosted : Hosted base foundAt ([] ++ authority) s :=
    scan_history base (start_hosted base foundAt)
      (fun hb hpast hstep => hpast.next (hascii _ hb) hstep) hs
  exact hhosted.finish hfinish

theorem userinfo_step {ch : UInt8} (h : isUserinfoChar ch = true) :
    hostStep .userInfoStart ch = .userInfo ∧ hostStep .userInfo ch = .userInfo := by
  have htable := forall_byte
    (p := fun ch => !isUserinfoChar ch ||
      hostStep .userInfoStart ch == .userInfo && hostStep .userInfo ch == .userInfo)
    (by decide +kernel) ch
  simpa [h] using htable

theorem hostChar_step {ch : UInt8} (h : isHostChar ch = true) :
    hostStep .hostStart ch = .host ∧ hostStep .host ch = .host := by
  have htable := forall_byte
    (p := fun ch => !isHostChar ch || hostStep .hostStart ch == .host && hostStep .host ch == .host)
    (by decide +kernel) ch
  simpa [h] using htable

theorem v6Char_step {ch : UInt8} (h : isV6Char ch = true) :
    hostStep .v6Start ch = .v6 ∧ hostStep .v6 ch = .v6 := by
  have htable := forall_byte
    (p := fun ch => !isV6Char ch || hostStep .v6Start ch == .v6 && hostStep .v6 ch == .v6)
    (by decide +kernel) ch
  simpa [h] using htable

theorem zoneChar_step {ch : UInt8} (h : isZoneChar ch = true) :
    hostStep .v6ZoneStart ch = .v6Zone ∧ hostStep .v6Zone ch = .v6Zone := by
  have htable := forall_byte
    (p := fun ch => !isZoneChar ch ||
      hostStep .v6ZoneStart ch == .v6Zone && hostStep .v6Zone ch == .v6Zone)
    (by decide +kernel) ch
  simpa [h] using htable

theorem digit_step {ch : UInt8} (h : isDigit ch = true) :
    hostStep .portStart ch = .port ∧ hostStep .port ch = .port := by
  simp [hostStep, h]

section Forward
variable {base : Nat} {foundAt : Bool} {port : Option Span} {range : Span}

theorem scan_user {user : Option Str} (huser : IsUser foundAt user) :
    scan Split.step base (.start base foundAt) ((userText user).map byte) =
      some ⟨.hostStart, ⟨base, base⟩, none⟩ := by
  obtain ⟨rfl, hchars⟩ := huser
  cases user with
  | none => rfl
  | some user =>
    change scan Split.step base ⟨.userInfoStart, ⟨base, base⟩, none⟩ _ = _
    rw [userText, List.map_append, scan_append]
    by_cases hne : user = []
    · subst hne
      rfl
    · rw [scan_enter (fun ch => isUserinfoChar ch = true) (fun _ => ⟨.userInfo, ⟨base, base⟩, none⟩)
        base _ _ _ (hchars user rfl).bytes, Option.bind_some]
      · rfl
      · intro ch hch
        rw [Split.step, (userinfo_step hch).1]
        rfl
      · intro index ch hch
        rw [Split.step, (userinfo_step hch).2]
        rfl
      · exact fun h => hne (List.map_eq_nil_iff.mp h)

theorem scan_name {index : Nat} {host : Str} (hne : host ≠ []) (hchars : Among isHostChar host) :
    scan Split.step index ⟨.hostStart, range, port⟩ (host.map byte) =
      some ⟨.host, ⟨index, index + host.length⟩, port⟩ := by
  rw [scan_enter (fun ch => isHostChar ch = true) (fun i => ⟨.host, ⟨index, i⟩, port⟩) index
    _ _ _ hchars.bytes, List.length_map]
  · intro ch hch
    rw [Split.step, (hostChar_step hch).1]
    rfl
  · intro i ch hch
    rw [Split.step, (hostChar_step hch).2]
    rfl
  · exact fun h => hne (List.map_eq_nil_iff.mp h)

theorem scan_v6 {index : Nat} {address : Str} (hne : address ≠ [])
    (hchars : Among isV6Char address) :
    scan Split.step index ⟨.v6Start, range, port⟩ (address.map byte) =
      some ⟨.v6, ⟨index, index + address.length⟩, port⟩ := by
  rw [scan_enter (fun ch => isV6Char ch = true) (fun i => ⟨.v6, ⟨index, i⟩, port⟩) index
    _ _ _ hchars.bytes, List.length_map]
  · intro ch hch
    rw [Split.step, (v6Char_step hch).1]
    rfl
  · intro i ch hch
    rw [Split.step, (v6Char_step hch).2]
    rfl
  · exact fun h => hne (List.map_eq_nil_iff.mp h)

theorem scan_zone {start index : Nat} {zone : Option Str}
    (hzone : ∀ z ∈ zone, z ≠ [] ∧ Among isZoneChar z) :
    scan Split.step index ⟨.v6, ⟨start, index⟩, port⟩ ((zoneText zone ++ [']']).map byte) =
      some ⟨.v6End, ⟨start, index + (zoneText zone).length⟩, port⟩ := by
  cases zone with
  | none => rfl
  | some zone =>
    obtain ⟨hne, hchars⟩ := hzone zone rfl
    change scan Split.step (index + 1) ⟨.v6ZoneStart, ⟨start, index + 1⟩, port⟩
      ((zone ++ [']']).map byte) = _
    rw [List.map_append, scan_append, scan_enter (fun ch => isZoneChar ch = true)
      (fun i => ⟨.v6Zone, ⟨start, i⟩, port⟩) (index + 1) _ _ _ hchars.bytes,
      Option.bind_some, List.length_map]
    · rw [zoneText, List.length_cons, Nat.add_comm zone.length, ← Nat.add_assoc]
      rfl
    · intro ch hch
      rw [Split.step, (zoneChar_step hch).1]
      rfl
    · intro i ch hch
      rw [Split.step, (zoneChar_step hch).2]
      rfl
    · exact fun h => hne (List.map_eq_nil_iff.mp h)

theorem scan_host (range : Span) (port : Option Span) (index : Nat) (host : HostShape) :
    ∃ state, (state = .host ∨ state = .v6End) ∧
      scan Split.step index ⟨.hostStart, range, port⟩ (host.text.map byte) =
        some ⟨state, host.span index, port⟩ := by
  cases host with
  | name host hne hchars => exact ⟨.host, .inl rfl, scan_name hne hchars⟩
  | literal address zone hne hchars hzone =>
    refine ⟨.v6End, .inr rfl, ?_⟩
    change scan Split.step (index + 1) ⟨.v6Start, range, port⟩
      ((address ++ zoneText zone ++ [']']).map byte) = _
    rw [List.append_assoc, List.map_append, scan_append, scan_v6 hne hchars, Option.bind_some,
      List.length_map, scan_zone hzone, Nat.add_assoc _ address.length, ← List.length_append]
    rfl

theorem scan_port {index : Nat} {state : HostState} {digits : Option Str}
    (hstate : state = .host ∨ state = .v6End) (hdigits : ∀ d ∈ digits, d ≠ [] ∧ Among isDigit d) :
    (scan Split.step index ⟨state, range, none⟩ ((portText digits).map byte)).bind Split.finish =
      some (range, digits.map fun d => ⟨index + 1, index + 1 + d.length⟩) := by
  cases digits with
  | none => rcases hstate with rfl | rfl <;> rfl
  | some digits =>
    obtain ⟨hne, hchars⟩ := hdigits digits rfl
    have hcolon : scan Split.step index ⟨state, range, none⟩ ((':' :: digits).map byte) =
        scan Split.step (index + 1) ⟨.portStart, range, none⟩ (digits.map byte) := by
      rcases hstate with rfl | rfl <;> rfl
    rw [portText, hcolon, scan_enter (fun ch => isDigit ch = true)
      (fun i => ⟨.port, range, some ⟨index + 1, i⟩⟩) (index + 1) _ _ _ hchars.bytes,
      List.length_map]
    · rfl
    · intro ch hch
      rw [Split.step, (digit_step hch).1]
      rfl
    · intro i ch hch
      rw [Split.step, (digit_step hch).2]
      rfl
    · exact fun h => hne (List.map_eq_nil_iff.mp h)

def portSpan (index : Nat) (digits : Option Str) : Option Span :=
  digits.map fun d => ⟨index + 1, index + 1 + d.length⟩

theorem splitHost_text {bytes : Bytes} {user digits : Option Str} {host : HostShape}
    {authority : Str} (hauthority : authority = userText user ++ host.text ++ portText digits)
    (hbytes : (bytes.drop base).take authority.length = authority.map byte)
    (huser : IsUser foundAt user) (hdigits : ∀ d ∈ digits, d ≠ [] ∧ Among isDigit d) :
    splitHost bytes ⟨base, base + authority.length⟩ foundAt =
      some (host.span (base + (userText user).length),
        portSpan (base + (userText user ++ host.text).length) digits) := by
  unfold splitHost
  rw [Nat.add_sub_cancel_left, hbytes, hauthority, List.map_append, List.map_append, scan_append,
    scan_append, scan_user huser, Option.bind_some, List.length_map]
  obtain ⟨state, hstate, hhost⟩ :=
    scan_host ⟨base, base⟩ none (base + (userText user).length) host
  rw [hhost, Option.bind_some, ← List.map_append, List.length_map, scan_port hstate hdigits]
  rfl

end Forward

end Wrkrs
