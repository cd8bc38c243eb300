import Mathlib.Data.List.Basic

/-!
# Incremental decoders

A decoder looks at the input it has not consumed yet. It either waits for more
input, or consumes a front part and moves to a new state, or fails. The only
hypothesis on it is stability: a verdict other than waiting does not change when
input is appended. Feeding an input in pieces is then the same as feeding it at
once, with the same outputs, state and unconsumed rest.

Termination is never assumed: it is carried by the finite derivations themselves.
-/

namespace Incremental

set_option autoImplicit false

universe u v w x
variable {α : Type u} {σ : Type v} {β : Type w} {ε : Type x}

/-- One look at the unconsumed input. -/
inductive Attempt (σ : Type v) (β : Type w) (ε : Type x) where
  | wait
  | advance (consumed : Nat) (next : σ) (out : List β)
  | fail (error : ε)

abbrev Decoder (α : Type u) (σ : Type v) (β : Type w) (ε : Type x) :=
  σ → List α → Attempt σ β ε

/-- A verdict other than waiting stays when input is appended. -/
structure Stable (D : Decoder α σ β ε) : Prop where
  bound : ∀ {s xs n t out}, D s xs = .advance n t out → n ≤ xs.length
  advance : ∀ {s xs n t out}, D s xs = .advance n t out →
    ∀ zs, D s (xs ++ zs) = .advance n t out
  fail : ∀ {s xs e}, D s xs = .fail e → ∀ zs, D s (xs ++ zs) = .fail e

/-- Finitely many advances, with everything they put out. -/
inductive Steps (D : Decoder α σ β ε) : σ → List α → List β → σ → List α → Prop where
  | refl (s : σ) (xs : List α) : Steps D s xs [] s xs
  | head {s t u : σ} {xs ys : List α} {n : Nat} {out outs : List β} :
      D s xs = .advance n t out → Steps D t (xs.drop n) outs u ys →
      Steps D s xs (out ++ outs) u ys

/-- The decoder has used all it can and waits. -/
def Drains (D : Decoder α σ β ε) (s : σ) (xs : List α) (outs : List β) (t : σ)
    (ys : List α) : Prop :=
  Steps D s xs outs t ys ∧ D t ys = .wait

def Fails (D : Decoder α σ β ε) (s : σ) (xs : List α) (outs : List β) (t : σ)
    (ys : List α) (e : ε) : Prop :=
  Steps D s xs outs t ys ∧ D t ys = .fail e

/-- Pieces fed one after the other, the decoder waiting after each. -/
inductive Feeds (D : Decoder α σ β ε) :
    σ → List α → List (List α) → List β → σ → List α → Prop where
  | nil (s : σ) (xs : List α) : Feeds D s xs [] [] s xs
  | cons {s t u : σ} {xs ys zs piece : List α} {pieces : List (List α)} {out outs : List β} :
      Drains D s (xs ++ piece) out t ys → Feeds D t ys pieces outs u zs →
      Feeds D s xs (piece :: pieces) (out ++ outs) u zs

section Steps
variable {D : Decoder α σ β ε} {s t u : σ} {xs ys zs : List α} {outs outs' : List β}

theorem Steps.single {n : Nat} {out : List β} (h : D s xs = .advance n t out) :
    Steps D s xs out t (xs.drop n) := by
  have hs := Steps.head h (.refl t (xs.drop n))
  rwa [List.append_nil] at hs

theorem Steps.over {front : List α} {out : List β}
    (h : D s (front ++ ys) = .advance front.length t out) : Steps D s (front ++ ys) out t ys := by
  have hs := Steps.single h
  rwa [List.drop_left] at hs

theorem Steps.trans (hst : Steps D s xs outs t ys) (htu : Steps D t ys outs' u zs) :
    Steps D s xs (outs ++ outs') u zs := by
  induction hst with
  | refl => exact htu
  | head h _ ih =>
    rw [List.append_assoc]
    exact .head h (ih htu)

theorem Steps.suffix (h : Steps D s xs outs t ys) : ys.IsSuffix xs := by
  induction h with
  | refl => exact List.suffix_refl _
  | head _ _ ih => exact ih.trans (List.drop_suffix _ _)

theorem Steps.append (hD : Stable D) (h : Steps D s xs outs t ys) (zs : List α) :
    Steps D s (xs ++ zs) outs t (ys ++ zs) := by
  induction h with
  | refl => exact .refl _ _
  | head h _ ih =>
    refine .head (hD.advance h zs) ?_
    rwa [List.drop_append_of_le_length (hD.bound h)]

/-- An invariant of the single advances holds along every derivation. -/
theorem Steps.invariant {P : σ → List α → Prop}
    (hstep : ∀ {s xs n t out}, P s xs → D s xs = .advance n t out → P t (xs.drop n))
    (h : Steps D s xs outs t ys) (hs : P s xs) : P t ys := by
  induction h with
  | refl => exact hs
  | head h _ ih => exact ih (hstep hs h)

/-- Two derivations from one configuration lie on one path. -/
theorem Steps.linear (h : Steps D s xs outs t ys) (h' : Steps D s xs outs' u zs) :
    (∃ rest, outs' = outs ++ rest ∧ Steps D t ys rest u zs) ∨
      (∃ rest, outs = outs' ++ rest ∧ Steps D u zs rest t ys) := by
  induction h generalizing outs' u zs with
  | refl => exact .inl ⟨outs', by simp, h'⟩
  | @head s t v xs ys n out outs hstep hrest ih =>
    cases h' with
    | refl => exact .inr ⟨_, by simp, .head hstep hrest⟩
    | head hstep' hrest' =>
      rw [hstep] at hstep'
      injection hstep' with hn ht hout
      subst hn ht hout
      rcases ih hrest' with ⟨rest, heq, hsteps⟩ | ⟨rest, heq, hsteps⟩
      · exact .inl ⟨rest, by rw [heq, List.append_assoc], hsteps⟩
      · exact .inr ⟨rest, by rw [heq, List.append_assoc], hsteps⟩

def Halted (D : Decoder α σ β ε) (s : σ) (xs : List α) : Prop :=
  ∀ n t out, D s xs ≠ .advance n t out

theorem halted_of_wait (h : D s xs = .wait) : Halted D s xs := by
  intro n t out ha
  rw [h] at ha
  cases ha

theorem halted_of_fail {e : ε} (h : D s xs = .fail e) : Halted D s xs := by
  intro n t out ha
  rw [h] at ha
  cases ha

theorem Steps.eq_of_halted (h : Steps D s xs outs t ys) (hs : Halted D s xs) :
    outs = [] ∧ t = s ∧ ys = xs := by
  cases h with
  | refl => exact ⟨rfl, rfl, rfl⟩
  | head hstep _ => exact absurd hstep (hs _ _ _)

theorem Steps.halted_unique (h : Steps D s xs outs t ys) (ht : Halted D t ys)
    (h' : Steps D s xs outs' u zs) (hu : Halted D u zs) :
    outs' = outs ∧ u = t ∧ zs = ys := by
  rcases h.linear h' with ⟨rest, heq, hsteps⟩ | ⟨rest, heq, hsteps⟩
  · obtain ⟨rfl, rfl, rfl⟩ := hsteps.eq_of_halted ht
    exact ⟨by simpa using heq, rfl, rfl⟩
  · obtain ⟨rfl, rfl, rfl⟩ := hsteps.eq_of_halted hu
    exact ⟨by simpa using heq.symm, rfl, rfl⟩

theorem Steps.goes_on (h : Steps D s xs outs t ys) (h' : Steps D s xs outs' u zs)
    (hu : Halted D u zs) : ∃ rest, outs' = outs ++ rest ∧ Steps D t ys rest u zs := by
  rcases h.linear h' with hrest | ⟨rest, heq, hsteps⟩
  · exact hrest
  · obtain ⟨rfl, rfl, rfl⟩ := hsteps.eq_of_halted hu
    exact ⟨[], by simpa using heq.symm, .refl _ _⟩

theorem Steps.silent_cases (h : Steps D s xs [] t ys) :
    (t = s ∧ ys = xs) ∨ ∃ n u, D s xs = .advance n u [] ∧ Steps D u (xs.drop n) [] t ys := by
  generalize houts : ([] : List β) = outs at h
  cases h with
  | refl => exact .inl ⟨rfl, rfl⟩
  | head hstep hrest =>
    obtain ⟨rfl, rfl⟩ := List.nil_eq_append_iff.mp houts
    exact .inr ⟨_, _, hstep, hrest⟩

theorem Steps.fails_iff {e : ε} (h : Steps D s xs [] t ys) :
    Fails D t ys outs u zs e ↔ Fails D s xs outs u zs e := by
  constructor
  · rintro ⟨hsteps, hfail⟩
    exact ⟨h.trans hsteps, hfail⟩
  · rintro ⟨hsteps, hfail⟩
    obtain ⟨rest, rfl, hrest⟩ := h.goes_on hsteps (halted_of_fail hfail)
    exact ⟨hrest, hfail⟩

theorem Steps.out_not_fails {e : ε} {y : β} (h : Steps D s xs [y] t ys)
    (hfail : Fails D s xs [] u zs e) : False := by
  rcases h.linear hfail.1 with ⟨rest, heq, _⟩ | ⟨rest, heq, hsteps⟩
  · cases heq
  · obtain ⟨rfl, _⟩ := hsteps.eq_of_halted (halted_of_fail hfail.2)
    cases heq

end Steps

section Splitting
variable {D : Decoder α σ β ε} {s t : σ} {xs ys zs : List α} {outs : List β} {e : ε}

/-- A run on appended input that ends halted first does what the shorter input
allows: it waits there or it fails there already. -/
theorem Steps.split (hD : Stable D) (h : Steps D s (xs ++ zs) outs t ys)
    (ht : Halted D t ys) :
    (∃ out u us rest, Drains D s xs out u us ∧ outs = out ++ rest ∧
      Steps D u (us ++ zs) rest t ys) ∨
    (∃ out u us e, Fails D s xs out u us e ∧ outs = out ∧ t = u ∧ ys = us ++ zs) := by
  generalize hw : xs ++ zs = ws at h
  induction h generalizing xs with
  | refl s ws =>
    subst hw
    cases hstep : D s xs with
    | wait => exact .inl ⟨[], s, xs, [], ⟨.refl _ _, hstep⟩, rfl, .refl _ _⟩
    | advance n t out => exact absurd (hD.advance hstep zs) (ht _ _ _)
    | fail e => exact .inr ⟨[], s, xs, e, ⟨.refl _ _, hstep⟩, rfl, rfl, rfl⟩
  | @head s t u ws ys n out outs hstep hrest ih =>
    subst hw
    cases hstep' : D s xs with
    | wait => exact .inl ⟨[], s, xs, _, ⟨.refl _ _, hstep'⟩, rfl, .head hstep hrest⟩
    | fail e => rw [hD.fail hstep' zs] at hstep; cases hstep
    | advance n' t' out' =>
      have hsame := hD.advance hstep' zs
      rw [hstep] at hsame
      injection hsame with hn htt hout
      subst hn htt hout
      have hdrop : (xs ++ zs).drop n = xs.drop n ++ zs :=
        List.drop_append_of_le_length (hD.bound hstep')
      rcases ih ht hdrop.symm with ⟨o, v, vs, rest, hd, heq, hsteps⟩ |
        ⟨o, v, vs, e, hf, heq, hv, hys⟩
      · exact .inl ⟨out ++ o, v, vs, rest, ⟨.head hstep' hd.1, hd.2⟩,
          by rw [heq, List.append_assoc], hsteps⟩
      · exact .inr ⟨out ++ o, v, vs, e, ⟨.head hstep' hf.1, hf.2⟩, by rw [heq], hv, hys⟩

theorem Drains.split (hD : Stable D) (h : Drains D s (xs ++ zs) outs t ys) :
    ∃ out u us rest, Drains D s xs out u us ∧ outs = out ++ rest ∧
      Drains D u (us ++ zs) rest t ys := by
  rcases h.1.split hD (halted_of_wait h.2) with ⟨out, u, us, rest, hd, heq, hsteps⟩ |
    ⟨out, u, us, e, hf, _, ht, hys⟩
  · exact ⟨out, u, us, rest, hd, heq, hsteps, h.2⟩
  · have hwait := h.2
    rw [ht, hys, hD.fail hf.2 zs] at hwait
    cases hwait

theorem Fails.split (hD : Stable D) (h : Fails D s (xs ++ zs) outs t ys e) :
    (∃ out u us rest, Drains D s xs out u us ∧ outs = out ++ rest ∧
      Fails D u (us ++ zs) rest t ys e) ∨
    (∃ us, Fails D s xs outs t us e ∧ ys = us ++ zs) := by
  rcases h.1.split hD (halted_of_fail h.2) with ⟨out, u, us, rest, hd, heq, hsteps⟩ |
    ⟨out, u, us, e', hf, heq, ht, hys⟩
  · exact .inl ⟨out, u, us, rest, hd, heq, hsteps, h.2⟩
  · have hfail := h.2
    rw [ht, hys, hD.fail hf.2 zs] at hfail
    injection hfail with he
    subst he heq ht
    exact .inr ⟨us, hf, hys⟩

theorem Fails.append (hD : Stable D) (h : Fails D s xs outs t ys e) (zs : List α) :
    Fails D s (xs ++ zs) outs t (ys ++ zs) e :=
  ⟨h.1.append hD zs, hD.fail h.2 zs⟩

theorem Drains.not_fails {outs' : List β} {u : σ} {us : List α} (h : Drains D s xs outs t ys)
    (h' : Fails D s xs outs' u us e) : False := by
  obtain ⟨_, rfl, rfl⟩ := h.1.halted_unique (halted_of_wait h.2) h'.1 (halted_of_fail h'.2)
  have hwait := h.2
  rw [h'.2] at hwait
  cases hwait

/-- A run fails in one way. -/
theorem Fails.unique {outs' : List β} {u : σ} {us : List α} {e' : ε}
    (h : Fails D s xs outs t ys e) (h' : Fails D s xs outs' u us e') :
    (u = t ∧ us = ys) ∧ e' = e := by
  obtain ⟨_, rfl, rfl⟩ := h.1.halted_unique (halted_of_fail h.2) h'.1 (halted_of_fail h'.2)
  exact ⟨⟨rfl, rfl⟩, Attempt.fail.inj (h'.2.symm.trans h.2)⟩

theorem Drains.after (hD : Stable D) {u : σ} {us : List α} {outs' : List β}
    (h : Drains D s xs outs t ys) (h' : Drains D t (ys ++ zs) outs' u us) :
    Drains D s (xs ++ zs) (outs ++ outs') u us :=
  ⟨(h.1.append hD zs).trans h'.1, h'.2⟩

theorem Drains.then_fails (hD : Stable D) {u : σ} {us : List α} {outs' : List β}
    (h : Drains D s xs outs t ys) (h' : Fails D t (ys ++ zs) outs' u us e) :
    Fails D s (xs ++ zs) (outs ++ outs') u us e :=
  ⟨(h.1.append hD zs).trans h'.1, h'.2⟩

end Splitting

section Feeding
variable {D : Decoder α σ β ε} {s t : σ} {xs ys : List α} {pieces : List (List α)}
variable {outs : List β}

/-- Feeding in pieces is one run over the joined input. -/
theorem Feeds.drains (hD : Stable D) (h : Feeds D s xs pieces outs t ys)
    (hs : D s xs = .wait) : Drains D s (xs ++ pieces.flatten) outs t ys := by
  induction h with
  | nil s xs =>
    rw [List.flatten_nil, List.append_nil]
    exact ⟨.refl s xs, hs⟩
  | cons hd _ ih =>
    rw [List.flatten_cons, ← List.append_assoc]
    exact hd.after hD (ih hd.2)

/-- A run over the joined input is followed by every way of feeding it in pieces. -/
theorem Drains.feeds (hD : Stable D) (h : Drains D s (xs ++ pieces.flatten) outs t ys)
    (hs : D s xs = .wait) : Feeds D s xs pieces outs t ys := by
  induction pieces generalizing s xs outs with
  | nil =>
    rw [List.flatten_nil, List.append_nil] at h
    obtain ⟨rfl, rfl, rfl⟩ := h.1.eq_of_halted (halted_of_wait hs)
    exact .nil _ _
  | cons piece pieces ih =>
    rw [List.flatten_cons, ← List.append_assoc] at h
    obtain ⟨out, u, us, rest, hd, rfl, hrest⟩ := h.split hD
    exact .cons hd (ih hrest hd.2)

/-- A failing run over the joined input fails in the call of one piece. -/
theorem Fails.feeds (hD : Stable D) {e : ε} (h : Fails D s (xs ++ pieces.flatten) outs t ys e)
    (hs : D s xs = .wait) :
    ∃ front piece back out u us rest vs, pieces = front ++ piece :: back ∧
      Feeds D s xs front out u us ∧ Fails D u (us ++ piece) rest t vs e := by
  induction pieces generalizing s xs outs with
  | nil =>
    rw [List.flatten_nil, List.append_nil] at h
    obtain ⟨_, rfl, rfl⟩ := h.1.eq_of_halted (halted_of_wait hs)
    have hfail := h.2
    rw [hs] at hfail
    cases hfail
  | cons piece pieces ih =>
    rw [List.flatten_cons, ← List.append_assoc] at h
    rcases h.split hD with ⟨out, u, us, rest, hd, _, hrest⟩ | ⟨us, hfail, _⟩
    · obtain ⟨front, piece', back, out', v, vs, rest', ws, rfl, hfeeds, hfail⟩ := ih hrest hd.2
      exact ⟨piece :: front, piece', back, _, v, vs, rest', ws, rfl, .cons hd hfeeds, hfail⟩
    · exact ⟨[], piece, pieces, [], s, xs, outs, us, rfl, .nil _ _, hfail⟩

end Feeding

section Erasure
variable {τ : Type*} {γ : Type*}

def Attempt.map (g : σ → τ) (f : β → γ) : Attempt σ β ε → Attempt τ γ ε
  | .wait => .wait
  | .advance n t out => .advance n (g t) (out.map f)
  | .fail e => .fail e

/-- `D'` does on erased states what `D` does, up to the failures `bad` of `D`. -/
def Erases (D : Decoder α σ β ε) (D' : Decoder α τ γ ε) (bad : ε → Prop)
    (g : σ → τ) (f : β → γ) : Prop :=
  ∀ s xs, D' (g s) xs = (D s xs).map g f ∨ ∃ e, D s xs = .fail e ∧ bad e

variable {D : Decoder α σ β ε} {D' : Decoder α τ γ ε} {bad : ε → Prop}
variable {g : σ → τ} {f : β → γ} {s t : σ} {xs ys : List α} {outs : List β}

theorem Erases.mirror (hE : Erases D D' bad g f) {a : Attempt σ β ε} (h : D s xs = a)
    (ha : ∀ e, a = .fail e → ¬ bad e) : D' (g s) xs = a.map g f := by
  rcases hE s xs with heq | ⟨e, hfail, hbad⟩
  · rw [heq, h]
  · exact absurd hbad (ha e (h.symm.trans hfail))

theorem Steps.erase (hE : Erases D D' bad g f) (h : Steps D s xs outs t ys) :
    Steps D' (g s) xs (outs.map f) (g t) ys := by
  induction h with
  | refl => exact .refl _ _
  | head h _ ih =>
    rw [List.map_append]
    exact .head (hE.mirror h (by simp)) ih

theorem Drains.erase (hE : Erases D D' bad g f) (h : Drains D s xs outs t ys) :
    Drains D' (g s) xs (outs.map f) (g t) ys :=
  ⟨h.1.erase hE, hE.mirror h.2 (by simp)⟩

theorem Fails.erase (hE : Erases D D' bad g f) {e : ε} (h : Fails D s xs outs t ys e)
    (he : ¬ bad e) : Fails D' (g s) xs (outs.map f) (g t) ys e := by
  refine ⟨h.1.erase hE, hE.mirror h.2 ?_⟩
  intro e' heq
  cases heq
  exact he

end Erasure

def Lowers (D : Decoder α σ β ε) (μ : σ → List α → Nat) : Prop :=
  ∀ {s xs n t out}, D s xs = .advance n t out → μ t (xs.drop n) < μ s xs

end Incremental
