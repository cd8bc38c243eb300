import Mathlib.Data.List.Basic

/-!
# Labelled runs

Finite runs of a labelled step relation, with the labels in order. A guard is a
condition that every step of a run meets; guards and invariants may speak about the
labels so far.
-/

namespace Runs

set_option autoImplicit false

universe u v
variable {σ : Type u} {α : Type v} {Step : σ → α → σ → Prop} {Guard : List α → σ → α → Prop}
variable {s t u : σ} {as : List α} {a : α}

/-- A run whose steps all meet the guard. -/
inductive RunWhile (Guard : List α → σ → α → Prop) (Step : σ → α → σ → Prop) :
    σ → List α → σ → Prop where
  | refl (s : σ) : RunWhile Guard Step s [] s
  | tail {s t u : σ} {as : List α} {a : α} :
      RunWhile Guard Step s as t → Guard as t a → Step t a u → RunWhile Guard Step s (as ++ [a]) u

/-- What the labels so far and the state satisfy together. -/
theorem RunWhile.history {I : List α → σ → Prop} (h : RunWhile Guard Step s as t)
    (hs : I [] s)
    (hstep : ∀ {as t a u}, I as t → Guard as t a → Step t a u → I (as ++ [a]) u) :
    I as t := by
  induction h with
  | refl => exact hs
  | tail _ hguard hlast ih => exact hstep ih hguard hlast

abbrev Run (Step : σ → α → σ → Prop) : σ → List α → σ → Prop := RunWhile (fun _ _ _ => True) Step

theorem Run.refl (s : σ) : Run Step s [] s := RunWhile.refl s

theorem Run.tail (h : Run Step s as t) (hstep : Step t a u) : Run Step s (as ++ [a]) u :=
  RunWhile.tail h trivial hstep

theorem Run.append {bs : List α} (h : Run Step s as t) (h' : Run Step t bs u) :
    Run Step s (as ++ bs) u := by
  induction h' with
  | refl =>
    rw [List.append_nil]
    exact h
  | tail _ _ hlast ih =>
    rw [← List.append_assoc]
    exact ih.tail hlast

/-- Where every step is a run of another relation, every run is. -/
theorem RunWhile.simulated {τ : Type*} {β : Type*} {T : τ → β → τ → Prop} {R : σ → τ → Prop}
    (h : RunWhile Guard Step s as t) {x : τ} (hs : R s x)
    (hstep : ∀ {as s a t x}, R s x → Guard as s a → Step s a t → ∃ bs y, Run T x bs y ∧ R t y) :
    ∃ bs y, Run T x bs y ∧ R t y := by
  induction h with
  | refl => exact ⟨[], x, .refl x, hs⟩
  | tail _ hguard hlast ih =>
    obtain ⟨bs, y, hrun, hmatch⟩ := ih
    obtain ⟨cs, z, hmore, hmatch⟩ := hstep hmatch hguard hlast
    exact ⟨bs ++ cs, z, hrun.append hmore, hmatch⟩

/-- Every entry of a history meets a condition that may speak about those before it. -/
def Each (P : List α → α → Prop) (as : List α) : Prop :=
  ∀ past a rest, as = past ++ a :: rest → P past a

section Histories
variable {P : List α → α → Prop}

theorem each_nil : Each P [] := by
  intro past a rest h
  exact absurd h.symm (List.append_ne_nil_of_right_ne_nil _ (List.cons_ne_nil _ _))

theorem each_append (h : Each P as) (ha : P as a) : Each P (as ++ [a]) := by
  intro past other rest hsplit
  rcases List.eq_nil_or_concat rest with rfl | ⟨rest, last, rfl⟩
  · obtain ⟨rfl, hlast⟩ := List.append_inj' hsplit rfl
    obtain rfl := List.cons.inj hlast |>.1
    exact ha
  · have hinit : as ++ [a] = (past ++ other :: rest) ++ [last] := by
      rw [hsplit, List.concat_eq_append, List.append_assoc, List.cons_append]
    exact h past other rest (List.append_inj' hinit rfl).1

end Histories

end Runs
