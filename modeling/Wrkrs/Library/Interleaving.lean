import Mathlib.Data.List.Basic
import Mathlib.Logic.Relation

/-!
# Interleaved calls

Calls with a state of their own over one shared state. A step of the system is one step
of one call; what a step keeps for its own call and for every other one holds of all of
them, and counts over the calls change by what that one call contributes.
-/

namespace Interleaving

set_option autoImplicit false

universe u v
variable {γ : Type u} {δ : Type v} {Step : γ → δ → γ → δ → Prop}

inductive Moves (Step : γ → δ → γ → δ → Prop) : γ × List δ → γ × List δ → Prop where
  | mk {g g' : γ} {d d' : δ} (before after : List δ) : Step g d g' d' →
      Moves Step (g, before ++ d :: after) (g', before ++ d' :: after)

abbrev Interleaved (Step : γ → δ → γ → δ → Prop) : γ × List δ → γ × List δ → Prop :=
  Relation.ReflTransGen (Moves Step)

theorem forall_replaced {P Q : δ → Prop} {before after : List δ} {d d' : δ}
    (h : ∀ e ∈ before ++ d :: after, P e) (hown : P d → Q d') (hothers : ∀ e, P e → Q e) :
    ∀ e ∈ before ++ d' :: after, Q e := by
  intro e he
  rcases List.mem_append.mp he with hbefore | hafter
  · exact hothers e (h e (List.mem_append_left _ hbefore))
  · rcases List.mem_cons.mp hafter with rfl | hrest
    · exact hown (h d (List.mem_append_right _ List.mem_cons_self))
    · exact hothers e (h e (List.mem_append_right _ (List.mem_cons_of_mem _ hrest)))

theorem countP_replaced (p : δ → Bool) (before after : List δ) (d d' : δ) :
    (before ++ d' :: after).countP p + (if p d = true then 1 else 0) =
      (before ++ d :: after).countP p + if p d' = true then 1 else 0 := by
  rw [List.countP_append, List.countP_append, List.countP_cons, List.countP_cons]
  omega

theorem map_replaced {β : Type v} (f : δ → β) {before after : List δ} {d d' : δ}
    (h : f d' = f d) : (before ++ d' :: after).map f = (before ++ d :: after).map f := by
  rw [List.map_append, List.map_append, List.map_cons, List.map_cons, h]

/-- An invariant of the single steps holds in every state reached. -/
theorem Interleaved.invariant {I : γ × List δ → Prop} {s t : γ × List δ}
    (h : Interleaved Step s t) (hs : I s)
    (hstep : ∀ {g g' : γ} {d d' : δ} {before after : List δ}, Step g d g' d' →
      I (g, before ++ d :: after) → I (g', before ++ d' :: after)) : I t := by
  induction h with
  | refl => exact hs
  | tail _ hmoves ih =>
    cases hmoves with
    | mk before after hone => exact hstep hone ih

end Interleaving
