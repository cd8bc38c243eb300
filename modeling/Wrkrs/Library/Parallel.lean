import Mathlib.Algebra.BigOperators.Group.List.Basic
import Wrkrs.Library.Runs

/-!
# Threads over a shared state

Threads with states of their own over one shared state. A step of the whole is one step of
one thread, or something outside that changes what is shared. What one thread sees of a
run is a run of its own, and amounts that the steps add to threads add up over all of them.
-/

namespace Parallel

set_option autoImplicit false

open Runs

universe u v w x
variable {γ : Type u} {δ : Type v} {α : Type w} {Step : γ → δ → α → γ → δ → Prop}
variable {Outside : γ → γ → Prop}

/-- One step of the thread at an index, or one from outside. -/
inductive Acts (Step : γ → δ → α → γ → δ → Prop) (Outside : γ → γ → Prop) :
    γ × List δ → Option (Nat × α) → γ × List δ → Prop where
  | thread {g g' : γ} {d d' : δ} {a : α} {ds : List δ} (i : Nat) : ds[i]? = some d →
      Step g d a g' d' → Acts Step Outside (g, ds) (some (i, a)) (g', ds.set i d')
  | outside {g g' : γ} (ds : List δ) : Outside g g' → Acts Step Outside (g, ds) none (g', ds)

/-- A step as one thread sees it: its own, or one of the others or from outside. -/
inductive Seen (Step : γ → δ → α → γ → δ → Prop) (Outside : γ → γ → Prop) :
    γ × δ → Option α → γ × δ → Prop where
  | own {g g' : γ} {d d' : δ} {a : α} : Step g d a g' d' →
      Seen Step Outside (g, d) (some a) (g', d')
  | other {g g' : γ} {e e' : δ} {a : α} (d : δ) : Step g e a g' e' →
      Seen Step Outside (g, d) none (g', d)
  | outside {g g' : γ} (d : δ) : Outside g g' → Seen Step Outside (g, d) none (g', d)

def ofThread (i : Nat) : Option (Nat × α) → Option α
  | some (j, a) => if j = i then some a else none
  | none => none

def own (i : Nat) (as : List (Option (Nat × α))) : List α := as.filterMap (ofThread i)

variable {s t : γ × List δ} {as : List (Option (Nat × α))} {i : Nat}

theorem Acts.length {a : Option (Nat × α)} (h : Acts Step Outside s a t) :
    t.2.length = s.2.length := by
  cases h with
  | thread i _ _ => exact List.length_set
  | outside ds _ => rfl

theorem length_run (h : Run (Acts Step Outside) s as t) : t.2.length = s.2.length := by
  induction h with
  | refl => rfl
  | tail _ _ hlast ih => exact hlast.length.trans ih

theorem Acts.seen {a : Option (Nat × α)} (h : Acts Step Outside s a t) {d : δ}
    (hd : s.2[i]? = some d) :
    ∃ d', t.2[i]? = some d' ∧ Seen Step Outside (s.1, d) (ofThread i a) (t.1, d') := by
  cases h with
  | @thread g g' e e' a ds j he hstep =>
    by_cases hij : j = i
    · subst hij
      obtain rfl : e = d := Option.some.inj (he.symm.trans hd)
      refine ⟨e', ?_, ?_⟩
      · exact List.getElem?_set_self (List.getElem?_eq_some_iff.mp hd).1
      · rw [ofThread, if_pos rfl]
        exact .own hstep
    · refine ⟨d, ?_, ?_⟩
      · exact (List.getElem?_set_ne hij).trans hd
      · rw [ofThread, if_neg hij]
        exact .other d hstep
  | outside ds hout => exact ⟨d, hd, .outside d hout⟩

/-- What one thread sees of a run. -/
theorem seen_run (h : Run (Acts Step Outside) s as t) {d : δ} (hd : s.2[i]? = some d) :
    ∃ d', t.2[i]? = some d' ∧
      Run (Seen Step Outside) (s.1, d) (as.map (ofThread i)) (t.1, d') := by
  induction h with
  | refl => exact ⟨d, hd, .refl _⟩
  | tail _ _ hlast ih =>
    obtain ⟨e, he, hrun⟩ := ih
    obtain ⟨d', hd', hseen⟩ := hlast.seen he
    refine ⟨d', hd', ?_⟩
    rw [List.map_append]
    exact hrun.tail hseen

theorem own_map (i : Nat) (as : List (Option (Nat × α))) :
    (as.map (ofThread i)).filterMap id = own i as := by
  rw [List.filterMap_map]
  rfl

section Amounts
variable {M : Type x} [AddCommMonoid M]

theorem sum_replaced (f : δ → M) {ds : List δ} {d d' : δ} {m n : M} (hd : ds[i]? = some d)
    (h : f d' + n = f d + m) : ((ds.set i d').map f).sum + n = (ds.map f).sum + m := by
  induction ds generalizing i with
  | nil => cases hd
  | cons e ds ih =>
    cases i with
    | zero =>
      obtain rfl : e = d := Option.some.inj hd
      rw [List.set_cons_zero, List.map_cons, List.map_cons, List.sum_cons, List.sum_cons,
        add_right_comm, h]
      exact add_right_comm _ _ _
    | succ i =>
      have hrest : ds[i]? = some d := hd
      rw [List.set_cons_succ, List.map_cons, List.map_cons, List.sum_cons, List.sum_cons,
        add_assoc, ih hrest, add_assoc]

/-- What a step is worth, nothing when it is from outside. -/
def worth (m : α → M) : Option (Nat × α) → M
  | some (_, a) => m a
  | none => 0

def total (m : α → M) (as : List (Option (Nat × α))) : M := (as.map (worth m)).sum

theorem total_append (m : α → M) (as : List (Option (Nat × α))) (a : Option (Nat × α)) :
    total m (as ++ [a]) = total m as + worth m a := by
  rw [total, List.map_append, List.sum_append, List.map_singleton, List.sum_singleton]
  rfl

theorem threads_balance (f : δ → M) (m n : α → M) (h : Run (Acts Step Outside) s as t)
    (hstep : ∀ {g d a g' d'}, Step g d a g' d' → f d' + n a = f d + m a) :
    (t.2.map f).sum + total n as = (s.2.map f).sum + total m as := by
  induction h with
  | refl => rfl
  | tail _ _ hlast ih =>
    rw [total_append, total_append, ← add_assoc, ← add_assoc, ← ih]
    cases hlast with
    | thread i hd hone =>
      have hreplaced := sum_replaced f hd (hstep hone)
      apply (add_right_comm _ _ _).trans
      exact (congrArg (· + total n _) hreplaced).trans (add_right_comm _ _ _)
    | outside ds _ => rfl

theorem total_zero (as : List (Option (Nat × α))) : total (fun _ => (0 : M)) as = 0 := by
  apply List.sum_eq_zero
  intro x hx
  obtain ⟨a, _, rfl⟩ := List.mem_map.mp hx
  cases a <;> rfl

/-- Amounts that the steps add to their threads add up to those of all threads. -/
theorem threads_total (f : δ → M) (m : α → M) (h : Run (Acts Step Outside) s as t)
    (hstep : ∀ {g d a g' d'}, Step g d a g' d' → f d' = f d + m a) :
    (t.2.map f).sum = (s.2.map f).sum + total m as := by
  have hbalance := threads_balance f m (fun _ => 0) h fun hone => by rw [hstep hone, add_zero]
  rwa [total_zero, add_zero] at hbalance

end Amounts

end Parallel
