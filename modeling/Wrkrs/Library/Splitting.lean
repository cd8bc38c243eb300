import Mathlib.Data.List.Basic

/-!
# Splitting at separators

The first occurrence of a separator cuts a list in two, and repeated cuts split it. A
list written with separators between its pieces is read back when no piece holds the
first element of the separator.
-/

namespace Splitting

set_option autoImplicit false

universe u
variable {α : Type u} [DecidableEq α]

def cutAt (separator : List α) : List α → Option (List α × List α)
  | [] => if separator = [] then some ([], []) else none
  | c :: cs =>
    if separator <+: c :: cs then some ([], (c :: cs).drop separator.length)
    else (cutAt separator cs).map fun parts => (c :: parts.1, parts.2)

/-- The pieces between the separators, for a bound on their number. -/
def splitFrom (separator : List α) : Nat → List α → List (List α)
  | 0, s => [s]
  | fuel + 1, s =>
    match cutAt separator s with
    | none => [s]
    | some (piece, rest) => piece :: splitFrom separator fuel rest

def pieces (separator s : List α) : List (List α) := splitFrom separator s.length s

section Cut
variable {separator before after : List α} {x : α}

theorem cutAt_start (hne : separator ≠ []) :
    cutAt separator (separator ++ after) = some ([], after) := by
  cases separator with
  | nil => exact absurd rfl hne
  | cons y ys =>
    have hprefix : y :: ys <+: y :: (ys ++ after) := List.prefix_append (y :: ys) after
    rw [List.cons_append, cutAt, if_pos hprefix, ← List.cons_append, List.drop_left]

theorem cutAt_skip {c : α} {cs : List α} (h : ¬ separator <+: c :: cs) :
    cutAt separator (c :: cs) =
      (cutAt separator cs).map fun parts => (c :: parts.1, parts.2) := by
  rw [cutAt, if_neg h]

omit [DecidableEq α] in
theorem not_prefix_of_ne {c : α} {cs xs : List α} (h : c ≠ x) : ¬ x :: xs <+: c :: cs := by
  intro hprefix
  exact h (List.cons_prefix_cons.mp hprefix).1.symm

theorem cutAt_append {xs : List α} (h : x ∉ before) :
    cutAt (x :: xs) (before ++ after) =
      (cutAt (x :: xs) after).map fun parts => (before ++ parts.1, parts.2) := by
  induction before with
  | nil => simp
  | cons c before ih =>
    have hc : c ≠ x := fun heq => h (heq ▸ List.mem_cons_self)
    have hbefore : x ∉ before := fun hmem => h (List.mem_cons_of_mem c hmem)
    rw [List.cons_append, cutAt_skip (not_prefix_of_ne hc), ih hbefore, Option.map_map]
    rfl

theorem cutAt_first {xs : List α} (h : x ∉ before) :
    cutAt (x :: xs) (before ++ (x :: xs ++ after)) = some (before, after) := by
  rw [cutAt_append h, cutAt_start (List.cons_ne_nil x xs)]
  simp

theorem cutAt_none {xs s : List α} (h : x ∉ s) : cutAt (x :: xs) s = none := by
  have hcut : cutAt (x :: xs) (s ++ []) = _ := cutAt_append h
  rw [List.append_nil] at hcut
  rw [hcut]
  rfl

end Cut

section Joined
variable {x : α} {xs after : List α} {ps : List (List α)}

omit [DecidableEq α] in
theorem join_cons (separator piece : List α) (ps : List (List α)) :
    separator.intercalate (piece :: ps) = piece ++ ps.flatMap (separator ++ ·) := by
  induction ps generalizing piece with
  | nil => simp
  | cons next rest ih =>
    rw [List.intercalate_cons_cons, ih, List.flatMap_cons]
    simp only [List.append_assoc]

theorem splitFrom_join {fuel : Nat} (hne : ps ≠ []) (hps : ∀ p ∈ ps, x ∉ p)
    (hfuel : ((x :: xs).intercalate ps).length ≤ fuel) :
    splitFrom (x :: xs) fuel ((x :: xs).intercalate ps) = ps := by
  induction fuel generalizing ps with
  | zero =>
    have hempty := List.eq_nil_of_length_eq_zero (Nat.le_zero.mp hfuel)
    cases ps with
    | nil => exact absurd rfl hne
    | cons p rest =>
      cases rest with
      | nil => rw [List.intercalate_singleton]; rfl
      | cons next rest => simp [List.intercalate_cons_cons] at hempty
  | succ fuel ih =>
    cases ps with
    | nil => exact absurd rfl hne
    | cons p rest =>
      obtain ⟨hp, hrest⟩ := List.forall_mem_cons.mp hps
      cases rest with
      | nil =>
        rw [List.intercalate_singleton, splitFrom, cutAt_none hp]
      | cons next rest =>
        rw [List.intercalate_cons_cons, List.append_assoc] at hfuel ⊢
        rw [splitFrom, cutAt_first hp]
        refine congrArg (p :: ·) (ih (List.cons_ne_nil _ _) hrest ?_)
        simp only [List.length_append, List.length_cons] at hfuel ⊢
        omega

/-- Pieces without the first element of the separator are read back. -/
theorem pieces_join (hne : ps ≠ []) (hps : ∀ p ∈ ps, x ∉ p) :
    pieces (x :: xs) ((x :: xs).intercalate ps) = ps :=
  splitFrom_join hne hps (Nat.le_refl _)

/-- The first two separators in a row stand after the last of the nonempty pieces. -/
theorem cutAt_twice (hxs : x ∉ xs) (hne : ps ≠ []) (hps : ∀ p ∈ ps, p ≠ [] ∧ x ∉ p) :
    cutAt (x :: (xs ++ x :: xs)) ((x :: xs).intercalate ps ++ (x :: (xs ++ x :: xs) ++ after)) =
      some ((x :: xs).intercalate ps, after) := by
  induction ps with
  | nil => exact absurd rfl hne
  | cons p rest ih =>
    obtain ⟨⟨_, hp⟩, hrest⟩ := List.forall_mem_cons.mp hps
    cases rest with
    | nil =>
      rw [List.intercalate_singleton]
      exact cutAt_first hp
    | cons next rest =>
      have hnext := hrest next List.mem_cons_self
      obtain ⟨c, cs, rfl⟩ := List.exists_cons_of_ne_nil hnext.1
      have hc : c ≠ x := fun heq => hnext.2 (heq ▸ List.mem_cons_self)
      obtain ⟨tail, htail⟩ : ∃ tail, (x :: xs).intercalate ((c :: cs) :: rest) = c :: tail :=
        ⟨_, join_cons (x :: xs) (c :: cs) rest⟩
      -- after one separator the next piece begins, not a second separator
      have htwo : ∀ rest : List α, ¬ x :: (xs ++ x :: xs) <+: x :: (xs ++ (c :: tail ++ rest)) := by
        intro rest hprefix
        have hinner := (List.prefix_append_right_inj xs).mp (List.cons_prefix_cons.mp hprefix).2
        exact not_prefix_of_ne hc hinner
      have hrec := ih (List.cons_ne_nil _ _) hrest
      rw [htail] at hrec
      have hlast : cutAt (x :: (xs ++ x :: xs))
          (x :: (xs ++ (c :: tail ++ (x :: (xs ++ x :: xs) ++ after)))) =
          some (x :: (xs ++ c :: tail), after) := by
        rw [cutAt_skip (htwo _), cutAt_append hxs, hrec]
        rfl
      rw [List.intercalate_cons_cons, htail, List.append_assoc, List.append_assoc, cutAt_append hp]
      change (cutAt _ (x :: (xs ++ (c :: tail ++ (x :: (xs ++ x :: xs) ++ after))))).map _ = _
      rw [hlast]
      simp

end Joined

end Splitting
