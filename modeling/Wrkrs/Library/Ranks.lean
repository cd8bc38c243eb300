import Mathlib.Data.Finset.Sort
import Mathlib.Algebra.Order.Group.Multiset
import Mathlib.Algebra.GroupWithZero.Nat

/-!
# Tables of counts

A table of counts over ascending points stands for the sorted list of its entries, every
point as often as it is counted. An entry is found by its rank, and a point that is
counted at all by its place.
-/

namespace Ranks

set_option autoImplicit false

universe u
variable {α : Type u} (counts : α → Nat)

def entries (points : List α) : List α := points.flatMap fun p => List.replicate (counts p) p

def occupied (points : List α) : List α := points.filter fun p => counts p ≠ 0

section Entries
variable {counts} {p q : α} {points : List α}

theorem entries_cons (p : α) (points : List α) :
    entries counts (p :: points) = List.replicate (counts p) p ++ entries counts points :=
  List.flatMap_cons

theorem length_entries_cons (p : α) (points : List α) :
    (entries counts (p :: points)).length = counts p + (entries counts points).length := by
  rw [entries_cons, List.length_append, List.length_replicate]

/-- The entry at a place is the first point that the counts before it reach. -/
theorem getElem?_entries_cons (p : α) (points : List α) (i : Nat) :
    (entries counts (p :: points))[i]? =
      if i < counts p then some p else (entries counts points)[i - counts p]? := by
  rw [entries_cons, List.getElem?_append, List.length_replicate]
  by_cases hi : i < counts p
  · rw [if_pos hi, if_pos hi, List.getElem?_replicate_of_lt hi]
  · rw [if_neg hi, if_neg hi]

theorem mem_entries : q ∈ entries counts points ↔ q ∈ points ∧ counts q ≠ 0 := by
  constructor
  · intro hq
    obtain ⟨p, hp, hmem⟩ := List.mem_flatMap.mp hq
    obtain ⟨hne, rfl⟩ := List.mem_replicate.mp hmem
    exact ⟨hp, hne⟩
  · rintro ⟨hq, hne⟩
    exact List.mem_flatMap.mpr ⟨q, hq, List.mem_replicate.mpr ⟨hne, rfl⟩⟩

theorem entries_sorted [Preorder α] (h : points.Pairwise (· < ·)) :
    (entries counts points).Pairwise (· ≤ ·) := by
  induction points with
  | nil => exact .nil
  | cons p points ih =>
    obtain ⟨hfirst, hrest⟩ := List.pairwise_cons.mp h
    rw [entries_cons, List.pairwise_append]
    refine ⟨List.pairwise_replicate.mpr (.inr (le_refl p)), ih hrest, ?_⟩
    intro a ha b hb
    obtain ⟨-, rfl⟩ := List.mem_replicate.mp ha
    exact le_of_lt (hfirst b (mem_entries.mp hb).1)

theorem count_entries [DecidableEq α] (h : points.Nodup) (q : α) :
    (entries counts points).count q = if q ∈ points then counts q else 0 := by
  induction points with
  | nil => rfl
  | cons p points ih =>
    obtain ⟨hnew, hrest⟩ := List.nodup_cons.mp h
    rw [entries_cons, List.count_append, List.count_replicate, ih hrest]
    by_cases hsame : p = q
    · subst hsame
      rw [if_pos (beq_self_eq_true p), if_neg hnew, if_pos List.mem_cons_self, Nat.add_zero]
    · have hmem : q ∈ p :: points ↔ q ∈ points := by
        rw [List.mem_cons]
        exact or_iff_right fun heq => hsame heq.symm
      have hbeq : ¬ (p == q) = true := fun heq => hsame (beq_iff_eq.mp heq)
      rw [if_neg hbeq, Nat.zero_add]
      simp only [hmem]

theorem sum_replicate (points : List α) :
    (points.map fun p => Multiset.replicate (counts p) p).sum = entries counts points := by
  induction points with
  | nil => rfl
  | cons p points ih =>
    rw [List.map_cons, List.sum_cons, ih, entries_cons]
    rfl

/-- The entries are the sorted list of any collection with the same counts. -/
theorem sort_eq_entries [LinearOrder α] {s : Multiset α} (h : points.Pairwise (· < ·))
    (hs : s = entries counts points) : s.sort = entries counts points := by
  subst hs
  exact List.mergeSort_eq_self _ (entries_sorted h)

end Entries

section Occupied
variable {counts} {p q : α} {points : List α}

theorem mem_occupied : q ∈ occupied counts points ↔ q ∈ points ∧ counts q ≠ 0 := by
  rw [occupied, List.mem_filter, decide_eq_true_eq]

theorem occupied_cons (p : α) (points : List α) :
    occupied counts (p :: points) =
      if counts p ≠ 0 then p :: occupied counts points else occupied counts points := by
  by_cases hp : counts p ≠ 0
  · rw [if_pos hp]
    exact List.filter_cons_of_pos (decide_eq_true hp)
  · rw [if_neg hp]
    exact List.filter_cons_of_neg fun h => hp (of_decide_eq_true h)

theorem occupied_sorted [LT α] (h : points.Pairwise (· < ·)) :
    (occupied counts points).Pairwise (· < ·) := h.filter _

theorem sort_eq_occupied [LinearOrder α] {s : Finset α} (h : points.Pairwise (· < ·))
    (hs : ∀ q, q ∈ s ↔ q ∈ points ∧ counts q ≠ 0) : s.sort = occupied counts points := by
  have hsorted : (occupied counts points).Pairwise (· < ·) := occupied_sorted h
  have hnodup : (occupied counts points).Nodup := hsorted.imp ne_of_lt
  have hset : s = (occupied counts points).toFinset := by
    ext q
    rw [hs, List.mem_toFinset, mem_occupied]
  rw [hset]
  exact (List.toFinset_sort (· ≤ ·) hnodup).mpr (hsorted.imp le_of_lt)

theorem sum_occupied (points : List α) :
    ((occupied counts points).map counts).sum = (entries counts points).length := by
  induction points with
  | nil => rfl
  | cons p points ih =>
    rw [occupied_cons, length_entries_cons, ← ih]
    by_cases hp : counts p = 0
    · rw [if_neg (not_not_intro hp), hp, Nat.zero_add]
    · rw [if_pos hp, List.map_cons, List.sum_cons]

end Occupied

end Ranks
