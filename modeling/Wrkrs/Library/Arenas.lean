import Mathlib.Data.List.Basic

/-!
# Arenas

Nodes known by their positions in a list. A node is created at the end and updated in its
place, so that what is built from new nodes leaves the older ones as they are. A build may
fail; it succeeds with a condition when it fails exactly where the condition does.
-/

namespace Arenas

set_option autoImplicit false

universe u v
variable {N : Type u} {M : Type v}

/-- The nodes below a position are kept and none goes away. -/
structure Grows (base : Nat) (a b : List N) : Prop where
  length_le : a.length ≤ b.length
  kept : ∀ x, x < base → b[x]? = a[x]?

section Grows
variable {a b c : List N} {base other : Nat}

theorem Grows.refl (base : Nat) (a : List N) : Grows base a a := ⟨Nat.le_refl _, fun _ _ => rfl⟩

theorem Grows.trans (hab : Grows base a b) (hbc : Grows other b c) (hle : base ≤ other) :
    Grows base a c := by
  constructor
  · exact Nat.le_trans hab.length_le hbc.length_le
  · intro x hx
    rw [hbc.kept x (Nat.lt_of_lt_of_le hx hle), hab.kept x hx]

theorem grows_create (a : List N) (n : N) : Grows a.length a (a ++ [n]) := by
  constructor
  · simp
  · intro x hx
    exact List.getElem?_append_left hx

theorem node_update (a : List N) (x : Nat) (f : N → N) : (a.modify x f)[x]? = a[x]?.map f := by
  simp

theorem node_update_ne {x y : Nat} (h : x ≠ y) (a : List N) (f : N → N) :
    (a.modify x f)[y]? = a[y]? := by
  simp [h]

theorem grows_update (a : List N) (x : Nat) (f : N → N) : Grows x a (a.modify x f) := by
  constructor
  · simp
  · intro y hy
    apply node_update_ne
    omega

end Grows

/-- What the nodes from a position on stand for. -/
def above (base : Nat) (view : N → M) (a : List N) (x : Nat) : Option M :=
  if base ≤ x then a[x]?.map view else none

section Above
variable {a b : List N} {base other x : Nat} {view : N → M} {m : M}

theorem above_eq_some : above base view a x = some m ↔ base ≤ x ∧ a[x]?.map view = some m := by
  unfold above
  by_cases hx : base ≤ x
  · simp [hx]
  · simp [hx]

theorem above_le_of_le (hle : base ≤ other) (h : above other view a x = some m) :
    above base view a x = some m := by
  obtain ⟨hx, hm⟩ := above_eq_some.mp h
  exact above_eq_some.mpr ⟨Nat.le_trans hle hx, hm⟩

theorem above_grows (hgrows : Grows a.length a b) (h : above base view a x = some m) :
    above base view b x = some m := by
  obtain ⟨hx, hm⟩ := above_eq_some.mp h
  have hlt : x < a.length := by
    by_contra hge
    rw [List.getElem?_eq_none (by omega)] at hm
    cases hm
  rw [above_eq_some, hgrows.kept x hlt]
  exact ⟨hx, hm⟩

theorem above_update {f : N → N} (hlt : other < base) :
    above base view (a.modify other f) x = above base view a x := by
  unfold above
  by_cases hx : base ≤ x
  · rw [if_pos hx, if_pos hx, node_update_ne (by omega)]
  · rw [if_neg hx, if_neg hx]

end Above

/-- It succeeds with what is claimed of the result when the condition holds, and otherwise fails
with an error of a kind. -/
def Succeeds {ε α : Type} (condition : Prop) (failure : ε → Prop) (post : α → Prop) :
    Except ε α → Prop
  | .ok a => condition ∧ post a
  | .error error => ¬ condition ∧ failure error

section Succeeds
variable {ε α β : Type} {p q : Prop} {failure : ε → Prop} {r : Except ε α}

theorem Succeeds.bind {post : α → Prop} {next : β → Prop} {f : α → Except ε β}
    (h : Succeeds p failure post r) (hf : ∀ a, post a → Succeeds q failure next (f a)) :
    Succeeds (p ∧ q) failure next (r >>= f) := by
  cases r with
  | error error => exact ⟨fun hboth => h.1 hboth.1, h.2⟩
  | ok a =>
    have hnext := hf a h.2
    change Succeeds (p ∧ q) failure next (f a)
    cases hr : f a with
    | error error =>
      rw [hr] at hnext
      exact ⟨fun hboth => hnext.1 hboth.2, hnext.2⟩
    | ok b =>
      rw [hr] at hnext
      exact ⟨⟨h.1, hnext.1⟩, hnext.2⟩

theorem Succeeds.imp {post next : α → Prop} (hiff : p ↔ q) (hpost : ∀ a, post a → next a)
    (h : Succeeds p failure post r) : Succeeds q failure next r := by
  cases r with
  | error error => exact ⟨fun hq => h.1 (hiff.mpr hq), h.2⟩
  | ok a => exact ⟨hiff.mp h.1, hpost a h.2⟩

theorem Succeeds.map {post : α → Prop} {next : β → Prop} {f : α → β}
    (hf : ∀ a, post a → next (f a)) (h : Succeeds p failure post r) :
    Succeeds p failure next (r >>= fun a => .ok (f a)) := by
  cases r with
  | error error => exact h
  | ok a => exact ⟨h.1, hf a h.2⟩

end Succeeds

end Arenas
