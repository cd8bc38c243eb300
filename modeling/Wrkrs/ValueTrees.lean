import Mathlib.Data.List.Perm.Basic
import Wrkrs.ValueTransfer

/-!
# Values up to the order of their tables

A traversal of a table or an object follows its hashing, so what is read from it is told
apart only up to the order of the entries, at every depth.
-/

namespace Wrkrs

set_option autoImplicit false

open Text Unfolding

namespace Transfer

variable {F ι κ : Type}

inductive OnBoth {α β : Type} (R : α → β → Prop) : α × α → β × β → Prop where
  | mk {a a' : α} {b b' : β} (key : R a b) (entry : R a' b') : OnBoth R (a, a') (b, b')

/-- The same value up to the order of the entries of its tables. -/
inductive Same : Value F → Value F → Prop where
  | scalar (value : Value F) : Same value value
  | table {entries reordered others : List (Value F × Value F)} (order : entries.Perm reordered)
      (each : List.Forall₂ (OnBoth Same) reordered others) : Same (.table entries) (.table others)

/-- A cell stands for a value, over nodes that hold pairs of cells in some order. -/
inductive Holds (nodes : ι → Option (List (ValueCell F ι × ValueCell F ι))) :
    ValueCell F ι → Value F → Prop where
  | leaf (value : Value F) : Holds nodes (.leaf value) value
  | ref {x : ι} {pairs reordered : List (ValueCell F ι × ValueCell F ι)}
      {entries : List (Value F × Value F)} (node : nodes x = some pairs)
      (order : pairs.Perm reordered) (each : List.Forall₂ (OnBoth (Holds nodes)) reordered entries) :
      Holds nodes (.ref x) (.table entries)

/-- Induction on a value, with both parts of every entry of a table. -/
@[elab_as_elim]
theorem Value.tree_induct {motive : Value F → Prop}
    (scalar : ∀ value, (∀ entries, value ≠ .table entries) → motive value)
    (table : ∀ entries, (∀ e ∈ entries, motive e.1 ∧ motive e.2) → motive (.table entries)) :
    ∀ value, motive value
  | .null => scalar .null (fun _ h => nomatch h)
  | .bool value => scalar (.bool value) (fun _ h => nomatch h)
  | .int value => scalar (.int value) (fun _ h => nomatch h)
  | .float value => scalar (.float value) (fun _ h => nomatch h)
  | .str value => scalar (.str value) (fun _ h => nomatch h)
  | .table entries => by
    apply table
    intro e he
    have hsize := List.sizeOf_lt_of_mem he
    exact ⟨Value.tree_induct scalar table e.1, Value.tree_induct scalar table e.2⟩
termination_by value => sizeOf value
decreasing_by
  all_goals
    obtain ⟨key, entry⟩ := e
    simp only [Prod.mk.sizeOf_spec, Value.table.sizeOf_spec] at hsize ⊢
    omega

theorem OnBoth.imp {α β : Type} {R S : α → β → Prop} {p : α × α} {e : β × β} (h : OnBoth R p e)
    (hkey : R p.1 e.1 → S p.1 e.1) (hentry : R p.2 e.2 → S p.2 e.2) : OnBoth S p e := by
  cases h with
  | mk key entry => exact .mk (hkey key) (hentry entry)

theorem forall₂_mem_right {α β : Type} {R S : α → β → Prop} {as : List α} {bs : List β}
    (h : List.Forall₂ R as bs) (himp : ∀ a, ∀ b ∈ bs, R a b → S a b) : List.Forall₂ S as bs := by
  induction h with
  | nil => exact .nil
  | cons hfirst hrest ih =>
    apply List.Forall₂.cons
    · exact himp _ _ List.mem_cons_self hfirst
    · exact ih fun a b hb => himp a b (List.mem_cons_of_mem _ hb)

section Held
variable {nodes more : ι → Option (List (ValueCell F ι × ValueCell F ι))}

theorem Holds.mono (hmore : ∀ x pairs, nodes x = some pairs → more x = some pairs)
    {cell : ValueCell F ι} {value : Value F} (h : Holds nodes cell value) :
    Holds more cell value := by
  induction value using Value.tree_induct generalizing cell with
  | scalar value hscalar =>
    cases h with
    | leaf value => exact .leaf value
    | ref node order each => exact absurd rfl (hscalar _)
  | table entries ih =>
    cases h with
    | leaf value => exact .leaf _
    | ref node order each =>
      refine .ref (hmore _ _ node) order (forall₂_mem_right each ?_)
      intro p e he hboth
      exact hboth.imp (ih e he).1 (ih e he).2

end Held

def renameCell (place : ι → Option κ) : ValueCell F ι → ValueCell F κ
  | .leaf value => .leaf value
  | .refused error => .refused error
  | .ref x =>
    match place x with
    | some y => .ref y
    | none => .leaf .null

def pairCells (place : ι → Option κ) (p : ValueCell F ι × ValueCell F ι) : List (ValueCell F κ) :=
  [renameCell place p.1, renameCell place p.2]

section Reading
variable {cells : κ → List (ValueCell F κ)} {place : ι → Option κ}
  {nodes : ι → Option (List (ValueCell F ι × ValueCell F ι))}

/-- A cell is read on some bound for the depth, as the same value. -/
def Reads (cells : κ → List (ValueCell F κ)) (cell : ValueCell F κ) (value : Value F) : Prop :=
  ∃ depth read, copy cells tableOf depth cell = some (.ok read) ∧ Same value read

theorem copyPairs_eq_ok {convert : ValueCell F κ → Bounded EngineError (Value F)}
    {pairs : List (ValueCell F ι × ValueCell F ι)} {read : List (Value F × Value F)}
    (h : List.Forall₂ (OnBoth fun cell value => convert (renameCell place cell) = some (.ok value))
      pairs read) : copyPairs convert (pairs.flatMap (pairCells place)) = some (.ok read) := by
  induction h with
  | nil => rfl
  | cons hfirst _ ih =>
    cases hfirst with
    | mk key entry =>
      rw [List.flatMap_cons, pairCells, List.cons_append, List.cons_append, List.nil_append,
        copyPairs_cons, key, entry, Bounded.ok_andThen, Bounded.ok_andThen, ih]
      rfl

theorem reads_pairs {pairs : List (ValueCell F ι × ValueCell F ι)}
    {entries : List (Value F × Value F)}
    (h : List.Forall₂ (OnBoth fun cell value => Reads cells (renameCell place cell) value)
      pairs entries) :
    ∃ depth read, List.Forall₂ (OnBoth fun cell value =>
        copy cells tableOf depth (renameCell place cell) = some (.ok value)) pairs read ∧
      List.Forall₂ (OnBoth Same) entries read := by
  induction h with
  | nil => exact ⟨0, [], .nil, .nil⟩
  | cons hfirst hrest ih =>
    obtain ⟨deep, read, hread, hsame⟩ := ih
    cases hfirst with
    | mk key entry =>
      obtain ⟨kdepth, k, hk, hksame⟩ := key
      obtain ⟨edepth, e, he, hesame⟩ := entry
      refine ⟨max deep (max kdepth edepth), (k, e) :: read, ?_, .cons (.mk hksame hesame) hsame⟩
      apply List.Forall₂.cons
      · exact .mk (copy_mono (by omega) hk) (copy_mono (by omega) he)
      · apply hread.imp
        intro p e hboth
        exact hboth.imp (copy_mono (by omega)) (copy_mono (by omega))

def Traversed (nodes : ι → Option (List (ValueCell F ι × ValueCell F ι))) (place : ι → Option κ)
    (cells : κ → List (ValueCell F κ)) : Prop :=
  ∀ x pairs, nodes x = some pairs → ∃ y, place x = some y ∧
    ∃ reordered : List (ValueCell F ι × ValueCell F ι), reordered.Perm pairs ∧
      cells y = reordered.flatMap (pairCells place)

/-- A cell that stands for a value is read as it, whatever the order of the traversals. -/
theorem Holds.reads (hcells : Traversed nodes place cells) {cell : ValueCell F ι}
    {value : Value F} (h : Holds nodes cell value) :
    Reads cells (renameCell place cell) value := by
  induction value using Value.tree_induct generalizing cell with
  | scalar value hscalar =>
    cases h with
    | leaf value => exact ⟨0, value, rfl, .scalar value⟩
    | ref node order each => exact absurd rfl (hscalar _)
  | table entries ih =>
    cases h with
    | leaf value => exact ⟨0, _, rfl, .scalar _⟩
    | ref node order each =>
      obtain ⟨y, hplace, gone, hgone, hy⟩ := hcells _ _ node
      obtain ⟨fs, hfs, hperm⟩ := List.perm_comp_forall₂ (hgone.trans order) each
      have hreads : List.Forall₂
          (OnBoth fun cell value => Reads cells (renameCell place cell) value) gone fs := by
        apply forall₂_mem_right hfs
        intro p e he hboth
        obtain ⟨hkey, hentry⟩ := ih e (hperm.subset he)
        exact hboth.imp hkey hentry
      obtain ⟨depth, read, hread, hsame⟩ := reads_pairs hreads
      refine ⟨depth + 1, .table read, ?_, .table hperm.symm hsame⟩
      have hpairs := copyPairs_eq_ok hread
      obtain ⟨values, hvalues, hup⟩ := Bounded.andThen_eq_ok.mp hpairs
      cases hup
      simp only [renameCell, hplace, copy, hy, hvalues, Bounded.ok_andThen]
      rfl

end Reading

end Transfer

end Wrkrs
