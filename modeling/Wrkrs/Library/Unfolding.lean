import Mathlib.Data.Fintype.Card
import Mathlib.Data.List.Forall2
import Mathlib.Logic.Relation

/-!
# Unfolding a graph

A node holds cells: values, refused cells and references to nodes. A copy follows the
references in depth and in order, and stops at the first refused cell. On a finite graph it
returns exactly when no node is met again within itself before that.
-/

namespace Unfolding

set_option autoImplicit false

open Relation

/-- The result of a computation on a bound for its depth: none when the bound is too small. -/
abbrev Bounded (ε α : Type) := Option (Except ε α)

namespace Bounded

variable {ε α β : Type}

def andThen (r : Bounded ε α) (next : α → Bounded ε β) : Bounded ε β :=
  match r with
  | none => none
  | some (.error error) => some (.error error)
  | some (.ok a) => next a

@[simp] theorem none_andThen (next : α → Bounded ε β) : andThen none next = none := rfl

@[simp] theorem error_andThen (error : ε) (next : α → Bounded ε β) :
    andThen (some (.error error)) next = some (.error error) := rfl

@[simp] theorem ok_andThen (a : α) (next : α → Bounded ε β) :
    andThen (some (.ok a)) next = next a := rfl

theorem andThen_assoc {γ : Type} (r : Bounded ε α) (f : α → Bounded ε β) (g : β → Bounded ε γ) :
    (r.andThen f).andThen g = r.andThen fun a => (f a).andThen g := by
  match r with
  | none => rfl
  | some (.error _) => rfl
  | some (.ok _) => rfl

theorem andThen_eq_ok {r : Bounded ε α} {next : α → Bounded ε β} {b : β} :
    r.andThen next = some (.ok b) ↔ ∃ a, r = some (.ok a) ∧ next a = some (.ok b) := by
  match r with
  | none => simp
  | some (.error error) => simp
  | some (.ok a) => simp

theorem andThen_eq_error {r : Bounded ε α} {next : α → Bounded ε β} {error : ε} :
    r.andThen next = some (.error error) ↔
      r = some (.error error) ∨ ∃ a, r = some (.ok a) ∧ next a = some (.error error) := by
  match r with
  | none => simp
  | some (.error other) => simp
  | some (.ok a) => simp

end Bounded

section Cycles
variable {ι : Type} {r : ι → ι → Prop} {x : ι}

theorem not_transGen_of_acc (h : Acc (fun a b => r b a) x) : ¬ TransGen r x x := by
  have hacc : Acc (TransGen fun a b => r b a) x := h.transGen
  intro hcycle
  induction hacc with
  | intro x _ ih =>
    have hback : TransGen (fun a b => r b a) x x := transGen_swap.mp hcycle
    exact ih x hback h hcycle

/-- On finitely many nodes the descents from `x` end when they meet no cycle. -/
theorem acc_iff_no_cycle [Finite ι] :
    Acc (fun a b => r b a) x ↔ ∀ y, ReflTransGen r x y → ¬ TransGen r y y := by
  constructor
  · intro hacc y hreach
    apply not_transGen_of_acc
    obtain rfl | hpath := reflTransGen_iff_eq_or_transGen.mp hreach
    · exact hacc
    · exact hacc.inv_of_transGen (transGen_swap.mp hpath)
  · intro hno
    -- Below `x` the paths are a strict order, and a strict order on finitely many nodes is
    -- well-founded.
    let below : ι → ι → Prop := fun a b => ReflTransGen r x b ∧ TransGen r b a
    have : IsTrans ι below := ⟨fun _ _ _ hab hbc => ⟨hbc.1, hbc.2.trans hab.2⟩⟩
    have : Std.Irrefl below := ⟨fun a ha => hno a ha.1 ha.2⟩
    have hwf : WellFounded below := Finite.wellFounded_of_trans_of_irrefl below
    have hacc : ∀ y, ReflTransGen r x y → Acc (fun a b => r b a) y := by
      intro y
      induction y using hwf.induction with
      | _ y ih =>
        intro hreach
        constructor
        intro z hz
        exact ih z ⟨hreach, .single hz⟩ (hreach.tail hz)
    exact hacc x .refl

end Cycles

inductive Cell (ι ε β : Type) where
  | leaf (value : β)
  | refused (error : ε)
  | ref (id : ι)

section Copies
variable {ι ε β : Type} (cells : ι → List (Cell ι ε β)) (build : List β → β)

def copyAll (copyOne : Cell ι ε β → Bounded ε β) : List (Cell ι ε β) → Bounded ε (List β)
  | [] => some (.ok [])
  | cell :: rest =>
    (copyOne cell).andThen fun value =>
      (copyAll copyOne rest).andThen fun values => some (.ok (value :: values))

def copy : (depth : Nat) → Cell ι ε β → Bounded ε β
  | _, .leaf value => some (.ok value)
  | _, .refused error => some (.error error)
  | 0, .ref _ => none
  | depth + 1, .ref id =>
    (copyAll (copy depth) (cells id)).andThen fun values => some (.ok (build values))

def Refers (x y : ι) : Prop := Cell.ref y ∈ cells x

/-- Below the cell nothing is refused and no node holds itself. -/
def Whole : Cell ι ε β → Prop
  | .leaf _ => True
  | .refused _ => False
  | .ref x => ∀ y, ReflTransGen (Refers cells) x y →
      (∀ error, .refused error ∉ cells y) ∧ ¬ TransGen (Refers cells) y y

/-- Node `x` holds a reference to `y`, and every cell before it is whole. -/
def Enters (x y : ι) : Prop :=
  ∃ before after, cells x = before ++ .ref y :: after ∧ ∀ cell ∈ before, Whole cells cell

/-- No node is met again within itself, among those entered from the cell. -/
def NeverReenters (cell : Cell ι ε β) : Prop :=
  ∀ x, cell = .ref x → ∀ y, ReflTransGen (Enters cells) x y → ¬ TransGen (Enters cells) y y

/-- The value stands for the cell, with every reference replaced by what it stands for. -/
inductive Unfolds : Cell ι ε β → β → Prop where
  | leaf (value : β) : Unfolds (.leaf value) value
  | ref {x : ι} {values : List β} :
      List.Forall₂ Unfolds (cells x) values → Unfolds (.ref x) (build values)

/-- The error is the one of a refused cell at or below the cell. -/
def Refuses (error : ε) : Cell ι ε β → Prop
  | .leaf _ => False
  | .refused other => other = error
  | .ref x => ∃ y, ReflTransGen (Refers cells) x y ∧ .refused error ∈ cells y

variable {cells build}

@[simp] theorem copy_leaf (depth : Nat) (value : β) :
    copy cells build depth (.leaf value) = some (.ok value) := by
  cases depth <;> rfl

@[simp] theorem copy_refused (depth : Nat) (error : ε) :
    copy cells build depth (.refused error) = some (.error error) := by
  cases depth <;> rfl

/-- Induction on the depth, with the cells of a node at the depth below it. -/
@[elab_as_elim]
theorem copy_induct {motive : Nat → Cell ι ε β → Prop}
    (leaf : ∀ depth value, motive depth (.leaf value))
    (refused : ∀ depth error, motive depth (.refused error))
    (shallow : ∀ x, motive 0 (.ref x))
    (deeper : ∀ depth x, (∀ cell, motive depth cell) → motive (depth + 1) (.ref x))
    (depth : Nat) (cell : Cell ι ε β) : motive depth cell := by
  induction depth generalizing cell with
  | zero =>
    cases cell with
    | leaf value => exact leaf 0 value
    | refused error => exact refused 0 error
    | ref x => exact shallow x
  | succ depth ih =>
    cases cell with
    | leaf value => exact leaf (depth + 1) value
    | refused error => exact refused (depth + 1) error
    | ref x => exact deeper depth x ih

theorem copyAll_mono {f g : Cell ι ε β → Bounded ε β}
    (hfg : ∀ cell r, f cell = some r → g cell = some r) {cs : List (Cell ι ε β)}
    {r : Except ε (List β)} (h : copyAll f cs = some r) : copyAll g cs = some r := by
  induction cs generalizing r with
  | nil => exact h
  | cons cell rest ih =>
    unfold copyAll at h ⊢
    match hcell : f cell with
    | none =>
      rw [hcell] at h
      cases h
    | some (.error error) =>
      rw [hcell] at h
      rw [hfg cell _ hcell]
      exact h
    | some (.ok value) =>
      rw [hcell] at h
      rw [hfg cell _ hcell]
      simp only [Bounded.ok_andThen] at h ⊢
      cases hrest : copyAll f rest with
      | none =>
        rw [hrest] at h
        cases h
      | some later =>
        rw [hrest] at h
        rw [ih hrest]
        exact h

theorem copy_succ {depth : Nat} {cell : Cell ι ε β} {r : Except ε β}
    (h : copy cells build depth cell = some r) : copy cells build (depth + 1) cell = some r := by
  induction depth, cell using copy_induct generalizing r with
  | leaf depth value =>
    rw [copy_leaf] at h ⊢
    exact h
  | refused depth error =>
    rw [copy_refused] at h ⊢
    exact h
  | shallow x => cases h
  | deeper depth x ih =>
    unfold copy at h ⊢
    cases hcells : copyAll (copy cells build depth) (cells x) with
    | none =>
      rw [hcells] at h
      cases h
    | some later =>
      rw [hcells] at h
      rw [copyAll_mono (fun cell r => ih cell) hcells]
      exact h

theorem copy_mono {depth deeper : Nat} (hle : depth ≤ deeper) {cell : Cell ι ε β}
    {r : Except ε β} (h : copy cells build depth cell = some r) :
    copy cells build deeper cell = some r := by
  induction hle with
  | refl => exact h
  | step _ ih => exact copy_succ ih

theorem copy_unique {depth other : Nat} {cell : Cell ι ε β} {r r' : Except ε β}
    (h : copy cells build depth cell = some r) (h' : copy cells build other cell = some r') :
    r = r' := by
  have hleft := copy_mono (Nat.le_max_left depth other) h
  have hright := copy_mono (Nat.le_max_right depth other) h'
  exact Option.some.inj (hleft.symm.trans hright)

theorem copyAll_eq_ok {f : Cell ι ε β → Bounded ε β} {cs : List (Cell ι ε β)} {values : List β} :
    copyAll f cs = some (.ok values) ↔
      List.Forall₂ (fun cell value => f cell = some (.ok value)) cs values := by
  induction cs generalizing values with
  | nil => simp [copyAll, eq_comm]
  | cons cell rest ih =>
    simp only [copyAll, Bounded.andThen_eq_ok, ih]
    constructor
    · intro h
      obtain ⟨value, hvalue, later, hlater, heq⟩ := h
      cases heq
      exact .cons hvalue hlater
    · intro h
      cases h with
      | cons hvalue hlater => exact ⟨_, hvalue, _, hlater, rfl⟩

/-- What is returned unfolds the cell. -/
theorem copy_unfolds {depth : Nat} {cell : Cell ι ε β} {value : β}
    (h : copy cells build depth cell = some (.ok value)) : Unfolds cells build cell value := by
  induction depth, cell using copy_induct generalizing value with
  | leaf depth value =>
    rw [copy_leaf] at h
    cases h
    exact .leaf value
  | refused depth error =>
    rw [copy_refused] at h
    cases h
  | shallow x => cases h
  | deeper depth x ih =>
    unfold copy at h
    obtain ⟨values, hcells, heq⟩ := Bounded.andThen_eq_ok.mp h
    cases heq
    exact .ref ((copyAll_eq_ok.mp hcells).imp fun cell _ => ih cell)

theorem Enters.refers {x y : ι} (h : Enters cells x y) : Refers cells x y := by
  obtain ⟨before, after, hcells, -⟩ := h
  unfold Refers
  rw [hcells]
  exact List.mem_append_right before List.mem_cons_self

theorem refuses_ref {error : ε} {x : ι} {cell : Cell ι ε β} (hmem : cell ∈ cells x)
    (h : Refuses cells error cell) : Refuses cells error (.ref x) := by
  cases cell with
  | leaf value => cases h
  | refused other => exact ⟨x, .refl, h ▸ hmem⟩
  | ref y =>
    obtain ⟨z, hreach, hrefused⟩ := h
    exact ⟨z, .head hmem hreach, hrefused⟩

theorem copyAll_eq_error {f : Cell ι ε β → Bounded ε β} {cs : List (Cell ι ε β)} {error : ε}
    (h : copyAll f cs = some (.error error)) : ∃ cell ∈ cs, f cell = some (.error error) := by
  induction cs with
  | nil => cases h
  | cons cell rest ih =>
    obtain hcell | ⟨value, -, hlater⟩ := Bounded.andThen_eq_error.mp h
    · exact ⟨cell, List.mem_cons_self, hcell⟩
    · obtain hrest | ⟨values, -, hnone⟩ := Bounded.andThen_eq_error.mp hlater
      · obtain ⟨other, hmem, hother⟩ := ih hrest
        exact ⟨other, List.mem_cons_of_mem cell hmem, hother⟩
      · cases hnone

theorem copy_refuses {depth : Nat} {cell : Cell ι ε β} {error : ε}
    (h : copy cells build depth cell = some (.error error)) : Refuses cells error cell := by
  induction depth, cell using copy_induct with
  | leaf depth value =>
    rw [copy_leaf] at h
    cases h
  | refused depth other =>
    rw [copy_refused] at h
    cases h
    rfl
  | shallow x => cases h
  | deeper depth x ih =>
    unfold copy at h
    obtain hcells | ⟨values, -, hnone⟩ := Bounded.andThen_eq_error.mp h
    · obtain ⟨cell, hmem, hcell⟩ := copyAll_eq_error hcells
      exact refuses_ref hmem (ih cell hcell)
    · cases hnone

theorem whole_ref_iff {x : ι} : Whole cells (.ref x) ↔ ∀ cell ∈ cells x, Whole cells cell := by
  constructor
  · intro hwhole cell hmem
    cases cell with
    | leaf value => trivial
    | refused error => exact (hwhole x .refl).1 error hmem
    | ref y => exact fun z hreach => hwhole z (.head hmem hreach)
  · intro hcells
    have hbelow : ∀ y z, Refers cells x y → ReflTransGen (Refers cells) y z →
        (∀ error, .refused error ∉ cells z) ∧ ¬ TransGen (Refers cells) z z :=
      fun y z hmem hreach => hcells (.ref y) hmem z hreach
    intro z hreach
    obtain rfl | ⟨y, hmem, hrest⟩ := hreach.cases_head
    · constructor
      · exact fun error hrefused => hcells _ hrefused
      · intro hcycle
        obtain ⟨y, hmem, hback⟩ := TransGen.head'_iff.mp hcycle
        exact (hbelow y _ hmem hback).2 hcycle
    · exact hbelow y z hmem hrest

theorem copyAll_ok_mem {f : Cell ι ε β → Bounded ε β} {cs : List (Cell ι ε β)} {values : List β}
    (h : copyAll f cs = some (.ok values)) {cell : Cell ι ε β} (hmem : cell ∈ cs) :
    ∃ value, f cell = some (.ok value) := by
  have hall := copyAll_eq_ok.mp h
  induction hall with
  | nil => cases hmem
  | cons hvalue hrest ih =>
    cases hmem with
    | head => exact ⟨_, hvalue⟩
    | tail _ hmem => exact ih (copyAll_eq_ok.mpr hrest) hmem

theorem whole_of_copy {depth : Nat} {cell : Cell ι ε β} {value : β}
    (h : copy cells build depth cell = some (.ok value)) : Whole cells cell := by
  induction depth, cell using copy_induct generalizing value with
  | leaf depth value => trivial
  | refused depth error =>
    rw [copy_refused] at h
    cases h
  | shallow x => cases h
  | deeper depth x ih =>
    unfold copy at h
    obtain ⟨values, hcells, -⟩ := Bounded.andThen_eq_ok.mp h
    apply whole_ref_iff.mpr
    intro cell hmem
    obtain ⟨value, hvalue⟩ := copyAll_ok_mem hcells hmem
    exact ih cell hvalue

theorem copyAll_total {cs : List (Cell ι ε β)}
    (h : ∀ cell ∈ cs, ∃ depth value, copy cells build depth cell = some (.ok value)) :
    ∃ depth values, copyAll (copy cells build depth) cs = some (.ok values) := by
  induction cs with
  | nil => exact ⟨0, [], rfl⟩
  | cons cell rest ih =>
    obtain ⟨⟨d, value, hvalue⟩, hrest⟩ := List.forall_mem_cons.mp h
    obtain ⟨e, values, hvalues⟩ := ih hrest
    have hfirst := copy_mono (Nat.le_max_left d e) hvalue
    have hlater := copyAll_mono (fun _ _ => copy_mono (Nat.le_max_right d e)) hvalues
    refine ⟨max d e, value :: values, ?_⟩
    rw [copyAll, hfirst, Bounded.ok_andThen, hlater]
    rfl

theorem whole_iff_copy [Finite ι] {cell : Cell ι ε β} :
    Whole cells cell ↔ ∃ depth value, copy cells build depth cell = some (.ok value) := by
  constructor
  · intro hwhole
    cases cell with
    | leaf value => exact ⟨0, value, rfl⟩
    | refused error => cases hwhole
    | ref x =>
      have hacc := acc_iff_no_cycle.mpr fun y hreach => (hwhole y hreach).2
      induction hacc with
      | intro x _ ih =>
        have hcells : ∀ cell ∈ cells x,
            ∃ depth value, copy cells build depth cell = some (.ok value) := by
          intro cell hmem
          have hcell := whole_ref_iff.mp hwhole cell hmem
          cases cell with
          | leaf value => exact ⟨0, value, rfl⟩
          | refused error => cases hcell
          | ref y => exact ih y hmem hcell
        obtain ⟨depth, values, hvalues⟩ := copyAll_total hcells
        refine ⟨depth + 1, build values, ?_⟩
        rw [copy, hvalues]
        rfl
  · intro h
    obtain ⟨depth, value, hvalue⟩ := h
    exact whole_of_copy hvalue

/-- A copy that returns has entered what comes after whole cells. -/
theorem copyAll_enters [Finite ι] {depth : Nat} {before after : List (Cell ι ε β)}
    {cell : Cell ι ε β} {r : Except ε (List β)} (hbefore : ∀ c ∈ before, Whole cells c)
    (h : copyAll (copy cells build depth) (before ++ cell :: after) = some r) :
    ∃ r', copy cells build depth cell = some r' := by
  induction before generalizing r with
  | nil =>
    cases hcell : copy cells build depth cell with
    | none =>
      rw [List.nil_append, copyAll, hcell] at h
      cases h
    | some r' => exact ⟨r', rfl⟩
  | cons first before ih =>
    obtain ⟨hfirst, hrest⟩ := List.forall_mem_cons.mp hbefore
    have hcopy : ∃ depth value, copy cells build depth first = some (.ok value) :=
      whole_iff_copy.mp hfirst
    obtain ⟨d, value, hvalue⟩ := hcopy
    rw [List.cons_append, copyAll] at h
    cases hcopied : copy cells build depth first with
    | none =>
      rw [hcopied] at h
      cases h
    | some other =>
      have hsame := copy_unique hcopied hvalue
      rw [hcopied, hsame, Bounded.ok_andThen] at h
      cases hlater : copyAll (copy cells build depth) (before ++ cell :: after) with
      | none =>
        rw [hlater] at h
        cases h
      | some later => exact ih hrest hlater

theorem copyAll_returns (before after : List (Cell ι ε β)) (hbefore : ∀ c ∈ before, Whole cells c)
    (henter : ∀ front y rest, before ++ after = front ++ .ref y :: rest →
      (∀ c ∈ front, Whole cells c) → ∃ depth r, copy cells build depth (.ref y) = some r) :
    ∃ depth r, copyAll (copy cells build depth) after = some r := by
  induction after generalizing before with
  | nil => exact ⟨0, .ok [], rfl⟩
  | cons cell rest ih =>
    have hfirst : ∃ depth r, copy cells build depth cell = some r := by
      cases cell with
      | leaf value => exact ⟨0, .ok value, rfl⟩
      | refused error => exact ⟨0, .error error, rfl⟩
      | ref y => exact henter before y rest rfl hbefore
    obtain ⟨d, r, hr⟩ := hfirst
    cases r with
    | error error =>
      refine ⟨d, .error error, ?_⟩
      rw [copyAll, hr, Bounded.error_andThen]
    | ok value =>
      have hsplit : before ++ cell :: rest = (before ++ [cell]) ++ rest := by simp
      rw [hsplit] at henter
      have hwhole : ∀ c ∈ before ++ [cell], Whole cells c :=
        List.forall_mem_append.mpr ⟨hbefore, List.forall_mem_singleton.mpr (whole_of_copy hr)⟩
      obtain ⟨e, later, hlater⟩ := ih (before ++ [cell]) hwhole henter
      have hfirst := copy_mono (Nat.le_max_left d e) hr
      have hrest := copyAll_mono (fun _ _ => copy_mono (Nat.le_max_right d e)) hlater
      refine ⟨max d e, later.map (value :: ·), ?_⟩
      rw [copyAll, hfirst, Bounded.ok_andThen, hrest]
      cases later <;> rfl

/-- A copy of a node returns exactly when no node is met again within itself, entered on the
way and again from there. -/
theorem copy_returns_iff [Finite ι] {x : ι} :
    (∃ depth r, copy cells build depth (.ref x) = some r) ↔
      ∀ y, ReflTransGen (Enters cells) x y → ¬ TransGen (Enters cells) y y := by
  rw [← acc_iff_no_cycle]
  constructor
  · intro h
    obtain ⟨depth, r, h⟩ := h
    induction depth generalizing x r with
    | zero => cases h
    | succ depth ih =>
      constructor
      intro y hy
      obtain ⟨before, after, hcells, hbefore⟩ := hy
      cases hall : copyAll (copy cells build depth) (cells x) with
      | none =>
        rw [copy, hall] at h
        cases h
      | some r' =>
        rw [hcells] at hall
        obtain ⟨result, hresult⟩ := copyAll_enters hbefore hall
        exact ih result hresult
  · intro hacc
    induction hacc with
    | intro x _ ih =>
      obtain ⟨depth, r, hr⟩ := copyAll_returns [] (cells x) nofun
        fun front y rest heq hfront => ih y ⟨front, rest, heq, hfront⟩
      refine ⟨depth + 1, r.map build, ?_⟩
      rw [copy, hr]
      cases r <;> rfl

theorem returns_iff_neverReenters [Finite ι] {cell : Cell ι ε β} :
    (∃ depth r, copy cells build depth cell = some r) ↔ NeverReenters cells cell := by
  cases cell with
  | leaf value => exact iff_of_true ⟨0, .ok value, rfl⟩ (fun x heq => nomatch heq)
  | refused error => exact iff_of_true ⟨0, .error error, rfl⟩ (fun x heq => nomatch heq)
  | ref x =>
    rw [copy_returns_iff]
    constructor
    · intro h y heq
      cases heq
      exact h
    · intro h
      exact h x rfl

end Copies

end Unfolding
