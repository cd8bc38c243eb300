import Mathlib.Data.List.Basic
import Mathlib.Data.Nat.Basic

/-!
# Word arithmetic and slices

Machine words have 64 bits. An overflowing operation panics in a debug build and
wraps in a release build; a slice past the end panics in both, and a vector never
grows past the signed word limit.
-/

namespace Machine

set_option autoImplicit false

universe u
variable {α : Type u}

inductive Build where
  | debug
  | release
  deriving DecidableEq, Repr

/-- Why a computation does not return: a panic, or a loop bound that ran out. -/
inductive Fault where
  | overflow
  | slice
  | capacity
  | fuel
  deriving DecidableEq, Repr

def word : Nat := 0x10000000000000000

/-- The longest vector in bytes. -/
def vecMax : Nat := 0x7FFFFFFFFFFFFFFF

def Build.add (build : Build) (x y : Nat) : Except Fault Nat :=
  if x + y < word then .ok (x + y)
  else match build with
    | .debug => .error .overflow
    | .release => .ok ((x + y) % word)

def Build.sub (build : Build) (x y : Nat) : Except Fault Nat :=
  if y ≤ x then .ok (x - y)
  else match build with
    | .debug => .error .overflow
    | .release => .ok (x + word - y)

def Build.mul (build : Build) (x y : Nat) : Except Fault Nat :=
  if x * y < word then .ok (x * y)
  else match build with
    | .debug => .error .overflow
    | .release => .ok (x * y % word)

/-- A product that stops at the greatest word. -/
def saturatingMul (x y : UInt64) : UInt64 := UInt64.ofNat (min (x.toNat * y.toNat) (word - 1))

def sliceFrom (xs : List α) (start : Nat) : Except Fault (List α) :=
  if start ≤ xs.length then .ok (xs.drop start) else .error .slice

def slice (xs : List α) (start stop : Nat) : Except Fault (List α) :=
  if start ≤ stop ∧ stop ≤ xs.length then .ok ((xs.drop start).take (stop - start))
  else .error .slice

def extend (xs ys : List α) : Except Fault (List α) :=
  if xs.length + ys.length ≤ vecMax then .ok (xs ++ ys) else .error .capacity

@[simp] theorem ok_bind {ε : Type} {β γ : Type u} (a : β) (f : β → Except ε γ) :
    (Except.ok a >>= f) = f a := rfl

@[simp] theorem error_bind {ε : Type} {β γ : Type u} (e : ε) (f : β → Except ε γ) :
    (Except.error e >>= f) = .error e := rfl

section Map
variable {ε : Type} {β : Type u} {f g : α → β} {r : Except ε α} {b : β}

theorem map_eq_ok : r.map f = .ok b ↔ ∃ a, r = .ok a ∧ f a = b := by
  cases r with
  | error fault => exact iff_of_false nofun nofun
  | ok a =>
    constructor
    · intro h
      exact ⟨a, rfl, Except.ok.inj h⟩
    · rintro ⟨_, ha, rfl⟩
      cases ha
      rfl

theorem bind_eq_ok {γ : Type u} {x : Except ε γ} {h : γ → Except ε β} :
    (x >>= h) = .ok b ↔ ∃ c, x = .ok c ∧ h c = .ok b := by
  cases x with
  | error fault => exact iff_of_false nofun nofun
  | ok c =>
    constructor
    · intro hb
      exact ⟨c, rfl, hb⟩
    · rintro ⟨_, hc, hb⟩
      cases hc
      exact hb

theorem map_eq_map_iff : r.map f = r.map g ↔ ∀ a, r = .ok a → f a = g a := by
  constructor
  · rintro h a rfl
    exact Except.ok.inj h
  · intro h
    cases r with
    | error fault => rfl
    | ok a => exact congrArg Except.ok (h a rfl)

end Map

theorem vecMax_add_lt_word : vecMax + vecMax + 1 < word := by decide

theorem Build.add_eq {x y : Nat} (build : Build) (h : x + y < word) :
    build.add x y = .ok (x + y) := if_pos h

theorem Build.sub_eq {x y : Nat} (build : Build) (h : y ≤ x) :
    build.sub x y = .ok (x - y) := if_pos h

theorem Build.mul_eq {x y : Nat} (build : Build) (h : x * y < word) :
    build.mul x y = .ok (x * y) := if_pos h

theorem toNat_saturatingMul (x y : UInt64) :
    (saturatingMul x y).toNat = min (x.toNat * y.toNat) (word - 1) := by
  apply UInt64.toNat_ofNat_of_lt'
  exact Nat.lt_of_le_of_lt (Nat.min_le_right _ _) (by decide)

theorem Build.add_debug {x y : Nat} (h : word ≤ x + y) :
    Build.debug.add x y = .error .overflow := if_neg (Nat.not_lt.mpr h)

theorem Build.add_release (x y : Nat) : Build.release.add x y = .ok ((x + y) % word) := by
  unfold Build.add
  split
  · rw [Nat.mod_eq_of_lt (by assumption)]
  · rfl

theorem Build.add_ok {build : Build} {x y z : Nat} (h : build.add x y = .ok z)
    (hlt : x + y < word) : z = x + y := by
  rw [build.add_eq hlt] at h
  exact (Except.ok.inj h).symm

theorem Build.add_error {build : Build} {x y : Nat} {fault : Fault}
    (h : build.add x y = .error fault) : word ≤ x + y ∧ fault = .overflow := by
  unfold Build.add at h
  split at h
  · cases h
  · rename_i hbig
    refine ⟨Nat.le_of_not_lt hbig, ?_⟩
    cases build with
    | debug =>
      cases h
      rfl
    | release => cases h

theorem sliceFrom_eq {xs : List α} {start : Nat} (h : start ≤ xs.length) :
    sliceFrom xs start = .ok (xs.drop start) := if_pos h

theorem slice_eq {xs : List α} {start stop : Nat} (h : start ≤ stop) (h' : stop ≤ xs.length) :
    slice xs start stop = .ok ((xs.drop start).take (stop - start)) := if_pos ⟨h, h'⟩

theorem slice_error {xs : List α} {start stop : Nat} (h : stop < start ∨ xs.length < stop) :
    slice xs start stop = .error .slice := if_neg (by omega)

end Machine
