import Mathlib.Algebra.Group.Nat.Defs
import Wrkrs.Library.Machine
import Wrkrs.Library.Text

/-!
# Numbers with units

The scanner of counts and times on the command line. Numbers wrap at the word, signs
included; a unit climbs a ladder of equal steps.
-/

namespace Wrkrs

set_option autoImplicit false

open Machine Text

def scanDigits (digits : Str) : UInt64 :=
  digits.foldl (fun value digit => value * 10 + UInt64.ofNat (digit.toNat - 48)) 0

def scanSign : Str → Bool × Str
  | '+' :: rest => (false, rest)
  | '-' :: rest => (true, rest)
  | rest => (false, rest)

def climb (build : Build) (scale : Nat) (unit : Str) :
    Nat → List Str → Except Fault (Option Nat)
  | _, [] => .ok none
  | multiplier, known :: units => do
    let multiplier ← build.mul multiplier scale
    if eqIgnoreCase unit known then return some multiplier
    else climb build scale unit multiplier units

def multiplier (build : Build) (base : Str) (units : List Str) (scale : Nat) (unit : Str) :
    Except Fault (Option Nat) :=
  if unit = [] then .ok (some 1)
  else if eqIgnoreCase unit base then .ok (some 1)
  else climb build scale unit 1 units

def scanUnits (build : Build) (input base : Str) (units : List Str) (scale : Nat) :
    Except Fault (Option UInt64) := do
  let (negative, rest) := scanSign (input.dropWhile isSpace)
  let digits := rest.takeWhile Char.isDigit
  if digits = [] then return none
  let remainder := (rest.drop digits.length).dropWhile isSpace
  let unit := (remainder.takeWhile fun character => !isSpace character).take 2
  match ← multiplier build base units scale unit with
  | none => return none
  | some multiplier =>
    let value := scanDigits digits * UInt64.ofNat multiplier
    return some (if negative then -value else value)

def metricUnits : List Str := ["k".toList, "M".toList, "G".toList, "T".toList, "P".toList]

def timeUnits : List Str := ["m".toList, "h".toList]

def scanMetric (build : Build) (input : Str) : Except Fault (Option UInt64) :=
  scanUnits build input [] metricUnits 1000

def scanTime (build : Build) (input : Str) : Except Fault (Option UInt64) :=
  scanUnits build input "s".toList timeUnits 60

section Ladders
variable {build : Build} {scale : Nat} {unit : Str} {units : List Str}

theorem climb_total {steps : Nat} (hscale : 0 < scale)
    (hfits : steps * scale ^ units.length < word) :
    ∃ result, climb build scale unit steps units = .ok result := by
  induction units generalizing steps with
  | nil => exact ⟨none, rfl⟩
  | cons known units ih =>
    have hrest : steps * scale * scale ^ units.length < word := by
      rwa [Nat.mul_assoc, ← Nat.pow_succ']
    have hstep : steps * scale < word :=
      Nat.lt_of_le_of_lt (Nat.le_mul_of_pos_right _ (Nat.pow_pos hscale)) hrest
    rw [climb, build.mul_eq hstep, ok_bind]
    by_cases hunit : eqIgnoreCase unit known
    · exact ⟨some (steps * scale), if_pos hunit⟩
    · rw [if_neg hunit]
      exact ih hrest

/-- A scan never panics when the whole ladder fits a word. -/
theorem scanUnits_total (build : Build) (input base : Str) (hscale : 0 < scale)
    (hfits : scale ^ units.length < word) :
    ∃ result, scanUnits build input base units scale = .ok result := by
  have hmultiplier : ∀ unit, ∃ result, multiplier build base units scale unit = .ok result := by
    intro unit
    rw [multiplier]
    split_ifs
    · exact ⟨some 1, rfl⟩
    · exact ⟨some 1, rfl⟩
    · exact climb_total hscale (by rwa [Nat.one_mul])
  rw [scanUnits]
  dsimp only
  by_cases hdigits : (scanSign (input.dropWhile isSpace)).2.takeWhile Char.isDigit = []
  · rw [if_pos hdigits]
    exact ⟨none, rfl⟩
  · rw [if_neg hdigits]
    obtain ⟨result, hresult⟩ := hmultiplier _
    rw [hresult, ok_bind]
    cases result with
    | none => exact ⟨none, rfl⟩
    | some factor => exact ⟨some _, rfl⟩

end Ladders

theorem scanMetric_total (build : Build) (input : Str) :
    ∃ result, scanMetric build input = .ok result :=
  scanUnits_total build input [] (by decide) (by decide)

theorem scanTime_total (build : Build) (input : Str) :
    ∃ result, scanTime build input = .ok result :=
  scanUnits_total build input _ (by decide) (by decide)

example : scanTime .release "-2s".toList = .ok (some 0xFFFFFFFFFFFFFFFE) := by decide

end Wrkrs
