import Mathlib.Algebra.BigOperators.Group.Finset.Piecewise
import Mathlib.Algebra.Order.BigOperators.Group.Finset
import Mathlib.Algebra.Order.Floor.Div
import Mathlib.Order.Interval.Finset.Nat
import Wrkrs.StatsScripts

/-!
# The correction as a snapshot

The correction changes the buckets that it reads. Counts that no width bounds say what it
amounts to: every value above the interval gains what the histogram held before at the
values whole intervals above it.
-/

namespace Wrkrs

set_option autoImplicit false

open Machine

namespace Histogram

/-- The count of a value, zero where there is no bucket. -/
def held (h : Histogram) (value : Nat) : Nat := (h.data[value]?.map UInt64.toNat).getD 0

/-- The words of a histogram show counts that no width bounds. -/
structure Tallies (counts : Nat → Nat) (h : Histogram) : Prop where
  bucket : ∀ value < h.limit, h.data[value]? = some (UInt64.ofNat (counts value))
  outside : ∀ value, h.limit ≤ value → counts value = 0
  count : h.count = UInt64.ofNat (∑ value ∈ Finset.range h.limit, counts value)

section Adding
variable {h : Histogram} {counts : Nat → Nat}

theorem sum_plus (counts : Nat → Nat) {index limit : Nat} (hindex : index < limit) (c : Nat) :
    ∑ v ∈ Finset.range limit, (counts v + if v = index then c else 0) =
      ∑ v ∈ Finset.range limit, counts v + c := by
  rw [Finset.sum_add_distrib, Finset.sum_ite_eq' (Finset.range limit) index fun _ => c,
    if_pos (Finset.mem_range.mpr hindex)]

theorem modify_tallies (ht : Tallies counts h) {index : Nat} (hindex : index < h.limit) (c : Nat)
    {value : Nat} (hvalue : value < h.limit) :
    (h.data.modify index (· + UInt64.ofNat c))[value]? =
      some (UInt64.ofNat (counts value + if value = index then c else 0)) := by
  rw [List.getElem?_modify, ht.bucket value hvalue]
  by_cases hsame : value = index
  · subst hsame
    simp only [if_true, UInt64.ofNat_add]
    rfl
  · have hother : ¬ index = value := fun heq => hsame heq.symm
    simp only [if_neg hsame, if_neg hother]
    rfl

theorem outside_plus (ht : Tallies counts h) {index : Nat} (hindex : index < h.limit) (c : Nat)
    {value : Nat} (hvalue : h.limit ≤ value) :
    (counts value + if value = index then c else 0) = 0 := by
  have hne : value ≠ index := fun heq => Nat.not_lt.mpr hvalue (heq ▸ hindex)
  rw [ht.outside value hvalue, if_neg hne]

theorem sum_tallies (ht : Tallies counts h) {index : Nat} (hindex : index < h.limit) (c : Nat) :
    h.count + UInt64.ofNat c = UInt64.ofNat
      (∑ v ∈ Finset.range h.limit, (counts v + if v = index then c else 0)) := by
  rw [sum_plus counts hindex, UInt64.ofNat_add, ← ht.count]

theorem Tallies.add (ht : Tallies counts h) {index : Nat} (hindex : index < h.limit) (c : Nat) :
    ∃ h', h.add index (UInt64.ofNat c) = .ok h' ∧ SameRange h h' ∧
      Tallies (fun value => counts value + if value = index then c else 0) h' := by
  refine ⟨_, if_pos hindex, ⟨rfl, rfl, rfl⟩, ?_, ?_, ?_⟩
  · intro value hvalue
    exact modify_tallies ht hindex c hvalue
  · intro value hvalue
    exact outside_plus ht hindex c hvalue
  · exact sum_tallies ht hindex c

theorem Tallies.record (ht : Tallies counts h) (value : Nat) :
    Tallies (fun v => counts v + if v = value ∧ value < h.limit then 1 else 0)
      (h.record value).2 := by
  rw [Histogram.record]
  by_cases hvalue : h.limit ≤ value
  · have hsame : (fun v => counts v + if v = value ∧ value < h.limit then 1 else 0) = counts := by
      funext v
      rw [if_neg fun hand => Nat.not_lt.mpr hvalue hand.2]
      rfl
    rw [if_pos hvalue, hsame]
    exact ht
  · have hless : value < h.limit := Nat.lt_of_not_le hvalue
    simp only [if_neg hvalue, hless, and_true]
    constructor
    · intro v hv
      exact modify_tallies ht hless 1 hv
    · intro v hv
      exact outside_plus ht hless 1 hv
    · exact sum_tallies ht hless 1

theorem record_limit (h : Histogram) (value : Nat) : (h.record value).2.limit = h.limit := by
  rw [Histogram.record]
  by_cases hvalue : h.limit ≤ value
  · rw [if_pos hvalue]
  · rw [if_neg hvalue]

theorem above_record {value v : Nat} (hv : (h.record value).2.max < v) :
    h.max < v ∧ ¬ (v = value ∧ value < h.limit) := by
  rw [Histogram.record] at hv
  by_cases hvalue : h.limit ≤ value
  · rw [if_pos hvalue] at hv
    exact ⟨hv, fun hand => Nat.not_lt.mpr hvalue hand.2⟩
  · rw [if_neg hvalue] at hv
    change (if h.max < value then value else h.max) < v at hv
    split_ifs at hv <;> omega

theorem below_record {value v : Nat} (hv : v < (h.record value).2.min) :
    v < h.min ∧ ¬ (v = value ∧ value < h.limit) := by
  rw [Histogram.record] at hv
  by_cases hvalue : h.limit ≤ value
  · rw [if_pos hvalue] at hv
    exact ⟨hv, fun hand => Nat.not_lt.mpr hvalue hand.2⟩
  · rw [if_neg hvalue] at hv
    change v < (if value < h.min then value else h.min) at hv
    split_ifs at hv <;> omega

end Adding

def Mirrored (step index b : Nat) : Prop := step < b ∧ b ≤ index ∧ step ∣ index - b

instance (step index b : Nat) : Decidable (Mirrored step index b) :=
  inferInstanceAs (Decidable (_ ∧ _ ∧ _))

section Mirroring
variable {h : Histogram} {counts : Nat → Nat} {step index b : Nat}

theorem mirrored_next (hindex : step < index) :
    Mirrored step index b ↔ b = index ∨ Mirrored step (index - step) b := by
  constructor
  · rintro ⟨habove, hle, hdvd⟩
    by_cases hsame : b = index
    · exact .inl hsame
    · have hfar : step ≤ index - b := Nat.le_of_dvd (by omega) hdvd
      refine .inr ⟨habove, by omega, ?_⟩
      have hback : index - step - b = index - b - step := Nat.sub_right_comm index step b
      rw [hback]
      exact Nat.dvd_sub hdvd (Nat.dvd_refl step)
  · rintro (rfl | ⟨habove, hle, hdvd⟩)
    · exact ⟨hindex, Nat.le_refl b, by rw [Nat.sub_self]; exact Nat.dvd_zero step⟩
    · refine ⟨habove, by omega, ?_⟩
      have hforth : index - b = index - step - b + step := by omega
      rw [hforth]
      exact Nat.dvd_add hdvd (Nat.dvd_refl step)

theorem not_mirrored (hindex : index ≤ step) : ¬ Mirrored step index b := by
  rintro ⟨habove, hle, -⟩
  omega

theorem mirrored_split (hstep : 0 < step) (hindex : step < index) (c : Nat) :
    (if Mirrored step index b then c else 0) =
      (if b = index then c else 0) + if Mirrored step (index - step) b then c else 0 := by
  by_cases hsame : b = index
  · have hbelow : ¬ Mirrored step (index - step) b := by
      rintro ⟨-, hle, -⟩
      omega
    rw [if_pos ((mirrored_next hindex).mpr (.inl hsame)), if_pos hsame, if_neg hbelow]
    rfl
  · have hiff : Mirrored step index b ↔ Mirrored step (index - step) b := by
      rw [mirrored_next hindex]
      exact or_iff_right hsame
    rw [if_neg hsame, Nat.zero_add]
    simp only [hiff]

theorem Tallies.mirror (hstep : 0 < step) (c : Nat) (fuel : Nat) (hfuel : index ≤ fuel)
    (hindex : index < h.limit) (ht : Tallies counts h) :
    ∃ h', mirror step (UInt64.ofNat c) fuel index h = .ok h' ∧ SameRange h h' ∧
      Tallies (fun b => counts b + if Mirrored step index b then c else 0) h' := by
  have hnone : index ≤ step →
      Tallies (fun b => counts b + if Mirrored step index b then c else 0) h := by
    intro hle
    simp only [if_neg (not_mirrored hle), Nat.add_zero]
    exact ht
  induction fuel generalizing index h counts with
  | zero => exact ⟨h, rfl, .refl h, hnone (Nat.le_trans hfuel (Nat.zero_le _))⟩
  | succ fuel ih =>
    rw [Histogram.mirror]
    by_cases hlt : step < index
    · obtain ⟨added, hadd, hrange, hadded⟩ := ht.add hindex c
      have hnext : index - step < added.limit := by
        rw [hrange.limit]
        omega
      obtain ⟨h', hmirror, hrest, hcounts⟩ := ih (by omega) hnext hadded (by
        intro hle
        simp only [if_neg (not_mirrored hle), Nat.add_zero]
        exact hadded)
      refine ⟨h', ?_, hrange.trans hrest, ?_⟩
      · rw [if_pos hlt, hadd]
        exact hmirror
      · simp only [mirrored_split hstep hlt, ← Nat.add_assoc]
        exact hcounts
    · exact ⟨h, if_neg hlt, .refl h, hnone (Nat.le_of_not_lt hlt)⟩

theorem sum_mirrored (hstep : 0 < step) {limit : Nat} (hindex : index < limit) (c : Nat) :
    ∑ b ∈ Finset.range limit, (if Mirrored step index b then c else 0) =
      c * ((index - 1) / step) := by
  induction index using Nat.strong_induction_on with
  | _ index ih =>
    by_cases hlt : step < index
    · have hnext := ih (index - step) (by omega) (by omega)
      have hdiv : (index - 1) / step = (index - step - 1) / step + 1 := by
        rw [← Nat.add_div_right _ hstep]
        congr 1
        omega
      simp only [mirrored_split hstep hlt, Finset.sum_add_distrib, hnext]
      rw [Finset.sum_ite_eq' (Finset.range limit) index fun _ => c,
        if_pos (Finset.mem_range.mpr hindex), hdiv, Nat.mul_succ, Nat.add_comm]
    · have hnone : ∀ b, ¬ Mirrored step index b := fun b => not_mirrored (Nat.le_of_not_lt hlt)
      have hdiv : (index - 1) / step = 0 := Nat.div_eq_of_lt (by omega)
      simp only [if_neg (hnone _), Finset.sum_const_zero, hdiv, Nat.mul_zero]

/-- A count that shows as zero changes no word wherever it is added. -/
theorem Tallies.silent (ht : Tallies counts h) {c : Nat} (hc : UInt64.ofNat c = 0)
    (hindex : index < h.limit) (hstep : 0 < step) :
    Tallies (fun b => counts b + if Mirrored step index b then c else 0) h := by
  constructor
  · intro b hb
    rw [ht.bucket b hb]
    by_cases hmirrored : Mirrored step index b
    · rw [if_pos hmirrored, UInt64.ofNat_add, hc, UInt64.add_zero]
    · rw [if_neg hmirrored, Nat.add_zero]
  · intro b hb
    have hnone : ¬ Mirrored step index b := by
      rintro ⟨-, hle, -⟩
      omega
    rw [ht.outside b hb, if_neg hnone]
  · rw [Finset.sum_add_distrib, sum_mirrored hstep hindex, UInt64.ofNat_add, UInt64.ofNat_mul, hc,
      UInt64.zero_mul, UInt64.add_zero]
    exact ht.count

end Mirroring

/-- What a value gains from the counts of others. -/
def gains (step : Nat) (counts : Nat → Nat) (values : List Nat) (b : Nat) : Nat :=
  (values.map fun value => if Mirrored step (value - step) b then counts value else 0).sum

section Correcting
variable {h : Histogram} {counts : Nat → Nat} {step : Nat}

/-- A count only goes below its value, so that no later value is read changed. -/
theorem gains_later {value : Nat} {values : List Nat} (hlater : ∀ v ∈ values, value < v)
    (c b : Nat) :
    gains step (fun v => counts v + if Mirrored step (value - step) v then c else 0) values b =
      gains step counts values b := by
  unfold gains
  congr 1
  apply List.map_congr_left
  intro v hv
  have hnone : ¬ Mirrored step (value - step) v := by
    have hless := hlater v hv
    rintro ⟨-, hle, -⟩
    omega
  simp only [if_neg hnone, Nat.add_zero]

theorem Tallies.correctFrom (hstep : 0 < step) {values : List Nat}
    (hsorted : values.Pairwise (· < ·)) (hvalues : ∀ value ∈ values, value < h.limit)
    (ht : Tallies counts h) :
    ∃ h', correctFrom step values h = .ok h' ∧ SameRange h h' ∧
      Tallies (fun b => counts b + gains step counts values b) h' := by
  induction values generalizing h counts with
  | nil => exact ⟨h, rfl, .refl h, ht⟩
  | cons value rest ih =>
    obtain ⟨hlater, hrest⟩ := List.pairwise_cons.mp hsorted
    have hvalue : value < h.limit := hvalues value List.mem_cons_self
    have hindex : value - step < h.limit := Nat.lt_of_le_of_lt (Nat.sub_le value step) hvalue
    have hread : h.bucket value = .ok (UInt64.ofNat (counts value)) :=
      bucket_get.mpr (ht.bucket value hvalue)
    obtain ⟨mirrored, hnext, hrange, hcounts⟩ : ∃ mirrored,
        Histogram.correctFrom step (value :: rest) h = Histogram.correctFrom step rest mirrored ∧
        SameRange h mirrored ∧ Tallies (fun b => counts b +
          if Mirrored step (value - step) b then counts value else 0) mirrored := by
      rw [Histogram.correctFrom, hread, ok_bind]
      by_cases hzero : UInt64.ofNat (counts value) = 0
      · refine ⟨h, ?_, .refl h, ht.silent hzero hindex hstep⟩
        simp only [hzero, ne_eq, not_true_eq_false, if_false, ok_bind]
      · obtain ⟨mirrored, hmirror, hrange, hcounts⟩ := ht.mirror hstep (counts value) value
          (Nat.sub_le value step) hindex
        refine ⟨mirrored, ?_, hrange, hcounts⟩
        simp only [ne_eq, hzero, not_false_eq_true, if_true, hmirror, ok_bind]
    have hbelow : ∀ v ∈ rest, v < mirrored.limit := by
      intro v hv
      rw [hrange.limit]
      exact hvalues v (List.mem_cons_of_mem value hv)
    obtain ⟨h', hcorrect, hsame, htallies⟩ := ih hrest hbelow hcounts
    refine ⟨h', hnext.trans hcorrect, hrange.trans hsame, ?_⟩
    simp only [gains_later hlater] at htallies
    have hgains : ∀ b, gains step counts (value :: rest) b =
        (if Mirrored step (value - step) b then counts value else 0) +
          gains step counts rest b := fun b => List.sum_cons
    simp only [hgains, ← Nat.add_assoc]
    exact htallies

end Correcting

/-- The corrected count of a value, from the counts before the correction. -/
def snapshot (step max : Nat) (counts : Nat → Nat) (b : Nat) : Nat :=
  counts b + if step < b then
    ∑ k ∈ Finset.range (max + 1) with
      1 ≤ k ∧ 2 * step ≤ b + k * step ∧ b + k * step ≤ max, counts (b + k * step)
  else 0

def corrected (step max : Nat) : List Nat := List.range' (2 * step) (max + 1 - 2 * step)

section Snapshot
variable {h : Histogram} {counts : Nat → Nat} {step max : Nat}

theorem mem_corrected {value : Nat} :
    value ∈ corrected step max ↔ 2 * step ≤ value ∧ value ≤ max := by
  rw [corrected, List.mem_range'_1]
  omega

theorem corrected_sorted : (corrected step max).Pairwise (· < ·) := List.pairwise_lt_range'

theorem gains_eq_sum (b : Nat) : gains step counts (corrected step max) b =
    ∑ value ∈ Finset.Icc (2 * step) max,
      if Mirrored step (value - step) b then counts value else 0 := rfl

/-- A value is mirrored to `b` when it lies whole steps above it. -/
theorem mirrored_iff {value b : Nat} (hvalue : step < value) :
    Mirrored step (value - step) b ↔ step < b ∧ ∃ k, 1 ≤ k ∧ value = b + k * step := by
  constructor
  · rintro ⟨habove, hle, k, hk⟩
    refine ⟨habove, k + 1, Nat.le_add_left 1 k, ?_⟩
    rw [Nat.succ_mul, Nat.mul_comm k step, ← hk]
    omega
  · rintro ⟨habove, k, hk, rfl⟩
    obtain ⟨j, rfl⟩ := Nat.exists_eq_add_of_le' hk
    have hback : b + (j + 1) * step - step - b = j * step := by
      rw [Nat.succ_mul]
      omega
    refine ⟨habove, ?_, ?_⟩
    · rw [Nat.succ_mul]
      omega
    · rw [hback]
      exact Nat.dvd_mul_left step j

theorem snapshot_eq (hstep : 0 < step) (b : Nat) :
    counts b + gains step counts (corrected step max) b = snapshot step max counts b := by
  rw [gains_eq_sum, snapshot, ← Finset.sum_filter]
  congr 1
  by_cases habove : step < b
  · rw [if_pos habove]
    symm
    apply Finset.sum_nbij fun k => b + k * step
    · intro k hk
      obtain ⟨-, hone, hlow, hhigh⟩ := Finset.mem_filter.mp hk
      refine Finset.mem_filter.mpr ⟨Finset.mem_Icc.mpr ⟨hlow, hhigh⟩, ?_⟩
      exact (mirrored_iff (by omega)).mpr ⟨habove, k, hone, rfl⟩
    · intro k _ j _ hsame
      exact Nat.eq_of_mul_eq_mul_right hstep (Nat.add_left_cancel hsame)
    · intro value hvalue
      obtain ⟨hmem, hmirrored⟩ := Finset.mem_filter.mp hvalue
      obtain ⟨hlow, hhigh⟩ := Finset.mem_Icc.mp hmem
      obtain ⟨-, k, hone, rfl⟩ := (mirrored_iff (by omega)).mp hmirrored
      have hk : k ≤ k * step := Nat.le_mul_of_pos_right k hstep
      refine ⟨k, Finset.mem_coe.mpr (Finset.mem_filter.mpr ⟨?_, hone, hlow, hhigh⟩), rfl⟩
      exact Finset.mem_range.mpr (by omega)
    · intro k _
      rfl
  · rw [if_neg habove]
    apply Finset.sum_eq_zero
    intro value hvalue
    exact absurd (Finset.mem_filter.mp hvalue).2.1 habove

theorem sum_snapshot (hstep : 0 < step) {limit : Nat} (hmax : max < limit ∨ max < 2 * step) :
    ∑ b ∈ Finset.range limit, snapshot step max counts b =
      ∑ b ∈ Finset.range limit, counts b +
        ∑ value ∈ Finset.Icc (2 * step) max, counts value * (value ⌈/⌉ step - 2) := by
  have hgain : ∀ value ∈ Finset.Icc (2 * step) max,
      ∑ b ∈ Finset.range limit, (if Mirrored step (value - step) b then counts value else 0) =
        counts value * (value ⌈/⌉ step - 2) := by
    intro value hvalue
    obtain ⟨hlow, hhigh⟩ := Finset.mem_Icc.mp hvalue
    have hceil : value ⌈/⌉ step - 2 = (value - step - 1) / step := by
      have hsplit : value + step - 1 = value - step - 1 + step * 2 := by omega
      rw [Nat.ceilDiv_eq_add_pred_div, hsplit, Nat.add_mul_div_left _ _ hstep, Nat.add_sub_cancel]
    rw [sum_mirrored hstep (by omega), hceil]
  simp only [← snapshot_eq hstep, gains_eq_sum, Finset.sum_add_distrib]
  rw [Finset.sum_comm, Finset.sum_congr rfl hgain]

end Snapshot

section Reached
variable {h : Histogram} {counts : Nat → Nat}

theorem tallies_new (max : Nat) : Tallies (fun _ => 0) (new max) := by
  constructor
  · intro value hvalue
    exact List.getElem?_replicate_of_lt hvalue
  · intro value _
    rfl
  · rw [Finset.sum_const_zero]
    rfl

theorem held_of_bucket {value : Nat} {count : UInt64} (hget : h.data[value]? = some count) :
    h.held value = count.toNat := by
  rw [held, hget]
  rfl

theorem ofNat_sum (f : Nat → Nat) (n : Nat) :
    UInt64.ofNat (∑ v ∈ Finset.range n, (UInt64.ofNat (f v)).toNat) =
      UInt64.ofNat (∑ v ∈ Finset.range n, f v) := by
  induction n with
  | zero => rfl
  | succ n ih =>
    rw [Finset.sum_range_succ, Finset.sum_range_succ, UInt64.ofNat_add, UInt64.ofNat_add, ih,
      UInt64.ofNat_toNat]

/-- The words of a histogram that shows some counts show what the buckets hold. -/
theorem Tallies.own (ht : Tallies counts h) : Tallies h.held h := by
  have hheld : ∀ value < h.limit, h.held value = (UInt64.ofNat (counts value)).toNat :=
    fun value hvalue => held_of_bucket (ht.bucket value hvalue)
  constructor
  · intro value hvalue
    rw [ht.bucket value hvalue, hheld value hvalue, UInt64.ofNat_toNat]
  · intro value hvalue
    rw [held, List.getElem?_eq_none (h.buckets.symm ▸ hvalue)]
    rfl
  · have hsum : ∑ value ∈ Finset.range h.limit, h.held value =
        ∑ value ∈ Finset.range h.limit, (UInt64.ofNat (counts value)).toNat :=
      Finset.sum_congr rfl fun value hvalue => hheld value (Finset.mem_range.mp hvalue)
    rw [ht.count, hsum, ofNat_sum]

theorem Tallies.held_zero (ht : Tallies counts h) {value : Nat} (hzero : counts value = 0) :
    h.held value = 0 := by
  by_cases hvalue : value < h.limit
  · rw [held_of_bucket (ht.bucket value hvalue), hzero]
    rfl
  · exact ht.own.outside value (Nat.le_of_not_lt hvalue)

/-- Counts that all fit a word together are what the words hold. -/
theorem Tallies.exact (ht : Tallies counts h)
    (hfits : ∑ value ∈ Finset.range h.limit, counts value < word) :
    (∀ value < h.limit, h.held value = counts value) ∧
      h.count.toNat = ∑ value ∈ Finset.range h.limit, counts value := by
  constructor
  · intro value hvalue
    have hle : counts value ≤ ∑ v ∈ Finset.range h.limit, counts v :=
      Finset.single_le_sum (fun _ _ => Nat.zero_le _) (Finset.mem_range.mpr hvalue)
    rw [held_of_bucket (ht.bucket value hvalue)]
    exact UInt64.toNat_ofNat_of_lt' (Nat.lt_of_le_of_lt hle hfits)
  · rw [ht.count]
    exact UInt64.toNat_ofNat_of_lt' hfits

variable {limit : Nat} {filled : Prop}

theorem Tallies.correct (hr : Ranged limit filled h) (ht : Tallies counts h) {expected : Int64}
    (hexpected : ¬ expected ≤ 0) :
    ∃ h', h.correct expected = .ok h' ∧ SameRange h h' ∧
      Tallies (snapshot expected.toInt.toNat h.max counts) h' := by
  have hstep := step_pos hexpected
  have hvalues : ∀ value ∈ corrected expected.toInt.toNat h.max, value < h.limit := by
    intro value hvalue
    obtain ⟨hlow, hhigh⟩ := mem_corrected.mp hvalue
    rcases hr.reads hstep with hmax | hmax <;> omega
  obtain ⟨h', hcorrect, hrange, hcounts⟩ := ht.correctFrom hstep corrected_sorted hvalues
  simp only [snapshot_eq hstep] at hcounts
  refine ⟨h', ?_, hrange, hcounts⟩
  rw [Histogram.correct, if_neg hexpected]
  exact hcorrect

/-- The counters agree, and nothing is counted above the greatest value. -/
structure Settled (h : Histogram) : Prop where
  tallies : Tallies h.held h
  above : ∀ value, h.max < value → h.held value = 0

theorem settled_new (max : Nat) : Settled (new max) where
  tallies := (tallies_new max).own
  above := fun _ _ => (tallies_new max).held_zero rfl

theorem Settled.record (hs : Settled h) (value : Nat) : Settled (h.record value).2 := by
  have ht := hs.tallies.record value
  refine ⟨ht.own, ?_⟩
  intro v hv
  apply ht.held_zero
  obtain ⟨habove, hother⟩ := above_record hv
  rw [hs.above v habove, if_neg hother]

theorem Settled.correct (hr : Ranged limit filled h) (hs : Settled h) {expected : Int64}
    {h' : Histogram} (hcorrect : h.correct expected = .ok h') : Settled h' := by
  by_cases hexpected : expected ≤ 0
  · rw [Histogram.correct, if_pos hexpected] at hcorrect
    cases hcorrect
    exact hs
  · obtain ⟨h'', hcorrect', hrange, hcounts⟩ := hs.tallies.correct hr hexpected
    obtain rfl := Except.ok.inj (hcorrect.symm.trans hcorrect')
    refine ⟨hcounts.own, ?_⟩
    intro value hvalue
    rw [hrange.max] at hvalue
    apply hcounts.held_zero
    have hnone : ∑ k ∈ Finset.range (h.max + 1) with 1 ≤ k ∧
        2 * expected.toInt.toNat ≤ value + k * expected.toInt.toNat ∧
        value + k * expected.toInt.toNat ≤ h.max,
        h.held (value + k * expected.toInt.toNat) = 0 := by
      apply Finset.sum_eq_zero
      intro k hk
      obtain ⟨-, -, -, hhigh⟩ := Finset.mem_filter.mp hk
      omega
    rw [snapshot, hs.above value hvalue, hnone, ite_self]

theorem Settled.uses (hlimit : limit < word) (hr : Ranged limit filled h) (hs : Settled h)
    {past : List Use} {h' : Histogram} (huses : h.uses past = .ok h') : Settled h' := by
  induction past generalizing h filled with
  | nil =>
    cases huses
    exact hs
  | cons use past ih =>
    obtain ⟨next, huse, hnext⟩ := hr.use hlimit use
    rw [Histogram.uses, List.foldlM_cons, huse] at huses
    refine ih hnext ?_ huses
    cases use with
    | record value =>
      cases huse
      exact hs.record value.toNat
    | correct expected => exact hs.correct hr huse

/-- What holds after any run of records and corrections. -/
theorem reached {max : Nat} {past : List Use} (huses : (new max).uses past = .ok h) :
    Ranged ((max + 1) % word) (Filled ((max + 1) % word) past) h ∧ Settled h := by
  have hlimit : (max + 1) % word < word := Nat.mod_lt _ (by decide)
  obtain ⟨h', huses', hr⟩ := Ranged.new.uses hlimit past
  obtain rfl := Except.ok.inj (huses.symm.trans huses')
  exact ⟨hr.congr ⟨.inr, fun h => h.resolve_left id⟩, (settled_new max).uses hlimit .new huses⟩

theorem Settled.sum_above (hs : Settled h) (f : Nat → Nat) {least : Nat}
    (hmax : h.max < h.limit ∨ h.max < least) :
    ∑ value ∈ Finset.Icc least h.max, h.held value * f value =
      ∑ value ∈ Finset.range h.limit with least ≤ value, h.held value * f value := by
  apply Finset.sum_subset
  · intro value hvalue
    obtain ⟨hlow, hhigh⟩ := Finset.mem_Icc.mp hvalue
    exact Finset.mem_filter.mpr ⟨Finset.mem_range.mpr (by omega), hlow⟩
  · intro value hvalue hnot
    have hlow := (Finset.mem_filter.mp hvalue).2
    have habove : h.max < value := by
      apply Nat.lt_of_not_le
      intro hle
      exact hnot (Finset.mem_Icc.mpr ⟨hlow, hle⟩)
    rw [hs.above value habove, Nat.zero_mul]

end Reached

structure CorrectsTo (step : Nat) (h h' : Histogram) : Prop where
  bucket : ∀ b < h.limit, h'.held b = snapshot step h.max h.held b
  total : h'.count.toNat = ∑ b ∈ Finset.range h.limit, h'.held b
  growth : h'.count.toNat = h.count.toNat +
    ∑ value ∈ Finset.range h.limit with 2 * step ≤ value, h.held value * (value ⌈/⌉ step - 2)

/-- On every histogram that records and corrections lead to, the correction in place is the
snapshot of the histogram before it, as long as no counter overflows. -/
theorem correct_snapshot {max : Nat} {past : List Use} {h : Histogram}
    (hreached : (new max).uses past = .ok h) (expected : Int64) :
    ∃ h', h.correct expected = .ok h' ∧ SameRange h h' ∧ (expected ≤ 0 → h' = h) ∧
      (0 < expected →
        ∑ b ∈ Finset.range h.limit, snapshot expected.toInt.toNat h.max h.held b < word →
        CorrectsTo expected.toInt.toNat h h') := by
  obtain ⟨hr, hs⟩ := reached hreached
  by_cases hexpected : expected ≤ 0
  · refine ⟨h, if_pos hexpected, .refl h, fun _ => rfl, fun hpositive => ?_⟩
    exact absurd hexpected (Int64.not_le.mpr hpositive)
  · have hstep := step_pos hexpected
    obtain ⟨h', hcorrect, hrange, hcounts⟩ := hs.tallies.correct hr hexpected
    refine ⟨h', hcorrect, hrange, fun hle => absurd hle hexpected, fun _ hfits => ?_⟩
    have hgrown : ∑ b ∈ Finset.range h.limit, snapshot _ h.max h.held b = _ :=
      sum_snapshot hstep (hr.reads hstep)
    have hafter := hcounts.exact (by rw [hrange.limit]; exact hfits)
    have hbefore := hs.tallies.exact (Nat.lt_of_le_of_lt (hgrown ▸ Nat.le_add_right _ _) hfits)
    rw [hrange.limit] at hafter
    constructor
    · exact hafter.1
    · rw [hafter.2]
      exact Finset.sum_congr rfl fun b hb => (hafter.1 b (Finset.mem_range.mp hb)).symm
    · rw [hafter.2, hbefore.2, ← hs.sum_above _ (hr.reads hstep)]
      exact hgrown

def threeValues : List Use := [.record 7, .record 2, .record 9]

theorem correct_snapshot_sample :
    ∃ h h', (new 9).uses threeValues = .ok h ∧ h.correct 3 = .ok h' ∧ SameRange h h' ∧
      CorrectsTo 3 h h' := by
  obtain ⟨h', hcorrect, hrange, -, hcorrects⟩ :=
    @correct_snapshot 9 threeValues _ rfl 3
  exact ⟨_, h', rfl, hcorrect, hrange, hcorrects (by decide) (by decide)⟩

end Histogram

end Wrkrs
