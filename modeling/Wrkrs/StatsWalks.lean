import Wrkrs.Library.Ranks
import Wrkrs.StatsCorrection
import Wrkrs.StatsRecording

/-!
# Walks over the tracked range

The readers of a histogram walk the buckets from the least to the greatest value. A rank
finds an entry of what these buckets hold, an index finds an occupied bucket.
-/

namespace Wrkrs

set_option autoImplicit false

open Machine Ranks

namespace Histogram

section Walks
variable {h : Histogram}

theorem range_sorted : h.range.Pairwise (· < ·) := List.pairwise_lt_range'

theorem mem_range {slot : Nat} : slot ∈ h.range ↔ h.min ≤ slot ∧ slot ≤ h.max := by
  rw [range, List.mem_range'_1]
  omega

theorem bucket_held {slot : Nat} (hslot : slot < h.limit) :
    ∃ count, h.bucket slot = .ok count ∧ count.toNat = h.held slot ∧
      (count ≠ 0 ↔ h.held slot ≠ 0) := by
  obtain ⟨count, hget, hread⟩ := bucket_eq hslot
  have hheld : h.held slot = count.toNat := held_of_bucket hget
  refine ⟨count, hread, hheld.symm, ?_⟩
  rw [hheld, ne_eq, ne_eq, ← UInt64.toNat_inj]
  rfl

/-- A rank above the total so far finds the entry that many places on. -/
theorem percentileFrom_eq {build : Build} {rank total : Nat} {slots : List Nat}
    (hslots : ∀ slot ∈ slots, slot < h.limit)
    (hfits : total + (entries h.held slots).length < word) (hrank : total < rank) :
    h.percentileFrom build rank total slots =
      .ok ((entries h.held slots)[rank - total - 1]?.getD 0) := by
  induction slots generalizing total with
  | nil => rfl
  | cons slot rest ih =>
    obtain ⟨count, hread, hcount, -⟩ := bucket_held (hslots slot List.mem_cons_self)
    rw [length_entries_cons] at hfits
    have hadd : build.add total count.toNat = .ok (total + h.held slot) := by
      rw [hcount]
      exact build.add_eq (by omega)
    rw [percentileFrom, hread, ok_bind, hadd, ok_bind, getElem?_entries_cons]
    by_cases hreached : rank ≤ total + h.held slot
    · rw [if_pos hreached, if_pos (by omega)]
      rfl
    · have hlater : h.percentileFrom build rank (total + h.held slot) rest = _ :=
        ih (fun other hother => hslots other (List.mem_cons_of_mem slot hother)) (by omega)
          (by omega)
      have hplace : rank - (total + h.held slot) - 1 = rank - total - 1 - h.held slot := by omega
      rw [if_neg hreached, if_neg (by omega), hlater, hplace]

theorem popcountFrom_eq {count : Nat} {slots : List Nat}
    (hslots : ∀ slot ∈ slots, slot < h.limit) :
    h.popcountFrom count slots = .ok (count + (occupied h.held slots).length) := by
  induction slots generalizing count with
  | nil => rfl
  | cons slot rest ih =>
    have hrest : ∀ other ∈ rest, other < h.limit :=
      fun other hother => hslots other (List.mem_cons_of_mem slot hother)
    obtain ⟨held, hread, -, hzero⟩ := bucket_held (hslots slot List.mem_cons_self)
    rw [popcountFrom, hread, ok_bind, ih hrest, occupied_cons]
    by_cases hheld : held ≠ 0
    · rw [if_pos hheld, if_pos (hzero.mp hheld), List.length_cons, Nat.add_assoc, Nat.add_comm 1]
    · rw [if_neg hheld, if_neg fun h => hheld (hzero.mpr h)]

/-- What a reader by index shows of the occupied slots. -/
def shownAt (h : Histogram) (slots : List Nat) (index count : Nat) : Nat × Nat :=
  match slots[index]? with
  | some slot => (slot, h.held slot)
  | none => (0, count + slots.length)

theorem valueAtFrom_eq {index count : Nat} {slots : List Nat}
    (hslots : ∀ slot ∈ slots, slot < h.limit) (hindex : count ≤ index) :
    h.valueAtFrom index count slots =
      .ok (h.shownAt (occupied h.held slots) (index - count) count) := by
  induction slots generalizing count with
  | nil => rfl
  | cons slot rest ih =>
    have hrest : ∀ other ∈ rest, other < h.limit :=
      fun other hother => hslots other (List.mem_cons_of_mem slot hother)
    obtain ⟨held, hread, hcount, hzero⟩ := bucket_held (hslots slot List.mem_cons_self)
    rw [valueAtFrom, hread, ok_bind, occupied_cons]
    by_cases hheld : held ≠ 0
    · rw [if_pos hheld, if_pos (hzero.mp hheld)]
      by_cases hsame : count = index
      · subst hsame
        rw [if_pos rfl, Nat.sub_self, hcount]
        rfl
      · have hplace : index - count = index - (count + 1) + 1 := by omega
        rw [if_neg hsame, ih hrest (by omega), hplace]
        unfold shownAt
        rw [List.getElem?_cons_succ, List.length_cons, Nat.add_assoc, Nat.add_comm 1]
    · rw [if_neg hheld, if_neg fun h => hheld (hzero.mpr h), ih hrest hindex]

/-- The multiset formed by the buckets from the least to the greatest value. -/
def visible (h : Histogram) : Multiset Nat :=
  ∑ value ∈ Finset.Icc h.min h.max, Multiset.replicate (h.held value) value

theorem visible_eq (h : Histogram) : h.visible = entries h.held h.range := sum_replicate h.range

theorem sort_visible (h : Histogram) : h.visible.sort = entries h.held h.range :=
  sort_eq_entries range_sorted h.visible_eq

theorem card_visible (h : Histogram) : h.visible.card = (entries h.held h.range).length := by
  rw [visible_eq, Multiset.coe_card]

variable {limit : Nat} {filled : Prop}

theorem Ranged.range_nil (hr : Ranged limit filled h) (hempty : ¬ filled) : h.range = [] := by
  obtain ⟨hmin, hmax⟩ := hr.empty hempty
  rw [range, hmin, hmax]
  rfl

theorem Ranged.range_lt (hr : Ranged limit filled h) : ∀ slot ∈ h.range, slot < h.limit := by
  by_cases hfilled : filled
  · exact (hr.slots hfilled).1
  · rw [hr.range_nil hfilled]
    exact List.forall_mem_nil _

theorem Ranged.range_cons (hr : Ranged limit filled h) (hfilled : filled) :
    ∃ rest, h.range = h.min :: rest := by
  obtain ⟨hle, -⟩ := hr.within hfilled
  obtain ⟨n, hn⟩ := Nat.exists_eq_add_of_lt (Nat.lt_succ_of_le hle)
  refine ⟨List.range' (h.min + 1) n, ?_⟩
  have hlength : h.max + 1 - h.min = n + 1 := by omega
  rw [range, hlength, List.range'_succ]

end Walks

/-- The reader at a rank returns the entry of that rank, the least value at rank zero and
zero past the last entry. -/
structure Ranked (build : Build) (filled : Prop) (h : Histogram) : Prop where
  rank : ∀ r, 1 ≤ r → r ≤ h.visible.card →
    ∃ value, h.visible.sort[r - 1]? = some value ∧ h.percentile build r = .ok value
  zero : filled → h.percentile build 0 = .ok h.min
  past : ∀ r, h.visible.card < r → h.percentile build r = .ok 0
  empty : ¬ filled → ∀ r, h.percentile build r = .ok 0

section Ranks
variable {h : Histogram} {build : Build} {limit : Nat} {filled : Prop}

theorem Ranged.ranked (hr : Ranged limit filled h) (build : Build)
    (hfits : h.visible.card < word) : Ranked build filled h := by
  have hlength := h.card_visible
  rw [hlength] at hfits
  have hread : ∀ r, 0 < r →
      h.percentile build r = .ok ((entries h.held h.range)[r - 1]?.getD 0) := by
    intro r hpos
    exact percentileFrom_eq hr.range_lt (by omega) hpos
  constructor
  · intro r hpos hle
    have hplace : r - 1 < (entries h.held h.range).length := by omega
    refine ⟨(entries h.held h.range)[r - 1], ?_, ?_⟩
    · rw [h.sort_visible]
      exact List.getElem?_eq_getElem hplace
    · rw [hread r hpos, List.getElem?_eq_getElem hplace]
      rfl
  · intro hfilled
    obtain ⟨rest, hrange⟩ := hr.range_cons hfilled
    have hless : h.min < h.limit := hr.range_lt h.min (hrange ▸ List.mem_cons_self)
    obtain ⟨count, hbucket, hcount, -⟩ := bucket_held hless
    rw [hrange, length_entries_cons] at hfits
    have hadd : build.add 0 count.toNat = .ok (0 + count.toNat) := build.add_eq (by omega)
    rw [percentile, hrange, percentileFrom, hbucket, ok_bind, hadd, ok_bind,
      if_pos (Nat.zero_le _)]
    rfl
  · intro r hover
    rw [hlength] at hover
    rw [hread r (by omega), List.getElem?_eq_none (by omega)]
    rfl
  · intro hempty r
    rw [percentile, hr.range_nil hempty]
    rfl

theorem entries_ge {r value : Nat}
    (hget : (entries h.held h.range)[r]? = some value) : h.min ≤ value :=
  (mem_range.mp (mem_entries.mp (List.mem_of_getElem? hget)).1).1

theorem Ranked.mono (hr : Ranged limit filled h) (hranked : Ranked build filled h) {r r' : Nat}
    (hle : r ≤ r') (hcard : r' ≤ h.visible.card) {value value' : Nat}
    (hvalue : h.percentile build r = .ok value) (hvalue' : h.percentile build r' = .ok value') :
    value ≤ value' := by
  by_cases hzero : r' = 0
  · subst hzero
    obtain rfl := Nat.le_zero.mp hle
    exact Nat.le_of_eq (Except.ok.inj (hvalue.symm.trans hvalue'))
  · obtain ⟨high, hget', hread'⟩ := hranked.rank r' (by omega) hcard
    obtain rfl := Except.ok.inj (hvalue'.symm.trans hread')
    by_cases hfirst : r = 0
    · subst hfirst
      rw [h.sort_visible] at hget'
      have hfilled : filled := by
        by_contra hempty
        rw [hr.range_nil hempty] at hget'
        cases hget'
      obtain rfl := Except.ok.inj (hvalue.symm.trans (hranked.zero hfilled))
      exact entries_ge hget'
    · obtain ⟨low, hget, hread⟩ := hranked.rank r (by omega) (by omega)
      obtain rfl := Except.ok.inj (hvalue.symm.trans hread)
      obtain ⟨hi, rfl⟩ := List.getElem?_eq_some_iff.mp hget
      obtain ⟨hj, rfl⟩ := List.getElem?_eq_some_iff.mp hget'
      have hsorted : h.visible.sort.Pairwise (· ≤ ·) := Multiset.pairwise_sort _ _
      rcases Nat.eq_or_lt_of_le hle with rfl | hless
      · exact Nat.le_refl _
      · exact List.pairwise_iff_getElem.mp hsorted _ _ hi hj (by omega)

end Ranks

/-- What records alone leave: the counts of the recorded values, none of them below the
least one. -/
structure Kept (counts : Nat → Nat) (h : Histogram) : Prop where
  tallies : Tallies counts h
  below : ∀ value < h.min, counts value = 0
  above : ∀ value, h.max < value → counts value = 0

section Records
variable {h : Histogram} {counts : Nat → Nat}

theorem Kept.record (hk : Kept counts h) (value : Nat) :
    Kept (fun v => counts v + if v = value ∧ value < h.limit then 1 else 0) (h.record value).2 := by
  refine ⟨hk.tallies.record value, ?_, ?_⟩
  · intro v hv
    obtain ⟨hbelow, hother⟩ := below_record hv
    rw [hk.below v hbelow, if_neg hother]
  · intro v hv
    obtain ⟨habove, hother⟩ := above_record hv
    rw [hk.above v habove, if_neg hother]

theorem count_accepted_cons (limit value v : Nat) (values : List Nat) :
    (accepted limit (value :: values)).count v =
      (if v = value ∧ value < limit then 1 else 0) + (accepted limit values).count v := by
  unfold accepted
  by_cases hvalue : value < limit
  · have hkeep : values.filter (· < limit) = accepted limit values := rfl
    simp only [List.filter_cons, decide_eq_true hvalue, if_true, List.count_cons, hkeep]
    rw [Nat.add_comm]
    congr 1
    by_cases hsame : value = v
    · rw [if_pos (beq_iff_eq.mpr hsame), if_pos ⟨hsame.symm, hvalue⟩]
    · rw [if_neg fun hbeq => hsame (beq_iff_eq.mp hbeq), if_neg fun hand => hsame hand.1.symm]
  · have hnone : ¬ (v = value ∧ value < limit) := fun hand => hvalue hand.2
    simp only [List.filter_cons, decide_eq_false hvalue, if_neg Bool.false_ne_true, if_neg hnone,
      Nat.zero_add]

theorem Kept.uses (hk : Kept counts h) {values : List UInt64} {h' : Histogram}
    (huses : h.uses (values.map .record) = .ok h') :
    Kept (fun v => counts v + (accepted h.limit (values.map UInt64.toNat)).count v) h' := by
  induction values generalizing h counts with
  | nil =>
    cases huses
    exact hk
  | cons value values ih =>
    have hnext := hk.record value.toNat
    have hrest := ih hnext huses
    rw [record_limit] at hrest
    simp only [List.map_cons, count_accepted_cons, ← Nat.add_assoc]
    exact hrest

def taken (max : Nat) (values : List UInt64) : List Nat :=
  accepted ((max + 1) % word) (values.map UInt64.toNat)

theorem kept {max : Nat} {values : List UInt64}
    (huses : (new max).uses (values.map .record) = .ok h) :
    h.limit = (max + 1) % word ∧ Kept (taken max values).count h := by
  have hnew : Kept (fun _ => 0) (new max) := ⟨tallies_new max, fun _ _ => rfl, fun _ _ => rfl⟩
  have hkept := hnew.uses huses
  simp only [Nat.zero_add] at hkept
  exact ⟨(reached huses).1.limit, hkept⟩

theorem Kept.held (hk : Kept counts h) {value : Nat} (hfits : counts value < word) :
    h.held value = counts value := by
  by_cases hvalue : value < h.limit
  · rw [held_of_bucket (hk.tallies.bucket value hvalue)]
    exact UInt64.toNat_ofNat_of_lt' hfits
  · have houtside := hk.tallies.outside value (Nat.le_of_not_lt hvalue)
    rw [hk.tallies.held_zero houtside, houtside]

theorem Kept.counted (hk : Kept counts h) {value : Nat} (hcount : counts value ≠ 0) :
    value ∈ h.range := by
  apply mem_range.mpr
  constructor
  · exact Nat.le_of_not_lt fun hless => hcount (hk.below value hless)
  · exact Nat.le_of_not_lt fun hless => hcount (hk.above value hless)

variable {seen : List Nat}

/-- The tracked range shows every recorded value as often as it was recorded. -/
theorem Kept.visible (hk : Kept seen.count h) (hfits : ∀ value, seen.count value < word) :
    h.visible = seen := by
  ext value
  rw [visible_eq, Multiset.coe_count, Multiset.coe_count,
    count_entries (range_sorted.imp Nat.ne_of_lt), hk.held (hfits value)]
  by_cases hmem : value ∈ h.range
  · rw [if_pos hmem]
  · rw [if_neg hmem]
    by_contra hcount
    exact hmem (hk.counted fun hzero => hcount hzero.symm)

theorem Kept.count (hk : Kept seen.count h) (hless : ∀ value ∈ seen, value < h.limit)
    (hfits : seen.length < word) : h.count.toNat = seen.length := by
  have hsum : ∑ value ∈ Finset.range h.limit, seen.count value = seen.length := by
    have hcard : ∑ value ∈ Finset.range h.limit, (seen : Multiset Nat).count value =
        (seen : Multiset Nat).card := by
      apply Multiset.sum_count_eq_card
      intro value hvalue
      exact Finset.mem_range.mpr (hless value (Multiset.mem_coe.mp hvalue))
    simpa only [Multiset.coe_count, Multiset.coe_card] using hcard
  have hexact := hk.tallies.exact (by rw [hsum]; exact hfits)
  rw [hexact.2, hsum]

theorem records_exact {max : Nat} {values : List UInt64}
    (huses : (new max).uses (values.map .record) = .ok h)
    (hfits : (taken max values).length < word) :
    h.visible = taken max values ∧ h.count.toNat = h.visible.card := by
  obtain ⟨hlimit, hk⟩ := kept huses
  have hvisible : h.visible = taken max values := hk.visible fun value =>
    Nat.lt_of_le_of_lt List.count_le_length hfits
  have hless : ∀ value ∈ taken max values, value < h.limit := by
    intro value hvalue
    rw [hlimit]
    exact of_decide_eq_true (List.mem_filter.mp hvalue).2
  refine ⟨hvisible, ?_⟩
  rw [hvisible, Multiset.coe_card]
  exact hk.count hless hfits

end Records

/-- After any records and corrections a rank finds the entry of that rank among the buckets
of the tracked range, as long as their total fits a counter; after records alone these are
the recorded values. -/
theorem percentile_ranks {max : Nat} {past : List Use} {h : Histogram}
    (hreached : (new max).uses past = .ok h) (build : Build) :
    (h.visible.card < word →
      Ranked build (Filled ((max + 1) % word) past) h ∧
      ∀ (r r' value value' : Nat), r ≤ r' → r' ≤ h.visible.card →
        h.percentile build r = .ok value → h.percentile build r' = .ok value' →
        value ≤ value') ∧
    ∀ values : List UInt64, past = values.map .record → (taken max values).length < word →
      h.visible = taken max values ∧ h.count.toNat = h.visible.card := by
  obtain ⟨hr, -⟩ := reached hreached
  constructor
  · intro hfits
    have hranked := hr.ranked build hfits
    refine ⟨hranked, ?_⟩
    intro r r' value value' hle hcard hvalue hvalue'
    exact hranked.mono hr hle hcard hvalue hvalue'
  · rintro values rfl hfits
    exact records_exact hreached hfits

theorem percentile_ranks_sample :
    ∃ h, (new 9).uses (threeValues ++ [.correct 3]) = .ok h ∧
      Ranked .debug (Filled ((9 + 1) % word) (threeValues ++ [.correct 3])) h :=
  ⟨_, rfl, ((percentile_ranks rfl .debug).1 (by decide)).1⟩

def half : Nat := 0x8000000000000000

/-- Two values, each recorded so often that both together wrap a counter. -/
def manyValues : List UInt64 := List.replicate half 0 ++ List.replicate half 1

theorem many_taken : taken 1 manyValues = List.replicate half 0 ++ List.replicate half 1 := by
  have htwo : (1 + 1) % word = 2 := rfl
  simp only [manyValues, taken, accepted, htwo, List.map_append, List.map_replicate,
    List.filter_append, List.filter_replicate]
  rfl

theorem many_held {h : Histogram} (huses : (new 1).uses (manyValues.map .record) = .ok h) :
    h.range = [0, 1] ∧ h.limit = 2 ∧ h.held 0 = half ∧ h.held 1 = half := by
  obtain ⟨hlimit, hk⟩ := kept huses
  rw [many_taken] at hk
  have hzero : (List.replicate half 0 ++ List.replicate half 1).count 0 = half := by
    rw [List.count_append, List.count_replicate_self, List.count_replicate, if_neg (by decide)]
    rfl
  have hone : (List.replicate half 0 ++ List.replicate half 1).count 1 = half := by
    rw [List.count_append, List.count_replicate_self, List.count_replicate, if_neg (by decide),
      Nat.zero_add]
  have hpos : half ≠ 0 := by decide
  have hfits : half < word := by decide
  have hheld : h.held 0 = half ∧ h.held 1 = half := by
    constructor
    · rw [hk.held (by rw [hzero]; exact hfits), hzero]
    · rw [hk.held (by rw [hone]; exact hfits), hone]
  have hfirst : 0 ∈ h.range := hk.counted (by rw [hzero]; exact hpos)
  have hsecond : 1 ∈ h.range := hk.counted (by rw [hone]; exact hpos)
  obtain ⟨hmin, -⟩ := mem_range.mp hfirst
  obtain ⟨-, hmax⟩ := mem_range.mp hsecond
  have htop : h.max < 2 := by
    have hlast : h.max ∈ h.range := mem_range.mpr ⟨by omega, Nat.le_refl _⟩
    have hless := (reached huses).1.range_lt h.max hlast
    rw [hlimit] at hless
    exact hless
  have hleast : h.min = 0 := Nat.le_zero.mp hmin
  have hgreatest : h.max = 1 := by omega
  refine ⟨?_, hlimit, hheld⟩
  rw [range, hleast, hgreatest]
  rfl

/-- The second value is not found at its rank: the total wraps to zero, or panics. -/
theorem percentile_wraps :
    ∃ h, (new 1).uses (manyValues.map .record) = .ok h ∧
      h.visible.sort[half]? = some 1 ∧
      h.percentile .release (half + 1) = .ok 0 ∧
      h.percentile .debug (half + 1) = .error .overflow := by
  obtain ⟨h, huses, -⟩ := (@Ranged.new 1).uses (by decide) (manyValues.map .record)
  obtain ⟨hrange, hlimit, hzero, hone⟩ := many_held huses
  obtain ⟨low, hlow, hlowcount, -⟩ := @bucket_held h 0 (by omega)
  obtain ⟨high, hhigh, hhighcount, -⟩ := @bucket_held h 1 (by omega)
  rw [hzero] at hlowcount
  rw [hone] at hhighcount
  have hwalk : ∀ build : Build, h.percentile build (half + 1) =
      (build.add half half).bind fun total => if half + 1 ≤ total then .ok 1 else .ok 0 := by
    intro build
    have hfirst : build.add 0 half = .ok half := by
      rw [build.add_eq (by decide), Nat.zero_add]
    rw [percentile, hrange, percentileFrom, hlow, ok_bind, hlowcount, hfirst, ok_bind,
      if_neg (by decide), percentileFrom, hhigh, ok_bind, hhighcount]
    rfl
  refine ⟨h, huses, ?_, ?_, ?_⟩
  · rw [h.sort_visible, hrange, getElem?_entries_cons, hzero, if_neg (Nat.lt_irrefl _),
      getElem?_entries_cons, hone, Nat.sub_self, if_pos (by decide)]
  · rw [hwalk, Build.add_release]
    rfl
  · rw [hwalk, Build.add_debug (by decide)]
    rfl

def distinct (seen : List Nat) : List Nat := seen.toFinset.sort

theorem Kept.occupied {h : Histogram} {seen : List Nat} (hk : Kept seen.count h)
    (hfits : ∀ value, seen.count value < word) :
    distinct seen = occupied h.held h.range := by
  apply sort_eq_occupied range_sorted
  intro value
  rw [List.mem_toFinset, hk.held (hfits value), ← List.count_pos_iff, Nat.pos_iff_ne_zero]
  constructor
  · intro hcount
    exact ⟨hk.counted hcount, hcount⟩
  · rintro ⟨-, hcount⟩
    exact hcount

/-- After records the reader by index shows the distinct recorded values one after the
other with their counts, as long as no bucket wraps, and past them always the number of
occupied buckets. -/
theorem valueAt_enumerates {max : Nat} {values : List UInt64} {h : Histogram}
    (hreached : (new max).uses (values.map .record) = .ok h) :
    (∃ n, h.popcount = .ok n ∧ ∀ index, n ≤ index → h.valueAt index = .ok (0, n)) ∧
    ((∀ value, (taken max values).count value < word) →
      h.popcount = .ok (distinct (taken max values)).length ∧
      ∀ (index value : Nat), (distinct (taken max values))[index]? = some value →
        h.valueAt index = .ok (value, (taken max values).count value)) ∧
    ((taken max values).length < word →
      h.count.toNat = ((distinct (taken max values)).map (taken max values).count).sum) := by
  obtain ⟨hr, -⟩ := reached hreached
  obtain ⟨-, hk⟩ := kept hreached
  have hslots := hr.range_lt
  have hpopcount : h.popcount = .ok (occupied h.held h.range).length := by
    rw [popcount, popcountFrom_eq hslots, Nat.zero_add]
  have hvalueAt : ∀ index,
      h.valueAt index = .ok (h.shownAt (occupied h.held h.range) index 0) := by
    intro index
    rw [valueAt, valueAtFrom_eq hslots (Nat.zero_le index), Nat.sub_zero]
  refine ⟨⟨_, hpopcount, ?_⟩, ?_, ?_⟩
  · intro index hindex
    rw [hvalueAt, shownAt, List.getElem?_eq_none hindex, Nat.zero_add]
  · intro hfits
    rw [hk.occupied hfits]
    refine ⟨hpopcount, ?_⟩
    intro index value hvalue
    rw [hvalueAt, shownAt, hvalue, ← hk.held (hfits value)]
  · intro hfits
    have hfew : ∀ value, (taken max values).count value < word := fun value =>
      Nat.lt_of_le_of_lt List.count_le_length hfits
    have hcounts : (taken max values).count = h.held := by
      funext value
      exact (hk.held (hfew value)).symm
    rw [hk.occupied hfew, hcounts, sum_occupied, ← card_visible]
    exact (records_exact hreached hfits).2

def sixValues : List UInt64 := [7, 3, 9, 7, 3, 3]

theorem valueAt_enumerates_sample :
    ∃ h, (new 9).uses (sixValues.map .record) = .ok h ∧
      h.popcount = .ok (distinct (taken 9 sixValues)).length ∧
      ∀ (index value : Nat), (distinct (taken 9 sixValues))[index]? = some value →
        h.valueAt index = .ok (value, (taken 9 sixValues).count value) := by
  obtain ⟨-, hshown, -⟩ := @valueAt_enumerates 9 sixValues _ rfl
  have hfits : ∀ value, (taken 9 sixValues).count value < word := fun value =>
    Nat.lt_of_le_of_lt List.count_le_length (by decide)
  exact ⟨_, rfl, hshown hfits⟩

/-- A value recorded so often that its bucket is empty again is not shown. -/
theorem popcount_wraps :
    ∃ h, (new 9).uses ((List.replicate word 5).map .record) = .ok h ∧
      5 ∈ taken 9 (List.replicate word 5) ∧ h.popcount = .ok 0 := by
  obtain ⟨h, huses, -⟩ :=
    (@Ranged.new 9).uses (by decide) ((List.replicate word (5 : UInt64)).map .record)
  obtain ⟨hlimit, hk⟩ := kept huses
  have hten : (9 + 1) % word = 10 := rfl
  have htaken : taken 9 (List.replicate word 5) = List.replicate word 5 := by
    simp only [taken, accepted, hten, List.map_replicate, List.filter_replicate]
    rfl
  rw [htaken] at hk ⊢
  have hempty : ∀ value, h.held value = 0 := by
    intro value
    by_cases hfive : value = 5
    · subst hfive
      have hless : 5 < h.limit := by
        rw [hlimit, hten]
        decide
      rw [held_of_bucket (hk.tallies.bucket 5 hless), List.count_replicate_self]
      rfl
    · apply hk.tallies.held_zero
      rw [List.count_replicate, if_neg fun hbeq => hfive (beq_iff_eq.mp hbeq).symm]
  refine ⟨h, huses, List.mem_replicate.mpr ⟨by decide, rfl⟩, ?_⟩
  have hnone : occupied h.held h.range = [] := by
    apply List.eq_nil_iff_forall_not_mem.mpr
    intro value hvalue
    exact (mem_occupied.mp hvalue).2 (hempty value)
  rw [popcount, popcountFrom_eq (reached huses).1.range_lt, hnone]
  rfl

end Histogram

end Wrkrs
