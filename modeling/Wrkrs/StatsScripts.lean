import Wrkrs.Library.Text
import Wrkrs.Stats

/-!
# Statistics in scripts

What a done callback reads of a histogram through each script engine. Both engines turn
the words of the host into signed integers, one by saturation and one by wrapping.
-/

namespace Wrkrs

set_option autoImplicit false
set_option maxRecDepth 4096

open Machine Text

/-- The readers the host gives the engines. -/
structure StatsView where
  min : UInt64
  max : UInt64
  percentile : UInt64 → Except Fault UInt64
  popcount : Except Fault UInt64
  valueAt : UInt64 → Except Fault (UInt64 × UInt64)

def Histogram.statsView (h : Histogram) (build : Build) : StatsView where
  min := UInt64.ofNat h.min
  max := UInt64.ofNat h.max
  percentile rank := (h.percentile build rank.toNat).map UInt64.ofNat
  popcount := h.popcount.map UInt64.ofNat
  valueAt slot := (h.valueAt slot.toNat).map fun shown =>
    (UInt64.ofNat shown.1, UInt64.ofNat shown.2)

/-- What a script reads; a call fails with a message. -/
structure ScriptStats where
  min : Int64
  max : Int64
  percentile : UInt64 → Except Fault Int64
  call : Int64 → Except Fault (Except Str (Int64 × Int64))
  length : Except Fault Int64

/-- The readers of an engine, with its integers and its message. -/
def scriptStats (integer : UInt64 → Int64) (message : Str) (view : StatsView) : ScriptStats where
  min := integer view.min
  max := integer view.max
  percentile rank := (view.percentile rank).map integer
  call index :=
    if index < 1 then .ok (.error message)
    else (view.valueAt (index - 1).toUInt64).map fun shown =>
      .ok (integer shown.1, integer shown.2)
  length := view.popcount.map integer

def luaInteger (value : UInt64) : Int64 := (min value 0x7FFFFFFFFFFFFFFF).toInt64

def StatsHandle.stats (view : StatsView) : ScriptStats :=
  scriptStats luaInteger "stats index must be at least 1".toList view

def StatsObject.stats (view : StatsView) : ScriptStats :=
  scriptStats UInt64.toInt64 "stats index must be at least 1".toList view

inductive Shown (view : StatsView) : UInt64 → Prop where
  | min : Shown view view.min
  | max : Shown view view.max
  | percentile {rank value : UInt64} : view.percentile rank = .ok value → Shown view value
  | slot {index : Int64} {value count : UInt64} : ¬ index < 1 →
      view.valueAt (index - 1).toUInt64 = .ok (value, count) → Shown view value
  | held {index : Int64} {value count : UInt64} : ¬ index < 1 →
      view.valueAt (index - 1).toUInt64 = .ok (value, count) → Shown view count
  | length {value : UInt64} : view.popcount = .ok value → Shown view value

/-- Two engines agree on a view when they agree on every word it shows. -/
theorem scriptStats_eq_iff {f g : UInt64 → Int64} (message : Str) (view : StatsView) :
    scriptStats f message view = scriptStats g message view ↔
      ∀ value, Shown view value → f value = g value := by
  constructor
  · intro h value hshown
    have hcall : ∀ index : Int64, ¬ index < 1 → ∀ shown,
        view.valueAt (index - 1).toUInt64 = .ok shown →
          f shown.1 = g shown.1 ∧ f shown.2 = g shown.2 := by
      intro index hindex shown hat
      have hindexed := congrFun (congrArg ScriptStats.call h) index
      simp only [scriptStats, if_neg hindex] at hindexed
      have hpair := map_eq_map_iff.mp hindexed shown hat
      exact ⟨congrArg Prod.fst (Except.ok.inj hpair), congrArg Prod.snd (Except.ok.inj hpair)⟩
    cases hshown with
    | min => exact congrArg ScriptStats.min h
    | max => exact congrArg ScriptStats.max h
    | percentile hrank =>
      exact map_eq_map_iff.mp (congrFun (congrArg ScriptStats.percentile h) _) value hrank
    | slot hindex hat => exact (hcall _ hindex _ hat).1
    | held hindex hat => exact (hcall _ hindex _ hat).2
    | length hcount => exact map_eq_map_iff.mp (congrArg ScriptStats.length h) value hcount
  · intro h
    rw [scriptStats, scriptStats, ScriptStats.mk.injEq]
    refine ⟨h _ .min, h _ .max, ?_, ?_, ?_⟩
    · funext rank
      exact map_eq_map_iff.mpr fun value hrank => h value (.percentile hrank)
    · funext index
      by_cases hindex : index < 1
      · rw [if_pos hindex, if_pos hindex]
      · rw [if_neg hindex, if_neg hindex]
        apply map_eq_map_iff.mpr
        intro shown hat
        rw [h shown.1 (.slot hindex hat), h shown.2 (.held hindex hat)]
    · exact map_eq_map_iff.mpr fun value hcount => h value (.length hcount)

def integerMax : Nat := 0x7FFFFFFFFFFFFFFF

theorem luaInteger_eq_iff (value : UInt64) :
    luaInteger value = value.toInt64 ↔ value.toNat ≤ integerMax := by
  have hle : value ≤ 0x7FFFFFFFFFFFFFFF ↔ value.toNat ≤ integerMax := UInt64.le_iff_toNat_le
  rw [← hle]
  change (if value ≤ 0x7FFFFFFFFFFFFFFF then value else 0x7FFFFFFFFFFFFFFF).toInt64 = _ ↔ _
  by_cases h : value ≤ 0x7FFFFFFFFFFFFFFF
  · rw [if_pos h]
    exact iff_of_true rfl h
  · rw [if_neg h]
    refine iff_of_false ?_ h
    intro hsame
    have hvalue := congrArg Int64.toUInt64 hsame
    rw [UInt64.toUInt64_toInt64, UInt64.toUInt64_toInt64] at hvalue
    exact h (hvalue ▸ UInt64.le_refl _)

theorem same_stats_shown (view : StatsView) :
    StatsHandle.stats view = StatsObject.stats view ↔
      ∀ value, Shown view value → value.toNat ≤ integerMax := by
  rw [StatsHandle.stats, StatsObject.stats, scriptStats_eq_iff]
  constructor
  · intro h value hshown
    exact (luaInteger_eq_iff value).mp (h value hshown)
  · intro h value hshown
    exact (luaInteger_eq_iff value).mpr (h value hshown)

inductive Use where
  | record (value : UInt64)
  | correct (expected : Int64)
  deriving DecidableEq, Repr

namespace Histogram

def use (h : Histogram) : Use → Except Fault Histogram
  | .record value => .ok (h.record value.toNat).2
  | .correct expected => h.correct expected

def uses (h : Histogram) (past : List Use) : Except Fault Histogram := past.foldlM use h

/-- The counts may differ, the walks go over the same slots. -/
structure SameRange (h h' : Histogram) : Prop where
  limit : h'.limit = h.limit
  min : h'.min = h.min
  max : h'.max = h.max

theorem SameRange.refl (h : Histogram) : SameRange h h := ⟨rfl, rfl, rfl⟩

theorem SameRange.trans {h h' h'' : Histogram} (first : SameRange h h')
    (second : SameRange h' h'') : SameRange h h'' :=
  ⟨second.limit.trans first.limit, second.min.trans first.min, second.max.trans first.max⟩

theorem bucket_eq {h : Histogram} {slot : Nat} (hslot : slot < h.limit) :
    ∃ held, h.data[slot]? = some held ∧ h.bucket slot = .ok held := by
  have hlength : slot < h.data.length := h.buckets.symm ▸ hslot
  have hget : h.data[slot]? = some h.data[slot] := List.getElem?_eq_getElem hlength
  exact ⟨h.data[slot], hget, by rw [bucket, hget]⟩

theorem add_range {h : Histogram} {slot : Nat} (count : UInt64) (hslot : slot < h.limit) :
    ∃ h', h.add slot count = .ok h' ∧ SameRange h h' :=
  ⟨_, if_pos hslot, ⟨rfl, rfl, rfl⟩⟩

theorem mirror_range (step : Nat) (count : UInt64) (fuel : Nat) {slot : Nat} {h : Histogram}
    (hslot : slot < h.limit) :
    ∃ h', mirror step count fuel slot h = .ok h' ∧ SameRange h h' := by
  induction fuel generalizing slot h with
  | zero => exact ⟨h, rfl, .refl h⟩
  | succ fuel ih =>
    rw [mirror]
    by_cases hstep : step < slot
    · obtain ⟨added, hadd, hrange⟩ := add_range count hslot
      have hnext : slot - step < added.limit := by
        rw [hrange.limit]
        exact Nat.lt_of_le_of_lt (Nat.sub_le slot step) hslot
      obtain ⟨h', hmirror, hrest⟩ := ih hnext
      rw [if_pos hstep, hadd]
      exact ⟨h', hmirror, hrange.trans hrest⟩
    · exact ⟨h, if_neg hstep, .refl h⟩

theorem correctFrom_range (step : Nat) {values : List Nat} {h : Histogram}
    (hvalues : ∀ value ∈ values, value < h.limit) :
    ∃ h', correctFrom step values h = .ok h' ∧ SameRange h h' := by
  induction values generalizing h with
  | nil => exact ⟨h, rfl, .refl h⟩
  | cons value rest ih =>
    have hvalue : value < h.limit := hvalues value List.mem_cons_self
    obtain ⟨held, -, hheld⟩ := bucket_eq hvalue
    have hmirrored : ∃ mirrored, SameRange h mirrored ∧
        correctFrom step (value :: rest) h = correctFrom step rest mirrored := by
      rw [correctFrom, hheld, ok_bind]
      by_cases hzero : held ≠ 0
      · obtain ⟨mirrored, hmirror, hrange⟩ := mirror_range step held value
          (Nat.lt_of_le_of_lt (Nat.sub_le value step) hvalue)
        refine ⟨mirrored, hrange, ?_⟩
        simp only [if_pos hzero, hmirror, ok_bind]
      · refine ⟨h, .refl h, ?_⟩
        simp only [if_neg hzero, ok_bind]
    obtain ⟨mirrored, hrange, hnext⟩ := hmirrored
    have hrest : ∀ other ∈ rest, other < mirrored.limit := by
      intro other hother
      rw [hrange.limit]
      exact hvalues other (List.mem_cons_of_mem _ hother)
    obtain ⟨h', hcorrect, hsame⟩ := ih hrest
    exact ⟨h', hnext.trans hcorrect, hrange.trans hsame⟩

/-- The walks of a histogram with values stay below its limit, those of one without values
are empty. -/
structure Ranged (bound : Nat) (filled : Prop) (h : Histogram) : Prop where
  limit : h.limit = bound
  empty : ¬ filled → h.min = word - 1 ∧ h.max = 0
  within : filled → h.min ≤ h.max ∧ h.max < bound

section Ranged
variable {limit : Nat} {filled filled' : Prop} {h : Histogram}

theorem Ranged.congr (hr : Ranged limit filled h) (hiff : filled' ↔ filled) :
    Ranged limit filled' h :=
  ⟨hr.limit, fun hf => hr.empty fun hold => hf (hiff.mpr hold), fun hf => hr.within (hiff.mp hf)⟩

theorem Ranged.new {max : Nat} : Ranged ((max + 1) % word) False (Histogram.new max) :=
  ⟨rfl, fun _ => ⟨rfl, rfl⟩, False.elim⟩

theorem Ranged.record (hr : Ranged limit filled h) (hlimit : limit < word) (value : Nat) :
    Ranged limit (filled ∨ value < limit) (h.record value).2 := by
  rw [Histogram.record]
  by_cases hvalue : h.limit ≤ value
  · rw [if_pos hvalue]
    apply hr.congr
    constructor
    · exact fun hor => hor.resolve_right (Nat.not_lt.mpr (hr.limit ▸ hvalue))
    · exact .inl
  · have hless : value < limit := hr.limit ▸ Nat.lt_of_not_le hvalue
    rw [if_neg hvalue]
    constructor
    · exact hr.limit
    · intro hnot
      exact absurd (.inr hless) hnot
    · intro _
      change (if value < h.min then value else h.min) ≤ (if h.max < value then value else h.max) ∧
        (if h.max < value then value else h.max) < limit
      by_cases hfilled : filled
      · have hwithin := hr.within hfilled
        split_ifs <;> omega
      · have hempty := hr.empty hfilled
        have hstart : value < word - 1 := Nat.lt_of_lt_of_le hless (Nat.le_sub_one_of_lt hlimit)
        split_ifs <;> omega

theorem Ranged.reads (hr : Ranged limit filled h) {step : Nat} (hstep : 0 < step) :
    h.max < h.limit ∨ h.max < 2 * step := by
  by_cases hfilled : filled
  · left
    rw [hr.limit]
    exact (hr.within hfilled).2
  · right
    have hempty := hr.empty hfilled
    omega

theorem step_pos {expected : Int64} (hexpected : ¬ expected ≤ 0) : 0 < expected.toInt.toNat := by
  rw [Int64.le_iff_toInt_le] at hexpected
  have hpositive : 0 < expected.toInt := Int.lt_of_not_ge hexpected
  omega

theorem Ranged.correct (hr : Ranged limit filled h) (expected : Int64) :
    ∃ h', h.correct expected = .ok h' ∧ SameRange h h' := by
  rw [Histogram.correct]
  by_cases hexpected : expected ≤ 0
  · rw [if_pos hexpected]
    exact ⟨h, rfl, .refl h⟩
  · rw [if_neg hexpected]
    have hstep := step_pos hexpected
    apply correctFrom_range
    intro value hvalue
    obtain ⟨hlow, hhigh⟩ := List.mem_range'_1.mp hvalue
    rcases hr.reads hstep with hmax | hmax <;> omega

theorem Ranged.same {h' : Histogram} (hr : Ranged limit filled h) (hsame : SameRange h h') :
    Ranged limit filled h' := by
  constructor
  · exact hsame.limit.trans hr.limit
  · rw [hsame.min, hsame.max]
    exact hr.empty
  · rw [hsame.min, hsame.max]
    exact hr.within

/-- A value below the limit is among the recorded ones. -/
def Filled (limit : Nat) (past : List Use) : Prop :=
  ∃ value, Use.record value ∈ past ∧ value.toNat < limit

theorem Ranged.use (hr : Ranged limit filled h) (hlimit : limit < word) (use : Use) :
    ∃ h', h.use use = .ok h' ∧ Ranged limit (filled ∨ Filled limit [use]) h' := by
  cases use with
  | record value =>
    refine ⟨_, rfl, (hr.record hlimit value.toNat).congr (or_congr_right ?_)⟩
    constructor
    · rintro ⟨other, hmem, hless⟩
      cases List.mem_singleton.mp hmem
      exact hless
    · intro hless
      exact ⟨value, List.mem_singleton_self _, hless⟩
  | correct expected =>
    obtain ⟨h', hcorrect, hsame⟩ := hr.correct expected
    refine ⟨h', hcorrect, (hr.same hsame).congr ⟨?_, .inl⟩⟩
    rintro (hfilled | ⟨other, hmem, -⟩)
    · exact hfilled
    · cases List.mem_singleton.mp hmem

/-- No run of records and corrections faults, and the range is known after it. -/
theorem Ranged.uses (hr : Ranged limit filled h) (hlimit : limit < word) (past : List Use) :
    ∃ h', h.uses past = .ok h' ∧ Ranged limit (filled ∨ Filled limit past) h' := by
  induction past generalizing filled h with
  | nil =>
    refine ⟨h, rfl, hr.congr ⟨?_, .inl⟩⟩
    rintro (hfilled | ⟨value, hmem, -⟩)
    · exact hfilled
    · cases hmem
  | cons use past ih =>
    obtain ⟨next, huse, hnext⟩ := hr.use hlimit use
    obtain ⟨h', huses, hr'⟩ := ih hnext
    refine ⟨h', ?_, hr'.congr ?_⟩
    · rw [Histogram.uses, List.foldlM_cons, huse]
      exact huses
    · rw [or_assoc]
      apply or_congr_right
      simp only [Filled, List.mem_cons, List.not_mem_nil, or_false, or_and_right, exists_or]

end Ranged

section Readers
variable {h : Histogram}

theorem percentileFrom_mem {build : Build} {rank total value : Nat} {slots : List Nat}
    (hread : h.percentileFrom build rank total slots = .ok value) : value = 0 ∨ value ∈ slots := by
  induction slots generalizing total with
  | nil => exact .inl (Except.ok.inj hread).symm
  | cons slot rest ih =>
    rw [percentileFrom] at hread
    cases hheld : h.bucket slot with
    | error fault => simp [hheld] at hread
    | ok held =>
      cases hadd : build.add total held.toNat with
      | error fault => simp [hheld, hadd] at hread
      | ok sum =>
        simp only [hheld, hadd, ok_bind] at hread
        by_cases hrank : rank ≤ sum
        · rw [if_pos hrank] at hread
          cases hread
          exact .inr List.mem_cons_self
        · rw [if_neg hrank] at hread
          exact (ih hread).imp_right (List.mem_cons_of_mem slot)

theorem popcountFrom_le {count value : Nat} {slots : List Nat}
    (hread : h.popcountFrom count slots = .ok value) : value ≤ count + slots.length := by
  induction slots generalizing count with
  | nil => exact (Except.ok.inj hread) ▸ Nat.le_refl count
  | cons slot rest ih =>
    rw [popcountFrom] at hread
    cases hheld : h.bucket slot with
    | error fault => simp [hheld] at hread
    | ok held =>
      simp only [hheld, ok_bind] at hread
      have hle := ih hread
      rw [List.length_cons]
      split_ifs at hle <;> omega

theorem valueAtFrom_cases {index count : Nat} {slots : List Nat} {shown : Nat × Nat}
    (hread : h.valueAtFrom index count slots = .ok shown) :
    (shown.1 ∈ slots ∧ ∃ held, h.bucket shown.1 = .ok held ∧ shown.2 = held.toNat) ∨
      (shown.1 = 0 ∧ shown.2 ≤ count + slots.length) := by
  induction slots generalizing count with
  | nil =>
    cases hread
    exact .inr ⟨rfl, Nat.le_refl count⟩
  | cons slot rest ih =>
    have hlater : ∀ n, n ≤ count + 1 → h.valueAtFrom index n rest = .ok shown →
        (shown.1 ∈ slot :: rest ∧ ∃ held, h.bucket shown.1 = .ok held ∧ shown.2 = held.toNat) ∨
          (shown.1 = 0 ∧ shown.2 ≤ count + (slot :: rest).length) := by
      intro n hn hrest
      rcases ih hrest with ⟨hmem, hheld⟩ | ⟨hzero, hle⟩
      · exact .inl ⟨List.mem_cons_of_mem slot hmem, hheld⟩
      · refine .inr ⟨hzero, ?_⟩
        rw [List.length_cons]
        omega
    rw [valueAtFrom] at hread
    cases hheld : h.bucket slot with
    | error fault => simp [hheld] at hread
    | ok held =>
      simp only [hheld, ok_bind] at hread
      by_cases hzero : held ≠ 0
      · rw [if_pos hzero] at hread
        by_cases hindex : count = index
        · rw [if_pos hindex] at hread
          cases hread
          exact .inl ⟨List.mem_cons_self, held, hheld, rfl⟩
        · rw [if_neg hindex] at hread
          exact hlater _ (Nat.le_refl _) hread
      · rw [if_neg hzero] at hread
        exact hlater _ (Nat.le_succ _) hread

/-- Every occupied slot of a walk has an index. -/
theorem valueAtFrom_reaches (count : Nat) {slot : Nat} {slots : List Nat} {held : UInt64}
    (hslots : ∀ other ∈ slots, other < h.limit) (hslot : slot ∈ slots)
    (hheld : h.bucket slot = .ok held) (hzero : held ≠ 0) :
    ∃ index, count ≤ index ∧ index < count + slots.length ∧
      h.valueAtFrom index count slots = .ok (slot, held.toNat) := by
  induction slots generalizing count with
  | nil => cases hslot
  | cons first rest ih =>
    have hrest : ∀ other ∈ rest, other < h.limit :=
      fun other hother => hslots other (List.mem_cons_of_mem first hother)
    rcases List.mem_cons.mp hslot with rfl | hlater
    · refine ⟨count, Nat.le_refl _, by simp, ?_⟩
      rw [valueAtFrom, hheld, ok_bind, if_pos hzero, if_pos rfl]
      rfl
    · obtain ⟨other, -, hother⟩ := bucket_eq (hslots first List.mem_cons_self)
      by_cases hfirst : other ≠ 0
      · obtain ⟨index, hlow, hhigh, hread⟩ := ih (count + 1) hrest hlater
        refine ⟨index, by omega, by rw [List.length_cons]; omega, ?_⟩
        rw [valueAtFrom, hother, ok_bind, if_pos hfirst, if_neg (by omega)]
        exact hread
      · obtain ⟨index, hlow, hhigh, hread⟩ := ih count hrest hlater
        refine ⟨index, hlow, by rw [List.length_cons]; omega, ?_⟩
        rw [valueAtFrom, hother, ok_bind, if_neg hfirst]
        exact hread

end Readers

/-- No visible bucket holds a count past the greatest signed integer. -/
def CountsFit (h : Histogram) : Prop :=
  ∀ slot held, h.min ≤ slot → slot ≤ h.max → h.data[slot]? = some held →
    held.toNat ≤ integerMax

theorem integer_of_le {n limit : Nat} (hle : n ≤ limit) (hlimit : 8 * limit ≤ vecMax) :
    (UInt64.ofNat n).toNat ≤ integerMax := by
  have hmax : vecMax = integerMax := rfl
  rw [UInt64.toNat_ofNat']
  have hmod := Nat.mod_le n (2 ^ 64)
  omega

theorem script_index {n : Nat} (hn : n < integerMax) :
    ∃ index : Int64, ¬ index < 1 ∧ (index - 1).toUInt64.toNat = n := by
  have hfits : n + 1 < 2 ^ 63 := Nat.succ_lt_succ hn
  refine ⟨Int64.ofNat (n + 1), ?_, ?_⟩
  · rw [Int64.lt_iff_toInt_lt, Int64.toInt_ofNat_of_lt hfits]
    change ¬ ((n + 1 : Nat) : Int) < 1
    omega
  · have hback : Int64.ofNat (n + 1) - 1 = Int64.ofNat n := by
      rw [Int64.ofNat_add]
      exact Int64.add_sub_cancel _ _
    rw [hback, Int64.toUInt64_ofNat']
    exact UInt64.toNat_ofNat_of_lt' (Nat.lt_trans hn (by decide))

section Views
variable {limit : Nat} {filled : Prop} {h : Histogram}

theorem Ranged.slots (hr : Ranged limit filled h) (hfilled : filled) :
    (∀ slot ∈ h.range, slot < h.limit) ∧ h.range.length ≤ limit := by
  have hwithin := hr.within hfilled
  constructor
  · intro slot hslot
    obtain ⟨-, hhigh⟩ := List.mem_range'_1.mp hslot
    rw [hr.limit]
    omega
  · rw [range, List.length_range']
    omega

theorem bucket_get {slot : Nat} {held : UInt64} :
    h.bucket slot = .ok held ↔ h.data[slot]? = some held := by
  rw [bucket]
  cases h.data[slot]? with
  | none => exact iff_of_false nofun nofun
  | some count =>
    constructor
    · intro hok
      exact congrArg some (Except.ok.inj hok)
    · intro hsome
      exact congrArg Except.ok (Option.some.inj hsome)

theorem Ranged.shown (hr : Ranged limit filled h) (hfilled : filled) (hlimit : 8 * limit ≤ vecMax)
    (hcounts : h.CountsFit) {build : Build} {value : UInt64}
    (hshown : Shown (h.statsView build) value) : value.toNat ≤ integerMax := by
  obtain ⟨hslots, hlength⟩ := hr.slots hfilled
  have hwithin := hr.within hfilled
  have hslot : ∀ slot, slot = 0 ∨ slot ∈ h.range → (UInt64.ofNat slot).toNat ≤ integerMax := by
    rintro slot (rfl | hmem)
    · exact Nat.zero_le _
    · exact integer_of_le (hr.limit ▸ Nat.le_of_lt (hslots slot hmem)) hlimit
  have hpair : ∀ {index value count : UInt64},
      (h.statsView build).valueAt index = .ok (value, count) →
        value.toNat ≤ integerMax ∧ count.toNat ≤ integerMax := by
    intro index value count hat
    obtain ⟨shown, hread, hwords⟩ := map_eq_ok.mp hat
    cases hwords
    rcases valueAtFrom_cases hread with ⟨hmem, held, hheld, hcount⟩ | ⟨hzero, hcount⟩
    · refine ⟨hslot _ (.inr hmem), ?_⟩
      obtain ⟨hlow, hhigh⟩ := List.mem_range'_1.mp hmem
      rw [hcount, UInt64.ofNat_toNat]
      exact hcounts shown.1 held hlow (by omega) (bucket_get.mp hheld)
    · exact ⟨hslot _ (.inl hzero), integer_of_le (by omega) hlimit⟩
  cases hshown with
  | min => exact integer_of_le (by omega : h.min ≤ limit) hlimit
  | max => exact integer_of_le (by omega : h.max ≤ limit) hlimit
  | percentile hrank =>
    obtain ⟨slot, hread, rfl⟩ := map_eq_ok.mp hrank
    exact hslot slot (percentileFrom_mem hread)
  | slot _ hat => exact (hpair hat).1
  | held _ hat => exact (hpair hat).2
  | length hcount =>
    obtain ⟨count, hread, rfl⟩ := map_eq_ok.mp hcount
    have hle := popcountFrom_le hread
    exact integer_of_le (by omega : count ≤ limit) hlimit

theorem Ranged.countsFit (hr : Ranged limit filled h) (hfilled : filled)
    (hlimit : 8 * limit ≤ vecMax) {build : Build}
    (hfits : ∀ value, Shown (h.statsView build) value → value.toNat ≤ integerMax) :
    h.CountsFit := by
  obtain ⟨hslots, hlength⟩ := hr.slots hfilled
  have hmax : vecMax = integerMax := rfl
  intro slot held hlow hhigh hheld
  by_cases hzero : held ≠ 0
  · have hmem : slot ∈ h.range := List.mem_range'_1.mpr ⟨hlow, by omega⟩
    obtain ⟨place, -, hplace, hread⟩ :=
      valueAtFrom_reaches 0 hslots hmem (bucket_get.mpr hheld) hzero
    obtain ⟨index, hindex, hword⟩ := script_index (n := place) (by omega)
    have hat : (h.statsView build).valueAt (index - 1).toUInt64 =
        .ok (UInt64.ofNat slot, UInt64.ofNat held.toNat) := by
      refine map_eq_ok.mpr ⟨(slot, held.toNat), ?_, rfl⟩
      rw [hword]
      exact hread
    have hcount := hfits _ (.held hindex hat)
    rwa [UInt64.ofNat_toNat] at hcount
  · rw [Decidable.not_not.mp hzero]
    exact Nat.zero_le _

end Views

end Histogram

open Histogram

/-- The engines show the same statistics exactly when a value has been recorded and no
visible count is too large. -/
theorem same_stats_iff (max : UInt64) {start : Histogram} (past : List Use) (build : Build)
    (halloc : Histogram.alloc max.toNat = .ok start) :
    ∃ h, start.uses past = .ok h ∧
      (StatsHandle.stats (h.statsView build) = StatsObject.stats (h.statsView build) ↔
        Filled start.limit past ∧ h.CountsFit) := by
  rw [alloc] at halloc
  by_cases hlimit : 8 * ((max.toNat + 1) % word) ≤ vecMax
  · rw [if_pos hlimit] at halloc
    cases halloc
    obtain ⟨h, huses, hr⟩ := Ranged.new.uses (Nat.mod_lt (max.toNat + 1) (by decide)) past
    refine ⟨h, huses, ?_⟩
    rw [same_stats_shown]
    constructor
    · intro hfits
      have hrecorded : Filled ((max.toNat + 1) % word) past := by
        by_contra hnone
        have hmin : (UInt64.ofNat h.min).toNat ≤ integerMax := hfits _ .min
        rw [(hr.empty (not_or.mpr ⟨id, hnone⟩)).1] at hmin
        exact absurd hmin (by decide)
      exact ⟨hrecorded, hr.countsFit (.inr hrecorded) hlimit hfits⟩
    · rintro ⟨hrecorded, hcounts⟩ value hshown
      exact hr.shown (.inr hrecorded) hlimit hcounts hshown
  · rw [if_neg hlimit] at halloc
    cases halloc

theorem same_stats_iff_sample : ∃ h, (Histogram.new 9).uses [.record 5, .correct 2] = .ok h ∧
    (StatsHandle.stats (h.statsView .debug) = StatsObject.stats (h.statsView .debug) ↔
      Filled 10 [.record 5, .correct 2] ∧ h.CountsFit) :=
  same_stats_iff 9 [.record 5, .correct 2] .debug (by rfl)

/-- Without a recorded value the least value is the greatest word. -/
theorem empty_stats_differ : Histogram.alloc 9 = .ok (Histogram.new 9) ∧
    (StatsHandle.stats ((Histogram.new 9).statsView .release)).min = 9223372036854775807 ∧
    (StatsObject.stats ((Histogram.new 9).statsView .release)).min = -1 ∧
    StatsHandle.stats ((Histogram.new 9).statsView .release) ≠
      StatsObject.stats ((Histogram.new 9).statsView .release) := by
  refine ⟨by rfl, by rfl, by rfl, ?_⟩
  intro hsame
  have hmin := congrArg ScriptStats.min hsame
  revert hmin
  decide

end Wrkrs
