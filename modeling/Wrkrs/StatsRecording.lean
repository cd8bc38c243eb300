import Wrkrs.Library.Interleaving
import Wrkrs.Stats

/-!
# Recording from many threads

`record` as its atomic steps, and any interleaving of any calls. Read-modify-write steps
see the last value of a cell; a load, or an exchange that fails, may see any value the
cell has held.
-/

namespace Wrkrs

set_option autoImplicit false

open Machine Interleaving

/-- The cells of a histogram; the least and the greatest value with all they have held,
the last one first. -/
structure Cells where
  data : List UInt64
  count : UInt64
  min : List Nat
  max : List Nat
  deriving DecidableEq, Repr

/-- What a call does next; `lowering` and `raising` hold the value last seen. -/
inductive Stage where
  | entered
  | counting
  | readingMin
  | lowering (seen : Nat)
  | readingMax
  | raising (seen : Nat)
  | returned (recorded : Bool)
  deriving DecidableEq, Repr

structure Recorder where
  value : Nat
  stage : Stage
  deriving DecidableEq, Repr

namespace Recorder

def afterMin (value seen : Nat) : Recorder :=
  ⟨value, if value < seen then .lowering seen else .readingMax⟩

def afterMax (value seen : Nat) : Recorder :=
  ⟨value, if seen < value then .raising seen else .returned true⟩

/-- One atomic step of `record` below a limit. -/
inductive Step (limit : Nat) : Cells → Recorder → Cells → Recorder → Prop where
  | rejects {cells : Cells} {value : Nat} : limit ≤ value →
      Step limit cells ⟨value, .entered⟩ cells ⟨value, .returned false⟩
  | fills {cells : Cells} {value : Nat} : value < limit →
      Step limit cells ⟨value, .entered⟩
        { cells with data := cells.data.modify value (· + 1) } ⟨value, .counting⟩
  | counts {cells : Cells} {value : Nat} :
      Step limit cells ⟨value, .counting⟩ { cells with count := cells.count + 1 }
        ⟨value, .readingMin⟩
  | readsMin {cells : Cells} {value : Nat} (seen : Nat) : seen ∈ cells.min →
      Step limit cells ⟨value, .readingMin⟩ cells (afterMin value seen)
  | lowers {cells : Cells} {value seen : Nat} : cells.min.head? = some seen →
      Step limit cells ⟨value, .lowering seen⟩ { cells with min := value :: cells.min }
        ⟨value, .readingMax⟩
  | missesMin {cells : Cells} {value seen : Nat} (current : Nat) : current ∈ cells.min →
      current ≠ seen → Step limit cells ⟨value, .lowering seen⟩ cells (afterMin value current)
  | readsMax {cells : Cells} {value : Nat} (seen : Nat) : seen ∈ cells.max →
      Step limit cells ⟨value, .readingMax⟩ cells (afterMax value seen)
  | raises {cells : Cells} {value seen : Nat} : cells.max.head? = some seen →
      Step limit cells ⟨value, .raising seen⟩ { cells with max := value :: cells.max }
        ⟨value, .returned true⟩
  | missesMax {cells : Cells} {value seen : Nat} (current : Nat) : current ∈ cells.max →
      current ≠ seen → Step limit cells ⟨value, .raising seen⟩ cells (afterMax value current)

def filled : Recorder → Bool
  | ⟨_, .entered⟩ => false
  | ⟨_, .returned recorded⟩ => recorded
  | _ => true

def counted : Recorder → Bool
  | ⟨_, .counting⟩ => false
  | r => r.filled

/-- The least value is no greater than the call's from here on. -/
def passedMin : Recorder → Bool
  | ⟨_, .readingMax⟩ => true
  | ⟨_, .raising _⟩ => true
  | ⟨_, .returned recorded⟩ => recorded
  | _ => false

def passedMax : Recorder → Bool
  | ⟨_, .returned recorded⟩ => recorded
  | _ => false

/-- What a stage says about the value of its call. -/
def Sound (limit : Nat) : Recorder → Prop
  | ⟨_, .entered⟩ => True
  | ⟨value, .returned false⟩ => limit ≤ value
  | ⟨value, .lowering seen⟩ => value < limit ∧ value < seen
  | ⟨value, .raising seen⟩ => value < limit ∧ seen < value
  | ⟨value, _⟩ => value < limit

end Recorder

open Recorder

/-- A cell that only moves down `le`: it has held its start and values of `Held`, and is
below all values of `Passed`. -/
structure Extreme (le : Nat → Nat → Prop) (start : Nat) (Held Passed : Nat → Prop)
    (cell : List Nat) : Prop where
  last : ∃ value, cell.head? = some value ∧ (∀ seen ∈ cell, le value seen) ∧
    ∀ v, Passed v → le value v
  held : ∀ seen ∈ cell, seen = start ∨ Held seen

section Extreme
variable {le : Nat → Nat → Prop} {start : Nat} {Held Held' Passed Passed' : Nat → Prop}
variable {cell : List Nat}

theorem Extreme.mono (h : Extreme le start Held Passed cell) (hheld : ∀ v, Held v → Held' v)
    (hpassed : ∀ v, Passed' v → Passed v) : Extreme le start Held' Passed' cell := by
  obtain ⟨⟨value, hhead, hseen, hdone⟩, hall⟩ := h
  refine ⟨⟨value, hhead, hseen, fun v hv => hdone v (hpassed v hv)⟩, ?_⟩
  intro seen hmem
  exact (hall seen hmem).imp_right (hheld seen)

/-- A value that is already above something the cell has held passes. -/
theorem Extreme.pass (trans : ∀ {a b c}, le a b → le b c → le a c)
    (h : Extreme le start Held Passed cell) {value seen : Nat} (hseen : seen ∈ cell)
    (hle : le seen value) (hpassed : ∀ v, Passed' v → Passed v ∨ v = value) :
    Extreme le start Held Passed' cell := by
  obtain ⟨⟨last, hhead, hlast, hdone⟩, hall⟩ := h
  refine ⟨⟨last, hhead, hlast, ?_⟩, hall⟩
  intro v hv
  rcases hpassed v hv with hold | rfl
  · exact hdone v hold
  · exact trans (hlast seen hseen) hle

theorem Extreme.push (refl : ∀ a, le a a) (trans : ∀ {a b c}, le a b → le b c → le a c)
    (h : Extreme le start Held Passed cell) {value seen : Nat} (hhead : cell.head? = some seen)
    (hle : le value seen) (hvalue : Held value) (hpassed : ∀ v, Passed' v → Passed v ∨ v = value) :
    Extreme le start Held Passed' (value :: cell) := by
  obtain ⟨⟨last, hlasthead, hlast, hdone⟩, hall⟩ := h
  obtain rfl : last = seen := Option.some.inj (hlasthead.symm.trans hhead)
  constructor
  · refine ⟨value, rfl, ?_, ?_⟩
    · intro other hother
      rcases List.mem_cons.mp hother with rfl | hold
      · exact refl other
      · exact trans hle (hlast other hold)
    · intro v hv
      rcases hpassed v hv with hold | rfl
      · exact trans hle (hdone v hold)
      · exact refl v
  · intro other hother
    rcases List.mem_cons.mp hother with rfl | hold
    · exact .inr hvalue
    · exact hall other hold

end Extreme

/-- The values of the calls that are as far as `p` says. -/
def ValueOf (p : Recorder → Bool) (calls : List Recorder) (value : Nat) : Prop :=
  ∃ call ∈ calls, p call = true ∧ call.value = value

section ValueOf
variable {p : Recorder → Bool} {before after : List Recorder} {d d' : Recorder} {v : Nat}

theorem valueOf_mono (hvalue : d'.value = d.value) (hp : p d = true → p d' = true)
    (h : ValueOf p (before ++ d :: after) v) : ValueOf p (before ++ d' :: after) v := by
  obtain ⟨call, hmem, hcall, rfl⟩ := h
  rcases List.mem_append.mp hmem with hbefore | hafter
  · exact ⟨call, List.mem_append_left _ hbefore, hcall, rfl⟩
  · rcases List.mem_cons.mp hafter with rfl | hrest
    · exact ⟨d', List.mem_append_right _ List.mem_cons_self, hp hcall, hvalue⟩
    · exact ⟨call, List.mem_append_right _ (List.mem_cons_of_mem _ hrest), hcall, rfl⟩

theorem valueOf_replaced (hvalue : d'.value = d.value)
    (h : ValueOf p (before ++ d' :: after) v) :
    ValueOf p (before ++ d :: after) v ∨ (p d' = true ∧ v = d.value) := by
  obtain ⟨call, hmem, hcall, rfl⟩ := h
  rcases List.mem_append.mp hmem with hbefore | hafter
  · exact .inl ⟨call, List.mem_append_left _ hbefore, hcall, rfl⟩
  · rcases List.mem_cons.mp hafter with rfl | hrest
    · exact .inr ⟨hcall, hvalue⟩
    · exact .inl ⟨call, List.mem_append_right _ (List.mem_cons_of_mem _ hrest), hcall, rfl⟩

end ValueOf

/-- What the cells hold while the calls are under way. -/
structure Recording (limit : Nat) (values : List Nat) (cells : Cells) (calls : List Recorder) :
    Prop where
  values : calls.map Recorder.value = values
  sound : ∀ call ∈ calls, call.Sound limit
  buckets : cells.data.length = limit
  data : ∀ v < limit, cells.data[v]? =
    some (UInt64.ofNat (calls.countP fun call => call.filled && call.value == v))
  count : cells.count = UInt64.ofNat (calls.countP counted)
  min : Extreme (· ≤ ·) (word - 1) (ValueOf filled calls) (ValueOf passedMin calls) cells.min
  max : Extreme (· ≥ ·) 0 (ValueOf filled calls) (ValueOf passedMax calls) cells.max

section Steps
variable {limit : Nat} {values : List Nat} {g g' : Cells} {before after : List Recorder}
variable {d d' : Recorder}

variable (d d') in
theorem countP_kept (p : Recorder → Bool) (h : p d' = p d) :
    (before ++ d' :: after).countP p = (before ++ d :: after).countP p := by
  have hcount := countP_replaced p before after d d'
  rw [h] at hcount
  omega

variable (d d') in
theorem countP_gained (p : Recorder → Bool) (h : p d = false) (h' : p d' = true) :
    (before ++ d' :: after).countP p = (before ++ d :: after).countP p + 1 := by
  have hcount := countP_replaced p before after d d'
  rw [h, h', if_neg Bool.false_ne_true, if_pos rfl] at hcount
  omega

theorem Recording.frame (h : Recording limit values g (before ++ d :: after))
    (hvalue : d'.value = d.value) (hsound : d'.Sound limit) (hdata : g'.data = g.data)
    (hcount : g'.count = g.count) (hfilled : d'.filled = d.filled)
    (hcounted : d'.counted = d.counted)
    (hmin : Extreme (· ≤ ·) (word - 1) (ValueOf filled (before ++ d :: after))
      (ValueOf passedMin (before ++ d' :: after)) g'.min)
    (hmax : Extreme (· ≥ ·) 0 (ValueOf filled (before ++ d :: after))
      (ValueOf passedMax (before ++ d' :: after)) g'.max) :
    Recording limit values g' (before ++ d' :: after) := by
  have hheld : ∀ v, ValueOf filled (before ++ d :: after) v →
      ValueOf filled (before ++ d' :: after) v :=
    fun v => valueOf_mono hvalue (fun hd => hfilled.trans hd)
  refine ⟨?_, ?_, ?_, ?_, ?_, hmin.mono hheld fun v => id, hmax.mono hheld fun v => id⟩
  · exact (map_replaced _ hvalue).trans h.values
  · exact forall_replaced h.sound (fun _ => hsound) fun _ => id
  · exact (congrArg List.length hdata).trans h.buckets
  · intro v hv
    have hsame : (before ++ d' :: after).countP (fun call => call.filled && call.value == v) =
        (before ++ d :: after).countP (fun call => call.filled && call.value == v) :=
      countP_kept d d' _ (by rw [hfilled, hvalue])
    rw [hdata, hsame]
    exact h.data v hv
  · rw [hcount, countP_kept d d' counted hcounted]
    exact h.count

theorem ge_refl' (a : Nat) : a ≥ a := Nat.le_refl a

theorem ge_trans' {a b c : Nat} (h : a ≥ b) (h' : b ≥ c) : a ≥ c := Nat.le_trans h' h

theorem passed_kept {p : Recorder → Bool} (hvalue : d'.value = d.value)
    (hp : p d' = true → p d = true) (v : Nat) (h : ValueOf p (before ++ d' :: after) v) :
    ValueOf p (before ++ d :: after) v := by
  rcases valueOf_replaced hvalue h with hold | ⟨hd', rfl⟩
  · exact hold
  · exact ⟨d, List.mem_append_right _ List.mem_cons_self, hp hd', rfl⟩

theorem passed_replaced {p : Recorder → Bool} (hvalue : d'.value = d.value) (v : Nat)
    (h : ValueOf p (before ++ d' :: after) v) :
    ValueOf p (before ++ d :: after) v ∨ v = d.value :=
  (valueOf_replaced hvalue h).imp_right And.right

theorem Recording.readMin (h : Recording limit values g (before ++ d :: after)) {seen : Nat}
    (hd : d.value < limit) (hfilled : d.filled = true) (hcounted : d.counted = true)
    (hseen : seen ∈ g.min) :
    Recording limit values g (before ++ afterMin d.value seen :: after) := by
  unfold afterMin
  split
  · rename_i hless
    refine h.frame rfl ⟨hd, hless⟩ rfl rfl hfilled.symm hcounted.symm
      (h.min.mono (fun _ => id) (passed_kept rfl fun hp => nomatch hp))
      (h.max.mono (fun _ => id) (passed_kept rfl fun hp => nomatch hp))
  · rename_i hmore
    refine h.frame rfl hd rfl rfl hfilled.symm hcounted.symm
      (h.min.pass Nat.le_trans hseen (Nat.le_of_not_lt hmore) (passed_replaced rfl))
      (h.max.mono (fun _ => id) (passed_kept rfl fun hp => nomatch hp))

theorem Recording.readMax (h : Recording limit values g (before ++ d :: after)) {seen : Nat}
    (hd : d.value < limit) (hfilled : d.filled = true) (hcounted : d.counted = true)
    (hpassed : d.passedMin = true) (hseen : seen ∈ g.max) :
    Recording limit values g (before ++ afterMax d.value seen :: after) := by
  unfold afterMax
  split
  · rename_i hless
    refine h.frame rfl ⟨hd, hless⟩ rfl rfl hfilled.symm hcounted.symm
      (h.min.mono (fun _ => id) (passed_kept rfl fun _ => hpassed))
      (h.max.mono (fun _ => id) (passed_kept rfl fun hp => nomatch hp))
  · rename_i hmore
    refine h.frame rfl hd rfl rfl hfilled.symm hcounted.symm
      (h.min.mono (fun _ => id) (passed_kept rfl fun _ => hpassed))
      (h.max.pass ge_trans' hseen (Nat.le_of_not_lt hmore) (passed_replaced rfl))

/-- One atomic step of one call keeps the invariant. -/
theorem Recording.step (h : Recording limit values g (before ++ d :: after))
    (hstep : Recorder.Step limit g d g' d') :
    Recording limit values g' (before ++ d' :: after) := by
  have hsound : d.Sound limit := h.sound d (List.mem_append_right _ List.mem_cons_self)
  have hmem : d ∈ before ++ d :: after := List.mem_append_right _ List.mem_cons_self
  cases hstep with
  | rejects hlimit =>
    exact h.frame rfl hlimit rfl rfl rfl rfl
      (h.min.mono (fun _ => id) (passed_kept rfl fun hp => nomatch hp))
      (h.max.mono (fun _ => id) (passed_kept rfl fun hp => nomatch hp))
  | @fills value hlimit =>
    have hheld : ∀ v, ValueOf filled (before ++ ⟨value, .entered⟩ :: after) v →
        ValueOf filled (before ++ ⟨value, .counting⟩ :: after) v :=
      fun v => valueOf_mono rfl fun hd => nomatch hd
    refine ⟨(map_replaced Recorder.value (by rfl)).trans h.values,
      forall_replaced h.sound (fun _ => hlimit) fun _ => id,
      (List.length_modify _ _ _).trans h.buckets, ?_, ?_,
      h.min.mono hheld (passed_kept rfl fun hp => nomatch hp),
      h.max.mono hheld (passed_kept rfl fun hp => nomatch hp)⟩
    · intro v hv
      have hold := h.data v hv
      change (g.data.modify value (· + 1))[v]? = _
      rw [List.getElem?_modify, hold]
      by_cases hsame : value = v
      · subst hsame
        rw [countP_gained ⟨value, .entered⟩ ⟨value, .counting⟩ _ rfl
          (by simp [filled]), UInt64.ofNat_add, Option.map_eq_map, Option.map_some, if_pos rfl]
        rfl
      · rw [countP_kept ⟨value, .entered⟩ ⟨value, .counting⟩ _
          (by simp [filled, hsame]), Option.map_eq_map, Option.map_some, if_neg hsame]
    · exact h.count.trans (congrArg UInt64.ofNat
        (countP_kept ⟨value, .entered⟩ ⟨value, .counting⟩ counted rfl).symm)
  | @counts value =>
    have hheld : ∀ v, ValueOf filled (before ++ ⟨value, .counting⟩ :: after) v →
        ValueOf filled (before ++ ⟨value, .readingMin⟩ :: after) v :=
      fun v => valueOf_mono rfl fun _ => rfl
    refine ⟨(map_replaced Recorder.value (by rfl)).trans h.values,
      forall_replaced h.sound (fun _ => hsound) fun _ => id, h.buckets, ?_, ?_,
      h.min.mono hheld (passed_kept rfl fun hp => nomatch hp),
      h.max.mono hheld (passed_kept rfl fun hp => nomatch hp)⟩
    · intro v hv
      refine (h.data v hv).trans ?_
      rw [countP_kept ⟨value, .counting⟩ ⟨value, .readingMin⟩ _ rfl]
    · change g.count + 1 = _
      rw [countP_gained ⟨value, .counting⟩ ⟨value, .readingMin⟩ counted rfl rfl,
        UInt64.ofNat_add, h.count]
      rfl
  | readsMin seen hseen => exact h.readMin hsound rfl rfl hseen
  | missesMin current hcurrent _ => exact h.readMin hsound.1 rfl rfl hcurrent
  | readsMax seen hseen => exact h.readMax hsound rfl rfl rfl hseen
  | missesMax current hcurrent _ => exact h.readMax hsound.1 rfl rfl rfl hcurrent
  | lowers hhead =>
    exact h.frame rfl hsound.1 rfl rfl rfl rfl
      (h.min.push Nat.le_refl Nat.le_trans hhead (Nat.le_of_lt hsound.2) ⟨_, hmem, rfl, rfl⟩
        (passed_replaced rfl))
      (h.max.mono (fun _ => id) (passed_kept rfl fun hp => nomatch hp))
  | raises hhead =>
    exact h.frame rfl hsound.1 rfl rfl rfl rfl
      (h.min.mono (fun _ => id) (passed_kept rfl fun _ => rfl))
      (h.max.push ge_refl' ge_trans' hhead (Nat.le_of_lt hsound.2)
        ⟨_, hmem, rfl, rfl⟩ (passed_replaced rfl))

end Steps

def Cells.new (max : Nat) : Cells where
  data := (Histogram.new max).data
  count := (Histogram.new max).count
  min := [(Histogram.new max).min]
  max := [(Histogram.new max).max]

structure Shows (cells : Cells) (h : Histogram) : Prop where
  data : cells.data = h.data
  count : cells.count = h.count
  min : cells.min.head? = some h.min
  max : cells.max.head? = some h.max

section Alone
variable {limit value : Nat} {before after : List Recorder} {cells : Cells}

variable (before) in
theorem Moves.next {d d' : Recorder} {g g' : Cells} {s : Cells × List Recorder}
    (hstep : Step limit g d g' d')
    (hrest : Interleaved (Step limit) (g', before ++ d' :: after) s) :
    Interleaved (Step limit) (g, before ++ d :: after) s :=
  hrest.head (.mk before after hstep)

variable (limit value before after cells) in
theorem max_alone {last : Nat} (hlast : cells.max.head? = some last) :
    ∃ held, held.head? = some (if last < value then value else last) ∧
      Interleaved (Step limit) (cells, before ++ ⟨value, .readingMax⟩ :: after)
        ({ cells with max := held }, before ++ ⟨value, .returned true⟩ :: after) := by
  have hread : Step limit cells ⟨value, .readingMax⟩ cells (afterMax value last) :=
    .readsMax last (List.mem_of_mem_head? hlast)
  by_cases hless : last < value
  · rw [afterMax, if_pos hless] at hread
    rw [if_pos hless]
    exact ⟨value :: cells.max, rfl, Moves.next before hread (Moves.next before (.raises hlast) .refl)⟩
  · rw [afterMax, if_neg hless] at hread
    rw [if_neg hless]
    exact ⟨cells.max, hlast, Moves.next before hread .refl⟩

variable (limit value before after cells) in
theorem min_alone {last : Nat} (hlast : cells.min.head? = some last) :
    ∃ held, held.head? = some (if value < last then value else last) ∧
      Interleaved (Step limit) (cells, before ++ ⟨value, .readingMin⟩ :: after)
        ({ cells with min := held }, before ++ ⟨value, .readingMax⟩ :: after) := by
  have hread : Step limit cells ⟨value, .readingMin⟩ cells (afterMin value last) :=
    .readsMin last (List.mem_of_mem_head? hlast)
  by_cases hless : value < last
  · rw [afterMin, if_pos hless] at hread
    rw [if_pos hless]
    exact ⟨value :: cells.min, rfl, Moves.next before hread (Moves.next before (.lowers hlast) .refl)⟩
  · rw [afterMin, if_neg hless] at hread
    rw [if_neg hless]
    exact ⟨cells.min, hlast, Moves.next before hread .refl⟩

/-- One call after the other, the cells follow `Histogram.record`. -/
theorem record_alone {h : Histogram} (hshows : Shows cells h) :
    ∃ cells', Shows cells' (h.record value).2 ∧
      Interleaved (Step h.limit) (cells, before ++ ⟨value, .entered⟩ :: after)
        (cells', before ++ ⟨value, .returned (h.record value).1⟩ :: after) := by
  by_cases hlimit : h.limit ≤ value
  · rw [Histogram.record, if_pos hlimit]
    exact ⟨cells, hshows, Moves.next before (.rejects hlimit) .refl⟩
  · rw [Histogram.record, if_neg hlimit]
    have hless : value < h.limit := Nat.lt_of_not_le hlimit
    obtain ⟨mins, hmins, hlower⟩ := min_alone h.limit value before after
      { cells with data := cells.data.modify value (· + 1), count := cells.count + 1 } hshows.min
    obtain ⟨maxs, hmaxs, hraise⟩ := max_alone h.limit value before after
      ⟨cells.data.modify value (· + 1), cells.count + 1, mins, cells.max⟩ hshows.max
    refine ⟨⟨cells.data.modify value (· + 1), cells.count + 1, mins, maxs⟩, ?_,
      Moves.next before (.fills hless) (Moves.next before .counts (hlower.trans hraise))⟩
    exact ⟨congrArg (List.modify · value (· + 1)) hshows.data,
      congrArg (· + 1) hshows.count, hmins, hmaxs⟩

end Alone

namespace Recorder

def recorded : Recorder → Bool
  | ⟨_, .returned recorded⟩ => recorded
  | _ => false

def finished : Recorder → Bool
  | ⟨_, .returned _⟩ => true
  | _ => false

theorem finished_cases {d : Recorder} {limit : Nat} (h : d.finished = true)
    (hsound : d.Sound limit) :
    d.recorded = decide (d.value < limit) ∧ d.filled = d.recorded ∧ d.counted = d.recorded ∧
      d.passedMin = d.recorded ∧ d.passedMax = d.recorded := by
  obtain ⟨value, stage⟩ := d
  cases stage with
  | returned recorded =>
    refine ⟨?_, rfl, rfl, rfl, rfl⟩
    cases recorded with
    | true =>
      have hless : value < limit := hsound
      exact (decide_eq_true hless).symm
    | false =>
      have hmore : limit ≤ value := hsound
      exact (decide_eq_false (Nat.not_lt_of_le hmore)).symm
  | _ => cases h

end Recorder

def entering (values : List Nat) : List Recorder := values.map fun value => ⟨value, .entered⟩

def accepted (limit : Nat) (values : List Nat) : List Nat := values.filter (· < limit)

theorem Extreme.last_value {le : Nat → Nat → Prop} {start : Nat} {Held Passed : Nat → Prop}
    {cell : List Nat} (h : Extreme le start Held Passed cell) :
    ∃ value, cell.head? = some value ∧ (value = start ∨ Held value) ∧
      ∀ v, Passed v → le value v := by
  obtain ⟨⟨value, hhead, _, hpassed⟩, hheld⟩ := h
  exact ⟨value, hhead, hheld value (List.mem_of_mem_head? hhead), hpassed⟩

theorem Extreme.least {start : Nat} {cell xs : List Nat}
    (h : Extreme (· ≤ ·) start (· ∈ xs) (· ∈ xs) cell) (hstart : ∀ v ∈ xs, v < start) :
    cell.head? = some (xs.min?.getD start) := by
  obtain ⟨value, hhead, hheld, hpassed⟩ := h.last_value
  rw [hhead]
  by_cases hxs : xs = []
  · subst hxs
    rcases hheld with rfl | hmem
    · rfl
    · cases hmem
  · obtain ⟨v, hv⟩ := List.exists_mem_of_ne_nil xs hxs
    have hmem : value ∈ xs := by
      refine hheld.resolve_left ?_
      intro heq
      have hle := hpassed v hv
      have hlt := hstart v hv
      omega
    rw [List.min?_eq_some_iff.mpr ⟨hmem, hpassed⟩, Option.getD_some]

theorem Extreme.greatest {cell xs : List Nat}
    (h : Extreme (· ≥ ·) 0 (· ∈ xs) (· ∈ xs) cell) : cell.head? = some (xs.max?.getD 0) := by
  obtain ⟨value, hhead, hheld, hpassed⟩ := h.last_value
  rw [hhead]
  by_cases hxs : xs = []
  · subst hxs
    rcases hheld with rfl | hmem
    · rfl
    · cases hmem
  · obtain ⟨v, hv⟩ := List.exists_mem_of_ne_nil xs hxs
    have hmem : value ∈ xs := by
      rcases hheld with rfl | hmem
      · obtain rfl : v = 0 := Nat.le_zero.mp (hpassed v hv)
        exact hv
      · exact hmem
    rw [List.max?_eq_some_iff.mpr ⟨hmem, hpassed⟩, Option.getD_some]

theorem Extreme.congr {le : Nat → Nat → Prop} {start : Nat} {Held Held' Passed Passed' : Nat → Prop}
    {cell : List Nat} (h : Extreme le start Held Passed cell) (hheld : ∀ v, Held v ↔ Held' v)
    (hpassed : ∀ v, Passed v ↔ Passed' v) : Extreme le start Held' Passed' cell :=
  h.mono (fun v => (hheld v).mp) fun v => (hpassed v).mpr

/-- The least accepted value, what a fresh histogram holds when there is none. -/
def least (limit : Nat) (values : List Nat) : Nat := (accepted limit values).min?.getD (word - 1)

def greatest (limit : Nat) (values : List Nat) : Nat := (accepted limit values).max?.getD 0

structure Recorded (limit : Nat) (values : List Nat) (cells : Cells) (calls : List Recorder) :
    Prop where
  calls_values : calls.map Recorder.value = values
  returned : ∀ call ∈ calls, call.recorded = decide (call.value < limit)
  buckets : cells.data.length = limit
  data : ∀ v < limit, cells.data[v]? = some (UInt64.ofNat (values.count v))
  count : cells.count = UInt64.ofNat (calls.countP recorded)
  min : cells.min.head? = some (least limit values)
  max : cells.max.head? = some (greatest limit values)
  outside : ∀ v < limit, v < least limit values ∨ greatest limit values < v →
    cells.data[v]? = some 0

section Finished
variable {limit : Nat} {values : List Nat} {cells : Cells} {calls : List Recorder}

theorem valueOf_finished {p : Recorder → Bool} (hvalues : calls.map Recorder.value = values)
    (hp : ∀ call ∈ calls, p call = decide (call.value < limit)) (v : Nat) :
    ValueOf p calls v ↔ v ∈ accepted limit values := by
  subst hvalues
  constructor
  · rintro ⟨call, hmem, hcall, rfl⟩
    rw [hp call hmem] at hcall
    exact List.mem_filter.mpr ⟨List.mem_map_of_mem hmem, hcall⟩
  · intro h
    obtain ⟨hmem, hless⟩ := List.mem_filter.mp h
    obtain ⟨call, hcall, rfl⟩ := List.mem_map.mp hmem
    exact ⟨call, hcall, (hp call hcall).trans hless, rfl⟩

theorem Recording.start (max : Nat) (values : List Nat) :
    Recording ((max + 1) % word) values (Cells.new max) (entering values) := by
  have hentered : ∀ call ∈ entering values, ∃ value, call = ⟨value, .entered⟩ := by
    intro call hcall
    obtain ⟨value, _, rfl⟩ := List.mem_map.mp hcall
    exact ⟨value, rfl⟩
  have hnone : ∀ p : Recorder → Bool, (∀ value, p ⟨value, .entered⟩ = false) →
      (entering values).countP p = 0 := by
    intro p hp
    refine List.countP_eq_zero.mpr ?_
    intro call hcall
    obtain ⟨value, rfl⟩ := hentered call hcall
    rw [hp value]
    exact Bool.false_ne_true
  have hstart : ∀ (le : Nat → Nat → Prop) (start : Nat), le start start → ∀ p : Recorder → Bool,
      (∀ value, p ⟨value, .entered⟩ = false) → ∀ Held : Nat → Prop,
      Extreme le start Held (ValueOf p (entering values)) [start] := by
    intro le start hle p hp Held
    refine ⟨⟨start, rfl, fun seen hseen => ?_, fun v hv => ?_⟩, fun seen hseen => ?_⟩
    · rw [List.mem_singleton.mp hseen]
      exact hle
    · obtain ⟨call, hcall, hpassed, _⟩ := hv
      obtain ⟨value, rfl⟩ := hentered call hcall
      rw [hp value] at hpassed
      cases hpassed
    · exact .inl (List.mem_singleton.mp hseen)
  refine ⟨?_, ?_, (Histogram.new max).buckets, ?_, ?_, ?_, ?_⟩
  · rw [entering, List.map_map]
    exact List.map_id values
  · intro call hcall
    obtain ⟨value, rfl⟩ := hentered call hcall
    trivial
  · intro v hv
    rw [hnone (fun call => call.filled && call.value == v) fun _ => rfl]
    exact List.getElem?_replicate_of_lt hv
  · rw [hnone counted fun _ => rfl]
    rfl
  · exact hstart _ _ (Nat.le_refl _) passedMin (fun _ => rfl) _
  · exact hstart (· ≥ ·) 0 (Nat.le_refl 0) passedMax (fun _ => rfl) _

theorem count_outside {v : Nat} (hv : v < limit)
    (h : v < least limit values ∨ greatest limit values < v) : values.count v = 0 := by
  refine List.count_eq_zero.mpr ?_
  intro hmem
  have hacc : v ∈ accepted limit values := List.mem_filter.mpr ⟨hmem, decide_eq_true hv⟩
  have hne : accepted limit values ≠ [] := List.ne_nil_of_mem hacc
  rcases h with hless | hmore
  · obtain ⟨lo, hlo⟩ := Option.isSome_iff_exists.mp (List.isSome_min?_iff.mpr hne)
    have hle := (List.min?_eq_some_iff.mp hlo).2 v hacc
    rw [least, hlo, Option.getD_some] at hless
    omega
  · obtain ⟨hi, hhi⟩ := Option.isSome_iff_exists.mp (List.isSome_max?_iff.mpr hne)
    have hle := (List.max?_eq_some_iff.mp hhi).2 v hacc
    rw [greatest, hhi, Option.getD_some] at hmore
    omega

theorem Recording.finish (h : Recording limit values cells calls) (hlimit : limit < word)
    (hdone : ∀ call ∈ calls, call.finished = true) : Recorded limit values cells calls := by
  have hall : ∀ call ∈ calls, _ := fun call hcall =>
    finished_cases (hdone call hcall) (h.sound call hcall)
  have hless : ∀ v ∈ accepted limit values, v < word - 1 := by
    intro v hv
    have hv' : v < limit := of_decide_eq_true (List.mem_filter.mp hv).2
    omega
  have hdata : ∀ v < limit, cells.data[v]? = some (UInt64.ofNat (values.count v)) := by
    intro v hv
    rw [h.data v hv, ← h.values, List.count, List.countP_map]
    refine congrArg (fun n => some (UInt64.ofNat n)) (List.countP_congr ?_)
    intro call hcall
    obtain ⟨hrec, hfilled, _⟩ := hall call hcall
    rw [hfilled, hrec, Function.comp_apply, Bool.and_eq_true, decide_eq_true_eq]
    refine and_iff_right_of_imp ?_
    intro heq
    rw [eq_of_beq heq]
    exact hv
  refine ⟨h.values, fun call hcall => (hall call hcall).1, h.buckets, hdata, ?_, ?_, ?_, ?_⟩
  · rw [h.count]
    refine congrArg UInt64.ofNat (List.countP_congr ?_)
    intro call hcall
    rw [(hall call hcall).2.2.1]
  · refine (h.min.congr ?_ ?_).least hless
    · exact valueOf_finished h.values fun call hcall =>
        (hall call hcall).2.1.trans (hall call hcall).1
    · exact valueOf_finished h.values fun call hcall =>
        (hall call hcall).2.2.2.1.trans (hall call hcall).1
  · refine (h.max.congr ?_ ?_).greatest
    · exact valueOf_finished h.values fun call hcall =>
        (hall call hcall).2.1.trans (hall call hcall).1
    · exact valueOf_finished h.values fun call hcall =>
        (hall call hcall).2.2.2.2.trans (hall call hcall).1
  · intro v hv hout
    rw [hdata v hv, count_outside hv hout]
    rfl

/-- Below the width of a counter nothing wraps. -/
theorem Recorded.exact (h : Recorded limit values cells calls) (hlength : values.length < word) :
    (∀ v < limit, cells.data[v]?.map UInt64.toNat = some (values.count v)) ∧
      cells.count.toNat = calls.countP recorded := by
  have hcalls : calls.length = values.length := by
    rw [← h.calls_values, List.length_map]
  have hsize : word = UInt64.size := rfl
  constructor
  · intro v hv
    have hle : values.count v ≤ values.length := List.count_le_length
    rw [h.data v hv, Option.map_some, UInt64.toNat_ofNat_of_lt' (by omega)]
  · have hle : calls.countP recorded ≤ calls.length := List.countP_le_length
    rw [h.count, UInt64.toNat_ofNat_of_lt' (by omega)]

end Finished

/-- Calls in any number, their steps in any order: when all have finished the cells say
what was recorded. The counters wrap at the width of a word and at no other count. -/
theorem record_interleaved {max : Nat} {values : List Nat} {cells : Cells} {calls : List Recorder}
    (hrun : Interleaved (Step ((max + 1) % word)) (Cells.new max, entering values) (cells, calls))
    (hdone : ∀ call ∈ calls, call.finished = true) :
    Recorded ((max + 1) % word) values cells calls ∧
      (values.length < word →
        (∀ v < (max + 1) % word, cells.data[v]?.map UInt64.toNat = some (values.count v)) ∧
        cells.count.toNat = calls.countP recorded) := by
  have hrec : Recording ((max + 1) % word) values cells calls :=
    Interleaved.invariant (I := fun s => Recording ((max + 1) % word) values s.1 s.2) hrun
      (Recording.start max values) fun hstep h => h.step hstep
  have hfinish := hrec.finish (Nat.mod_lt _ (by decide)) hdone
  exact ⟨hfinish, hfinish.exact⟩

/-- Two threads race for the least value, and the exchange of the first one fails. -/
theorem race : Interleaved (Step ((9 + 1) % word)) (Cells.new 9, entering [5, 3])
    (⟨[0, 0, 0, 1, 0, 1, 0, 0, 0, 0], 2, [3, word - 1], [5, 0]⟩,
      [⟨5, .returned true⟩, ⟨3, .returned true⟩]) :=
  Moves.next [] (.fills (by decide)) <|
  Moves.next [] .counts <|
  Moves.next [] (.readsMin (word - 1) List.mem_cons_self) <|
  Moves.next [⟨5, .lowering (word - 1)⟩] (.fills (by decide)) <|
  Moves.next [⟨5, .lowering (word - 1)⟩] .counts <|
  Moves.next [⟨5, .lowering (word - 1)⟩] (.readsMin (word - 1) List.mem_cons_self) <|
  Moves.next [⟨5, .lowering (word - 1)⟩] (.lowers rfl) <|
  Moves.next [] (.missesMin 3 List.mem_cons_self (by decide)) <|
  Moves.next [] (.readsMax 0 List.mem_cons_self) <|
  Moves.next [] (.raises rfl) <|
  Moves.next [⟨5, .returned true⟩] (.readsMax 0 (by decide)) <|
  Moves.next [⟨5, .returned true⟩] (.missesMax 5 List.mem_cons_self (by decide)) <|
  .refl

theorem record_interleaved_race :
    Recorded ((9 + 1) % word) [5, 3] ⟨[0, 0, 0, 1, 0, 1, 0, 0, 0, 0], 2, [3, word - 1], [5, 0]⟩
      [⟨5, .returned true⟩, ⟨3, .returned true⟩] :=
  (record_interleaved race (by decide)).1

end Wrkrs
