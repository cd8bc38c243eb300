import Mathlib.Data.List.Forall2
import Mathlib.Data.List.ReduceOption
import Wrkrs.Pool
import Wrkrs.StatsWalks

/-!
# The latencies of a report

Every drained pipeline of every thread offers the time since its burst started. The histogram
of the report is the one of all these offers, corrected, and its percentiles are their ranks.
-/

namespace Wrkrs

set_option autoImplicit false
set_option maxRecDepth 4096

open Text Machine Runs Parallel Ranks

variable {ε σ : Type} {engine : ScriptEngine ε}

namespace Histogram

def records (h : Histogram) (values : List UInt64) : Histogram :=
  values.foldl (fun h value => (h.record value.toNat).2) h

section Records
variable {h : Histogram} {values : List UInt64}

theorem records_append (next : List UInt64) :
    h.records (values ++ next) = (h.records values).records next := List.foldl_append

theorem uses_records (h : Histogram) (values : List UInt64) :
    h.uses (values.map .record) = .ok (h.records values) := by
  induction values generalizing h with
  | nil => rfl
  | cons value values ih => exact ih _

theorem uses_corrected (h : Histogram) (values : List UInt64) (expected : Int64) :
    h.uses (values.map .record ++ [.correct expected]) = (h.records values).correct expected := by
  rw [uses, List.foldlM_append]
  change (h.uses (values.map .record) >>= _) = _
  rw [uses_records, ok_bind, List.foldlM_cons]
  change ((h.records values).correct expected >>= fun h => .ok h) = _
  cases (h.records values).correct expected <;> rfl

theorem records_limit (h : Histogram) (values : List UInt64) :
    (h.records values).limit = h.limit := by
  induction values generalizing h with
  | nil => rfl
  | cons value values ih => exact (ih _).trans (record_limit h value.toNat)

end Records

end Histogram

theorem record_extremes (h : Histogram) (value : Nat) :
    ((h.record value).2.min, (h.record value).2.max) =
      if value < h.limit then (min h.min value, max h.max value) else (h.min, h.max) := by
  unfold Histogram.record
  by_cases hvalue : h.limit ≤ value
  · rw [if_pos hvalue, if_neg (Nat.not_lt.mpr hvalue)]
  · rw [if_neg hvalue, if_pos (Nat.lt_of_not_le hvalue)]
    refine Prod.ext ?_ ?_
    · change (if value < h.min then value else h.min) = min h.min value
      split <;> omega
    · change (if h.max < value then value else h.max) = max h.max value
      split <;> omega

theorem records_extremes (h : Histogram) (values : List UInt64) :
    (h.records values).min = (accepted h.limit (values.map UInt64.toNat)).foldl min h.min ∧
      (h.records values).max = (accepted h.limit (values.map UInt64.toNat)).foldl max h.max := by
  induction values generalizing h with
  | nil => exact ⟨rfl, rfl⟩
  | cons value values ih =>
    obtain ⟨hmin, hmax⟩ := ih (h.record value.toNat).2
    have hfirst := record_extremes h value.toNat
    rw [Histogram.record_limit] at hmin hmax
    rw [List.map_cons, accepted, List.filter_cons, ← accepted]
    by_cases hvalue : value.toNat < h.limit
    · rw [if_pos hvalue] at hfirst
      obtain ⟨hleast, hgreatest⟩ := Prod.mk.inj hfirst
      rw [decide_eq_true hvalue, if_pos rfl, List.foldl_cons, List.foldl_cons, ← hleast,
        ← hgreatest]
      exact ⟨hmin, hmax⟩
    · rw [if_neg hvalue] at hfirst
      obtain ⟨hleast, hgreatest⟩ := Prod.mk.inj hfirst
      rw [decide_eq_false hvalue, if_neg Bool.false_ne_true, ← hleast, ← hgreatest]
      exact ⟨hmin, hmax⟩

/-- What the last response of a pipeline offers to the histogram at a clock. -/
def Answer.offer (engine : ScriptEngine ε) (a : Answer ε σ) (now : Nat) : Option UInt64 :=
  if a.drains engine then some (UInt64.ofNat (a.before.elapsed now)) else none

def Clocked (engine : ScriptEngine ε) : List (Answer ε σ) → List Nat → Prop :=
  List.Forall₂ fun a now => a.after = (a.before.respond engine now a.response).2

def offers (engine : ScriptEngine ε) (answers : List (Answer ε σ)) (clocks : List Nat) :
    List UInt64 :=
  (List.zipWith (Answer.offer engine) answers clocks).reduceOption

/-- The histogram has taken what the responses offer, in their order; what it refused has timed
out. -/
def Offered (engine : ScriptEngine ε) (before : Histogram) (answers : List (Answer ε σ))
    (after : Histogram) : Prop :=
  ∃ clocks, Clocked engine answers clocks ∧
    after = before.records (offers engine answers clocks) ∧
    answers.countP (Answer.timedOut engine) =
      (offers engine answers clocks).countP fun value => before.limit ≤ value.toNat

theorem offers_append {answers next : List (Answer ε σ)} {clocks later : List Nat}
    (h : Clocked engine answers clocks) :
    offers engine (answers ++ next) (clocks ++ later) =
      offers engine answers clocks ++ offers engine next later := by
  rw [offers, List.zipWith_append h.length_eq, List.reduceOption_append]
  rfl

theorem Offered.refl (h : Histogram) : Offered engine h ([] : List (Answer ε σ)) h :=
  ⟨[], .nil, rfl, rfl⟩

theorem Offered.append {before mid after : Histogram} {past next : List (Answer ε σ)}
    (h : Offered engine before past mid) (h' : Offered engine mid next after) :
    Offered engine before (past ++ next) after := by
  obtain ⟨clocks, hclocks, rfl, htimeouts⟩ := h
  obtain ⟨later, hlater, rfl, hlaterTimeouts⟩ := h'
  rw [Histogram.records_limit] at hlaterTimeouts
  refine ⟨clocks ++ later, List.rel_append hclocks hlater, ?_, ?_⟩
  · rw [offers_append hclocks, Histogram.records_append]
  · rw [offers_append hclocks, List.countP_append, List.countP_append, htimeouts, hlaterTimeouts]

theorem Endpoint.elapsed_lt (p : Endpoint ε σ) (now : Nat) : p.elapsed now < word := by
  unfold Endpoint.elapsed
  split
  · exact Nat.mod_lt _ (by decide)
  · decide

theorem offers_singleton (engine : ScriptEngine ε) (a : Answer ε σ) (now : Nat) :
    offers engine [a] [now] = (a.offer engine now).toList := by
  rw [offers, List.zipWith_cons_cons, List.zipWith_nil_left]
  cases a.offer engine now <;> rfl

theorem respond_offered (engine : ScriptEngine ε) (now : Nat) (p : Endpoint ε σ) (r : Response) :
    Offered engine p.ctx.latency [⟨p, r, (p.respond engine now r).2⟩]
      (p.respond engine now r).2.ctx.latency := by
  refine ⟨[now], .cons rfl .nil, ?_⟩
  obtain ⟨answer, state, hdeliver⟩ : ∃ answer state,
      Endpoint.deliver engine p.ctx.wantsResponse p.ctx.engine r = (answer, state) := ⟨_, _, rfl⟩
  have hone := p.pending_last
  have hdrains : Answer.drains engine ⟨p, r, (p.respond engine now r).2⟩ =
      (answer.isOk && p.connection.pending == 1) := by
    unfold Answer.drains Answer.pulse
    rw [hdeliver]
    rfl
  have htimedOut : Answer.timedOut engine ⟨p, r, (p.respond engine now r).2⟩ =
      ((p.respond engine now r).2.ctx.counters.errors.timeout !=
        p.ctx.counters.errors.timeout) := rfl
  rw [offers_singleton, Answer.offer, hdrains, List.countP_singleton, htimedOut,
    Endpoint.respond_eq hdeliver]
  cases answer with
  | error error =>
    dsimp only
    rw [Endpoint.answered_timeout, bne_self_eq_false]
    exact ⟨rfl, rfl⟩
  | ok _ =>
    have htimeout : (p.answered r state).countDown.ctx.counters.errors.timeout =
        p.ctx.counters.errors.timeout := Endpoint.answered_timeout p r state
    have hlatency : (p.answered r state).countDown.ctx.latency = p.ctx.latency := rfl
    dsimp only
    by_cases hzero : (p.answered r state).countDown.connection.pending = 0
    · have hlast : (p.connection.pending == 1) = true := beq_iff_eq.mpr (hone.mp hzero)
      have helapsed : (p.answered r state).countDown.elapsed now = p.elapsed now := rfl
      have hword : (UInt64.ofNat (p.elapsed now)).toNat = p.elapsed now :=
        UInt64.toNat_ofNat_of_lt' (p.elapsed_lt now)
      rw [if_pos hzero, hlast]
      dsimp only
      rw [Endpoint.drained_latency, Endpoint.drained_timeout, hlatency, htimeout, helapsed]
      refine ⟨congrArg (fun value => (p.ctx.latency.record value).2) hword.symm, ?_⟩
      change _ = [UInt64.ofNat (p.elapsed now)].countP _
      rw [List.countP_singleton, hword]
      unfold Histogram.record
      by_cases hlimit : p.ctx.latency.limit ≤ p.elapsed now
      · simp [hlimit]
      · simp [hlimit]
    · have hlast : (p.connection.pending == 1) = false := beq_false_of_ne (mt hone.mpr hzero)
      rw [if_neg hzero, hlast]
      split
      · dsimp only
        rw [htimeout, bne_self_eq_false]
        exact ⟨rfl, rfl⟩
      · dsimp only
        rw [htimeout, bne_self_eq_false]
        exact ⟨rfl, rfl⟩

theorem offered_enters (engine : ScriptEngine ε) :
    Enters engine fun (before : Thread ε) (answers : List (Answer ε σ)) after =>
      Offered engine before.latency answers after.latency where
  quiet _ _ _ _ hlatency := by
    rw [hlatency]
    exact .refl _
  append := .append
  respond := respond_offered engine

section Runs
variable {b : Bench ε σ} {g g' : Shared} {t t' : LoopState ε σ} {deed : Deed ε σ}
variable {ms ms' : List (Member ε σ)} {as : List (Option (Nat × Deed ε σ))}

theorem Advances.offered (h : Advances b g t deed g' t')
    (hshared : t.worker.thread.latency = g.latency) :
    Offered b.driver.engine g.latency deed.answers g'.latency := by
  cases h with
  | polls => exact .refl _
  | skips => exact .refl _
  | @handles index r rest s _ _ hready =>
    rw [← hshared]
    exact SlotLoop.ready_enters (offered_enters b.driver.engine) hready
  | handled => exact .refl _
  | fires => exact .refl _
  | rests => exact .refl _
  | ticks o _ hdue =>
    have hrate : (t.recordRate b o g).1.latency = g.latency := by
      unfold LoopState.recordRate
      split <;> rfl
    have htick : (t.tick b o g).1.latency = g.latency := by
      unfold LoopState.tick
      rw [if_pos hdue]
      exact hrate
    rw [htick]
    exact .refl _
  | early => exact .refl _
  | checks => exact .refl _

theorem MemberStep.offered {m m' : Member ε σ} (h : MemberStep b g m deed g' m') :
    Offered b.driver.engine g.latency deed.answers g'.latency := by
  cases h with
  | mk htakes =>
    exact Advances.offered (b := b.requesting m.request) (t := m.loop.sharing g) htakes rfl

/-- The shared histogram takes the offers of all threads, in the order of their steps. -/
theorem pooled_offered (h : Pooled b (g, ms) as (g', ms')) :
    Offered b.driver.engine g.latency (allAnswers as) g'.latency := by
  apply RunWhile.history
    (I := fun as (s : Shared × List (Member ε σ)) =>
      Offered b.driver.engine g.latency (allAnswers as) s.1.latency) h
  · exact .refl _
  · intro as s a u hs _ hstep
    rw [allAnswers_append]
    cases hstep with
    | thread i _ hone => exact hs.append hone.offered
    | outside ds hraises =>
      obtain rfl := hraises
      exact hs.append (.refl _)

end Runs

namespace Histogram

def shown (expected : Int64) (seen : List Nat) (value : Nat) : Nat :=
  if expected ≤ 0 then seen.count value
  else snapshot expected.toInt.toNat (seen.foldl Nat.max 0) seen.count value

/-- The histogram of some values after the correction, and its ranks. -/
structure Shows (build : Build) (expected : Int64) (seen : List Nat) (h : Histogram) : Prop where
  held : ∀ value, h.held value = shown expected seen value
  count : h.count.toNat = ∑ value ∈ Finset.range h.limit, shown expected seen value
  ranked : Ranked build (seen ≠ []) h

section Corrected
variable {h : Histogram} {counts : Nat → Nat}

theorem Tallies.held_eq (ht : Tallies counts h)
    (hfits : ∑ value ∈ Finset.range h.limit, counts value < word) (value : Nat) :
    h.held value = counts value := by
  by_cases hvalue : value < h.limit
  · exact (ht.exact hfits).1 value hvalue
  · have houtside := ht.outside value (Nat.le_of_not_lt hvalue)
    rw [ht.held_zero houtside, houtside]

theorem Ranged.card_le {limit : Nat} {filled : Prop} (hr : Ranged limit filled h)
    (hs : Settled h) : h.visible.card ≤ ∑ value ∈ Finset.range h.limit, h.held value := by
  have hmax : h.max < h.limit ∨ h.max < h.min := by
    by_cases hfilled : filled
    · exact .inl (hr.limit ▸ (hr.within hfilled).2)
    · obtain ⟨hmin, hzero⟩ := hr.empty hfilled
      rw [hmin, hzero]
      exact .inr (by decide)
  have habove := hs.sum_above (fun _ => 1) hmax
  simp only [Nat.mul_one] at habove
  rw [visible, Multiset.card_sum]
  simp only [Multiset.card_replicate]
  rw [habove]
  exact Finset.sum_le_sum_of_subset (Finset.filter_subset _ _)

theorem filled_iff {max : Nat} {values : List UInt64} {expected : Int64} :
    Filled ((max + 1) % word) (values.map .record ++ [.correct expected]) ↔
      taken max values ≠ [] := by
  rw [taken, ne_eq, accepted, List.filter_eq_nil_iff]
  constructor
  · intro hfilled hnone
    obtain ⟨value, hmem, hless⟩ := hfilled
    rcases List.mem_append.mp hmem with hrecord | hcorrect
    · obtain ⟨other, hother, hsame⟩ := List.mem_map.mp hrecord
      obtain rfl := Use.record.inj hsame
      exact hnone _ (List.mem_map_of_mem hother) (decide_eq_true hless)
    · cases List.mem_singleton.mp hcorrect
  · intro hsome
    by_contra hfilled
    apply hsome
    intro n hn hless
    obtain ⟨value, hvalue, rfl⟩ := List.mem_map.mp hn
    exact hfilled ⟨value, List.mem_append_left _ (List.mem_map_of_mem hvalue),
      of_decide_eq_true hless⟩

theorem records_show {max : Nat} {values : List UInt64} {expected : Int64} (build : Build)
    (hcorrect : ((new max).records values).correct expected = .ok h)
    (hfits : ∑ value ∈ Finset.range ((max + 1) % word), shown expected (taken max values) value <
      word) :
    Shows build expected (taken max values) h := by
  have hrecords := uses_records (new max) values
  obtain ⟨hlimit, hkept⟩ := kept hrecords
  obtain ⟨hrecorded, -⟩ := reached hrecords
  obtain ⟨hr, hs⟩ := reached ((uses_corrected (new max) values expected).trans hcorrect)
  have htallies : Tallies (shown expected (taken max values)) h := by
    by_cases hexpected : expected ≤ 0
    · rw [correct, if_pos hexpected] at hcorrect
      obtain rfl := Except.ok.inj hcorrect
      have hshown : shown expected (taken max values) = (taken max values).count := by
        funext value
        rw [shown, if_pos hexpected]
      rw [hshown]
      exact hkept.tallies
    · obtain ⟨h', hcorrect', -, hcounts⟩ := hkept.tallies.correct hrecorded hexpected
      obtain rfl := Except.ok.inj (hcorrect'.symm.trans hcorrect)
      have hshown : shown expected (taken max values) =
          snapshot expected.toInt.toNat ((new max).records values).max
            (taken max values).count := by
        funext value
        rw [shown, if_neg hexpected, (records_extremes (new max) values).2]
        rfl
      rw [hshown]
      exact hcounts
  rw [← hr.limit] at hfits
  have hheld := htallies.held_eq hfits
  refine ⟨hheld, (htallies.exact hfits).2, ?_⟩
  have hcard := hr.card_le hs
  simp only [hheld] at hcard
  exact (hr.congr filled_iff.symm).ranked build (Nat.lt_of_le_of_lt hcard hfits)

end Corrected

end Histogram

/-- The average interval of a connection, if any; the correction takes none below one. -/
def RunReport.interval (report : RunReport) (connections : Nat) : Int64 :=
  if 0 < connections ∧ 0 < report.complete / connections then
    (UInt64.ofNat (report.durationUs / (report.complete / connections))).toInt64
  else 0

/-- What a report shows of the values that the pipelines offered. -/
structure RunReport.Shows (build : Build) (max connections : Nat) (values : List UInt64)
    (report : RunReport) : Prop where
  timeouts : report.errors.timeout = values.countP fun value => (max + 1) % word ≤ value.toNat
  least : report.latency.min = (Histogram.taken max values).foldl Nat.min (word - 1)
  greatest : report.latency.max = (Histogram.taken max values).foldl Nat.max 0
  corrected : ∑ value ∈ Finset.range ((max + 1) % word),
      Histogram.shown (report.interval connections) (Histogram.taken max values) value < word →
    report.latency.Shows build (report.interval connections) (Histogram.taken max values)

section Reports
variable {b : Bench ε σ} {g g' : Shared} {ms ms' : List (Member ε σ)}
variable {as : List (Option (Nat × Deed ε σ))}

theorem execute_latency {connections durationUs : Nat} {workers : List Counters}
    {report : RunReport} (h : execute connections durationUs g workers = .ok report) :
    g.latency.correct (report.interval connections) = .ok report.latency := by
  unfold execute at h
  dsimp only at h
  unfold RunReport.interval
  by_cases hinterval : 0 < connections ∧
      0 < (workers.foldl Totals.join .zero).complete / connections
  · rw [if_pos hinterval] at h
    obtain ⟨latency, hlatency, hreport⟩ := bind_eq_ok.mp h
    obtain rfl := Except.ok.inj hreport
    rw [if_pos hinterval]
    exact hlatency
  · rw [if_neg hinterval] at h
    obtain rfl := Except.ok.inj h
    rw [if_neg hinterval]
    rfl

/-- The percentiles of a report are ranks of what its threads measured: each drained pipeline
of each thread offers the time since its burst started, in the order of the steps; those over
the limit are the timeouts, and the histogram is the corrected one of the others. -/
theorem report_latencies {max connections durationUs : Nat} {report : RunReport} (build : Build)
    (hnew : g.latency = .new max) (hms : ∀ m ∈ ms, b.Entered m)
    (h : Pooled b (g, ms) as (g', ms'))
    (hreport : execute connections durationUs g' (ms'.map Member.counters) = .ok report) :
    ∃ clocks, Clocked b.driver.engine (allAnswers as) clocks ∧
      report.Shows build max connections (offers b.driver.engine (allAnswers as) clocks) := by
  obtain ⟨-, -, htimeouts⟩ := report_counts hms h hreport
  obtain ⟨clocks, hclocks, hoffered, hrefused⟩ := pooled_offered h
  refine ⟨clocks, hclocks, ?_⟩
  generalize offers b.driver.engine (allAnswers as) clocks = values at hoffered hrefused
  have hcorrect := execute_latency hreport
  rw [hoffered, hnew] at hcorrect
  obtain ⟨hleast, hgreatest⟩ := records_extremes (.new max) values
  obtain ⟨h', hcorrect', hsame⟩ :=
    (Histogram.reached (Histogram.uses_records (.new max) values)).1.correct
      (report.interval connections)
  obtain rfl := Except.ok.inj (hcorrect'.symm.trans hcorrect)
  constructor
  · rw [htimeouts, hrefused, hnew]
    rfl
  · rw [hsame.min]
    exact hleast
  · rw [hsame.max]
    exact hgreatest
  · exact Histogram.records_show build hcorrect

/-- Two threads with one connection each, over six microseconds. -/
theorem report_latencies_sample :
    ∃ (answers : List (Answer HostedEngine (List Bytes × Bytes))) (clocks : List Nat)
      (report : RunReport), report.interval 2 = 6 ∧
      Clocked stopBench.driver.engine answers clocks ∧
      report.Shows .release 9 2 (offers stopBench.driver.engine answers clocks) := by
  obtain ⟨as, h⟩ := turned stopBench stopTurns stopPool
  have hms : ∀ m ∈ stopPool.2, stopBench.Entered m := by
    intro m hm
    obtain rfl | rfl := List.mem_pair.mp hm
    all_goals exact stopMember_entered
  obtain ⟨report, hreport, hcomplete, hduration⟩ : ∃ report,
      execute 2 6 stopPooled.1 (stopPooled.2.map Member.counters) = .ok report ∧
        report.complete = 2 ∧ report.durationUs = 6 := by
    rw [stopPooled_counters]
    exact ⟨_, rfl, rfl, rfl⟩
  obtain ⟨clocks, hclocks, hshows⟩ := report_latencies .release rfl hms h hreport
  refine ⟨allAnswers as, clocks, report, ?_, hclocks, hshows⟩
  rw [RunReport.interval, hcomplete, hduration]
  rfl

end Reports

end Wrkrs
