import Wrkrs.Ledger
import Wrkrs.LoopSchedule
import Wrkrs.StopLimits

/-!
# A whole run

The threads of `execute` over their shared histograms, the flag that the main thread
raises, and the report of the joined counters. Each thread runs as a worker alone, and the
report adds up to the responses that all threads processed.
-/

namespace Wrkrs

set_option autoImplicit false
set_option maxRecDepth 4096

open Text Machine Runs Parallel

variable {ε σ : Type}

structure Member (ε σ : Type) where
  request : Option Bytes
  loop : LoopState ε σ

def Member.counters (m : Member ε σ) : Counters := m.loop.worker.thread.counters

/-- The bench of a thread: each asks its own engine for the static request. -/
def Bench.requesting (b : Bench ε σ) (request : Option Bytes) : Bench ε σ where
  driver := { b.driver with config := { b.driver.config with staticRequest := request } }
  handle := b.handle
  sample := b.sample

/-- A thread before its loop, or the message that ends the process. -/
def Bench.enter (b : Bench ε σ) (latency : Histogram) (opened : List (Option σ)) (state : ε)
    (now began : Nat) : Except Str (Member ε σ) :=
  if b.driver.config.dynamic then
    .ok ⟨none, .start (b.requesting none).driver.config opened ⟨latency, .zero, state⟩ now began⟩
  else
    match b.driver.engine.request state with
    | (.ok bytes, state) =>
      .ok ⟨some bytes, .start (b.requesting (some bytes)).driver.config opened
        ⟨latency, .zero, state⟩ now began⟩
    | (.error error, _) => .error error.rawMessage

def Bench.Entered (b : Bench ε σ) (m : Member ε σ) : Prop :=
  ∃ latency opened state now began, b.enter latency opened state now began = .ok m

inductive MemberStep (b : Bench ε σ) :
    Shared → Member ε σ → Deed ε σ → Shared → Member ε σ → Prop where
  | mk {g g' : Shared} {m : Member ε σ} {deed : Deed ε σ} {t : LoopState ε σ} :
      Takes (b.requesting m.request) g m.loop deed g' t →
      MemberStep b g m deed g' { m with loop := t }

/-- The main thread raises the flag of all, at its deadline or when interrupted. -/
def Raises (g g' : Shared) : Prop := g' = { g with stop := true }

abbrev Pooled (b : Bench ε σ) : Shared × List (Member ε σ) →
    List (Option (Nat × Deed ε σ)) → Shared × List (Member ε σ) → Prop :=
  Run (Acts (MemberStep b) Raises)

def Bench.turn (b : Bench ε σ) (s : Shared × List (Member ε σ)) (at' : Nat × Outside σ) :
    Shared × List (Member ε σ) :=
  match s.2[at'.1]? with
  | none => s
  | some m =>
    let u := LoopState.next (b.requesting m.request) at'.2 (s.1, m.loop)
    (u.1, s.2.set at'.1 { m with loop := u.2 })

theorem turned (b : Bench ε σ) (turns : List (Nat × Outside σ))
    (s : Shared × List (Member ε σ)) : ∃ as, Pooled b s as (turns.foldl b.turn s) := by
  induction turns using List.reverseRecOn with
  | nil => exact ⟨[], .refl s⟩
  | append_singleton turns at' ih =>
    obtain ⟨as, hrun⟩ := ih
    rw [List.foldl_append, List.foldl_cons, List.foldl_nil]
    generalize turns.foldl b.turn s = u at hrun
    unfold Bench.turn
    cases hm : u.2[at'.1]? with
    | none => exact ⟨as, hrun⟩
    | some m =>
      rcases next_takes (b.requesting m.request) at'.2 (u.1, m.loop) with hsame | ⟨deed, htakes⟩
      · obtain ⟨hat, rfl⟩ := List.getElem?_eq_some_iff.mp hm
        refine ⟨as, ?_⟩
        dsimp only
        rw [hsame, List.set_getElem_self hat]
        exact hrun
      · exact ⟨_, hrun.tail (.thread at'.1 hm (.mk htakes))⟩

/-- The stop flag that the engine of a benchmark file raises. -/
def ConfigEngine.stopHandle : StopHandle ConfigEngine.scriptEngine where
  stopped := HostedEngine.stopped
  delay := fun _ h => h
  request := fun _ h => h
  response := by
    intro hosted _ _ _ h
    exact Bool.or_eq_true_iff.mpr (.inl h)

/-- The bench of all threads of a run of a benchmark file. -/
def ConfigEngine.bench (engine : ConfigEngine) (build : Build) (parse : ResponseParser)
    (socket : Socket σ) (pipeline : UInt64) (sample : Nat → Nat → Nat) : Bench HostedEngine σ where
  driver := engine.driver build parse socket pipeline
  handle := ConfigEngine.stopHandle
  sample := sample

def stopBench : Bench HostedEngine (List Bytes × Bytes) :=
  stopEngine.bench .release reference queueSocket 1
    (fun requests elapsed => requests * 1000000 / elapsed)

def stopMember : Member HostedEngine (List Bytes × Bytes) where
  request := some stopEngine.request
  loop := .start (stopBench.requesting (some stopEngine.request)).driver.config [some ([], [])]
    ⟨.new 9, .zero, ⟨stopEngine.init, false⟩⟩ 0 0

theorem stopMember_entered : stopBench.Entered stopMember :=
  ⟨.new 9, [some ([], [])], ⟨stopEngine.init, false⟩, 0, 0, rfl⟩

def stopPoll : Outside (List Bytes × Bytes) where
  polled := .ok [(0, readiness [ascii "HTTP/1.1 200 OK\r\nContent-Length: 2\r\n\r\nhi"] false true),
    (0, readiness [] false true), (0, readiness [] true false)]
  now := 0
  sampledAt := 0
  restartedAt := 0

/-- Both threads poll, and the answers of the second one come first. -/
def stopTurns : List (Nat × Outside (List Bytes × Bytes)) :=
  (0, stopPoll) :: List.replicate 4 (1, stopPoll) ++ List.replicate 3 (0, stopPoll)

def stopPool : Shared × List (Member HostedEngine (List Bytes × Bytes)) :=
  (⟨.new 9, .new 9, false⟩, [stopMember, stopMember])

def stopPooled : Shared × List (Member HostedEngine (List Bytes × Bytes)) :=
  stopTurns.foldl stopBench.turn stopPool

theorem stopPooled_counters : stopPooled.2.map Member.counters =
    [⟨1, 1, 40, ⟨0, 0, 0, 0, 0⟩⟩, ⟨1, 1, 40, ⟨0, 0, 0, 0, 0⟩⟩] := by rfl

/-- The sums over the joined counters, which are the `u64`s of the code below 2^64. -/
structure Totals where
  complete : Nat
  bytes : Nat
  errors : ErrorCounts

def Totals.zero : Totals := ⟨0, 0, ⟨0, 0, 0, 0, 0⟩⟩

def Totals.join (sum : Totals) (counters : Counters) : Totals where
  complete := sum.complete + counters.complete
  bytes := sum.bytes + counters.bytes
  errors :=
    { connect := sum.errors.connect + counters.errors.connect
      read := sum.errors.read + counters.errors.read
      write := sum.errors.write + counters.errors.write
      status := sum.errors.status + counters.errors.status
      timeout := sum.errors.timeout + counters.errors.timeout }

structure RunReport where
  durationUs : Nat
  complete : Nat
  bytes : Nat
  errors : ErrorCounts
  latency : Histogram
  rate : Histogram

/-- The end of `execute`: the counters of the joined workers, and the correction over the
average interval. -/
def execute (connections durationUs : Nat) (g : Shared) (workers : List Counters) :
    Except Fault RunReport := do
  let sum := workers.foldl Totals.join .zero
  let latency ←
    if 0 < connections ∧ 0 < sum.complete / connections then
      let interval := durationUs / (sum.complete / connections)
      g.latency.correct (UInt64.ofNat interval).toInt64
    else .ok g.latency
  return ⟨durationUs, sum.complete, sum.bytes, sum.errors, latency, g.rate⟩

section Threads
variable {b : Bench ε σ} {g g' : Shared} {ms ms' : List (Member ε σ)} {m m' : Member ε σ}
variable {as : List (Option (Nat × Deed ε σ))} {i : Nat}

theorem MemberStep.stop {deed : Deed ε σ} (h : MemberStep b g m deed g' m') :
    g'.stop = g.stop := by
  cases h with
  | mk htakes => exact Advances.stop htakes

theorem seen_looped {labels : List (Option (Deed ε σ))}
    (h : Run (Seen (MemberStep b) Raises) (g, m) labels (g', m')) :
    m'.request = m.request ∧
      Looped (b.requesting m.request) (g, m.loop) labels (g', m'.loop) := by
  generalize hs : (g, m) = s at h
  generalize hu : (g', m') = u at h
  induction h generalizing g' m' with
  | refl =>
    obtain ⟨rfl, rfl⟩ := Prod.mk.inj (hs.trans hu.symm)
    exact ⟨rfl, .refl _⟩
  | @tail v u labels label _ _ hlast ih =>
    obtain ⟨v₁, v₂⟩ := v
    obtain ⟨hrequest, hrun⟩ := ih rfl
    subst hu
    cases hlast with
    | own hstep =>
      cases hstep with
      | mk htakes =>
        refine ⟨hrequest, hrun.tail (.own ?_)⟩
        rw [← hrequest]
        exact htakes
    | other d hstep => exact ⟨hrequest, hrun.tail (.outside _ (hstep.stop.trans ·))⟩
    | outside d hraises =>
      refine ⟨hrequest, hrun.tail (.outside _ ?_)⟩
      intro _
      exact congrArg Shared.stop hraises

theorem pooled_looped (h : Pooled b (g, ms) as (g', ms')) (hm : ms[i]? = some m) :
    ∃ t, ms'[i]? = some { m with loop := t } ∧
      Looped (b.requesting m.request) (g, m.loop) (as.map (ofThread i)) (g', t) := by
  obtain ⟨m', hm', hseen⟩ := seen_run h hm
  obtain ⟨hrequest, hlooped⟩ := seen_looped hseen
  refine ⟨m'.loop, ?_, hlooped⟩
  rw [← hrequest]
  exact hm'

/-- What every handler keeps of a worker holds in a run of all threads of the responses of its
own thread, and the thread ends for a flag. -/
theorem pooled_kept {I : List (Answer ε σ) → Thread ε → Prop} {opened : List (Option σ)}
    {thread : Thread ε} {now began : Nat} (hI : Kept (b.requesting m.request).driver I)
    (h : Pooled b (g, ms) as (g', ms')) (hm : ms[i]? = some m)
    (hstart : m.loop = .start (b.requesting m.request).driver.config opened thread now began)
    (hthread : I [] thread) :
    ∃ t, ms'[i]? = some { m with loop := t } ∧
      I ((own i as).flatMap Deed.answers) t.worker.thread ∧
      (t.stage = .ended → g'.stop = true ∨ t.stopped b = true) := by
  obtain ⟨t, ht, hlooped⟩ := pooled_looped h hm
  rw [hstart] at hlooped
  obtain ⟨answers, hrun, hanswers⟩ := looped_worker hlooped
  rw [ownDeeds, own_map] at hanswers
  have hkept := (hI.carried.run hthread hrun).thread
  rw [hanswers] at hkept
  have hgoes : (LoopState.start (b.requesting m.request).driver.config opened thread now
      began).stage ≠ .ended := by
    intro hended
    cases hended
  have hends := looped_ends hlooped hgoes
  exact ⟨t, ht, hkept, hends⟩

/-- In a run of all threads each worker does what a worker alone can do, with the latencies
that other threads record in between. -/
theorem pooled_worker (h : Pooled b (g, ms) as (g', ms')) (hm : ms[i]? = some m) :
    ∃ t answers, ms'[i]? = some { m with loop := t } ∧
      Run (Worker.Step (b.requesting m.request).driver) m.loop.worker answers t.worker ∧
      answers.flatten = (own i as).flatMap Deed.answers := by
  obtain ⟨t, ht, hlooped⟩ := pooled_looped h hm
  obtain ⟨answers, hrun, hanswers⟩ := looped_worker hlooped
  refine ⟨t, answers, ht, hrun, ?_⟩
  rw [hanswers, ownDeeds, own_map]

theorem pooled_worker_sample :
    ∃ as t answers, stopPooled.2[1]? = some { stopMember with loop := t } ∧
      Run (Worker.Step (stopBench.requesting stopMember.request).driver) stopMember.loop.worker
        answers t.worker ∧
      answers.flatten = (own 1 as).flatMap Deed.answers := by
  obtain ⟨as, h⟩ := turned stopBench stopTurns stopPool
  exact ⟨as, pooled_worker h rfl⟩

end Threads

/-- All responses of a run in the order of its steps, whichever thread processed them. -/
def allAnswers (as : List (Option (Nat × Deed ε σ))) : List (Answer ε σ) :=
  as.flatMap fun a => (a.map fun a => a.2.answers).getD []

section Totals
variable {b : Bench ε σ} {g g' : Shared} {ms ms' : List (Member ε σ)}
variable {as : List (Option (Nat × Deed ε σ))}

theorem MemberStep.entered {m m' : Member ε σ} {deed : Deed ε σ}
    (h : MemberStep b g m deed g' m') :
    Entered b.driver.engine deed g m.counters g' m'.counters := by
  cases h with
  | mk htakes => exact Takes.entered (b := b.requesting m.request) htakes

theorem allAnswers_append (as : List (Option (Nat × Deed ε σ))) (a : Option (Nat × Deed ε σ)) :
    allAnswers (as ++ [a]) = allAnswers as ++ (a.map fun a => a.2.answers).getD [] := by
  rw [allAnswers, List.flatMap_append, List.flatMap_singleton]
  rfl

theorem total_countP (p : Answer ε σ → Bool) (as : List (Option (Nat × Deed ε σ))) :
    total (fun deed => deed.answers.countP p) as = (allAnswers as).countP p := by
  unfold total allAnswers
  rw [List.countP_flatMap]
  congr 1
  apply List.map_congr_left
  intro a _
  cases a <;> rfl

theorem total_length (as : List (Option (Nat × Deed ε σ))) :
    total (fun deed => deed.answers.length) as = (allAnswers as).length := by
  have hcount := total_countP (fun _ => true) as
  simpa only [List.countP_true] using hcount

/-- A counter of all threads counts the responses of a kind. -/
theorem counters_total {f : Counters → Nat} {p : Answer ε σ → Bool}
    (hstep : ∀ {deed g c g' c'}, Entered b.driver.engine deed g c g' c' →
      f c' = f c + deed.answers.countP p)
    (h : Pooled b (g, ms) as (g', ms')) :
    (ms'.map fun m => f m.counters).sum =
      (ms.map fun m => f m.counters).sum + (allAnswers as).countP p := by
  have htotal := threads_total (fun m : Member ε σ => f m.counters)
    (fun deed => deed.answers.countP p) h fun hstep' => hstep hstep'.entered
  rwa [total_countP] at htotal

theorem samples_total (h : Pooled b (g, ms) as (g', ms')) :
    g'.latency.count = g.latency.count +
        UInt64.ofNat ((allAnswers as).countP (Answer.recorded b.driver.engine)) ∧
      (allAnswers as).countP (Answer.recorded b.driver.engine) +
          (allAnswers as).countP (Answer.timedOut b.driver.engine) =
        (allAnswers as).countP (Answer.drains b.driver.engine) := by
  apply RunWhile.history
    (I := fun as (s : Shared × List (Member ε σ)) => s.1.latency.count = g.latency.count +
        UInt64.ofNat ((allAnswers as).countP (Answer.recorded b.driver.engine)) ∧
      (allAnswers as).countP (Answer.recorded b.driver.engine) +
          (allAnswers as).countP (Answer.timedOut b.driver.engine) =
        (allAnswers as).countP (Answer.drains b.driver.engine)) h
  · exact ⟨(UInt64.add_zero _).symm, rfl⟩
  · intro as s a u hs _ hstep
    rw [allAnswers_append, List.countP_append, List.countP_append, List.countP_append]
    cases hstep with
    | thread i _ hone =>
      have hentered := hone.entered
      constructor
      · rw [hentered.count, hs.1, UInt64.ofNat_add, UInt64.add_assoc]
        rfl
      · rw [← hs.2]
        have hdrained := hentered.drained
        simp only [Option.map_some, Option.getD_some]
        omega
    | outside ds hraises =>
      obtain rfl := hraises
      exact hs

/-- What the report of a run counts, beside the responses that all threads processed. -/
structure AddsUp (engine : ScriptEngine ε) (answers : List (Answer ε σ)) (report : RunReport) :
    Prop where
  complete : report.complete = answers.length
  status : report.errors.status = answers.countP Answer.refused
  drained : answers.countP (Answer.recorded engine) + report.errors.timeout =
    answers.countP (Answer.drains engine)

theorem start_ledger (engine : ScriptEngine ε) (config : LoopConfig) (opened : List (Option σ))
    (thread : Thread ε) :
    Ledger engine thread ([] : List (Answer ε σ))
      (Worker.start config opened thread).thread := by
  have hconnects : ∀ w : Worker ε σ, Ledger engine w.thread ([] : List (Answer ε σ))
      (opened.foldl (fun w stream => w.connect config stream) w).thread := by
    induction opened with
    | nil =>
      intro w
      exact .refl _
    | cons stream opened ih =>
      intro w
      have hfirst : Ledger engine w.thread ([] : List (Answer ε σ))
          (w.connect config stream).thread :=
        SlotLoop.connectSlot_enters (ledger_enters engine) ⟨none, [], w.thread⟩ config stream
      exact hfirst.append (ih (w.connect config stream))
  exact hconnects ⟨[], [], thread⟩

theorem Bench.Entered.ledger {b : Bench ε σ} {m : Member ε σ} (h : b.Entered m) :
    m.counters.complete = 0 ∧ m.counters.requests = 0 ∧ m.counters.errors.status = 0 ∧
      m.counters.errors.timeout = 0 := by
  have hstart : ∀ (config : LoopConfig) (opened : List (Option σ)) (latency : Histogram)
      (state : ε) (c : Counters),
      (Worker.start config opened (⟨latency, .zero, state⟩ : Thread ε)).thread.counters = c →
      c.complete = 0 ∧ c.requests = 0 ∧ c.errors.status = 0 ∧ c.errors.timeout = 0 := by
    intro config opened latency state c hc
    have hledger := start_ledger b.driver.engine config opened ⟨latency, .zero, state⟩
    subst hc
    exact ⟨hledger.complete, hledger.requests, hledger.status, hledger.timeout⟩
  obtain ⟨latency, opened, state, now, began, h⟩ := h
  unfold Bench.enter at h
  by_cases hdynamic : b.driver.config.dynamic = true
  · rw [if_pos hdynamic] at h
    obtain rfl := Except.ok.inj h
    exact hstart _ _ _ _ _ rfl
  · rw [if_neg hdynamic] at h
    split at h
    · obtain rfl := Except.ok.inj h
      exact hstart _ _ _ _ _ rfl
    · cases h

theorem foldl_join {f : Totals → Nat} {f' : Counters → Nat}
    (hf : ∀ sum counters, f (sum.join counters) = f sum + f' counters) (sum : Totals)
    (workers : List Counters) :
    f (workers.foldl Totals.join sum) = f sum + (workers.map f').sum := by
  induction workers generalizing sum with
  | nil => rfl
  | cons counters workers ih =>
    rw [List.foldl_cons, ih, hf, List.map_cons, List.sum_cons, Nat.add_assoc]

theorem execute_ok {connections durationUs : Nat} {g : Shared} {workers : List Counters}
    {report : RunReport} (h : execute connections durationUs g workers = .ok report) :
    report.complete = (workers.foldl Totals.join .zero).complete ∧
      report.errors = (workers.foldl Totals.join .zero).errors := by
  unfold execute at h
  dsimp only at h
  split at h
  · obtain ⟨latency, _, hreport⟩ := bind_eq_ok.mp h
    obtain rfl := Except.ok.inj hreport
    exact ⟨rfl, rfl⟩
  · obtain rfl := Except.ok.inj h
    exact ⟨rfl, rfl⟩

theorem sum_zero (f : Counters → Nat) (hms : ∀ m ∈ ms, f m.counters = 0) :
    (ms.map fun m => f m.counters).sum = 0 := by
  apply List.sum_eq_zero
  intro n hn
  obtain ⟨m, hm, rfl⟩ := List.mem_map.mp hn
  exact hms m hm

/-- The counters of a report count the responses of all threads, by their kinds. -/
theorem report_counts {connections durationUs : Nat} {report : RunReport}
    (hms : ∀ m ∈ ms, b.Entered m) (h : Pooled b (g, ms) as (g', ms'))
    (hreport : execute connections durationUs g' (ms'.map Member.counters) = .ok report) :
    report.complete = (allAnswers as).length ∧
      report.errors.status = (allAnswers as).countP Answer.refused ∧
      report.errors.timeout = (allAnswers as).countP (Answer.timedOut b.driver.engine) := by
  obtain ⟨hcomplete, herrors⟩ := execute_ok hreport
  have hsum : ∀ (f : Counters → Nat), (ms'.map Member.counters |>.map f).sum =
      (ms'.map fun m => f m.counters).sum := by
    intro f
    rw [List.map_map]
    rfl
  have hcompletes := counters_total (f := Counters.complete) (p := fun _ => true)
    (fun hentered => by rw [List.countP_true]; exact hentered.complete) h
  have hstatuses := counters_total (f := fun c => c.errors.status)
    (fun hentered => hentered.status) h
  have htimeouts := counters_total (f := fun c => c.errors.timeout)
    (fun hentered => hentered.timeout) h
  refine ⟨?_, ?_, ?_⟩
  · rw [hcomplete, foldl_join (f := Totals.complete) (fun _ _ => rfl), hsum, hcompletes,
      sum_zero _ fun m hm => (hms m hm).ledger.1, List.countP_true, Nat.zero_add]
    exact Nat.zero_add _
  · rw [herrors, foldl_join (f := fun sum => sum.errors.status) (fun _ _ => rfl), hsum,
      hstatuses, sum_zero (fun c => c.errors.status) fun m hm => (hms m hm).ledger.2.2.1,
      Nat.zero_add]
    exact Nat.zero_add _
  · rw [herrors, foldl_join (f := fun sum => sum.errors.timeout) (fun _ _ => rfl), hsum,
      htimeouts, sum_zero (fun c => c.errors.timeout) fun m hm => (hms m hm).ledger.2.2.2,
      Nat.zero_add]
    exact Nat.zero_add _

/-- Whatever the order of the steps of all threads, the report counts every response that one
of them processed once, every refused status once, and for every drained pipeline a latency
sample or a timeout; the histogram has grown by the samples. -/
theorem report_adds_up {connections durationUs : Nat} {report : RunReport}
    (hms : ∀ m ∈ ms, b.Entered m) (h : Pooled b (g, ms) as (g', ms'))
    (hreport : execute connections durationUs g' (ms'.map Member.counters) = .ok report) :
    AddsUp b.driver.engine (allAnswers as) report ∧
      g'.latency.count = g.latency.count +
        UInt64.ofNat ((allAnswers as).countP (Answer.recorded b.driver.engine)) := by
  obtain ⟨hcomplete, hstatus, htimeout⟩ := report_counts hms h hreport
  obtain ⟨hcount, hdrained⟩ := samples_total h
  refine ⟨⟨hcomplete, hstatus, ?_⟩, hcount⟩
  rw [htimeout]
  exact hdrained

theorem report_adds_up_sample :
    ∃ (answers : List (Answer HostedEngine (List Bytes × Bytes))) (report : RunReport),
      report.complete = 2 ∧ AddsUp stopBench.driver.engine answers report ∧
      stopPooled.1.latency.count = 0 +
        UInt64.ofNat (answers.countP (Answer.recorded stopBench.driver.engine)) := by
  obtain ⟨as, h⟩ := turned stopBench stopTurns stopPool
  have hms : ∀ m ∈ stopPool.2, stopBench.Entered m := by
    intro m hm
    obtain rfl | rfl := List.mem_pair.mp hm
    all_goals exact stopMember_entered
  have hreport : execute 4 1000000 stopPooled.1 (stopPooled.2.map Member.counters) =
      .ok ⟨1000000, 2, 80, ⟨0, 0, 0, 0, 0⟩, stopPooled.1.latency, stopPooled.1.rate⟩ := by
    rw [stopPooled_counters]
    rfl
  exact ⟨_, _, rfl, report_adds_up hms h hreport⟩

/-- The rate windows lose no response: those that the ticks closed and those still open hold
as many requests as all threads processed responses. -/
theorem windows_add_up (hms : ∀ m ∈ ms, b.Entered m) (h : Pooled b (g, ms) as (g', ms')) :
    (ms'.map fun m => m.counters.requests).sum + total Deed.window as = (allAnswers as).length := by
  have hbalance := threads_balance (fun m : Member ε σ => m.counters.requests)
    (fun deed => deed.answers.length) Deed.window h fun hstep => hstep.entered.requests
  rw [hbalance, sum_zero Counters.requests fun m hm => (hms m hm).ledger.2.1, total_length,
    Nat.zero_add]

theorem windows_add_up_sample :
    ∃ as : List (Option (Nat × Deed HostedEngine (List Bytes × Bytes))),
      2 + total Deed.window as = (allAnswers as).length := by
  obtain ⟨as, h⟩ := turned stopBench stopTurns stopPool
  refine ⟨as, windows_add_up ?_ h⟩
  intro m hm
  obtain rfl | rfl := List.mem_pair.mp hm
  all_goals exact stopMember_entered

end Totals

end Wrkrs
