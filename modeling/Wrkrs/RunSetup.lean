import Wrkrs.Cli
import Wrkrs.StatsScripts

/-!
# The start of a run

The histograms, the connections of each thread and the deadline of an accepted command
line, and when this arithmetic is exact.
-/

namespace Wrkrs

set_option autoImplicit false
set_option maxRecDepth 4096

open Machine Text Cli

structure Instant where
  seconds : Int64
  nanos : UInt32
  deriving DecidableEq, Repr

inductive SetupPanic where
  | division
  | capacity
  | instant
  deriving DecidableEq, Repr

/-- Whole seconds later; an instant past the last one panics. -/
def Instant.after (start : Instant) (seconds : UInt64) : Except SetupPanic Instant :=
  if start.seconds.toInt + seconds.toNat ≤ integerMax then
    .ok { start with seconds := Int64.ofInt (start.seconds.toInt + seconds.toNat) }
  else .error .instant

def divide (x y : UInt64) : Except SetupPanic UInt64 :=
  if y = 0 then .error .division else .ok (x / y)

def maxThreadRate : UInt64 := 10000000

def allocate (max : UInt64) : Except SetupPanic Histogram :=
  (Histogram.alloc max.toNat).mapError fun _ => .capacity

def reserve (slotBytes : Nat) (connections : UInt64) : Except SetupPanic Unit :=
  if slotBytes * connections.toNat ≤ vecMax then .ok () else .error .capacity

structure Setup where
  latency : Histogram
  rate : Histogram
  perThread : UInt64
  deadline : Instant
  deriving DecidableEq

/-- What `execute` computes up to its wait, with the first step of its threads. -/
def setUp (slotBytes : Nat) (config : Config) (start : Instant) : Except SetupPanic Setup := do
  let latency ← allocate (saturatingMul config.timeoutMs 1000)
  let rate ← allocate maxThreadRate
  let perThread ← divide config.connections config.threads
  reserve slotBytes perThread
  let deadline ← start.after config.durationS
  return ⟨latency, rate, perThread, deadline⟩

/-- The set-up is exact: its deadline, its connections, and the latencies it records
through all of its run. -/
structure Exactly (config : Config) (start : Instant) (setup : Setup) : Prop where
  deadline : setup.deadline.seconds.toInt = start.seconds.toInt + config.durationS.toNat
  threads : config.threads ≠ 0
  each : 1 ≤ setup.perThread.toNat
  total : config.threads.toNat * setup.perThread.toNat ≤ config.connections.toNat
  latency : ∀ past h, setup.latency.uses past = .ok h → ∀ value,
    (h.record value).1 = true ↔ value ≤ config.timeoutMs.toNat * 1000

def Starts (slotBytes : Nat) (config : Config) (start : Instant) : Prop :=
  ∃ setup, setUp slotBytes config start = .ok setup ∧ Exactly config start setup

/-- The numbers of a command line that a run can start with. -/
structure Cli.Numbers.Fit (n : Numbers) (slotBytes : Nat) (start : Instant) : Prop where
  duration : start.seconds.toInt + n.duration.toNat ≤ integerMax
  timeout : 8 * (n.timeout.toNat * 1000000 + 1) ≤ vecMax
  slots : slotBytes * (n.connections.toNat / n.threads.toNat) ≤ vecMax

theorem record_iff (h : Histogram) (value : Nat) :
    (h.record value).1 = true ↔ value < h.limit := by
  rw [Histogram.record]
  by_cases hvalue : h.limit ≤ value
  · rw [if_pos hvalue]
    exact iff_of_false Bool.false_ne_true (Nat.not_lt.mpr hvalue)
  · rw [if_neg hvalue]
    exact iff_of_true rfl (Nat.lt_of_not_le hvalue)

theorem alloc_limit {max : Nat} {h h' : Histogram} {past : List Use}
    (halloc : Histogram.alloc max = .ok h) (huses : h.uses past = .ok h') :
    h'.limit = (max + 1) % word := by
  rw [Histogram.alloc] at halloc
  split at halloc
  · cases halloc
    obtain ⟨reached, hreached, hr⟩ :=
      Histogram.Ranged.new.uses (Nat.mod_lt (max + 1) (by decide)) past
    cases hreached.symm.trans huses
    exact hr.limit
  · cases halloc

theorem allocate_ok {max : UInt64} {h : Histogram} :
    allocate max = .ok h ↔ Histogram.alloc max.toNat = .ok h := by
  rw [allocate]
  cases Histogram.alloc max.toNat with
  | error fault => exact iff_of_false nofun nofun
  | ok h' =>
    constructor
    · intro hok
      exact congrArg Except.ok (Except.ok.inj hok)
    · intro hok
      exact congrArg Except.ok (Except.ok.inj hok)

/-- A histogram for a saturated bound records up to the exact one if that one fits. -/
theorem latency_iff (timeout : UInt64) :
    (∃ h, allocate (saturatingMul timeout 1000) = .ok h ∧
      ∀ past h', h.uses past = .ok h' → ∀ value,
        (h'.record value).1 = true ↔ value ≤ timeout.toNat * 1000) ↔
      8 * (timeout.toNat * 1000 + 1) ≤ vecMax := by
  have hmax : (saturatingMul timeout 1000).toNat = min (timeout.toNat * 1000) (word - 1) :=
    toNat_saturatingMul timeout 1000
  have hword : word = 2 * (vecMax + 1) := by decide
  constructor
  · rintro ⟨h, halloc, hrecords⟩
    have hfits := allocate_ok.mp halloc
    have hlimit : h.limit = _ := alloc_limit hfits (show h.uses [] = .ok h from rfl)
    rw [Histogram.alloc, hmax] at hfits
    rw [hmax] at hlimit
    by_cases hsmall : timeout.toNat * 1000 + 1 < word
    · rw [min_eq_left (by omega), Nat.mod_eq_of_lt hsmall] at hfits
      by_contra hlarge
      rw [if_neg hlarge] at hfits
      cases hfits
    · -- the bound saturates, and its successor wraps to no bucket at all
      rw [min_eq_right (by omega), Nat.sub_add_cancel (by decide), Nat.mod_self] at hlimit
      have hzero := (hrecords [] h rfl 0).mpr (Nat.zero_le _)
      rw [record_iff, hlimit] at hzero
      exact absurd hzero (Nat.lt_irrefl 0)
  · intro hfits
    have hsmall : timeout.toNat * 1000 + 1 < word := by omega
    have hbound : (saturatingMul timeout 1000).toNat = timeout.toNat * 1000 := by
      rw [hmax]
      omega
    have halloc : Histogram.alloc (saturatingMul timeout 1000).toNat =
        .ok (Histogram.new (timeout.toNat * 1000)) := by
      rw [hbound, Histogram.alloc, if_pos (by rwa [Nat.mod_eq_of_lt hsmall])]
    refine ⟨_, allocate_ok.mpr halloc, ?_⟩
    intro past h' huses value
    rw [record_iff, alloc_limit halloc huses, hbound, Nat.mod_eq_of_lt hsmall]
    exact Nat.lt_succ_iff

theorem after_iff (start : Instant) (seconds : UInt64) :
    (∃ deadline, start.after seconds = .ok deadline ∧
      deadline.seconds.toInt = start.seconds.toInt + seconds.toNat) ↔
      start.seconds.toInt + seconds.toNat ≤ integerMax := by
  rw [Instant.after]
  by_cases hfits : start.seconds.toInt + seconds.toNat ≤ integerMax
  · rw [if_pos hfits]
    refine iff_of_true ⟨_, rfl, ?_⟩ hfits
    have hlow := start.seconds.le_toInt
    apply Int64.toInt_ofInt_of_le
    · omega
    · exact Int.lt_of_le_of_lt hfits (by decide)
  · rw [if_neg hfits]
    refine iff_of_false ?_ hfits
    rintro ⟨deadline, hdeadline, -⟩
    cases hdeadline

theorem divide_eq {x y : UInt64} (h : y ≠ 0) : divide x y = .ok (x / y) := if_neg h

theorem reserve_ok {slotBytes : Nat} {connections : UInt64} :
    reserve slotBytes connections = .ok () ↔ slotBytes * connections.toNat ≤ vecMax := by
  rw [reserve]
  split
  · exact iff_of_true rfl (by assumption)
  · exact iff_of_false nofun (by assumption)

/-- The set-up of a run from its parts. -/
theorem setUp_ok {slotBytes : Nat} {config : Config} {start : Instant} {setup : Setup}
    (hthreads : config.threads ≠ 0) :
    setUp slotBytes config start = .ok setup ↔
      allocate (saturatingMul config.timeoutMs 1000) = .ok setup.latency ∧
        setup.rate = Histogram.new maxThreadRate.toNat ∧
        setup.perThread = config.connections / config.threads ∧
        slotBytes * (config.connections.toNat / config.threads.toNat) ≤ vecMax ∧
        start.after config.durationS = .ok setup.deadline := by
  have hrate : allocate maxThreadRate = .ok (Histogram.new maxThreadRate.toNat) :=
    allocate_ok.mpr (if_pos (by decide))
  rw [setUp, hrate, divide_eq hthreads]
  constructor
  · intro h
    cases hlatency : allocate (saturatingMul config.timeoutMs 1000) with
    | error panic => simp [hlatency] at h
    | ok latency =>
      cases hslots : reserve slotBytes (config.connections / config.threads) with
      | error panic => simp [hlatency, hslots] at h
      | ok _ =>
        cases hdeadline : start.after config.durationS with
        | error panic => simp [hlatency, hslots, hdeadline] at h
        | ok deadline =>
          simp only [hlatency, hslots, hdeadline, ok_bind] at h
          cases h
          rw [← UInt64.toNat_div]
          exact ⟨rfl, rfl, rfl, reserve_ok.mp hslots, rfl⟩
  · rintro ⟨hlatency, hhistogram, hper, hslots, hdeadline⟩
    rw [← UInt64.toNat_div] at hslots
    simp only [hlatency, reserve_ok.mpr hslots, hdeadline, ok_bind]
    cases setup
    cases hhistogram
    cases hper
    rfl

section Numbers
variable {n : Numbers} {config : Config} {slotBytes : Nat} {start : Instant}

theorem Cli.Numbers.Checked.shares (h : n.Checked config) :
    1 ≤ config.connections.toNat / config.threads.toNat ∧
      config.threads.toNat * (config.connections.toNat / config.threads.toNat) ≤
        config.connections.toNat := by
  have hpositive : 0 < n.threads.toNat := by
    apply Nat.pos_of_ne_zero
    intro hzero
    exact h.someThread (UInt64.toNat_inj.mp hzero)
  have hle : n.threads.toNat ≤ n.connections.toNat := UInt64.le_iff_toNat_le.mp h.enough
  rw [h.threads, h.connections]
  exact ⟨Nat.div_pos hle hpositive, Nat.mul_div_le _ _⟩

theorem Cli.Numbers.Checked.timeout_iff (h : n.Checked config) :
    8 * (config.timeoutMs.toNat * 1000 + 1) ≤ vecMax ↔
      8 * (n.timeout.toNat * 1000000 + 1) ≤ vecMax := by
  have hstored : config.timeoutMs.toNat = min (n.timeout.toNat * 1000) (word - 1) := by
    rw [h.timeoutMs]
    exact toNat_saturatingMul n.timeout 1000
  have hword : word = 2 * (vecMax + 1) := by decide
  omega

theorem starts_iff_fit (h : n.Checked config) :
    Starts slotBytes config start ↔ n.Fit slotBytes start := by
  have hthreads : config.threads ≠ 0 := h.threads ▸ h.someThread
  constructor
  · rintro ⟨setup, hsetup, hexact⟩
    obtain ⟨hlatency, -, -, hslots, hdeadline⟩ := (setUp_ok hthreads).mp hsetup
    constructor
    · rw [← h.durationS]
      exact (after_iff start config.durationS).mp ⟨_, hdeadline, hexact.deadline⟩
    · apply h.timeout_iff.mp
      exact (latency_iff config.timeoutMs).mp ⟨_, hlatency, hexact.latency⟩
    · rwa [← h.connections, ← h.threads]
  · intro hfit
    have hduration := hfit.duration
    have hslots := hfit.slots
    rw [← h.durationS] at hduration
    rw [← h.connections, ← h.threads] at hslots
    obtain ⟨deadline, hdeadline, hexact⟩ := (after_iff start config.durationS).mpr hduration
    obtain ⟨latency, hlatency, hrecords⟩ :=
      (latency_iff config.timeoutMs).mpr (h.timeout_iff.mpr hfit.timeout)
    obtain ⟨heach, htotal⟩ := h.shares
    refine ⟨⟨latency, _, _, deadline⟩,
      (setUp_ok hthreads).mpr ⟨hlatency, rfl, rfl, hslots, hdeadline⟩, ?_⟩
    constructor
    · exact hexact
    · exact hthreads
    · rw [UInt64.toNat_div]
      exact heach
    · rw [UInt64.toNat_div]
      exact htotal
    · exact hrecords

end Numbers

/-- The set-up of a run is exact and does not panic if and only if the last duration, the
last timeout and the slots of one thread fit. -/
theorem run_starts_iff {build : Build} {version program out : Str} {args : List Str}
    {config : Config} (slotBytes : Nat) (start : Instant)
    (h : Cli.parse build version program args = .ok (.run config, out)) :
    ∃ arguments n, Getopt.parse program Cli.options args = .ok arguments ∧
      Numbers.Of build arguments.options n ∧
      (Starts slotBytes config start ↔ n.Fit slotBytes start) := by
  obtain ⟨arguments, n, hargs, hof, hchecked⟩ := parse_run h
  exact ⟨arguments, n, hargs, hof, starts_iff_fit hchecked⟩

def sampleArgs (option value : String) : List Str :=
  [option.toList, value.toList, "http://h/".toList]

def sampleConfig (durationS timeoutMs : UInt64) : Config where
  threads := 2
  connections := 10
  durationS := durationS
  timeoutMs := timeoutMs
  latency := false
  script := none
  headers := []
  engine := none
  output := .legacy
  outputFile := none
  url := "http://h/".toList
  parts := ⟨some "http".toList, some "h".toList, none, "/".toList⟩
  initArgs := ["http://h/".toList]

theorem run_starts_iff_sample : ∃ arguments n,
    Getopt.parse "wrkrs".toList Cli.options (sampleArgs "-d" "2m") = .ok arguments ∧
      Numbers.Of .debug arguments.options n ∧
      (Starts 512 (sampleConfig 120 2000) ⟨1000, 0⟩ ↔ n.Fit 512 ⟨1000, 0⟩) :=
  run_starts_iff 512 ⟨1000, 0⟩
    (show Cli.parse .debug [] "wrkrs".toList (sampleArgs "-d" "2m") =
      .ok (.run (sampleConfig 120 2000), []) by rfl)

/-- A duration with a sign reaches past the last instant. -/
theorem signed_duration_panics :
    Cli.parse .release [] "wrkrs".toList (sampleArgs "-d" "-1") =
        .ok (.run (sampleConfig 0xFFFFFFFFFFFFFFFF 2000), []) ∧
      ∀ slotBytes, ¬ Starts slotBytes (sampleConfig 0xFFFFFFFFFFFFFFFF 2000) ⟨0, 0⟩ := by
  refine ⟨by rfl, ?_⟩
  rintro slotBytes ⟨setup, -, hexact⟩
  have hdeadline : setup.deadline.seconds.toInt = 0 + 18446744073709551615 := hexact.deadline
  have hlast := setup.deadline.seconds.toInt_lt
  omega

end Wrkrs
