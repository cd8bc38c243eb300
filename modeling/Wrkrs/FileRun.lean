import Mathlib.Algebra.Order.BigOperators.Group.List
import Wrkrs.Pool
import Wrkrs.StopLimits

/-!
# A whole run of a benchmark file

Every thread has an engine of its own with the limits of the file. Each counts the responses
of its own thread only, and its limit ends that thread; the joined report counts the limits
of all threads.
-/

namespace Wrkrs

set_option autoImplicit false
set_option maxRecDepth 4096

open Text Machine Runs Parallel

variable {σ : Type}

def responsesOf (i : Nat) (as : List (Option (Nat × Deed HostedEngine σ))) : List Response :=
  ((own i as).flatMap Deed.answers).map Answer.response

section FileRuns
variable {build : Build} {parse : ResponseParser} {socket : Socket σ} {pipeline : UInt64}
variable {sample : Nat → Nat → Nat} {spec : ScriptSpec} {name : Str} {file : BenchFile}
variable {engine : ConfigEngine} {g g' : Shared} {ms ms' : List (Member HostedEngine σ)}
variable {m : Member HostedEngine σ} {as : List (Option (Nat × Deed HostedEngine σ))} {i : Nat}

/-- A thread that has just entered its loop, with the engine of the file and its flag down. -/
def EnteredFile (b : Bench HostedEngine σ) (engine : ConfigEngine) (m : Member HostedEngine σ) :
    Prop :=
  ∃ latency opened now began, b.enter latency opened ⟨engine.init, false⟩ now began = .ok m

theorem EnteredFile.start
    (h : EnteredFile (engine.bench build parse socket pipeline sample) engine m) :
    ∃ latency opened now began, m.loop = .start
      ((engine.bench build parse socket pipeline sample).requesting m.request).driver.config
      opened (engine.thread0 latency) now began := by
  obtain ⟨latency, opened, now, began, h⟩ := h
  obtain rfl := Except.ok.inj h
  exact ⟨latency, opened, now, began, rfl⟩

/-- Without limits an engine hears of no response. -/
theorem unheard_kept {driver : Driver HostedEngine σ} (state : HostedEngine)
    (hengine : driver.engine = ConfigEngine.scriptEngine)
    (hwants : driver.config.wantsResponse = false) :
    Kept driver fun _ thread => thread.engine = state := by
  constructor
  · intro past p r now hp h
    have hcounts := (Endpoint.respond_spec driver.engine now p r).counts
    rw [Endpoint.counted_singleton] at hcounts
    have hresponse : (p.respond driver.engine now r).2.ctx.thread.engine =
        (Endpoint.deliver driver.engine p.ctx.wantsResponse p.ctx.engine r).2 := hcounts.engine
    rw [hresponse, Endpoint.deliver, hp, hwants, if_neg Bool.false_ne_true]
    exact h
  · intro past thread h
    rw [hengine]
    exact h
  · intro past thread h
    rw [hengine]
    exact h
  · intro past thread thread' hsame _ h
    exact hsame.trans h

/-- What a thread of the run has counted and why it ends: with limits its responses and one
of these, without them nothing and the flag of all. -/
structure FileCounted (file : BenchFile) (engine : ConfigEngine) (g : Shared) (rs : List Response)
    (t : LoopState HostedEngine σ) : Prop where
  limited : file.stop.isSet = true → Exact file rs t.worker.thread ∧
    (t.stage = .ended → g.stop = true ∨ file.stop.ReachedBy rs)
  unlimited : file.stop.isSet = false → t.worker.thread.engine = ⟨engine.init, false⟩ ∧
    (t.stage = .ended → g.stop = true)

theorem file_thread (hcreate : ConfigEngine.create spec name file = .ok (.ok engine))
    (hms : ∀ m ∈ ms, EnteredFile (engine.bench build parse socket pipeline sample) engine m)
    (h : Pooled (engine.bench build parse socket pipeline sample) (g, ms) as (g', ms'))
    (hm : ms'[i]? = some m) : FileCounted file engine g' (responsesOf i as) m.loop := by
  have hlength : ms'.length = ms.length := length_run h
  obtain ⟨hi, _⟩ := List.getElem?_eq_some_iff.mp hm
  have hfirst : ms[i]? = some ms[i] := List.getElem?_eq_getElem (by omega)
  obtain ⟨latency, opened, now, began, hstart⟩ := (hms _ (List.mem_of_getElem? hfirst)).start
  have hwants : (engine.bench build parse socket pipeline sample).driver.config.wantsResponse =
      file.stop.isSet := by
    change engine.file.stop.isSet = _
    rw [(create_ok hcreate).2.2]
  constructor
  · intro hset
    have hkept : Kept ((engine.bench build parse socket pipeline sample).requesting
        ms[i].request).driver (ExactRun file) := exactRun_kept file rfl (hwants.trans hset)
    obtain ⟨t, ht, hexact, hends⟩ :=
      pooled_kept hkept h hfirst hstart (exactRun_start hcreate latency)
    obtain rfl := Option.some.inj (ht.symm.trans hm)
    refine ⟨hexact.now, ?_⟩
    intro hended
    exact (hends hended).imp_right hexact.now.stopped.mp
  · intro hunset
    have hkept : Kept ((engine.bench build parse socket pipeline sample).requesting
        ms[i].request).driver fun _ thread => thread.engine = ⟨engine.init, false⟩ :=
      unheard_kept _ rfl (hwants.trans hunset)
    obtain ⟨t, ht, hsame, hends⟩ := pooled_kept hkept h hfirst hstart rfl
    obtain rfl := Option.some.inj (ht.symm.trans hm)
    refine ⟨hsame, ?_⟩
    intro hended
    rcases hends hended with hstop | hown
    · exact hstop
    · change t.worker.thread.engine.stopped = true at hown
      rw [hsame] at hown
      cases hown

theorem limit_le {limit : UInt64} {rs : List Response} (hrequests : file.stop.requests = some limit)
    (hbytes : file.stop.bytes = none) (h : file.stop.ReachedBy rs) : limit.toNat ≤ rs.length := by
  obtain ⟨past, hprefix, _, hreached⟩ := h
  rw [reached_iff, hrequests, hbytes] at hreached
  rcases hreached with ⟨reached, hsome, hlimit⟩ | ⟨_, hnone, _⟩
  · obtain rfl := Option.some.inj hsome
    calc
      limit.toNat ≤ (UInt64.ofNat past.length).toNat := hlimit
      _ ≤ past.length := Nat.mod_le _ _
      _ ≤ rs.length := hprefix.length_le
  · cases hnone

/-- In a run of a benchmark file with limits every engine has counted the responses of its own
thread exactly, and a thread ends for the flag of all or for its own limit; without limits no
engine counts anything and only the flag of all ends a thread. With a limit of requests alone
and no flag, a run whose threads have all ended reports that many for each of them. -/
theorem file_run_ends {connections durationUs : Nat} {report : RunReport}
    (hcreate : ConfigEngine.create spec name file = .ok (.ok engine))
    (hms : ∀ m ∈ ms, EnteredFile (engine.bench build parse socket pipeline sample) engine m)
    (h : Pooled (engine.bench build parse socket pipeline sample) (g, ms) as (g', ms'))
    (hreport : execute connections durationUs g' (ms'.map Member.counters) = .ok report) :
    (∀ i m, ms'[i]? = some m → FileCounted file engine g' (responsesOf i as) m.loop) ∧
      ∀ limit, file.stop.requests = some limit → file.stop.bytes = none → g'.stop = false →
        (∀ m ∈ ms', m.loop.stage = .ended) → ms.length * limit.toNat ≤ report.complete := by
  have hthreads := fun (i : Nat) (m : Member HostedEngine σ) (hm : ms'[i]? = some m) =>
    file_thread hcreate hms h hm
  refine ⟨hthreads, ?_⟩
  intro limit hrequests hbytes hstop hended
  have hset : file.stop.isSet = true := by
    unfold StopSpec.isSet
    rw [hrequests]
    rfl
  have heach : ∀ n ∈ ms'.map fun m => m.counters.complete, limit.toNat ≤ n := by
    intro n hn
    obtain ⟨m, hmem, rfl⟩ := List.mem_map.mp hn
    obtain ⟨i, hm⟩ := List.getElem?_of_mem hmem
    obtain ⟨hexact, hends⟩ := (hthreads i m hm).limited hset
    have hcomplete : m.counters.complete = (responsesOf i as).length := hexact.complete
    rw [hcomplete]
    rcases hends (hended m hmem) with hraised | hreached
    · exact absurd (hstop.symm.trans hraised) Bool.false_ne_true
    · exact limit_le hrequests hbytes hreached
  have hlength : ms'.length = ms.length := length_run h
  have hsum := List.card_nsmul_le_sum _ _ heach
  rw [List.length_map, hlength] at hsum
  rw [(execute_ok hreport).1, foldl_join (f := Totals.complete) (fun _ _ => rfl), List.map_map]
  exact Nat.le_trans hsum (Nat.le_add_left _ _)

end FileRuns

theorem file_run_ends_sample :
    ∃ as : List (Option (Nat × Deed HostedEngine (List Bytes × Bytes))),
      ∀ i m, stopPooled.2[i]? = some m →
        FileCounted stopFile stopEngine stopPooled.1 (responsesOf i as) m.loop := by
  obtain ⟨as, h⟩ := turned stopBench stopTurns stopPool
  have hms : ∀ m ∈ stopPool.2, EnteredFile stopBench stopEngine m := by
    intro m hm
    obtain rfl | rfl := List.mem_pair.mp hm
    all_goals exact ⟨.new 9, [some ([], [])], 0, 0, rfl⟩
  have hcreate : ConfigEngine.create ⟨sampleParts, []⟩ "f".toList stopFile =
      .ok (.ok stopEngine) := by decide +kernel
  have hreport : execute 4 1000000 stopPooled.1 (stopPooled.2.map Member.counters) =
      .ok ⟨1000000, 2, 80, ⟨0, 0, 0, 0, 0⟩, stopPooled.1.latency, stopPooled.1.rate⟩ := by
    rw [stopPooled_counters]
    rfl
  exact ⟨as, (file_run_ends hcreate hms h hreport).1⟩

end Wrkrs
