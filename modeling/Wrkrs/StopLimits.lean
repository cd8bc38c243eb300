import Wrkrs.ConfigWire
import Wrkrs.Worker

/-!
# Stop limits of benchmark files

The engine of a benchmark file in the loop of one thread: it counts the responses of all
connections and raises the flag of the thread when a limit is reached. Its counters are
words and wrap.
-/

namespace Wrkrs

set_option autoImplicit false
set_option maxRecDepth 4096

open Text Machine Runs

structure Capabilities where
  isStatic : Bool
  wantsResponse : Bool
  hasDelay : Bool
  deriving DecidableEq, Repr

/-- An engine with the stop flag of its thread. -/
structure HostedEngine where
  engine : ConfigEngine
  stopped : Bool
  deriving DecidableEq, Repr

namespace ConfigEngine

def init (engine : ConfigEngine) : ConfigEngine := { engine with thread := true }

def capabilities (engine : ConfigEngine) : Capabilities where
  isStatic := true
  wantsResponse := engine.file.stop.isSet
  hasDelay := false

def count (engine : ConfigEngine) (body : Bytes) : ConfigEngine :=
  { engine with
    completed := engine.completed + 1
    received := engine.received + UInt64.ofNat body.length }

def scriptEngine : ScriptEngine HostedEngine where
  delay hosted := (0, hosted)
  request hosted := (.ok hosted.engine.request, hosted)
  response hosted _ _ body :=
    let engine := hosted.engine.count body
    let stops := engine.thread && engine.file.stop.reached engine.completed engine.received
    (.ok (), ⟨engine, hosted.stopped || stops⟩)

/-- The loop configuration of a thread: a static request is asked for once. -/
def loopConfig (engine : ConfigEngine) (pipeline : UInt64) : LoopConfig where
  staticRequest := if engine.capabilities.isStatic then some engine.request else none
  pipeline := pipeline
  dynamic := !engine.capabilities.isStatic
  hasDelay := engine.capabilities.hasDelay
  wantsResponse := engine.capabilities.wantsResponse

def driver {σ : Type} (engine : ConfigEngine) (build : Build) (parse : ResponseParser)
    (socket : Socket σ) (pipeline : UInt64) : Driver HostedEngine σ where
  config := engine.loopConfig pipeline
  build := build
  parse := parse
  engine := scriptEngine
  socket := socket

end ConfigEngine

def Counters.zero : Counters := ⟨0, 0, 0, ⟨0, 0, 0, 0, 0⟩⟩

def ConfigEngine.thread0 (engine : ConfigEngine) (latency : Histogram) : Thread HostedEngine :=
  ⟨latency, .zero, ⟨engine.init, false⟩⟩

def bodyTotal (rs : List Response) : Nat := (rs.map fun r => r.body.length).sum

theorem bodyTotal_append (rs : List Response) (r : Response) :
    bodyTotal (rs ++ [r]) = bodyTotal rs + r.body.length := by
  simp [bodyTotal]

/-- A limit has been reached after some of the responses, counted as words. -/
def StopSpec.ReachedBy (stop : StopSpec) (rs : List Response) : Prop :=
  ∃ past, past <+: rs ∧ past ≠ [] ∧
    stop.reached (UInt64.ofNat past.length) (UInt64.ofNat (bodyTotal past)) = true

/-- After some responses the engine and the thread have counted each of them once, and the
flag is up exactly when a limit has been reached. -/
structure Exact (file : BenchFile) (rs : List Response) (thread : Thread HostedEngine) : Prop where
  complete : thread.counters.complete = rs.length
  completed : thread.engine.engine.completed = UInt64.ofNat rs.length
  received : thread.engine.engine.received = UInt64.ofNat (bodyTotal rs)
  stopped : thread.engine.stopped = true ↔ file.stop.ReachedBy rs

/-- The same in numbers, as long as they fit a word. -/
structure ExactNat (file : BenchFile) (rs : List Response) (thread : Thread HostedEngine) :
    Prop where
  completed : thread.engine.engine.completed.toNat = thread.counters.complete
  received : thread.engine.engine.received.toNat = bodyTotal rs
  stopped : thread.engine.stopped = true ↔ ∃ past, past <+: rs ∧ past ≠ [] ∧
    ((∃ limit ∈ file.stop.requests, limit.toNat ≤ past.length) ∨
      ∃ limit ∈ file.stop.bytes, limit.toNat ≤ bodyTotal past)

theorem bodyTotal_le {past rs : List Response} (h : past <+: rs) :
    bodyTotal past ≤ bodyTotal rs := by
  obtain ⟨rest, rfl⟩ := h
  simp [bodyTotal]

theorem reached_iff (stop : StopSpec) (completed received : UInt64) :
    stop.reached completed received = true ↔
      (∃ limit ∈ stop.requests, limit.toNat ≤ completed.toNat) ∨
        ∃ limit ∈ stop.bytes, limit.toNat ≤ received.toNat := by
  have hany : ∀ (limit : Option UInt64) (n : UInt64),
      limit.any (· ≤ n) = true ↔ ∃ l ∈ limit, l.toNat ≤ n.toNat := by
    intro limit n
    cases limit with
    | none => simp
    | some l => simp [UInt64.le_iff_toNat_le]
  rw [StopSpec.reached, Bool.or_eq_true, hany, hany]

theorem Exact.nat {file : BenchFile} {rs : List Response} {thread : Thread HostedEngine}
    (h : Exact file rs thread) (hcount : rs.length < word) (htotal : bodyTotal rs < word) :
    ExactNat file rs thread := by
  constructor
  · rw [h.completed, h.complete]
    exact UInt64.toNat_ofNat_of_lt' hcount
  · rw [h.received]
    exact UInt64.toNat_ofNat_of_lt' htotal
  · rw [h.stopped]
    constructor
    all_goals
      rintro ⟨past, hprefix, hne, hreached⟩
      have hlength := Nat.lt_of_le_of_lt hprefix.length_le hcount
      have hbytes := Nat.lt_of_le_of_lt (bodyTotal_le hprefix) htotal
      refine ⟨past, hprefix, hne, ?_⟩
    · rwa [reached_iff, UInt64.toNat_ofNat_of_lt' hlength, UInt64.toNat_ofNat_of_lt' hbytes]
        at hreached
    · rwa [reached_iff, UInt64.toNat_ofNat_of_lt' hlength, UInt64.toNat_ofNat_of_lt' hbytes]

theorem reachedBy_append (stop : StopSpec) (rs : List Response) (r : Response) :
    stop.ReachedBy (rs ++ [r]) ↔ stop.ReachedBy rs ∨
      stop.reached (UInt64.ofNat (rs ++ [r]).length) (UInt64.ofNat (bodyTotal (rs ++ [r]))) =
        true := by
  constructor
  · rintro ⟨past, hprefix, hne, hreached⟩
    rcases List.prefix_concat_iff.mp hprefix with rfl | hold
    · exact .inr hreached
    · exact .inl ⟨past, hold, hne, hreached⟩
  · rintro (⟨past, hprefix, hne, hreached⟩ | hreached)
    · exact ⟨past, hprefix.trans (List.prefix_append rs [r]), hne, hreached⟩
    · exact ⟨rs ++ [r], List.prefix_refl _, by simp, hreached⟩

section Responses
variable {σ : Type} {file : BenchFile}

structure Hosts (file : BenchFile) (thread : Thread HostedEngine) : Prop where
  file : thread.engine.engine.file = file
  thread : thread.engine.engine.thread = true

theorem respond_thread {p : Endpoint HostedEngine σ} (r : Response) (now : Nat)
    (hwants : p.ctx.wantsResponse = true) :
    (p.respond ConfigEngine.scriptEngine now r).2.ctx.counters.complete =
        p.ctx.counters.complete + 1 ∧
      (p.respond ConfigEngine.scriptEngine now r).2.ctx.engine =
        (ConfigEngine.scriptEngine.response p.ctx.engine r.status r.headers r.body).2 := by
  have hcounts := (Endpoint.respond_spec ConfigEngine.scriptEngine now p r).counts
  rw [Endpoint.counted_singleton] at hcounts
  refine ⟨hcounts.complete, hcounts.engine.trans ?_⟩
  rw [delivered, List.foldl_cons, List.foldl_nil, Endpoint.deliver, hwants, if_pos rfl]

theorem Exact.respond {rs : List Response} {p : Endpoint HostedEngine σ}
    (hwants : p.ctx.wantsResponse = true) (hhosts : Hosts file p.ctx.thread)
    (h : Exact file rs p.ctx.thread) (r : Response) (now : Nat) :
    Hosts file (p.respond ConfigEngine.scriptEngine now r).2.ctx.thread ∧
      Exact file (rs ++ [r]) (p.respond ConfigEngine.scriptEngine now r).2.ctx.thread := by
  obtain ⟨hcomplete, hengine⟩ := respond_thread r now hwants
  have hthread : (p.respond ConfigEngine.scriptEngine now r).2.ctx.thread.engine =
      (ConfigEngine.scriptEngine.response p.ctx.engine r.status r.headers r.body).2 := hengine
  have hcompleted : p.ctx.engine.engine.completed + 1 = UInt64.ofNat (rs ++ [r]).length := by
    rw [List.length_append, UInt64.ofNat_add]
    exact congrArg (· + 1) h.completed
  have hreceived : p.ctx.engine.engine.received + UInt64.ofNat r.body.length =
      UInt64.ofNat (bodyTotal (rs ++ [r])) := by
    rw [bodyTotal_append, UInt64.ofNat_add]
    exact congrArg (· + UInt64.ofNat r.body.length) h.received
  have hfile : p.ctx.engine.engine.file = file := hhosts.file
  have hflag : p.ctx.engine.engine.thread = true := hhosts.thread
  have hstopped : p.ctx.engine.stopped = true ↔ file.stop.ReachedBy rs := h.stopped
  constructor
  · constructor
    · rw [hthread]
      exact hfile
    · rw [hthread]
      exact hflag
  · constructor
    · rw [List.length_append]
      exact hcomplete.trans (congrArg (· + 1) h.complete)
    · rw [hthread]
      exact hcompleted
    · rw [hthread]
      exact hreceived
    · rw [hthread, reachedBy_append, ← hcompleted, ← hreceived, ← hstopped]
      change (p.ctx.engine.stopped || (p.ctx.engine.engine.thread &&
        p.ctx.engine.engine.file.stop.reached _ _)) = true ↔ _
      rw [hflag, hfile, Bool.true_and, Bool.or_eq_true]
      rfl

/-- The counts are exact after all responses so far, and were after each of them. -/
structure ExactRun (file : BenchFile) (past : List (Answer HostedEngine σ))
    (thread : Thread HostedEngine) : Prop where
  hosts : Hosts file thread
  now : Exact file (past.map Answer.response) thread
  after : ∀ front a, front ++ [a] <+: past →
    Exact file ((front ++ [a]).map Answer.response) a.after.ctx.thread

theorem Exact.of_same {rs : List Response} {thread thread' : Thread HostedEngine}
    (hengine : thread'.engine = thread.engine)
    (hcomplete : thread'.counters.complete = thread.counters.complete)
    (h : Exact file rs thread) : Exact file rs thread' := by
  constructor
  · exact hcomplete.trans h.complete
  · rw [hengine]
    exact h.completed
  · rw [hengine]
    exact h.received
  · rw [hengine]
    exact h.stopped

theorem exactRun_kept {driver : Driver HostedEngine σ} (file : BenchFile)
    (hengine : driver.engine = ConfigEngine.scriptEngine)
    (hwants : driver.config.wantsResponse = true) : Kept driver (ExactRun file) := by
  constructor
  · intro past p r now hp h
    rw [hengine]
    obtain ⟨hhosts, hexact⟩ := h.now.respond (hp.trans hwants) h.hosts r now
    have hnow : Exact file ((past ++ [(⟨p, r, (p.respond ConfigEngine.scriptEngine now r).2⟩ :
        Answer HostedEngine σ)]).map Answer.response)
        (p.respond ConfigEngine.scriptEngine now r).2.ctx.thread := by
      rw [List.map_append]
      exact hexact
    refine ⟨hhosts, hnow, ?_⟩
    intro front a hprefix
    rcases List.prefix_concat_iff.mp hprefix with hwhole | hold
    · obtain ⟨_, hlast⟩ := List.append_inj' hwhole rfl
      rw [hwhole, List.singleton_inj.mp hlast]
      exact hnow
    · exact h.after front a hold
  · intro past thread h
    rw [hengine]
    exact h
  · intro past thread h
    rw [hengine]
    exact h
  · intro past thread thread' hsame hcomplete h
    refine ⟨?_, h.now.of_same hsame hcomplete, h.after⟩
    constructor
    · rw [hsame]
      exact h.hosts.file
    · rw [hsame]
      exact h.hosts.thread

end Responses

theorem exactRun_start {σ : Type} {spec : ScriptSpec} {name : Str} {file : BenchFile}
    {engine : ConfigEngine} (h : ConfigEngine.create spec name file = .ok (.ok engine))
    (latency : Histogram) :
    ExactRun file ([] : List (Answer HostedEngine σ)) (engine.thread0 latency) := by
  obtain ⟨-, -, hengine⟩ := create_ok h
  rw [hengine]
  refine ⟨⟨rfl, rfl⟩, ⟨rfl, rfl, rfl, ?_⟩, ?_⟩
  · apply iff_of_false Bool.false_ne_true
    rintro ⟨past, hprefix, hne, _⟩
    exact hne (List.prefix_nil.mp hprefix)
  · intro front a hprefix
    exact absurd (List.prefix_nil.mp hprefix) (by simp)

/-- In every run of a thread, whichever connections its responses come on, the engine has
counted the responses and their decoded bodies exactly after each of them, and has raised
the flag exactly when a limit was reached. -/
theorem stop_limits_exact {σ : Type} {build : Build} {parse : ResponseParser} {socket : Socket σ}
    {spec : ScriptSpec} {name : Str} {file : BenchFile} {engine : ConfigEngine}
    {pipeline : UInt64} {latency : Histogram} {opened : List (Option σ)}
    {answers : List (List (Answer HostedEngine σ))} {w : Worker HostedEngine σ}
    (hset : file.stop.isSet = true)
    (hcreate : ConfigEngine.create spec name file = .ok (.ok engine))
    (hrun : Run (Worker.Step (engine.driver build parse socket pipeline))
      (Worker.start (engine.loopConfig pipeline) opened (engine.thread0 latency)) answers w) :
    (∀ past a, past ++ [a] <+: answers.flatten →
      Exact file ((past ++ [a]).map Answer.response) a.after.ctx.thread ∧
        Emitted build parse true a.response ∧
        (past.length + 1 < word → bodyTotal ((past ++ [a]).map Answer.response) < word →
          ExactNat file ((past ++ [a]).map Answer.response) a.after.ctx.thread)) ∧
      Exact file (answers.flatten.map Answer.response) w.thread := by
  have hwants : (engine.driver build parse socket pipeline).config.wantsResponse = true := by
    change engine.file.stop.isSet = true
    rw [(create_ok hcreate).2.2]
    exact hset
  have hkept : Kept (engine.driver build parse socket pipeline) (ExactRun file) :=
    exactRun_kept file rfl hwants
  have hexact : ExactRun file answers.flatten w.thread :=
    (hkept.carried.run (exactRun_start hcreate latency) hrun).thread
  have hemitted := Worker.run_emitted hrun
  rw [hwants] at hemitted
  refine ⟨fun past a hprefix => ?_, hexact.now⟩
  have hafter := hexact.after past a hprefix
  refine ⟨hafter, hemitted a ?_, fun hcount htotal => hafter.nat ?_ htotal⟩
  · exact hprefix.subset (List.mem_append_right past List.mem_cons_self)
  · rw [List.length_map, List.length_append]
    exact hcount

def stopFile : BenchFile := ⟨⟨none, none, none, []⟩, ⟨none, some 2⟩⟩

def stopEngine : ConfigEngine :=
  ⟨ascii "GET / HTTP/1.1\r\nHost: h\r\n\r\n", stopFile, 0, 0, false⟩

def stopDriver : Driver HostedEngine (List Bytes × Bytes) :=
  stopEngine.driver .release reference queueSocket 1

def stopStart : Worker HostedEngine (List Bytes × Bytes) :=
  .start (stopEngine.loopConfig 1) [none, some ([], [])] (stopEngine.thread0 (.new 9))

def stopUp : Readiness (List Bytes × Bytes) :=
  readiness [ascii "HTTP/1.1 200 OK\r\nContent-Length: 2\r\n\r\nhi"] false false

def stopRead : Readiness (List Bytes × Bytes) := readiness [] true false

theorem stop_limits_exact_sample :
    ∃ (answers : List (List (Answer HostedEngine (List Bytes × Bytes))))
      (w : Worker HostedEngine (List Bytes × Bytes)),
      answers.flatten.length = 1 ∧
      (∀ past a, past ++ [a] <+: answers.flatten →
        Exact stopFile ((past ++ [a]).map Answer.response) a.after.ctx.thread ∧
          Emitted .release reference true a.response ∧
          (past.length + 1 < word → bodyTotal ((past ++ [a]).map Answer.response) < word →
            ExactNat stopFile ((past ++ [a]).map Answer.response) a.after.ctx.thread)) ∧
        Exact stopFile (answers.flatten.map Answer.response) w.thread := by
  have hup : Worker.Step stopDriver stopStart ((stopStart.view 1).served stopDriver stopUp)
      (stopStart.next stopDriver 1 stopUp) := Worker.next_step (by decide) (by rfl)
  have hread : Worker.Step stopDriver (stopStart.next stopDriver 1 stopUp)
      (((stopStart.next stopDriver 1 stopUp).view 1).served stopDriver stopRead)
      ((stopStart.next stopDriver 1 stopUp).next stopDriver 1 stopRead) :=
    Worker.next_step (by decide) (by rfl)
  have hcreate : ConfigEngine.create ⟨sampleParts, []⟩ "f".toList stopFile =
      .ok (.ok stopEngine) := by decide +kernel
  refine ⟨_, _, ?_, stop_limits_exact rfl hcreate (((Run.refl _).tail hup).tail hread)⟩
  rfl

end Wrkrs
