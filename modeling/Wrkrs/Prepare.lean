import Wrkrs.Cli
import Wrkrs.Handles
import Wrkrs.Pool
import Wrkrs.Resolve
import Wrkrs.Verify
import Wrkrs.WrkLua

/-!
# Preparing a run

`prepare` of `runner.rs`: the main engine, the target, and for every thread an engine that is
parked for the setup of the main engine, taken for its own init and parked again. The engines
are those of any script: each callback may call the handles that its script holds. No
expectation on the way fails, and the handles do nothing to what the scripts see.
-/

namespace Wrkrs

set_option autoImplicit false
set_option maxRecDepth 4096

open Text Machine Splitting Dialogues Cli

variable {α ν ε η : Type}

structure RunSpec extends ScriptSpec where
  url : Str
  script : Option Str

def buildSpec (config : Config) : RunSpec where
  url := config.url
  parts := config.parts
  script := config.script
  headers := splitHeaders config.headers

structure Demands extends Capabilities where
  hasDone : Bool

def Demands.default : Demands := ⟨⟨false, false, false⟩, false⟩

/-- The engines that a factory builds, the first one for the main environment, and their
callbacks. The main engine holds the handles of all threads so far, a thread its own. -/
structure Environment (α ν ε : Type) where
  create : Nat → RunSpec → Except Fault (Except EngineError ε)
  globals : Globals ε ν
  resolve : ε → Str → Str → Resolving α (Except EngineError (List α) × ε)
  setup : (k : Nat) → ε → HandleCalls (k + 1) α ν (Except EngineError Unit × ε)
  init : ε → List Str → OwnCalls α ν (Except EngineError Unit × ε)
  demands : ε → Demands
  delay : ε → OwnCalls α ν (UInt64 × ε)
  request : ε → OwnCalls α ν (Except EngineError Bytes × ε)
  response : ε → UInt16 → List (Str × Str) → Bytes → OwnCalls α ν (Except EngineError Unit × ε)
  done : (n : Nat) → RunReport → ε → HandleCalls n α ν (Except EngineError Unit × ε)

/-- Why a preparation ends: an expectation or a computation panics, or a message is printed. -/
inductive Unprepared where
  | expected
  | fault (fault : Fault)
  | error (message : Str)
  deriving DecidableEq, Repr

def raised {β : Type} (result : Except EngineError β) : Except Unprepared β :=
  result.mapError fun error => .error error.rawMessage

def built : Except Fault (Except EngineError ε) → Except Unprepared ε
  | .error fault => .error (.fault fault)
  | .ok result => raised result

def verified : Except Fault (Except Str Nat) → Except Unprepared Nat
  | .error fault => .error (.fault fault)
  | .ok (.error message) => .error (.error message)
  | .ok (.ok pipeline) => .ok pipeline

structure Preparing (ε δ : Type) (k : Nat) where
  main : ε
  threads : Fin k → δ
  found : Nat × Demands

structure Prepared (α ε δ : Type) (n : Nat) extends Preparing ε δ n where
  addresses : List α
  tls : Option Str

/-- A thread after its probes, its engine apart from what is left of it. -/
structure ProbedThread (ε δ : Type) where
  found : Nat × Demands
  engine : ε
  rest : δ

section Preparation
variable (env : Environment α ν ε) (build : Build) (parse : RequestParser) (config : Config)

/-- The setup of the main engine for a new thread. -/
def setupThread {δ : Type} (serve : Server (ThreadCall α ν) ThreadCall.Answer δ) {k : Nat}
    (main : ε) (threads : Fin k → δ) (fresh : δ) : Except Unprepared (ε × (Fin (k + 1) → δ)) :=
  let answer := (env.setup k main).run (serveAll serve) (Fin.snoc threads fresh)
  (raised answer.1.1).map fun _ => (answer.1.2, answer.2)

/-- The probes of thread zero; of other threads nothing is asked. -/
def probeThread {δ : Type} (serve : Server (ThreadCall α ν) ThreadCall.Answer δ) (k : Nat)
    (found : Nat × Demands) (engine : ε) (rest : δ) : Except Unprepared (ProbedThread ε δ) :=
  if k = 0 then
    let answer := (env.request engine).run serve rest
    (raised answer.1.1 >>= fun request => verified (verifyRequest build parse request)).map
      fun pipeline => ⟨(pipeline, env.demands engine), answer.1.2, answer.2⟩
  else .ok ⟨found, engine, rest⟩

def initThread {δ : Type} (serve : Server (ThreadCall α ν) ThreadCall.Answer δ) (k : Nat)
    (found : Nat × Demands) (engine : ε) (rest : δ) : Except Unprepared (ProbedThread ε δ) :=
  let answer := (env.init engine config.initArgs).run serve rest
  raised answer.1.1 >>= fun _ => probeThread env build parse serve k found answer.1.2 answer.2

def prepareThread {k : Nat} (p : Preparing ε (HostThread α ε) k) :
    Except Unprepared (Preparing ε (HostThread α ε) (k + 1)) := do
  let engine ← built (env.create (k + 1) (buildSpec config))
  let (main, threads) ← setupThread env (HostThread.serve env.globals) p.main p.threads
    (HostThread.new.park engine)
  match (threads (Fin.last k)).take with
  | (none, _) => .error .expected
  | (some engine, handle) =>
    let probed ← initThread env build parse config (HostThread.serve env.globals) k p.found
      engine handle
    return ⟨main, Function.update threads (Fin.last k) (probed.rest.park probed.engine),
      probed.found⟩

/-- The same turn over threads whose engines are called with nothing in between. -/
def openThread {k : Nat} (p : Preparing ε (OpenThread α ε) k) :
    Except Unprepared (Preparing ε (OpenThread α ε) (k + 1)) := do
  let engine ← built (env.create (k + 1) (buildSpec config))
  let (main, threads) ← setupThread env (OpenThread.serve env.globals) p.main p.threads
    (OpenThread.new engine)
  let probed ← initThread env build parse config ClosedThread.serve k p.found
    (threads (Fin.last k)).engine (threads (Fin.last k)).close
  return ⟨main, Function.update threads (Fin.last k) (probed.rest.opens probed.engine),
    probed.found⟩

def prepareThreads {δ : Type}
    (turn : {k : Nat} → Preparing ε δ k → Except Unprepared (Preparing ε δ (k + 1))) (main : ε) :
    (n : Nat) → Except Unprepared (Preparing ε δ n)
  | 0 => .ok ⟨main, Fin.elim0, (1, .default)⟩
  | n + 1 => prepareThreads turn main n >>= turn

def prepareWith {δ : Type}
    (turn : {k : Nat} → Preparing ε δ k → Except Unprepared (Preparing ε δ (k + 1)))
    (net : Network η α) (network : η) :
    Except Unprepared (Prepared α ε δ config.threads.toNat) := do
  let main ← built (env.create 0 (buildSpec config))
  let host := config.parts.host.getD []
  let tls := if config.parts.scheme.any ("https".toList).isPrefixOf then some host else none
  let service := (config.parts.port.or config.parts.scheme).getD []
  let ((result, main), resolver) := (env.resolve main host service).run
    (SystemResolver.serve net) (.new network)
  let addresses ← raised result
  if addresses = [] then .error (.error (unreachable host service resolver.lastText))
  else do
    let threads ← prepareThreads turn main config.threads.toNat
    return { threads with addresses := addresses, tls := tls }

def prepare (net : Network η α) (network : η) :
    Except Unprepared (Prepared α ε (HostThread α ε) config.threads.toNat) :=
  prepareWith env config (prepareThread env build parse config) net network

/-- What `prepare` stands for. -/
def prepareOpen (net : Network η α) (network : η) :
    Except Unprepared (Prepared α ε (OpenThread α ε) config.threads.toNat) :=
  prepareWith env config (openThread env build parse config) net network

end Preparation

def Preparing.handles {k : Nat} (p : Preparing ε (OpenThread α ε) k) :
    Preparing ε (HostThread α ε) k :=
  { p with threads := fun i => (p.threads i).handle }

def Prepared.handles {n : Nat} (p : Prepared α ε (OpenThread α ε) n) :
    Prepared α ε (HostThread α ε) n :=
  { p.toPreparing.handles with addresses := p.addresses, tls := p.tls }

def ProbedThread.handles (p : ProbedThread ε (ClosedThread α)) : ProbedThread ε (HostThread α ε) :=
  { p with rest := p.rest.handle ε }

section Refinement
variable {env : Environment α ν ε} {build : Build} {parse : RequestParser} {config : Config}

theorem setupThread_open (env : Environment α ν ε) {k : Nat} (main : ε) (ts : Fin k → OpenThread α ε)
    (t : OpenThread α ε) :
    setupThread env (HostThread.serve env.globals) main (fun i => (ts i).handle) t.handle =
      (setupThread env (OpenThread.serve env.globals) main ts t).map fun answer =>
        (answer.1, fun i => (answer.2 i).handle) := by
  have hsnoc : (Fin.snoc (fun i => (ts i).handle) t.handle : Fin (k + 1) → HostThread α ε) =
      fun i => ((Fin.snoc ts t : Fin (k + 1) → OpenThread α ε) i).handle :=
    (Fin.comp_snoc OpenThread.handle ts t).symm
  unfold setupThread
  rw [hsnoc, run_open]
  dsimp only
  cases raised (Dialogue.run (serveAll (OpenThread.serve env.globals)) (env.setup k main)
    (Fin.snoc ts t)).1.1 <;> rfl

theorem probeThread_closed (k : Nat) (found : Nat × Demands) (engine : ε) (t : ClosedThread α) :
    probeThread env build parse (HostThread.serve env.globals) k found engine (t.handle ε) =
      (probeThread env build parse ClosedThread.serve k found engine t).map ProbedThread.handles := by
  unfold probeThread
  split
  · rw [run_closed]
    dsimp only
    cases raised (Dialogue.run ClosedThread.serve (env.request engine) t).1.1 >>= fun request =>
      verified (verifyRequest build parse request) <;> rfl
  · rfl

theorem initThread_closed (k : Nat) (found : Nat × Demands) (engine : ε) (t : ClosedThread α) :
    initThread env build parse config (HostThread.serve env.globals) k found engine
        (t.handle ε) =
      (initThread env build parse config ClosedThread.serve k found engine t).map
        ProbedThread.handles := by
  unfold initThread
  rw [run_closed]
  dsimp only
  cases raised (Dialogue.run ClosedThread.serve (env.init engine config.initArgs) t).1.1 with
  | error _ => rfl
  | ok _ => exact probeThread_closed k found _ _

theorem prepareThread_open {k : Nat} (p : Preparing ε (OpenThread α ε) k) :
    prepareThread env build parse config p.handles =
      (openThread env build parse config p).map Preparing.handles := by
  unfold prepareThread openThread
  cases built (env.create (k + 1) (buildSpec config)) with
  | error _ => rfl
  | ok engine =>
    have hsetup := setupThread_open env p.main p.threads (OpenThread.new engine)
    rw [ok_bind, ok_bind]
    change (setupThread env (HostThread.serve env.globals) p.main (fun i => (p.threads i).handle)
      (OpenThread.new engine).handle >>= _) = _
    rw [hsetup]
    cases setupThread env (OpenThread.serve env.globals) p.main p.threads
      (OpenThread.new engine) with
    | error _ => rfl
    | ok answer =>
      obtain ⟨main, threads⟩ := answer
      change (initThread env build parse config (HostThread.serve env.globals) k p.found
        (threads (Fin.last k)).engine ((threads (Fin.last k)).close.handle ε) >>= _) = _
      rw [initThread_closed, ok_bind]
      dsimp only
      cases initThread env build parse config ClosedThread.serve k p.found
        (threads (Fin.last k)).engine (threads (Fin.last k)).close with
      | error _ => rfl
      | ok probed =>
        have hupdate := Function.comp_update OpenThread.handle threads (Fin.last k)
          (probed.rest.opens probed.engine)
        exact congrArg (fun ts => Except.ok (Preparing.mk main ts probed.found)) hupdate.symm

theorem prepareThreads_open (main : ε) (n : Nat) :
    prepareThreads (prepareThread env build parse config) main n =
      (prepareThreads (openThread env build parse config) main n).map Preparing.handles := by
  induction n with
  | zero =>
    have hnone : (Fin.elim0 : Fin 0 → HostThread α ε) = fun i => (i.elim0 : OpenThread α ε).handle :=
      funext fun i => i.elim0
    exact congrArg (fun ts => Except.ok (Preparing.mk main ts (1, .default))) hnone
  | succ n ih =>
    unfold prepareThreads
    rw [ih]
    cases prepareThreads (openThread env build parse config) main n with
    | error _ => rfl
    | ok p => exact prepareThread_open p

theorem prepare_handles (env : Environment α ν ε) (build : Build) (parse : RequestParser)
    (config : Config) (net : Network η α) (network : η) :
    prepare env build parse config net network =
      (prepareOpen env build parse config net network).map Prepared.handles := by
  unfold prepare prepareOpen prepareWith
  cases built (env.create 0 (buildSpec config)) with
  | error _ => rfl
  | ok main =>
    rw [ok_bind, ok_bind]
    dsimp only
    generalize (env.resolve main (config.parts.host.getD [])
      ((config.parts.port.or config.parts.scheme).getD [])).run (SystemResolver.serve net)
        (.new network) = answer
    obtain ⟨⟨result, main⟩, resolver⟩ := answer
    dsimp only
    cases raised result with
    | error _ => rfl
    | ok addresses =>
      rw [ok_bind, ok_bind]
      split
      · rfl
      · rw [prepareThreads_open]
        cases prepareThreads (openThread env build parse config) main config.threads.toNat <;> rfl

def Unfailing {β : Type} (answer : Except Unprepared β) : Prop := answer ≠ .error .expected

theorem Unfailing.bind {β γ : Type} {answer : Except Unprepared β} {f : β → Except Unprepared γ}
    (h : Unfailing answer) (hf : ∀ b, Unfailing (f b)) : Unfailing (answer >>= f) := by
  cases answer with
  | error reason => exact fun hfails => h (congrArg Except.error (Except.error.inj hfails))
  | ok b => exact hf b

theorem Unfailing.map {β γ : Type} {answer : Except Unprepared β} (h : Unfailing answer)
    (f : β → γ) : Unfailing (answer.map f) := by
  cases answer with
  | error reason => exact fun hfails => h (congrArg Except.error (Except.error.inj hfails))
  | ok b => exact nofun

end Refinement

/-- What `execute` takes for one worker: the engine, its address and what is left. -/
def startThread (addresses : List α) (h : HostThread α ε) : Option (ε × α × HostThread α ε) :=
  match h.take with
  | (none, _) => none
  | (some engine, h) => (h.addr.or addresses.head?).map fun address => (engine, address, h)

section Starts
variable {env : Environment α ν ε} {build : Build} {parse : RequestParser} {config : Config}
variable {net : Network η α} {network : η}

end Starts

end Wrkrs
