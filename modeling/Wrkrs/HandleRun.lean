import Wrkrs.PrepareFile

/-!
# Handles through a run

A prepared run with the engines in their loops: each callback of a worker runs on the handle of
its own thread, which has no engine parked until the worker gives it back. The done phase then
reaches every engine as its worker left it.
-/

namespace Wrkrs

set_option autoImplicit false
set_option maxRecDepth 4096

open Text Machine Runs Parallel Dialogues Cli

variable {α ν ε σ η : Type}

/-- The engine of a thread in its loop, with the handle that its script calls. -/
def Environment.hosted (env : Environment α ν ε) : ScriptEngine (ε × HostThread α ε) where
  delay state :=
    let answer := (env.delay state.1).run (HostThread.serve env.globals) state.2
    (answer.1.1, answer.1.2, answer.2)
  request state :=
    let answer := (env.request state.1).run (HostThread.serve env.globals) state.2
    (answer.1.1, answer.1.2, answer.2)
  response state status headers body :=
    let answer := (env.response state.1 status headers body).run
      (HostThread.serve env.globals) state.2
    (answer.1.1, answer.1.2, answer.2)

theorem serve_stopped (globals : Globals ε ν) (h : HostThread α ε) (call : ThreadCall α ν)
    (hstopped : h.stopped = true) : (h.serve globals call).2.stopped = true := by
  cases call with
  | addr => exact hstopped
  | setAddr address => exact hstopped
  | stop => rfl
  | getGlobal name => exact hstopped
  | setGlobal name value =>
    change (h.setGlobal globals name value).2.stopped = true
    unfold HostThread.setGlobal
    split <;> exact hstopped

theorem serve_none (globals : Globals ε ν) (h : HostThread α ε) (call : ThreadCall α ν)
    (hnone : h.engine = none) : (h.serve globals call).2.engine = none := by
  cases call with
  | setGlobal name value =>
    change (h.setGlobal globals name value).2.engine = none
    unfold HostThread.setGlobal
    rw [hnone]
    exact hnone
  | _ => exact hnone

/-- Nothing that a script calls lowers the flag of its thread. -/
def Environment.stopHandle (env : Environment α ν ε) : StopHandle env.hosted where
  stopped state := state.2.stopped
  delay state := Dialogue.run_kept (serve_stopped env.globals) (env.delay state.1)
  request state := Dialogue.run_kept (serve_stopped env.globals) (env.request state.1)
  response state status headers body :=
    Dialogue.run_kept (serve_stopped env.globals) (env.response state.1 status headers body)

def Environment.bench (env : Environment α ν ε) (found : Nat × Demands) (build : Build)
    (parse : ResponseParser) (socket : Socket σ) (sample : Nat → Nat → Nat) :
    Bench (ε × HostThread α ε) σ where
  driver :=
    { config := ⟨none, UInt64.ofNat found.1, !found.2.isStatic, found.2.hasDelay,
        found.2.wantsResponse⟩
      build := build
      parse := parse
      engine := env.hosted
      socket := socket }
  handle := env.stopHandle
  sample := sample

section Kept
variable {env : Environment α ν ε}

end Kept

abbrev HostMember (α ε σ : Type) := Member (ε × HostThread α ε) σ

def Member.engine (m : HostMember α ε σ) : ε := m.loop.worker.thread.engine.1

def Member.handle (m : HostMember α ε σ) : HostThread α ε := m.loop.worker.thread.engine.2

def Member.left (m : HostMember α ε σ) : OpenThread α ε :=
  ⟨m.handle.addr, m.handle.stopped, m.engine⟩

/-- A worker that has just entered its loop with what it took from a handle. -/
def EnteredFrom (b : Bench (ε × HostThread α ε) σ) (addresses : List α) (h : HostThread α ε)
    (m : HostMember α ε σ) : Prop :=
  ∃ engine address rest latency opened now began,
    startThread addresses h = some (engine, address, rest) ∧
      b.enter latency opened (engine, rest) now began = .ok m

section Lives
variable {env : Environment α ν ε} {found : Nat × Demands} {build : Build}
variable {parse : ResponseParser} {socket : Socket σ} {sample : Nat → Nat → Nat}
variable {b : Bench (ε × HostThread α ε) σ} {n : Nat}

theorem EnteredFrom.start {addresses : List α} {h : HostThread α ε} {m : HostMember α ε σ}
    (hb : b.driver.engine = env.hosted) (hm : EnteredFrom b addresses h m) :
    ∃ opened thread now began,
      m.loop = .start (b.requesting m.request).driver.config opened thread now began ∧
        thread.engine.2.engine = none := by
  obtain ⟨engine, address, rest, latency, opened, now, began, hstart, hentered⟩ := hm
  have hnone : rest.engine = none := by
    unfold startThread at hstart
    split at hstart
    · cases hstart
    · rename_i htake
      obtain ⟨address', _, heq⟩ := Option.map_eq_some_iff.mp hstart
      obtain ⟨rfl, hrest⟩ := Prod.mk.inj heq
      obtain ⟨rfl, rfl⟩ := Prod.mk.inj hrest
      exact congrArg HostThread.engine (Prod.mk.inj htake).2.symm
  unfold Bench.enter at hentered
  split at hentered
  · obtain rfl := Except.ok.inj hentered
    exact ⟨opened, _, now, began, rfl, hnone⟩
  · split at hentered
    · rename_i bytes state hrequest
      obtain rfl := Except.ok.inj hentered
      refine ⟨opened, _, now, began, rfl, ?_⟩
      rw [hb] at hrequest
      have hstate := Dialogue.run_kept (serve_none env.globals) (env.request engine) hnone
      obtain ⟨_, rfl⟩ := Prod.mk.inj hrequest
      exact hstate
    · cases hentered

end Lives

/-- One engine answers every callback as another does from an image of its state. -/
structure Simulates {ε' : Type} (f : ε → ε') (engine : ScriptEngine ε)
    (engine' : ScriptEngine ε') : Prop where
  delay : ∀ s, engine'.delay (f s) = ((engine.delay s).1, f (engine.delay s).2)
  request : ∀ s, engine'.request (f s) = ((engine.request s).1, f (engine.request s).2)
  response : ∀ s status headers body, engine'.response (f s) status headers body =
    ((engine.response s status headers body).1, f (engine.response s status headers body).2)

def FileState.hosted (state : FileState ν × HostThread α (FileState ν)) : HostedEngine :=
  ⟨state.1.engine, state.2.stopped⟩

/-- The stop that a benchmark file calls on its handle is the flag of its thread. -/
theorem hosted_file (read : FileReader) (null : ν) :
    Simulates FileState.hosted (configEnvironment (α := α) read null).hosted
      ConfigEngine.scriptEngine := by
  constructor
  · intro s
    rfl
  · intro s
    rfl
  · intro s status headers body
    change _ = (((s.1.response body).run (HostThread.serve
      (configEnvironment (α := α) read null).globals) s.2).1.1, FileState.hosted
        (((s.1.response body).run (HostThread.serve
          (configEnvironment (α := α) read null).globals) s.2).1.2,
        ((s.1.response body).run (HostThread.serve
          (configEnvironment (α := α) read null).globals) s.2).2))
    unfold FileState.response
    dsimp only [ConfigEngine.scriptEngine, FileState.hosted]
    split
    · rename_i hreached
      rw [hreached, Bool.or_true]
      rfl
    · rename_i hreached
      rw [Bool.not_eq_true] at hreached
      rw [hreached, Bool.or_false]
      rfl

end Wrkrs
