import Mathlib.Data.Fin.Tuple.Basic
import Wrkrs.Connection
import Wrkrs.Library.Dialogues

/-!
# The handles of threads

The host side of one benchmark thread: its address, its stop flag and the parked engine. A
script calls the handles that it holds in the middle of its callbacks. While an engine is
parked its handle answers from it, and while its worker has it no global can be reached.
-/

namespace Wrkrs

set_option autoImplicit false
set_option maxRecDepth 4096

open Text Dialogues

variable {α ν ε ρ : Type}

/-- What a script calls on a handle, with addresses and transferred values. -/
inductive ThreadCall (α ν : Type) where
  | addr
  | setAddr (address : α)
  | stop
  | getGlobal (name : Str)
  | setGlobal (name : Str) (value : ν)

def ThreadCall.Answer : ThreadCall α ν → Type
  | .addr => Option α
  | .setAddr _ => Unit
  | .stop => Unit
  | .getGlobal _ => Except EngineError ν
  | .setGlobal _ _ => Except EngineError Unit

structure Globals (ε ν : Type) where
  get : ε → Str → Except EngineError ν
  set : ε → Str → ν → Except EngineError Unit × ε

structure HostThread (α ε : Type) where
  addr : Option α
  stopped : Bool
  engine : Option ε

def unavailable : EngineError := .runtime "thread engine is unavailable".toList

namespace HostThread

def new : HostThread α ε := ⟨none, false, none⟩

def park (h : HostThread α ε) (engine : ε) : HostThread α ε := { h with engine := some engine }

def take (h : HostThread α ε) : Option ε × HostThread α ε := (h.engine, { h with engine := none })

def getGlobal (globals : Globals ε ν) (h : HostThread α ε) (name : Str) : Except EngineError ν :=
  match h.engine with
  | some engine => globals.get engine name
  | none => .error unavailable

def setGlobal (globals : Globals ε ν) (h : HostThread α ε) (name : Str) (value : ν) :
    Except EngineError Unit × HostThread α ε :=
  match h.engine with
  | some engine =>
    let (result, engine) := globals.set engine name value
    (result, { h with engine := some engine })
  | none => (.error unavailable, h)

def serve (globals : Globals ε ν) (h : HostThread α ε) :
    (call : ThreadCall α ν) → call.Answer × HostThread α ε
  | .addr => (h.addr, h)
  | .setAddr address => ((), { h with addr := some address })
  | .stop => ((), { h with stopped := true })
  | .getGlobal name => (h.getGlobal globals name, h)
  | .setGlobal name value => h.setGlobal globals name value

end HostThread

/-- A callback on one handle, that of its own thread. -/
abbrev OwnCalls (α ν ρ : Type) := Dialogue (ThreadCall α ν) ThreadCall.Answer ρ

abbrev HandleCalls (n : Nat) (α ν ρ : Type) :=
  Dialogue (Fin n × ThreadCall α ν) (fun call => call.2.Answer) ρ

/-- A call is answered by its handle. -/
def serveAll {δ : Type} (serve : Server (ThreadCall α ν) ThreadCall.Answer δ) {n : Nat} :
    Server (Fin n × ThreadCall α ν) (fun call => call.2.Answer) (Fin n → δ) :=
  fun hs call =>
    ((serve (hs call.1) call.2).1, Function.update hs call.1 (serve (hs call.1) call.2).2)

structure OpenThread (α ε : Type) where
  addr : Option α
  stopped : Bool
  engine : ε

/-- What is left of a thread while its worker has the engine. -/
structure ClosedThread (α : Type) where
  addr : Option α
  stopped : Bool

namespace OpenThread

def new (engine : ε) : OpenThread α ε := ⟨none, false, engine⟩

def handle (t : OpenThread α ε) : HostThread α ε := ⟨t.addr, t.stopped, some t.engine⟩

def close (t : OpenThread α ε) : ClosedThread α := ⟨t.addr, t.stopped⟩

def serve (globals : Globals ε ν) (t : OpenThread α ε) :
    (call : ThreadCall α ν) → call.Answer × OpenThread α ε
  | .addr => (t.addr, t)
  | .setAddr address => ((), { t with addr := some address })
  | .stop => ((), { t with stopped := true })
  | .getGlobal name => (globals.get t.engine name, t)
  | .setGlobal name value =>
    ((globals.set t.engine name value).1, { t with engine := (globals.set t.engine name value).2 })

end OpenThread

namespace ClosedThread

def handle (ε : Type) (t : ClosedThread α) : HostThread α ε := ⟨t.addr, t.stopped, none⟩

def opens (t : ClosedThread α) (engine : ε) : OpenThread α ε := ⟨t.addr, t.stopped, engine⟩

def serve (t : ClosedThread α) : (call : ThreadCall α ν) → call.Answer × ClosedThread α
  | .addr => (t.addr, t)
  | .setAddr address => ((), { t with addr := some address })
  | .stop => ((), { t with stopped := true })
  | .getGlobal _ => ((.error unavailable : Except EngineError ν), t)
  | .setGlobal _ _ => ((.error unavailable : Except EngineError Unit), t)

end ClosedThread

section Handles
variable {globals : Globals ε ν}

theorem serve_open (t : OpenThread α ε) (call : ThreadCall α ν) :
    t.handle.serve globals call =
      ((t.serve globals call).1, (t.serve globals call).2.handle) := by
  cases call <;> rfl

theorem serve_closed (t : ClosedThread α) (call : ThreadCall α ν) :
    (t.handle ε).serve globals call = ((t.serve call).1, (t.serve call).2.handle ε) := by
  cases call <;> rfl

/-- Calls on handles with parked engines are calls on the engines. -/
theorem run_open {n : Nat} (d : HandleCalls n α ν ρ) (ts : Fin n → OpenThread α ε) :
    d.run (serveAll (HostThread.serve globals)) (fun i => (ts i).handle) =
      ((d.run (serveAll (OpenThread.serve globals)) ts).1,
        fun i => ((d.run (serveAll (OpenThread.serve globals)) ts).2 i).handle) := by
  apply Dialogue.run_simulated (fun (ts : Fin n → OpenThread α ε) i => (ts i).handle)
  intro ts call
  unfold serveAll
  rw [serve_open]
  refine Prod.ext rfl (funext fun i => ?_)
  by_cases hi : i = call.1
  · subst hi
    simp
  · simp [hi]

/-- A callback on the handle of its own thread finds no engine there. -/
theorem run_closed (d : OwnCalls α ν ρ) (t : ClosedThread α) :
    d.run (HostThread.serve globals) (t.handle ε) =
      ((d.run ClosedThread.serve t).1, (d.run ClosedThread.serve t).2.handle ε) :=
  d.run_simulated (ClosedThread.handle ε) serve_closed t

end Handles

end Wrkrs
