import Wrkrs.ConnectionWrites

/-!
# One slot of the event loop

The part of `eventloop.rs` that one slot sees: its connection and stream, the interest
registered for its token, the deadlines pending for it and what it shares with the other
slots of the thread. Readiness, the outcome of connects and the clock are inputs.
-/

namespace Wrkrs

set_option autoImplicit false

open Text Machine

variable {ε σ : Type}

/-- Why the thread stops in the middle of an event. -/
inductive Halt where
  | panic (fault : Fault)
  | exit (message : Str)
  deriving DecidableEq, Repr

inductive Reaction where
  | interest (interest : Interest)
  | reconnect
  | delay (millis : UInt64)
  | fatal (message : Str)
  | nothing
  deriving DecidableEq, Repr

def Event.reaction : Event → Reaction
  | .interest i => .interest i
  | .reconnect => .reconnect
  | .delay millis => .delay millis
  | .fatal message => .fatal message

structure LoopConfig where
  staticRequest : Option Bytes
  pipeline : UInt64
  dynamic : Bool
  hasDelay : Bool
  wantsResponse : Bool

structure Thread (ε : Type) where
  latency : Histogram
  counters : Counters
  engine : ε

def LoopConfig.ctx (config : LoopConfig) (thread : Thread ε) : ThreadCtx ε where
  latency := thread.latency
  counters := thread.counters
  pipeline := config.pipeline
  dynamic := config.dynamic
  hasDelay := config.hasDelay
  wantsResponse := config.wantsResponse
  engine := thread.engine

def ThreadCtx.thread (ctx : ThreadCtx ε) : Thread ε := ⟨ctx.latency, ctx.counters, ctx.engine⟩

def LoopConfig.connection (config : LoopConfig) (initial : Bool) : Connection :=
  .new (config.staticRequest.getD []) config.wantsResponse (initial && config.hasDelay)

def Counters.failConnect (counters : Counters) : Counters :=
  { counters with errors := { counters.errors with connect := counters.errors.connect + 1 } }

def Thread.failConnect (thread : Thread ε) : Thread ε :=
  { thread with counters := thread.counters.failConnect }

structure Slot (σ : Type) where
  stream : σ
  connection : Connection
  connecting : Bool
  interest : Interest

structure SlotLoop (ε σ : Type) where
  slot : Option (Slot σ)
  deadlines : List Nat
  thread : Thread ε

structure Driver (ε σ : Type) where
  config : LoopConfig
  build : Build
  parse : ResponseParser
  engine : ScriptEngine ε
  socket : Socket σ

/-- What a readiness event finds of a connect attempt. A refused or failed attempt
reopens, and the new stream is missing when that fails locally. -/
inductive Attempt (σ : Type) where
  | refused (reopened : Option σ)
  | failed (reopened : Option σ)
  | handshaking (stream : σ)
  | up (stream : σ)

/-- One readiness event: its bits, what it finds of a connect attempt, the clock of each
handler, the bound of the read loop and the stream of a reconnect. -/
structure Readiness (σ : Type) where
  readable : Bool
  writable : Bool
  attempt : Attempt σ
  readAt : Nat
  writeAt : Nat
  fuel : Nat
  reopened : Option σ

namespace Slot

variable (slot : Slot σ) (driver : Driver ε σ) (r : Readiness σ) (thread : Thread ε)

def endpoint (config : LoopConfig) : Endpoint ε σ := ⟨slot.connection, config.ctx thread, slot.stream⟩

def readable : Except Fault (Event × Endpoint ε σ) :=
  (slot.endpoint thread driver.config).readable driver.build driver.parse driver.engine
    driver.socket r.readAt r.fuel

def writable : Except Fault (Event × Endpoint ε σ) :=
  (slot.endpoint thread driver.config).writable driver.engine driver.socket r.writeAt

end Slot

namespace SlotLoop

variable (s : SlotLoop ε σ)

/-- The slot, when it is present and no longer connecting. -/
def live : Option (Slot σ) := s.slot.filter fun slot => !slot.connecting

def reregister (interest : Interest) : SlotLoop ε σ :=
  { s with slot := s.slot.map fun slot => { slot with interest := interest } }

/-- Opens and registers a connection, or leaves the slot empty. -/
def connectSlot (config : LoopConfig) (opened : Option σ) : SlotLoop ε σ :=
  match opened with
  | none => { s with slot := none, thread := s.thread.failConnect }
  | some stream =>
    { s with slot := some ⟨stream, config.connection true, true, .readableWritable⟩ }

def closeSlot : SlotLoop ε σ := { s with slot := none }

def handled (slot : Slot σ) (q : Endpoint ε σ) : SlotLoop ε σ :=
  { s with
    slot := some { slot with connection := q.connection, stream := q.socket }
    thread := q.ctx.thread }

def fire (driver : Driver ε σ) (r : Readiness σ) (writable : Bool) :
    Except Halt (Reaction × SlotLoop ε σ) :=
  match s.slot with
  | none => .ok (.nothing, s)
  | some slot =>
    match
      if writable then slot.writable driver r s.thread else slot.readable driver r s.thread
    with
    | .error fault => .error (.panic fault)
    | .ok (event, q) => .ok (event.reaction, s.handled slot q)

def apply (config : LoopConfig) (reopened : Option σ) : Reaction → Except Halt (SlotLoop ε σ)
  | .interest i => .ok (s.reregister i)
  | .reconnect => .ok (s.closeSlot.connectSlot config reopened)
  -- Delays apply in the writable arm which owns the heap.
  | .delay _ => .ok s
  | .fatal message => .error (.exit message)
  | .nothing => .ok s

def attempted (config : LoopConfig) (slot : Slot σ) : Attempt σ → Except Halt (SlotLoop ε σ)
  | .refused reopened | .failed reopened =>
    .ok ({ s with thread := s.thread.failConnect }.closeSlot.connectSlot config reopened)
  | .handshaking stream => .ok { s with slot := some { slot with stream := stream } }
  | .up stream =>
    let (event, connection) := slot.connection.connected
    let reaction : Reaction := match event with
      | .interest i => .interest i
      | _ => .nothing
    let slot := { slot with stream := stream, connection := connection, connecting := false }
    { s with slot := some slot }.apply config none reaction

def readablePart (driver : Driver ε σ) (r : Readiness σ) : Except Halt (SlotLoop ε σ) :=
  if r.readable then do
    let (reaction, s) ← s.fire driver r false
    s.apply driver.config r.reopened reaction
  else .ok s

def writablePart (driver : Driver ε σ) (r : Readiness σ) : Except Halt (SlotLoop ε σ) :=
  if r.writable ∧ s.live.isSome then do
    let (reaction, s) ← s.fire driver r true
    match reaction with
    | .delay millis =>
      .ok ({ s with deadlines := (r.writeAt + 1000 * millis.toNat) :: s.deadlines }.reregister
        .readable)
    | reaction => s.apply driver.config r.reopened reaction
  else .ok s

/-- One readiness event: readable fires before writable, the ae order. -/
def ready (driver : Driver ε σ) (r : Readiness σ) : Except Halt (SlotLoop ε σ) :=
  match s.slot.filter fun slot => slot.connecting with
  | some slot => s.attempted driver.config slot r.attempt
  | none => do
    let s ← s.readablePart driver r
    s.writablePart driver r

/-- The delay timer of the token fires; no other slot or attempt hears of it. -/
def delayFired : SlotLoop ε σ :=
  match s.live with
  | some slot =>
    match slot.connection.delayFired with
    | (.interest i, connection) =>
      { s with slot := some { slot with connection := connection, interest := i } }
    | _ => s
  | none => s

def popDeadline (now : Nat) : SlotLoop ε σ :=
  match s.deadlines.min? with
  | some deadline =>
    if now < deadline then s
    else { s with deadlines := s.deadlines.erase deadline }.delayFired
  | none => s

end SlotLoop

end Wrkrs
