import Wrkrs.Stats
import Wrkrs.Framer

/-!
# The connection state machine

One connection of `connection.rs` over any socket and any script engine. A handler
takes a connection with its thread and its socket and says what the loop does next.
The clock is an argument in microseconds; the read loop runs on a bound.
-/

namespace Wrkrs

set_option autoImplicit false

open Text Machine

variable {ε σ : Type}

inductive IoError where
  | wouldBlock
  | other
  deriving DecidableEq, Repr

/-- The socket operations the state machine needs. A read is given the buffer size,
and no bytes mean the end of the stream. -/
structure Socket (σ : Type) where
  write : σ → Bytes → Except IoError Nat × σ
  read : σ → Nat → Except IoError Bytes × σ

inductive EngineError where
  | load (message : Str)
  | runtime (message : Str)
  | unsupportedValue (message : Str)
  | resolve (message : Str)
  deriving DecidableEq, Repr

def EngineError.rawMessage : EngineError → Str
  | .load message => message
  | .runtime message => message
  | .unsupportedValue message => message
  | .resolve message => message

structure ScriptEngine (ε : Type) where
  delay : ε → UInt64 × ε
  request : ε → Except EngineError Bytes × ε
  response : ε → UInt16 → List (Str × Str) → Bytes → Except EngineError Unit × ε

/-- The counts of errors, as numbers. They are the `u64`s of the code below 2^64. -/
structure ErrorCounts where
  connect : Nat
  read : Nat
  write : Nat
  status : Nat
  timeout : Nat
  deriving DecidableEq, Repr

/-- The counters of a thread. They are the `u64`s of the code below 2^64. -/
structure Counters where
  complete : Nat
  requests : Nat
  bytes : Nat
  errors : ErrorCounts
  deriving DecidableEq, Repr

structure ThreadCtx (ε : Type) where
  latency : Histogram
  counters : Counters
  pipeline : UInt64
  dynamic : Bool
  hasDelay : Bool
  wantsResponse : Bool
  engine : ε

/-- The interest a connection registers; readable is always included. -/
inductive Interest where
  | readable
  | readableWritable
  deriving DecidableEq, Repr

inductive Event where
  | interest (interest : Interest)
  | reconnect
  | delay (millis : UInt64)
  | fatal (message : Str)
  deriving DecidableEq, Repr

inductive Request where
  | shared (bytes : Bytes)
  | owned (bytes : Bytes)
  deriving DecidableEq, Repr

def Request.bytes : Request → Bytes
  | .shared bytes => bytes
  | .owned bytes => bytes

def recvbuf : Nat := 8192

structure Connection where
  framer : ResponseFramer
  request : Request
  written : Nat
  pending : UInt64
  delayed : Bool
  started : Option Nat
  deriving DecidableEq

/-- A connection with its thread and its socket. -/
structure Endpoint (ε σ : Type) where
  connection : Connection
  ctx : ThreadCtx ε
  socket : σ

namespace Connection

def new (staticRequest : Bytes) (wantsResponse delayed : Bool) : Connection where
  framer := ResponseFramer.new wantsResponse
  request := .shared staticRequest
  written := 0
  pending := 0
  delayed := delayed
  started := none

def connected (c : Connection) : Event × Connection :=
  (.interest .readableWritable, { c with written := 0 })

def delayFired (c : Connection) : Event × Connection :=
  (.interest .readableWritable, { c with delayed := false })

end Connection

def Counters.failRead (counters : Counters) : Counters :=
  { counters with errors := { counters.errors with read := counters.errors.read + 1 } }

def Counters.failWrite (counters : Counters) : Counters :=
  { counters with errors := { counters.errors with write := counters.errors.write + 1 } }

def Counters.timeOut (counters : Counters) : Counters :=
  { counters with errors := { counters.errors with timeout := counters.errors.timeout + 1 } }

def Counters.count (counters : Counters) (status : UInt16) : Counters :=
  { counters with
    complete := counters.complete + 1
    requests := counters.requests + 1
    errors :=
      if 399 < status then { counters.errors with status := counters.errors.status + 1 }
      else counters.errors }

namespace Endpoint

variable (p : Endpoint ε σ)

def withEngine (engine : ε) : Endpoint ε σ := { p with ctx := { p.ctx with engine := engine } }

def withCounters (counters : Counters) : Endpoint ε σ :=
  { p with ctx := { p.ctx with counters := counters } }

/-- A burst starts: dynamic scripts generate, the clock arms, the pipeline counts. -/
def startBurst (engine : ScriptEngine ε) (now : Nat) : Except EngineError Unit × Endpoint ε σ :=
  if p.connection.written = 0 then
    let arm : Endpoint ε σ → Endpoint ε σ := fun p =>
      { p with connection := { p.connection with started := some now, pending := p.ctx.pipeline } }
    if p.ctx.dynamic then
      match engine.request p.ctx.engine with
      | (.ok bytes, state) =>
        let p := p.withEngine state
        (.ok (), arm { p with connection := { p.connection with request := .owned bytes } })
      | (.error error, state) => (.error error, p.withEngine state)
    else (.ok (), arm p)
  else (.ok (), p)

def send (socket : Socket σ) : Except Fault (Event × Endpoint ε σ) := do
  let bytes := p.connection.request.bytes
  let rest ← sliceFrom bytes p.connection.written
  match socket.write p.socket rest with
  | (.ok count, state) =>
    -- Sockets count bytes of one vector, so the sum is a word.
    let written := p.connection.written + count
    if written = bytes.length then
      -- The burst went out whole, drop writable.
      return (.interest .readable,
        { p with connection := { p.connection with written := 0 }, socket := state })
    else
      return (.interest .readableWritable,
        { p with connection := { p.connection with written := written }, socket := state })
  | (.error .wouldBlock, state) => return (.interest .readableWritable, { p with socket := state })
  | (.error .other, state) =>
    return (.reconnect, { p.withCounters p.ctx.counters.failWrite with socket := state })

def writable (engine : ScriptEngine ε) (socket : Socket σ) (now : Nat) :
    Except Fault (Event × Endpoint ε σ) :=
  if p.connection.delayed then
    let (millis, state) := engine.delay p.ctx.engine
    return (.delay millis, p.withEngine state)
  else
    match p.startBurst engine now with
    | (.ok _, p) => p.send socket
    | (.error error, p) => return (.fatal error.rawMessage, p)

def deliver (engine : ScriptEngine ε) (wants : Bool) (state : ε) (r : Response) :
    Except EngineError Unit × ε :=
  if wants then engine.response state r.status r.headers r.body else (.ok (), state)

/-- Microseconds since the burst started, zero before any. -/
def elapsed (now : Nat) : Nat :=
  match p.connection.started with
  | some started => (now - started) % word
  | none => 0

def recordLatency (now : Nat) : Endpoint ε σ :=
  match p.ctx.latency.record (p.elapsed now) with
  | (true, latency) => { p with ctx := { p.ctx with latency := latency } }
  | (false, latency) =>
    { p with ctx := { p.ctx with latency := latency, counters := p.ctx.counters.timeOut } }

/-- Re-arms writable after a drained pipeline or reconnects. -/
def rearmOrClose (r : Response) : Event :=
  if r.keepAlive then .interest .readableWritable else .reconnect

/-- The pending counter wraps like the C unsigned decrement. -/
def countDown : Endpoint ε σ :=
  { p with connection := { p.connection with pending := p.connection.pending - 1 } }

def drained (now : Nat) : Endpoint ε σ :=
  let p := p.recordLatency now
  { p with connection := { p.connection with delayed := p.ctx.hasDelay } }

/-- One framed response: an event ends the batch. -/
def respond (engine : ScriptEngine ε) (now : Nat) (r : Response) : Option Event × Endpoint ε σ :=
  let p := p.withCounters (p.ctx.counters.count r.status)
  match deliver engine p.ctx.wantsResponse p.ctx.engine r with
  | (.error error, state) => (some (.fatal error.rawMessage), p.withEngine state)
  | (.ok _, state) =>
    let p := (p.withEngine state).countDown
    if p.connection.pending = 0 then (some (rearmOrClose r), p.drained now)
    else if r.keepAlive then (none, p)
    else (some .reconnect, p)

def responses (engine : ScriptEngine ε) (now : Nat) :
    Endpoint ε σ → List Response → Option Event × Endpoint ε σ
  | p, [] => (none, p)
  | p, r :: rest =>
    match p.respond engine now r with
    | (some event, p) => (some event, p)
    | (none, p) => responses engine now p rest

def withFramer (framer : ResponseFramer) : Endpoint ε σ :=
  { p with connection := { p.connection with framer := framer } }

def failRead : Option Event × Endpoint ε σ :=
  (some .reconnect, p.withCounters p.ctx.counters.failRead)

/-- What the framer made of a read: every framing error reconnects, and a batch that
no response ends goes on with `idle`. -/
def takeBatch (engine : ScriptEngine ε) (now : Nat)
    (idle : Endpoint ε σ → Option Event × Endpoint ε σ) :
    Except FrameError (List Response) → Option Event × Endpoint ε σ
  | .error _ => p.failRead
  | .ok batch =>
    match p.responses engine now batch with
    | (some event, p) => (some event, p)
    | (none, p) => idle p

def readOnce (build : Build) (parse : ResponseParser) (engine : ScriptEngine ε) (socket : Socket σ)
    (now : Nat) : Except Fault (Option Event × Endpoint ε σ) :=
  match socket.read p.socket recvbuf with
  | (.ok [], state) => do
    -- End of stream completes an until-close message, anything else is a read error.
    let (result, framer) ← p.connection.framer.closed
    let p := { p with socket := state }.withFramer framer
    return p.takeBatch engine now failRead result
  | (.ok bytes, state) => do
    let p := p.withCounters { p.ctx.counters with bytes := p.ctx.counters.bytes + bytes.length }
    let data ← if bytes.length ≤ recvbuf then .ok bytes else .error .slice
    let (result, framer) ← p.connection.framer.feed build parse data
    let p := { p with socket := state }.withFramer framer
    return p.takeBatch engine now
      (fun p => if bytes.length = recvbuf then (none, p) else (some (.interest .readable), p)) result
  | (.error .wouldBlock, state) => return (some (.interest .readable), { p with socket := state })
  | (.error .other, state) => return { p with socket := state }.failRead

/-- Reads while the buffer fills completely. -/
def readable (build : Build) (parse : ResponseParser) (engine : ScriptEngine ε) (socket : Socket σ)
    (now : Nat) : Nat → Endpoint ε σ → Except Fault (Event × Endpoint ε σ)
  | 0, _ => .error .fuel
  | fuel + 1, p => do
    match ← p.readOnce build parse engine socket now with
    | (some event, p) => return (event, p)
    | (none, p) => readable build parse engine socket now fuel p

end Endpoint

end Wrkrs
