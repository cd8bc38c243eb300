import Wrkrs.Library.Machine
import Wrkrs.Httparse

/-!
# The response framer

The streaming framer of `parser.rs`: a buffer, an offset into it and the state of
the current message. Every index, slice and word operation of the source is a
checked one here, in either build. Loops run on a bound that `turns` supplies.
-/

namespace Wrkrs

set_option autoImplicit false

open Text Machine

inductive ChunkState where
  | size
  | data (remaining : Nat)
  | trailers
  deriving DecidableEq, Repr

inductive FrameState where
  | headers
  | body (remaining : Nat)
  | chunked (chunk : ChunkState)
  | untilClose
  | broken
  deriving DecidableEq, Repr

structure Response where
  status : UInt16
  headers : List (Str × Str)
  body : Bytes
  keepAlive : Bool
  deriving DecidableEq, Repr

inductive FrameError where
  | badResponse
  | closedMidMessage
  | broken
  deriving DecidableEq, Repr

/-- What a framer holds besides its buffer. -/
structure Message where
  state : FrameState
  capture : Bool
  status : UInt16
  messageKeepAlive : Bool
  headers : List (Str × Str)
  body : Bytes
  deriving DecidableEq, Repr

structure ResponseFramer extends Message where
  buf : Bytes
  scanned : Nat
  deriving DecidableEq, Repr

/-- What a method of the framer returns, and the framer it leaves. -/
abbrev Outcome (α : Type) := Except FrameError α × ResponseFramer

/-- The Connection header overrides the default both ways, `keep-alive` last. -/
def keepAliveAfter (keepAlive : Bool) (header : Header) : Bool :=
  if eqIgnoreCase header.name "connection".toList then
    let policy := lower (fromUtf8Lossy header.value)
    let keepAlive := if contains policy "close".toList then false else keepAlive
    if contains policy "keep-alive".toList then true else keepAlive
  else keepAlive

def bodiless (status : UInt16) : Bool := status < 200 || status == 204 || status == 304

/-- The first Content-Length header, when it reads as a number. -/
def contentLength (headers : List Header) : Option Nat :=
  (headers.find? fun header => eqIgnoreCase header.name "content-length".toList).bind
    fun header => (fromUtf8 header.value).bind (fromStrRadix 10 word)

def isChunked (headers : List Header) : Bool :=
  headers.any fun header =>
    eqIgnoreCase header.name "transfer-encoding".toList &&
      match fromUtf8 header.value with
      | some value => contains (lower value) "chunked".toList
      | none => false

namespace Message

def readHead (m : Message) (head : ResponseHead) : Message :=
  { m with
    status := head.code.getD 0
    messageKeepAlive := head.headers.foldl keepAliveAfter (head.version == some 1)
    headers :=
      if m.capture then head.headers.map fun header => (header.name, fromUtf8Lossy header.value)
      else [] }

def response (m : Message) : Response :=
  ⟨m.status, m.headers, m.body, m.messageKeepAlive⟩

/-- What `finish` leaves: the taken fields are empty, the next head is due. -/
def finished (m : Message) : Message := { m with state := .headers, headers := [], body := [] }

/-- Bodies follow framing headers, some statuses never carry one. -/
def chooseFraming (m : Message) (headers : List Header) : Option Response × Message :=
  if bodiless m.status then (some m.response, m.finished)
  else
    match contentLength headers with
    | some length => (none, { m with state := .body length })
    | none =>
      if isChunked headers then (none, { m with state := .chunked .size })
      else (none, { m with messageKeepAlive := false, state := .untilClose })

def pushBody (m : Message) (bytes : Bytes) : Message :=
  { m with body := if m.capture then m.body ++ bytes else m.body }

end Message

namespace ResponseFramer

def new (capture : Bool) : ResponseFramer where
  state := .headers
  capture := capture
  status := 0
  messageKeepAlive := true
  headers := []
  body := []
  buf := []
  scanned := 0

def setMessage (f : ResponseFramer) (m : Message) : ResponseFramer := { f with toMessage := m }

def finish (f : ResponseFramer) : Response × ResponseFramer :=
  (f.response, f.setMessage f.finished)

def compact (f : ResponseFramer) : Except Fault ResponseFramer :=
  if 8192 < f.scanned then do
    let buf ← sliceFrom f.buf f.scanned
    return { f with buf := buf, scanned := 0 }
  else return f

/-- The length of the line up to the next CR, once one more byte is there. -/
def completeLine (build : Build) (f : ResponseFramer) : Except Fault (Option Nat) := do
  let rest ← sliceFrom f.buf f.scanned
  match rest.findIdx? (· == 13) with
  | none => return none
  | some line =>
    let stop ← build.add f.scanned line
    let stop ← build.add stop 2
    return if stop ≤ f.buf.length then some line else none

def frameHeadersFrom (build : Build) (parse : ResponseParser) (f : ResponseFramer) :
    List Nat → Except Fault (Outcome (Option Response))
  | [] => return (.error .badResponse, { f with state := .broken })
  | capacity :: capacities => do
    let input ← sliceFrom f.buf f.scanned
    match parse capacity input with
    | .complete headerEnd head =>
      let scanned ← build.add f.scanned headerEnd
      let (message, m) := (f.readHead head).chooseFraming head.headers
      return (.ok message, { f with toMessage := m, scanned := scanned })
    | .incomplete => return (.ok none, f)
    | .tooManyHeaders => frameHeadersFrom build parse f capacities
    | .rejected => return (.error .badResponse, { f with state := .broken })

def frameHeaders (build : Build) (parse : ResponseParser) (f : ResponseFramer) :
    Except Fault (Outcome (Option Response)) := frameHeadersFrom build parse f [16, 64]

def frameBody (build : Build) (f : ResponseFramer) :
    Except Fault (Option Response × ResponseFramer) :=
  match f.state with
  | .body remaining => do
    let available ← build.sub f.buf.length f.scanned
    if available < remaining then return (none, f)
    let body ← if f.capture then do
        let stop ← build.add f.scanned remaining
        let bytes ← slice f.buf f.scanned stop
        pure (f.body ++ bytes)
      else pure f.body
    let scanned ← build.add f.scanned remaining
    let (message, f) := finish { f with body := body, scanned := scanned }
    return (some message, f)
  | _ => return (none, f)

inductive Turn where
  | again (f : ResponseFramer)
  | done (result : Except FrameError (Option Response)) (f : ResponseFramer)
  deriving DecidableEq

def chunkTurn (build : Build) (f : ResponseFramer) : Except Fault Turn :=
  match f.state with
  | .chunked .size => do
    match ← f.completeLine build with
    | none => return .done (.ok none) f
    | some line =>
      let stop ← build.add f.scanned line
      let text ← slice f.buf f.scanned stop
      match fromStrRadix 16 word (trim (fromUtf8Lossy text)) with
      | none => return .done (.error .badResponse) { f with state := .broken }
      | some size =>
        let skip ← build.add line 2
        let scanned ← build.add f.scanned skip
        if size = 0 then
          return .again { f with state := .chunked .trailers, scanned := scanned }
        else
          return .again { f with state := .chunked (.data size), scanned := scanned }
  | .chunked (.data remaining) => do
    -- The chunk data plus the trailing CRLF.
    let available ← build.sub f.buf.length f.scanned
    let needed ← build.add remaining 2
    if available < needed then return .done (.ok none) f
    let body ← if f.capture then do
        let stop ← build.add f.scanned remaining
        let bytes ← slice f.buf f.scanned stop
        pure (f.body ++ bytes)
      else pure f.body
    let scanned ← build.add f.scanned needed
    return .again { f with state := .chunked .size, body := body, scanned := scanned }
  | .chunked .trailers => do
    match ← f.completeLine build with
    | none => return .done (.ok none) f
    | some line =>
      let skip ← build.add line 2
      let scanned ← build.add f.scanned skip
      let f := { f with scanned := scanned }
      if line = 0 then
        let (message, f) := f.finish
        return .done (.ok (some message)) f
      else return .again f
  | _ => return .done (.ok none) f

def frameChunked (build : Build) : Nat → ResponseFramer → Except Fault (Outcome (Option Response))
  | 0, _ => .error .fuel
  | fuel + 1, f => do
    match ← f.chunkTurn build with
    | .again f => frameChunked build fuel f
    | .done result f => return (result, f)

/-- More passes than any loop over the buffer makes. -/
def turns (f : ResponseFramer) : Nat := 2 * f.buf.length + 2

/-- The loop of `drain` with the messages completed so far. A framing error leaves
through it and takes them along. -/
def drainFrom (build : Build) (parse : ResponseParser) :
    Nat → List Response → ResponseFramer → Except Fault (Outcome (List Response))
  | 0, _, _ => .error .fuel
  | fuel + 1, completed, f =>
    match f.state with
    | .headers => do
      match ← f.frameHeaders build parse with
      | (.error error, f) => return (.error error, f)
      | (.ok (some message), f) => drainFrom build parse fuel (completed ++ [message]) f
      | (.ok none, f) =>
        -- The headers are still incomplete when the state has not changed.
        if f.state = .headers then return (.ok completed, f)
        else drainFrom build parse fuel completed f
    | .body _ => do
      match ← f.frameBody build with
      | (some message, f) => drainFrom build parse fuel (completed ++ [message]) f
      | (none, f) => return (.ok completed, f)
    | .chunked _ => do
      match ← frameChunked build f.turns f with
      | (.error error, f) => return (.error error, f)
      | (.ok (some message), f) => drainFrom build parse fuel (completed ++ [message]) f
      | (.ok none, f) => return (.ok completed, f)
    | .untilClose => return (.ok completed, f)
    | .broken => return (.ok completed, f)

def drain (build : Build) (parse : ResponseParser) (f : ResponseFramer) : Except Fault
    (Outcome (List Response)) :=
  drainFrom build parse f.turns [] f

def feed (build : Build) (parse : ResponseParser) (f : ResponseFramer) (data : Bytes) :
    Except Fault (Outcome (List Response)) := do
  let f ← f.compact
  let buf ← extend f.buf data
  drain build parse { f with buf := buf }

def closed (f : ResponseFramer) : Except Fault (Outcome (List Response)) :=
  match f.state with
  | .headers | .body _ | .chunked _ => return (.error .closedMidMessage, f)
  | .untilClose => do
    let body ← if f.capture then do
        let rest ← sliceFrom f.buf f.scanned
        pure (f.body ++ rest)
      else pure f.body
    let (message, f) := finish { f with body := body, scanned := f.buf.length }
    return (.ok [message], f)
  | .broken => return (.error .broken, f)

end ResponseFramer

end Wrkrs
