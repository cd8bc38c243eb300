import Wrkrs.FramerSafety
import Wrkrs.Worker

/-!
# The end of the stream

What a read of no bytes does to a connection, in every state its handlers can leave it in.
A body that runs until the peer closes belongs to a message that does not keep alive, so
its response ends the connection before a read error could be counted.
-/

namespace Wrkrs

set_option autoImplicit false
set_option maxRecDepth 4096

open Text Machine Incremental

variable {ε σ : Type} {build : Build} {parse : ResponseParser} {engine : ScriptEngine ε}
variable {socket : Socket σ} {now : Nat}

/-- A message whose body runs until the peer closes does not keep alive. -/
def Message.Closing (m : Message) : Prop := m.state = .untilClose → m.messageKeepAlive = false

theorem chooseFraming_closing (m : Message) (headers : List Header) :
    (m.chooseFraming headers).2.Closing := by
  unfold Message.chooseFraming
  split
  · intro hstate
    cases hstate
  · split
    · intro hstate
      cases hstate
    · split
      · intro hstate
        cases hstate
      · intro _
        rfl

theorem decode_closing {m t : Message} {input : Bytes} {n : Nat} {out : List Response}
    (h : decode build parse m input = .advance n t out) : t.Closing := by
  intro huntil
  rw [decode_advance_iff] at h
  cases h with
  | head _ _ => exact chooseFraming_closing _ _ huntil
  | body _ _ => cases huntil
  | size _ _ _ => cases huntil
  | data _ _ _ _ => cases huntil
  | last _ _ => cases huntil
  | trailer hstate _ _ => cases hstate.symm.trans huntil

namespace ResponseFramer

variable {f g : ResponseFramer}

theorem pass_closing (within : parse.Within) (hf : f.InRange) (hclosing : f.Closing)
    (hpass : f.pass build parse = .ok g) : g.Closing := by
  rw [pass_eq within hf.fits hf.sized] at hpass
  cases hstep : decode build parse f.toMessage f.rest with
  | wait =>
    rw [hstep] at hpass
    obtain rfl := Except.ok.inj hpass
    exact hclosing
  | advance n m out =>
    rw [hstep] at hpass
    obtain rfl := Except.ok.inj hpass
    exact decode_closing hstep
  | fail stop =>
    rw [hstep] at hpass
    cases stop with
    | fault fault => cases hpass
    | frame error =>
      obtain rfl := Except.ok.inj hpass
      intro huntil
      cases huntil

/-- A framer as a run of calls leaves it. -/
structure Orderly (f : ResponseFramer) : Prop where
  inRange : f.InRange
  closing : f.Closing

theorem new_orderly (capture : Bool) : (new capture).Orderly where
  inRange := new_inRange capture
  closing := by
    intro huntil
    cases huntil

theorem passes_orderly (within : parse.Within) (hf : f.Orderly)
    (hpasses : Passes build parse f g) : g.Orderly := by
  induction hpasses with
  | refl => exact hf
  | tail _ hpass ih =>
    constructor
    · exact (pass_onward within ih.inRange hpass).2
    · exact pass_closing within ih.inRange ih.closing hpass

theorem feed_orderly (within : parse.Within) (hf : f.Orderly) {piece : Bytes}
    {result : Except FrameError (List Response)}
    (hfeed : f.feed build parse piece = .ok (result, g)) : g.Orderly := by
  obtain ⟨hlen, hpasses⟩ := feed_passes hf.inRange hfeed
  have hload : (f.load piece).Orderly := by
    refine ⟨load_inRange hf.inRange hlen, ?_⟩
    rw [load_toMessage]
    exact hf.closing
  exact passes_orderly within hload hpasses

theorem closed_orderly (hf : f.Orderly) {result : Except FrameError (List Response)}
    (hclosed : f.closed = .ok (result, g)) : g.Orderly := by
  have hmessage : (closedWith f.toMessage f.rest).2.1 = f.toMessage ∨
      (closedWith f.toMessage f.rest).2.1.state = .headers := by
    unfold closedWith
    split
    · exact .inl rfl
    · exact .inl rfl
    · exact .inl rfl
    · exact .inr rfl
    · exact .inl rfl
  rw [closed_eq hf.inRange.fits] at hclosed
  obtain ⟨_, rfl⟩ := Prod.mk.inj (Except.ok.inj hclosed)
  rcases hmessage with hsame | hheaders
  · rw [hsame]
    exact ⟨⟨hf.inRange.fits.goto _ _, hf.inRange.sized⟩, hf.closing⟩
  · refine ⟨⟨hf.inRange.fits.goto _ _, ?_⟩, ?_⟩
    · intro remaining hdata
      rw [goto_toMessage, hheaders] at hdata
      cases hdata
    · intro huntil
      rw [goto_toMessage, hheaders] at huntil
      cases huntil

end ResponseFramer

theorem Became.orderly {capture : Bool} {f : ResponseFramer} (within : parse.Within)
    (h : Became build parse capture f) : f.Orderly := by
  induction h with
  | new => exact ResponseFramer.new_orderly capture
  | feed _ hfeed ih => exact ResponseFramer.feed_orderly within ih hfeed
  | closed _ hclosed ih => exact ResponseFramer.closed_orderly ih hclosed

/-- The connections that handler calls make of a new one, read by read. The thread, the
state of the socket and the clock are any at each call. -/
inductive Lived (build : Build) (parse : ResponseParser) (engine : ScriptEngine ε)
    (socket : Socket σ) (wants : Bool) : Connection → Prop where
  | new (staticRequest : Bytes) (delayed : Bool) :
      Lived build parse engine socket wants (.new staticRequest wants delayed)
  | connected {c : Connection} : Lived build parse engine socket wants c →
      Lived build parse engine socket wants c.connected.2
  | delayFired {c : Connection} : Lived build parse engine socket wants c →
      Lived build parse engine socket wants c.delayFired.2
  | writable {p q : Endpoint ε σ} {event : Event} {now : Nat} :
      Lived build parse engine socket wants p.connection →
      p.writable engine socket now = .ok (event, q) →
      Lived build parse engine socket wants q.connection
  | read {p q : Endpoint ε σ} {event : Option Event} {now : Nat} :
      Lived build parse engine socket wants p.connection →
      p.readOnce build parse engine socket now = .ok (event, q) →
      Lived build parse engine socket wants q.connection

theorem Lived.became {wants : Bool} {c : Connection}
    (h : Lived build parse engine socket wants c) : Became build parse wants c.framer := by
  induction h with
  | new => exact .new
  | connected _ ih => exact ih
  | delayFired _ ih => exact ih
  | writable _ hwrite ih =>
    rw [Endpoint.writable_framer hwrite]
    exact ih
  | read _ hread ih => exact (Endpoint.readOnce_became ih hread).1

/-- The response that the end of the stream completes: all that is unconsumed is body. -/
def ResponseFramer.lastResponse (f : ResponseFramer) : Response := (f.pushBody f.rest).response

def Endpoint.Refuses (engine : ScriptEngine ε) (p : Endpoint ε σ) (r : Response) (event : Event) :
    Prop :=
  p.ctx.wantsResponse = true ∧ ∃ error,
    (engine.response p.ctx.engine r.status r.headers r.body).1 = .error error ∧
      event = .fatal error.rawMessage

/-- One response is counted and no read error, and the connection ends. -/
structure Endpoint.EndsWith (engine : ScriptEngine ε) (p : Endpoint ε σ) (r : Response)
    (event : Event) (q : Endpoint ε σ) : Prop where
  complete : q.ctx.counters.complete = p.ctx.counters.complete + 1
  requests : q.ctx.counters.requests = p.ctx.counters.requests + 1
  read : q.ctx.counters.errors.read = p.ctx.counters.errors.read
  event : event = .reconnect ∨ p.Refuses engine r event

namespace Endpoint

theorem count_read (counters : Counters) (status : UInt16) :
    (counters.count status).errors.read = counters.errors.read := by
  unfold Counters.count
  dsimp only
  split <;> rfl

theorem drained_read (now : Nat) (p : Endpoint ε σ) :
    (p.drained now).ctx.counters.errors.read = p.ctx.counters.errors.read := by
  unfold drained
  rcases recordLatency_cases now p with ⟨latency, h⟩ | ⟨latency, h⟩
  · rw [h]
  · rw [h]
    rfl

theorem respond_last (engine : ScriptEngine ε) (now : Nat) (p : Endpoint ε σ) {r : Response}
    (hlast : r.keepAlive = false) :
    ∃ event q, p.respond engine now r = (some event, q) ∧ p.EndsWith engine r event q := by
  have hread := count_read p.ctx.counters r.status
  cases hdeliver : deliver engine p.ctx.wantsResponse p.ctx.engine r with
  | mk answer state =>
    rw [respond_eq hdeliver]
    cases answer with
    | error error =>
      refine ⟨_, _, rfl, rfl, rfl, hread, .inr ?_⟩
      unfold deliver at hdeliver
      cases hwants : p.ctx.wantsResponse with
      | false =>
        rw [hwants, if_neg Bool.false_ne_true] at hdeliver
        cases hdeliver
      | true =>
        rw [hwants, if_pos rfl] at hdeliver
        exact ⟨hwants, error, by rw [hdeliver], rfl⟩
    | ok _ =>
      dsimp only
      split
      · have hdrained := drained_counted now (p.answered r state).countDown engine
        have hreconnect : rearmOrClose r = .reconnect := by
          rw [rearmOrClose, hlast]
          rfl
        refine ⟨_, _, rfl, hdrained.complete, hdrained.requests, ?_, .inl hreconnect⟩
        rw [drained_read]
        exact hread
      · rw [hlast, if_neg Bool.false_ne_true]
        exact ⟨_, _, rfl, rfl, rfl, hread, .inl rfl⟩

/-- What the end of the stream is counted as: one response inside an until-close body, a
read error everywhere else. -/
inductive EndCounted (engine : ScriptEngine ε) (p : Endpoint ε σ) :
    Event → Endpoint ε σ → Prop where
  | answer {event : Event} {q : Endpoint ε σ} : p.connection.framer.state = .untilClose →
      p.EndsWith engine p.connection.framer.lastResponse event q → EndCounted engine p event q
  | error {q : Endpoint ε σ} : p.connection.framer.state ≠ .untilClose →
      q.ctx.counters = p.ctx.counters.failRead → EndCounted engine p .reconnect q

theorem readOnce_end {p : Endpoint ε σ} {state : σ} (hp : p.connection.framer.Orderly)
    (hread : socket.read p.socket recvbuf = (.ok [], state)) :
    ∃ event q, p.readOnce build parse engine socket now = .ok (some event, q) ∧
      p.EndCounted engine event q := by
  have hclosed := ResponseFramer.closed_eq hp.inRange.fits
  unfold readOnce
  rw [hread]
  dsimp only
  rw [hclosed, ok_bind]
  dsimp only
  by_cases huntil : p.connection.framer.state = .untilClose
  · have hlast : p.connection.framer.lastResponse.keepAlive = false := hp.closing huntil
    have hbatch : (ResponseFramer.closedWith p.connection.framer.toMessage
        p.connection.framer.rest).1 = .ok [p.connection.framer.lastResponse] := by
      simp only [ResponseFramer.closedWith, huntil]
      rfl
    rw [hbatch]
    generalize hframer : withFramer _ _ = q
    have hctx : q.ctx = p.ctx := by
      rw [← hframer]
      rfl
    obtain ⟨event, r, hrespond, hends⟩ := respond_last engine now q hlast
    refine ⟨event, r, ?_, .answer huntil ?_⟩
    · simp only [takeBatch, responses, hrespond]
      rfl
    · refine ⟨?_, ?_, ?_, ?_⟩
      · rw [hends.complete, hctx]
      · rw [hends.requests, hctx]
      · rw [hends.read, hctx]
      · have hevent := hends.event
        unfold Refuses at hevent ⊢
        rwa [hctx] at hevent
  · have herror : ∃ error, (ResponseFramer.closedWith p.connection.framer.toMessage
        p.connection.framer.rest).1 = .error error := by
      cases hstate : p.connection.framer.state with
      | untilClose => exact absurd hstate huntil
      | headers => exact ⟨.closedMidMessage, by simp only [ResponseFramer.closedWith, hstate]⟩
      | body remaining =>
        exact ⟨.closedMidMessage, by simp only [ResponseFramer.closedWith, hstate]⟩
      | chunked chunk =>
        exact ⟨.closedMidMessage, by simp only [ResponseFramer.closedWith, hstate]⟩
      | broken => exact ⟨.broken, by simp only [ResponseFramer.closedWith, hstate]⟩
    obtain ⟨error, herror⟩ := herror
    rw [herror]
    exact ⟨.reconnect, _, rfl, .error huntil rfl⟩

end Endpoint

/-- The end of the stream is counted for what it is in every state a connection comes to,
since an until-close message never keeps alive. -/
theorem end_of_stream (build : Build) {parse : ResponseParser} (within : parse.Within)
    (engine : ScriptEngine ε) (socket : Socket σ) (now : Nat) {wants : Bool} {p : Endpoint ε σ}
    {state : σ} (hlived : Lived build parse engine socket wants p.connection)
    (hread : socket.read p.socket recvbuf = (.ok [], state)) :
    (p.connection.framer.state = .untilClose → p.connection.framer.messageKeepAlive = false) ∧
      ∃ event q, (∀ fuel, p.readable build parse engine socket now (fuel + 1) = .ok (event, q)) ∧
        p.EndCounted engine event q := by
  have horderly := hlived.became.orderly within
  obtain ⟨event, q, honce, hcounted⟩ := Endpoint.readOnce_end horderly hread
  refine ⟨horderly.closing, event, q, ?_, hcounted⟩
  intro fuel
  rw [Endpoint.readable, honce]
  rfl

def unframed : Bytes := ascii "HTTP/1.1 200 X\r\nConnection: keep-alive\r\n\r\nab"

def lingering : Endpoint Unit (List Bytes × Bytes) where
  connection :=
    { (waiting [[]]).connection with
      framer := ⟨⟨.untilClose, false, 200, false, [], []⟩, unframed, 42⟩ }
  ctx := { quietCtx 1 false with counters := ⟨0, 0, 44, ⟨0, 0, 0, 0, 0⟩⟩ }
  socket := ([[]], [71])

theorem lingering_lived :
    Lived .release reference quietEngine queueSocket false lingering.connection := by
  have hnew : Lived .release reference quietEngine queueSocket false
      (fresh [unframed, []]).connection := .new [71] false
  have hwaiting : Lived .release reference quietEngine queueSocket false
      (waiting [unframed, []]).connection := .writable hnew (fresh_writable [unframed, []])
  have hread : (waiting [unframed, []]).readOnce .release reference quietEngine queueSocket 0 =
      .ok (some (.interest .readable), lingering) := by rfl
  exact .read hwaiting hread

theorem end_of_stream_sample :
    (lingering.connection.framer.state = .untilClose →
        lingering.connection.framer.messageKeepAlive = false) ∧
      ∃ event q, (∀ fuel, lingering.readable .release reference quietEngine queueSocket 1
          (fuel + 1) = .ok (event, q)) ∧ lingering.EndCounted quietEngine event q :=
  end_of_stream .release reference_lawful.within quietEngine queueSocket 1 lingering_lived rfl

end Wrkrs
