import Wrkrs.ConnectionWrites

/-!
# The responses of an event, one by one

The responses that a batch and a readable event process, each with the endpoint before
and after it, and the rule that carries an invariant of this history through the event.
-/

namespace Wrkrs

set_option autoImplicit false
set_option maxRecDepth 4096

open Text Machine

variable {ε σ : Type} {build : Build} {parse : ResponseParser} {engine : ScriptEngine ε}
variable {socket : Socket σ} {now : Nat}

/-- One processed response, between the endpoints before and after it. -/
structure Answer (ε σ : Type) where
  before : Endpoint ε σ
  response : Response
  after : Endpoint ε σ

namespace Endpoint

/-- The processed responses of a batch: all until one ends it. -/
def trail (engine : ScriptEngine ε) (now : Nat) :
    Endpoint ε σ → List Response → List (Answer ε σ)
  | _, [] => []
  | p, r :: rest =>
    ⟨p, r, (p.respond engine now r).2⟩ ::
      match p.respond engine now r with
      | (some _, _) => []
      | (none, p) => trail engine now p rest

/-- What one read brings: the batch, and the endpoint that is about to process it. -/
def arrived (build : Build) (parse : ResponseParser) (socket : Socket σ) (p : Endpoint ε σ) :
    Option (Endpoint ε σ × List Response) :=
  match socket.read p.socket recvbuf with
  | (.ok [], state) =>
    match p.connection.framer.closed with
    | .ok (.ok batch, framer) => some ({ p with socket := state }.withFramer framer, batch)
    | _ => none
  | (.ok bytes, state) =>
    let p := p.withCounters { p.ctx.counters with bytes := p.ctx.counters.bytes + bytes.length }
    match p.connection.framer.feed build parse bytes with
    | .ok (.ok batch, framer) => some ({ p with socket := state }.withFramer framer, batch)
    | _ => none
  | (.error _, _) => none

def trailOf (engine : ScriptEngine ε) (now : Nat) :
    Option (Endpoint ε σ × List Response) → List (Answer ε σ)
  | some (p, batch) => p.trail engine now batch
  | none => []

def trailIn (build : Build) (parse : ResponseParser) (engine : ScriptEngine ε)
    (socket : Socket σ) (now : Nat) : Nat → Endpoint ε σ → List (Answer ε σ)
  | 0, _ => []
  | fuel + 1, p =>
    trailOf engine now (p.arrived build parse socket) ++
      match p.readOnce build parse engine socket now with
      | .ok (none, p) => trailIn build parse engine socket now fuel p
      | _ => []

structure Idles (p q : Endpoint ε σ) : Prop where
  pending : q.connection.pending = p.connection.pending
  latency : q.ctx.latency = p.ctx.latency
  engine : q.ctx.engine = p.ctx.engine
  pipeline : q.ctx.pipeline = p.ctx.pipeline
  wantsResponse : q.ctx.wantsResponse = p.ctx.wantsResponse
  complete : q.ctx.counters.complete = p.ctx.counters.complete
  timeout : q.ctx.counters.errors.timeout = p.ctx.counters.errors.timeout

theorem Idles.trans {p q r : Endpoint ε σ} (h : Idles p q) (h' : Idles q r) : Idles p r :=
  ⟨h'.pending.trans h.pending, h'.latency.trans h.latency, h'.engine.trans h.engine,
    h'.pipeline.trans h.pipeline, h'.wantsResponse.trans h.wantsResponse,
    h'.complete.trans h.complete, h'.timeout.trans h.timeout⟩

section Arrived
variable {p : Endpoint ε σ} {state : σ} {result : Except FrameError (List Response)}
variable {framer : ResponseFramer}

theorem arrived_closed (hread : socket.read p.socket recvbuf = (.ok [], state))
    (hclosed : p.connection.framer.closed = .ok (result, framer)) :
    p.arrived build parse socket =
      result.toOption.map ({ p with socket := state }.withFramer framer, ·) := by
  unfold arrived
  rw [hread]
  simp only [hclosed]
  cases result <;> rfl

theorem arrived_fed {byte : UInt8} {bytes : Bytes}
    (hread : socket.read p.socket recvbuf = (.ok (byte :: bytes), state))
    (hfeed : p.connection.framer.feed build parse (byte :: bytes) = .ok (result, framer)) :
    p.arrived build parse socket =
      result.toOption.map (p.fedWith (byte :: bytes).length state framer, ·) := by
  unfold arrived
  rw [hread]
  dsimp only [withCounters]
  rw [hfeed]
  cases result <;> rfl

theorem arrived_error {error : IoError}
    (hread : socket.read p.socket recvbuf = (.error error, state)) :
    p.arrived build parse socket = none := by
  unfold arrived
  rw [hread]

end Arrived

section Rule
variable {I : List (Answer ε σ) → Endpoint ε σ → Prop}
variable (hrespond : ∀ past p r, I past p →
  I (past ++ [⟨p, r, (p.respond engine now r).2⟩]) (p.respond engine now r).2)
variable (hidles : ∀ past p q, Idles p q → I past p → I past q)
include hrespond

theorem responses_trail {past : List (Answer ε σ)} {p : Endpoint ε σ} (rs : List Response)
    (h : I past p) : I (past ++ p.trail engine now rs) (responses engine now p rs).2 := by
  induction rs generalizing past p with
  | nil =>
    rw [trail, List.append_nil]
    exact h
  | cons r rest ih =>
    have hfirst := hrespond past p r h
    unfold trail responses
    cases hevent : p.respond engine now r with
    | mk event q =>
      rw [hevent] at hfirst
      cases event with
      | some event => exact hfirst
      | none =>
        rw [List.append_cons]
        exact ih hfirst

include hidles

theorem takeBatch_trail {past : List (Answer ε σ)} {p : Endpoint ε σ}
    {idle : Endpoint ε σ → Option Event × Endpoint ε σ} (hidle : ∀ q, Idles q (idle q).2)
    (batch : List Response) (h : I past p) :
    I (past ++ p.trail engine now batch) (p.takeBatch engine now idle (.ok batch)).2 := by
  have hbatch := responses_trail hrespond batch h
  cases hresponses : responses engine now p batch with
  | mk event q =>
    rw [hresponses] at hbatch
    simp only [takeBatch, hresponses]
    cases event with
    | some event => exact hbatch
    | none => exact hidles _ q _ (hidle q) hbatch

theorem readOnce_trail {past : List (Answer ε σ)} {p : Endpoint ε σ}
    {taken : Option Event × Endpoint ε σ} (hp : I past p)
    (h : p.readOnce build parse engine socket now = .ok taken) :
    I (past ++ trailOf engine now (p.arrived build parse socket)) taken.2 := by
  have hfail : ∀ q : Endpoint ε σ, Idles q q.failRead.2 :=
    fun q => ⟨rfl, rfl, rfl, rfl, rfl, rfl, rfl⟩
  cases readOnce_cases h with
  | @closed state result framer hread hclosed =>
    have hq : I past ({ p with socket := state }.withFramer framer) :=
      hidles past p _ ⟨rfl, rfl, rfl, rfl, rfl, rfl, rfl⟩ hp
    rw [arrived_closed hread hclosed]
    cases result with
    | error error =>
      change I (past ++ []) _
      rw [List.append_nil]
      exact hidles past _ _ (hfail _) hq
    | ok batch => exact takeBatch_trail hrespond hidles hfail batch hq
  | @fed byte bytes state result framer hread hfeed =>
    have hq : I past (p.fedWith (byte :: bytes).length state framer) :=
      hidles past p _ ⟨rfl, rfl, rfl, rfl, rfl, rfl, rfl⟩ hp
    rw [arrived_fed hread hfeed]
    cases result with
    | error error =>
      change I (past ++ []) _
      rw [List.append_nil]
      exact hidles past _ _ (hfail _) hq
    | ok batch =>
      refine takeBatch_trail hrespond hidles (fun q => ?_) batch hq
      unfold shortRead
      split <;> exact ⟨rfl, rfl, rfl, rfl, rfl, rfl, rfl⟩
  | blocked hread =>
    rw [arrived_error hread, trailOf, List.append_nil]
    exact hidles past p _ ⟨rfl, rfl, rfl, rfl, rfl, rfl, rfl⟩ hp
  | failed hread =>
    rw [arrived_error hread, trailOf, List.append_nil]
    exact hidles past p _ ⟨rfl, rfl, rfl, rfl, rfl, rfl, rfl⟩ hp

/-- A readable event extends the history by its trail. -/
theorem readable_trail (past : List (Answer ε σ)) {fuel : Nat} {p q : Endpoint ε σ}
    {event : Event} (hp : I past p)
    (h : readable build parse engine socket now fuel p = .ok (event, q)) :
    I (past ++ trailIn build parse engine socket now fuel p) q := by
  induction fuel generalizing past p with
  | zero => cases h
  | succ fuel ih =>
    unfold readable at h
    unfold trailIn
    cases honce : p.readOnce build parse engine socket now with
    | error fault =>
      rw [honce] at h
      cases h
    | ok taken =>
      have hfirst := readOnce_trail hrespond hidles hp honce
      obtain ⟨event', r⟩ := taken
      rw [honce, ok_bind] at h
      rw [← List.append_assoc]
      cases event' with
      | some event' =>
        obtain ⟨_, rfl⟩ := Prod.mk.inj (Except.ok.inj h)
        rw [List.append_nil]
        exact hfirst
      | none => exact ih _ hfirst h

end Rule

end Endpoint

end Wrkrs
