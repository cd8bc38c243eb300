import Wrkrs.ConnectionSamples
import Wrkrs.Loop

/-!
# What the responses of a thread add up to

The counters and the latency samples of a thread against the responses that it processes:
over one event of a slot, one step of its loop, and the windows of its rate ticks.
-/

namespace Wrkrs

set_option autoImplicit false
set_option maxRecDepth 4096

open Text Machine Runs

variable {ε σ : Type} {engine : ScriptEngine ε}

namespace Answer

def recorded (engine : ScriptEngine ε) (a : Answer ε σ) : Bool := (a.pulse engine).recorded

def timedOut (engine : ScriptEngine ε) (a : Answer ε σ) : Bool := (a.pulse engine).timedOut

/-- The last response of its pipeline, which the script took. -/
def drains (engine : ScriptEngine ε) (a : Answer ε σ) : Bool :=
  (a.pulse engine).taken && a.before.connection.pending == 1

/-- A status that counts as an error. -/
def refused (a : Answer ε σ) : Bool := 399 < a.response.status

end Answer

/-- The counters and the samples of a thread after some responses, beside those before. -/
structure Ledger (engine : ScriptEngine ε) (before : Thread ε) (answers : List (Answer ε σ))
    (after : Thread ε) : Prop where
  complete : after.counters.complete = before.counters.complete + answers.length
  requests : after.counters.requests = before.counters.requests + answers.length
  status : after.counters.errors.status =
    before.counters.errors.status + answers.countP Answer.refused
  timeout : after.counters.errors.timeout =
    before.counters.errors.timeout + answers.countP (Answer.timedOut engine)
  count : after.latency.count =
    before.latency.count + UInt64.ofNat (answers.countP (Answer.recorded engine))
  drained : answers.countP (Answer.recorded engine) + answers.countP (Answer.timedOut engine) =
    answers.countP (Answer.drains engine)

namespace Ledger

variable {before mid after : Thread ε} {past next : List (Answer ε σ)}

theorem quiet (hcomplete : after.counters.complete = before.counters.complete)
    (hrequests : after.counters.requests = before.counters.requests)
    (hstatus : after.counters.errors.status = before.counters.errors.status)
    (htimeout : after.counters.errors.timeout = before.counters.errors.timeout)
    (hlatency : after.latency = before.latency) :
    Ledger engine before ([] : List (Answer ε σ)) after := by
  refine ⟨hcomplete, hrequests, hstatus, htimeout, ?_, rfl⟩
  rw [hlatency]
  exact (UInt64.add_zero _).symm

theorem refl (thread : Thread ε) : Ledger engine thread ([] : List (Answer ε σ)) thread :=
  quiet rfl rfl rfl rfl rfl

theorem append (h : Ledger engine before past mid) (h' : Ledger engine mid next after) :
    Ledger engine before (past ++ next) after := by
  constructor
  · rw [h'.complete, h.complete, List.length_append, Nat.add_assoc]
  · rw [h'.requests, h.requests, List.length_append, Nat.add_assoc]
  · rw [h'.status, h.status, List.countP_append, Nat.add_assoc]
  · rw [h'.timeout, h.timeout, List.countP_append, Nat.add_assoc]
  · rw [h'.count, h.count, List.countP_append, UInt64.ofNat_add, UInt64.add_assoc]
  · rw [List.countP_append, List.countP_append, List.countP_append, ← h.drained, ← h'.drained]
    omega

end Ledger

/-- A relation between a thread before and after some responses that holds of one response and
of what enters nothing. -/
structure Enters (engine : ScriptEngine ε)
    (R : Thread ε → List (Answer ε σ) → Thread ε → Prop) : Prop where
  quiet : ∀ {before after : Thread ε},
    after.counters.complete = before.counters.complete →
    after.counters.requests = before.counters.requests →
    after.counters.errors.status = before.counters.errors.status →
    after.counters.errors.timeout = before.counters.errors.timeout →
    after.latency = before.latency → R before [] after
  append : ∀ {before mid after : Thread ε} {past next : List (Answer ε σ)},
    R before past mid → R mid next after → R before (past ++ next) after
  respond : ∀ (now : Nat) (p : Endpoint ε σ) (r : Response),
    R p.ctx.thread [⟨p, r, (p.respond engine now r).2⟩] (p.respond engine now r).2.ctx.thread

theorem record_count (h : Histogram) (value : Nat) :
    (h.record value).2.count = h.count + if (h.record value).1 then 1 else 0 := by
  unfold Histogram.record
  split
  · exact (UInt64.add_zero _).symm
  · rfl

namespace Endpoint

theorem pending_last (p : Endpoint ε σ) :
    p.connection.pending - 1 = 0 ↔ p.connection.pending = 1 := by
  rw [UInt64.sub_eq_iff_eq_add, UInt64.zero_add]

/-- A response adds one sample or none, and one timeout or none. -/
theorem respond_amounts (engine : ScriptEngine ε) (now : Nat) (p : Endpoint ε σ) (r : Response) :
    ((p.respond engine now r).2.ctx.latency = p.ctx.latency ∨
        (p.respond engine now r).2.ctx.latency.count = p.ctx.latency.count + 1) ∧
      ((p.respond engine now r).2.ctx.counters.errors.timeout = p.ctx.counters.errors.timeout ∨
        (p.respond engine now r).2.ctx.counters.errors.timeout =
          p.ctx.counters.errors.timeout + 1) := by
  obtain ⟨answer, state, hdeliver⟩ : ∃ answer state,
      deliver engine p.ctx.wantsResponse p.ctx.engine r = (answer, state) := ⟨_, _, rfl⟩
  have htimeout := answered_timeout p r state
  rw [respond_eq hdeliver]
  cases answer with
  | error error => exact ⟨.inl rfl, .inl htimeout⟩
  | ok _ =>
    dsimp only
    by_cases hzero : (p.answered r state).countDown.connection.pending = 0
    · rw [if_pos hzero]
      have hcount := record_count p.ctx.latency ((p.answered r state).countDown.elapsed now)
      have hlatency : (p.answered r state).countDown.ctx.latency = p.ctx.latency := rfl
      dsimp only
      rw [drained_latency, drained_timeout, hlatency]
      cases hrecord : p.ctx.latency.record ((p.answered r state).countDown.elapsed now) with
      | mk taken latency =>
        rw [hrecord] at hcount
        cases taken with
        | true => exact ⟨.inr hcount, .inl htimeout⟩
        | false =>
          rw [record_false hrecord]
          exact ⟨.inl rfl, .inr (congrArg (· + 1) htimeout)⟩
    · rw [if_neg hzero]
      split
      · exact ⟨.inl rfl, .inl htimeout⟩
      · exact ⟨.inl rfl, .inl htimeout⟩

theorem respond_ledger (engine : ScriptEngine ε) (now : Nat) (p : Endpoint ε σ) (r : Response) :
    Ledger engine p.ctx.thread [⟨p, r, (p.respond engine now r).2⟩]
      (p.respond engine now r).2.ctx.thread := by
  have hcounts := (respond_spec engine now p r).counts
  rw [counted_singleton] at hcounts
  obtain ⟨hlatency, htimeout⟩ := respond_amounts engine now p r
  obtain ⟨hsampled, _⟩ := respond_sampled engine now p r
  refine ⟨hcounts.complete, hcounts.requests, ?_, ?_, ?_, ?_⟩
  · rw [List.countP_singleton]
    exact hcounts.status.trans (congrArg _ List.countP_singleton)
  · rw [List.countP_singleton]
    change (p.respond engine now r).2.ctx.counters.errors.timeout = _ +
      if ((p.respond engine now r).2.ctx.counters.errors.timeout !=
        p.ctx.counters.errors.timeout) = true then 1 else 0
    rcases htimeout with hsame | hmore
    · rw [if_neg (mt bne_iff_ne.mp (not_not.mpr hsame))]
      exact hsame
    · rw [if_pos (bne_iff_ne.mpr (by omega))]
      exact hmore
  · rw [List.countP_singleton]
    change (p.respond engine now r).2.ctx.latency.count = _ + UInt64.ofNat
      (if ((p.respond engine now r).2.ctx.latency != p.ctx.latency) = true then 1 else 0)
    rcases hlatency with hsame | hmore
    · rw [if_neg (mt bne_iff_ne.mp (not_not.mpr hsame)), hsame]
      exact (UInt64.add_zero _).symm
    · have hne : (p.respond engine now r).2.ctx.latency ≠ p.ctx.latency := by
        intro hsame
        rw [hsame, eq_comm, UInt64.add_eq_left] at hmore
        cases hmore
      rw [if_pos (bne_iff_ne.mpr hne)]
      exact hmore
  · rw [List.countP_singleton, List.countP_singleton, List.countP_singleton]
    unfold Answer.recorded Answer.timedOut Answer.drains
    dsimp only
    have hone := p.pending_last
    generalize Answer.pulse engine ⟨p, r, (p.respond engine now r).2⟩ = pulse at hsampled ⊢
    cases hsampled with
    | refused => rfl
    | passes hpending =>
      have hne : (p.connection.pending == 1) = false := beq_false_of_ne (mt hone.mpr hpending)
      simp [Pulse.recorded, Pulse.timedOut, Pulse.taken, hne]
    | records hpending => simp [Pulse.recorded, Pulse.timedOut, Pulse.taken, hone.mp hpending]
    | timesOut hpending => simp [Pulse.recorded, Pulse.timedOut, Pulse.taken, hone.mp hpending]

end Endpoint

theorem ledger_enters (engine : ScriptEngine ε) :
    Enters engine (Ledger engine (σ := σ)) where
  quiet := .quiet
  append := .append
  respond := Endpoint.respond_ledger engine

section Events
variable {R : Thread ε → List (Answer ε σ) → Thread ε → Prop}

theorem Enters.refl (hR : Enters engine R) (thread : Thread ε) : R thread [] thread :=
  hR.quiet rfl rfl rfl rfl rfl

namespace Endpoint

variable {build : Build} {parse : ResponseParser} {socket : Socket σ} {now : Nat}

theorem responses_enters (hR : Enters engine R) (now : Nat) (p : Endpoint ε σ)
    (rs : List Response) :
    R p.ctx.thread (p.trail engine now rs) (responses engine now p rs).2.ctx.thread := by
  apply responses_trail (I := fun past q => R p.ctx.thread past q.ctx.thread) _ rs (hR.refl _)
  intro past q r h
  exact hR.append h (hR.respond now q r)

theorem failRead_enters (hR : Enters engine R) (p : Endpoint ε σ) :
    R p.ctx.thread [] p.failRead.2.ctx.thread :=
  hR.quiet rfl rfl rfl rfl rfl

theorem takeBatch_enters (hR : Enters engine R) {p : Endpoint ε σ}
    {idle : Endpoint ε σ → Option Event × Endpoint ε σ}
    (hidle : ∀ q, R q.ctx.thread [] (idle q).2.ctx.thread)
    (result : Except FrameError (List Response)) :
    R p.ctx.thread (trailOf engine now (result.toOption.map (p, ·)))
      (p.takeBatch engine now idle result).2.ctx.thread := by
  cases result with
  | error error => exact failRead_enters hR p
  | ok batch =>
    have hbatch := responses_enters hR now p batch
    change R p.ctx.thread (p.trail engine now batch) _
    cases hresponses : responses engine now p batch with
    | mk event q =>
      rw [hresponses] at hbatch
      simp only [takeBatch, hresponses]
      cases event with
      | some event => exact hbatch
      | none =>
        have hboth := hR.append hbatch (hidle q)
        rwa [List.append_nil] at hboth

theorem readOnce_enters (hR : Enters engine R) {p : Endpoint ε σ}
    {taken : Option Event × Endpoint ε σ}
    (h : p.readOnce build parse engine socket now = .ok taken) :
    R p.ctx.thread (trailOf engine now (p.arrived build parse socket)) taken.2.ctx.thread := by
  cases readOnce_cases h with
  | @closed state result framer hread hclosed =>
    have hended : R p.ctx.thread []
        ({ p with socket := state }.withFramer framer).ctx.thread := hR.refl _
    rw [arrived_closed hread hclosed]
    exact hR.append hended (takeBatch_enters hR (failRead_enters hR) result)
  | @fed byte bytes state result framer hread hfeed =>
    have hbytes : R p.ctx.thread [] (p.fedWith (byte :: bytes).length state framer).ctx.thread :=
      hR.quiet rfl rfl rfl rfl rfl
    rw [arrived_fed hread hfeed]
    apply hR.append hbytes
    refine takeBatch_enters hR (fun q => ?_) result
    unfold shortRead
    split
    · exact hR.refl _
    · exact hR.refl _
  | blocked hread =>
    rw [arrived_error hread]
    exact hR.refl _
  | failed hread =>
    rw [arrived_error hread]
    exact failRead_enters hR _

theorem readable_enters (hR : Enters engine R) {fuel : Nat} {p q : Endpoint ε σ} {event : Event}
    (h : readable build parse engine socket now fuel p = .ok (event, q)) :
    R p.ctx.thread (trailIn build parse engine socket now fuel p) q.ctx.thread := by
  induction fuel generalizing p with
  | zero => cases h
  | succ fuel ih =>
    unfold readable at h
    unfold trailIn
    cases honce : p.readOnce build parse engine socket now with
    | error fault =>
      rw [honce] at h
      cases h
    | ok taken =>
      have hfirst := readOnce_enters hR honce
      obtain ⟨event', u⟩ := taken
      rw [honce, ok_bind] at h
      cases event' with
      | some event' =>
        obtain ⟨_, rfl⟩ := Prod.mk.inj (Except.ok.inj h)
        rw [List.append_nil]
        exact hfirst
      | none => exact hR.append hfirst (ih h)

theorem startBurst_enters (hR : Enters engine R) (now : Nat) (p : Endpoint ε σ) :
    R p.ctx.thread [] (p.startBurst engine now).2.ctx.thread := by
  unfold startBurst
  split
  · split
    · split
      · exact hR.quiet rfl rfl rfl rfl rfl
      · exact hR.quiet rfl rfl rfl rfl rfl
    · exact hR.refl _
  · exact hR.refl _

theorem writable_enters (hR : Enters engine R) {p q : Endpoint ε σ} {event : Event}
    (h : p.writable engine socket now = .ok (event, q)) : R p.ctx.thread [] q.ctx.thread := by
  unfold writable at h
  cases hdelayed : p.connection.delayed with
  | true =>
    rw [hdelayed, if_pos rfl] at h
    obtain ⟨_, rfl⟩ := Prod.mk.inj (Except.ok.inj h)
    exact hR.quiet rfl rfl rfl rfl rfl
  | false =>
    rw [hdelayed, if_neg Bool.false_ne_true] at h
    have hburst := startBurst_enters hR now p
    cases hstart : p.startBurst engine now with
    | mk answer b =>
      rw [hstart] at h hburst
      cases answer with
      | error error =>
        obtain ⟨_, rfl⟩ := Prod.mk.inj (Except.ok.inj h)
        exact hburst
      | ok _ =>
        obtain ⟨_, hoffered⟩ := send_cases h
        cases hoffered with
        | whole => exact hburst
        | part => exact hburst
        | blocked => exact hburst
        | failed =>
          have hfailed : R b.ctx.thread []
              { b.ctx.thread with counters := b.ctx.counters.failWrite } :=
            hR.quiet rfl rfl rfl rfl rfl
          exact hR.append hburst hfailed

end Endpoint

namespace SlotLoop

variable {driver : Driver ε σ} {r : Readiness σ} {s t : SlotLoop ε σ} {slot : Slot σ}

theorem connectSlot_enters (hR : Enters engine R) (s : SlotLoop ε σ) (config : LoopConfig)
    (opened : Option σ) : R s.thread [] (s.connectSlot config opened).thread := by
  cases opened with
  | none => exact hR.quiet rfl rfl rfl rfl rfl
  | some stream => exact hR.refl _

theorem apply_enters (hR : Enters engine R) {config : LoopConfig} {opened : Option σ}
    {reaction : Reaction} (h : s.apply config opened reaction = .ok t) :
    R s.thread [] t.thread := by
  cases reaction with
  | interest i =>
    obtain rfl := Except.ok.inj h
    exact hR.refl _
  | reconnect =>
    obtain rfl := Except.ok.inj h
    exact connectSlot_enters hR s.closeSlot config opened
  | delay millis =>
    obtain rfl := Except.ok.inj h
    exact hR.refl _
  | fatal message => cases h
  | nothing =>
    obtain rfl := Except.ok.inj h
    exact hR.refl _

theorem attempted_enters (hR : Enters engine R) {config : LoopConfig} {attempt : Attempt σ}
    (h : s.attempted config slot attempt = .ok t) : R s.thread [] t.thread := by
  have hfailed : R s.thread [] s.thread.failConnect := hR.quiet rfl rfl rfl rfl rfl
  cases attempt with
  | refused reopened =>
    obtain rfl := Except.ok.inj h
    exact hR.append hfailed
      (connectSlot_enters hR (closeSlot { s with thread := _ }) config reopened)
  | failed reopened =>
    obtain rfl := Except.ok.inj h
    exact hR.append hfailed
      (connectSlot_enters hR (closeSlot { s with thread := _ }) config reopened)
  | handshaking stream =>
    obtain rfl := Except.ok.inj h
    exact hR.refl _
  | up stream =>
    change ({ s with slot := _ } : SlotLoop ε σ).apply config none (.interest _) = .ok t at h
    obtain rfl := Except.ok.inj h
    exact hR.refl _

theorem readablePart_enters (hR : Enters driver.engine R)
    (hslot : (s.slot.filter fun slot => slot.connecting) = none)
    (h : s.readablePart driver r = .ok t) : R s.thread (s.served driver r) t.thread := by
  unfold served
  cases hreadable : r.readable with
  | false =>
    obtain rfl := readablePart_off hreadable h
    cases t.live with
    | none => exact hR.refl _
    | some slot => exact hR.refl _
  | true =>
    rcases live_or_empty hslot with ⟨slot, hlive⟩ | ⟨hlive, hnone⟩
    · rw [hlive]
      dsimp only
      rw [if_pos rfl]
      unfold readablePart at h
      rw [hreadable, if_pos rfl] at h
      cases hfire : s.fire driver r false with
      | error halt =>
        rw [hfire] at h
        cases h
      | ok fired =>
        obtain ⟨event, q, hhandler, _, hhandled⟩ := fire_live hlive hfire
        have hread := Endpoint.readable_enters hR hhandler
        rw [hfire, ok_bind] at h
        dsimp only at h
        rw [hhandled] at h
        have hboth := hR.append hread (apply_enters hR h)
        rwa [List.append_nil] at hboth
    · rw [hlive]
      obtain rfl := readablePart_idle hnone h
      exact hR.refl _

theorem writablePart_enters (hR : Enters driver.engine R) (h : s.writablePart driver r = .ok t) :
    R s.thread [] t.thread := by
  unfold writablePart at h
  by_cases hwritable : r.writable = true ∧ s.live.isSome = true
  · rw [if_pos hwritable] at h
    obtain ⟨slot, hlive⟩ := Option.isSome_iff_exists.mp hwritable.2
    cases hfire : s.fire driver r true with
    | error halt =>
      rw [hfire] at h
      cases h
    | ok fired =>
      obtain ⟨event, q, hhandler, _, hhandled⟩ := fire_live hlive hfire
      have hwrite : R s.thread [] q.ctx.thread :=
        Endpoint.writable_enters hR (p := slot.endpoint s.thread driver.config) hhandler
      rw [hfire, ok_bind] at h
      dsimp only at h
      rw [hhandled] at h
      split at h
      · obtain rfl := Except.ok.inj h
        exact hwrite
      · exact hR.append hwrite (apply_enters hR h)
  · rw [if_neg hwritable] at h
    obtain rfl := Except.ok.inj h
    exact hR.refl _

theorem ready_enters (hR : Enters driver.engine R) (h : s.ready driver r = .ok t) :
    R s.thread (s.served driver r) t.thread := by
  rcases ready_cases h with ⟨slot, hslot, hconnecting, hattempted⟩ | ⟨hslot, m, hread, hwrite⟩
  · have hserved : s.served driver r = [] := by
      unfold served live
      rw [hslot, Option.filter_some, hconnecting]
      rfl
    rw [hserved]
    exact attempted_enters hR hattempted
  · have hboth := hR.append (readablePart_enters hR hslot hread) (writablePart_enters hR hwrite)
    rwa [List.append_nil] at hboth

end SlotLoop

end Events

/-- What one step of a loop enters, with the window that a tick closes. -/
structure Entered (engine : ScriptEngine ε) (deed : Deed ε σ) (g : Shared) (c : Counters)
    (g' : Shared) (c' : Counters) : Prop where
  complete : c'.complete = c.complete + deed.answers.length
  requests : c'.requests + deed.window = c.requests + deed.answers.length
  status : c'.errors.status = c.errors.status + deed.answers.countP Answer.refused
  timeout : c'.errors.timeout =
    c.errors.timeout + deed.answers.countP (Answer.timedOut engine)
  count : g'.latency.count =
    g.latency.count + UInt64.ofNat (deed.answers.countP (Answer.recorded engine))
  drained : deed.answers.countP (Answer.recorded engine) +
      deed.answers.countP (Answer.timedOut engine) =
    deed.answers.countP (Answer.drains engine)

theorem entered_nothing {deed : Deed ε σ} {g g' : Shared} {c : Counters}
    (hanswers : deed.answers = []) (hwindow : deed.window = 0) (hlatency : g'.latency = g.latency) :
    Entered engine deed g c g' c := by
  constructor
  · rw [hanswers]
    rfl
  · rw [hanswers, hwindow]
    rfl
  · rw [hanswers]
    rfl
  · rw [hanswers]
    rfl
  · rw [hanswers, hlatency]
    exact (UInt64.add_zero _).symm
  · rw [hanswers]
    rfl

section Steps
variable {b : Bench ε σ} {g g' : Shared} {t t' : LoopState ε σ} {deed : Deed ε σ}

theorem Advances.entered (h : Advances b g t deed g' t')
    (hshared : t.worker.thread.latency = g.latency) :
    Entered b.driver.engine deed g t.worker.thread.counters g' t'.worker.thread.counters := by
  cases h with
  | polls => exact entered_nothing rfl rfl rfl
  | skips => exact entered_nothing rfl rfl rfl
  | @handles index r rest s _ _ hready =>
    have hledger := SlotLoop.ready_enters (ledger_enters b.driver.engine) hready
    refine ⟨hledger.complete, hledger.requests, hledger.status, hledger.timeout, ?_,
      hledger.drained⟩
    rw [← hshared]
    exact hledger.count
  | handled => exact entered_nothing rfl rfl rfl
  | @fires now due =>
    have hthread : (t.worker.view due.2).delayFired.thread = t.worker.thread := by
      unfold SlotLoop.delayFired
      split <;> rfl
    change Entered _ _ _ _ _ (t.worker.view due.2).delayFired.thread.counters
    rw [hthread]
    exact entered_nothing rfl rfl rfl
  | rests => exact entered_nothing rfl rfl rfl
  | ticks o _ hdue =>
    unfold LoopState.tick
    rw [if_pos hdue]
    by_cases hrequests : 0 < t.worker.thread.counters.requests
    · unfold LoopState.recordRate
      rw [if_pos hrequests]
      exact ⟨rfl, Nat.add_comm 0 _, rfl, rfl, (UInt64.add_zero _).symm, rfl⟩
    · unfold LoopState.recordRate
      rw [if_neg hrequests]
      exact entered_nothing rfl (Nat.eq_zero_of_not_pos hrequests) rfl
  | early => exact entered_nothing rfl rfl rfl
  | checks => exact entered_nothing rfl rfl rfl

theorem Takes.entered (h : Takes b g t deed g' t') :
    Entered b.driver.engine deed g t.worker.thread.counters g' t'.worker.thread.counters :=
  Advances.entered (t := t.sharing g) h rfl

end Steps

end Wrkrs
