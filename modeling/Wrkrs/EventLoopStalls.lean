import Wrkrs.EventLoopRuns

/-!
# Stalls

A connection that still has bytes to send must hear of it: its writable interest is
registered, or it is delayed and a deadline is pending. A readable event that ends with
nothing to do replaces the interest and breaks this, whatever the burst waits for. So does
the rest of a burst whose responses came early: it goes out with the next burst due.
-/

namespace Wrkrs

set_option autoImplicit false
set_option maxRecDepth 4096

open Text Machine Runs

variable {ε σ : Type}

namespace Endpoint

/-- A batch that ends nothing: fewer responses than pending, all keep the connection
alive and the script takes them. -/
def undrained (engine : ScriptEngine ε) (p : Endpoint ε σ) (batch : List Response) : Bool :=
  passes engine p.ctx.wantsResponse p.ctx.engine batch &&
    decide (batch.length < pendingCount p.connection.pending)

def quietRead (build : Build) (parse : ResponseParser) (engine : ScriptEngine ε)
    (socket : Socket σ) (p : Endpoint ε σ) : Bool :=
  match (socket.read p.socket recvbuf).1 with
  | .ok [] => false
  | .ok bytes =>
    match p.connection.framer.feed build parse bytes with
    | .ok (.ok batch, _) => p.undrained engine batch
    | _ => false
  | .error .wouldBlock => true
  | .error .other => false

def fullRead (socket : Socket σ) (p : Endpoint ε σ) : Bool :=
  match (socket.read p.socket recvbuf).1 with
  | .ok bytes => bytes.length == recvbuf
  | .error _ => false

def quiet (build : Build) (parse : ResponseParser) (engine : ScriptEngine ε) (socket : Socket σ)
    (now : Nat) : Nat → Endpoint ε σ → Bool
  | 0, _ => false
  | fuel + 1, p =>
    p.quietRead build parse engine socket &&
      (!p.fullRead socket ||
        match p.readOnce build parse engine socket now with
        | .ok (none, q) => quiet build parse engine socket now fuel q
        | _ => false)

section Quiet
variable {build : Build} {parse : ResponseParser} {engine : ScriptEngine ε} {socket : Socket σ}
variable {now : Nat} {p q : Endpoint ε σ}

def Ends (event : Option Event) : Prop := event ≠ none ∧ event ≠ some (.interest .readable)

theorem Responded.undrained {rs : List Response} {event : Option Event}
    (h : Responded engine p rs event q) :
    (p.undrained engine rs = true ∧ event = none) ∨
      (p.undrained engine rs = false ∧ Ends event) := by
  unfold Endpoint.undrained
  cases h.ending with
  | goesOn hpasses hcount hpending _ =>
    left
    have hpos := pendingCount_pos q.connection.pending
    refine ⟨?_, rfl⟩
    rw [hpasses, Bool.true_and]
    exact decide_eq_true (by omega)
  | drained r hcount _ _ =>
    right
    constructor
    · apply Bool.and_eq_false_imp.mpr
      intro _
      apply decide_eq_false
      have hle := owed_length_le engine p.ctx.wantsResponse p.ctx.engine rs
      have htake := List.length_take_le' (pendingCount p.connection.pending)
        (owed engine p.ctx.wantsResponse p.ctx.engine rs)
      unfold counted at hcount
      omega
    · refine ⟨nofun, ?_⟩
      unfold rearmOrClose
      split <;> exact nofun
  | closed hpasses _ _ =>
    rw [hpasses, Bool.false_and]
    exact .inr ⟨rfl, nofun, nofun⟩
  | failed message hpasses =>
    rw [hpasses, Bool.false_and]
    exact .inr ⟨rfl, nofun, nofun⟩

theorem takeBatch_event (engine : ScriptEngine ε) (now : Nat) (p : Endpoint ε σ)
    (idle : Endpoint ε σ → Option Event × Endpoint ε σ)
    (result : Except FrameError (List Response)) :
    (∃ batch r, result = .ok batch ∧ p.undrained engine batch = true ∧
        p.takeBatch engine now idle result = idle r) ∨
      ((∀ batch, result = .ok batch → p.undrained engine batch = false) ∧
        Ends (p.takeBatch engine now idle result).1) := by
  cases result with
  | error error => exact .inr ⟨fun _ => nofun, nofun, nofun⟩
  | ok batch =>
    have hbatch := responses_spec engine now p batch
    cases hresponses : responses engine now p batch with
    | mk event r =>
      rw [hresponses] at hbatch
      rcases hbatch.undrained with ⟨hquiet, hnone⟩ | ⟨hends, hevent⟩
      · cases hnone
        refine .inl ⟨batch, r, rfl, hquiet, ?_⟩
        simp only [takeBatch, hresponses]
      · right
        constructor
        · intro other hother
          rw [← Except.ok.inj hother]
          exact hends
        · cases event with
          | none => exact absurd rfl hevent.1
          | some event =>
            simp only [takeBatch, hresponses]
            exact hevent

theorem readOnce_event {event : Option Event}
    (h : p.readOnce build parse engine socket now = .ok (event, q)) :
    (p.quietRead build parse engine socket = true ∧
        event = if p.fullRead socket then none else some (.interest .readable)) ∨
      (p.quietRead build parse engine socket = false ∧ Ends event) := by
  unfold quietRead fullRead
  generalize htaken : (event, q) = taken at h
  have hevent : event = taken.1 := congrArg Prod.fst htaken
  cases readOnce_cases h with
  | @closed state result framer hread hclosed =>
    rw [hread]
    right
    refine ⟨rfl, ?_⟩
    rw [hevent]
    rcases takeBatch_event engine now ({ p with socket := state }.withFramer framer) failRead
      result with ⟨_, r, _, _, heq⟩ | ⟨_, hends⟩
    · rw [heq]
      exact ⟨nofun, nofun⟩
    · exact hends
  | @fed byte bytes state result framer hread hfeed =>
    rw [hread]
    dsimp only
    rw [hfeed, hevent]
    rcases takeBatch_event engine now (p.fedWith (byte :: bytes).length state framer)
      (shortRead (byte :: bytes).length) result with ⟨batch, r, rfl, hquiet, heq⟩ | ⟨hends, hlast⟩
    · left
      refine ⟨hquiet, ?_⟩
      rw [heq, shortRead]
      by_cases hfull : (byte :: bytes).length = recvbuf
      · rw [if_pos hfull, if_pos (beq_iff_eq.mpr hfull)]
      · rw [if_neg hfull, if_neg (fun h => hfull (beq_iff_eq.mp h))]
    · right
      refine ⟨?_, hlast⟩
      cases result with
      | error error => rfl
      | ok batch => exact hends batch rfl
  | blocked hread =>
    rw [hread, hevent]
    exact .inl ⟨rfl, rfl⟩
  | failed hread =>
    rw [hread, hevent]
    exact .inr ⟨rfl, nofun, nofun⟩

/-- A readable event answers with readable interest exactly when its reads are quiet. -/
theorem readable_quiet {fuel : Nat} {event : Event}
    (h : readable build parse engine socket now fuel p = .ok (event, q)) :
    event = .interest .readable ↔ p.quiet build parse engine socket now fuel = true := by
  induction fuel generalizing p with
  | zero => cases h
  | succ fuel ih =>
    unfold readable at h
    unfold quiet
    cases honce : p.readOnce build parse engine socket now with
    | error fault =>
      rw [honce] at h
      cases h
    | ok taken =>
      obtain ⟨event', r⟩ := taken
      rw [honce, ok_bind] at h
      rcases readOnce_event honce with ⟨hquiet, hevent⟩ | ⟨hends, hevent⟩
      · rw [hquiet, Bool.true_and]
        cases hfull : p.fullRead socket with
        | true =>
          rw [hfull, if_pos rfl] at hevent
          subst hevent
          exact ih h
        | false =>
          rw [hfull, if_neg Bool.false_ne_true] at hevent
          subst hevent
          obtain ⟨rfl, _⟩ := Prod.mk.inj (Except.ok.inj h)
          exact ⟨fun _ => rfl, fun _ => rfl⟩
      · rw [hends, Bool.false_and]
        cases event' with
        | none => exact absurd rfl hevent.1
        | some event' =>
          obtain ⟨rfl, _⟩ := Prod.mk.inj (Except.ok.inj h)
          constructor
          · intro hreadable
            exact absurd (congrArg some hreadable) hevent.2
          · intro hfalse
            cases hfalse

end Quiet

end Endpoint

def Slot.quiet (slot : Slot σ) (driver : Driver ε σ) (r : Readiness σ) (thread : Thread ε) : Bool :=
  (slot.endpoint thread driver.config).quiet driver.build driver.parse driver.engine driver.socket
    r.readAt r.fuel

namespace Watched

variable {driver : Driver ε σ} {r : Readiness σ} {w v : Watched ε σ} {m t : SlotLoop ε σ}
variable {slot : Slot σ}

/-- The connection still has request bytes to send: its burst is partly written, or the
next one is due. -/
def Owes (w : Watched ε σ) (slot : Slot σ) : Prop :=
  slot.connection.written ≠ 0 ∨ w.due ≠ .nothing

/-- The connection waits for a deadline that is still pending. -/
def Awaits (w : Watched ε σ) (slot : Slot σ) : Prop :=
  slot.connection.delayed = true ∧ w.loop.deadlines ≠ []

/-- A live connection with bytes to send will hear of it. -/
def Armed (w : Watched ε σ) : Prop :=
  ∀ slot, w.loop.live = some slot → w.Owes slot →
    slot.interest = .readableWritable ∨ w.Awaits slot

/-- The rest of a burst stays behind while the next one is due behind it. -/
def Unfinished (driver : Driver ε σ) (r : Readiness σ) (w : Watched ε σ) : Prop :=
  ∀ slot, w.loop.live = some slot → w.due = .behind →
    slot.finishes driver r w.loop.thread = false

/-- An event that is only readable is not quiet while bytes are to be sent, a wait for
a deadline apart, and a writable one does not end a burst that the next one is due behind. -/
def Heeds (driver : Driver ε σ) (w : Watched ε σ) : Action ε σ → Prop
  | .ready r => ∀ slot, w.loop.live = some slot →
      (r.readable = true → r.writable = false → w.Owes slot → ¬ w.Awaits slot →
        slot.quiet driver r w.loop.thread = false) ∧
      (r.writable = true → ∀ m, w.loop.readablePart driver r = .ok m →
        (w.afterReadable driver r m).Unfinished driver r)
  | .timer _ | .elsewhere _ => True

theorem not_drains {q : Endpoint ε σ} {thread : Thread ε}
    (h : pendingCount q.connection.pending + (slot.answers driver r thread).length =
      pendingCount slot.connection.pending) : ¬ slot.drains driver r thread = true := by
  have hpos := pendingCount_pos q.connection.pending
  intro hdrains
  have hle := of_decide_eq_true hdrains
  omega

theorem armed_gone (h : w.loop.live = none) : w.Armed := by
  intro slot hlive
  rw [h] at hlive
  cases hlive

theorem armed_writable (h : w.loop.live = some slot) (hinterest : slot.interest = .readableWritable) :
    w.Armed := by
  intro other hlive _
  obtain rfl := Option.some.inj (h.symm.trans hlive)
  exact .inl hinterest

/-- Only the end of a burst that the next one is due behind leaves a connection unarmed. -/
theorem armed_afterWritable (hwritable : r.writable = true) (hunfinished : w.Unfinished driver r)
    (h : w.loop.writablePart driver r = .ok t) : (w.afterWritable driver r t).Armed := by
  cases hlive : w.loop.live with
  | none =>
    obtain rfl := SlotLoop.writablePart_idle hlive h
    apply armed_gone
    rw [afterWritable_loop]
    exact hlive
  | some before =>
    intro slot hslot howes
    rw [afterWritable_loop] at hslot
    unfold Awaits
    rw [afterWritable_loop]
    cases SlotLoop.write_outcome hlive h hwritable with
    | gone _ hgone => cases hgone.symm.trans hslot
    | part q hdelayed _ hafter =>
      obtain rfl := Option.some.inj (hafter.symm.trans hslot)
      exact .inl rfl
    | waits q hdelayed hafter hconnection hdeadlines =>
      obtain rfl := Option.some.inj (hafter.symm.trans hslot)
      right
      refine ⟨?_, hdeadlines⟩
      change q.connection.delayed = true
      rw [hconnection]
      exact hdelayed
    | whole q hdelayed hfinishes hafter hwritten =>
      obtain rfl := Option.some.inj (hafter.symm.trans hslot)
      rcases howes with howes | howes
      · exact absurd hwritten howes
      · rw [afterWritable_live hwritable hlive hafter, if_pos hfinishes] at howes
        cases hdue : w.due with
        | nothing => exact absurd (congrArg Due.sent hdue) howes
        | burst => exact absurd (congrArg Due.sent hdue) howes
        | behind => cases (hunfinished before hlive hdue).symm.trans hfinishes

/-- A readable part that is not quiet, or quiet with nothing to send, keeps the connection
armed. -/
theorem armed_afterReadable (hlive : w.loop.live = some slot) (harmed : w.Armed)
    (h : w.loop.readablePart driver r = .ok m)
    (hheeds : r.readable = true → w.Owes slot → ¬ w.Awaits slot →
      slot.quiet driver r w.loop.thread = false) :
    (w.afterReadable driver r m).Armed := by
  cases hreadable : r.readable with
  | false =>
    rw [afterReadable_off hreadable, SlotLoop.readablePart_off hreadable h]
    exact harmed
  | true =>
    cases SlotLoop.read_outcome hlive h hreadable with
    | gone hgone =>
      rw [afterReadable_gone hreadable hgone]
      exact armed_gone hgone
    | drained q hafter =>
      rw [afterReadable_live hreadable hlive hafter]
      exact armed_writable hafter rfl
    | quiet q hhandler hafter hdeadlines hwritten hdelayed hpending =>
      rw [afterReadable_live hreadable hlive hafter, if_neg (not_drains hpending)]
      intro other hslot howes
      obtain rfl := Option.some.inj (hafter.symm.trans hslot)
      have howed : w.Owes slot := howes.imp_left fun h => hwritten ▸ h
      by_cases hawaits : w.Awaits slot
      · right
        refine ⟨hdelayed.trans hawaits.1, ?_⟩
        change m.deadlines ≠ []
        rw [hdeadlines]
        exact hawaits.2
      · have hquiet := (Endpoint.readable_quiet hhandler).mp rfl
        have hnot := hheeds hreadable howed hawaits
        unfold Slot.quiet at hnot
        rw [hquiet] at hnot
        cases hnot

theorem armed_step {action : Action ε σ} (harmed : w.Armed) (hheeds : w.Heeds driver action)
    (h : Step driver w action v) : v.Armed := by
  cases action with
  | ready r =>
    rcases step_ready h with ⟨_, _, hinterest⟩ | ⟨_, hgone, _⟩ |
      ⟨slot, m, hlive, _, hreadable, hwritable, hv⟩
    · intro slot hlive _
      exact .inl (hinterest slot hlive)
    · exact armed_gone hgone
    · rw [hv]
      cases hbit : r.writable with
      | true =>
        apply armed_afterWritable hbit ((hheeds slot hlive).2 hbit m hreadable)
        rw [afterReadable_loop]
        exact hwritable
      | false =>
        rw [afterWritable_off hbit, SlotLoop.writablePart_off hbit hwritable]
        have hafter := armed_afterReadable hlive harmed hreadable fun hready howes hawaits =>
          (hheeds slot hlive).1 hready hbit howes hawaits
        unfold Armed Awaits at hafter ⊢
        rw [afterReadable_loop] at hafter
        exact hafter
  | timer now =>
    rw [step_timer h]
    rcases SlotLoop.popDeadline_cases w.loop now with hsame | ⟨_, hfired⟩
    · rw [hsame]
      exact harmed
    · intro slot hslot _
      obtain ⟨before, _, rfl⟩ := Option.map_eq_some_iff.mp (hfired.symm.trans hslot)
      exact .inl rfl
  | elsewhere thread =>
    rw [step_elsewhere h]
    exact harmed

/-- A quiet event that is only readable stalls a connection with bytes to send. -/
theorem stalls (hlive : w.loop.live = some slot) (howes : w.Owes slot) (hawaits : ¬ w.Awaits slot)
    (hready : r.readable = true) (hbit : r.writable = false)
    (hquiet : slot.quiet driver r w.loop.thread = true) (h : Step driver w (.ready r) v) :
    ¬ v.Armed := by
  rcases step_ready h with ⟨hnone, _⟩ | ⟨hnone, _⟩ |
    ⟨slot', m, hlive', _, hreadable, hwritable, hv⟩
  · cases hlive.symm.trans hnone
  · cases hlive.symm.trans hnone
  · obtain rfl := Option.some.inj (hlive.symm.trans hlive')
    obtain ⟨p, hquieted⟩ : ∃ q : Endpoint ε σ, m.live = some (slot.after q .readable) := by
      rcases SlotLoop.readablePart_cases hlive hreadable with ⟨hoff, _⟩ |
        ⟨_, event, q, hhandler, happlied⟩
      · rw [hready] at hoff
        cases hoff
      · obtain rfl := (Endpoint.readable_quiet hhandler).mpr hquiet
        cases happlied with
        | interest _ hafter _ => exact ⟨q, hafter⟩
    cases SlotLoop.read_outcome hlive hreadable hready with
    | gone hgone => cases hgone.symm.trans hquieted
    | drained q hafter =>
      have hinterest := congrArg Slot.interest (Option.some.inj (hafter.symm.trans hquieted))
      cases hinterest
    | quiet q hhandler hafter hdeadlines hwritten hdelayed hpending =>
      have hloop := SlotLoop.writablePart_off hbit hwritable
      rw [afterWritable_off hbit, hloop, afterReadable_live hready hlive hafter,
        if_neg (not_drains hpending)] at hv
      intro harmed
      subst hv
      have hdelayed' : slot.connection.delayed = true ∧ m.deadlines ≠ [] := by
        rcases harmed _ hafter (howes.imp_left fun h => hwritten ▸ h) with
          hinterest | ⟨hstill, hpending⟩
        · cases hinterest
        · exact ⟨hdelayed.symm.trans hstill, hpending⟩
      rw [hdeadlines] at hdelayed'
      exact hawaits hdelayed'

/-- The end of a burst drops the writable interest that the next one, due behind it, needs. -/
theorem unfinished_of_armed (hwritable : r.writable = true)
    (h : w.loop.writablePart driver r = .ok t) (harmed : (w.afterWritable driver r t).Armed) :
    w.Unfinished driver r := by
  intro slot hlive hdue
  cases hfinishes : slot.finishes driver r w.loop.thread with
  | false => rfl
  | true =>
    cases SlotLoop.write_outcome hlive h hwritable with
    | waits q hdelayed =>
      cases (Endpoint.finishes_delayed hdelayed).symm.trans hfinishes
    | part q _ hgoes => cases hgoes.symm.trans hfinishes
    | gone hgoes => cases hgoes.symm.trans hfinishes
    | whole q _ _ hafter hwritten hdelayed =>
      rw [afterWritable_live hwritable hlive hafter, if_pos hfinishes, hdue] at harmed
      rcases harmed _ hafter (.inr nofun) with hinterest | ⟨hstill, _⟩
      · cases hinterest
      · cases hdelayed.symm.trans hstill

theorem heeds_of_armed {action : Action ε σ} (h : Step driver w action v) (harmed : v.Armed) :
    w.Heeds driver action := by
  cases action with
  | ready r =>
    intro slot hlive
    constructor
    · intro hready hbit howes hawaits
      cases hquiet : slot.quiet driver r w.loop.thread with
      | false => rfl
      | true => exact absurd harmed (stalls hlive howes hawaits hready hbit hquiet h)
    · intro hbit m hreadable
      rcases step_ready h with ⟨hnone, _⟩ | ⟨hnone, _⟩ |
        ⟨_, m', _, _, hreadable', hwritable, hv⟩
      · cases hlive.symm.trans hnone
      · cases hlive.symm.trans hnone
      · obtain rfl := Except.ok.inj (hreadable.symm.trans hreadable')
        rw [hv] at harmed
        apply unfinished_of_armed hbit _ harmed
        rw [afterReadable_loop]
        exact hwritable
  | timer now => trivial
  | elsewhere thread => trivial

/-- A run leaves the connection armed in all its states exactly when no event that is only
readable is quiet while bytes are to be sent, and no burst whose responses all came early is
sent to its end. -/
theorem armed_iff (driver : Driver ε σ) (opened : Option σ) (thread : Thread ε)
    (actions : List (Action ε σ)) (w : Watched ε σ) :
    RunWhile (fun _ w action => w.Heeds driver action) (Step driver)
        (start driver.config opened thread) actions w ↔
      RunWhile (fun _ w _ => w.Armed) (Step driver) (start driver.config opened thread) actions w ∧
        w.Armed := by
  have hstart : (start driver.config opened thread).Armed :=
    armed_gone (SlotLoop.connectSlot_live _ _)
  constructor
  · intro h
    induction h with
    | refl => exact ⟨.refl _, hstart⟩
    | tail _ hheeds hstep ih =>
      obtain ⟨hrun, harmed⟩ := ih
      exact ⟨hrun.tail harmed hstep, armed_step harmed hheeds hstep⟩
  · rintro ⟨h, harmed⟩
    induction h with
    | refl => exact .refl _
    | tail _ hbefore hstep ih => exact (ih hbefore).tail (heeds_of_armed hstep harmed) hstep

/-- One byte of the response arrives while the burst is half written: the rest of the
burst waits for a writable event that is no longer registered. -/
theorem early_byte_stalls :
    ∃ w, Run (Step (quietDriver quietEngine byteSocket false))
        (start (quietDriver quietEngine byteSocket false).config (some ([[72]], [])) quietThread)
        [.ready (readiness [[72]] false true), .ready (readiness [] false true),
          .ready (readiness [] true false)] w ∧
      ¬ w.Armed := by
  refine ⟨_, (((Run.refl _).tail (next_step (.inr rfl) rfl)).tail
    (next_step (.inr rfl) rfl)).tail (next_step (.inl rfl) rfl), ?_⟩
  intro harmed
  rcases harmed _ rfl (.inl (by decide)) with hinterest | hawaits
  · cases hinterest
  · cases hawaits.1

-- The whole response arrives while the burst is half written: its other half takes the
-- interest of the next burst along.
example :
    ∃ w, Run (Step (quietDriver quietEngine byteSocket false))
        (start (quietDriver quietEngine byteSocket false).config
          (some ([ResponseFramer.noContent], [])) quietThread)
        [.ready (readiness [ResponseFramer.noContent] false true),
          .ready (readiness [] false true), .ready (readiness [] true false),
          .ready (readiness [] false true)] w ∧
      ¬ w.Armed := by
  refine ⟨_, ((((Run.refl _).tail (next_step (.inr rfl) rfl)).tail
    (next_step (.inr rfl) rfl)).tail (next_step (.inl rfl) rfl)).tail
    (next_step (.inr rfl) rfl), ?_⟩
  intro harmed
  rcases harmed _ rfl (.inr (by decide)) with hinterest | hawaits
  · cases hinterest
  · cases hawaits.1

end Watched

end Wrkrs
