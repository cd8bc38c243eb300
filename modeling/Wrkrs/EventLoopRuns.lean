import Wrkrs.EventLoop

/-!
# Runs of one slot

What each part of a readiness event can do to a live slot, and runs of the loop watched
by three history variables: whether a burst is still due, how many responses are
outstanding, and how many were when each burst started.
-/

namespace Wrkrs

set_option autoImplicit false
set_option maxRecDepth 4096

open Text Machine Runs

variable {ε σ : Type} {driver : Driver ε σ} {r : Readiness σ}

def Slot.after (slot : Slot σ) (q : Endpoint ε σ) (interest : Interest) : Slot σ :=
  { slot with stream := q.socket, connection := q.connection, interest := interest }

def Slot.starts (slot : Slot σ) : Bool :=
  !slot.connection.delayed && slot.connection.written == 0

def Slot.answers (slot : Slot σ) (driver : Driver ε σ) (r : Readiness σ) (thread : Thread ε) :
    List Response :=
  Endpoint.framedIn driver.build driver.parse driver.engine driver.socket r.readAt r.fuel
    (slot.endpoint thread driver.config)

/-- The reads bring as many responses as are pending. -/
def Slot.drains (slot : Slot σ) (driver : Driver ε σ) (r : Readiness σ) (thread : Thread ε) :
    Bool :=
  decide (pendingCount slot.connection.pending ≤ (slot.answers driver r thread).length)

def Slot.taken (slot : Slot σ) (driver : Driver ε σ) (r : Readiness σ) (thread : Thread ε) : Nat :=
  (slot.endpoint thread driver.config).taken driver.engine driver.socket r.writeAt

def Slot.finishes (slot : Slot σ) (driver : Driver ε σ) (r : Readiness σ) (thread : Thread ε) :
    Bool :=
  (slot.endpoint thread driver.config).finishes driver.engine driver.socket r.writeAt

namespace SlotLoop

variable {s t : SlotLoop ε σ} {slot : Slot σ}

theorem live_eq_some : s.live = some slot ↔ s.slot = some slot ∧ slot.connecting = false := by
  unfold live
  rw [Option.filter_eq_some_iff, Bool.not_eq_true']

theorem connectSlot_live (config : LoopConfig) (opened : Option σ) :
    (s.connectSlot config opened).live = none := by
  cases opened <;> rfl

theorem connectSlot_deadlines (config : LoopConfig) (opened : Option σ) :
    (s.connectSlot config opened).deadlines = s.deadlines := by
  cases opened <;> rfl

inductive Applied (s : SlotLoop ε σ) (slot : Slot σ) (q : Endpoint ε σ) :
    Event → SlotLoop ε σ → Prop where
  | interest {t : SlotLoop ε σ} (i : Interest) : t.live = some (slot.after q i) →
      t.deadlines = s.deadlines → Applied s slot q (.interest i) t
  | reconnect {t : SlotLoop ε σ} : t.live = none → t.deadlines = s.deadlines →
      Applied s slot q .reconnect t
  | delay {t : SlotLoop ε σ} (millis : UInt64) (deadline : Nat) :
      t.live = some (slot.after q .readable) → t.deadlines = deadline :: s.deadlines →
      Applied s slot q (.delay millis) t

theorem fire_live (hlive : s.live = some slot) {writable : Bool} {reaction : Reaction}
    (h : s.fire driver r writable = .ok (reaction, t)) :
    ∃ event q, (if writable then slot.writable driver r s.thread
        else slot.readable driver r s.thread) = .ok (event, q) ∧
      reaction = event.reaction ∧ t = s.handled slot q := by
  unfold fire at h
  rw [(live_eq_some.mp hlive).1] at h
  dsimp only at h
  split at h
  · cases h
  · rename_i event q hhandler
    obtain ⟨hreaction, hs⟩ := Prod.mk.inj (Except.ok.inj h)
    exact ⟨event, q, hhandler, hreaction.symm, hs.symm⟩

theorem apply_applied (config : LoopConfig) (opened : Option σ) {q : Endpoint ε σ} {event : Event}
    (hlive : s.live = some slot) (hdelay : ∀ millis, event ≠ .delay millis)
    (h : (s.handled slot q).apply config opened event.reaction = .ok t) :
    Applied s slot q event t := by
  obtain ⟨_, hconnecting⟩ := live_eq_some.mp hlive
  cases event with
  | interest i =>
    obtain rfl := Except.ok.inj h
    exact .interest i (live_eq_some.mpr ⟨rfl, hconnecting⟩) rfl
  | reconnect =>
    obtain rfl := Except.ok.inj h
    exact .reconnect (connectSlot_live _ _) (connectSlot_deadlines _ _)
  | delay millis => exact absurd rfl (hdelay millis)
  | fatal message => cases h

theorem readable_not_delay {p q : Endpoint ε σ} {event : Event} {fuel now : Nat}
    (h : p.readable driver.build driver.parse driver.engine driver.socket now fuel =
      .ok (event, q)) (millis : UInt64) : event ≠ .delay millis := by
  rcases Endpoint.readable_spec h with hended | ⟨_, rfl | rfl⟩
  · intro hevent
    subst hevent
    have hending := hended.ending
    generalize hsome : some (Event.delay millis) = ended at hending
    cases hending with
    | goesOn => cases hsome
    | drained response =>
      unfold Endpoint.rearmOrClose at hsome
      split at hsome <;> cases hsome
    | closed => cases hsome
    | failed => cases hsome
  · exact nofun
  · exact nofun

theorem readablePart_cases (hlive : s.live = some slot) (h : s.readablePart driver r = .ok t) :
    (r.readable = false ∧ t = s) ∨
      (r.readable = true ∧ ∃ event q, slot.readable driver r s.thread = .ok (event, q) ∧
        Applied s slot q event t) := by
  unfold readablePart at h
  cases hreadable : r.readable with
  | false =>
    rw [hreadable, if_neg Bool.false_ne_true] at h
    exact .inl ⟨rfl, (Except.ok.inj h).symm⟩
  | true =>
    rw [hreadable, if_pos rfl] at h
    right
    refine ⟨rfl, ?_⟩
    cases hfire : s.fire driver r false with
    | error halt =>
      rw [hfire] at h
      cases h
    | ok fired =>
      obtain ⟨event, q, hhandler, hreaction, hs⟩ := fire_live hlive hfire
      rw [hfire, ok_bind] at h
      dsimp only at h
      rw [hreaction, hs] at h
      exact ⟨event, q, hhandler,
        apply_applied _ _ hlive (readable_not_delay hhandler) h⟩

theorem writablePart_cases (hlive : s.live = some slot) (h : s.writablePart driver r = .ok t) :
    (r.writable = false ∧ t = s) ∨
      (r.writable = true ∧ ∃ event q, slot.writable driver r s.thread = .ok (event, q) ∧
        Applied s slot q event t) := by
  unfold writablePart at h
  cases hwritable : r.writable with
  | false =>
    rw [hwritable, if_neg (fun h => Bool.false_ne_true h.1)] at h
    exact .inl ⟨rfl, (Except.ok.inj h).symm⟩
  | true =>
    rw [hwritable, if_pos ⟨rfl, by rw [hlive]; rfl⟩] at h
    right
    refine ⟨rfl, ?_⟩
    cases hfire : s.fire driver r true with
    | error halt =>
      rw [hfire] at h
      cases h
    | ok fired =>
      obtain ⟨event, q, hhandler, hreaction, hs⟩ := fire_live hlive hfire
      rw [hfire, ok_bind] at h
      dsimp only at h
      rw [hreaction, hs] at h
      refine ⟨event, q, hhandler, ?_⟩
      cases event with
      | delay millis =>
        obtain rfl := Except.ok.inj h
        obtain ⟨_, hconnecting⟩ := live_eq_some.mp hlive
        exact .delay millis _ (live_eq_some.mpr ⟨rfl, hconnecting⟩) rfl
      | interest i => exact apply_applied _ _ hlive (fun _ => nofun) h
      | reconnect => exact apply_applied _ _ hlive (fun _ => nofun) h
      | fatal message => exact apply_applied _ _ hlive (fun _ => nofun) h

inductive ReadOutcome (driver : Driver ε σ) (r : Readiness σ) (s : SlotLoop ε σ) (slot : Slot σ)
    (t : SlotLoop ε σ) : Prop where
  | quiet (q : Endpoint ε σ) :
      slot.readable driver r s.thread = .ok (.interest .readable, q) →
      t.live = some (slot.after q .readable) → t.deadlines = s.deadlines →
      q.connection.written = slot.connection.written →
      q.connection.delayed = slot.connection.delayed →
      pendingCount q.connection.pending + (slot.answers driver r s.thread).length =
        pendingCount slot.connection.pending →
      ReadOutcome driver r s slot t
  | drained (q : Endpoint ε σ) : t.live = some (slot.after q .readableWritable) →
      q.connection.written = slot.connection.written →
      pendingCount slot.connection.pending ≤ (slot.answers driver r s.thread).length →
      ReadOutcome driver r s slot t
  | gone : t.live = none → ReadOutcome driver r s slot t

theorem read_outcome (hlive : s.live = some slot) (h : s.readablePart driver r = .ok t)
    (hreadable : r.readable = true) : ReadOutcome driver r s slot t := by
  rcases readablePart_cases hlive h with ⟨hnone, _⟩ | ⟨_, event, q, hhandler, happlied⟩
  · rw [hreadable] at hnone
    cases hnone
  · cases happlied with
    | reconnect hgone _ => exact .gone hgone
    | delay millis _ _ _ => exact absurd rfl (readable_not_delay hhandler millis)
    | interest i hafter hdeadlines =>
      have hkeeps := Endpoint.readable_keeps hhandler
      rcases Endpoint.readable_spec hhandler with hended | ⟨hresponded, hevent⟩
      · have hending := hended.ending
        generalize hsome : some (Event.interest i) = ended at hending
        cases hending with
        | goesOn => cases hsome
        | closed => cases hsome
        | failed => cases hsome
        | drained response hcount hpending hdelayed =>
          unfold Endpoint.rearmOrClose at hsome
          split at hsome
          · cases hsome
            refine .drained q hafter hkeeps.written ?_
            have hle : (owed driver.engine driver.config.wantsResponse s.thread.engine
                (slot.answers driver r s.thread)).length ≤
                (slot.answers driver r s.thread).length := owed_length_le _ _ _ _
            have htake := List.length_take_le' (pendingCount slot.connection.pending)
              (owed driver.engine driver.config.wantsResponse s.thread.engine
                (slot.answers driver r s.thread))
            exact hcount ▸ Nat.le_trans htake hle
          · cases hsome
      · rcases hevent with hevent | hevent
        · cases hevent
          have hending := hresponded.ending
          generalize hnone : (none : Option Event) = ended at hending
          cases hending with
          | goesOn _ hcount hpending hdelayed =>
            refine .quiet q hhandler hafter hdeadlines hkeeps.written hdelayed ?_
            rw [hcount] at hpending
            exact hpending
          | drained => cases hnone
          | closed => cases hnone
          | failed => cases hnone
        · cases hevent

inductive WriteOutcome (driver : Driver ε σ) (r : Readiness σ) (s : SlotLoop ε σ) (slot : Slot σ)
    (t : SlotLoop ε σ) : Prop where
  | waits (q : Endpoint ε σ) : slot.connection.delayed = true →
      t.live = some (slot.after q .readable) → q.connection = slot.connection →
      t.deadlines ≠ [] → WriteOutcome driver r s slot t
  | whole (q : Endpoint ε σ) : slot.connection.delayed = false →
      slot.finishes driver r s.thread = true →
      t.live = some (slot.after q .readable) → q.connection.written = 0 →
      q.connection.delayed = false →
      q.connection.pending =
        (if slot.connection.written = 0 then driver.config.pipeline else slot.connection.pending) →
      WriteOutcome driver r s slot t
  | part (q : Endpoint ε σ) : slot.connection.delayed = false →
      slot.finishes driver r s.thread = false →
      t.live = some (slot.after q .readableWritable) →
      q.connection.written = slot.connection.written + slot.taken driver r s.thread →
      q.connection.delayed = false →
      q.connection.pending =
        (if slot.connection.written = 0 then driver.config.pipeline else slot.connection.pending) →
      WriteOutcome driver r s slot t
  | gone : slot.finishes driver r s.thread = false → t.live = none → WriteOutcome driver r s slot t

theorem write_outcome (hlive : s.live = some slot) (h : s.writablePart driver r = .ok t)
    (hwritable : r.writable = true) : WriteOutcome driver r s slot t := by
  rcases writablePart_cases hlive h with ⟨hnone, _⟩ | ⟨_, event, q, hhandler, happlied⟩
  · rw [hwritable] at hnone
    cases hnone
  · have htaken : (slot.finishes driver r s.thread = true ∧ event = .interest .readable ∧
        q.connection.written = 0) ∨
        (slot.finishes driver r s.thread = false ∧ event ≠ .interest .readable ∧
          q.connection.written = slot.connection.written + slot.taken driver r s.thread) :=
      Endpoint.writable_finishes hhandler
    cases Endpoint.writable_cases hhandler with
    | waits millis state hdelayed =>
      cases happlied with
      | delay _ deadline hafter hdeadlines =>
        refine .waits _ hdelayed hafter rfl ?_
        rw [hdeadlines]
        exact List.cons_ne_nil _ _
    | fails message state => cases happlied
    | @offers b _ _ hdelayed hstart hle hoffered =>
      have hbdelayed : b.connection.delayed = false := hstart.delayed.trans hdelayed
      have hpending : b.connection.pending =
          (if slot.connection.written = 0 then driver.config.pipeline
            else slot.connection.pending) := by
        split
        · rename_i hzero
          exact (hstart.begins hzero).1
        · rename_i hne
          exact (hstart.goesOn hne).2
      cases hoffered with
      | whole hwrite _ =>
        cases happlied with
        | interest _ hafter _ =>
          rcases htaken with ⟨hfinishes, _, hwritten⟩ | ⟨_, hevent, _⟩
          · exact .whole _ hdelayed hfinishes hafter hwritten hbdelayed hpending
          · exact absurd rfl hevent
      | part hwrite _ =>
        cases happlied with
        | interest _ hafter _ =>
          rcases htaken with ⟨_, hevent, _⟩ | ⟨hgoes, _, hwritten⟩
          · cases hevent
          · exact .part _ hdelayed hgoes hafter hwritten hbdelayed hpending
      | blocked hwrite =>
        cases happlied with
        | interest _ hafter _ =>
          rcases htaken with ⟨_, hevent, _⟩ | ⟨hgoes, _, hwritten⟩
          · cases hevent
          · exact .part _ hdelayed hgoes hafter hwritten hbdelayed hpending
      | failed hwrite =>
        cases happlied with
        | reconnect hgone _ =>
          rcases htaken with ⟨_, hevent, _⟩ | ⟨hgoes, _, _⟩
          · cases hevent
          · exact .gone hgoes hgone

theorem writablePart_idle (hlive : s.live = none) (h : s.writablePart driver r = .ok t) :
    t = s := by
  unfold writablePart at h
  rw [if_neg (by rw [hlive]; exact fun h => Bool.false_ne_true h.2)] at h
  exact (Except.ok.inj h).symm

theorem writablePart_off (hwritable : r.writable = false) (h : s.writablePart driver r = .ok t) :
    t = s := by
  unfold writablePart at h
  rw [hwritable, if_neg (fun h => Bool.false_ne_true h.1)] at h
  exact (Except.ok.inj h).symm

theorem readablePart_off (hreadable : r.readable = false) (h : s.readablePart driver r = .ok t) :
    t = s := by
  unfold readablePart at h
  rw [hreadable, if_neg Bool.false_ne_true] at h
  exact (Except.ok.inj h).symm

theorem readablePart_idle (hslot : s.slot = none) (h : s.readablePart driver r = .ok t) :
    t = s := by
  unfold readablePart fire at h
  rw [hslot] at h
  split at h
  · exact (Except.ok.inj h).symm
  · exact (Except.ok.inj h).symm

theorem attempted_cases {config : LoopConfig} {attempt : Attempt σ}
    (hconnecting : slot.connecting = true)
    (h : s.attempted config slot attempt = .ok t) :
    t.live = none ∨ ∃ stream, t.live = some
      ⟨stream, slot.connection.connected.2, false, .readableWritable⟩ := by
  cases attempt with
  | refused reopened =>
    obtain rfl := Except.ok.inj h
    exact .inl (connectSlot_live _ _)
  | failed reopened =>
    obtain rfl := Except.ok.inj h
    exact .inl (connectSlot_live _ _)
  | handshaking stream =>
    obtain rfl := Except.ok.inj h
    left
    unfold live
    simp only [Option.filter_some, hconnecting, Bool.not_true, Bool.false_eq_true, if_false]
  | up stream =>
    obtain rfl := Except.ok.inj h
    exact .inr ⟨stream, rfl⟩

theorem ready_cases (h : s.ready driver r = .ok t) :
    (∃ slot, s.slot = some slot ∧ slot.connecting = true ∧
        s.attempted driver.config slot r.attempt = .ok t) ∨
      ((s.slot.filter fun slot => slot.connecting) = none ∧
        ∃ m, s.readablePart driver r = .ok m ∧ m.writablePart driver r = .ok t) := by
  unfold ready at h
  split at h
  · rename_i slot hslot
    obtain ⟨hslot, hconnecting⟩ := Option.filter_eq_some_iff.mp hslot
    exact .inl ⟨slot, hslot, hconnecting, h⟩
  · rename_i hslot
    refine .inr ⟨hslot, ?_⟩
    cases hpart : s.readablePart driver r with
    | error halt =>
      rw [hpart] at h
      cases h
    | ok m =>
      rw [hpart, ok_bind] at h
      exact ⟨m, rfl, h⟩

theorem live_connecting {slot : Slot σ} (hslot : s.slot = some slot)
    (hconnecting : slot.connecting = true) : s.live = none := by
  unfold live
  rw [hslot, Option.filter_some, hconnecting]
  rfl

theorem live_or_empty (h : (s.slot.filter fun slot => slot.connecting) = none) :
    (∃ slot, s.live = some slot) ∨ (s.live = none ∧ s.slot = none) := by
  cases hslot : s.slot with
  | none => exact .inr ⟨by unfold live; rw [hslot]; rfl, rfl⟩
  | some slot =>
    rw [hslot, Option.filter_some] at h
    left
    refine ⟨slot, live_eq_some.mpr ⟨hslot, ?_⟩⟩
    cases hconnecting : slot.connecting with
    | false => rfl
    | true =>
      rw [hconnecting] at h
      cases h

def Fires (s : SlotLoop ε σ) (now : Nat) : Prop :=
  ∃ deadline, s.deadlines.min? = some deadline ∧ deadline ≤ now

def delayOver (slot : Slot σ) : Slot σ :=
  { slot with
    connection := { slot.connection with delayed := false }
    interest := .readableWritable }

theorem popDeadline_cases (s : SlotLoop ε σ) (now : Nat) :
    s.popDeadline now = s ∨
      (s.Fires now ∧ (s.popDeadline now).live = s.live.map delayOver) := by
  unfold popDeadline
  split
  · rename_i deadline hmin
    split
    · exact .inl rfl
    · refine .inr ⟨⟨deadline, hmin, by omega⟩, ?_⟩
      unfold delayFired
      cases hlive : s.live with
      | none =>
        have hrest : { s with deadlines := s.deadlines.erase deadline }.live = none := hlive
        rw [hrest]
        exact hlive
      | some slot =>
        have hrest : { s with deadlines := s.deadlines.erase deadline }.live = some slot := hlive
        rw [hrest]
        exact live_eq_some.mpr ⟨rfl, (live_eq_some.mp hlive).2⟩
  · exact .inl rfl

end SlotLoop

/-- What happens to the loop of a slot. Another slot may do anything to what they share. -/
inductive Action (ε σ : Type) where
  | ready (r : Readiness σ)
  | timer (now : Nat)
  | elsewhere (thread : Thread ε)

/-- The moves of the loop. Only registered interests become ready. -/
inductive Moves (driver : Driver ε σ) : SlotLoop ε σ → Action ε σ → SlotLoop ε σ → Prop where
  | ready {s t : SlotLoop ε σ} (r : Readiness σ) :
      (r.writable = true → ∀ slot, s.slot = some slot → slot.interest = .readableWritable) →
      s.ready driver r = .ok t → Moves driver s (.ready r) t
  | timer (s : SlotLoop ε σ) (now : Nat) : Moves driver s (.timer now) (s.popDeadline now)
  | elsewhere (s : SlotLoop ε σ) (thread : Thread ε) :
      Moves driver s (.elsewhere thread) { s with thread := thread }

/-- Whether the next burst is due: from the connect or a drained pipeline on, until a burst
begun since then is out whole. -/
inductive Due where
  | nothing
  | burst
  /-- The pipeline has drained with the rest of the earlier burst still to go out. -/
  | behind
  deriving DecidableEq, Repr

def Due.drained (written : Nat) : Due := if written = 0 then .burst else .behind

def Due.sent : Due → Due
  | .behind => .burst
  | .burst | .nothing => .nothing

/-- A slot's loop with its history: whether its next burst is due, how many requests on this
connection are unanswered, and how many were at the start of each burst. -/
structure Watched (ε σ : Type) where
  loop : SlotLoop ε σ
  due : Due
  outstanding : Nat
  starts : List Nat

namespace Watched

variable (driver : Driver ε σ) (r : Readiness σ) (w : Watched ε σ) (t : SlotLoop ε σ)

/-- A connection that has come up owes its first burst. -/
def reset : Watched ε σ :=
  { w with loop := t, due := if t.live.isSome then .burst else .nothing, outstanding := 0 }

def afterReadable : Watched ε σ :=
  if r.readable then
    match w.loop.live, t.live with
    | some before, some _ =>
      { w with
        loop := t
        due :=
          if before.drains driver r w.loop.thread then .drained before.connection.written
          else w.due
        outstanding := w.outstanding - (before.answers driver r w.loop.thread).length }
    | _, _ => w.reset t
  else { w with loop := t }

/-- The requests of a burst are outstanding once the socket has taken some of it. -/
def afterWritable : Watched ε σ :=
  if r.writable then
    match w.loop.live with
    | some before =>
      let starts := if before.starts then w.starts ++ [w.outstanding] else w.starts
      match t.live with
      | some _ =>
        let whole := before.finishes driver r w.loop.thread
        { loop := t
          due := if whole then w.due.sent else w.due
          outstanding :=
            if before.starts ∧ (0 < before.taken driver r w.loop.thread ∨ whole) then
              w.outstanding + driver.config.pipeline.toNat
            else w.outstanding
          starts := starts }
      | none => { w.reset t with starts := starts }
    | none => { w with loop := t }
  else { w with loop := t }

def observe : Action ε σ → Watched ε σ
  | .ready r =>
    match w.loop.slot.filter fun slot => slot.connecting with
    | some _ => w.reset t
    | none =>
      match w.loop.readablePart driver r with
      | .ok m => (w.afterReadable driver r m).afterWritable driver r t
      | .error _ => { w with loop := t }
  | .timer _ | .elsewhere _ => { w with loop := t }

/-- A watched move: the history follows the loop and never hinders it. -/
inductive Step : Watched ε σ → Action ε σ → Watched ε σ → Prop where
  | mk {w : Watched ε σ} {action : Action ε σ} {t : SlotLoop ε σ} :
      Moves driver w.loop action t → Step w action (w.observe driver t action)

def start (config : LoopConfig) (opened : Option σ) (thread : Thread ε) : Watched ε σ where
  loop := SlotLoop.connectSlot ⟨none, [], thread⟩ config opened
  due := .nothing
  outstanding := 0
  starts := []

section Steps
variable {driver r w t} {v : Watched ε σ}

theorem afterReadable_loop : (w.afterReadable driver r t).loop = t := by
  unfold afterReadable
  split
  · split <;> rfl
  · rfl

theorem afterWritable_loop : (w.afterWritable driver r t).loop = t := by
  unfold afterWritable
  split
  · split
    · dsimp only
      split <;> rfl
    · rfl
  · rfl

theorem afterReadable_off (hreadable : r.readable = false) :
    w.afterReadable driver r t = { w with loop := t } := by
  unfold afterReadable
  rw [hreadable, if_neg Bool.false_ne_true]

theorem afterReadable_gone (hreadable : r.readable = true) (hgone : t.live = none) :
    w.afterReadable driver r t = w.reset t := by
  unfold afterReadable
  rw [if_pos hreadable, hgone]
  split
  · rename_i hnone
    cases hnone
  · rfl

theorem afterReadable_live {before after : Slot σ} (hreadable : r.readable = true)
    (hlive : w.loop.live = some before) (hafter : t.live = some after) :
    w.afterReadable driver r t =
      { w with
        loop := t
        due :=
          if before.drains driver r w.loop.thread then .drained before.connection.written
          else w.due
        outstanding := w.outstanding - (before.answers driver r w.loop.thread).length } := by
  unfold afterReadable
  rw [if_pos hreadable, hlive, hafter]

theorem afterWritable_idle (hlive : w.loop.live = none) :
    w.afterWritable driver r t = { w with loop := t } := by
  unfold afterWritable
  rw [hlive]
  split <;> rfl

theorem afterWritable_gone {before : Slot σ} (hwritable : r.writable = true)
    (hlive : w.loop.live = some before) (hgone : t.live = none) :
    w.afterWritable driver r t =
      { w.reset t with
        starts := if before.starts then w.starts ++ [w.outstanding] else w.starts } := by
  unfold afterWritable
  rw [if_pos hwritable, hlive]
  dsimp only
  rw [hgone]

theorem afterWritable_live {before after : Slot σ} (hwritable : r.writable = true)
    (hlive : w.loop.live = some before) (hafter : t.live = some after) :
    w.afterWritable driver r t =
      { loop := t
        due := if before.finishes driver r w.loop.thread then w.due.sent else w.due
        outstanding :=
          if before.starts ∧ (0 < before.taken driver r w.loop.thread ∨
              before.finishes driver r w.loop.thread) then
            w.outstanding + driver.config.pipeline.toNat
          else w.outstanding
        starts := if before.starts then w.starts ++ [w.outstanding] else w.starts } := by
  unfold afterWritable
  rw [if_pos hwritable, hlive]
  dsimp only
  rw [hafter]

theorem afterWritable_off (hwritable : r.writable = false) :
    w.afterWritable driver r t = { w with loop := t } := by
  unfold afterWritable
  rw [hwritable, if_neg Bool.false_ne_true]

theorem observe_connecting {slot : Slot σ} (hslot : w.loop.slot = some slot)
    (hconnecting : slot.connecting = true) : w.observe driver t (.ready r) = w.reset t := by
  unfold observe
  rw [hslot, Option.filter_some, hconnecting, if_pos rfl]

theorem observe_served {m : SlotLoop ε σ}
    (hnone : (w.loop.slot.filter fun slot => slot.connecting) = none)
    (hreadable : w.loop.readablePart driver r = .ok m) :
    w.observe driver t (.ready r) = (w.afterReadable driver r m).afterWritable driver r t := by
  unfold observe
  rw [hnone]
  dsimp only
  rw [hreadable]

theorem starts_empty (hlive : w.loop.live = none) :
    ((w.afterReadable driver r w.loop).afterWritable driver r w.loop).starts = w.starts := by
  have hread : (w.afterReadable driver r w.loop).starts = w.starts := by
    cases hreadable : r.readable with
    | true =>
      rw [afterReadable_gone hreadable hlive]
      rfl
    | false => rw [afterReadable_off hreadable]
  have hloop : (w.afterReadable driver r w.loop).loop.live = none := by
    rw [afterReadable_loop]
    exact hlive
  rw [afterWritable_idle hloop]
  exact hread

/-- A readiness event: it moves a connect attempt, finds the slot empty, or serves a live
slot. -/
theorem step_ready (h : Step driver w (.ready r) v) :
    (w.loop.live = none ∧ v = w.reset v.loop ∧
        ∀ slot, v.loop.live = some slot → slot.interest = .readableWritable) ∨
      (w.loop.live = none ∧ v.loop.live = none ∧ v.starts = w.starts) ∨
      ∃ slot m, w.loop.live = some slot ∧
        (r.writable = true → slot.interest = .readableWritable) ∧
        w.loop.readablePart driver r = .ok m ∧ m.writablePart driver r = .ok v.loop ∧
        v = (w.afterReadable driver r m).afterWritable driver r v.loop := by
  cases h with
  | @mk t hmoves =>
    cases hmoves with
    | ready _ hgate hready =>
      rcases SlotLoop.ready_cases hready with ⟨slot, hslot, hconnecting, hattempted⟩ |
        ⟨hnone, m, hreadable, hwritable⟩
      · left
        rw [observe_connecting hslot hconnecting]
        refine ⟨SlotLoop.live_connecting hslot hconnecting, rfl, ?_⟩
        intro other hother
        change t.live = some other at hother
        rcases SlotLoop.attempted_cases hconnecting hattempted with hgone | ⟨stream, hup⟩
        · rw [hgone] at hother
          cases hother
        · obtain rfl := Option.some.inj (hup.symm.trans hother)
          rfl
      · right
        rw [observe_served hnone hreadable, afterWritable_loop]
        rcases SlotLoop.live_or_empty hnone with ⟨slot, hlive⟩ | ⟨hlive, hslot⟩
        · right
          refine ⟨slot, m, hlive, ?_, hreadable, hwritable, rfl⟩
          intro hready
          exact hgate hready slot (SlotLoop.live_eq_some.mp hlive).1
        · left
          obtain rfl := SlotLoop.readablePart_idle hslot hreadable
          obtain rfl := SlotLoop.writablePart_idle hlive hwritable
          exact ⟨hlive, hlive, starts_empty hlive⟩

theorem step_timer {now : Nat} (h : Step driver w (.timer now) v) :
    v = { w with loop := w.loop.popDeadline now } := by
  cases h with
  | mk hmoves =>
    cases hmoves with
    | timer => rfl

theorem step_elsewhere {thread : Thread ε} (h : Step driver w (.elsewhere thread) v) :
    v = { w with loop := { w.loop with thread := thread } } := by
  cases h with
  | mk hmoves =>
    cases hmoves with
    | elsewhere => rfl

end Steps

def next : Watched ε σ :=
  match w.loop.ready driver r with
  | .ok t => w.observe driver t (.ready r)
  | .error _ => w

theorem next_step {driver : Driver ε σ} {r : Readiness σ} {w : Watched ε σ}
    (hgate : r.writable = false ∨ w.loop.slot.map Slot.interest = some .readableWritable)
    (h : (w.loop.ready driver r).isOk = true) : Step driver w (.ready r) (w.next driver r) := by
  unfold next
  cases hready : w.loop.ready driver r with
  | error halt =>
    rw [hready] at h
    cases h
  | ok t =>
    refine .mk (.ready r ?_ hready)
    intro hwritable slot hslot
    rcases hgate with hoff | hinterest
    · rw [hoff] at hwritable
      cases hwritable
    · rw [hslot] at hinterest
      exact Option.some.inj hinterest

end Watched

def quietThread : Thread Unit := (quietCtx 1 false).thread

def quietDriver (engine : ScriptEngine Unit) (socket : Socket (List Bytes × Bytes))
    (hasDelay : Bool) : Driver Unit (List Bytes × Bytes) where
  config := ⟨some [71, 69], 1, false, hasDelay, false⟩
  build := .release
  parse := reference
  engine := engine
  socket := socket

def readiness (reads : List Bytes) (readable writable : Bool) : Readiness (List Bytes × Bytes) where
  readable := readable
  writable := writable
  attempt := .up (reads, [])
  readAt := 0
  writeAt := 0
  fuel := 2
  reopened := some ([], [])

end Wrkrs
