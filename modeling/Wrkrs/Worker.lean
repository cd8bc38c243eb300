import Wrkrs.ConnectionTrail
import Wrkrs.EventLoopRuns

/-!
# One worker thread

The loop of `eventloop.rs` over all slots of a thread: every event is that of one slot, and
what the slots share passes from event to event. The history of a run is its processed
responses in their order, whichever connection they came on.
-/

namespace Wrkrs

set_option autoImplicit false
set_option maxRecDepth 4096

open Text Machine Runs

variable {ε σ : Type}

/-- The connection table, the pending deadlines with their tokens and what is shared. -/
structure Worker (ε σ : Type) where
  slots : List (Option (Slot σ))
  deadlines : List (Nat × Nat)
  thread : Thread ε

def Thread.recordRate (thread : Thread ε) : Thread ε :=
  { thread with counters := { thread.counters with requests := 0 } }

def SlotLoop.served (driver : Driver ε σ) (r : Readiness σ) (s : SlotLoop ε σ) :
    List (Answer ε σ) :=
  match s.live with
  | some slot =>
    if r.readable then
      Endpoint.trailIn driver.build driver.parse driver.engine driver.socket r.readAt r.fuel
        (slot.endpoint s.thread driver.config)
    else []
  | none => []

namespace Worker

variable (w : Worker ε σ)

/-- The loop as one slot sees it, and the loop after an event of that slot. -/
def view (index : Nat) : SlotLoop ε σ := ⟨w.slots[index]?.join, [], w.thread⟩

def put (index : Nat) (s : SlotLoop ε σ) : Worker ε σ where
  slots := w.slots.set index s.slot
  deadlines := s.deadlines.map (fun due => (due, index)) ++ w.deadlines
  thread := s.thread

def connect (config : LoopConfig) (opened : Option σ) : Worker ε σ :=
  let s := (⟨none, [], w.thread⟩ : SlotLoop ε σ).connectSlot config opened
  { w with slots := w.slots ++ [s.slot], thread := s.thread }

def start (config : LoopConfig) (opened : List (Option σ)) (thread : Thread ε) : Worker ε σ :=
  opened.foldl (fun w stream => w.connect config stream) ⟨[], [], thread⟩

/-- What the loop does, with the responses processed by it. Ready slots come in any order,
the earliest deadline fires once it is due, and other threads record latencies as well. -/
inductive Step (driver : Driver ε σ) : Worker ε σ → List (Answer ε σ) → Worker ε σ → Prop where
  | ready {w : Worker ε σ} {s : SlotLoop ε σ} (index : Nat) (r : Readiness σ) :
      index < w.slots.length → (w.view index).ready driver r = .ok s →
      Step driver w ((w.view index).served driver r) (w.put index s)
  | deadline {w : Worker ε σ} (now due index : Nat) :
      (due, index) ∈ w.deadlines → (∀ other ∈ w.deadlines, due ≤ other.1) → due ≤ now →
      Step driver w [] ({ w with deadlines := w.deadlines.erase (due, index) }.put index
        (w.view index).delayFired)
  | tick {w : Worker ε σ} : Step driver w [] { w with thread := w.thread.recordRate }
  | elsewhere {w : Worker ε σ} (latency : Histogram) :
      Step driver w [] { w with thread := { w.thread with latency := latency } }

def next (driver : Driver ε σ) (index : Nat) (r : Readiness σ) : Worker ε σ :=
  match (w.view index).ready driver r with
  | .ok s => w.put index s
  | .error _ => w

theorem next_step {w : Worker ε σ} {driver : Driver ε σ} {index : Nat} {r : Readiness σ}
    (hindex : index < w.slots.length) (h : ((w.view index).ready driver r).isOk = true) :
    Step driver w ((w.view index).served driver r) (w.next driver index r) := by
  unfold next
  cases hready : (w.view index).ready driver r with
  | error halt =>
    rw [hready] at h
    cases h
  | ok s => exact .ready index r hindex hready

end Worker

/-- An assertion about the processed responses and the shared state that every handler
keeps: it speaks of the engine and of the completed requests, and a processed response
joins the history. -/
structure Kept (driver : Driver ε σ) (I : List (Answer ε σ) → Thread ε → Prop) : Prop where
  respond : ∀ past (p : Endpoint ε σ) (r : Response) (now : Nat),
    p.ctx.wantsResponse = driver.config.wantsResponse → I past p.ctx.thread →
    I (past ++ [⟨p, r, (p.respond driver.engine now r).2⟩])
      (p.respond driver.engine now r).2.ctx.thread
  delay : ∀ past thread, I past thread →
    I past { thread with engine := (driver.engine.delay thread.engine).2 }
  request : ∀ past thread, I past thread →
    I past { thread with engine := (driver.engine.request thread.engine).2 }
  idle : ∀ past (thread thread' : Thread ε), thread'.engine = thread.engine →
    thread'.counters.complete = thread.counters.complete → I past thread → I past thread'

section Parts
variable {driver : Driver ε σ} {r : Readiness σ} {I : List (Answer ε σ) → Thread ε → Prop}
variable {past : List (Answer ε σ)} {s t : SlotLoop ε σ} {slot : Slot σ}

theorem Kept.startBurst (hI : Kept driver I) (now : Nat) {p : Endpoint ε σ}
    (h : I past p.ctx.thread) : I past (p.startBurst driver.engine now).2.ctx.thread := by
  unfold Endpoint.startBurst
  by_cases hwritten : p.connection.written = 0
  · rw [if_pos hwritten]
    cases hdynamic : p.ctx.dynamic with
    | false => exact h
    | true =>
      have hrequest := hI.request past p.ctx.thread h
      cases hanswer : driver.engine.request p.ctx.engine with
      | mk answer state =>
        change I past { p.ctx.thread with
          engine := (driver.engine.request p.ctx.engine).2 } at hrequest
        rw [hanswer] at hrequest
        cases answer with
        | ok bytes => exact hrequest
        | error error => exact hrequest
  · rw [if_neg hwritten]
    exact h

theorem Kept.writable (hI : Kept driver I) {now : Nat} {p q : Endpoint ε σ} {event : Event}
    (h : I past p.ctx.thread)
    (hp : p.writable driver.engine driver.socket now = .ok (event, q)) : I past q.ctx.thread := by
  unfold Endpoint.writable at hp
  cases hdelayed : p.connection.delayed with
  | true =>
    rw [hdelayed, if_pos rfl] at hp
    obtain ⟨_, rfl⟩ := Prod.mk.inj (Except.ok.inj hp)
    exact hI.delay past p.ctx.thread h
  | false =>
    rw [hdelayed, if_neg Bool.false_ne_true] at hp
    have hburst := hI.startBurst now h
    cases hstart : p.startBurst driver.engine now with
    | mk answer b =>
      rw [hstart] at hp hburst
      cases answer with
      | error error =>
        obtain ⟨_, rfl⟩ := Prod.mk.inj (Except.ok.inj hp)
        exact hburst
      | ok _ =>
        obtain ⟨_, hoffered⟩ := Endpoint.send_cases hp
        cases hoffered with
        | whole => exact hburst
        | part => exact hburst
        | blocked => exact hburst
        | failed => exact hI.idle past b.ctx.thread _ rfl rfl hburst

theorem Kept.readable (hI : Kept driver I) {now fuel : Nat} {p q : Endpoint ε σ} {event : Event}
    (hwants : p.ctx.wantsResponse = driver.config.wantsResponse) (h : I past p.ctx.thread)
    (hp : p.readable driver.build driver.parse driver.engine driver.socket now fuel =
      .ok (event, q)) :
    I (past ++ Endpoint.trailIn driver.build driver.parse driver.engine driver.socket now fuel p)
      q.ctx.thread := by
  have htrail := Endpoint.readable_trail
    (I := fun past p => p.ctx.wantsResponse = driver.config.wantsResponse ∧ I past p.ctx.thread)
    (by
      intro past p r hp
      have hkeeps := (Endpoint.respond_spec driver.engine now p r).keeps
      exact ⟨hkeeps.wantsResponse.trans hp.1, hI.respond past p r now hp.1 hp.2⟩)
    (by
      intro past p q hidles hp
      refine ⟨hidles.wantsResponse.trans hp.1, ?_⟩
      exact hI.idle past p.ctx.thread _ hidles.engine hidles.complete hp.2)
    past ⟨hwants, h⟩ hp
  exact htrail.2

end Parts

inductive Became (build : Build) (parse : ResponseParser) (capture : Bool) :
    ResponseFramer → Prop where
  | new : Became build parse capture (.new capture)
  | feed {f g : ResponseFramer} {bytes : Bytes} {result : Except FrameError (List Response)} :
      Became build parse capture f → f.feed build parse bytes = .ok (result, g) →
      Became build parse capture g
  | closed {f g : ResponseFramer} {result : Except FrameError (List Response)} :
      Became build parse capture f → f.closed = .ok (result, g) → Became build parse capture g

/-- A response that such a framer emits for the bytes of its connection. -/
def Emitted (build : Build) (parse : ResponseParser) (capture : Bool) (r : Response) : Prop :=
  ∃ f g batch, Became build parse capture f ∧
    ((∃ bytes, f.feed build parse bytes = .ok (.ok batch, g)) ∨ f.closed = .ok (.ok batch, g)) ∧
    r ∈ batch

section Framers
variable {build : Build} {parse : ResponseParser} {capture : Bool} {engine : ScriptEngine ε}
variable {socket : Socket σ} {now : Nat} {p q : Endpoint ε σ}

theorem Endpoint.trail_mem {a : Answer ε σ} {batch : List Response}
    (h : a ∈ p.trail engine now batch) : a.response ∈ batch := by
  induction batch generalizing p with
  | nil => cases h
  | cons r rest ih =>
    unfold trail at h
    rcases List.mem_cons.mp h with rfl | hmem
    · exact List.mem_cons_self
    · apply List.mem_cons_of_mem
      cases hrespond : p.respond engine now r with
      | mk event q =>
        rw [hrespond] at hmem
        cases event with
        | some event => cases hmem
        | none => exact ih hmem

theorem Endpoint.takeBatch_framer
    {idle : Endpoint ε σ → Option Event × Endpoint ε σ}
    (hidle : ∀ q, (idle q).2.connection.framer = q.connection.framer)
    (result : Except FrameError (List Response)) :
    (p.takeBatch engine now idle result).2.connection.framer = p.connection.framer := by
  cases result with
  | error error => rfl
  | ok batch =>
    have hframe := (Endpoint.responses_frame engine now p batch).2
    cases hresponses : p.responses engine now batch with
    | mk event q =>
      rw [hresponses] at hframe
      simp only [takeBatch, hresponses]
      cases event with
      | some event => exact hframe
      | none => exact (hidle q).trans hframe

theorem Endpoint.readOnce_became {taken : Option Event × Endpoint ε σ}
    (hp : Became build parse capture p.connection.framer)
    (h : p.readOnce build parse engine socket now = .ok taken) :
    Became build parse capture taken.2.connection.framer ∧
      ∀ a ∈ trailOf engine now (p.arrived build parse socket),
        Emitted build parse capture a.response := by
  have hbatch : ∀ {result : Except FrameError (List Response)} {u : Endpoint ε σ} {a : Answer ε σ},
      a ∈ trailOf engine now (result.toOption.map (u, ·)) → ∃ batch, result = .ok batch ∧
        a.response ∈ batch := by
    intro result u a ha
    cases result with
    | error error => cases ha
    | ok batch => exact ⟨batch, rfl, trail_mem ha⟩
  cases readOnce_cases h with
  | @closed state result framer hread hclosed =>
    rw [takeBatch_framer fun _ => rfl, arrived_closed hread hclosed]
    refine ⟨.closed hp hclosed, fun a ha => ?_⟩
    obtain ⟨batch, rfl, hmem⟩ := hbatch ha
    exact ⟨_, framer, batch, hp, .inr hclosed, hmem⟩
  | @fed byte bytes state result framer hread hfeed =>
    rw [takeBatch_framer fun q => by unfold shortRead; split <;> rfl, arrived_fed hread hfeed]
    refine ⟨.feed hp hfeed, fun a ha => ?_⟩
    obtain ⟨batch, rfl, hmem⟩ := hbatch ha
    exact ⟨_, framer, batch, hp, .inl ⟨_, hfeed⟩, hmem⟩
  | blocked hread =>
    rw [arrived_error hread]
    exact ⟨hp, fun a ha => by cases ha⟩
  | failed hread =>
    rw [arrived_error hread]
    exact ⟨hp, fun a ha => by cases ha⟩

theorem Endpoint.readable_became {fuel : Nat} {event : Event}
    (hp : Became build parse capture p.connection.framer)
    (h : readable build parse engine socket now fuel p = .ok (event, q)) :
    Became build parse capture q.connection.framer ∧
      ∀ a ∈ trailIn build parse engine socket now fuel p,
        Emitted build parse capture a.response := by
  induction fuel generalizing p with
  | zero => cases h
  | succ fuel ih =>
    unfold readable at h
    unfold trailIn
    cases honce : p.readOnce build parse engine socket now with
    | error fault =>
      rw [honce] at h
      cases h
    | ok taken =>
      obtain ⟨hframer, hemitted⟩ := readOnce_became hp honce
      obtain ⟨event', u⟩ := taken
      rw [honce, ok_bind] at h
      cases event' with
      | some event' =>
        obtain ⟨_, rfl⟩ := Prod.mk.inj (Except.ok.inj h)
        rw [List.append_nil]
        exact ⟨hframer, hemitted⟩
      | none =>
        obtain ⟨hrest, hmore⟩ := ih hframer h
        refine ⟨hrest, fun a ha => ?_⟩
        rcases List.mem_append.mp ha with hfirst | hlater
        · exact hemitted a hfirst
        · exact hmore a hlater

theorem Endpoint.writable_framer {event : Event}
    (h : p.writable engine socket now = .ok (event, q)) :
    q.connection.framer = p.connection.framer := by
  unfold writable at h
  cases hdelayed : p.connection.delayed with
  | true =>
    rw [hdelayed, if_pos rfl] at h
    obtain ⟨_, rfl⟩ := Prod.mk.inj (Except.ok.inj h)
    rfl
  | false =>
    rw [hdelayed, if_neg Bool.false_ne_true] at h
    have hburst : (p.startBurst engine now).2.connection.framer = p.connection.framer := by
      unfold startBurst
      by_cases hwritten : p.connection.written = 0
      · rw [if_pos hwritten]
        split
        · split <;> rfl
        · rfl
      · rw [if_neg hwritten]
    cases hstart : p.startBurst engine now with
    | mk answer b =>
      rw [hstart] at h hburst
      cases answer with
      | error error =>
        obtain ⟨_, rfl⟩ := Prod.mk.inj (Except.ok.inj h)
        exact hburst
      | ok _ =>
        obtain ⟨_, hoffered⟩ := send_cases h
        cases hoffered <;> exact hburst

end Framers

/-- An assertion about the history and the shared state, and one about every framer of the
slots, that both handlers keep together. -/
structure Carried (driver : Driver ε σ) (I : List (Answer ε σ) → Thread ε → Prop)
    (J : ResponseFramer → Prop) : Prop where
  fresh : J (.new driver.config.wantsResponse)
  idle : ∀ past (thread thread' : Thread ε), thread'.engine = thread.engine →
    thread'.counters.complete = thread.counters.complete → I past thread → I past thread'
  readable : ∀ {past now fuel event} {p q : Endpoint ε σ},
    p.ctx.wantsResponse = driver.config.wantsResponse → I past p.ctx.thread →
    J p.connection.framer →
    p.readable driver.build driver.parse driver.engine driver.socket now fuel = .ok (event, q) →
    I (past ++ Endpoint.trailIn driver.build driver.parse driver.engine driver.socket now fuel p)
      q.ctx.thread ∧ J q.connection.framer
  writable : ∀ {past now event} {p q : Endpoint ε σ}, I past p.ctx.thread →
    J p.connection.framer → p.writable driver.engine driver.socket now = .ok (event, q) →
    I past q.ctx.thread ∧ J q.connection.framer

structure SlotLoop.Has (I : List (Answer ε σ) → Thread ε → Prop) (J : ResponseFramer → Prop)
    (past : List (Answer ε σ)) (s : SlotLoop ε σ) : Prop where
  thread : I past s.thread
  framer : ∀ slot ∈ s.slot, J slot.connection.framer

structure Worker.Has (I : List (Answer ε σ) → Thread ε → Prop) (J : ResponseFramer → Prop)
    (past : List (Answer ε σ)) (w : Worker ε σ) : Prop where
  thread : I past w.thread
  framers : ∀ slot, some slot ∈ w.slots → J slot.connection.framer

section Slots
variable {driver : Driver ε σ} {r : Readiness σ} {I : List (Answer ε σ) → Thread ε → Prop}
variable {J : ResponseFramer → Prop} {past : List (Answer ε σ)} {s t : SlotLoop ε σ}
variable {slot : Slot σ}

theorem SlotLoop.has_some {slot : Slot σ} {deadlines : List Nat} {thread : Thread ε}
    (hthread : I past thread) (hslot : J slot.connection.framer) :
    SlotLoop.Has I J past ⟨some slot, deadlines, thread⟩ := by
  refine ⟨hthread, ?_⟩
  intro other hother
  obtain rfl := Option.some.inj hother
  exact hslot

theorem SlotLoop.Has.reregister (h : s.Has I J past) (interest : Interest) :
    (s.reregister interest).Has I J past := by
  refine ⟨h.thread, ?_⟩
  intro slot hslot
  obtain ⟨old, hold, rfl⟩ := Option.map_eq_some_iff.mp hslot
  exact h.framer old hold

theorem Carried.connectSlot (hI : Carried driver I J) (opened : Option σ)
    (h : I past s.thread) : (s.connectSlot driver.config opened).Has I J past := by
  cases opened with
  | none =>
    refine ⟨hI.idle past s.thread _ rfl rfl h, ?_⟩
    intro slot hslot
    cases hslot
  | some stream => exact SlotLoop.has_some h hI.fresh

theorem Carried.apply (hI : Carried driver I J) {opened : Option σ} {reaction : Reaction}
    (h : s.Has I J past) (hs : s.apply driver.config opened reaction = .ok t) :
    t.Has I J past := by
  cases reaction with
  | interest i =>
    obtain rfl := Except.ok.inj hs
    exact h.reregister i
  | reconnect =>
    obtain rfl := Except.ok.inj hs
    exact hI.connectSlot opened h.thread
  | delay millis =>
    obtain rfl := Except.ok.inj hs
    exact h
  | fatal message => cases hs
  | nothing =>
    obtain rfl := Except.ok.inj hs
    exact h

theorem Carried.attempted (hI : Carried driver I J) {attempt : Attempt σ}
    (hslot : s.slot = some slot) (h : s.Has I J past)
    (hs : s.attempted driver.config slot attempt = .ok t) : t.Has I J past := by
  have hold : J slot.connection.framer := h.framer slot hslot
  have hfailed : I past s.thread.failConnect := hI.idle past s.thread _ rfl rfl h.thread
  cases attempt with
  | refused reopened =>
    obtain rfl := Except.ok.inj hs
    exact hI.connectSlot reopened hfailed
  | failed reopened =>
    obtain rfl := Except.ok.inj hs
    exact hI.connectSlot reopened hfailed
  | handshaking stream =>
    obtain rfl := Except.ok.inj hs
    exact SlotLoop.has_some h.thread hold
  | up stream =>
    unfold SlotLoop.attempted at hs
    apply hI.apply _ hs
    exact SlotLoop.has_some h.thread hold

theorem Carried.readablePart (hI : Carried driver I J) (h : s.Has I J past)
    (hslot : (s.slot.filter fun slot => slot.connecting) = none)
    (hs : s.readablePart driver r = .ok t) : t.Has I J (past ++ s.served driver r) := by
  unfold SlotLoop.readablePart at hs
  unfold SlotLoop.served
  cases hreadable : r.readable with
  | false =>
    rw [hreadable, if_neg Bool.false_ne_true] at hs
    obtain rfl := Except.ok.inj hs
    cases s.live with
    | none =>
      rw [List.append_nil]
      exact h
    | some slot =>
      simp only [if_neg Bool.false_ne_true, List.append_nil]
      exact h
  | true =>
    rw [hreadable, if_pos rfl] at hs
    rcases SlotLoop.live_or_empty hslot with ⟨slot, hlive⟩ | ⟨hlive, hnone⟩
    · rw [hlive]
      simp only [if_pos]
      cases hfire : s.fire driver r false with
      | error halt =>
        rw [hfire] at hs
        cases hs
      | ok fired =>
        obtain ⟨event, q, hhandler, _, hhandled⟩ := SlotLoop.fire_live hlive hfire
        have hframer : J slot.connection.framer :=
          h.framer slot (SlotLoop.live_eq_some.mp hlive).1
        obtain ⟨hthread, hread⟩ := hI.readable rfl h.thread hframer hhandler
        rw [hfire, ok_bind] at hs
        dsimp only at hs
        rw [hhandled] at hs
        apply hI.apply _ hs
        exact SlotLoop.has_some hthread hread
    · rw [hlive, List.append_nil]
      unfold SlotLoop.fire at hs
      rw [hnone, ok_bind] at hs
      exact hI.apply h hs

theorem Carried.writablePart (hI : Carried driver I J) (h : s.Has I J past)
    (hs : s.writablePart driver r = .ok t) : t.Has I J past := by
  unfold SlotLoop.writablePart at hs
  by_cases hwritable : r.writable = true ∧ s.live.isSome = true
  · rw [if_pos hwritable] at hs
    obtain ⟨slot, hlive⟩ := Option.isSome_iff_exists.mp hwritable.2
    cases hfire : s.fire driver r true with
    | error halt =>
      rw [hfire] at hs
      cases hs
    | ok fired =>
      obtain ⟨event, q, hhandler, hreaction, hhandled⟩ := SlotLoop.fire_live hlive hfire
      have hframer : J slot.connection.framer := h.framer slot (SlotLoop.live_eq_some.mp hlive).1
      obtain ⟨hthread, hwrite⟩ := hI.writable (p := slot.endpoint s.thread driver.config) h.thread
        hframer hhandler
      have hfired : fired.2.Has I J past := by
        rw [hhandled]
        exact SlotLoop.has_some hthread hwrite
      rw [hfire, ok_bind] at hs
      dsimp only at hs
      split at hs
      · obtain rfl := Except.ok.inj hs
        apply SlotLoop.Has.reregister
        exact ⟨hfired.thread, hfired.framer⟩
      · exact hI.apply hfired hs
  · rw [if_neg hwritable] at hs
    obtain rfl := Except.ok.inj hs
    exact h

theorem Carried.ready (hI : Carried driver I J) (h : s.Has I J past)
    (hs : s.ready driver r = .ok t) : t.Has I J (past ++ s.served driver r) := by
  rcases SlotLoop.ready_cases hs with ⟨slot, hslot, hconnecting, hattempted⟩ |
    ⟨hslot, m, hread, hwrite⟩
  · have hserved : s.served driver r = [] := by
      unfold SlotLoop.served SlotLoop.live
      rw [hslot, Option.filter_some, hconnecting]
      rfl
    rw [hserved, List.append_nil]
    exact hI.attempted hslot h hattempted
  · exact hI.writablePart (hI.readablePart h hslot hread) hwrite

theorem SlotLoop.Has.delayFired (h : s.Has I J past) : s.delayFired.Has I J past := by
  unfold SlotLoop.delayFired
  cases hlive : s.live with
  | none => exact h
  | some slot => exact SlotLoop.has_some h.thread (h.framer slot (live_eq_some.mp hlive).1)

end Slots

section Workers
variable {driver : Driver ε σ} {I : List (Answer ε σ) → Thread ε → Prop}
variable {J : ResponseFramer → Prop} {past : List (Answer ε σ)} {w v : Worker ε σ}

theorem Worker.Has.view (h : w.Has I J past) (index : Nat) : (w.view index).Has I J past := by
  refine ⟨h.thread, ?_⟩
  intro slot hslot
  apply h.framers
  change w.slots[index]?.join = some slot at hslot
  rw [Option.join_eq_some_iff] at hslot
  exact List.mem_of_getElem? hslot

theorem Worker.has_put {s : SlotLoop ε σ} {later : List (Answer ε σ)} (index : Nat)
    (hslots : ∀ slot, some slot ∈ w.slots → J slot.connection.framer) (hs : s.Has I J later) :
    (w.put index s).Has I J later := by
  refine ⟨hs.thread, ?_⟩
  intro slot hslot
  rcases List.mem_or_eq_of_mem_set hslot with hold | hnew
  · exact hslots slot hold
  · exact hs.framer slot hnew.symm

theorem Carried.step (hI : Carried driver I J) {answers : List (Answer ε σ)}
    (h : w.Has I J past) (hstep : Worker.Step driver w answers v) :
    v.Has I J (past ++ answers) := by
  cases hstep with
  | ready index r _ hready => exact Worker.has_put index h.framers (hI.ready (h.view index) hready)
  | deadline now due index _ _ _ =>
    rw [List.append_nil]
    apply Worker.has_put index
    · exact h.framers
    · exact (h.view index).delayFired
  | tick =>
    rw [List.append_nil]
    exact ⟨hI.idle past w.thread _ rfl rfl h.thread, h.framers⟩
  | elsewhere latency =>
    rw [List.append_nil]
    exact ⟨hI.idle past w.thread _ rfl rfl h.thread, h.framers⟩

theorem Carried.start (hI : Carried driver I J) (opened : List (Option σ)) {thread : Thread ε}
    (h : I [] thread) : (Worker.start driver.config opened thread).Has I J [] := by
  have hconnects : ∀ w : Worker ε σ, w.Has I J [] →
      (opened.foldl (fun w stream => w.connect driver.config stream) w).Has I J [] := by
    induction opened with
    | nil =>
      intro w hw
      exact hw
    | cons stream opened ih =>
      intro w hw
      have hopened := hI.connectSlot (s := ⟨none, [], w.thread⟩) stream hw.thread
      apply ih
      refine ⟨hopened.thread, ?_⟩
      intro slot hslot
      rcases List.mem_append.mp hslot with hold | hnew
      · exact hw.framers slot hold
      · exact hopened.framer slot (List.mem_singleton.mp hnew).symm
  apply hconnects
  refine ⟨h, ?_⟩
  intro slot hslot
  cases hslot

/-- What holds of no responses and the state at first holds of all responses of a run. -/
theorem Carried.run (hI : Carried driver I J) {opened : List (Option σ)} {thread : Thread ε}
    {answers : List (List (Answer ε σ))} (h : I [] thread)
    (hrun : Run (Worker.Step driver) (Worker.start driver.config opened thread) answers v) :
    v.Has I J answers.flatten := by
  apply RunWhile.history (I := fun (answers : List (List (Answer ε σ))) (v : Worker ε σ) =>
    v.Has I J answers.flatten) hrun (hI.start opened h)
  intro answers u next v hu _ hstep
  rw [List.flatten_append, List.flatten_cons, List.flatten_nil, List.append_nil]
  exact hI.step hu hstep

/-- Assertions that every handler keeps say nothing of framers. -/
theorem Kept.carried (hI : Kept driver I) : Carried driver I fun _ => True := by
  constructor
  · trivial
  · exact hI.idle
  · intro past now fuel event p q hwants h _ hp
    exact ⟨hI.readable hwants h hp, trivial⟩
  · intro past now event p q h _ hp
    exact ⟨hI.writable h hp, trivial⟩

theorem became_carried : Carried driver
    (fun past _ => ∀ a ∈ past,
      Emitted driver.build driver.parse driver.config.wantsResponse a.response)
    (Became driver.build driver.parse driver.config.wantsResponse) := by
  constructor
  · exact .new
  · intro past thread thread' _ _ h
    exact h
  · intro past now fuel event p q _ h hp hread
    obtain ⟨hframer, hemitted⟩ := Endpoint.readable_became hp hread
    exact ⟨List.forall_mem_append.mpr ⟨h, hemitted⟩, hframer⟩
  · intro past now event p q h hp hwrite
    rw [Endpoint.writable_framer hwrite]
    exact ⟨h, hp⟩

/-- Every response of a run was emitted by a framer that captures as the thread wants. -/
theorem Worker.run_emitted {opened : List (Option σ)} {thread : Thread ε}
    {answers : List (List (Answer ε σ))}
    (hrun : Run (Step driver) (start driver.config opened thread) answers w) :
    ∀ a ∈ answers.flatten,
      Emitted driver.build driver.parse driver.config.wantsResponse a.response :=
  (became_carried.run (List.forall_mem_nil _) hrun).thread

end Workers

end Wrkrs
