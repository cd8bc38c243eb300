import Wrkrs.WorkerSlots

/-!
# The wires of a worker

What the connections of a worker have put on their wires, over reconnects and with one script
that generates for all of them: each has sent whole requests of its own.
-/

namespace Wrkrs

set_option autoImplicit false
set_option maxRecDepth 4096

open Text Machine Runs

variable {ε σ : Type}

/-- What the socket had accepted when the connection of a slot came up, and the requests that
the script has generated for it since. -/
structure WireHistory where
  base : Bytes
  mine : List Bytes

/-- The requests that a readiness event of a slot generates, once its reads are done. -/
def SlotLoop.generated (driver : Driver ε σ) (r : Readiness σ) (s : SlotLoop ε σ) : List Bytes :=
  match s.live, s.readablePart driver r with
  | some _, .ok m =>
    match m.live with
    | some slot =>
      if r.writable then (slot.endpoint m.thread driver.config).generates driver.engine else []
    | none => []
  | _, _ => []

/-- A connection that comes up starts a history, and a live one goes on with its own. -/
def WireHistory.after (driver : Driver ε σ) (accepted : σ → Bytes) (r : Readiness σ)
    (s t : SlotLoop ε σ) (wire : WireHistory) : WireHistory :=
  match s.slot.filter fun slot => slot.connecting with
  | some _ =>
    match t.live with
    | some slot => ⟨accepted slot.stream, []⟩
    | none => wire
  | none => { wire with mine := wire.mine ++ s.generated driver r }

/-- Only events of the slot itself make its history. -/
def WireHistory.follow (driver : Driver ε σ) (accepted : σ → Bytes) (s t : SlotLoop ε σ)
    (wire : WireHistory) : Action ε σ → WireHistory
  | .ready r => wire.after driver accepted r s t
  | .timer _ | .elsewhere _ => wire

def SlotLoop.requested (driver : Driver ε σ) (s : SlotLoop ε σ) : Action ε σ → List Bytes
  | .ready r => s.generated driver r
  | .timer _ | .elsewhere _ => []

def Driver.staticRequest (driver : Driver ε σ) : Bytes := driver.config.staticRequest.getD []

def SlotLoop.Connects (config : LoopConfig) (s : SlotLoop ε σ) : Prop :=
  ∀ slot, s.slot = some slot → slot.connecting = true → slot.connection = config.connection true

/-- The wire of a slot: a live connection has sent whole requests and a front part of its
current one. -/
def Sends (driver : Driver ε σ) (accepted : σ → Bytes) (s : SlotLoop ε σ) (base : Bytes)
    (mine : List Bytes) : Prop :=
  ∀ slot, s.live = some slot → ∃ after, accepted slot.stream = base ++ after ∧
    OnWire driver.staticRequest mine after (slot.endpoint s.thread driver.config)

section Connecting
variable {driver : Driver ε σ} {s t : SlotLoop ε σ} {slot : Slot σ} {r : Readiness σ}
variable {config : LoopConfig}

theorem SlotLoop.Connects.live (h : s.live = some slot) : s.Connects config := by
  intro other hother hconnecting
  cases (live_connecting hother hconnecting).symm.trans h

theorem connectSlot_connects (s : SlotLoop ε σ) (opened : Option σ) :
    (s.connectSlot config opened).Connects config := by
  intro slot hslot _
  cases opened with
  | none => cases hslot
  | some stream =>
    cases hslot
    rfl

theorem reregister_connects (h : s.Connects config) (i : Interest) :
    (s.reregister i).Connects config := by
  intro slot hslot hconnecting
  obtain ⟨before, hbefore, rfl⟩ := Option.map_eq_some_iff.mp hslot
  exact h before hbefore hconnecting

theorem start_connects (config : LoopConfig) (opened : List (Option σ)) (thread : Thread ε)
    (index : Nat) : ((Worker.start config opened thread).slotLoop index).Connects config := by
  intro slot hslot _
  rw [start_slot] at hslot
  obtain ⟨stream, -, rfl⟩ := Option.map_eq_some_iff.mp hslot
  rfl

theorem apply_connects {opened : Option σ} {reaction : Reaction} (h : s.Connects config)
    (happly : s.apply config opened reaction = .ok t) : t.Connects config := by
  cases reaction with
  | interest i =>
    obtain rfl := Except.ok.inj happly
    exact reregister_connects h i
  | reconnect =>
    obtain rfl := Except.ok.inj happly
    exact connectSlot_connects _ _
  | delay millis =>
    obtain rfl := Except.ok.inj happly
    exact h
  | fatal message => cases happly
  | nothing =>
    obtain rfl := Except.ok.inj happly
    exact h

theorem fire_connects {writable : Bool} {reaction : Reaction} (hlive : s.live = some slot)
    (h : s.fire driver r writable = .ok (reaction, t)) : t.Connects config := by
  obtain ⟨event, q, -, -, rfl⟩ := SlotLoop.fire_live hlive h
  apply SlotLoop.Connects.live
  exact SlotLoop.live_eq_some.mpr ⟨rfl, (SlotLoop.live_eq_some.mp hlive).2⟩

theorem readablePart_connects (hlive : s.live = some slot)
    (h : s.readablePart driver r = .ok t) : t.Connects driver.config := by
  unfold SlotLoop.readablePart at h
  split at h
  · cases hfire : s.fire driver r false with
    | error halt =>
      rw [hfire] at h
      cases h
    | ok fired =>
      rw [hfire, ok_bind] at h
      exact apply_connects (fire_connects hlive hfire) h
  · obtain rfl := Except.ok.inj h
    exact .live hlive

theorem writablePart_connects (hs : s.Connects driver.config)
    (h : s.writablePart driver r = .ok t) : t.Connects driver.config := by
  unfold SlotLoop.writablePart at h
  split at h
  · next hwritable =>
    obtain ⟨slot, hlive⟩ := Option.isSome_iff_exists.mp hwritable.2
    cases hfire : s.fire driver r true with
    | error halt =>
      rw [hfire] at h
      cases h
    | ok fired =>
      obtain ⟨reaction, m⟩ := fired
      rw [hfire, ok_bind] at h
      have hm : m.Connects driver.config := fire_connects hlive hfire
      dsimp only at h
      split at h
      · obtain rfl := Except.ok.inj h
        exact reregister_connects hm .readable
      · exact apply_connects hm h
  · obtain rfl := Except.ok.inj h
    exact hs

theorem attempted_connects {attempt : Attempt σ} (hs : s.Connects driver.config)
    (hslot : s.slot = some slot) (hconnecting : slot.connecting = true)
    (h : s.attempted driver.config slot attempt = .ok t) : t.Connects driver.config := by
  cases attempt with
  | refused reopened =>
    obtain rfl := Except.ok.inj h
    exact connectSlot_connects _ _
  | failed reopened =>
    obtain rfl := Except.ok.inj h
    exact connectSlot_connects _ _
  | handshaking stream =>
    obtain rfl := Except.ok.inj h
    intro other hother _
    cases hother
    exact hs slot hslot hconnecting
  | up stream =>
    obtain rfl := Except.ok.inj h
    intro other hother hstill
    cases hother
    cases hstill

theorem ready_connects (hs : s.Connects driver.config) (h : s.ready driver r = .ok t) :
    t.Connects driver.config := by
  rcases SlotLoop.ready_cases h with ⟨slot, hslot, hconnecting, hattempted⟩ |
    ⟨hnone, m, hreadable, hwritable⟩
  · exact attempted_connects hs hslot hconnecting hattempted
  · rcases SlotLoop.live_or_empty hnone with ⟨slot, hlive⟩ | ⟨hgone, hslot⟩
    · exact writablePart_connects (readablePart_connects hlive hreadable) hwritable
    · obtain rfl := SlotLoop.readablePart_idle hslot hreadable
      exact writablePart_connects hs hwritable

end Connecting

section Sending
variable {driver : Driver ε σ} {accepted : σ → Bytes} {s t m : SlotLoop ε σ} {slot : Slot σ}
variable {base : Bytes} {mine fresh : List Bytes} {r : Readiness σ}

theorem sends_gone (h : s.live = none) : Sends driver accepted s base mine := by
  intro slot hlive
  cases h.symm.trans hlive

theorem writable_dynamic {engine : ScriptEngine ε} {socket : Socket σ} {now : Nat}
    {p q : Endpoint ε σ} {event : Event} (h : p.writable engine socket now = .ok (event, q)) :
    q.ctx.dynamic = p.ctx.dynamic := by
  cases Endpoint.writable_cases h with
  | waits millis state hdelayed => rfl
  | fails message state hdelayed hnone => rfl
  | offers hdelayed hstart hle hoffered =>
    rw [← hstart.dynamic]
    cases hoffered <;> rfl

theorem sends_handled (behaved : driver.socket.WellBehaved accepted) {event : Event}
    {q : Endpoint ε σ} (hs : Sends driver accepted s base mine) (hlive : s.live = some slot)
    (hhandled : Handled driver.build driver.parse driver.engine driver.socket
      (slot.endpoint s.thread driver.config) fresh q)
    (hdynamic : q.ctx.dynamic = driver.config.dynamic)
    (happlied : SlotLoop.Applied s slot q event t) :
    Sends driver accepted t base (mine ++ fresh) := by
  obtain ⟨after, htaken, hwire⟩ := hs slot hlive
  obtain ⟨later, hlater, hwire'⟩ := handled_onWire behaved htaken hwire hhandled
  intro slot' hlive'
  cases happlied with
  | interest i hafter _ =>
    obtain rfl := Option.some.inj (hafter.symm.trans hlive')
    exact ⟨later, hlater, hwire'.keeps rfl rfl hdynamic.symm⟩
  | reconnect hgone _ => cases hgone.symm.trans hlive'
  | delay millis deadline hafter _ =>
    obtain rfl := Option.some.inj (hafter.symm.trans hlive')
    exact ⟨later, hlater, hwire'.keeps rfl rfl hdynamic.symm⟩

theorem sends_readablePart (behaved : driver.socket.WellBehaved accepted)
    (hs : Sends driver accepted s base mine) (hlive : s.live = some slot)
    (h : s.readablePart driver r = .ok t) : Sends driver accepted t base mine := by
  rcases SlotLoop.readablePart_cases hlive h with ⟨_, rfl⟩ | ⟨_, event, q, hhandler, happlied⟩
  · exact hs
  · have hsent := sends_handled behaved hs hlive (.readable r.readAt r.fuel hhandler)
      (Endpoint.readable_keeps hhandler).dynamic happlied
    rwa [List.append_nil] at hsent

theorem sends_writablePart (behaved : driver.socket.WellBehaved accepted)
    (hs : Sends driver accepted s base mine) (hlive : s.live = some slot)
    (h : s.writablePart driver r = .ok t) :
    Sends driver accepted t base (mine ++ if r.writable then
      (slot.endpoint s.thread driver.config).generates driver.engine else []) := by
  rcases SlotLoop.writablePart_cases hlive h with ⟨hoff, rfl⟩ |
    ⟨hwritable, event, q, hhandler, happlied⟩
  · rw [hoff, if_neg Bool.false_ne_true, List.append_nil]
    exact hs
  · rw [hwritable, if_pos rfl]
    exact sends_handled behaved hs hlive (.writable r.writeAt hhandler)
      (writable_dynamic hhandler) happlied

theorem sends_up {stream : σ} {slot' : Slot σ} (hnew : slot.connection = driver.config.connection true)
    (hup : s.live = some slot') (hslot' : slot' = ⟨stream, slot.connection.connected.2, false,
      .readableWritable⟩) : Sends driver accepted s (accepted slot'.stream) [] := by
  intro other hother
  obtain rfl := Option.some.inj (hup.symm.trans hother)
  subst hslot'
  rw [hnew]
  refine ⟨[], (List.append_nil _).symm, Nat.zero_le _, [], rfl, ?_, ?_⟩
  · intro _
    exact ⟨rfl, List.forall_mem_nil _⟩
  · intro _
    exact List.nil_sublist _

theorem sends_ready (behaved : driver.socket.WellBehaved accepted) {wire : WireHistory}
    (hs : Sends driver accepted s wire.base wire.mine) (hconnects : s.Connects driver.config)
    (h : s.ready driver r = .ok t) :
    Sends driver accepted t (wire.after driver accepted r s t).base
      (wire.after driver accepted r s t).mine := by
  unfold WireHistory.after
  rcases SlotLoop.ready_cases h with ⟨slot, hslot, hconnecting, hattempted⟩ |
    ⟨hnone, m, hreadable, hwritable⟩
  · rw [hslot, Option.filter_some, hconnecting, if_pos rfl]
    dsimp only
    rcases SlotLoop.attempted_cases hconnecting hattempted with hgone | ⟨stream, hup⟩
    · rw [hgone]
      exact sends_gone hgone
    · rw [hup]
      exact sends_up (hconnects slot hslot hconnecting) hup rfl
  · rw [hnone]
    dsimp only
    rcases SlotLoop.live_or_empty hnone with ⟨slot, hlive⟩ | ⟨hgone, hslot⟩
    · have hread := sends_readablePart behaved hs hlive hreadable
      unfold SlotLoop.generated
      rw [hlive, hreadable]
      dsimp only
      cases hm : m.live with
      | none =>
        obtain rfl := SlotLoop.writablePart_idle hm hwritable
        exact sends_gone hm
      | some slot' => exact sends_writablePart behaved hread hm hwritable
    · obtain rfl := SlotLoop.readablePart_idle hslot hreadable
      obtain rfl := SlotLoop.writablePart_idle hgone hwritable
      exact sends_gone hgone

theorem Sends.elsewhere (hs : Sends driver accepted s base mine) (thread : Thread ε) :
    Sends driver accepted { s with thread := thread } base mine := by
  intro slot hlive
  obtain ⟨after, htaken, hwire⟩ := hs slot hlive
  exact ⟨after, htaken, hwire.keeps rfl rfl rfl⟩

theorem Sends.timer (hs : Sends driver accepted s base mine) (now : Nat) :
    Sends driver accepted (s.popDeadline now) base mine := by
  rcases SlotLoop.popDeadline_cases s now with hsame | ⟨-, hfired⟩
  · rw [hsame]
    exact hs
  · intro after hlive
    obtain ⟨slot, hbefore, rfl⟩ := Option.map_eq_some_iff.mp (hfired.symm.trans hlive)
    obtain ⟨later, htaken, hwire⟩ := hs slot hbefore
    exact ⟨later, htaken, hwire.keeps rfl rfl rfl⟩

theorem SlotLoop.Connects.timer {config : LoopConfig} (hs : s.Connects config) (now : Nat) :
    (s.popDeadline now).Connects config := by
  unfold popDeadline
  split
  · split
    · exact hs
    · unfold delayFired
      split
      · next slot hlive =>
        apply SlotLoop.Connects.live
        exact live_eq_some.mpr ⟨rfl, (live_eq_some.mp hlive).2⟩
      · exact hs
  · exact hs

/-- What a slot does keeps its wire in shape. -/
theorem sends_moves (behaved : driver.socket.WellBehaved accepted) {wire : WireHistory}
    {action : Action ε σ} (hs : Sends driver accepted s wire.base wire.mine)
    (hconnects : s.Connects driver.config) (h : Moves driver s action t) :
    t.Connects driver.config ∧ Sends driver accepted t
      (wire.follow driver accepted s t action).base (wire.follow driver accepted s t action).mine := by
  cases h with
  | ready r _ hready => exact ⟨ready_connects hconnects hready, sends_ready behaved hs hconnects hready⟩
  | timer now => exact ⟨hconnects.timer now, hs.timer now⟩
  | elsewhere thread => exact ⟨hconnects, hs.elsewhere thread⟩

/-- The history of a wire ends with the requests generated last for its slot. -/
theorem follow_own {wire : WireHistory} {own : List Bytes} (h : wire.mine <:+ own)
    (action : Action ε σ) :
    (wire.follow driver accepted s t action).mine <:+ own ++ s.requested driver action := by
  cases action with
  | ready r =>
    unfold WireHistory.follow WireHistory.after SlotLoop.requested
    cases hslot : s.slot.filter fun slot => slot.connecting with
    | some slot =>
      obtain ⟨hslot, hconnecting⟩ := Option.filter_eq_some_iff.mp hslot
      have hnone : s.generated driver r = [] := by
        unfold SlotLoop.generated
        rw [SlotLoop.live_connecting hslot hconnecting]
      dsimp only
      rw [hnone, List.append_nil]
      split
      · exact List.nil_suffix
      · exact h
    | none =>
      obtain ⟨before, rfl⟩ := h
      exact ⟨before, (List.append_assoc _ _ _).symm⟩
  | timer now =>
    unfold SlotLoop.requested
    rw [List.append_nil]
    exact h
  | elsewhere thread =>
    unfold SlotLoop.requested
    rw [List.append_nil]
    exact h

end Sending

/-- A worker with the requests that its script has generated, in order and each with the slot
that it was for, and the history of every wire. -/
structure Wired (ε σ : Type) where
  worker : Worker ε σ
  log : List (Nat × Bytes)
  wires : Nat → WireHistory

def requestsOf (index : Nat) (log : List (Nat × Bytes)) : List Bytes :=
  log.filterMap fun entry => if entry.1 = index then some entry.2 else none

theorem requestsOf_map (index other : Nat) (requests : List Bytes) :
    requestsOf index (requests.map fun request => (other, request)) =
      if other = index then requests else [] := by
  induction requests with
  | nil => cases Decidable.em (other = index) <;> simp [*, requestsOf]
  | cons request requests ih =>
    unfold requestsOf at ih ⊢
    rw [List.map_cons, List.filterMap_cons, ih]
    by_cases hown : other = index
    · rw [if_pos hown, if_pos hown, if_pos hown]
    · rw [if_neg hown, if_neg hown, if_neg hown]

namespace Wired

variable {driver : Driver ε σ} {accepted : σ → Bytes} {u v : Wired ε σ} {a : Happening ε σ}

def logged (driver : Driver ε σ) (w : Worker ε σ) : Happening ε σ → List (Nat × Bytes)
  | .ready index r =>
    ((w.slotLoop index).generated driver r).map fun request => (index, request)
  | .fires _ _ | .shared _ => []

inductive Step (driver : Driver ε σ) (accepted : σ → Bytes) :
    Wired ε σ → Happening ε σ → Wired ε σ → Prop where
  | mk {u : Wired ε σ} {a : Happening ε σ} {w : Worker ε σ} : u.worker.Happens driver a w →
      Step driver accepted u a
        ⟨w, u.log ++ logged driver u.worker a, fun index =>
          (u.wires index).follow driver accepted (u.worker.slotLoop index) (w.slotLoop index)
            (a.seenBy w.thread index)⟩

def start (config : LoopConfig) (opened : List (Option σ)) (thread : Thread ε) : Wired ε σ where
  worker := .start config opened thread
  log := []
  wires _ := ⟨[], []⟩

def next (driver : Driver ε σ) (accepted : σ → Bytes) (u : Wired ε σ) (index : Nat)
    (r : Readiness σ) : Wired ε σ where
  worker := u.worker.next driver index r
  log := u.log ++ logged driver u.worker (.ready index r)
  wires other := (u.wires other).follow driver accepted (u.worker.slotLoop other)
    ((u.worker.next driver index r).slotLoop other)
    (Happening.seenBy (u.worker.next driver index r).thread other (.ready index r))

theorem next_step {index : Nat} {r : Readiness σ} (hindex : index < u.worker.slots.length)
    (hgate : u.worker.slots[index]?.join.map Slot.interest = some .readableWritable)
    (h : ((u.worker.view index).ready driver r).isOk = true) :
    Step driver accepted u (.ready index r) (u.next driver accepted index r) :=
  .mk (Worker.next_happens hindex (.inr hgate) h)

structure Sound (driver : Driver ε σ) (accepted : σ → Bytes) (u : Wired ε σ) (index : Nat) :
    Prop where
  connects : (u.worker.slotLoop index).Connects driver.config
  sends : Sends driver accepted (u.worker.slotLoop index) (u.wires index).base (u.wires index).mine
  own : (u.wires index).mine <:+ requestsOf index u.log

theorem requestsOf_logged (w : Worker ε σ) (a : Happening ε σ) (thread : Thread ε) (index : Nat) :
    requestsOf index (logged driver w a) =
      (w.slotLoop index).requested driver (a.seenBy thread index) := by
  cases a with
  | ready other r =>
    rw [logged, Happening.seenBy, requestsOf_map]
    by_cases hown : other = index
    · subst hown
      rw [if_pos rfl, if_pos rfl]
      rfl
    · rw [if_neg hown, if_neg hown]
      rfl
  | fires now due =>
    rw [Happening.seenBy]
    split <;> rfl
  | shared thread => rfl

theorem sound_step (behaved : driver.socket.WellBehaved accepted) {index : Nat}
    (hu : u.Sound driver accepted index) (h : Step driver accepted u a v) :
    v.Sound driver accepted index := by
  obtain ⟨hconnects, hsends, hown⟩ := hu
  cases h with
  | @mk w hhappens =>
    obtain ⟨hconnects', hsends'⟩ := sends_moves behaved hsends hconnects (hhappens.moves index)
    refine ⟨hconnects', hsends', ?_⟩
    have hlog : requestsOf index (u.log ++ logged driver u.worker a) =
        requestsOf index u.log ++ requestsOf index (logged driver u.worker a) :=
      List.filterMap_append
    rw [hlog, requestsOf_logged _ _ w.thread]
    exact follow_own hown _

/-- Over every run of a worker with a well-behaved socket, a live connection has put on its
wire, since it came up, whole requests and a front part of its current one: the static
request, or the last ones that the script generated for this slot, in order and each at most
once. None of them was generated for another connection. -/
theorem requests_apart (behaved : driver.socket.WellBehaved accepted)
    (opened : List (Option σ)) (thread : Thread ε) (as : List (Happening ε σ)) (u : Wired ε σ)
    (h : Run (Step driver accepted) (start driver.config opened thread) as u) (index : Nat)
    (slot : Slot σ) (hlive : (u.worker.slotLoop index).live = some slot) :
    (∃ after, accepted slot.stream = (u.wires index).base ++ after ∧
      OnWire driver.staticRequest (u.wires index).mine after
        (slot.endpoint u.worker.thread driver.config)) ∧
      (u.wires index).mine <:+ requestsOf index u.log := by
  have hsound : u.Sound driver accepted index := by
    apply h.history (I := fun _ u => u.Sound driver accepted index)
    · refine ⟨start_connects _ _ _ index, sends_gone (start_gone _ _ _ index), ?_⟩
      exact List.nil_suffix
    · intro _ u a v hu _ hstep
      exact sound_step behaved hu hstep
  exact ⟨hsound.sends slot hlive, hsound.own⟩

def countEngine : ScriptEngine Nat where
  delay n := (0, n)
  request n := (.ok [UInt8.ofNat n], n + 1)
  response n _ _ _ := (.ok (), n)

def countDriver : Driver Nat (List Bytes × Bytes) where
  config := ⟨none, 1, true, false, false⟩
  build := .release
  parse := reference
  engine := countEngine
  socket := queueSocket

def countStart : Wired Nat (List Bytes × Bytes) :=
  start countDriver.config [some ([], []), some ([], [])] ⟨.new 10, ⟨0, 0, 0, ⟨0, 0, 0, 0, 0⟩⟩, 0⟩

def countNext (u : Wired Nat (List Bytes × Bytes)) (index : Nat) :
    Wired Nat (List Bytes × Bytes) :=
  u.next countDriver (·.2) index (readiness [] false true)

theorem count_step (u : Wired Nat (List Bytes × Bytes)) (index : Nat)
    (hindex : index < u.worker.slots.length)
    (hgate : u.worker.slots[index]?.join.map Slot.interest = some .readableWritable)
    (h : ((u.worker.view index).ready countDriver (readiness [] false true)).isOk = true) :
    Step countDriver (·.2) u (.ready index (readiness [] false true)) (countNext u index) :=
  next_step hindex hgate h

def countRun : Wired Nat (List Bytes × Bytes) := [0, 1, 1, 0].foldl countNext countStart

theorem requests_apart_sample :
    ∃ slot after, (countRun.worker.slotLoop 0).live = some slot ∧
      countRun.log = [(1, [0]), (0, [1])] ∧ slot.stream.2 = (countRun.wires 0).base ++ after ∧
      OnWire countDriver.staticRequest (countRun.wires 0).mine after
        (slot.endpoint countRun.worker.thread countDriver.config) ∧
      (countRun.wires 0).mine <:+ requestsOf 0 countRun.log := by
  have hstart : Run (Step countDriver (·.2)) countStart [] countStart := .refl _
  have hfirst := hstart.tail (count_step countStart 0 (by decide) rfl rfl)
  have hsecond := hfirst.tail (count_step _ 1 (by decide) rfl rfl)
  have hwrites := hsecond.tail (count_step _ 1 (by decide) rfl rfl)
  have hlast := hwrites.tail (count_step _ 0 (by decide) rfl rfl)
  obtain ⟨⟨after, hafter, hwire⟩, hown⟩ :=
    requests_apart queueSocket_behaved _ _ _ countRun hlast 0 _ rfl
  exact ⟨_, after, rfl, rfl, hafter, hwire, hown⟩

end Wired

end Wrkrs
