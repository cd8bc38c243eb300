import Wrkrs.EventLoopStalls
import Wrkrs.LoopSchedule

/-!
# The slots of a worker

A loop over many slots is, to each of them, the loop of that slot alone: its own events and
deadlines move it, and what happens to the other slots changes only what they all share.
-/

namespace Wrkrs

set_option autoImplicit false
set_option maxRecDepth 4096

open Text Machine Runs Parallel

variable {ε σ : Type}

namespace SlotLoop

variable {driver : Driver ε σ} (s : SlotLoop ε σ) (r : Readiness σ) (later : List Nat)

def waiting : SlotLoop ε σ := { s with deadlines := s.deadlines ++ later }

theorem connectSlot_waiting (config : LoopConfig) (opened : Option σ) :
    (s.waiting later).connectSlot config opened = (s.connectSlot config opened).waiting later := by
  cases opened <;> rfl

theorem fire_waiting (writable : Bool) :
    (s.waiting later).fire driver r writable =
      (s.fire driver r writable).map fun fired => (fired.1, fired.2.waiting later) := by
  unfold fire
  cases hslot : s.slot with
  | none =>
    have hslot' : (s.waiting later).slot = none := hslot
    rw [hslot']
    rfl
  | some slot =>
    have hslot' : (s.waiting later).slot = some slot := hslot
    have hthread : (s.waiting later).thread = s.thread := rfl
    rw [hslot', hthread]
    dsimp only
    split <;> rfl

theorem apply_waiting (config : LoopConfig) (opened : Option σ) (reaction : Reaction) :
    (s.waiting later).apply config opened reaction =
      (s.apply config opened reaction).map (waiting · later) := by
  cases reaction with
  | interest i => rfl
  | reconnect =>
    change Except.ok ((s.closeSlot.waiting later).connectSlot config opened) = _
    rw [connectSlot_waiting]
    rfl
  | delay millis => rfl
  | fatal message => rfl
  | nothing => rfl

theorem attempted_waiting (config : LoopConfig) (slot : Slot σ) (attempt : Attempt σ) :
    (s.waiting later).attempted config slot attempt =
      (s.attempted config slot attempt).map (waiting · later) := by
  cases attempt with
  | refused reopened =>
    change Except.ok (({ s with thread := s.thread.failConnect }.closeSlot.waiting
      later).connectSlot config reopened) = _
    rw [connectSlot_waiting]
    rfl
  | failed reopened =>
    change Except.ok (({ s with thread := s.thread.failConnect }.closeSlot.waiting
      later).connectSlot config reopened) = _
    rw [connectSlot_waiting]
    rfl
  | handshaking stream => rfl
  | up stream => rfl

theorem readablePart_waiting :
    (s.waiting later).readablePart driver r =
      (s.readablePart driver r).map (waiting · later) := by
  unfold readablePart
  by_cases hreadable : r.readable = true
  · rw [if_pos hreadable, if_pos hreadable, fire_waiting]
    cases s.fire driver r false with
    | error halt => rfl
    | ok fired => exact apply_waiting fired.2 later _ _ fired.1
  · rw [if_neg hreadable, if_neg hreadable]
    rfl

theorem writablePart_waiting :
    (s.waiting later).writablePart driver r =
      (s.writablePart driver r).map (waiting · later) := by
  unfold writablePart
  change (if r.writable ∧ s.live.isSome then _ else _) = _
  by_cases hwritable : r.writable = true ∧ s.live.isSome = true
  · rw [if_pos hwritable, if_pos hwritable, fire_waiting]
    cases s.fire driver r true with
    | error halt => rfl
    | ok fired =>
      obtain ⟨reaction, t⟩ := fired
      cases reaction with
      | delay millis => rfl
      | interest i => rfl
      | reconnect => exact apply_waiting t later driver.config r.reopened .reconnect
      | fatal message => rfl
      | nothing => rfl
  · rw [if_neg hwritable, if_neg hwritable]
    rfl

theorem ready_waiting :
    (s.waiting later).ready driver r = (s.ready driver r).map (waiting · later) := by
  have hslot : (s.waiting later).slot = s.slot := rfl
  unfold ready
  rw [hslot]
  cases s.slot.filter fun slot => slot.connecting with
  | some slot => exact attempted_waiting s later _ slot r.attempt
  | none =>
    dsimp only
    rw [readablePart_waiting]
    cases s.readablePart driver r with
    | error halt => rfl
    | ok m => exact writablePart_waiting m r later

theorem delayFired_waiting : (s.waiting later).delayFired = s.delayFired.waiting later := by
  have hlive : (s.waiting later).live = s.live := rfl
  unfold delayFired
  rw [hlive]
  cases s.live <;> rfl

end SlotLoop

def deadlinesOf (index : Nat) (deadlines : List (Nat × Nat)) : List Nat :=
  (deadlines.filter fun due => due.2 == index).map Prod.fst

section Deadlines
variable {index : Nat} {deadlines : List (Nat × Nat)} {due : Nat × Nat}

theorem deadlinesOf_cons :
    deadlinesOf index (due :: deadlines) =
      if due.2 = index then due.1 :: deadlinesOf index deadlines
      else deadlinesOf index deadlines := by
  unfold deadlinesOf
  rw [List.filter_cons]
  by_cases hown : due.2 = index
  · rw [if_pos (beq_iff_eq.mpr hown), if_pos hown, List.map_cons]
  · rw [if_neg (mt beq_iff_eq.mp hown), if_neg hown]

theorem mem_deadlinesOf {at' : Nat} :
    at' ∈ deadlinesOf index deadlines ↔ (at', index) ∈ deadlines := by
  unfold deadlinesOf
  rw [List.mem_map]
  constructor
  · intro h
    obtain ⟨due, hdue, rfl⟩ := h
    obtain ⟨hmem, hown⟩ := List.mem_filter.mp hdue
    rw [← beq_iff_eq.mp hown]
    exact hmem
  · intro h
    exact ⟨_, List.mem_filter.mpr ⟨h, beq_iff_eq.mpr rfl⟩, rfl⟩

theorem deadlinesOf_put (other : Nat) (added : List Nat) :
    deadlinesOf index (added.map (fun due => (due, other)) ++ deadlines) =
      (if other = index then added else []) ++ deadlinesOf index deadlines := by
  induction added with
  | nil => cases Decidable.em (other = index) <;> simp [*]
  | cons due added ih =>
    rw [List.map_cons, List.cons_append, deadlinesOf_cons, ih]
    by_cases hown : other = index
    · rw [if_pos hown, if_pos hown, if_pos hown, List.cons_append]
    · rw [if_neg hown, if_neg hown, if_neg hown]

theorem deadlinesOf_erase :
    deadlinesOf index (deadlines.erase due) =
      if due.2 = index then (deadlinesOf index deadlines).erase due.1
      else deadlinesOf index deadlines := by
  induction deadlines with
  | nil => cases Decidable.em (due.2 = index) <;> simp [*, deadlinesOf]
  | cons first rest ih =>
    by_cases hfirst : first = due
    · subst hfirst
      rw [List.erase_cons_head, deadlinesOf_cons]
      split
      · rw [List.erase_cons_head]
      · rfl
    · rw [List.erase_cons_tail (mt beq_iff_eq.mp hfirst), deadlinesOf_cons, deadlinesOf_cons, ih]
      by_cases hown : due.2 = index
      · rw [if_pos hown, if_pos hown]
        split
        · next hsame =>
          have hne : first.1 ≠ due.1 := fun h => hfirst (Prod.ext h (hsame.trans hown.symm))
          rw [List.erase_cons_tail (mt beq_iff_eq.mp hne)]
        · rfl
      · rw [if_neg hown, if_neg hown]

end Deadlines

namespace Worker

variable {driver : Driver ε σ} {w v : Worker ε σ} {index other : Nat}

def slotLoop (w : Worker ε σ) (index : Nat) : SlotLoop ε σ :=
  ⟨w.slots[index]?.join, deadlinesOf index w.deadlines, w.thread⟩

theorem slotLoop_view (w : Worker ε σ) (index : Nat) :
    w.slotLoop index = (w.view index).waiting (deadlinesOf index w.deadlines) := rfl

theorem slotLoop_put (s : SlotLoop ε σ) (h : index < w.slots.length) :
    (w.put index s).slotLoop index = s.waiting (deadlinesOf index w.deadlines) := by
  unfold slotLoop put SlotLoop.waiting
  rw [deadlinesOf_put, if_pos rfl]
  dsimp only
  rw [List.getElem?_set_self h, Option.join_some]

theorem slotLoop_put_ne (s : SlotLoop ε σ) (h : other ≠ index) :
    (w.put other s).slotLoop index = { w.slotLoop index with thread := s.thread } := by
  unfold slotLoop put
  rw [deadlinesOf_put, if_neg h, List.nil_append]
  dsimp only
  rw [List.getElem?_set_ne h]

end Worker

/-- A readiness event of a slot, a deadline that fires, or a change of what is shared. -/
inductive Happening (ε σ : Type) where
  | ready (index : Nat) (r : Readiness σ)
  | fires (now : Nat) (due : Nat × Nat)
  | shared (thread : Thread ε)

/-- What it is to a slot, with what is shared after it. -/
def Happening.seenBy (thread : Thread ε) (index : Nat) : Happening ε σ → Action ε σ
  | .ready other r => if other = index then .ready r else .elsewhere thread
  | .fires now due => if due.2 = index then .timer now else .elsewhere thread
  | .shared _ => .elsewhere thread

/-- Slots get ready for what they are registered for, and the earliest deadline fires once it
is due. -/
inductive Worker.Happens (driver : Driver ε σ) :
    Worker ε σ → Happening ε σ → Worker ε σ → Prop where
  | ready {w : Worker ε σ} {s : SlotLoop ε σ} (index : Nat) (r : Readiness σ) :
      index < w.slots.length →
      (r.writable = true → ∀ slot, w.slots[index]?.join = some slot →
        slot.interest = .readableWritable) →
      (w.view index).ready driver r = .ok s → Happens driver w (.ready index r) (w.put index s)
  | fires {w : Worker ε σ} (now : Nat) (due : Nat × Nat) : due ∈ w.deadlines →
      (∀ other ∈ w.deadlines, due.1 ≤ other.1) → due.1 ≤ now → due.2 < w.slots.length →
      Happens driver w (.fires now due) ({ w with deadlines := w.deadlines.erase due }.put due.2
        (w.view due.2).delayFired)
  | shared (w : Worker ε σ) (thread : Thread ε) :
      Happens driver w (.shared thread) { w with thread := thread }

theorem Worker.next_happens {driver : Driver ε σ} {w : Worker ε σ} {index : Nat}
    {r : Readiness σ} (hindex : index < w.slots.length)
    (hgate : r.writable = false ∨
      w.slots[index]?.join.map Slot.interest = some .readableWritable)
    (h : ((w.view index).ready driver r).isOk = true) :
    Happens driver w (.ready index r) (w.next driver index r) := by
  have hregistered : r.writable = true → ∀ slot, w.slots[index]?.join = some slot →
      slot.interest = .readableWritable := by
    intro hwritable slot hslot
    rcases hgate with hoff | hinterest
    · rw [hoff] at hwritable
      cases hwritable
    · rw [hslot] at hinterest
      exact Option.some.inj hinterest
  unfold next
  cases hready : (w.view index).ready driver r with
  | error halt =>
    rw [hready] at h
    cases h
  | ok s => exact .ready index r hindex hregistered hready

/-- A deadline that fires in the heap is the earliest of its slot. -/
theorem popDeadline_fires {w : Worker ε σ} {now : Nat} {due : Nat × Nat}
    (hmem : due ∈ w.deadlines) (hleast : ∀ other ∈ w.deadlines, due.1 ≤ other.1)
    (hdue : due.1 ≤ now) (hindex : due.2 < w.slots.length) :
    ({ w with deadlines := w.deadlines.erase due }.put due.2
      (w.view due.2).delayFired).slotLoop due.2 = (w.slotLoop due.2).popDeadline now := by
  have hmin : (w.slotLoop due.2).deadlines.min? = some due.1 := by
    apply List.min?_eq_some_iff.mpr
    refine ⟨mem_deadlinesOf.mpr hmem, ?_⟩
    intro at' hat
    exact hleast _ (mem_deadlinesOf.mp hat)
  have herased : due.2 < (Worker.slots { w with deadlines := w.deadlines.erase due }).length :=
    hindex
  rw [Worker.slotLoop_put _ herased, deadlinesOf_erase, if_pos rfl, SlotLoop.popDeadline, hmin]
  dsimp only
  rw [if_neg (Nat.not_lt.mpr hdue), ← SlotLoop.delayFired_waiting]
  rfl

/-- Whatever happens to a worker happens to each of its slots as to a slot alone. -/
theorem Worker.Happens.moves {driver : Driver ε σ} {w v : Worker ε σ} {a : Happening ε σ}
    (h : Happens driver w a v) (index : Nat) :
    Moves driver (w.slotLoop index) (a.seenBy v.thread index) (v.slotLoop index) := by
  cases h with
  | @ready s other r hlt hregistered hready =>
    by_cases hown : other = index
    · subst hown
      rw [Happening.seenBy, if_pos rfl, slotLoop_put s hlt]
      refine .ready r hregistered ?_
      rw [slotLoop_view, SlotLoop.ready_waiting, hready]
      rfl
    · rw [Happening.seenBy, if_neg hown, slotLoop_put_ne s hown]
      exact .elsewhere _ s.thread
  | @fires now due hmem hleast hdue hindex =>
    by_cases hown : due.2 = index
    · subst hown
      rw [Happening.seenBy, if_pos rfl, popDeadline_fires hmem hleast hdue hindex]
      exact .timer _ now
    · rw [Happening.seenBy, if_neg hown, slotLoop_put_ne _ hown]
      have hdeadlines : deadlinesOf index (w.deadlines.erase due) =
          deadlinesOf index w.deadlines := by
        rw [deadlinesOf_erase, if_neg hown]
      have hsame : slotLoop { w with deadlines := w.deadlines.erase due } index =
          w.slotLoop index := by
        unfold slotLoop
        rw [hdeadlines]
      rw [hsame]
      exact .elsewhere _ _
  | shared thread => exact .elsewhere _ thread

/-- A poll reports a token once, and writable only with that interest registered. -/
structure Worker.Reports (w : Worker ε σ) (events : List (Nat × Readiness σ)) : Prop where
  once : (events.map Prod.fst).Nodup
  registered : ∀ event ∈ events, event.2.writable = true →
    ∀ slot, w.slots[event.1]?.join = some slot → slot.interest = .readableWritable

def LoopState.Reported (t : LoopState ε σ) : Prop :=
  ∀ events, t.stage = .handles events → t.worker.Reports events

def Polled (s u : Shared × LoopState ε σ) : Prop :=
  s.2.stage = .polls → ∀ events, u.2.stage = .handles events → s.2.worker.Reports events

/-- A run of a loop among others whose polls report what is registered. -/
abbrev Reporting (b : Bench ε σ) : Shared × LoopState ε σ → List (Option (Deed ε σ)) →
    Shared × LoopState ε σ → Prop :=
  Run fun s a u => Seen (Takes b) Meanwhile s a u ∧ Polled s u

section Loops
variable {b : Bench ε σ} {g g' : Shared} {t t' : LoopState ε σ} {deed : Deed ε σ}

theorem Worker.Reports.rest {w : Worker ε σ} {index : Nat} {r : Readiness σ}
    {rest : List (Nat × Readiness σ)} (h : w.Reports ((index, r) :: rest)) (s : SlotLoop ε σ) :
    w.Reports rest ∧ (w.put index s).Reports rest := by
  obtain ⟨honce, hregistered⟩ := h
  obtain ⟨hother, honce⟩ := List.nodup_cons.mp honce
  refine ⟨⟨honce, fun event hmem => hregistered event (List.mem_cons_of_mem _ hmem)⟩, honce, ?_⟩
  intro event hmem
  have hne : index ≠ event.1 := by
    intro hsame
    apply hother
    rw [hsame]
    exact List.mem_map.mpr ⟨event, hmem, rfl⟩
  have hslot : (w.put index s).slots[event.1]? = w.slots[event.1]? := List.getElem?_set_ne hne
  rw [hslot]
  exact hregistered event (List.mem_cons_of_mem _ hmem)

theorem Worker.Reports.sharing {w : Worker ε σ} {events : List (Nat × Readiness σ)}
    (h : w.Reports events) (g : Shared) : (w.sharing g).Reports events := ⟨h.once, h.registered⟩

theorem Advances.reported (h : Advances b g t deed g' t') (ht : t.Reported)
    (hpolled : Polled (g, t) (g', t')) : t'.Reported := by
  intro events hevents
  cases h with
  | polls now reported hstage => exact hpolled hstage events hevents
  | @skips index r rest hstage hindex =>
    obtain rfl := LoopStage.handles.inj hevents
    exact ((ht _ hstage).rest (t.worker.view index)).1
  | @handles index r rest s hstage hindex hready =>
    obtain rfl := LoopStage.handles.inj hevents
    exact ((ht _ hstage).rest s).2
  | handled hstage => cases hevents
  | fires hstage hearliest hdue hindex => cases hstage.symm.trans hevents
  | rests now hstage hlater => cases hevents
  | ticks o hstage hdue =>
    rw [tick_stage hdue] at hevents
    split at hevents <;> cases hevents
  | early hstage hearly => cases hevents
  | checks hstage =>
    have hchecks : (t.check b).stage = if t.stopped b then .ended else .polls := rfl
    rw [hchecks] at hevents
    split at hevents <;> cases hevents

/-- A step of the loop makes at most one thing happen to its worker. -/
theorem Advances.happens (h : Advances b g t deed g' t') (ht : t.Reported) :
    ∃ happenings, Run (Worker.Happens b.driver) t.worker happenings t'.worker := by
  cases h with
  | polls now events hstage => exact ⟨[], .refl _⟩
  | skips hstage hindex => exact ⟨[], .refl _⟩
  | @handles index r rest s hstage hindex hready =>
    have hregistered := (ht _ hstage).registered (index, r) List.mem_cons_self
    exact ⟨_, (Run.refl _).tail (.ready index r hindex hregistered hready)⟩
  | handled hstage => exact ⟨[], .refl _⟩
  | @fires now due hstage hearliest hdue hindex =>
    obtain ⟨hmem, hleast⟩ := earliest_some hearliest
    exact ⟨_, (Run.refl _).tail (.fires now due hmem hleast hdue hindex)⟩
  | rests now hstage hlater => exact ⟨[], .refl _⟩
  | ticks o hstage hdue =>
    dsimp only [LoopState.tick, LoopState.recordRate]
    rw [if_pos hdue]
    split
    · exact ⟨_, (Run.refl _).tail (.shared _ t.worker.thread.recordRate)⟩
    · exact ⟨[], .refl _⟩
  | early hstage hearly => exact ⟨[], .refl _⟩
  | checks hstage => exact ⟨[], .refl _⟩

theorem reporting_happens {as : List (Option (Deed ε σ))} {s u : Shared × LoopState ε σ}
    (h : Reporting b s as u) (hs : s.2.Reported) :
    ∃ happenings, Run (Worker.Happens b.driver) s.2.worker happenings u.2.worker := by
  obtain ⟨happenings, v, hrun, rfl, -⟩ := h.simulated (T := Worker.Happens b.driver)
    (R := fun (u : Shared × LoopState ε σ) v => v = u.2.worker ∧ u.2.Reported) ⟨rfl, hs⟩
    (by
      intro as s a u v hv _ hstep
      obtain ⟨rfl, hs⟩ := hv
      obtain ⟨hseen, hpolled⟩ := hstep
      cases hseen with
      | other d _ => exact ⟨[], _, .refl _, rfl, hs⟩
      | outside d _ => exact ⟨[], _, .refl _, rfl, hs⟩
      | @own g g' t t' deed htakes =>
        have hshared : (t.sharing g).Reported := fun events hevents =>
          (hs events hevents).sharing g
        have hreports : Polled (g, t.sharing g) (g', t') := fun hpolls events hevents =>
          (hpolled hpolls events hevents).sharing g
        obtain ⟨happenings, hrun⟩ := Advances.happens htakes hshared
        have hfirst : Run (Worker.Happens b.driver) t.worker _ (t.sharing g).worker :=
          (Run.refl _).tail (.shared _ (t.worker.sharing g).thread)
        exact ⟨_, _, hfirst.append hrun, rfl, Advances.reported htakes hshared hreports⟩)
  exact ⟨happenings, hrun⟩

end Loops

def LoopConfig.opens (config : LoopConfig) (stream : σ) : Slot σ :=
  ⟨stream, config.connection true, true, .readableWritable⟩

theorem start_slots (config : LoopConfig) (opened : List (Option σ)) (thread : Thread ε) :
    (Worker.start config opened thread).slots = opened.map (Option.map config.opens) := by
  have hconnects : ∀ w : Worker ε σ,
      (opened.foldl (fun w stream => w.connect config stream) w).slots =
        w.slots ++ opened.map (Option.map config.opens) := by
    induction opened with
    | nil =>
      intro w
      exact (List.append_nil _).symm
    | cons stream opened ih =>
      intro w
      have hone : (w.connect config stream).slots = w.slots ++ [stream.map config.opens] := by
        cases stream <;> rfl
      rw [List.foldl_cons, ih, hone, List.append_assoc]
      rfl
  exact hconnects ⟨[], [], thread⟩

theorem start_slot (config : LoopConfig) (opened : List (Option σ)) (thread : Thread ε)
    (index : Nat) : ((Worker.start config opened thread).slotLoop index).slot =
      opened[index]?.join.map config.opens := by
  change (Worker.start config opened thread).slots[index]?.join = _
  rw [start_slots, List.getElem?_map]
  cases opened[index]? with
  | none => rfl
  | some stream => cases stream <;> rfl

theorem start_gone (config : LoopConfig) (opened : List (Option σ)) (thread : Thread ε)
    (index : Nat) : ((Worker.start config opened thread).slotLoop index).live = none := by
  unfold SlotLoop.live
  rw [start_slot]
  cases opened[index]?.join <;> rfl

end Wrkrs
