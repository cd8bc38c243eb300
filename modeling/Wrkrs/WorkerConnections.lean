import Wrkrs.EventLoopBursts
import Wrkrs.WorkerSlots

/-!
# The connections of a worker

A worker whose slots are all watched: what holds of a watched slot in every run holds of every
slot of a worker, and the loop of a thread is such a run.
-/

namespace Wrkrs

set_option autoImplicit false
set_option maxRecDepth 4096

open Text Machine Runs

variable {ε σ : Type}

structure Watch (ε σ : Type) where
  worker : Worker ε σ
  seen : Nat → Watched ε σ

namespace Watch

variable {driver : Driver ε σ} {u v : Watch ε σ} {a : Happening ε σ}

def after (driver : Driver ε σ) (u : Watch ε σ) (a : Happening ε σ) (w : Worker ε σ) :
    Watch ε σ where
  worker := w
  seen index := (u.seen index).observe driver (w.slotLoop index) (a.seenBy w.thread index)

inductive Step (driver : Driver ε σ) : Watch ε σ → Happening ε σ → Watch ε σ → Prop where
  | mk {u : Watch ε σ} {a : Happening ε σ} {w : Worker ε σ} :
      u.worker.Happens driver a w → Step driver u a (u.after driver a w)

def start (config : LoopConfig) (opened : List (Option σ)) (thread : Thread ε) : Watch ε σ where
  worker := .start config opened thread
  seen index := ⟨(Worker.start config opened thread).slotLoop index, .nothing, 0, []⟩

def Faithful (u : Watch ε σ) : Prop := ∀ index, (u.seen index).loop = u.worker.slotLoop index

theorem observe_loop {w : Watched ε σ} {action : Action ε σ} {t : SlotLoop ε σ} :
    (w.observe driver t action).loop = t := by
  unfold Watched.observe
  split
  · split
    · rfl
    · split
      · exact Watched.afterWritable_loop
      · rfl
  · rfl
  · rfl

theorem Step.faithful (h : Step driver u a v) : v.Faithful := by
  cases h
  intro index
  exact observe_loop

/-- A step of the worker is one that every slot takes alone. -/
theorem Step.sees (h : Step driver u a v) (hu : u.Faithful) (index : Nat) :
    Watched.Step driver (u.seen index) (a.seenBy v.worker.thread index) (v.seen index) := by
  cases h with
  | mk hhappens =>
    have hmoves := hhappens.moves index
    rw [← hu index] at hmoves
    exact .mk hmoves

theorem faithful_run {Guard : List (Happening ε σ) → Watch ε σ → Happening ε σ → Prop}
    {as : List (Happening ε σ)} (h : RunWhile Guard (Step driver) u as v) (hu : u.Faithful) :
    v.Faithful := h.history (I := fun _ u => u.Faithful) hu fun _ _ hstep => hstep.faithful

theorem start_faithful (config : LoopConfig) (opened : List (Option σ)) (thread : Thread ε) :
    (start config opened thread).Faithful := fun _ => rfl

/-- Whatever happens to a worker can be watched. -/
theorem watches {as : List (Happening ε σ)} {w : Worker ε σ}
    (h : Run (Worker.Happens driver) u.worker as w) :
    ∃ v, Run (Step driver) u as v ∧ v.worker = w := by
  induction h with
  | refl => exact ⟨u, .refl u, rfl⟩
  | tail _ _ hlast ih =>
    obtain ⟨v, hrun, rfl⟩ := ih
    exact ⟨_, hrun.tail (.mk hlast), rfl⟩

def next (driver : Driver ε σ) (u : Watch ε σ) (index : Nat) (r : Readiness σ) : Watch ε σ :=
  u.after driver (.ready index r) (u.worker.next driver index r)

theorem next_step {index : Nat} {r : Readiness σ} (hindex : index < u.worker.slots.length)
    (hgate : r.writable = false ∨
      u.worker.slots[index]?.join.map Slot.interest = some .readableWritable)
    (h : ((u.worker.view index).ready driver r).isOk = true) :
    Step driver u (.ready index r) (u.next driver index r) :=
  .mk (Worker.next_happens hindex hgate h)

def fired (driver : Driver ε σ) (u : Watch ε σ) (now : Nat) (due : Nat × Nat) : Watch ε σ :=
  u.after driver (.fires now due) (Worker.put
    { u.worker with deadlines := u.worker.deadlines.erase due } due.2
    (u.worker.view due.2).delayFired)

theorem fired_step {now : Nat} {due : Nat × Nat} (hmem : due ∈ u.worker.deadlines)
    (hleast : ∀ other ∈ u.worker.deadlines, due.1 ≤ other.1) (hdue : due.1 ≤ now)
    (hindex : due.2 < u.worker.slots.length) :
    Step driver u (.fires now due) (u.fired driver now due) :=
  .mk (.fires now due hmem hleast hdue hindex)

end Watch

theorem start_sees (driver : Driver ε σ) (opened : List (Option σ)) (thread : Thread ε)
    (index : Nat) :
    Watched.Step driver (.start driver.config opened[index]?.join thread)
      (.elsewhere (Worker.start driver.config opened thread).thread)
      ((Watch.start driver.config opened thread).seen index) := by
  have hslot : (Worker.start driver.config opened thread).slots[index]?.join =
      (Watched.start driver.config opened[index]?.join thread).loop.slot := by
    rw [start_slots, List.getElem?_map]
    cases opened[index]? with
    | none => rfl
    | some stream => cases stream <;> rfl
  have hdeadlines : (Watched.start driver.config opened[index]?.join thread).loop.deadlines = [] :=
    SlotLoop.connectSlot_deadlines _ _
  have hloop : (Worker.start driver.config opened thread).slotLoop index =
      { (Watched.start driver.config opened[index]?.join thread).loop with
        thread := (Worker.start driver.config opened thread).thread } := by
    rw [Worker.slotLoop, (start_worker driver.config opened thread).1, hslot]
    dsimp only
    rw [hdeadlines]
    rfl
  have hmoves : Moves driver (Watched.start driver.config opened[index]?.join thread).loop
      (.elsewhere (Worker.start driver.config opened thread).thread)
      ((Worker.start driver.config opened thread).slotLoop index) := by
    rw [hloop]
    exact .elsewhere _ _
  exact .mk hmoves

section Connections
variable {b : Bench ε σ} {g g' : Shared} {t' : LoopState ε σ}

/-- In every run of a loop among others whose polls report what is registered, each slot has
been a slot alone: its part of the worker is the end of a run of the loop of one slot. -/
theorem slots_alone {opened : List (Option σ)} {thread : Thread ε} {now began : Nat}
    {as : List (Option (Deed ε σ))}
    (h : Reporting b (g, .start b.driver.config opened thread now began) as (g', t'))
    (index : Nat) :
    ∃ actions w, Run (Watched.Step b.driver)
        (.start b.driver.config opened[index]?.join thread) actions w ∧
      w.loop = t'.worker.slotLoop index := by
  have hpolls : (LoopState.start b.driver.config opened thread now began).Reported :=
    fun _ hevents => nomatch hevents
  obtain ⟨happenings, hrun⟩ := reporting_happens h hpolls
  obtain ⟨v, hwatched, hworker⟩ := Watch.watches
    (u := .start b.driver.config opened thread) hrun
  have hstart := Watch.start_faithful b.driver.config opened thread
  obtain ⟨actions, w, halone, hw⟩ := hwatched.simulated (T := Watched.Step b.driver)
    (R := fun u w => u.Faithful ∧ w = u.seen index) ⟨hstart, rfl⟩
    (by
      intro _ u a v w hw _ hstep
      obtain ⟨hu, rfl⟩ := hw
      exact ⟨_, _, (Run.refl _).tail (hstep.sees hu index), hstep.faithful, rfl⟩)
  obtain ⟨hfaithful, rfl⟩ := hw
  refine ⟨_, _, ((Run.refl _).tail (start_sees b.driver opened thread index)).append halone, ?_⟩
  rw [hfaithful index, hworker]

end Connections

section Follows
variable {b : Bench ε σ} {o : Outside σ} {s u : Shared × LoopState ε σ}
variable {as : List (Option (Deed ε σ))}

theorem next_polled (h : ∀ events, o.polled = .ok events → u.2.worker.Reports events) :
    Polled u (LoopState.next b o u) := by
  intro hstage events hevents
  apply h
  unfold LoopState.next LoopState.step LoopState.advance at hevents
  have hshared : (u.2.sharing u.1).stage = .polls := hstage
  rw [hshared, hstage] at hevents
  cases hpolled : o.polled with
  | error message =>
    rw [hpolled] at hevents
    cases hstage.symm.trans hevents
  | ok reported =>
    rw [hpolled] at hevents
    cases hevents
    rfl

theorem reporting_next (h : Reporting b s as u)
    (hpoll : u.2.stage ≠ .polls ∨ ∀ events, o.polled = .ok events → u.2.worker.Reports events) :
    ∃ as, Reporting b s as (LoopState.next b o u) := by
  have hpolled : Polled u (LoopState.next b o u) := by
    rcases hpoll with hother | hreports
    · exact fun hstage => absurd hstage hother
    · exact next_polled hreports
  rcases next_takes b o u with hsame | ⟨deed, htakes⟩
  · rw [hsame]
    exact ⟨as, h⟩
  · exact ⟨_, h.tail ⟨.own htakes, hpolled⟩⟩

end Follows

def pairLoop : Shared × LoopState Unit (List Bytes × Bytes) :=
  (⟨.new 10, .new 10, false⟩, .start (delayBench false).driver.config
    [some ([], []), some ([], [])] quietThread 0 0)

def pairPoll : Outside (List Bytes × Bytes) :=
  ⟨.ok [(0, readiness [] false true), (1, readiness [] false true)], 0, 0, 0⟩

theorem pair_reports (events : List (Nat × Readiness (List Bytes × Bytes)))
    (h : pairPoll.polled = .ok events) : pairLoop.2.worker.Reports events := by
  obtain rfl := Except.ok.inj h
  constructor
  · decide
  · intro event hmem _ slot hslot
    rcases List.mem_pair.mp hmem with rfl | rfl
    · cases hslot
      rfl
    · cases hslot
      rfl

theorem slots_alone_sample :
    ∃ actions w, Run (Watched.Step (delayBench false).driver)
        (.start (delayBench false).driver.config (some ([], [])) quietThread) actions w ∧
      w.loop.slot.map Slot.connecting = some false := by
  obtain ⟨as, hpolled⟩ := reporting_next (o := pairPoll) (Run.refl pairLoop) (.inr pair_reports)
  obtain ⟨as, hup⟩ := reporting_next (o := pairPoll) hpolled (.inl fun hstage => nomatch hstage)
  obtain ⟨actions, w, halone, hloop⟩ := slots_alone hup 0
  refine ⟨actions, w, halone, ?_⟩
  rw [hloop]
  rfl

namespace Watch
variable {driver : Driver ε σ} {u v : Watch ε σ} {a : Happening ε σ}

/-- Every live connection with bytes to send will hear of it. -/
def Armed (u : Watch ε σ) : Prop := ∀ index, (u.seen index).Armed

/-- No event that is only readable is quiet while its connection has bytes to send, and none
that is writable ends a burst that the next one is due behind. -/
def Heeds (driver : Driver ε σ) (u : Watch ε σ) : Happening ε σ → Prop
  | .ready index r => (u.seen index).Heeds driver (.ready r)
  | .fires _ _ | .shared _ => True

theorem heeds_seen (h : u.Heeds driver a) (thread : Thread ε) (index : Nat) :
    (u.seen index).Heeds driver (a.seenBy thread index) := by
  cases a with
  | ready other r =>
    by_cases hown : other = index
    · subst hown
      rw [Happening.seenBy, if_pos rfl]
      exact h
    · rw [Happening.seenBy, if_neg hown]
      trivial
  | fires now due =>
    rw [Happening.seenBy]
    split <;> trivial
  | shared thread => trivial

theorem armed_step (harmed : u.Armed) (hu : u.Faithful) (hheeds : u.Heeds driver a)
    (h : Step driver u a v) : v.Armed := by
  intro index
  exact Watched.armed_step (harmed index) (heeds_seen hheeds _ index) (h.sees hu index)

theorem heeds_of_armed (hu : u.Faithful) (h : Step driver u a v) (harmed : v.Armed) :
    u.Heeds driver a := by
  cases a with
  | ready index r =>
    have hsees := h.sees hu index
    rw [Happening.seenBy, if_pos rfl] at hsees
    exact Watched.heeds_of_armed hsees (harmed index)
  | fires now due => trivial
  | shared thread => trivial

/-- A worker leaves all its connections armed in every state of a run exactly when no event of
the run that is only readable is quiet while its connection has bytes to send, and no burst
whose responses all came early is sent to its end. -/
theorem connections_armed_iff (driver : Driver ε σ) (opened : List (Option σ))
    (thread : Thread ε) (as : List (Happening ε σ)) (u : Watch ε σ) :
    RunWhile (fun _ u a => u.Heeds driver a) (Step driver) (start driver.config opened thread)
        as u ↔
      RunWhile (fun _ u _ => u.Armed) (Step driver) (start driver.config opened thread) as u ∧
        u.Armed := by
  have hstart : (start driver.config opened thread).Armed :=
    fun index => Watched.armed_gone (start_gone _ _ _ index)
  have hfaithful := start_faithful driver.config opened thread
  constructor
  · intro h
    induction h with
    | refl => exact ⟨.refl _, hstart⟩
    | tail hbefore hheeds hstep ih =>
      obtain ⟨hrun, harmed⟩ := ih
      exact ⟨hrun.tail harmed hstep,
        armed_step harmed (faithful_run hbefore hfaithful) hheeds hstep⟩
  · intro h
    obtain ⟨h, harmed⟩ := h
    induction h with
    | refl => exact .refl _
    | tail hrun hbefore hstep ih =>
      exact (ih hbefore).tail (heeds_of_armed (faithful_run hrun hfaithful) hstep harmed) hstep

/-- The reads of a connection bring no more responses than its server owes, and no deadline
fires while a whole burst on its connection is unanswered. -/
def Orderly (driver : Driver ε σ) (u : Watch ε σ) : Happening ε σ → Prop
  | .ready index r => (u.seen index).Served driver (.ready r)
  | .fires now due => (u.seen due.2).Undisturbed (.timer now)
  | .shared _ => True

theorem orderly_seen (h : u.Orderly driver a) (thread : Thread ε) (index : Nat) :
    (u.seen index).Served driver (a.seenBy thread index) ∧
      (u.seen index).Undisturbed (a.seenBy thread index) := by
  cases a with
  | ready other r =>
    by_cases hown : other = index
    · subst hown
      rw [Happening.seenBy, if_pos rfl]
      exact ⟨h, trivial⟩
    · rw [Happening.seenBy, if_neg hown]
      exact ⟨trivial, trivial⟩
  | fires now due =>
    by_cases hown : due.2 = index
    · subst hown
      rw [Happening.seenBy, if_pos rfl]
      exact ⟨trivial, h⟩
    · rw [Happening.seenBy, if_neg hown]
      exact ⟨trivial, trivial⟩
  | shared thread => exact ⟨trivial, trivial⟩

/-- Over every connection of a worker, a burst starts only when nothing is outstanding on that
connection. -/
theorem connections_one_burst (driver : Driver ε σ) (opened : List (Option σ))
    (thread : Thread ε) (as : List (Happening ε σ)) (u : Watch ε σ)
    (h : RunWhile (fun _ u a => u.Orderly driver a) (Step driver)
      (start driver.config opened thread) as u) (index : Nat) :
    ∀ count ∈ (u.seen index).starts, count = 0 := by
  have halone : u.Faithful ∧ (u.seen index).Alone := by
    apply h.history (I := fun _ u => u.Faithful ∧ (u.seen index).Alone)
    · refine ⟨start_faithful _ _ _, Watched.settled_gone (start_gone _ _ _ index), ?_⟩
      exact List.forall_mem_nil _
    · intro _ u a v hu hguard hstep
      obtain ⟨hserved, hundisturbed⟩ := orderly_seen hguard v.worker.thread index
      exact ⟨hstep.faithful,
        Watched.alone_step hu.2 hserved hundisturbed (hstep.sees hu.1 index)⟩
  exact halone.2.starts

def pairDelay : Watch Unit (List Bytes × Bytes) :=
  start Watched.delayDriver.config [some ([], []), some ([], [])] quietThread

theorem pair_orderly (u : Watch Unit (List Bytes × Bytes)) :
    u.Orderly Watched.delayDriver (.ready 1 (readiness [] false true)) :=
  Watched.write_served _ []

theorem pair_undisturbed {u : Watch Unit (List Bytes × Bytes)}
    (h : (u.seen 1).outstanding = 0) : u.Orderly Watched.delayDriver (.fires 0 (0, 1)) :=
  Watched.timer_undisturbed h

/-- The second connection comes up, waits for its delay and sends its burst. -/
theorem connections_one_burst_sample :
    ∃ u : Watch Unit (List Bytes × Bytes), (u.seen 1).starts.length = 1 ∧
      ∀ count ∈ (u.seen 1).starts, count = 0 := by
  have hstart : RunWhile (fun _ u a => u.Orderly Watched.delayDriver a)
      (Step Watched.delayDriver) pairDelay [] pairDelay := .refl _
  have hconnect := hstart.tail (pair_orderly _) (next_step (by decide) (.inr rfl) rfl)
  have hwaits := hconnect.tail (pair_orderly _) (next_step (by decide) (.inr rfl) rfl)
  have hfires := hwaits.tail (pair_undisturbed rfl)
    (fired_step (by decide) (by decide) (by decide) (by decide))
  have hburst := hfires.tail (pair_orderly _) (next_step (by decide) (.inr rfl) rfl)
  exact ⟨_, by rfl, connections_one_burst Watched.delayDriver _ _ _ _ hburst 1⟩

end Watch

end Wrkrs
