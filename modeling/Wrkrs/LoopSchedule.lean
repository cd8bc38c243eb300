import Mathlib.Data.List.Induction
import Wrkrs.Library.Parallel
import Wrkrs.Loop

/-!
# When a loop polls, ticks and ends

The loop of a thread among others, over whole runs: its worker runs as a worker alone does,
delays wake only slots of the table, ticks keep to their schedule, and the stop flags end
the loop in time.
-/

namespace Wrkrs

set_option autoImplicit false
set_option maxRecDepth 4096

open Text Machine Runs Parallel

variable {ε σ : Type} {b : Bench ε σ} {g g' : Shared} {t t' : LoopState ε σ} {deed : Deed ε σ}

/-- What others may do meanwhile: nothing lowers the stop flag of all. -/
def Meanwhile (g g' : Shared) : Prop := g.stop = true → g'.stop = true

/-- A run as one thread sees it. -/
abbrev Looped (b : Bench ε σ) : Shared × LoopState ε σ → List (Option (Deed ε σ)) →
    Shared × LoopState ε σ → Prop :=
  Run (Seen (Takes b) Meanwhile)

def LoopState.follow (b : Bench ε σ) (os : List (Outside σ)) (s : Shared × LoopState ε σ) :
    Shared × LoopState ε σ := os.foldl (fun s o => LoopState.next b o s) s

theorem followed (b : Bench ε σ) (os : List (Outside σ)) (s : Shared × LoopState ε σ) :
    ∃ as, Looped b s as (LoopState.follow b os s) := by
  induction os using List.reverseRecOn with
  | nil => exact ⟨[], .refl s⟩
  | append_singleton os o ih =>
    obtain ⟨as, hrun⟩ := ih
    rw [LoopState.follow, List.foldl_append, List.foldl_cons, List.foldl_nil]
    rcases next_takes b o (LoopState.follow b os s) with hsame | ⟨deed, htakes⟩
    · exact ⟨as, hsame.symm ▸ hrun⟩
    · exact ⟨_, hrun.tail (.own htakes)⟩

def ownDeeds (as : List (Option (Deed ε σ))) : List (Deed ε σ) := as.filterMap id

theorem ownDeeds_append (as : List (Option (Deed ε σ))) (a : Option (Deed ε σ)) :
    ownDeeds (as ++ [a]) = ownDeeds as ++ a.toList := by
  rw [ownDeeds, List.filterMap_append]
  cases a <;> rfl

/-- In its loop, and among other threads, a worker does what workers do. -/
theorem looped_worker {as : List (Option (Deed ε σ))} {s u : Shared × LoopState ε σ}
    (h : Looped b s as u) :
    ∃ answers, Run (Worker.Step b.driver) s.2.worker answers u.2.worker ∧
      answers.flatten = (ownDeeds as).flatMap Deed.answers := by
  induction h with
  | refl => exact ⟨[], .refl _, rfl⟩
  | @tail v u as a _ _ hlast ih =>
    obtain ⟨answers, hrun, hanswers⟩ := ih
    rw [ownDeeds_append, List.flatMap_append, ← hanswers]
    cases hlast with
    | other d _ =>
      refine ⟨answers, hrun, ?_⟩
      exact (List.append_nil _).symm
    | outside d _ =>
      refine ⟨answers, hrun, ?_⟩
      exact (List.append_nil _).symm
    | @own g g' d d' deed htakes =>
      have hshared : Run (Worker.Step b.driver) s.2.worker (answers ++ [[]])
          (d.worker.sharing g) := hrun.tail (.elsewhere g.latency)
      rcases Advances.worker htakes with ⟨hsame, hnone⟩ | hstep
      · refine ⟨answers ++ [[]], ?_, ?_⟩
        · change Run _ _ _ d'.worker
          rw [hsame]
          exact hshared
        · simp [hnone]
      · refine ⟨answers ++ [[]] ++ [deed.answers], hshared.tail hstep, ?_⟩
        simp

/-- Every pending delay is that of a slot of the table. -/
def Worker.InTable (w : Worker ε σ) : Prop := ∀ due ∈ w.deadlines, due.2 < w.slots.length

theorem Worker.InTable.put {w : Worker ε σ} (h : w.InTable) {index : Nat}
    (hindex : index < w.slots.length) (s : SlotLoop ε σ) : (w.put index s).InTable := by
  intro due hdue
  have hlength : (w.put index s).slots.length = w.slots.length := List.length_set
  rw [hlength]
  rcases List.mem_append.mp hdue with hnew | hold
  · obtain ⟨_, _, rfl⟩ := List.mem_map.mp hnew
    exact hindex
  · exact h due hold

theorem tick_table (b : Bench ε σ) (o : Outside σ) (g : Shared) (t : LoopState ε σ) :
    (t.tick b o g).2.worker.deadlines = t.worker.deadlines ∧
      (t.tick b o g).2.worker.slots = t.worker.slots := by
  have hrate : (t.recordRate b o g).2.worker.deadlines = t.worker.deadlines ∧
      (t.recordRate b o g).2.worker.slots = t.worker.slots := by
    unfold LoopState.recordRate
    split
    · exact ⟨rfl, rfl⟩
    · exact ⟨rfl, rfl⟩
  unfold LoopState.tick
  split
  · exact hrate
  · exact ⟨rfl, rfl⟩

theorem Advances.size (h : Advances b g t deed g' t') :
    t'.worker.slots.length = t.worker.slots.length := by
  cases h with
  | handles _ _ _ => exact List.length_set
  | fires _ _ _ _ => exact List.length_set
  | ticks o _ _ => rw [(tick_table b o g t).2]
  | _ => rfl

theorem Advances.inTable (h : Advances b g t deed g' t') (ht : t.worker.InTable) :
    t'.worker.InTable := by
  cases h with
  | handles _ hindex _ => exact ht.put hindex _
  | @fires now due _ _ _ hindex =>
    have herased : Worker.InTable
        { t.worker with deadlines := t.worker.deadlines.erase due } := by
      intro other hother
      exact ht other (List.mem_of_mem_erase hother)
    exact herased.put hindex _
  | ticks o _ _ =>
    obtain ⟨hdeadlines, hslots⟩ := tick_table b o g t
    unfold Worker.InTable
    rw [hdeadlines, hslots]
    exact ht
  | _ => exact ht

theorem start_worker (config : LoopConfig) (opened : List (Option σ)) (thread : Thread ε) :
    (Worker.start config opened thread).deadlines = [] ∧
      (Worker.start config opened thread).slots.length = opened.length := by
  have hconnects : ∀ w : Worker ε σ,
      (opened.foldl (fun w stream => w.connect config stream) w).deadlines = w.deadlines ∧
        (opened.foldl (fun w stream => w.connect config stream) w).slots.length =
          w.slots.length + opened.length := by
    induction opened with
    | nil =>
      intro w
      exact ⟨rfl, rfl⟩
    | cons stream opened ih =>
      intro w
      obtain ⟨hdeadlines, hlength⟩ := ih (w.connect config stream)
      refine ⟨hdeadlines, ?_⟩
      have hone : (w.connect config stream).slots.length = w.slots.length + 1 :=
        List.length_append
      rw [List.foldl_cons, hlength, hone, List.length_cons]
      omega
  obtain ⟨hdeadlines, hlength⟩ := hconnects ⟨[], [], thread⟩
  exact ⟨hdeadlines, hlength.trans (Nat.zero_add _)⟩

/-- What firing the delays can do at some reading of the clock: leave none that is due, or
fire one that no other comes before, with no effect on the other slots. -/
inductive Wakes (now : Nat) (t : LoopState ε σ) : LoopState ε σ → Prop where
  | rests : (∀ due ∈ t.worker.deadlines, now < due.1) → Wakes now t (t.goTo .ticks)
  | fires {u : LoopState ε σ} (due : Nat × Nat) : due ∈ t.worker.deadlines → due.1 ≤ now →
      (∀ other ∈ t.worker.deadlines, due.1 ≤ other.1) →
      u.worker.deadlines = t.worker.deadlines.erase due →
      u.worker.slots[due.2]? = some (t.worker.view due.2).delayFired.slot →
      (∀ index, index ≠ due.2 → u.worker.slots[index]? = t.worker.slots[index]?) →
      Wakes now t u

theorem delayFired_deadlines (s : SlotLoop ε σ) : s.delayFired.deadlines = s.deadlines := by
  unfold SlotLoop.delayFired
  split <;> rfl

theorem delays_fires {o : Outside σ} (ht : t.worker.InTable) :
    ∃ u, t.delays o = .ok u ∧ Wakes o.now t u := by
  unfold LoopState.delays
  cases hearliest : earliest t.worker.deadlines with
  | none =>
    refine ⟨_, rfl, .rests ?_⟩
    rw [earliest_none hearliest]
    exact List.forall_mem_nil _
  | some due =>
    obtain ⟨hmem, hleast⟩ := earliest_some hearliest
    dsimp only
    by_cases hlater : o.now < due.1
    · refine ⟨_, if_pos hlater, .rests ?_⟩
      intro other hother
      exact Nat.lt_of_lt_of_le hlater (hleast other hother)
    · have hindex := ht due hmem
      rw [if_neg hlater, Worker.fire, if_pos hindex, ok_bind]
      refine ⟨_, rfl, .fires due hmem (Nat.le_of_not_lt hlater) hleast ?_ ?_ ?_⟩
      · change (t.worker.view due.2).delayFired.deadlines.map (fun at' => (at', due.2)) ++ _ = _
        rw [delayFired_deadlines]
        rfl
      · exact List.getElem?_set_self hindex
      · intro index hne
        exact List.getElem?_set_ne hne.symm

theorem nextTimeout_due {deadlines : List (Nat × Nat)} {due : Nat × Nat} (hdue : due ∈ deadlines)
    (rateDeadline now : Nat) : nextTimeout deadlines rateDeadline now ≤ due.1 - now := by
  unfold nextTimeout
  cases hearliest : earliest deadlines with
  | none => exact absurd hdue (earliest_none hearliest ▸ List.not_mem_nil)
  | some first =>
    apply Nat.sub_le_sub_right
    exact Nat.le_trans (Nat.min_le_left _ _) ((earliest_some hearliest).2 due hdue)

/-- Over a whole run the table keeps its size, no poll outlasts a pending delay, and whenever
the delays are fired the step returns: it wakes one slot of the table, the earliest first, or
leaves none that is due. -/
theorem delays_in_order {config : LoopConfig} {opened : List (Option σ)} {thread : Thread ε}
    {now began : Nat} {as : List (Option (Deed ε σ))}
    (h : Looped b (g, .start config opened thread now began) as (g', t')) :
    t'.worker.slots.length = opened.length ∧
      (∀ reading, ∀ due ∈ t'.worker.deadlines,
        nextTimeout t'.worker.deadlines t'.rateDeadline reading ≤ due.1 - reading) ∧
      ∀ o : Outside σ, ∃ u, t'.delays o = .ok u ∧ Wakes o.now t' u := by
  obtain ⟨hdeadlines, hlength⟩ := start_worker config opened thread
  have hrun := RunWhile.history
    (I := fun _ (s : Shared × LoopState ε σ) =>
      s.2.worker.InTable ∧ s.2.worker.slots.length = opened.length) h
    (by
      refine ⟨?_, hlength⟩
      intro due hdue
      exact absurd hdue (hdeadlines ▸ List.not_mem_nil))
    (by
      intro as s a u hs _ hstep
      cases hstep with
      | other d _ => exact hs
      | outside d _ => exact hs
      | own htakes =>
        exact ⟨Advances.inTable htakes hs.1, (Advances.size htakes).trans hs.2⟩)
  refine ⟨hrun.2, ?_, ?_⟩
  · intro reading due hdue
    exact nextTimeout_due hdue _ reading
  · intro o
    exact delays_fires hrun.1

def quietHandle (up : Bool) : StopHandle quietEngine := ⟨fun _ => up, fun _ h => h, fun _ h => h,
  fun _ _ _ _ h => h⟩

def delayBench (up : Bool) : Bench Unit (List Bytes × Bytes) where
  driver := quietDriver quietEngine queueSocket true
  handle := quietHandle up
  sample := fun requests elapsed => requests * 1000000 / elapsed

def delayLoop (stop : Bool) : Shared × LoopState Unit (List Bytes × Bytes) :=
  (⟨.new 10, .new 10, stop⟩,
    .start (delayBench false).driver.config [some ([], [])] quietThread 0 0)

/-- The connection comes up and asks for its delay, which is over at once. -/
def delayPoll : Outside (List Bytes × Bytes) :=
  ⟨.ok [(0, readiness [] false true), (0, readiness [] false true)], 0, 0, 0⟩

theorem delays_in_order_sample :
    ∃ t' : LoopState Unit (List Bytes × Bytes), t'.worker.deadlines = [(0, 0)] ∧
      t'.worker.slots.length = 1 ∧
      (∀ reading, ∀ due ∈ t'.worker.deadlines,
        nextTimeout t'.worker.deadlines t'.rateDeadline reading ≤ due.1 - reading) ∧
      ∀ o : Outside (List Bytes × Bytes), ∃ u, t'.delays o = .ok u ∧ Wakes o.now t' u := by
  obtain ⟨as, h⟩ := followed (delayBench false) (List.replicate 4 delayPoll) (delayLoop false)
  exact ⟨_, by rfl, delays_in_order h⟩

def Deed.ticked : Deed ε σ → Bool
  | .ticks _ _ => true
  | _ => false

/-- A deed after some others, in a loop whose first window began at `start`. -/
structure OnSchedule (start : Nat) (past : List (Deed ε σ)) (deed : Deed ε σ) : Prop where
  tick : ∀ now window, deed = .ticks now window →
    start + recordInterval * (past.countP Deed.ticked + 1) ≤ now
  early : ∀ now, deed = .early now → now < start + recordInterval * (past.countP Deed.ticked + 1)
  poll : ∀ now timeout, deed = .polls now timeout →
    timeout ≤ start + recordInterval * (past.countP Deed.ticked + 1) - now

theorem nextTimeout_le (deadlines : List (Nat × Nat)) (rateDeadline now : Nat) :
    nextTimeout deadlines rateDeadline now ≤ rateDeadline - now :=
  Nat.sub_le_sub_right (Nat.min_le_right _ _) now

theorem tick_rateDeadline {o : Outside σ} (hdue : t.rateDeadline ≤ o.now) :
    (t.tick b o g).2.rateDeadline = t.rateDeadline + recordInterval := by
  dsimp only [LoopState.tick, LoopState.recordRate]
  rw [if_pos hdue]
  split <;> rfl

/-- A deed keeps to the deadline of the rate tick, and a tick moves it by one window. -/
theorem Advances.schedule (h : Advances b g t deed g' t') {start : Nat}
    {past : List (Deed ε σ)}
    (ht : t.rateDeadline = start + recordInterval * (past.countP Deed.ticked + 1)) :
    OnSchedule start past deed ∧
      t'.rateDeadline = start + recordInterval * ((past ++ [deed]).countP Deed.ticked + 1) := by
  have hquiet : deed.ticked = false → (past ++ [deed]).countP Deed.ticked =
      past.countP Deed.ticked := by
    intro hdeed
    rw [List.countP_append, List.countP_singleton, hdeed]
    rfl
  cases h with
  | polls now events _ =>
    rw [hquiet rfl]
    refine ⟨⟨nofun, nofun, ?_⟩, ht⟩
    rintro _ _ ⟨⟩
    rw [← ht]
    exact nextTimeout_le _ _ _
  | skips =>
    rw [hquiet rfl]
    exact ⟨⟨nofun, nofun, nofun⟩, ht⟩
  | handles =>
    rw [hquiet rfl]
    exact ⟨⟨nofun, nofun, nofun⟩, ht⟩
  | handled =>
    rw [hquiet rfl]
    exact ⟨⟨nofun, nofun, nofun⟩, ht⟩
  | fires =>
    rw [hquiet rfl]
    exact ⟨⟨nofun, nofun, nofun⟩, ht⟩
  | rests =>
    rw [hquiet rfl]
    exact ⟨⟨nofun, nofun, nofun⟩, ht⟩
  | ticks o _ hdue =>
    have hone : (past ++ [Deed.ticks o.now t.worker.thread.counters.requests]).countP
        (Deed.ticked (ε := ε) (σ := σ)) = past.countP Deed.ticked + 1 := by
      rw [List.countP_append]
      rfl
    rw [hone, tick_rateDeadline hdue, ht, Nat.mul_succ _ (past.countP Deed.ticked + 1)]
    refine ⟨⟨?_, nofun, nofun⟩, Nat.add_assoc _ _ _⟩
    rintro _ _ ⟨⟩
    rw [← ht]
    exact hdue
  | early _ hearly =>
    rw [hquiet rfl]
    refine ⟨⟨nofun, ?_, nofun⟩, ht⟩
    rintro _ ⟨⟩
    rw [← ht]
    exact hearly
  | checks =>
    rw [hquiet rfl]
    exact ⟨⟨nofun, nofun, nofun⟩, ht⟩

/-- The rate ticks of a run keep to their schedule: each comes at the end of its window or
later, a loop that is past that end ticks, and no poll may outlast it. -/
theorem ticks_on_schedule {config : LoopConfig} {opened : List (Option σ)} {thread : Thread ε}
    {now began : Nat} {as : List (Option (Deed ε σ))}
    (h : Looped b (g, .start config opened thread now began) as (g', t')) :
    Each (OnSchedule now) (ownDeeds as) := by
  have hrun := RunWhile.history
    (I := fun as (s : Shared × LoopState ε σ) => Each (OnSchedule now) (ownDeeds as) ∧
      s.2.rateDeadline = now + recordInterval * ((ownDeeds as).countP Deed.ticked + 1)) h
    ⟨each_nil, rfl⟩
    (by
      intro as s a u hs _ hstep
      obtain ⟨hpast, hdeadline⟩ := hs
      rw [ownDeeds_append]
      cases hstep with
      | other d _ =>
        rw [Option.toList_none, List.append_nil]
        exact ⟨hpast, hdeadline⟩
      | outside d _ =>
        rw [Option.toList_none, List.append_nil]
        exact ⟨hpast, hdeadline⟩
      | own htakes =>
        obtain ⟨hdeed, hnext⟩ := Advances.schedule htakes hdeadline
        exact ⟨each_append hpast hdeed, hnext⟩)
  exact hrun.1

def latePoll : Outside (List Bytes × Bytes) := ⟨.ok [], 1000000, 0, 0⟩

theorem ticks_on_schedule_sample :
    ∃ (as : List (Option (Deed Unit (List Bytes × Bytes))))
      (t' : LoopState Unit (List Bytes × Bytes)),
      t'.rateDeadline = 2 * recordInterval ∧ Each (OnSchedule 0) (ownDeeds as) := by
  obtain ⟨as, h⟩ := followed (delayBench false) (List.replicate 5 latePoll) (delayLoop false)
  exact ⟨as, (LoopState.follow (delayBench false) (List.replicate 5 latePoll) (delayLoop false)).2,
    by rfl, ticks_on_schedule h⟩

theorem recordRate_flags (b : Bench ε σ) (o : Outside σ) (g : Shared) (t : LoopState ε σ) :
    (t.recordRate b o g).1.stop = g.stop ∧
      (t.recordRate b o g).2.stopped b = t.stopped b := by
  unfold LoopState.recordRate
  split
  · exact ⟨rfl, rfl⟩
  · exact ⟨rfl, rfl⟩

theorem tick_flags (b : Bench ε σ) (o : Outside σ) (g : Shared) (t : LoopState ε σ) :
    (t.tick b o g).1.stop = g.stop ∧ (t.tick b o g).2.stopped b = t.stopped b := by
  unfold LoopState.tick
  split
  · exact recordRate_flags b o g t
  · exact ⟨rfl, rfl⟩

theorem tick_stage {o : Outside σ} (hdue : t.rateDeadline ≤ o.now) :
    (t.tick b o g).2.stage = if g.stop || t.stopped b then .ended else .checks := by
  obtain ⟨hstop, hown⟩ := recordRate_flags b o g t
  rw [← hstop, ← hown, LoopState.tick, if_pos hdue]
  rfl

theorem Advances.stop (h : Advances b g t deed g' t') : g'.stop = g.stop := by
  cases h with
  | ticks o _ _ => exact (tick_flags b o g t).1
  | _ => rfl

theorem flag_kept (b : Bench ε σ) :
    Kept b.driver fun _ thread => b.handle.stopped thread.engine = true := by
  constructor
  · intro past p r now _ h
    have hcounts := (Endpoint.respond_spec b.driver.engine now p r).counts
    rw [Endpoint.counted_singleton] at hcounts
    have hengine : (p.respond b.driver.engine now r).2.ctx.thread.engine =
        (Endpoint.deliver b.driver.engine p.ctx.wantsResponse p.ctx.engine r).2 := hcounts.engine
    rw [hengine, Endpoint.deliver]
    split
    · exact b.handle.response _ _ _ _ h
    · exact h
  · intro past thread h
    exact b.handle.delay _ h
  · intro past thread h
    exact b.handle.request _ h
  · intro past thread thread' hsame _ h
    rw [hsame]
    exact h

theorem Advances.stopped (h : Advances b g t deed g' t') (ht : t.stopped b = true) :
    t'.stopped b = true := by
  rcases h.worker with ⟨hsame, _⟩ | hstep
  · unfold LoopState.stopped
    rw [hsame]
    exact ht
  · have hhas : t.worker.Has (fun _ thread => b.handle.stopped thread.engine = true)
        (fun _ => True) [] := ⟨ht, fun _ _ => trivial⟩
    exact ((flag_kept b).carried.step hhas hstep).thread

theorem Advances.goes (h : Advances b g t deed g' t') : t.stage ≠ .ended := h.advance.1

/-- A loop ends for a flag. -/
theorem Advances.ends (h : Advances b g t deed g' t') (hended : t'.stage = .ended) :
    (∃ now window, deed = .ticks now window ∧ t.rateDeadline ≤ now ∧ g.stop = true) ∨
      t'.stopped b = true := by
  cases h with
  | polls => cases hended
  | skips => cases hended
  | handles => cases hended
  | handled => cases hended
  | fires hstage => exact absurd (hstage.symm.trans hended) nofun
  | rests => cases hended
  | ticks o _ hdue =>
    rw [tick_stage hdue] at hended
    by_cases hflag : (g.stop || t.stopped b) = true
    · rcases Bool.or_eq_true_iff.mp hflag with hstop | hown
      · exact .inl ⟨_, _, rfl, hdue, hstop⟩
      · exact .inr ((tick_flags b o g t).2.trans hown)
    · rw [if_neg hflag] at hended
      cases hended
  | early => cases hended
  | checks =>
    unfold LoopState.check at hended ⊢
    by_cases hown : t.stopped b = true
    · exact .inr hown
    · rw [if_neg hown] at hended
      cases hended

theorem Advances.tick_ends (h : Advances b g t deed g' t') (hstop : g.stop = true)
    (hgoes : t'.stage ≠ .ended) :
    t'.rateDeadline = t.rateDeadline ∧ deed.ticked = false := by
  cases h with
  | ticks o _ hdue =>
    rw [tick_stage hdue, hstop, Bool.true_or, if_pos rfl] at hgoes
    exact absurd rfl hgoes
  | _ => exact ⟨rfl, rfl⟩

/-- A deed of a loop that only waits for its next tick, at `due`. -/
structure Winding (due : Nat) (deed : Deed ε σ) : Prop where
  tick : ∀ now window, deed ≠ .ticks now window
  early : ∀ now, deed = .early now → now < due
  poll : ∀ now timeout, deed = .polls now timeout → timeout ≤ due - now

theorem Advances.winding (h : Advances b g t deed g' t') (hquiet : deed.ticked = false) :
    Winding t.rateDeadline deed := by
  cases h with
  | polls now events _ =>
    refine ⟨nofun, nofun, ?_⟩
    rintro _ _ ⟨⟩
    exact nextTimeout_le _ _ _
  | ticks => cases hquiet
  | early _ hearly =>
    refine ⟨nofun, ?_, nofun⟩
    rintro _ ⟨⟩
    exact hearly
  | _ => exact ⟨nofun, nofun, nofun⟩

/-- How a loop goes on once the flag of all is up. -/
inductive WoundUp (b : Bench ε σ) (due : Nat) (t : LoopState ε σ) : List (Deed ε σ) → Prop where
  | goesOn {deeds : List (Deed ε σ)} : t.stage ≠ .ended → t.rateDeadline = due →
      (∀ deed ∈ deeds, Winding due deed) → WoundUp b due t deeds
  | ended {deeds : List (Deed ε σ)} (last : Deed ε σ) : t.stage = .ended →
      (∀ deed ∈ deeds, Winding due deed) →
      (∃ now window, last = .ticks now window ∧ due ≤ now) ∨ t.stopped b = true →
      WoundUp b due t (deeds ++ [last])

/-- Once the flag of all is up, a loop waits for its next rate tick at most: until then no
poll may outlast that time, and the first look at the clock past it ends the loop, if the
flag of its own handle has not done so before. -/
theorem stop_ends_at_tick {as : List (Option (Deed ε σ))} (h : Looped b (g, t) as (g', t'))
    (hstop : g.stop = true) (hgoes : t.stage ≠ .ended) :
    WoundUp b t.rateDeadline t' (ownDeeds as) := by
  have hrun := RunWhile.history
    (I := fun as (s : Shared × LoopState ε σ) =>
      s.1.stop = true ∧ WoundUp b t.rateDeadline s.2 (ownDeeds as)) h
    ⟨hstop, .goesOn hgoes rfl (List.forall_mem_nil _)⟩
    (by
      intro as s a u hs _ hstep
      obtain ⟨hstop, hpast⟩ := hs
      rw [ownDeeds_append]
      cases hstep with
      | other d htakes =>
        rw [Option.toList_none, List.append_nil]
        exact ⟨(Advances.stop htakes).trans hstop, hpast⟩
      | outside d hmeanwhile =>
        rw [Option.toList_none, List.append_nil]
        exact ⟨hmeanwhile hstop, hpast⟩
      | @own g g' t t' deed htakes =>
        have hadvances : Advances b g (t.sharing g) deed g' t' := htakes
        refine ⟨hadvances.stop.trans hstop, ?_⟩
        generalize ownDeeds as = deeds at hpast
        cases hpast with
        | ended last hended _ _ => exact absurd hended hadvances.goes
        | goesOn _ hdue hpast =>
          by_cases hended : t'.stage = .ended
          · apply WoundUp.ended deed hended hpast
            rcases hadvances.ends hended with ⟨now, window, hdeed, htime, _⟩ | hown
            · refine .inl ⟨now, window, hdeed, ?_⟩
              rw [← hdue]
              exact htime
            · exact .inr hown
          · obtain ⟨hsame, hquiet⟩ := hadvances.tick_ends hstop hended
            refine .goesOn hended (hsame.trans hdue) (List.forall_mem_append.mpr ⟨hpast, ?_⟩)
            refine List.forall_mem_singleton.mpr ?_
            rw [← hdue]
            exact hadvances.winding hquiet)
  exact hrun.2

theorem stop_ends_at_tick_sample :
    ∃ (as : List (Option (Deed Unit (List Bytes × Bytes))))
      (t' : LoopState Unit (List Bytes × Bytes)),
      t'.stage = .ended ∧ WoundUp (delayBench false) recordInterval t' (ownDeeds as) := by
  obtain ⟨as, h⟩ := followed (delayBench false) (List.replicate 4 latePoll) (delayLoop true)
  exact ⟨as, _, by rfl, stop_ends_at_tick h rfl nofun⟩

theorem Advances.iteration (h : Advances b g t deed g' t') (hown : t.stopped b = true)
    (hstage : t.stage ≠ .polls) :
    (∀ now timeout, deed ≠ .polls now timeout) ∧ t'.stage ≠ .polls := by
  cases h with
  | polls _ _ hpolls => exact absurd hpolls hstage
  | skips => exact ⟨nofun, nofun⟩
  | handles => exact ⟨nofun, nofun⟩
  | handled => exact ⟨nofun, nofun⟩
  | fires hfires =>
    refine ⟨nofun, ?_⟩
    exact hstage
  | rests => exact ⟨nofun, nofun⟩
  | ticks o _ hdue =>
    refine ⟨nofun, ?_⟩
    rw [tick_stage hdue, hown, Bool.or_true, if_pos rfl]
    exact nofun
  | early => exact ⟨nofun, nofun⟩
  | checks =>
    refine ⟨nofun, ?_⟩
    unfold LoopState.check
    rw [if_pos hown]
    exact nofun

/-- No loop ends without its own flag or the one of all. -/
theorem looped_ends {as : List (Option (Deed ε σ))} (h : Looped b (g, t) as (g', t'))
    (hgoes : t.stage ≠ .ended) : t'.stage = .ended → g'.stop = true ∨ t'.stopped b = true := by
  have hrun := RunWhile.history
    (I := fun _ (s : Shared × LoopState ε σ) =>
      s.2.stage = .ended → s.1.stop = true ∨ s.2.stopped b = true) h
    (fun hended => absurd hended hgoes)
    (by
      intro as s a u hs _ hstep
      cases hstep with
      | other d htakes =>
        intro hended
        exact (hs hended).imp_left (Advances.stop htakes).trans
      | outside d hmeanwhile =>
        intro hended
        exact (hs hended).imp_left hmeanwhile
      | own htakes =>
        intro hended
        rcases Advances.ends htakes hended with ⟨_, _, _, _, hstop⟩ | hown
        · exact .inl ((Advances.stop htakes).trans hstop)
        · exact .inr hown)
  exact hrun

theorem looped_polls {as : List (Option (Deed ε σ))} (h : Looped b (g, t) as (g', t'))
    (hown : t.stopped b = true) (hstage : t.stage ≠ .polls) :
    ∀ deed ∈ ownDeeds as, ∀ now timeout, deed ≠ .polls now timeout := by
  have hrun := RunWhile.history
    (I := fun as (s : Shared × LoopState ε σ) =>
      (s.2.stopped b = true ∧ s.2.stage ≠ .polls) ∧
        ∀ deed ∈ ownDeeds as, ∀ now timeout, deed ≠ .polls now timeout) h
    ⟨⟨hown, hstage⟩, List.forall_mem_nil _⟩
    (by
      intro as s a u hs _ hstep
      obtain ⟨⟨hown, hstage⟩, hpast⟩ := hs
      rw [ownDeeds_append]
      cases hstep with
      | other d _ =>
        rw [Option.toList_none, List.append_nil]
        exact ⟨⟨hown, hstage⟩, hpast⟩
      | outside d _ =>
        rw [Option.toList_none, List.append_nil]
        exact ⟨⟨hown, hstage⟩, hpast⟩
      | own htakes =>
        obtain ⟨hdeed, hnext⟩ := Advances.iteration htakes hown hstage
        refine ⟨⟨Advances.stopped htakes hown, hnext⟩, List.forall_mem_append.mpr ⟨hpast, ?_⟩⟩
        exact List.forall_mem_singleton.mpr hdeed)
  exact hrun.2

/-- An event of the batch is handled, or skipped with a token past the table. -/
inductive Treated (size : Nat) (event : Nat × Readiness σ) : Deed ε σ → Prop where
  | handles (answers : List (Answer ε σ)) : event.1 < size → Treated size event (.handles answers)
  | skips : size ≤ event.1 → Treated size event .skips

/-- The deeds of an iteration from a stage to the end of the loop: each event left of the batch
in its order, the delays until none is due at the clock, the rate window and the flags. -/
inductive Iteration (size : Nat) (deadlines : List (Nat × Nat)) :
    LoopStage σ → List (Deed ε σ) → Prop where
  | event {event : Nat × Readiness σ} {rest : List (Nat × Readiness σ)} {deed : Deed ε σ}
      {deeds : List (Deed ε σ)} : Treated size event deed →
      Iteration size deadlines (.handles rest) deeds →
      Iteration size deadlines (.handles (event :: rest)) (deed :: deeds)
  | batch {deeds : List (Deed ε σ)} : Iteration size deadlines .fires deeds →
      Iteration size deadlines (.handles []) (.handled :: deeds)
  | fires {deeds : List (Deed ε σ)} : Iteration size deadlines .fires deeds →
      Iteration size deadlines .fires (.fires :: deeds)
  | rests {deeds : List (Deed ε σ)} (now : Nat) : (∀ due ∈ deadlines, now < due.1) →
      Iteration size deadlines .ticks deeds →
      Iteration size deadlines .fires (.rests now :: deeds)
  | ticks {deeds : List (Deed ε σ)} (now window : Nat) : Iteration size deadlines .ended deeds →
      Iteration size deadlines .ticks (.ticks now window :: deeds)
  | early {deeds : List (Deed ε σ)} (now : Nat) : Iteration size deadlines .checks deeds →
      Iteration size deadlines .ticks (.early now :: deeds)
  | checks {deeds : List (Deed ε σ)} : Iteration size deadlines .ended deeds →
      Iteration size deadlines .checks (.checks :: deeds)
  | ended : Iteration size deadlines .ended []

def LoopStage.rested : LoopStage σ → Prop
  | .ticks | .checks | .ended => True
  | .polls | .handles _ | .fires => False

/-- A step of a loop whose own flag is up is the first one of what is left of its iteration. -/
theorem Advances.iterates (h : Advances b g t deed g' t') (hown : t.stopped b = true)
    (hstage : t.stage ≠ .polls) {deadlines : List (Nat × Nat)} {deeds : List (Deed ε σ)}
    (hrested : t'.stage.rested → deadlines = t'.worker.deadlines)
    (hrest : Iteration t.worker.slots.length deadlines t'.stage deeds) :
    (t.stage.rested → deadlines = t.worker.deadlines) ∧
      Iteration t.worker.slots.length deadlines t.stage (deed :: deeds) := by
  cases h with
  | polls _ _ hpolls => exact absurd hpolls hstage
  | skips hbatch hindex =>
    rw [hbatch]
    exact ⟨False.elim, .event (.skips hindex) hrest⟩
  | handles hbatch hindex _ =>
    rw [hbatch]
    exact ⟨False.elim, .event (.handles _ hindex) hrest⟩
  | handled hbatch =>
    rw [hbatch]
    exact ⟨False.elim, .batch hrest⟩
  | fires hfires =>
    have hrest' : Iteration t.worker.slots.length deadlines t.stage deeds := hrest
    rw [hfires] at hrest' ⊢
    exact ⟨False.elim, .fires hrest'⟩
  | rests now hfires hlater =>
    rw [hfires]
    refine ⟨False.elim, .rests now ?_ hrest⟩
    rw [hrested trivial]
    exact earliest_later hlater
  | ticks o hticks hdue =>
    rw [tick_stage hdue, hown, Bool.or_true, if_pos rfl] at hrested hrest
    rw [hticks]
    exact ⟨fun _ => (hrested trivial).trans (tick_table b o g t).1, .ticks _ _ hrest⟩
  | early hticks _ =>
    rw [hticks]
    exact ⟨fun _ => hrested trivial, .early _ hrest⟩
  | checks hchecks =>
    unfold LoopState.check at hrested hrest
    rw [if_pos hown] at hrested hrest
    rw [hchecks]
    exact ⟨fun _ => hrested trivial, .checks hrest⟩

theorem looped_iterates {as : List (Option (Deed ε σ))} (h : Looped b (g, t) as (g', t'))
    (hown : t.stopped b = true) (hstage : t.stage ≠ .polls) :
    t'.worker.slots.length = t.worker.slots.length ∧ ∀ deadlines deeds,
      (t'.stage.rested → deadlines = t'.worker.deadlines) →
      Iteration t.worker.slots.length deadlines t'.stage deeds →
      Iteration t.worker.slots.length deadlines t.stage (ownDeeds as ++ deeds) := by
  have hrun := RunWhile.history
    (I := fun as (s : Shared × LoopState ε σ) =>
      (s.2.stopped b = true ∧ s.2.stage ≠ .polls) ∧
        s.2.worker.slots.length = t.worker.slots.length ∧ ∀ deadlines deeds,
          (s.2.stage.rested → deadlines = s.2.worker.deadlines) →
          Iteration t.worker.slots.length deadlines s.2.stage deeds →
          Iteration t.worker.slots.length deadlines t.stage (ownDeeds as ++ deeds)) h
    ⟨⟨hown, hstage⟩, rfl, fun _ _ _ hrest => hrest⟩
    (by
      intro as s a u hs _ hstep
      obtain ⟨⟨hown, hstage⟩, hsize, hpast⟩ := hs
      rw [ownDeeds_append]
      cases hstep with
      | other d _ =>
        rw [Option.toList_none, List.append_nil]
        exact ⟨⟨hown, hstage⟩, hsize, hpast⟩
      | outside d _ =>
        rw [Option.toList_none, List.append_nil]
        exact ⟨⟨hown, hstage⟩, hsize, hpast⟩
      | @own g g' t₁ t₂ deed htakes =>
        have hadvances : Advances b g (t₁.sharing g) deed g' t₂ := htakes
        refine ⟨⟨hadvances.stopped hown, (hadvances.iteration hown hstage).2⟩,
          hadvances.size.trans hsize, ?_⟩
        intro deadlines deeds hrested hrest
        rw [← hsize] at hrest
        obtain ⟨hbefore, hfirst⟩ := hadvances.iterates hown hstage hrested hrest
        change Iteration t₁.worker.slots.length deadlines t₁.stage _ at hfirst
        rw [hsize] at hfirst
        rw [Option.toList_some, List.append_assoc, List.singleton_append]
        exact hpast deadlines (deed :: deeds) hbefore hfirst)
  exact hrun.2

/-- A loop whose own flag is raised after a poll never polls again. It ends with every event of
the batch treated and no delay due, and no loop ends without its own flag or the one of all. -/
theorem own_stop_ends_iteration {as : List (Option (Deed ε σ))}
    (h : Looped b (g, t) as (g', t')) (hgoes : t.stage ≠ .ended) :
    (t.stopped b = true → t.stage ≠ .polls →
      (∀ deed ∈ ownDeeds as, ∀ now timeout, deed ≠ .polls now timeout) ∧
        (t'.stage = .ended →
          Iteration t.worker.slots.length t'.worker.deadlines t.stage (ownDeeds as))) ∧
      (t'.stage = .ended → g'.stop = true ∨ t'.stopped b = true) := by
  refine ⟨?_, looped_ends h hgoes⟩
  intro hown hstage
  refine ⟨looped_polls h hown hstage, ?_⟩
  intro hended
  have hall := (looped_iterates h hown hstage).2 t'.worker.deadlines [] (fun _ => rfl)
    (hended ▸ .ended)
  rwa [List.append_nil] at hall

/-- A connection that comes up and waits for its delay, and a token past the table. -/
def delayBatch : List (Nat × Readiness (List Bytes × Bytes)) :=
  [(0, readiness [] false true), (0, readiness [] false true), (7, readiness [] false true)]

theorem own_stop_ends_iteration_sample :
    ∃ (as : List (Option (Deed Unit (List Bytes × Bytes))))
      (t' : LoopState Unit (List Bytes × Bytes)),
      t'.stage = .ended ∧ (∀ deed ∈ ownDeeds as, ∀ now timeout, deed ≠ .polls now timeout) ∧
        Iteration 1 t'.worker.deadlines (.handles delayBatch) (ownDeeds as) := by
  obtain ⟨as, h⟩ := followed (delayBench true) (List.replicate 8 delayPoll)
    ((delayLoop false).1, (delayLoop false).2.goTo (.handles delayBatch))
  obtain ⟨hpolls, hends⟩ := (own_stop_ends_iteration h nofun).1 rfl nofun
  exact ⟨as, _, by rfl, hpolls, hends (by rfl)⟩

end Wrkrs
