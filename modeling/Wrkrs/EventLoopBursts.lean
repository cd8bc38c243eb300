import Wrkrs.EventLoopRuns

/-!
# One burst at a time

While responses are outstanding the connection is not delayed and its pending counter
is their number, so only a deadline that outlived its connection can start a new burst.
-/

namespace Wrkrs

set_option autoImplicit false
set_option maxRecDepth 4096

open Text Machine Runs

variable {ε σ : Type}

theorem pendingCount_eq {pending : UInt64} (h : 0 < pending.toNat) :
    pendingCount pending = pending.toNat := by
  unfold pendingCount
  apply if_neg
  intro hzero
  rw [hzero] at h
  exact absurd h (Nat.lt_irrefl 0)

theorem Slot.starts_iff {slot : Slot σ} :
    slot.starts = true ↔ slot.connection.delayed = false ∧ slot.connection.written = 0 := by
  unfold Slot.starts
  rw [Bool.and_eq_true_iff, Bool.not_eq_true', beq_iff_eq]

structure Slot.Tracks (slot : Slot σ) (outstanding : Nat) : Prop where
  rests : slot.connection.delayed = true → outstanding = 0
  counts : 0 < outstanding → pendingCount slot.connection.pending = outstanding

theorem Slot.Tracks.zero (slot : Slot σ) : slot.Tracks 0 :=
  ⟨fun _ => rfl, fun h => absurd h (Nat.lt_irrefl 0)⟩

theorem Slot.Tracks.burst {slot after : Slot σ} {outstanding : Nat} {pipeline : UInt64}
    {sent : Prop} [Decidable sent] (h : slot.Tracks outstanding)
    (hidle : slot.starts = true → outstanding = 0) (hdelayed : slot.connection.delayed = false)
    (hafter : after.connection.delayed = false)
    (hpending : after.connection.pending =
      (if slot.connection.written = 0 then pipeline else slot.connection.pending)) :
    after.Tracks
      (if slot.starts = true ∧ sent then outstanding + pipeline.toNat else outstanding) := by
  constructor
  · intro hstill
    rw [hafter] at hstill
    cases hstill
  by_cases hwritten : slot.connection.written = 0
  · rw [hidle (Slot.starts_iff.mpr ⟨hdelayed, hwritten⟩), hpending, if_pos hwritten, Nat.zero_add]
    split
    · exact pendingCount_eq
    · intro hpos
      exact absurd hpos (Nat.lt_irrefl 0)
  · rw [if_neg fun hsent => hwritten (Slot.starts_iff.mp hsent.1).2, hpending, if_neg hwritten]
    exact h.counts

namespace Watched

variable {driver : Driver ε σ} {r : Readiness σ} {w v : Watched ε σ} {m t : SlotLoop ε σ}
variable {slot : Slot σ}

/-- The reads bring no more responses than the server owes. -/
def Served (driver : Driver ε σ) (w : Watched ε σ) : Action ε σ → Prop
  | .ready r => r.readable = true → ∀ slot, w.loop.live = some slot →
      (slot.answers driver r w.loop.thread).length ≤ w.outstanding
  | .timer _ | .elsewhere _ => True

/-- No deadline fires while a burst that went out whole is unanswered. -/
def Undisturbed (w : Watched ε σ) : Action ε σ → Prop
  | .timer now => w.loop.Fires now → ∀ slot, w.loop.live = some slot →
      w.outstanding = 0 ∨ slot.connection.written ≠ 0
  | .ready _ | .elsewhere _ => True

/-- A live connection knows what is outstanding, and nothing is where a writable handler
could start a burst: at a registered interest, or behind a readable part. -/
def Settled (writable : Bool) (w : Watched ε σ) : Prop :=
  ∀ slot, w.loop.live = some slot → slot.Tracks w.outstanding ∧
    (writable = true ∨ slot.interest = .readableWritable → slot.starts = true → w.outstanding = 0)

theorem settled_gone {writable : Bool} (h : w.loop.live = none) : w.Settled writable := by
  intro slot hlive
  rw [h] at hlive
  cases hlive

theorem settled_zero {writable : Bool} (h : w.outstanding = 0) : w.Settled writable := by
  intro slot _
  rw [h]
  exact ⟨.zero slot, fun _ _ => rfl⟩

theorem settled_afterReadable {writable : Bool} (hlive : w.loop.live = some slot)
    (hsettled : w.Settled writable) (h : w.loop.readablePart driver r = .ok m)
    (hserved : r.readable = true → (slot.answers driver r w.loop.thread).length ≤ w.outstanding) :
    (w.afterReadable driver r m).Settled writable ∧
      (w.afterReadable driver r m).starts = w.starts := by
  obtain ⟨htracks, hidle⟩ := hsettled slot hlive
  cases hreadable : r.readable with
  | false =>
    rw [afterReadable_off hreadable, SlotLoop.readablePart_off hreadable h]
    exact ⟨hsettled, rfl⟩
  | true =>
    have hle := hserved hreadable
    cases SlotLoop.read_outcome hlive h hreadable with
    | gone hgone =>
      rw [afterReadable_gone hreadable hgone]
      exact ⟨settled_gone hgone, rfl⟩
    | drained q hafter _ hdrained =>
      rw [afterReadable_live hreadable hlive hafter]
      refine ⟨settled_zero ?_, rfl⟩
      change w.outstanding - (slot.answers driver r w.loop.thread).length = 0
      rcases Nat.eq_zero_or_pos w.outstanding with hzero | hpos
      · omega
      · rw [htracks.counts hpos] at hdrained
        omega
    | quiet q hhandler hafter hdeadlines hwritten hdelayed hpending =>
      rw [afterReadable_live hreadable hlive hafter]
      refine ⟨?_, rfl⟩
      intro other hslot
      obtain rfl := Option.some.inj (hafter.symm.trans hslot)
      refine ⟨⟨?_, ?_⟩, ?_⟩
      · intro hother
        have hzero := htracks.rests (hdelayed.symm.trans hother)
        change w.outstanding - _ = 0
        omega
      · intro hpos
        change 0 < w.outstanding - (slot.answers driver r w.loop.thread).length at hpos
        change pendingCount q.connection.pending =
          w.outstanding - (slot.answers driver r w.loop.thread).length
        have hcount := htracks.counts (by omega)
        omega
      · intro hready hstarts
        obtain ⟨hnot, hnone⟩ := Slot.starts_iff.mp hstarts
        have hbefore : slot.starts = true :=
          Slot.starts_iff.mpr ⟨hdelayed.symm.trans hnot, hwritten.symm.trans hnone⟩
        change w.outstanding - _ = 0
        rcases hready with hready | hready
        · have hzero := hidle (.inl hready) hbefore
          omega
        · cases hready

theorem settled_afterWritable (hsettled : w.Settled true) (hwritable : r.writable = true)
    (hstarts : ∀ count ∈ w.starts, count = 0) (h : w.loop.writablePart driver r = .ok t) :
    (w.afterWritable driver r t).Settled false ∧
      ∀ count ∈ (w.afterWritable driver r t).starts, count = 0 := by
  cases hlive : w.loop.live with
  | none =>
    obtain rfl := SlotLoop.writablePart_idle hlive h
    rw [afterWritable_idle hlive]
    exact ⟨settled_gone hlive, hstarts⟩
  | some slot =>
    obtain ⟨htracks, hidle⟩ := hsettled slot hlive
    have hbursts : ∀ count ∈ (if slot.starts then w.starts ++ [w.outstanding] else w.starts),
        count = 0 := by
      split
      · rename_i hbegins
        intro count hmem
        rcases List.mem_append.mp hmem with hold | hnew
        · exact hstarts count hold
        · rw [List.mem_singleton.mp hnew]
          exact hidle (.inl rfl) hbegins
      · exact hstarts
    cases SlotLoop.write_outcome hlive h hwritable with
    | gone _ hgone =>
      rw [afterWritable_gone hwritable hlive hgone]
      exact ⟨settled_zero rfl, hbursts⟩
    | waits q hdelayed hafter hconnection _ =>
      rw [afterWritable_live hwritable hlive hafter]
      refine ⟨settled_zero ((if_neg ?_).trans (htracks.rests hdelayed)), hbursts⟩
      rintro ⟨hbegins, _⟩
      have hnot := (Slot.starts_iff.mp hbegins).1
      rw [hdelayed] at hnot
      cases hnot
    | whole q hdelayed _ hafter hwritten hqdelayed hpending =>
      rw [afterWritable_live hwritable hlive hafter]
      refine ⟨?_, hbursts⟩
      intro after hslot
      obtain rfl := Option.some.inj (hafter.symm.trans hslot)
      refine ⟨htracks.burst (hidle (.inl rfl)) hdelayed hqdelayed hpending, ?_⟩
      intro hready
      rcases hready with hready | hready
      · cases hready
      · cases hready
    | part q hdelayed hgoes hafter hwritten hqdelayed hpending =>
      rw [afterWritable_live hwritable hlive hafter]
      refine ⟨?_, hbursts⟩
      intro after hslot
      obtain rfl := Option.some.inj (hafter.symm.trans hslot)
      refine ⟨htracks.burst (hidle (.inl rfl)) hdelayed hqdelayed hpending, ?_⟩
      intro _ hagain
      -- Nothing was taken, so the burst was the one that starts again.
      have hnone : q.connection.written = 0 := (Slot.starts_iff.mp hagain).2
      have hbefore : slot.connection.written = 0 := by omega
      have hzero := hidle (.inl rfl) (Slot.starts_iff.mpr ⟨hdelayed, hbefore⟩)
      refine (if_neg ?_).trans hzero
      rintro ⟨_, hsent | hsent⟩
      · omega
      · cases hgoes.symm.trans hsent

structure Alone (w : Watched ε σ) : Prop where
  settled : w.Settled false
  starts : ∀ count ∈ w.starts, count = 0

theorem alone_step {action : Action ε σ} (halone : w.Alone) (hserved : w.Served driver action)
    (hundisturbed : w.Undisturbed action) (h : Step driver w action v) : v.Alone := by
  obtain ⟨hsettled, hstarts⟩ := halone
  cases action with
  | ready r =>
    rcases step_ready h with ⟨_, hreset, _⟩ | ⟨_, hgone, hsame⟩ |
      ⟨slot, m, hlive, hgate, hreadable, hwritable, hv⟩
    · rw [hreset]
      exact ⟨settled_zero rfl, hstarts⟩
    · exact ⟨settled_gone hgone, hsame ▸ hstarts⟩
    · have hopen : w.Settled r.writable := by
        intro other hother
        obtain rfl := Option.some.inj (hlive.symm.trans hother)
        obtain ⟨htracks, hidle⟩ := hsettled slot hlive
        exact ⟨htracks, fun hready => hidle (.inr (hready.elim hgate id))⟩
      obtain ⟨hread, hkept⟩ := settled_afterReadable hlive hopen hreadable fun hready =>
        hserved hready slot hlive
      rw [← hkept] at hstarts
      have hloop : (w.afterReadable driver r m).loop = m := afterReadable_loop
      rw [← hloop] at hwritable
      rw [hv]
      cases hbit : r.writable with
      | true =>
        rw [hbit] at hread
        obtain ⟨hafter, hbursts⟩ := settled_afterWritable hread hbit hstarts hwritable
        exact ⟨hafter, hbursts⟩
      | false =>
        rw [hbit] at hread
        rw [afterWritable_off hbit, SlotLoop.writablePart_off hbit hwritable]
        exact ⟨hread, hstarts⟩
  | timer now =>
    rw [step_timer h]
    rcases SlotLoop.popDeadline_cases w.loop now with hsame | ⟨hfires, hfired⟩
    · rw [hsame]
      exact ⟨hsettled, hstarts⟩
    · refine ⟨?_, hstarts⟩
      intro after hslot
      obtain ⟨slot, hlive, rfl⟩ := Option.map_eq_some_iff.mp (hfired.symm.trans hslot)
      refine ⟨⟨nofun, (hsettled slot hlive).1.counts⟩, ?_⟩
      intro _ hbegins
      rcases hundisturbed hfires slot hlive with hzero | hwritten
      · exact hzero
      · exact absurd (Slot.starts_iff.mp hbegins).2 hwritten
  | elsewhere thread =>
    rw [step_elsewhere h]
    exact ⟨hsettled, hstarts⟩

/-- A burst starts only when nothing is outstanding, in every run against a server that
answers at most once in which no deadline fires while a whole burst is unanswered. -/
theorem bursts_alone (driver : Driver ε σ) (opened : Option σ) (thread : Thread ε)
    (actions : List (Action ε σ)) (w : Watched ε σ)
    (h : RunWhile (fun _ w action => w.Served driver action ∧ w.Undisturbed action) (Step driver)
      (start driver.config opened thread) actions w) :
    ∀ count ∈ w.starts, count = 0 := by
  have halone : w.Alone := by
    apply h.history (I := fun _ w => w.Alone)
    · exact ⟨settled_gone (SlotLoop.connectSlot_live _ _), nofun⟩
    · intro _ w action v halone hguard hstep
      exact alone_step halone hguard.1 hguard.2 hstep
  exact halone.starts

def delayDriver : Driver Unit (List Bytes × Bytes) := quietDriver quietEngine queueSocket true

def delayStart : Watched Unit (List Bytes × Bytes) :=
  start delayDriver.config (some ([], [])) quietThread

theorem timer_step (w : Watched Unit (List Bytes × Bytes)) :
    Step delayDriver w (.timer 0) { w with loop := w.loop.popDeadline 0 } :=
  .mk (.timer w.loop 0)

theorem write_served (w : Watched Unit (List Bytes × Bytes)) (reads : List Bytes) :
    w.Served delayDriver (.ready (readiness reads false true)) := nofun

theorem timer_served (w : Watched Unit (List Bytes × Bytes)) :
    w.Served delayDriver (.timer 0) := trivial

theorem timer_undisturbed {w : Watched Unit (List Bytes × Bytes)} (h : w.outstanding = 0) :
    w.Undisturbed (.timer 0) := fun _ _ _ => .inl h

theorem bursts_alone_sample :
    ∃ w : Watched Unit (List Bytes × Bytes), w.starts.length = 1 ∧ ∀ count ∈ w.starts, count = 0 := by
  have hstart : RunWhile (fun _ w action => w.Served delayDriver action ∧ w.Undisturbed action)
      (Step delayDriver) delayStart [] delayStart := .refl _
  have hconnect := hstart.tail ⟨write_served _ [], trivial⟩ (next_step (.inr rfl) rfl)
  have hwaits := hconnect.tail ⟨write_served _ [], trivial⟩ (next_step (.inr rfl) rfl)
  have hfires := hwaits.tail ⟨timer_served _, timer_undisturbed rfl⟩ (timer_step _)
  have hburst := hfires.tail ⟨write_served _ [], trivial⟩ (next_step (.inr rfl) rfl)
  exact ⟨_, by rfl, bursts_alone delayDriver _ _ _ _ hburst⟩

/-- The server closes while the first connection waits: its deadline and the one of the
next connection both fire, and the second one sends the request again. -/
theorem stale_deadline_repeats :
    ∃ w : Watched Unit (List Bytes × Bytes),
      RunWhile (fun _ w action => w.Served delayDriver action) (Step delayDriver) delayStart
        [.ready (readiness [[]] false true), .ready (readiness [] false true),
          .ready (readiness [] true false), .ready (readiness [] false true),
          .ready (readiness [] false true), .timer 0, .ready (readiness [] false true), .timer 0,
          .ready (readiness [] false true)] w ∧
      w.starts = [0, 1] := by
  have hstart : RunWhile (fun _ w action => w.Served delayDriver action) (Step delayDriver)
      delayStart [] delayStart := .refl _
  have hconnect := hstart.tail (write_served _ [[]]) (next_step (.inr rfl) rfl)
  have hwaits := hconnect.tail (write_served _ []) (next_step (.inr rfl) rfl)
  have hcloses := hwaits.tail (a := .ready (readiness [] true false)) (by
    intro _ slot hslot
    obtain rfl := Option.some.inj hslot
    decide) (next_step (.inl rfl) rfl)
  have hreconnects := hcloses.tail (write_served _ []) (next_step (.inr rfl) rfl)
  have hagain := hreconnects.tail (write_served _ []) (next_step (.inr rfl) rfl)
  have hstale := hagain.tail (timer_served _) (timer_step _)
  have hburst := hstale.tail (write_served _ []) (next_step (.inr rfl) rfl)
  have hfires := hburst.tail (timer_served _) (timer_step _)
  have hrepeats := hfires.tail (write_served _ []) (next_step (.inr rfl) rfl)
  exact ⟨_, hrepeats, rfl⟩

end Watched

end Wrkrs
