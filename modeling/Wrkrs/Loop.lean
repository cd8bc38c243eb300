import Wrkrs.Worker

/-!
# The loop of a thread

The body of `loop_once` step by step: a poll, the events of its batch in order, the due
delays, the rate tick and the stop flags. Between two steps other threads may change what
all loops share. The poll, the clock and the sampled rate come from outside.
-/

namespace Wrkrs

set_option autoImplicit false
set_option maxRecDepth 4096

open Text Machine Runs

variable {ε σ : Type}

structure Shared where
  latency : Histogram
  rate : Histogram
  stop : Bool

/-- The stop flag of the handle of a thread, which its engine may raise and nothing clears. -/
structure StopHandle (engine : ScriptEngine ε) where
  stopped : ε → Bool
  delay : ∀ state, stopped state = true → stopped (engine.delay state).2 = true
  request : ∀ state, stopped state = true → stopped (engine.request state).2 = true
  response : ∀ state status headers body, stopped state = true →
    stopped (engine.response state status headers body).2 = true

/-- A thread with its handle. A window of requests over some microseconds has a rate. -/
structure Bench (ε σ : Type) where
  driver : Driver ε σ
  handle : StopHandle driver.engine
  sample : Nat → Nat → Nat

inductive LoopStage (σ : Type) where
  | polls
  | handles (events : List (Nat × Readiness σ))
  | fires
  | ticks
  | checks
  | ended

structure LoopState (ε σ : Type) where
  worker : Worker ε σ
  stage : LoopStage σ
  rateDeadline : Nat
  windowStart : Nat

/-- What a step finds outside: the poll with its ready tokens, and the clock. -/
structure Outside (σ : Type) where
  polled : Except Str (List (Nat × Readiness σ))
  now : Nat
  sampledAt : Nat
  restartedAt : Nat

/-- The sample window of the rate histogram in microseconds. -/
def recordInterval : Nat := 100 * 1000

/-- The deadline on top of the heap: the earliest, and the least token of equals. -/
def earliest : List (Nat × Nat) → Option (Nat × Nat)
  | [] => none
  | due :: rest =>
    match earliest rest with
    | none => some due
    | some other =>
      if other.1 < due.1 ∨ other.1 = due.1 ∧ other.2 < due.2 then some other else some due

/-- The poll timeout until the next deadline. -/
def nextTimeout (deadlines : List (Nat × Nat)) (rateDeadline now : Nat) : Nat :=
  min (((earliest deadlines).map Prod.fst).getD rateDeadline) rateDeadline - now

def Worker.sharing (w : Worker ε σ) (g : Shared) : Worker ε σ :=
  { w with thread := { w.thread with latency := g.latency } }

def Worker.fire (w : Worker ε σ) (due : Nat × Nat) : Except Halt (Worker ε σ) :=
  if due.2 < w.slots.length then
    .ok ({ w with deadlines := w.deadlines.erase due }.put due.2 (w.view due.2).delayFired)
  else .error (.panic .slice)

namespace LoopState

variable (b : Bench ε σ) (o : Outside σ) (g : Shared) (t : LoopState ε σ)

def goTo (stage : LoopStage σ) : LoopState ε σ := { t with stage := stage }

def sharing : LoopState ε σ := { t with worker := t.worker.sharing g }

def start (config : LoopConfig) (opened : List (Option σ)) (thread : Thread ε) (now began : Nat) :
    LoopState ε σ where
  worker := .start config opened thread
  stage := .polls
  rateDeadline := now + recordInterval
  windowStart := began

/-- The rate window sample; a window without requests goes on. -/
def recordRate : Shared × LoopState ε σ :=
  if 0 < t.worker.thread.counters.requests then
    let elapsed := o.sampledAt - t.windowStart
    let sampled := b.sample t.worker.thread.counters.requests elapsed
    ({ g with rate := (g.rate.record sampled).2 },
      { t with
        worker := { t.worker with thread := t.worker.thread.recordRate }
        windowStart := o.restartedAt })
  else (g, t)

def stopped : Bool := b.handle.stopped t.worker.thread.engine

def event (index : Nat) (r : Readiness σ) : Except Halt (Shared × LoopState ε σ) :=
  if index < t.worker.slots.length then do
    let s ← (t.worker.view index).ready b.driver r
    return ({ g with latency := s.thread.latency }, { t with worker := t.worker.put index s })
  else .ok (g, t)

def delays : Except Halt (LoopState ε σ) :=
  match earliest t.worker.deadlines with
  | some due =>
    if o.now < due.1 then .ok (t.goTo .ticks)
    else do
      let worker ← t.worker.fire due
      return { t with worker := worker }
  | none => .ok (t.goTo .ticks)

def tick : Shared × LoopState ε σ :=
  if t.rateDeadline ≤ o.now then
    let (g, t) := t.recordRate b o g
    let t := { t with rateDeadline := t.rateDeadline + recordInterval }
    (g, t.goTo (if g.stop || t.stopped b then .ended else .checks))
  else (g, t.goTo .checks)

/-- A thread stop exits at the end of the iteration it fired in. -/
def check : LoopState ε σ := t.goTo (if t.stopped b then .ended else .polls)

/-- One step of a loop that sees the shared histogram. -/
def advance : Except Halt (Shared × LoopState ε σ) :=
  match t.stage with
  | .polls =>
    match o.polled with
    | .error message => .error (.exit message)
    | .ok events => .ok (g, t.goTo (.handles events))
  | .handles [] => .ok (g, t.goTo .fires)
  | .handles ((index, r) :: rest) => (t.goTo (.handles rest)).event b g index r
  | .fires => (t.delays o).map fun t => (g, t)
  | .ticks => .ok (t.tick b o g)
  | .checks => .ok (g, t.check b)
  | .ended => .ok (g, t)

def step : Except Halt (Shared × LoopState ε σ) := (t.sharing g).advance b o g

end LoopState

/-- What can be told of a step: when a poll begins and how long it may take, the processed
responses of an event, the clock at which no delay is due, the clock of a tick with the
requests of the window that it closes. -/
inductive Deed (ε σ : Type) where
  | polls (now timeout : Nat)
  | skips
  | handles (answers : List (Answer ε σ))
  | handled
  | fires
  | rests (now : Nat)
  | ticks (now : Nat) (window : Nat)
  | early (now : Nat)
  | checks

def Deed.answers : Deed ε σ → List (Answer ε σ)
  | .handles answers => answers
  | _ => []

def Deed.window : Deed ε σ → Nat
  | .ticks _ window => window
  | _ => 0

inductive Advances (b : Bench ε σ) (g : Shared) (t : LoopState ε σ) :
    Deed ε σ → Shared → LoopState ε σ → Prop where
  | polls (now : Nat) (events : List (Nat × Readiness σ)) : t.stage = .polls →
      Advances b g t (.polls now (nextTimeout t.worker.deadlines t.rateDeadline now)) g
        (t.goTo (.handles events))
  | skips {index : Nat} {r : Readiness σ} {rest : List (Nat × Readiness σ)} :
      t.stage = .handles ((index, r) :: rest) → t.worker.slots.length ≤ index →
      Advances b g t .skips g (t.goTo (.handles rest))
  | handles {index : Nat} {r : Readiness σ} {rest : List (Nat × Readiness σ)}
      {s : SlotLoop ε σ} : t.stage = .handles ((index, r) :: rest) →
      index < t.worker.slots.length → (t.worker.view index).ready b.driver r = .ok s →
      Advances b g t (.handles ((t.worker.view index).served b.driver r))
        { g with latency := s.thread.latency }
        { t.goTo (.handles rest) with worker := t.worker.put index s }
  | handled : t.stage = .handles [] → Advances b g t .handled g (t.goTo .fires)
  | fires {now : Nat} {due : Nat × Nat} : t.stage = .fires →
      earliest t.worker.deadlines = some due → due.1 ≤ now → due.2 < t.worker.slots.length →
      Advances b g t .fires g { t with
        worker := { t.worker with deadlines := t.worker.deadlines.erase due }.put due.2
          (t.worker.view due.2).delayFired }
  | rests (now : Nat) : t.stage = .fires →
      (∀ due, earliest t.worker.deadlines = some due → now < due.1) →
      Advances b g t (.rests now) g (t.goTo .ticks)
  | ticks (o : Outside σ) : t.stage = .ticks → t.rateDeadline ≤ o.now →
      Advances b g t (.ticks o.now t.worker.thread.counters.requests) (t.tick b o g).1
        (t.tick b o g).2
  | early {now : Nat} : t.stage = .ticks → now < t.rateDeadline →
      Advances b g t (.early now) g (t.goTo .checks)
  | checks : t.stage = .checks → Advances b g t .checks g (t.check b)

/-- One step of a thread that has not ended, between those of the others. -/
def Takes (b : Bench ε σ) (g : Shared) (t : LoopState ε σ) (deed : Deed ε σ) (g' : Shared)
    (t' : LoopState ε σ) : Prop :=
  Advances b g (t.sharing g) deed g' t'

section Steps
variable {b : Bench ε σ} {o : Outside σ} {g g' : Shared} {t t' : LoopState ε σ}

theorem earliest_none {deadlines : List (Nat × Nat)} (h : earliest deadlines = none) :
    deadlines = [] := by
  cases deadlines with
  | nil => rfl
  | cons due rest =>
    unfold earliest at h
    split at h
    · cases h
    · split at h <;> cases h

/-- No deadline comes before the one on top of the heap. -/
theorem earliest_some {deadlines : List (Nat × Nat)} {due : Nat × Nat}
    (h : earliest deadlines = some due) :
    due ∈ deadlines ∧ ∀ other ∈ deadlines, due.1 ≤ other.1 := by
  induction deadlines generalizing due with
  | nil => cases h
  | cons first rest ih =>
    unfold earliest at h
    cases hrest : earliest rest with
    | none =>
      rw [hrest] at h
      obtain rfl := Option.some.inj h
      rw [earliest_none hrest]
      exact ⟨List.mem_cons_self, List.forall_mem_singleton.mpr (Nat.le_refl _)⟩
    | some other =>
      obtain ⟨hmem, hleast⟩ := ih hrest
      rw [hrest] at h
      dsimp only at h
      by_cases hbefore : other.1 < first.1 ∨ other.1 = first.1 ∧ other.2 < first.2
      · rw [if_pos hbefore] at h
        obtain rfl := Option.some.inj h
        refine ⟨List.mem_cons_of_mem _ hmem, List.forall_mem_cons.mpr ⟨?_, hleast⟩⟩
        omega
      · rw [if_neg hbefore] at h
        obtain rfl := Option.some.inj h
        refine ⟨List.mem_cons_self, List.forall_mem_cons.mpr ⟨Nat.le_refl _, ?_⟩⟩
        intro due hdue
        have hother := hleast due hdue
        omega

theorem earliest_later {deadlines : List (Nat × Nat)} {now : Nat}
    (h : ∀ due, earliest deadlines = some due → now < due.1) : ∀ due ∈ deadlines, now < due.1 := by
  cases hearliest : earliest deadlines with
  | none =>
    rw [earliest_none hearliest]
    exact List.forall_mem_nil _
  | some first =>
    intro due hdue
    exact Nat.lt_of_lt_of_le (h first hearliest) ((earliest_some hearliest).2 due hdue)

theorem LoopState.advance_advances (h : t.advance b o g = .ok (g', t'))
    (hgoes : t.stage ≠ .ended) : ∃ deed, Advances b g t deed g' t' := by
  unfold advance at h
  cases hstage : t.stage with
  | polls =>
    rw [hstage] at h
    cases hpolled : o.polled with
    | error message =>
      rw [hpolled] at h
      cases h
    | ok events =>
      rw [hpolled] at h
      obtain ⟨rfl, rfl⟩ := Prod.mk.inj (Except.ok.inj h)
      exact ⟨_, .polls o.now events hstage⟩
  | handles events =>
    cases events with
    | nil =>
      rw [hstage] at h
      obtain ⟨rfl, rfl⟩ := Prod.mk.inj (Except.ok.inj h)
      exact ⟨_, .handled hstage⟩
    | cons first rest =>
      obtain ⟨index, r⟩ := first
      rw [hstage] at h
      dsimp only [event, goTo] at h
      by_cases hindex : index < t.worker.slots.length
      · rw [if_pos hindex] at h
        cases hready : (t.worker.view index).ready b.driver r with
        | error halt =>
          rw [hready] at h
          cases h
        | ok s =>
          rw [hready] at h
          obtain ⟨rfl, rfl⟩ := Prod.mk.inj (Except.ok.inj h)
          exact ⟨_, .handles hstage hindex hready⟩
      · rw [if_neg hindex] at h
        obtain ⟨rfl, rfl⟩ := Prod.mk.inj (Except.ok.inj h)
        exact ⟨_, .skips hstage (Nat.le_of_not_lt hindex)⟩
  | fires =>
    rw [hstage] at h
    obtain ⟨u, hu, hpair⟩ := map_eq_ok.mp h
    obtain ⟨rfl, rfl⟩ := Prod.mk.inj hpair
    unfold delays at hu
    cases hearliest : earliest t.worker.deadlines with
    | none =>
      rw [hearliest] at hu
      obtain rfl := Except.ok.inj hu
      exact ⟨_, .rests o.now hstage fun due hdue => nomatch hearliest.symm.trans hdue⟩
    | some due =>
      rw [hearliest] at hu
      dsimp only at hu
      by_cases hlater : o.now < due.1
      · rw [if_pos hlater] at hu
        obtain rfl := Except.ok.inj hu
        refine ⟨_, .rests o.now hstage ?_⟩
        intro other hother
        obtain rfl := Option.some.inj (hearliest.symm.trans hother)
        exact hlater
      · rw [if_neg hlater] at hu
        unfold Worker.fire at hu
        by_cases hindex : due.2 < t.worker.slots.length
        · rw [if_pos hindex, ok_bind] at hu
          obtain rfl := Except.ok.inj hu
          exact ⟨_, .fires hstage hearliest (Nat.le_of_not_lt hlater) hindex⟩
        · rw [if_neg hindex] at hu
          cases hu
  | ticks =>
    rw [hstage] at h
    by_cases hdue : t.rateDeadline ≤ o.now
    · obtain ⟨rfl, rfl⟩ := Prod.mk.inj (Except.ok.inj h)
      exact ⟨_, .ticks o hstage hdue⟩
    · unfold tick at h
      rw [if_neg hdue] at h
      obtain ⟨rfl, rfl⟩ := Prod.mk.inj (Except.ok.inj h)
      exact ⟨_, .early hstage (Nat.lt_of_not_le hdue)⟩
  | checks =>
    rw [hstage] at h
    obtain ⟨rfl, rfl⟩ := Prod.mk.inj (Except.ok.inj h)
    exact ⟨_, .checks hstage⟩
  | ended => exact absurd hstage hgoes

theorem Advances.advance {deed : Deed ε σ} (h : Advances b g t deed g' t') :
    t.stage ≠ .ended ∧ ∃ o, t.advance b o g = .ok (g', t') := by
  have hgoes : ∀ {stage : LoopStage σ}, t.stage = stage → stage ≠ .ended → t.stage ≠ .ended :=
    fun hstage hne => hstage ▸ hne
  cases h with
  | polls now events hstage =>
    refine ⟨hgoes hstage nofun, ⟨.ok events, now, 0, 0⟩, ?_⟩
    unfold LoopState.advance
    rw [hstage]
  | @skips index r rest hstage hindex =>
    refine ⟨hgoes hstage nofun, ⟨.ok [], 0, 0, 0⟩, ?_⟩
    unfold LoopState.advance
    rw [hstage]
    exact if_neg (Nat.not_lt.mpr hindex)
  | @handles index r rest s hstage hindex hready =>
    refine ⟨hgoes hstage nofun, ⟨.ok [], 0, 0, 0⟩, ?_⟩
    unfold LoopState.advance
    rw [hstage]
    dsimp only [LoopState.event, LoopState.goTo]
    rw [if_pos hindex, hready]
    rfl
  | handled hstage =>
    refine ⟨hgoes hstage nofun, ⟨.ok [], 0, 0, 0⟩, ?_⟩
    unfold LoopState.advance
    rw [hstage]
  | @fires now due hstage hearliest hdue hindex =>
    refine ⟨hgoes hstage nofun, ⟨.ok [], now, 0, 0⟩, ?_⟩
    unfold LoopState.advance
    rw [hstage]
    dsimp only [LoopState.delays, Worker.fire]
    rw [hearliest]
    dsimp only
    rw [if_neg (Nat.not_lt.mpr hdue), if_pos hindex, ok_bind, hstage]
    rfl
  | rests now hstage hlater =>
    refine ⟨hgoes hstage nofun, ⟨.ok [], now, 0, 0⟩, ?_⟩
    unfold LoopState.advance
    rw [hstage]
    dsimp only [LoopState.delays]
    cases hearliest : earliest t.worker.deadlines with
    | none => rfl
    | some due =>
      dsimp only
      rw [if_pos (hlater due hearliest)]
      rfl
  | ticks o hstage hdue =>
    refine ⟨hgoes hstage nofun, o, ?_⟩
    unfold LoopState.advance
    rw [hstage]
  | @early now hstage hearly =>
    refine ⟨hgoes hstage nofun, ⟨.ok [], now, 0, 0⟩, ?_⟩
    unfold LoopState.advance
    rw [hstage]
    dsimp only [LoopState.tick]
    rw [if_neg (Nat.not_le.mpr hearly)]
  | checks hstage =>
    refine ⟨hgoes hstage nofun, ⟨.ok [], 0, 0, 0⟩, ?_⟩
    unfold LoopState.advance
    rw [hstage]

/-- The steps of a loop that has not ended, told by what they do. -/
theorem step_iff_takes :
    (t.stage ≠ .ended ∧ ∃ o, t.step b o g = .ok (g', t')) ↔ ∃ deed, Takes b g t deed g' t' := by
  constructor
  · intro h
    obtain ⟨hgoes, o, ho⟩ := h
    exact LoopState.advance_advances ho hgoes
  · intro h
    obtain ⟨deed, hdeed⟩ := h
    exact hdeed.advance

def LoopState.next (b : Bench ε σ) (o : Outside σ) (s : Shared × LoopState ε σ) :
    Shared × LoopState ε σ :=
  match s.2.stage, s.2.step b o s.1 with
  | .ended, _ => s
  | _, .ok u => u
  | _, .error _ => s

theorem next_takes (b : Bench ε σ) (o : Outside σ) (s : Shared × LoopState ε σ) :
    LoopState.next b o s = s ∨
      ∃ deed, Takes b s.1 s.2 deed (LoopState.next b o s).1 (LoopState.next b o s).2 := by
  unfold LoopState.next
  split
  · exact .inl rfl
  · rename_i u hstep hgoes
    exact .inr (step_iff_takes.mp ⟨hgoes, o, hstep⟩)
  · exact .inl rfl

theorem Advances.worker {deed : Deed ε σ} (h : Advances b g t deed g' t') :
    (t'.worker = t.worker ∧ deed.answers = []) ∨
      Worker.Step b.driver t.worker deed.answers t'.worker := by
  cases h with
  | polls now events hstage => exact .inl ⟨rfl, rfl⟩
  | skips hstage hindex => exact .inl ⟨rfl, rfl⟩
  | handles hstage hindex hready => exact .inr (.ready _ _ hindex hready)
  | handled hstage => exact .inl ⟨rfl, rfl⟩
  | @fires now due hstage hearliest hdue hindex =>
    obtain ⟨hmem, hleast⟩ := earliest_some hearliest
    exact .inr (.deadline now due.1 due.2 hmem hleast hdue)
  | rests now hstage hlater => exact .inl ⟨rfl, rfl⟩
  | ticks o hstage hdue =>
    dsimp only [LoopState.tick, LoopState.recordRate]
    rw [if_pos hdue]
    by_cases hrequests : 0 < t.worker.thread.counters.requests
    · rw [if_pos hrequests]
      exact .inr .tick
    · rw [if_neg hrequests]
      exact .inl ⟨rfl, rfl⟩
  | early hstage hearly => exact .inl ⟨rfl, rfl⟩
  | checks hstage => exact .inl ⟨rfl, rfl⟩

end Steps

end Wrkrs
