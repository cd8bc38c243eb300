import Mathlib.Data.List.Induction
import Wrkrs.ConnectionTrail

/-!
# Latency samples

A value is offered to the latency histogram once a burst, when the last response of its
pipeline is processed: over runs of one connection, with everything that other
connections of the thread do in between.
-/

namespace Wrkrs

set_option autoImplicit false
set_option maxRecDepth 4096

open Text Machine Runs

variable {ε σ : Type} {build : Build} {parse : ResponseParser} {engine : ScriptEngine ε}
variable {socket : Socket σ} {now : Nat}

/-- A burst starts, or a response is processed: whether the script took it, and whether
the histogram recorded a value or a timeout was counted. -/
inductive Pulse where
  | burst
  | answer (taken recorded timedOut : Bool)
  deriving DecidableEq, Repr

namespace Pulse

def isAnswer : Pulse → Bool
  | burst => false
  | answer _ _ _ => true

def taken : Pulse → Bool
  | burst => false
  | answer taken _ _ => taken

def recorded : Pulse → Bool
  | burst => false
  | answer _ recorded _ => recorded

def timedOut : Pulse → Bool
  | burst => false
  | answer _ _ timedOut => timedOut

end Pulse

def Answer.pulse (engine : ScriptEngine ε) (a : Answer ε σ) : Pulse :=
  .answer
    (Endpoint.deliver engine a.before.ctx.wantsResponse a.before.ctx.engine a.response).1.isOk
    (a.after.ctx.latency != a.before.ctx.latency)
    (a.after.ctx.counters.errors.timeout != a.before.ctx.counters.errors.timeout)

/-- A writable call starts a burst, when it neither waits nor goes on with one and the
script has a request. -/
def Endpoint.bursts (engine : ScriptEngine ε) (now : Nat) (p : Endpoint ε σ) : List Pulse :=
  if p.connection.delayed = false ∧ p.connection.written = 0 ∧
      (p.startBurst engine now).1.isOk = true then [.burst]
  else []

structure Tally where
  started : Bool
  answered : Nat
  deriving DecidableEq, Repr

def Tally.next : Tally → Pulse → Tally
  | _, .burst => ⟨true, 0⟩
  | t, .answer taken _ _ => if taken then ⟨t.started, t.answered + 1⟩ else t

/-- Whether a burst has started, and the responses processed since the last one. -/
def tally (pulses : List Pulse) : Tally := pulses.foldl Tally.next ⟨false, 0⟩

def Tally.pending (pipeline : UInt64) (t : Tally) : UInt64 :=
  (if t.started then pipeline else 0) - UInt64.ofNat t.answered

/-- The next response is the last of the pipeline. -/
def Tally.Last (pipeline : UInt64) (t : Tally) : Prop :=
  t.started = true ∧ t.answered + 1 = pipeline.toNat

instance (pipeline : UInt64) (t : Tally) : Decidable (t.Last pipeline) :=
  inferInstanceAs (Decidable (_ ∧ _))

theorem tally_append (past : List Pulse) (pulse : Pulse) :
    tally (past ++ [pulse]) = (tally past).next pulse := by
  unfold tally
  rw [List.foldl_append]
  rfl

theorem tally_le (pulses : List Pulse) : (tally pulses).answered ≤ pulses.countP Pulse.isAnswer := by
  induction pulses using List.reverseRecOn with
  | nil => exact Nat.le_refl _
  | append_singleton past pulse ih =>
    rw [tally_append, List.countP_append]
    cases pulse with
    | burst => exact Nat.zero_le _
    | answer taken recorded timedOut =>
      have hone : [Pulse.answer taken recorded timedOut].countP Pulse.isAnswer = 1 := rfl
      rw [hone]
      unfold Tally.next
      dsimp only
      split
      · exact Nat.succ_le_succ ih
      · omega

theorem Tally.pending_next {pipeline : UInt64} {t : Tally} :
    t.pending pipeline - 1 = Tally.pending pipeline ⟨t.started, t.answered + 1⟩ := by
  unfold Tally.pending
  rw [UInt64.ofNat_add]
  grind

/-- The counter reaches zero with the last response of the pipeline, and wraps only
after as many responses as there are words. -/
theorem Tally.pending_pred {pipeline : UInt64} {t : Tally} (h : t.answered + 1 < word) :
    t.pending pipeline - 1 = 0 ↔ t.Last pipeline := by
  rw [Tally.pending_next, Tally.pending, UInt64.sub_eq_iff_eq_add, UInt64.zero_add,
    ← UInt64.toNat_inj, UInt64.toNat_ofNat_of_lt' h]
  unfold Tally.Last
  cases t.started with
  | false => exact iff_of_false (fun hzero => Nat.succ_ne_zero _ hzero.symm) (fun h => nomatch h.1)
  | true =>
    simp only [if_true, true_and]
    exact eq_comm

/-- What a processed response does to the pending counter and to the samples. -/
inductive Sampled (p q : Endpoint ε σ) : Pulse → Prop where
  | refused : q.connection.pending = p.connection.pending →
      Sampled p q (.answer false false false)
  | passes : p.connection.pending - 1 ≠ 0 →
      q.connection.pending = p.connection.pending - 1 → Sampled p q (.answer true false false)
  | records : p.connection.pending - 1 = 0 →
      q.connection.pending = p.connection.pending - 1 → Sampled p q (.answer true true false)
  | timesOut : p.connection.pending - 1 = 0 →
      q.connection.pending = p.connection.pending - 1 → Sampled p q (.answer true false true)

theorem record_true {h g : Histogram} {value : Nat} (hrecord : h.record value = (true, g)) :
    (g != h) = true := by
  unfold Histogram.record at hrecord
  split at hrecord
  · cases (Prod.mk.inj hrecord).1
  · obtain rfl := (Prod.mk.inj hrecord).2
    rw [bne_iff_ne]
    intro hsame
    have hcount : h.count + 1 = h.count := congrArg Histogram.count hsame
    have hone : (1 : UInt64) = 0 := by
      rwa [UInt64.add_eq_left] at hcount
    cases hone

theorem record_false {h g : Histogram} {value : Nat} (hrecord : h.record value = (false, g)) :
    g = h := by
  unfold Histogram.record at hrecord
  split at hrecord
  · exact (Prod.mk.inj hrecord).2.symm
  · cases (Prod.mk.inj hrecord).1

namespace Endpoint

theorem respond_sampled (engine : ScriptEngine ε) (now : Nat) (p : Endpoint ε σ) (r : Response) :
    Sampled p (p.respond engine now r).2
        (Answer.pulse engine ⟨p, r, (p.respond engine now r).2⟩) ∧
      (p.respond engine now r).2.ctx.pipeline = p.ctx.pipeline := by
  have hpipeline := (respond_spec engine now p r).keeps.pipeline
  refine ⟨?_, hpipeline⟩
  obtain ⟨answer, state, hdeliver⟩ : ∃ answer state,
      deliver engine p.ctx.wantsResponse p.ctx.engine r = (answer, state) := ⟨_, _, rfl⟩
  unfold Answer.pulse
  dsimp only
  rw [hdeliver, respond_eq hdeliver]
  cases answer with
  | error error =>
    have hlatency : (p.answered r state).ctx.latency = p.ctx.latency := rfl
    dsimp only
    rw [hlatency, answered_timeout, bne_self_eq_false, bne_self_eq_false]
    exact .refused rfl
  | ok _ =>
    have htimeout : (p.answered r state).countDown.ctx.counters.errors.timeout =
        p.ctx.counters.errors.timeout := answered_timeout p r state
    have hlatency : (p.answered r state).countDown.ctx.latency = p.ctx.latency := rfl
    dsimp only
    by_cases hzero : (p.answered r state).countDown.connection.pending = 0
    · rw [if_pos hzero]
      have hpending : ((p.answered r state).countDown.drained now).connection.pending =
          p.connection.pending - 1 := by rw [drained_connection]; rfl
      dsimp only
      rw [drained_latency, drained_timeout, hlatency, htimeout]
      cases hrecord : p.ctx.latency.record ((p.answered r state).countDown.elapsed now) with
      | mk recorded latency =>
        cases recorded with
        | true =>
          dsimp only
          rw [record_true hrecord, if_pos rfl, Nat.add_zero, bne_self_eq_false]
          exact .records hzero hpending
        | false =>
          have hmore : (p.ctx.counters.errors.timeout + 1 != p.ctx.counters.errors.timeout) =
              true := bne_iff_ne.mpr (Nat.succ_ne_self _)
          dsimp only
          rw [record_false hrecord, if_neg Bool.false_ne_true, bne_self_eq_false, hmore]
          exact .timesOut hzero hpending
    · rw [if_neg hzero]
      have hpulse : Sampled p (p.answered r state).countDown
          (.answer (Except.ok (ε := EngineError) ()).isOk
            ((p.answered r state).countDown.ctx.latency != p.ctx.latency)
            ((p.answered r state).countDown.ctx.counters.errors.timeout !=
              p.ctx.counters.errors.timeout)) := by
        rw [hlatency, htimeout, bne_self_eq_false, bne_self_eq_false]
        exact .passes hzero rfl
      split <;> exact hpulse

theorem writable_bursts {p q : Endpoint ε σ} {event : Event}
    (h : p.writable engine socket now = .ok (event, q)) :
    q.ctx.pipeline = p.ctx.pipeline ∧
      ((p.bursts engine now = [.burst] ∧ q.connection.pending = p.ctx.pipeline) ∨
        (p.bursts engine now = [] ∧ q.connection.pending = p.connection.pending)) := by
  unfold bursts
  cases hdelayed : p.connection.delayed with
  | true =>
    rw [if_neg (fun h => nomatch h.1)]
    simp only [writable, hdelayed, if_true] at h
    obtain ⟨_, rfl⟩ := Prod.mk.inj (Except.ok.inj h)
    exact ⟨rfl, .inr ⟨rfl, rfl⟩⟩
  | false =>
    simp only [writable, hdelayed, if_neg Bool.false_ne_true] at h
    cases hstart : p.startBurst engine now with
    | mk answer b =>
      rw [hstart] at h
      cases answer with
      | error error =>
        rw [if_neg (fun h => nomatch h.2.2)]
        obtain ⟨_, rfl⟩ := Prod.mk.inj (Except.ok.inj h)
        obtain ⟨_, state, rfl⟩ := startBurst_error hstart
        exact ⟨rfl, .inr ⟨rfl, rfl⟩⟩
      | ok _ =>
        have hstarted := startBurst_ok hstart
        obtain ⟨_, hoffered⟩ := send_cases h
        have hkeeps : q.ctx.pipeline = b.ctx.pipeline ∧
            q.connection.pending = b.connection.pending := by
          cases hoffered <;> exact ⟨rfl, rfl⟩
        rw [hkeeps.1, hkeeps.2]
        refine ⟨hstarted.pipeline, ?_⟩
        by_cases hwritten : p.connection.written = 0
        · rw [if_pos ⟨rfl, hwritten, rfl⟩]
          exact .inl ⟨rfl, (hstarted.begins hwritten).1⟩
        · rw [if_neg (fun h => hwritten h.2.1)]
          exact .inr ⟨rfl, (hstarted.goesOn hwritten).2⟩

end Endpoint

/-- One call on a connection with its pulses, or anything that other connections of the
thread do to what they share. -/
inductive Pulsed (build : Build) (parse : ResponseParser) (engine : ScriptEngine ε)
    (socket : Socket σ) : Endpoint ε σ → List Pulse → Endpoint ε σ → Prop where
  | writable {p q : Endpoint ε σ} {event : Event} (now : Nat) :
      p.writable engine socket now = .ok (event, q) →
      Pulsed build parse engine socket p (p.bursts engine now) q
  | readable {p q : Endpoint ε σ} {event : Event} (now fuel : Nat) :
      Endpoint.readable build parse engine socket now fuel p = .ok (event, q) →
      Pulsed build parse engine socket p
        ((p.trailIn build parse engine socket now fuel).map (Answer.pulse engine)) q
  | delayFired (p : Endpoint ε σ) :
      Pulsed build parse engine socket p [] { p with connection := p.connection.delayFired.2 }
  | elsewhere (p : Endpoint ε σ) (ctx : ThreadCtx ε) : ctx.pipeline = p.ctx.pipeline →
      Pulsed build parse engine socket p [] { p with ctx := ctx }

/-- A pulse after `t`: a value is offered with the last response of the pipeline only,
and is recorded or times out. -/
structure Pulse.Fits (pipeline : UInt64) (t : Tally) (pulse : Pulse) : Prop where
  offered : pulse.recorded = true ∨ pulse.timedOut = true ↔ pulse.taken = true ∧ t.Last pipeline
  single : ¬ (pulse.recorded = true ∧ pulse.timedOut = true)

def Fitting (pipeline : UInt64) (pulses : List Pulse) : Prop :=
  ∀ past pulse rest, pulses = past ++ pulse :: rest → pulse.Fits pipeline (tally past)

theorem fitting_nil (pipeline : UInt64) : Fitting pipeline [] := by
  intro past pulse rest h
  exact absurd h.symm (List.append_ne_nil_of_right_ne_nil _ (List.cons_ne_nil _ _))

theorem fitting_append {pipeline : UInt64} {past : List Pulse} {pulse : Pulse}
    (h : Fitting pipeline past) (hpulse : pulse.Fits pipeline (tally past)) :
    Fitting pipeline (past ++ [pulse]) := by
  intro before other rest hsplit
  rcases List.eq_nil_or_concat rest with rfl | ⟨rest, last, rfl⟩
  · obtain ⟨rfl, hlast⟩ := List.append_inj' hsplit rfl
    obtain rfl := List.cons.inj hlast |>.1
    exact hpulse
  · have hinit : past ++ [pulse] = (before ++ other :: rest) ++ [last] := by
      rw [hsplit, List.concat_eq_append, List.append_assoc, List.cons_append]
    exact h before other rest (List.append_inj' hinit rfl).1

theorem fitting_init {pipeline : UInt64} {past : List Pulse} {pulse : Pulse}
    (h : Fitting pipeline (past ++ [pulse])) :
    Fitting pipeline past ∧ pulse.Fits pipeline (tally past) := by
  constructor
  · intro before other rest hsplit
    apply h before other (rest ++ [pulse])
    rw [hsplit, List.append_assoc, List.cons_append]
  · exact h past pulse [] rfl

/-- A started burst that has not drained is worth one sample. -/
def Tally.credit (pipeline : UInt64) (t : Tally) : Nat :=
  if t.started = true ∧ t.answered < pipeline.toNat then 1 else 0

theorem Tally.credit_next {pipeline : UInt64} {t : Tally} {pulse : Pulse}
    (h : pulse.Fits pipeline t) :
    (if pulse.recorded = true then 1 else 0) + (if pulse.timedOut = true then 1 else 0) +
        (t.next pulse).credit pipeline ≤
      t.credit pipeline + if (pulse == .burst) = true then 1 else 0 := by
  obtain ⟨hoffered, hsingle⟩ := h
  cases pulse with
  | burst =>
    have hone : (t.next .burst).credit pipeline ≤ 1 := by
      unfold Tally.credit
      split <;> omega
    simp only [Pulse.recorded, Pulse.timedOut, Bool.false_eq_true, if_false, beq_self_eq_true,
      if_true]
    omega
  | answer taken recorded timedOut =>
    change recorded = true ∨ timedOut = true ↔ taken = true ∧ t.Last pipeline at hoffered
    change ¬ (recorded = true ∧ timedOut = true) at hsingle
    change (if recorded = true then 1 else 0) + (if timedOut = true then 1 else 0) + _ ≤ _
    by_cases hlast : taken = true ∧ t.Last pipeline
    · obtain ⟨rfl, hstarted, hcount⟩ := hlast
      have hbefore : t.credit pipeline = 1 := if_pos ⟨hstarted, by omega⟩
      have hafter : (t.next (.answer true recorded timedOut)).credit pipeline = 0 := by
        refine if_neg fun h => ?_
        have hless : t.answered + 1 < pipeline.toNat := h.2
        omega
      rw [hbefore, hafter]
      cases recorded <;> cases timedOut <;> simp at hsingle ⊢
    · obtain ⟨hrecorded, htimedOut⟩ := not_or.mp (mt hoffered.mp hlast)
      rw [if_neg hrecorded, if_neg htimedOut]
      have hle : (t.next (.answer taken recorded timedOut)).credit pipeline ≤ t.credit pipeline := by
        cases taken with
        | false => exact Nat.le_refl _
        | true =>
          change Tally.credit pipeline ⟨t.started, t.answered + 1⟩ ≤ t.credit pipeline
          unfold Tally.credit
          split
          · rename_i h
            rw [if_pos ⟨h.1, Nat.lt_of_succ_lt h.2⟩]
          · exact Nat.zero_le _
      omega

/-- Every sample belongs to a burst of its own. -/
theorem fitting_samples_le {pipeline : UInt64} {pulses : List Pulse} (h : Fitting pipeline pulses) :
    pulses.countP Pulse.recorded + pulses.countP Pulse.timedOut + (tally pulses).credit pipeline ≤
      pulses.countP (· == .burst) := by
  induction pulses using List.reverseRecOn with
  | nil => exact Nat.le_refl _
  | append_singleton past pulse ih =>
    obtain ⟨hpast, hpulse⟩ := fitting_init h
    have hbound := ih hpast
    have hcredit := Tally.credit_next hpulse
    rw [tally_append]
    simp only [List.countP_append, List.countP_singleton]
    omega

/-- The pending counter after a history, and the samples in it. -/
structure Sampling (pipeline : UInt64) (pulses : List Pulse) (p : Endpoint ε σ) : Prop where
  setting : p.ctx.pipeline = pipeline
  pending : p.connection.pending = (tally pulses).pending pipeline
  fitting : pulses.countP Pulse.isAnswer < word → Fitting pipeline pulses

section Sampling
variable {pipeline : UInt64} {pulses : List Pulse} {p q : Endpoint ε σ}

theorem Sampling.idles (h : Sampling pipeline pulses p)
    (hpipeline : q.ctx.pipeline = p.ctx.pipeline)
    (hpending : q.connection.pending = p.connection.pending) : Sampling pipeline pulses q :=
  ⟨hpipeline.trans h.setting, hpending.trans h.pending, h.fitting⟩

theorem Sampling.next (h : Sampling pipeline pulses p) {pulse : Pulse}
    (hpipeline : q.ctx.pipeline = p.ctx.pipeline)
    (hpending : q.connection.pending = ((tally pulses).next pulse).pending pipeline)
    (hfits : (pulses ++ [pulse]).countP Pulse.isAnswer < word →
      pulse.Fits pipeline (tally pulses)) :
    Sampling pipeline (pulses ++ [pulse]) q := by
  refine ⟨hpipeline.trans h.setting, ?_, ?_⟩
  · rw [tally_append]
    exact hpending
  · intro hfew
    have hbefore : pulses.countP Pulse.isAnswer < word := by
      rw [List.countP_append] at hfew
      omega
    exact fitting_append (h.fitting hbefore) (hfits hfew)

theorem Sampling.burst (h : Sampling pipeline pulses p)
    (hpipeline : q.ctx.pipeline = p.ctx.pipeline) (hpending : q.connection.pending = p.ctx.pipeline) :
    Sampling pipeline (pulses ++ [.burst]) q := by
  apply h.next hpipeline
  · rw [hpending, h.setting]
    exact (UInt64.sub_zero pipeline).symm
  · intro _
    constructor
    · simp [Pulse.recorded, Pulse.timedOut, Pulse.taken]
    · simp [Pulse.recorded]

theorem Sampling.respond (h : Sampling pipeline pulses p) (r : Response) :
    Sampling pipeline
      (pulses ++ [Answer.pulse engine ⟨p, r, (p.respond engine now r).2⟩])
      (p.respond engine now r).2 := by
  obtain ⟨hsampled, hpipeline⟩ := Endpoint.respond_sampled engine now p r
  generalize Answer.pulse engine ⟨p, r, (p.respond engine now r).2⟩ = pulse at hsampled
  have hlast : (pulses ++ [pulse]).countP Pulse.isAnswer < word → pulse.isAnswer = true →
      (p.connection.pending - 1 = 0 ↔ (tally pulses).Last pipeline) := by
    intro hfew hanswer
    rw [List.countP_append, List.countP_singleton, if_pos hanswer] at hfew
    have hle := tally_le pulses
    rw [h.pending]
    exact Tally.pending_pred (by omega)
  cases hsampled with
  | refused hpending =>
    apply h.next hpipeline
    · rw [hpending]
      exact h.pending
    · intro _
      constructor
      · simp [Pulse.recorded, Pulse.timedOut, Pulse.taken]
      · simp [Pulse.recorded]
  | passes hmore hpending =>
    apply h.next hpipeline
    · rw [hpending, h.pending]
      exact Tally.pending_next
    · intro hfew
      have hnot := (not_congr (hlast hfew rfl)).mp hmore
      constructor
      · simp [Pulse.recorded, Pulse.timedOut, Pulse.taken, hnot]
      · simp [Pulse.recorded]
  | records hzero hpending =>
    apply h.next hpipeline
    · rw [hpending, h.pending]
      exact Tally.pending_next
    · intro hfew
      have hdrained := (hlast hfew rfl).mp hzero
      constructor
      · simp [Pulse.recorded, Pulse.timedOut, Pulse.taken, hdrained]
      · simp [Pulse.timedOut]
  | timesOut hzero hpending =>
    apply h.next hpipeline
    · rw [hpending, h.pending]
      exact Tally.pending_next
    · intro hfew
      have hdrained := (hlast hfew rfl).mp hzero
      constructor
      · simp [Pulse.recorded, Pulse.timedOut, Pulse.taken, hdrained]
      · simp [Pulse.recorded]

/-- One call keeps the history in step with the counter. -/
theorem Sampling.step {fresh : List Pulse} (h : Sampling pipeline pulses p)
    (hstep : Pulsed build parse engine socket p fresh q) :
    Sampling pipeline (pulses ++ fresh) q := by
  cases hstep with
  | writable now hwritable =>
    obtain ⟨hpipeline, ⟨hburst, hpending⟩ | ⟨hnone, hpending⟩⟩ := Endpoint.writable_bursts hwritable
    · rw [hburst]
      exact h.burst hpipeline hpending
    · rw [hnone, List.append_nil]
      exact h.idles hpipeline hpending
  | readable now fuel hreadable =>
    have htrail := Endpoint.readable_trail
      (I := fun past p => Sampling pipeline (pulses ++ past.map (Answer.pulse engine)) p)
      (p := p) (q := q)
      (by
        intro past p r hp
        rw [List.map_append, ← List.append_assoc]
        exact hp.respond r)
      (fun past p q hidles hp => hp.idles hidles.pipeline hidles.pending)
      [] (by rwa [List.map_nil, List.append_nil]) hreadable
    rwa [List.nil_append] at htrail
  | delayFired =>
    rw [List.append_nil]
    exact h.idles rfl rfl
  | elsewhere ctx hpipeline =>
    rw [List.append_nil]
    exact h.idles hpipeline rfl

end Sampling

/-- In every run of a connection with fewer responses than words, a value is offered to
the histogram exactly with the last response of the pipeline since the last burst start,
samples never outnumber bursts, and the pending counter holds what is unanswered. -/
theorem samples_once (build : Build) (parse : ResponseParser) (engine : ScriptEngine ε)
    (socket : Socket σ) (staticRequest : Bytes) (wantsResponse delayed : Bool)
    (ctx : ThreadCtx ε) (state : σ) (pulses : List (List Pulse)) (p : Endpoint ε σ)
    (h : Run (Pulsed build parse engine socket)
      (.opened staticRequest wantsResponse delayed ctx state) pulses p)
    (hfew : pulses.flatten.countP Pulse.isAnswer < word) :
    (∀ past pulse rest, pulses.flatten = past ++ pulse :: rest →
      (pulse.recorded = true ∨ pulse.timedOut = true ↔
        pulse.taken = true ∧ (tally past).Last ctx.pipeline)) ∧
    pulses.flatten.countP Pulse.recorded + pulses.flatten.countP Pulse.timedOut ≤
      pulses.flatten.countP (· == .burst) ∧
    p.connection.pending = (tally pulses.flatten).pending ctx.pipeline := by
  have hsampling : Sampling ctx.pipeline pulses.flatten p := by
    apply h.history (I := fun pulses p => Sampling ctx.pipeline pulses.flatten p)
    · exact ⟨rfl, (UInt64.sub_zero 0).symm, fun _ => fitting_nil _⟩
    · intro pulses p fresh q hp _ hstep
      rw [List.flatten_append, List.flatten_singleton]
      exact hp.step hstep
  have hfitting := hsampling.fitting hfew
  refine ⟨fun past pulse rest hsplit => (hfitting past pulse rest hsplit).offered, ?_,
    hsampling.pending⟩
  exact Nat.le_trans (Nat.le_add_right _ _) (fitting_samples_le hfitting)

def oneBurst : List (List Pulse) := [[.burst], [.answer true true false]]

theorem samples_once_sample :
    ∃ p : Endpoint Unit (List Bytes × Bytes),
      (∀ past pulse rest, oneBurst.flatten = past ++ pulse :: rest →
        (pulse.recorded = true ∨ pulse.timedOut = true ↔
          pulse.taken = true ∧ (tally past).Last 1)) ∧
      oneBurst.flatten.countP Pulse.recorded + oneBurst.flatten.countP Pulse.timedOut ≤
        oneBurst.flatten.countP (· == .burst) ∧
      p.connection.pending = (tally oneBurst.flatten).pending 1 :=
  have hburst : Pulsed .release reference quietEngine queueSocket
      (.opened [71] false false (quietCtx 1 false) ([ResponseFramer.noContent], [])) [.burst]
      (waiting [ResponseFramer.noContent]) :=
    .writable 0 (fresh_writable [ResponseFramer.noContent])
  have hread : ∃ q, Endpoint.readable .release reference quietEngine queueSocket 1 2
      (waiting [ResponseFramer.noContent]) = .ok (.interest .readableWritable, q) := ⟨_, by rfl⟩
  have ⟨q, hq⟩ := hread
  have hanswer : Pulsed .release reference quietEngine queueSocket
      (waiting [ResponseFramer.noContent]) [.answer true true false] q := .readable 1 2 hq
  ⟨q, samples_once .release reference quietEngine queueSocket [71] false false (quietCtx 1 false)
    ([ResponseFramer.noContent], []) oneBurst q (((Run.refl _).tail hburst).tail hanswer) (by decide)⟩

end Wrkrs
