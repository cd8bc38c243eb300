import Wrkrs.Connection
import Wrkrs.FramerErrors

/-!
# Counting responses

What a batch of framed responses and a whole readable event do to the counters, the
script and the pending count. A batch ends early where the pipeline drains: responses
behind that point are lost.
-/

namespace Wrkrs

set_option autoImplicit false
set_option maxRecDepth 4096

open Text Machine

variable {ε σ : Type} {engine : ScriptEngine ε} {now : Nat}

/-- How many responses the pending counter lets through; zero wraps. -/
def pendingCount (pending : UInt64) : Nat := if pending = 0 then word else pending.toNat

theorem pendingCount_pos (pending : UInt64) : 0 < pendingCount pending := by
  unfold pendingCount
  split
  · decide
  · rename_i h
    exact Nat.pos_of_ne_zero fun hzero => h (UInt64.toNat_inj.mp hzero)

theorem pendingCount_drained {pending : UInt64} (h : pending - 1 = 0) : pendingCount pending = 1 := by
  have hone : pending = 1 := by
    rw [← UInt64.sub_add_cancel pending 1, h]
    rfl
  subst hone
  decide

theorem pendingCount_pred {pending : UInt64} (h : pending - 1 ≠ 0) :
    pendingCount (pending - 1) + 1 = pendingCount pending := by
  unfold pendingCount
  rw [if_neg h]
  by_cases hzero : pending = 0
  · subst hzero
    decide
  · have hpos : pending.toNat ≠ 0 := fun h => hzero (UInt64.toNat_inj.mp h)
    have hlt := pending.toNat_lt
    rw [if_neg hzero, UInt64.toNat_sub]
    simp only [UInt64.reduceToNat] 
    omega

/-- The responses that must be counted: all up to the first that closes the connection
or that the script refuses. -/
def owed (engine : ScriptEngine ε) (wants : Bool) : ε → List Response → List Response
  | _, [] => []
  | state, r :: rest =>
    r :: match Endpoint.deliver engine wants state r with
      | (.ok _, state) => if r.keepAlive then owed engine wants state rest else []
      | (.error _, _) => []

/-- No response closes the connection and the script takes them all. -/
def passes (engine : ScriptEngine ε) (wants : Bool) : ε → List Response → Bool
  | _, [] => true
  | state, r :: rest =>
    match Endpoint.deliver engine wants state r with
    | (.ok _, state) => r.keepAlive && passes engine wants state rest
    | (.error _, _) => false

def delivered (engine : ScriptEngine ε) (wants : Bool) (state : ε) (rs : List Response) : ε :=
  rs.foldl (fun state r => (Endpoint.deliver engine wants state r).2) state

theorem owed_length_le (engine : ScriptEngine ε) (wants : Bool) (state : ε) (rs : List Response) :
    (owed engine wants state rs).length ≤ rs.length := by
  induction rs generalizing state with
  | nil => exact Nat.le_refl _
  | cons r rest ih =>
    unfold owed
    apply Nat.succ_le_succ
    split
    · split
      · exact ih _
      · exact Nat.zero_le _
    · exact Nat.zero_le _

theorem owed_of_passes {wants : Bool} {state : ε} {rs : List Response}
    (h : passes engine wants state rs = true) (more : List Response) :
    owed engine wants state (rs ++ more) =
      rs ++ owed engine wants (delivered engine wants state rs) more := by
  induction rs generalizing state with
  | nil => rfl
  | cons r rest ih =>
    unfold passes at h
    cases hdeliver : Endpoint.deliver engine wants state r with
    | mk answer next =>
      rw [hdeliver] at h
      cases answer with
      | error error => cases h
      | ok _ =>
        obtain ⟨hkeep, hrest⟩ := Bool.and_eq_true_iff.mp h
        simp only [List.cons_append, owed, hdeliver, hkeep, if_true, ih hrest, delivered,
          List.foldl_cons]

theorem passes_append (wants : Bool) (state : ε) (xs ys : List Response) :
    passes engine wants state (xs ++ ys) = (passes engine wants state xs &&
      passes engine wants (delivered engine wants state xs) ys) := by
  induction xs generalizing state with
  | nil => rfl
  | cons r rest ih =>
    cases hdeliver : Endpoint.deliver engine wants state r with
    | mk answer next =>
      cases answer with
      | error error => simp only [List.cons_append, passes, hdeliver, Bool.false_and]
      | ok _ =>
        simp only [List.cons_append, passes, hdeliver, ih, delivered, List.foldl_cons,
          Bool.and_assoc]

theorem owed_of_not_passes {wants : Bool} {state : ε} {rs : List Response}
    (h : passes engine wants state rs = false) (more : List Response) :
    owed engine wants state (rs ++ more) = owed engine wants state rs := by
  induction rs generalizing state with
  | nil => cases h
  | cons r rest ih =>
    unfold passes at h
    cases hdeliver : Endpoint.deliver engine wants state r with
    | mk answer next =>
      rw [hdeliver] at h
      cases answer with
      | error error => simp only [List.cons_append, owed, hdeliver]
      | ok _ =>
        simp only [List.cons_append, owed, hdeliver]
        cases hkeep : r.keepAlive with
        | false => rfl
        | true =>
          rw [hkeep] at h
          rw [if_pos rfl, if_pos rfl, ih h]

structure Counted (engine : ScriptEngine ε) (p : Endpoint ε σ) (rs : List Response)
    (q : Endpoint ε σ) : Prop where
  complete : q.ctx.counters.complete = p.ctx.counters.complete + rs.length
  requests : q.ctx.counters.requests = p.ctx.counters.requests + rs.length
  status : q.ctx.counters.errors.status =
    p.ctx.counters.errors.status + rs.countP fun r => 399 < r.status
  engine : q.ctx.engine = delivered engine p.ctx.wantsResponse p.ctx.engine rs

structure Keeps (p q : Endpoint ε σ) : Prop where
  request : q.connection.request = p.connection.request
  written : q.connection.written = p.connection.written
  pipeline : q.ctx.pipeline = p.ctx.pipeline
  dynamic : q.ctx.dynamic = p.ctx.dynamic
  hasDelay : q.ctx.hasDelay = p.ctx.hasDelay
  wantsResponse : q.ctx.wantsResponse = p.ctx.wantsResponse

theorem Keeps.refl (p : Endpoint ε σ) : Keeps p p := ⟨rfl, rfl, rfl, rfl, rfl, rfl⟩

theorem Keeps.trans {p q r : Endpoint ε σ} (h : Keeps p q) (h' : Keeps q r) : Keeps p r :=
  ⟨h'.request.trans h.request, h'.written.trans h.written, h'.pipeline.trans h.pipeline,
    h'.dynamic.trans h.dynamic, h'.hasDelay.trans h.hasDelay,
    h'.wantsResponse.trans h.wantsResponse⟩

theorem Counted.trans {p q r : Endpoint ε σ} {xs ys : List Response} (h : Counted engine p xs q)
    (hkeeps : Keeps p q) (h' : Counted engine q ys r) : Counted engine p (xs ++ ys) r := by
  refine ⟨?_, ?_, ?_, ?_⟩
  · rw [h'.complete, h.complete, List.length_append, Nat.add_assoc]
  · rw [h'.requests, h.requests, List.length_append, Nat.add_assoc]
  · rw [h'.status, h.status, List.countP_append, Nat.add_assoc]
  · rw [h'.engine, h.engine, hkeeps.wantsResponse, delivered, delivered, delivered,
      List.foldl_append]

namespace Endpoint

/-- How a batch ends after `count` of its responses. -/
inductive BatchEnd (engine : ScriptEngine ε) (p : Endpoint ε σ) (rs : List Response) (count : Nat)
    (q : Endpoint ε σ) : Option Event → Prop where
  | goesOn : passes engine p.ctx.wantsResponse p.ctx.engine rs = true → count = rs.length →
      pendingCount q.connection.pending + count = pendingCount p.connection.pending →
      q.connection.delayed = p.connection.delayed → BatchEnd engine p rs count q none
  | drained (r : Response) : count = pendingCount p.connection.pending →
      q.connection.pending = 0 → q.connection.delayed = p.ctx.hasDelay →
      BatchEnd engine p rs count q (some (rearmOrClose r))
  | closed : passes engine p.ctx.wantsResponse p.ctx.engine rs = false →
      pendingCount q.connection.pending + count = pendingCount p.connection.pending →
      q.connection.delayed = p.connection.delayed → BatchEnd engine p rs count q (some .reconnect)
  | failed (message : Str) : passes engine p.ctx.wantsResponse p.ctx.engine rs = false →
      BatchEnd engine p rs count q (some (.fatal message))

def counted (engine : ScriptEngine ε) (p : Endpoint ε σ) (rs : List Response) : List Response :=
  (owed engine p.ctx.wantsResponse p.ctx.engine rs).take (pendingCount p.connection.pending)

structure Responded (engine : ScriptEngine ε) (p : Endpoint ε σ) (rs : List Response)
    (event : Option Event) (q : Endpoint ε σ) : Prop where
  counts : Counted engine p (p.counted engine rs) q
  keeps : Keeps p q
  ending : BatchEnd engine p rs (p.counted engine rs).length q event

section Drained
variable (now : Nat) (p : Endpoint ε σ)

theorem recordLatency_cases :
    (∃ latency, p.recordLatency now = { p with ctx := { p.ctx with latency := latency } }) ∨
      ∃ latency, p.recordLatency now =
        { p with ctx := { p.ctx with latency := latency, counters := p.ctx.counters.timeOut } } := by
  unfold recordLatency
  split
  · exact .inl ⟨_, rfl⟩
  · exact .inr ⟨_, rfl⟩

theorem drained_keeps : Keeps p (p.drained now) := by
  unfold drained
  rcases recordLatency_cases now p with ⟨latency, h⟩ | ⟨latency, h⟩ <;> rw [h] <;>
    exact ⟨rfl, rfl, rfl, rfl, rfl, rfl⟩

theorem drained_counted (engine : ScriptEngine ε) : Counted engine p [] (p.drained now) := by
  unfold drained
  rcases recordLatency_cases now p with ⟨latency, h⟩ | ⟨latency, h⟩ <;> rw [h] <;>
    exact ⟨rfl, rfl, rfl, rfl⟩

theorem drained_connection :
    (p.drained now).connection = { p.connection with delayed := p.ctx.hasDelay } := by
  unfold drained
  rcases recordLatency_cases now p with ⟨latency, h⟩ | ⟨latency, h⟩ <;> rw [h]

theorem drained_socket : (p.drained now).socket = p.socket := by
  unfold drained
  rcases recordLatency_cases now p with ⟨latency, h⟩ | ⟨latency, h⟩ <;> rw [h]

theorem drained_latency :
    (p.drained now).ctx.latency = (p.ctx.latency.record (p.elapsed now)).2 := by
  unfold drained recordLatency
  cases p.ctx.latency.record (p.elapsed now) with
  | mk taken latency => cases taken <;> rfl

theorem drained_timeout :
    (p.drained now).ctx.counters.errors.timeout = p.ctx.counters.errors.timeout +
      if (p.ctx.latency.record (p.elapsed now)).1 then 0 else 1 := by
  unfold drained recordLatency
  cases p.ctx.latency.record (p.elapsed now) with
  | mk taken latency => cases taken <;> rfl

end Drained

theorem owed_singleton (wants : Bool) (state : ε) (r : Response) :
    owed engine wants state [r] = [r] := by
  simp only [owed]
  split
  · rw [ite_self]
  · rfl

theorem counted_singleton (p : Endpoint ε σ) (r : Response) : p.counted engine [r] = [r] := by
  unfold counted
  rw [owed_singleton]
  exact List.take_of_length_le (pendingCount_pos p.connection.pending)

def answered (p : Endpoint ε σ) (r : Response) (state : ε) : Endpoint ε σ :=
  (p.withCounters (p.ctx.counters.count r.status)).withEngine state

theorem answered_timeout (p : Endpoint ε σ) (r : Response) (state : ε) :
    (p.answered r state).ctx.counters.errors.timeout = p.ctx.counters.errors.timeout := by
  simp only [answered, withEngine, withCounters, Counters.count]
  split <;> rfl

theorem answered_counted {p : Endpoint ε σ} {r : Response} {answer : Except EngineError Unit}
    {state : ε} (h : deliver engine p.ctx.wantsResponse p.ctx.engine r = (answer, state)) :
    Counted engine p [r] (p.answered r state) := by
  have hstate : (deliver engine p.ctx.wantsResponse p.ctx.engine r).2 = state := by rw [h]
  refine ⟨rfl, rfl, ?_, hstate.symm⟩
  simp only [answered, withEngine, withCounters, Counters.count, List.countP_singleton]
  by_cases hstatus : 399 < r.status
  · simp [hstatus]
  · simp [hstatus]

theorem respond_eq {p : Endpoint ε σ} {r : Response} {answer : Except EngineError Unit}
    {state : ε} (h : deliver engine p.ctx.wantsResponse p.ctx.engine r = (answer, state)) :
    p.respond engine now r =
      match answer with
      | .error error => (some (.fatal error.rawMessage), p.answered r state)
      | .ok _ =>
        let q := (p.answered r state).countDown
        if q.connection.pending = 0 then (some (rearmOrClose r), q.drained now)
        else if r.keepAlive then (none, q)
        else (some .reconnect, q) := by
  have hdeliver : deliver engine (p.withCounters (p.ctx.counters.count r.status)).ctx.wantsResponse
      (p.withCounters (p.ctx.counters.count r.status)).ctx.engine r = (answer, state) := h
  unfold respond
  simp only [hdeliver]
  cases answer <;> rfl

/-- One response is counted, and ends the batch or leaves one less pending. -/
theorem respond_spec (engine : ScriptEngine ε) (now : Nat) (p : Endpoint ε σ) (r : Response) :
    Responded engine p [r] (p.respond engine now r).1 (p.respond engine now r).2 := by
  obtain ⟨answer, state, hdeliver⟩ : ∃ answer state,
      deliver engine p.ctx.wantsResponse p.ctx.engine r = (answer, state) := ⟨_, _, rfl⟩
  have hcounted := answered_counted hdeliver
  have hkeeps : Keeps p (p.answered r state) := ⟨rfl, rfl, rfl, rfl, rfl, rfl⟩
  rw [respond_eq hdeliver]
  cases answer with
  | error error =>
    refine ⟨by rw [counted_singleton]; exact hcounted, hkeeps, ?_⟩
    apply BatchEnd.failed
    simp only [passes, hdeliver]
  | ok _ =>
    have hpasses : passes engine p.ctx.wantsResponse p.ctx.engine [r] = r.keepAlive := by
      simp only [passes, hdeliver, Bool.and_true]
    have hdown : Counted engine p [r] (p.answered r state).countDown :=
      ⟨hcounted.complete, hcounted.requests, hcounted.status, hcounted.engine⟩
    have hkeeps' : Keeps p (p.answered r state).countDown := ⟨rfl, rfl, rfl, rfl, rfl, rfl⟩
    dsimp only
    split
    · rename_i hzero
      have hone : pendingCount p.connection.pending = 1 := pendingCount_drained hzero
      refine ⟨?_, hkeeps'.trans (drained_keeps now _), ?_⟩
      · rw [counted_singleton]
        exact hdown.trans hkeeps' (drained_counted now _ engine)
      · rw [counted_singleton]
        refine .drained r hone.symm ?_ ?_
        · rw [drained_connection]
          exact hzero
        · rw [drained_connection]
          rfl
    · rename_i hzero
      have hpred : pendingCount (p.connection.pending - 1) + 1 = pendingCount p.connection.pending :=
        pendingCount_pred hzero
      split
      · rename_i hkeep
        refine ⟨by rw [counted_singleton]; exact hdown, hkeeps', ?_⟩
        rw [counted_singleton]
        exact .goesOn (hpasses.trans hkeep) rfl hpred rfl
      · rename_i hkeep
        refine ⟨by rw [counted_singleton]; exact hdown, hkeeps', ?_⟩
        rw [counted_singleton]
        exact .closed (hpasses.trans (Bool.eq_false_iff.mpr hkeep)) hpred rfl

theorem Responded.all {p q : Endpoint ε σ} {rs : List Response}
    (h : Responded engine p rs none q) : p.counted engine rs = rs ∧
      passes engine p.ctx.wantsResponse p.ctx.engine rs = true ∧
      pendingCount q.connection.pending + rs.length = pendingCount p.connection.pending ∧
      q.connection.delayed = p.connection.delayed := by
  cases h.ending with
  | goesOn hpasses hcount hpending hdelayed =>
    rw [hcount] at hpending
    refine ⟨?_, hpasses, hpending, hdelayed⟩
    have howed := owed_of_passes hpasses []
    rw [List.append_nil, owed, List.append_nil] at howed
    unfold counted
    rw [howed]
    exact List.take_of_length_le (by omega)

theorem Responded.append {p q r : Endpoint ε σ} {xs ys : List Response} {event : Option Event}
    (h : Responded engine p xs none q) (h' : Responded engine q ys event r) :
    Responded engine p (xs ++ ys) event r := by
  obtain ⟨hall, hpasses, hpending, hdelayed⟩ := h.all
  have hengine := h.counts.engine
  rw [hall] at hengine
  have hcounted : p.counted engine (xs ++ ys) = xs ++ q.counted engine ys := by
    unfold counted
    rw [owed_of_passes hpasses, List.take_append, List.take_of_length_le (by omega), ← hpending,
      Nat.add_sub_cancel, ← hengine, h.keeps.wantsResponse]
  have hboth : passes engine p.ctx.wantsResponse p.ctx.engine (xs ++ ys) =
      passes engine q.ctx.wantsResponse q.ctx.engine ys := by
    rw [passes_append, hpasses, Bool.true_and, ← hengine, h.keeps.wantsResponse]
  refine ⟨?_, h.keeps.trans h'.keeps, ?_⟩
  · have hcounts := h.counts
    rw [hall] at hcounts
    rw [hcounted]
    exact hcounts.trans h.keeps h'.counts
  · rw [hcounted, List.length_append]
    cases h'.ending with
    | goesOn hpasses' hcount' hpending' hdelayed' =>
      refine .goesOn (hboth.trans hpasses') ?_ (by omega) (hdelayed'.trans hdelayed)
      rw [List.length_append, hcount']
    | drained last hcount' hzero hdelayed' =>
      exact .drained last (by omega) hzero (hdelayed'.trans h.keeps.hasDelay)
    | closed hpasses' hpending' hdelayed' =>
      exact .closed (hboth.trans hpasses') (by omega) (hdelayed'.trans hdelayed)
    | failed message hpasses' => exact .failed message (hboth.trans hpasses')

theorem Responded.ended {p q : Endpoint ε σ} {xs : List Response} {event : Event}
    (h : Responded engine p xs (some event) q) (ys : List Response) :
    Responded engine p (xs ++ ys) (some event) q := by
  have hcounted : p.counted engine (xs ++ ys) = p.counted engine xs := by
    unfold counted
    cases hpasses : passes engine p.ctx.wantsResponse p.ctx.engine xs with
    | false => rw [owed_of_not_passes hpasses]
    | true =>
      have howed := owed_of_passes hpasses []
      rw [List.append_nil, owed, List.append_nil] at howed
      have hfull : pendingCount p.connection.pending ≤ xs.length := by
        cases h.ending with
        | drained last hcount _ _ =>
          unfold counted at hcount
          rw [howed, List.length_take] at hcount
          omega
        | closed hfalse _ _ =>
          rw [hpasses] at hfalse
          cases hfalse
        | failed message hfalse =>
          rw [hpasses] at hfalse
          cases hfalse
      rw [owed_of_passes hpasses, howed, List.take_append_of_le_length hfull]
  have hfalse : passes engine p.ctx.wantsResponse p.ctx.engine xs = false →
      passes engine p.ctx.wantsResponse p.ctx.engine (xs ++ ys) = false := by
    intro hpasses
    rw [passes_append, hpasses, Bool.false_and]
  refine ⟨by rw [hcounted]; exact h.counts, h.keeps, ?_⟩
  rw [hcounted]
  cases h.ending with
  | drained last hcount hzero hdelayed => exact .drained last hcount hzero hdelayed
  | closed hpasses hpending hdelayed => exact .closed (hfalse hpasses) hpending hdelayed
  | failed message hpasses => exact .failed message (hfalse hpasses)

theorem responded_nil {p q : Endpoint ε σ} (hcounts : Counted engine p [] q) (hkeeps : Keeps p q)
    (hpending : q.connection.pending = p.connection.pending)
    (hdelayed : q.connection.delayed = p.connection.delayed) :
    Responded engine p [] none q := by
  have hcounted : p.counted engine [] = [] := by
    unfold counted
    rw [owed, List.take_nil]
  refine ⟨by rw [hcounted]; exact hcounts, hkeeps, ?_⟩
  rw [hcounted]
  exact .goesOn rfl rfl (by rw [hpending]; rfl) hdelayed

theorem responses_spec (engine : ScriptEngine ε) (now : Nat) (p : Endpoint ε σ)
    (rs : List Response) :
    Responded engine p rs (responses engine now p rs).1 (responses engine now p rs).2 := by
  induction rs generalizing p with
  | nil => exact responded_nil ⟨rfl, rfl, rfl, rfl⟩ (.refl p) rfl rfl
  | cons r rest ih =>
    have hfirst := respond_spec engine now p r
    unfold responses
    cases hrespond : p.respond engine now r with
    | mk event q =>
      rw [hrespond] at hfirst
      cases event with
      | some event => exact hfirst.ended rest
      | none => exact hfirst.append (ih q)

theorem respond_frame (engine : ScriptEngine ε) (now : Nat) (p : Endpoint ε σ) (r : Response) :
    (p.respond engine now r).2.socket = p.socket ∧
      (p.respond engine now r).2.connection.framer = p.connection.framer := by
  cases hdeliver : deliver engine p.ctx.wantsResponse p.ctx.engine r with
  | mk answer state =>
    rw [respond_eq hdeliver]
    split
    · exact ⟨rfl, rfl⟩
    · dsimp only
      split
      · rw [drained_socket, drained_connection]
        exact ⟨rfl, rfl⟩
      · split <;> exact ⟨rfl, rfl⟩

theorem responses_frame (engine : ScriptEngine ε) (now : Nat) (p : Endpoint ε σ)
    (rs : List Response) :
    (responses engine now p rs).2.socket = p.socket ∧
      (responses engine now p rs).2.connection.framer = p.connection.framer := by
  induction rs generalizing p with
  | nil => exact ⟨rfl, rfl⟩
  | cons r rest ih =>
    have hfirst := respond_frame engine now p r
    unfold responses
    cases hrespond : p.respond engine now r with
    | mk event q =>
      rw [hrespond] at hfirst
      cases event with
      | some event => exact hfirst
      | none =>
        obtain ⟨hsocket, hframer⟩ := ih q
        exact ⟨hsocket.trans hfirst.1, hframer.trans hfirst.2⟩

section Reads
variable {build : Build} {parse : ResponseParser} {socket : Socket σ}

def fedWith (p : Endpoint ε σ) (count : Nat) (state : σ) (framer : ResponseFramer) :
    Endpoint ε σ :=
  { p.withCounters { p.ctx.counters with bytes := p.ctx.counters.bytes + count } with
    socket := state }.withFramer framer

/-- How a read that brought bytes goes on: it reads again after a full buffer. -/
def shortRead (count : Nat) (p : Endpoint ε σ) : Option Event × Endpoint ε σ :=
  if count = recvbuf then (none, p) else (some (.interest .readable), p)

inductive OneRead (build : Build) (parse : ResponseParser) (engine : ScriptEngine ε)
    (socket : Socket σ) (now : Nat) (p : Endpoint ε σ) : Option Event × Endpoint ε σ → Prop where
  | closed {state : σ} {result : Except FrameError (List Response)} {framer : ResponseFramer} :
      socket.read p.socket recvbuf = (.ok [], state) →
      p.connection.framer.closed = .ok (result, framer) →
      OneRead build parse engine socket now p
        (({ p with socket := state }.withFramer framer).takeBatch engine now failRead result)
  | fed {byte : UInt8} {bytes : Bytes} {state : σ} {result : Except FrameError (List Response)}
      {framer : ResponseFramer} :
      socket.read p.socket recvbuf = (.ok (byte :: bytes), state) →
      p.connection.framer.feed build parse (byte :: bytes) = .ok (result, framer) →
      OneRead build parse engine socket now p
        ((p.fedWith (byte :: bytes).length state framer).takeBatch engine now
          (shortRead (byte :: bytes).length) result)
  | blocked {state : σ} : socket.read p.socket recvbuf = (.error .wouldBlock, state) →
      OneRead build parse engine socket now p
        (some (.interest .readable), { p with socket := state })
  | failed {state : σ} : socket.read p.socket recvbuf = (.error .other, state) →
      OneRead build parse engine socket now p { p with socket := state }.failRead

theorem readOnce_cases {p : Endpoint ε σ} {taken : Option Event × Endpoint ε σ}
    (h : p.readOnce build parse engine socket now = .ok taken) :
    OneRead build parse engine socket now p taken := by
  unfold readOnce at h
  split at h
  · rename_i state hread
    cases hclosed : p.connection.framer.closed with
    | error fault =>
      rw [hclosed] at h
      cases h
    | ok call =>
      rw [hclosed, ok_bind] at h
      obtain rfl := Except.ok.inj h
      exact .closed hread hclosed
  · rename_i bytes state hne hread
    cases bytes with
    | nil => exact (hne rfl).elim
    | cons byte bytes =>
      by_cases hbuffer : (byte :: bytes).length ≤ recvbuf
      · rw [if_pos hbuffer, ok_bind] at h
        change (do let call ← p.connection.framer.feed build parse (byte :: bytes); _) = _ at h
        cases hfeed : p.connection.framer.feed build parse (byte :: bytes) with
        | error fault =>
          rw [hfeed] at h
          cases h
        | ok call =>
          rw [hfeed, ok_bind] at h
          obtain rfl := Except.ok.inj h
          exact .fed hread hfeed
      · rw [if_neg hbuffer] at h
        cases h
  · rename_i state hread
    obtain rfl := Except.ok.inj h
    exact .blocked hread
  · rename_i state hread
    obtain rfl := Except.ok.inj h
    exact .failed hread

def framed (build : Build) (parse : ResponseParser) (socket : Socket σ) (p : Endpoint ε σ) :
    List Response :=
  match (socket.read p.socket recvbuf).1 with
  | .ok [] =>
    match p.connection.framer.closed with
    | .ok (.ok batch, _) => batch
    | _ => []
  | .ok bytes =>
    match p.connection.framer.feed build parse bytes with
    | .ok (.ok batch, _) => batch
    | _ => []
  | .error _ => []

def framedIn (build : Build) (parse : ResponseParser) (engine : ScriptEngine ε)
    (socket : Socket σ) (now : Nat) : Nat → Endpoint ε σ → List Response
  | 0, _ => []
  | fuel + 1, p =>
    p.framed build parse socket ++
      match p.readOnce build parse engine socket now with
      | .ok (none, p) => framedIn build parse engine socket now fuel p
      | _ => []

def Leaves (event : Option Event) : Prop :=
  event = none ∨ event = some (.interest .readable) ∨ event = some .reconnect

theorem Responded.idle {p q r : Endpoint ε σ} {rs : List Response}
    (h : Responded engine p rs none q) (hcounts : Counted engine q [] r) (hkeeps : Keeps q r)
    (hpending : r.connection.pending = q.connection.pending)
    (hdelayed : r.connection.delayed = q.connection.delayed) : Responded engine p rs none r := by
  have hall := h.append (responded_nil hcounts hkeeps hpending hdelayed)
  rwa [List.append_nil] at hall

def Took (engine : ScriptEngine ε) (p : Endpoint ε σ) (rs : List Response)
    (taken : Option Event × Endpoint ε σ) : Prop :=
  (∃ ended, taken.1 = some ended ∧ Responded engine p rs (some ended) taken.2) ∨
    (Responded engine p rs none taken.2 ∧ Leaves taken.1)

theorem failRead_took {p q : Endpoint ε σ} {rs : List Response}
    (h : Responded engine p rs none q) : Took engine p rs q.failRead :=
  .inr ⟨h.idle ⟨rfl, rfl, rfl, rfl⟩ ⟨rfl, rfl, rfl, rfl, rfl, rfl⟩ rfl rfl, .inr (.inr rfl)⟩

def batchOf : Except FrameError (List Response) → List Response
  | .ok batch => batch
  | .error _ => []

theorem takeBatch_spec (now : Nat) {p q : Endpoint ε σ}
    (idle : Endpoint ε σ → Option Event × Endpoint ε σ) (h : Responded engine p [] none q)
    (hidle : ∀ rs r, Responded engine p rs none r → Took engine p rs (idle r))
    (hsocket : ∀ r, (idle r).2.socket = r.socket)
    (result : Except FrameError (List Response)) :
    Took engine p (batchOf result) (q.takeBatch engine now idle result) ∧
      (q.takeBatch engine now idle result).2.socket = q.socket := by
  cases result with
  | error error => exact ⟨failRead_took h, rfl⟩
  | ok batch =>
    have hbatch : Responded engine p batch (responses engine now q batch).1
        (responses engine now q batch).2 := h.append (responses_spec engine now q batch)
    have hframe := (responses_frame engine now q batch).1
    simp only [takeBatch, batchOf]
    cases hresponses : responses engine now q batch with
    | mk event r =>
      rw [hresponses] at hbatch hframe
      cases event with
      | some event => exact ⟨.inl ⟨event, rfl, hbatch⟩, hframe⟩
      | none => exact ⟨hidle batch r hbatch, (hsocket r).trans hframe⟩

theorem shortRead_took {p q : Endpoint ε σ} {rs : List Response} (count : Nat)
    (h : Responded engine p rs none q) : Took engine p rs (shortRead count q) := by
  unfold shortRead
  split
  · exact .inr ⟨h, .inl rfl⟩
  · exact .inr ⟨h, .inr (.inl rfl)⟩

theorem readOnce_spec {p : Endpoint ε σ} {taken : Option Event × Endpoint ε σ}
    (h : p.readOnce build parse engine socket now = .ok taken) :
    Took engine p (p.framed build parse socket) taken ∧
      taken.2.socket = (socket.read p.socket recvbuf).2 := by
  unfold framed
  cases readOnce_cases h with
  | @closed state result framer hread hclosed =>
    have hidle : Responded engine p [] none (({ p with socket := state }).withFramer framer) :=
      responded_nil ⟨rfl, rfl, rfl, rfl⟩ ⟨rfl, rfl, rfl, rfl, rfl, rfl⟩ rfl rfl
    obtain ⟨htook, hsocket⟩ := takeBatch_spec now failRead hidle
      (fun rs r hr => failRead_took hr) (fun _ => rfl) result
    rw [hread]
    refine ⟨?_, hsocket⟩
    simp only [hclosed]
    cases result <;> exact htook
  | @fed byte bytes state result framer hread hfeed =>
    have hidle : Responded engine p [] none (p.fedWith (byte :: bytes).length state framer) :=
      responded_nil ⟨rfl, rfl, rfl, rfl⟩ ⟨rfl, rfl, rfl, rfl, rfl, rfl⟩ rfl rfl
    obtain ⟨htook, hsocket⟩ := takeBatch_spec now (shortRead (byte :: bytes).length) hidle
      (fun rs r hr => shortRead_took _ hr) (fun r => by unfold shortRead; split <;> rfl) result
    rw [hread]
    refine ⟨?_, hsocket⟩
    simp only [hfeed]
    cases result <;> exact htook
  | blocked hread =>
    rw [hread]
    refine ⟨.inr ⟨?_, .inr (.inl rfl)⟩, rfl⟩
    exact responded_nil ⟨rfl, rfl, rfl, rfl⟩ ⟨rfl, rfl, rfl, rfl, rfl, rfl⟩ rfl rfl
  | failed hread =>
    rw [hread]
    refine ⟨failRead_took ?_, rfl⟩
    exact responded_nil ⟨rfl, rfl, rfl, rfl⟩ ⟨rfl, rfl, rfl, rfl, rfl, rfl⟩ rfl rfl

theorem readable_spec {fuel : Nat} {p q : Endpoint ε σ} {event : Event}
    (h : readable build parse engine socket now fuel p = .ok (event, q)) :
    Responded engine p (framedIn build parse engine socket now fuel p) (some event) q ∨
      (Responded engine p (framedIn build parse engine socket now fuel p) none q ∧
        (event = .interest .readable ∨ event = .reconnect)) := by
  induction fuel generalizing p with
  | zero => cases h
  | succ fuel ih =>
    unfold readable at h
    unfold framedIn
    cases hread : p.readOnce build parse engine socket now with
    | error fault =>
      rw [hread] at h
      cases h
    | ok taken =>
      obtain ⟨event', r⟩ := taken
      obtain ⟨htook, _⟩ := readOnce_spec hread
      rw [hread, ok_bind] at h
      cases event' with
      | some event' =>
        obtain ⟨rfl, rfl⟩ := Prod.mk.inj (Except.ok.inj h)
        dsimp only
        rw [List.append_nil]
        rcases htook with ⟨ended, hended, hresponded⟩ | ⟨hresponded, hleaves⟩
        · obtain rfl := Option.some.inj hended
          exact .inl hresponded
        · rcases hleaves with hnone | hreadable | hreconnect
          · cases hnone
          · exact .inr ⟨hresponded, .inl (Option.some.inj hreadable)⟩
          · exact .inr ⟨hresponded, .inr (Option.some.inj hreconnect)⟩
      | none =>
        rcases htook with ⟨ended, hended, _⟩ | ⟨hresponded, _⟩
        · cases hended
        · rcases ih h with hrest | ⟨hrest, hevent⟩
          · exact .inl (hresponded.append hrest)
          · exact .inr ⟨hresponded.append hrest, hevent⟩

/-- Every framed response that precedes a close or a script failure, and that response,
is counted once and delivered once. -/
def NothingLost (engine : ScriptEngine ε) (p : Endpoint ε σ) (rs : List Response)
    (q : Endpoint ε σ) : Prop :=
  Counted engine p (owed engine p.ctx.wantsResponse p.ctx.engine rs) q

/-- A readable event loses no response exactly when it brings at most as many as are
pending, those behind a close or a script failure apart. -/
theorem readable_counts_iff (build : Build) (parse : ResponseParser) (engine : ScriptEngine ε)
    (socket : Socket σ) (now fuel : Nat) (p q : Endpoint ε σ) (event : Event)
    (h : readable build parse engine socket now fuel p = .ok (event, q)) :
    NothingLost engine p (framedIn build parse engine socket now fuel p) q ↔
      (owed engine p.ctx.wantsResponse p.ctx.engine
        (framedIn build parse engine socket now fuel p)).length ≤
        pendingCount p.connection.pending := by
  have hcounts : Counted engine p
      (p.counted engine (framedIn build parse engine socket now fuel p)) q := by
    rcases readable_spec h with hresponded | ⟨hresponded, _⟩
    · exact hresponded.counts
    · exact hresponded.counts
  constructor
  · intro hall
    have hlength := hall.complete.symm.trans hcounts.complete
    unfold counted at hlength
    rw [List.length_take] at hlength
    omega
  · intro hle
    unfold counted at hcounts
    rwa [List.take_of_length_le hle] at hcounts

end Reads

end Endpoint

/-- Queued reads and a log of the bytes written; an exhausted queue blocks. -/
def queueSocket : Socket (List Bytes × Bytes) where
  write state bytes := (.ok bytes.length, (state.1, state.2 ++ bytes))
  read state size :=
    match state.1 with
    | [] => (.error .wouldBlock, state)
    | next :: reads =>
      (.ok (next.take size), (if next.length ≤ size then reads else next.drop size :: reads, state.2))

def quietEngine : ScriptEngine Unit where
  delay _ := (0, ())
  request _ := (.ok [], ())
  response _ _ _ _ := (.ok (), ())

def quietCtx (pipeline : UInt64) (hasDelay : Bool) : ThreadCtx Unit where
  latency := Histogram.new 10
  counters := ⟨0, 0, 0, ⟨0, 0, 0, 0, 0⟩⟩
  pipeline := pipeline
  dynamic := false
  hasDelay := hasDelay
  wantsResponse := false
  engine := ()

def waiting (reads : List Bytes) : Endpoint Unit (List Bytes × Bytes) where
  connection := { Connection.new [71] false false with pending := 1, started := some 0 }
  ctx := quietCtx 1 false
  socket := (reads, [71])

def fresh (reads : List Bytes) : Endpoint Unit (List Bytes × Bytes) where
  connection := Connection.new [71] false false
  ctx := quietCtx 1 false
  socket := (reads, [])

theorem fresh_writable (reads : List Bytes) :
    (fresh reads).writable quietEngine queueSocket 0 =
      .ok (.interest .readable, waiting reads) := by
  rfl

def interim : Bytes := ascii "HTTP/1.1 100 C\r\n\r\n"

namespace Endpoint

theorem readable_counts_iff_sample :
    ∃ q, readable .release reference quietEngine queueSocket 1 2
        (waiting [ResponseFramer.noContent]) = .ok (.interest .readableWritable, q) ∧
      (NothingLost quietEngine (waiting [ResponseFramer.noContent])
          (framedIn .release reference quietEngine queueSocket 1 2
            (waiting [ResponseFramer.noContent])) q ↔
        (owed quietEngine false () (framedIn .release reference quietEngine queueSocket 1 2
          (waiting [ResponseFramer.noContent]))).length ≤ pendingCount 1) :=
  ⟨_, by rfl, readable_counts_iff .release reference quietEngine queueSocket 1 2
    (waiting [ResponseFramer.noContent]) _ (.interest .readableWritable) (by rfl)⟩

/-- An interim response in the read of the final one drains the pipeline: the final
response is lost. In a read of its own it is counted. -/
theorem surplus_response_lost :
    (∃ q, readable .release reference quietEngine queueSocket 1 2
        (waiting [interim ++ ResponseFramer.noContent]) =
          .ok (.interest .readableWritable, q) ∧
      framedIn .release reference quietEngine queueSocket 1 2
        (waiting [interim ++ ResponseFramer.noContent]) =
          [⟨100, [], [], true⟩, ⟨204, [], [], true⟩] ∧
      q.ctx.counters.complete = 1 ∧
      ¬ NothingLost quietEngine (waiting [interim ++ ResponseFramer.noContent])
        (framedIn .release reference quietEngine queueSocket 1 2
          (waiting [interim ++ ResponseFramer.noContent])) q) ∧
    ∃ q r event, readable .release reference quietEngine queueSocket 1 2
        (waiting [interim, ResponseFramer.noContent]) =
          .ok (.interest .readableWritable, q) ∧
      readable .release reference quietEngine queueSocket 1 2 q = .ok (event, r) ∧
      r.ctx.counters.complete = 2 := by
  constructor
  · refine ⟨_, by rfl, by rfl, by rfl, ?_⟩
    intro hall
    have hcomplete : 1 = 2 := hall.complete
    cases hcomplete
  · exact ⟨_, _, _, by rfl, by rfl, by rfl⟩

end Endpoint

end Wrkrs
