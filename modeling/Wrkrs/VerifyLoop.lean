import Mathlib.Logic.Relation
import Wrkrs.RequestHeads

/-!
# The loop of the probe

The turns of the loop that counts messages, and the messages as they lie in the request.
The two agree as long as the end of every message is a machine word; the count of a
concatenation is then the sum of the counts.
-/

namespace Wrkrs

set_option autoImplicit false

open Text Machine Relation

/-- A complete head takes at least one byte and none past the input. -/
def RequestParser.Consumes (parse : RequestParser) : Prop :=
  ∀ ⦃capacity input n headers⦄, parse capacity input = .complete n headers →
    0 < n ∧ n ≤ input.length

/-- One message counted: the loop goes round again with another count and offset. -/
inductive ProbeTurn (build : Build) (parse : RequestParser) (request : Bytes) :
    Nat × Nat → Nat × Nat → Prop where
  | turn {count offset headers body next : Nat} :
      offset < request.length →
      frameRequest parse (request.drop offset) = .complete headers body →
      (build.add offset headers >>= fun sum => build.add sum body) = .ok next →
      next ≤ request.length → ProbeTurn build parse request (count, offset) (count + 1, next)

def Probed (build : Build) (parse : RequestParser) (request : Bytes) : Nat × Nat → Prop :=
  ReflTransGen (ProbeTurn build parse request) (0, 0)

/-- So many messages lie one after the other in front of the offset. -/
inductive Laid (parse : RequestParser) (request : Bytes) : Nat → Nat → Prop where
  | start : Laid parse request 0 0
  | message {count offset headers body : Nat} : Laid parse request count offset →
      offset < request.length →
      frameRequest parse (request.drop offset) = .complete headers body →
      offset + headers + body ≤ request.length →
      Laid parse request (count + 1) (offset + headers + body)

/-- No message declares a body whose end is past the machine words. -/
def EndsFit (parse : RequestParser) (request : Bytes) : Prop :=
  ∀ {count offset headers body : Nat}, Laid parse request count offset →
    offset < request.length →
    frameRequest parse (request.drop offset) = .complete headers body →
    offset + headers + body < word

/-- The loop is over with a count, or with a diagnostic about some of the bytes. -/
def Ended (build : Build) (request : Bytes) (result : Except Fault (Except Str Nat)) : Prop :=
  (∃ n, n ≤ request.length ∧ result = .ok (.ok n)) ∨
    ∃ message consumed, consumed ≤ request.length ∧
      result = do return .error (← diagnostic build message request consumed)

/-- Every message takes the offset on within the request and without an overflow, and the
loop ends after at most as many messages as there are bytes. -/
structure Progresses (build : Build) (parse : RequestParser) (request : Bytes) : Prop where
  rises : ∀ {s t}, Probed build parse request s → ProbeTurn build parse request s t →
    s.2 < t.2 ∧ t.2 ≤ request.length
  sums : ∀ {s headers body}, Probed build parse request s → s.2 < request.length →
    frameRequest parse (request.drop s.2) = .complete headers body →
    s.2 + headers + body < word
  few : ∀ {s}, Probed build parse request s → s.1 ≤ request.length
  ends : Ended build request (verifyRequest build parse request)

section Loop
variable {build : Build} {parse : RequestParser} {request : Bytes}
variable {fuel count offset headers body : Nat}

theorem frameWithin_consumes (consumes : parse.Consumes) {input : Bytes} {capacities : List Nat}
    (h : frameWithin parse input capacities = .complete headers body) :
    0 < headers ∧ headers ≤ input.length := by
  obtain ⟨_, _, hparse, _⟩ := frameWithin_complete h
  exact consumes hparse

theorem ProbeTurn.verifyFrom {s t : Nat × Nat} (h : ProbeTurn build parse request s t)
    (fuel : Nat) :
    verifyFrom build parse request (fuel + 1) s.1 s.2 =
      verifyFrom build parse request fuel t.1 t.2 := by
  cases h with
  | @turn count offset headers body next hinside hframe hsum hle =>
    simp only [Wrkrs.verifyFrom]
    rw [if_pos hinside, hframe]
    cases hfirst : build.add offset headers with
    | error fault =>
      rw [hfirst, error_bind] at hsum
      cases hsum
    | ok sum =>
      rw [hfirst, ok_bind] at hsum
      simp only [hfirst, ok_bind, hsum]
      rw [if_neg (Nat.not_lt.mpr hle)]

theorem add_ends (build : Build) (h : offset + headers + body < word) :
    (build.add offset headers >>= fun sum => build.add sum body) =
      .ok (offset + headers + body) := by
  rw [build.add_eq (by omega), ok_bind, build.add_eq h]

theorem Laid.next (consumes : parse.Consumes)
    (hframe : frameRequest parse (request.drop offset) = .complete headers body) :
    offset < offset + headers + body := by
  have hpos := (frameWithin_consumes consumes hframe).1
  omega

theorem Laid.le (consumes : parse.Consumes) (h : Laid parse request count offset) :
    count ≤ offset ∧ offset ≤ request.length := by
  induction h with
  | start => exact ⟨Nat.le_refl _, Nat.zero_le _⟩
  | message _ _ hframe hle ih =>
    have hnext := Laid.next consumes hframe
    constructor
    · omega
    · exact hle

/-- Where every end is a word, the loop goes from message to message. -/
theorem Probed.laid (hfit : EndsFit parse request) {s : Nat × Nat}
    (h : Probed build parse request s) : Laid parse request s.1 s.2 := by
  induction h with
  | refl => exact .start
  | tail _ hturn ih =>
    cases hturn with
    | turn hinside hframe hsum hle =>
      have hword := hfit ih hinside hframe
      rw [add_ends build hword] at hsum
      obtain rfl := Except.ok.inj hsum
      exact .message ih hinside hframe hle

theorem Laid.probed (hsums : ∀ {s headers body}, Probed build parse request s →
      s.2 < request.length → frameRequest parse (request.drop s.2) = .complete headers body →
      s.2 + headers + body < word)
    (h : Laid parse request count offset) : Probed build parse request (count, offset) := by
  induction h with
  | start => exact .refl
  | message _ hinside hframe hle ih =>
    have hword := hsums ih hinside hframe
    exact .tail ih (.turn hinside hframe (add_ends build hword) hle)

/-- With a turn for every byte that is left, the loop ends. -/
theorem verifyFrom_ends (consumes : parse.Consumes) (hfit : EndsFit parse request)
    (h : Laid parse request count offset) (hfuel : request.length < fuel + offset) :
    Ended build request (verifyFrom build parse request fuel count offset) := by
  induction fuel generalizing count offset with
  | zero =>
    have hle := (h.le consumes).2
    omega
  | succ fuel ih =>
    by_cases hinside : offset < request.length
    · cases hframe : frameRequest parse (request.drop offset) with
      | incomplete =>
        right
        refine ⟨"incomplete request".toList, request.length, Nat.le_refl _, ?_⟩
        rw [verifyFrom, if_pos hinside, hframe]
      | malformed message =>
        right
        refine ⟨message, offset, Nat.le_of_lt hinside, ?_⟩
        rw [verifyFrom, if_pos hinside, hframe]
      | complete headers body =>
        have hword := hfit h hinside hframe
        have hnext := Laid.next consumes hframe
        by_cases hlong : request.length < offset + headers + body
        · right
          refine ⟨"incomplete request".toList, request.length, Nat.le_refl _, ?_⟩
          rw [verifyFrom, if_pos hinside, hframe]
          simp only [build.add_eq (show offset + headers < word by omega), ok_bind,
            build.add_eq hword]
          rw [if_pos hlong]
        · have hle := Nat.le_of_not_lt hlong
          have hturn : ProbeTurn build parse request (count, offset)
              (count + 1, offset + headers + body) :=
            .turn hinside hframe (add_ends build hword) hle
          rw [hturn.verifyFrom fuel]
          apply ih (.message h hinside hframe hle)
          omega
    · rw [verifyFrom, if_neg hinside]
      by_cases hzero : count = 0
      · right
        refine ⟨"incomplete request".toList, request.length, Nat.le_refl _, ?_⟩
        rw [if_pos hzero]
      · left
        refine ⟨count, ?_, if_neg hzero⟩
        have hle := h.le consumes
        omega

end Loop

/-- The loop makes progress exactly when the end of every message is a machine word. -/
theorem progresses_iff {parse : RequestParser} (consumes : parse.Consumes) (build : Build)
    (request : Bytes) : Progresses build parse request ↔ EndsFit parse request := by
  constructor
  · intro h count offset headers body hlaid hinside hframe
    exact h.sums (hlaid.probed h.sums) hinside hframe
  · intro hfit
    constructor
    · intro s t hs hturn
      cases hturn with
      | turn hinside hframe hsum hle =>
        have hlaid : Laid parse request _ _ := Probed.laid hfit hs
        rw [add_ends build (hfit hlaid hinside hframe)] at hsum
        obtain rfl := Except.ok.inj hsum
        exact ⟨Laid.next consumes hframe, hle⟩
    · intro s headers body hs hinside hframe
      exact hfit (Probed.laid hfit hs) hinside hframe
    · intro s hs
      have hle := (Probed.laid hfit hs).le consumes
      omega
    · apply verifyFrom_ends consumes hfit .start
      omega

theorem requestVerdict_complete {capacity headerEnd n : Nat} {lines : List Bytes}
    {headers : List Header} (h : requestVerdict capacity headerEnd lines = .complete n headers) :
    n = headerEnd := by
  unfold requestVerdict at h
  split at h
  · cases h
  · split at h
    · split at h
      · split at h
        · exact (RequestVerdict.complete.inj h).1.symm
        · cases h
      · cases h
    · cases h

theorem requestReference_consumes : RequestParser.Consumes requestReference := by
  intro capacity input n headers h
  unfold requestReference at h
  split at h
  · cases h
  · rename_i lines rest hlines
    have hlen := headLines_length hlines
    have hn := requestVerdict_complete h
    omega

/-- A message with a body and one without, in one request. -/
def pipelinedRequest : Bytes :=
  ascii "POST /a HTTP/1.1\r\nContent-Length: 2\r\n\r\nhiGET / HTTP/1.1\r\n\r\n"

theorem frame_pipelined {offset headers body : Nat}
    (hat : offset = 0 ∨ offset = 41 ∨ offset = 59) (hinside : offset < pipelinedRequest.length)
    (hframe : frameRequest requestReference (pipelinedRequest.drop offset) =
      .complete headers body) :
    offset = 0 ∧ headers = 39 ∧ body = 2 ∨ offset = 41 ∧ headers = 18 ∧ body = 0 := by
  have hfirst : frameRequest requestReference (pipelinedRequest.drop 0) = .complete 39 2 := by
    decide +kernel
  have hsecond : frameRequest requestReference (pipelinedRequest.drop 41) = .complete 18 0 := by
    decide +kernel
  rcases hat with rfl | rfl | rfl
  · obtain ⟨rfl, rfl⟩ := RequestFraming.complete.inj (hfirst.symm.trans hframe)
    exact .inl ⟨rfl, rfl, rfl⟩
  · obtain ⟨rfl, rfl⟩ := RequestFraming.complete.inj (hsecond.symm.trans hframe)
    exact .inr ⟨rfl, rfl, rfl⟩
  · exact absurd hinside (by decide)

theorem laid_pipelined {count offset : Nat}
    (h : Laid requestReference pipelinedRequest count offset) :
    offset = 0 ∨ offset = 41 ∨ offset = 59 := by
  induction h with
  | start => exact .inl rfl
  | message _ hinside hframe _ ih =>
    rcases frame_pipelined ih hinside hframe with ⟨rfl, rfl, rfl⟩ | ⟨rfl, rfl, rfl⟩
    · exact .inr (.inl rfl)
    · exact .inr (.inr rfl)

theorem progresses_iff_sample :
    Progresses .debug requestReference pipelinedRequest ∧
      verifyRequest .debug requestReference pipelinedRequest = .ok (.ok 2) := by
  refine ⟨(progresses_iff requestReference_consumes .debug pipelinedRequest).mpr ?_, ?_⟩
  · intro count offset headers body hlaid hinside hframe
    rcases frame_pipelined (laid_pipelined hlaid) hinside hframe with
      ⟨rfl, rfl, rfl⟩ | ⟨rfl, rfl, rfl⟩
    · decide
    · decide
  · decide +kernel
/-- A head of 56 bytes whose body would take the offset back to its first byte. -/
def circularRequest : Bytes :=
  ascii "GET / HTTP/1.1\r\nContent-Length: 18446744073709551560\r\n\r\n"

theorem frame_circular :
    frameRequest requestReference circularRequest = .complete 56 18446744073709551560 := by
  decide +kernel

theorem counted_circular (count : Nat) :
    ProbeTurn .release requestReference circularRequest (count, 0) (count + 1, 0) :=
  .turn (by decide) frame_circular rfl (Nat.zero_le _)

/-- A release build counts the same message for ever, a debug build panics. -/
theorem circular_request :
    RequestParser.Consumes requestReference ∧
      ¬ Progresses .release requestReference circularRequest ∧
      ¬ Progresses .debug requestReference circularRequest ∧
      (∀ fuel count, verifyFrom .release requestReference circularRequest fuel count 0 =
        .error .fuel) ∧
      verifyRequest .debug requestReference circularRequest = .error .overflow := by
  have hinside : 0 < circularRequest.length := by decide
  refine ⟨requestReference_consumes, ?_, ?_, ?_, ?_⟩
  · intro h
    exact Nat.lt_irrefl 0 (h.rises .refl (counted_circular 0)).1
  · intro h
    exact absurd (h.sums .refl hinside frame_circular) (by decide)
  · intro fuel
    induction fuel with
    | zero =>
      intro count
      rfl
    | succ fuel ih =>
      intro count
      rw [(counted_circular count).verifyFrom fuel]
      exact ih (count + 1)
  · have hframe : frameRequest requestReference (circularRequest.drop 0) = _ := frame_circular
    rw [verifyRequest, verifyFrom, if_pos hinside, hframe]
    rfl

/-- What a parser reports of a head it read, or found no room for, stands when bytes are
appended. -/
structure RequestParser.Stable (parse : RequestParser) : Prop where
  complete : ∀ {capacity input n headers}, parse capacity input = .complete n headers →
    ∀ more, parse capacity (input ++ more) = .complete n headers
  tooMany : ∀ {capacity input}, parse capacity input = .tooManyHeaders →
    ∀ more, parse capacity (input ++ more) = .tooManyHeaders

section Append
variable {build : Build} {parse : RequestParser} {front back : Bytes}
variable {fuel count offset headers body n : Nat}

theorem frameWithin_append (stable : parse.Stable) {input : Bytes} {capacities : List Nat}
    (h : frameWithin parse input capacities = .complete headers body) (more : Bytes) :
    frameWithin parse (input ++ more) capacities = .complete headers body := by
  induction capacities with
  | nil => cases h
  | cons capacity capacities ih =>
    rw [frameWithin] at h ⊢
    cases hparse : parse capacity input with
    | complete headerEnd fields =>
      rw [hparse] at h
      rw [stable.complete hparse more]
      exact h
    | tooManyHeaders =>
      rw [hparse] at h
      rw [stable.tooMany hparse more]
      exact ih h
    | incomplete => rw [hparse] at h; cases h
    | rejected message => rw [hparse] at h; cases h

theorem ProbeTurn.append (stable : parse.Stable) {s t : Nat × Nat}
    (h : ProbeTurn build parse front s t) (back : Bytes) :
    ProbeTurn build parse (front ++ back) s t := by
  have hlen : (front ++ back).length = front.length + back.length := List.length_append
  cases h with
  | turn hinside hframe hsum hle =>
    refine .turn ?_ ?_ hsum ?_
    · omega
    · rw [List.drop_append_of_le_length (Nat.le_of_lt hinside)]
      exact frameWithin_append stable hframe back
    · omega

theorem add_shifted {base next : Nat}
    (h : (build.add offset headers >>= fun sum => build.add sum body) = .ok next)
    (hnext : base + next < word) :
    (build.add (base + offset) headers >>= fun sum => build.add sum body) = .ok (base + next) := by
  cases build with
  | debug =>
    by_cases hfirst : offset + headers < word
    · rw [Build.debug.add_eq hfirst, ok_bind] at h
      by_cases hsecond : offset + headers + body < word
      · rw [Build.debug.add_eq hsecond] at h
        obtain rfl := Except.ok.inj h
        rw [add_ends .debug (by omega)]
        congr 1
        omega
      · rw [Build.add_debug (Nat.le_of_not_lt hsecond)] at h
        cases h
    · rw [Build.add_debug (Nat.le_of_not_lt hfirst)] at h
      cases h
  | release =>
    simp only [Build.add_release, ok_bind, Nat.mod_add_mod] at h ⊢
    obtain rfl := Except.ok.inj h
    congr 1
    rw [← Nat.mod_eq_of_lt hnext, Nat.add_mod_mod]
    congr 1
    omega

/-- A message counted at the back is counted after any front. -/
theorem ProbeTurn.shift {s t : Nat × Nat} (h : ProbeTurn build parse back s t)
    (hlength : (front ++ back).length ≤ vecMax) (base : Nat) :
    ProbeTurn build parse (front ++ back) (base + s.1, front.length + s.2)
      (base + t.1, front.length + t.2) := by
  have hlen : (front ++ back).length = front.length + back.length := List.length_append
  have hword : vecMax < word := by decide
  cases h with
  | turn hinside hframe hsum hle =>
    refine .turn ?_ ?_ (add_shifted hsum ?_) ?_
    · omega
    · rw [← List.drop_drop, List.drop_left]
      exact hframe
    · omega
    · omega

theorem turns_count {request : Bytes} {s t : Nat × Nat}
    (h : ReflTransGen (ProbeTurn build parse request) s t) : s.1 ≤ t.1 := by
  induction h with
  | refl => exact Nat.le_refl _
  | tail _ hturn ih =>
    cases hturn with
    | turn => exact Nat.le_succ_of_le ih

theorem verifyFrom_iff {request : Bytes} (hle : offset ≤ request.length) :
    verifyFrom build parse request fuel count offset = .ok (.ok n) ↔
      ReflTransGen (ProbeTurn build parse request) (count, offset) (n, request.length) ∧
        n ≠ 0 ∧ n < count + fuel := by
  constructor
  · intro h
    induction fuel generalizing count offset with
    | zero => cases h
    | succ fuel ih =>
      rcases verifyFrom_ok h with ⟨hend, rfl, hne⟩ |
        ⟨hinside, headers, body, next, hframe, hsum, hnext, hrest⟩
      · obtain rfl := Nat.le_antisymm hle hend
        exact ⟨.refl, hne, by omega⟩
      · obtain ⟨hturns, hne, hlt⟩ := ih hnext hrest
        exact ⟨.head (.turn hinside hframe hsum hnext) hturns, hne, by omega⟩
  · rintro ⟨hturns, hne, hlt⟩
    generalize hstart : (count, offset) = start at hturns
    induction hturns using ReflTransGen.head_induction_on generalizing count offset fuel with
    | refl =>
      obtain ⟨rfl, rfl⟩ := Prod.mk.inj hstart
      obtain ⟨fuel, rfl⟩ : ∃ k, fuel = k + 1 := ⟨fuel - 1, by omega⟩
      rw [verifyFrom, if_neg (Nat.lt_irrefl _), if_neg hne]
    | @head start mid hturn hrest ih =>
      subst hstart
      have hmid : mid.1 = count + 1 ∧ mid.2 ≤ request.length := by
        cases hturn with
        | turn _ _ _ hnext => exact ⟨rfl, hnext⟩
      have hcount : mid.1 ≤ n := turns_count hrest
      obtain ⟨fuel, rfl⟩ : ∃ k, fuel = k + 1 := ⟨fuel - 1, by omega⟩
      rw [hturn.verifyFrom fuel]
      apply ih hmid.2 (by omega) rfl

theorem verify_append (stable : parse.Stable) {m : Nat}
    (hlength : (front ++ back).length ≤ vecMax)
    (hfront : verifyRequest build parse front = .ok (.ok m))
    (hback : verifyRequest build parse back = .ok (.ok n)) :
    verifyRequest build parse (front ++ back) = .ok (.ok (m + n)) := by
  have hlen : (front ++ back).length = front.length + back.length := List.length_append
  obtain ⟨hfirst, hm, hmle⟩ := (verifyFrom_iff (Nat.zero_le _)).mp hfront
  obtain ⟨hthen, hn, hnle⟩ := (verifyFrom_iff (Nat.zero_le _)).mp hback
  have hseam : ReflTransGen (ProbeTurn build parse (front ++ back)) (0, 0) (m, front.length) :=
    hfirst.lift id fun _ _ hturn => hturn.append stable back
  have hrest : ReflTransGen (ProbeTurn build parse (front ++ back)) (m + 0, front.length + 0)
      (m + n, front.length + back.length) :=
    hthen.lift (fun s => (m + s.1, front.length + s.2)) fun _ _ hturn => hturn.shift hlength m
  apply (verifyFrom_iff (Nat.zero_le _)).mpr
  rw [hlen]
  refine ⟨hseam.trans hrest, ?_, ?_⟩
  · omega
  · omega

/-- The probe counts every request of a pipeline. -/
theorem verify_flatten (stable : parse.Stable) {requests : List Bytes} (hne : requests ≠ [])
    (hlength : requests.flatten.length ≤ vecMax)
    (hone : ∀ request ∈ requests, verifyRequest build parse request = .ok (.ok 1)) :
    verifyRequest build parse requests.flatten = .ok (.ok requests.length) := by
  induction requests with
  | nil => exact absurd rfl hne
  | cons request requests ih =>
    have hfirst := hone request List.mem_cons_self
    cases requests with
    | nil =>
      rw [List.flatten_cons, List.flatten_nil, List.append_nil]
      exact hfirst
    | cons next rest =>
      rw [List.flatten_cons] at hlength ⊢
      have hback : (next :: rest).flatten.length ≤ vecMax := by
        rw [List.length_append] at hlength
        omega
      have hrest := ih (List.cons_ne_nil _ _) hback fun r hr => hone r (List.mem_cons_of_mem _ hr)
      rw [verify_append stable hlength hfirst hrest, Nat.add_comm]
      rfl

end Append

/-- The count of a concatenation is the sum of the counts, and a pipeline of requests that
each verify as one verifies as their number. -/
theorem verifyRequest_pipelines {parse : RequestParser} (stable : parse.Stable) (build : Build) :
    (∀ (front back : Bytes) (m n : Nat), (front ++ back).length ≤ vecMax →
      verifyRequest build parse front = .ok (.ok m) →
      verifyRequest build parse back = .ok (.ok n) →
      verifyRequest build parse (front ++ back) = .ok (.ok (m + n))) ∧
    ∀ requests : List Bytes, requests ≠ [] → requests.flatten.length ≤ vecMax →
      (∀ request ∈ requests, verifyRequest build parse request = .ok (.ok 1)) →
      verifyRequest build parse requests.flatten = .ok (.ok requests.length) := by
  constructor
  · intro front back m n hlength hfront hback
    exact verify_append stable hlength hfront hback
  · intro requests hne hlength hone
    exact verify_flatten stable hne hlength hone

theorem requestReference_append {capacity : Nat} {input : Bytes}
    (h : requestReference capacity input ≠ .incomplete) (more : Bytes) :
    requestReference capacity (input ++ more) = requestReference capacity input := by
  unfold requestReference at h ⊢
  cases hlines : headLines (input.length + 1) input with
  | none => simp [hlines] at h
  | some split =>
    obtain ⟨hmore, hend⟩ := headLines_more hlines more
    simp only [hmore, hend]

theorem requestReference_stable : RequestParser.Stable requestReference where
  complete := by
    intro capacity input n headers h more
    rw [requestReference_append (by simp [h]), h]
  tooMany := by
    intro capacity input h more
    rw [requestReference_append (by simp [h]), h]

theorem verifyRequest_pipelines_sample :
    verifyRequest .debug requestReference
      (ascii "POST /x HTTP/1.1\r\nContent-Length: 5\r\n\r\nhello" ++
        ascii "GET / HTTP/1.1\r\n\r\n") = .ok (.ok 2) :=
  (verifyRequest_pipelines requestReference_stable .debug).1 _ _ 1 1 (by decide)
    (by decide +kernel) (by decide +kernel)

/-- No request at all is no pipeline of none. -/
theorem verify_no_requests :
    RequestParser.Stable requestReference ∧
      (∀ request ∈ ([] : List Bytes),
        verifyRequest .release requestReference request = .ok (.ok 1)) ∧
      verifyRequest .release requestReference ([] : List Bytes).flatten =
        .ok (.error "incomplete request at 1:1".toList) := by
  refine ⟨requestReference_stable, ?_, ?_⟩
  · intro request hrequest
    cases hrequest
  · decide +kernel

end Wrkrs
