import Wrkrs.FramerDecoder

/-!
# The drain loop as a decoding run

The chunk loop and the drain loop of the framer are finite derivations of `decode`,
and their bounds suffice. A feed is such a run over the unconsumed bytes with the
new ones appended.
-/

namespace Wrkrs

set_option autoImplicit false
set_option maxRecDepth 4096

open Text Machine Incremental

namespace ResponseFramer

variable {build : Build} {parse : ResponseParser} {f : ResponseFramer}

theorem chunkTurn_eq (hf : f.Fits) (hs : f.Sized) (build : Build) (parse : ResponseParser)
    {chunk : ChunkState} (hstate : f.state = .chunked chunk) :
    f.chunkTurn build = f.turnOf (decode build parse f.toMessage f.rest) := by
  cases chunk with
  | size =>
    rw [chunkTurn_size hf build hstate]
    simp only [decode, hstate]
  | data remaining =>
    rw [chunkTurn_data hf build hstate (hs remaining hstate)]
    simp only [decode, hstate]
  | trailers =>
    rw [chunkTurn_trailers hf build hstate]
    simp only [decode, hstate]

theorem decode_chunked_out {m t : Message} {input : Bytes} {n : Nat} {out : List Response}
    {chunk : ChunkState} (hstate : m.state = .chunked chunk)
    (h : decode build parse m input = .advance n t out) :
    (out = [] ∧ ∃ chunk', t.state = .chunked chunk') ∨ ∃ message, out = [message] := by
  rw [decode_advance_iff] at h
  cases h with
  | head hother _ => cases hstate.symm.trans hother
  | body hother _ => cases hstate.symm.trans hother
  | size _ _ _ => exact .inl ⟨rfl, _, rfl⟩
  | data _ _ _ _ => exact .inl ⟨rfl, _, rfl⟩
  | last _ _ => exact .inr ⟨_, rfl⟩
  | trailer _ _ _ => exact .inl ⟨rfl, _, hstate⟩

inductive ChunkRun (build : Build) (parse : ResponseParser) (f : ResponseFramer) :
    Except Fault (Outcome (Option Response)) → Prop where
  | waits {m : Message} {ys : Bytes} :
      Drains (decode build parse) f.toMessage f.rest [] m ys →
      ChunkRun build parse f (.ok (.ok none, f.goto m ys))
  | completes {m : Message} {ys : Bytes} {message : Response} :
      Steps (decode build parse) f.toMessage f.rest [message] m ys →
      work m ys < work f.toMessage f.rest →
      ChunkRun build parse f (.ok (.ok (some message), f.goto m ys))
  | breaks {m : Message} {ys : Bytes} {error : FrameError} :
      Fails (decode build parse) f.toMessage f.rest [] m ys (.frame error) →
      ChunkRun build parse f (.ok (.error error, (f.goto m ys).asBroken))
  | faults {m : Message} {ys : Bytes} {fault : Fault} :
      Fails (decode build parse) f.toMessage f.rest [] m ys (.fault fault) →
      ChunkRun build parse f (.error fault)

theorem ChunkRun.head {n : Nat} {m : Message} {result : Except Fault (Outcome (Option Response))}
    (h : decode build parse f.toMessage f.rest = .advance n m [])
    (hwork : work m (f.rest.drop n) < work f.toMessage f.rest)
    (hrun : ChunkRun build parse (f.goto m (f.rest.drop n)) result) :
    ChunkRun build parse f result := by
  have hrest : (f.goto m (f.rest.drop n)).rest = f.rest.drop n := goto_rest (List.drop_suffix _ _)
  cases hrun with
  | waits hd =>
    rw [goto_toMessage, hrest] at hd
    exact .waits ⟨.head h hd.1, hd.2⟩
  | completes hsteps hlt =>
    rw [goto_toMessage, hrest] at hsteps hlt
    exact .completes (.head h hsteps) (Nat.lt_trans hlt hwork)
  | breaks hfail =>
    rw [goto_toMessage, hrest] at hfail
    exact .breaks ⟨.head h hfail.1, hfail.2⟩
  | faults hfail =>
    rw [goto_toMessage, hrest] at hfail
    exact .faults ⟨.head h hfail.1, hfail.2⟩

theorem frameChunked_run (laws : parse.Lawful) {chunk : ChunkState} {fuel : Nat} (hf : f.Fits)
    (hs : f.Sized) (hstate : f.state = .chunked chunk)
    (hfuel : work f.toMessage f.rest < fuel) :
    ChunkRun build parse f (frameChunked build fuel f) := by
  induction fuel generalizing f chunk with
  | zero => omega
  | succ fuel ih =>
    unfold frameChunked
    rw [chunkTurn_eq hf hs build parse hstate]
    cases hstep : decode build parse f.toMessage f.rest with
    | wait =>
      have hd : Drains (decode build parse) f.toMessage f.rest [] f.toMessage f.rest :=
        ⟨.refl _ _, hstep⟩
      have hrun := ChunkRun.waits hd
      rw [goto_self hf] at hrun
      exact hrun
    | fail stop =>
      cases stop with
      | frame error =>
        have hfail : Fails (decode build parse) f.toMessage f.rest [] f.toMessage f.rest
            (.frame error) := ⟨.refl _ _, hstep⟩
        have hrun := ChunkRun.breaks hfail
        rw [goto_self hf] at hrun
        exact hrun
      | fault fault => exact .faults ⟨.refl _ _, hstep⟩
    | advance n m out =>
      have hwork := decode_lowers laws build hstep
      have hrest : (f.goto m (f.rest.drop n)).rest = f.rest.drop n :=
        goto_rest (List.drop_suffix _ _)
      rcases decode_chunked_out hstate hstep with ⟨rfl, chunk', hchunk⟩ | ⟨message, rfl⟩
      · simp only [turnOf, ok_bind]
        refine ChunkRun.head hstep hwork (ih (hf.goto _ _) (decode_sized hstep hs) hchunk ?_)
        rw [goto_toMessage, hrest]
        omega
      · exact .completes (.single hstep) hwork

inductive DrainRun (build : Build) (parse : ResponseParser) (f : ResponseFramer)
    (completed : List Response) : Except Fault (Outcome (List Response)) → Prop where
  | waits {m : Message} {ys : Bytes} {outs : List Response} :
      Drains (decode build parse) f.toMessage f.rest outs m ys →
      DrainRun build parse f completed (.ok (.ok (completed ++ outs), f.goto m ys))
  | breaks {m : Message} {ys : Bytes} {outs : List Response} {error : FrameError} :
      Fails (decode build parse) f.toMessage f.rest outs m ys (.frame error) →
      DrainRun build parse f completed (.ok (.error error, (f.goto m ys).asBroken))
  | faults {m : Message} {ys : Bytes} {outs : List Response} {fault : Fault} :
      Fails (decode build parse) f.toMessage f.rest outs m ys (.fault fault) →
      DrainRun build parse f completed (.error fault)

theorem DrainRun.after {completed outs : List Response} {m : Message} {ys : Bytes}
    {result : Except Fault (Outcome (List Response))}
    (h : Steps (decode build parse) f.toMessage f.rest outs m ys)
    (hrun : DrainRun build parse (f.goto m ys) (completed ++ outs) result) :
    DrainRun build parse f completed result := by
  have hrest : (f.goto m ys).rest = ys := goto_rest h.suffix
  cases hrun with
  | waits hd =>
    rw [goto_toMessage, hrest] at hd
    rw [List.append_assoc, goto_goto]
    exact .waits ⟨h.trans hd.1, hd.2⟩
  | breaks hfail =>
    rw [goto_toMessage, hrest] at hfail
    rw [goto_goto]
    exact .breaks ⟨h.trans hfail.1, hfail.2⟩
  | faults hfail =>
    rw [goto_toMessage, hrest] at hfail
    exact .faults ⟨h.trans hfail.1, hfail.2⟩

theorem DrainRun.idle (hf : f.Fits) (completed : List Response)
    (h : decode build parse f.toMessage f.rest = .wait) :
    DrainRun build parse f completed (.ok (.ok completed, f)) := by
  have hd : Drains (decode build parse) f.toMessage f.rest [] f.toMessage f.rest := ⟨.refl _ _, h⟩
  have hrun : DrainRun build parse f completed
      (.ok (.ok (completed ++ []), f.goto f.toMessage f.rest)) := .waits hd
  rwa [goto_self hf, List.append_nil] at hrun

theorem DrainRun.broken (hf : f.Fits) (completed : List Response) {error : FrameError}
    (h : decode build parse f.toMessage f.rest = .fail (.frame error)) :
    DrainRun build parse f completed (.ok (.error error, f.asBroken)) := by
  have hfail : Fails (decode build parse) f.toMessage f.rest [] f.toMessage f.rest (.frame error) :=
    ⟨.refl _ _, h⟩
  have hrun : DrainRun build parse f completed
      (.ok (.error error, (f.goto f.toMessage f.rest).asBroken)) := .breaks hfail
  rwa [goto_self hf] at hrun

theorem work_lt_turns (f : ResponseFramer) : work f.toMessage f.rest < f.turns := by
  have hwork := work_le f.toMessage f.rest
  have hlen := f.length_rest
  unfold turns
  omega

theorem chooseFraming_out (m : Message) (headers : List Header) :
    ((m.chooseFraming headers).1.toList = [] ∧ (m.chooseFraming headers).2.state ≠ .headers) ∨
      ∃ message, (m.chooseFraming headers).1.toList = [message] := by
  unfold Message.chooseFraming
  split
  · exact .inr ⟨_, rfl⟩
  · split
    · exact .inl ⟨rfl, by simp⟩
    · split <;> exact .inl ⟨rfl, by simp⟩

theorem decode_headers_out {m t : Message} {input : Bytes} {n : Nat} {out : List Response}
    (h : m.decodeHead parse input = .advance n t out) :
    (out = [] ∧ t.state ≠ .headers) ∨ ∃ message, out = [message] := by
  unfold Message.decodeHead at h
  split at h <;> cases h
  exact chooseFraming_out _ _

theorem decode_body_out {m t : Message} {remaining : Nat} {input : Bytes} {n : Nat}
    {out : List Response} (h : m.decodeBody remaining input = .advance n t out) :
    ∃ message, out = [message] := by
  unfold Message.decodeBody at h
  split at h <;> cases h
  exact ⟨_, rfl⟩

theorem decode_body_not_fail {m : Message} {remaining : Nat} {input : Bytes} {stop : Stop} :
    m.decodeBody remaining input ≠ .fail stop := by
  intro h
  unfold Message.decodeBody at h
  split at h <;> cases h

theorem decode_to_headers {m t : Message} {input : Bytes} {n : Nat} {out : List Response}
    (h : decode build parse m input = .advance n t out) (ht : t.state = .headers) : out ≠ [] := by
  rw [decode_advance_iff] at h
  cases h with
  | @head _ head _ _ =>
    rcases chooseFraming_out (m.readHead head) head.headers with ⟨_, hopen⟩ | ⟨message, hout⟩
    · exact absurd ht hopen
    · rw [hout]
      exact List.cons_ne_nil _ _
  | body _ _ => exact List.cons_ne_nil _ _
  | size _ _ _ => cases ht
  | data _ _ _ _ => cases ht
  | last _ _ => exact List.cons_ne_nil _ _
  | trailer hstate _ _ => cases hstate.symm.trans ht

theorem steps_silent_to_headers {m t : Message} {xs ys : Bytes} {outs : List Response}
    (h : Steps (decode build parse) m xs outs t ys) (ht : t.state = .headers) :
    outs = [] → t = m ∧ ys = xs := by
  induction h with
  | refl =>
    intro _
    exact ⟨rfl, rfl⟩
  | head hstep _ ih =>
    intro hnone
    obtain ⟨rfl, rfl⟩ := List.append_eq_nil_iff.mp hnone
    obtain ⟨rfl, _⟩ := ih ht rfl
    exact absurd rfl (decode_to_headers hstep ht)

theorem drainFrom_run (laws : parse.Lawful) {fuel : Nat} (hf : f.Fits) (hs : f.Sized)
    (hfuel : work f.toMessage f.rest < fuel) (completed : List Response) :
    DrainRun build parse f completed (drainFrom build parse fuel completed f) := by
  induction fuel generalizing f completed with
  | zero => omega
  | succ fuel ih =>
    -- Going on after a derivation that lowers the work.
    have hnext : ∀ {outs m ys}, Steps (decode build parse) f.toMessage f.rest outs m ys →
        work m ys < work f.toMessage f.rest → m.Sized →
        DrainRun build parse f completed
          (drainFrom build parse fuel (completed ++ outs) (f.goto m ys)) := by
      intro outs m ys hsteps hlt hm
      refine .after hsteps (ih (hf.goto m ys) hm ?_ _)
      rw [goto_toMessage, goto_rest hsteps.suffix]
      omega
    unfold drainFrom
    cases hstate : f.state with
    | headers =>
      have hdecode : decode build parse f.toMessage f.rest = f.decodeHead parse f.rest := by
        simp only [decode, hstate]
      simp only [frameHeaders_eq laws.within hf build]
      cases hstep : f.decodeHead parse f.rest with
      | wait =>
        simp only [settle, ok_bind, if_pos hstate]
        exact .idle hf completed (hdecode.trans hstep)
      | fail stop =>
        cases stop with
        | frame error => exact .broken hf completed (hdecode.trans hstep)
        | fault fault => exact .faults ⟨.refl _ _, hdecode.trans hstep⟩
      | advance n m out =>
        have hadv := hdecode.trans hstep
        have hlt := decode_lowers laws build hadv
        have hm := decode_sized hadv hs
        rcases decode_headers_out hstep with ⟨rfl, hopen⟩ | ⟨message, rfl⟩
        · have hgo := hnext (.single hadv) hlt hm
          rw [List.append_nil] at hgo
          simp only [settle, ok_bind, List.head?_nil]
          rw [if_neg (by exact hopen)]
          exact hgo
        · exact hnext (.single hadv) hlt hm
    | body remaining =>
      have hdecode : decode build parse f.toMessage f.rest = f.decodeBody remaining f.rest := by
        simp only [decode, hstate]
      simp only [frameBody_eq hf build hstate]
      cases hstep : f.decodeBody remaining f.rest with
      | wait => exact .idle hf completed (hdecode.trans hstep)
      | fail stop => exact absurd hstep decode_body_not_fail
      | advance n m out =>
        have hadv := hdecode.trans hstep
        obtain ⟨message, rfl⟩ := decode_body_out hstep
        exact hnext (.single hadv) (decode_lowers laws build hadv) (decode_sized hadv hs)
    | chunked chunk =>
      have hrun : ChunkRun build parse f (frameChunked build f.turns f) :=
        frameChunked_run laws hf hs hstate f.work_lt_turns
      generalize frameChunked build f.turns f = result at hrun
      cases hrun with
      | @waits m ys hd =>
        have hdone : DrainRun build parse f completed (.ok (.ok (completed ++ []), f.goto m ys)) :=
          .waits hd
        rw [List.append_nil] at hdone
        exact hdone
      | completes hsteps hlt =>
        have hm : Message.Sized _ := hsteps.invariant (P := fun m _ => m.Sized)
          (fun hm h => decode_sized h hm) hs
        exact hnext hsteps hlt hm
      | breaks hfail => exact .breaks hfail
      | faults hfail => exact .faults hfail
    | untilClose =>
      exact .idle hf completed (by simp only [decode, hstate])
    | broken =>
      exact .idle hf completed (by simp only [decode, hstate])

/-- A drain uses all it can, stops at a framing error or faults with the decoder. -/
theorem drain_run (laws : parse.Lawful) (hf : f.Fits) (hs : f.Sized) :
    DrainRun build parse f [] (f.drain build parse) :=
  drainFrom_run laws hf hs f.work_lt_turns []

def load (f : ResponseFramer) (data : Bytes) : ResponseFramer :=
  if 8192 < f.scanned then { f with buf := f.rest ++ data, scanned := 0 }
  else { f with buf := f.buf ++ data }

@[simp] theorem load_toMessage (data : Bytes) : (f.load data).toMessage = f.toMessage := by
  unfold load
  split <;> rfl

theorem load_rest (hf : f.Fits) (data : Bytes) : (f.load data).rest = f.rest ++ data := by
  unfold load
  split
  · rfl
  · exact List.drop_append_of_le_length hf.scanned

theorem load_scanned_le (hf : f.Fits) (data : Bytes) :
    (f.load data).scanned ≤ (f.load data).buf.length := by
  have hle := hf.scanned
  unfold load
  split
  · exact Nat.zero_le _
  · simp only [List.length_append]
    omega

theorem load_length (f : ResponseFramer) (data : Bytes) :
    (f.load data).buf.length ≤ f.buf.length + data.length := by
  have hlen := f.length_rest
  unfold load
  split <;> simp only [List.length_append] <;> omega

theorem feed_eq (hf : f.Fits) (data : Bytes) :
    f.feed build parse data =
      if (f.load data).buf.length ≤ vecMax then (f.load data).drain build parse
      else .error .capacity := by
  unfold feed compact load
  by_cases hbig : 8192 < f.scanned
  · simp only [if_pos hbig, sliceFrom_eq hf.scanned, ok_bind, drop_scanned, extend,
      List.length_append, pure, Except.pure]
    split <;> rfl
  · simp only [if_neg hbig, ok_bind, extend, List.length_append, pure, Except.pure]
    split <;> rfl

end ResponseFramer

end Wrkrs
