import Mathlib.Data.List.Forall2
import Wrkrs.FramerFeeds

/-!
# Capturing and framing

A framer that captures headers and bodies and one that does not run in lockstep.
Erasing the captured data maps every decoding step of the first to one of the second;
only the slice panics of the first have no counterpart.
-/

namespace Wrkrs

set_option autoImplicit false
set_option maxRecDepth 4096

open Text Machine Incremental

def Message.erase (m : Message) : Message := { m with capture := false, headers := [], body := [] }

def Response.erase (r : Response) : Response := { r with headers := [], body := [] }

theorem chooseFraming_erase (m : Message) (headers : List Header) :
    m.erase.chooseFraming headers =
      ((m.chooseFraming headers).1.map Response.erase, (m.chooseFraming headers).2.erase) := by
  have hstatus : m.erase.status = m.status := rfl
  unfold Message.chooseFraming
  rw [hstatus]
  split
  · rfl
  · split
    · rfl
    · split <;> rfl

theorem readHead_erase (m : Message) (head : ResponseHead) :
    m.erase.readHead head = (m.readHead head).erase := by
  simp [Message.readHead, Message.erase]

theorem pushBody_erase (m : Message) (bytes : Bytes) :
    m.erase.pushBody bytes = (m.pushBody bytes).erase := by
  simp [Message.pushBody, Message.erase]

theorem decode_erases (build : Build) (parse : ResponseParser) :
    Erases (decode build parse) (decode build parse) (fun stop => ∃ fault, stop = .fault fault)
      Message.erase Response.erase := by
  intro m input
  have hstate : m.erase.state = m.state := rfl
  unfold decode
  rw [hstate]
  cases m.state with
  | headers =>
    refine .inl ?_
    simp only [Message.decodeHead]
    cases parseHead parse input with
    | complete headerEnd head =>
      simp only [readHead_erase, chooseFraming_erase]
      cases ((m.readHead head).chooseFraming head.headers).1 <;> rfl
    | incomplete => rfl
    | tooManyHeaders => rfl
    | rejected => rfl
  | body remaining =>
    refine .inl ?_
    simp only [Message.decodeBody, pushBody_erase]
    split <;> rfl
  | chunked chunk =>
    cases chunk with
    | size =>
      refine .inl ?_
      simp only [Message.decodeSize]
      split
      · rfl
      · split <;> rfl
    | data remaining =>
      simp only [Message.decodeData]
      cases build.add remaining 2 with
      | error fault => exact .inr ⟨_, rfl, fault, rfl⟩
      | ok needed =>
        -- Only the capturing side slices the data.
        have hplain : ¬ (m.erase.capture = true ∧ word ≤ remaining + 2) := fun h => by cases h.1
        simp only [if_neg hplain, pushBody_erase]
        split
        · exact .inl rfl
        · split
          · exact .inr ⟨_, rfl, .slice, rfl⟩
          · exact .inl rfl
    | trailers =>
      refine .inl ?_
      simp only [Message.decodeTrailers]
      split
      · rfl
      · split <;> rfl
  | untilClose => exact .inl rfl
  | broken => exact .inl rfl

namespace ResponseFramer

variable {build : Build} {parse : ResponseParser} {f f' : ResponseFramer}

def erase (f : ResponseFramer) : ResponseFramer := f.setMessage f.toMessage.erase

theorem erase_load (f : ResponseFramer) (data : Bytes) : f.erase.load data = (f.load data).erase := by
  unfold load
  have hscanned : f.erase.scanned = f.scanned := rfl
  rw [hscanned]
  split <;> rfl

def eraseResult (result : Except FrameError (List Response)) : Except FrameError (List Response) :=
  result.map (List.map Response.erase)

/-- A call of the capturing framer is the same call without capture, data erased. -/
theorem feed_erase (laws : parse.Lawful) (hf : f.Ready build parse) {data : Bytes}
    {result : Except FrameError (List Response)}
    (h : f.feed build parse data = .ok (result, f')) :
    f.erase.feed build parse data = .ok (eraseResult result, f'.erase) := by
  have hfits : f.erase.Fits := ⟨hf.fits.scanned, hf.fits.buf⟩
  have hsized : f.erase.Sized := hf.sized
  obtain ⟨hlen, ⟨outs, m, ys, rfl, rfl, hd⟩ | ⟨outs, m, ys, error, rfl, rfl, hfail⟩⟩ :=
    feed_ok laws hf.fits hf.sized h
  · have hlen' : (f.erase.load data).buf.length ≤ vecMax := by
      rw [erase_load]
      exact hlen
    have hplain : Drains (decode build parse) f.erase.toMessage (f.erase.rest ++ data)
        (outs.map Response.erase) m.erase ys := hd.erase (decode_erases build parse)
    rw [feed_of_drains laws hfits hsized hlen' hplain, erase_load]
    rfl
  · have hlen' : (f.erase.load data).buf.length ≤ vecMax := by
      rw [erase_load]
      exact hlen
    have hgood : ¬ ∃ fault, Stop.frame error = .fault fault := by simp
    have hplain : Fails (decode build parse) f.erase.toMessage (f.erase.rest ++ data)
        (outs.map Response.erase) m.erase ys (.frame error) :=
      hfail.erase (decode_erases build parse) hgood
    rw [feed_of_fails laws hfits hsized hlen' hplain, erase_load]
    rfl

theorem feedCalls_erase (laws : parse.Lawful) (hf : f.Ready build parse) {pieces : List Bytes}
    {results : List (Except FrameError (List Response))}
    (h : f.feedCalls build parse pieces = .ok (results, f')) :
    f.erase.feedCalls build parse pieces = .ok (results.map eraseResult, f'.erase) := by
  induction pieces generalizing f results with
  | nil =>
    obtain ⟨rfl, rfl⟩ : [] = results ∧ f = f' := by simpa [feedCalls] using h
    rfl
  | cons piece pieces ih =>
    obtain ⟨result, g, rest, hfeed, hcalls, rfl⟩ := feedCalls_cons h
    exact feedCalls_of_cons (feed_erase laws hf hfeed) (ih (feed_ready laws hf hfeed) hcalls)

theorem closedWith_erase (m : Message) (ys : Bytes) :
    closedWith m.erase ys = (eraseResult (closedWith m ys).1, (closedWith m ys).2.1.erase,
      (closedWith m ys).2.2) := by
  have hstate : m.erase.state = m.state := rfl
  unfold closedWith
  rw [hstate]
  cases m.state with
  | headers => rfl
  | body remaining => rfl
  | chunked chunk => rfl
  | untilClose => simp only [pushBody_erase]; rfl
  | broken => rfl

theorem closed_erase (hf : f.Fits) {result : Except FrameError (List Response)}
    (h : f.closed = .ok (result, f')) :
    f.erase.closed = .ok (eraseResult result, f'.erase) := by
  have hfits : f.erase.Fits := ⟨hf.scanned, hf.buf⟩
  rw [closed_eq hf] at h
  obtain ⟨rfl, rfl⟩ := Prod.mk.inj (Except.ok.inj h)
  have hrest : f.erase.rest = f.rest := rfl
  have hmessage : f.erase.toMessage = f.toMessage.erase := rfl
  rw [closed_eq hfits, hmessage, hrest, closedWith_erase]
  rfl

structure Plain (captured plain : Response) : Prop where
  status : plain.status = captured.status
  keepAlive : plain.keepAlive = captured.keepAlive
  headers : plain.headers = []
  body : plain.body = []

inductive SameVerdict :
    Except FrameError (List Response) → Except FrameError (List Response) → Prop where
  | error (error : FrameError) : SameVerdict (.error error) (.error error)
  | ok {captured plain : List Response} :
      List.Forall₂ Plain captured plain → SameVerdict (.ok captured) (.ok plain)

structure Locked (f g : ResponseFramer) : Prop where
  state : g.state = f.state
  scanned : g.scanned = f.scanned
  buf : g.buf = f.buf

theorem sameVerdict_erase (result : Except FrameError (List Response)) :
    SameVerdict result (eraseResult result) := by
  cases result with
  | error error => exact .error error
  | ok responses =>
    apply SameVerdict.ok
    apply List.forall₂_map_right_iff.mpr
    exact List.forall₂_same.mpr fun r _ => ⟨rfl, rfl, rfl, rfl⟩

theorem locked_erase (f : ResponseFramer) : Locked f f.erase := ⟨rfl, rfl, rfl⟩

/-- As long as neither run panics, every call with capture and the same call without it
agree on errors, statuses and keep-alive, and both framers stay at the same point,
through the end of the stream. -/
theorem capture_lockstep (parse : ResponseParser) (laws : parse.Lawful) (build : Build)
    (pieces : List Bytes) (results results' : List (Except FrameError (List Response)))
    (f f' : ResponseFramer)
    (h : (new true).feedCalls build parse pieces = .ok (results, f))
    (h' : (new false).feedCalls build parse pieces = .ok (results', f')) :
    List.Forall₂ SameVerdict results results' ∧ Locked f f' ∧
      ∃ result g result' g', f.closed = .ok (result, g) ∧ f'.closed = .ok (result', g') ∧
        SameVerdict result result' ∧ Locked g g' := by
  have hready := new_ready laws build true
  have herase := feedCalls_erase laws hready h
  have hnew : (new true).erase = new false := rfl
  rw [hnew, h'] at herase
  obtain ⟨rfl, rfl⟩ := Prod.mk.inj (Except.ok.inj herase)
  have hf := feedCalls_ready laws hready h
  refine ⟨?_, locked_erase f, ?_⟩
  · apply List.forall₂_map_right_iff.mpr
    exact List.forall₂_same.mpr fun result _ => sameVerdict_erase result
  · have hclosed := closed_eq hf.fits
    exact ⟨_, _, _, _, hclosed, closed_erase hf.fits hclosed, sameVerdict_erase _, locked_erase _⟩

theorem capture_lockstep_sample :
    List.Forall₂ SameVerdict
        [.ok [], .ok [⟨200, [("Content-Length".toList, ['2'])], ascii "hi", true⟩]]
        [.ok [], .ok [⟨200, [], [], true⟩]] ∧
      Locked ⟨⟨.untilClose, true, 200, false, [], []⟩, sampleStream, 57⟩
        ⟨⟨.untilClose, false, 200, false, [], []⟩, sampleStream, 57⟩ ∧
      ∃ result g result' g',
        closed ⟨⟨.untilClose, true, 200, false, [], []⟩, sampleStream, 57⟩ = .ok (result, g) ∧
        closed ⟨⟨.untilClose, false, 200, false, [], []⟩, sampleStream, 57⟩ = .ok (result', g') ∧
        SameVerdict result result' ∧ Locked g g' :=
  capture_lockstep reference reference_lawful .debug [sampleStream.take 20, sampleStream.drop 20]
    _ _ _ _ (by rfl) (by rfl)

end ResponseFramer

end Wrkrs
