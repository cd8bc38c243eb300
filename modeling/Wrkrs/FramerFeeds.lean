import Wrkrs.FramerDrain

/-!
# Feeding a framer in pieces

A run is a list of feed calls on one framer. What the calls return together, where
the framer stands and what `closed` adds depend on the bytes only, not on the cut.
-/

namespace Wrkrs

set_option autoImplicit false
set_option maxRecDepth 4096

open Text Machine Incremental

namespace ResponseFramer

variable {build : Build} {parse : ResponseParser} {f : ResponseFramer}

def feedCalls (build : Build) (parse : ResponseParser) : ResponseFramer → List Bytes →
    Except Fault (List (Except FrameError (List Response)) × ResponseFramer)
  | f, [] => .ok ([], f)
  | f, piece :: pieces => do
    let (result, f) ← f.feed build parse piece
    let (results, f) ← feedCalls build parse f pieces
    return (result :: results, f)

theorem feedCalls_cons {piece : Bytes} {pieces : List Bytes}
    {results : List (Except FrameError (List Response))} {f' : ResponseFramer}
    (h : f.feedCalls build parse (piece :: pieces) = .ok (results, f')) :
    ∃ result g rest, f.feed build parse piece = .ok (result, g) ∧
      g.feedCalls build parse pieces = .ok (rest, f') ∧ results = result :: rest := by
  unfold feedCalls at h
  cases hfeed : f.feed build parse piece with
  | error fault => rw [hfeed] at h; cases h
  | ok call =>
    obtain ⟨result, g⟩ := call
    rw [hfeed, ok_bind] at h
    cases hcalls : g.feedCalls build parse pieces with
    | error fault => simp only [hcalls] at h; cases h
    | ok calls =>
      obtain ⟨rest, g'⟩ := calls
      simp only [hcalls, ok_bind] at h
      obtain ⟨rfl, rfl⟩ : result :: rest = results ∧ g' = f' := by
        simpa [pure, Except.pure] using h
      exact ⟨result, g, rest, rfl, hcalls, rfl⟩

theorem feedCalls_of_cons {piece : Bytes} {pieces : List Bytes}
    {result : Except FrameError (List Response)} {rest : List (Except FrameError (List Response))}
    {g f' : ResponseFramer} (hfeed : f.feed build parse piece = .ok (result, g))
    (hcalls : g.feedCalls build parse pieces = .ok (rest, f')) :
    f.feedCalls build parse (piece :: pieces) = .ok (result :: rest, f') := by
  simp only [feedCalls, hfeed, ok_bind, hcalls]
  rfl

/-- Two framers that differ in consumed bytes only. -/
structure SameStand (f g : ResponseFramer) : Prop where
  message : f.toMessage = g.toMessage
  rest : f.rest = g.rest

structure Ready (build : Build) (parse : ResponseParser) (f : ResponseFramer) : Prop where
  fits : f.Fits
  sized : f.Sized
  waits : decode build parse f.toMessage f.rest = .wait

theorem new_ready (laws : parse.Lawful) (build : Build) (capture : Bool) :
    (new capture).Ready build parse where
  fits := ⟨Nat.le_refl _, Nat.zero_le _⟩
  sized := by
    intro remaining h
    cases h
  waits := by
    have hempty : parseHead parse (new capture).rest = .incomplete := parseHead_empty laws
    change (new capture).decodeHead parse (new capture).rest = .wait
    unfold Message.decodeHead
    rw [hempty]

theorem load_fits (hf : f.Fits) {data : Bytes} (hlen : (f.load data).buf.length ≤ vecMax) :
    (f.load data).Fits := ⟨load_scanned_le hf data, hlen⟩

theorem load_length_mono (f : ResponseFramer) {xs ys : Bytes} (h : xs.length ≤ ys.length) :
    (f.load xs).buf.length ≤ (f.load ys).buf.length := by
  unfold load
  split <;> simp only [List.length_append] <;> omega

/-- A feed is a decoding run over the unconsumed bytes and the new ones. -/
theorem feed_run (build : Build) (laws : parse.Lawful) (hf : f.Fits) (hs : f.Sized) {data : Bytes}
    (hlen : (f.load data).buf.length ≤ vecMax) :
    DrainRun build parse (f.load data) [] (f.feed build parse data) := by
  rw [feed_eq hf, if_pos hlen]
  refine drain_run laws (load_fits hf hlen) ?_
  rw [load_toMessage]
  exact hs

theorem feed_of_drains (laws : parse.Lawful) (hf : f.Fits) (hs : f.Sized) {data : Bytes}
    (hlen : (f.load data).buf.length ≤ vecMax) {outs : List Response} {m : Message} {ys : Bytes}
    (h : Drains (decode build parse) f.toMessage (f.rest ++ data) outs m ys) :
    f.feed build parse data = .ok (.ok outs, (f.load data).goto m ys) := by
  have hrun : DrainRun build parse (f.load data) [] (f.feed build parse data) :=
    feed_run build laws hf hs hlen
  generalize f.feed build parse data = result at hrun
  cases hrun with
  | waits hd =>
    rw [load_toMessage, load_rest hf] at hd
    obtain ⟨rfl, rfl, rfl⟩ := h.1.halted_unique (halted_of_wait h.2) hd.1 (halted_of_wait hd.2)
    rfl
  | breaks hfail =>
    rw [load_toMessage, load_rest hf] at hfail
    exact (h.not_fails hfail).elim
  | faults hfail =>
    rw [load_toMessage, load_rest hf] at hfail
    exact (h.not_fails hfail).elim

theorem feed_of_fails (laws : parse.Lawful) (hf : f.Fits) (hs : f.Sized) {data : Bytes}
    (hlen : (f.load data).buf.length ≤ vecMax) {outs : List Response} {m : Message} {ys : Bytes}
    {error : FrameError}
    (h : Fails (decode build parse) f.toMessage (f.rest ++ data) outs m ys (.frame error)) :
    f.feed build parse data = .ok (.error error, ((f.load data).goto m ys).asBroken) := by
  have hrun : DrainRun build parse (f.load data) [] (f.feed build parse data) :=
    feed_run build laws hf hs hlen
  generalize f.feed build parse data = result at hrun
  cases hrun with
  | waits hd =>
    rw [load_toMessage, load_rest hf] at hd
    exact (hd.not_fails h).elim
  | breaks hfail =>
    rw [load_toMessage, load_rest hf] at hfail
    obtain ⟨⟨rfl, rfl⟩, hstop⟩ := h.unique hfail
    cases hstop
    rfl
  | faults hfail =>
    rw [load_toMessage, load_rest hf] at hfail
    cases (h.unique hfail).2

theorem feed_ok (laws : parse.Lawful) (hf : f.Fits) (hs : f.Sized) {data : Bytes}
    {result : Except FrameError (List Response)} {f' : ResponseFramer}
    (h : f.feed build parse data = .ok (result, f')) :
    (f.load data).buf.length ≤ vecMax ∧
      ((∃ outs m ys, result = .ok outs ∧ f' = (f.load data).goto m ys ∧
        Drains (decode build parse) f.toMessage (f.rest ++ data) outs m ys) ∨
      (∃ outs m ys error, result = .error error ∧ f' = ((f.load data).goto m ys).asBroken ∧
        Fails (decode build parse) f.toMessage (f.rest ++ data) outs m ys (.frame error))) := by
  have hlen : (f.load data).buf.length ≤ vecMax := by
    by_contra hno
    rw [feed_eq hf, if_neg hno] at h
    cases h
  refine ⟨hlen, ?_⟩
  have hrun : DrainRun build parse (f.load data) [] (f.feed build parse data) :=
    feed_run build laws hf hs hlen
  rw [h] at hrun
  cases hrun with
  | waits hd =>
    rw [load_toMessage, load_rest hf] at hd
    exact .inl ⟨_, _, _, rfl, rfl, hd⟩
  | breaks hfail =>
    rw [load_toMessage, load_rest hf] at hfail
    exact .inr ⟨_, _, _, _, rfl, rfl, hfail⟩

theorem sized_of_steps {m t : Message} {xs ys : Bytes} {outs : List Response} (hm : m.Sized)
    (h : Steps (decode build parse) m xs outs t ys) : t.Sized :=
  h.invariant (P := fun m _ => m.Sized) (fun hm hstep => decode_sized hstep hm) hm

theorem ready_goto (hf : f.Fits) (hs : f.Sized) {data : Bytes}
    (hlen : (f.load data).buf.length ≤ vecMax) {outs : List Response} {m : Message} {ys : Bytes}
    (h : Drains (decode build parse) f.toMessage (f.rest ++ data) outs m ys) :
    ((f.load data).goto m ys).Ready build parse ∧ ((f.load data).goto m ys).rest = ys := by
  have hrest : ((f.load data).goto m ys).rest = ys := by
    apply goto_rest
    rw [load_rest hf]
    exact h.1.suffix
  refine ⟨⟨(load_fits hf hlen).goto m ys, sized_of_steps hs h.1, ?_⟩, hrest⟩
  rw [hrest]
  exact h.2

theorem broken_ready (hf : f.Fits) : f.asBroken.Ready build parse where
  fits := ⟨hf.scanned, hf.buf⟩
  sized := by
    intro remaining h
    cases h
  waits := rfl

theorem feed_ready (laws : parse.Lawful) (hf : f.Ready build parse) {data : Bytes}
    {result : Except FrameError (List Response)} {f' : ResponseFramer}
    (h : f.feed build parse data = .ok (result, f')) : f'.Ready build parse := by
  obtain ⟨hlen, ⟨outs, m, ys, _, rfl, hd⟩ | ⟨outs, m, ys, error, _, rfl, _⟩⟩ :=
    feed_ok laws hf.fits hf.sized h
  · exact (ready_goto hf.fits hf.sized hlen hd).1
  · exact broken_ready ((load_fits hf.fits hlen).goto m ys)

theorem feedCalls_ready (laws : parse.Lawful) (hf : f.Ready build parse) {pieces : List Bytes}
    {results : List (Except FrameError (List Response))} {f' : ResponseFramer}
    (h : f.feedCalls build parse pieces = .ok (results, f')) : f'.Ready build parse := by
  induction pieces generalizing f results with
  | nil =>
    obtain ⟨_, rfl⟩ : [] = results ∧ f = f' := by simpa [feedCalls] using h
    exact hf
  | cons piece pieces ih =>
    obtain ⟨result, g, rest, hfeed, hcalls, _⟩ := feedCalls_cons h
    exact ih (feed_ready laws hf hfeed) hcalls

theorem feedCalls_append (f : ResponseFramer) (front back : List Bytes) :
    f.feedCalls build parse (front ++ back) = do
      let (results, g) ← f.feedCalls build parse front
      let (more, h) ← g.feedCalls build parse back
      return (results ++ more, h) := by
  induction front generalizing f with
  | nil =>
    simp only [List.nil_append, feedCalls, ok_bind]
    cases f.feedCalls build parse back <;> rfl
  | cons piece front ih =>
    simp only [List.cons_append, feedCalls]
    cases f.feed build parse piece with
    | error fault => rfl
    | ok call =>
      simp only [ok_bind, ih call.2]
      cases call.2.feedCalls build parse front with
      | error fault => rfl
      | ok calls =>
        simp only [ok_bind, pure, Except.pure]
        cases calls.2.feedCalls build parse back <;> rfl

/-- A feed call fits the buffer into a vector, or panics for want of room. -/
theorem load_le_of_room (hf : f.Fits) {piece : Bytes} {pieces : List Bytes}
    (hroom : f.feedCalls build parse (piece :: pieces) ≠ .error .capacity) :
    (f.load piece).buf.length ≤ vecMax := by
  by_contra hno
  apply hroom
  unfold feedCalls
  rw [feed_eq hf, if_neg hno]
  rfl

theorem room_of_cons {piece : Bytes} {pieces : List Bytes}
    {result : Except FrameError (List Response)} {g : ResponseFramer}
    (hfeed : f.feed build parse piece = .ok (result, g))
    (hroom : f.feedCalls build parse (piece :: pieces) ≠ .error .capacity) :
    g.feedCalls build parse pieces ≠ .error .capacity := by
  intro h
  apply hroom
  simp only [feedCalls, hfeed, ok_bind, h, error_bind]

theorem feedCalls_room (laws : parse.Lawful) (hf : f.Ready build parse) {pieces : List Bytes}
    (hlen : f.buf.length + pieces.flatten.length ≤ vecMax) :
    f.feedCalls build parse pieces ≠ .error .capacity := by
  induction pieces generalizing f with
  | nil =>
    intro h
    cases h
  | cons piece pieces ih =>
    have hload := f.load_length piece
    rw [List.flatten_cons, List.length_append] at hlen
    have hpiece : (f.load piece).buf.length ≤ vecMax := by omega
    have hrun := feed_run build laws hf.fits hf.sized hpiece
    intro hcapacity
    unfold feedCalls at hcapacity
    cases hfeed : f.feed build parse piece with
    | error fault =>
      rw [hfeed] at hrun hcapacity
      cases hrun with
      | faults hfail =>
        obtain ⟨_, _, _, hfault⟩ := decode_fault hfail.2
        rcases hfault with rfl | rfl <;> cases hcapacity
    | ok call =>
      obtain ⟨result, g⟩ := call
      have hg : g.buf.length = (f.load piece).buf.length := by
        obtain ⟨_, ⟨_, _, _, _, rfl, _⟩ | ⟨_, _, _, _, _, rfl, _⟩⟩ :=
          feed_ok laws hf.fits hf.sized hfeed
        · rfl
        · rfl
      have hrest := ih (feed_ready laws hf hfeed) (by omega)
      rw [hfeed, ok_bind] at hcapacity
      cases hcalls : g.feedCalls build parse pieces with
      | error fault =>
        simp only [hcalls, error_bind] at hcapacity
        exact hrest (hcalls.trans (by cases hcapacity; rfl))
      | ok calls =>
        simp only [hcalls, ok_bind] at hcapacity
        cases hcapacity

theorem feedCalls_of_feeds (laws : parse.Lawful) {pieces : List Bytes} {outs : List Response}
    {m : Message} {ys : Bytes} (hf : f.Ready build parse)
    (hroom : f.feedCalls build parse pieces ≠ .error .capacity)
    (h : Feeds (decode build parse) f.toMessage f.rest pieces outs m ys) :
    ∃ (batches : List (List Response)) (f' : ResponseFramer),
      f.feedCalls build parse pieces = .ok (batches.map .ok, f') ∧
      batches.flatten = outs ∧ f'.Ready build parse ∧ f'.toMessage = m ∧ f'.rest = ys := by
  induction pieces generalizing f outs with
  | nil =>
    cases h
    exact ⟨[], f, rfl, rfl, hf, rfl, rfl⟩
  | cons piece pieces ih =>
    cases h with
    | @cons _ t _ _ us _ _ _ out outs hd hrest =>
      have hpiece := load_le_of_room hf.fits hroom
      have hfeed := feed_of_drains laws hf.fits hf.sized hpiece hd
      obtain ⟨hready, hys⟩ := ready_goto hf.fits hf.sized hpiece hd
      have hfeeds : Feeds (decode build parse) ((f.load piece).goto t us).toMessage
          ((f.load piece).goto t us).rest pieces outs m ys := by
        rw [hys]
        exact hrest
      obtain ⟨batches, f', hcalls, hflat, hready', hm, hrest'⟩ :=
        ih hready (room_of_cons hfeed hroom) hfeeds
      refine ⟨out :: batches, f', ?_, by rw [List.flatten_cons, hflat], hready', hm, hrest'⟩
      exact feedCalls_of_cons hfeed hcalls

def closedWith (m : Message) (ys : Bytes) :
    Except FrameError (List Response) × Message × Bytes :=
  match m.state with
  | .headers => (.error .closedMidMessage, m, ys)
  | .body _ => (.error .closedMidMessage, m, ys)
  | .chunked _ => (.error .closedMidMessage, m, ys)
  | .untilClose => (.ok [(m.pushBody ys).response], (m.pushBody ys).finished, [])
  | .broken => (.error .broken, m, ys)

theorem closed_eq (hf : f.Fits) :
    f.closed = .ok ((closedWith f.toMessage f.rest).1,
      f.goto (closedWith f.toMessage f.rest).2.1 (closedWith f.toMessage f.rest).2.2) := by
  unfold closed closedWith
  cases hstate : f.state with
  | headers => simp only [goto_self hf]; rfl
  | body remaining => simp only [goto_self hf]; rfl
  | chunked chunk => simp only [goto_self hf]; rfl
  | broken => simp only [goto_self hf]; rfl
  | untilClose =>
    by_cases hcapture : f.capture = true
    · simp only [if_pos hcapture, sliceFrom_eq hf.scanned, ok_bind, drop_scanned]
      simp only [Message.pushBody, if_pos hcapture]
      rfl
    · simp only [if_neg hcapture, Message.pushBody]
      rfl

theorem closedWith_suffix (m : Message) (ys : Bytes) : (closedWith m ys).2.2 <:+ ys := by
  unfold closedWith
  split
  · exact List.suffix_refl _
  · exact List.suffix_refl _
  · exact List.suffix_refl _
  · exact List.nil_suffix
  · exact List.suffix_refl _

theorem SameStand.closed {f g : ResponseFramer} (h : f.SameStand g) (hf : f.Fits)
    (hg : g.Fits) :
    ∃ result f' g', f.closed = .ok (result, f') ∧ g.closed = .ok (result, g') ∧
      f'.SameStand g' := by
  have hclosed := closed_eq hg
  rw [← h.message, ← h.rest] at hclosed
  have hsuffix := closedWith_suffix f.toMessage f.rest
  refine ⟨_, _, _, closed_eq hf, hclosed, rfl, ?_⟩
  rw [goto_rest hsuffix, goto_rest (h.rest ▸ hsuffix)]

/-- Every cut of a stream gives what the single call gives. -/
theorem feedCalls_of_feed (laws : parse.Lawful) {capture : Bool} {stream : Bytes}
    {responses : List Response} (h : (new capture).feed build parse stream = .ok (.ok responses, f))
    {pieces : List Bytes} (hcut : pieces.flatten = stream) :
    ∃ (batches : List (List Response)) (f' : ResponseFramer),
      (new capture).feedCalls build parse pieces = .ok (batches.map .ok, f') ∧
      batches.flatten = responses ∧ f'.Ready build parse ∧ f'.SameStand f := by
  have hready := new_ready laws build capture
  obtain ⟨hlen, hreturn⟩ := feed_ok laws hready.fits hready.sized h
  rcases hreturn with ⟨outs, m, ys, hresult, rfl, hd⟩ | ⟨_, _, _, _, hresult, _, _⟩
  · obtain rfl : responses = outs := Except.ok.inj hresult
    obtain ⟨_, hrest⟩ := ready_goto hready.fits hready.sized hlen hd
    have hfeeds := (hcut ▸ hd).feeds (decode_stable laws build) hready.waits
    have hroom : (new capture).feedCalls build parse pieces ≠ .error .capacity := by
      apply feedCalls_room laws hready
      rw [hcut, Nat.add_comm]
      exact hlen
    obtain ⟨batches, f', hcalls, hflat, hf', hm, hrest'⟩ :=
      feedCalls_of_feeds laws hready hroom hfeeds
    exact ⟨batches, f', hcalls, hflat, hf', hm, hrest'.trans hrest.symm⟩
  · cases hresult

/-- If one call takes a stream without an error, any two cuts of it return the same
responses, leave the framer at the same point and close the same way. -/
theorem feed_cuts_agree (parse : ResponseParser) (laws : parse.Lawful) (build : Build)
    (capture : Bool) (stream : Bytes) (responses : List Response) (f : ResponseFramer)
    (h : (new capture).feed build parse stream = .ok (.ok responses, f))
    (first second : List Bytes) (hfirst : first.flatten = stream)
    (hsecond : second.flatten = stream) :
    ∃ (batches₁ batches₂ : List (List Response)) (f₁ f₂ : ResponseFramer),
      (new capture).feedCalls build parse first = .ok (batches₁.map .ok, f₁) ∧
      (new capture).feedCalls build parse second = .ok (batches₂.map .ok, f₂) ∧
      batches₁.flatten = responses ∧ batches₂.flatten = responses ∧ f₁.SameStand f₂ ∧
      ∃ result g₁ g₂, f₁.closed = .ok (result, g₁) ∧ f₂.closed = .ok (result, g₂) ∧
        g₁.SameStand g₂ := by
  obtain ⟨batches₁, f₁, hcalls₁, hflat₁, hready₁, hsame₁⟩ := feedCalls_of_feed laws h hfirst
  obtain ⟨batches₂, f₂, hcalls₂, hflat₂, hready₂, hsame₂⟩ := feedCalls_of_feed laws h hsecond
  have hsame : f₁.SameStand f₂ :=
    ⟨hsame₁.message.trans hsame₂.message.symm, hsame₁.rest.trans hsame₂.rest.symm⟩
  exact ⟨batches₁, batches₂, f₁, f₂, hcalls₁, hcalls₂, hflat₁, hflat₂, hsame,
    hsame.closed hready₁.fits hready₂.fits⟩

def sampleStream : Bytes :=
  ascii "HTTP/1.1 200 X\r\nContent-Length: 2\r\n\r\nhiHTTP/1.0 200 X\r\n\r\ntail"

theorem feed_cuts_agree_sample :
    ∃ (batches₁ batches₂ : List (List Response)) (f₁ f₂ : ResponseFramer),
      (new true).feedCalls .release reference [sampleStream.take 15, sampleStream.drop 15] =
        .ok (batches₁.map .ok, f₁) ∧
      (new true).feedCalls .release reference [sampleStream.take 40, sampleStream.drop 40] =
        .ok (batches₂.map .ok, f₂) ∧
      batches₁.flatten = [⟨200, [("Content-Length".toList, ['2'])], ascii "hi", true⟩] ∧
      batches₂.flatten = [⟨200, [("Content-Length".toList, ['2'])], ascii "hi", true⟩] ∧
      f₁.SameStand f₂ ∧
      ∃ result g₁ g₂, f₁.closed = .ok (result, g₁) ∧ f₂.closed = .ok (result, g₂) ∧
        g₁.SameStand g₂ :=
  feed_cuts_agree reference reference_lawful .release true sampleStream _
    ⟨⟨.untilClose, true, 200, false, [], []⟩, sampleStream, 57⟩ (by rfl) _ _ (by rfl) (by rfl)

end ResponseFramer

end Wrkrs
