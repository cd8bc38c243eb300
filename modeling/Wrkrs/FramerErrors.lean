import Mathlib.Tactic.IntervalCases
import Wrkrs.FramerFeeds

/-!
# Responses before a framing error

A call that meets a framing error reports the error alone. Whatever the earlier calls
completed has been returned; the responses of the failing call itself are gone.
-/

namespace Wrkrs

set_option autoImplicit false
set_option maxRecDepth 4096

open Text Machine Incremental

namespace ResponseFramer

variable {build : Build} {parse : ResponseParser} {f : ResponseFramer}

theorem feeds_of_feedCalls (laws : parse.Lawful) (hf : f.Ready build parse) {pieces : List Bytes}
    {batches : List (List Response)} {f' : ResponseFramer}
    (h : f.feedCalls build parse pieces = .ok (batches.map .ok, f')) :
    Feeds (decode build parse) f.toMessage f.rest pieces batches.flatten f'.toMessage f'.rest := by
  induction pieces generalizing f batches with
  | nil =>
    obtain ⟨hbatches, rfl⟩ : [] = batches.map Except.ok ∧ f = f' := by
      simpa only [feedCalls, Except.ok.injEq, Prod.mk.injEq] using h
    obtain rfl : batches = [] := List.map_eq_nil_iff.mp hbatches.symm
    exact .nil _ _
  | cons piece pieces ih =>
    obtain ⟨result, g, rest, hfeed, hcalls, hresults⟩ := feedCalls_cons h
    cases batches with
    | nil => cases hresults
    | cons batch batches =>
      obtain ⟨hbatch, rfl⟩ := List.cons.inj hresults
      obtain ⟨hlen, ⟨outs, m, ys, hok, rfl, hd⟩ | ⟨_, _, _, _, herror, _, _⟩⟩ :=
        feed_ok laws hf.fits hf.sized hfeed
      · obtain rfl : batch = outs := Except.ok.inj (hbatch.trans hok)
        obtain ⟨hready, hys⟩ := ready_goto hf.fits hf.sized hlen hd
        have hrest := ih hready hcalls
        rw [goto_toMessage, hys] at hrest
        exact .cons hd hrest
      · rw [herror] at hbatch
        cases hbatch

/-- A broken framer returns no response from any later call. -/
theorem feedCalls_broken (laws : parse.Lawful) (hf : f.Fits) {pieces : List Bytes}
    (hroom : f.asBroken.feedCalls build parse pieces ≠ .error .capacity) :
    ∃ (batches : List (List Response)) (g : ResponseFramer),
      f.asBroken.feedCalls build parse pieces = .ok (batches.map .ok, g) ∧
      batches.flatten = [] := by
  have hready : f.asBroken.Ready build parse := broken_ready hf
  have hd : Drains (decode build parse) f.asBroken.toMessage (f.asBroken.rest ++ pieces.flatten)
      [] f.asBroken.toMessage (f.asBroken.rest ++ pieces.flatten) := ⟨.refl _ _, rfl⟩
  have hfeeds := hd.feeds (decode_stable laws build) hready.waits
  obtain ⟨batches, g, hcalls, hflat, _, _, _⟩ := feedCalls_of_feeds laws hready hroom hfeeds
  exact ⟨batches, g, hcalls, hflat⟩

/-- The calls of a stream that fails: some return responses, one returns the error, and
the later ones return nothing. -/
structure FailingCalls (build : Build) (parse : ResponseParser) (f : ResponseFramer)
    (pieces : List Bytes) (error : FrameError) (front : List Bytes) (piece : Bytes)
    (back : List Bytes) (batches later : List (List Response)) (g : ResponseFramer) : Prop where
  cut : pieces = front ++ piece :: back
  calls : f.feedCalls build parse pieces =
    .ok (batches.map .ok ++ .error error :: later.map .ok, g)
  nothing : later.flatten = []
  waits : ∃ m ys, Drains (decode build parse) f.toMessage (f.rest ++ front.flatten)
    batches.flatten m ys
  fails : ∃ outs m ys, Fails (decode build parse) f.toMessage (f.rest ++ (front.flatten ++ piece))
    outs m ys (.frame error)

theorem feedCalls_of_fails (laws : parse.Lawful) (hf : f.Ready build parse) {pieces : List Bytes}
    {outs : List Response} {m : Message} {ys : Bytes} {error : FrameError}
    (hroom : f.feedCalls build parse pieces ≠ .error .capacity)
    (h : Fails (decode build parse) f.toMessage (f.rest ++ pieces.flatten) outs m ys
      (.frame error)) :
    ∃ front piece back batches later g,
      f.FailingCalls build parse pieces error front piece back batches later g := by
  have hstable := decode_stable laws build
  obtain ⟨front, piece, back, out, u, us, rest, vs, rfl, hfeeds, hfail⟩ :=
    h.feeds hstable hf.waits
  have hfront : f.feedCalls build parse front ≠ .error .capacity := by
    intro hcapacity
    apply hroom
    rw [feedCalls_append, hcapacity, error_bind]
  obtain ⟨batches, f', hcalls, rfl, hready, rfl, rfl⟩ := feedCalls_of_feeds laws hf hfront hfeeds
  have hback : f'.feedCalls build parse (piece :: back) ≠ .error .capacity := by
    intro hcapacity
    apply hroom
    simp only [feedCalls_append, hcalls, ok_bind, hcapacity, error_bind]
  have hpiece := load_le_of_room hready.fits hback
  have hfeed := feed_of_fails laws hready.fits hready.sized hpiece hfail
  have hbroken := room_of_cons hfeed hback
  obtain ⟨later, g, hlater, hnothing⟩ :=
    feedCalls_broken laws ((load_fits hready.fits hpiece).goto m vs) hbroken
  have hdrains := hfeeds.drains hstable hf.waits
  refine ⟨front, piece, back, batches, later, g, rfl, ?_, hnothing, ⟨_, _, hdrains⟩, ?_⟩
  · simp only [feedCalls_append, hcalls, ok_bind, feedCalls_of_cons hfeed hlater]
    rfl
  · rw [← List.append_assoc]
    exact ⟨_, _, _, hdrains.then_fails hstable hfail⟩

/-- A boundary between two calls lies after the `good` bytes, and the framer takes what
the calls before it hold of the rest without an error. -/
def Separated (build : Build) (parse : ResponseParser) (f : ResponseFramer) (good : Bytes)
    (pieces : List Bytes) : Prop :=
  ∃ front back, pieces = front ++ back ∧ good.length ≤ front.flatten.length ∧
    ∃ batch g, f.feed build parse (front.flatten.drop good.length) = .ok (.ok batch, g)

section Streams
variable {good bad : Bytes} {pieces front back : List Bytes} {piece : Bytes}
variable {m : Message} {outs : List Response}

theorem batches_of_le (laws : parse.Lawful) {s : Message} {batches : List Response} {t : Message}
    {ys tail : Bytes} (hgood : Drains (decode build parse) s good outs m [])
    (hdrains : Drains (decode build parse) s (good ++ tail) batches t ys) :
    ∃ more, batches = outs ++ more ∧ Drains (decode build parse) m tail more t ys := by
  have hsteps := hgood.1.append (decode_stable laws build) tail
  rw [List.nil_append] at hsteps
  obtain ⟨more, hmore, hrest⟩ := hsteps.goes_on hdrains.1 (halted_of_wait hdrains.2)
  exact ⟨more, hmore, hrest, hdrains.2⟩

theorem batches_of_lt (laws : parse.Lawful) {s : Message} {batches : List Response} {t : Message}
    {xs ys tail : Bytes} (hm : m.state = .headers) (htail : tail ≠ [])
    (hgood : Drains (decode build parse) s (xs ++ tail) outs m [])
    (hdrains : Drains (decode build parse) s xs batches t ys) : batches ≠ outs := by
  have hsteps := hdrains.1.append (decode_stable laws build) tail
  obtain ⟨more, rfl, hrest⟩ := hsteps.goes_on hgood.1 (halted_of_wait hgood.2)
  intro heq
  have hmore : more = [] := by simpa using heq
  obtain ⟨_, hnil⟩ := steps_silent_to_headers hrest hm hmore
  exact htail (List.append_eq_nil_iff.mp hnil.symm).2

end Streams

/-- Responses fed one a call, each completed by its call. -/
def OneEach (build : Build) (parse : ResponseParser) (capture : Bool) (wires : List Bytes)
    (responses : List Response) (f : ResponseFramer) : Prop :=
  (new capture).feedCalls build parse wires = .ok (responses.map fun r => .ok [r], f) ∧
    f.state = .headers ∧ f.rest = []

/-- Bytes the framer rejects before they complete any response. -/
def Malformed (build : Build) (parse : ResponseParser) (f : ResponseFramer) (bad : Bytes)
    (error : FrameError) : Prop :=
  (∃ g, f.feed build parse bad = .ok (.error error, g)) ∧
    ∀ front, front <+: bad → ∀ batch g, f.feed build parse front = .ok (.ok batch, g) → batch = []

theorem OneEach.drains (laws : parse.Lawful) {capture : Bool} {wires : List Bytes}
    {responses : List Response} (h : OneEach build parse capture wires responses f) :
    f.Ready build parse ∧
      Drains (decode build parse) (new capture).toMessage wires.flatten responses f.toMessage [] := by
  obtain ⟨hcalls, _, hrest⟩ := h
  have hready := new_ready laws build capture
  have hbatches : (responses.map fun r => (.ok [r] : Except FrameError (List Response))) =
      (responses.map fun r => [r]).map .ok := by
    rw [List.map_map]
    rfl
  have hflat : (responses.map fun r => [r]).flatten = responses := by
    rw [← List.flatMap_def]
    exact List.flatMap_singleton' responses
  rw [hbatches] at hcalls
  have hfeeds := feeds_of_feedCalls laws hready hcalls
  have hdrains := hfeeds.drains (decode_stable laws build) hready.waits
  rw [hflat, hrest] at hdrains
  exact ⟨feedCalls_ready laws hready hcalls, hdrains⟩

/-- Calls that are separated from the rejected bytes go past every boundary before the
end of the responses, and the framer takes them without an error. -/
theorem Separated.drains (laws : parse.Lawful) (hf : f.Ready build parse) (hrest : f.rest = [])
    {good bad : Bytes} {pieces front back : List Bytes} {piece : Bytes} {s : Message}
    {responses : List Response} (h : Separated build parse f good pieces)
    (hgood : Drains (decode build parse) s good responses f.toMessage [])
    (hcut : pieces.flatten = good ++ bad) (hfront : pieces = front ++ piece :: back)
    (hlt : front.flatten.length < good.length) :
    ∃ k outs t ys, Drains (decode build parse) s (front.flatten ++ piece ++ k) outs t ys := by
  obtain ⟨front', back', hcut', hle, batch, g, hfeed⟩ := h
  have hpieces : pieces.flatten = front'.flatten ++ back'.flatten := by
    rw [hcut', List.flatten_append]
  obtain ⟨tail, htail⟩ : good <+: front'.flatten :=
    List.prefix_of_prefix_length_le ⟨bad, hcut.symm⟩ ⟨_, hpieces.symm⟩ hle
  have hdrains : ∃ outs t ys, Drains (decode build parse) s front'.flatten outs t ys := by
    rw [← htail, List.drop_left] at hfeed
    obtain ⟨_, ⟨outs, t, ys, _, _, hd⟩ | ⟨_, _, _, _, herror, _, _⟩⟩ :=
      feed_ok laws hf.fits hf.sized hfeed
    · rw [hrest] at hd
      rw [← htail]
      exact ⟨_, _, _, hgood.after (decode_stable laws build) hd⟩
    · cases herror
  obtain ⟨outs, t, ys, hdrains⟩ := hdrains
  rcases List.append_eq_append_iff.mp (hfront.symm.trans hcut') with
    ⟨more, rfl, hmore⟩ | ⟨more, rfl, _⟩
  · cases more with
    | nil =>
      rw [List.append_nil] at hle
      omega
    | cons first more =>
      obtain ⟨rfl, _⟩ := List.cons.inj hmore
      refine ⟨more.flatten, outs, t, ys, ?_⟩
      rw [List.append_assoc, ← List.flatten_cons, ← List.flatten_append]
      exact hdrains
  · rw [List.flatten_append, List.length_append] at hlt
    omega

theorem Malformed.fails (laws : parse.Lawful) (hf : f.Ready build parse) (hrest : f.rest = [])
    {bad : Bytes} {error : FrameError} (h : Malformed build parse f bad error) :
    ∃ outs m ys, Fails (decode build parse) f.toMessage bad outs m ys (.frame error) := by
  obtain ⟨⟨_, hfeed⟩, _⟩ := h
  obtain ⟨_, ⟨_, _, _, hok, _, _⟩ | ⟨outs, m, ys, _, herror, _, hfail⟩⟩ :=
    feed_ok laws hf.fits hf.sized hfeed
  · cases hok
  · obtain rfl := Except.error.inj herror
    rw [hrest, List.nil_append] at hfail
    exact ⟨outs, m, ys, hfail⟩

/-- The calls before the failing one have returned all responses exactly when a boundary
between two calls separates the responses from what the framer rejects. -/
theorem error_after_responses (parse : ResponseParser) (laws : parse.Lawful) (build : Build)
    (capture : Bool) (wires : List Bytes) (responses : List Response) (f : ResponseFramer)
    (bad : Bytes) (error : FrameError) (hgood : OneEach build parse capture wires responses f)
    (hbad : Malformed build parse f bad error) (pieces : List Bytes)
    (hcut : pieces.flatten = wires.flatten ++ bad)
    (hroom : (new capture).feedCalls build parse pieces ≠ .error .capacity) :
    ∃ (batches later : List (List Response)) (g : ResponseFramer),
      (new capture).feedCalls build parse pieces =
        .ok (batches.map .ok ++ .error error :: later.map .ok, g) ∧ later.flatten = [] ∧
      (batches.flatten = responses ↔ Separated build parse f wires.flatten pieces) := by
  have hstable := decode_stable laws build
  have hnew := new_ready laws build capture
  obtain ⟨hready, hdgood⟩ := hgood.drains laws
  obtain ⟨_, hidle, hrest⟩ := hgood
  obtain ⟨outs, m, ys, hfbad⟩ := hbad.fails laws hready hrest
  obtain ⟨⟨_, hfeed⟩, hfirst⟩ := hbad
  have hbadlen := (feed_ok laws hready.fits hready.sized hfeed).1
  have hfails : Fails (decode build parse) (new capture).toMessage
      ((new capture).rest ++ pieces.flatten) (responses ++ outs) m ys (.frame error) := by
    rw [hcut]
    exact hdgood.then_fails hstable hfbad
  obtain ⟨front, piece, back, batches, later, g, hcalls⟩ :=
    feedCalls_of_fails laws hnew hroom hfails
  refine ⟨batches, later, g, hcalls.calls, hcalls.nothing, ?_⟩
  obtain ⟨t, zs, hwaits⟩ := hcalls.waits
  change Drains (decode build parse) (new capture).toMessage front.flatten _ t zs at hwaits
  have hpieces : pieces.flatten = front.flatten ++ (piece :: back).flatten := by
    rw [hcalls.cut, List.flatten_append]
  by_cases hle : wires.flatten.length ≤ front.flatten.length
  · -- The failing call begins at or after the end of the responses.
    obtain ⟨tail, htail⟩ : wires.flatten <+: front.flatten :=
      List.prefix_of_prefix_length_le ⟨bad, hcut.symm⟩ ⟨_, hpieces.symm⟩ hle
    have hprefix : tail <+: bad := by
      refine ⟨(piece :: back).flatten, ?_⟩
      apply (List.append_right_inj wires.flatten).mp
      rw [← List.append_assoc, htail, ← hpieces, hcut]
    rw [← htail] at hwaits
    obtain ⟨more, hmore, hdtail⟩ := batches_of_le laws hdgood hwaits
    have hload : (f.load tail).buf.length ≤ vecMax :=
      Nat.le_trans (f.load_length_mono hprefix.length_le) hbadlen
    have hftail : f.feed build parse tail = .ok (.ok more, (f.load tail).goto t zs) := by
      apply feed_of_drains laws hready.fits hready.sized hload
      rw [hrest]
      exact hdtail
    have hnone := hfirst tail hprefix more _ hftail
    refine iff_of_true (by rw [hmore, hnone, List.append_nil]) ?_
    refine ⟨front, piece :: back, hcalls.cut, hle, more, (f.load tail).goto t zs, ?_⟩
    rw [← htail, List.drop_left]
    exact hftail
  · -- The failing call holds the end of a response.
    obtain ⟨tail, htail⟩ : front.flatten <+: wires.flatten :=
      List.prefix_of_prefix_length_le ⟨_, hpieces.symm⟩ ⟨bad, hcut.symm⟩ (by omega)
    refine iff_of_false ?_ ?_
    · rw [← htail] at hdgood
      apply batches_of_lt laws hidle _ hdgood hwaits
      rintro rfl
      rw [List.append_nil] at htail
      exact hle (by rw [htail])
    · intro hseparated
      obtain ⟨k, outs', t', zs', hdrains⟩ :=
        hseparated.drains laws hready hrest hdgood hcut hcalls.cut (by omega)
      obtain ⟨outs'', t'', zs'', hfail⟩ := hcalls.fails
      exact hdrains.not_fails (hfail.append hstable k)

def noContent : Bytes := ascii "HTTP/1.1 204 X\r\n\r\n"

def afterNoContent : ResponseFramer := ⟨⟨.headers, false, 204, true, [], []⟩, noContent, 18⟩

theorem noContent_oneEach :
    OneEach .release reference false [noContent] [⟨204, [], [], true⟩] afterNoContent :=
  ⟨by rfl, rfl, by rfl⟩

def garbage : Bytes := [88, 13, 10, 13, 10]

theorem garbage_malformed :
    Malformed .release reference afterNoContent garbage .badResponse := by
  refine ⟨⟨{ afterNoContent with state := .broken, buf := noContent ++ garbage }, by rfl⟩, ?_⟩
  have htake : ∀ n, n ≤ 5 → ∀ batch g,
      afterNoContent.feed .release reference (garbage.take n) = .ok (.ok batch, g) →
      batch = [] := by
    intro n hn batch g hfeed
    have hresult : (afterNoContent.feed .release reference (garbage.take n)).map Prod.fst =
        .ok (.ok []) ∨
        (afterNoContent.feed .release reference (garbage.take n)).map Prod.fst =
          .ok (.error .badResponse) := by
      interval_cases n
      · exact .inl (by rfl)
      · exact .inl (by rfl)
      · exact .inl (by rfl)
      · exact .inl (by rfl)
      · exact .inl (by rfl)
      · exact .inr (by rfl)
    rw [hfeed] at hresult
    rcases hresult with hok | herror
    · exact Except.ok.inj (Except.ok.inj hok)
    · cases herror
  intro front hfront batch g hfeed
  rw [List.prefix_iff_eq_take.mp hfront] at hfeed
  exact htake _ hfront.length_le batch g hfeed

theorem error_after_responses_sample :
    ∃ (batches later : List (List Response)) (g : ResponseFramer),
      (new false).feedCalls .release reference [noContent, garbage] =
        .ok (batches.map .ok ++ .error .badResponse :: later.map .ok, g) ∧ later.flatten = [] ∧
      (batches.flatten = [⟨204, [], [], true⟩] ↔
        Separated .release reference afterNoContent [noContent].flatten [noContent, garbage]) :=
  error_after_responses reference reference_lawful .release false [noContent] _ _ garbage _
    noContent_oneEach garbage_malformed _ (by rfl) (fun h => by cases h)

/-- One call with a response and garbage behind it returns the error only. -/
theorem error_hides_response :
    OneEach .release reference false [noContent] [⟨204, [], [], true⟩] afterNoContent ∧
      Malformed .release reference afterNoContent garbage .badResponse ∧
      ∃ results g, (new false).feedCalls .release reference [noContent ++ garbage] =
        .ok (results, g) ∧ ∀ batch, .ok batch ∉ results := by
  refine ⟨noContent_oneEach, garbage_malformed, [.error .badResponse],
    ⟨⟨.broken, false, 204, true, [], []⟩, noContent ++ garbage, 18⟩, by rfl, ?_⟩
  intro batch hmem
  cases hmem with
  | tail _ hmem => cases hmem

end ResponseFramer

end Wrkrs
