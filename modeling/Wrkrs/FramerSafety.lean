import Mathlib.Logic.Relation
import Wrkrs.FramerFeeds

/-!
# Offsets and words of the framer

Every pass of a loop of the framer, in every state a run of feed calls reaches. The
offset stays in the buffer and never goes back whatever the peer sends; a word
overflows, and a release build slices past the end, for two announced chunk sizes.
-/

namespace Wrkrs

set_option autoImplicit false
set_option maxRecDepth 4096

open Text Machine Incremental

namespace ResponseFramer

variable {build : Build} {parse : ResponseParser} {f g h : ResponseFramer}

def Turn.framer : Turn → ResponseFramer
  | .again f => f
  | .done _ f => f

def pass (build : Build) (parse : ResponseParser) (f : ResponseFramer) :
    Except Fault ResponseFramer :=
  match f.state with
  | .headers => do
    let (_, f) ← f.frameHeaders build parse
    return f
  | .body _ => do
    let (_, f) ← f.frameBody build
    return f
  | .chunked _ => do
    let turn ← f.chunkTurn build
    return turn.framer
  | .untilClose => return f
  | .broken => return f

abbrev Passes (build : Build) (parse : ResponseParser) : ResponseFramer → ResponseFramer → Prop :=
  Relation.ReflTransGen fun f g => f.pass build parse = .ok g

/-- The framers a run of feed calls goes through: before a call, and after any number
of passes over the buffer of a call. -/
inductive Visits (build : Build) (parse : ResponseParser) :
    ResponseFramer → List Bytes → ResponseFramer → Prop where
  | start (f : ResponseFramer) (pieces : List Bytes) : Visits build parse f pieces f
  | inside {f g : ResponseFramer} {piece : Bytes} {pieces : List Bytes} :
      (f.load piece).buf.length ≤ vecMax → Passes build parse (f.load piece) g →
      Visits build parse f (piece :: pieces) g
  | later {f g h : ResponseFramer} {piece : Bytes} {pieces : List Bytes}
      {result : Except FrameError (List Response)} :
      f.feed build parse piece = .ok (result, g) → Visits build parse g pieces h →
      Visits build parse f (piece :: pieces) h

inductive Leaves (build : Build) (parse : ResponseParser) (f : ResponseFramer) {α : Type} :
    Except Fault (Outcome α) → Prop where
  | returns {g : ResponseFramer} {result : Except FrameError α} :
      Passes build parse f g → Leaves build parse f (.ok (result, g))
  | faults {g : ResponseFramer} {fault : Fault} :
      Passes build parse f g → g.pass build parse = .error fault →
      Leaves build parse f (.error fault)
  | endless : Leaves build parse f (.error .fuel)

theorem Leaves.after {α : Type} {result : Except Fault (Outcome α)}
    (hpasses : Passes build parse f g) (hleaves : Leaves build parse g result) :
    Leaves build parse f result := by
  cases hleaves with
  | returns h => exact .returns (hpasses.trans h)
  | faults h hfault => exact .faults (hpasses.trans h) hfault
  | endless => exact .endless

theorem pass_headers (hstate : f.state = .headers)
    {result : Except FrameError (Option Response)}
    (h : f.frameHeaders build parse = .ok (result, g)) : f.pass build parse = .ok g := by
  simp only [pass, hstate, h, ok_bind]
  rfl

theorem pass_body {remaining : Nat} (hstate : f.state = .body remaining)
    {message : Option Response} (h : f.frameBody build = .ok (message, g)) :
    f.pass build parse = .ok g := by
  simp only [pass, hstate, h, ok_bind]
  rfl

theorem pass_chunked {chunk : ChunkState} (hstate : f.state = .chunked chunk) {turn : Turn}
    (h : f.chunkTurn build = .ok turn) : f.pass build parse = .ok turn.framer := by
  simp only [pass, hstate, h, ok_bind]
  rfl

theorem chunkTurn_idle (hstate : ∀ chunk, f.state ≠ .chunked chunk) :
    f.chunkTurn build = .ok (.done (.ok none) f) := by
  unfold chunkTurn
  split
  · exact absurd (by assumption) (hstate _)
  · exact absurd (by assumption) (hstate _)
  · exact absurd (by assumption) (hstate _)
  · rfl

theorem frameChunked_leaves (build : Build) (parse : ResponseParser) (fuel : Nat)
    (f : ResponseFramer) : Leaves build parse f (frameChunked build fuel f) := by
  induction fuel generalizing f with
  | zero => exact .endless
  | succ fuel ih =>
    unfold frameChunked
    by_cases hchunked : ∃ chunk, f.state = .chunked chunk
    · obtain ⟨chunk, hstate⟩ := hchunked
      cases hturn : f.chunkTurn build with
      | error fault =>
        refine .faults .refl ?_
        simp only [pass, hstate, hturn, error_bind]
      | ok turn =>
        have hpass : f.pass build parse = .ok turn.framer := pass_chunked hstate hturn
        cases turn with
        | again f' => exact .after (.single hpass) (ih f')
        | done result f' => exact .returns (.single hpass)
    · have hidle : f.chunkTurn build = .ok (.done (.ok none) f) :=
        chunkTurn_idle fun chunk hstate => hchunked ⟨chunk, hstate⟩
      rw [hidle]
      exact .returns .refl

theorem drainFrom_leaves (build : Build) (parse : ResponseParser) (fuel : Nat)
    (completed : List Response) (f : ResponseFramer) :
    Leaves build parse f (drainFrom build parse fuel completed f) := by
  induction fuel generalizing f completed with
  | zero => exact .endless
  | succ fuel ih =>
    unfold drainFrom
    cases hstate : f.state with
    | headers =>
      cases hframe : f.frameHeaders build parse with
      | error fault =>
        refine .faults .refl ?_
        simp only [pass, hstate, hframe, error_bind]
      | ok call =>
        obtain ⟨result, f'⟩ := call
        have hpass : Passes build parse f f' := .single (pass_headers hstate hframe)
        rcases result with error | none | message
        · exact .returns hpass
        · by_cases hwait : f'.state = .headers
          · simp only [ok_bind, if_pos hwait]
            exact .returns hpass
          · simp only [ok_bind, if_neg hwait]
            exact .after hpass (ih _ f')
        · exact .after hpass (ih _ f')
    | body remaining =>
      cases hframe : f.frameBody build with
      | error fault =>
        refine .faults .refl ?_
        simp only [pass, hstate, hframe, error_bind]
      | ok call =>
        obtain ⟨message, f'⟩ := call
        have hpass : Passes build parse f f' := .single (pass_body hstate hframe)
        rcases message with _ | message
        · exact .returns hpass
        · exact .after hpass (ih _ f')
    | chunked chunk =>
      have hloop := frameChunked_leaves build parse f.turns f
      generalize frameChunked build f.turns f = result at hloop
      cases hloop with
      | endless => exact .endless
      | faults hpasses hfault => exact .faults hpasses hfault
      | @returns f' result hpasses =>
        rcases result with error | none | message
        · exact .returns hpasses
        · exact .returns hpasses
        · exact .after hpasses (ih _ f')
    | untilClose => exact .returns .refl
    | broken => exact .returns .refl

theorem feed_leaves (build : Build) (parse : ResponseParser) (hf : f.Fits) {piece : Bytes}
    (hlen : (f.load piece).buf.length ≤ vecMax) :
    Leaves build parse (f.load piece) (f.feed build parse piece) := by
  rw [feed_eq hf, if_pos hlen]
  exact drainFrom_leaves build parse _ [] _

def passOf (f : ResponseFramer) : Attempt Message Response Stop → Except Fault ResponseFramer
  | .wait => .ok f
  | .advance n m _ => .ok (f.goto m (f.rest.drop n))
  | .fail (.frame _) => .ok f.asBroken
  | .fail (.fault fault) => .error fault

theorem pass_eq (within : parse.Within) (hf : f.Fits) (hs : f.Sized) (build : Build) :
    f.pass build parse = f.passOf (decode build parse f.toMessage f.rest) := by
  unfold pass
  cases hstate : f.state with
  | headers =>
    simp only [frameHeaders_eq within hf build, decode, hstate]
    cases f.decodeHead parse f.rest with
    | wait => rfl
    | advance n m out => rfl
    | fail stop => cases stop <;> rfl
  | body remaining =>
    simp only [frameBody_eq hf build hstate, decode, hstate, Message.decodeBody]
    by_cases hshort : f.rest.length < remaining
    · simp only [if_pos hshort]
      rfl
    · simp only [if_neg hshort]
      rfl
  | chunked chunk =>
    simp only [chunkTurn_eq hf hs build parse hstate]
    cases decode build parse f.toMessage f.rest with
    | wait => rfl
    | advance n m out => cases out <;> rfl
    | fail stop => cases stop <;> rfl
  | untilClose => simp only [decode, hstate]; rfl
  | broken => simp only [decode, hstate]; rfl

structure InRange (f : ResponseFramer) : Prop where
  fits : f.Fits
  sized : f.Sized

structure Onward (f g : ResponseFramer) : Prop where
  buf : g.buf = f.buf
  scanned : f.scanned ≤ g.scanned

theorem pass_onward (within : parse.Within) (hf : f.InRange)
    (hpass : f.pass build parse = .ok g) : f.Onward g ∧ g.InRange := by
  rw [pass_eq within hf.fits hf.sized] at hpass
  cases hstep : decode build parse f.toMessage f.rest with
  | wait =>
    rw [hstep] at hpass
    obtain rfl := Except.ok.inj hpass
    exact ⟨⟨rfl, Nat.le_refl _⟩, hf⟩
  | advance n m out =>
    rw [hstep] at hpass
    obtain rfl := Except.ok.inj hpass
    refine ⟨⟨rfl, ?_⟩, hf.fits.goto _ _, decode_sized hstep hf.sized⟩
    rw [goto_drop hf.fits (decode_le within hstep)]
    exact Nat.le_add_right _ _
  | fail stop =>
    rw [hstep] at hpass
    cases stop with
    | fault fault => cases hpass
    | frame error =>
      obtain rfl := Except.ok.inj hpass
      refine ⟨⟨rfl, Nat.le_refl _⟩, ⟨hf.fits.scanned, hf.fits.buf⟩, ?_⟩
      intro remaining hbroken
      cases hbroken

/-- A pass panics on chunk data whose length and CRLF overflow a word only. -/
theorem pass_fault (within : parse.Within) (hf : f.InRange) {fault : Fault}
    (hpass : f.pass build parse = .error fault) :
    ∃ remaining, f.state = .chunked (.data remaining) ∧ word ≤ remaining + 2 := by
  rw [pass_eq within hf.fits hf.sized] at hpass
  cases hstep : decode build parse f.toMessage f.rest with
  | wait => rw [hstep] at hpass; cases hpass
  | advance n m out => rw [hstep] at hpass; cases hpass
  | fail stop =>
    rw [hstep] at hpass
    cases stop with
    | frame error => cases hpass
    | fault fault =>
      obtain ⟨remaining, hstate, hbig, _⟩ := decode_fault hstep
      exact ⟨remaining, hstate, hbig⟩

theorem pass_overflow (parse : ResponseParser) (hf : f.InRange) {remaining : Nat}
    (hstate : f.state = .chunked (.data remaining)) (hbig : word ≤ remaining + 2) :
    f.pass .debug parse = .error .overflow := by
  have hdata : f.chunkTurn .debug = f.turnOf (f.decodeData .debug remaining f.rest) :=
    chunkTurn_data hf.fits .debug hstate (hf.sized remaining hstate)
  simp only [pass, hstate, hdata, Message.decodeData, Build.add_debug hbig]
  rfl

/-- The framer stands at a complete chunk size line that reads as `size`. -/
def Announces (f : ResponseFramer) (size : Nat) : Prop :=
  f.state = .chunked .size ∧
    ∃ line, lineIn f.rest = some line ∧ chunkSize (f.rest.take line) = some size

theorem pass_announced (build : Build) (within : parse.Within) (hf : f.InRange) {size : Nat}
    (hsize : f.Announces size) (hpos : size ≠ 0) :
    ∃ g, f.pass build parse = .ok g ∧ g.state = .chunked (.data size) := by
  obtain ⟨hstate, line, hline, hchunk⟩ := hsize
  rw [pass_eq within hf.fits hf.sized]
  simp only [decode, hstate, Message.decodeSize, hline, hchunk, if_neg hpos]
  exact ⟨_, rfl, rfl⟩

theorem decode_data {m t : Message} {input : Bytes} {n size : Nat} {out : List Response}
    (hstep : decode build parse m input = .advance n t out)
    (ht : t.state = .chunked (.data size)) :
    m.state = .chunked .size ∧
      ∃ line, lineIn input = some line ∧ chunkSize (input.take line) = some size := by
  rw [decode_advance_iff] at hstep
  cases hstep with
  | head _ _ => exact absurd ht (chooseFraming_state _ _ _)
  | body _ _ => cases ht
  | @size line size' hstate hline hsize =>
    refine ⟨hstate, ?_⟩
    simp only [Message.setState] at ht
    split at ht
    · cases ht
    · obtain rfl : size' = size := by simpa using ht
      exact ⟨line, hline, hsize⟩
  | data _ _ _ _ => cases ht
  | last _ _ => cases ht
  | trailer hstate _ _ => cases hstate.symm.trans ht

def Small (f : ResponseFramer) : Prop :=
  ∀ remaining, f.state = .chunked (.data remaining) → remaining + 2 < word

theorem pass_small (within : parse.Within) (hf : f.InRange) (hsmall : f.Small)
    (hsizes : ∀ size, f.Announces size → size + 2 < word)
    (hpass : f.pass build parse = .ok g) : g.Small := by
  rw [pass_eq within hf.fits hf.sized] at hpass
  cases hstep : decode build parse f.toMessage f.rest with
  | wait =>
    rw [hstep] at hpass
    obtain rfl := Except.ok.inj hpass
    exact hsmall
  | advance n m out =>
    rw [hstep] at hpass
    obtain rfl := Except.ok.inj hpass
    intro remaining hdata
    exact hsizes remaining (decode_data hstep hdata)
  | fail stop =>
    rw [hstep] at hpass
    cases stop with
    | fault fault => cases hpass
    | frame error =>
      obtain rfl := Except.ok.inj hpass
      intro remaining hdata
      cases hdata

theorem new_inRange (capture : Bool) : (new capture).InRange where
  fits := ⟨Nat.le_refl _, Nat.zero_le _⟩
  sized := by
    intro remaining hdata
    cases hdata

theorem load_inRange (hf : f.InRange) {piece : Bytes}
    (hlen : (f.load piece).buf.length ≤ vecMax) : (f.load piece).InRange := by
  refine ⟨load_fits hf.fits hlen, ?_⟩
  rw [load_toMessage]
  exact hf.sized

theorem passes_inRange (within : parse.Within) (hf : f.InRange)
    (hpasses : Passes build parse f g) : g.InRange := by
  induction hpasses with
  | refl => exact hf
  | tail _ hpass ih => exact (pass_onward within ih hpass).2

theorem feed_passes (hf : f.InRange) {piece : Bytes} {result : Except FrameError (List Response)}
    (hfeed : f.feed build parse piece = .ok (result, g)) :
    (f.load piece).buf.length ≤ vecMax ∧ Passes build parse (f.load piece) g := by
  have hlen : (f.load piece).buf.length ≤ vecMax := by
    by_contra hno
    rw [feed_eq hf.fits, if_neg hno] at hfeed
    cases hfeed
  have hleaves := feed_leaves build parse hf.fits hlen
  rw [hfeed] at hleaves
  cases hleaves with
  | returns hpasses => exact ⟨hlen, hpasses⟩

theorem feed_inRange (within : parse.Within) (hf : f.InRange) {piece : Bytes}
    {result : Except FrameError (List Response)}
    (hfeed : f.feed build parse piece = .ok (result, g)) : g.InRange := by
  obtain ⟨hlen, hpasses⟩ := feed_passes hf hfeed
  exact passes_inRange within (load_inRange hf hlen) hpasses

theorem visits_inRange (within : parse.Within) {pieces : List Bytes} (hf : f.InRange)
    (hvisits : Visits build parse f pieces g) : g.InRange := by
  induction hvisits with
  | start => exact hf
  | inside hlen hpasses => exact passes_inRange within (load_inRange hf hlen) hpasses
  | later hfeed _ ih => exact ih (feed_inRange within hf hfeed)

theorem visits_pass {pieces : List Bytes} (within : parse.Within) (hf : f.InRange)
    (hvisits : Visits build parse f pieces g) (hpass : g.pass build parse = .ok h) :
    g = f ∨ Visits build parse f pieces h := by
  induction hvisits with
  | start => exact .inl rfl
  | inside hlen hpasses => exact .inr (.inside hlen (hpasses.tail hpass))
  | later hfeed _ ih =>
    obtain ⟨hlen, hpasses⟩ := feed_passes hf hfeed
    rcases ih (feed_inRange within hf hfeed) hpass with rfl | hvisits
    · exact .inr (.inside hlen (hpasses.tail hpass))
    · exact .inr (.later hfeed hvisits)

theorem passes_small (within : parse.Within) (hf : f.InRange) (hsmall : f.Small)
    (hsizes : ∀ g size, Passes build parse f g → g.Announces size → size + 2 < word)
    (hpasses : Passes build parse f g) : g.Small := by
  induction hpasses with
  | refl => exact hsmall
  | @tail g g' hpasses hpass ih =>
    have hg := passes_inRange within hf hpasses
    exact pass_small within hg ih (fun size => hsizes g size hpasses) hpass

theorem visits_small (within : parse.Within) {pieces : List Bytes} (hf : f.InRange)
    (hsmall : f.Small)
    (hsizes : ∀ g size, Visits build parse f pieces g → g.Announces size → size + 2 < word)
    (hvisits : Visits build parse f pieces g) : g.Small := by
  induction hvisits with
  | start => exact hsmall
  | @inside f g piece pieces hlen hpasses =>
    have hload : (f.load piece).Small := by
      unfold Small
      rw [load_toMessage]
      exact hsmall
    apply passes_small within (load_inRange hf hlen) hload _ hpasses
    intro g size hpasses'
    exact hsizes g size (.inside hlen hpasses')
  | @later f g h piece pieces result hfeed hlater ih =>
    obtain ⟨hlen, hpasses⟩ := feed_passes hf hfeed
    have hload : (f.load piece).Small := by
      unfold Small
      rw [load_toMessage]
      exact hsmall
    have hg : g.Small := by
      apply passes_small within (load_inRange hf hlen) hload _ hpasses
      intro g size hpasses'
      exact hsizes g size (.inside hlen hpasses')
    apply ih (feed_inRange within hf hfeed) hg
    intro h' size hvisits
    exact hsizes h' size (.later hfeed hvisits)

/-- A run that panics does so in a pass over a visited framer, for want of room apart. -/
theorem feedCalls_fault (within : parse.Within) {pieces : List Bytes} {fault : Fault}
    (hf : f.InRange) (hcalls : f.feedCalls build parse pieces = .error fault) :
    fault = .capacity ∨ fault = .fuel ∨
      ∃ g, Visits build parse f pieces g ∧ g.pass build parse = .error fault := by
  induction pieces generalizing f with
  | nil => cases hcalls
  | cons piece pieces ih =>
    unfold feedCalls at hcalls
    cases hfeed : f.feed build parse piece with
    | error fault' =>
      rw [hfeed] at hcalls
      obtain rfl : fault' = fault := Except.error.inj hcalls
      by_cases hlen : (f.load piece).buf.length ≤ vecMax
      · have hleaves := feed_leaves build parse hf.fits hlen
        rw [hfeed] at hleaves
        cases hleaves with
        | faults hpasses hfault => exact .inr (.inr ⟨_, .inside hlen hpasses, hfault⟩)
        | endless => exact .inr (.inl rfl)
      · rw [feed_eq hf.fits, if_neg hlen] at hfeed
        exact .inl (Except.error.inj hfeed).symm
    | ok call =>
      obtain ⟨result, g⟩ := call
      rw [hfeed, ok_bind] at hcalls
      cases hrest : g.feedCalls build parse pieces with
      | ok calls =>
        simp only [hrest, ok_bind] at hcalls
        cases hcalls
      | error fault' =>
        simp only [hrest, error_bind] at hcalls
        obtain rfl : fault' = fault := Except.error.inj hcalls
        rcases ih (feed_inRange within hf hfeed) hrest with hcap | hfuel | ⟨h, hvisits, hfault⟩
        · exact .inl hcap
        · exact .inr (.inl hfuel)
        · exact .inr (.inr ⟨h, .later hfeed hvisits, hfault⟩)

/-- No word operation of a run overflows and no slice is out of range; the offset lies
in the buffer and goes back only when `compact` drops the consumed bytes. -/
structure SafeRun (build : Build) (parse : ResponseParser) (capture : Bool)
    (pieces : List Bytes) : Prop where
  returns : ∀ fault, (new capture).feedCalls build parse pieces = .error fault →
    fault ≠ .overflow ∧ fault ≠ .slice
  words : ∀ g, Visits build parse (new capture) pieces g → g.pass .debug parse ≠ .error .overflow
  slices : ∀ g, Visits build parse (new capture) pieces g → g.pass build parse ≠ .error .slice
  inBuffer : ∀ g, Visits build parse (new capture) pieces g → g.scanned ≤ g.buf.length
  onward : ∀ g h, Visits build parse (new capture) pieces g → g.pass build parse = .ok h →
    g.Onward h
  compacts : ∀ g, Visits build parse (new capture) pieces g → g.compact = .ok g ∨
    g.compact = .ok { g with buf := g.buf.drop g.scanned, scanned := 0 }
  closes : ∀ g, Visits build parse (new capture) pieces g →
    ∃ result h, g.closed = .ok (result, h) ∧ g.Onward h ∧ h.scanned ≤ h.buf.length

/-- No chunk size line the framer comes to announces one of the two largest words. -/
def SizesFit (build : Build) (parse : ResponseParser) (capture : Bool) (pieces : List Bytes) :
    Prop :=
  ∀ g size, Visits build parse (new capture) pieces g → g.Announces size → size + 2 < word

theorem compact_cases (hf : f.Fits) :
    f.compact = .ok f ∨ f.compact = .ok { f with buf := f.buf.drop f.scanned, scanned := 0 } := by
  unfold compact
  split
  · right
    rw [sliceFrom_eq hf.scanned]
    rfl
  · exact .inl rfl

theorem closed_onward (hf : f.Fits) :
    ∃ result g, f.closed = .ok (result, g) ∧ f.Onward g ∧ g.scanned ≤ g.buf.length := by
  refine ⟨_, _, closed_eq hf, ⟨rfl, ?_⟩, Nat.sub_le _ _⟩
  have hle := (closedWith_suffix f.toMessage f.rest).length_le
  have hlen := f.length_rest
  have hscanned := hf.scanned
  simp only [goto]
  omega

/-- A run of the framer is safe exactly when the announced chunk sizes fit. -/
theorem safeRun_iff_sizesFit (parse : ResponseParser) (within : parse.Within) (build : Build)
    (capture : Bool) (pieces : List Bytes) :
    SafeRun build parse capture pieces ↔ SizesFit build parse capture pieces := by
  have hnew := new_inRange capture
  constructor
  · intro hsafe g size hvisits hsize
    by_contra hbig
    have hg := visits_inRange within hnew hvisits
    obtain ⟨h, hpass, hdata⟩ := pass_announced build within hg hsize (by
      rintro rfl
      exact hbig (by decide))
    rcases visits_pass within hnew hvisits hpass with rfl | hvisits'
    · cases hsize.1
    · have hh := visits_inRange within hnew hvisits'
      exact hsafe.words h hvisits' (pass_overflow parse hh hdata (by omega))
  · intro hsizes
    have hsmall : ∀ g, Visits build parse (new capture) pieces g → g.Small := by
      intro g hvisits
      apply visits_small within hnew _ hsizes hvisits
      intro remaining hdata
      cases hdata
    have hnever : ∀ g, Visits build parse (new capture) pieces g → ∀ build' fault,
        g.pass build' parse ≠ .error fault := by
      intro g hvisits build' fault hfault
      have hg := visits_inRange within hnew hvisits
      obtain ⟨remaining, hdata, hbig⟩ := pass_fault within hg hfault
      exact absurd (hsmall g hvisits remaining hdata) (by omega)
    have hrange : ∀ g, Visits build parse (new capture) pieces g → g.InRange :=
      fun g hvisits => visits_inRange within hnew hvisits
    refine ⟨?_, fun g hv => hnever g hv _ _, fun g hv => hnever g hv _ _,
      fun g hv => (hrange g hv).fits.scanned, fun g h hv hpass =>
        (pass_onward within (hrange g hv) hpass).1, fun g hv => compact_cases (hrange g hv).fits,
      fun g hv => closed_onward (hrange g hv).fits⟩
    intro fault hcalls
    rcases feedCalls_fault within hnew hcalls with rfl | rfl | ⟨g, hvisits, hfault⟩
    · simp
    · simp
    · exact absurd hfault (hnever g hvisits _ _)

theorem safeRun_iff_sizesFit_sample :
    SafeRun .release reference true [sampleStream.take 20, sampleStream.drop 20] ↔
      SizesFit .release reference true [sampleStream.take 20, sampleStream.drop 20] :=
  safeRun_iff_sizesFit reference reference_lawful.within .release true _

def hugeChunk : Bytes :=
  ascii "HTTP/1.1 200 X\r\nTransfer-Encoding: chunked\r\n\r\nffffffffffffffff\r\nx"

/-- The word that holds a chunk and its CRLF overflows: a debug build panics there, a
release build wraps and panics at the slice of the data. -/
theorem hugeChunk_unsafe :
    (new false).feedCalls .debug reference [hugeChunk] = .error .overflow ∧
      (new true).feedCalls .release reference [hugeChunk] = .error .slice ∧
      ¬ SafeRun .debug reference false [hugeChunk] ∧
      ¬ SafeRun .release reference true [hugeChunk] := by
  have hoverflow : (new false).feedCalls .debug reference [hugeChunk] = .error .overflow := by rfl
  have hslice : (new true).feedCalls .release reference [hugeChunk] = .error .slice := by rfl
  refine ⟨hoverflow, hslice, ?_, ?_⟩
  · intro hsafe
    exact (hsafe.returns _ hoverflow).1 rfl
  · intro hsafe
    exact (hsafe.returns _ hslice).2 rfl

end ResponseFramer

end Wrkrs
