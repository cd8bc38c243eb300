import Wrkrs.ChunkedCoding

/-!
# The framer and the chunked coding

The framer follows the strict grammar from item to item as long as the bytes are plain:
no extension, no size near the end of the words, no text that only the radix parser takes
for a size, CRLF behind the data and fields for trailers. The first item that is not plain
is where the two part.
-/

namespace Wrkrs

set_option autoImplicit false
set_option maxRecDepth 4096

open Text Machine Incremental

/-- A size line and the byte after its CR: bare digits of a size with room for its CRLF, or a
line that neither the grammar nor the framer's number parser takes. -/
inductive PlainLine (line : Bytes) (e : UInt8) : Prop where
  | bare {n : Nat} : e = 10 → SizeLine line n → 59 ∉ line → n + 2 < word → PlainLine line e
  | refused : ¬ (e = 10 ∧ ∃ n, SizeLine line n) → chunkSize line = none → PlainLine line e

/-- The first item of the input, if it is complete, is plain. -/
def PlainAt : ChunkState → Bytes → Prop
  | .size, input => ∀ (line : Bytes) (e : UInt8) (rest : Bytes), input = line ++ 13 :: e :: rest →
      13 ∉ line → PlainLine line e
  | .data n, input => ∀ (bytes : Bytes) (x y : UInt8) (rest : Bytes),
      input = bytes ++ x :: y :: rest → bytes.length = n → x = 13 ∧ y = 10
  | .trailers, input => ∀ (line : Bytes) (e : UInt8) (rest : Bytes),
      input = line ++ 13 :: e :: rest → 13 ∉ line → e = 10 ∧ (line = [] ∨ TrailerLine line)

/-- Every complete item that the strict grammar comes to in the input is plain. -/
def PlainCoding (input : Bytes) : Prop :=
  ∀ (c : ChunkState) (data rest : Bytes),
    Steps strict (some .size, []) input [] (some c, data) rest → PlainAt c rest

/-- The data of a chunk and its CRLF are counted in a word. -/
def ChunkState.Counts (c : ChunkState) : Prop := ∀ n, c = .data n → n + 2 < word

def coded (m : Message) : Coding → Message
  | (some c, data) => (m.pushBody data).setState (.chunked c)
  | (none, _) => m.finished

section Lockstep
variable {build : Build} {parse : ResponseParser} {m : Message} {c : ChunkState}
variable {data input item line : Bytes} {t : Coding} {out : List Bytes} {n : Nat}

theorem coded_data (chunk : Bytes) (c' : ChunkState) :
    ((coded m (some c, data)).pushBody chunk).setState (.chunked c') =
      coded m (some c', data ++ chunk) := by
  unfold coded Message.pushBody Message.setState
  by_cases hcapture : m.capture = true
  · simp only [if_pos hcapture, List.append_assoc]
  · simp only [if_neg hcapture]

theorem chunkSize_bare (h : SizeLine line n) (hbare : 59 ∉ line) (hlt : n < word) :
    chunkSize line = some n := by
  cases h with
  | bare hne hdigits => exact chunkSize_digits hne hdigits hlt
  | extended _ _ _ => exact absurd (List.mem_append_right _ List.mem_cons_self) hbare

theorem decode_read (hcr : 13 ∉ line) (hread : chunkSize line = some n) (e : UInt8)
    (rest : Bytes) :
    decode build parse (coded m (some .size, data)) (line ++ 13 :: e :: rest) =
      .advance (line.length + 2)
        (coded m (some (if n = 0 then .trailers else .data n), data)) [] := by
  change Message.decodeSize _ _ = _
  unfold Message.decodeSize
  simp only [lineIn_ends hcr, List.take_left, hread]
  rfl

theorem decode_refused (hcr : 13 ∉ line) (hsize : chunkSize line = none) (e : UInt8)
    (rest : Bytes) :
    decode build parse (coded m (some .size, data)) (line ++ 13 :: e :: rest) =
      .fail (.frame .badResponse) := by
  change Message.decodeSize _ _ = _
  simp only [Message.decodeSize, lineIn_ends hcr, List.take_left, hsize]

/-- The framer skips the two bytes behind the data, whatever they are. -/
theorem decode_skip (bytes : Bytes) (hsmall : bytes.length + 2 < word) (x y : UInt8)
    (rest : Bytes) :
    decode build parse (coded m (some (.data bytes.length), data)) (bytes ++ x :: y :: rest) =
      .advance (bytes.length + 2) (coded m (some .size, data ++ bytes)) [] := by
  have hlong : ¬ (bytes ++ x :: y :: rest).length < bytes.length + 2 := by
    simp only [List.length_append, List.length_cons]
    omega
  have hfits : ¬ ((coded m (some (.data bytes.length), data)).capture = true ∧
      word ≤ bytes.length + 2) := by omega
  change Message.decodeData build _ bytes.length _ = _
  unfold Message.decodeData
  simp only [build.add_eq hsmall, if_neg hlong, if_neg hfits, List.take_left, coded_data]

/-- The framer takes any line for a trailer. -/
theorem decode_trailer (hcr : 13 ∉ line) (hne : line ≠ []) (e : UInt8) (rest : Bytes) :
    decode build parse (coded m (some .trailers, data)) (line ++ 13 :: e :: rest) =
      .advance (line.length + 2) (coded m (some .trailers, data)) [] := by
  have hlen : line.length ≠ 0 := fun h => hne (List.length_eq_zero_iff.mp h)
  change Message.decodeTrailers _ _ = _
  unfold Message.decodeTrailers
  simp only [lineIn_ends hcr, if_neg hlen]

theorem decode_item (hitem : Item data c item t out)
    (hplain : ∀ line n, c = .size → item = line ++ crlf → SizeLine line n →
      59 ∉ line ∧ n + 2 < word)
    (hcounts : c.Counts) (rest : Bytes) :
    decode build parse (coded m (some c, data)) (item ++ rest) =
      .advance item.length (coded m t) (out.map fun body => (m.pushBody body).response) := by
  cases hitem with
  | @size line n hsize =>
    obtain ⟨hbare, hsmall⟩ := hplain line n rfl rfl hsize
    have hread : chunkSize line = some n := chunkSize_bare hsize hbare (by omega)
    rw [crlf_append, decode_read hsize.plain hread, List.length_append]
    rfl
  | data bytes =>
    rw [crlf_append, decode_skip bytes (hcounts bytes.length rfl), List.length_append]
    rfl
  | @trailer line hline =>
    obtain ⟨hne, hcr⟩ := hline.plain
    rw [crlf_append, decode_trailer hcr hne, List.length_append]
    rfl
  | last => rfl

theorem decode_waits (hcounts : c.Counts) (h : strict (some c, data) input = .wait) :
    decode build parse (coded m (some c, data)) input = .wait := by
  cases c with
  | size =>
    cases hline : lineIn input with
    | none =>
      change Message.decodeSize _ _ = _
      simp only [Message.decodeSize, hline]
    | some n =>
      simp only [strict, hline] at h
      split at h <;> cases h
  | data n =>
    by_cases hshort : input.length < n + 2
    · change Message.decodeData build _ n _ = _
      simp only [Message.decodeData, build.add_eq (hcounts n rfl), if_pos hshort]
    · simp only [strict, if_neg hshort] at h
      split at h <;> cases h
  | trailers =>
    cases hline : lineIn input with
    | none =>
      change Message.decodeTrailers _ _ = _
      simp only [Message.decodeTrailers, hline]
    | some n =>
      simp only [strict, hline] at h
      split at h
      · cases h
      · split at h <;> cases h

theorem decode_bad (hbad : BadItem c input) (hplain : PlainAt c input) :
    decode build parse (coded m (some c, data)) input = .fail (.frame .badResponse) := by
  cases hbad with
  | @size line rest e hcr hillegal =>
    cases hplain line e rest rfl hcr with
    | bare he hsize => exact absurd ⟨he, _, hsize⟩ hillegal
    | refused _ hrefused => exact decode_refused hcr hrefused e rest
  | @data bytes rest x y hother => exact absurd (hplain bytes x y rest rfl rfl) hother
  | @trailer line rest e hcr hillegal => exact absurd (hplain line e rest rfl hcr) hillegal

theorem PlainLine.of_size {e : UInt8} (h : PlainLine line e) (he : e = 10)
    (hsize : SizeLine line n) : 59 ∉ line ∧ n + 2 < word := by
  cases h with
  | @bare n' _ hsize' hbare hsmall =>
    have hn := (strictSize_iff hsize.plain).mpr hsize
    rw [(strictSize_iff hsize.plain).mpr hsize'] at hn
    obtain rfl := Option.some.inj hn
    exact ⟨hbare, hsmall⟩
  | refused hillegal _ => exact absurd ⟨he, n, hsize⟩ hillegal

theorem PlainAt.of_item {rest : Bytes} (h : PlainAt c (item ++ rest)) :
    ∀ line n, c = .size → item = line ++ crlf → SizeLine line n → 59 ∉ line ∧ n + 2 < word := by
  rintro line n rfl rfl hsize
  exact (h line 10 rest (crlf_append line rest) hsize.plain).of_size rfl hsize

theorem Item.counts (hitem : Item data c item t out) {rest : Bytes}
    (hplain : PlainAt c (item ++ rest)) {c' : ChunkState} {data' : Bytes}
    (ht : t = (some c', data')) : c'.Counts := by
  intro n hn
  cases hitem with
  | @size line size hsize =>
    have hsmall := (hplain.of_item line size rfl rfl hsize).2
    obtain ⟨hc, _⟩ := Prod.mk.inj ht
    by_cases hzero : size = 0
    · rw [if_pos hzero] at hc
      obtain rfl := Option.some.inj hc
      cases hn
    · rw [if_neg hzero] at hc
      obtain rfl := Option.some.inj hc
      obtain rfl := ChunkState.data.inj hn
      exact hsmall
  | data bytes =>
    obtain ⟨hc, _⟩ := Prod.mk.inj ht
    obtain rfl := Option.some.inj hc
    cases hn
  | trailer _ =>
    obtain ⟨hc, _⟩ := Prod.mk.inj ht
    obtain rfl := Option.some.inj hc
    cases hn
  | last =>
    obtain ⟨hc, _⟩ := Prod.mk.inj ht
    cases hc

theorem Item.pos (h : Item data c item t out) : 0 < item.length := by
  cases h with
  | size _ => exact List.length_pos_iff.mpr (List.append_ne_nil_of_right_ne_nil _ (by decide))
  | data _ => exact List.length_pos_iff.mpr (List.append_ne_nil_of_right_ne_nil _ (by decide))
  | trailer _ => exact List.length_pos_iff.mpr (List.append_ne_nil_of_right_ne_nil _ (by decide))
  | last => exact Nat.zero_lt_two

theorem Item.goes_on (h : Item data c item t out) :
    (out = [] ∧ ∃ c' data', t = (some c', data')) ∨ ∃ body, out = [body] ∧ t.1 = none := by
  cases h with
  | size _ => exact .inl ⟨rfl, _, _, rfl⟩
  | data _ => exact .inl ⟨rfl, _, _, rfl⟩
  | trailer _ => exact .inl ⟨rfl, _, _, rfl⟩
  | last => exact .inr ⟨_, rfl, rfl⟩

/-- Over plain bytes the framer goes through a body as the grammar does. -/
theorem steps_coded {s : Coding} {ys : Bytes} (h : Steps strict s input out t ys)
    (hs : s = (some c, data)) (hcounts : c.Counts)
    (hplain : ∀ c' data' zs, Steps strict s input [] (some c', data') zs → PlainAt c' zs) :
    Steps (decode build parse) (coded m s) input
      (out.map fun body => (m.pushBody body).response) (coded m t) ys := by
  induction h generalizing c data with
  | refl => exact .refl _ _
  | @head s t u input ys n out outs hstep hrest ih =>
    subst hs
    have hhere : PlainAt c input := hplain c data input (.refl _ _)
    obtain ⟨item, rest, rfl, rfl, hitem⟩ := item_of_strict hstep
    have hdecode : decode build parse (coded m (some c, data)) (item ++ rest) = _ :=
      decode_item hitem hhere.of_item hcounts rest
    rw [List.drop_left] at hrest ih
    rw [List.map_append]
    refine (Steps.over hdecode).trans ?_
    rcases hitem.goes_on with ⟨rfl, c', data', rfl⟩ | ⟨body, rfl, ht⟩
    · apply ih rfl (hitem.counts hhere rfl)
      intro c'' data'' zs hsteps
      exact hplain c'' data'' zs ((steps_item hitem rest).trans hsteps)
    · obtain ⟨c' | c', data'⟩ := t
      · obtain ⟨rfl, rfl, rfl⟩ := strict_over hrest
        exact .refl _ _
      · cases ht

end Lockstep

namespace ResponseFramer

variable {build : Build} {f : ResponseFramer} {m : Message} {c : ChunkState} {data : Bytes}

/-- The chunk loop did what the strict decoder does. -/
inductive Followed (m : Message) (f : ResponseFramer) (s : Coding) :
    Except Fault (Outcome (Option Response)) → Prop where
  | waits {t : Coding} {ys : Bytes} : Drains strict s f.rest [] t ys → t.1 ≠ none →
      Followed m f s (.ok (.ok none, f.goto (coded m t) ys))
  | completes {t : Coding} {ys body : Bytes} : Steps strict s f.rest [body] t ys → t.1 = none →
      Followed m f s (.ok (.ok (some (m.pushBody body).response), f.goto (coded m t) ys))
  | rejects {t : Coding} {ys : Bytes} :
      Fails strict s f.rest [] t ys (.frame .badResponse) →
      Followed m f s (.ok (.error .badResponse, (f.goto (coded m t) ys).asBroken))

theorem Followed.head {s t : Coding} {n : Nat}
    {result : Except Fault (Outcome (Option Response))}
    (h : strict s f.rest = .advance n t [])
    (hrun : Followed m (f.goto (coded m t) (f.rest.drop n)) t result) : Followed m f s result := by
  have hrest : (f.goto (coded m t) (f.rest.drop n)).rest = f.rest.drop n :=
    goto_rest (List.drop_suffix _ _)
  cases hrun with
  | waits hd ht =>
    rw [hrest] at hd
    exact .waits ⟨.head h hd.1, hd.2⟩ ht
  | completes hsteps ht =>
    rw [hrest] at hsteps
    exact .completes (.head h hsteps) ht
  | rejects hfail =>
    rw [hrest] at hfail
    exact .rejects ⟨.head h hfail.1, hfail.2⟩

theorem frameChunked_follows {fuel : Nat} (hf : f.Fits)
    (hmessage : f.toMessage = coded m (some c, data)) (hcounts : c.Counts)
    (hplain : ∀ c' data' ys, Steps strict (some c, data) f.rest [] (some c', data') ys →
      PlainAt c' ys)
    (hfuel : f.rest.length < fuel) :
    Followed m f (some c, data) (frameChunked build fuel f) := by
  induction fuel generalizing f c data with
  | zero => omega
  | succ fuel ih =>
    have hstate : f.state = .chunked c := congrArg Message.state hmessage
    have hsized : f.Sized := by
      intro n hn
      rw [hstate] at hn
      have hlt := hcounts n (FrameState.chunked.inj hn)
      omega
    have hhere : PlainAt c f.rest := hplain c data f.rest (.refl _ _)
    unfold frameChunked
    rw [chunkTurn_eq hf hsized build reference hstate, hmessage]
    rcases strict_cases c data f.rest with hwait | ⟨item, rest, t, out, hrest, hitem⟩ | hbad
    · rw [decode_waits hcounts hwait]
      have hd : Drains strict (some c, data) f.rest [] (some c, data) f.rest := ⟨.refl _ _, hwait⟩
      have hdone := Followed.waits (m := m) hd (Option.some_ne_none c)
      rw [← hmessage, goto_self hf] at hdone
      exact hdone
    · have hdrop : f.rest.drop item.length = rest := by rw [hrest, List.drop_left]
      have hstep : strict (some c, data) f.rest = .advance item.length t out := by
        rw [hrest]
        exact strict_item hitem rest
      have hdecode : decode build reference (coded m (some c, data)) f.rest =
          .advance item.length (coded m t) (out.map fun body => (m.pushBody body).response) := by
        rw [hrest] at hhere ⊢
        exact decode_item hitem hhere.of_item hcounts rest
      rw [hdecode]
      rcases hitem.goes_on with ⟨rfl, c', data', rfl⟩ | ⟨body, rfl, ht⟩
      · have hnext : (f.goto (coded m (some c', data')) (f.rest.drop item.length)).rest = rest := by
          rw [hdrop]
          exact goto_rest ⟨item, hrest.symm⟩
        simp only [List.map_nil, turnOf, ok_bind]
        rw [hrest] at hhere
        refine Followed.head hstep (ih (hf.goto _ _) rfl (hitem.counts hhere rfl) ?_ ?_)
        · intro c'' data'' ys hsteps
          rw [hnext, ← hdrop] at hsteps
          exact hplain c'' data'' ys (.head hstep hsteps)
        · have hpos := hitem.pos
          rw [hnext]
          rw [hrest, List.length_append] at hfuel
          omega
      · have hsteps := Steps.single hstep
        exact .completes hsteps ht
    · rw [decode_bad hbad hhere]
      have hfail : Fails strict (some c, data) f.rest [] (some c, data) f.rest
          (.frame .badResponse) := ⟨.refl _ _, strict_bad hbad data⟩
      have hdone := Followed.rejects (m := m) hfail
      rw [← hmessage, goto_self hf] at hdone
      exact hdone

theorem halted_over {s : Coding} {input : Bytes} (h : s.1 = none) : Halted strict s input := by
  obtain ⟨c, data⟩ := s
  obtain rfl : c = none := h
  exact halted_of_wait rfl

section Followed
variable {s : Coding} {result : Except Fault (Outcome (Option Response))}

theorem Followed.returns (h : Followed m f s result) : ∃ r f', result = .ok (r, f') := by
  cases h <;> exact ⟨_, _, rfl⟩

/-- What is completed is what the grammar completes, and nothing behind it is consumed. -/
theorem Followed.completes_iff (h : Followed m f s result) {r : Response} {n : Nat} :
    (∃ f', result = .ok (.ok (some r), f') ∧ f'.scanned = n) ↔
      ∃ body t ys, Steps strict s f.rest [body] t ys ∧ t.1 = none ∧
        r = (m.pushBody body).response ∧ (f.goto (coded m t) ys).scanned = n := by
  cases h with
  | @waits t ys hd _ =>
    constructor
    · rintro ⟨f', hf, _⟩
      cases hf
    · rintro ⟨body, t', ys', hsteps, ht', _⟩
      obtain ⟨hnil, _⟩ := hd.1.halted_unique (halted_of_wait hd.2) hsteps (halted_over ht')
      cases hnil
  | @completes t ys body hsteps ht =>
    constructor
    · rintro ⟨f', hf, hscanned⟩
      obtain ⟨hr, rfl⟩ := Prod.mk.inj (Except.ok.inj hf)
      obtain rfl := Option.some.inj (Except.ok.inj hr)
      exact ⟨body, t, ys, hsteps, ht, rfl, hscanned⟩
    · rintro ⟨body', t', ys', hsteps', ht', rfl, hscanned⟩
      obtain ⟨houts, rfl, rfl⟩ := hsteps.halted_unique (halted_over ht) hsteps' (halted_over ht')
      obtain rfl := (List.cons.inj houts).1
      exact ⟨_, rfl, hscanned⟩
  | @rejects t ys hfail =>
    constructor
    · rintro ⟨f', hf, _⟩
      cases hf
    · rintro ⟨body, t', ys', hsteps, ht', _⟩
      obtain ⟨hnil, _⟩ := hfail.1.halted_unique (halted_of_fail hfail.2) hsteps (halted_over ht')
      cases hnil

theorem Followed.rejects_iff (h : Followed m f s result) :
    (∃ f', result = .ok (.error .badResponse, f')) ↔
      ∃ t ys, Fails strict s f.rest [] t ys (.frame .badResponse) := by
  cases h with
  | waits hd _ =>
    constructor
    · rintro ⟨f', hf⟩
      cases hf
    · rintro ⟨t, ys, hfail⟩
      exact (hd.not_fails hfail).elim
  | completes hsteps _ =>
    constructor
    · rintro ⟨f', hf⟩
      cases hf
    · rintro ⟨t, ys, hfail⟩
      exact (hsteps.out_not_fails hfail).elim
  | rejects hfail => exact iff_of_true ⟨_, rfl⟩ ⟨_, _, hfail⟩

end Followed

end ResponseFramer

theorem strict_stable : Stable strict where
  bound := by
    intro s input n t out h
    obtain ⟨c | c, data⟩ := s
    · cases h
    · obtain ⟨item, rest, rfl, rfl, _⟩ := item_of_strict h
      rw [List.length_append]
      exact Nat.le_add_right _ _
  advance := by
    intro s input n t out h more
    obtain ⟨c | c, data⟩ := s
    · cases h
    · obtain ⟨item, rest, rfl, rfl, hitem⟩ := item_of_strict h
      rw [List.append_assoc]
      exact strict_item hitem (rest ++ more)
  fail := by
    intro s input stop h more
    obtain ⟨c | c, data⟩ := s
    · cases h
    · obtain ⟨rfl, hbad⟩ := bad_of_strict h
      apply strict_bad
      cases hbad with
      | size hcr hillegal =>
        rw [List.append_assoc]
        exact .size hcr hillegal
      | data bytes hother =>
        rw [List.append_assoc]
        exact .data bytes hother
      | trailer hcr hillegal =>
        rw [List.append_assoc]
        exact .trailer hcr hillegal

theorem PlainAt.front {c : ChunkState} {input more : Bytes} (h : PlainAt c (input ++ more)) :
    PlainAt c input := by
  cases c with
  | size =>
    rintro line e rest rfl hcr
    exact h line e (rest ++ more) (List.append_assoc _ _ _) hcr
  | data n =>
    rintro bytes x y rest rfl hlen
    exact h bytes x y (rest ++ more) (List.append_assoc _ _ _) hlen
  | trailers =>
    rintro line e rest rfl hcr
    exact h line e (rest ++ more) (List.append_assoc _ _ _) hcr

theorem PlainCoding.front {input more : Bytes} (h : PlainCoding (input ++ more)) :
    PlainCoding input := by
  intro c data rest hsteps
  exact (h c data (rest ++ more) (hsteps.append strict_stable more)).front

theorem chunkSize_legal {line : Bytes} {n size : Nat} (h : SizeLine line n)
    (hread : chunkSize line = some size) : 59 ∉ line ∧ size = n := by
  cases h with
  | @bare digits hne hdigits =>
    refine ⟨fun hsemi => (hex_plain hdigits 59 hsemi).1 rfl, ?_⟩
    unfold chunkSize at hread
    rw [fromUtf8Lossy_encode, trim_eq_self fun c hc => (toDigit_hex (hdigits c hc)).2.1] at hread
    exact fromStrRadix_value hdigits hread
  | @extended digits extension hne hdigits hext =>
    exfalso
    obtain ⟨c, cs, rfl⟩ := List.exists_cons_of_ne_nil hne
    have hc := toDigit_hex (hdigits c List.mem_cons_self)
    have htext : fromUtf8Lossy (encode (c :: cs) ++ 59 :: extension) =
        c :: cs ++ ';' :: fromUtf8Lossy extension := by
      rw [fromUtf8Lossy_encode_append fun d hd => (toDigit_hex (hdigits d hd)).1,
        fromUtf8Lossy_cons (by decide)]
      rfl
    have hsemi : isSpace ';' = false := rfl
    obtain ⟨rest, htrim⟩ := trim_inside hc.2.1 hsemi (fromUtf8Lossy extension)
    unfold chunkSize at hread
    rw [htext, htrim] at hread
    obtain ⟨digits, hall, hdigits' | hplus⟩ := fromStrRadix_all hread
    · have hsemi := hall ';' (by
        rw [← hdigits']
        exact List.mem_append_right _ List.mem_cons_self)
      cases hsemi
    · have hhead : c = '+' := (List.cons.inj hplus).1
      have hdigit := hdigits c List.mem_cons_self
      rw [hhead] at hdigit
      cases hdigit

namespace ResponseFramer

/-- A framer that stands in a chunked body behind bytes it has consumed. -/
def standing (m : Message) (front input : Bytes) : ResponseFramer where
  toMessage := m
  buf := front ++ input
  scanned := front.length

/-- What the chunk loop makes of the bytes of a body: a completed message, with its data,
behind exactly the bodies of the grammar, an error for exactly what breaks the grammar. -/
structure TakesCoding (build : Build) (m : Message) (front input : Bytes) : Prop where
  returns : ∃ result f, frameChunked build (standing m front input).turns
    (standing m front input) = .ok (result, f)
  completes : ∀ (k : Nat) (r : Response),
    (∃ f, frameChunked build (standing m front input).turns (standing m front input) =
      .ok (.ok (some r), f) ∧ f.scanned = front.length + k) ↔
    ∃ bytes rest body, input = bytes ++ rest ∧ bytes.length = k ∧ ChunkedBody bytes body ∧
      r = (m.pushBody body).response
  rejects : (∃ f, frameChunked build (standing m front input).turns (standing m front input) =
      .ok (.error .badResponse, f)) ↔ Breaks input

section Coding
variable {build : Build} {m : Message} {front input : Bytes}

theorem standing_rest : (standing m front input).rest = input := List.drop_left

theorem standing_fits (h : (front ++ input).length ≤ vecMax) : (standing m front input).Fits where
  scanned := by
    simp only [standing, List.length_append]
    omega
  buf := h

theorem coded_start (hstate : m.state = .chunked .size) : coded m (some .size, []) = m := by
  obtain ⟨state, capture, status, keepAlive, headers, body⟩ := m
  obtain rfl : state = .chunked .size := hstate
  simp [coded, Message.pushBody, Message.setState]

theorem goto_scanned {ys bytes : Bytes} {m' : Message} (h : input = bytes ++ ys) :
    ((standing m front input).goto m' ys).scanned = front.length + bytes.length := by
  simp only [goto, standing, h, List.length_append]
  omega

theorem takesCoding_of_plain (hstate : m.state = .chunked .size)
    (hlength : (front ++ input).length ≤ vecMax) (hplain : PlainCoding input) :
    TakesCoding build m front input := by
  have hrest : (standing m front input).rest = input := standing_rest
  have hrun : Followed m (standing m front input) (some .size, [])
      (frameChunked build (standing m front input).turns (standing m front input)) := by
    apply frameChunked_follows (standing_fits hlength) (coded_start hstate).symm
    · intro n hn
      cases hn
    · rw [hrest]
      exact hplain
    · rw [hrest]
      simp only [turns, standing, List.length_append]
      omega
  refine ⟨?_, fun k r => ?_, ?_⟩
  · exact hrun.returns
  · rw [hrun.completes_iff, hrest]
    constructor
    · rintro ⟨body, t, ys, hsteps, ht, rfl, hscanned⟩
      obtain ⟨bytes, hinput, hchunked⟩ := strict_completes_iff.mp ⟨t, ht, hsteps⟩
      rw [goto_scanned hinput] at hscanned
      exact ⟨bytes, ys, body, hinput, by omega, hchunked, rfl⟩
    · rintro ⟨bytes, ys, body, hinput, rfl, hchunked, rfl⟩
      have hsteps := strict_body hchunked [] ys
      rw [← hinput] at hsteps
      exact ⟨body, _, ys, hsteps, rfl, rfl, goto_scanned hinput⟩
  · rw [hrun.rejects_iff, hrest]
    exact strict_breaks_iff

end Coding

end ResponseFramer

/-- The framer and the grammar came to one point of the input in step, whatever follows. -/
structure InStep (m : Message) (input : Bytes) (c : ChunkState) (data ys : Bytes) : Prop where
  reached : ∃ cut, input = cut ++ ys ∧
    (∀ rest, Steps strict (some .size, []) (cut ++ rest) [] (some c, data) rest) ∧
    ∀ (build : Build) (rest : Bytes),
      Steps (decode build reference) m (cut ++ rest) [] (coded m (some c, data)) rest
  counts : c.Counts

/-- From one point on the framer breaks where the grammar does, and does not panic. -/
structure Agrees (m : Message) (c : ChunkState) (data input : Bytes) : Prop where
  breaks : ∀ build : Build,
    (∃ t ys, Fails (decode build reference) (coded m (some c, data)) input [] t ys
      (.frame .badResponse)) ↔
    ∃ t ys, Fails strict (some c, data) input [] t ys (.frame .badResponse)
  runs : ∀ (build : Build) (t : Message) (ys : Bytes) (fault : Fault),
    ¬ Fails (decode build reference) (coded m (some c, data)) input [] t ys (.fault fault)

section Parting
variable {build : Build} {m : Message} {c c' : ChunkState}
variable {data data' line input item rest : Bytes} {n : Nat} {e : UInt8}

theorem strict_nil (s : Coding) : strict s [] = .wait := by
  obtain ⟨c | c, data⟩ := s
  · rfl
  · cases c with
    | size => rfl
    | data n =>
      have hshort : ([] : Bytes).length < n + 2 := Nat.zero_lt_succ _
      simp only [strict, if_pos hshort]
    | trailers => rfl

theorem decode_nil {parse : ResponseParser} (hcounts : c.Counts) :
    decode build parse (coded m (some c, data)) [] = .wait :=
  decode_waits hcounts (strict_nil _)

/-- What the framer consumes whole the grammar does not refuse. -/
theorem Agrees.not_bad (h : Agrees m c data input) (hcounts : c'.Counts)
    (hstep : decode .debug reference (coded m (some c, data)) input =
      .advance input.length (coded m (some c', data')) []) : ¬ BadItem c input := by
  intro hbad
  have hstrict := strict_bad hbad data
  obtain ⟨t, ys, hfail⟩ := (h.breaks .debug).mpr ⟨_, _, .refl _ _, hstrict⟩
  have hsteps := Steps.single hstep
  rw [List.drop_length] at hsteps
  exact Drains.not_fails ⟨hsteps, decode_nil hcounts⟩ hfail

theorem data_counts (h : n + 2 < word) : (ChunkState.data n).Counts := by
  intro n' hn
  obtain rfl := ChunkState.data.inj hn
  exact h

/-- A count that the data and the CRLF push over the word panics in a debug build. -/
theorem decode_overflow (hbig : word ≤ n + 2) :
    decode .debug reference (coded m (some (.data n), data)) input =
      .fail (.fault .overflow) := by
  change Message.decodeData .debug _ n _ = _
  unfold Message.decodeData
  rw [Build.add_debug hbig]

theorem Agrees.plainLine (h : Agrees m .size data (line ++ [13, e])) (hcr : 13 ∉ line) :
    PlainLine line e := by
  cases hread : chunkSize line with
  | none =>
    refine .refused ?_ hread
    rintro ⟨rfl, n, hsize⟩
    have hrefused : decode .debug reference (coded m (some .size, data)) (line ++ [13, 10]) =
        .fail (.frame .badResponse) := decode_refused hcr hread 10 []
    obtain ⟨t, ys, hfail⟩ := (h.breaks .debug).mp ⟨_, _, .refl _ _, hrefused⟩
    have hsteps := steps_item (.size hsize : Item data _ _ _ _) []
    rw [List.append_nil] at hsteps
    exact Drains.not_fails ⟨hsteps, strict_nil _⟩ hfail
  | some size =>
    have hstep : decode .debug reference (coded m (some .size, data)) (line ++ [13, e]) = _ :=
      decode_read hcr hread e []
    have hsmall : size + 2 < word := by
      apply Nat.lt_of_not_le
      intro hbig
      have hpos : size ≠ 0 := by
        rintro rfl
        exact absurd hbig (by decide)
      rw [if_neg hpos] at hstep
      have hsteps := Steps.single hstep
      exact h.runs .debug _ _ _ ⟨hsteps, decode_overflow hbig⟩
    have hcounts : (if size = 0 then ChunkState.trailers else .data size).Counts := by
      by_cases hzero : size = 0
      · rw [if_pos hzero]
        intro n hn
        cases hn
      · rw [if_neg hzero]
        exact data_counts hsmall
    by_cases hlegal : e = 10 ∧ ∃ n, SizeLine line n
    · obtain ⟨he, n, hsize⟩ := hlegal
      obtain ⟨hbare, rfl⟩ := chunkSize_legal hsize hread
      exact .bare he hsize hbare hsmall
    · have hlen : (line ++ [13, e]).length = line.length + 2 := List.length_append
      rw [← hlen] at hstep
      exact absurd (.size hcr hlegal) (h.not_bad hcounts hstep)

theorem Agrees.plainData {bytes : Bytes} {x y : UInt8}
    (h : Agrees m (.data bytes.length) data (bytes ++ [x, y])) (hsmall : bytes.length + 2 < word) :
    x = 13 ∧ y = 10 := by
  by_contra hother
  have hstep : decode .debug reference (coded m (some (.data bytes.length), data))
      (bytes ++ [x, y]) = _ := decode_skip bytes hsmall x y []
  have hlen : (bytes ++ [x, y]).length = bytes.length + 2 := List.length_append
  rw [← hlen] at hstep
  have hcounts : ChunkState.size.Counts := fun n hn => by cases hn
  exact h.not_bad hcounts hstep (.data bytes hother)

theorem Agrees.plainTrailer (h : Agrees m .trailers data (line ++ [13, e])) (hcr : 13 ∉ line) :
    e = 10 ∧ (line = [] ∨ TrailerLine line) := by
  by_contra hillegal
  have hbad : BadItem .trailers (line ++ [13, e]) := .trailer hcr hillegal
  by_cases hempty : line = []
  · subst hempty
    have hlast : decode .debug reference (coded m (some .trailers, data)) [13, e] =
        .advance 2 m.finished [(m.pushBody data).response] := rfl
    obtain ⟨t, ys, hfail⟩ := (h.breaks .debug).mpr ⟨_, _, .refl _ _, strict_bad hbad data⟩
    exact (Steps.single hlast).out_not_fails hfail
  · have hstep : decode .debug reference (coded m (some .trailers, data)) (line ++ [13, e]) = _ :=
      decode_trailer hcr hempty e []
    have hlen : (line ++ [13, e]).length = line.length + 2 := List.length_append
    rw [← hlen] at hstep
    have hcounts : ChunkState.trailers.Counts := fun n hn => by cases hn
    exact h.not_bad hcounts hstep hbad

theorem plainAt_of_agrees (hcounts : c.Counts)
    (h : ∀ front, front <+: input → Agrees m c data front) : PlainAt c input := by
  have hfront : ∀ (bytes : Bytes) (x y : UInt8) (rest : Bytes),
      bytes ++ [x, y] <+: bytes ++ x :: y :: rest := fun bytes x y rest =>
    ⟨rest, List.append_assoc _ _ _⟩
  cases c with
  | size =>
    rintro line e rest rfl hcr
    exact (h _ (hfront line 13 e rest)).plainLine hcr
  | data n =>
    rintro bytes x y rest rfl rfl
    exact (h _ (hfront bytes x y rest)).plainData (hcounts _ rfl)
  | trailers =>
    rintro line e rest rfl hcr
    exact (h _ (hfront line 13 e rest)).plainTrailer hcr

theorem InStep.start (hstate : m.state = .chunked .size) : InStep m input .size [] input := by
  refine ⟨⟨[], rfl, fun rest => .refl _ _, fun build rest => ?_⟩, fun n hn => by cases hn⟩
  rw [ResponseFramer.coded_start hstate]
  exact .refl _ _

theorem InStep.next (h : InStep m input c data (item ++ rest)) (hplain : PlainAt c (item ++ rest))
    (hitem : Item data c item (some c', data') []) : InStep m input c' data' rest := by
  obtain ⟨cut, rfl, hstrict, hdecode⟩ := h.reached
  refine ⟨⟨cut ++ item, (List.append_assoc _ _ _).symm, fun ys => ?_, fun build ys => ?_⟩,
    hitem.counts hplain rfl⟩
  · rw [List.append_assoc]
    exact (hstrict (item ++ ys)).trans (steps_item hitem ys)
  · have hitem' : decode build reference (coded m (some c, data)) (item ++ ys) = _ :=
      decode_item hitem hplain.of_item h.counts ys
    rw [List.append_assoc]
    exact (hdecode build (item ++ ys)).trans (.over hitem')

end Parting

namespace ResponseFramer

section Parting
variable {build : Build} {m : Message} {c : ChunkState} {front input data ys : Bytes}

theorem standing_run (hstate : m.state = .chunked .size)
    (hlength : (front ++ input).length ≤ vecMax) :
    ChunkRun build reference (standing m front input)
      (frameChunked build (standing m front input).turns (standing m front input)) := by
  have hsized : (standing m front input).Sized := by
    intro n hn
    exact absurd (hstate.symm.trans hn) (by simp)
  exact frameChunked_run reference_lawful (standing_fits hlength) hsized hstate
    (standing m front input).work_lt_turns

theorem breaks_iff_of_run {f : ResponseFramer} {result : Except Fault (Outcome (Option Response))}
    (h : ChunkRun build reference f result) :
    (∃ f', result = .ok (.error .badResponse, f')) ↔
      ∃ t zs, Fails (decode build reference) f.toMessage f.rest [] t zs (.frame .badResponse) := by
  cases h with
  | waits hd =>
    constructor
    · rintro ⟨f', hf⟩
      cases hf
    · rintro ⟨t, zs, hfail⟩
      exact (hd.not_fails hfail).elim
  | completes hsteps _ =>
    constructor
    · rintro ⟨f', hf⟩
      cases hf
    · rintro ⟨t, zs, hfail⟩
      exact (hsteps.out_not_fails hfail).elim
  | breaks hfail =>
    constructor
    · rintro ⟨f', hf⟩
      cases hf
      exact ⟨_, _, hfail⟩
    · rintro ⟨t, zs, hfail'⟩
      cases (hfail.unique hfail').2
      exact ⟨_, rfl⟩
  | faults hfail =>
    constructor
    · rintro ⟨f', hf⟩
      cases hf
    · rintro ⟨t, zs, hfail'⟩
      cases (hfail.unique hfail').2

theorem run_breaks_iff (hstate : m.state = .chunked .size)
    (hlength : (front ++ input).length ≤ vecMax) :
    (∃ f, frameChunked build (standing m front input).turns (standing m front input) =
      .ok (.error .badResponse, f)) ↔
    ∃ t zs, Fails (decode build reference) m input [] t zs (.frame .badResponse) := by
  have hrest : (standing m front input).rest = input := standing_rest
  rw [breaks_iff_of_run (standing_run hstate hlength), hrest]
  rfl

theorem run_not_faults (hstate : m.state = .chunked .size)
    (hlength : (front ++ input).length ≤ vecMax) {result : Outcome (Option Response)}
    (h : frameChunked build (standing m front input).turns (standing m front input) = .ok result)
    (t : Message) (zs : Bytes) (fault : Fault) :
    ¬ Fails (decode build reference) m input [] t zs (.fault fault) := by
  intro hfault
  have hrest : (standing m front input).rest = input := standing_rest
  have hrun : ChunkRun build reference (standing m front input) _ := standing_run hstate hlength
  rw [h] at hrun
  rw [← hrest] at hfault
  cases hrun with
  | waits hd => exact hd.not_fails hfault
  | completes hsteps _ => exact hsteps.out_not_fails hfault
  | breaks hfail => cases (hfail.unique hfault).2

theorem agrees_of_takes (hstate : m.state = .chunked .size)
    (hlength : (front ++ input).length ≤ vecMax) (hin : InStep m input c data ys)
    (h : ∀ (build : Build) (arrived : Bytes), arrived <+: input →
      TakesCoding build m front arrived)
    {pre : Bytes} (hpre : pre <+: ys) : Agrees m c data pre := by
  obtain ⟨cut, rfl, hstrict, hdecode⟩ := hin.reached
  have harrived : cut ++ pre <+: cut ++ ys := (List.prefix_append_right_inj cut).mpr hpre
  have hshort : (front ++ (cut ++ pre)).length ≤ vecMax := by
    have hle := harrived.length_le
    rw [List.length_append] at hlength ⊢
    omega
  constructor
  · intro build
    have htakes := h build _ harrived
    calc (∃ t zs, Fails (decode build reference) (coded m (some c, data)) pre [] t zs
          (.frame .badResponse))
        ↔ ∃ t zs, Fails (decode build reference) m (cut ++ pre) [] t zs (.frame .badResponse) :=
          exists_congr fun t => exists_congr fun zs => (hdecode build pre).fails_iff
      _ ↔ _ := (run_breaks_iff hstate hshort).symm
      _ ↔ Breaks (cut ++ pre) := htakes.rejects
      _ ↔ _ := strict_breaks_iff.symm
      _ ↔ ∃ t zs, Fails strict (some c, data) pre [] t zs (.frame .badResponse) :=
          exists_congr fun t => exists_congr fun zs => (hstrict pre).fails_iff.symm
  · intro build t zs fault hfault
    obtain ⟨result, f, hresult⟩ := (h build _ harrived).returns
    exact run_not_faults hstate hshort hresult t zs fault ((hdecode build pre).fails_iff.mp hfault)

theorem plain_of_takes (hstate : m.state = .chunked .size)
    (hlength : (front ++ input).length ≤ vecMax)
    (h : ∀ (build : Build) (arrived : Bytes), arrived <+: input →
      TakesCoding build m front arrived) : PlainCoding input := by
  have hplain : ∀ {c : ChunkState} {data ys : Bytes}, InStep m input c data ys → PlainAt c ys := by
    intro c data ys hin
    exact plainAt_of_agrees hin.counts fun pre hpre => agrees_of_takes hstate hlength hin h hpre
  intro c data ys hsteps
  have hinstep : ∀ c' data', (some c, data) = (some c', data') → InStep m input c' data' ys := by
    refine hsteps.invariant
      (P := fun s zs => ∀ c' data', s = (some c', data') → InStep m input c' data' zs) ?_ ?_
    · rintro ⟨c₀, data₀⟩ xs n t out hs hadvance c' data' rfl
      cases c₀ with
      | none => cases hadvance
      | some c₀ =>
        obtain ⟨item, rest, rfl, rfl, hitem⟩ := item_of_strict hadvance
        rw [List.drop_left]
        have hin := hs c₀ data₀ rfl
        rcases hitem.goes_on with ⟨rfl, _⟩ | ⟨_, _, hover⟩
        · exact hin.next (hplain hin) hitem
        · cases hover
    · rintro c' data' hsame
      cases hsame
      exact .start hstate
  exact hplain (hinstep c data rfl)

/-- However its bytes arrive, the chunk loop accepts exactly the bodies of the grammar, with
their data, and rejects exactly what breaks the grammar, as long as the bytes are plain and
no longer. -/
theorem takesCoding_iff (hstate : m.state = .chunked .size)
    (hlength : (front ++ input).length ≤ vecMax) :
    (∀ (build : Build) (arrived : Bytes), arrived <+: input →
      TakesCoding build m front arrived) ↔ PlainCoding input := by
  constructor
  · exact plain_of_takes hstate hlength
  · rintro hplain build arrived ⟨more, rfl⟩
    apply takesCoding_of_plain hstate
    · simp only [List.length_append] at hlength ⊢
      omega
    · exact hplain.front

end Parting

def openedMessage : Message where
  state := .chunked .size
  capture := true
  status := 200
  messageKeepAlive := true
  headers := []
  body := []

def openingHead : Bytes := ascii "HTTP/1.1 200 X\r\nTransfer-Encoding: chunked\r\n\r\n"

def plainBody : Bytes := ascii "5\r\nhello\r\n0\r\nA: b\r\n\r\n"

theorem takesCoding_iff_sample :
    (∀ (build : Build) (arrived : Bytes), arrived <+: plainBody →
      TakesCoding build openedMessage openingHead arrived) ↔ PlainCoding plainBody :=
  takesCoding_iff rfl (by decide)

def extendedBody : Bytes := ascii "5;a\r\nhello\r\n0\r\n\r\n"

theorem extendedBody_legal : ChunkedBody extendedBody (ascii "hello") := by
  have hfive : SizeLine (ascii "5;a") 5 :=
    @SizeLine.extended ['5'] [97] (by decide) (by decide) (by decide)
  have hzero : SizeLine (ascii "0") 0 := @SizeLine.bare ['0'] (by decide) (by decide)
  have hlast : ChunkedBody (ascii "0\r\n\r\n") [] := .last hzero (List.forall_mem_nil _)
  exact @ChunkedBody.chunk _ (ascii "hello") _ _ hfive (by decide) hlast

def looseBody : Bytes := ascii "+5\r\nhelloXX0\r\n\r\n"

theorem looseBody_breaks : Breaks looseBody := by
  have hillegal : ¬ ((10 : UInt8) = 10 ∧ ∃ n, SizeLine (ascii "+5") n) := by
    rintro ⟨_, n, hsize⟩
    have hnone : strictSize (ascii "+5") = none := by decide
    rw [(strictSize_iff (by decide)).mpr hsize] at hnone
    cases hnone
  exact @Breaks.size _ (ascii "helloXX0\r\n\r\n") _ (by decide) hillegal

/-- The framer refuses a legal body with an extension, and completes a message on a size with
a sign and with no CRLF behind its data. -/
theorem chunked_coding_missed :
    ChunkedBody extendedBody (ascii "hello") ∧
      (∃ f, frameChunked .release (standing openedMessage openingHead extendedBody).turns
        (standing openedMessage openingHead extendedBody) = .ok (.error .badResponse, f)) ∧
      ¬ TakesCoding .release openedMessage openingHead extendedBody ∧
    Breaks looseBody ∧
      (∃ r f, frameChunked .release (standing openedMessage openingHead looseBody).turns
        (standing openedMessage openingHead looseBody) = .ok (.ok (some r), f)) ∧
      ¬ TakesCoding .release openedMessage openingHead looseBody := by
  have hrefused : ∃ f, frameChunked .release
      (standing openedMessage openingHead extendedBody).turns
      (standing openedMessage openingHead extendedBody) = .ok (.error .badResponse, f) :=
    ⟨_, rfl⟩
  have hcompleted : ∃ r f, frameChunked .release
      (standing openedMessage openingHead looseBody).turns
      (standing openedMessage openingHead looseBody) = .ok (.ok (some r), f) :=
    ⟨_, _, rfl⟩
  refine ⟨extendedBody_legal, hrefused, ?_, looseBody_breaks, hcompleted, ?_⟩
  · intro htakes
    obtain ⟨f, hf, _⟩ := (htakes.completes _ _).mpr
      ⟨extendedBody, [], _, (List.append_nil _).symm, rfl, extendedBody_legal, rfl⟩
    obtain ⟨g, hg⟩ := hrefused
    rw [hg] at hf
    cases hf
  · intro htakes
    obtain ⟨f, hf⟩ := htakes.rejects.mpr looseBody_breaks
    obtain ⟨r, g, hg⟩ := hcompleted
    rw [hg] at hf
    cases hf

end ResponseFramer

end Wrkrs
