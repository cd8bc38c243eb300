import Wrkrs.FramerRoundTrip

/-!
# The chunked coding

The strict grammar of a chunked body: chunks with extensions, a zero chunk and trailer
fields, every line and every chunk's data ended by CRLF. `strict` is the decoder of that
grammar over bytes that arrive, one complete item at a time.
-/

namespace Wrkrs

set_option autoImplicit false
set_option maxRecDepth 4096

open Text Machine Incremental

/-- A chunk size line without its CRLF: hexadecimal digits, and whatever a semicolon opens. -/
inductive SizeLine : Bytes → Nat → Prop where
  | bare {digits : Str} : digits ≠ [] → AllDigits 16 digits →
      SizeLine (encode digits) (digitsValue 16 0 digits)
  | extended {digits : Str} {extension : Bytes} : digits ≠ [] → AllDigits 16 digits →
      13 ∉ extension → SizeLine (encode digits ++ 59 :: extension) (digitsValue 16 0 digits)

def TrailerLine (line : Bytes) : Prop := (headerLine line).isSome = true

instance (line : Bytes) : Decidable (TrailerLine line) :=
  inferInstanceAs (Decidable ((headerLine line).isSome = true))

/-- The bytes of a chunked body, and its data. -/
inductive ChunkedBody : Bytes → Bytes → Prop where
  | chunk {line data rest body : Bytes} : SizeLine line data.length → data ≠ [] →
      ChunkedBody rest body →
      ChunkedBody (line ++ crlf ++ (data ++ crlf ++ rest)) (data ++ body)
  | last {line : Bytes} {trailers : List Bytes} : SizeLine line 0 →
      (∀ trailer ∈ trailers, TrailerLine trailer) →
      ChunkedBody (line ++ crlf ++ (trailers.flatMap (· ++ crlf) ++ crlf)) []

/-- A complete line or the two bytes behind a chunk's data, after a legal beginning, are not
what the grammar has there. A line is complete with the byte after its CR. -/
inductive Breaks : Bytes → Prop where
  | size {line rest : Bytes} {e : UInt8} : 13 ∉ line → ¬ (e = 10 ∧ ∃ n, SizeLine line n) →
      Breaks (line ++ 13 :: e :: rest)
  | data {line data rest : Bytes} {x y : UInt8} : SizeLine line data.length → data ≠ [] →
      ¬ (x = 13 ∧ y = 10) → Breaks (line ++ crlf ++ (data ++ x :: y :: rest))
  | chunk {line data rest : Bytes} : SizeLine line data.length → data ≠ [] → Breaks rest →
      Breaks (line ++ crlf ++ (data ++ crlf ++ rest))
  | trailer {line trailer rest : Bytes} {trailers : List Bytes} {e : UInt8} : SizeLine line 0 →
      (∀ trailer ∈ trailers, TrailerLine trailer) → 13 ∉ trailer →
      ¬ (e = 10 ∧ (trailer = [] ∨ TrailerLine trailer)) →
      Breaks (line ++ crlf ++ (trailers.flatMap (· ++ crlf) ++ (trailer ++ 13 :: e :: rest)))

theorem byte_ofNat (b : UInt8) : byte (Char.ofNat b.toNat) = b := by
  have hlt := b.toNat_lt
  have hvalid : b.toNat.isValidChar := .inl (by omega)
  have hnat : (Char.ofNat b.toNat).toNat = b.toNat := by
    rw [Char.ofNat, dif_pos hvalid]
    rfl
  rw [byte, hnat, UInt8.ofNat_toNat]

theorem hex_plain {digits : Str} (h : AllDigits 16 digits) :
    ∀ b ∈ encode digits, b ≠ 59 ∧ b ≠ 13 := by
  rw [encode_ascii fun c hc => (toDigit_hex (h c hc)).1]
  intro b hb
  obtain ⟨c, hc, rfl⟩ := List.mem_map.mp hb
  obtain ⟨hlt, _, hcr⟩ := toDigit_hex (h c hc)
  have hn : (byte c).toNat = c.toNat := toNat_byte_ascii hlt
  constructor
  · intro hsemi
    have hc59 : c = ';' := by
      apply char_eq_ofNat (n := 59) _ |>.symm
      rw [← hn, hsemi]
      rfl
    have hdigit := h c hc
    rw [hc59] at hdigit
    cases hdigit
  · intro h13
    rw [h13] at hn
    exact hcr hn.symm

theorem encode_digits {digits : Str} (h : AllDigits 16 digits) :
    (encode digits).map (fun b => Char.ofNat b.toNat) = digits := by
  have hascii : Ascii digits := fun c hc => (toDigit_hex (h c hc)).1
  rw [encode_ascii hascii, List.map_map]
  refine (List.map_congr_left ?_).trans (List.map_id _)
  intro c hc
  exact char_eq_ofNat (toNat_byte_ascii (hascii c hc)).symm

theorem SizeLine.plain {line : Bytes} {n : Nat} (h : SizeLine line n) : 13 ∉ line := by
  cases h with
  | bare _ hdigits => exact fun hcr => (hex_plain hdigits 13 hcr).2 rfl
  | extended _ hdigits hext =>
    intro hcr
    rcases List.mem_append.mp hcr with hfront | hback
    · exact (hex_plain hdigits 13 hfront).2 rfl
    · rcases List.mem_cons.mp hback with h59 | hmem
      · cases h59
      · exact hext hmem

theorem TrailerLine.plain {line : Bytes} (h : TrailerLine line) : line ≠ [] ∧ 13 ∉ line := by
  unfold TrailerLine headerLine at h
  rw [List.span_eq_takeWhile_dropWhile] at h
  have hjoin := List.takeWhile_append_dropWhile (p := (· != 58)) (l := line)
  generalize line.takeWhile (· != 58) = name at h hjoin
  generalize line.dropWhile (· != 58) = tail at h hjoin
  split at h
  · rename_i name' value heq
    obtain ⟨rfl, rfl⟩ := Prod.mk.inj heq
    by_cases hfield : name ≠ [] ∧ name.all isTokenByte = true ∧ value.all isValueByte = true
    · obtain ⟨hne, htoken, hvalue⟩ := hfield
      rw [← hjoin]
      refine ⟨fun hnil => hne (List.append_eq_nil_iff.mp hnil).1, ?_⟩
      intro hcr
      rcases List.mem_append.mp hcr with hname | htail
      · exact (isTokenByte_ne (List.all_eq_true.mp htoken 13 hname)).2 rfl
      · rcases List.mem_cons.mp htail with h58 | hmem
        · cases h58
        · exact isValueByte_ne (List.all_eq_true.mp hvalue 13 hmem) rfl
    · rw [if_neg hfield] at h
      cases h
  · cases h

def strictSize (line : Bytes) : Option Nat :=
  let digits := (line.takeWhile (· != 59)).map fun b => Char.ofNat b.toNat
  if digits ≠ [] ∧ AllDigits 16 digits then some (digitsValue 16 0 digits) else none

theorem strictSize_digits {digits : Str} (hne : digits ≠ []) (h : AllDigits 16 digits)
    (tail : Bytes) (htail : ∀ b ∈ tail.head?, b = 59) :
    strictSize (encode digits ++ tail) = some (digitsValue 16 0 digits) := by
  have hfront : ∀ b ∈ encode digits, (b != 59) = true := fun b hb => by
    simpa using (hex_plain h b hb).1
  have hback : tail.takeWhile (· != 59) = [] := by
    cases tail with
    | nil => rfl
    | cons b bs =>
      obtain rfl := htail b rfl
      rfl
  unfold strictSize
  rw [List.takeWhile_append_of_pos hfront, hback, List.append_nil, encode_digits h]
  exact if_pos ⟨hne, h⟩

theorem strictSize_iff {line : Bytes} {n : Nat} (hline : 13 ∉ line) :
    strictSize line = some n ↔ SizeLine line n := by
  constructor
  · intro h
    unfold strictSize at h
    have hjoin := List.takeWhile_append_dropWhile (p := (· != 59)) (l := line)
    have hhead := List.head?_dropWhile_not (p := (· != 59)) (l := line)
    generalize hfront : line.takeWhile (· != 59) = front at h hjoin
    generalize line.dropWhile (· != 59) = tail at hjoin hhead
    dsimp only at h
    split at h
    · rename_i hdigits
      obtain ⟨hne, hall⟩ := hdigits
      have hencode : encode (front.map fun b => Char.ofNat b.toNat) = front := by
        rw [encode_ascii fun c hc => (toDigit_hex (hall c hc)).1, List.map_map]
        exact (List.map_congr_left fun b _ => byte_ofNat b).trans (List.map_id _)
      have hfrontne : (front.map fun b => Char.ofNat b.toNat) ≠ [] := hne
      obtain rfl := Option.some.inj h
      cases tail with
      | nil =>
        rw [← hjoin, List.append_nil]
        have hbare := SizeLine.bare hfrontne hall
        rwa [hencode] at hbare
      | cons b extension =>
        have hb : b = 59 := by simpa using hhead
        subst hb
        rw [← hjoin] at hline ⊢
        have hext : 13 ∉ extension := fun hcr =>
          hline (List.mem_append_right front (List.mem_cons_of_mem 59 hcr))
        have hextended := SizeLine.extended hfrontne hall hext
        rwa [hencode] at hextended
    · cases h
  · intro h
    cases h with
    | bare hne hdigits =>
      have hread := strictSize_digits hne hdigits [] (by intro b hb; cases hb)
      rwa [List.append_nil] at hread
    | extended hne hdigits _ =>
      apply strictSize_digits hne hdigits
      intro b hb
      exact (Option.mem_some.mp hb).symm

theorem line_unique {line line' rest rest' : Bytes} {e e' : UInt8} (h : 13 ∉ line)
    (h' : 13 ∉ line') (heq : line ++ 13 :: e :: rest = line' ++ 13 :: e' :: rest') :
    line = line' ∧ e = e' := by
  have hends := lineIn_ends h e rest
  rw [heq, lineIn_ends h' e' rest'] at hends
  obtain ⟨hline, htail⟩ := List.append_inj heq (Option.some.inj hends).symm
  exact ⟨hline, (List.cons.inj (List.cons.inj htail).2).1⟩

theorem lineIn_some {input : Bytes} {n : Nat} (h : lineIn input = some n) :
    ∃ line e rest, input = line ++ 13 :: e :: rest ∧ 13 ∉ line ∧ line.length = n := by
  obtain ⟨i, hi, hif⟩ := Option.bind_eq_some_iff.mp h
  split at hif
  · rename_i hlen
    obtain rfl := Option.some.inj hif
    obtain ⟨hlt, hcr, hbefore⟩ := List.findIdx?_eq_some_iff_getElem.mp hi
    have hcr' : input[i] = 13 := by simpa using hcr
    refine ⟨input.take i, input[i + 1], input.drop (i + 2), ?_, ?_, ?_⟩
    · rw [← hcr', List.getElem_cons_drop, List.getElem_cons_drop, List.take_append_drop]
    · intro hmem
      obtain ⟨j, hj, heq⟩ := List.mem_take_iff_getElem.mp hmem
      have hbad := hbefore j (by omega)
      rw [heq] at hbad
      exact hbad rfl
    · rw [List.length_take]
      omega
  · cases hif

/-- Where the grammar stands, nowhere behind the body, and the data so far. -/
abbrev Coding := Option ChunkState × Bytes

def strict : Decoder UInt8 Coding Bytes Stop
  | (some .size, data), input =>
    match lineIn input with
    | none => .wait
    | some n =>
      match if input[n + 1]? = some 10 then strictSize (input.take n) else none with
      | none => .fail (.frame .badResponse)
      | some size => .advance (n + 2) (some (if size = 0 then .trailers else .data size), data) []
  | (some (.data n), data), input =>
    if input.length < n + 2 then .wait
    else if (input.drop n).take 2 = crlf then .advance (n + 2) (some .size, data ++ input.take n) []
    else .fail (.frame .badResponse)
  | (some .trailers, data), input =>
    match lineIn input with
    | none => .wait
    | some n =>
      if input[n + 1]? = some 10 ∧ n = 0 then .advance 2 (none, []) [data]
      else if input[n + 1]? = some 10 ∧ TrailerLine (input.take n) then
        .advance (n + 2) (some .trailers, data) []
      else .fail (.frame .badResponse)
  | (none, _), _ => .wait

/-- An item of the grammar, where the grammar stands behind it and the body it completes. -/
inductive Item (data : Bytes) : ChunkState → Bytes → Coding → List Bytes → Prop where
  | size {line : Bytes} {n : Nat} : SizeLine line n →
      Item data .size (line ++ crlf) (some (if n = 0 then .trailers else .data n), data) []
  | data (bytes : Bytes) :
      Item data (.data bytes.length) (bytes ++ crlf) (some .size, data ++ bytes) []
  | trailer {line : Bytes} : TrailerLine line →
      Item data .trailers (line ++ crlf) (some .trailers, data) []
  | last : Item data .trailers crlf (none, []) [data]

/-- A complete item that the grammar does not have there. -/
inductive BadItem : ChunkState → Bytes → Prop where
  | size {line rest : Bytes} {e : UInt8} : 13 ∉ line → ¬ (e = 10 ∧ ∃ n, SizeLine line n) →
      BadItem .size (line ++ 13 :: e :: rest)
  | data (bytes : Bytes) {rest : Bytes} {x y : UInt8} : ¬ (x = 13 ∧ y = 10) →
      BadItem (.data bytes.length) (bytes ++ x :: y :: rest)
  | trailer {line rest : Bytes} {e : UInt8} : 13 ∉ line →
      ¬ (e = 10 ∧ (line = [] ∨ TrailerLine line)) → BadItem .trailers (line ++ 13 :: e :: rest)

section Items
variable {c : ChunkState} {data input item : Bytes} {t : Coding} {out : List Bytes}

theorem crlf_append (line rest : Bytes) : line ++ crlf ++ rest = line ++ 13 :: 10 :: rest := by
  rw [List.append_assoc]
  rfl

theorem after_line (line rest : Bytes) (e : UInt8) :
    (line ++ 13 :: e :: rest)[line.length + 1]? = some e := by
  rw [List.getElem?_append_right (Nat.le_add_right _ _), Nat.add_sub_cancel_left]
  rfl

theorem strict_item (h : Item data c item t out) (rest : Bytes) :
    strict (some c, data) (item ++ rest) = .advance item.length t out := by
  cases h with
  | @size line n hsize =>
    rw [crlf_append]
    simp only [strict, lineIn_ends hsize.plain, after_line, if_true, List.take_left,
      (strictSize_iff hsize.plain).mpr hsize]
    rw [List.length_append]
    rfl
  | data bytes =>
    have hlong : ¬ (bytes ++ crlf ++ rest).length < bytes.length + 2 := by
      simp only [List.length_append, crlf, List.length_cons, List.length_nil]
      omega
    rw [crlf_append] at hlong ⊢
    simp only [strict, if_neg hlong, List.drop_left, List.take_left]
    rw [List.length_append]
    rfl
  | @trailer line hline =>
    obtain ⟨hne, hcr⟩ := hline.plain
    have hlen : line.length ≠ 0 := fun h => hne (List.length_eq_zero_iff.mp h)
    rw [crlf_append]
    simp only [strict, lineIn_ends hcr, after_line, List.take_left, hlen, hline, and_false,
      and_true, if_false, if_true]
    rw [List.length_append]
    rfl
  | last => rfl

theorem strict_bad (h : BadItem c input) (data : Bytes) :
    strict (some c, data) input = .fail (.frame .badResponse) := by
  cases h with
  | @size line rest e hcr hbad =>
    have hnone : (if some e = some 10 then strictSize line else none) = none := by
      by_cases he : e = 10
      · rw [if_pos (congrArg some he)]
        cases hsize : strictSize line with
        | none => rfl
        | some n => exact absurd ⟨he, n, (strictSize_iff hcr).mp hsize⟩ hbad
      · rw [if_neg fun h => he (Option.some.inj h)]
    simp only [strict, lineIn_ends hcr, after_line, List.take_left, hnone]
  | @data bytes rest x y hbad =>
    have hlong : ¬ (bytes ++ x :: y :: rest).length < bytes.length + 2 := by
      simp only [List.length_append, List.length_cons]
      omega
    have hother : ¬ [x, y] = crlf := by
      intro heq
      obtain ⟨hx, hrest⟩ := List.cons.inj heq
      exact hbad ⟨hx, (List.cons.inj hrest).1⟩
    simp only [strict, if_neg hlong, List.drop_left]
    exact if_neg hother
  | @trailer line rest e hcr hbad =>
    have hlast : ¬ (some e = some 10 ∧ line.length = 0) := fun h =>
      hbad ⟨Option.some.inj h.1, .inl (List.length_eq_zero_iff.mp h.2)⟩
    have hfield : ¬ (some e = some 10 ∧ TrailerLine line) := fun h =>
      hbad ⟨Option.some.inj h.1, .inr h.2⟩
    simp only [strict, lineIn_ends hcr, after_line, List.take_left, if_neg hlast, if_neg hfield]

theorem strict_cases (c : ChunkState) (data input : Bytes) :
    strict (some c, data) input = .wait ∨
      (∃ item rest t out, input = item ++ rest ∧ Item data c item t out) ∨ BadItem c input := by
  cases c with
  | size =>
    cases hline : lineIn input with
    | none =>
      left
      simp only [strict, hline]
    | some n =>
      right
      obtain ⟨line, e, rest, rfl, hcr, rfl⟩ := lineIn_some hline
      by_cases hlegal : e = 10 ∧ ∃ n, SizeLine line n
      · obtain ⟨rfl, n, hsize⟩ := hlegal
        exact .inl ⟨_, rest, _, _, (crlf_append line rest).symm, .size hsize⟩
      · exact .inr (.size hcr hlegal)
  | data n =>
    by_cases hshort : input.length < n + 2
    · left
      simp only [strict, if_pos hshort]
    · right
      obtain ⟨bytes, tail, rfl, rfl⟩ : ∃ bytes tail, input = bytes ++ tail ∧ bytes.length = n :=
        ⟨input.take n, input.drop n, (List.take_append_drop n input).symm, by
          rw [List.length_take]
          omega⟩
      rw [List.length_append] at hshort
      match tail with
      | [] => simp at hshort
      | [_] => simp at hshort
      | x :: y :: rest =>
        by_cases hlegal : x = 13 ∧ y = 10
        · obtain ⟨rfl, rfl⟩ := hlegal
          exact .inl ⟨_, rest, _, _, (crlf_append bytes rest).symm, .data bytes⟩
        · exact .inr (.data bytes hlegal)
  | trailers =>
    cases hline : lineIn input with
    | none =>
      left
      simp only [strict, hline]
    | some n =>
      right
      obtain ⟨line, e, rest, rfl, hcr, rfl⟩ := lineIn_some hline
      by_cases hlegal : e = 10 ∧ (line = [] ∨ TrailerLine line)
      · obtain ⟨rfl, rfl | hfield⟩ := hlegal
        · exact .inl ⟨crlf, rest, _, _, rfl, .last⟩
        · exact .inl ⟨_, rest, _, _, (crlf_append line rest).symm, .trailer hfield⟩
      · exact .inr (.trailer hcr hlegal)

theorem item_of_strict {n : Nat} (h : strict (some c, data) input = .advance n t out) :
    ∃ item rest, input = item ++ rest ∧ item.length = n ∧ Item data c item t out := by
  rcases strict_cases c data input with hwait | ⟨item, rest, t', out', rfl, hitem⟩ | hbad
  · rw [hwait] at h
    cases h
  · rw [strict_item hitem rest] at h
    obtain ⟨hlen, rfl, rfl⟩ := Attempt.advance.inj h
    exact ⟨item, rest, rfl, hlen, hitem⟩
  · rw [strict_bad hbad] at h
    cases h

theorem bad_of_strict {stop : Stop} (h : strict (some c, data) input = .fail stop) :
    stop = .frame .badResponse ∧ BadItem c input := by
  rcases strict_cases c data input with hwait | ⟨item, rest, t', out', rfl, hitem⟩ | hbad
  · rw [hwait] at h
    cases h
  · rw [strict_item hitem rest] at h
    cases h
  · rw [strict_bad hbad] at h
    exact ⟨(Attempt.fail.inj h).symm, hbad⟩

end Items

section Grammar
variable {c : ChunkState} {data body input front rest : Bytes} {t : Coding} {outs : List Bytes}

/-- What completes a body from where the grammar stands. -/
def Completes (data : Bytes) : ChunkState → Bytes → Bytes → Prop
  | .size, bytes, body => ∃ tail, ChunkedBody bytes tail ∧ body = data ++ tail
  | .data n, bytes, body => ∃ chunk rest tail, chunk.length = n ∧ bytes = chunk ++ crlf ++ rest ∧
      ChunkedBody rest tail ∧ body = data ++ chunk ++ tail
  | .trailers, bytes, body => body = data ∧ ∃ trailers : List Bytes,
      (∀ trailer ∈ trailers, TrailerLine trailer) ∧ bytes = trailers.flatMap (· ++ crlf) ++ crlf

def BreaksFrom : ChunkState → Bytes → Prop
  | .size, bytes => Breaks bytes
  | .data n, bytes => ∀ line : Bytes, SizeLine line n → n ≠ 0 → Breaks (line ++ crlf ++ bytes)
  | .trailers, bytes => ∀ (line : Bytes) (trailers : List Bytes), SizeLine line 0 →
      (∀ trailer ∈ trailers, TrailerLine trailer) →
      Breaks (line ++ crlf ++ (trailers.flatMap (· ++ crlf) ++ bytes))

theorem steps_item (h : Item data c front t outs) (rest : Bytes) :
    Steps strict (some c, data) (front ++ rest) outs t rest :=
  .over (strict_item h rest)

theorem strict_trailers {trailers : List Bytes}
    (h : ∀ trailer ∈ trailers, TrailerLine trailer) (data rest : Bytes) :
    Steps strict (some .trailers, data) (trailers.flatMap (· ++ crlf) ++ rest) []
      (some .trailers, data) rest := by
  induction trailers with
  | nil => exact .refl _ _
  | cons trailer trailers ih =>
    have hrest := ih fun l hl => h l (List.mem_cons_of_mem trailer hl)
    rw [List.flatMap_cons, List.append_assoc]
    exact (steps_item (.trailer (h trailer List.mem_cons_self)) _).trans hrest

theorem strict_size {line : Bytes} {n : Nat} (h : SizeLine line n) (hn : n ≠ 0) (rest : Bytes) :
    Steps strict (some .size, data) (line ++ crlf ++ rest) [] (some (.data n), data) rest := by
  have hstep := steps_item (.size h : Item data _ _ _ _) rest
  rwa [if_neg hn] at hstep

theorem strict_zero {line : Bytes} (h : SizeLine line 0) (data rest : Bytes) :
    Steps strict (some .size, data) (line ++ crlf ++ rest) [] (some .trailers, data) rest :=
  steps_item (.size h : Item data _ _ _ _) rest

theorem strict_chunk {line chunk : Bytes} (h : SizeLine line chunk.length) (hne : chunk ≠ [])
    (data rest : Bytes) :
    Steps strict (some .size, data) (line ++ crlf ++ (chunk ++ crlf ++ rest)) []
      (some .size, data ++ chunk) rest := by
  have hpos : chunk.length ≠ 0 := fun hzero => hne (List.length_eq_zero_iff.mp hzero)
  exact (strict_size h hpos _).trans (steps_item (.data chunk) rest)

theorem strict_body (h : ChunkedBody front body) (data rest : Bytes) :
    Steps strict (some .size, data) (front ++ rest) [data ++ body] (none, []) rest := by
  induction h generalizing data with
  | @chunk line chunk bytes tail hsize hne _ ih =>
    have hfirst := strict_chunk hsize hne data (bytes ++ rest)
    have hrest := ih (data ++ chunk)
    simp only [List.append_assoc] at hfirst hrest ⊢
    exact hfirst.trans hrest
  | @last line trailers hsize htrailers =>
    have hfirst := strict_zero hsize data (trailers.flatMap (· ++ crlf) ++ (crlf ++ rest))
    have hfields := strict_trailers htrailers data (crlf ++ rest)
    have hlast := steps_item (.last : Item data _ _ _ _) rest
    rw [List.append_nil]
    simp only [List.append_assoc] at hfirst hfields ⊢
    exact hfirst.trans (hfields.trans hlast)

theorem strict_over (h : Steps strict (none, data) input outs t rest) :
    outs = [] ∧ t = (none, data) ∧ rest = input :=
  h.eq_of_halted (halted_of_wait rfl)

theorem completes_of_steps {s : Coding} (h : Steps strict s input outs t rest)
    (hs : s = (some c, data)) (ht : t.1 = none) :
    ∃ bytes body, input = bytes ++ rest ∧ outs = [body] ∧ Completes data c bytes body := by
  induction h generalizing c data with
  | refl =>
    subst hs
    cases ht
  | head hstep hrest ih =>
    subst hs
    obtain ⟨item, tail, rfl, rfl, hitem⟩ := item_of_strict hstep
    rw [List.drop_left] at hrest ih
    cases hitem with
    | @size line n hsize =>
      obtain ⟨bytes, body, rfl, rfl, hcompletes⟩ := ih rfl ht
      refine ⟨line ++ crlf ++ bytes, body, (List.append_assoc _ _ _).symm, rfl, ?_⟩
      by_cases hn : n = 0
      · subst hn
        obtain ⟨rfl, trailers, htrailers, rfl⟩ := hcompletes
        exact ⟨[], .last hsize htrailers, (List.append_nil _).symm⟩
      · rw [if_neg hn] at hcompletes
        obtain ⟨chunk, bytes', body', rfl, rfl, hbody, rfl⟩ := hcompletes
        have hne : chunk ≠ [] := fun hnil => hn (by rw [hnil]; rfl)
        exact ⟨chunk ++ body', .chunk hsize hne hbody, List.append_assoc _ _ _⟩
    | data chunk =>
      obtain ⟨bytes, body, rfl, rfl, body', hbody, rfl⟩ := ih rfl ht
      exact ⟨chunk ++ crlf ++ bytes, _, (List.append_assoc _ _ _).symm, rfl, chunk, bytes, body',
        rfl, rfl, hbody, rfl⟩
    | @trailer line hline =>
      obtain ⟨bytes, body, rfl, rfl, rfl, trailers, htrailers, rfl⟩ := ih rfl ht
      refine ⟨line ++ crlf ++ (trailers.flatMap (· ++ crlf) ++ crlf), _,
        (List.append_assoc _ _ _).symm, rfl, rfl, line :: trailers,
        List.forall_mem_cons.mpr ⟨hline, htrailers⟩, ?_⟩
      simp only [List.flatMap_cons, List.append_assoc]
    | last =>
      obtain ⟨rfl, rfl, rfl⟩ := strict_over hrest
      exact ⟨crlf, data, rfl, rfl, rfl, [], List.forall_mem_nil _, rfl⟩

/-- The decoder completes exactly the bodies of the grammar. -/
theorem strict_completes_iff :
    (∃ t : Coding, t.1 = none ∧ Steps strict (some .size, []) input [body] t rest) ↔
      ∃ front, input = front ++ rest ∧ ChunkedBody front body := by
  constructor
  · rintro ⟨t, ht, hsteps⟩
    obtain ⟨front, body', rfl, hbody, tail, hchunked, rfl⟩ := completes_of_steps hsteps rfl ht
    obtain rfl := (List.cons.inj hbody).1
    exact ⟨front, rfl, hchunked⟩
  · rintro ⟨front, rfl, hchunked⟩
    exact ⟨_, rfl, strict_body hchunked [] rest⟩

theorem strict_breaks (h : Breaks input) (data : Bytes) :
    ∃ t rest, Fails strict (some .size, data) input [] t rest (.frame .badResponse) := by
  induction h generalizing data with
  | @size line tail e hcr hbad =>
    exact ⟨_, _, .refl _ _, strict_bad (.size hcr hbad) data⟩
  | @data line chunk tail x y hsize hne hbad =>
    have hpos : chunk.length ≠ 0 := fun hzero => hne (List.length_eq_zero_iff.mp hzero)
    exact ⟨_, _, strict_size hsize hpos _, strict_bad (.data chunk hbad) data⟩
  | @chunk line chunk tail hsize hne _ ih =>
    obtain ⟨t, rest, hsteps, hfail⟩ := ih (data ++ chunk)
    exact ⟨t, rest, (strict_chunk hsize hne data tail).trans hsteps, hfail⟩
  | @trailer line trailer tail trailers e hsize htrailers hcr hbad =>
    have hfields := strict_trailers htrailers data (trailer ++ 13 :: e :: tail)
    exact ⟨_, _, (strict_zero hsize data _).trans hfields, strict_bad (.trailer hcr hbad) data⟩

theorem breaks_of_bad (h : BadItem c input) : BreaksFrom c input := by
  cases h with
  | size hcr hbad => exact .size hcr hbad
  | data bytes hbad =>
    intro line hsize hn
    exact .data hsize (fun hnil => hn (by rw [hnil]; rfl)) hbad
  | trailer hcr hbad =>
    intro line trailers hsize htrailers
    exact .trailer hsize htrailers hcr hbad

theorem breaks_of_fails {s : Coding} {stop : Stop} (h : Steps strict s input outs t rest)
    (hfail : strict t rest = .fail stop) (hs : s = (some c, data)) : BreaksFrom c input := by
  induction h generalizing c data with
  | refl =>
    subst hs
    exact breaks_of_bad (bad_of_strict hfail).2
  | head hstep hrest ih =>
    subst hs
    obtain ⟨item, tail, rfl, rfl, hitem⟩ := item_of_strict hstep
    rw [List.drop_left] at hrest ih
    cases hitem with
    | @size line n hsize =>
      have hbreaks := ih hfail rfl
      by_cases hn : n = 0
      · subst hn
        exact hbreaks line [] hsize (List.forall_mem_nil _)
      · rw [if_neg hn] at hbreaks
        exact hbreaks line hsize hn
    | data chunk =>
      intro line hsize hn
      have hbreaks : Breaks tail := ih hfail rfl
      exact .chunk hsize (fun hnil => hn (by rw [hnil]; rfl)) hbreaks
    | @trailer trailer hline =>
      intro line trailers hsize htrailers
      have hall : ∀ l ∈ trailers ++ [trailer], TrailerLine l :=
        List.forall_mem_append.mpr ⟨htrailers, List.forall_mem_singleton.mpr hline⟩
      have hbreaks := ih hfail rfl line (trailers ++ [trailer]) hsize hall
      simpa only [List.flatMap_append, List.flatMap_cons, List.flatMap_nil, List.append_nil,
        List.append_assoc] using hbreaks
    | last =>
      obtain ⟨_, rfl, rfl⟩ := strict_over hrest
      cases hfail

/-- The decoder rejects exactly what breaks the grammar. -/
theorem strict_breaks_iff :
    (∃ t rest, Fails strict (some .size, []) input [] t rest (.frame .badResponse)) ↔
      Breaks input := by
  constructor
  · rintro ⟨t, rest, hsteps, hfail⟩
    exact breaks_of_fails hsteps hfail rfl
  · intro h
    exact strict_breaks h []

end Grammar

end Wrkrs
