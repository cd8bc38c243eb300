import Wrkrs.ConfigWire
import Wrkrs.Verify
import Wrkrs.Wire

/-!
# Request heads

The heads a formatter writes, what a parser of requests is relied on to do with them, and a
parser that does it.
-/

namespace Wrkrs

set_option autoImplicit false

open Text Machine Splitting

def IsToken (s : Str) : Prop := ∀ b ∈ encode s, isTokenByte b = true

instance (s : Str) : Decidable (IsToken s) :=
  List.decidableBAll (fun b => isTokenByte b = true) (encode s)

/-- A head whose fields do not run into each other. -/
structure RequestHead where
  method : Str
  path : Str
  headers : Headers
  method_word : IsWord method
  path_word : IsWord path
  headers_valid : ∀ entry ∈ headers, ValidHeader entry

namespace RequestHead

def bytes (head : RequestHead) : Bytes :=
  [13, 10].intercalate (headTexts head.method head.path head.headers) ++ [13, 10, 13, 10]

def fields (head : RequestHead) : List Header :=
  head.headers.map fun entry => ⟨entry.1, encode entry.2⟩

/-- Tokens for the method and the names, visible bytes for the target. -/
structure Accepted (visible : UInt8 → Bool) (head : RequestHead) : Prop where
  method : IsToken head.method
  target : ∀ b ∈ encode head.path, visible b = true
  names : ∀ entry ∈ head.headers, IsToken entry.1

end RequestHead

/-- The parser reads the heads it accepts to their end, given room, and no others. -/
def RequestParser.Reads (parse : RequestParser) (visible : UInt8 → Bool) : Prop :=
  ∀ (head : RequestHead) (capacity : Nat) (rest : Bytes),
    (head.Accepted visible → parse capacity (head.bytes ++ rest) =
      if head.headers.length ≤ capacity then .complete head.bytes.length head.fields
      else .tooManyHeaders) ∧
    (¬ head.Accepted visible →
      ∀ n headers, parse capacity (head.bytes ++ rest) ≠ .complete n headers)

def startLine (line : Bytes) : Bool :=
  match pieces [32] line with
  | [method, target, version] =>
    method ≠ [] && method.all isTokenByte && target ≠ [] && target.all isVisible &&
      version == ascii "HTTP/1.1"
  | _ => false

def requestVerdict (capacity headerEnd : Nat) : List Bytes → RequestVerdict
  | [] => .rejected "Token".toList
  | first :: lines =>
    if startLine first then
      match lines.mapM headerLine with
      | some headers =>
        if headers.length ≤ capacity then .complete headerEnd headers else .tooManyHeaders
      | none => .rejected "HeaderName".toList
    else .rejected "Token".toList

def requestReference : RequestParser := fun capacity input =>
  match headLines (input.length + 1) input with
  | none => .incomplete
  | some (lines, rest) => requestVerdict capacity (input.length - rest.length) lines

theorem lines_joined {lines : List Bytes} (h : lines ≠ []) :
    lines.flatMap (· ++ crlf) = crlf.intercalate lines ++ crlf := by
  induction lines with
  | nil => exact absurd rfl h
  | cons line lines ih =>
    cases lines with
    | nil => simp
    | cons next rest =>
      rw [List.flatMap_cons, ih (List.cons_ne_nil _ _), List.intercalate_cons_cons]
      simp only [List.append_assoc]

theorem lines_length_le (lines : List Bytes) : lines.length ≤ (lines.flatMap (· ++ crlf)).length := by
  induction lines with
  | nil => exact Nat.le_refl _
  | cons line lines ih =>
    rw [List.flatMap_cons, List.length_append, List.length_append, List.length_cons]
    have hcrlf : crlf.length = 2 := rfl
    omega

section Heads
variable {head : RequestHead}

theorem RequestHead.wireFields (head : RequestHead) :
    WireFields head.method head.path head.headers where
  method := head.method_word.unbroken
  path := head.path_word.unbroken
  names entry hentry :=
    ⟨(head.headers_valid entry hentry).no_cr.1, (head.headers_valid entry hentry).colonless⟩
  values entry hentry := (head.headers_valid entry hentry).no_cr.2

theorem headLines_head (head : RequestHead) (rest : Bytes) :
    headLines ((head.bytes ++ rest).length + 1) (head.bytes ++ rest) =
      some (headTexts head.method head.path head.headers, rest) := by
  have hjoined : (headTexts head.method head.path head.headers).flatMap (· ++ crlf) = _ :=
    lines_joined (List.cons_ne_nil _ _)
  have hbytes : head.bytes =
      (headTexts head.method head.path head.headers).flatMap (· ++ crlf) ++ crlf := by
    rw [hjoined, List.append_assoc]
    rfl
  rw [hbytes]
  refine headLines_lines (headTexts_clean head.wireFields) rest ?_
  have hle := lines_length_le (headTexts head.method head.path head.headers)
  simp only [List.length_append]
  omega

theorem startLine_head (head : RequestHead) :
    startLine (encode (requestLine head.method head.path)) = true ↔
      IsToken head.method ∧ ∀ b ∈ encode head.path, isVisible b = true := by
  have hmethod := encode_ne_nil head.method_word.nonempty
  have hpath := encode_ne_nil head.path_word.nonempty
  have hversion : (encode "HTTP/1.1".toList == ascii "HTTP/1.1") = true := by decide
  unfold startLine
  rw [pieces_requestLine head.method_word.unbroken head.path_word.unbroken]
  simp only [hversion, hmethod, hpath, ne_eq, not_false_eq_true, decide_true, Bool.true_and,
    Bool.and_true, Bool.and_eq_true, List.all_eq_true]
  rfl

theorem dropWhile_eq {p : UInt8 → Bool} {v : Bytes} (h : ∀ b ∈ v.head?, p b = false) :
    v.dropWhile p = v := by
  cases v with
  | nil => rfl
  | cons b v => exact List.dropWhile_cons_of_neg (Bool.eq_false_iff.mp (h b rfl))

theorem trimBlanks_eq {v : Bytes} (hfirst : ∀ b ∈ v.head?, isBlank b = false)
    (hlast : ∀ b ∈ v.getLast?, isBlank b = false) : trimBlanks v = v := by
  have hreverse : ∀ b ∈ v.reverse.head?, isBlank b = false := by
    rw [List.head?_reverse]
    exact hlast
  rw [trimBlanks, dropWhile_eq hfirst, dropWhile_eq hreverse, List.reverse_reverse]

section Entries
variable {entry : Str × Str}

theorem ValidHeader.blank_of (h : ValidHeader entry) {c : Char} (hc : c ∈ entry.2)
    (hspace : c ≠ ' ') : ∀ b ∈ String.utf8EncodeChar c, isBlank b = false := by
  intro b hb
  have hlow := of_decide_eq_false (h.value.1 b (List.mem_flatMap.mpr ⟨c, hc, hb⟩))
  refine Bool.or_eq_false_iff.mpr ⟨beq_eq_false_iff_ne.mpr ?_, beq_eq_false_iff_ne.mpr ?_⟩
  · rintro rfl
    exact hspace (char_of_byte (d := ' ') (by decide) hb)
  · rintro rfl
    exact hlow (by decide)

theorem ValidHeader.trimmed (h : ValidHeader entry) :
    trimBlanks (encode entry.2) = encode entry.2 := by
  refine trimBlanks_eq ?_ ?_
  · intro b hb
    cases hvalue : entry.2 with
    | nil =>
      rw [hvalue] at hb
      cases hb
    | cons c cs =>
      obtain ⟨d, ds, hchar⟩ := List.exists_cons_of_ne_nil (String.utf8EncodeChar_ne_nil (c := c))
      have hspace : c ≠ ' ' := by
        rintro rfl
        exact h.leading (by rw [hvalue]; rfl)
      refine h.blank_of (hvalue ▸ List.mem_cons_self) hspace b ?_
      rw [hvalue, encode, List.flatMap_cons, hchar] at hb
      rw [hchar, ← Option.some.inj hb]
      exact List.mem_cons_self
  · intro b hb
    rcases List.eq_nil_or_concat entry.2 with hvalue | ⟨cs, c, hvalue⟩
    · rw [hvalue] at hb
      cases hb
    · have hspace : c ≠ ' ' := by
        rintro rfl
        exact h.trailing (by rw [hvalue]; simp)
      refine h.blank_of (by rw [hvalue]; simp) hspace b ?_
      have hchar : encode [c] = String.utf8EncodeChar c := by simp [encode]
      rw [hvalue, List.concat_eq_append, encode_append, hchar,
        List.getLast?_append_of_ne_nil _ String.utf8EncodeChar_ne_nil] at hb
      exact List.mem_of_getLast? hb

theorem ValidHeader.printable (h : ValidHeader entry) :
    ∀ b ∈ encode entry.2, isValueByte b = true := by
  intro b hb
  have hlow := of_decide_eq_false (h.value.1 b hb)
  have hdel := beq_eq_false_iff_ne.mp (h.value.2 b hb)
  have hle : (32 : UInt8) ≤ b := UInt8.not_lt.mp hlow
  rw [isValueByte, Bool.or_eq_true, Bool.and_eq_true]
  exact .inr ⟨decide_eq_true hle, bne_iff_ne.mpr hdel⟩

theorem IsToken.ascii {s : Str} (h : IsToken s) : Ascii s := by
  refine ascii_of_encode fun b hb => ?_
  have htable := forall_byte (p := fun b => !isTokenByte b || decide (b.toNat < 128))
    (by decide +kernel) b
  simpa [h b hb] using htable

/-- A header line is read exactly when its name is a token. -/
theorem headerLine_text (h : ValidHeader entry) :
    headerLine (encode (headerText entry)) =
      if IsToken entry.1 then some ⟨entry.1, encode entry.2⟩ else none := by
  have hline : encode (headerText entry) = encode entry.1 ++ 58 :: 32 :: encode entry.2 :=
    encode_headerText entry
  by_cases htoken : IsToken entry.1
  · rw [if_pos htoken, hline]
    refine headerLine_line ⟨entry.1, entry.2, h.name.nonempty, ?_, h.printable, h.trimmed⟩
    intro c hc
    refine ⟨htoken.ascii c hc, htoken (byte c) ?_⟩
    rw [encode_ascii htoken.ascii]
    exact List.mem_map_of_mem hc
  · have hname : ∀ b ∈ encode entry.1, (b != 58) = true := by
      intro b hb
      exact bne_iff_ne.mpr (beq_eq_false_iff_ne.mp (h.colonless b hb))
    have hrefused : ¬ (encode entry.1).all isTokenByte = true := fun hall =>
      htoken (List.all_eq_true.mp hall)
    rw [if_neg htoken, hline, headerLine, List.span_eq_takeWhile_dropWhile,
      List.takeWhile_append_of_pos hname, List.dropWhile_append_of_pos hname]
    simp [hrefused]

end Entries

theorem mapM_headerText (headers : Headers) (h : ∀ entry ∈ headers, ValidHeader entry) :
    (headers.map fun entry => encode (headerText entry)).mapM headerLine =
      if ∀ entry ∈ headers, IsToken entry.1 then
        some (headers.map fun entry => ⟨entry.1, encode entry.2⟩)
      else none := by
  induction headers with
  | nil => rfl
  | cons entry headers ih =>
    obtain ⟨hentry, hrest⟩ := List.forall_mem_cons.mp h
    rw [List.map_cons, List.mapM_cons, headerLine_text hentry, ih hrest]
    simp only [List.forall_mem_cons]
    by_cases htoken : IsToken entry.1
    · by_cases hall : ∀ entry ∈ headers, IsToken entry.1
      · rw [if_pos htoken, if_pos hall, if_pos ⟨htoken, hall⟩]
        rfl
      · rw [if_pos htoken, if_neg hall, if_neg fun hboth => hall hboth.2]
        rfl
    · have hnone : ¬ (IsToken entry.1 ∧ ∀ entry ∈ headers, IsToken entry.1) :=
        fun hboth => htoken hboth.1
      rw [if_neg htoken, if_neg hnone]
      rfl

theorem accepted_iff (head : RequestHead) : head.Accepted isVisible ↔
    startLine (encode (requestLine head.method head.path)) = true ∧
      ∀ entry ∈ head.headers, IsToken entry.1 := by
  rw [startLine_head]
  exact ⟨fun h => ⟨⟨h.method, h.target⟩, h.names⟩, fun h => ⟨h.1.1, h.1.2, h.2⟩⟩

/-- The reference parser reads the heads it accepts and no others. -/
theorem requestReference_reads : RequestParser.Reads requestReference isVisible := by
  intro head capacity rest
  have hend : (head.bytes ++ rest).length - rest.length = head.bytes.length := by
    rw [List.length_append, Nat.add_sub_cancel]
  have hparse : requestReference capacity (head.bytes ++ rest) =
      requestVerdict capacity head.bytes.length
        (headTexts head.method head.path head.headers) := by
    rw [requestReference, headLines_head]
    simp only [hend]
  rw [hparse, accepted_iff, headTexts, requestVerdict, mapM_headerText _ head.headers_valid]
  constructor
  · rintro ⟨hstart, hnames⟩
    rw [if_pos hstart, if_pos hnames]
    simp only [List.length_map]
    rfl
  · intro hrefused n headers
    by_cases hstart : startLine (encode (requestLine head.method head.path)) = true
    · rw [if_pos hstart, if_neg fun hnames => hrefused ⟨hstart, hnames⟩]
      intro h
      cases h
    · rw [if_neg hstart]
      intro h
      cases h

end Heads

end Wrkrs
