import Mathlib.Data.List.TakeDrop
import Wrkrs.Framer

/-!
# Responses on the wire

A server's responses as bytes: a head of well-formed lines, then a body framed by the
status, by a length or in chunks. `reference` reads every such head.
-/

namespace Wrkrs

set_option autoImplicit false
set_option maxRecDepth 4096

open Text Machine

def crlf : Bytes := [13, 10]

structure WireHeader where
  name : Str
  value : Str
  named : name ≠ []
  token : ∀ c ∈ name, c.toNat < 128 ∧ isTokenByte (UInt8.ofNat c.toNat) = true
  printable : ∀ byte ∈ encode value, isValueByte byte = true
  trimmed : trimBlanks (encode value) = encode value

structure WireHead where
  minor : UInt8
  status : UInt16
  reason : Bytes
  headers : List WireHeader
  minor_le : minor.toNat ≤ 1
  status_le : status.toNat ≤ 999
  printable : ∀ byte ∈ reason, isValueByte byte = true
  few : headers.length ≤ 64

def WireHeader.line (header : WireHeader) : Bytes :=
  encode header.name ++ 58 :: 32 :: encode header.value

def WireHeader.field (header : WireHeader) : Header := ⟨header.name, encode header.value⟩

def digitByte (n : Nat) : UInt8 := UInt8.ofNat (48 + n)

namespace WireHead

def firstLine (head : WireHead) : Bytes :=
  72 :: 84 :: 84 :: 80 :: 47 :: 49 :: 46 :: digitByte head.minor.toNat :: 32 ::
    digitByte (head.status.toNat / 100) :: digitByte (head.status.toNat / 10 % 10) ::
    digitByte (head.status.toNat % 10) :: 32 :: head.reason

def lines (head : WireHead) : List Bytes := head.firstLine :: head.headers.map WireHeader.line

def bytes (head : WireHead) : Bytes := head.lines.flatMap (· ++ crlf) ++ crlf

def fields (head : WireHead) : List Header := head.headers.map WireHeader.field

def read (head : WireHead) : ResponseHead := ⟨some head.status, some head.minor, head.fields⟩

end WireHead

/-- A well-formed head is read to its blank line whatever follows, given room. -/
def ResponseParser.ReadsHeads (parse : ResponseParser) : Prop :=
  ∀ (head : WireHead) (capacity : Nat) (rest : Bytes),
    parse capacity (head.bytes ++ rest) =
      if head.headers.length ≤ capacity then .complete head.bytes.length head.read
      else .tooManyHeaders

theorem isTokenByte_ne {byte : UInt8} (h : isTokenByte byte = true) : byte ≠ 58 ∧ byte ≠ 13 := by
  constructor
  · rintro rfl
    exact absurd h (by decide)
  · rintro rfl
    exact absurd h (by decide)

theorem isValueByte_ne {byte : UInt8} (h : isValueByte byte = true) : byte ≠ 13 := by
  rintro rfl
  exact absurd h (by decide)

theorem takeLine_line {line : Bytes} (h : 13 ∉ line) (rest : Bytes) :
    takeLine (line ++ 13 :: 10 :: rest) = some (line, rest) := by
  induction line with
  | nil => rfl
  | cons byte line ih =>
    have hbyte : 13 ≠ byte := List.ne_of_not_mem_cons h
    have hline : 13 ∉ line := List.not_mem_of_not_mem_cons h
    have hno : ∀ tail, byte = 13 → line ++ 13 :: 10 :: rest = 10 :: tail → False :=
      fun _ heq _ => hbyte heq.symm
    rw [List.cons_append, takeLine.eq_2 _ _ hno, ih hline]
    rfl

theorem headLines_lines {lines : List Bytes} (h : ∀ line ∈ lines, line ≠ [] ∧ 13 ∉ line)
    (rest : Bytes) {fuel : Nat} (hfuel : lines.length < fuel) :
    headLines fuel (lines.flatMap (· ++ crlf) ++ crlf ++ rest) = some (lines, rest) := by
  induction lines generalizing fuel with
  | nil =>
    obtain ⟨fuel, rfl⟩ := Nat.exists_eq_succ_of_ne_zero (Nat.ne_of_gt hfuel)
    rfl
  | cons line lines ih =>
    obtain ⟨fuel, rfl⟩ := Nat.exists_eq_succ_of_ne_zero (Nat.ne_zero_of_lt hfuel)
    obtain ⟨hne, hcr⟩ := h line List.mem_cons_self
    have hrest := ih (fun l hl => h l (List.mem_cons_of_mem line hl))
      (Nat.lt_of_succ_lt_succ hfuel)
    have hinput : (line :: lines).flatMap (· ++ crlf) ++ crlf ++ rest =
        line ++ 13 :: 10 :: (lines.flatMap (· ++ crlf) ++ crlf ++ rest) := by
      simp [crlf]
    rw [hinput]
    simp only [headLines, takeLine_line hcr]
    cases line with
    | nil => exact absurd rfl hne
    | cons byte bytes => simp only [hrest, Option.map_some]

theorem decimalByte_digit {n : Nat} (h : n < 10) : decimalByte (digitByte n) = some n := by
  have hn : (digitByte n).toNat = 48 + n := toNat_byte _ (by omega)
  unfold decimalByte
  rw [if_pos ⟨UInt8.le_iff_toNat_le.mpr (by simp [hn]), UInt8.le_iff_toNat_le.mpr (by
    simp [hn]
    omega)⟩, hn]
  congr 1
  omega

theorem statusLine_firstLine (head : WireHead) :
    statusLine head.firstLine = some (head.minor, head.status) := by
  have hminor := head.minor_le
  have hstatus := head.status_le
  have hcode : head.status.toNat / 100 * 100 + head.status.toNat / 10 % 10 * 10 +
      head.status.toNat % 10 = head.status.toNat := by omega
  have hreason : (32 :: head.reason).all isValueByte = true := by
    rw [List.all_cons, List.all_eq_true.mpr head.printable]
    rfl
  unfold WireHead.firstLine statusLine
  simp only [decimalByte_digit (show head.minor.toNat < 10 by omega),
    decimalByte_digit (show head.status.toNat / 100 < 10 by omega),
    decimalByte_digit (show head.status.toNat / 10 % 10 < 10 by omega),
    decimalByte_digit (show head.status.toNat % 10 < 10 by omega), hcode]
  rw [if_pos ⟨hminor, .inr ⟨rfl, hreason⟩⟩, UInt8.ofNat_toNat, UInt16.ofNat_toNat]

theorem headerLine_line (header : WireHeader) : headerLine header.line = some header.field := by
  have hascii := encode_ascii fun c hc => (header.token c hc).1
  have htoken : ∀ byte ∈ encode header.name, isTokenByte byte = true := by
    rw [hascii]
    intro byte hbyte
    obtain ⟨c, hc, rfl⟩ := List.mem_map.mp hbyte
    exact (header.token c hc).2
  have hspan : header.line.span (· != 58) = (encode header.name, 58 :: 32 :: encode header.value) := by
    have hname : ∀ byte ∈ encode header.name, (byte != 58) = true := by
      intro byte hbyte
      simpa using (isTokenByte_ne (htoken byte hbyte)).1
    rw [List.span_eq_takeWhile_dropWhile, WireHeader.line, List.takeWhile_append_of_pos hname,
      List.dropWhile_append_of_pos hname]
    simp
  have hne : encode header.name ≠ [] := by
    rw [hascii]
    simpa using header.named
  have hvalue : (32 :: encode header.value).all isValueByte = true := by
    rw [List.all_cons, List.all_eq_true.mpr header.printable]
    rfl
  have htrim : trimBlanks (32 :: encode header.value) = trimBlanks (encode header.value) := rfl
  have hback : (encode header.name).map (fun byte => Char.ofNat byte.toNat) = header.name := by
    rw [hascii, List.map_map]
    refine (List.map_congr_left ?_).trans (List.map_id _)
    intro c hc
    have hlt := (header.token c hc).1
    exact char_eq_ofNat (toNat_byte c.toNat (by omega)).symm
  unfold headerLine
  rw [hspan]
  simp only [if_pos (show encode header.name ≠ [] ∧ (encode header.name).all isTokenByte = true ∧
    (32 :: encode header.value).all isValueByte = true from
      ⟨hne, List.all_eq_true.mpr htoken, hvalue⟩), hback, htrim, header.trimmed]
  rfl

theorem mapM_headerLine (headers : List WireHeader) :
    (headers.map WireHeader.line).mapM headerLine = some (headers.map WireHeader.field) := by
  induction headers with
  | nil => rfl
  | cons header headers ih =>
    rw [List.map_cons, List.mapM_cons, headerLine_line, ih]
    rfl

theorem digitByte_ne {n : Nat} (h : n < 10) : digitByte n ≠ 13 := by
  intro heq
  have hn : (digitByte n).toNat = 48 + n := toNat_byte _ (by omega)
  rw [heq] at hn
  simp at hn
  omega

theorem WireHead.lines_plain (head : WireHead) : ∀ line ∈ head.lines, line ≠ [] ∧ 13 ∉ line := by
  intro line hline
  rcases List.mem_cons.mp hline with rfl | hline
  · have hminor := head.minor_le
    have hstatus := head.status_le
    refine ⟨List.cons_ne_nil _ _, ?_⟩
    intro hcr
    simp only [WireHead.firstLine, List.mem_cons] at hcr
    have hreason : 13 ∉ head.reason := fun h => isValueByte_ne (head.printable 13 h) rfl
    have hd0 := digitByte_ne (show head.minor.toNat < 10 by omega)
    have hd1 := digitByte_ne (show head.status.toNat / 100 < 10 by omega)
    have hd2 := digitByte_ne (show head.status.toNat / 10 % 10 < 10 by omega)
    have hd3 := digitByte_ne (show head.status.toNat % 10 < 10 by omega)
    simp [hreason, hd0.symm, hd1.symm, hd2.symm, hd3.symm] at hcr
  · obtain ⟨header, _, rfl⟩ := List.mem_map.mp hline
    have hascii := encode_ascii fun c hc => (header.token c hc).1
    refine ⟨by simp [WireHeader.line], ?_⟩
    intro hcr
    rcases List.mem_append.mp hcr with hname | hvalue
    · rw [hascii] at hname
      obtain ⟨c, hc, heq⟩ := List.mem_map.mp hname
      exact (isTokenByte_ne (header.token c hc).2).2 heq
    · have hcr : 13 ∉ encode header.value := fun h => isValueByte_ne (header.printable 13 h) rfl
      simp [hcr] at hvalue

theorem WireHead.lines_length_lt (head : WireHead) (rest : Bytes) :
    head.lines.length < (head.bytes ++ rest).length + 1 := by
  have hlines : ∀ lines : List Bytes, lines.length ≤ (lines.flatMap (· ++ crlf)).length := by
    intro lines
    induction lines with
    | nil => exact Nat.le_refl _
    | cons line lines ih =>
      simp only [List.flatMap_cons, List.length_append, List.length_cons, crlf, List.length_nil]
        at ih ⊢
      omega
  have hle := hlines head.lines
  simp only [WireHead.bytes, List.length_append]
  omega

theorem reference_reads : ResponseParser.ReadsHeads reference := by
  intro head capacity rest
  have hlines := headLines_lines head.lines_plain rest (head.lines_length_lt rest)
  have hend : (head.bytes ++ rest).length - rest.length = head.bytes.length := by
    rw [List.length_append, Nat.add_sub_cancel]
  unfold reference
  change headLines _ (head.bytes ++ rest) = _ at hlines
  simp only [hlines, hend]
  have hlength : head.fields.length = head.headers.length := List.length_map _
  unfold headVerdict WireHead.lines
  simp only [statusLine_firstLine, mapM_headerLine]
  change (if head.fields.length ≤ capacity then _ else _) = _
  rw [hlength]
  rfl

/-- A chunk with its size in hexadecimal digits of either case. -/
structure Chunk where
  size : Str
  data : Bytes
  digits : AllDigits 16 size
  counts : digitsValue 16 0 size = data.length
  nonempty : data ≠ []

def Chunk.bytes (chunk : Chunk) : Bytes := encode chunk.size ++ crlf ++ chunk.data ++ crlf

inductive Framing where
  | bodiless
  | length (body : Bytes)
  | chunked (chunks : List Chunk) (zero : Str) (trailers : List Bytes)

def Framing.bytes : Framing → Bytes
  | .bodiless => []
  | .length body => body
  | .chunked chunks zero trailers =>
    chunks.flatMap Chunk.bytes ++ encode zero ++ crlf ++ trailers.flatMap (· ++ crlf) ++ crlf

def Framing.body : Framing → Bytes
  | .bodiless => []
  | .length body => body
  | .chunked chunks _ _ => chunks.flatMap Chunk.data

def namesLength (name : Str) : Bool := eqIgnoreCase name "content-length".toList

def namesCoding (name : Str) : Bool := eqIgnoreCase name "transfer-encoding".toList

def WireHead.framers (head : WireHead) : List WireHeader :=
  head.headers.filter fun header => namesLength header.name || namesCoding header.name

/-- The head announces the framing. -/
inductive Announced (head : WireHead) : Framing → Prop where
  | bodiless : bodiless head.status = true → Announced head .bodiless
  | length {header : WireHeader} {body : Bytes} :
      bodiless head.status = false → header ∈ head.headers → namesLength header.name = true →
      header.value ≠ [] → AllDigits 10 header.value →
      digitsValue 10 0 header.value = body.length → Announced head (.length body)
  | chunked {header : WireHeader} {chunks : List Chunk} {zero : Str} {trailers : List Bytes} :
      bodiless head.status = false → header ∈ head.headers → namesCoding header.name = true →
      contains (lower header.value) "chunked".toList = true →
      zero ≠ [] → AllDigits 16 zero → digitsValue 16 0 zero = 0 →
      (∀ line ∈ trailers, line ≠ [] ∧ 13 ∉ line) →
      Announced head (.chunked chunks zero trailers)

structure WireResponse where
  head : WireHead
  framing : Framing
  announced : Announced head framing
  one : head.framers.length ≤ 1
  vector : framing.body.length ≤ vecMax

structure LastResponse where
  head : WireHead
  body : Bytes
  bodied : bodiless head.status = false
  unframed : head.framers = []

def WireHeader.pair (header : WireHeader) : Str × Str := (header.name, header.value)

def WireHead.keepAlive (head : WireHead) : Bool :=
  head.fields.foldl keepAliveAfter (head.minor == 1)

namespace WireResponse

def bytes (r : WireResponse) : Bytes := r.head.bytes ++ r.framing.bytes

def response (r : WireResponse) : Response :=
  ⟨r.head.status, r.head.headers.map WireHeader.pair, r.framing.body, r.head.keepAlive⟩

end WireResponse

namespace LastResponse

def bytes (r : LastResponse) : Bytes := r.head.bytes ++ r.body

def response (r : LastResponse) : Response :=
  ⟨r.head.status, r.head.headers.map WireHeader.pair, r.body, false⟩

end LastResponse

end Wrkrs
