import Wrkrs.Library.Text

/-!
# The response head parser

The header parser is a library of its own and a parameter here: `ResponseParser`
is what one call with a header capacity reports on an input, and `Lawful` is what
its users rely on. `reference` is one such parser, strict about line ends; it
reads a head once its blank line is there.
-/

namespace Wrkrs

set_option autoImplicit false

open Text

structure Header where
  name : Str
  value : Bytes
  deriving DecidableEq, Repr

structure ResponseHead where
  code : Option UInt16
  version : Option UInt8
  headers : List Header
  deriving DecidableEq, Repr

/-- What one parse call reports: the end of the head and its fields, a request for
more input, or an error. -/
inductive HeadVerdict (η : Type) where
  | complete (headerEnd : Nat) (head : η)
  | incomplete
  | tooManyHeaders
  | rejected
  deriving DecidableEq, Repr

/-- One parse call with room for the given number of headers. -/
abbrev ResponseParser := Nat → Bytes → HeadVerdict ResponseHead

namespace ResponseParser

/-- The end of a complete head lies in the input. -/
def Within (parse : ResponseParser) : Prop :=
  ∀ ⦃capacity input n head⦄, parse capacity input = .complete n head → n ≤ input.length

/-- A verdict other than `incomplete` stands when bytes are appended, a complete
head takes at least one byte and none past the input. -/
structure Lawful (parse : ResponseParser) : Prop where
  empty : ∀ capacity, parse capacity [] = .incomplete
  progress : ∀ {capacity input n head}, parse capacity input = .complete n head → 0 < n
  within : parse.Within
  complete : ∀ {capacity input n head}, parse capacity input = .complete n head →
    ∀ more, parse capacity (input ++ more) = .complete n head
  tooMany : ∀ {capacity input}, parse capacity input = .tooManyHeaders →
    ∀ more, parse capacity (input ++ more) = .tooManyHeaders
  rejected : ∀ {capacity input}, parse capacity input = .rejected →
    ∀ more, parse capacity (input ++ more) = .rejected

end ResponseParser

def takeLine : Bytes → Option (Bytes × Bytes)
  | 13 :: 10 :: rest => some ([], rest)
  | byte :: rest => (takeLine rest).map fun split => (byte :: split.1, split.2)
  | [] => none

def headLines : Nat → Bytes → Option (List Bytes × Bytes)
  | 0, _ => none
  | fuel + 1, input =>
    match takeLine input with
    | none => none
    | some ([], rest) => some ([], rest)
    | some (line, rest) => (headLines fuel rest).map fun split => (line :: split.1, split.2)

def isTokenByte (byte : UInt8) : Bool :=
  (48 ≤ byte && byte ≤ 57) || (65 ≤ byte && byte ≤ 90) || (97 ≤ byte && byte ≤ 122) ||
    (ascii "!#$%&'*+-.^_|~").contains byte || byte == 96

def isBlank (byte : UInt8) : Bool := byte == 32 || byte == 9

def isValueByte (byte : UInt8) : Bool := byte == 9 || (32 ≤ byte && byte != 127)

def trimBlanks (value : Bytes) : Bytes :=
  ((value.dropWhile isBlank).reverse.dropWhile isBlank).reverse

def decimalByte (byte : UInt8) : Option Nat :=
  if 48 ≤ byte ∧ byte ≤ 57 then some (byte.toNat - 48) else none

/-- The minor version and the three digit code of a status line. -/
def statusLine : Bytes → Option (UInt8 × UInt16)
  | 72 :: 84 :: 84 :: 80 :: 47 :: 49 :: 46 :: minor :: 32 :: a :: b :: c :: reason =>
    match decimalByte minor, decimalByte a, decimalByte b, decimalByte c with
    | some v, some x, some y, some z =>
      if v ≤ 1 ∧ (reason = [] ∨ (reason.head? = some 32 ∧ reason.all isValueByte)) then
        some (UInt8.ofNat v, UInt16.ofNat (x * 100 + y * 10 + z))
      else none
    | _, _, _, _ => none
  | _ => none

def headerLine (line : Bytes) : Option Header :=
  match line.span (· != 58) with
  | (name, 58 :: value) =>
    if name ≠ [] ∧ name.all isTokenByte ∧ value.all isValueByte then
      some ⟨name.map fun byte => Char.ofNat byte.toNat, trimBlanks value⟩
    else none
  | _ => none

def headVerdict (capacity headerEnd : Nat) : List Bytes → HeadVerdict ResponseHead
  | [] => .rejected
  | first :: lines =>
    match statusLine first, lines.mapM headerLine with
    | some (version, code), some headers =>
      if headers.length ≤ capacity then
        .complete headerEnd ⟨some code, some version, headers⟩
      else .tooManyHeaders
    | _, _ => .rejected

def reference : ResponseParser := fun capacity input =>
  match headLines (input.length + 1) input with
  | none => .incomplete
  | some (lines, rest) => headVerdict capacity (input.length - rest.length) lines

theorem takeLine_append {input line rest : Bytes} (h : takeLine input = some (line, rest))
    (more : Bytes) : takeLine (input ++ more) = some (line, rest ++ more) := by
  induction input using takeLine.induct generalizing line rest with
  | case1 tail =>
    obtain ⟨rfl, rfl⟩ : [] = line ∧ tail = rest := by simpa [takeLine] using h
    rfl
  | case2 byte tail hno ih =>
    rw [takeLine.eq_2 _ _ hno] at h
    obtain ⟨⟨l, r⟩, hsplit, heq⟩ := Option.map_eq_some_iff.mp h
    obtain ⟨rfl, rfl⟩ : byte :: l = line ∧ r = rest := by simpa using heq
    have htail := ih hsplit
    have hno' : ∀ t, byte = 13 → tail ++ more = 10 :: t → False := by
      intro t hbyte hcons
      cases tail with
      | nil => simp [takeLine] at hsplit
      | cons b bs => exact hno bs hbyte (by simp_all)
    rw [List.cons_append, takeLine.eq_2 _ _ hno', htail]
    rfl
  | case3 => simp [takeLine] at h

theorem takeLine_length {input line rest : Bytes} (h : takeLine input = some (line, rest)) :
    input.length = line.length + 2 + rest.length := by
  induction input using takeLine.induct generalizing line rest with
  | case1 tail =>
    obtain ⟨rfl, rfl⟩ : [] = line ∧ tail = rest := by simpa [takeLine] using h
    simp only [List.length_cons, List.length_nil]
    omega
  | case2 byte tail hno ih =>
    rw [takeLine.eq_2 _ _ hno] at h
    obtain ⟨⟨l, r⟩, hsplit, heq⟩ := Option.map_eq_some_iff.mp h
    obtain ⟨rfl, rfl⟩ : byte :: l = line ∧ r = rest := by simpa using heq
    have hlen := ih hsplit
    simp only [List.length_cons]
    omega
  | case3 => simp [takeLine] at h

theorem headLines_append {fuel : Nat} {input rest : Bytes} {lines : List Bytes}
    (h : headLines fuel input = some (lines, rest)) (more : Bytes) (extra : Nat) :
    headLines (fuel + extra) (input ++ more) = some (lines, rest ++ more) := by
  induction fuel generalizing input lines rest with
  | zero => simp [headLines] at h
  | succ fuel ih =>
    rw [Nat.add_right_comm]
    simp only [headLines] at h ⊢
    split at h
    · cases h
    · rename_i tail htake
      rw [takeLine_append htake more]
      simpa using h
    · rename_i line tail hline htake
      rw [takeLine_append htake more]
      obtain ⟨⟨ls, r⟩, hsplit, heq⟩ := Option.map_eq_some_iff.mp h
      obtain ⟨rfl, rfl⟩ : line :: ls = lines ∧ r = rest := by simpa using heq
      cases line with
      | nil => exact absurd rfl hline
      | cons byte bytes => simp [ih hsplit]

theorem headLines_length {fuel : Nat} {input rest : Bytes} {lines : List Bytes}
    (h : headLines fuel input = some (lines, rest)) : rest.length < input.length := by
  induction fuel generalizing input lines rest with
  | zero => simp [headLines] at h
  | succ fuel ih =>
    simp only [headLines] at h
    split at h
    · cases h
    · rename_i tail htake
      have hlen := takeLine_length htake
      obtain ⟨_, rfl⟩ : [] = lines ∧ tail = rest := by simpa using h
      omega
    · rename_i line tail _ htake
      have hlen := takeLine_length htake
      obtain ⟨⟨ls, r⟩, hsplit, heq⟩ := Option.map_eq_some_iff.mp h
      obtain ⟨_, rfl⟩ : line :: ls = lines ∧ r = rest := by simpa using heq
      have hrest := ih hsplit
      omega

theorem headVerdict_complete {capacity headerEnd n : Nat} {lines : List Bytes}
    {head : ResponseHead} (h : headVerdict capacity headerEnd lines = .complete n head) :
    n = headerEnd := by
  unfold headVerdict at h
  split at h
  · cases h
  · split at h
    · split at h
      · exact (HeadVerdict.complete.inj h).1.symm
      · cases h
    · cases h

/-- A complete head and its end stay as they are when input is appended. -/
theorem headLines_more {input rest : Bytes} {lines : List Bytes}
    (h : headLines (input.length + 1) input = some (lines, rest)) (more : Bytes) :
    headLines ((input ++ more).length + 1) (input ++ more) = some (lines, rest ++ more) ∧
      (input ++ more).length - (rest ++ more).length = input.length - rest.length := by
  have hmore := headLines_append h more more.length
  have hfuel : (input ++ more).length + 1 = input.length + 1 + more.length := by
    rw [List.length_append]
    omega
  constructor
  · rw [hfuel]
    exact hmore
  · rw [List.length_append, List.length_append]
    omega

theorem reference_append {capacity : Nat} {input : Bytes}
    (h : reference capacity input ≠ .incomplete) (more : Bytes) :
    reference capacity (input ++ more) = reference capacity input := by
  unfold reference at h ⊢
  cases hlines : headLines (input.length + 1) input with
  | none => simp [hlines] at h
  | some split =>
    obtain ⟨hmore, hend⟩ := headLines_more hlines more
    simp only [hmore, hend]

theorem reference_lawful : ResponseParser.Lawful reference where
  empty := fun _ => rfl
  progress := by
    intro capacity input n head h
    unfold reference at h
    split at h
    · cases h
    · rename_i lines rest hlines
      have hlen := headLines_length hlines
      have hn := headVerdict_complete h
      omega
  within := by
    intro capacity input n head h
    unfold reference at h
    split at h
    · cases h
    · have hn := headVerdict_complete h
      omega
  complete := by
    intro capacity input n head h more
    rw [reference_append (by simp [h]), h]
  tooMany := by
    intro capacity input h more
    rw [reference_append (by simp [h]), h]
  rejected := by
    intro capacity input h more
    rw [reference_append (by simp [h]), h]

end Wrkrs
