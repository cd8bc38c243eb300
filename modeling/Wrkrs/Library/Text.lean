import Mathlib.Data.List.Basic
import Mathlib.Data.Nat.Basic

/-!
# Text over bytes

Strings are lists of scalar values and byte strings are lists of bytes. Decoding
replaces every maximal invalid sequence by one replacement character, numbers are
read in a radix below a word limit, and case folding is the ASCII one.
-/

namespace Text

set_option autoImplicit false

abbrev Bytes := List UInt8
abbrev Str := List Char

def ascii (s : String) : Bytes := s.toList.map fun c => UInt8.ofNat c.toNat

def lower (s : Str) : Str := s.map Char.toLower

def eqIgnoreCase (a b : Str) : Bool := lower a == lower b

def contains (s part : Str) : Bool := s.tails.any part.isPrefixOf

/-- The Unicode White_Space property. -/
def isSpace (c : Char) : Bool :=
  let n := c.toNat
  (9 ≤ n && n ≤ 13) || n == 0x20 || n == 0x85 || n == 0xA0 || n == 0x1680 ||
    (0x2000 ≤ n && n ≤ 0x200A) || n == 0x2028 || n == 0x2029 || n == 0x202F ||
    n == 0x205F || n == 0x3000

def trim (s : Str) : Str := ((s.dropWhile isSpace).reverse.dropWhile isSpace).reverse

def toDigit (radix : Nat) (c : Char) : Option Nat :=
  let n := c.toNat
  let digit :=
    if 48 ≤ n ∧ n ≤ 57 then n - 48
    else if 97 ≤ n ∧ n ≤ 122 then n - 87
    else if 65 ≤ n ∧ n ≤ 90 then n - 55
    else radix
  if digit < radix then some digit else none

/-- Digits after an accumulated value, every intermediate value below the limit. -/
def parseDigits (radix limit : Nat) : Nat → Str → Option Nat
  | acc, [] => some acc
  | acc, c :: cs =>
    match toDigit radix c with
    | none => none
    | some digit =>
      if acc * radix + digit < limit then parseDigits radix limit (acc * radix + digit) cs
      else none

/-- An unsigned number: an optional plus sign and at least one digit. -/
def fromStrRadix (radix limit : Nat) : Str → Option Nat
  | [] => none
  | '+' :: [] => none
  | '+' :: digits => parseDigits radix limit 0 digits
  | digits => parseDigits radix limit 0 digits

def digitsValue (radix : Nat) (acc : Nat) (s : Str) : Nat :=
  s.foldl (fun acc c => acc * radix + (toDigit radix c).getD 0) acc

def AllDigits (radix : Nat) (s : Str) : Prop := ∀ c ∈ s, (toDigit radix c).isSome

instance (radix : Nat) (s : Str) : Decidable (AllDigits radix s) :=
  List.decidableBAll (fun c => (toDigit radix c).isSome) s

theorem le_digitsValue {radix : Nat} (hr : 0 < radix) (acc : Nat) (s : Str) :
    acc ≤ digitsValue radix acc s := by
  induction s generalizing acc with
  | nil => exact Nat.le_refl _
  | cons c cs ih =>
    calc acc ≤ acc * radix := Nat.le_mul_of_pos_right acc hr
      _ ≤ acc * radix + (toDigit radix c).getD 0 := Nat.le_add_right _ _
      _ ≤ digitsValue radix acc (c :: cs) := ih _

theorem parseDigits_eq {radix limit : Nat} (hr : 0 < radix) {s : Str}
    (hs : AllDigits radix s) (acc : Nat) (hlt : digitsValue radix acc s < limit) :
    parseDigits radix limit acc s = some (digitsValue radix acc s) := by
  induction s generalizing acc with
  | nil => rfl
  | cons c cs ih =>
    obtain ⟨digit, hdigit⟩ := Option.isSome_iff_exists.mp (hs c List.mem_cons_self)
    have hvalue : digitsValue radix acc (c :: cs) = digitsValue radix (acc * radix + digit) cs := by
      simp [digitsValue, hdigit]
    have hstep : acc * radix + digit < limit :=
      Nat.lt_of_le_of_lt (le_digitsValue hr _ cs) (hvalue ▸ hlt)
    rw [hvalue] at hlt ⊢
    simp only [parseDigits, hdigit, if_pos hstep]
    exact ih (fun d hd => hs d (List.mem_cons_of_mem c hd)) _ hlt

theorem parseDigits_lt {radix limit acc n : Nat} {s : Str} (hacc : acc < limit)
    (h : parseDigits radix limit acc s = some n) : n < limit := by
  induction s generalizing acc with
  | nil => exact Option.some.inj h ▸ hacc
  | cons c cs ih =>
    simp only [parseDigits] at h
    split at h
    · cases h
    · split at h
      · exact ih (by assumption) h
      · cases h

theorem parseDigits_value {radix limit acc n : Nat} {s : Str}
    (h : parseDigits radix limit acc s = some n) : n = digitsValue radix acc s := by
  induction s generalizing acc with
  | nil => exact (Option.some.inj h).symm
  | cons c cs ih =>
    simp only [parseDigits] at h
    split at h
    · cases h
    · rename_i digit hdigit
      split at h
      · simpa [digitsValue, hdigit] using ih h
      · cases h

theorem fromStrRadix_lt {radix limit n : Nat} {s : Str} (hlimit : 0 < limit)
    (h : fromStrRadix radix limit s = some n) : n < limit := by
  unfold fromStrRadix at h
  split at h
  · cases h
  · cases h
  · exact parseDigits_lt hlimit h
  · exact parseDigits_lt hlimit h

theorem toDigit_plus {radix : Nat} : toDigit radix '+' = none := by
  simp [toDigit]

theorem fromStrRadix_digits {radix limit : Nat} (hr : 0 < radix) {s : Str} (hne : s ≠ [])
    (hs : AllDigits radix s) (hlt : digitsValue radix 0 s < limit) :
    fromStrRadix radix limit s = some (digitsValue radix 0 s) := by
  unfold fromStrRadix
  split
  · exact absurd rfl hne
  · exact absurd (hs '+' List.mem_cons_self) (by simp [toDigit_plus])
  · exact absurd (hs '+' List.mem_cons_self) (by simp [toDigit_plus])
  · exact parseDigits_eq hr hs 0 hlt

theorem fromStrRadix_value {radix limit n : Nat} {s : Str} (hs : AllDigits radix s)
    (h : fromStrRadix radix limit s = some n) : n = digitsValue radix 0 s := by
  unfold fromStrRadix at h
  split at h
  · cases h
  · cases h
  · exact absurd (hs '+' List.mem_cons_self) (by simp [toDigit_plus])
  · exact parseDigits_value h

theorem parseDigits_all {radix limit acc n : Nat} {s : Str}
    (h : parseDigits radix limit acc s = some n) : AllDigits radix s := by
  induction s generalizing acc with
  | nil =>
    intro c hc
    cases hc
  | cons c cs ih =>
    simp only [parseDigits] at h
    split at h
    · cases h
    · rename_i digit hdigit
      split at h
      · intro d hd
        rcases List.mem_cons.mp hd with rfl | hmem
        · rw [hdigit]
          rfl
        · exact ih h d hmem
      · cases h

theorem fromStrRadix_all {radix limit n : Nat} {s : Str}
    (h : fromStrRadix radix limit s = some n) :
    ∃ digits, AllDigits radix digits ∧ (s = digits ∨ s = '+' :: digits) := by
  unfold fromStrRadix at h
  split at h
  · cases h
  · cases h
  · exact ⟨_, parseDigits_all h, .inr rfl⟩
  · exact ⟨_, parseDigits_all h, .inl rfl⟩

def decimal (n : Nat) : Str := Nat.toDigits 10 n

theorem toDigit_digitChar {n : Nat} (h : n < 10) : toDigit 10 (Nat.digitChar n) = some n := by
  revert h
  revert n
  decide

theorem digitChar_ascii {n : Nat} (h : n < 10) : (Nat.digitChar n).toNat < 128 := by
  revert h
  revert n
  decide

theorem digitsValue_append (radix acc : Nat) (s t : Str) :
    digitsValue radix acc (s ++ t) = digitsValue radix (digitsValue radix acc s) t :=
  List.foldl_append

theorem decimal_ne_nil (n : Nat) : decimal n ≠ [] := Nat.toDigits_ne_nil

theorem decimal_eq (n : Nat) :
    decimal n = if n < 10 then [Nat.digitChar n]
      else decimal (n / 10) ++ [Nat.digitChar (n % 10)] := Nat.toDigits_eq_if (by decide)

theorem decimal_value (n : Nat) : digitsValue 10 0 (decimal n) = n := by
  induction n using Nat.strongRecOn with
  | ind n ih =>
    rw [decimal_eq]
    by_cases h : n < 10
    · rw [if_pos h, digitsValue, List.foldl_cons, List.foldl_nil, toDigit_digitChar h]
      simp
    · rw [if_neg h, digitsValue_append, ih (n / 10) (by omega), digitsValue, List.foldl_cons,
        List.foldl_nil, toDigit_digitChar (Nat.mod_lt n (by decide)), Option.getD_some]
      omega

theorem decimal_digits (n : Nat) : ∀ c ∈ decimal n, c.toNat < 128 ∧ (toDigit 10 c).isSome := by
  induction n using Nat.strongRecOn with
  | ind n ih =>
    rw [decimal_eq]
    intro c hc
    by_cases h : n < 10
    · rw [if_pos h, List.mem_singleton] at hc
      rw [hc, toDigit_digitChar h]
      exact ⟨digitChar_ascii h, rfl⟩
    · rw [if_neg h, List.mem_append, List.mem_singleton] at hc
      rcases hc with hmem | rfl
      · exact ih (n / 10) (by omega) c hmem
      · have hlast : n % 10 < 10 := Nat.mod_lt n (by decide)
        rw [toDigit_digitChar hlast]
        exact ⟨digitChar_ascii hlast, rfl⟩

/-- A number below the limit is read back. -/
theorem fromStrRadix_decimal {n limit : Nat} (h : n < limit) :
    fromStrRadix 10 limit (decimal n) = some n := by
  have hvalue := decimal_value n
  have hread : fromStrRadix 10 limit (decimal n) = some (digitsValue 10 0 (decimal n)) :=
    fromStrRadix_digits (by decide) (decimal_ne_nil n) (fun c hc => (decimal_digits n c hc).2)
      (by rw [hvalue]; exact h)
  rwa [hvalue] at hread

theorem toDigit_hex {c : Char} (h : (toDigit 16 c).isSome) :
    c.toNat < 128 ∧ isSpace c = false ∧ c.toNat ≠ 13 := by
  have hrange : (48 ≤ c.toNat ∧ c.toNat ≤ 57) ∨ (97 ≤ c.toNat ∧ c.toNat ≤ 122) ∨
      (65 ≤ c.toNat ∧ c.toNat ≤ 90) := by
    by_contra hno
    simp only [not_or] at hno
    simp only [toDigit, if_neg hno.1, if_neg hno.2.1, if_neg hno.2.2] at h
    simp at h
  refine ⟨by omega, ?_, by omega⟩
  simp only [isSpace, Bool.or_eq_false_iff, Bool.and_eq_false_iff, decide_eq_false_iff_not,
    beq_eq_false_iff_ne]
  omega

theorem trim_eq_self {s : Str} (h : ∀ c ∈ s, isSpace c = false) : trim s = s := by
  have hdrop : ∀ t : Str, (∀ c ∈ t, isSpace c = false) → t.dropWhile isSpace = t := by
    intro t ht
    cases t with
    | nil => rfl
    | cons c cs => simp [List.dropWhile, ht c List.mem_cons_self]
  unfold trim
  rw [hdrop s h, hdrop s.reverse (fun c hc => h c (List.mem_reverse.mp hc)), List.reverse_reverse]

theorem trim_inside {front : Str} {c d : Char} (hc : isSpace c = false) (hd : isSpace d = false)
    (tail : Str) : ∃ rest, trim (c :: front ++ d :: tail) = c :: front ++ d :: rest := by
  have hdrop : (c :: front ++ d :: tail).dropWhile isSpace = c :: front ++ d :: tail := by
    rw [List.cons_append, List.dropWhile_cons, hc]
    rfl
  refine ⟨(tail.reverse.dropWhile isSpace).reverse, ?_⟩
  unfold trim
  rw [hdrop, List.reverse_append, List.reverse_cons, List.append_assoc, List.dropWhile_append]
  have hback : ([d] ++ (c :: front).reverse).dropWhile isSpace = [d] ++ (c :: front).reverse := by
    rw [List.singleton_append, List.dropWhile_cons, hd]
    rfl
  split
  · rename_i hempty
    rw [hback, List.isEmpty_iff.mp hempty]
    simp
  · simp

def continuation (byte : UInt8) : Bool := 0x80 ≤ byte.toNat && byte.toNat < 0xC0

/-- The second bytes a three or four byte sequence may have: no overlong form, no
surrogate, nothing past the last scalar value. -/
def secondByte (first second : Nat) : Bool :=
  if first = 0xE0 then 0xA0 ≤ second && second < 0xC0
  else if first = 0xED then 0x80 ≤ second && second < 0xA0
  else if first = 0xF0 then 0x90 ≤ second && second < 0xC0
  else if first = 0xF4 then 0x80 ≤ second && second < 0x90
  else 0x80 ≤ second && second < 0xC0

/-- The first character and its width, or the width of a maximal invalid sequence. -/
def decodeHead : Bytes → Option Char × Nat
  | [] => (none, 0)
  | b0 :: rest =>
    let first := b0.toNat
    if first < 0x80 then (some (Char.ofNat first), 1)
    else if 0xC2 ≤ first ∧ first < 0xE0 then
      match rest with
      | b1 :: _ =>
        if continuation b1 then
          (some (Char.ofNat ((first - 0xC0) * 64 + (b1.toNat - 0x80))), 2)
        else (none, 1)
      | [] => (none, 1)
    else if 0xE0 ≤ first ∧ first < 0xF0 then
      match rest with
      | b1 :: tail =>
        if secondByte first b1.toNat then
          match tail with
          | b2 :: _ =>
            if continuation b2 then
              (some (Char.ofNat ((first - 0xE0) * 4096 + (b1.toNat - 0x80) * 64 +
                (b2.toNat - 0x80))), 3)
            else (none, 2)
          | [] => (none, 2)
        else (none, 1)
      | [] => (none, 1)
    else if 0xF0 ≤ first ∧ first < 0xF5 then
      match rest with
      | b1 :: tail =>
        if secondByte first b1.toNat then
          match tail with
          | b2 :: last =>
            if continuation b2 then
              match last with
              | b3 :: _ =>
                if continuation b3 then
                  (some (Char.ofNat ((first - 0xF0) * 262144 + (b1.toNat - 0x80) * 4096 +
                    (b2.toNat - 0x80) * 64 + (b3.toNat - 0x80))), 4)
                else (none, 3)
              | [] => (none, 3)
            else (none, 2)
          | [] => (none, 2)
        else (none, 1)
      | [] => (none, 1)
    else (none, 1)

/-- The pieces of a byte string: characters, and `none` for an invalid sequence. -/
def decodePieces : Nat → Bytes → List (Option Char)
  | 0, _ => []
  | _ + 1, [] => []
  | fuel + 1, b :: bs =>
    (decodeHead (b :: bs)).1 :: decodePieces fuel ((b :: bs).drop (decodeHead (b :: bs)).2)

def fromUtf8Lossy (bytes : Bytes) : Str :=
  (decodePieces bytes.length bytes).map fun piece => piece.getD '\uFFFD'

def fromUtf8 (bytes : Bytes) : Option Str :=
  (decodePieces bytes.length bytes).allSome

def encode (s : Str) : Bytes := s.flatMap String.utf8EncodeChar

theorem toNat_byte (n : Nat) (h : n < 256) : (UInt8.ofNat n).toNat = n :=
  UInt8.toNat_ofNat_of_lt h

theorem char_eq_ofNat {c : Char} {n : Nat} (h : c.toNat = n) : Char.ofNat n = c := by
  rw [← h, Char.ofNat_toNat]

/-- Encoding one character and decoding the head of any continuation gives it back. -/
theorem decodeHead_encode (c : Char) (rest : Bytes) :
    decodeHead (String.utf8EncodeChar c ++ rest) = (some c, (String.utf8EncodeChar c).length) := by
  have hscalar : c.toNat < 0xD800 ∨ (0xDFFF < c.toNat ∧ c.toNat < 0x110000) := c.valid
  have hval : c.val.toNat = c.toNat := rfl
  unfold String.utf8EncodeChar
  simp only [hval]
  by_cases h1 : c.toNat ≤ 0x7F
  · simp only [if_pos h1, List.cons_append, List.nil_append, decodeHead,
      toNat_byte c.toNat (by omega), if_pos (show c.toNat < 0x80 by omega), Char.ofNat_toNat,
      List.length_singleton]
  by_cases h2 : c.toNat ≤ 0x7FF
  · have hfirst : (UInt8.ofNat (c.toNat / 64 % 32 + 192)).toNat = c.toNat / 64 + 192 := by
      rw [toNat_byte _ (by omega)]; omega
    have hsecond : (UInt8.ofNat (c.toNat % 64 + 128)).toNat = c.toNat % 64 + 128 :=
      toNat_byte _ (by omega)
    have hc1 : continuation (UInt8.ofNat (c.toNat % 64 + 128)) = true := by
      simp only [continuation, hsecond, Bool.and_eq_true, decide_eq_true_eq]; omega
    simp only [if_neg h1, if_pos h2, List.cons_append, List.nil_append, decodeHead, hfirst, hsecond,
      hc1, if_true, List.length_cons, List.length_nil]
    rw [if_neg (by omega), if_pos (by omega), char_eq_ofNat (c := c) (by omega)]
  by_cases h3 : c.toNat ≤ 0xFFFF
  · have hfirst : (UInt8.ofNat (c.toNat / 4096 % 16 + 224)).toNat = c.toNat / 4096 + 224 := by
      rw [toNat_byte _ (by omega)]; omega
    have hsecond : (UInt8.ofNat (c.toNat / 64 % 64 + 128)).toNat = c.toNat / 64 % 64 + 128 :=
      toNat_byte _ (by omega)
    have hthird : (UInt8.ofNat (c.toNat % 64 + 128)).toNat = c.toNat % 64 + 128 :=
      toNat_byte _ (by omega)
    have hs : secondByte (c.toNat / 4096 + 224) (c.toNat / 64 % 64 + 128) = true := by
      unfold secondByte
      split_ifs <;> simp only [Bool.and_eq_true, decide_eq_true_eq] <;> omega
    have hc2 : continuation (UInt8.ofNat (c.toNat % 64 + 128)) = true := by
      simp only [continuation, hthird, Bool.and_eq_true, decide_eq_true_eq]; omega
    simp only [if_neg h1, if_neg h2, if_pos h3, List.cons_append, List.nil_append, decodeHead,
      hfirst, hsecond, hthird, hs, hc2, if_true, List.length_cons, List.length_nil]
    rw [if_neg (by omega), if_neg (by omega), if_pos (by omega), char_eq_ofNat (c := c) (by omega)]
  · have hfirst : (UInt8.ofNat (c.toNat / 262144 % 8 + 240)).toNat = c.toNat / 262144 + 240 := by
      rw [toNat_byte _ (by omega)]; omega
    have hsecond : (UInt8.ofNat (c.toNat / 4096 % 64 + 128)).toNat = c.toNat / 4096 % 64 + 128 :=
      toNat_byte _ (by omega)
    have hthird : (UInt8.ofNat (c.toNat / 64 % 64 + 128)).toNat = c.toNat / 64 % 64 + 128 :=
      toNat_byte _ (by omega)
    have hfourth : (UInt8.ofNat (c.toNat % 64 + 128)).toNat = c.toNat % 64 + 128 :=
      toNat_byte _ (by omega)
    have hs : secondByte (c.toNat / 262144 + 240) (c.toNat / 4096 % 64 + 128) = true := by
      unfold secondByte
      split_ifs <;> simp only [Bool.and_eq_true, decide_eq_true_eq] <;> omega
    have hc2 : continuation (UInt8.ofNat (c.toNat / 64 % 64 + 128)) = true := by
      simp only [continuation, hthird, Bool.and_eq_true, decide_eq_true_eq]; omega
    have hc3 : continuation (UInt8.ofNat (c.toNat % 64 + 128)) = true := by
      simp only [continuation, hfourth, Bool.and_eq_true, decide_eq_true_eq]; omega
    simp only [if_neg h1, if_neg h2, if_neg h3, List.cons_append, List.nil_append, decodeHead,
      hfirst, hsecond, hthird, hfourth, hs, hc2, hc3, if_true, List.length_cons, List.length_nil]
    rw [if_neg (by omega), if_neg (by omega), if_neg (by omega), if_pos (by omega),
      char_eq_ofNat (c := c) (by omega)]

theorem decodePieces_encode (s : Str) (fuel : Nat) (h : (encode s).length ≤ fuel) :
    decodePieces fuel (encode s) = s.map some := by
  induction s generalizing fuel with
  | nil => cases fuel <;> rfl
  | cons c cs ih =>
    have hne : String.utf8EncodeChar c ≠ [] := String.utf8EncodeChar_ne_nil
    obtain ⟨b, bs, hb⟩ := List.exists_cons_of_ne_nil hne
    have hsplit : encode (c :: cs) = String.utf8EncodeChar c ++ encode cs := List.flatMap_cons
    cases fuel with
    | zero =>
      rw [hsplit, hb] at h
      simp at h
    | succ fuel =>
      have hunfold : decodePieces (fuel + 1) (String.utf8EncodeChar c ++ encode cs) =
          some c :: decodePieces fuel (encode cs) := by
        have hhead := decodeHead_encode c (encode cs)
        rw [hb, List.cons_append] at hhead ⊢
        simp only [decodePieces, hhead]
        simp
      have hlen : (encode cs).length ≤ fuel := by
        rw [hsplit, hb] at h
        simp only [List.cons_append, List.length_cons, List.length_append] at h
        omega
      rw [hsplit, hunfold, ih fuel hlen, List.map_cons]

theorem fromUtf8Lossy_encode (s : Str) : fromUtf8Lossy (encode s) = s := by
  unfold fromUtf8Lossy
  rw [decodePieces_encode s _ (Nat.le_refl _), List.map_map]
  exact List.map_id s

theorem fromUtf8Lossy_cons {b : UInt8} (h : b.toNat < 128) (rest : Bytes) :
    fromUtf8Lossy (b :: rest) = Char.ofNat b.toNat :: fromUtf8Lossy rest := by
  have hhead : decodeHead (b :: rest) = (some (Char.ofNat b.toNat), 1) := by
    simp only [decodeHead, if_pos h]
  unfold fromUtf8Lossy
  rw [List.length_cons, decodePieces, hhead]
  rfl

theorem fromUtf8_encode (s : Str) : fromUtf8 (encode s) = some s := by
  unfold fromUtf8
  rw [decodePieces_encode s _ (Nat.le_refl _)]
  induction s with
  | nil => rfl
  | cons c cs ih =>
    simp only [List.allSome, List.map_cons, List.mapM_cons, id_eq] at ih ⊢
    rw [ih]
    rfl

theorem encodeChar_ascii {c : Char} (h : c.toNat < 128) :
    String.utf8EncodeChar c = [UInt8.ofNat c.toNat] := by
  have hle : c.val.toNat ≤ 0x7F := by
    have hval : c.val.toNat = c.toNat := rfl
    omega
  unfold String.utf8EncodeChar
  simp only [if_pos hle]
  rfl

def byte (c : Char) : UInt8 := UInt8.ofNat c.toNat

def Ascii (s : Str) : Prop := ∀ c ∈ s, c.toNat < 128

instance (s : Str) : Decidable (Ascii s) := List.decidableBAll (fun c : Char => c.toNat < 128) s

theorem toNat_byte_ascii {c : Char} (h : c.toNat < 128) : (byte c).toNat = c.toNat :=
  toNat_byte c.toNat (by omega)

theorem byte_inj {c d : Char} (hc : c.toNat < 128) (hd : d.toNat < 128) (h : byte c = byte d) :
    c = d := by
  rw [← Char.ofNat_toNat c, ← Char.ofNat_toNat d, ← toNat_byte_ascii hc, ← toNat_byte_ascii hd, h]

theorem ascii_append {s t : Str} : Ascii (s ++ t) ↔ Ascii s ∧ Ascii t := List.forall_mem_append

theorem encode_append (s t : Str) : encode (s ++ t) = encode s ++ encode t := List.flatMap_append

theorem encode_ascii {s : Str} (h : Ascii s) : encode s = s.map byte := by
  induction s with
  | nil => rfl
  | cons c cs ih =>
    obtain ⟨hc, hcs⟩ := List.forall_mem_cons.mp h
    rw [encode, List.flatMap_cons, encodeChar_ascii hc, ← encode, ih hcs]
    rfl

theorem encodeChar_wide {c : Char} (h : 128 ≤ c.toNat) :
    ∀ b ∈ String.utf8EncodeChar c, 128 ≤ b.toNat := by
  have hval : c.val.toNat = c.toNat := rfl
  have hscalar : c.toNat < 0xD800 ∨ (0xDFFF < c.toNat ∧ c.toNat < 0x110000) := c.valid
  intro b hb
  unfold String.utf8EncodeChar at hb
  simp only [hval] at hb
  rw [if_neg (by omega)] at hb
  split_ifs at hb
  all_goals
    simp only [List.mem_cons, List.not_mem_nil, or_false] at hb
    rcases hb with rfl | rfl | rfl | rfl <;> rw [toNat_byte _ (by omega)] <;> omega

theorem fromUtf8Lossy_encode_append {s : Str} (h : Ascii s) (rest : Bytes) :
    fromUtf8Lossy (encode s ++ rest) = s ++ fromUtf8Lossy rest := by
  induction s with
  | nil => rfl
  | cons c cs ih =>
    obtain ⟨hc, hcs⟩ := List.forall_mem_cons.mp h
    have hbyte := toNat_byte_ascii hc
    rw [encode, List.flatMap_cons, encodeChar_ascii hc, ← encode, List.append_assoc,
      List.singleton_append, fromUtf8Lossy_cons (by rw [← byte, hbyte]; exact hc), ih hcs]
    rw [← byte, hbyte, Char.ofNat_toNat]
    rfl

theorem ascii_of_encode {s : Str} (h : ∀ b ∈ encode s, b.toNat < 128) : Ascii s := by
  intro c hc
  refine Nat.lt_of_not_le fun hwide => ?_
  obtain ⟨b, hb⟩ := List.exists_mem_of_ne_nil _ (String.utf8EncodeChar_ne_nil (c := c))
  have hmem : b ∈ encode s := List.mem_flatMap.mpr ⟨c, hc, hb⟩
  exact Nat.not_lt_of_le (encodeChar_wide hwide b hb) (h b hmem)

theorem encode_ne_nil {s : Str} (h : s ≠ []) : encode s ≠ [] := by
  obtain ⟨c, cs, rfl⟩ := List.exists_cons_of_ne_nil h
  intro hempty
  exact String.utf8EncodeChar_ne_nil (List.append_eq_nil_iff.mp hempty).1

theorem char_of_byte {c d : Char} (hd : d.toNat < 128) (h : byte d ∈ String.utf8EncodeChar c) :
    c = d := by
  by_cases hc : c.toNat < 128
  · rw [encodeChar_ascii hc, List.mem_singleton] at h
    exact byte_inj hc hd h.symm
  · have hwide := encodeChar_wide (Nat.le_of_not_lt hc) (byte d) h
    rw [toNat_byte_ascii hd] at hwide
    omega

/-- The text from a byte offset on; the offset must lie between two characters. -/
def dropBytes : Nat → Str → Option Str
  | 0, s => some s
  | _ + 1, [] => none
  | n + 1, c :: cs =>
    let width := (String.utf8EncodeChar c).length
    if width ≤ n + 1 then dropBytes (n + 1 - width) cs else none

def takeBytes : Nat → Str → Option Str
  | 0, _ => some []
  | _ + 1, [] => none
  | n + 1, c :: cs =>
    let width := (String.utf8EncodeChar c).length
    if width ≤ n + 1 then (takeBytes (n + 1 - width) cs).map (c :: ·) else none

def substr (s : Str) (start stop : Nat) : Option Str :=
  if start ≤ stop then (dropBytes start s).bind (takeBytes (stop - start)) else none

theorem dropBytes_ascii {s : Str} (h : Ascii s) {n : Nat} (hn : n ≤ s.length) :
    dropBytes n s = some (s.drop n) := by
  induction s generalizing n with
  | nil =>
    obtain rfl : n = 0 := Nat.le_zero.mp hn
    rfl
  | cons c cs ih =>
    obtain ⟨hc, hcs⟩ := List.forall_mem_cons.mp h
    cases n with
    | zero => rfl
    | succ n =>
      simp only [dropBytes, encodeChar_ascii hc, List.length_singleton]
      rw [if_pos (by omega), Nat.add_sub_cancel, ih hcs (Nat.le_of_succ_le_succ hn),
        List.drop_succ_cons]

theorem takeBytes_ascii {s : Str} (h : Ascii s) {n : Nat} (hn : n ≤ s.length) :
    takeBytes n s = some (s.take n) := by
  induction s generalizing n with
  | nil =>
    obtain rfl : n = 0 := Nat.le_zero.mp hn
    rfl
  | cons c cs ih =>
    obtain ⟨hc, hcs⟩ := List.forall_mem_cons.mp h
    cases n with
    | zero => rfl
    | succ n =>
      simp only [takeBytes, encodeChar_ascii hc, List.length_singleton]
      rw [if_pos (by omega), Nat.add_sub_cancel, ih hcs (Nat.le_of_succ_le_succ hn),
        List.take_succ_cons, Option.map_some]

/-- A slice between two pieces of ASCII text. -/
theorem substr_ascii {before piece after : Str} (h : Ascii (before ++ piece ++ after)) :
    substr (before ++ piece ++ after) before.length (before.length + piece.length) = some piece := by
  have hlength : before.length ≤ (before ++ (piece ++ after)).length := by
    rw [List.length_append]
    omega
  rw [List.append_assoc] at h ⊢
  have hrest : Ascii (piece ++ after) := (ascii_append.mp h).2
  rw [substr, if_pos (by omega), dropBytes_ascii h hlength, List.drop_left, Option.bind_some,
    Nat.add_sub_cancel_left, takeBytes_ascii hrest (by rw [List.length_append]; omega),
    List.take_left]

end Text
