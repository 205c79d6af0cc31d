import ClassSketch.Proofs.Sketch.AnnotationValues
import ClassSketch.Proofs.Text.Utf16
import ClassSketch.Text.Hex

/-!
# Constants as literals

A constant of a primitive type is decoded in two places: as the value of an annotation element,
under the letter in its tag, and as the constant of a field, under the type of the field. Both
decide `Literal.OfConstant`, which has at most one literal for a letter and a constant, and both
refuse what has none with the letter.

## Reading a character literal

A literal keeps the value of a number in the width of its type, but a character is kept as what
stands between the quotes in source text. `Literal.denoted?` reads that back: an escape with a
letter, an escape with four hexadecimal digits, or a character that stands for itself. The reader
is stricter than it has to be, in that a quote, a backslash and the two ends of lines do not stand
for themselves. A surrogate has no character, and only the escape tells which one it is.

## Main definitions

* `Literal.Decoded` — the outcome of decoding a constant under a letter
* `Literal.hexDigits` — the last digits of a number
* `Literal.denoted?` — the UTF-16 unit that a character literal denotes

## Main results

* `Literal.ofElement_eq_ofField` — the two places agree
* `Literal.unicodeDigits_eq` — a unicode escape of a unit has four digits
* `Literal.denoted?_ofUnit` — a character literal denotes the unit it was made of
* `Literal.decoding_reversible` — what a constant of a primitive type is decoded to
-/

namespace ClassSketch

namespace Literal

open Text

variable {letter c : Char} {value : Constant} {u : UInt16}

/-! ### The two places -/

/-- The outcome of decoding a constant under a letter: its literal, or a mismatch of the letter if
there is none. -/
inductive Decoded (letter : Char) (value : Constant) : Except ClassFile.Error Literal → Prop
  | literal {l : Literal} (h : OfConstant letter value l) : Decoded letter value (.ok l)
  | mismatch (h : ∀ l, ¬OfConstant letter value l) :
      Decoded letter value (.error (.constantMismatch letter))

/-- A constant is one literal of a type at most. -/
theorem OfConstant.unique {l l' : Literal} (h : OfConstant letter value l)
    (h' : OfConstant letter value l') : l = l' := by
  cases h <;> cases h' <;> rfl

theorem Decoded.unique {r r' : Except ClassFile.Error Literal} (h : Decoded letter value r)
    (h' : Decoded letter value r') : r = r' := by
  cases h with
  | literal h =>
    cases h' with
    | literal h' => rw [h.unique h']
    | mismatch h' => exact absurd h (h' _)
  | mismatch h =>
    cases h' with
    | literal h' => exact absurd h' (h _)
    | mismatch => rfl

/-- Values of annotations are decoded by the table of letters. -/
theorem ofElement_decoded (tag : UInt8) (value : Constant) :
    Decoded (byteChar tag) value (ofElement tag value) := by
  cases h : ofElement tag value with
  | ok l => exact .literal (ofElement_eq_ok_iff.mp h)
  | error e =>
    obtain ⟨hNone, rfl⟩ := ofElement_eq_error_iff.mp h
    exact .mismatch hNone

theorem ofField_eq_ok_iff {p : Primitive} {l : Literal} :
    ofField (.primitive p) value = .ok l ↔ OfConstant p.letter value l := by
  constructor
  · intro h
    cases p <;> cases value <;> cases h <;> constructor
  · intro h
    cases p <;> cases h <;> rfl

theorem eq_of_ofField_eq_error {p : Primitive} {e : ClassFile.Error}
    (h : ofField (.primitive p) value = .error e) : e = .constantMismatch p.letter := by
  rw [ofField.eq_def] at h
  dsimp only at h
  split at h <;> cases h
  rfl

/-- Values of fields are decoded by the table of letters. -/
theorem ofField_decoded (p : Primitive) (value : Constant) :
    Decoded p.letter value (ofField (.primitive p) value) := by
  cases h : ofField (.primitive p) value with
  | ok l => exact .literal (ofField_eq_ok_iff.mp h)
  | error e =>
    obtain rfl := eq_of_ofField_eq_error h
    refine .mismatch fun l hl => ?_
    rw [ofField_eq_ok_iff.mpr hl] at h
    cases h

/-- The letter of a tag and the type with that letter lead to the same outcome. -/
theorem ofElement_eq_ofField {tag : UInt8} {p : Primitive} (h : p.letter = byteChar tag)
    (value : Constant) : ofElement tag value = ofField (.primitive p) value :=
  (ofElement_decoded tag value).unique (h ▸ ofField_decoded p value)

/-! ### Hexadecimal digits -/

/-- A digit is read as its value. -/
theorem hexValue?_hexDigit (n : ℕ) : hexValue? (hexDigit n) = some (n % 16) := by
  have hDigit : ∀ k < 16, hexValue? k.digitChar = some k := by decide
  exact hDigit (n % 16) (Nat.mod_lt n (by decide))

/-- The last `k` hexadecimal digits of a number. -/
def hexDigits : ℕ → ℕ → List Char
  | 0, _ => []
  | k + 1, n => hexDigits k (n / 16) ++ [hexDigit n]

/-- Zeros before the digits of a number fill them up to a width that they fit in. -/
theorem replicate_append_toDigits (k : ℕ) : ∀ {n : ℕ}, n < 16 ^ (k + 1) →
    List.replicate (k + 1 - (Nat.toDigits 16 n).length) '0' ++ Nat.toDigits 16 n =
      hexDigits (k + 1) n := by
  induction k with
  | zero =>
    intro n h
    have hn : n < 16 := h
    rw [Nat.toDigits_of_lt_base hn, hexDigits, hexDigit, Nat.mod_eq_of_lt hn]
    rfl
  | succ k ih =>
    intro n h
    have hQuotient := ih (n := n / 16) (Nat.div_lt_of_lt_mul (by rwa [Nat.pow_succ'] at h))
    rw [hexDigits, ← hQuotient]
    rcases Nat.lt_or_ge n 16 with hn | hn
    · -- The quotient is zero, but it is still written, as the last of the zeros.
      have hZero : n / 16 = 0 := Nat.div_eq_of_lt hn
      have hZeros : List.replicate k '0' ++ Nat.toDigits 16 0 = List.replicate (k + 1) '0' :=
        List.replicate_succ'.symm
      rw [hZero, Nat.toDigits_of_lt_base hn, hexDigit, Nat.mod_eq_of_lt hn]
      exact congrArg (· ++ [n.digitChar]) hZeros.symm
    · rw [Nat.toDigits_of_base_le (by decide) hn, List.length_append, List.length_singleton,
        Nat.add_sub_add_right, List.append_assoc, hexDigit]

theorem unicodeDigits_eq {n : ℕ} (h : n < 0x10000) : unicodeDigits n = hexDigits 4 n :=
  replicate_append_toDigits 3 h

theorem hexDigits_four (n : ℕ) : hexDigits 4 n =
    [hexDigit (n / 16 / 16 / 16), hexDigit (n / 16 / 16), hexDigit (n / 16), hexDigit n] := rfl

/-- Four digits are read as their number. -/
theorem hexUnit?_hexDigits {n : ℕ} (h : n < 0x10000) :
    hexUnit? (hexDigit (n / 16 / 16 / 16)) (hexDigit (n / 16 / 16)) (hexDigit (n / 16))
      (hexDigit n) = some n.toUInt16 := by
  have hn : n / 16 / 16 / 16 % 16 * 4096 + n / 16 / 16 % 16 * 256 + n / 16 % 16 * 16 + n % 16 =
      n := by
    omega
  simp only [hexUnit?, hexValue?_hexDigit]
  exact congrArg (fun k : ℕ => some k.toUInt16) hn

/-! ### Character literals -/

/-- The letters of escapes, and the characters for which they stand. -/
def namedEscapes : List (Char × Char) :=
  [('b', '\x08'), ('t', '\t'), ('n', '\n'), ('f', '\x0c'), ('r', '\r'), ('\'', '\''), ('\\', '\\')]

/-- The unit of a character that is one unit. -/
def unit? (c : Char) : Option UInt16 :=
  match units c with
  | [u] => some u
  | _ => none

/-- Whether a character stands for itself between quotes. -/
def isPlain (c : Char) : Bool := c != '\'' && c != '\\' && c != '\n' && c != '\r'

/-- The unit that is denoted by what stands between the quotes of a character literal. -/
def denoted? : List Char → Option UInt16
  | [c] => if isPlain c then unit? c else none
  | ['\\', letter] => (namedEscapes.lookup letter).bind unit?
  | ['\\', 'u', a, b, c, d] => hexUnit? a b c d
  | _ => none

theorem unit?_of_units (h : units c = [u]) : unit? c = some u := by rw [unit?, h]

theorem denoted?_plain (h : isPlain c = true) : denoted? [c] = unit? c := by
  rw [denoted?, if_pos h]

theorem denoted?_named (letter : Char) :
    denoted? ['\\', letter] = (namedEscapes.lookup letter).bind unit? := rfl

theorem denoted?_unicode (a b c d : Char) :
    denoted? ['\\', 'u', a, b, c, d] = hexUnit? a b c d := rfl

theorem denoted?_unicodeDigits {n : ℕ} (h : n < 0x10000) :
    denoted? ('\\' :: 'u' :: unicodeDigits n) = some n.toUInt16 := by
  rw [unicodeDigits_eq h, hexDigits_four, denoted?_unicode, hexUnit?_hexDigits h]

/-- A character is written with a letter, with digits or as it is. -/
theorem escapeChar_cases (c : Char) :
    (∃ letter, namedEscapes.lookup letter = some c ∧ escapeChar c = ['\\', letter]) ∨
      (isControl c = true ∧ escapeChar c = '\\' :: 'u' :: unicodeDigits c.toNat) ∨
      isPlain c = true ∧ escapeChar c = [c] := by
  have hNamed : ∀ e ∈ namedEscapes,
      namedEscapes.lookup e.1 = some e.2 ∧ escapeChar e.2 = ['\\', e.1] := by decide
  by_cases hc : c ∈ namedEscapes.map Prod.snd
  · obtain ⟨e, hMem, rfl⟩ := List.mem_map.mp hc
    exact .inl ⟨e.1, hNamed e hMem⟩
  · right
    obtain ⟨hb, ht, hn, hf, hr, hQuote, hBackslash⟩ : c ≠ '\x08' ∧ c ≠ '\t' ∧ c ≠ '\n' ∧
        c ≠ '\x0c' ∧ c ≠ '\r' ∧ c ≠ '\'' ∧ c ≠ '\\' := by simpa [namedEscapes] using hc
    rw [escapeChar, if_neg hb, if_neg ht, if_neg hn, if_neg hf, if_neg hr, if_neg hQuote,
      if_neg hBackslash]
    cases hControl : isControl c with
    | true => exact .inl ⟨rfl, rfl⟩
    | false => exact .inr ⟨by simp [isPlain, hn, hr, hQuote, hBackslash], rfl⟩

theorem toNat_of_units (h : units c = [u]) : c.toNat < 0x10000 ∧ c.toNat.toUInt16 = u := by
  simp only [units] at h
  split at h
  · next hLt => exact ⟨hLt, List.singleton_inj.mp h⟩
  · cases h

/-- A character of one unit, written with an escape or without, denotes that unit. -/
theorem denoted?_escapeChar (h : units c = [u]) : denoted? (escapeChar c) = some u := by
  rcases escapeChar_cases c with ⟨letter, hLookup, hEscape⟩ | ⟨-, hEscape⟩ | ⟨hPlain, hEscape⟩
  · rw [hEscape, denoted?_named, hLookup, Option.bind_some, unit?_of_units h]
  · obtain ⟨hLt, hu⟩ := toNat_of_units h
    rw [hEscape, denoted?_unicodeDigits hLt, hu]
  · rw [hEscape, denoted?_plain hPlain, unit?_of_units h]

/-- What a character literal is made of can be read back. -/
theorem denoted?_ofUnit (u : UInt16) :
    ∃ c escaped, ofUnit u = .char c escaped ∧ denoted? escaped.toList = some u := by
  rw [ofUnit]
  split
  · refine ⟨_, _, rfl, ?_⟩
    rw [String.toList_ofList, denoted?_unicodeDigits u.toNat_lt]
    simp
  · next h =>
    obtain ⟨hHigh, hLow⟩ : isHighUnit u = false ∧ isLowUnit u = false := by simpa using h
    refine ⟨_, _, rfl, ?_⟩
    rw [String.toList_ofList, denoted?_escapeChar (units_unitChar hHigh hLow)]

/-- Different units have different literals. -/
theorem ofUnit_inj {v : UInt16} : ofUnit u = ofUnit v ↔ u = v := by
  refine ⟨fun h => ?_, congrArg ofUnit⟩
  obtain ⟨c, escaped, hu, hDenoted⟩ := denoted?_ofUnit u
  obtain ⟨c', escaped', hv, hDenoted'⟩ := denoted?_ofUnit v
  rw [hu, hv] at h
  cases h
  exact Option.some.inj (hDenoted.symm.trans hDenoted')

/-! ### Numbers -/

/-- The unit of a number is what is left of it modulo the number of units. -/
theorem toNat_unit (n : Int32) : (n.toUInt32.toUInt16.toNat : ℤ) = n.toInt % 2 ^ 16 := by
  have hInt : n.toInt = (n.toUInt32.toNat : ℤ).bmod (2 ^ 32) := BitVec.toInt_eq_toNat_bmod _
  have hBits : n.toInt % 2 ^ 32 = (n.toUInt32.toNat : ℤ) % 2 ^ 32 := by
    rw [hInt]
    exact Int.bmod_emod
  rw [UInt32.toNat_toUInt16]
  omega

/-- Two codes have one literal if they differ by a multiple of 2¹⁶. -/
theorem ofCode_inj {m n : Int32} : ofCode m = ofCode n ↔ m.toInt % 2 ^ 16 = n.toInt % 2 ^ 16 := by
  rw [ofCode, ofCode, ofUnit_inj, ← toNat_unit, ← toNat_unit, Nat.cast_inj, UInt16.toNat_inj]

/-- The letters of the primitive types that have values. -/
def constantLetters : List Char := ['B', 'C', 'D', 'F', 'I', 'J', 'S', 'Z']

theorem exists_of_mem_constantLetters (h : letter ∈ constantLetters) :
    ∃ p ≠ Primitive.void, p.letter = letter := by
  have hAll : (constantLetters.all fun l =>
      Primitive.all.any fun p => decide (p ≠ .void ∧ p.letter = l)) = true := by decide
  obtain ⟨p, -, hp⟩ := List.any_eq_true.mp (List.all_eq_true.mp hAll letter h)
  exact ⟨p, of_decide_eq_true hp⟩

theorem fieldType_letter {p : Primitive} (hp : p ≠ .void) :
    Descriptor.fieldType (String.singleton p.letter) = .ok (.primitive p) := by
  rw [Descriptor.fieldType, String.toList_singleton]
  cases p with
  | void => exact absurd rfl hp
  | _ => rfl

/-- **What a constant of a primitive type is decoded to.** Under the letter of the type an element
of an annotation and a field have the same literal, or the same mismatch. An integer keeps its last
bits, with a sign in a byte and a short, and a character denotes the unit of its last sixteen bits,
which is all that its literal depends on. -/
theorem decoding_reversible :
    (∀ tag : UInt8, byteChar tag ∈ constantLetters → ∃ p : Primitive,
      Descriptor.fieldType (String.singleton (byteChar tag)) = .ok (.primitive p) ∧
        ∀ value, ofElement tag value = ofField (.primitive p) value ∧
          Decoded (byteChar tag) value (ofField (.primitive p) value)) ∧
    (∀ n : Int32, ∃ b : Int8, ofField (.primitive .byte) (.int n) = .ok (.byte b) ∧
      b.toInt = n.toInt.bmod (2 ^ 8)) ∧
    (∀ n : Int32, ∃ k : Int16, ofField (.primitive .short) (.int n) = .ok (.short k) ∧
      k.toInt = n.toInt.bmod (2 ^ 16)) ∧
    (∀ n : Int32, ∃ c escaped u, ofField (.primitive .char) (.int n) = .ok (.char c escaped) ∧
      denoted? escaped.toList = some u ∧ (u.toNat : ℤ) = n.toInt % 2 ^ 16) ∧
    ∀ m n : Int32, ofField (.primitive .char) (.int m) = ofField (.primitive .char) (.int n) ↔
      m.toInt % 2 ^ 16 = n.toInt % 2 ^ 16 := by
  refine ⟨fun tag hTag => ?_, fun n => ?_, fun n => ?_, fun n => ?_, fun m n => ?_⟩
  · obtain ⟨p, hp, hLetter⟩ := exists_of_mem_constantLetters hTag
    rw [← hLetter]
    exact ⟨p, fieldType_letter hp, fun value =>
      ⟨ofElement_eq_ofField hLetter value, ofField_decoded p value⟩⟩
  · exact ⟨n.toInt8, rfl, n.toInt_toInt8⟩
  · exact ⟨n.toInt16, rfl, n.toInt_toInt16⟩
  · obtain ⟨c, escaped, hChar, hDenoted⟩ := denoted?_ofUnit n.toUInt32.toUInt16
    exact ⟨c, escaped, _, congrArg Except.ok hChar, hDenoted, toNat_unit n⟩
  · have hField : ∀ k, ofField (.primitive .char) (.int k) = .ok (ofCode k) := fun _ => rfl
    rw [hField, hField, Except.ok.injEq, ofCode_inj]

end Literal

end ClassSketch
