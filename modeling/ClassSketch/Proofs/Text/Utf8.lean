import ClassSketch.Text.Utf8
import Mathlib.Data.UInt

/-!
# Plain UTF-8

The decoder accepts the bytes of texts and nothing else. Both directions go through the number of a
character: the ranges in which the first two bytes may lie are those in which the number needs just
as many bytes, and is no surrogate and not too large.

## Main results

* `Text.decodeUtf8_append` — the bytes of a character are read as it
* `Text.decodeUtf8_eq_some_iff` — the texts that bytes stand for
* `Text.decodeUtf8Lossy_encodeUtf8` — the text that is shown for the bytes of a text is this text
* `Text.mem_decodeUtf8Lossy_iff`, `Text.eq_encodeUtf8_of_decodeUtf8Lossy` — characters of one byte
  are shown where they are, and nowhere else
* `Text.mem_encodeUtf8_iff` — where the bytes are that are characters of their own
* `Text.length_encodeUtf8`, `Text.utf8Length_append` — how many bytes there are
* `Text.head?_encodeUtf8`, `Text.eq_of_leadChar_eq` — the first byte
-/

namespace ClassSketch

namespace Text

/-! ### The bytes of a character -/

theorem toNat_ofNat_byte {n : ℕ} (h : n < 256) : (UInt8.ofNat n).toNat = n := by
  simp [Nat.mod_eq_of_lt h]

theorem toNat_ofNat_char {n : ℕ} (h : n < 0xD800 ∨ 0xDFFF < n ∧ n < 0x110000) :
    (Char.ofNat n).val.toNat = n := by
  rw [Char.ofNat, dif_pos h]
  rfl

variable {a b c d : UInt8}

theorem isTail_iff : isTail b = true ↔ 0x80 ≤ b.toNat ∧ b.toNat ≤ 0xBF := by
  simp [isTail, UInt8.le_iff_toNat_le]

theorem isSecondOfThree_iff : isSecondOfThree a b = true ↔ 0x80 ≤ b.toNat ∧ b.toNat ≤ 0xBF ∧
    (a.toNat = 0xE0 → 0xA0 ≤ b.toNat) ∧ (a.toNat = 0xED → b.toNat ≤ 0x9F) := by
  have h₀ : a.toNat = 0xE0 ↔ a = 0xE0 := by rw [← UInt8.toNat_inj]; rfl
  have hD : a.toNat = 0xED ↔ a = 0xED := by rw [← UInt8.toNat_inj]; rfl
  rw [isSecondOfThree, h₀, hD]
  simp only [beq_iff_eq]
  split
  · next h =>
    subst h
    simp [UInt8.le_iff_toNat_le]
    omega
  split
  · next h =>
    subst h
    simp [UInt8.le_iff_toNat_le]
    omega
  · next h h' => simp [isTail_iff, h, h']

theorem isSecondOfFour_iff : isSecondOfFour a b = true ↔ 0x80 ≤ b.toNat ∧ b.toNat ≤ 0xBF ∧
    (a.toNat = 0xF0 → 0x90 ≤ b.toNat) ∧ (a.toNat = 0xF4 → b.toNat ≤ 0x8F) := by
  have h₀ : a.toNat = 0xF0 ↔ a = 0xF0 := by rw [← UInt8.toNat_inj]; rfl
  have h₄ : a.toNat = 0xF4 ↔ a = 0xF4 := by rw [← UInt8.toNat_inj]; rfl
  rw [isSecondOfFour, h₀, h₄]
  simp only [beq_iff_eq]
  split
  · next h =>
    subst h
    simp [UInt8.le_iff_toNat_le]
    omega
  split
  · next h =>
    subst h
    simp [UInt8.le_iff_toNat_le]
    omega
  · next h h' => simp [isTail_iff, h, h']

/-! ### One character -/

section Characters

variable {s : List UInt8}

theorem decodeUtf8_one (h : a.toNat < 0x80) :
    decodeUtf8 (a :: s) = (decodeUtf8 s).map (Char.ofNat a.toNat :: ·) := by
  have ha : a < 0x80 := UInt8.lt_iff_toNat_lt.mpr h
  rw [decodeUtf8.eq_def]
  simp only [if_pos ha]

theorem decodeUtf8_two (ha : 0xC2 ≤ a.toNat) (ha' : a.toNat ≤ 0xDF) (hb : isTail b = true) :
    decodeUtf8 (a :: b :: s) =
      (decodeUtf8 s).map (Char.ofNat (a.toNat % 32 * 64 + tailBits b) :: ·) := by
  have h₁ : ¬a < 0x80 := by rw [UInt8.lt_iff_toNat_lt]; simp; omega
  have h₂ : (0xC2 ≤ a && a ≤ 0xDF) = true := by simp [UInt8.le_iff_toNat_le, ha, ha']
  rw [decodeUtf8, if_neg h₁, if_pos h₂, if_pos hb]

theorem decodeUtf8_three (ha : 0xE0 ≤ a.toNat) (ha' : a.toNat ≤ 0xEF)
    (hb : isSecondOfThree a b = true) (hc : isTail c = true) :
    decodeUtf8 (a :: b :: c :: s) = (decodeUtf8 s).map
      (Char.ofNat (a.toNat % 16 * 4096 + tailBits b * 64 + tailBits c) :: ·) := by
  have h₁ : ¬a < 0x80 := by rw [UInt8.lt_iff_toNat_lt]; simp; omega
  have h₂ : ¬(0xC2 ≤ a && a ≤ 0xDF) = true := by simp [UInt8.le_iff_toNat_le]; omega
  have h₃ : (0xE0 ≤ a && a ≤ 0xEF) = true := by simp [UInt8.le_iff_toNat_le, ha, ha']
  rw [decodeUtf8, if_neg h₁, if_neg h₂, if_pos h₃]
  simp only [hb, hc]
  rfl

theorem decodeUtf8_four (ha : 0xF0 ≤ a.toNat) (ha' : a.toNat ≤ 0xF4)
    (hb : isSecondOfFour a b = true) (hc : isTail c = true) (hd : isTail d = true) :
    decodeUtf8 (a :: b :: c :: d :: s) = (decodeUtf8 s).map
      (Char.ofNat (a.toNat % 8 * 262144 + tailBits b * 4096 + tailBits c * 64 + tailBits d) ::
        ·) := by
  have h₁ : ¬a < 0x80 := by rw [UInt8.lt_iff_toNat_lt]; simp; omega
  have h₂ : ¬(0xC2 ≤ a && a ≤ 0xDF) = true := by simp [UInt8.le_iff_toNat_le]; omega
  have h₃ : ¬(0xE0 ≤ a && a ≤ 0xEF) = true := by simp [UInt8.le_iff_toNat_le]; omega
  have h₄ : (0xF0 ≤ a && a ≤ 0xF4) = true := by simp [UInt8.le_iff_toNat_le, ha, ha']
  rw [decodeUtf8, if_neg h₁, if_neg h₂, if_neg h₃, if_pos h₄]
  simp only [hb, hc, hd]
  rfl

/-- The bytes of a character are read as it, whatever comes after them. -/
theorem decodeUtf8_append (e : Char) (s : List UInt8) :
    decodeUtf8 (String.utf8EncodeChar e ++ s) = (decodeUtf8 s).map (e :: ·) := by
  have he : e.toNat < 0xD800 ∨ 0xDFFF < e.toNat ∧ e.toNat < 0x110000 := e.valid
  have hVal : e.val.toNat = e.toNat := rfl
  rw [String.utf8EncodeChar, hVal]
  generalize hn : e.toNat = n at he
  have hChar : Char.ofNat n = e := by rw [← hn, Char.ofNat_toNat]
  split
  · have ha : (UInt8.ofNat n).toNat = n := toNat_ofNat_byte (by omega)
    rw [List.cons_append, List.nil_append, decodeUtf8_one (by omega), ha, hChar]
  split
  · have ha : (UInt8.ofNat (n / 64 % 32 + 192)).toNat = n / 64 + 192 := by
      rw [toNat_ofNat_byte (by omega)]
      omega
    have hb : (UInt8.ofNat (n % 64 + 128)).toNat = n % 64 + 128 := toNat_ofNat_byte (by omega)
    have hNumber : (n / 64 + 192) % 32 * 64 + (n % 64 + 128) % 64 = n := by omega
    rw [List.cons_append, List.cons_append, List.nil_append,
      decodeUtf8_two (by omega) (by omega) (isTail_iff.mpr (by omega)), tailBits, ha, hb, hNumber,
      hChar]
  split
  · have ha : (UInt8.ofNat (n / 4096 % 16 + 224)).toNat = n / 4096 + 224 := by
      rw [toNat_ofNat_byte (by omega)]
      omega
    have hb : (UInt8.ofNat (n / 64 % 64 + 128)).toNat = n / 64 % 64 + 128 :=
      toNat_ofNat_byte (by omega)
    have hc : (UInt8.ofNat (n % 64 + 128)).toNat = n % 64 + 128 := toNat_ofNat_byte (by omega)
    have hNumber : (n / 4096 + 224) % 16 * 4096 + (n / 64 % 64 + 128) % 64 * 64 +
        (n % 64 + 128) % 64 = n := by omega
    rw [List.cons_append, List.cons_append, List.cons_append, List.nil_append,
      decodeUtf8_three (by omega) (by omega) (isSecondOfThree_iff.mpr (by omega))
        (isTail_iff.mpr (by omega)), tailBits, tailBits, ha, hb, hc, hNumber, hChar]
  · have ha : (UInt8.ofNat (n / 262144 % 8 + 240)).toNat = n / 262144 + 240 := by
      rw [toNat_ofNat_byte (by omega)]
      omega
    have hb : (UInt8.ofNat (n / 4096 % 64 + 128)).toNat = n / 4096 % 64 + 128 :=
      toNat_ofNat_byte (by omega)
    have hc : (UInt8.ofNat (n / 64 % 64 + 128)).toNat = n / 64 % 64 + 128 :=
      toNat_ofNat_byte (by omega)
    have hd : (UInt8.ofNat (n % 64 + 128)).toNat = n % 64 + 128 := toNat_ofNat_byte (by omega)
    have hNumber : (n / 262144 + 240) % 8 * 262144 + (n / 4096 % 64 + 128) % 64 * 4096 +
        (n / 64 % 64 + 128) % 64 * 64 + (n % 64 + 128) % 64 = n := by omega
    rw [List.cons_append, List.cons_append, List.cons_append, List.cons_append, List.nil_append,
      decodeUtf8_four (by omega) (by omega) (isSecondOfFour_iff.mpr (by omega))
        (isTail_iff.mpr (by omega)) (isTail_iff.mpr (by omega)), tailBits, tailBits, tailBits, ha,
      hb, hc, hd, hNumber, hChar]

/-! ### What is accepted -/

theorem utf8EncodeChar_one (h : a.toNat < 0x80) :
    String.utf8EncodeChar (Char.ofNat a.toNat) = [a] := by
  rw [String.utf8EncodeChar, toNat_ofNat_char (by omega), if_pos (by omega), UInt8.ofNat_toNat]

theorem utf8EncodeChar_two (ha : 0xC2 ≤ a.toNat) (ha' : a.toNat ≤ 0xDF) (hb : isTail b = true) :
    String.utf8EncodeChar (Char.ofNat (a.toNat % 32 * 64 + tailBits b)) = [a, b] := by
  rw [isTail_iff] at hb
  rw [tailBits, String.utf8EncodeChar, toNat_ofNat_char (by omega), if_neg (by omega),
    if_pos (by omega)]
  have hFirst : (a.toNat % 32 * 64 + b.toNat % 64) / 64 % 32 + 192 = a.toNat := by omega
  have hSecond : (a.toNat % 32 * 64 + b.toNat % 64) % 64 + 128 = b.toNat := by omega
  rw [hFirst, hSecond, UInt8.ofNat_toNat, UInt8.ofNat_toNat]

theorem utf8EncodeChar_three (ha : 0xE0 ≤ a.toNat) (ha' : a.toNat ≤ 0xEF)
    (hb : isSecondOfThree a b = true) (hc : isTail c = true) :
    String.utf8EncodeChar
      (Char.ofNat (a.toNat % 16 * 4096 + tailBits b * 64 + tailBits c)) = [a, b, c] := by
  rw [isSecondOfThree_iff] at hb
  rw [isTail_iff] at hc
  rw [tailBits, tailBits]
  generalize hn : a.toNat % 16 * 4096 + b.toNat % 64 * 64 + c.toNat % 64 = n
  have hFirst : n / 4096 % 16 + 224 = a.toNat := by omega
  have hSecond : n / 64 % 64 + 128 = b.toNat := by omega
  have hThird : n % 64 + 128 = c.toNat := by omega
  rw [String.utf8EncodeChar, toNat_ofNat_char (by omega), if_neg (by omega), if_neg (by omega),
    if_pos (by omega), hFirst, hSecond, hThird, UInt8.ofNat_toNat, UInt8.ofNat_toNat,
    UInt8.ofNat_toNat]

theorem utf8EncodeChar_four (ha : 0xF0 ≤ a.toNat) (ha' : a.toNat ≤ 0xF4)
    (hb : isSecondOfFour a b = true) (hc : isTail c = true) (hd : isTail d = true) :
    String.utf8EncodeChar
      (Char.ofNat (a.toNat % 8 * 262144 + tailBits b * 4096 + tailBits c * 64 + tailBits d)) =
        [a, b, c, d] := by
  rw [isSecondOfFour_iff] at hb
  rw [isTail_iff] at hc hd
  rw [tailBits, tailBits, tailBits]
  generalize hn : a.toNat % 8 * 262144 + b.toNat % 64 * 4096 + c.toNat % 64 * 64 +
    d.toNat % 64 = n
  have hFirst : n / 262144 % 8 + 240 = a.toNat := by omega
  have hSecond : n / 4096 % 64 + 128 = b.toNat := by omega
  have hThird : n / 64 % 64 + 128 = c.toNat := by omega
  have hFourth : n % 64 + 128 = d.toNat := by omega
  rw [String.utf8EncodeChar, toNat_ofNat_char (by omega), if_neg (by omega), if_neg (by omega),
    if_neg (by omega), hFirst, hSecond, hThird, hFourth, UInt8.ofNat_toNat, UInt8.ofNat_toNat,
    UInt8.ofNat_toNat, UInt8.ofNat_toNat]

end Characters

/-! ### Whole texts -/

/-- A text is read back from its bytes. -/
theorem decodeUtf8_encodeUtf8 (text : List Char) : decodeUtf8 (encodeUtf8 text) = some text := by
  induction text with
  | nil => rfl
  | cons e text ih =>
    rw [encodeUtf8] at ih ⊢
    rw [List.flatMap_cons, decodeUtf8_append, ih, Option.map_some]

/-- Only the bytes of texts are accepted. -/
theorem eq_encodeUtf8_of_decodeUtf8 (bytes : List UInt8) :
    ∀ {text}, decodeUtf8 bytes = some text → bytes = encodeUtf8 text := by
  fun_induction decodeUtf8 bytes with
  | case1 =>
    intro text h
    cases h
    rfl
  | case2 a s ha ih =>
    intro text h
    have ha' : a.toNat < 0x80 := UInt8.lt_iff_toNat_lt.mp ha
    obtain ⟨rest, hRest, rfl⟩ := Option.map_eq_some_iff.mp h
    rw [encodeUtf8, List.flatMap_cons, utf8EncodeChar_one ha', ← encodeUtf8, ← ih hRest]
    rfl
  | case3 a _ ha b s hb ih =>
    intro text h
    simp only [Bool.and_eq_true, decide_eq_true_eq, UInt8.le_iff_toNat_le] at ha
    obtain ⟨rest, hRest, rfl⟩ := Option.map_eq_some_iff.mp h
    rw [encodeUtf8, List.flatMap_cons, utf8EncodeChar_two ha.1 ha.2 hb, ← encodeUtf8, ← ih hRest]
    rfl
  | case6 a _ _ ha b c s hTails ih =>
    intro text h
    simp only [Bool.and_eq_true, decide_eq_true_eq, UInt8.le_iff_toNat_le] at ha
    obtain ⟨hb, hc⟩ := Bool.and_eq_true_iff.mp hTails
    obtain ⟨rest, hRest, rfl⟩ := Option.map_eq_some_iff.mp h
    rw [encodeUtf8, List.flatMap_cons, utf8EncodeChar_three ha.1 ha.2 hb hc, ← encodeUtf8,
      ← ih hRest]
    rfl
  | case9 a _ _ _ ha b c d s hTails ih =>
    intro text h
    simp only [Bool.and_eq_true, decide_eq_true_eq, UInt8.le_iff_toNat_le] at ha
    obtain ⟨hFront, hd⟩ := Bool.and_eq_true_iff.mp hTails
    obtain ⟨hb, hc⟩ := Bool.and_eq_true_iff.mp hFront
    obtain ⟨rest, hRest, rfl⟩ := Option.map_eq_some_iff.mp h
    rw [encodeUtf8, List.flatMap_cons, utf8EncodeChar_four ha.1 ha.2 hb hc hd, ← encodeUtf8,
      ← ih hRest]
    rfl
  | _ => simp

/-- Bytes stand for a text just if they are the bytes of it. -/
theorem decodeUtf8_eq_some_iff {bytes : List UInt8} {text : List Char} :
    decodeUtf8 bytes = some text ↔ bytes = encodeUtf8 text := by
  refine ⟨eq_encodeUtf8_of_decodeUtf8 bytes, ?_⟩
  rintro rfl
  exact decodeUtf8_encodeUtf8 text

theorem decodeUtf8_encodeUtf8_append (s : List Char) (bytes : List UInt8) :
    decodeUtf8 (encodeUtf8 s ++ bytes) = (decodeUtf8 bytes).map (s ++ ·) := by
  induction s with
  | nil => simp [encodeUtf8]
  | cons c s ih =>
    rw [encodeUtf8] at ih ⊢
    rw [List.flatMap_cons, List.append_assoc, decodeUtf8_append, ih, Option.map_map]
    rfl

/-- Different texts have different bytes. -/
theorem encodeUtf8_inj {s t : List Char} : encodeUtf8 s = encodeUtf8 t ↔ s = t := by
  refine ⟨fun h => ?_, fun h => by rw [h]⟩
  have hText := decodeUtf8_encodeUtf8 s
  rw [h, decodeUtf8_encodeUtf8] at hText
  exact (Option.some.inj hText).symm

theorem encodeUtf8_append (s t : List Char) :
    encodeUtf8 (s ++ t) = encodeUtf8 s ++ encodeUtf8 t :=
  List.flatMap_append

/-! ### Bytes that are characters of their own -/

theorem toNat_byteChar (b : UInt8) : (byteChar b).toNat = b.toNat := by
  have := b.toNat_lt
  exact toNat_ofNat_char (by omega)

theorem byteChar_inj {a b : UInt8} : byteChar a = byteChar b ↔ a = b := by
  refine ⟨fun h => ?_, fun h => by rw [h]⟩
  rw [← UInt8.toNat_inj, ← toNat_byteChar, h, toNat_byteChar]

theorem utf8EncodeChar_of_lt {c : Char} (h : c.toNat < 0x80) :
    String.utf8EncodeChar c = [UInt8.ofNat c.toNat] := by
  have hByte := toNat_ofNat_byte (Nat.lt_trans h (by decide))
  have hOne := utf8EncodeChar_one (a := UInt8.ofNat c.toNat) (hByte.symm ▸ h)
  rwa [hByte, Char.ofNat_toNat] at hOne

/-- A byte below 128 is among those of a character only if it is the character. -/
theorem mem_utf8EncodeChar_iff {b : UInt8} (h : b.toNat < 0x80) {c : Char} :
    b ∈ String.utf8EncodeChar c ↔ c = byteChar b := by
  have hc : c.val.toNat = c.toNat := rfl
  constructor
  · have hByte : ∀ n, n < 0x100 → 0x80 ≤ n → b ≠ UInt8.ofNat n := by
      rintro n hn hn' rfl
      rw [toNat_ofNat_byte hn] at h
      omega
    rw [String.utf8EncodeChar, hc]
    split
    · intro hb
      rw [List.mem_singleton.mp hb, byteChar, toNat_ofNat_byte (by omega), Char.ofNat_toNat]
    -- all bytes of a longer character are above
    split
    · intro hb
      simp only [List.mem_cons, List.not_mem_nil, or_false] at hb
      rcases hb with hb | hb <;> exact absurd hb (hByte _ (by omega) (by omega))
    split
    · intro hb
      simp only [List.mem_cons, List.not_mem_nil, or_false] at hb
      rcases hb with hb | hb | hb <;> exact absurd hb (hByte _ (by omega) (by omega))
    · intro hb
      simp only [List.mem_cons, List.not_mem_nil, or_false] at hb
      rcases hb with hb | hb | hb | hb <;> exact absurd hb (hByte _ (by omega) (by omega))
  · rintro rfl
    rw [byteChar, utf8EncodeChar_one h]
    exact List.mem_singleton_self b

/-- A byte below 128 is in a text where the character is. -/
theorem mem_encodeUtf8_iff {b : UInt8} (h : b.toNat < 0x80) {s : List Char} :
    b ∈ encodeUtf8 s ↔ byteChar b ∈ s := by
  rw [encodeUtf8, List.mem_flatMap]
  simp only [mem_utf8EncodeChar_iff h, exists_eq_right]

/-- What is before characters of one byte in a text is a text. -/
theorem exists_encodeUtf8_of_append {t : List Char} (ht : ∀ c ∈ t, c.toNat < 0x80)
    {front : List UInt8} {s : List Char} (h : front ++ encodeUtf8 t = encodeUtf8 s) :
    ∃ u, front = encodeUtf8 u := by
  induction t using List.reverseRecOn generalizing s with
  | nil => exact ⟨s, by rw [← h, encodeUtf8, List.flatMap_nil, List.append_nil]⟩
  | append_singleton t c ih =>
    obtain ⟨ht, hc⟩ := List.forall_mem_append.mp ht
    have hByte : encodeUtf8 [c] = [UInt8.ofNat c.toNat] := by
      rw [encodeUtf8, List.flatMap_singleton, utf8EncodeChar_of_lt (hc c List.mem_cons_self)]
    rw [encodeUtf8_append, hByte, ← List.append_assoc] at h
    cases s using List.reverseRecOn with
    | nil => exact absurd h (by simp [encodeUtf8])
    | append_singleton s d =>
      have hSingle : encodeUtf8 [d] = String.utf8EncodeChar d := List.flatMap_singleton _ _
      rw [encodeUtf8_append, hSingle] at h
      obtain ⟨bytes, last, hLast⟩ : ∃ bytes last, String.utf8EncodeChar d = bytes ++ [last] := by
        refine ⟨_, _, (List.dropLast_append_getLast ?_).symm⟩
        exact List.ne_nil_of_length_pos (by rw [String.length_utf8EncodeChar]; exact d.utf8Size_pos)
      rw [hLast, ← List.append_assoc] at h
      obtain ⟨hFront, hByte⟩ := List.append_inj' h rfl
      rw [List.singleton_inj] at hByte
      subst hByte
      -- the last byte tells the last character, of which there are no other bytes then
      have hc : c.toNat < 0x80 := hc c List.mem_cons_self
      have hLess : (UInt8.ofNat c.toNat).toNat < 0x80 := by
        rw [toNat_ofNat_byte (by omega)]
        exact hc
      have hd : d = byteChar (UInt8.ofNat c.toNat) :=
        (mem_utf8EncodeChar_iff hLess).mp (by rw [hLast]; simp)
      rw [hd, byteChar, utf8EncodeChar_one hLess] at hLast
      obtain rfl : bytes = [] := by simpa using (List.append_inj' hLast rfl).1.symm
      exact ih ht (hFront.trans (List.append_nil _))

/-! ### Bytes that need not be a text -/

theorem followers_of_one {a : UInt8} (h : a.toNat < 0x80) : followers a = [] := by
  have h₂ : ¬(0xC2 ≤ a && a ≤ 0xDF) = true := by simp [UInt8.le_iff_toNat_le]; omega
  have h₃ : ¬(0xE0 ≤ a && a ≤ 0xEF) = true := by simp [UInt8.le_iff_toNat_le]; omega
  have h₄ : ¬(0xF0 ≤ a && a ≤ 0xF4) = true := by simp [UInt8.le_iff_toNat_le]; omega
  rw [followers, if_neg h₂, if_neg h₃, if_neg h₄]

theorem lossyFrom_length_append (front s : List UInt8) :
    lossyFrom front.length (front ++ s) = lossyFrom 0 s := by
  induction front with
  | nil => rfl
  | cons b front ih => exact ih

/-- Bytes that form a character are shown as it. -/
theorem lossyFrom_character {a : UInt8} {c : Char} (tail s : List UInt8)
    (hTail : countFollowing (followers a) (tail ++ s) = tail.length)
    (hChar : decodeUtf8 (a :: tail) = some [c]) :
    lossyFrom 0 (a :: (tail ++ s)) = c :: lossyFrom 0 s := by
  rw [lossyFrom, hTail, List.take_left, hChar, lossyFrom_length_append]
  rfl

/-- Bytes that stand for a text are shown as it. -/
theorem decodeUtf8Lossy_of_decodeUtf8 (bytes : List UInt8) :
    ∀ {text}, decodeUtf8 bytes = some text → decodeUtf8Lossy bytes = text := by
  rw [decodeUtf8Lossy]
  -- the branches that accept a character are those in which all its followers are there
  fun_induction decodeUtf8 bytes with
  | case1 =>
    intro text h
    cases h
    rfl
  | case2 a s ha ih =>
    intro text h
    have ha' : a.toNat < 0x80 := UInt8.lt_iff_toNat_lt.mp ha
    obtain ⟨rest, hRest, rfl⟩ := Option.map_eq_some_iff.mp h
    rw [← ih hRest]
    refine lossyFrom_character [] s ?_ (decodeUtf8_one ha')
    rw [followers_of_one ha', List.nil_append, countFollowing.eq_def, List.length_nil]
  | case3 a _ ha b s hb ih =>
    intro text h
    obtain ⟨rest, hRest, rfl⟩ := Option.map_eq_some_iff.mp h
    rw [← ih hRest]
    have hFollowers : followers a = [isTail] := by rw [followers, if_pos ha]
    simp only [Bool.and_eq_true, decide_eq_true_eq, UInt8.le_iff_toNat_le] at ha
    refine lossyFrom_character [b] s ?_ (decodeUtf8_two ha.1 ha.2 hb)
    simp [hFollowers, countFollowing, hb]
  | case6 a _ ha₂ ha b c s hTails ih =>
    intro text h
    obtain ⟨rest, hRest, rfl⟩ := Option.map_eq_some_iff.mp h
    rw [← ih hRest]
    have hFollowers : followers a = [isSecondOfThree a, isTail] := by
      rw [followers, if_neg ha₂, if_pos ha]
    obtain ⟨hb, hc⟩ := Bool.and_eq_true_iff.mp hTails
    simp only [Bool.and_eq_true, decide_eq_true_eq, UInt8.le_iff_toNat_le] at ha
    refine lossyFrom_character [b, c] s ?_ (decodeUtf8_three ha.1 ha.2 hb hc)
    simp [hFollowers, countFollowing, hb, hc]
  | case9 a _ ha₂ ha₃ ha b c d s hTails ih =>
    intro text h
    obtain ⟨rest, hRest, rfl⟩ := Option.map_eq_some_iff.mp h
    rw [← ih hRest]
    have hFollowers : followers a = [isSecondOfFour a, isTail, isTail] := by
      rw [followers, if_neg ha₂, if_neg ha₃, if_pos ha]
    obtain ⟨hFront, hd⟩ := Bool.and_eq_true_iff.mp hTails
    obtain ⟨hb, hc⟩ := Bool.and_eq_true_iff.mp hFront
    simp only [Bool.and_eq_true, decide_eq_true_eq, UInt8.le_iff_toNat_le] at ha
    refine lossyFrom_character [b, c, d] s ?_ (decodeUtf8_four ha.1 ha.2 hb hc hd)
    simp [hFollowers, countFollowing, hb, hc, hd]
  | _ => simp

/-- Where nothing has to be replaced, a text is read back from its bytes. -/
theorem decodeUtf8Lossy_encodeUtf8 (text : List Char) : decodeUtf8Lossy (encodeUtf8 text) = text :=
  decodeUtf8Lossy_of_decodeUtf8 _ (decodeUtf8_encodeUtf8 text)

theorem lossyFrom_of_one {a : UInt8} (h : a.toNat < 0x80) (s : List UInt8) :
    lossyFrom 0 (a :: s) = byteChar a :: lossyFrom 0 s := by
  refine lossyFrom_character [] s ?_ (decodeUtf8_one h)
  rw [followers_of_one h, List.nil_append, countFollowing.eq_def, List.length_nil]

/-- What follows the first byte of a character is no character of its own. -/
theorem le_of_followers {a b : UInt8} {p : UInt8 → Bool} (hp : p ∈ followers a)
    (hb : p b = true) : 0x80 ≤ b.toNat := by
  rw [followers] at hp
  split at hp
  · obtain rfl := List.mem_singleton.mp hp
    exact (isTail_iff.mp hb).1
  split at hp
  · rcases List.mem_cons.mp hp with rfl | hp
    · exact (isSecondOfThree_iff.mp hb).1
    · obtain rfl := List.mem_singleton.mp hp
      exact (isTail_iff.mp hb).1
  split at hp
  · rcases List.mem_cons.mp hp with rfl | hp
    · exact (isSecondOfFour_iff.mp hb).1
    · obtain rfl : p = isTail := by simpa using hp
      exact (isTail_iff.mp hb).1
  · cases hp

/-- The bytes that follow a first one are none of single characters. -/
theorem le_of_mem_take_countFollowing {ps : List (UInt8 → Bool)} {s : List UInt8}
    (hps : ∀ p ∈ ps, ∀ b, p b = true → 0x80 ≤ b.toNat) :
    ∀ b ∈ s.take (countFollowing ps s), 0x80 ≤ b.toNat := by
  induction ps generalizing s with
  | nil => simp [countFollowing]
  | cons p ps ih =>
    obtain ⟨hp, hps⟩ := List.forall_mem_cons.mp hps
    cases s with
    | nil => simp [countFollowing]
    | cons b s =>
      rw [countFollowing]
      split
      · next hb => exact List.forall_mem_cons.mpr ⟨hp b hb, ih hps⟩
      · simp

/-- Where another character would begin, something else than a character of one byte is shown, and
only bytes are passed over that are none of their own. -/
theorem lossyFrom_of_more {a : UInt8} (h : 0x80 ≤ a.toNat) (s : List UInt8) :
    ∃ c n, lossyFrom 0 (a :: s) = c :: lossyFrom n s ∧ 0x80 ≤ c.toNat ∧
      ∀ b ∈ s.take n, 0x80 ≤ b.toNat := by
  refine ⟨_, countFollowing (followers a) s, lossyFrom.eq_3 a s, ?_,
    le_of_mem_take_countFollowing fun p hp b hb => le_of_followers hp hb⟩
  cases hText : decodeUtf8 (a :: s.take (countFollowing (followers a) s)) with
  | none => decide
  | some text =>
    cases text with
    | nil => decide
    | cons c text =>
      -- a character of one byte would begin with this byte
      by_contra hc
      have hc' : c.toNat < 0x80 := Nat.not_le.mp hc
      have hBytes := decodeUtf8_eq_some_iff.mp hText
      rw [encodeUtf8, List.flatMap_cons, utf8EncodeChar_of_lt hc', List.singleton_append,
        List.cons.injEq] at hBytes
      rw [hBytes.1, toNat_ofNat_byte (by omega)] at h
      omega

/-- Replacements take away and add no characters of one byte. The bytes that are skipped are none of
those. -/
theorem mem_lossyFrom_iff {b : UInt8} (h : b.toNat < 0x80) {bytes : List UInt8} :
    ∀ {skipped : ℕ}, (∀ a ∈ bytes.take skipped, 0x80 ≤ a.toNat) →
      (byteChar b ∈ lossyFrom skipped bytes ↔ b ∈ bytes) := by
  induction bytes with
  | nil =>
    intro skipped _
    cases skipped <;> simp [lossyFrom]
  | cons a s ih =>
    intro skipped hSkipped
    have hOther : 0x80 ≤ a.toNat → b ≠ a := by
      rintro ha rfl
      omega
    cases skipped with
    | zero =>
      by_cases ha : a.toNat < 0x80
      · rw [lossyFrom_of_one ha, List.mem_cons, List.mem_cons, ih (by simp), byteChar_inj]
      · obtain ⟨c, n, hCons, hc, hMore⟩ := lossyFrom_of_more (Nat.not_lt.mp ha) s
        have hne : byteChar b ≠ c := by
          rintro rfl
          rw [toNat_byteChar] at hc
          omega
        rw [hCons, List.mem_cons, List.mem_cons, ih hMore]
        simp [hne, hOther (Nat.not_lt.mp ha)]
    | succ skipped =>
      rw [List.take_succ_cons, List.forall_mem_cons] at hSkipped
      rw [lossyFrom, ih hSkipped.2, List.mem_cons]
      simp [hOther hSkipped.1]

/-- A character of one byte is shown where this byte is. -/
theorem mem_decodeUtf8Lossy_iff {b : UInt8} (h : b.toNat < 0x80) {bytes : List UInt8} :
    byteChar b ∈ decodeUtf8Lossy bytes ↔ b ∈ bytes :=
  mem_lossyFrom_iff h (by simp)

/-- Only the bytes of a text of such characters are shown as it. -/
theorem eq_encodeUtf8_of_decodeUtf8Lossy {bytes : List UInt8} {text : List Char}
    (hText : ∀ c ∈ text, c.toNat < 0x80) (h : decodeUtf8Lossy bytes = text) :
    bytes = encodeUtf8 text := by
  subst h
  rw [decodeUtf8Lossy] at hText ⊢
  induction bytes with
  | nil => rfl
  | cons a s ih =>
    by_cases ha : a.toNat < 0x80
    · rw [lossyFrom_of_one ha, List.forall_mem_cons] at hText
      rw [lossyFrom_of_one ha, encodeUtf8, List.flatMap_cons, ← encodeUtf8, ← ih hText.2,
        byteChar, utf8EncodeChar_one ha, List.singleton_append]
    · obtain ⟨c, n, hCons, hc, -⟩ := lossyFrom_of_more (Nat.not_lt.mp ha) s
      have hLess := hText c (by rw [hCons]; exact List.mem_cons_self)
      omega

/-! ### How many bytes there are -/

theorem length_encodeUtf8 (s : List Char) : (encodeUtf8 s).length = utf8Length s := by
  induction s with
  | nil => rfl
  | cons c s ih =>
    rw [encodeUtf8] at ih ⊢
    rw [List.flatMap_cons, List.length_append, String.length_utf8EncodeChar, ih, utf8Length]

theorem utf8Length_append (s t : List Char) :
    utf8Length (s ++ t) = utf8Length s + utf8Length t := by
  rw [← length_encodeUtf8, ← length_encodeUtf8, ← length_encodeUtf8, ← List.length_append,
    encodeUtf8, List.flatMap_append, encodeUtf8, encodeUtf8]

/-- A beginning of a text is not longer than the text. -/
theorem utf8Length_le_of_isPrefix {s t : List Char} (h : s <+: t) :
    utf8Length s ≤ utf8Length t := by
  obtain ⟨u, rfl⟩ := h
  rw [utf8Length_append]
  exact Nat.le_add_right ..

theorem eq_nil_of_utf8Length {s : List Char} (h : utf8Length s = 0) : s = [] := by
  cases s with
  | nil => rfl
  | cons c s =>
    have := c.utf8Size_pos
    rw [utf8Length] at h
    omega

/-! ### The first byte -/

theorem leadChar_of_ascii {c : Char} (h : c.toNat < 0x80) : leadChar c = c := by
  have hc : c.val.toNat = c.toNat := rfl
  rw [leadChar, String.utf8EncodeChar, hc, if_pos (by omega)]
  rw [List.headD_cons, byteChar, toNat_ofNat_byte (by omega), Char.ofNat_toNat]

theorem toNat_leadChar_of_not_ascii {c : Char} (h : 0x80 ≤ c.toNat) :
    0x80 ≤ (leadChar c).toNat := by
  have hc : c.val.toNat = c.toNat := rfl
  have hByte : ∀ n, 0x80 ≤ n → n < 0x100 → 0x80 ≤ (byteChar (UInt8.ofNat n)).toNat := by
    intro n hn hn'
    rw [byteChar, toNat_ofNat_byte hn', Char.toNat, toNat_ofNat_char (by omega)]
    exact hn
  rw [leadChar, String.utf8EncodeChar, hc, if_neg (by omega)]
  split
  · exact hByte _ (by omega) (by omega)
  split
  · exact hByte _ (by omega) (by omega)
  · exact hByte _ (by omega) (by omega)

/-- A character of one byte is told by that byte. -/
theorem eq_of_leadChar_eq {c d : Char} (hc : c.toNat < 0x80) (h : leadChar c = leadChar d) :
    d = c := by
  by_cases hd : d.toNat < 0x80
  · rw [leadChar_of_ascii hc, leadChar_of_ascii hd] at h
    exact h.symm
  · have hLead := toNat_leadChar_of_not_ascii (Nat.not_lt.mp hd)
    rw [← h, leadChar_of_ascii hc] at hLead
    omega

/-- The first byte of a text is that of its first character. -/
theorem head?_encodeUtf8 (s : List Char) :
    (encodeUtf8 s).head?.map byteChar = s.head?.map leadChar := by
  cases s with
  | nil => rfl
  | cons c s =>
    have hne : String.utf8EncodeChar c ≠ [] := List.ne_nil_of_length_pos (by
      rw [String.length_utf8EncodeChar]
      exact c.utf8Size_pos)
    rw [encodeUtf8, List.flatMap_cons, List.head?_append_of_ne_nil _ hne, List.head?_cons,
      Option.map_some, leadChar, List.headD_eq_head?_getD]
    obtain ⟨b, bytes, hBytes⟩ := List.exists_cons_of_ne_nil hne
    rw [hBytes]
    rfl

end Text

end ClassSketch
