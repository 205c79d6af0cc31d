import ClassSketch.ClassFile.ModifiedUtf8
import ClassSketch.Proofs.Text.Utf16
import ClassSketch.Proofs.Text.Utf8

/-!
# Writing modified UTF-8

The encoder that belongs to `ModifiedUtf8.decode?`, and what ties the two together. The decoder
tries plain UTF-8 first; that this never misreads what the encoder wrote is because the two ways of
reading agree wherever both succeed.

## Main definitions

* `ModifiedUtf8.group`, `ModifiedUtf8.encode` — the bytes of a unit and of a text
* `ModifiedUtf8.charBytes` — the bytes of a character

## Main results

* `ModifiedUtf8.decodeUtf16_of_decodeUtf8` — the two ways of reading agree
* `ModifiedUtf8.decode?_encode` — what is written is read back
* `ModifiedUtf8.encode_eq_flatMap` — what is written for each character
* `ModifiedUtf8.decode?_and_ways_agree` — both, with the bytes of the characters
-/

namespace ClassSketch

namespace ModifiedUtf8

open Text

/-- The group of bytes for a UTF-16 unit. The unit zero takes two bytes. -/
def group (u : UInt16) : List UInt8 :=
  let n := u.toNat
  if 0 < n ∧ n < 0x80 then [n.toUInt8]
  else if n < 0x800 then [(0xC0 + n / 64).toUInt8, (0x80 + n % 64).toUInt8]
  else [(0xE0 + n / 4096).toUInt8, (0x80 + n / 64 % 64).toUInt8, (0x80 + n % 64).toUInt8]

/-- The bytes of a text. -/
def encode (s : List Char) : List UInt8 := (s.flatMap units).flatMap group

/-! ### Groups -/

theorem toNat_toUInt8 {n : ℕ} (h : n < 256) : n.toUInt8.toNat = n := by
  simp [Nat.mod_eq_of_lt h]

theorem toUInt16_eq {n : ℕ} {u : UInt16} (h : n = u.toNat) : n.toUInt16 = u := by
  rw [h]
  simp

theorem groupUnits?_one {a : UInt8} (h : a.toNat < 0x80) (s : List UInt8) :
    groupUnits? (a :: s) = (groupUnits? s).map (a.toNat.toUInt16 :: ·) := by
  have ha : a < 0x80 := UInt8.lt_iff_toNat_lt.mpr h
  have hUnit : a.toUInt16 = a.toNat.toUInt16 := by simp
  rw [groupUnits?.eq_def]
  simp only [if_pos ha, hUnit]

theorem groupUnits?_two {a b : UInt8} (h : 0xC0 ≤ a.toNat) (h' : a.toNat < 0xE0)
    (s : List UInt8) :
    groupUnits? (a :: b :: s) =
      (groupUnits? s).map ((a.toNat % 32 * 64 + tailBits b).toUInt16 :: ·) := by
  have h₁ : ¬ a < 0x80 := by rw [UInt8.lt_iff_toNat_lt]; simp; omega
  have h₂ : ¬ a < 0xC0 := by rw [UInt8.lt_iff_toNat_lt]; simp; omega
  have h₃ : a < 0xE0 := UInt8.lt_iff_toNat_lt.mpr h'
  rw [groupUnits?, if_neg h₁, if_neg h₂, if_pos h₃]

theorem groupUnits?_three {a b c : UInt8} (h : 0xE0 ≤ a.toNat) (h' : a.toNat < 0xF0)
    (s : List UInt8) :
    groupUnits? (a :: b :: c :: s) =
      (groupUnits? s).map
        ((a.toNat % 16 * 4096 + tailBits b * 64 + tailBits c).toUInt16 :: ·) := by
  have h₁ : ¬ a < 0x80 := by rw [UInt8.lt_iff_toNat_lt]; simp; omega
  have h₂ : ¬ a < 0xC0 := by rw [UInt8.lt_iff_toNat_lt]; simp; omega
  have h₃ : ¬ a < 0xE0 := by rw [UInt8.lt_iff_toNat_lt]; simp; omega
  have h₄ : a < 0xF0 := UInt8.lt_iff_toNat_lt.mpr h'
  rw [groupUnits?, if_neg h₁, if_neg h₂, if_neg h₃, if_pos h₄]

theorem groupUnits?_four {a : UInt8} (h : 0xF0 ≤ a.toNat) (s : List UInt8) :
    groupUnits? (a :: s) = none := by
  have h₁ : ¬ a < 0x80 := by rw [UInt8.lt_iff_toNat_lt]; simp; omega
  have h₂ : ¬ a < 0xC0 := by rw [UInt8.lt_iff_toNat_lt]; simp; omega
  have h₃ : ¬ a < 0xE0 := by rw [UInt8.lt_iff_toNat_lt]; simp; omega
  have h₄ : ¬ a < 0xF0 := by rw [UInt8.lt_iff_toNat_lt]; simp; omega
  rw [groupUnits?.eq_def]
  simp only [if_neg h₁, if_neg h₂, if_neg h₃, if_neg h₄]

theorem groupUnits?_group_append (u : UInt16) (s : List UInt8) :
    groupUnits? (group u ++ s) = (groupUnits? s).map (u :: ·) := by
  have hu := u.toNat_lt
  simp only [group]
  split
  · have ha : u.toNat.toUInt8.toNat = u.toNat := toNat_toUInt8 (by omega)
    rw [List.cons_append, List.nil_append, groupUnits?_one (by omega),
      toUInt16_eq (u := u) ha]
  split
  · have ha : (0xC0 + u.toNat / 64).toUInt8.toNat = 0xC0 + u.toNat / 64 :=
      toNat_toUInt8 (by omega)
    have hb : (0x80 + u.toNat % 64).toUInt8.toNat = 0x80 + u.toNat % 64 :=
      toNat_toUInt8 (by omega)
    rw [List.cons_append, List.cons_append, List.nil_append,
      groupUnits?_two (by omega) (by omega), tailBits, ha, hb, toUInt16_eq (u := u) (by omega)]
  · have ha : (0xE0 + u.toNat / 4096).toUInt8.toNat = 0xE0 + u.toNat / 4096 :=
      toNat_toUInt8 (by omega)
    have hb : (0x80 + u.toNat / 64 % 64).toUInt8.toNat = 0x80 + u.toNat / 64 % 64 :=
      toNat_toUInt8 (by omega)
    have hc : (0x80 + u.toNat % 64).toUInt8.toNat = 0x80 + u.toNat % 64 :=
      toNat_toUInt8 (by omega)
    rw [List.cons_append, List.cons_append, List.cons_append, List.nil_append,
      groupUnits?_three (by omega) (by omega), tailBits, tailBits, ha, hb, hc,
      toUInt16_eq (u := u) (by omega)]

theorem groupUnits?_flatMap_group (us : List UInt16) :
    groupUnits? (us.flatMap group) = some us := by
  induction us with
  | nil => rfl
  | cons u us ih => rw [List.flatMap_cons, groupUnits?_group_append, ih, Option.map_some]

/-! ### Units -/

/-- A unit outside the surrogates is the character of its number. -/
theorem decodeUtf16_cons {n : ℕ} (h : n < 0xD800 ∨ 0xDFFF < n ∧ n < 0x10000)
    (us : List UInt16) :
    decodeUtf16 (n.toUInt16 :: us) = (decodeUtf16 us).map (Char.ofNat n :: ·) := by
  have hHigh : isHighUnit n.toUInt16 = false := isHighUnit_eq_false (by omega) (by omega)
  have hLow : isLowUnit n.toUInt16 = false := isLowUnit_eq_false (by omega) (by omega)
  have hc : unitChar n.toUInt16 = Char.ofNat n := unitChar_toUInt16 (by omega)
  rw [decodeUtf16.eq_def]
  simp only [hHigh, hLow, hc]
  simp

theorem decodeUtf16_units_append (c : Char) (us : List UInt16) :
    decodeUtf16 (units c ++ us) = (decodeUtf16 us).map (c :: ·) := by
  rcases units_cases c with ⟨u, hu, hHigh, hLow, hc⟩ | ⟨high, low, hu, hHigh, hLow, hc⟩
  · rw [hu, List.cons_append, List.nil_append, decodeUtf16.eq_def]
    simp only [hHigh, hLow, hc]
    simp
  · rw [hu, List.cons_append, List.cons_append, List.nil_append, decodeUtf16.eq_def]
    simp only [hHigh, hLow, hc, if_true]

theorem decodeUtf16_flatMap_units (s : List Char) :
    decodeUtf16 (s.flatMap units) = some s := by
  induction s with
  | nil => rfl
  | cons c s ih => rw [List.flatMap_cons, decodeUtf16_units_append, ih, Option.map_some]

/-! ### The two ways of reading -/

/-- The second byte of a character of three bytes keeps it out of the surrogates. -/
theorem three_bytes_not_surrogate {a b c : UInt8} (h : 0xE0 ≤ a.toNat) (h' : a.toNat < 0xF0)
    (hb : isSecondOfThree a b = true) :
    let n := a.toNat % 16 * 4096 + tailBits b * 64 + tailBits c
    n < 0xD800 ∨ 0xDFFF < n ∧ n < 0x10000 := by
  simp only [tailBits]
  by_cases hED : a = 0xED
  · subst hED
    simp [isSecondOfThree, UInt8.le_iff_toNat_le] at hb
    have : (0xED : UInt8).toNat = 0xED := rfl
    omega
  · have hne : a.toNat ≠ 0xED := fun h => hED (UInt8.toNat_inj.mp h)
    omega

/-- Bytes that are plain UTF-8 and groups as well are the same text either way. -/
theorem decodeUtf16_of_decodeUtf8 (bytes : List UInt8) :
    ∀ {s us}, decodeUtf8 bytes = some s → groupUnits? bytes = some us →
      decodeUtf16 us = some s := by
  fun_induction decodeUtf8 bytes with
  | case1 =>
    intro s us h hg
    cases h
    cases hg
    rfl
  | case2 a bytes ha ih =>
    intro s us h hg
    have ha' : a.toNat < 0x80 := UInt8.lt_iff_toNat_lt.mp ha
    rw [groupUnits?_one ha'] at hg
    obtain ⟨t, ht, rfl⟩ := Option.map_eq_some_iff.mp h
    obtain ⟨vs, hvs, rfl⟩ := Option.map_eq_some_iff.mp hg
    rw [decodeUtf16_cons (by omega), ih ht hvs, Option.map_some]
  | case3 a _ ha b bytes _ ih =>
    intro s us h hg
    simp only [Bool.and_eq_true, decide_eq_true_eq, UInt8.le_iff_toNat_le] at ha
    have ha' : 0xC2 ≤ a.toNat ∧ a.toNat ≤ 0xDF := ha
    rw [groupUnits?_two (by omega) (by omega)] at hg
    obtain ⟨t, ht, rfl⟩ := Option.map_eq_some_iff.mp h
    obtain ⟨vs, hvs, rfl⟩ := Option.map_eq_some_iff.mp hg
    have hn : a.toNat % 32 * 64 + tailBits b < 0xD800 := by
      rw [tailBits]
      omega
    rw [decodeUtf16_cons (.inl hn), ih ht hvs, Option.map_some]
  | case6 a _ _ ha b c bytes hb ih =>
    intro s us h hg
    simp only [Bool.and_eq_true, decide_eq_true_eq, UInt8.le_iff_toNat_le] at ha
    have ha' : 0xE0 ≤ a.toNat ∧ a.toNat ≤ 0xEF := ha
    rw [groupUnits?_three (by omega) (by omega)] at hg
    obtain ⟨t, ht, rfl⟩ := Option.map_eq_some_iff.mp h
    obtain ⟨vs, hvs, rfl⟩ := Option.map_eq_some_iff.mp hg
    have hn := three_bytes_not_surrogate (c := c) (by omega) (by omega)
      (Bool.and_eq_true_iff.mp hb).1
    rw [decodeUtf16_cons hn, ih ht hvs, Option.map_some]
  | case9 a _ _ _ ha =>
    -- A character of four bytes is no group, so there is nothing to agree with.
    intro s us _ hg
    simp only [Bool.and_eq_true, decide_eq_true_eq, UInt8.le_iff_toNat_le] at ha
    have ha' : 0xF0 ≤ a.toNat ∧ a.toNat ≤ 0xF4 := ha
    rw [groupUnits?_four ha'.1] at hg
    cases hg
  | _ => simp

/-- A text is read back from its bytes. -/
theorem decode?_encode (s : List Char) : decode? (encode s) = some s := by
  have hGroups : groupUnits? (encode s) = some (s.flatMap units) := groupUnits?_flatMap_group _
  have hUnits : decodeUtf16 (s.flatMap units) = some s := decodeUtf16_flatMap_units s
  rw [decode?]
  split
  · next t ht => rw [← decodeUtf16_of_decodeUtf8 _ ht hGroups, hUnits]
  · rw [hGroups, Option.bind_some, hUnits]

/-! ### The format, character by character -/

/-- The bytes of a character. The zero character takes two bytes, a character outside the basic
plane takes three bytes for each of its surrogates, and all others are as in plain UTF-8. -/
def charBytes (c : Char) : List UInt8 :=
  if c = '\x00' then [0xC0, 0x80]
  else if c.toNat < 0x10000 then String.utf8EncodeChar c
  else
    let n := c.toNat - 0x10000
    [0xED, (0xA0 + n / 0x10000).toUInt8, (0x80 + n / 0x400 % 64).toUInt8,
      0xED, (0xB0 + n % 0x400 / 64).toUInt8, (0x80 + n % 64).toUInt8]

theorem group_toUInt16 {n : ℕ} (h : n < 0x10000) : group n.toUInt16 =
    if 0 < n ∧ n < 0x80 then [n.toUInt8]
    else if n < 0x800 then [(0xC0 + n / 64).toUInt8, (0x80 + n % 64).toUInt8]
    else [(0xE0 + n / 4096).toUInt8, (0x80 + n / 64 % 64).toUInt8, (0x80 + n % 64).toUInt8] := by
  have hn : n.toUInt16.toNat = n := by simp; omega
  rw [group, hn]

/-- The group of a unit other than zero is the plain UTF-8 of the character of its number. -/
theorem group_eq_utf8EncodeChar {c : Char} (h : c ≠ '\x00') (hc : c.toNat < 0x10000) :
    group c.toNat.toUInt16 = String.utf8EncodeChar c := by
  have hPos : 0 < c.toNat := by
    refine Nat.pos_of_ne_zero fun hZero => h ?_
    rw [← Char.ofNat_toNat c, hZero]
  have hVal : c.val.toNat = c.toNat := rfl
  rw [group_toUInt16 hc, String.utf8EncodeChar, hVal]
  by_cases h₁ : c.toNat < 0x80
  · have h₁' : c.toNat ≤ 127 := by omega
    rw [if_pos ⟨hPos, h₁⟩, if_pos h₁']
  have h₁' : ¬c.toNat ≤ 127 := by omega
  rw [if_neg (fun h => h₁ h.2), if_neg h₁']
  by_cases h₂ : c.toNat < 0x800
  · have h₂' : c.toNat ≤ 2047 := by omega
    have hFirst : 0xC0 + c.toNat / 64 = c.toNat / 64 % 32 + 192 := by omega
    rw [if_pos h₂, if_pos h₂', hFirst, Nat.add_comm 0x80]
  · have h₂' : ¬c.toNat ≤ 2047 := by omega
    have h₃' : c.toNat ≤ 65535 := by omega
    have hFirst : 0xE0 + c.toNat / 4096 = c.toNat / 4096 % 16 + 224 := by omega
    rw [if_neg h₂, if_neg h₂', if_pos h₃', hFirst, Nat.add_comm 0x80, Nat.add_comm 0x80]

theorem group_surrogate {n : ℕ} (h : 0xD800 ≤ n) (hn : n < 0xE000) : group n.toUInt16 =
    [0xED, (0xA0 + (n - 0xD800) / 64).toUInt8, (0x80 + (n - 0xD800) % 64).toUInt8] := by
  have hFirst : 0xE0 + n / 4096 = 0xED := by omega
  have hSecond : 0x80 + n / 64 % 64 = 0xA0 + (n - 0xD800) / 64 := by omega
  have hThird : 0x80 + n % 64 = 0x80 + (n - 0xD800) % 64 := by omega
  rw [group_toUInt16 (by omega), if_neg (by omega), if_neg (by omega), hFirst, hSecond, hThird]
  rfl

theorem flatMap_group_units (c : Char) : (units c).flatMap group = charBytes c := by
  have hc : c.toNat < 0xD800 ∨ 0xDFFF < c.toNat ∧ c.toNat < 0x110000 := c.valid
  rw [charBytes, units]
  by_cases hBasic : c.toNat < 0x10000
  · simp only [if_pos hBasic, List.flatMap_cons, List.flatMap_nil, List.append_nil]
    split
    · next hZero =>
      subst hZero
      rfl
    · next hNonzero => exact group_eq_utf8EncodeChar hNonzero hBasic
  · have hZero : c ≠ '\x00' := by
      rintro rfl
      exact hBasic (by decide)
    have hHigh : 0xD800 + (c.toNat - 0x10000) / 0x400 - 0xD800 = (c.toNat - 0x10000) / 0x400 := by
      omega
    have hLow : (0xDC00 + (c.toNat - 0x10000) % 0x400 - 0xD800) / 64 =
        0x10 + (c.toNat - 0x10000) % 0x400 / 64 := by
      omega
    have hLast : (0xDC00 + (c.toNat - 0x10000) % 0x400 - 0xD800) % 64 =
        (c.toNat - 0x10000) % 64 := by
      omega
    simp only [if_neg hBasic, if_neg hZero, List.flatMap_cons, List.flatMap_nil, List.append_nil]
    rw [group_surrogate (by omega) (by omega), group_surrogate (by omega) (by omega), hHigh, hLow,
      hLast, Nat.div_div_eq_div_mul, ← Nat.add_assoc]
    rfl

/-- The bytes of a text are those of its characters. -/
theorem encode_eq_flatMap (s : List Char) : encode s = s.flatMap charBytes := by
  simp only [encode, List.flatMap_assoc, flatMap_group_units]

/-- **Modified UTF-8.** Every text is read back from the bytes of its characters, and bytes that can
be read in both ways are the same text either way. -/
theorem decode?_and_ways_agree :
    (∀ s : List Char, decode? (s.flatMap charBytes) = some s) ∧
      ∀ (bytes : List UInt8) (s t : List Char), decodeUtf8 bytes = some s →
        (groupUnits? bytes).bind decodeUtf16 = some t → s = t := by
  refine ⟨fun s => ?_, fun bytes s t hPlain hGroups => ?_⟩
  · rw [← encode_eq_flatMap, decode?_encode]
  · obtain ⟨us, hUnits, hText⟩ := Option.bind_eq_some_iff.mp hGroups
    rw [decodeUtf16_of_decodeUtf8 bytes hPlain hUnits] at hText
    exact Option.some.inj hText

/-- One byte, two bytes and three bytes, plain; and a text in which a zero and a character outside
the basic plane keep the others from being read as plain UTF-8. -/
theorem decode?_and_ways_agree_mixed :
    decodeUtf8 [0x78, 0xC3, 0xA9, 0xE2, 0x82, 0xAC] = some ['x', 'é', '€'] ∧
      (groupUnits? [0x78, 0xC3, 0xA9, 0xE2, 0x82, 0xAC]).bind decodeUtf16 = some ['x', 'é', '€'] ∧
      decodeUtf8 [0xC3, 0xA9, 0xC0, 0x80, 0xED, 0xA0, 0xBD, 0xED, 0xB8, 0x80] = none ∧
      decode? [0xC3, 0xA9, 0xC0, 0x80, 0xED, 0xA0, 0xBD, 0xED, 0xB8, 0x80] =
        some ['é', '\x00', '😀'] := by
  have hPlain : decodeUtf8 [0x78, 0xC3, 0xA9, 0xE2, 0x82, 0xAC] = some ['x', 'é', '€'] := by
    decide
  have hGroups : ∃ t, (groupUnits? [0x78, 0xC3, 0xA9, 0xE2, 0x82, 0xAC]).bind decodeUtf16 =
      some t := Option.isSome_iff_exists.mp (by decide)
  obtain ⟨t, hGroups⟩ := hGroups
  refine ⟨hPlain, ?_, by decide, decode?_and_ways_agree.1 ['é', '\x00', '😀']⟩
  rw [hGroups, decode?_and_ways_agree.2 _ _ t hPlain hGroups]

end ModifiedUtf8

end ClassSketch
