import ClassSketch.Proofs.Text.Utf8
import ClassSketch.Text.Utf16

/-!
# The units of characters

A sequence of units that is not well formed can still be read if a surrogate without its partner is
replaced. Nothing is looked at but a unit and the one after it.

## Main definitions

* `Text.decodeLossy` — the text of units, with surrogates without a partner replaced

## Main results

* `Text.units_cases` — a character is a unit that is no surrogate, or a pair of surrogates
* `Text.eq_flatMap_units_of_decodeUtf16` — only the units of texts are read
* `Text.decodeLossy_units`, `Text.decodeLossy_high_units` — the units of a character are read as it,
  whatever stands before them
* `Text.decodeLossy_of_decodeUtf16` — where every surrogate has its partner, nothing is replaced
-/

namespace ClassSketch

namespace Text

theorem isHighUnit_eq_false {n : ℕ} (h : n < 0xD800 ∨ 0xDBFF < n) (hn : n < 0x10000) :
    isHighUnit n.toUInt16 = false := by
  have hNat : n.toUInt16.toNat = n := by simp; omega
  simp only [isHighUnit, UInt16.le_iff_toNat_le, hNat]
  simp
  omega

theorem isLowUnit_eq_false {n : ℕ} (h : n < 0xDC00 ∨ 0xDFFF < n) (hn : n < 0x10000) :
    isLowUnit n.toUInt16 = false := by
  have hNat : n.toUInt16.toNat = n := by simp; omega
  simp only [isLowUnit, UInt16.le_iff_toNat_le, hNat]
  simp
  omega

theorem isHighUnit_eq_true {n : ℕ} (h : n < 0x400) : isHighUnit (0xD800 + n).toUInt16 = true := by
  have hNat : (0xD800 + n).toUInt16.toNat = 0xD800 + n := by simp; omega
  simp only [isHighUnit, UInt16.le_iff_toNat_le, hNat]
  simp
  omega

theorem isLowUnit_eq_true {n : ℕ} (h : n < 0x400) : isLowUnit (0xDC00 + n).toUInt16 = true := by
  have hNat : (0xDC00 + n).toUInt16.toNat = 0xDC00 + n := by simp; omega
  simp only [isLowUnit, UInt16.le_iff_toNat_le, hNat]
  simp
  omega

theorem unitChar_toUInt16 {n : ℕ} (h : n < 0x10000) : unitChar n.toUInt16 = Char.ofNat n := by
  have hNat : n.toUInt16.toNat = n := by simp; omega
  rw [unitChar, hNat]

theorem pairChar_toUInt16 {high low : ℕ} (h : high < 0x400) (h' : low < 0x400) :
    pairChar (0xD800 + high).toUInt16 (0xDC00 + low).toUInt16 =
      Char.ofNat (0x10000 + high * 0x400 + low) := by
  have hHigh : (0xD800 + high).toUInt16.toNat = 0xD800 + high := by simp; omega
  have hLow : (0xDC00 + low).toUInt16.toNat = 0xDC00 + low := by simp; omega
  rw [pairChar, hHigh, hLow, Nat.add_sub_cancel_left, Nat.add_sub_cancel_left]

/-- A character is a unit that is no surrogate, or a pair of surrogates. -/
theorem units_cases (c : Char) :
    (∃ u, units c = [u] ∧ isHighUnit u = false ∧ isLowUnit u = false ∧ unitChar u = c) ∨
      ∃ high low, units c = [high, low] ∧ isHighUnit high = true ∧ isLowUnit low = true ∧
        pairChar high low = c := by
  have hc : c.toNat < 0xD800 ∨ 0xDFFF < c.toNat ∧ c.toNat < 0x110000 := c.valid
  simp only [units]
  split
  · refine .inl ⟨_, rfl, isHighUnit_eq_false ?_ ?_, isLowUnit_eq_false ?_ ?_, ?_⟩
    · omega
    · omega
    · omega
    · omega
    · rw [unitChar_toUInt16 (by omega), Char.ofNat_toNat]
  · have hn : 0x10000 + (c.toNat - 0x10000) / 0x400 * 0x400 + (c.toNat - 0x10000) % 0x400 =
        c.toNat := by
      omega
    refine .inr ⟨_, _, rfl, isHighUnit_eq_true ?_, isLowUnit_eq_true ?_, ?_⟩
    · omega
    · omega
    · rw [pairChar_toUInt16 (by omega) (by omega), hn, Char.ofNat_toNat]

/-- The unit of a character that is one unit. -/
theorem units_unitChar {u : UInt16} (hHigh : isHighUnit u = false) (hLow : isLowUnit u = false) :
    units (unitChar u) = [u] := by
  have hu := u.toNat_lt
  simp [isHighUnit, isLowUnit, UInt16.le_iff_toNat_le] at hHigh hLow
  have hNat : (Char.ofNat u.toNat).toNat = u.toNat := toNat_ofNat_char (by omega)
  rw [units, unitChar, hNat, if_pos (by omega)]
  simp

/-- The units of a character that is a pair of surrogates. -/
theorem units_pairChar {u v : UInt16} (hHigh : isHighUnit u = true) (hLow : isLowUnit v = true) :
    units (pairChar u v) = [u, v] := by
  simp [isHighUnit, isLowUnit, UInt16.le_iff_toNat_le] at hHigh hLow
  generalize hn : 0x10000 + (u.toNat - 0xD800) * 0x400 + (v.toNat - 0xDC00) = n
  have hNat : (Char.ofNat n).toNat = n := toNat_ofNat_char (by omega)
  have hFirst : 0xD800 + (n - 0x10000) / 0x400 = u.toNat := by omega
  have hSecond : 0xDC00 + (n - 0x10000) % 0x400 = v.toNat := by omega
  rw [units, pairChar, hn, hNat, if_neg (by omega), hFirst, hSecond]
  simp

/-- Only the units of texts are read. -/
theorem eq_flatMap_units_of_decodeUtf16 (us : List UInt16) :
    ∀ {s}, decodeUtf16 us = some s → us = s.flatMap units := by
  fun_induction decodeUtf16 us with
  | case1 =>
    intro s h
    cases h
    rfl
  | case2 u hHigh v us hLow ih =>
    intro s h
    obtain ⟨t, ht, rfl⟩ := Option.map_eq_some_iff.mp h
    rw [List.flatMap_cons, units_pairChar hHigh hLow, ← ih ht]
    rfl
  | case6 u us hHigh hLow ih =>
    intro s h
    obtain ⟨t, ht, rfl⟩ := Option.map_eq_some_iff.mp h
    rw [List.flatMap_cons, units_unitChar (by simpa using hHigh) (by simpa using hLow), ← ih ht]
    rfl
  | _ => simp

/-! ### Units that need not be paired -/

/-- The character of a unit that stands alone. -/
def loneChar (u : UInt16) : Char := if isHighUnit u || isLowUnit u then replacement else unitChar u

/-- The text of units. A high surrogate with a low one right after it is one character, and any
other surrogate is replaced. -/
def decodeLossy : List UInt16 → List Char
  | [] => []
  | [u] => [loneChar u]
  | u :: v :: us =>
    if isHighUnit u && isLowUnit v then pairChar u v :: decodeLossy us
    else loneChar u :: decodeLossy (v :: us)

variable {c : Char} {u v high low : UInt16} {us : List UInt16}

theorem isLowUnit_of_isHighUnit (h : isHighUnit u = true) : isLowUnit u = false := by
  simp only [isHighUnit, isLowUnit, UInt16.le_iff_toNat_le] at h ⊢
  simp at h ⊢
  omega

/-- A unit is a high surrogate, a low one or none. -/
theorem surrogate_cases (u : UInt16) :
    isHighUnit u = true ∧ isLowUnit u = false ∨ isHighUnit u = false ∧ isLowUnit u = true ∨
      isHighUnit u = false ∧ isLowUnit u = false := by
  cases hHigh : isHighUnit u with
  | true => exact .inl ⟨rfl, isLowUnit_of_isHighUnit hHigh⟩
  | false =>
    cases isLowUnit u with
    | true => exact .inr (.inl ⟨rfl, rfl⟩)
    | false => exact .inr (.inr ⟨rfl, rfl⟩)

theorem loneChar_of_surrogate (h : isHighUnit u = true ∨ isLowUnit u = true) :
    loneChar u = replacement :=
  if_pos (Bool.or_eq_true _ _ ▸ h)

theorem loneChar_of_not_surrogate (hHigh : isHighUnit u = false) (hLow : isLowUnit u = false) :
    loneChar u = unitChar u := by
  rw [loneChar, hHigh, hLow]
  rfl

theorem decodeLossy_pair (hHigh : isHighUnit high = true) (hLow : isLowUnit low = true)
    (us : List UInt16) : decodeLossy (high :: low :: us) = pairChar high low :: decodeLossy us := by
  rw [decodeLossy, hHigh, hLow]
  rfl

theorem decodeLossy_cons_of_not_high (h : isHighUnit u = false) (us : List UInt16) :
    decodeLossy (u :: us) = loneChar u :: decodeLossy us := by
  cases us with
  | nil => rfl
  | cons v us =>
    rw [decodeLossy, h]
    rfl

theorem decodeLossy_cons_of_not_low (h : isLowUnit v = false) (u : UInt16) (us : List UInt16) :
    decodeLossy (u :: v :: us) = loneChar u :: decodeLossy (v :: us) := by
  rw [decodeLossy, h, Bool.and_false]
  rfl

/-- The units of a character are read as the character. -/
theorem decodeLossy_units (c : Char) (us : List UInt16) :
    decodeLossy (units c ++ us) = c :: decodeLossy us := by
  rcases units_cases c with ⟨u, hu, hHigh, hLow, hc⟩ | ⟨high, low, hu, hHigh, hLow, hc⟩
  · rw [hu, List.singleton_append, decodeLossy_cons_of_not_high hHigh,
      loneChar_of_not_surrogate hHigh hLow, hc]
  · rw [hu, List.cons_append, List.singleton_append, decodeLossy_pair hHigh hLow, hc]

/-- The units of a character leave a high surrogate before them without its partner. -/
theorem decodeLossy_high_units (h : isHighUnit u = true) (c : Char) (us : List UInt16) :
    decodeLossy (u :: (units c ++ us)) = replacement :: c :: decodeLossy us := by
  have hFirst : ∃ v vs, units c = v :: vs ∧ isLowUnit v = false := by
    rcases units_cases c with ⟨v, hv, -, hLow, -⟩ | ⟨v, low, hv, hHigh, -, -⟩
    · exact ⟨v, [], hv, hLow⟩
    · exact ⟨v, [low], hv, isLowUnit_of_isHighUnit hHigh⟩
  obtain ⟨v, vs, hUnits, hLow⟩ := hFirst
  have hRead := decodeLossy_units c us
  rw [hUnits, List.cons_append] at hRead ⊢
  rw [decodeLossy_cons_of_not_low hLow, hRead, loneChar_of_surrogate (.inl h)]

/-- Where every surrogate has its partner, nothing is replaced. -/
theorem decodeLossy_of_decodeUtf16 {us : List UInt16} {s : List Char}
    (h : decodeUtf16 us = some s) : decodeLossy us = s := by
  induction us using decodeUtf16.induct generalizing s with
  | case1 =>
    cases h
    rfl
  | case2 u hHigh v us hLow ih =>
    rw [decodeUtf16, if_pos hHigh] at h
    simp only [hLow, if_true, Option.map_eq_some_iff] at h
    obtain ⟨t, ht, rfl⟩ := h
    rw [decodeLossy_pair hHigh hLow, ih ht]
  | case3 u hHigh v us hLow =>
    rw [decodeUtf16.eq_def] at h
    simp [hHigh, hLow] at h
  | case4 u hHigh =>
    rw [decodeUtf16.eq_def] at h
    simp [hHigh] at h
  | case5 u us hHigh hLow =>
    rw [decodeUtf16.eq_def] at h
    simp [hHigh, hLow] at h
  | case6 u us hHigh hLow ih =>
    rw [decodeUtf16.eq_def] at h
    simp only [if_neg hHigh, if_neg hLow, Option.map_eq_some_iff] at h
    obtain ⟨t, ht, rfl⟩ := h
    rw [decodeLossy_cons_of_not_high (by simpa using hHigh), ih ht,
      loneChar_of_not_surrogate (by simpa using hHigh) (by simpa using hLow)]

end Text

end ClassSketch
