import ClassSketch.Proofs.ClassFile.Constants

/-!
# Groups of modified UTF-8

Bytes are a text if they are plain UTF-8, or else if they are groups that stand for the units of the
text. The first byte of a group tells how many bytes it has, and the units of a text are paired.

## The bytes that continue a group

Plain UTF-8 asks of every byte after the first of a character that it continue the character. The
reader of groups does not ask: it takes the last six bits of whatever comes after the first byte, so
that a broken group swallows the character behind it. `Grouped` is what is read, `Admits` is what
the format admits, and the difference between them is exactly such a byte.

## Main definitions

* `ModifiedUtf8.Group` — a group, with as many bytes as its first one tells
* `ModifiedUtf8.Group.Continued` — a group in which the other bytes continue the first
* `ModifiedUtf8.Grouped`, `ModifiedUtf8.Admits` — the bytes of a text, as read and as admitted

## Main results

* `ModifiedUtf8.groupUnits?_eq_some_iff` — what is read as groups
* `ModifiedUtf8.decode?_eq_some_iff` — what is read
* `ModifiedUtf8.continued_of_decodeUtf8` — groups that are plain UTF-8 are continued
* `ModifiedUtf8.decode?_accepts` — what is read, what is refused, and what should not have been read
-/

namespace ClassSketch

namespace ModifiedUtf8

open Text

/-! ### Groups -/

/-- The bytes for one UTF-16 unit. -/
inductive Group where
  | one (a : UInt8) (h : a.toNat < 0x80)
  | two (a b : UInt8) (h : 0xC0 ≤ a.toNat ∧ a.toNat < 0xE0)
  | three (a b c : UInt8) (h : 0xE0 ≤ a.toNat ∧ a.toNat < 0xF0)

namespace Group

/-- The bytes after the first. -/
def others : Group → List UInt8
  | one _ _ => []
  | two _ b _ => [b]
  | three _ b c _ => [b, c]

/-- The bytes of a group. -/
def bytes : Group → List UInt8
  | one a _ => [a]
  | two a b _ => [a, b]
  | three a b c _ => [a, b, c]

/-- The unit that a group stands for: what the first byte has left of its bits, and the last six
bits of each of the others. -/
def unit : Group → UInt16
  | one a _ => a.toNat.toUInt16
  | two a b _ => (a.toNat % 32 * 64 + tailBits b).toUInt16
  | three a b c _ => (a.toNat % 16 * 4096 + tailBits b * 64 + tailBits c).toUInt16

/-- The bytes after the first continue it. -/
def Continued (g : Group) : Prop := ∀ b ∈ g.others, isTail b = true

end Group

variable {g : Group} {gs gs' : List Group} {bytes : List UInt8} {us : List UInt16} {s : List Char}

theorem groupUnits?_bytes_append (g : Group) (rest : List UInt8) :
    groupUnits? (g.bytes ++ rest) = (groupUnits? rest).map (g.unit :: ·) := by
  cases g with
  | one a h => exact groupUnits?_one h rest
  | two a b h => exact groupUnits?_two h.1 h.2 rest
  | three a b c h => exact groupUnits?_three h.1 h.2 rest

theorem groupUnits?_flatMap_bytes (gs : List Group) :
    groupUnits? (gs.flatMap Group.bytes) = some (gs.map Group.unit) := by
  induction gs with
  | nil => rfl
  | cons g gs ih =>
    rw [List.flatMap_cons, groupUnits?_bytes_append, ih, Option.map_some, List.map_cons]

theorem exists_groups_of_groupUnits? (bytes : List UInt8) :
    ∀ {us}, groupUnits? bytes = some us →
      ∃ gs : List Group, bytes = gs.flatMap Group.bytes ∧ us = gs.map Group.unit := by
  -- A first byte that starts no group, and an end inside a group, leave nothing to show.
  fun_induction groupUnits? bytes with
  | case1 =>
    intro us h
    cases h
    exact ⟨[], rfl, rfl⟩
  | case2 a rest ha ih =>
    intro us h
    obtain ⟨vs, hvs, rfl⟩ := Option.map_eq_some_iff.mp h
    obtain ⟨gs, rfl, rfl⟩ := ih hvs
    refine ⟨.one a (UInt8.lt_iff_toNat_lt.mp ha) :: gs, rfl, ?_⟩
    simp [Group.unit]
  | case4 a _ hLow hHigh b rest ih =>
    intro us h
    obtain ⟨vs, hvs, rfl⟩ := Option.map_eq_some_iff.mp h
    obtain ⟨gs, rfl, rfl⟩ := ih hvs
    rw [UInt8.not_lt, UInt8.le_iff_toNat_le] at hLow
    exact ⟨.two a b ⟨hLow, UInt8.lt_iff_toNat_lt.mp hHigh⟩ :: gs, rfl, rfl⟩
  | case6 a _ _ hLow hHigh b c rest ih =>
    intro us h
    obtain ⟨vs, hvs, rfl⟩ := Option.map_eq_some_iff.mp h
    obtain ⟨gs, rfl, rfl⟩ := ih hvs
    rw [UInt8.not_lt, UInt8.le_iff_toNat_le] at hLow
    exact ⟨.three a b c ⟨hLow, UInt8.lt_iff_toNat_lt.mp hHigh⟩ :: gs, rfl, rfl⟩
  | _ => simp

theorem groupUnits?_eq_some_iff : groupUnits? bytes = some us ↔
    ∃ gs : List Group, bytes = gs.flatMap Group.bytes ∧ us = gs.map Group.unit := by
  refine ⟨exists_groups_of_groupUnits? bytes, ?_⟩
  rintro ⟨gs, rfl, rfl⟩
  exact groupUnits?_flatMap_bytes gs

/-- The first byte tells where the group ends. -/
theorem bytes_append_inj {g g' : Group} {rest rest' : List UInt8}
    (h : g.bytes ++ rest = g'.bytes ++ rest') : g = g' ∧ rest = rest' := by
  have hFirst : (g.bytes ++ rest).head? = (g'.bytes ++ rest').head? := congrArg List.head? h
  cases g with
  | one a ha =>
    cases g' with
    | one => simp_all [Group.bytes]
    | two a' _ ha' => cases hFirst; omega
    | three a' _ _ ha' => cases hFirst; omega
  | two a b ha =>
    cases g' with
    | one a' ha' => cases hFirst; omega
    | two => simp_all [Group.bytes]
    | three a' _ _ ha' => cases hFirst; omega
  | three a b c ha =>
    cases g' with
    | one a' ha' => cases hFirst; omega
    | two a' _ ha' => cases hFirst; omega
    | three => simp_all [Group.bytes]

/-- Bytes are groups in one way only. -/
theorem groups_unique : ∀ {gs gs' : List Group},
    gs.flatMap Group.bytes = gs'.flatMap Group.bytes → gs = gs'
  | [], [], _ => rfl
  | [], g :: gs, h => by cases g <;> cases h
  | g :: gs, [], h => by cases g <;> cases h
  | g :: gs, g' :: gs', h => by
    rw [List.flatMap_cons, List.flatMap_cons] at h
    obtain ⟨rfl, hRest⟩ := bytes_append_inj h
    rw [groups_unique hRest]

/-! ### Groups that are plain UTF-8 -/

/-- A group that plain UTF-8 goes through is continued. -/
theorem continued_of_decodeUtf8_append {rest : List UInt8}
    (h : decodeUtf8 (g.bytes ++ rest) = some s) :
    g.Continued ∧ ∃ t, decodeUtf8 rest = some t := by
  cases g with
  | one a ha =>
    obtain ⟨t, ht, -⟩ := Option.map_eq_some_iff.mp ((decodeUtf8_one ha).symm.trans h)
    exact ⟨by simp [Group.Continued, Group.others], t, ht⟩
  | two a b ha =>
    have h₁ : ¬a < 0x80 := by rw [UInt8.lt_iff_toNat_lt]; simp; omega
    have h₃ : ¬(0xE0 ≤ a && a ≤ 0xEF) = true := by simp [UInt8.le_iff_toNat_le]; omega
    have h₄ : ¬(0xF0 ≤ a && a ≤ 0xF4) = true := by simp [UInt8.le_iff_toNat_le]; omega
    change decodeUtf8 (a :: b :: rest) = some s at h
    rw [decodeUtf8, if_neg h₁, if_neg h₃, if_neg h₄] at h
    split at h
    · split at h
      · next hb =>
        obtain ⟨t, ht, -⟩ := Option.map_eq_some_iff.mp h
        exact ⟨by simpa [Group.Continued, Group.others] using hb, t, ht⟩
      · cases h
    · cases h
  | three a b c ha =>
    have h₁ : ¬a < 0x80 := by rw [UInt8.lt_iff_toNat_lt]; simp; omega
    have h₂ : ¬(0xC2 ≤ a && a ≤ 0xDF) = true := by simp [UInt8.le_iff_toNat_le]; omega
    have h₃ : (0xE0 ≤ a && a ≤ 0xEF) = true := by simp [UInt8.le_iff_toNat_le]; omega
    change decodeUtf8 (a :: b :: c :: rest) = some s at h
    rw [decodeUtf8, if_neg h₁, if_neg h₂, if_pos h₃] at h
    dsimp only at h
    split at h
    · next hTails =>
      obtain ⟨hb, hc⟩ := Bool.and_eq_true_iff.mp hTails
      have hb : isTail b = true := isTail_iff.mpr (by have := isSecondOfThree_iff.mp hb; omega)
      obtain ⟨t, ht, -⟩ := Option.map_eq_some_iff.mp h
      exact ⟨by simp [Group.Continued, Group.others, hb, hc], t, ht⟩
    · cases h

theorem continued_of_decodeUtf8 : ∀ {gs : List Group} {s : List Char},
    decodeUtf8 (gs.flatMap Group.bytes) = some s → ∀ g ∈ gs, g.Continued
  | [], _, _ => by simp
  | g :: gs, s, h => by
    rw [List.flatMap_cons] at h
    obtain ⟨hFirst, t, hRest⟩ := continued_of_decodeUtf8_append h
    rw [List.forall_mem_cons]
    exact ⟨hFirst, continued_of_decodeUtf8 hRest⟩

/-! ### What is read -/

/-- The groups of bytes stand for the units of a text. -/
structure Grouped (gs : List Group) (bytes : List UInt8) (s : List Char) : Prop where
  bytes_eq : bytes = gs.flatMap Group.bytes
  units_eq : gs.map Group.unit = s.flatMap units

/-- The bytes are a text by the format: plain UTF-8, or groups that are continued. -/
def Admits (bytes : List UInt8) (s : List Char) : Prop :=
  bytes = encodeUtf8 s ∨ ∃ gs, Grouped gs bytes s ∧ ∀ g ∈ gs, g.Continued

theorem decodeUtf16_eq_some_iff : decodeUtf16 us = some s ↔ us = s.flatMap units := by
  refine ⟨eq_flatMap_units_of_decodeUtf16 us, ?_⟩
  rintro rfl
  exact decodeUtf16_flatMap_units s

theorem groups_bind_eq_some_iff :
    (groupUnits? bytes).bind decodeUtf16 = some s ↔ ∃ gs, Grouped gs bytes s := by
  simp only [Option.bind_eq_some_iff, groupUnits?_eq_some_iff, decodeUtf16_eq_some_iff]
  constructor
  · rintro ⟨us, ⟨gs, hBytes, rfl⟩, hUnits⟩
    exact ⟨gs, hBytes, hUnits⟩
  · rintro ⟨gs, hBytes, hUnits⟩
    exact ⟨_, ⟨gs, hBytes, rfl⟩, hUnits⟩

/-- Bytes are read as a text if they are plain UTF-8 for it or groups for it. -/
theorem decode?_eq_some_iff :
    decode? bytes = some s ↔ bytes = encodeUtf8 s ∨ ∃ gs, Grouped gs bytes s := by
  rw [← groups_bind_eq_some_iff, ← decodeUtf8_eq_some_iff, decode?]
  cases hPlain : decodeUtf8 bytes with
  | none => simp
  | some t =>
    refine ⟨.inl, ?_⟩
    rintro (h | h)
    · exact h
    · obtain ⟨us, hUnits, hText⟩ := Option.bind_eq_some_iff.mp h
      rwa [decodeUtf16_of_decodeUtf8 bytes hPlain hUnits] at hText

/-- What is read is not admitted just where a byte does not continue its group. -/
theorem not_admits_iff (h : decode? bytes = some s) :
    ¬Admits bytes s ↔ ∃ gs, Grouped gs bytes s ∧ ∃ g ∈ gs, ¬g.Continued := by
  constructor
  · intro hNot
    obtain ⟨hPlain, hGroups⟩ := not_or.mp hNot
    obtain ⟨gs, hRead⟩ := (decode?_eq_some_iff.mp h).resolve_left hPlain
    refine ⟨gs, hRead, ?_⟩
    by_contra hAll
    exact hGroups ⟨gs, hRead, by simpa using hAll⟩
  · rintro ⟨gs, hRead, g, hg, hBroken⟩ (hPlain | ⟨gs', hRead', hAll⟩)
    · rw [← decodeUtf8_eq_some_iff, hRead.bytes_eq] at hPlain
      exact hBroken (continued_of_decodeUtf8 hPlain g hg)
    · have hSame : gs = gs' := groups_unique (hRead.bytes_eq.symm.trans hRead'.bytes_eq)
      exact hBroken (hAll g (hSame ▸ hg))

theorem readUtf8_eq_invalidUtf8_iff (hFits : bytes.length ≤ 65535) (rest : List UInt8) :
    ConstantPool.readUtf8 (Reader.toBigEndian 2 bytes.length ++ (bytes ++ rest)) =
      .error .invalidUtf8 ↔ decode? bytes = none := by
  rw [ConstantPool.readUtf8_append hFits]
  cases decode? bytes <;> simp

/-- **Which bytes are a text.** Bytes are read if they are plain UTF-8 or groups for the paired
units of a text; all others are refused as invalid when they stand in a constant pool. What is read
and should not be are the bytes with a group in which a byte does not continue the first. -/
theorem decode?_accepts (bytes : List UInt8) :
    (∀ s, decode? bytes = some s ↔ bytes = encodeUtf8 s ∨ ∃ gs, Grouped gs bytes s) ∧
      (∀ s, decode? bytes = some s ∧ ¬Admits bytes s ↔
        ∃ gs, Grouped gs bytes s ∧ ∃ g ∈ gs, ¬g.Continued) ∧
      ∀ rest, bytes.length ≤ 65535 →
        (ConstantPool.readUtf8 (Reader.toBigEndian 2 bytes.length ++ (bytes ++ rest)) =
            .error .invalidUtf8 ↔
          ∀ s, bytes ≠ encodeUtf8 s ∧ ∀ gs, ¬Grouped gs bytes s) := by
  refine ⟨fun s => decode?_eq_some_iff, fun s => ?_, fun rest hFits => ?_⟩
  · constructor
    · rintro ⟨hRead, hNot⟩
      exact (not_admits_iff hRead).mp hNot
    · rintro ⟨gs, hRead, hBroken⟩
      have hText : decode? bytes = some s := decode?_eq_some_iff.mpr (.inr ⟨gs, hRead⟩)
      exact ⟨hText, (not_admits_iff hText).mpr ⟨gs, hRead, hBroken⟩⟩
  · rw [readUtf8_eq_invalidUtf8_iff hFits, Option.eq_none_iff_forall_ne_some]
    simp only [ne_eq, decode?_eq_some_iff, not_or, not_exists]

/-- A high surrogate before a letter is refused, though every group is continued. -/
theorem decode?_accepts_unpaired :
    [0xED, 0xA0, 0xBD, 0x41].length ≤ 65535 ∧
      ConstantPool.readUtf8
          (Reader.toBigEndian 2 4 ++ ([0xED, 0xA0, 0xBD, 0x41] ++ [0x07])) =
        .error .invalidUtf8 := by
  have hFits : [0xED, 0xA0, 0xBD, 0x41].length ≤ 65535 := by decide
  obtain ⟨hRead, -, hRefused⟩ := decode?_accepts [0xED, 0xA0, 0xBD, 0x41]
  have hNone : ∀ s, decode? [0xED, 0xA0, 0xBD, 0x41] ≠ some s :=
    Option.eq_none_iff_forall_ne_some.mp (by decide)
  refine ⟨hFits, (hRefused [0x07] hFits).mpr fun s => ?_⟩
  rw [← not_exists, ← not_or, ← hRead]
  exact hNone s

/-- A letter in place of the byte that should continue a group is swallowed. -/
theorem not_admits_swallowed :
    ¬∀ bytes s, decode? bytes = some s → Admits bytes s := by
  intro h
  have hRead : decode? [0xC3, 0x41] = some ['Á'] := by decide
  have hBroken : ¬(Group.two 0xC3 0x41 (by decide)).Continued := by
    intro hAll
    exact absurd (hAll 0x41 (List.mem_singleton_self _)) (by decide)
  refine (not_admits_iff hRead).mpr ?_ (h _ _ hRead)
  exact ⟨[.two 0xC3 0x41 (by decide)], ⟨rfl, by decide⟩, _, List.mem_singleton_self _, hBroken⟩

end ModifiedUtf8

end ClassSketch
