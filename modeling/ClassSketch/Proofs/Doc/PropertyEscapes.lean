import ClassSketch.Proofs.Doc.PropertyLayout
import ClassSketch.Proofs.Text.Utf16

/-!
# Taking the escapes out of a text

An escaped text is UTF-16 in disguise. It is cut into characters, characters after a backslash and
escapes of units, each of which stands for units, and the text is what all these units are read as.
A high surrogate is paired with the unit after it only if that unit is a low one, whichever way the
two are written.

## The surrogate that waits

The reader goes over the text once, and what it remembers is a high surrogate that may still find
its partner. The invariant is that the units read so far, less the ones that are already text, are
just that surrogate: it stands before the units of the rest.

## Main definitions

* `Properties.Units` — the units that an escaped text stands for

## Main results

* `Properties.unescapeFrom_units` — the invariant
* `Properties.Units.unique` — a text is cut in one way at most
* `Properties.unescape?_eq_some_iff_decodeLossy` — the text that an escaped text stands for
-/

namespace ClassSketch

namespace Properties

open Text

variable {waiting : Option UInt16} {a b c d : Char} {u : UInt16} {s t : List Char}
  {us vs : List UInt16}

/-! ### Units of an escaped text -/

/-- The units that an escaped text stands for. The digits of a unit may be of either case, with a
plus sign in place of the first. A backslash with nothing after it stands for nothing. -/
inductive Units : List Char → List UInt16 → Prop
  | nil : Units [] []
  | backslash : Units ['\\'] []
  | raw {c : Char} {s : List Char} {us : List UInt16} (hc : c ≠ '\\') (h : Units s us) :
      Units (c :: s) (units c ++ us)
  | escape {c : Char} {s : List Char} {us : List UInt16} (hc : c ≠ 'u') (h : Units s us) :
      Units ('\\' :: c :: s) (units (escapedChar c) ++ us)
  | unit {a b c d : Char} {u : UInt16} {s : List Char} {us : List UInt16}
      (hu : hexUnit? a b c d = some u) (h : Units s us) :
      Units ('\\' :: 'u' :: a :: b :: c :: d :: s) (u :: us)
  | signed {b c d : Char} {u : UInt16} {s : List Char} {us : List UInt16}
      (hu : hexUnit? '0' b c d = some u) (h : Units s us) :
      Units ('\\' :: 'u' :: '+' :: b :: c :: d :: s) (u :: us)

theorem hexUnit?_plus (b c d : Char) : hexUnit? '+' b c d = none := rfl

theorem unit?_eq_some_iff :
    unit? a b c d = some u ↔
      hexUnit? a b c d = some u ∨ a = '+' ∧ hexUnit? '0' b c d = some u := by
  rw [unit?]
  by_cases ha : a = '+'
  · subst ha
    simp [hexUnit?_plus]
  · simp [ha]

theorem Units.of_unit? (h : Units s us) (hu : unit? a b c d = some u) :
    Units ('\\' :: 'u' :: a :: b :: c :: d :: s) (u :: us) := by
  rcases unit?_eq_some_iff.mp hu with hu | ⟨rfl, hu⟩
  · exact .unit hu h
  · exact .signed hu h

/-- Induction on an escaped text, one character or escape at a time. -/
@[elab_as_elim]
theorem escape_induction {motive : List Char → Prop} (nil : motive []) (backslash : motive ['\\'])
    (raw : ∀ c s, c ≠ '\\' → motive s → motive (c :: s))
    (escape : ∀ c s, c ≠ 'u' → motive s → motive ('\\' :: c :: s))
    (short : ∀ s, s.length < 4 → motive ('\\' :: 'u' :: s))
    (unit : ∀ a b c d s, motive s → motive ('\\' :: 'u' :: a :: b :: c :: d :: s)) :
    ∀ s, motive s
  | [] => nil
  | [c] => by
    by_cases hc : c = '\\'
    · exact hc ▸ backslash
    · exact raw c [] hc nil
  | c :: e :: s => by
    have rest : ∀ t, t.length < (c :: e :: s).length → motive t := fun t ht =>
      escape_induction nil backslash raw escape short unit t
    by_cases hc : c = '\\'
    · subst hc
      by_cases he : e = 'u'
      · subst he
        match s with
        | [] => exact short [] (by decide)
        | [a] => exact short [a] (by simp)
        | [a, b] => exact short [a, b] (by simp)
        | [a, b, c] => exact short [a, b, c] (by simp)
        | a :: b :: c :: d :: s =>
          exact unit a b c d s (rest s (by simp only [List.length_cons]; omega))
      · exact escape e s he (rest s (by simp only [List.length_cons]; omega))
    · exact raw c (e :: s) hc (rest (e :: s) (by simp))
termination_by s => s.length
decreasing_by exact ht

/-! ### One step of the reader -/

theorem unescapeFrom_raw (hc : c ≠ '\\') (waiting : Option UInt16) (s : List Char) :
    unescapeFrom waiting (c :: s) = (unescapeFrom none s).map (flush waiting ++ c :: ·) := by
  rw [unescapeFrom.eq_def]
  simp only [if_neg hc]

theorem unescapeFrom_escape (hc : c ≠ 'u') (waiting : Option UInt16) (s : List Char) :
    unescapeFrom waiting ('\\' :: c :: s) =
      (unescapeFrom none s).map (flush waiting ++ escapedChar c :: ·) := by
  rw [unescapeFrom.eq_def]
  simp only [if_true, if_neg hc]

theorem unescapeFrom_unit (hu : unit? a b c d = some u) (waiting : Option UInt16)
    (s : List Char) :
    unescapeFrom waiting ('\\' :: 'u' :: a :: b :: c :: d :: s) =
      (unescapeFrom (addUnit waiting u).2 s).map ((addUnit waiting u).1 ++ ·) := by
  rw [unescapeFrom.eq_def]
  simp only [if_true, hu, Option.bind_eq_bind, Option.bind_some]
  cases unescapeFrom (addUnit waiting u).2 s <;> rfl

theorem unescapeFrom_no_unit (hu : unit? a b c d = none) (waiting : Option UInt16)
    (s : List Char) : unescapeFrom waiting ('\\' :: 'u' :: a :: b :: c :: d :: s) = none := by
  rw [unescapeFrom.eq_def]
  simp only [if_true, hu]
  rfl

theorem unescapeFrom_short (hs : s.length < 4) (waiting : Option UInt16) :
    unescapeFrom waiting ('\\' :: 'u' :: s) = none := by
  rw [unescapeFrom.eq_def]
  match s, hs with
  | [], _ => rfl
  | [_], _ => rfl
  | [_, _], _ => rfl
  | [_, _, _], _ => rfl

/-! ### The surrogate that waits -/

/-- Only a high surrogate waits for the next unit. -/
def Waits (waiting : Option UInt16) : Prop := ∀ high ∈ waiting, isHighUnit high = true

theorem waits_none : Waits none := fun _ h => nomatch h

theorem waits_some {high : UInt16} (h : isHighUnit high = true) : Waits (some high) := by
  intro u hu
  cases hu
  exact h

/-- A character comes after the surrogate that waits before it. -/
theorem Waits.decodeLossy_units (hWaits : Waits waiting) (c : Char) (us : List UInt16) :
    decodeLossy (waiting.toList ++ (units c ++ us)) = flush waiting ++ c :: decodeLossy us := by
  cases waiting with
  | none => exact Text.decodeLossy_units c us
  | some high => exact decodeLossy_high_units (hWaits high rfl) c us

theorem Waits.decodeLossy_nil (hWaits : Waits waiting) :
    decodeLossy (waiting.toList ++ []) = flush waiting := by
  cases waiting with
  | none => rfl
  | some high => exact congrArg (fun c => [c]) (loneChar_of_surrogate (.inl (hWaits high rfl)))

/-- A unit pairs off with the surrogate that waits before it, or is the one that waits, or is text.
-/
theorem Waits.addUnit (hWaits : Waits waiting) (u : UInt16) (us : List UInt16) :
    Waits (addUnit waiting u).2 ∧
      decodeLossy (waiting.toList ++ u :: us) =
        (addUnit waiting u).1 ++ decodeLossy ((addUnit waiting u).2.toList ++ us) := by
  cases waiting with
  | none =>
    rcases surrogate_cases u with ⟨hHigh, hLow⟩ | ⟨hHigh, hLow⟩ | ⟨hHigh, hLow⟩
    · have hAdd : Properties.addUnit none u = ([], some u) := by simp [Properties.addUnit, hHigh]
      rw [hAdd]
      exact ⟨waits_some hHigh, rfl⟩
    · have hAdd : Properties.addUnit none u = ([replacement], none) := by
        simp [Properties.addUnit, hHigh, hLow]
      rw [hAdd, ← loneChar_of_surrogate (.inr hLow)]
      exact ⟨waits_none, decodeLossy_cons_of_not_high hHigh us⟩
    · have hAdd : Properties.addUnit none u = ([unitChar u], none) := by
        simp [Properties.addUnit, hHigh, hLow]
      rw [hAdd, ← loneChar_of_not_surrogate hHigh hLow]
      exact ⟨waits_none, decodeLossy_cons_of_not_high hHigh us⟩
  | some high =>
    have hLone : loneChar high = replacement := loneChar_of_surrogate (.inl (hWaits high rfl))
    rcases surrogate_cases u with ⟨hHigh, hLow⟩ | ⟨hHigh, hLow⟩ | ⟨hHigh, hLow⟩
    · have hAdd : Properties.addUnit (some high) u = ([replacement], some u) := by
        simp [Properties.addUnit, hHigh, hLow]
      rw [hAdd, ← hLone]
      exact ⟨waits_some hHigh, decodeLossy_cons_of_not_low hLow high us⟩
    · have hAdd : Properties.addUnit (some high) u = ([pairChar high u], none) := by
        simp [Properties.addUnit, hLow]
      rw [hAdd]
      exact ⟨waits_none, decodeLossy_pair (hWaits high rfl) hLow us⟩
    · have hAdd : Properties.addUnit (some high) u = ([replacement, unitChar u], none) := by
        simp [Properties.addUnit, hHigh, hLow]
      refine ⟨hAdd ▸ waits_none, ?_⟩
      rw [hAdd, ← hLone, ← loneChar_of_not_surrogate hHigh hLow]
      calc decodeLossy (high :: u :: us)
        _ = loneChar high :: decodeLossy (u :: us) := decodeLossy_cons_of_not_low hLow high us
        _ = loneChar high :: loneChar u :: decodeLossy us := by
          rw [decodeLossy_cons_of_not_high hHigh]

/-! ### The whole text -/

/-- What is read of a text after a surrogate that waits is what the units are read as, with that
surrogate before them. -/
theorem unescapeFrom_units (h : Units s us) :
    ∀ {waiting : Option UInt16}, Waits waiting →
      unescapeFrom waiting s = some (decodeLossy (waiting.toList ++ us)) := by
  induction h with
  | nil =>
    intro waiting hWaits
    rw [hWaits.decodeLossy_nil]
    rfl
  | backslash =>
    intro waiting hWaits
    rw [hWaits.decodeLossy_nil]
    rfl
  | raw hc _ ih =>
    intro waiting hWaits
    rw [unescapeFrom_raw hc, ih waits_none, hWaits.decodeLossy_units]
    rfl
  | escape hc _ ih =>
    intro waiting hWaits
    rw [unescapeFrom_escape hc, ih waits_none, hWaits.decodeLossy_units]
    rfl
  | unit hu _ ih =>
    intro waiting hWaits
    obtain ⟨hNext, hRead⟩ := hWaits.addUnit _ _
    rw [unescapeFrom_unit (unit?_eq_some_iff.mpr (.inl hu)), ih hNext, hRead]
    rfl
  | signed hu _ ih =>
    intro waiting hWaits
    obtain ⟨hNext, hRead⟩ := hWaits.addUnit _ _
    rw [unescapeFrom_unit (unit?_eq_some_iff.mpr (.inr ⟨rfl, hu⟩)), ih hNext, hRead]
    rfl

/-- A text that is read stands for units. -/
theorem exists_units (s : List Char) : ∀ {waiting : Option UInt16} {t : List Char},
    unescapeFrom waiting s = some t → ∃ us, Units s us := by
  induction s using escape_induction with
  | nil => exact fun _ => ⟨[], .nil⟩
  | backslash => exact fun _ => ⟨[], .backslash⟩
  | raw c s hc ih =>
    intro waiting t h
    rw [unescapeFrom_raw hc, Option.map_eq_some_iff] at h
    obtain ⟨t', ht', -⟩ := h
    obtain ⟨us, hUnits⟩ := ih ht'
    exact ⟨_, .raw hc hUnits⟩
  | escape c s hc ih =>
    intro waiting t h
    rw [unescapeFrom_escape hc, Option.map_eq_some_iff] at h
    obtain ⟨t', ht', -⟩ := h
    obtain ⟨us, hUnits⟩ := ih ht'
    exact ⟨_, .escape hc hUnits⟩
  | short s hs =>
    intro waiting t h
    rw [unescapeFrom_short hs] at h
    cases h
  | unit a b c d s ih =>
    intro waiting t h
    cases hu : unit? a b c d with
    | none =>
      rw [unescapeFrom_no_unit hu] at h
      cases h
    | some u =>
      rw [unescapeFrom_unit hu, Option.map_eq_some_iff] at h
      obtain ⟨t', ht', -⟩ := h
      obtain ⟨us, hUnits⟩ := ih ht'
      exact ⟨_, hUnits.of_unit? hu⟩

/-- The units of a text are determined by it. -/
theorem Units.unique (h : Units s us) : ∀ {vs : List UInt16}, Units s vs → vs = us := by
  induction h with
  | nil =>
    intro vs h
    cases h
    rfl
  | backslash =>
    intro vs h
    cases h with
    | backslash => rfl
    | raw hc => exact absurd rfl hc
  | raw hc _ ih =>
    intro vs h
    cases h with
    | raw _ h => rw [ih h]
    | _ => exact absurd rfl hc
  | escape hc _ ih =>
    intro vs h
    cases h with
    | raw hSlash => exact absurd rfl hSlash
    | escape _ h => rw [ih h]
    | _ => exact absurd rfl hc
  | unit hu _ ih =>
    intro vs h
    cases h with
    | raw hSlash => exact absurd rfl hSlash
    | escape hc => exact absurd rfl hc
    | unit hu' h =>
      rw [hu] at hu'
      cases hu'
      rw [ih h]
    | signed hu' h => cases hexUnit?_plus _ _ _ ▸ hu
  | signed hu _ ih =>
    intro vs h
    cases h with
    | raw hSlash => exact absurd rfl hSlash
    | escape hc => exact absurd rfl hc
    | unit hu' h => cases hexUnit?_plus _ _ _ ▸ hu'
    | signed hu' h =>
      rw [hu] at hu'
      cases hu'
      rw [ih h]

/-- **An escaped text stands for the text of its units**: it is cut in one way, a surrogate before
its partner is one character with it, and any other surrogate is replaced. -/
theorem unescape?_eq_some_iff_decodeLossy :
    unescape? s = some t ↔ ∃ us, (∀ vs, Units s vs ↔ vs = us) ∧ decodeLossy us = t := by
  constructor
  · intro h
    obtain ⟨us, hUnits⟩ := exists_units s h
    have hRead : unescape? s = some (decodeLossy us) := unescapeFrom_units hUnits waits_none
    refine ⟨us, fun vs => ⟨hUnits.unique, fun hvs => hvs ▸ hUnits⟩, ?_⟩
    exact Option.some.inj (hRead.symm.trans h)
  · rintro ⟨us, hUnits, rfl⟩
    exact unescapeFrom_units ((hUnits us).mpr rfl) waits_none

/-- A surrogate before a pair, a pair, and a surrogate with a character between it and the next. -/
example : unescape? "\\ud83d\\uD83D\\ude00\\ud83d\\t\\ude00\\".toList =
    some [replacement, '😀', replacement, '\t', replacement] := by
  decide +kernel

end Properties

end ClassSketch
