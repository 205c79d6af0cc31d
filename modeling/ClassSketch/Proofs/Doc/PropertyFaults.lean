import ClassSketch.Proofs.Doc.PropertyEscapes
import ClassSketch.Proofs.Doc.PropertyRoundTrip

/-!
# Faults of property files

The one thing that can be wrong with a property file is the escape of a unit without its digits. An
escape stands on a logical line, and it is taken out only after the line has been cut into key and
value. The cut goes through an escape only where it has no digits, for no digit is a blank or a
sign. So it does not matter that the two are read apart: what is wrong with one of them is wrong
with the line, and the error is that of the first such line.

## The first digit

The digits are read as a number, and a number may have a plus sign. A sign in place of the first
digit is therefore read: `FourRead` is what is asked of the four characters, and `FourDigits` is
what the format asks.

## Main definitions

* `Properties.LacksDigits`, `Properties.Malformed` — texts with an escape that has no digits
* `Properties.Joins`, `Properties.Joined` — the logical lines of the lines of a text

## Main results

* `Properties.unescape?_eq_none_iff` — which texts are not read
* `Properties.malformed_splitEntry` — a line is malformed if its key or its value is
* `Properties.joined_iff` — the logical lines
* `Properties.parse_refuses_malformed` — which texts are refused, and with which error
* `Properties.exists_parse_of_fourDigits` — a text with all its digits is read
-/

namespace ClassSketch

namespace Properties

open Text

variable {digits : List Char → Prop} {a b c d : Char} {s t : List Char}

/-! ### Four digits -/

/-- A hexadecimal digit of either case. -/
def IsHexDigit (c : Char) : Prop :=
  ('0' ≤ c ∧ c ≤ '9') ∨ ('a' ≤ c ∧ c ≤ 'f') ∨ ('A' ≤ c ∧ c ≤ 'F')

instance : DecidablePred IsHexDigit := fun c =>
  inferInstanceAs (Decidable (('0' ≤ c ∧ c ≤ '9') ∨ ('a' ≤ c ∧ c ≤ 'f') ∨ ('A' ≤ c ∧ c ≤ 'F')))

/-- A text starts with four digits. -/
def FourDigits (s : List Char) : Prop :=
  ∃ a b c d t, s = a :: b :: c :: d :: t ∧
    IsHexDigit a ∧ IsHexDigit b ∧ IsHexDigit c ∧ IsHexDigit d

/-- A text starts with four digits, of which the first may be a plus sign instead. -/
def FourRead (s : List Char) : Prop :=
  ∃ a b c d t, s = a :: b :: c :: d :: t ∧
    (a = '+' ∨ IsHexDigit a) ∧ IsHexDigit b ∧ IsHexDigit c ∧ IsHexDigit d

theorem FourDigits.read (h : FourDigits s) : FourRead s := by
  obtain ⟨a, b, c, d, t, rfl, ha, hRest⟩ := h
  exact ⟨a, b, c, d, t, rfl, .inr ha, hRest⟩

theorem FourRead.append (h : FourRead s) (t : List Char) : FourRead (s ++ t) := by
  obtain ⟨a, b, c, d, s', rfl, hDigits⟩ := h
  exact ⟨a, b, c, d, s' ++ t, rfl, hDigits⟩

theorem not_fourRead_of_short (h : s.length < 4) : ¬FourRead s := by
  rintro ⟨a, b, c, d, t, rfl, -⟩
  simp only [List.length_cons] at h
  omega

theorem fourRead_cons_iff : FourRead (a :: b :: c :: d :: s) ↔
    (a = '+' ∨ IsHexDigit a) ∧ IsHexDigit b ∧ IsHexDigit c ∧ IsHexDigit d := by
  constructor
  · rintro ⟨a', b', c', d', t, h, hDigits⟩
    cases h
    exact hDigits
  · intro hDigits
    exact ⟨a, b, c, d, s, rfl, hDigits⟩

theorem isSome_hexValue?_iff : (hexValue? c).isSome = true ↔ IsHexDigit c := by
  rw [hexValue?, IsHexDigit]
  split
  · next h => simp [h]
  · next h =>
    split
    · next h' => simp [h']
    · next h' =>
      split
      · next h'' => simp [h'']
      · next h'' => simp [h, h', h'']

theorem isSome_hexUnit?_iff : (hexUnit? a b c d).isSome = true ↔
    IsHexDigit a ∧ IsHexDigit b ∧ IsHexDigit c ∧ IsHexDigit d := by
  simp only [← isSome_hexValue?_iff]
  rw [hexUnit?]
  cases hexValue? a <;> cases hexValue? b <;> cases hexValue? c <;> cases hexValue? d <;> simp

/-- Four characters are read as a unit if they are digits. -/
theorem isSome_unit?_iff : (unit? a b c d).isSome = true ↔ FourRead (a :: b :: c :: d :: s) := by
  rw [fourRead_cons_iff, unit?]
  split
  · next ha =>
    have hZero : IsHexDigit '0' := .inl (by decide)
    simp [isSome_hexUnit?_iff, ha, hZero]
  · next ha => simp [isSome_hexUnit?_iff, ha]

theorem IsHexDigit.mustEscape (h : IsHexDigit c) : mustEscape true c = false := by
  by_contra hc
  rw [← isSome_hexValue?_iff, hexValue?_eq_none (by simpa using hc)] at h
  cases h

/-- None of the four characters ends a key or starts an escape. -/
theorem FourRead.mustEscape (h : FourRead (a :: b :: c :: d :: s)) :
    mustEscape true a = false ∧ mustEscape true b = false ∧ mustEscape true c = false ∧
      mustEscape true d = false := by
  obtain ⟨ha, hb, hc, hd⟩ := fourRead_cons_iff.mp h
  refine ⟨?_, hb.mustEscape, hc.mustEscape, hd.mustEscape⟩
  rcases ha with rfl | ha
  · rfl
  · exact ha.mustEscape

/-! ### Escapes without digits -/

/-- A text has an escape of a unit that is not followed by digits. The backslash of an escape comes
after an even number of backslashes. -/
def LacksDigits (digits : List Char → Prop) (s : List Char) : Prop :=
  ∃ front rest, s = front ++ '\\' :: 'u' :: rest ∧ continues front = false ∧ ¬digits rest

/-- A text has an escape that cannot be read. -/
def Malformed (s : List Char) : Prop := LacksDigits FourRead s

/-- After whole characters and escapes, backslashes are counted anew. -/
theorem continues_append (h : continues s = false) (t : List Char) :
    continues (s ++ t) = continues t := by
  induction t using List.reverseRecOn with
  | nil =>
    rw [List.append_nil, h]
    rfl
  | append_singleton t c ih =>
    rw [← List.append_assoc, continues_concat, continues_concat, ih]

theorem not_lacksDigits_nil : ¬LacksDigits digits [] := by
  rintro ⟨front, rest, h, -⟩
  simp at h

theorem not_lacksDigits_backslash : ¬LacksDigits digits ['\\'] := by
  rintro ⟨front, rest, h, -⟩
  have hLength := congrArg List.length h
  simp only [List.length_append, List.length_cons, List.length_nil] at hLength
  omega

theorem lacksDigits_raw (hc : c ≠ '\\') :
    LacksDigits digits (c :: s) ↔ LacksDigits digits s := by
  have hStops : continues [c] = false := by
    rw [← List.nil_append [c], continues_concat, beq_eq_false_iff_ne.mpr hc, Bool.false_and]
  constructor
  · rintro ⟨front, rest, h, hFront, hRest⟩
    cases front with
    | nil => exact absurd (List.cons.inj h).1 hc
    | cons c' front =>
      cases h
      exact ⟨front, rest, rfl, continues_append hStops front ▸ hFront, hRest⟩
  · rintro ⟨front, rest, rfl, hFront, hRest⟩
    exact ⟨c :: front, rest, rfl, (continues_append hStops front).trans hFront, hRest⟩

theorem continues_pair (c : Char) : continues ['\\', c] = false := by
  rw [← List.nil_append ['\\', c], ← List.singleton_append, ← List.append_assoc, continues_concat]
  simp [continues, finalBackslashes]

theorem lacksDigits_escape (hc : c ≠ 'u') :
    LacksDigits digits ('\\' :: c :: s) ↔ LacksDigits digits s := by
  constructor
  · rintro ⟨front, rest, h, hFront, hRest⟩
    match front with
    | [] => exact absurd (List.cons.inj (List.cons.inj h).2).1 hc
    | [b] =>
      cases h
      cases hFront
    | b :: c' :: front =>
      cases h
      exact ⟨front, rest, rfl, continues_append (continues_pair c) front ▸ hFront, hRest⟩
  · rintro ⟨front, rest, rfl, hFront, hRest⟩
    exact ⟨'\\' :: c :: front, rest, rfl,
      (continues_append (continues_pair c) front).trans hFront, hRest⟩

theorem lacksDigits_unit :
    LacksDigits digits ('\\' :: 'u' :: s) ↔ ¬digits s ∨ LacksDigits digits s := by
  constructor
  · rintro ⟨front, rest, h, hFront, hRest⟩
    match front with
    | [] =>
      cases h
      exact .inl hRest
    | [b] =>
      cases h
    | b :: c' :: front =>
      cases h
      exact .inr ⟨front, rest, rfl, continues_append (continues_pair 'u') front ▸ hFront, hRest⟩
  · rintro (hs | ⟨front, rest, rfl, hFront, hRest⟩)
    · exact ⟨[], s, rfl, rfl, hs⟩
    · exact ⟨'\\' :: 'u' :: front, rest, rfl,
        (continues_append (continues_pair 'u') front).trans hFront, hRest⟩

/-- The digits of an escape are no backslashes, so no other escape starts in them. -/
theorem malformed_unit (h : FourRead (a :: b :: c :: d :: s)) :
    Malformed ('\\' :: 'u' :: a :: b :: c :: d :: s) ↔ Malformed s := by
  obtain ⟨ha, hb, hc, hd⟩ := h.mustEscape
  rw [Malformed, lacksDigits_unit, or_iff_right (not_not.mpr h),
    lacksDigits_raw (ne_of_mustEscape ha rfl), lacksDigits_raw (ne_of_mustEscape hb rfl),
    lacksDigits_raw (ne_of_mustEscape hc rfl), lacksDigits_raw (ne_of_mustEscape hd rfl), Malformed]

/-! ### Texts that are not read -/

/-- A text is not read if it has an escape that cannot be. -/
theorem unescapeFrom_eq_none_iff (s : List Char) :
    ∀ waiting : Option UInt16, unescapeFrom waiting s = none ↔ Malformed s := by
  induction s using escape_induction with
  | nil => exact fun _ => ⟨fun h => (nomatch h), fun h => absurd h not_lacksDigits_nil⟩
  | backslash => exact fun _ => ⟨fun h => (nomatch h), fun h => absurd h not_lacksDigits_backslash⟩
  | raw c s hc ih =>
    intro waiting
    rw [unescapeFrom_raw hc, Option.map_eq_none_iff, ih]
    exact (lacksDigits_raw hc).symm
  | escape c s hc ih =>
    intro waiting
    rw [unescapeFrom_escape hc, Option.map_eq_none_iff, ih]
    exact (lacksDigits_escape hc).symm
  | short s hs =>
    intro waiting
    rw [unescapeFrom_short hs]
    exact iff_of_true rfl (lacksDigits_unit.mpr (.inl (not_fourRead_of_short hs)))
  | unit a b c d s ih =>
    intro waiting
    cases hu : unit? a b c d with
    | none =>
      have hDigits : ¬FourRead (a :: b :: c :: d :: s) := by
        rw [← isSome_unit?_iff, hu]
        exact Bool.false_ne_true
      rw [unescapeFrom_no_unit hu]
      exact iff_of_true rfl (lacksDigits_unit.mpr (.inl hDigits))
    | some u =>
      have hDigits : FourRead (a :: b :: c :: d :: s) := by
        rw [← isSome_unit?_iff, hu]
        rfl
      rw [unescapeFrom_unit hu, Option.map_eq_none_iff, ih, malformed_unit hDigits]

theorem unescape?_eq_none_iff : unescape? s = none ↔ Malformed s := unescapeFrom_eq_none_iff s none

/-! ### Key and value -/

theorem malformed_skipGap : Malformed (skipGap s) ↔ Malformed s := by
  induction s with
  | nil => rfl
  | cons c s ih =>
    by_cases hGap : isGap c = true
    · have hSlash : c ≠ '\\' := by
        rintro rfl
        cases hGap
      rw [skipGap, List.dropWhile_cons_of_pos hGap, ← skipGap, ih]
      exact (lacksDigits_raw hSlash).symm
    · rw [skipGap_cons (by simpa using hGap)]

theorem malformed_afterGap : Malformed (afterGap s) ↔ Malformed s := by
  rw [← malformed_skipGap (s := s), afterGap]
  split
  · next t hSkip =>
    rw [hSkip, malformed_skipGap]
    exact (lacksDigits_raw (by decide)).symm
  · next t hSkip =>
    rw [hSkip, malformed_skipGap]
    exact (lacksDigits_raw (by decide)).symm
  · rfl

/-- A character that is no backslash stays in the key or ends it. -/
theorem splitEntry_cases (hc : c ≠ '\\') (s : List Char) :
    splitEntry false (c :: s) = (c :: (splitEntry false s).1, (splitEntry false s).2) ∨
      splitEntry false (c :: s) = ([], skipGap s) ∨
      splitEntry false (c :: s) = ([], afterGap (c :: s)) := by
  have hSlash : (c == '\\') = false := beq_eq_false_iff_ne.mpr hc
  rw [splitEntry, hSlash]
  split
  · exact .inr (.inl rfl)
  · split
    · exact .inr (.inr rfl)
    · exact .inl rfl

/-- The key is the front of the line. -/
theorem splitEntry_front (escaped : Bool) (s : List Char) : (splitEntry escaped s).1 <+: s := by
  induction s generalizing escaped with
  | nil => exact List.prefix_rfl
  | cons c s ih =>
    rw [splitEntry]
    split
    · exact List.nil_prefix
    · split
      · exact List.nil_prefix
      · exact List.cons_prefix_cons.mpr ⟨rfl, ih _⟩

/-- What is wrong with a line is wrong with its key or with its value. -/
theorem malformed_splitEntry (s : List Char) :
    Malformed s ↔ Malformed (splitEntry false s).1 ∨ Malformed (splitEntry false s).2 := by
  induction s using escape_induction with
  | nil => exact (or_self_iff).symm
  | backslash => exact (or_iff_left not_lacksDigits_nil).symm
  | raw c s hc ih =>
    have hLine : Malformed (c :: s) ↔ Malformed s := lacksDigits_raw hc
    rcases splitEntry_cases hc s with hSplit | hSplit | hSplit
    · have hKey : Malformed (c :: (splitEntry false s).1) ↔ Malformed (splitEntry false s).1 :=
        lacksDigits_raw hc
      rw [hSplit, hLine, hKey, ih]
    · rw [hSplit, hLine, malformed_skipGap]
      exact (or_iff_right not_lacksDigits_nil).symm
    · rw [hSplit, malformed_afterGap]
      exact (or_iff_right not_lacksDigits_nil).symm
  | escape c s hc ih =>
    have hLine : ∀ t, Malformed ('\\' :: c :: t) ↔ Malformed t := fun t => lacksDigits_escape hc
    rw [splitEntry_escape, hLine, hLine, ih]
  | short s hs =>
    have hKey : (splitEntry false s).1.length < 4 :=
      (splitEntry_front false s).length_le.trans_lt hs
    rw [splitEntry_escape]
    exact iff_of_true (lacksDigits_unit.mpr (.inl (not_fourRead_of_short hs)))
      (.inl (lacksDigits_unit.mpr (.inl (not_fourRead_of_short hKey))))
  | unit a b c d s ih =>
    rw [splitEntry_escape]
    by_cases hDigits : FourRead (a :: b :: c :: d :: s)
    · obtain ⟨ha, hb, hc, hd⟩ := hDigits.mustEscape
      have hKey : FourRead (a :: b :: c :: d :: (splitEntry false s).1) :=
        fourRead_cons_iff.mpr (fourRead_cons_iff.mp hDigits)
      rw [splitEntry_raw ha, splitEntry_raw hb, splitEntry_raw hc, splitEntry_raw hd,
        malformed_unit hDigits, malformed_unit hKey, ih]
    · -- The key may end among the four characters, and has no digits there either.
      obtain ⟨t, ht⟩ := splitEntry_front false (a :: b :: c :: d :: s)
      have hKey : ¬FourRead (splitEntry false (a :: b :: c :: d :: s)).1 := fun h =>
        hDigits (ht ▸ h.append t)
      exact iff_of_true (lacksDigits_unit.mpr (.inl hDigits))
        (.inl (lacksDigits_unit.mpr (.inl hKey)))

/-! ### Logical lines -/

/-- The text of the logical line that starts with the first of some lines, the number of lines it
takes, and the lines after it. -/
inductive Joins : List (List Char) → List Char → ℕ → List (List Char) → Prop
  | none : Joins [] [] 0 []
  | last {l : List Char} {ls : List (List Char)} (h : continues (skipGap l) = false) :
      Joins (l :: ls) (skipGap l) 1 ls
  | more {l s : List Char} {ls rest : List (List Char)} {k : ℕ}
      (h : continues (skipGap l) = true) (hRest : Joins ls s k rest) :
      Joins (l :: ls) ((skipGap l).dropLast ++ s) (k + 1) rest

/-- The logical lines of lines numbered from `n` on. Blank lines and comments between them are left
out. -/
inductive Joined : ℕ → List (List Char) → List LogicalLine → Prop
  | nil {n : ℕ} : Joined n [] []
  | ignored {n : ℕ} {l : List Char} {ls : List (List Char)} {logical : List LogicalLine}
      (h : isIgnored (skipGap l) = true) (hRest : Joined (n + 1) ls logical) :
      Joined n (l :: ls) logical
  | line {n k : ℕ} {l s : List Char} {ls rest : List (List Char)} {logical : List LogicalLine}
      (h : isIgnored (skipGap l) = false) (hLine : Joins (l :: ls) s k rest)
      (hRest : Joined (n + k) rest logical) : Joined n (l :: ls) (⟨n, s⟩ :: logical)

variable {n k : ℕ} {ls rest : List (List Char)} {logical : List LogicalLine}

theorem joinLines_of_joins (h : Joins ls s k rest) : ∀ (n : ℕ) (started : LogicalLine),
    joinLines (some started) n ls =
      ⟨started.line, started.text ++ s⟩ :: joinLines none (n + k) rest := by
  induction h with
  | none =>
    intro n started
    rw [List.append_nil]
    rfl
  | last h =>
    intro n started
    rw [joinLines]
    simp [h]
  | more h _ ih =>
    intro n started
    rw [joinLines]
    simp only [Option.isNone_some, Bool.false_and, h, Option.getD_some, Bool.false_eq_true,
      if_false, if_true]
    rw [ih, List.append_assoc, Nat.add_right_comm, Nat.add_assoc]

/-- A line that is not left out starts a logical line. -/
theorem joinLines_start (h : isIgnored (skipGap s) = false) (n : ℕ) (ls : List (List Char)) :
    joinLines none n (s :: ls) = joinLines (some ⟨n, []⟩) n (s :: ls) := by
  rw [joinLines, joinLines]
  simp [h]

theorem exists_joins (l : List Char) (ls : List (List Char)) :
    ∃ s k rest, Joins (l :: ls) s k rest ∧ rest.length ≤ ls.length := by
  induction ls generalizing l with
  | nil =>
    by_cases h : continues (skipGap l) = true
    · exact ⟨_, 1, [], .more h .none, Nat.le_refl _⟩
    · exact ⟨_, 1, [], .last (by simpa using h), Nat.le_refl _⟩
  | cons l' ls ih =>
    by_cases h : continues (skipGap l) = true
    · obtain ⟨s, k, rest, hRest, hLength⟩ := ih l'
      exact ⟨_, k + 1, rest, .more h hRest, Nat.le_succ_of_le hLength⟩
    · exact ⟨_, 1, l' :: ls, .last (by simpa using h), Nat.le_refl _⟩

theorem joinLines_of_joined (h : Joined n ls logical) : joinLines none n ls = logical := by
  induction h with
  | nil => rfl
  | ignored h _ ih => rw [joinLines_ignored _ h, ih]
  | line h hLine _ ih => rw [joinLines_start h, joinLines_of_joins hLine, ih, List.nil_append]

theorem exists_joined (n : ℕ) : ∀ ls : List (List Char), ∃ logical, Joined n ls logical
  | [] => ⟨[], .nil⟩
  | l :: ls => by
    by_cases h : isIgnored (skipGap l) = true
    · obtain ⟨logical, hRest⟩ := exists_joined (n + 1) ls
      exact ⟨logical, .ignored h hRest⟩
    · obtain ⟨s, k, rest, hLine, hLength⟩ := exists_joins l ls
      have : rest.length < (l :: ls).length := Nat.lt_succ_of_le hLength
      obtain ⟨logical, hRest⟩ := exists_joined (n + k) rest
      exact ⟨_, .line (by simpa using h) hLine hRest⟩
termination_by ls => ls.length

/-- Lines have one list of logical lines, which is the one that is read. -/
theorem joined_iff : Joined n ls logical ↔ logical = joinLines none n ls := by
  refine ⟨fun h => (joinLines_of_joined h).symm, ?_⟩
  rintro rfl
  obtain ⟨logical, h⟩ := exists_joined n ls
  rwa [joinLines_of_joined h]

/-! ### Whole files -/

theorem parseLine_eq_error_iff {l : LogicalLine} {e : PropertiesError} :
    parseLine l = .error e ↔ Malformed l.text ∧ e = .malformedUnicodeEscape l.line := by
  rw [malformed_splitEntry, ← unescape?_eq_none_iff, ← unescape?_eq_none_iff, parseLine]
  cases hKey : unescape? (splitEntry false l.text).1 with
  | none => simp [hKey, eq_comm]
  | some key =>
    cases hValue : unescape? (splitEntry false l.text).2 with
    | none => simp [hKey, hValue, eq_comm]
    | some value => simp [hKey, hValue]

theorem exists_parseLine_iff {l : LogicalLine} :
    (∃ entry, parseLine l = .ok entry) ↔ ¬Malformed l.text := by
  constructor
  · rintro ⟨entry, hEntry⟩ hMalformed
    rw [parseLine_eq_error_iff.mpr ⟨hMalformed, rfl⟩] at hEntry
    cases hEntry
  · intro hSound
    cases hParse : parseLine l with
    | ok entry => exact ⟨entry, rfl⟩
    | error e => exact absurd (parseLine_eq_error_iff.mp hParse).1 hSound

variable {text : String}

theorem exists_parse_iff :
    (∃ p, parse text = .ok p) ↔ ∀ l ∈ logicalLines text.toList, ¬Malformed l.text := by
  simp only [← exists_parseLine_iff, ← Except.isOk_iff]
  rw [← Except.isOk_mapM_iff, parse, Except.isOk_bind_iff, Except.isOk_iff]
  exact exists_congr fun entries => and_iff_left rfl

/-- The error of a text is that of the first logical line that is malformed. -/
theorem parse_eq_error_iff {e : PropertiesError} :
    parse text = .error e ↔ ∃ front l back, logicalLines text.toList = front ++ l :: back ∧
      (∀ earlier ∈ front, ¬Malformed earlier.text) ∧ Malformed l.text ∧
      e = .malformedUnicodeEscape l.line := by
  rw [parse, Except.bind_eq_error, Except.mapM_eq_error_iff]
  simp only [exists_parseLine_iff, parseLine_eq_error_iff]
  refine or_iff_left ?_
  rintro ⟨entries, -, h⟩
  cases h

/-- A text in which every escape has its four digits is read. -/
theorem exists_parse_of_fourDigits
    (h : ∀ l ∈ logicalLines text.toList, ¬LacksDigits FourDigits l.text) :
    ∃ p, parse text = .ok p := by
  rw [exists_parse_iff]
  rintro l hl ⟨front, rest, hText, hFront, hRest⟩
  exact h l hl ⟨front, rest, hText, hFront, mt FourDigits.read hRest⟩

/-- **A text is refused if a logical line has an escape without its four digits**, of which the
first may be a plus sign, and the error has the number of the line on which the first such logical
line starts. -/
theorem parse_refuses_malformed (text : String) :
    ∃ logical, (∀ other, Joined 1 (lines text.toList) other ↔ other = logical) ∧
      ((∃ p, parse text = .ok p) ↔ ∀ l ∈ logical, ¬LacksDigits FourRead l.text) ∧
      ∀ e, parse text = .error e ↔ ∃ front l back, logical = front ++ l :: back ∧
        (∀ earlier ∈ front, ¬LacksDigits FourRead earlier.text) ∧
        LacksDigits FourRead l.text ∧ e = .malformedUnicodeEscape l.line :=
  ⟨logicalLines text.toList, fun _ => joined_iff, exists_parse_iff, fun _ => parse_eq_error_iff⟩

/-- A plus sign and three digits are read, though they are not four digits. -/
theorem parse_signed : ¬∀ text : String, (∃ e, parse text = .error e) ↔
    ∃ logical, Joined 1 (lines text.toList) logical ∧
      ∃ l ∈ logical, LacksDigits FourDigits l.text := by
  intro h
  have hRead : (parse "k=\\u+041").isOk = true := by decide +kernel
  have hJoined : Joined 1 (lines "k=\\u+041".toList) [⟨1, "k=\\u+041".toList⟩] :=
    .line (by decide) (.last (by decide)) .nil
  have hSign : ¬FourDigits "+041".toList := by
    rintro ⟨a, b, c, d, t, hText, ha, -⟩
    cases hText
    exact absurd ha (by decide)
  obtain ⟨e, hError⟩ := (h "k=\\u+041").mpr
    ⟨_, hJoined, _, List.mem_singleton_self _, "k=".toList, "+041".toList, rfl, rfl, hSign⟩
  rw [hError] at hRead
  cases hRead

end Properties

end ClassSketch
