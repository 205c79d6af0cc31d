import ClassSketch.Text.Blank
import ClassSketch.Text.Lines
import Mathlib.Data.List.DropRight
import Mathlib.Data.List.TakeWhile

/-!
# Leading words and trimmed lines

What is left of a text after trimming is what matters to a reader of documentation: its first word,
and its lines up to the blanks at their ends. Names and lines are found by cutting a text at
separators.

## Main definitions

* `Text.leadingWord` — the first run of characters that are not blank, which may be empty
* `Text.IgnoresBlanks` — what is read off lines, whatever blanks are around them

## Main results

* `Text.split_of_run` — a text in two parts, the first of which is a run of certain characters
* `Text.leadingWord_append`, `Text.leadingWord_trim` — the first word of a longer text
* `Text.cutFirst_eq_some_iff`, `Text.cutLast_append` — where a text is cut in two
* `Text.splitOn_intercalate`, `Text.intercalate_splitOn` — lines that are joined are cut apart, and
  the other way round
* `Text.lines_append_newline` — the first line of a text and the others
* `Text.IgnoresBlanks.lines_trim` — what trimming a text does not change
-/

namespace ClassSketch

namespace Text

/-! ### Runs of characters -/

/-- A text in two parts, the first of which is all that satisfies a condition. -/
theorem split_of_run {q : Char → Bool} {front : List Char} (rest : List Char)
    (hFront : ∀ c ∈ front, q c = true) (hRest : ∀ c ∈ rest.head?, q c = false) :
    (front ++ rest).takeWhile q = front ∧ (front ++ rest).dropWhile q = rest := by
  rw [List.takeWhile_append_of_pos hFront, List.dropWhile_append_of_pos hFront]
  cases rest with
  | nil => simp
  | cons c rest =>
    have hc : ¬q c = true := by simp [hRest c rfl]
    rw [List.takeWhile_cons_of_neg hc, List.dropWhile_cons_of_neg hc, List.append_nil]
    exact ⟨rfl, rfl⟩

theorem head?_dropWhile (q : Char → Bool) (s : List Char) :
    ∀ c ∈ (s.dropWhile q).head?, q c = false := by
  intro c hc
  have h := List.head?_dropWhile_not q s
  rw [Option.mem_def.mp hc] at h
  simpa using h

/-! ### Trimming -/

theorem trimStart_cons_of_blank {c : Char} (h : isBlank c = true) (s : List Char) :
    trimStart (c :: s) = trimStart s :=
  List.dropWhile_cons_of_pos h

theorem trimStart_cons_of_not_blank {c : Char} (h : isBlank c = false) (s : List Char) :
    trimStart (c :: s) = c :: s :=
  List.dropWhile_cons_of_neg (by simp [h])

theorem trimEnd_append_of_blank {c : Char} (h : isBlank c = true) (s : List Char) :
    trimEnd (s ++ [c]) = trimEnd s :=
  List.rdropWhile_concat_pos isBlank s c h

theorem trimEnd_append_of_not_blank {c : Char} (h : isBlank c = false) (s : List Char) :
    trimEnd (s ++ [c]) = s ++ [c] :=
  List.rdropWhile_concat_neg isBlank s c (by simp [h])

theorem trimEnd_cons_of_not_blank {c : Char} (h : isBlank c = false) (s : List Char) :
    trimEnd (c :: s) = c :: trimEnd s := by
  induction s using List.reverseRecOn with
  | nil => exact trimEnd_append_of_not_blank h []
  | append_singleton s d ih =>
    rw [← List.cons_append]
    cases hd : isBlank d with
    | true => rw [trimEnd_append_of_blank hd, trimEnd_append_of_blank hd, ih]
    | false =>
      rw [trimEnd_append_of_not_blank hd, trimEnd_append_of_not_blank hd, List.cons_append]

/-- Only blanks are taken off the end. -/
theorem exists_trimEnd_append (s : List Char) :
    ∃ blanks : List Char, (∀ c ∈ blanks, isBlank c = true) ∧ s = trimEnd s ++ blanks :=
  ⟨s.rtakeWhile isBlank, fun _ h => List.mem_rtakeWhile_imp h,
    List.rdropWhile_append_rtakeWhile.symm⟩

theorem trim_cons_of_blank {c : Char} (h : isBlank c = true) (s : List Char) :
    trim (c :: s) = trim s := by
  rw [trim, trimStart_cons_of_blank h, trim]

theorem trim_append_of_blank {c : Char} (h : isBlank c = true) (s : List Char) :
    trim (s ++ [c]) = trim s := by
  by_cases hs : ∀ d ∈ s, isBlank d = true
  · have hAll : ∀ d ∈ s ++ [c], isBlank d = true := by simpa [or_imp, forall_and, h] using hs
    rw [trim, trim, trimStart, trimStart, List.dropWhile_eq_nil_iff.mpr hAll,
      List.dropWhile_eq_nil_iff.mpr hs]
  · have hne : s.dropWhile isBlank ≠ [] := fun h => hs (List.dropWhile_eq_nil_iff.mp h)
    rw [trim, trimStart, List.dropWhile_append]
    simp only [List.isEmpty_iff, hne, if_false]
    rw [trimEnd_append_of_blank h, trim, trimStart]

theorem trim_cons_of_not_blank {c : Char} (h : isBlank c = false) (s : List Char) :
    trim (c :: s) = c :: trimEnd s := by
  rw [trim, trimStart_cons_of_not_blank h, trimEnd_cons_of_not_blank h]

theorem trimEnd_append_blanks {blanks : List Char} (h : ∀ c ∈ blanks, isBlank c = true)
    (s : List Char) : trimEnd (s ++ blanks) = trimEnd s := by
  induction blanks using List.reverseRecOn with
  | nil => rw [List.append_nil]
  | append_singleton blanks c ih =>
    rw [← List.append_assoc, trimEnd_append_of_blank (h c (by simp))]
    exact ih fun d hd => h d (List.mem_append_left _ hd)

theorem trimStart_eq_self {s : List Char} (h : ∀ c ∈ s.head?, isBlank c = false) :
    trimStart s = s := by
  cases s with
  | nil => rfl
  | cons c s => exact trimStart_cons_of_not_blank (h c rfl) s

theorem trimEnd_eq_self {s : List Char} (h : ∀ c ∈ s.getLast?, isBlank c = false) :
    trimEnd s = s := by
  induction s using List.reverseRecOn with
  | nil => rfl
  | append_singleton s c => exact trimEnd_append_of_not_blank (h c (by simp)) s

theorem getLast?_trimEnd (s : List Char) : ∀ c ∈ (trimEnd s).getLast?, isBlank c = false := by
  induction s using List.reverseRecOn with
  | nil => simp [trimEnd]
  | append_singleton s c ih =>
    cases hc : isBlank c with
    | true =>
      rw [trimEnd_append_of_blank hc]
      exact ih
    | false =>
      rw [trimEnd_append_of_not_blank hc]
      simpa using hc

theorem dropWhile_isBlank_ne_nil {s : List Char} (h : ∃ c ∈ s, isBlank c = false) :
    s.dropWhile isBlank ≠ [] := by
  obtain ⟨c, hMem, hc⟩ := h
  intro hNil
  simp [List.dropWhile_eq_nil_iff.mp hNil c hMem] at hc

/-- Behind a character that is not blank, nothing is taken off the start. -/
theorem trimStart_append {s : List Char} (h : ∃ c ∈ s, isBlank c = false) (t : List Char) :
    trimStart (s ++ t) = trimStart s ++ t := by
  rw [trimStart, List.dropWhile_append, if_neg (by simpa using dropWhile_isBlank_ne_nil h),
    trimStart]

/-- Before a character that is not blank, nothing is taken off the end. -/
theorem trimEnd_append {t : List Char} (h : ∃ c ∈ t, isBlank c = false) (s : List Char) :
    trimEnd (s ++ t) = s ++ trimEnd t := by
  have hReverse : ∃ c ∈ t.reverse, isBlank c = false := by simpa using h
  rw [trimEnd, List.reverse_append, List.dropWhile_append,
    if_neg (by simpa using dropWhile_isBlank_ne_nil hReverse), List.reverse_append,
    List.reverse_reverse, trimEnd]

/-- Nothing is left to cut off at the start of a text that was trimmed. -/
theorem trimStart_trim (s : List Char) : trimStart (trim s) = trim s := by
  induction s with
  | nil => rfl
  | cons c s ih =>
    cases h : isBlank c with
    | true => rw [trim_cons_of_blank h, ih]
    | false => rw [trim_cons_of_not_blank h, trimStart_cons_of_not_blank h]

theorem trim_trim (s : List Char) : trim (trim s) = trim s := by
  rw [trim, trimStart_trim, trim, trimEnd, trimEnd, List.reverse_reverse, List.dropWhile_idempotent]

/-! ### Leading words -/

/-- The first run of characters that are not blank. It is empty if there is none. -/
def leadingWord (s : List Char) : List Char := (trimStart s).takeWhile fun c => !isBlank c

theorem leadingWord_cons_of_blank {c : Char} (h : isBlank c = true) (s : List Char) :
    leadingWord (c :: s) = leadingWord s := by
  rw [leadingWord, trimStart_cons_of_blank h, leadingWord]

theorem leadingWord_blanks_append {blanks : List Char} (h : ∀ c ∈ blanks, isBlank c = true)
    (s : List Char) : leadingWord (blanks ++ s) = leadingWord s := by
  induction blanks with
  | nil => rfl
  | cons c blanks ih =>
    rw [List.cons_append, leadingWord_cons_of_blank (h c List.mem_cons_self)]
    exact ih fun d hd => h d (List.mem_cons_of_mem c hd)

/-- A text without a word is blank. -/
theorem leadingWord_eq_nil_iff {s : List Char} :
    leadingWord s = [] ↔ ∀ c ∈ s, isBlank c = true := by
  induction s with
  | nil => simp [leadingWord, trimStart]
  | cons c s ih =>
    cases h : isBlank c with
    | true => simp [leadingWord_cons_of_blank h, ih, h]
    | false => simp [leadingWord, trimStart_cons_of_not_blank h, h]

theorem takeWhile_eq_nil {t : List Char} (ht : t = [] ∨ startsBlank t = true) :
    (t.takeWhile fun c => !isBlank c) = [] := by
  cases t with
  | nil => rfl
  | cons c t => simpa [startsBlank] using ht

/-- A text that does not run on into the first word of another one leaves that word as it is. -/
theorem leadingWord_append {s t : List Char} (h : leadingWord s ≠ [])
    (ht : t = [] ∨ startsBlank t = true) : leadingWord (s ++ t) = leadingWord s := by
  induction s with
  | nil => simp [leadingWord, trimStart] at h
  | cons c s ih =>
    cases hc : isBlank c with
    | true =>
      rw [leadingWord_cons_of_blank hc] at h ⊢
      rw [List.cons_append, leadingWord_cons_of_blank hc]
      exact ih h
    | false =>
      rw [leadingWord, leadingWord, List.cons_append, trimStart_cons_of_not_blank hc,
        trimStart_cons_of_not_blank hc, ← List.cons_append, List.takeWhile_append]
      rw [takeWhile_eq_nil ht, List.append_nil]
      split
      · next hLength => exact ((List.takeWhile_prefix _).eq_of_length hLength).symm
      · rfl

/-- The first word of two texts, the second of which does not run on from the first. -/
theorem leadingWord_append_eq {s t : List Char} (ht : t = [] ∨ startsBlank t = true) :
    leadingWord (s ++ t) = if leadingWord s = [] then leadingWord t else leadingWord s := by
  split
  · next h => exact leadingWord_blanks_append (leadingWord_eq_nil_iff.mp h) t
  · next h => exact leadingWord_append h ht

theorem leadingWord_append_blanks {blanks : List Char} (h : ∀ c ∈ blanks, isBlank c = true)
    (s : List Char) : leadingWord (s ++ blanks) = leadingWord s := by
  have hStarts : blanks = [] ∨ startsBlank blanks = true := by
    cases blanks with
    | nil => exact .inl rfl
    | cons c blanks => exact .inr (h c List.mem_cons_self)
  rw [leadingWord_append_eq hStarts]
  split
  · next hs => rw [leadingWord_eq_nil_iff.mpr h, hs]
  · rfl

theorem leadingWord_trimEnd (s : List Char) : leadingWord (trimEnd s) = leadingWord s := by
  obtain ⟨blanks, hBlanks, hs⟩ := exists_trimEnd_append s
  conv_rhs => rw [hs]
  rw [leadingWord_append_blanks hBlanks]

theorem leadingWord_trimStart (s : List Char) : leadingWord (trimStart s) = leadingWord s := by
  rw [leadingWord, trimStart, trimStart, List.dropWhile_idempotent, leadingWord, trimStart]

theorem leadingWord_trim (s : List Char) : leadingWord (trim s) = leadingWord s := by
  rw [trim, leadingWord_trimEnd, leadingWord_trimStart]

/-- The first word by the other way of finding it. -/
theorem firstWord?_eq (s : List Char) :
    firstWord? isBlank s = if leadingWord s = [] then none else some (leadingWord s) := by
  induction s with
  | nil => rfl
  | cons c s ih =>
    cases h : isBlank c with
    | true =>
      rw [leadingWord_cons_of_blank h, ← ih, firstWord?, firstWord?,
        List.dropWhile_cons_of_pos h]
    | false =>
      have hWord : leadingWord (c :: s) = c :: s.takeWhile fun d => !isBlank d := by
        rw [leadingWord, trimStart_cons_of_not_blank h, List.takeWhile_cons_of_pos (by simp [h])]
      rw [hWord, if_neg (List.cons_ne_nil _ _), firstWord?,
        List.dropWhile_cons_of_neg (by simp [h])]

theorem firstWord?_ne_nil {s word : List Char} (h : firstWord? isBlank s = some word) :
    word ≠ [] := by
  rw [firstWord?_eq] at h
  split at h
  · cases h
  · next hne => exact Option.some.inj h ▸ hne

theorem dropWord?_eq_some_iff {word s rest : List Char} :
    dropWord? word s = some rest ↔ s = word ++ rest := by
  induction word generalizing s with
  | nil => simp [dropWord?]
  | cons w word ih =>
    cases s with
    | nil => simp [dropWord?]
    | cons c s =>
      rw [dropWord?]
      split
      · next h => rw [ih, h, List.cons_append, List.cons_inj_right]
      · next h =>
        constructor
        · rintro ⟨⟩
        · intro heq
          exact absurd (List.cons.inj heq).1.symm h

theorem dropFinalWord?_eq_some_iff {word s rest : List Char} :
    dropFinalWord? word s = some rest ↔ s = rest ++ word := by
  have hReverse : s = rest ++ word ↔ s.reverse = word.reverse ++ rest.reverse := by
    rw [← List.reverse_append, List.reverse_inj]
  rw [hReverse, ← dropWord?_eq_some_iff, dropFinalWord?, Option.map_eq_some_iff]
  constructor
  · rintro ⟨front, hFront, rfl⟩
    rwa [List.reverse_reverse]
  · exact fun h => ⟨_, h, List.reverse_reverse rest⟩

/-- The first word of a text comes after blanks and ends the text or is followed by a blank. -/
theorem firstWord?_eq_some_iff {s word : List Char} : firstWord? isBlank s = some word ↔
    ∃ gap rest, s = gap ++ (word ++ rest) ∧ (∀ c ∈ gap, isBlank c = true) ∧
      word ≠ [] ∧ (∀ c ∈ word, isBlank c = false) ∧ (rest = [] ∨ startsBlank rest = true) := by
  rw [firstWord?_eq]
  constructor
  · intro h
    split at h
    · cases h
    next hne =>
    cases h
    refine ⟨s.takeWhile isBlank, (trimStart s).dropWhile fun c => !isBlank c, ?_, ?_, hne, ?_, ?_⟩
    · rw [leadingWord, List.takeWhile_append_dropWhile, trimStart,
        List.takeWhile_append_dropWhile]
    · exact fun c hc => List.mem_takeWhile_imp hc
    · exact fun c hc => by simpa using List.mem_takeWhile_imp hc
    · cases hRest : (trimStart s).dropWhile fun c => !isBlank c with
      | nil => exact .inl rfl
      | cons c rest =>
        have hc := List.head?_dropWhile_not (fun c => !isBlank c) (trimStart s)
        rw [hRest] at hc
        exact .inr (by simpa [startsBlank] using hc)
  · rintro ⟨gap, rest, rfl, hGap, hne, hWord, hRest⟩
    have hLeading : leadingWord (gap ++ (word ++ rest)) = word := by
      obtain ⟨c, word, rfl⟩ := List.exists_cons_of_ne_nil hne
      rw [leadingWord_blanks_append hGap, leadingWord, List.cons_append,
        trimStart_cons_of_not_blank (hWord c List.mem_cons_self), ← List.cons_append,
        List.takeWhile_append_of_pos (by simpa using hWord), takeWhile_eq_nil hRest,
        List.append_nil]
    rw [hLeading, if_neg hne]

section Separators

variable {α : Type}

/-! ### Joined pieces -/

/-- What is in joined pieces is in a piece or in the separator. -/
theorem mem_of_mem_intercalate {sep : List α} {pieces : List (List α)} {x : α}
    (h : x ∈ sep.intercalate pieces) : x ∈ sep ∨ ∃ piece ∈ pieces, x ∈ piece := by
  induction pieces with
  | nil => simp at h
  | cons piece pieces ih =>
    cases pieces with
    | nil =>
      rw [List.intercalate_singleton] at h
      exact .inr ⟨piece, List.mem_cons_self, h⟩
    | cons next pieces =>
      rw [List.intercalate_cons_cons, List.mem_append, List.mem_append] at h
      rcases h with (hFirst | hSep) | hRest
      · exact .inr ⟨piece, List.mem_cons_self, hFirst⟩
      · exact .inl hSep
      · rcases ih hRest with hSep | ⟨other, hOther, hx⟩
        · exact .inl hSep
        · exact .inr ⟨other, List.mem_cons_of_mem piece hOther, hx⟩

theorem mem_intercalate_of_mem {pieces : List (List α)} {piece : List α} {x : α}
    (sep : List α) (hPiece : piece ∈ pieces) (hx : x ∈ piece) : x ∈ sep.intercalate pieces := by
  induction pieces with
  | nil => cases hPiece
  | cons first pieces ih =>
    cases pieces with
    | nil =>
      obtain rfl := List.mem_singleton.mp hPiece
      rwa [List.intercalate_singleton]
    | cons next pieces =>
      rw [List.intercalate_cons_cons, List.mem_append, List.mem_append]
      rcases List.mem_cons.mp hPiece with rfl | hPiece
      · exact .inl (.inl hx)
      · exact .inr (ih hPiece)

/-- Joined pieces, each but the last with a separator after it. -/
theorem intercalate_concat (sep : List α) (pieces : List (List α)) (last : List α) :
    sep.intercalate (pieces ++ [last]) = pieces.flatMap (· ++ sep) ++ last := by
  induction pieces with
  | nil => simp
  | cons piece pieces ih =>
    obtain ⟨next, others, hCons⟩ : ∃ next others, pieces ++ [last] = next :: others :=
      List.exists_cons_of_ne_nil (by simp)
    rw [List.cons_append, hCons, List.intercalate_cons_cons, ← hCons, ih, List.flatMap_cons]
    simp only [List.append_assoc]

/-! ### Cuts -/

theorem cutFirst_eq_none_iff {p : α → Bool} {s : List α} :
    cutFirst p s = none ↔ ∀ c ∈ s, p c = false := by
  induction s with
  | nil => simp [cutFirst]
  | cons c s ih =>
    rw [cutFirst]
    split
    · next h => simp [h]
    · next h => simp [ih, h]

/-- A text is cut at the first character that satisfies the condition. -/
theorem cutFirst_eq_some_iff {p : α → Bool} {s front rest : List α} :
    cutFirst p s = some (front, rest) ↔
      ∃ c, p c = true ∧ (∀ d ∈ front, p d = false) ∧ s = front ++ c :: rest := by
  induction s generalizing front with
  | nil => simp [cutFirst]
  | cons c s ih =>
    rw [cutFirst]
    split
    · next hc =>
      constructor
      · intro h
        cases h
        exact ⟨c, hc, by simp, rfl⟩
      · rintro ⟨d, -, hFree, heq⟩
        cases front with
        | nil => simp_all
        | cons e front =>
          rw [List.cons_append, List.cons.injEq] at heq
          rw [heq.1, hFree e List.mem_cons_self] at hc
          cases hc
    · next hc =>
      rw [Option.map_eq_some_iff]
      constructor
      · rintro ⟨⟨front', rest'⟩, hs, heq⟩
        cases heq
        obtain ⟨d, hd, hFree, rfl⟩ := ih.mp hs
        exact ⟨d, hd, List.forall_mem_cons.mpr ⟨by simpa using hc, hFree⟩, rfl⟩
      · rintro ⟨d, hd, hFree, heq⟩
        cases front with
        | nil =>
          rw [List.nil_append, List.cons.injEq] at heq
          rw [heq.1] at hc
          exact absurd hd hc
        | cons e front =>
          rw [List.cons_append, List.cons.injEq] at heq
          obtain ⟨rfl, rfl⟩ := heq
          exact ⟨(front, rest), ih.mpr ⟨d, hd, (List.forall_mem_cons.mp hFree).2, rfl⟩, rfl⟩

variable [DecidableEq α]

theorem cutLast_of_not_mem {sep : α} {s : List α} (h : sep ∉ s) : cutLast sep s = none := by
  have hNone : cutFirst (· == sep) s.reverse = none := by
    rw [cutFirst_eq_none_iff]
    intro c hc
    rw [beq_eq_false_iff_ne]
    rintro rfl
    exact h (List.mem_reverse.mp hc)
  rw [cutLast, hNone, Option.map_none]

/-- A text is cut at a separator after which there is no other one. -/
theorem cutLast_append {sep : α} {rest : List α} (h : sep ∉ rest) (front : List α) :
    cutLast sep (front ++ sep :: rest) = some (front, rest) := by
  have hFirst : cutFirst (· == sep) (front ++ sep :: rest).reverse =
      some (rest.reverse, front.reverse) := by
    refine cutFirst_eq_some_iff.mpr ⟨sep, by simp, ?_, by simp⟩
    intro c hc
    rw [beq_eq_false_iff_ne]
    rintro rfl
    exact h (List.mem_reverse.mp hc)
  rw [cutLast, hFirst]
  simp only [Option.map_some, List.reverse_reverse]

/-- A text without the separator is not cut, and another one is cut where no separator follows. -/
theorem cutLast_cases (sep : α) (s : List α) :
    sep ∉ s ∧ cutLast sep s = none ∨
      ∃ front rest, s = front ++ sep :: rest ∧ sep ∉ rest ∧ cutLast sep s = some (front, rest) := by
  by_cases h : sep ∈ s
  · obtain ⟨rest, front, hReverse, hRest⟩ := List.eq_append_cons_of_mem (List.mem_reverse.mpr h)
    have hs : s = front.reverse ++ sep :: rest.reverse := by
      rw [← List.reverse_reverse s, hReverse]
      simp
    have hRest' : sep ∉ rest.reverse := fun hMem => hRest (List.mem_reverse.mp hMem)
    exact .inr ⟨_, _, hs, hRest', hs ▸ cutLast_append hRest' _⟩
  · exact .inl ⟨h, cutLast_of_not_mem h⟩

/-! ### Lines -/

theorem splitOn_ne_nil (sep : α) (s : List α) : splitOn sep s ≠ [] := by
  induction s with
  | nil => simp [splitOn]
  | cons c s ih =>
    rw [splitOn]
    split
    · simp
    · split <;> simp

theorem splitOn_cons_self (sep : α) (s : List α) :
    splitOn sep (sep :: s) = [] :: splitOn sep s := by
  rw [splitOn, if_pos rfl]

theorem splitOn_cons_of_ne {sep c : α} (h : c ≠ sep) {s piece : List α}
    {pieces : List (List α)} (hs : splitOn sep s = piece :: pieces) :
    splitOn sep (c :: s) = (c :: piece) :: pieces := by
  rw [splitOn, if_neg h, hs]

/-- No piece holds the separator. -/
theorem not_mem_of_mem_splitOn {sep : α} {s piece : List α} (h : piece ∈ splitOn sep s) :
    sep ∉ piece := by
  induction s generalizing piece with
  | nil => simp only [splitOn, List.mem_singleton] at h; simp [h]
  | cons c s ih =>
    by_cases hc : c = sep
    · subst hc
      rw [splitOn_cons_self] at h
      rcases List.mem_cons.mp h with rfl | h
      · simp
      · exact ih h
    · obtain ⟨first, pieces, hs⟩ := List.exists_cons_of_ne_nil (splitOn_ne_nil sep s)
      rw [splitOn_cons_of_ne hc hs] at h
      rcases List.mem_cons.mp h with rfl | h
      · have hFirst : sep ∉ first := ih (by rw [hs]; exact List.mem_cons_self)
        simpa [Ne.symm hc] using hFirst
      · exact ih (by rw [hs]; exact List.mem_cons_of_mem first h)

/-- The first piece is what stands before the first separator. -/
theorem splitOn_append_sep {sep : α} {line : List α} (h : sep ∉ line) (s : List α) :
    splitOn sep (line ++ sep :: s) = line :: splitOn sep s := by
  induction line with
  | nil => exact splitOn_cons_self sep s
  | cons c line ih =>
    rw [List.mem_cons, not_or] at h
    exact splitOn_cons_of_ne (Ne.symm h.1) (ih h.2)

theorem splitOn_of_not_mem {sep : α} {line : List α} (h : sep ∉ line) :
    splitOn sep line = [line] := by
  induction line with
  | nil => rfl
  | cons c line ih =>
    rw [List.mem_cons, not_or] at h
    exact splitOn_cons_of_ne (Ne.symm h.1) (ih h.2)

/-- Lines that are joined are cut apart again. -/
theorem splitOn_intercalate {sep : α} {lines : List (List α)} (hne : lines ≠ [])
    (h : ∀ line ∈ lines, sep ∉ line) : splitOn sep ([sep].intercalate lines) = lines := by
  induction lines with
  | nil => exact absurd rfl hne
  | cons line lines ih =>
    have hLine : sep ∉ line := h line List.mem_cons_self
    cases lines with
    | nil => rw [List.intercalate_singleton, splitOn_of_not_mem hLine]
    | cons next lines =>
      rw [List.intercalate_cons_cons, List.append_assoc, List.singleton_append,
        splitOn_append_sep hLine, ih (List.cons_ne_nil _ _)]
      exact fun l hl => h l (List.mem_cons_of_mem line hl)

/-- The pieces of a text, joined again. -/
theorem intercalate_splitOn (sep : α) (s : List α) :
    [sep].intercalate (splitOn sep s) = s := by
  induction s with
  | nil => rfl
  | cons c s ih =>
    obtain ⟨piece, pieces, hs⟩ := List.exists_cons_of_ne_nil (splitOn_ne_nil sep s)
    by_cases hc : c = sep
    · rw [hc, splitOn_cons_self, hs, List.intercalate_cons_cons, ← hs, ih, List.nil_append,
        List.singleton_append]
    · rw [splitOn_cons_of_ne hc hs, ← ih, hs]
      cases pieces with
      | nil => rw [List.intercalate_singleton, List.intercalate_singleton]
      | cons next pieces =>
        rw [List.intercalate_cons_cons, List.intercalate_cons_cons, List.cons_append,
          List.cons_append]

/-- The pieces around a separator are those before it and those after it. -/
theorem splitOn_append_cons (sep : α) (s t : List α) :
    splitOn sep (s ++ sep :: t) = splitOn sep s ++ splitOn sep t := by
  induction s with
  | nil => exact splitOn_cons_self sep t
  | cons c s ih =>
    by_cases hc : c = sep
    · rw [hc, List.cons_append, splitOn_cons_self, splitOn_cons_self, ih, List.cons_append]
    · obtain ⟨piece, pieces, hs⟩ := List.exists_cons_of_ne_nil (splitOn_ne_nil sep s)
      rw [hs, List.cons_append] at ih
      rw [List.cons_append, splitOn_cons_of_ne hc ih, splitOn_cons_of_ne hc hs, List.cons_append]

/-- A character that is no separator goes to the last piece. -/
theorem splitOn_append_of_ne {sep c : α} (h : c ≠ sep) (s : List α) :
    ∃ front last, splitOn sep s = front ++ [last] ∧
      splitOn sep (s ++ [c]) = front ++ [last ++ [c]] := by
  induction s with
  | nil => exact ⟨[], [], rfl, splitOn_cons_of_ne h rfl⟩
  | cons d s ih =>
    obtain ⟨front, last, hs, hc⟩ := ih
    by_cases hd : d = sep
    · subst hd
      refine ⟨[] :: front, last, ?_, ?_⟩
      · rw [splitOn_cons_self, hs, List.cons_append]
      · rw [List.cons_append, splitOn_cons_self, hc, List.cons_append]
    · cases front with
      | nil => exact ⟨[], d :: last, splitOn_cons_of_ne hd hs, splitOn_cons_of_ne hd hc⟩
      | cons piece front =>
        exact ⟨(d :: piece) :: front, last, splitOn_cons_of_ne hd hs, splitOn_cons_of_ne hd hc⟩

theorem splitOn_append_self (sep : α) (s : List α) :
    splitOn sep (s ++ [sep]) = splitOn sep s ++ [[]] :=
  splitOn_append_cons sep s []

end Separators

/-- The first line is what stands before the first line break. -/
theorem lines_append_newline {line : List Char} (h : '\n' ∉ line) (s : List Char) :
    lines (line ++ '\n' :: s) = dropReturn line :: lines s := by
  obtain ⟨piece, pieces, hs⟩ := List.exists_cons_of_ne_nil (splitOn_ne_nil '\n' s)
  rw [lines, lines, splitOn_append_sep h, hs, List.dropLast_cons_cons, List.map_cons,
    List.cons_append, List.getLast?_cons_cons]

theorem lines_of_not_mem {line : List Char} (h : '\n' ∉ line) (hne : line ≠ []) :
    lines line = [line] := by
  rw [lines, splitOn_of_not_mem h]
  simpa using hne

/-! ### Lines and blanks -/

theorem trim_dropReturn (piece : List Char) : trim (dropReturn piece) = trim piece := by
  rw [dropReturn]
  split
  · next h =>
    obtain ⟨front, rfl⟩ := List.getLast?_eq_some_iff.mp h
    rw [List.dropLast_concat, trim_append_of_blank (by decide)]
  · rfl

theorem newline_not_mem_of_mem_lines {s line : List Char} (h : line ∈ lines s) : '\n' ∉ line := by
  rw [lines] at h
  rcases List.mem_append.mp h with h | h
  · obtain ⟨piece, hPiece, rfl⟩ := List.mem_map.mp h
    have hNot := not_mem_of_mem_splitOn (List.dropLast_subset _ hPiece)
    rw [dropReturn]
    split
    · exact fun hMem => hNot (List.dropLast_subset _ hMem)
    · exact hNot
  · obtain ⟨hLast, -⟩ := List.mem_filter.mp h
    exact not_mem_of_mem_splitOn (List.mem_of_getLast? (Option.mem_toList.mp hLast))

/-- What is read off lines depends neither on blanks around a line, nor on blank lines around all of
them. -/
structure IgnoresBlanks {β : Type} (f : List (List Char) → β) : Prop where
  congr : ∀ {xs ys : List (List Char)}, xs.map trim = ys.map trim → f xs = f ys
  cons : ∀ {line : List Char}, trim line = [] → ∀ lines, f (line :: lines) = f lines
  concat : ∀ {line : List Char}, trim line = [] → ∀ lines, f (lines ++ [line]) = f lines

namespace IgnoresBlanks

variable {β : Type} {f : List (List Char) → β}

/-- What ends a line is blank. -/
theorem lines_eq (h : IgnoresBlanks f) (s : List Char) : f (lines s) = f (splitOn '\n' s) := by
  obtain ⟨front, last, hs⟩ : ∃ front last, splitOn '\n' s = front ++ [last] :=
    ⟨_, _, (List.dropLast_concat_getLast (splitOn_ne_nil '\n' s)).symm⟩
  have hFront : (front.map dropReturn).map trim = front.map trim := by
    simp [trim_dropReturn]
  rw [lines]
  simp only [hs, List.dropLast_concat, List.getLast?_concat, Option.toList_some]
  cases last with
  | nil =>
    rw [h.concat rfl]
    exact h.congr (by simpa using hFront)
  | cons c last => exact h.congr (by simpa using hFront)

theorem splitOn_cons (h : IgnoresBlanks f) {c : Char} (hc : isBlank c = true) (s : List Char) :
    f (splitOn '\n' (c :: s)) = f (splitOn '\n' s) := by
  by_cases hNewline : c = '\n'
  · rw [hNewline, splitOn_cons_self, h.cons rfl]
  · obtain ⟨piece, pieces, hs⟩ := List.exists_cons_of_ne_nil (splitOn_ne_nil '\n' s)
    rw [splitOn_cons_of_ne hNewline hs, hs]
    exact h.congr (by rw [List.map_cons, List.map_cons, trim_cons_of_blank hc])

theorem splitOn_concat (h : IgnoresBlanks f) {c : Char} (hc : isBlank c = true) (s : List Char) :
    f (splitOn '\n' (s ++ [c])) = f (splitOn '\n' s) := by
  by_cases hNewline : c = '\n'
  · rw [hNewline, splitOn_append_self, h.concat rfl]
  · obtain ⟨front, last, hs, happend⟩ := splitOn_append_of_ne hNewline s
    rw [happend, hs]
    exact h.congr (by simp [trim_append_of_blank hc])

theorem lines_trimStart (h : IgnoresBlanks f) (s : List Char) :
    f (lines (trimStart s)) = f (lines s) := by
  rw [h.lines_eq, h.lines_eq]
  induction s with
  | nil => rfl
  | cons c s ih =>
    cases hc : isBlank c with
    | true => rw [trimStart_cons_of_blank hc, ih, h.splitOn_cons hc]
    | false => rw [trimStart_cons_of_not_blank hc]

theorem lines_trimEnd (h : IgnoresBlanks f) (s : List Char) :
    f (lines (trimEnd s)) = f (lines s) := by
  rw [h.lines_eq, h.lines_eq]
  induction s using List.reverseRecOn with
  | nil => rfl
  | append_singleton s c ih =>
    cases hc : isBlank c with
    | true => rw [trimEnd_append_of_blank hc, ih, h.splitOn_concat hc]
    | false => rw [trimEnd_append_of_not_blank hc]

/-- Where blank lines do not count, lines may be read from the trimmed text. -/
theorem lines_trim (h : IgnoresBlanks f) (s : List Char) : f (lines (trim s)) = f (lines s) := by
  rw [trim, h.lines_trimEnd, h.lines_trimStart]

/-- Lines that are joined are read like the lines themselves. -/
theorem lines_intercalate (h : IgnoresBlanks f) {xs : List (List Char)}
    (hLines : ∀ x ∈ xs, '\n' ∉ x) : f (lines (['\n'].intercalate xs)) = f xs := by
  rw [h.lines_eq]
  cases xs with
  | nil => exact h.cons rfl []
  | cons x xs => rw [splitOn_intercalate (List.cons_ne_nil x xs) hLines]

end IgnoresBlanks

end Text

end ClassSketch
