import ClassSketch.Proofs.Text.Words

/-!
# What is left of a text without its blanks

Blanks are taken off, collapsed and added at line ends, so that a text and the parts it is divided
into have the same characters up to blanks only. `solid` is what they have in common.

## Main definitions

* `Text.solid` — the characters of a text that are not blank
* `Text.linesUpTo` — the lines before the first that satisfies a condition

## Main results

* `Text.solid_trim`, `Text.solid_intercalate`, `Text.solid_lines` — what changes blanks only
* `Text.splitOn_append` — the lines of two texts one after the other
* `Text.solid_linesUpTo` — lines before the first that satisfies one of two conditions
-/

namespace ClassSketch

namespace Text

/-! ### Blanks at the ends -/

theorem trim_append_blanks {blanks : List Char} (h : ∀ c ∈ blanks, isBlank c = true)
    (s : List Char) : trim (s ++ blanks) = trim s := by
  induction blanks using List.reverseRecOn with
  | nil => rw [List.append_nil]
  | append_singleton blanks c ih =>
    rw [← List.append_assoc, trim_append_of_blank (h c (by simp))]
    exact ih fun d hd => h d (List.mem_append_left _ hd)

/-- Blanks at the end of a text do not matter where it is trimmed. -/
theorem trim_congr {s t : List Char} (h : trimEnd s = trimEnd t) : trim s = trim t := by
  have hTrim : ∀ s, trim (trimEnd s) = trim s := fun s => by
    obtain ⟨blanks, hBlanks, hs⟩ := exists_trimEnd_append s
    conv_rhs => rw [hs, trim_append_blanks hBlanks]
  rw [← hTrim s, h, hTrim t]

/-- Blanks at the end of a text are at the end of a longer one. -/
theorem trimEnd_append_congr {s t : List Char} (h : trimEnd s = trimEnd t) (front : List Char) :
    trimEnd (front ++ s) = trimEnd (front ++ t) := by
  have hTrim : ∀ s : List Char, trimEnd (front ++ s) = trimEnd (front ++ trimEnd s) := fun s => by
    obtain ⟨blanks, hBlanks, hs⟩ := exists_trimEnd_append s
    conv_lhs => rw [hs, ← List.append_assoc, trimEnd_append_blanks hBlanks]
  rw [hTrim s, h, ← hTrim t]

theorem head?_trim (s : List Char) : (trim s).head? = (trimStart s).head? := by
  rw [trim]
  cases h : trimStart s with
  | nil => rfl
  | cons c t =>
    have hc : isBlank c = false := by
      have hHead := List.head?_dropWhile_not isBlank s
      rw [← trimStart, h] at hHead
      simpa using hHead
    rw [trimEnd_cons_of_not_blank hc, List.head?_cons, List.head?_cons]

/-! ### Characters that are not blank -/

/-- The characters of a text that are not blank. -/
def solid (s : List Char) : List Char := s.filter fun c => !isBlank c

variable {c : Char} {s t : List Char} {line : List Char} {lines front : List (List Char)}
  {stop stop' : List Char → Bool}

@[simp] theorem solid_nil : solid [] = [] := rfl

@[simp] theorem solid_append (s t : List Char) : solid (s ++ t) = solid s ++ solid t :=
  List.filter_append ..

theorem solid_cons_of_blank (h : isBlank c = true) (s : List Char) : solid (c :: s) = solid s :=
  List.filter_cons_of_neg (by simp [h])

theorem solid_cons_of_not_blank (h : isBlank c = false) (s : List Char) :
    solid (c :: s) = c :: solid s :=
  List.filter_cons_of_pos (by simp [h])

theorem solid_eq_nil_iff : solid s = [] ↔ ∀ c ∈ s, isBlank c = true := by
  simp [solid, List.filter_eq_nil_iff]

theorem solid_of_forall (h : ∀ c ∈ s, isBlank c = false) : solid s = s :=
  List.filter_eq_self.mpr fun c hc => by simp [h c hc]

theorem trimEnd_eq_nil_of_solid (h : solid s = []) : trimEnd s = [] :=
  trimEnd_append_blanks (solid_eq_nil_iff.mp h) []

theorem trim_eq_nil_of_solid (h : solid s = []) : trim s = [] := by
  rw [trim, trimStart, List.dropWhile_eq_nil_iff.mpr (solid_eq_nil_iff.mp h)]
  rfl

/-- A text without blanks at its start starts with no blank. -/
theorem not_blank_of_trimStart (h : trimStart (c :: s) = c :: s) : isBlank c = false := by
  by_contra hBlank
  have hLength : (trimStart s).length ≤ s.length := (List.dropWhile_suffix _).length_le
  rw [trimStart_cons_of_blank (by simpa using hBlank)] at h
  rw [h, List.length_cons] at hLength
  omega

/-- A text without blanks at its end ends with no blank. -/
theorem not_blank_of_trimEnd (h : trimEnd (s ++ [c]) = s ++ [c]) : isBlank c = false := by
  by_contra hBlank
  obtain ⟨blanks, -, hs⟩ := exists_trimEnd_append s
  have hLength := congrArg List.length hs
  rw [trimEnd_append_of_blank (by simpa using hBlank)] at h
  rw [h] at hLength
  simp only [List.length_append, List.length_cons, List.length_nil] at hLength
  omega

theorem solid_trimStart (s : List Char) : solid (trimStart s) = solid s := by
  induction s with
  | nil => rfl
  | cons c s ih =>
    cases h : isBlank c with
    | true => rw [trimStart_cons_of_blank h, ih, solid_cons_of_blank h]
    | false => rw [trimStart_cons_of_not_blank h]

theorem solid_trimEnd (s : List Char) : solid (trimEnd s) = solid s := by
  obtain ⟨blanks, hBlanks, hs⟩ := exists_trimEnd_append s
  conv_rhs => rw [hs]
  rw [solid_append, solid_eq_nil_iff.mpr hBlanks, List.append_nil]

theorem solid_trim (s : List Char) : solid (trim s) = solid s := by
  rw [trim, solid_trimEnd, solid_trimStart]

/-- Joining lines adds blanks only. -/
theorem solid_intercalate (lines : List (List Char)) :
    solid (['\n'].intercalate lines) = lines.flatMap solid := by
  induction lines with
  | nil => rfl
  | cons line lines ih =>
    cases lines with
    | nil => simp
    | cons next lines =>
      have hNewline : solid ['\n'] = [] := rfl
      rw [List.intercalate_cons_cons, solid_append, solid_append, ih, hNewline, List.append_nil]
      rfl

theorem flatMap_solid_splitOn (s : List Char) : (splitOn '\n' s).flatMap solid = solid s := by
  induction s with
  | nil => rfl
  | cons c s ih =>
    by_cases hc : c = '\n'
    · subst hc
      rw [splitOn_cons_self, List.flatMap_cons, ih]
      rfl
    · obtain ⟨first, others, hs⟩ := List.exists_cons_of_ne_nil (splitOn_ne_nil '\n' s)
      rw [hs, List.flatMap_cons] at ih
      rw [splitOn_cons_of_ne hc hs, List.flatMap_cons, ← List.singleton_append, solid_append,
        List.append_assoc, ih, ← solid_append, List.singleton_append]

theorem flatMap_solid_map_trim (lines : List (List Char)) :
    (lines.map trim).flatMap solid = lines.flatMap solid := by
  rw [List.flatMap_map]
  exact List.flatMap_congr fun line _ => solid_trim line

/-- What is not blank in a text is on its lines. -/
theorem solid_ignoresBlanks : IgnoresBlanks fun lines => lines.flatMap solid where
  congr h := by rw [← flatMap_solid_map_trim, h, flatMap_solid_map_trim]
  cons := by
    intro line h lines
    rw [List.flatMap_cons, ← solid_trim, h]
    rfl
  concat := by
    intro line h lines
    rw [List.flatMap_append, List.flatMap_singleton, ← solid_trim line, h]
    exact List.append_nil _

theorem solid_lines (s : List Char) : (Text.lines s).flatMap solid = solid s := by
  rw [solid_ignoresBlanks.lines_eq, flatMap_solid_splitOn]

/-- Blanks before a text do not change what is read off its lines. -/
theorem IgnoresBlanks.splitOn_blanks_append {β : Type} {f : List (List Char) → β}
    (h : IgnoresBlanks f) {blanks : List Char} (hBlanks : ∀ c ∈ blanks, isBlank c = true)
    (s : List Char) : f (splitOn '\n' (blanks ++ s)) = f (splitOn '\n' s) := by
  induction blanks with
  | nil => rfl
  | cons c blanks ih =>
    obtain ⟨hc, hBlanks⟩ := List.forall_mem_cons.mp hBlanks
    rw [List.cons_append, h.splitOn_cons hc, ih hBlanks]

/-! ### The lines of a text -/

/-- The line at the end of a text goes on with the first line of what follows. -/
theorem splitOn_append {sep : Char} {last first : List Char} {others : List (List Char)}
    (hs : splitOn sep s = front ++ [last]) (ht : splitOn sep t = first :: others) :
    splitOn sep (s ++ t) = front ++ (last ++ first) :: others := by
  induction s generalizing front last with
  | nil =>
    have hs' : [] ++ [[]] = front ++ [last] := hs
    obtain ⟨rfl, hLast⟩ := List.append_inj' hs' rfl
    cases hLast
    exact ht
  | cons c s ih =>
    by_cases hc : c = sep
    · subst hc
      rw [splitOn_cons_self] at hs
      cases front with
      | nil => exact absurd (List.cons.inj hs).2 (splitOn_ne_nil c s)
      | cons piece front =>
        obtain ⟨rfl, hs'⟩ := List.cons.inj hs
        rw [List.cons_append, splitOn_cons_self, ih hs', List.cons_append]
    · obtain ⟨piece, pieces, hPieces⟩ := List.exists_cons_of_ne_nil (splitOn_ne_nil sep s)
      rw [splitOn_cons_of_ne hc hPieces] at hs
      cases front with
      | nil =>
        cases hs
        have hLast : splitOn sep s = [] ++ [piece] := hPieces
        exact splitOn_cons_of_ne hc (ih hLast)
      | cons piece' front =>
        cases hs
        have hFront : splitOn sep s = (piece :: front) ++ [last] := hPieces
        exact splitOn_cons_of_ne hc (ih hFront)

/-- A text is its first line, or that line, a separator and the text of the others. -/
theorem splitOn_eq_cons {sep : Char} {first : List Char} {others : List (List Char)}
    (h : splitOn sep s = first :: others) :
    others = [] ∧ s = first ∨ ∃ rest, s = first ++ sep :: rest ∧ splitOn sep rest = others := by
  induction s generalizing first with
  | nil =>
    cases h
    exact .inl ⟨rfl, rfl⟩
  | cons c s ih =>
    by_cases hc : c = sep
    · subst hc
      rw [splitOn_cons_self] at h
      cases h
      exact .inr ⟨s, rfl, rfl⟩
    · obtain ⟨piece, pieces, hPieces⟩ := List.exists_cons_of_ne_nil (splitOn_ne_nil sep s)
      rw [splitOn_cons_of_ne hc hPieces] at h
      cases h
      rcases ih hPieces with ⟨hNone, rfl⟩ | ⟨rest, rfl, hRest⟩
      · exact .inl ⟨hNone, rfl⟩
      · exact .inr ⟨rest, rfl, hRest⟩

/-! ### Lines up to a line -/

/-- The lines before the first that satisfies a condition, where `whole` says whether the first line
counts. -/
def linesUpTo (stop : List Char → Bool) (whole : Bool) : List (List Char) → List (List Char)
  | [] => []
  | line :: lines => if whole && stop line then [] else line :: linesUpTo stop true lines

theorem linesUpTo_of_stop (h : stop line = true) (lines : List (List Char)) :
    linesUpTo stop true (line :: lines) = [] := by
  rw [linesUpTo, h]
  rfl

theorem linesUpTo_of_not_stop (h : stop line = false) (whole : Bool) (lines : List (List Char)) :
    linesUpTo stop whole (line :: lines) = line :: linesUpTo stop true lines := by
  rw [linesUpTo, h, Bool.and_false]
  rfl

theorem linesUpTo_cons (line : List Char) (lines : List (List Char)) :
    linesUpTo stop false (line :: lines) = line :: linesUpTo stop true lines := rfl

theorem linesUpTo_append (h : ∀ line ∈ front, stop line = false) (lines : List (List Char)) :
    linesUpTo stop true (front ++ lines) = front ++ linesUpTo stop true lines := by
  induction front with
  | nil => rfl
  | cons line front ih =>
    obtain ⟨hLine, hFront⟩ := List.forall_mem_cons.mp h
    rw [List.cons_append, linesUpTo_of_not_stop hLine, ih hFront, List.cons_append]

/-- Where the lines before one condition do not satisfy another, weaker one, they are the lines
before either. -/
theorem linesUpTo_congr (hStop : ∀ line, stop' line = true → stop line = true) (whole : Bool)
    (h : ∀ line ∈ linesUpTo stop' whole lines, stop line = false) :
    linesUpTo stop whole lines = linesUpTo stop' whole lines := by
  induction lines generalizing whole with
  | nil => rfl
  | cons line lines ih =>
    cases hLine : whole && stop' line with
    | true =>
      obtain ⟨rfl, hLine⟩ := Bool.and_eq_true_iff.mp hLine
      rw [linesUpTo_of_stop hLine, linesUpTo_of_stop (hStop line hLine)]
    | false =>
      have hTaken : linesUpTo stop' whole (line :: lines) = line :: linesUpTo stop' true lines := by
        rw [linesUpTo, hLine]
        rfl
      rw [hTaken] at h ⊢
      obtain ⟨hFirst, hOthers⟩ := List.forall_mem_cons.mp h
      rw [linesUpTo_of_not_stop hFirst, ih true hOthers]

/-- If the lines that satisfy the weaker condition are not blank, the lines before the two are told
apart by what is on them. -/
theorem solid_linesUpTo (hStop : ∀ line, stop' line = true → stop line = true)
    (hSolid : ∀ line, stop line = true → solid line ≠ []) :
    (linesUpTo stop true lines).flatMap solid = (linesUpTo stop' true lines).flatMap solid ↔
      ∀ line ∈ linesUpTo stop' true lines, stop line = false := by
  refine ⟨fun h => ?_, fun h => congrArg _ (linesUpTo_congr hStop true h)⟩
  induction lines with
  | nil => exact List.forall_mem_nil _
  | cons line lines ih =>
    cases hLine' : stop' line with
    | true =>
      rw [linesUpTo_of_stop hLine']
      exact List.forall_mem_nil _
    | false =>
      rw [linesUpTo_of_not_stop hLine', List.flatMap_cons] at h
      cases hLine : stop line with
      | true =>
        rw [linesUpTo_of_stop hLine] at h
        exact absurd (List.append_eq_nil_iff.mp h.symm).1 (hSolid line hLine)
      | false =>
        rw [linesUpTo_of_not_stop hLine, List.flatMap_cons, List.append_cancel_left_eq] at h
        rw [linesUpTo_of_not_stop hLine']
        exact List.forall_mem_cons.mpr ⟨hLine, ih h⟩

end Text

end ClassSketch
