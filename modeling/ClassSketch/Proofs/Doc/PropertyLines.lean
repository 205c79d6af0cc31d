import ClassSketch.Proofs.Doc.PropertyLayout
import ClassSketch.Proofs.Text.Words

/-!
# Joining the lines of a property file

However an encoded line is broken, one logical line comes out of it, and its text is the encoded
line. The induction is on the layout. What it carries along is the part of the current line that has
been passed: the indentation, which is dropped, and then whole pieces. So the backslashes at the end
of that part pair off, and a break adds exactly one that is left over.

## Main definitions

* `Properties.Whole`, `Properties.Piece.Keeps` — the text of whole pieces
* `Properties.Ends` — what follows a line, and what follows its line end
* `Properties.Piece.Opens` — a piece with which a logical line may start

## Main results

* `Properties.continues_concat` — a backslash continues a line if the text before it does not
* `Properties.joinLines_blank`, `Properties.joinLines_comment` — lines that give no logical line
* `Properties.joinLines_laid`, `Properties.joinLines_entry` — the logical line that a layout gives
-/

namespace ClassSketch

namespace Properties

open Text

/-! ### Blanks at the start -/

theorem skipGap_cons {c : Char} (h : isGap c = false) (s : List Char) : skipGap (c :: s) = c :: s :=
  List.dropWhile_cons_of_neg (by simp [h])

theorem skipGap_append {indent : List Char} (h : skipGap indent = []) (s : List Char) :
    skipGap (indent ++ s) = skipGap s := by
  rw [skipGap, List.dropWhile_append, ← skipGap, h]
  rfl

theorem skipGap_left {s t : List Char} (h : skipGap (s ++ t) = s ++ t) : skipGap s = s := by
  cases s with
  | nil => rfl
  | cons c s =>
    refine skipGap_cons ?_ s
    by_contra hGap
    have hLength : (skipGap (c :: s ++ t)).length ≤ (s ++ t).length := by
      rw [List.cons_append, skipGap, List.dropWhile_cons_of_pos (by simpa using hGap)]
      exact (List.dropWhile_suffix _).length_le
    rw [h, List.cons_append, List.length_cons] at hLength
    omega

theorem not_mem_of_skipGap {s : List Char} (h : skipGap s = []) {c : Char} (hc : isGap c = false) :
    c ∉ s := by
  intro hMem
  have hGap : isGap c = true := List.dropWhile_eq_nil_iff.mp h c hMem
  rw [hc] at hGap
  cases hGap

/-! ### Backslashes at the end -/

/-- A backslash continues a line if the text before it does not, and nothing else does. -/
theorem continues_concat (s : List Char) (c : Char) :
    continues (s ++ [c]) = (c == '\\' && !continues s) := by
  by_cases hc : c = '\\'
  · subst hc
    simp only [continues, finalBackslashes, List.reverse_append, List.reverse_singleton,
      List.singleton_append, List.takeWhile_cons, beq_self_eq_true, if_true, List.length_cons,
      Bool.true_and]
    rcases Nat.mod_two_eq_zero_or_one (s.reverse.takeWhile (· == '\\')).length with h | h
    · rw [h, Nat.add_mod, h]
      rfl
    · rw [h, Nat.add_mod, h]
      rfl
  · simp [continues, finalBackslashes, hc]

/-- A text of whole pieces: it has no part of a line end in it, and a line does not continue after
it. -/
structure Whole (s : List Char) : Prop where
  newline : '\n' ∉ s
  carriage : '\r' ∉ s
  stops : continues s = false

theorem whole_nil : Whole [] := ⟨by simp, by simp, rfl⟩

theorem Whole.append {s t : List Char} (hs : Whole s) (hNewline : '\n' ∉ t) (hCarriage : '\r' ∉ t)
    (hStops : continues (s ++ t) = false) : Whole (s ++ t) :=
  ⟨by simp [hs.newline, hNewline], by simp [hs.carriage, hCarriage], hStops⟩

/-- A piece that makes a whole text of a whole text. -/
def Piece.Keeps (p : Piece) : Prop := ∀ s, Whole s → Whole (s ++ p.text)

theorem keeps_raw {c : Char} (hSlash : c ≠ '\\') (hNewline : c ≠ '\n') (hCarriage : c ≠ '\r') :
    (Piece.raw c).Keeps := by
  intro s hs
  refine hs.append ?_ ?_ ?_
  · simpa [Piece.text] using Ne.symm hNewline
  · simpa [Piece.text] using Ne.symm hCarriage
  · rw [Piece.text, continues_concat, beq_eq_false_iff_ne.mpr hSlash, Bool.false_and]

/-- A piece that fits leaves a line whole. -/
theorem Piece.Fits.keeps {space : Bool} {p : Piece} (hp : p.Fits space) : p.Keeps := by
  cases hp with
  | raw h =>
    exact keeps_raw (ne_of_mustEscape h rfl) (ne_of_mustEscape h rfl) (ne_of_mustEscape h rfl)
  | @escape c h =>
    intro s hs
    refine hs.append ?_ ?_ ?_
    · simpa [Piece.text] using Ne.symm h.1
    · simpa [Piece.text] using Ne.symm h.2.1
    · -- Whatever the escaped character is, a backslash before it pairs off with it.
      have hText : s ++ Piece.text (.escape c) = s ++ ['\\'] ++ [c] := by simp [Piece.text]
      rw [hText, continues_concat, continues_concat, hs.stops]
      simp
  | @unit a b c d u h =>
    have hDigit : ∀ e ∈ [a, b, c, d], mustEscape true e = false := fun e he =>
      mustEscape_digit h he
    have hNewline : '\n' ∉ [a, b, c, d] := fun he => ne_of_mustEscape (hDigit _ he) rfl rfl
    have hCarriage : '\r' ∉ [a, b, c, d] := fun he => ne_of_mustEscape (hDigit _ he) rfl rfl
    have hSlash : d ≠ '\\' := ne_of_mustEscape (hDigit d (by simp)) rfl
    intro s hs
    refine hs.append ?_ ?_ ?_
    · simpa [Piece.text] using hNewline
    · simpa [Piece.text] using hCarriage
    · have hText : s ++ Piece.text (.unit a b c d) = s ++ ['\\', 'u', a, b, c] ++ [d] := by
        simp [Piece.text]
      rw [hText, continues_concat, beq_eq_false_iff_ne.mpr hSlash, Bool.false_and]

/-! ### Lines of a text -/

/-- What follows a line, and what follows its line end. Both are empty after the last line. -/
inductive Ends : List Char → List Char → Prop
  | last : Ends [] []
  | lineEnd {lineEnd rest : List Char} (h : IsLineEnd lineEnd) : Ends (lineEnd ++ rest) rest

variable {started : Option LogicalLine} {l tail rest : List Char} {ls : List (List Char)}

/-- A text of one line and more is read as that line, which may lose a carriage return at its end,
and the lines that follow. -/
theorem joinLines_lines (started : Option LogicalLine) (n : ℕ) (hl : '\n' ∉ l)
    (h : Ends tail rest) : ∃ l', (l' = l ∨ l = l' ++ ['\r']) ∧
      joinLines started n (lines (l ++ tail)) = joinLines started n (l' :: lines rest) := by
  cases h with
  | last =>
    refine ⟨l, .inl rfl, ?_⟩
    by_cases hne : l = []
    · -- A last line without a character is no line of the text, but reading one adds nothing.
      subst hne
      cases started <;> simp [lines, splitOn, joinLines, skipGap, isIgnored, continues,
        finalBackslashes]
    · rw [List.append_nil, lines_of_not_mem hl hne]
      rfl
  | lineEnd h =>
    rcases h with rfl | rfl
    · refine ⟨dropReturn l, ?_, ?_⟩
      · rw [dropReturn]
        split
        · next hLast =>
          obtain ⟨front, rfl⟩ := List.getLast?_eq_some_iff.mp hLast
          exact .inr (by rw [List.dropLast_concat])
        · exact .inl rfl
      · rw [List.cons_append, List.nil_append, lines_append_newline hl]
    · refine ⟨l, .inl rfl, ?_⟩
      have hNot : '\n' ∉ l ++ ['\r'] := by simpa using hl
      have hCut : l ++ (['\r', '\n'] ++ rest) = l ++ ['\r'] ++ '\n' :: rest := by simp
      rw [hCut, lines_append_newline hNot, dropReturn, List.getLast?_concat, if_pos rfl,
        List.dropLast_concat]

/-- A line without a carriage return is read as it is. -/
theorem joinLines_lines_of_not_mem (started : Option LogicalLine) (n : ℕ) (hl : '\n' ∉ l)
    (hl' : '\r' ∉ l) (h : Ends tail rest) :
    joinLines started n (lines (l ++ tail)) = joinLines started n (l :: lines rest) := by
  obtain ⟨l', hCases, hLines⟩ := joinLines_lines started n hl h
  rcases hCases with rfl | rfl
  · exact hLines
  · simp at hl'

/-! ### One line -/

theorem joinLines_ignored (n : ℕ) (h : isIgnored (skipGap l) = true) :
    joinLines none n (l :: ls) = joinLines none (n + 1) ls := by
  rw [joinLines]
  simp [h]

/-- A line of blanks is passed over. -/
theorem joinLines_blank (n : ℕ) (hl : skipGap l = []) (h : Ends tail rest) :
    joinLines none n (lines (l ++ tail)) = joinLines none (n + 1) (lines rest) := by
  have hNewline : '\n' ∉ l := not_mem_of_skipGap hl (by decide)
  have hCarriage : '\r' ∉ l := not_mem_of_skipGap hl (by decide)
  rw [joinLines_lines_of_not_mem none n hNewline hCarriage h]
  exact joinLines_ignored n (by rw [hl]; rfl)

/-- A comment is passed over, even if it ends in a backslash. -/
theorem joinLines_comment (n : ℕ) {indent s : List Char} {sign : Char}
    (hIndent : skipGap indent = []) (hSign : sign = '#' ∨ sign = '!') (hs : '\n' ∉ s)
    (h : Ends tail rest) :
    joinLines none n (lines (indent ++ sign :: s ++ tail)) =
      joinLines none (n + 1) (lines rest) := by
  have hComment : ∀ t, isIgnored (skipGap (indent ++ sign :: t)) = true := fun t => by
    rw [skipGap_append hIndent]
    rcases hSign with rfl | rfl <;> rfl
  have hNewline : '\n' ∉ indent ++ sign :: s := by
    have hne : '\n' ≠ sign := by rcases hSign with rfl | rfl <;> decide
    simpa [hs, hne] using not_mem_of_skipGap hIndent (by decide)
  obtain ⟨l, hCases, hLines⟩ := joinLines_lines none n hNewline h
  rw [hLines]
  refine joinLines_ignored n ?_
  rcases hCases with rfl | hReturn
  · exact hComment s
  · -- The carriage return comes after the sign, so the sign is still there.
    cases s using List.reverseRecOn with
    | nil =>
      obtain ⟨-, hLast⟩ := List.append_inj' hReturn rfl
      rcases hSign with rfl | rfl <;> cases hLast
    | append_singleton s c =>
      have hFront : indent ++ sign :: s ++ [c] = l ++ ['\r'] := by simpa using hReturn
      rw [← (List.append_inj' hFront rfl).1]
      exact hComment s

/-- The text of the logical line that a line continues. -/
def startedText (started : Option LogicalLine) : List Char :=
  (started.map LogicalLine.text).getD []

/-- A line that is not left out goes to the logical line, and is its end unless it is continued. -/
theorem joinLines_cons (n : ℕ) (ls : List (List Char))
    (h : started.isSome = true ∨ isIgnored (skipGap l) = false) :
    ∃ m, joinLines started n (l :: ls) =
      if continues (skipGap l) = true then
        joinLines (some ⟨m, startedText started ++ (skipGap l).dropLast⟩) (n + 1) ls
      else ⟨m, startedText started ++ skipGap l⟩ :: joinLines none (n + 1) ls := by
  refine ⟨(started.getD ⟨n, []⟩).line, ?_⟩
  have hTaken : (started.isNone && isIgnored (skipGap l)) = false := by
    rw [Bool.and_eq_false_iff]
    exact h.imp_left fun hSome => by rw [Option.isNone_eq_false_iff, hSome]
  rw [joinLines]
  simp only [hTaken, Bool.false_eq_true, if_false]
  cases started <;> rfl

/-- The same for a line of the text, of which the indentation is dropped. -/
theorem joinLines_indented (n : ℕ) {indent : List Char} (hIndent : skipGap indent = [])
    (hNewline : '\n' ∉ l) (hCarriage : '\r' ∉ l) (hl : skipGap l = l)
    (hTaken : started.isSome = true ∨ isIgnored l = false) (h : Ends tail rest) :
    ∃ m, joinLines started n (lines (indent ++ l ++ tail)) =
      if continues l = true then
        joinLines (some ⟨m, startedText started ++ l.dropLast⟩) (n + 1) (lines rest)
      else ⟨m, startedText started ++ l⟩ :: joinLines none (n + 1) (lines rest) := by
  have hNewline' : '\n' ∉ indent ++ l := by
    simpa [hNewline] using not_mem_of_skipGap hIndent (by decide)
  have hCarriage' : '\r' ∉ indent ++ l := by
    simpa [hCarriage] using not_mem_of_skipGap hIndent (by decide)
  have hStripped : skipGap (indent ++ l) = l := by rw [skipGap_append hIndent, hl]
  have hTaken' : started.isSome = true ∨ isIgnored (skipGap (indent ++ l)) = false := by
    rwa [hStripped]
  obtain ⟨m, hLine⟩ := joinLines_cons n (lines rest) hTaken'
  refine ⟨m, ?_⟩
  rw [joinLines_lines_of_not_mem started n hNewline' hCarriage' h, hLine, hStripped]

/-! ### Layouts -/

/-- Whether a line is a comment can be seen before a break. -/
theorem isIgnored_backslash {q s : List Char} (h : isIgnored (q ++ s) = false) :
    isIgnored (q ++ ['\\']) = false := by
  cases q with
  | nil => rfl
  | cons c q => exact h

/-- A layout of an encoded line gives one logical line with the text of the encoded line, whatever
whole text has been passed before on the same line. -/
theorem joinLines_laid {ps : List Piece} {s : List Char} (h : Laid ps s)
    (hEnds : Ends tail rest) (hKeeps : ∀ p ∈ ps, p.Keeps) :
    ∀ (started : Option LogicalLine) (n : ℕ) {indent q : List Char},
      skipGap indent = [] → Whole q → skipGap (q ++ s) = q ++ s →
      (started.isSome = true ∨ isIgnored (q ++ encoded ps) = false) →
      ∃ m k, joinLines started n (lines (indent ++ (q ++ s) ++ tail)) =
        ⟨m, startedText started ++ (q ++ encoded ps)⟩ :: joinLines none k (lines rest) := by
  induction h with
  | nil =>
    intro started n indent q hIndent hq hGap hTaken
    rw [List.append_nil] at hGap ⊢
    rw [encoded_nil, List.append_nil] at hTaken ⊢
    obtain ⟨m, hLine⟩ :=
      joinLines_indented n hIndent hq.newline hq.carriage hGap hTaken hEnds
    refine ⟨m, n + 1, ?_⟩
    rw [hLine, hq.stops]
    rfl
  | @piece p ps s h ih =>
    intro started n indent q hIndent hq hGap hTaken
    rw [List.forall_mem_cons] at hKeeps
    have hText : q ++ (p.text ++ s) = q ++ p.text ++ s := (List.append_assoc q p.text s).symm
    have hEncoded : q ++ encoded (p :: ps) = q ++ p.text ++ encoded ps := by
      rw [encoded_cons, List.append_assoc]
    rw [hEncoded] at hTaken ⊢
    rw [hText] at hGap ⊢
    exact ih hKeeps.2 started n hIndent (hKeeps.1 q hq) hGap hTaken
  | @broken ps lineEnd indent' s hEnd hIndent' hs h ih =>
    intro started n indent q hIndent hq hGap hTaken
    -- The line up to the break, and the text from the next line on.
    have hSplit : indent ++ (q ++ '\\' :: (lineEnd ++ (indent' ++ s))) ++ tail =
        indent ++ (q ++ ['\\']) ++ (lineEnd ++ (indent' ++ ([] ++ s) ++ tail)) := by simp
    have hNewline : '\n' ∉ q ++ ['\\'] := by simpa using hq.newline
    have hCarriage : '\r' ∉ q ++ ['\\'] := by simpa using hq.carriage
    have hGap' : skipGap (q ++ ['\\']) = q ++ ['\\'] := by
      refine skipGap_left (t := lineEnd ++ (indent' ++ s)) ?_
      rwa [List.append_assoc]
    have hGoesOn : continues (q ++ ['\\']) = true := by
      rw [continues_concat, hq.stops]
      rfl
    obtain ⟨m, hLine⟩ := joinLines_indented n hIndent hNewline hCarriage hGap'
      (hTaken.imp_right isIgnored_backslash) (.lineEnd hEnd)
    obtain ⟨m', k, hRest⟩ :=
      ih hKeeps (some ⟨m, startedText started ++ q⟩) (n + 1) hIndent' whole_nil hs (.inl rfl)
    refine ⟨m', k, ?_⟩
    rw [hSplit, hLine, if_pos hGoesOn, List.dropLast_concat, hRest, startedText]
    simp

/-! ### Lines with an entry -/

/-- A piece that starts neither with a blank nor with the sign of a comment. -/
def Piece.Opens (p : Piece) : Prop :=
  ∃ c s, p.text = c :: s ∧ isGap c = false ∧ isIgnored [c] = false

theorem opens_raw {c : Char} (h : isGap c = false) (h' : isIgnored [c] = false) :
    (Piece.raw c).Opens :=
  ⟨c, [], rfl, h, h'⟩

/-- A piece that may start an entry is neither a blank nor a sign of comments. -/
theorem Piece.Fits.opens {p : Piece} (hp : p.Fits true) : p.Opens := by
  cases hp with
  | @raw c h =>
    have hHash : c ≠ '#' := ne_of_mustEscape h rfl
    have hMark : c ≠ '!' := ne_of_mustEscape h rfl
    exact opens_raw (isGap_of_mustEscape h) (by simp [isIgnored, hHash, hMark])
  | escape h => exact ⟨'\\', _, rfl, rfl, rfl⟩
  | unit h => exact ⟨'\\', _, rfl, rfl, rfl⟩

theorem skipGap_laid {p : Piece} {ps : List Piece} {s : List Char} (hp : p.Opens)
    (h : Laid (p :: ps) s) : skipGap s = s := by
  cases h with
  | piece _ h =>
    obtain ⟨c, t, hText, hGap, -⟩ := hp
    rw [hText]
    exact skipGap_cons hGap _
  | broken => exact skipGap_cons (by decide) _

theorem isIgnored_encoded {p : Piece} (hp : p.Opens) (ps : List Piece) :
    isIgnored (encoded (p :: ps)) = false := by
  obtain ⟨c, t, hText, -, hSign⟩ := hp
  rw [encoded_cons, hText]
  exact hSign

/-- A line with an entry gives the logical line of the encoded key, a sign and the encoded value. -/
theorem joinLines_entry (n : ℕ) {ks vs : List Piece} {s : List Char}
    (hKey : ∀ p ∈ ks, p.Fits true) (hValue : ∀ p ∈ vs, p.Fits false)
    (h : Laid (ks ++ .raw '=' :: vs) s) (hEnds : Ends tail rest) :
    ∃ m k, joinLines none n (lines (s ++ tail)) =
      ⟨m, encoded ks ++ '=' :: encoded vs⟩ :: joinLines none k (lines rest) := by
  have hKeeps : ∀ p ∈ ks ++ .raw '=' :: vs, p.Keeps := by
    intro p hp
    rcases List.mem_append.mp hp with hp | hp
    · exact (hKey p hp).keeps
    · rcases List.mem_cons.mp hp with rfl | hp
      · exact keeps_raw (by decide) (by decide) (by decide)
      · exact (hValue p hp).keeps
  have hOpens : ∃ p ps, ks ++ .raw '=' :: vs = p :: ps ∧ p.Opens := by
    cases ks with
    | nil => exact ⟨.raw '=', vs, rfl, opens_raw rfl rfl⟩
    | cons p ps => exact ⟨p, _, rfl, (hKey p List.mem_cons_self).opens⟩
  obtain ⟨p, ps, hFirst, hOpens⟩ := hOpens
  have hGap : skipGap s = s := skipGap_laid hOpens (hFirst ▸ h)
  have hTaken : isIgnored (encoded (ks ++ .raw '=' :: vs)) = false := by
    rw [hFirst]
    exact isIgnored_encoded hOpens ps
  have hIndent : skipGap [] = [] := rfl
  obtain ⟨m, k, hLine⟩ :=
    joinLines_laid h hEnds hKeeps none n hIndent whole_nil hGap (.inr hTaken)
  rw [encoded_append] at hLine
  exact ⟨m, k, hLine⟩

end Properties

end ClassSketch
