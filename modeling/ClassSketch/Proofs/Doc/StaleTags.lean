import ClassSketch.Doc.ParamTags
import ClassSketch.Proofs.Doc.ParamNames

/-!
# Taking out stale parameter tags

Stale tags are found by the line they start on. A tag that gives its name only on a line after it is
therefore never found stale, although the name counts as given by the tag. Apart from these names,
every name that is left belongs to the member.

## Main definitions

* `ParamTags.bareNames` — the names that follow bare `@param` lines

## Main results

* `ParamTags.known_of_mem_sift` — a name that is left is known or follows a bare line
* `ParamTags.bareNames_subset_sift` — the names after bare lines are always left
* `ParamTags.paramNames_known_iff` — when all names of a text are known
* `ParamTags.lines_strip` — what is left of a text is read like what is left of its lines
-/

namespace ClassSketch

namespace ParamTags

open Text DocText

/-- Whether a tag starts on a line. -/
def isTagLine (line : List Char) : Bool := (trimStart line).head? == some '@'

/-- The names that follow bare `@param` lines: for each such line, the first word of the lines after
it and before the next tag, if there is one. -/
def bareNames : List (List Char) → List (List Char)
  | [] => []
  | line :: lines =>
    if trim line = "@param".toList then
      ((lines.takeWhile fun l => !isTagLine l).findSome? (firstWord? isBlank)).toList ++
        bareNames lines
    else bareNames lines

theorem ne_nil_of_mem_bareNames {word : List Char} : ∀ {lines : List (List Char)},
    word ∈ bareNames lines → word ≠ []
  | line :: lines, h => by
    rw [bareNames] at h
    split at h
    · rcases List.mem_append.mp h with h | h
      · obtain ⟨l, -, hl⟩ := List.exists_of_findSome?_eq_some (Option.mem_toList.mp h)
        exact firstWord?_ne_nil hl
      · exact ne_nil_of_mem_bareNames h
    · exact ne_nil_of_mem_bareNames h

theorem angled?_eq_some_iff {word inner : List Char} :
    angled? word = some inner ↔ word = '<' :: (inner ++ ['>']) := by
  rw [angled?.eq_def]
  split
  · rw [dropFinalWord?_eq_some_iff, List.cons_inj_right]
  · next h =>
    constructor
    · rintro ⟨⟩
    · rintro rfl
      exact (h _ rfl).elim

/-! ### Tag lines -/

/-- A line on which a tag starts: the mark, a name without blanks, and a rest that begins with the
text of the tag. -/
theorem exists_of_tagLine? {line name text : List Char} (h : tagLine? line = some (name, text)) :
    ∃ rest, trimStart line = '@' :: (name ++ rest) ∧ (∀ c ∈ name, isBlank c = false) ∧
      (rest = [] ∨ startsBlank rest = true) ∧ leadingWord rest = leadingWord text := by
  obtain ⟨blanks, hBlanks, hLine⟩ := exists_trimEnd_append (trimStart line)
  rw [← trim] at hLine
  rw [tagLine?] at h
  split at h
  · next tag htag =>
    rw [htag] at hLine
    cases hCut : cutFirst isBlank tag with
    | none =>
      rw [hCut] at h
      cases h
      refine ⟨blanks, hLine, cutFirst_eq_none_iff.mp hCut, ?_, ?_⟩
      · cases blanks with
        | nil => exact .inl rfl
        | cons c blanks => exact .inr (hBlanks c List.mem_cons_self)
      · rw [leadingWord_eq_nil_iff.mpr hBlanks]
        rfl
    | some parts =>
      rw [hCut] at h
      cases h
      obtain ⟨b, hb, hName, hTag⟩ := cutFirst_eq_some_iff.mp hCut
      refine ⟨b :: (text ++ blanks), ?_, hName, .inr hb, ?_⟩
      · rw [hLine, hTag]
        simp
      · rw [leadingWord_cons_of_blank hb, leadingWord_append_blanks hBlanks]
  · cases h

theorem isTagLine_eq (line : List Char) : isTagLine line = (tagLine? line).isSome := by
  rw [Bool.eq_iff_iff, isTagLine, beq_iff_eq]
  constructor
  · intro h
    obtain ⟨rest, hLine⟩ := List.head?_eq_some_iff.mp h
    rw [tagLine?, trim, hLine, trimEnd_cons_of_not_blank (by decide)]
    rfl
  · intro h
    obtain ⟨⟨name, text⟩, hTag⟩ := Option.isSome_iff_exists.mp h
    obtain ⟨rest, hLine, -⟩ := exists_of_tagLine? hTag
    rw [hLine, List.head?_cons]

/-- The name on the line of a parameter tag is the first word of its text on that line. -/
theorem tagName?_eq {line name text : List Char} (h : tagLine? line = some (name, text)) :
    tagName? (trimStart line) =
      if name = "param".toList ∧ leadingWord text ≠ [] then some (leadingWord text) else none := by
  obtain ⟨rest, hLine, hName, hRest, hWord⟩ := exists_of_tagLine? h
  rw [hLine, ← hWord, tagName?]
  cases hDrop : dropWord? "@param".toList ('@' :: (name ++ rest)) with
  | none =>
    rw [if_neg]
    · rfl
    rintro ⟨rfl, -⟩
    have hSome : dropWord? "@param".toList ('@' :: ("param".toList ++ rest)) = some rest :=
      dropWord?_eq_some_iff.mpr rfl
    rw [hSome] at hDrop
    cases hDrop
  | some after =>
    have hEq : name ++ rest = "param".toList ++ after :=
      (List.cons.inj (dropWord?_eq_some_iff.mp hDrop)).2
    change (if startsBlank after then firstWord? isBlank after else none) = _
    split
    · next hAfter =>
      have hParam : ∀ c ∈ "param".toList, (!isBlank c) = true := List.all_eq_true.mp (by decide)
      have hWhile := congrArg (fun s => s.takeWhile fun c => !isBlank c) hEq
      rw [List.takeWhile_append_of_pos (by simpa using hName), takeWhile_eq_nil hRest,
        List.takeWhile_append_of_pos hParam, takeWhile_eq_nil (.inr hAfter),
        List.append_nil, List.append_nil] at hWhile
      rw [hWhile, List.append_cancel_left_eq] at hEq
      rw [hEq, firstWord?_eq]
      simp only [hWhile, true_and, ne_eq, ite_not]
    · next hAfter =>
      rw [if_neg]
      rintro ⟨rfl, hne⟩
      rw [List.append_cancel_left_eq] at hEq
      subst hEq
      rcases hRest with rfl | hStarts
      · exact hne rfl
      · exact hAfter hStarts

/-- The bare lines are those of parameter tags that say nothing on that line. -/
theorem trim_eq_param_iff {line name text : List Char} (h : tagLine? line = some (name, text)) :
    trim line = "@param".toList ↔ name = "param".toList ∧ leadingWord text = [] := by
  constructor
  · intro hLine
    rw [tagLine?, hLine] at h
    cases h
    exact ⟨rfl, rfl⟩
  · rintro ⟨rfl, hText⟩
    obtain ⟨rest, hLine, -, -, hWord⟩ := exists_of_tagLine? h
    have hBlanks := leadingWord_eq_nil_iff.mp (hWord.trans hText)
    have hTrim : trim line = trimEnd ("@param".toList ++ rest) := by
      rw [trim, hLine]
      rfl
    rw [hTrim, trimEnd_append_blanks hBlanks]
    decide

theorem trim_ne_param {line : List Char} (h : tagLine? line = none) :
    trim line ≠ "@param".toList := by
  intro hLine
  rw [tagLine?, hLine] at h
  cases h

/-- The first word of what continues a block is that of the lines before the next tag. -/
theorem leadingWord_continuation (lines : List (List Char)) :
    leadingWord (tagBlocks lines).1 =
      ((lines.takeWhile fun l => !isTagLine l).findSome? (firstWord? isBlank)).getD [] := by
  induction lines with
  | nil => rfl
  | cons line lines ih =>
    cases h : tagLine? line with
    | some tag =>
      have hTag : isTagLine line = true := by rw [isTagLine_eq, h]; rfl
      rw [tagBlocks_cons_of_tag h, List.takeWhile_cons_of_neg (by simp [hTag])]
      rfl
    | none =>
      have hTag : isTagLine line = false := by rw [isTagLine_eq, h]; rfl
      rw [tagBlocks_cons_of_no_tag h, List.takeWhile_cons_of_pos (by simp [hTag]),
        List.findSome?_cons, firstWord?_eq, List.cons_append,
        leadingWord_cons_of_blank (by decide), leadingWord_append_eq (continuation_eq lines),
        leadingWord_trim]
      split
      · exact ih
      · rfl

/-! ### Taking blocks out -/

variable {known : Known}

theorem sift_cons_of_no_tag {line : List Char} (h : tagLine? line = none) (dropping : Bool)
    (lines : List (List Char)) :
    sift known dropping (line :: lines) =
      (if dropping then (sift known dropping lines).1 else line :: (sift known dropping lines).1,
        (sift known dropping lines).2) := by
  have hTag : (trimStart line).head? ≠ some '@' := by
    have := isTagLine_eq line
    rw [h] at this
    simpa [isTagLine] using this
  rw [sift]
  simp only [if_neg hTag]

theorem sift_cons_of_tag {line name text : List Char} (h : tagLine? line = some (name, text))
    (dropping : Bool) (lines : List (List Char)) :
    sift known dropping (line :: lines) =
      if name = "param".toList ∧ leadingWord text ≠ [] ∧ known.has (leadingWord text) = false then
        ((sift known true lines).1, leadingWord text :: (sift known true lines).2)
      else (line :: (sift known false lines).1, (sift known false lines).2) := by
  have hTag : (trimStart line).head? = some '@' := by
    have := isTagLine_eq line
    rw [h] at this
    simpa [isTagLine] using this
  rw [sift]
  simp only [if_pos hTag, staleName?, tagName?_eq h]
  by_cases hName : name = "param".toList ∧ leadingWord text ≠ []
  · cases hKnown : known.has (leadingWord text) with
    | true => simp [hName, Option.filter, hKnown]
    | false => simp [hName, Option.filter, hKnown]
  · rw [if_neg hName, if_neg fun h => hName ⟨h.1, h.2.1⟩]
    rfl

/-- What continues the block before the lines is kept or taken out with it. -/
theorem continuation_sift (lines : List (List Char)) : ∀ dropping : Bool,
    (tagBlocks (sift known dropping lines).1).1 =
      if dropping then [] else (tagBlocks lines).1 := by
  induction lines with
  | nil => simp [sift, tagBlocks]
  | cons line lines ih =>
    intro dropping
    cases h : tagLine? line with
    | none =>
      rw [sift_cons_of_no_tag h]
      cases dropping with
      | true => exact ih true
      | false =>
        simp only [Bool.false_eq_true, if_false]
        rw [tagBlocks_cons_of_no_tag h, tagBlocks_cons_of_no_tag h, ih false]
        rfl
    | some tag =>
      obtain ⟨name, text⟩ := tag
      rw [sift_cons_of_tag h, tagBlocks_cons_of_tag h, ite_self]
      split
      · exact ih true
      · rw [tagBlocks_cons_of_tag h]

theorem bareNames_subset_cons (line : List Char) (lines : List (List Char)) :
    bareNames lines ⊆ bareNames (line :: lines) := by
  rw [bareNames]
  split
  · exact List.subset_append_right _ _
  · exact List.Subset.refl _

theorem bareNames_cons_of_no_tag {line : List Char} (h : tagLine? line = none)
    (lines : List (List Char)) : bareNames (line :: lines) = bareNames lines := by
  rw [bareNames, if_neg (trim_ne_param h)]

/-- The name after a bare line is the first word of what continues its block. -/
theorem mem_bareNames_cons_of_tag {line name text word : List Char}
    (h : tagLine? line = some (name, text)) (lines : List (List Char)) :
    word ∈ bareNames (line :: lines) ↔
      (name = "param".toList ∧ leadingWord text = [] ∧ word = leadingWord (tagBlocks lines).1 ∧
        word ≠ []) ∨ word ∈ bareNames lines := by
  have hWords : word ∈ ((lines.takeWhile fun l => !isTagLine l).findSome?
      (firstWord? isBlank)).toList ↔ word = leadingWord (tagBlocks lines).1 ∧ word ≠ [] := by
    rw [leadingWord_continuation, Option.mem_toList]
    cases hFind : (lines.takeWhile fun l => !isTagLine l).findSome? (firstWord? isBlank) with
    | none => simp
    | some found =>
      obtain ⟨l, -, hl⟩ := List.exists_of_findSome?_eq_some hFind
      have hne : found ≠ [] := firstWord?_ne_nil hl
      simp only [Option.some.injEq, Option.getD_some]
      constructor
      · rintro rfl
        exact ⟨rfl, hne⟩
      · rintro ⟨rfl, -⟩
        rfl
  rw [bareNames]
  split
  · next hLine =>
    have hBare := (trim_eq_param_iff h).mp hLine
    rw [List.mem_append, hWords]
    tauto
  · next hLine =>
    have hBare := mt (trim_eq_param_iff h).mpr hLine
    tauto

/-- A name that is left is known or follows a bare line, unless there is no name. -/
theorem known_of_mem_sift {lines : List (List Char)} : ∀ {dropping : Bool} {word : List Char},
    word ∈ paramWords (sift known dropping lines).1 →
      word = [] ∨ known.has word = true ∨ word ∈ bareNames lines := by
  induction lines with
  | nil => simp [sift, paramWords, tagBlocks]
  | cons line lines ih =>
    intro dropping word hWord
    have hCons : (word = [] ∨ known.has word = true ∨ word ∈ bareNames lines) →
        word = [] ∨ known.has word = true ∨ word ∈ bareNames (line :: lines) :=
      Or.imp_right (Or.imp_right fun h => bareNames_subset_cons line lines h)
    cases h : tagLine? line with
    | none =>
      rw [sift_cons_of_no_tag h] at hWord
      cases dropping with
      | true => exact hCons (ih hWord)
      | false => exact hCons (ih (by simpa [paramWords_cons_of_no_tag h] using hWord))
    | some tag =>
      obtain ⟨name, text⟩ := tag
      rw [sift_cons_of_tag h] at hWord
      split at hWord
      · exact hCons (ih hWord)
      · next hStale =>
        rw [paramWords_cons_of_tag h, continuation_sift] at hWord
        split at hWord
        · next hName =>
          rcases List.mem_cons.mp hWord with rfl | hWord
          · simp only [Bool.false_eq_true, if_false]
            rw [leadingWord_append_eq (continuation_eq lines)]
            split
            · next hText =>
              by_cases hne : leadingWord (tagBlocks lines).1 = []
              · exact .inl hne
              · exact .inr (.inr ((mem_bareNames_cons_of_tag h lines).mpr
                  (.inl ⟨hName, hText, rfl, hne⟩)))
            · next hText =>
              refine .inr (.inl ?_)
              by_contra hKnown
              exact hStale ⟨hName, hText, by simpa using hKnown⟩
          · exact hCons (ih hWord)
        · exact hCons (ih hWord)

/-- The names after bare lines are always left. -/
theorem bareNames_subset_sift (lines : List (List Char)) : ∀ dropping : Bool,
    bareNames lines ⊆ paramWords (sift known dropping lines).1 := by
  induction lines with
  | nil => simp [bareNames]
  | cons line lines ih =>
    intro dropping word hWord
    cases h : tagLine? line with
    | none =>
      rw [bareNames_cons_of_no_tag h] at hWord
      rw [sift_cons_of_no_tag h]
      cases dropping with
      | true => exact ih true hWord
      | false => simpa [paramWords_cons_of_no_tag h] using ih false hWord
    | some tag =>
      obtain ⟨name, text⟩ := tag
      rw [sift_cons_of_tag h]
      rcases (mem_bareNames_cons_of_tag h lines).mp hWord with ⟨hName, hText, rfl, -⟩ | hWord
      · rw [if_neg fun hStale => hStale.2.1 hText, paramWords_cons_of_tag h, if_pos hName,
          continuation_sift, leadingWord_blanks_append (leadingWord_eq_nil_iff.mp hText)]
        exact List.mem_cons_self
      · split
        · exact ih true hWord
        · rw [paramWords_cons_of_tag h]
          split
          · exact List.mem_cons_of_mem _ (ih false hWord)
          · exact ih false hWord

/-- The names of the tags taken out are given by the text, and not known. -/
theorem unknown_of_mem_removed {lines : List (List Char)} : ∀ {dropping : Bool} {word : List Char},
    word ∈ (sift known dropping lines).2 → word ∈ paramWords lines ∧ known.has word = false := by
  induction lines with
  | nil => simp [sift]
  | cons line lines ih =>
    intro dropping word hWord
    cases h : tagLine? line with
    | none =>
      rw [sift_cons_of_no_tag h] at hWord
      rw [paramWords_cons_of_no_tag h]
      exact ih hWord
    | some tag =>
      obtain ⟨name, text⟩ := tag
      have hCons : paramWords lines ⊆ paramWords (line :: lines) := by
        rw [paramWords_cons_of_tag h]
        split
        · exact List.subset_cons_self _ _
        · exact List.Subset.refl _
      rw [sift_cons_of_tag h] at hWord
      split at hWord
      · next hStale =>
        rcases List.mem_cons.mp hWord with rfl | hWord
        · refine ⟨?_, hStale.2.2⟩
          rw [paramWords_cons_of_tag h, if_pos hStale.1,
            leadingWord_append hStale.2.1 (continuation_eq lines)]
          exact List.mem_cons_self
        · exact ⟨hCons (ih hWord).1, (ih hWord).2⟩
      · exact ⟨hCons (ih hWord).1, (ih hWord).2⟩

/-- Where no tag is taken out the lines stay as they are. -/
theorem sift_eq_of_removed_eq_nil {lines : List (List Char)}
    (h : (sift known false lines).2 = []) : (sift known false lines).1 = lines := by
  induction lines with
  | nil => rfl
  | cons line lines ih =>
    cases hTag : tagLine? line with
    | none =>
      rw [sift_cons_of_no_tag hTag] at h ⊢
      simpa using ih h
    | some tag =>
      obtain ⟨name, text⟩ := tag
      rw [sift_cons_of_tag hTag] at h ⊢
      split at h
      · simp at h
      · next hStale => rw [if_neg hStale, ih h]

theorem sift_sublist (lines : List (List Char)) : ∀ dropping : Bool,
    (sift known dropping lines).1.Sublist lines := by
  induction lines with
  | nil => exact fun _ => .slnil
  | cons line lines ih =>
    intro dropping
    cases hTag : tagLine? line with
    | none =>
      rw [sift_cons_of_no_tag hTag]
      cases dropping with
      | true => exact (ih true).cons line
      | false => exact (ih false).cons_cons line
    | some tag =>
      obtain ⟨name, text⟩ := tag
      rw [sift_cons_of_tag hTag]
      split
      · exact (ih true).cons line
      · exact (ih false).cons_cons line

/-! ### Whole texts -/

theorem removed_strip (known : Known) (raw : String) :
    (strip known raw).removed = (sift known false (lines raw.toList)).2.map String.ofList := by
  rw [strip]
  simp only
  split
  · next h => rw [List.isEmpty_iff.mp h, List.map_nil]
  · rfl

/-- A text without stale tags is left as it is. -/
theorem text_strip_of_removed_eq_nil {raw : String} (h : (strip known raw).removed = []) :
    (strip known raw).text = raw := by
  rw [removed_strip, List.map_eq_nil_iff] at h
  rw [strip]
  simp only [h, List.isEmpty_nil, if_true]

/-- What is left of a text is read like what is left of its lines. -/
theorem lines_strip {β : Type} {f : List (List Char) → β} (h : IgnoresBlanks f) (known : Known)
    (raw : String) :
    f (lines (strip known raw).text.toList) = f (sift known false (lines raw.toList)).1 := by
  rw [strip]
  simp only
  split
  · next hNone => rw [sift_eq_of_removed_eq_nil (List.isEmpty_iff.mp hNone)]
  · rw [String.toList_ofList, h.lines_trimEnd, h.lines_intercalate]
    intro line hLine
    exact newline_not_mem_of_mem_lines ((sift_sublist _ false).subset hLine)

/-- All names of a text are known if and only if there is no stale tag, the names after bare lines
are known, and no tag lacks a name. -/
theorem paramNames_known_iff (known : Known) (raw : String) :
    (∀ name ∈ paramNames raw, known.has name.toList = true) ↔
      (strip known raw).removed = [] ∧
      (∀ word ∈ bareNames (lines raw.toList), known.has word = true) ∧
      ("" ∈ paramNames raw → known.has [] = true) := by
  have hWords : (∀ name ∈ paramNames raw, known.has name.toList = true) ↔
      ∀ word ∈ paramWords (lines raw.toList), known.has word = true := by
    simp only [mem_paramNames, forall_exists_index, and_imp]
    constructor
    · intro h word hWord
      rw [← String.toList_ofList (l := word)]
      exact h _ word hWord rfl
    · rintro h _ word hWord rfl
      rw [String.toList_ofList]
      exact h word hWord
  have hSift : (strip known raw).removed = [] →
      (sift known false (lines raw.toList)).1 = lines raw.toList := by
    rw [removed_strip, List.map_eq_nil_iff]
    exact sift_eq_of_removed_eq_nil
  rw [hWords]
  constructor
  · intro h
    have hNone : (strip known raw).removed = [] := by
      rw [removed_strip, List.map_eq_nil_iff, List.eq_nil_iff_forall_not_mem]
      intro word hWord
      obtain ⟨hMem, hUnknown⟩ := unknown_of_mem_removed hWord
      exact Bool.false_ne_true (hUnknown.symm.trans (h word hMem))
    refine ⟨hNone, fun word hWord => h word ?_, fun hEmpty => h [] ?_⟩
    · rw [← hSift hNone]
      exact bareNames_subset_sift _ false hWord
    · obtain ⟨word, hWord, hName⟩ := mem_paramNames.mp hEmpty
      rwa [← String.ofList_eq_empty_iff.mp hName.symm]
  · rintro ⟨hNone, hBare, hEmpty⟩ word hWord
    have hLeft := hWord
    rw [← hSift hNone] at hLeft
    rcases known_of_mem_sift hLeft with rfl | hKnown | hAfter
    · exact hEmpty (mem_paramNames.mpr ⟨[], hWord, rfl⟩)
    · exact hKnown
    · exact hBare word hAfter

end ParamTags

end ClassSketch
