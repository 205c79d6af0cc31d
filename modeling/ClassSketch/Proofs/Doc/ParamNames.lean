import ClassSketch.Doc.DocText
import ClassSketch.Proofs.Entries
import ClassSketch.Proofs.Text.Words

/-!
# The names that parameter tags give

The name that a `@param` tag gives is the first word after the mark, be it on the line of the tag or
on a line after it. The names that a parsed comment gives are those of its blocks, and they stay the
same when blanks around the lines and around the whole text are taken off.

## Main definitions

* `DocText.paramNames` — the names given by the `@param` tags of a text
* `DocText.tagLine?` — the name and the text of a tag that starts on a line
* `DocText.paramWords` — the first words of the `@param` blocks of some lines

## Main results

* `DocText.mem_paramNames` — the names of a parsed text, by its lines
* `DocText.paramWords_ignoresBlanks` — trimming a text keeps its names
-/

namespace ClassSketch

namespace DocText

open Text

/-- The names that the parameter tags of a text give. -/
def paramNames (text : String) : List String := ((parse text).namedTags "param").map Prod.fst

/-- The name and the text of the tag that starts on a line, if one does. -/
def tagLine? (line : List Char) : Option (List Char × List Char) :=
  match trim line with
  | '@' :: tag => some ((cutFirst isBlank tag).getD (tag, []))
  | _ => none

/-- The first words of the parameter tags that start on some lines. -/
def paramWords (lines : List (List Char)) : List (List Char) :=
  ((tagBlocks lines).2.filter fun block => block.1 = "param".toList).map
    fun block => leadingWord block.2

/-! ### Blocks -/

/-- A line with a tag starts a block, which what follows up to the next tag continues. -/
theorem tagBlocks_cons_of_tag {line name text : List Char} (h : tagLine? line = some (name, text))
    (lines : List (List Char)) :
    tagBlocks (line :: lines) =
      ([], (name, text ++ (tagBlocks lines).1) :: (tagBlocks lines).2) := by
  obtain ⟨tag, hTrim, hTag⟩ : ∃ tag, trim line = '@' :: tag ∧
      (cutFirst isBlank tag).getD (tag, []) = (name, text) := by
    rw [tagLine?] at h
    split at h
    · next tag hTrim => exact ⟨tag, hTrim, Option.some.inj h⟩
    · cases h
  rw [tagBlocks, hTrim]
  simp only [hTag]

/-- A line without a tag continues the block before it. -/
theorem tagBlocks_cons_of_no_tag {line : List Char} (h : tagLine? line = none)
    (lines : List (List Char)) :
    tagBlocks (line :: lines) = (' ' :: trim line ++ (tagBlocks lines).1, (tagBlocks lines).2) := by
  rw [tagLine?] at h
  rw [tagBlocks]
  split at h
  · cases h
  · simp only

/-- What continues a block starts with a blank, if there is anything. -/
theorem continuation_eq (lines : List (List Char)) :
    (tagBlocks lines).1 = [] ∨ startsBlank (tagBlocks lines).1 = true := by
  cases lines with
  | nil => exact .inl rfl
  | cons line lines =>
    cases h : tagLine? line with
    | none => exact .inr (by rw [tagBlocks_cons_of_no_tag h]; rfl)
    | some tag => exact .inl (by rw [tagBlocks_cons_of_tag h])

theorem paramWords_cons_of_no_tag {line : List Char} (h : tagLine? line = none)
    (lines : List (List Char)) : paramWords (line :: lines) = paramWords lines := by
  rw [paramWords, tagBlocks_cons_of_no_tag h, paramWords]

theorem paramWords_cons_of_tag {line name text : List Char}
    (h : tagLine? line = some (name, text)) (lines : List (List Char)) :
    paramWords (line :: lines) =
      if name = "param".toList then
        leadingWord (text ++ (tagBlocks lines).1) :: paramWords lines
      else paramWords lines := by
  rw [paramWords, tagBlocks_cons_of_tag h, List.filter_cons]
  split
  · next hName => rw [if_pos (by simpa using hName), List.map_cons, paramWords]
  · next hName => rw [if_neg (by simpa using hName), paramWords]

/-! ### The names of a parsed text -/

theorem takeWhile_squeeze (s : List Char) :
    (squeeze s).takeWhile (fun c => !c == ' ') = s.takeWhile fun c => !isBlank c := by
  induction s with
  | nil => rfl
  | cons c s ih =>
    cases hc : isBlank c with
    | true =>
      rw [squeeze, if_pos hc, List.takeWhile_cons_of_neg (by simp [hc])]
      split
      · next hs =>
        rw [ih]
        cases s with
        | nil => rfl
        | cons d s => exact List.takeWhile_cons_of_neg (by simpa [startsBlank] using hs)
      · exact List.takeWhile_cons_of_neg (by simp)
    | false =>
      have hSpace : (c == ' ') = false := by
        rw [beq_eq_false_iff_ne]
        rintro rfl
        exact absurd hc (by decide)
      rw [squeeze, if_neg (by simp [hc]), List.takeWhile_cons_of_pos (by simp [hSpace]),
        List.takeWhile_cons_of_pos (by simp [hc]), ih]

theorem takeWhile_of_cutFirst {p : Char → Bool} {s front rest : List Char}
    (h : cutFirst p s = some (front, rest)) : front = s.takeWhile fun c => !p c := by
  obtain ⟨c, hc, hFree, rfl⟩ := cutFirst_eq_some_iff.mp h
  have hAll : ∀ d ∈ front, (!p d) = true := by simpa using hFree
  rw [List.takeWhile_append_of_pos hAll, List.takeWhile_cons_of_neg (by simp [hc]), List.append_nil]

/-- The name that leads the collapsed text of a block is its first word. -/
theorem name_collapse (text : List Char) :
    (nameAndDescription (String.ofList (collapse text))).1 = String.ofList (leadingWord text) := by
  have hWord : (collapse text).takeWhile (fun c => !c == ' ') = leadingWord text := by
    rw [collapse, takeWhile_squeeze, ← leadingWord_trim, leadingWord, trimStart_trim]
  rw [nameAndDescription, String.toList_ofList]
  split
  · next name description h => rw [takeWhile_of_cutFirst h, hWord]
  · next h =>
    rw [← hWord, List.takeWhile_eq_self_iff.mpr]
    intro c hc
    simp [cutFirst_eq_none_iff.mp h c hc]

theorem values_foldl_addValue (name : String) (blocks : List (List Char × List Char)) :
    ∀ tags : List (String × List String),
      (valueOf? name (blocks.foldl (fun tags (name, text) =>
        addValue tags (String.ofList name) (String.ofList (collapse text))) tags)).getD [] =
      (valueOf? name tags).getD [] ++
        (blocks.filter fun block => String.ofList block.1 = name).map
          fun block => String.ofList (collapse block.2) := by
  induction blocks with
  | nil => simp
  | cons block blocks ih =>
    intro tags
    obtain ⟨tag, text⟩ := block
    rw [List.foldl_cons, ih]
    simp only [addValue, valueOf?_putEntry, List.filter_cons]
    split
    · next h => simp [h]
    · next h => simp [h]

theorem mem_keys_foldl_namedTags (key : String) (values : List String) :
    ∀ named : List (String × String),
      key ∈ (values.foldl (fun named value =>
        putEntry (nameAndDescription value).1 (nameAndDescription value).2 named) named).map
          Prod.fst ↔
      key ∈ named.map Prod.fst ∨ ∃ value ∈ values, key = (nameAndDescription value).1 := by
  induction values with
  | nil => simp
  | cons value values ih =>
    intro named
    rw [List.foldl_cons, ih, mem_keys_putEntry]
    simp only [List.mem_cons, exists_eq_or_imp]
    tauto

/-- The names that a text gives are the first words of its `@param` blocks. -/
theorem mem_paramNames {text key : String} :
    key ∈ paramNames text ↔ ∃ word ∈ paramWords (lines text.toList), key = String.ofList word := by
  have hValues : (parse text).values "param" =
      ((tagBlocks (lines text.toList)).2.filter fun block => String.ofList block.1 = "param").map
        fun block => String.ofList (collapse block.2) :=
    values_foldl_addValue "param" _ []
  have hFilter : ∀ block : List Char × List Char,
      decide (String.ofList block.1 = "param") = decide (block.1 = "param".toList) := by
    intro block
    rw [decide_eq_decide, ← String.toList_inj, String.toList_ofList]
  rw [paramNames, namedTags, hValues]
  refine (mem_keys_foldl_namedTags key _ []).trans ?_
  simp only [hFilter, List.map_nil, List.not_mem_nil, false_or, List.mem_map, paramWords]
  constructor
  · rintro ⟨_, ⟨block, hBlock, rfl⟩, rfl⟩
    exact ⟨_, ⟨block, hBlock, rfl⟩, name_collapse block.2⟩
  · rintro ⟨_, ⟨block, hBlock, rfl⟩, rfl⟩
    exact ⟨_, ⟨block, hBlock, rfl⟩, (name_collapse block.2).symm⟩

/-! ### Lines and blanks -/

theorem tagLine?_of_trim_eq_nil {line : List Char} (h : trim line = []) : tagLine? line = none := by
  rw [tagLine?, h]

/-- Only the trimmed lines matter. -/
theorem tagBlocks_congr {xs ys : List (List Char)} (h : xs.map trim = ys.map trim) :
    tagBlocks xs = tagBlocks ys := by
  induction xs generalizing ys with
  | nil =>
    obtain rfl : ys = [] := by simpa using h.symm
    rfl
  | cons x xs ih =>
    cases ys with
    | nil => simp at h
    | cons y ys =>
      rw [List.map_cons, List.map_cons, List.cons.injEq] at h
      rw [tagBlocks, tagBlocks, ih h.2, h.1]

/-- A blank line at the end adds at most blanks to what continues a block. -/
theorem continuation_concat_blank {line : List Char} (h : trim line = [])
    (lines : List (List Char)) :
    ∃ blanks : List Char, (∀ c ∈ blanks, isBlank c = true) ∧
      (tagBlocks (lines ++ [line])).1 = (tagBlocks lines).1 ++ blanks := by
  induction lines with
  | nil =>
    refine ⟨[' '], by simp; rfl, ?_⟩
    rw [List.nil_append, tagBlocks_cons_of_no_tag (tagLine?_of_trim_eq_nil h), h]
    rfl
  | cons l lines ih =>
    obtain ⟨blanks, hBlanks, hlines⟩ := ih
    rw [List.cons_append]
    cases hl : tagLine? l with
    | none =>
      refine ⟨blanks, hBlanks, ?_⟩
      rw [tagBlocks_cons_of_no_tag hl, tagBlocks_cons_of_no_tag hl, hlines, List.append_assoc]
    | some tag =>
      refine ⟨[], by simp, ?_⟩
      rw [tagBlocks_cons_of_tag hl, tagBlocks_cons_of_tag hl, List.append_nil]

theorem paramWords_concat_blank {line : List Char} (h : trim line = [])
    (lines : List (List Char)) : paramWords (lines ++ [line]) = paramWords lines := by
  induction lines with
  | nil => exact paramWords_cons_of_no_tag (tagLine?_of_trim_eq_nil h) []
  | cons l lines ih =>
    rw [List.cons_append]
    cases hl : tagLine? l with
    | none => rw [paramWords_cons_of_no_tag hl, paramWords_cons_of_no_tag hl, ih]
    | some tag =>
      obtain ⟨name, text⟩ := tag
      obtain ⟨blanks, hBlanks, hlines⟩ := continuation_concat_blank h lines
      rw [paramWords_cons_of_tag hl, paramWords_cons_of_tag hl, ih, hlines, ← List.append_assoc,
        leadingWord_append_blanks hBlanks]

/-- The names do not depend on blanks around lines, nor on blank lines around all of them. -/
theorem paramWords_ignoresBlanks : IgnoresBlanks paramWords where
  congr h := by rw [paramWords, tagBlocks_congr h, paramWords]
  cons h lines := paramWords_cons_of_no_tag (tagLine?_of_trim_eq_nil h) lines
  concat h lines := paramWords_concat_blank h lines

end DocText

end ClassSketch
