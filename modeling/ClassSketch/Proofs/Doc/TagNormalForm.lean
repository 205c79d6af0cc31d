import ClassSketch.Proofs.Doc.StaleTags

/-!
# The normal form of tags

The tags of a comment are grouped by their names, and their values are collapsed: words with single
spaces between them. If each value is written on a line of its own, with the mark and the name
before it, the tags of these lines are the same tags, so that nothing but the order of the lines and
the blanks is lost.

The two ways to look for a name in the values of a tag cut a value differently. One takes the name
off, and trims what is behind the next blank. The other cuts at the first space. In a collapsed
value these are the same.

## Main definitions

* `DocText.Collapsed` — texts of words with single spaces between them
* `DocText.entries`, `DocText.written` — the values with their names, and the lines that give them
* `DocText.Normal` — comments whose tags are in normal form

## Main results

* `DocText.collapsed_collapse`, `DocText.collapse_eq_self` — the collapsed texts
* `DocText.descriptionOf?_eq` — what a collapsed value says about a name
* `DocText.group_entries`, `DocText.entries_group_perm` — grouping values by names
* `DocText.parse_normal` — the tags of every comment are in normal form
-/

namespace ClassSketch

namespace DocText

open Text ParamTags

/-! ### Definitions -/

/-- The text consists of words with single spaces between them. -/
structure Collapsed (s : List Char) : Prop where
  head : ∀ c ∈ s.head?, isBlank c = false
  last : ∀ c ∈ s.getLast?, isBlank c = false
  eq_space : ∀ c ∈ s, isBlank c = true → c = ' '
  single : ¬[' ', ' '] <:+: s

/-- The values of all tags one after the other, each with the name of its tag. -/
def entries (tags : List (String × List String)) : List (String × String) :=
  tags.flatMap fun tag => tag.2.map (tag.1, ·)

/-- The line that gives a tag a value. -/
def entryLine (entry : String × String) : List Char :=
  '@' :: (entry.1.toList ++ ' ' :: entry.2.toList)

/-- The text with a line for each value of each tag. -/
def written (tags : List (String × List String)) : String :=
  String.ofList ((entries tags).flatMap fun entry => entryLine entry ++ ['\n'])

/-- The tags of a comment are in normal form. -/
structure Normal (d : DocText) : Prop where
  /-- The tags can be written and read again. -/
  reread : (parse (written d.tags)).tags = d.tags
  /-- The values are collapsed. -/
  collapsed : ∀ tag ∈ d.tags, ∀ value ∈ tag.2, Collapsed value.toList
  /-- There is one value for each line on which a tag starts. -/
  count : (d.tags.flatMap Prod.snd).length = (lines d.raw.toList).countP isTagLine
  /-- A value that a name leads is found under the name, and the other way round. -/
  isSome_namedTag? : ∀ tag name : String, (∀ c ∈ name.toList, isBlank c = false) →
    ((d.namedTag? tag name).isSome = true ↔ name ∈ (d.namedTags tag).map Prod.fst)
  /-- It says the same in both ways, unless the name leads several values. -/
  namedTag?_eq : ∀ tag name : String, (∀ c ∈ name.toList, isBlank c = false) →
    ((d.values tag).filter fun value => leadingWord value.toList = name.toList).length ≤ 1 →
      d.namedTag? tag name = valueOf? name (d.namedTags tag)

/-! ### Collapsed texts -/

section Collapse

variable {c : Char} {s : List Char}

/-- The only blanks that are left are spaces. -/
theorem eq_space_of_mem_squeeze (h : c ∈ squeeze s) (hc : isBlank c = true) : c = ' ' := by
  induction s with
  | nil => cases h
  | cons d s ih =>
    rw [squeeze] at h
    split at h
    · split at h
      · exact ih h
      · rcases List.mem_cons.mp h with rfl | h
        · rfl
        · exact ih h
    · next hd =>
      rcases List.mem_cons.mp h with rfl | h
      · exact absurd hc hd
      · exact ih h

theorem squeeze_cons (hc : isBlank c = false) (s : List Char) :
    squeeze (c :: s) = c :: squeeze s := by
  rw [squeeze, if_neg (by simp [hc])]

theorem startsBlank_squeeze (h : startsBlank s = false) : startsBlank (squeeze s) = false := by
  cases s with
  | nil => rfl
  | cons c s =>
    rw [squeeze_cons h]
    exact h

/-- No two spaces follow each other. -/
theorem single_squeeze (s : List Char) : ¬[' ', ' '] <:+: squeeze s := by
  induction s with
  | nil => simp [squeeze]
  | cons c s ih =>
    rw [squeeze]
    split
    · split
      · exact ih
      · next hs =>
        rw [List.infix_cons_iff, not_or]
        refine ⟨fun h => ?_, ih⟩
        obtain ⟨rest, hRest⟩ := (List.cons_prefix_cons.mp h).2
        have hStart := startsBlank_squeeze (Bool.not_eq_true _ ▸ hs)
        rw [← hRest] at hStart
        cases hStart
    · next hc =>
      rw [List.infix_cons_iff, not_or]
      refine ⟨fun h => ?_, ih⟩
      obtain rfl := (List.cons_prefix_cons.mp h).1
      exact hc rfl

theorem squeeze_concat (hc : isBlank c = false) (s : List Char) :
    squeeze (s ++ [c]) = squeeze s ++ [c] := by
  induction s with
  | nil => exact squeeze_cons hc []
  | cons d s ih =>
    have hStart : startsBlank (s ++ [c]) = startsBlank s := by
      cases s with
      | nil => exact hc
      | cons e s => rfl
    rw [List.cons_append, squeeze, squeeze, hStart, ih]
    split
    · split <;> rfl
    · rfl

/-- A text in which blanks are single spaces stays as it is. -/
theorem squeeze_eq_self (hSpace : ∀ c ∈ s, isBlank c = true → c = ' ')
    (hSingle : ¬[' ', ' '] <:+: s) : squeeze s = s := by
  induction s with
  | nil => rfl
  | cons c s ih =>
    rw [List.infix_cons_iff, not_or] at hSingle
    have hRest := ih (fun d hd => hSpace d (List.mem_cons_of_mem c hd)) hSingle.2
    rw [squeeze, hRest]
    split
    · next hc =>
      obtain rfl := hSpace c List.mem_cons_self hc
      refine if_neg fun hStart => hSingle.1 ?_
      cases s with
      | nil => cases hStart
      | cons d s =>
        obtain rfl := hSpace d (by simp) hStart
        exact List.prefix_append [' ', ' '] s
    · rfl

/-- What has been collapsed is collapsed. -/
theorem collapsed_collapse (s : List Char) : Collapsed (collapse s) where
  head := by
    have hHead := head?_dropWhile isBlank (trim s)
    rw [← trimStart, trimStart_trim] at hHead
    rw [collapse]
    cases hTrim : trim s with
    | nil => simp [squeeze]
    | cons c t =>
      rw [hTrim] at hHead
      rw [squeeze_cons (hHead c rfl)]
      exact hHead
  last := by
    have hLast := getLast?_trimEnd (trimStart s)
    rw [← trim] at hLast
    rw [collapse]
    rcases List.eq_nil_or_concat' (trim s) with hTrim | ⟨t, c, hTrim⟩
    · simp [hTrim, squeeze]
    · have hc := hLast c (by simp [hTrim])
      rw [hTrim, squeeze_concat hc]
      simpa using hc
  eq_space := fun c hc => eq_space_of_mem_squeeze hc
  single := single_squeeze _

/-- A collapsed text stays as it is. -/
theorem collapse_eq_self (h : Collapsed s) : collapse s = s := by
  rw [collapse, trim, trimStart_eq_self h.head, trimEnd_eq_self h.last]
  exact squeeze_eq_self h.eq_space h.single

end Collapse

/-! ### Values and names -/

section Names

variable {value name : String}

/-- A collapsed value is a word, or a word and a collapsed text behind a space. -/
theorem Collapsed.cases_word {s : List Char} (h : Collapsed s) :
    (∀ c ∈ s, isBlank c = false) ∧ nameAndDescription (String.ofList s) = (String.ofList s, "") ∨
    ∃ word rest, s = word ++ ' ' :: rest ∧ (∀ c ∈ word, isBlank c = false) ∧ Collapsed rest ∧
      rest ≠ [] ∧
      nameAndDescription (String.ofList s) = (String.ofList word, String.ofList rest) := by
  rw [nameAndDescription, String.toList_ofList]
  cases hCut : cutFirst (· == ' ') s with
  | none =>
    left
    refine ⟨fun c hc => ?_, rfl⟩
    have hSpace := cutFirst_eq_none_iff.mp hCut c hc
    by_contra hBlank
    simp [h.eq_space c hc (by simpa using hBlank)] at hSpace
  | some parts =>
    right
    obtain ⟨word, rest⟩ := parts
    obtain ⟨c, hc, hWord, rfl⟩ := cutFirst_eq_some_iff.mp hCut
    obtain rfl : c = ' ' := by simpa using hc
    have hne : rest ≠ [] := by
      rintro rfl
      exact absurd (h.last ' ' (by simp)) (by decide)
    refine ⟨word, rest, rfl, fun d hd => ?_, ⟨?_, ?_, ?_, ?_⟩, hne, rfl⟩
    · have hSpace := hWord d hd
      by_contra hBlank
      simp [h.eq_space d (by simp [hd]) (by simpa using hBlank)] at hSpace
    · intro d hd
      by_contra hBlank
      obtain ⟨rest', rfl⟩ := List.head?_eq_some_iff.mp hd
      obtain rfl := h.eq_space d (by simp) (by simpa using hBlank)
      exact h.single ⟨word, rest', by simp⟩
    · intro d hd
      refine h.last d ?_
      rwa [← List.singleton_append, ← List.append_assoc, List.getLast?_append_of_ne_nil _ hne]
    · exact fun d hd => h.eq_space d (by simp [hd])
    · intro hInfix
      exact h.single (hInfix.trans ⟨word ++ [' '], [], by simp⟩)

/-- Words are told apart by what is before the first blank. -/
theorem eq_of_append_blank {word word' rest rest' : List Char}
    (hWord : ∀ c ∈ word, isBlank c = false) (hWord' : ∀ c ∈ word', isBlank c = false)
    (hRest : startsBlank rest = true) (hRest' : startsBlank rest' = true)
    (h : word ++ rest = word' ++ rest') : word = word' ∧ rest = rest' := by
  have hSplit : ∀ {w r : List Char}, (∀ c ∈ w, isBlank c = false) → startsBlank r = true →
      (w ++ r).takeWhile (fun c => !isBlank c) = w := by
    intro w r hw hr
    refine (split_of_run _ (fun c hc => by simp [hw c hc]) fun c hc => ?_).1
    obtain ⟨r, rfl⟩ := List.head?_eq_some_iff.mp hc
    rw [Bool.not_eq_false']
    exact hr
  have hEq : word = word' := by
    rw [← hSplit hWord hRest, h, hSplit hWord' hRest']
  subst hEq
  exact ⟨rfl, List.append_cancel_left h⟩

theorem trim_eq_self {s : List Char} (h : Collapsed s) : trim s = s := by
  rw [trim, trimStart_eq_self h.head, trimEnd_eq_self h.last]

/-- A name leads a value if it is the value, or a blank follows it. -/
theorem descriptionOf?_eq_some {description : String} :
    descriptionOf? name value = some description ↔
      value.toList = name.toList ∧ description = "" ∨
      ∃ rest, startsBlank rest = true ∧ value.toList = name.toList ++ rest ∧
        description = String.ofList (trim rest) := by
  constructor
  · intro h
    rw [descriptionOf?] at h
    split at h
    · cases h
    · next hDrop =>
      cases h
      exact .inl ⟨by rw [dropWord?_eq_some_iff.mp hDrop, List.append_nil], rfl⟩
    · next rest _ hDrop =>
      split at h
      · next hStart =>
        cases h
        exact .inr ⟨rest, hStart, dropWord?_eq_some_iff.mp hDrop, rfl⟩
      · cases h
  · rintro (⟨hValue, rfl⟩ | ⟨rest, hStart, hValue, rfl⟩)
    · rw [← List.append_nil name.toList] at hValue
      simp only [descriptionOf?, dropWord?_eq_some_iff.mpr hValue]
    · cases rest with
      | nil => cases hStart
      | cons c rest =>
        simp only [descriptionOf?, dropWord?_eq_some_iff.mpr hValue, hStart, if_true]

/-- What a collapsed value says about a name is what is behind its first space, if the name is
before that. -/
theorem descriptionOf?_eq (h : Collapsed value.toList)
    (hName : ∀ c ∈ name.toList, isBlank c = false) :
    descriptionOf? name value =
      if (nameAndDescription value).1 = name then some (nameAndDescription value).2 else none := by
  have hCases := h.cases_word
  rw [String.ofList_toList] at hCases
  refine Option.ext fun description => descriptionOf?_eq_some.trans ?_
  rcases hCases with ⟨hFree, hParts⟩ | ⟨word, rest, hValue, hWord, hRest, -, hParts⟩
  · have hNoBlank : ¬∃ rest, startsBlank rest = true ∧ value.toList = name.toList ++ rest ∧
        description = String.ofList (trim rest) := by
      rintro ⟨rest, hStart, hValue, -⟩
      cases rest with
      | nil => cases hStart
      | cons c rest => exact absurd hStart (by simp [startsBlank, hFree c (by simp [hValue])])
    rw [hParts, or_iff_left hNoBlank, String.toList_inj, Option.ite_none_right_eq_some,
      Option.some.injEq, eq_comm (a := description)]
  · have hNotName : value.toList ≠ name.toList := fun hEq =>
      absurd (hName ' ' (by rw [← hEq, hValue]; simp)) (by decide)
    have hTrim : trim (' ' :: rest) = rest := by
      rw [trim_cons_of_blank (by decide), trim_eq_self hRest]
    rw [hParts, or_iff_right (fun hEq => hNotName hEq.1), Option.ite_none_right_eq_some,
      Option.some.injEq]
    constructor
    · rintro ⟨rest', hStart, hEq, rfl⟩
      obtain ⟨rfl, rfl⟩ := eq_of_append_blank hWord hName (by rfl) hStart (hValue.symm.trans hEq)
      exact ⟨String.ofList_toList, by rw [hTrim]⟩
    · rintro ⟨rfl, rfl⟩
      exact ⟨' ' :: rest, rfl, by rw [hValue, String.toList_ofList], by rw [hTrim]⟩

theorem name_eq_leadingWord (h : Collapsed value.toList) :
    (nameAndDescription value).1 = String.ofList (leadingWord value.toList) := by
  have hName := name_collapse value.toList
  rwa [collapse_eq_self h, String.ofList_toList] at hName

/-- The first value that describes a name is the first one that has the name in front. -/
theorem findSome?_descriptionOf? {values : List String}
    (h : ∀ value ∈ values, Collapsed value.toList)
    (hName : ∀ c ∈ name.toList, isBlank c = false) :
    values.findSome? (descriptionOf? name) = valueOf? name (values.map nameAndDescription) := by
  induction values with
  | nil => rfl
  | cons value values ih =>
    obtain ⟨hValue, hValues⟩ := List.forall_mem_cons.mp h
    rw [List.findSome?_cons, descriptionOf?_eq hValue hName, List.map_cons, valueOf?_cons,
      ← ih hValues]
    by_cases hKey : (nameAndDescription value).1 = name
    · rw [if_pos hKey, if_pos hKey]
    · rw [if_neg hKey, if_neg hKey]

/-- Where at most one entry has a key, the first one is the last one. -/
theorem valueOf?_reverse_of_length_le_one {α : Type} {key : String} {table : List (String × α)}
    (h : (table.filter fun entry => entry.1 = key).length ≤ 1) :
    valueOf? key table.reverse = valueOf? key table := by
  have hFilter : ∀ table : List (String × α),
      valueOf? key table = (table.filter fun entry => entry.1 = key).head?.map Prod.snd := by
    intro table
    rw [List.head?_filter, valueOf?]
    rfl
  rw [hFilter, hFilter, List.filter_reverse]
  generalize (table.filter fun entry => entry.1 = key) = found at h ⊢
  cases found with
  | nil => rfl
  | cons entry others =>
    obtain rfl : others = [] :=
      List.eq_nil_of_length_eq_zero (Nat.le_zero.mp (Nat.le_of_succ_le_succ h))
    rfl

end Names

/-! ### Grouping -/

/-- Values with their names, grouped. -/
def group (values : List (String × String)) : List (String × List String) :=
  values.foldl (fun tags entry => addValue tags entry.1 entry.2) []

section Group

variable {name value : String} {tags : List (String × List String)}

/-- A value is added to the first tag of its name. -/
theorem addValue_cons (tag : String × List String) :
    addValue (tag :: tags) name value =
      if tag.1 = name then (name, tag.2 ++ [value]) :: tags
      else tag :: addValue tags name value := by
  rw [addValue, putEntry, valueOf?_cons]
  split
  · rfl
  · rw [addValue]

theorem addValue_of_not_mem (h : name ∉ tags.map Prod.fst) (values : List String) :
    addValue (tags ++ [(name, values)]) name value = tags ++ [(name, values ++ [value])] := by
  induction tags with
  | nil => rw [List.nil_append, addValue_cons, if_pos rfl, List.nil_append]
  | cons tag tags ih =>
    rw [List.map_cons, List.mem_cons, not_or] at h
    rw [List.cons_append, addValue_cons, if_neg (Ne.symm h.1), ih h.2, List.cons_append]

theorem group_concat (values : List (String × String)) :
    group (values ++ [(name, value)]) = addValue (group values) name value := by
  rw [group, group, List.foldl_append]
  rfl

/-- No value is lost, none is added, and each keeps its name. -/
theorem entries_group_perm (values : List (String × String)) :
    (entries (group values)).Perm values := by
  have hAdd : ∀ (name value : String) (tags : List (String × List String)),
      (entries (addValue tags name value)).Perm (entries tags ++ [(name, value)]) := by
    intro name value tags
    induction tags with
    | nil => exact .refl _
    | cons tag tags ih =>
      rw [addValue_cons]
      split
      · next h =>
        subst h
        simp only [entries, List.flatMap_cons, List.map_append, List.append_assoc]
        exact List.perm_append_comm.append_left _
      · simp only [entries, List.flatMap_cons, List.append_assoc] at ih ⊢
        exact ih.append_left _
  induction values using List.reverseRecOn with
  | nil => exact .refl _
  | append_singleton values entry ih =>
    rw [group_concat]
    exact (hAdd _ _ _).trans (ih.append_right _)

/-- Each name has one group. -/
theorem nodup_names_group (values : List (String × String)) :
    ((group values).map Prod.fst).Nodup := by
  induction values using List.reverseRecOn with
  | nil => exact List.nodup_nil
  | append_singleton values entry ih =>
    rw [group_concat]
    exact nodup_keys_putEntry ih

theorem ne_nil_of_mem_group {values : List (String × String)} {tag : String × List String}
    (h : tag ∈ group values) : tag.2 ≠ [] := by
  have hAdd : ∀ (name value : String) (tags : List (String × List String)),
      tag ∈ addValue tags name value → tag ∈ tags ∨ tag.2 ≠ [] := by
    intro name value tags hMem
    induction tags with
    | nil =>
      obtain rfl := List.mem_singleton.mp hMem
      exact .inr (List.cons_ne_nil _ _)
    | cons other tags ih =>
      rw [addValue_cons] at hMem
      split at hMem
      · rcases List.mem_cons.mp hMem with rfl | hMem
        · exact .inr (by simp)
        · exact .inl (List.mem_cons_of_mem _ hMem)
      · rcases List.mem_cons.mp hMem with rfl | hMem
        · exact .inl List.mem_cons_self
        · exact (ih hMem).imp_left (List.mem_cons_of_mem _)
  induction values using List.reverseRecOn with
  | nil => cases h
  | append_singleton values entry ih =>
    rw [group_concat] at h
    exact (hAdd _ _ _ h).elim ih id

/-- Values with one new name are added to the other tags as one tag. -/
theorem foldl_addValue_of_not_mem (h : name ∉ tags.map Prod.fst) (value : String)
    (values : List String) :
    ((value :: values).map (name, ·)).foldl (fun tags entry => addValue tags entry.1 entry.2) tags =
      tags ++ [(name, value :: values)] := by
  have hMore : ∀ values done : List String,
      (values.map (name, ·)).foldl (fun tags entry => addValue tags entry.1 entry.2)
        (tags ++ [(name, done)]) = tags ++ [(name, done ++ values)] := by
    intro values
    induction values with
    | nil => simp
    | cons value values ih =>
      intro done
      rw [List.map_cons, List.foldl_cons]
      dsimp only
      rw [addValue_of_not_mem h, ih, List.append_assoc, List.singleton_append]
  have hFirst : addValue tags name value = tags ++ [(name, [value])] := by
    rw [addValue, valueOf?_eq_none_of_not_mem h, putEntry_of_not_mem h]
    rfl
  rw [List.map_cons, List.foldl_cons]
  dsimp only
  rw [hFirst, hMore, List.singleton_append]

/-- Values that are grouped already stay as they are. -/
theorem group_entries (hNames : (tags.map Prod.fst).Nodup) (hne : ∀ tag ∈ tags, tag.2 ≠ []) :
    group (entries tags) = tags := by
  induction tags using List.reverseRecOn with
  | nil => rfl
  | append_singleton tags tag ih =>
    obtain ⟨name, values⟩ := tag
    rw [List.map_append, List.nodup_append] at hNames
    have hFresh : name ∉ tags.map Prod.fst := fun hMem =>
      hNames.2.2 name hMem name (List.mem_singleton.mpr rfl) rfl
    have hTags := ih hNames.1 fun tag hMem => hne tag (List.mem_append_left _ hMem)
    obtain ⟨value, values, rfl⟩ :=
      List.exists_cons_of_ne_nil (hne (name, values) (List.mem_append_right _ (by simp)))
    rw [entries, List.flatMap_append, List.flatMap_singleton, ← entries, group, List.foldl_append,
      ← group, hTags]
    exact foldl_addValue_of_not_mem hFresh value values

end Group

/-! ### Lines -/

/-- The values that the lines of a text give. -/
def given (raw : List Char) : List (String × String) :=
  (tagBlocks (lines raw)).2.map fun (name, text) =>
    (String.ofList name, String.ofList (collapse text))

theorem tags_parse (raw : String) : (parse raw).tags = group (given raw.toList) := by
  rw [parse, tagsOf, group, given, List.foldl_map]

theorem length_tagBlocks (ls : List (List Char)) :
    (tagBlocks ls).2.length = ls.countP isTagLine := by
  induction ls with
  | nil => rfl
  | cons line ls ih =>
    rw [List.countP_cons, isTagLine_eq]
    cases hTag : tagLine? line with
    | none =>
      rw [tagBlocks_cons_of_no_tag hTag, ih]
      rfl
    | some tag =>
      obtain ⟨name, text⟩ := tag
      rw [tagBlocks_cons_of_tag hTag, List.length_cons, ih]
      rfl

theorem not_isBlank_of_mem_tagBlocks {ls : List (List Char)} :
    ∀ block ∈ (tagBlocks ls).2, ∀ c ∈ block.1, isBlank c = false := by
  induction ls with
  | nil => simp [tagBlocks]
  | cons line ls ih =>
    cases hTag : tagLine? line with
    | none =>
      rw [tagBlocks_cons_of_no_tag hTag]
      exact ih
    | some tag =>
      obtain ⟨name, text⟩ := tag
      obtain ⟨-, -, hName, -⟩ := exists_of_tagLine? hTag
      rw [tagBlocks_cons_of_tag hTag]
      exact List.forall_mem_cons.mpr ⟨hName, ih⟩

/-- A value with a name, as a comment gives it. -/
structure Writable (entry : String × String) : Prop where
  name : ∀ c ∈ entry.1.toList, isBlank c = false
  value : Collapsed entry.2.toList

/-- Tags that were read can be written: the name has no blank, and the value is collapsed. -/
theorem writable_of_mem_given {raw : List Char} {entry : String × String} (h : entry ∈ given raw) :
    Writable entry := by
  obtain ⟨⟨name, text⟩, hBlock, rfl⟩ := List.mem_map.mp h
  constructor
  · rw [String.toList_ofList]
    exact not_isBlank_of_mem_tagBlocks _ hBlock
  · rw [String.toList_ofList]
    exact collapsed_collapse text

theorem newline_not_mem_entryLine {entry : String × String} (h : Writable entry) :
    '\n' ∉ entryLine entry := by
  intro hMem
  simp only [entryLine, List.mem_cons, List.mem_append] at hMem
  rcases hMem with hMem | hMem | hMem | hMem
  · exact absurd hMem (by decide)
  · exact absurd (h.name _ hMem) (by decide)
  · exact absurd hMem (by decide)
  · exact absurd (h.value.eq_space _ hMem (by decide)) (by decide)

theorem tagLine?_of_trim {line tag : List Char} (h : trim line = '@' :: tag) :
    tagLine? line = some ((cutFirst isBlank tag).getD (tag, [])) := by
  rw [tagLine?, h]
  rfl

/-- A line with a value is read as it is written. -/
theorem tagLine?_entryLine {entry : String × String} (h : Writable entry) :
    tagLine? (entryLine entry) = some (entry.1.toList, entry.2.toList) := by
  obtain ⟨hName, hValue⟩ := h
  have hLine := trim_cons_of_not_blank (c := '@') (by decide)
    (entry.1.toList ++ ' ' :: entry.2.toList)
  by_cases hne : entry.2.toList = []
  · -- the space after the name is taken off with the blanks at the end
    have hTrim : trimEnd (entry.1.toList ++ ' ' :: entry.2.toList) = entry.1.toList := by
      rw [hne, trimEnd_append_of_blank (by decide)]
      exact trimEnd_eq_self fun c hc => hName c (List.mem_of_mem_getLast? hc)
    rw [hTrim] at hLine
    rw [entryLine, tagLine?_of_trim hLine, cutFirst_eq_none_iff.mpr hName, hne]
    rfl
  · have hTrim : trimEnd (entry.1.toList ++ ' ' :: entry.2.toList) =
        entry.1.toList ++ ' ' :: entry.2.toList := by
      refine trimEnd_eq_self fun c hc => hValue.last c ?_
      rwa [← List.singleton_append, ← List.append_assoc, List.getLast?_append_of_ne_nil _ hne] at hc
    have hCut : cutFirst isBlank (entry.1.toList ++ ' ' :: entry.2.toList) =
        some (entry.1.toList, entry.2.toList) :=
      cutFirst_eq_some_iff.mpr ⟨' ', by decide, hName, rfl⟩
    rw [hTrim] at hLine
    rw [entryLine, tagLine?_of_trim hLine, hCut]
    rfl

theorem tagBlocks_written {values : List (String × String)}
    (h : ∀ entry ∈ values, Writable entry) :
    tagBlocks (lines (values.flatMap fun entry => entryLine entry ++ ['\n'])) =
      ([], values.map fun entry => (entry.1.toList, entry.2.toList)) := by
  induction values with
  | nil => rfl
  | cons entry values ih =>
    obtain ⟨hEntry, hValues⟩ := List.forall_mem_cons.mp h
    have hLine : tagLine? (dropReturn (entryLine entry)) =
        some (entry.1.toList, entry.2.toList) := by
      rw [tagLine?, trim_dropReturn, ← tagLine?, tagLine?_entryLine hEntry]
    rw [List.flatMap_cons, List.append_assoc, List.singleton_append,
      lines_append_newline (newline_not_mem_entryLine hEntry), tagBlocks_cons_of_tag hLine,
      ih hValues, List.append_nil, List.map_cons]

/-- Tags that are written are read as they were. -/
theorem given_written {tags : List (String × List String)}
    (h : ∀ entry ∈ entries tags, Writable entry) : given (written tags).toList = entries tags := by
  rw [given, written, String.toList_ofList, tagBlocks_written h, List.map_map]
  refine (List.map_congr_left fun entry hEntry => ?_).trans (List.map_id _)
  rw [Function.comp_apply]
  dsimp only
  rw [collapse_eq_self (h entry hEntry).value, String.ofList_toList, String.ofList_toList]
  rfl

/-! ### The normal form -/

/-- Grouping loses no value and adds none. -/
theorem entries_tags_perm (raw : String) : (entries (parse raw).tags).Perm (given raw.toList) := by
  rw [tags_parse]
  exact entries_group_perm _

theorem collapsed_of_mem_tags {raw : String} {tag : String × List String}
    (hTag : tag ∈ (parse raw).tags) {value : String} (h : value ∈ tag.2) :
    Collapsed value.toList := by
  have hMem : (tag.1, value) ∈ entries (parse raw).tags :=
    List.mem_flatMap.mpr ⟨tag, hTag, List.mem_map_of_mem h⟩
  exact (writable_of_mem_given ((entries_tags_perm raw).mem_iff.mp hMem)).value

theorem collapsed_of_mem_values {raw name value : String} (h : value ∈ (parse raw).values name) :
    Collapsed value.toList := by
  rw [values] at h
  cases hValues : valueOf? name (parse raw).tags with
  | none => simp [hValues] at h
  | some found =>
    rw [hValues, Option.getD_some] at h
    exact collapsed_of_mem_tags (mem_of_valueOf? hValues) h

/-- The tags of every comment are in normal form. -/
theorem parse_normal (raw : String) : Normal (parse raw) := by
  have hNamed : ∀ tag name : String, (∀ c ∈ name.toList, isBlank c = false) →
      (parse raw).namedTag? tag name =
        valueOf? name (((parse raw).values tag).map nameAndDescription) := fun tag name hName =>
    findSome?_descriptionOf? (fun _ hValue => collapsed_of_mem_values hValue) hName
  have hTable : ∀ tag name : String, valueOf? name ((parse raw).namedTags tag) =
      valueOf? name (((parse raw).values tag).map nameAndDescription).reverse := by
    intro tag name
    rw [← valueOf?_foldl_putEntry, List.foldl_map, namedTags]
  refine ⟨?_, fun tag hMem value => collapsed_of_mem_tags hMem, ?_, ?_, ?_⟩
  · have hWritable : ∀ entry ∈ entries (parse raw).tags, Writable entry := fun entry hEntry =>
      writable_of_mem_given ((entries_tags_perm raw).mem_iff.mp hEntry)
    rw [tags_parse (written _), given_written hWritable, tags_parse raw]
    exact group_entries (nodup_names_group _) fun tag => ne_nil_of_mem_group
  · have hLength := (entries_tags_perm raw).length_eq
    rw [given, List.length_map, length_tagBlocks] at hLength
    refine Eq.trans ?_ hLength
    simp only [entries, List.length_flatMap, List.length_map]
  · intro tag name hName
    rw [hNamed tag name hName, ← isSome_valueOf?, hTable, isSome_valueOf?, isSome_valueOf?,
      List.map_reverse, List.mem_reverse]
  · intro tag name hName hOne
    rw [hNamed tag name hName, hTable, valueOf?_reverse_of_length_le_one]
    rw [List.filter_map, List.length_map]
    refine le_trans (le_of_eq (congrArg List.length ?_)) hOne
    refine List.filter_congr fun value hValue => ?_
    rw [Function.comp_apply, name_eq_leadingWord (collapsed_of_mem_values hValue),
      decide_eq_decide, ← String.toList_inj, String.toList_ofList]

end DocText

end ClassSketch
