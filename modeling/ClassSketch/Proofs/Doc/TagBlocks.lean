import ClassSketch.Proofs.Doc.StaleTags
import Mathlib.Data.List.Forall2

/-!
# Texts as blocks of tags

The lines of a text are a preamble and blocks, where each block is a line on which a tag starts with
the lines up to the next such line. Taking out stale tags is a single pass over the lines, which
remembers only whether the lines before the next tag belong to a stale one. It takes out the stale
blocks and nothing else.

What is left is joined by newlines and loses the blanks at its end, so that its lines are not
literally those that were kept. A tag is found stale by its trimmed line alone, which is why no tag
of what is left is stale.

## Main definitions

* `ParamTags.Known.Names` — the names that a member has
* `ParamTags.GivesName` — lines of parameter tags
* `ParamTags.Block`, `ParamTags.Layout` — the lines of a text, taken apart
* `ParamTags.Block.StaleAs` — blocks of stale tags

## Main results

* `ParamTags.Layout.ofLines_lines` — lines can be taken apart in one way only
* `ParamTags.sift_lines` — the single pass keeps the blocks that are not stale
* `ParamTags.strip_blocks` — what becomes of a text
-/

namespace ClassSketch

namespace ParamTags

open Text DocText

/-! ### Names -/

/-- The names that a member has, as tags give them. A name in angle brackets is that of a type
parameter, and any other one that of a parameter. -/
inductive Known.Names (known : Known) : List Char → Prop
  | typeParameter {name : String} : name ∈ known.typeParameters →
      known.Names ('<' :: (name.toList ++ ['>']))
  | parameter {name : String} : name ∈ known.parameters →
      (∀ inner, name.toList ≠ '<' :: (inner ++ ['>'])) → known.Names name.toList

theorem Known.has_iff {known : Known} {word : List Char} :
    known.has word = true ↔ known.Names word := by
  rw [Known.has]
  constructor
  · intro h
    split at h
    · next inner hAngled =>
      have hName := Known.Names.typeParameter (List.contains_iff_mem.mp h)
      rwa [String.toList_ofList, ← angled?_eq_some_iff.mp hAngled] at hName
    · next hPlain =>
      rw [← String.toList_ofList (l := word)]
      refine .parameter (List.contains_iff_mem.mp h) fun inner hAngled => ?_
      rw [String.toList_ofList] at hAngled
      cases hPlain.symm.trans (angled?_eq_some_iff.mpr hAngled)
  · intro h
    cases h with
    | typeParameter h =>
      simp only [angled?_eq_some_iff.mpr rfl, String.ofList_toList]
      exact List.contains_iff_mem.mpr h
    | @parameter name h hPlain =>
      have hNone : angled? name.toList = none :=
        Option.eq_none_iff_forall_ne_some.mpr fun inner => mt angled?_eq_some_iff.mp (hPlain inner)
      simp only [hNone, String.ofList_toList]
      exact List.contains_iff_mem.mpr h

/-- The line is the mark of a parameter tag, blanks, a word, and nothing or a blank after it. -/
def GivesName (line word : List Char) : Prop :=
  ∃ indent gap rest, line = indent ++ ("@param".toList ++ (gap ++ (word ++ rest))) ∧
    (∀ c ∈ indent, isBlank c = true) ∧ gap ≠ [] ∧ (∀ c ∈ gap, isBlank c = true) ∧
    word ≠ [] ∧ (∀ c ∈ word, isBlank c = false) ∧ (rest = [] ∨ startsBlank rest = true)

theorem tagName?_eq_some_iff {line word : List Char} :
    tagName? (trimStart line) = some word ↔ GivesName line word := by
  refine Option.bind_eq_some_iff.trans ?_
  constructor
  · rintro ⟨after, hDrop, h⟩
    split at h
    · next hBlank =>
      obtain ⟨gap, rest, rfl, hGap, hne, hWord, hRest⟩ := firstWord?_eq_some_iff.mp h
      refine ⟨line.takeWhile isBlank, gap, rest, ?_, fun c hc => List.mem_takeWhile_imp hc, ?_,
        hGap, hne, hWord, hRest⟩
      · rw [← dropWord?_eq_some_iff.mp hDrop, trimStart, List.takeWhile_append_dropWhile]
      · rintro rfl
        obtain ⟨c, word, rfl⟩ := List.exists_cons_of_ne_nil hne
        exact Bool.false_ne_true ((hWord c List.mem_cons_self).symm.trans hBlank)
    · cases h
  · rintro ⟨indent, gap, rest, rfl, hIndent, hne, hGap, h⟩
    refine ⟨gap ++ (word ++ rest), dropWord?_eq_some_iff.mpr ?_, ?_⟩
    · rw [trimStart, List.dropWhile_append_of_pos hIndent]
      exact trimStart_cons_of_not_blank (by decide) _
    · obtain ⟨c, gap, rfl⟩ := List.exists_cons_of_ne_nil hne
      have hBlank : startsBlank (c :: gap ++ (word ++ rest)) = true := hGap c List.mem_cons_self
      rw [if_pos hBlank]
      exact firstWord?_eq_some_iff.mpr ⟨c :: gap, rest, rfl, hGap, h⟩

variable {known : Known}

theorem staleName?_eq_some_iff {line word : List Char} :
    staleName? known (trimStart line) = some word ↔ GivesName line word ∧ ¬known.Names word := by
  rw [staleName?, Option.filter_eq_some_iff, tagName?_eq_some_iff, ← Known.has_iff]
  simp

/-- Only a line on which a tag starts gives a stale name. -/
theorem staleName?_eq_none {line : List Char} (h : isTagLine line = false) :
    staleName? known (trimStart line) = none := by
  refine Option.eq_none_iff_forall_ne_some.mpr fun word hWord => ?_
  obtain ⟨⟨indent, gap, rest, rfl, hIndent, -⟩, -⟩ := staleName?_eq_some_iff.mp hWord
  rw [isTagLine, trimStart, List.dropWhile_append_of_pos hIndent] at h
  cases h

/-! ### Blocks -/

/-- A line on which a tag starts, and lines after it on which none does. -/
@[ext]
structure Block where
  head : List Char
  rest : List (List Char)
  isTagLine_head : isTagLine head = true
  isTagLine_rest : ∀ line ∈ rest, isTagLine line = false

/-- A preamble, which holds no tag, and blocks. -/
@[ext]
structure Layout where
  preamble : List (List Char)
  blocks : List Block
  isTagLine_preamble : ∀ line ∈ preamble, isTagLine line = false

def Block.lines (b : Block) : List (List Char) := b.head :: b.rest

/-- A block gives a name that the member does not have. -/
def Block.StaleAs (known : Known) (b : Block) (word : List Char) : Prop :=
  GivesName b.head word ∧ ¬known.Names word

def Block.Stale (known : Known) (b : Block) : Prop := ∃ word, b.StaleAs known word

namespace Block

theorem staleAs_iff {b : Block} {word : List Char} :
    b.StaleAs known word ↔ staleName? known (trimStart b.head) = some word :=
  staleName?_eq_some_iff.symm

theorem stale_iff {b : Block} :
    b.Stale known ↔ (staleName? known (trimStart b.head)).isSome = true := by
  rw [Stale, Option.isSome_iff_exists]
  simp only [staleAs_iff]

theorem not_stale_iff {b : Block} :
    ¬b.Stale known ↔ staleName? known (trimStart b.head) = none := by
  rw [stale_iff, Option.not_isSome_iff_eq_none]

instance (known : Known) (b : Block) : Decidable (b.Stale known) :=
  decidable_of_iff _ stale_iff.symm

end Block

namespace Layout

def lines (c : Layout) : List (List Char) := c.preamble ++ c.blocks.flatMap Block.lines

/-- The preamble and the blocks that are not stale. -/
def withoutStale (known : Known) (c : Layout) : Layout :=
  { c with blocks := c.blocks.filter fun b => ¬b.Stale known }

/-- Lines, taken apart. -/
def ofLines : List (List Char) → Layout
  | [] => ⟨[], [], List.forall_mem_nil _⟩
  | line :: lines =>
    let c := ofLines lines
    if h : isTagLine line = true then
      ⟨[], ⟨line, c.preamble, h, c.isTagLine_preamble⟩ :: c.blocks, List.forall_mem_nil _⟩
    else
      ⟨line :: c.preamble, c.blocks,
        List.forall_mem_cons.mpr ⟨Bool.not_eq_true _ ▸ h, c.isTagLine_preamble⟩⟩

theorem lines_ofLines (lines : List (List Char)) : (ofLines lines).lines = lines := by
  induction lines with
  | nil => rfl
  | cons line lines ih =>
    rw [ofLines]
    split
    · exact congrArg (line :: ·) ih
    · exact congrArg (line :: ·) ih

/-- Lines without tags go to the preamble. -/
theorem ofLines_append {front : List (List Char)} (h : ∀ line ∈ front, isTagLine line = false)
    (lines : List (List Char)) :
    (ofLines (front ++ lines)).preamble = front ++ (ofLines lines).preamble ∧
      (ofLines (front ++ lines)).blocks = (ofLines lines).blocks := by
  induction front with
  | nil => exact ⟨rfl, rfl⟩
  | cons line front ih =>
    obtain ⟨hLine, hFront⟩ := List.forall_mem_cons.mp h
    obtain ⟨hPreamble, hBlocks⟩ := ih hFront
    rw [List.cons_append, ofLines, dif_neg (by simp [hLine])]
    exact ⟨congrArg (line :: ·) hPreamble, hBlocks⟩

theorem ofLines_blocks (blocks : List Block) :
    ofLines (blocks.flatMap Block.lines) = ⟨[], blocks, List.forall_mem_nil _⟩ := by
  induction blocks with
  | nil => rfl
  | cons b blocks ih =>
    obtain ⟨hPreamble, hBlocks⟩ := ofLines_append b.isTagLine_rest (blocks.flatMap Block.lines)
    rw [ih, List.append_nil] at hPreamble
    rw [ih] at hBlocks
    rw [List.flatMap_cons, Block.lines, List.cons_append, ofLines, dif_pos b.isTagLine_head]
    simp only [hPreamble, hBlocks]

/-- Lines can be taken apart in one way only. -/
theorem ofLines_lines (c : Layout) : ofLines c.lines = c := by
  obtain ⟨hPreamble, hBlocks⟩ :=
    ofLines_append c.isTagLine_preamble (c.blocks.flatMap Block.lines)
  rw [ofLines_blocks, List.append_nil] at hPreamble
  rw [ofLines_blocks] at hBlocks
  exact Layout.ext hPreamble hBlocks

end Layout

/-! ### The single pass -/

/-- The stale names that some lines give. -/
def staleNames (known : Known) (lines : List (List Char)) : List (List Char) :=
  lines.filterMap fun line => staleName? known (trimStart line)

/-- Lines without tags are kept or taken out with what is before them. -/
theorem sift_append {front : List (List Char)} (h : ∀ line ∈ front, isTagLine line = false)
    (dropping : Bool) (lines : List (List Char)) :
    sift known dropping (front ++ lines) =
      ((if dropping then [] else front) ++ (sift known dropping lines).1,
        (sift known dropping lines).2) := by
  induction front with
  | nil => rw [ite_self, List.nil_append, List.nil_append]
  | cons line front ih =>
    obtain ⟨hLine, hFront⟩ := List.forall_mem_cons.mp h
    rw [isTagLine, beq_eq_false_iff_ne] at hLine
    rw [List.cons_append, sift]
    simp only [if_neg hLine, ih hFront]
    cases dropping <;> rfl

/-- A block is kept or taken out, whatever is before it. -/
theorem sift_blocks (blocks : List Block) : ∀ dropping : Bool,
    sift known dropping (blocks.flatMap Block.lines) =
      ((blocks.filter fun b => ¬b.Stale known).flatMap Block.lines,
        blocks.filterMap fun b => staleName? known (trimStart b.head)) := by
  induction blocks with
  | nil => exact fun _ => rfl
  | cons b blocks ih =>
    intro dropping
    have hHead : (trimStart b.head).head? = some '@' := beq_iff_eq.mp b.isTagLine_head
    rw [List.flatMap_cons, Block.lines, List.cons_append, sift, List.filterMap_cons]
    simp only [if_pos hHead, sift_append b.isTagLine_rest, ih]
    cases hStale : staleName? known (trimStart b.head) with
    | none =>
      rw [List.filter_cons_of_pos (by simpa using Block.not_stale_iff.mpr hStale)]
      rfl
    | some word =>
      have hStale : b.Stale known := ⟨word, Block.staleAs_iff.mpr hStale⟩
      rw [List.filter_cons_of_neg (by simpa using hStale)]
      rfl

/-- **The single pass by blocks.** It keeps the preamble and the blocks that are not stale. -/
theorem sift_lines (c : Layout) : sift known false c.lines =
    ((c.withoutStale known).lines,
      c.blocks.filterMap fun b => staleName? known (trimStart b.head)) := by
  rw [Layout.lines, sift_append c.isTagLine_preamble, sift_blocks]
  rfl

theorem removed_sift (lines : List (List Char)) : ∀ dropping : Bool,
    (sift known dropping lines).2 = staleNames known lines := by
  induction lines with
  | nil => exact fun _ => rfl
  | cons line lines ih =>
    intro dropping
    rw [staleNames, List.filterMap_cons]
    cases hTag : isTagLine line with
    | true =>
      rw [sift]
      simp only [if_pos (beq_iff_eq.mp hTag)]
      cases staleName? known (trimStart line) with
      | none => exact ih false
      | some word => exact congrArg (word :: ·) (ih true)
    | false =>
      have hLine : ∀ l ∈ [line], isTagLine l = false := by simpa using hTag
      rw [← List.singleton_append, sift_append hLine, staleName?_eq_none hTag]
      exact ih dropping

/-! ### Whole texts -/

/-- Whether a line gives a stale name can be told from the line without blanks around it. -/
theorem staleName?_trim (known : Known) (line : List Char) :
    staleName? known (trimStart line) = staleName? known (trim line) := by
  have hTag : tagLine? (trim line) = tagLine? line := by
    rw [tagLine?, trim_trim, tagLine?]
  rw [← trimStart_trim line]
  cases h : tagLine? line with
  | some tag =>
    obtain ⟨name, text⟩ := tag
    rw [staleName?, staleName?, tagName?_eq h, tagName?_eq (hTag.trans h)]
  | none =>
    have hLine : isTagLine line = false := by rw [isTagLine_eq, h]; rfl
    have hTrim : isTagLine (trim line) = false := by rw [isTagLine_eq, hTag, h]; rfl
    rw [staleName?_eq_none hLine, staleName?_eq_none hTrim]

theorem staleNames_ignoresBlanks (known : Known) : IgnoresBlanks (staleNames known) where
  congr := by
    intro xs ys h
    have hTrim : ∀ lines,
        staleNames known lines = (lines.map trim).filterMap (staleName? known) := by
      intro lines
      rw [List.filterMap_map]
      exact List.filterMap_congr fun line _ => staleName?_trim known line
    rw [hTrim, hTrim, h]
  cons := by
    intro line h lines
    rw [staleNames, List.filterMap_cons, staleName?_trim, h]
    rfl
  concat := by
    intro line h lines
    rw [staleNames, List.filterMap_append, List.filterMap_cons, staleName?_trim, h]
    exact List.append_nil _

theorem staleNames_lines (c : Layout) : staleNames known c.lines =
    c.blocks.filterMap fun b => staleName? known (trimStart b.head) := by
  rw [← removed_sift c.lines false, sift_lines]

theorem staleNames_lines_eq_nil_iff {c : Layout} :
    staleNames known c.lines = [] ↔ ∀ b ∈ c.blocks, ¬b.Stale known := by
  rw [staleNames_lines, List.filterMap_eq_nil_iff]
  simp only [Block.not_stale_iff]

/-- The stale names are those of the stale blocks. -/
theorem forall₂_staleAs (blocks : List Block) :
    List.Forall₂ (Block.StaleAs known) (blocks.filter fun b => b.Stale known)
      (blocks.filterMap fun b => staleName? known (trimStart b.head)) := by
  induction blocks with
  | nil => exact .nil
  | cons b blocks ih =>
    rw [List.filterMap_cons]
    cases hStale : staleName? known (trimStart b.head) with
    | none =>
      rwa [List.filter_cons_of_neg (by simpa using Block.not_stale_iff.mpr hStale)]
    | some word =>
      have hWord : b.StaleAs known word := Block.staleAs_iff.mpr hStale
      have hb : b.Stale known := ⟨word, hWord⟩
      rw [List.filter_cons_of_pos (by simpa using hb)]
      exact .cons hWord ih

/-- What becomes of a text whose lines are taken apart. -/
theorem strip_eq {raw : String} {c : Layout} (hLines : c.lines = lines raw.toList) :
    strip known raw =
      ⟨if staleNames known c.lines = [] then raw
        else String.ofList (trimEnd (['\n'].intercalate (c.withoutStale known).lines)),
        (staleNames known c.lines).map String.ofList⟩ := by
  rw [strip, ← hLines, sift_lines, ← staleNames_lines]
  cases staleNames known c.lines <;> rfl

/-- Taking out stale tags leaves none. -/
theorem staleNames_strip (known : Known) (raw : String) :
    staleNames known (lines (strip known raw).text.toList) = [] := by
  rw [lines_strip (staleNames_ignoresBlanks known), ← Layout.lines_ofLines (lines raw.toList),
    sift_lines, staleNames_lines_eq_nil_iff]
  exact fun b hb => of_decide_eq_true (List.mem_filter.mp hb).2

/-- **Taking out stale tags, by blocks.** The lines of a text can be taken apart in one way. The
names taken out are those of the stale blocks, in order. A text without any stays as it is, and of
any other text the preamble and the other blocks are left, joined by newlines and without the blanks
at the end. What is left stays as it is when stale tags are taken out again. -/
theorem strip_blocks (known : Known) (raw : String) :
    let c := Layout.ofLines (lines raw.toList)
    let stripped := strip known raw
    (∀ c' : Layout, c'.lines = lines raw.toList ↔ c' = c) ∧
    List.Forall₂ (fun b name => b.StaleAs known name.toList)
      (c.blocks.filter fun b => b.Stale known) stripped.removed ∧
    ((∀ b ∈ c.blocks, ¬b.Stale known) → stripped.text = raw) ∧
    ((∃ b ∈ c.blocks, b.Stale known) → stripped.text =
      String.ofList (trimEnd (['\n'].intercalate (c.withoutStale known).lines))) ∧
    strip known stripped.text = ⟨stripped.text, []⟩ := by
  intro c stripped
  have hLines : c.lines = lines raw.toList := Layout.lines_ofLines _
  have hStripped : stripped = ⟨_, _⟩ := strip_eq hLines
  have hAgain : strip known stripped.text = ⟨_, _⟩ := strip_eq (Layout.lines_ofLines _)
  rw [Layout.lines_ofLines, staleNames_strip] at hAgain
  refine ⟨fun c' => ?_, ?_, fun hFresh => ?_, ?_, hAgain⟩
  · constructor
    · intro h
      rw [← Layout.ofLines_lines c', h]
    · rintro rfl
      exact hLines
  · rw [hStripped, List.forall₂_map_right_iff, staleNames_lines]
    simp only [String.toList_ofList]
    exact forall₂_staleAs c.blocks
  · rw [hStripped, if_pos (staleNames_lines_eq_nil_iff.mpr hFresh)]
  · rintro ⟨b, hb, hStale⟩
    rw [hStripped, if_neg fun hNone => staleNames_lines_eq_nil_iff.mp hNone b hb hStale]

/-- Of two blocks the second is stale. Its lines are taken out, and with them the blanks before
them. -/
theorem strip_blocks_ghost :
    let known : Known := ⟨["size"], ["T"]⟩
    let raw := "Fills.\r\n @param <T> items \n@param\tghost\r\n  none\n"
    let c := Layout.ofLines (lines raw.toList)
    c.preamble = ["Fills.".toList] ∧
      c.blocks.map Block.lines = [[" @param <T> items ".toList],
        ["@param\tghost".toList, "  none".toList]] ∧
      (∃ b ∈ c.blocks, b.Stale known) ∧
      strip known raw = ⟨"Fills.\n @param <T> items", ["ghost"]⟩ ∧
      strip known "Fills.\n @param <T> items" = ⟨"Fills.\n @param <T> items", []⟩ := by
  intro known raw c
  have hStripped : strip known raw = ⟨"Fills.\n @param <T> items", ["ghost"]⟩ := by decide +kernel
  have hStale : ∃ b ∈ c.blocks, b.Stale known := by decide +kernel
  obtain ⟨-, -, -, -, hAgain⟩ := strip_blocks known raw
  rw [hStripped] at hAgain
  exact ⟨by decide +kernel, by decide +kernel, hStale, hStripped, hAgain⟩

end ParamTags

end ClassSketch
