import ClassSketch.Proofs.Doc.TagBlocks
import ClassSketch.Proofs.Text.Solid

/-!
# Dividing a comment

A comment is read three times: for its title, for its body and for its tags. The title is a sentence
at the start of the text, the body is what follows it, and the tags are read off blocks of lines. A
text is divided by them if whatever is not blank in it is in the title, in the body or in one of the
blocks, and in only one of these.

## What a tag is

The three passes ask different questions. For the tags a line counts if its first character that is
not blank is the mark. The title and the body end at a line on which a letter in lower case follows
the mark, so a line such as `@1` is in a block as well as in what comes before it. And where the
mark is the first character after the title there is no body, even if it stands on the line of the
title and starts no block. `Regular` says that neither happens, and a text that is not regular is
not divided.

## Main definitions

* `DocText.Placed` — where the title of a text is
* `DocText.bodyAfter` — the body, by the text after the title
* `DocText.blocks`, `DocText.Tagged` — the blocks of a text, and the tags that are read off them
* `DocText.Divides`, `DocText.Regular` — comments that divide a text, and the texts they divide

## Main results

* `DocText.find?_titleOf` — the title is at the start of the text
* `DocText.trimEnd_beforeTag`, `DocText.bodyOf_eq` — the body, by the lines after the title
* `DocText.tagged_parse` — the tags, by the blocks of the text
* `DocText.solid_linesUpTo_title`, `DocText.solid_linesUpTo_body` — the text before the tags
* `DocText.parse_divides` — which texts are divided
-/

namespace ClassSketch

namespace DocText

open Text ParamTags

variable {c : Char} {s t after lead : List Char}

/-! ### Where the title is -/

/-- A text is followed by something in another one, and only blanks are before it. -/
def Leads (t s : List Char) : Prop :=
  ∃ lead after, s = lead ++ (t ++ after) ∧ ∀ c ∈ lead, isBlank c = true

theorem Leads.trans {u : List Char} (h : Leads t s) (h' : Leads s u) : Leads t u := by
  obtain ⟨lead, after, rfl, hLead⟩ := h
  obtain ⟨lead', after', rfl, hLead'⟩ := h'
  refine ⟨lead' ++ lead, after ++ after', by simp, fun c hc => ?_⟩
  exact (List.mem_append.mp hc).elim (hLead' c) (hLead c)

theorem leads_of_append (h : t ++ after = s) : Leads t s :=
  ⟨[], after, h.symm, List.forall_mem_nil _⟩

theorem leads_trim (s : List Char) : Leads (trim s) s := by
  obtain ⟨blanks, -, hEnd⟩ := exists_trimEnd_append (trimStart s)
  refine ⟨s.takeWhile isBlank, blanks, ?_, fun c hc => List.mem_takeWhile_imp hc⟩
  rw [trim, ← hEnd, trimStart, List.takeWhile_append_dropWhile]

theorem exists_before_append (start : List Char → Bool) (s : List Char) :
    ∃ after, before start s ++ after = s := by
  induction s with
  | nil => exact ⟨[], rfl⟩
  | cons c s ih =>
    rw [before]
    split
    · exact ⟨c :: s, rfl⟩
    · obtain ⟨after, hAfter⟩ := ih
      exact ⟨after, congrArg (c :: ·) hAfter⟩

theorem leads_before (start : List Char → Bool) (s : List Char) : Leads (before start s) s :=
  leads_of_append (exists_before_append start s).choose_spec

theorem exists_beforeTag_append (whole : Bool) (s : List Char) :
    ∃ after, beforeTag whole s ++ after = s := by
  induction s generalizing whole with
  | nil => exact ⟨[], rfl⟩
  | cons c s ih =>
    rw [beforeTag]
    split
    · exact ⟨c :: s, rfl⟩
    · obtain ⟨after, hAfter⟩ := ih (c == '\n')
      exact ⟨after, congrArg (c :: ·) hAfter⟩

theorem leads_beforeTag (whole : Bool) (s : List Char) : Leads (beforeTag whole s) s :=
  leads_of_append (exists_beforeTag_append whole s).choose_spec

theorem leads_first (s : List Char) : Leads (Sentence.first s) s :=
  leads_of_append (List.take_append_drop _ s)

/-- The title is in what is left after each cut. What is cut at a tag is trimmed. -/
theorem exists_leads_titleOf (raw : List Char) : ∃ paragraph opening,
    trimStart opening = opening ∧ Leads (titleOf raw) (beforeTag true opening) ∧
      Leads (titleOf raw) (before startsBlankLine paragraph) ∧
      Leads (titleOf raw) (before startsParagraph raw) := by
  have hTags : Leads (titleOf raw) (beforeTag true _) :=
    ((leads_trim _).trans (leads_first _)).trans (leads_trim _)
  have hOpening : Leads (titleOf raw) (before startsBlankLine _) :=
    (hTags.trans (leads_beforeTag true _)).trans (leads_trim _)
  have hParagraph : Leads (titleOf raw) (before startsParagraph raw) :=
    (hOpening.trans (leads_before startsBlankLine _)).trans (leads_trim _)
  exact ⟨_, _, trimStart_trim _, hTags, hOpening, hParagraph⟩

/-- Each step towards the title takes blanks off the start, or something off the end. -/
theorem leads_titleOf (raw : List Char) : Leads (titleOf raw) raw := by
  obtain ⟨-, -, -, -, -, hParagraph⟩ := exists_leads_titleOf raw
  exact hParagraph.trans (leads_before startsParagraph raw)

theorem trim_titleOf (raw : List Char) : trim (titleOf raw) = titleOf raw := trim_trim _

theorem trimStart_titleOf (raw : List Char) : trimStart (titleOf raw) = titleOf raw := by
  rw [← trim_titleOf, trimStart_trim]

/-- A text that starts with no blank is found behind blanks. -/
theorem find?_of_blanks (hLead : ∀ d ∈ lead, isBlank d = true) (hc : isBlank c = false)
    (t after : List Char) : find? (c :: t) (lead ++ (c :: t ++ after)) = some (lead, after) := by
  induction lead with
  | nil =>
    have hDrop : dropWord? (c :: t) (c :: (t ++ after)) = some after :=
      dropWord?_eq_some_iff.mpr rfl
    rw [List.nil_append, List.cons_append, find?, hDrop]
  | cons d lead ih =>
    obtain ⟨hd, hLead⟩ := List.forall_mem_cons.mp hLead
    have hne : c ≠ d := by
      rintro rfl
      rw [hc] at hd
      cases hd
    rw [List.cons_append, find?, dropWord?, if_neg hne, ih hLead]
    rfl

/-- The title of a text, what is before it and what is after it. -/
theorem find?_titleOf (raw : List Char) : ∃ lead after,
    raw = lead ++ (titleOf raw ++ after) ∧ (∀ c ∈ lead, isBlank c = true) ∧
      (titleOf raw = [] → lead = []) ∧ find? (titleOf raw) raw = some (lead, after) := by
  obtain ⟨lead, after, hRaw, hLead⟩ := leads_titleOf raw
  have hTrim := trim_titleOf raw
  cases hTitle : titleOf raw with
  | nil =>
    refine ⟨[], raw, rfl, List.forall_mem_nil _, fun _ => rfl, ?_⟩
    cases raw <;> rfl
  | cons c t =>
    rw [hTitle] at hRaw hTrim
    have hc : isBlank c = false := by
      have hStart := trimStart_trim (c :: t)
      rw [hTrim] at hStart
      exact not_blank_of_trimStart hStart
    have hFind := find?_of_blanks hLead hc t after
    rw [← hRaw] at hFind
    exact ⟨lead, after, hRaw, hLead, fun h => absurd h (List.cons_ne_nil c t), hFind⟩

/-! ### The text before a tag -/

/-- A condition on the first characters of a text that can be told from its first line. -/
structure Marks (q : List Char → Bool) : Prop where
  nil : q [] = false
  line : ∀ {line : List Char}, line ≠ [] → ∀ rest, q (line ++ '\n' :: rest) = q line

theorem marks_sign : Marks fun s => s.head? == some '@' where
  nil := rfl
  line := by
    intro line h rest
    obtain ⟨c, line, rfl⟩ := List.exists_cons_of_ne_nil h
    rfl

theorem startsTag_cons (c d : Char) (s : List Char) :
    startsTag (c :: d :: s) = (c == '@' && ('a' ≤ d && d ≤ 'z')) := by
  by_cases hc : c = '@'
  · subst hc
    rfl
  · simp [startsTag, hc]

theorem startsTag_singleton (c : Char) : startsTag [c] = false := by simp [startsTag]

theorem startsTag_eq_true_iff : startsTag s = true ↔
    ∃ d more, s = '@' :: d :: more ∧ 'a' ≤ d ∧ d ≤ 'z' := by
  constructor
  · intro h
    match s with
    | [] => cases h
    | [c] =>
      rw [startsTag_singleton] at h
      cases h
    | c :: d :: more =>
      rw [startsTag_cons] at h
      obtain ⟨hc, hd⟩ : c = '@' ∧ 'a' ≤ d ∧ d ≤ 'z' := by simpa using h
      exact ⟨d, more, by rw [hc], hd⟩
  · rintro ⟨d, more, rfl, hd⟩
    simpa [startsTag_cons] using hd

theorem head?_of_startsTag (h : startsTag s = true) : s.head? = some '@' := by
  obtain ⟨d, more, rfl, -⟩ := startsTag_eq_true_iff.mp h
  rfl

theorem marks_startsTag : Marks startsTag where
  nil := rfl
  line := by
    intro line h rest
    match line with
    | [c] =>
      have hNewline : ('a' ≤ '\n' && '\n' ≤ 'z') = false := by decide
      rw [List.singleton_append, startsTag_cons, startsTag_singleton, hNewline, Bool.and_false]
    | c :: d :: line => rw [List.cons_append, List.cons_append, startsTag_cons, startsTag_cons]

/-- Whether a line satisfies a condition behind its blanks. -/
def behindBlanks (q : List Char → Bool) (line : List Char) : Bool := q (trimStart line)

/-- Whether a line starts with the mark and the first letter of a tag. -/
def isLowercaseTag : List Char → Bool := behindBlanks startsTag

theorem isTagLine_of_isLowercaseTag {line : List Char} (h : isLowercaseTag line = true) :
    isTagLine line = true :=
  beq_iff_eq.mpr (head?_of_startsTag h)

variable {q : List Char → Bool} {first : List Char} {others : List (List Char)}

/-- What is at the start of a text, behind blanks, is on its first line, unless that is blank. -/
theorem Marks.behindBlanks_eq (hq : Marks q) (h : splitOn '\n' s = first :: others)
    (hFirst : trimStart first ≠ []) : behindBlanks q s = behindBlanks q first := by
  rcases splitOn_eq_cons h with ⟨-, rfl⟩ | ⟨rest, rfl, -⟩
  · rfl
  · have hTrim : trimStart (first ++ '\n' :: rest) = trimStart first ++ '\n' :: rest := by
      rw [trimStart, List.dropWhile_append, if_neg (by simpa [trimStart] using hFirst), trimStart]
    rw [behindBlanks, hTrim, hq.line hFirst, behindBlanks]

/-- A line that is marked is not blank, so it marks the text that starts with it. -/
theorem Marks.of_first (hq : Marks q) (h : splitOn '\n' s = first :: others)
    (hFirst : behindBlanks q first = true) : behindBlanks q s = true := by
  rw [hq.behindBlanks_eq h, hFirst]
  intro hNil
  rw [behindBlanks, hNil, hq.nil] at hFirst
  cases hFirst

/-- A text that is marked has the mark on its first line, or that line is blank. -/
theorem Marks.first_of_text (hq : Marks q) (h : splitOn '\n' s = first :: others)
    (hs : behindBlanks q s = true) (hFirst : behindBlanks q first = false) :
    trimStart first = [] := by
  by_contra hne
  rw [hq.behindBlanks_eq h hne, hFirst] at hs
  cases hs

/-- Where a mark is the first thing in a text, the lines before the one with the mark are blank. -/
theorem Marks.solid_linesUpTo (hq : Marks q) (lines : List (List Char)) :
    ∀ {s : List Char}, splitOn '\n' s = lines → behindBlanks q s = true →
      (linesUpTo (behindBlanks q) true lines).flatMap solid = [] := by
  induction lines with
  | nil => exact fun _ _ => rfl
  | cons first others ih =>
    intro s hs h
    cases hFirst : behindBlanks q first with
    | true =>
      rw [linesUpTo_of_stop hFirst]
      rfl
    | false =>
      have hBlank := hq.first_of_text hs h hFirst
      rw [linesUpTo_of_not_stop hFirst, List.flatMap_cons, ← solid_trimStart, hBlank]
      rcases splitOn_eq_cons hs with ⟨rfl, -⟩ | ⟨rest, rfl, hRest⟩
      · rfl
      · refine ih hRest ?_
        rw [behindBlanks, trimStart, List.dropWhile_append,
          if_pos (by simpa [trimStart] using hBlank), ← trimStart,
          trimStart_cons_of_blank (by decide)] at h
        exact h

/-! ### The body -/

theorem beforeTag_of_not_startsTag (h : behindBlanks startsTag s = false) (whole : Bool) :
    beforeTag whole s = beforeTag false s := by
  cases s with
  | nil => rfl
  | cons c s =>
    rw [behindBlanks] at h
    rw [beforeTag, beforeTag, h, Bool.and_false, Bool.false_and]

theorem beforeTag_cons (c : Char) (s : List Char) :
    beforeTag false (c :: s) = c :: beforeTag (c == '\n') s := rfl

/-- A newline before joined lines is an empty line before them, or a blank at the end. -/
theorem trimEnd_newline_intercalate (lines : List (List Char)) :
    trimEnd ('\n' :: ['\n'].intercalate lines) = trimEnd (['\n'].intercalate ([] :: lines)) := by
  cases lines with
  | nil => rfl
  | cons line lines => rw [List.intercalate_cons_cons, List.nil_append, List.singleton_append]

theorem intercalate_cons (c : Char) (line : List Char) (lines : List (List Char)) :
    ['\n'].intercalate ((c :: line) :: lines) = c :: ['\n'].intercalate (line :: lines) := by
  cases lines with
  | nil => simp
  | cons next lines =>
    rw [List.intercalate_cons_cons, List.intercalate_cons_cons, List.cons_append, List.cons_append]

/-- The text before the first line with a tag is the lines before that line, up to blanks at the
end. -/
theorem trimEnd_beforeTag (s : List Char) : ∀ whole : Bool, trimEnd (beforeTag whole s) =
    trimEnd (['\n'].intercalate (linesUpTo isLowercaseTag whole (splitOn '\n' s))) := by
  induction s with
  | nil =>
    intro whole
    cases whole <;> rfl
  | cons c s ih =>
    have hRest : trimEnd (beforeTag false (c :: s)) =
        trimEnd (['\n'].intercalate (linesUpTo isLowercaseTag false (splitOn '\n' (c :: s)))) := by
      rw [beforeTag_cons]
      by_cases hc : c = '\n'
      · subst hc
        rw [splitOn_cons_self, linesUpTo_cons, ← trimEnd_newline_intercalate]
        exact trimEnd_append_congr (ih true) ['\n']
      · obtain ⟨first, others, hs⟩ := List.exists_cons_of_ne_nil (splitOn_ne_nil '\n' s)
        have ih := ih false
        rw [hs, linesUpTo_cons] at ih
        rw [splitOn_cons_of_ne hc hs, linesUpTo_cons, intercalate_cons,
          beq_eq_false_iff_ne.mpr hc]
        exact trimEnd_append_congr ih [c]
    intro whole
    cases whole with
    | false => exact hRest
    | true =>
      cases hTag : behindBlanks startsTag (c :: s) with
      | true =>
        have hSolid := marks_startsTag.solid_linesUpTo _ rfl hTag
        rw [← solid_intercalate] at hSolid
        rw [behindBlanks] at hTag
        rw [beforeTag, hTag, Bool.true_and, if_pos rfl, isLowercaseTag,
          trimEnd_eq_nil_of_solid hSolid]
        rfl
      | false =>
        obtain ⟨first, others, hs⟩ := List.exists_cons_of_ne_nil (splitOn_ne_nil '\n' (c :: s))
        have hFirst : isLowercaseTag first = false := by
          by_contra hFirst
          rw [marks_startsTag.of_first hs (by simpa [isLowercaseTag] using hFirst)] at hTag
          cases hTag
        rw [beforeTag_of_not_startsTag hTag, hRest, hs, linesUpTo_of_not_stop hFirst,
          linesUpTo_of_not_stop hFirst]

/-- Blanks before a text that does not start with a tag are no part of what is before its tags. -/
theorem trim_beforeTag_blanks {blanks : List Char} (hBlanks : ∀ c ∈ blanks, isBlank c = true)
    (h : behindBlanks startsTag s = false) :
    ∀ whole : Bool, trim (beforeTag whole (blanks ++ s)) = trim (beforeTag false s) := by
  induction blanks with
  | nil => exact fun whole => congrArg trim (beforeTag_of_not_startsTag h whole)
  | cons c blanks ih =>
    intro whole
    obtain ⟨hc, hBlanks⟩ := List.forall_mem_cons.mp hBlanks
    have hTag : behindBlanks startsTag (c :: blanks ++ s) = false := by
      rw [behindBlanks, trimStart, List.dropWhile_append_of_pos (by simpa [hc] using hBlanks)]
      exact h
    rw [beforeTag_of_not_startsTag hTag, List.cons_append, beforeTag_cons, trim_cons_of_blank hc,
      ih hBlanks]

theorem not_letter_of_blank (h : isBlank c = true) : ('a' ≤ c && c ≤ 'z') = false := by
  by_contra hLetter
  simp only [Bool.not_eq_false, Bool.and_eq_true, decide_eq_true_eq, Char.le_def,
    UInt32.le_iff_toNat_le] at hLetter
  simp only [isBlank, Bool.or_eq_true, Bool.and_eq_true, decide_eq_true_eq, beq_iff_eq] at h
  have ha : ('a' : Char).val.toNat = 97 := rfl
  have hz : ('z' : Char).val.toNat = 122 := rfl
  have hc : c.val.toNat = c.toNat := rfl
  omega

theorem behindBlanks_startsTag_append {blanks : List Char}
    (hBlanks : ∀ c ∈ blanks, isBlank c = true) (s : List Char) :
    behindBlanks startsTag (s ++ blanks) = behindBlanks startsTag s := by
  rw [behindBlanks, behindBlanks, trimStart, List.dropWhile_append, ← trimStart, ← trimStart]
  cases trimStart s with
  | nil =>
    rw [trimStart, List.dropWhile_eq_nil_iff.mpr hBlanks]
    rfl
  | cons c t =>
    rw [if_neg (by simp), List.cons_append]
    cases t with
    | cons d t => rw [List.cons_append, startsTag_cons, startsTag_cons]
    | nil =>
      cases blanks with
      | nil => rfl
      | cons d blanks =>
        have hLetter := not_letter_of_blank (hBlanks d List.mem_cons_self)
        rw [List.nil_append, startsTag_cons, startsTag_singleton, hLetter, Bool.and_false]

/-- Blanks after a text are at the end of what is before its tags, if they are part of it. -/
theorem trimEnd_beforeTag_blanks {blanks : List Char} (hBlanks : ∀ c ∈ blanks, isBlank c = true)
    (s : List Char) : ∀ whole : Bool,
      trimEnd (beforeTag whole (s ++ blanks)) = trimEnd (beforeTag whole s) := by
  induction s with
  | nil =>
    intro whole
    obtain ⟨after, hFront⟩ := exists_beforeTag_append whole blanks
    have hAll : ∀ c ∈ beforeTag whole blanks, isBlank c = true := fun c hc =>
      hBlanks c (hFront ▸ List.mem_append_left after hc)
    exact trimEnd_append_blanks hAll []
  | cons c s ih =>
    intro whole
    have hTag : startsTag (trimStart (c :: (s ++ blanks))) = startsTag (trimStart (c :: s)) :=
      behindBlanks_startsTag_append hBlanks (c :: s)
    rw [List.cons_append, beforeTag, beforeTag, hTag]
    split
    · rfl
    · exact trimEnd_append_congr (ih _) [c]

/-- The lines after a title up to one with a tag in lower case, and nothing if the first character
after the title is the mark of a tag. -/
def bodyAfter (whole : Bool) (after : List Char) : List Char :=
  if (trimStart after).head? = some '@' then []
  else trim (['\n'].intercalate (linesUpTo isLowercaseTag whole (splitOn '\n' after)))

/-- The body does not depend on whether a tag may be on the line of the title: if there is one, the
mark is the first character after the title. -/
theorem bodyOf_eq {raw title : List Char} (h : find? title raw = some (lead, after))
    (whole : Bool) : bodyOf raw title = bodyAfter whole after := by
  rw [bodyOf, h, bodyAfter]
  simp only [head?_trim]
  split
  · rfl
  · next hSign =>
    have hNone : ∀ {s : List Char}, (trimStart s).head? = (trimStart after).head? →
        behindBlanks startsTag s = false := fun hHead => by
      by_contra hTag
      exact hSign (hHead ▸ head?_of_startsTag (by simpa [behindBlanks] using hTag))
    have hStart : trimStart (trimStart after) = trimStart after :=
      List.dropWhile_idempotent _ _
    obtain ⟨blanks, hBlanks, hEnd⟩ := exists_trimEnd_append (trimStart after)
    have hLead : ∀ c ∈ after.takeWhile isBlank, isBlank c = true := fun c hc =>
      List.mem_takeWhile_imp hc
    have hAfter : after.takeWhile isBlank ++ trimStart after = after :=
      List.takeWhile_append_dropWhile
    calc cutTags (trim after)
      _ = trim (beforeTag false (trim after)) := by
        rw [cutTags, beforeTag_of_not_startsTag (hNone (by rw [trimStart_trim, head?_trim]))]
      _ = trim (beforeTag false (trimStart after)) := by
        conv_rhs => rw [hEnd]
        exact (trim_congr (trimEnd_beforeTag_blanks hBlanks _ false)).symm
      _ = trim (beforeTag whole after) := by
        conv_rhs => rw [← hAfter]
        exact (trim_beforeTag_blanks hLead (hNone (by rw [hStart])) whole).symm
      _ = trim (['\n'].intercalate (linesUpTo isLowercaseTag whole (splitOn '\n' after))) :=
        trim_congr (trimEnd_beforeTag after whole)

/-! ### The tags -/

/-- The blocks of the tags of a text. -/
def blocks (raw : List Char) : List Block := (Layout.ofLines (Text.lines raw)).blocks

/-- An entry has the name that follows the mark on the first line of a block, and a value of what
follows the name. -/
def Gives (b : Block) (entry : String × String) : Prop :=
  ∃ name rest, trimStart b.head = '@' :: (name ++ rest) ∧ (∀ c ∈ name, isBlank c = false) ∧
    (rest = [] ∨ startsBlank rest = true) ∧ entry.1 = String.ofList name ∧
    solid entry.2.toList = solid rest ++ b.rest.flatMap solid

/-- The tags are the entries of the blocks, grouped by their names. -/
def Tagged (raw : List Char) (d : DocText) : Prop :=
  ∃ entries, List.Forall₂ Gives (blocks raw) entries ∧
    d.tags.map Prod.fst = (entries.map Prod.fst).eraseDups ∧
    ∀ name, d.values name = (entries.filter fun entry => entry.1 = name).map Prod.snd

theorem solid_squeeze (s : List Char) : solid (squeeze s) = solid s := by
  induction s with
  | nil => rfl
  | cons c s ih =>
    rw [squeeze]
    cases hc : isBlank c with
    | true =>
      rw [if_pos rfl, solid_cons_of_blank hc]
      split
      · exact ih
      · rw [solid_cons_of_blank (by decide), ih]
    | false => rw [if_neg Bool.false_ne_true, solid_cons_of_not_blank hc, ih,
        solid_cons_of_not_blank hc]

theorem solid_collapse (s : List Char) : solid (collapse s) = solid s := by
  rw [collapse, solid_squeeze, solid_trim]

/-- A line with a tag is the mark, the name of the tag and its text. -/
theorem solid_of_tagLine? {line name text : List Char} (h : tagLine? line = some (name, text)) :
    solid line = '@' :: (name ++ solid text) := by
  rw [tagLine?] at h
  split at h
  · next tag hTag =>
    rw [← solid_trim, hTag, solid_cons_of_not_blank (by decide)]
    cases hCut : cutFirst isBlank tag with
    | none =>
      rw [hCut] at h
      cases h
      rw [solid_of_forall (cutFirst_eq_none_iff.mp hCut), solid_nil, List.append_nil]
    | some parts =>
      rw [hCut] at h
      cases h
      obtain ⟨c, hc, hName, rfl⟩ := cutFirst_eq_some_iff.mp hCut
      rw [solid_append, solid_of_forall hName, solid_cons_of_blank hc]
  · cases h

/-- The blocks of lines, and what is read off them. -/
theorem tagBlocks_ofLines (lines : List (List Char)) :
    solid (tagBlocks lines).1 = (Layout.ofLines lines).preamble.flatMap solid ∧
      List.Forall₂
        (fun b block => Gives b (String.ofList block.1, String.ofList (collapse block.2)))
        (Layout.ofLines lines).blocks (tagBlocks lines).2 := by
  induction lines with
  | nil => exact ⟨rfl, .nil⟩
  | cons line lines ih =>
    obtain ⟨hContinuation, hBlocks⟩ := ih
    cases hTag : tagLine? line with
    | none =>
      have hLine : isTagLine line = false := by rw [isTagLine_eq, hTag]; rfl
      rw [tagBlocks_cons_of_no_tag hTag, Layout.ofLines, dif_neg (by simp [hLine])]
      refine ⟨?_, hBlocks⟩
      rw [List.cons_append, solid_cons_of_blank (by decide), solid_append, solid_trim,
        hContinuation]
      rfl
    | some tag =>
      obtain ⟨name, text⟩ := tag
      have hLine : isTagLine line = true := by rw [isTagLine_eq, hTag]; rfl
      rw [tagBlocks_cons_of_tag hTag, Layout.ofLines, dif_pos hLine]
      refine ⟨rfl, .cons ?_ hBlocks⟩
      obtain ⟨rest, hHead, hName, hRest, -⟩ := exists_of_tagLine? hTag
      refine ⟨name, rest, hHead, hName, hRest, rfl, ?_⟩
      have hSolid := solid_of_tagLine? hTag
      rw [← solid_trimStart, hHead, solid_cons_of_not_blank (by decide), solid_append,
        solid_of_forall hName, List.cons_inj_right, List.append_cancel_left_eq] at hSolid
      rw [String.toList_ofList, solid_collapse, solid_append, hContinuation, hSolid]

/-- Tags are read off the blocks. -/
theorem tagged_parse (raw : String) : Tagged raw.toList (parse raw) := by
  refine ⟨(tagBlocks (Text.lines raw.toList)).2.map fun block =>
    (String.ofList block.1, String.ofList (collapse block.2)), ?_, ?_, fun name => ?_⟩
  · exact List.forall₂_map_right_iff.mpr (tagBlocks_ofLines _).2
  · rw [List.map_map]
    exact map_fst_foldl_putEntry (fun block : List Char × List Char => String.ofList block.1)
      (fun tags block =>
        (valueOf? (String.ofList block.1) tags).getD [] ++ [String.ofList (collapse block.2)]) _
  · rw [List.filter_map, List.map_map]
    exact values_foldl_addValue name _ []

/-! ### The text before the tags -/

theorem preamble_ofLines (lines : List (List Char)) :
    (Layout.ofLines lines).preamble = linesUpTo isTagLine true lines := by
  induction lines with
  | nil => rfl
  | cons line lines ih =>
    rw [Layout.ofLines]
    split
    · next h => exact (linesUpTo_of_stop h lines).symm
    · next h =>
      rw [linesUpTo_of_not_stop (by simpa using h), ← ih]

/-- A text is the lines before its tags, and the blocks of its tags. -/
theorem solid_eq_append_blocks (raw : List Char) :
    solid raw = (linesUpTo isTagLine true (Text.lines raw)).flatMap solid ++
      (blocks raw).flatMap fun b => b.lines.flatMap solid := by
  have hLines := Layout.lines_ofLines (Text.lines raw)
  rw [Layout.lines] at hLines
  rw [← preamble_ofLines, ← solid_lines]
  conv_lhs => rw [← hLines, List.flatMap_append, List.flatMap_assoc]
  rfl

theorem isTagLine_trim (line : List Char) : isTagLine (trim line) = isTagLine line := by
  rw [isTagLine, trimStart_trim, head?_trim, isTagLine]

theorem isTagLine_of_trim_eq_nil {line : List Char} (h : trim line = []) :
    isTagLine line = false := by
  rw [← isTagLine_trim, h]
  rfl

theorem solid_of_isTagLine {line : List Char} (h : isTagLine line = true) : solid line ≠ [] := by
  intro hNil
  rw [isTagLine_of_trim_eq_nil (trim_eq_nil_of_solid hNil)] at h
  cases h

theorem any_isTagLine_map_trim (lines : List (List Char)) :
    (lines.map trim).any isTagLine = lines.any isTagLine := by
  rw [List.any_map]
  exact congrArg lines.any (funext isTagLine_trim)

theorem any_isTagLine_ignoresBlanks : IgnoresBlanks fun lines => lines.any isTagLine where
  congr h := by rw [← any_isTagLine_map_trim, h, any_isTagLine_map_trim]
  cons := by
    intro line h lines
    rw [List.any_cons, isTagLine_of_trim_eq_nil h, Bool.false_or]
  concat := by
    intro line h lines
    rw [List.any_append, List.any_cons, isTagLine_of_trim_eq_nil h, List.any_nil, Bool.or_false,
      Bool.or_false]

theorem solid_linesUpTo_map_trim (lines : List (List Char)) :
    (linesUpTo isTagLine true (lines.map trim)).flatMap solid =
      (linesUpTo isTagLine true lines).flatMap solid := by
  induction lines with
  | nil => rfl
  | cons line lines ih =>
    rw [List.map_cons]
    cases hLine : isTagLine line with
    | true => rw [linesUpTo_of_stop hLine, linesUpTo_of_stop (by rwa [isTagLine_trim])]
    | false =>
      rw [linesUpTo_of_not_stop hLine, linesUpTo_of_not_stop (by rwa [isTagLine_trim]),
        List.flatMap_cons, List.flatMap_cons, ih, solid_trim]

theorem solid_linesUpTo_ignoresBlanks :
    IgnoresBlanks fun lines => (linesUpTo isTagLine true lines).flatMap solid where
  congr h := by rw [← solid_linesUpTo_map_trim, h, solid_linesUpTo_map_trim]
  cons := by
    intro line h lines
    rw [linesUpTo_of_not_stop (isTagLine_of_trim_eq_nil h), List.flatMap_cons, ← solid_trim, h]
    rfl
  concat := by
    intro line h lines
    induction lines with
    | nil =>
      rw [List.nil_append, linesUpTo_of_not_stop (isTagLine_of_trim_eq_nil h), List.flatMap_cons,
        ← solid_trim, h]
      rfl
    | cons first lines ih =>
      rw [List.cons_append]
      cases hFirst : isTagLine first with
      | true => rw [linesUpTo_of_stop hFirst, linesUpTo_of_stop hFirst]
      | false =>
        rw [linesUpTo_of_not_stop hFirst, linesUpTo_of_not_stop hFirst, List.flatMap_cons,
          List.flatMap_cons, ih]

/-- What a line with a character that is not blank goes on with does not make it a tag. -/
theorem isTagLine_append (hc : isBlank c = false) (s t : List Char) :
    isTagLine (s ++ [c] ++ t) = isTagLine (s ++ [c]) := by
  have hne : trimStart (s ++ [c]) ≠ [] := by
    intro h
    have hBlank := List.dropWhile_eq_nil_iff.mp h c (by simp)
    rw [hc] at hBlank
    cases hBlank
  rw [isTagLine, isTagLine, trimStart, List.dropWhile_append, ← trimStart,
    if_neg (by simpa using hne), List.head?_append_of_ne_nil _ hne]

/-- The last line of a text that does not end with a blank. -/
theorem exists_splitOn_of_trim (hs : trim s = s) (hne : s ≠ []) (lead : List Char) :
    ∃ front last c, splitOn '\n' (lead ++ s) = front ++ [last ++ [c]] ∧ isBlank c = false := by
  have hStart : trimStart s = s := by rw [← hs, trimStart_trim]
  rw [trim, hStart] at hs
  cases s using List.reverseRecOn with
  | nil => exact absurd rfl hne
  | append_singleton s c =>
    have hc := not_blank_of_trimEnd hs
    have hNewline : c ≠ '\n' := by
      rintro rfl
      cases hc
    obtain ⟨front, last, -, hLast⟩ := splitOn_append_of_ne hNewline (lead ++ s)
    rw [List.append_assoc] at hLast
    exact ⟨front, last, c, hLast, hc⟩

/-- If there is a tag on some lines, what is before it is less than all of them, even if the last
of them goes on. -/
theorem exists_solid_linesUpTo {front : List (List Char)} {last more : List Char}
    (others : List (List Char)) (hMore : isTagLine (last ++ more) = isTagLine last)
    (h : (front ++ [last]).any isTagLine = true) :
    ∃ rest ≠ [], (linesUpTo isTagLine true (front ++ (last ++ more) :: others)).flatMap solid ++
      rest = (front ++ [last]).flatMap solid := by
  induction front with
  | nil =>
    have hLast : isTagLine last = true := by simpa using h
    refine ⟨solid last, solid_of_isTagLine hLast, ?_⟩
    rw [List.nil_append, linesUpTo_of_stop (hMore.trans hLast)]
    simp
  | cons line front ih =>
    cases hLine : isTagLine line with
    | true =>
      refine ⟨((line :: front) ++ [last]).flatMap solid, ?_, ?_⟩
      · simp [solid_of_isTagLine hLine]
      · rw [List.cons_append, linesUpTo_of_stop hLine]
        rfl
    | false =>
      rw [List.cons_append, List.any_cons, hLine, Bool.false_or] at h
      obtain ⟨rest, hRest, hSolid⟩ := ih h
      refine ⟨rest, hRest, ?_⟩
      rw [List.cons_append, linesUpTo_of_not_stop hLine, List.flatMap_cons, List.append_assoc,
        hSolid]
      rfl

/-- The lines before the first tag are those of the title and some after it, unless there is a tag
on a line of the title. -/
theorem solid_linesUpTo_title {rest : List Char} (hTitle : trim t = t)
    (hLead : ∀ c ∈ lead, isBlank c = true) (hEmpty : t = [] → lead = []) :
    (linesUpTo isTagLine true (splitOn '\n' (lead ++ (t ++ after)))).flatMap solid =
        solid t ++ rest ↔
      (splitOn '\n' t).any isTagLine = false ∧
        (linesUpTo isTagLine t.isEmpty (splitOn '\n' after)).flatMap solid = rest := by
  by_cases ht : t = []
  · subst ht
    obtain rfl := hEmpty rfl
    exact (and_iff_right rfl).symm
  · obtain ⟨front, last, c, hLast, hc⟩ := exists_splitOn_of_trim hTitle ht lead
    obtain ⟨first, others, hAfter⟩ := List.exists_cons_of_ne_nil (splitOn_ne_nil '\n' after)
    have hLines : splitOn '\n' (lead ++ (t ++ after)) =
        front ++ (last ++ [c] ++ first) :: others := by
      rw [← List.append_assoc]
      exact splitOn_append hLast hAfter
    have hMore := isTagLine_append hc last first
    have hSolid : (front ++ [last ++ [c]]).flatMap solid = solid t := by
      rw [← hLast, flatMap_solid_splitOn, solid_append, solid_eq_nil_iff.mpr hLead, List.nil_append]
    have hAny : (splitOn '\n' t).any isTagLine = (front ++ [last ++ [c]]).any isTagLine := by
      rw [← hLast]
      exact (any_isTagLine_ignoresBlanks.splitOn_blanks_append hLead t).symm
    rw [hLines, hAny, hAfter, List.isEmpty_eq_false_iff.mpr ht, linesUpTo_cons]
    cases hTags : (front ++ [last ++ [c]]).any isTagLine with
    | true =>
      obtain ⟨more, hne, hShort⟩ := exists_solid_linesUpTo others hMore hTags
      refine iff_of_false (fun h => ?_) fun h => nomatch h.1
      rw [h, hSolid, List.append_assoc, List.append_right_eq_self] at hShort
      exact hne (List.append_eq_nil_iff.mp hShort).2
    | false =>
      have hNone := List.any_eq_false.mp hTags
      have hFront : ∀ line ∈ front, isTagLine line = false := fun line hMem => by
        simpa using hNone line (List.mem_append_left _ hMem)
      have hLastTag : isTagLine (last ++ [c]) = false := by
        simpa using hNone (last ++ [c]) (by simp)
      rw [linesUpTo_append hFront, linesUpTo_of_not_stop (hMore.trans hLastTag), ← hSolid,
        List.flatMap_append, List.flatMap_append, List.flatMap_singleton, List.flatMap_cons,
        solid_append (last ++ [c]), List.append_assoc, List.append_assoc,
        List.append_cancel_left_eq, List.append_cancel_left_eq, and_iff_right rfl,
        List.flatMap_cons]

/-! ### Texts that are divided -/

/-- What is on the lines after the title is what is in the body, unless a mark follows the title on
its own line, or the first tag after it is not in lower case. -/
theorem solid_linesUpTo_body (whole : Bool) (after : List Char) :
    (linesUpTo isTagLine whole (splitOn '\n' after)).flatMap solid =
      solid (bodyAfter whole after) ↔
    (whole = true ∨ ∀ line ∈ (splitOn '\n' after).head?, isTagLine line = false) ∧
      ((trimStart after).head? ≠ some '@' →
        ∀ line ∈ linesUpTo isLowercaseTag whole (splitOn '\n' after), isTagLine line = false) := by
  obtain ⟨first, others, hAfter⟩ := List.exists_cons_of_ne_nil (splitOn_ne_nil '\n' after)
  have hHead : (∀ line ∈ (splitOn '\n' after).head?, isTagLine line = false) ↔
      isTagLine first = false := by
    rw [hAfter]
    simp
  rw [hHead]
  by_cases hSign : (trimStart after).head? = some '@'
  · have hWhole : (linesUpTo isTagLine true (splitOn '\n' after)).flatMap solid = [] :=
      marks_sign.solid_linesUpTo _ rfl (beq_iff_eq.mpr hSign)
    rw [bodyAfter, if_pos hSign, solid_nil, and_iff_left fun h => absurd hSign h]
    cases whole with
    | true => exact iff_of_true hWhole (.inl rfl)
    | false =>
      rw [hAfter] at hWhole ⊢
      cases hFirst : isTagLine first with
      | true =>
        refine iff_of_false (fun h => ?_) (by simp)
        exact solid_of_isTagLine hFirst (List.append_eq_nil_iff.mp h).1
      | false =>
        rw [linesUpTo_of_not_stop hFirst] at hWhole ⊢
        exact iff_of_true hWhole (.inr rfl)
  · have hFirst : isTagLine first = false := by
      by_contra hFirst
      exact hSign (beq_iff_eq.mp
        (marks_sign.of_first hAfter ((Bool.not_eq_false _).mp hFirst)))
    have hLower : isLowercaseTag first = false := by
      by_contra hLower
      rw [isTagLine_of_isLowercaseTag (by simpa using hLower)] at hFirst
      cases hFirst
    rw [bodyAfter, if_neg hSign, solid_trim, solid_intercalate, and_iff_right (.inr hFirst), hAfter,
      linesUpTo_of_not_stop hFirst, linesUpTo_of_not_stop hLower, List.flatMap_cons,
      List.flatMap_cons, List.append_cancel_left_eq,
      solid_linesUpTo (fun _ => isTagLine_of_isLowercaseTag) fun _ => solid_of_isTagLine,
      List.forall_mem_cons, and_iff_right hFirst, imp_iff_right hSign]

/-- Where the title of a text is: behind blanks, with the given text after it. -/
structure Placed (raw title lead after : List Char) : Prop where
  raw_eq : raw = lead ++ (title ++ after)
  lead_blank : ∀ c ∈ lead, isBlank c = true
  lead_of_empty : title = [] → lead = []
  trim_title : trim title = title

/-- A comment divides a text: the body is the lines after the title up to the first with a tag, the
tags are those of the blocks, and whatever is not blank is in the title, in the body or in one of
the blocks. -/
structure Divides (raw : List Char) (d : DocText) (after : List Char) : Prop where
  body_eq : d.body.toList = trim (['\n'].intercalate
    (linesUpTo isTagLine d.title.toList.isEmpty (splitOn '\n' after)))
  tagged : Tagged raw d
  solid_eq : solid raw = solid d.title.toList ++
    (solid d.body.toList ++ (blocks raw).flatMap fun b => b.lines.flatMap solid)

/-- A text is regular if no line of its title starts a tag, no mark follows the title on its own
line, and the first tag after the title is in lower case or follows it at once. -/
structure Regular (title after : List Char) : Prop where
  no_tag : (splitOn '\n' title).any isTagLine = false
  sign : title.isEmpty = true ∨ ∀ line ∈ (splitOn '\n' after).head?, isTagLine line = false
  lowercase : (trimStart after).head? ≠ some '@' →
    ∀ line ∈ linesUpTo isLowercaseTag title.isEmpty (splitOn '\n' after), isTagLine line = false

/-- What is not blank is in one part of a text only if it is regular. -/
theorem solid_eq_iff_regular {raw title body : List Char}
    (h : Placed raw title lead after)
    (hBody : body = bodyAfter title.isEmpty after) :
    solid raw = solid title ++ (solid body ++ (blocks raw).flatMap fun b => b.lines.flatMap solid) ↔
      Regular title after := by
  rw [solid_eq_append_blocks, ← List.append_assoc (solid title), List.append_cancel_right_eq,
    solid_linesUpTo_ignoresBlanks.lines_eq]
  conv_lhs => rw [h.raw_eq]
  rw [solid_linesUpTo_title h.trim_title h.lead_blank h.lead_of_empty, hBody, solid_linesUpTo_body]
  exact ⟨fun ⟨hTitle, hSign, hLower⟩ => ⟨hTitle, hSign, hLower⟩,
    fun ⟨hTitle, hSign, hLower⟩ => ⟨hTitle, hSign, hLower⟩⟩

/-- The body of a regular text ends at the first tag. -/
theorem Regular.body_eq {title body : List Char} (h : Regular title after)
    (hBody : body = bodyAfter title.isEmpty after) :
    body = trim (['\n'].intercalate (linesUpTo isTagLine title.isEmpty (splitOn '\n' after))) := by
  by_cases hSign : (trimStart after).head? = some '@'
  · have hSolid := (solid_linesUpTo_body title.isEmpty after).mpr ⟨h.sign, h.lowercase⟩
    rw [bodyAfter, if_pos hSign] at hBody hSolid
    rw [← solid_intercalate] at hSolid
    rw [hBody, trim_eq_nil_of_solid hSolid]
  · rw [hBody, bodyAfter, if_neg hSign,
      linesUpTo_congr (fun _ => isTagLine_of_isLowercaseTag) _ (h.lowercase hSign)]

/-- **What a text is divided into.** The title is at its start, the body is what comes after it up
to a tag in lower case, and the tags are read off the blocks. Nothing is lost and nothing is taken
twice if the text is regular, and only then. -/
theorem parse_divides (raw : String) :
    ∃ lead after, Placed raw.toList (parse raw).title.toList lead after ∧
      (parse raw).body.toList = bodyAfter (parse raw).title.toList.isEmpty after ∧
      Tagged raw.toList (parse raw) ∧
      (Divides raw.toList (parse raw) after ↔ Regular (parse raw).title.toList after) := by
  obtain ⟨lead, after, hRaw, hLead, hEmpty, hFind⟩ := find?_titleOf raw.toList
  have hTrim := trim_titleOf raw.toList
  have hTitle : (parse raw).title.toList = titleOf raw.toList := String.toList_ofList
  have hBody : (parse raw).body.toList = bodyOf raw.toList (titleOf raw.toList) :=
    String.toList_ofList
  rw [bodyOf_eq hFind (titleOf raw.toList).isEmpty] at hBody
  rw [← hTitle] at hRaw hEmpty hTrim hBody
  have hPlaced : Placed raw.toList (parse raw).title.toList lead after :=
    ⟨hRaw, hLead, hEmpty, hTrim⟩
  have hRegular := solid_eq_iff_regular hPlaced hBody
  exact ⟨lead, after, hPlaced, hBody, tagged_parse raw, fun h => hRegular.mp h.solid_eq,
    fun h => ⟨h.body_eq hBody, tagged_parse raw, hRegular.mpr h⟩⟩

/-- A mark on the line of the title loses the text after it. -/
theorem not_divides : ¬∀ raw : String, ∃ lead after,
    Placed raw.toList (parse raw).title.toList lead after ∧
      Divides raw.toList (parse raw) after := by
  intro h
  obtain ⟨-, -, -, -, -, hSolid⟩ := h "Title. @home now"
  revert hSolid
  decide +kernel

end DocText

end ClassSketch
