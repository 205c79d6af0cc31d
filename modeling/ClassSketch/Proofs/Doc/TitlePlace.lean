import ClassSketch.Proofs.Doc.Division
import ClassSketch.Proofs.Text.Utf8
import Mathlib.Order.Bounds.Basic

/-!
# The place of the title

The title is what four cuts leave of a comment: at the mark of a paragraph, at a blank line, at a
tag and at the end of a sentence. What is left is trimmed after each of them. The body is found by
a search for the title in the comment as it was before all this.

## What the cuts leave

The first three cuts are at the leftmost match of a pattern. If there were a match in what is left,
or in a part of it, the same match in the text before the cut would be further left. For a tag this
takes more than the text of the match, since it has to be at the start of a line. Blanks that are
trimmed off the start of a text move the start of its first line, so a match can come into being.
What is cut at a tag has been trimmed before, and so the start of the title is where a line starts
in the text that is cut.

A blank line is one of spaces, tabs, carriage returns and form feeds. A line with any other blank
character on it does not end a paragraph, though it is empty once it is trimmed.

## Main definitions

* `DocText.Pattern` — what is looked for, with what has to be before it
* `DocText.Pattern.Occurs`, `DocText.Pattern.Cuts` — a match, and the text before the leftmost one
* `DocText.paragraph`, `DocText.blankLine`, `DocText.tag` — the three patterns
* `DocText.OccursAt` — the offsets at which a text is part of another one
* `DocText.Found`, `DocText.Located` — what is known of the title and its place

## Main results

* `DocText.before_cuts`, `DocText.beforeTag_cuts` — the cuts are at the leftmost match
* `DocText.Pattern.Cuts.not_occurs` — there is no match in what is left
* `DocText.isLeast_of_find?` — the search gives the least offset
* `DocText.parse_located` — where the title of a comment is, and what is not in it
-/

namespace ClassSketch

namespace DocText

open Text

variable {c : Char} {s t u lead : List Char}

/-! ### Matches -/

/-- A pattern: the words that match it, and what has to be before a match. -/
structure Pattern where
  word : List Char → Prop
  behind : List Char → Prop

namespace Pattern

variable {p : Pattern}

/-- A match starts between two parts of a text. -/
def Between (p : Pattern) (front rest : List Char) : Prop :=
  p.behind front ∧ ∃ word, p.word word ∧ word <+: rest

/-- There is a match in a text. -/
def Occurs (p : Pattern) (s : List Char) : Prop :=
  ∃ front rest, s = front ++ rest ∧ p.Between front rest

/-- A text is what is before the leftmost match in another one, or all of it. Both are behind the
text `lead`. -/
structure Cuts (p : Pattern) (lead s t : List Char) : Prop where
  stops : ∃ rest, s = t ++ rest ∧ (rest = [] ∨ p.Between (lead ++ t) rest)
  leftmost : ∀ {front rest}, s = front ++ rest → p.Between (lead ++ front) rest →
    t.length ≤ front.length

/-- What is found in a text is found if more follows. -/
theorem Between.mono {front rest : List Char} (h : p.Between front rest) (more : List Char) :
    p.Between front (rest ++ more) := by
  obtain ⟨hBehind, word, hWord, hRest⟩ := h
  exact ⟨hBehind, word, hWord, hRest.trans (List.prefix_append rest more)⟩

theorem not_between_nil (hp : ¬p.word []) (front : List Char) : ¬p.Between front [] := by
  rintro ⟨-, word, hWord, hNil⟩
  exact hp (List.prefix_nil.mp hNil ▸ hWord)

/-- Where nothing has to be before a match, it is one in every longer text. -/
theorem Occurs.of_infix (hp : ∀ front, p.behind front) (h : p.Occurs s) (hs : s <:+: t) :
    p.Occurs t := by
  obtain ⟨front, rest, rfl, hMatch⟩ := h
  obtain ⟨before, more, rfl⟩ := hs
  exact ⟨before ++ front, rest ++ more, by simp, hp _, (hMatch.mono more).2⟩

theorem Cuts.nil (p : Pattern) (lead : List Char) : p.Cuts lead [] [] :=
  ⟨⟨[], rfl, .inl rfl⟩, fun _ _ => Nat.zero_le _⟩

theorem Cuts.here (h : p.Between lead s) : p.Cuts lead s [] where
  stops := ⟨s, rfl, .inr (by rwa [List.append_nil])⟩
  leftmost _ _ := Nat.zero_le _

theorem Cuts.cons (h : ¬p.Between lead (c :: s)) (hs : p.Cuts (lead ++ [c]) s t) :
    p.Cuts lead (c :: s) (c :: t) where
  stops := by
    obtain ⟨rest, rfl, hRest⟩ := hs.stops
    rw [List.append_assoc, List.singleton_append] at hRest
    exact ⟨rest, rfl, hRest⟩
  leftmost := by
    intro front rest hFront hMatch
    cases front with
    | nil =>
      rw [List.nil_append] at hFront
      rw [List.append_nil, ← hFront] at hMatch
      exact absurd hMatch h
    | cons d front =>
      obtain ⟨rfl, rfl⟩ := List.cons.inj hFront
      have hMatch' : p.Between (lead ++ [c] ++ front) rest := by simpa using hMatch
      exact Nat.succ_le_succ (hs.leftmost rfl hMatch')

/-- A match in what is before the leftmost match would be further left. -/
theorem Cuts.not_occurs (hp : ¬p.word []) (h : p.Cuts [] s t) (hu : u <+: t) : ¬p.Occurs u := by
  rintro ⟨front, rest, rfl, hMatch⟩
  obtain ⟨more, rfl⟩ := hu
  obtain ⟨after, rfl, -⟩ := h.stops
  have hFront : front ++ rest ++ more ++ after = front ++ (rest ++ more ++ after) := by
    simp only [List.append_assoc]
  have hLength := h.leftmost hFront ((hMatch.mono more).mono after)
  have hRest : rest = [] := by
    simp only [List.length_append] at hLength
    exact List.length_eq_zero_iff.mp (by omega)
  subst hRest
  exact not_between_nil hp front hMatch

end Pattern

/-! ### The three patterns -/

/-- The mark of a paragraph. -/
def paragraph : Pattern where
  word w := w = ['<', 'p', '>']
  behind _ := True

/-- A newline, spaces, tabs, carriage returns and form feeds, and another newline. -/
def blankLine : Pattern where
  word w := ∃ gap, w = '\n' :: (gap ++ ['\n']) ∧ ∀ c ∈ gap, c ∈ [' ', '\t', '\r', '\x0c']
  behind _ := True

/-- At the start of a line, blanks, the mark of a tag and letters in lower case. The blanks may go
over several lines. -/
def tag : Pattern where
  word w := ∃ blanks name, w = blanks ++ '@' :: name ∧ (∀ c ∈ blanks, isBlank c = true) ∧
    name ≠ [] ∧ ∀ c ∈ name, 'a' ≤ c ∧ c ≤ 'z'
  behind front := front = [] ∨ front.getLast? = some '\n'

theorem not_paragraph_nil : ¬paragraph.word [] := (List.cons_ne_nil '<' _).symm

theorem not_blankLine_nil : ¬blankLine.word [] := by
  rintro ⟨gap, h, -⟩
  cases h

theorem not_tag_nil : ¬tag.word [] := by
  rintro ⟨blanks, name, h, -⟩
  exact List.append_ne_nil_of_right_ne_nil blanks (List.cons_ne_nil '@' name) h.symm

/-- The search for paragraphs finds their tags. -/
theorem startsParagraph_iff (lead s : List Char) :
    startsParagraph s = true ↔ paragraph.Between lead s := by
  simp [startsParagraph, Pattern.Between, paragraph]

/-- Whether a character may be on a line that is blank. -/
def isGap (c : Char) : Bool := c == ' ' || c == '\t' || c == '\r' || c == '\x0c'

theorem isGap_iff : isGap c = true ↔ c ∈ [' ', '\t', '\r', '\x0c'] := by
  simp [isGap, or_assoc]

theorem startsBlankLine_cons (c : Char) (s : List Char) : startsBlankLine (c :: s) = true ↔
    c = '\n' ∧ (s.dropWhile isGap).head? = some '\n' := by
  by_cases hc : c = '\n'
  · subst hc
    exact beq_iff_eq.trans (and_iff_right rfl).symm
  · simp [startsBlankLine, hc]

/-- The search for blank lines finds them, with the gaps in them. -/
theorem startsBlankLine_iff (lead s : List Char) :
    startsBlankLine s = true ↔ blankLine.Between lead s := by
  constructor
  · intro h
    obtain ⟨c, s, rfl⟩ : ∃ c s', s = c :: s' := by
      cases s with
      | nil => cases h
      | cons c s => exact ⟨c, s, rfl⟩
    obtain ⟨rfl, hNext⟩ := (startsBlankLine_cons c s).mp h
    obtain ⟨more, hMore⟩ := List.head?_eq_some_iff.mp hNext
    refine ⟨trivial, _, ⟨s.takeWhile isGap, rfl, fun c hc => ?_⟩, more, ?_⟩
    · exact isGap_iff.mp (List.mem_takeWhile_imp hc)
    · conv_rhs => rw [← List.takeWhile_append_dropWhile (p := isGap) (l := s), hMore]
      simp
  · rintro ⟨-, word, ⟨gap, rfl, hGap⟩, more, rfl⟩
    have hRun := split_of_run (q := isGap) ('\n' :: more) (fun c hc => isGap_iff.mpr (hGap c hc))
      (by simp [isGap])
    rw [List.cons_append, List.append_assoc, List.singleton_append, startsBlankLine_cons, hRun.2]
    exact ⟨rfl, rfl⟩

theorem startsTag_trimStart_iff :
    startsTag (trimStart s) = true ↔ ∃ word, tag.word word ∧ word <+: s := by
  constructor
  · intro h
    obtain ⟨d, more, hStart, hd⟩ := startsTag_eq_true_iff.mp h
    refine ⟨s.takeWhile isBlank ++ '@' :: [d], ⟨_, [d], rfl, fun c hc => ?_, ?_, ?_⟩, more, ?_⟩
    · exact List.mem_takeWhile_imp hc
    · exact List.cons_ne_nil d []
    · simpa using hd
    · conv_rhs => rw [← List.takeWhile_append_dropWhile (p := isBlank) (l := s)]
      rw [← trimStart, hStart]
      simp
  · rintro ⟨word, ⟨blanks, name, rfl, hBlanks, hne, hName⟩, more, rfl⟩
    obtain ⟨d, name, rfl⟩ := List.exists_cons_of_ne_nil hne
    have hRun := split_of_run (q := isBlank) ('@' :: d :: (name ++ more)) hBlanks
      (fun c hc => by cases hc; rfl)
    refine startsTag_eq_true_iff.mpr ⟨d, name ++ more, ?_, hName d List.mem_cons_self⟩
    rw [trimStart, ← hRun.2]
    simp

/-! ### The cuts -/

/-- A condition that tells where a match starts tells where the leftmost one does. -/
theorem before_cuts {p : Pattern} {start : List Char → Bool}
    (hStart : ∀ lead s, start s = true ↔ p.Between lead s) (s : List Char) :
    ∀ lead, p.Cuts lead s (before start s) := by
  induction s with
  | nil => exact .nil p
  | cons c s ih =>
    intro lead
    rw [before]
    split
    · next h => exact .here ((hStart lead _).mp h)
    · next h => exact .cons (fun hMatch => h ((hStart lead _).mpr hMatch)) (ih _)

/-- The cut at a tag is at the leftmost match too, if `whole` tells whether a line starts. -/
theorem beforeTag_cuts (s : List Char) : ∀ {whole : Bool} {lead : List Char},
    (whole = true ↔ tag.behind lead) → tag.Cuts lead s (beforeTag whole s) := by
  induction s with
  | nil => exact fun _ => .nil tag _
  | cons c s ih =>
    intro whole lead hWhole
    have hMatch : (whole && startsTag (trimStart (c :: s))) = true ↔ tag.Between lead (c :: s) := by
      rw [Bool.and_eq_true_iff, hWhole, startsTag_trimStart_iff]
      rfl
    rw [beforeTag]
    split
    · next h => exact .here (hMatch.mp h)
    · next h =>
      refine .cons (fun hTag => h (hMatch.mpr hTag)) (ih ?_)
      simp [tag]

/-! ### The title in the text -/

theorem trimStart_of_isPrefix (h : t <+: s) (hs : trimStart s = s) : trimStart t = t := by
  refine trimStart_eq_self fun c hc => ?_
  obtain ⟨rest, rfl⟩ := h
  obtain ⟨t, rfl⟩ := List.head?_eq_some_iff.mp hc
  exact not_blank_of_trimStart hs

/-- A text that starts with no blank ends the blanks before it. -/
theorem split_of_blanks (hLead : ∀ c ∈ lead, isBlank c = true) (ht : trimStart t = t)
    (hne : t ≠ []) (after : List Char) :
    (lead ++ (t ++ after)).takeWhile isBlank = lead ∧
      trimStart (lead ++ (t ++ after)) = t ++ after := by
  refine split_of_run _ hLead ?_
  rw [List.head?_append_of_ne_nil _ hne, ← ht]
  exact head?_dropWhile isBlank t

theorem Leads.isPrefix (h : Leads t s) (ht : trimStart t = t) : t <+: trimStart s := by
  obtain ⟨lead, after, rfl, hLead⟩ := h
  by_cases hne : t = []
  · rw [hne]
    exact List.nil_prefix
  · rw [(split_of_blanks hLead ht hne after).2]
    exact List.prefix_append t after

/-- What leads a text is a part of it. -/
theorem Leads.isInfix (h : Leads t s) : t <:+: s := by
  obtain ⟨lead, after, rfl, -⟩ := h
  exact ⟨lead, after, List.append_assoc _ _ _⟩

/-- No match is left in the title. -/
theorem not_occurs_titleOf (raw : List Char) : ¬paragraph.Occurs (titleOf raw) ∧
    ¬blankLine.Occurs (titleOf raw) ∧ ¬tag.Occurs (titleOf raw) := by
  obtain ⟨paragraph, opening, hStart, hTag, hBlankLine, hParagraph⟩ := exists_leads_titleOf raw
  refine ⟨fun h => ?_, fun h => ?_, ?_⟩
  · exact (before_cuts startsParagraph_iff raw []).not_occurs not_paragraph_nil
      (List.prefix_refl _) (h.of_infix (fun _ => trivial) hParagraph.isInfix)
  · exact (before_cuts startsBlankLine_iff paragraph []).not_occurs not_blankLine_nil
      (List.prefix_refl _) (h.of_infix (fun _ => trivial) hBlankLine.isInfix)
  · -- The start of the title has to be that of the text which is cut, for the sake of the anchor.
    have hCut : trimStart (beforeTag true opening) = beforeTag true opening :=
      trimStart_of_isPrefix (exists_beforeTag_append true opening) hStart
    have hTitle : titleOf raw <+: beforeTag true opening := by
      rw [← hCut]
      exact hTag.isPrefix (trimStart_titleOf raw)
    have hWhole : true = true ↔ tag.behind [] := iff_of_true rfl (.inl rfl)
    exact (beforeTag_cuts opening hWhole).not_occurs not_tag_nil hTitle

/-! ### The search -/

/-- The offsets, in bytes, at which a text is part of another one. -/
def OccursAt (t s : List Char) (n : ℕ) : Prop :=
  ∃ front after, s = front ++ (t ++ after) ∧ utf8Length front = n

/-- A word is found in the first place where it stands. -/
theorem find?_eq_some {word front after : List Char} (h : find? word s = some (front, after)) :
    s = front ++ (word ++ after) ∧
      ∀ {front' after'}, s = front' ++ (word ++ after') → front.length ≤ front'.length := by
  induction s generalizing front with
  | nil =>
    rw [find?] at h
    split at h
    · next hWord =>
      cases h
      exact ⟨by simpa using hWord, fun _ => Nat.zero_le _⟩
    · cases h
  | cons c s ih =>
    rw [find?] at h
    split at h
    · next hDrop =>
      cases h
      have hs : c :: s = word ++ after := dropWord?_eq_some_iff.mp hDrop
      exact ⟨hs, fun _ => Nat.zero_le _⟩
    · next hDrop =>
      obtain ⟨⟨before, rest⟩, hFind, hParts⟩ := Option.map_eq_some_iff.mp h
      cases hParts
      obtain ⟨rfl, hLeast⟩ := ih hFind
      refine ⟨rfl, fun {front' after'} hFront' => ?_⟩
      cases front' with
      | nil =>
        have hWord : dropWord? word _ = some after' := dropWord?_eq_some_iff.mpr hFront'
        rw [hWord] at hDrop
        cases hDrop
      | cons d front' => exact Nat.succ_le_succ (hLeast (List.cons.inj hFront').2)

/-- The search gives the least offset. -/
theorem isLeast_of_find? {word front after : List Char}
    (h : find? word s = some (front, after)) :
    IsLeast {n | OccursAt word s n} (utf8Length front) := by
  obtain ⟨hs, hLeast⟩ := find?_eq_some h
  refine ⟨⟨front, after, hs, rfl⟩, ?_⟩
  rintro n ⟨front', after', hs', rfl⟩
  have hFront : front <+: s := ⟨_, hs.symm⟩
  have hFront' : front' <+: s := ⟨_, hs'.symm⟩
  exact utf8Length_le_of_isPrefix (List.prefix_of_prefix_length_le hFront hFront' (hLeast hs'))

/-! ### The place of the title -/

/-- The search for a title gives the offset of the first character that is not blank, and the body
is what is found in the text after the title. -/
structure Found (raw title body after : List Char) : Prop where
  trimStart_eq : trimStart raw = title ++ after
  find?_eq : find? title raw = some (raw.takeWhile isBlank, after)
  isLeast : IsLeast {n | OccursAt title raw n} (utf8Length (raw.takeWhile isBlank))
  body_eq : body = bodyAfter false after

/-- The title of a comment is at its start behind blanks, with no blank at its own ends and no match
of the three patterns, and it is found there unless it is empty. -/
structure Located (raw : List Char) (d : DocText) : Prop where
  isPrefix : d.title.toList <+: trimStart raw
  head_not_blank : ∀ c ∈ d.title.toList.head?, isBlank c = false
  last_not_blank : ∀ c ∈ d.title.toList.getLast?, isBlank c = false
  no_paragraph : ¬paragraph.Occurs d.title.toList
  no_blankLine : ¬blankLine.Occurs d.title.toList
  no_tag : ¬tag.Occurs d.title.toList
  found : d.title.toList ≠ [] → ∃ after, Found raw d.title.toList d.body.toList after

/-- The title is found in the text, with the body behind it. -/
theorem exists_found {raw : List Char} (h : titleOf raw ≠ []) :
    ∃ after, Found raw (titleOf raw) (bodyOf raw (titleOf raw)) after := by
  obtain ⟨lead, after, hRaw, hLead, -, hFind⟩ := find?_titleOf raw
  obtain ⟨hTake, hDrop⟩ := split_of_blanks hLead (trimStart_titleOf raw) h after
  rw [← hRaw] at hTake hDrop
  rw [← hTake] at hFind
  exact ⟨after, hDrop, hFind, isLeast_of_find? hFind, bodyOf_eq hFind false⟩

/-- **Where the title of a comment is.** It is cut from the start of the text, nothing that ends a
title is in it, and the search for it comes back to the place where it was cut. -/
theorem parse_located (raw : String) : Located raw.toList (parse raw) := by
  have hTitle : (parse raw).title.toList = titleOf raw.toList := String.toList_ofList
  have hBody : (parse raw).body.toList = bodyOf raw.toList (titleOf raw.toList) :=
    String.toList_ofList
  have hStart := trimStart_titleOf raw.toList
  obtain ⟨hParagraph, hBlankLine, hTag⟩ := not_occurs_titleOf raw.toList
  rw [← hTitle] at hParagraph hBlankLine hTag
  refine ⟨?_, ?_, ?_, hParagraph, hBlankLine, hTag, fun hne => ?_⟩
  · rw [hTitle]
    exact (leads_titleOf raw.toList).isPrefix hStart
  · rw [hTitle, ← hStart]
    exact head?_dropWhile isBlank _
  · rw [hTitle, ← trim_titleOf, trim]
    exact getLast?_trimEnd _
  · rw [hBody]
    rw [hTitle] at hne ⊢
    exact exists_found hne

/-- The words of the title may come again after it. -/
example : (parse " One. One.\n@see x").body = "One." := by decide +kernel

end DocText

end ClassSketch
