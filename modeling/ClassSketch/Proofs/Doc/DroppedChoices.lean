import ClassSketch.Proofs.Doc.TemplateSegments
import Mathlib.Data.List.Chain

/-!
# Choices that leave nothing

A choice without a branch to show leaves at most one space. It takes a space on each side of it with
it, where there is one, and gives back the one behind it. That is enough between words: of two
spaces around a placeholder one is left.

It is not enough if two placeholders share a space. The first of them takes the space between them
and gives it back, and the second gives back the one behind it, so that two spaces come together.
This is the only way in which adjacent spaces arise. It does not matter which of the placeholders
are choices by a key, which are cut out first.

What stands next to what follows from how a text is cut: a reader of choices takes each space that
is next to one. So no literal text ends with a space before a choice unless this has one of its own,
and none starts with a space behind a choice that has none.

## Main definitions

* `Template.Joins` — what can stand next to each other in segments
* `Template.Grabs` — readers that take the spaces next to choices
* `Template.Segment.isDropped`, `Template.Segment.LeavesSpace` — choices that leave nothing, or no
  more than a space

## Main results

* `Template.laid_segments` — what stands next to each other in the segments of a text
* `Template.exists_of_adjacent_spaces` — where adjacent spaces come from
* `Template.render_adjacent_spaces_iff` — when adjacent spaces are left
-/

namespace ClassSketch

namespace Template

open Text

/-! ### Segments next to each other -/

namespace Segment

theorem literal_or_not (x : Segment) :
    (∃ text, x = literal text) ∨ ∀ text, x ≠ literal text := by
  cases x with
  | literal text => exact .inl ⟨text, rfl⟩
  | _ => exact .inr fun _ => Segment.noConfusion

/-- The choice that a segment is. -/
def choice? : Segment → Option Choice
  | byKey c => some c
  | byParameter c => some c
  | _ => none

/-- The segment is literal, or a choice of which nothing is shown. -/
def isDropped (values : TemplateValues) (parameters : List String) : Segment → Bool
  | literal _ => true
  | byKey c => c.otherwise.isNone && (valueOf? (String.ofList c.name) values).isNone
  | byParameter c => c.otherwise.isNone && !parameters.contains (String.ofList c.name)
  | value _ _ => false

/-- The segment is a choice with a space behind it. -/
def LeavesSpace (segment : Segment) : Prop := ∃ c, segment.choice? = some c ∧ c.trailing = true

/-- The segment is literal text with a character that is not blank. -/
def HasWord (segment : Segment) : Prop :=
  ∃ text, segment = literal text ∧ ∃ c ∈ text, isBlank c = false

end Segment

/-- Two segments can stand next to each other. They are not both literal, and a space next to a
choice is taken by it. -/
structure Joins (x y : Segment) : Prop where
  not_literals : ∀ {s}, x = .literal s → ∀ t, y ≠ .literal t
  leading : ∀ {s c}, x = .literal s → s.getLast? = some ' ' → y.choice? = some c → c.leading = true
  trailing : ∀ {c t}, x.choice? = some c → y = .literal t → t.head? = some ' ' → c.trailing = true

/-- A reader that takes the spaces next to choices. -/
structure Grabs (form : List Char → Option (Segment × List Char)) : Prop where
  leading : ∀ {s p rest c}, form s = some (p, rest) → p.choice? = some c → c.leading = false →
    form (' ' :: s) ≠ none
  trailing : ∀ {s p rest c}, form s = some (p, rest) → p.choice? = some c →
    rest.head? = some ' ' → c.trailing = true

theorem choice?_leading {mark s rest : List Char} {c : Choice}
    (h : choice? mark s = some (c, rest)) (hLeading : c.leading = false) :
    choice? mark (' ' :: s) ≠ none := by
  obtain ⟨hFits, rfl⟩ := choice?_eq_some h
  have hSource : ' ' :: (c.source mark ++ rest) =
      { c with leading := true }.source mark ++ rest := by
    simp [Choice.source, hLeading, spaceText]
  have hFits' : { c with leading := true }.Fits :=
    ⟨hFits.name, hFits.whenPresent, hFits.otherwise⟩
  rw [hSource]
  exact choice?_append hFits' rest

theorem space_of_head? {s : List Char} (h : (space s).2.head? = some ' ') : (space s).1 = true := by
  cases s with
  | nil => cases h
  | cons c s =>
    by_cases hc : c = ' '
    · subst hc
      rfl
    · have hSpace : space (c :: s) = (false, c :: s) := by
        rw [space.eq_def]
        split
        · next hEq => exact absurd (List.cons.inj hEq).1 hc
        · rfl
      rw [hSpace] at h
      exact absurd (Option.some.inj h) hc

theorem choice?_trailing {mark s rest : List Char} {c : Choice}
    (h : choice? mark s = some (c, rest)) (hRest : rest.head? = some ' ') :
    c.trailing = true := by
  rw [choice?] at h
  obtain ⟨s₁, -, h⟩ := Option.bind_eq_some_iff.mp h
  obtain ⟨⟨name, s₂⟩, -, h⟩ := Option.bind_eq_some_iff.mp h
  obtain ⟨s₃, -, h⟩ := Option.bind_eq_some_iff.mp h
  obtain ⟨⟨whenPresent, s₄⟩, -, h⟩ := Option.bind_eq_some_iff.mp h
  obtain ⟨⟨otherwise, s₅⟩, -, h⟩ := Option.bind_eq_some_iff.mp h
  obtain ⟨s₆, -, h⟩ := Option.bind_eq_some_iff.mp h
  cases h
  exact space_of_head? hRest

theorem grabs_choice? {mark : List Char} {choose : Choice → Segment}
    (hChoose : ∀ c, (choose c).choice? = some c) :
    Grabs fun s => (choice? mark s).map fun (c, rest) => (choose c, rest) where
  leading := by
    intro s p rest c h hc hLeading hNone
    obtain ⟨⟨c', rest'⟩, hChoice, heq⟩ := Option.map_eq_some_iff.mp h
    cases heq
    cases (hChoose c').symm.trans hc
    exact choice?_leading hChoice hLeading (Option.map_eq_none_iff.mp hNone)
  trailing := by
    intro s p rest c h hc hRest
    obtain ⟨⟨c', rest'⟩, hChoice, heq⟩ := Option.map_eq_some_iff.mp h
    cases heq
    cases (hChoose c').symm.trans hc
    exact choice?_trailing hChoice hRest

theorem grabs_value? : Grabs value? where
  leading := by
    intro s p rest c h hc
    obtain ⟨⟨_, _, -, -, rfl⟩, -⟩ := value?_recognises.sound h
    cases hc
  trailing := by
    intro s p rest c h hc
    obtain ⟨⟨_, _, -, -, rfl⟩, -⟩ := value?_recognises.sound h
    cases hc

section Cut

variable {form : List Char → Option (Segment × List Char)} {P : Segment → Prop}
  {s : List Char} {segments : List Segment}

theorem Segment.IsPlaceholder.ne_literal {p : Segment} (h : p.IsPlaceholder) (text : List Char) :
    p ≠ .literal text := by
  rcases h with ⟨_, _, rfl⟩ | ⟨_, _, rfl⟩ | ⟨_, _, _, _, rfl⟩ <;> exact Segment.noConfusion

/-- The first segment is read at the head of the text, if it is a placeholder. -/
theorem Cuts.exists_form {p : Segment} (h : Cuts form s (p :: segments))
    (hp : ∀ text, p ≠ .literal text) : ∃ rest, form s = some (p, rest) := by
  generalize hEq : p :: segments = all at h
  cases h with
  | nil => cases hEq
  | found hForm _ =>
    cases hEq
    exact ⟨_, hForm⟩
  | @push c s segments' _ _ =>
    rw [push.eq_def] at hEq
    split at hEq <;> cases hEq <;> exact absurd rfl (hp _)

theorem Cuts.ne_nil_of_literal (h : Recognises form P) (hP : ∀ p, P p → p.IsPlaceholder)
    (hCuts : Cuts form s segments) : ∀ text, .literal text ∈ segments → text ≠ [] := by
  induction hCuts with
  | nil => simp
  | found hForm _ ih =>
    intro text hMem
    rcases List.mem_cons.mp hMem with hEq | hMem
    · exact absurd hEq.symm ((hP _ (h.sound hForm).1).ne_literal text)
    · exact ih text hMem
  | @push c s segments' _ _ ih =>
    intro text hMem
    rw [push.eq_def] at hMem
    split at hMem
    · next text' others =>
      rcases List.mem_cons.mp hMem with hEq | hMem
      · cases hEq
        exact List.cons_ne_nil _ _
      · exact ih text (List.mem_cons_of_mem _ hMem)
    · rcases List.mem_cons.mp hMem with hEq | hMem
      · cases hEq
        exact List.cons_ne_nil _ _
      · exact ih text hMem

/-- A literal segment at the start starts like the text. -/
theorem Cuts.head?_eq {text : List Char} (hCuts : Cuts form s segments)
    (hne : text ≠ []) (h : segments.head? = some (.literal text)) : text.head? = s.head? := by
  obtain ⟨others, rfl⟩ := List.head?_eq_some_iff.mp h
  rw [← hCuts.flatMap_source, List.flatMap_cons, Segment.source,
    List.head?_append_of_ne_nil _ hne]

/-- A literal segment at the end ends like the text. -/
theorem Cuts.getLast?_eq {text : List Char} (hCuts : Cuts form s segments)
    (hne : text ≠ []) (h : segments.getLast? = some (.literal text)) :
    text.getLast? = s.getLast? := by
  obtain ⟨others, rfl⟩ := List.getLast?_eq_some_iff.mp h
  rw [← hCuts.flatMap_source, List.flatMap_append, List.flatMap_singleton, Segment.source,
    List.getLast?_append_of_ne_nil _ hne]

theorem push_of_ne_literal {p : Segment} (hp : ∀ text, p ≠ .literal text) (c : Char)
    (others : List Segment) : push c (p :: others) = .literal [c] :: p :: others := by
  cases p with
  | literal text => exact absurd rfl (hp text)
  | _ => rfl

/-- A character before a placeholder that is not read there is no space that it takes. -/
theorem Cuts.joins_literal (hGrabs : Grabs form) {c : Char} {p : Segment}
    (hp : ∀ text, p ≠ .literal text) (hCuts : Cuts form s (p :: segments))
    (hForm : form (c :: s) = none) : Joins (.literal [c]) p where
  not_literals := fun _ t => hp t
  leading := by
    rintro _ choice ⟨⟩ hSpace hChoice
    obtain rfl : c = ' ' := Option.some.inj hSpace
    obtain ⟨rest, hRead⟩ := hCuts.exists_form hp
    by_contra hLeading
    exact hGrabs.leading hRead hChoice (by simpa using hLeading) hForm
  trailing := by
    intro choice t hChoice
    cases hChoice

theorem Cuts.isChain (h : Recognises form P) (hP : ∀ p, P p → p.IsPlaceholder)
    (hGrabs : Grabs form) (hCuts : Cuts form s segments) : segments.IsChain Joins := by
  induction hCuts with
  | nil => exact .nil
  | @found p rest segments' hForm hCuts ih =>
    have hp := (hP p (h.sound hForm).1).ne_literal
    refine List.isChain_cons.mpr ⟨fun y hy => ⟨?_, ?_, ?_⟩, ih⟩
    · exact fun hLiteral => absurd hLiteral (hp _)
    · exact fun hLiteral => absurd hLiteral (hp _)
    · rintro c t hc rfl ht
      have hne := hCuts.ne_nil_of_literal h hP t (List.mem_of_mem_head? hy)
      exact hGrabs.trailing hForm hc (hCuts.head?_eq hne hy ▸ ht)
  | @push c s segments' hForm hCuts ih =>
    cases segments' with
    | nil => exact .singleton _
    | cons x others =>
      rcases x.literal_or_not with ⟨text, rfl⟩ | hx
      · have hne := hCuts.ne_nil_of_literal h hP text List.mem_cons_self
        obtain ⟨hNext, hOthers⟩ := List.isChain_cons.mp ih
        refine List.isChain_cons.mpr ⟨fun y hy => ⟨?_, ?_, ?_⟩, hOthers⟩
        · exact fun _ => (hNext y hy).not_literals rfl
        · rintro _ choice ⟨⟩ hSpace hChoice
          obtain ⟨d, text, rfl⟩ := List.exists_cons_of_ne_nil hne
          exact (hNext y hy).leading rfl (by simpa using hSpace) hChoice
        · intro choice t hChoice
          cases hChoice
      · rw [push_of_ne_literal hx]
        refine List.isChain_cons.mpr ⟨fun y hy => ?_, ih⟩
        cases hy
        exact hCuts.joins_literal hGrabs hx hForm

end Cut

/-! ### Cutting in turn -/

/-- Segments that stand as they were cut: none is empty, and they join. -/
structure Laid (segments : List Segment) : Prop where
  ne_nil : ∀ text, .literal text ∈ segments → text ≠ []
  joins : segments.IsChain Joins

section Turn

variable {form : List Char → Option (Segment × List Char)} {P : Segment → Prop}

theorem laid_cutFrom (h : Recognises form P) (hP : ∀ p, P p → p.IsPlaceholder)
    (hGrabs : Grabs form) (text : List Char) : Laid (cutFrom form 0 text) :=
  have hCuts := cuts_cutFrom h hP text
  ⟨hCuts.ne_nil_of_literal h hP, hCuts.isChain h hP hGrabs⟩

theorem cut_of_ne_literal {x : Segment} (hx : ∀ text, x ≠ .literal text) : cut form x = [x] := by
  cases x with
  | literal text => exact absurd rfl (hx text)
  | _ => rfl

theorem cut_ne_nil (h : Recognises form P) (hP : ∀ p, P p → p.IsPlaceholder) {x : Segment}
    (hne : ∀ text, x = .literal text → text ≠ []) : cut form x ≠ [] := by
  intro hNil
  rcases x.literal_or_not with ⟨text, rfl⟩ | hx
  · have hSource := (cuts_cutFrom h hP text).flatMap_source
    rw [show cutFrom form 0 text = [] from hNil] at hSource
    exact hne text rfl hSource.symm
  · rw [cut_of_ne_literal hx] at hNil
    cases hNil

/-- What a segment is cut to ends with itself or, if it is literal, ends like it. -/
theorem cut_getLast? (h : Recognises form P) (hP : ∀ p, P p → p.IsPlaceholder) {x x' : Segment}
    (hx' : x' ∈ (Template.cut form x).getLast?) : x' = x ∧ (∀ text, x ≠ .literal text) ∨
      ∃ s, x = .literal s ∧ ∀ s', x' = .literal s' → s'.getLast? = s.getLast? := by
  rcases x.literal_or_not with ⟨s, rfl⟩ | hx
  · refine .inr ⟨s, rfl, ?_⟩
    rintro s' rfl
    have hCuts := cuts_cutFrom h hP s
    exact hCuts.getLast?_eq (hCuts.ne_nil_of_literal h hP s' (List.mem_of_mem_getLast? hx')) hx'
  · rw [cut_of_ne_literal hx] at hx'
    exact .inl ⟨(Option.some.inj hx').symm, hx⟩

/-- What a segment is cut to starts with itself or, if it is literal, starts like it. -/
theorem cut_head? (h : Recognises form P) (hP : ∀ p, P p → p.IsPlaceholder) {y y' : Segment}
    (hy' : y' ∈ (Template.cut form y).head?) : y' = y ∧ (∀ text, y ≠ .literal text) ∨
      ∃ t, y = .literal t ∧ ∀ t', y' = .literal t' → t'.head? = t.head? := by
  rcases y.literal_or_not with ⟨t, rfl⟩ | hy
  · refine .inr ⟨t, rfl, ?_⟩
    rintro t' rfl
    have hCuts := cuts_cutFrom h hP t
    exact hCuts.head?_eq (hCuts.ne_nil_of_literal h hP t' (List.mem_of_mem_head? hy')) hy'
  · rw [cut_of_ne_literal hy] at hy'
    exact .inl ⟨(Option.some.inj hy').symm, hy⟩

/-- Where two segments can stand next to each other, what they are cut to can as well. -/
theorem Joins.cut (h : Recognises form P) (hP : ∀ p, P p → p.IsPlaceholder)
    {x y x' y' : Segment} (hJoins : Joins x y) (hx' : x' ∈ (Template.cut form x).getLast?)
    (hy' : y' ∈ (Template.cut form y).head?) : Joins x' y' := by
  rcases cut_getLast? h hP hx' with ⟨rfl, hx⟩ | ⟨s, rfl, hs⟩
  · rcases cut_head? h hP hy' with ⟨rfl, -⟩ | ⟨t, rfl, ht⟩
    · exact hJoins
    · refine ⟨fun hLiteral => absurd hLiteral (hx _), fun hLiteral => absurd hLiteral (hx _), ?_⟩
      rintro c t' hc rfl hSpace
      exact hJoins.trailing hc rfl (ht t' rfl ▸ hSpace)
  · rcases cut_head? h hP hy' with ⟨rfl, hy⟩ | ⟨t, rfl, -⟩
    · refine ⟨fun _ => hy, ?_, ?_⟩
      · rintro s' c rfl hSpace hc
        exact hJoins.leading rfl (hs s' rfl ▸ hSpace) hc
      · intro c t _ hLiteral
        exact absurd hLiteral (hy t)
    · exact absurd rfl (hJoins.not_literals rfl t)

theorem laid_cut (h : Recognises form P) (hP : ∀ p, P p → p.IsPlaceholder) (hGrabs : Grabs form)
    (x : Segment) : Laid (Template.cut form x) := by
  rcases x.literal_or_not with ⟨s, rfl⟩ | hx
  · exact laid_cutFrom h hP hGrabs s
  · rw [cut_of_ne_literal hx]
    exact ⟨fun text hMem => absurd (List.mem_singleton.mp hMem).symm (hx text), .singleton x⟩

theorem Laid.cut (h : Recognises form P) (hP : ∀ p, P p → p.IsPlaceholder) (hGrabs : Grabs form)
    {segments : List Segment} (hLaid : Laid segments) :
    Laid (segments.flatMap (Template.cut form)) := by
  constructor
  · intro text hMem
    obtain ⟨x, -, hCut⟩ := List.mem_flatMap.mp hMem
    exact (laid_cut h hP hGrabs x).ne_nil text hCut
  · rw [List.flatMap_def, List.isChain_flatten]
    · constructor
      · intro l hl
        obtain ⟨x, -, rfl⟩ := List.mem_map.mp hl
        exact (laid_cut h hP hGrabs x).joins
      · refine (List.isChain_map (Template.cut form)).mpr (hLaid.joins.imp ?_)
        exact fun x y hJoins x' hx' y' hy' => hJoins.cut h hP hx' hy'
    · intro hNil
      obtain ⟨x, hx, hCut⟩ := List.mem_map.mp hNil
      exact cut_ne_nil h hP (fun text hText => hLaid.ne_nil text (hText ▸ hx)) hCut

end Turn

/-- The segments of a text stand as they were cut. -/
theorem laid_segments (raw : List Char) : Laid (segments raw) :=
  ((laid_cutFrom byKey?_recognises (fun _ h => .inl h) (grabs_choice? fun _ => rfl) raw).cut
    byParameter?_recognises (fun _ h => .inr (.inl h)) (grabs_choice? fun _ => rfl)).cut
      value?_recognises (fun _ h => .inr (.inr h)) grabs_value?

/-! ### What is left -/

/-- What is left of a segment of which nothing is shown. -/
def Segment.left : Segment → List Char
  | literal text => text
  | byKey c => spaceText c.trailing
  | byParameter c => spaceText c.trailing
  | value _ _ => []

theorem Choice.text_of_otherwise_eq_none {c : Choice} (h : c.otherwise = none) :
    c.text false = spaceText c.trailing := by
  rw [Choice.text, if_neg Bool.false_ne_true, h]

theorem Segment.text_eq_left {values : TemplateValues} {parameters : List String}
    {segment : Segment} (h : segment.isDropped values parameters = true) :
    segment.text values parameters = segment.left := by
  cases segment with
  | literal text => rfl
  | byKey c =>
    simp only [isDropped, Bool.and_eq_true, Option.isNone_iff_eq_none] at h
    rw [Segment.text, h.2]
    exact Choice.text_of_otherwise_eq_none h.1
  | byParameter c =>
    simp only [isDropped, Bool.and_eq_true, Option.isNone_iff_eq_none, Bool.not_eq_true'] at h
    rw [Segment.text, h.2]
    exact Choice.text_of_otherwise_eq_none h.1
  | value key default => cases h

/-- Literal text and choices that stand as they were cut from a text without adjacent spaces. -/
structure Bare (segments : List Segment) : Prop extends Laid segments where
  literal_or_choice : ∀ x ∈ segments, (∃ text, x = .literal text) ∨ ∃ c, x.choice? = some c
  single : ¬[' ', ' '] <:+: segments.flatMap Segment.source

namespace Bare

variable {x : Segment} {segments : List Segment}

theorem tail (h : Bare (x :: segments)) : Bare segments where
  ne_nil := fun text hMem => h.ne_nil text (List.mem_cons_of_mem x hMem)
  joins := h.joins.tail
  literal_or_choice := fun y hy => h.literal_or_choice y (List.mem_cons_of_mem x hy)
  single := fun hInfix => h.single (hInfix.trans ⟨x.source, [], by simp⟩)

/-- No segment ends with a space where the next one starts with one. -/
theorem not_spaces (h : Bare (x :: segments)) (hx : x.source.getLast? = some ' ')
    (hRest : (segments.flatMap Segment.source).head? = some ' ') : False := by
  obtain ⟨front, hFront⟩ := List.getLast?_eq_some_iff.mp hx
  obtain ⟨back, hBack⟩ := List.head?_eq_some_iff.mp hRest
  refine h.single ⟨front, back, ?_⟩
  rw [List.flatMap_cons, hFront, hBack]
  simp

end Bare

theorem Segment.left_of_choice? {x : Segment} {c : Choice} (h : x.choice? = some c) :
    x.left = spaceText c.trailing := by
  cases x <;> cases h <;> rfl

theorem Segment.source_getLast?_of_choice? {x : Segment} {c : Choice} (h : x.choice? = some c)
    (hTrailing : c.trailing = true) : x.source.getLast? = some ' ' := by
  cases x <;> cases h <;> rw [Segment.source, Choice.source, hTrailing] <;>
    exact List.getLast?_concat

theorem Segment.source_head?_of_choice? {x : Segment} {c : Choice} (h : x.choice? = some c)
    (hLeading : c.leading = true) : x.source.head? = some ' ' := by
  cases x <;> cases h <;> simp [Segment.source, Choice.source, hLeading, spaceText]

/-- A space right behind a choice is left by a choice. -/
theorem exists_of_space_behind {x : Segment} {segments : List Segment} {c : Choice}
    {post : List Char} (h : Bare (x :: segments)) (hx : x.choice? = some c)
    (hSpace : segments.flatMap Segment.left = ' ' :: post) :
    ∃ between d back, segments = between ++ d :: back ∧
      (∀ y ∈ between, y.choice?.isSome = true) ∧ d.LeavesSpace ∧
      post = back.flatMap Segment.left := by
  induction segments generalizing x c with
  | nil => cases hSpace
  | cons y segments ih =>
    rw [List.flatMap_cons] at hSpace
    rcases h.literal_or_choice y (by simp) with ⟨text, rfl⟩ | ⟨d, hd⟩
    · exfalso
      have hne := h.ne_nil text (by simp)
      have hText : text.head? = some ' ' := by
        have hHead := congrArg List.head? hSpace
        rwa [Segment.left, List.head?_append_of_ne_nil _ hne] at hHead
      have hTrailing := (List.isChain_cons_cons.mp h.joins).1.trailing hx rfl hText
      refine h.not_spaces (Segment.source_getLast?_of_choice? hx hTrailing) ?_
      rwa [List.flatMap_cons, Segment.source, List.head?_append_of_ne_nil _ hne]
    · rw [Segment.left_of_choice? hd] at hSpace
      cases hTrailing : d.trailing with
      | true =>
        rw [hTrailing] at hSpace
        exact ⟨[], y, segments, rfl, by simp, ⟨d, hd, hTrailing⟩, (List.cons.inj hSpace).2.symm⟩
      | false =>
        rw [hTrailing] at hSpace
        obtain ⟨between, d', back, rfl, hBetween, hd', hPost⟩ := ih h.tail hd hSpace
        exact ⟨y :: between, d', back, rfl,
          List.forall_mem_cons.mpr ⟨by rw [hd]; rfl, hBetween⟩, hd', hPost⟩

theorem mem_spaceText {isThere : Bool} {c : Char} (h : c ∈ spaceText isThere) : c = ' ' := by
  cases isThere with
  | false => cases h
  | true => exact List.mem_singleton.mp h

theorem spaceText_length_le (isThere : Bool) : (spaceText isThere).length ≤ 1 := by
  cases isThere <;> decide

/-- No segment holds adjacent spaces when nothing is shown. -/
theorem Bare.not_left {x : Segment} {segments : List Segment} (h : Bare (x :: segments))
    {pre rest : List Char} : x.left ≠ pre ++ ' ' :: ' ' :: rest := by
  intro hLeft
  rcases h.literal_or_choice x List.mem_cons_self with ⟨text, rfl⟩ | ⟨c, hc⟩
  · refine h.single ⟨pre, rest ++ segments.flatMap Segment.source, ?_⟩
    change text = _ at hLeft
    rw [List.flatMap_cons, Segment.source, hLeft]
    simp
  · have hLength := spaceText_length_le c.trailing
    rw [← Segment.left_of_choice? hc, hLeft] at hLength
    simp only [List.length_append, List.length_cons] at hLength
    omega

/-- A space that ends what is left of a segment, with another one behind it, is left by a choice. -/
theorem exists_of_space_before {x : Segment} {segments : List Segment} {pre post : List Char}
    (h : Bare (x :: segments)) (hLeft : x.left = pre ++ [' '])
    (hBehind : segments.flatMap Segment.left = ' ' :: post) :
    pre = [] ∧ x.LeavesSpace ∧ ∃ between d back, segments = between ++ d :: back ∧
      (∀ y ∈ between, y.choice?.isSome = true) ∧ d.LeavesSpace ∧
      post = back.flatMap Segment.left := by
  rcases h.literal_or_choice x List.mem_cons_self with ⟨text, rfl⟩ | ⟨c, hc⟩
  · exfalso
    have hText : text.getLast? = some ' ' := by
      rw [show text = pre ++ [' '] from hLeft]
      exact List.getLast?_concat
    cases segments with
    | nil => cases hBehind
    | cons y segments =>
      have hJoins := (List.isChain_cons_cons.mp h.joins).1
      rcases h.literal_or_choice y (by simp) with ⟨t, rfl⟩ | ⟨d, hd⟩
      · exact hJoins.not_literals rfl t rfl
      · -- the choice takes the space before it, so this would stand next to another one
        have hHead := Segment.source_head?_of_choice? hd (hJoins.leading rfl hText hd)
        refine h.not_spaces hText ?_
        rw [List.flatMap_cons, List.head?_append, hHead]
        rfl
  · rw [Segment.left_of_choice? hc] at hLeft
    cases hTrailing : c.trailing with
    | false => simp [hTrailing, spaceText] at hLeft
    | true =>
      refine ⟨?_, ⟨c, hc, hTrailing⟩, exists_of_space_behind h hc hBehind⟩
      simpa [hTrailing, spaceText] using hLeft

/-- Adjacent spaces are left by two choices with nothing but choices between them. -/
theorem exists_of_adjacent_spaces {segments : List Segment} {pre post : List Char}
    (h : Bare segments) (hSpaces : segments.flatMap Segment.left = pre ++ ' ' :: ' ' :: post) :
    ∃ front c between d back, segments = front ++ c :: (between ++ d :: back) ∧ c.LeavesSpace ∧
      d.LeavesSpace ∧ (∀ y ∈ between, y.choice?.isSome = true) ∧
      pre = front.flatMap Segment.left ∧ post = back.flatMap Segment.left := by
  induction segments generalizing pre with
  | nil => simp at hSpaces
  | cons x segments ih =>
    have hLater : ∀ {pre' : List Char}, pre = x.left ++ pre' →
        segments.flatMap Segment.left = pre' ++ ' ' :: ' ' :: post →
        ∃ front c between d back, x :: segments = front ++ c :: (between ++ d :: back) ∧
          c.LeavesSpace ∧ d.LeavesSpace ∧ (∀ y ∈ between, y.choice?.isSome = true) ∧
          pre = front.flatMap Segment.left ∧ post = back.flatMap Segment.left := by
      rintro pre' rfl hRest
      obtain ⟨front, c, between, d, back, rfl, hc, hd, hBetween, rfl, hPost⟩ := ih h.tail hRest
      exact ⟨x :: front, c, between, d, back, rfl, hc, hd, hBetween, rfl, hPost⟩
    -- how many of the two spaces are left by `x`
    rw [List.flatMap_cons] at hSpaces
    rcases List.append_eq_append_iff.mp hSpaces with ⟨pre', hPre, hRest⟩ | ⟨bs, hLeft, hRest⟩
    · exact hLater hPre hRest
    match bs with
    | [] =>
      have hPre : pre = x.left ++ [] := by simp [hLeft]
      exact hLater hPre hRest.symm
    | [s] =>
      obtain ⟨rfl, hBehind⟩ : ' ' = s ∧ ' ' :: post = segments.flatMap Segment.left :=
        List.cons.inj hRest
      obtain ⟨rfl, hx, between, d, back, rfl, hBetween, hd, hPost⟩ :=
        exists_of_space_before h hLeft hBehind.symm
      exact ⟨[], x, between, d, back, rfl, hx, hd, hBetween, rfl, hPost⟩
    | s :: s' :: bs =>
      obtain ⟨rfl, hSecond⟩ : ' ' = s ∧ ' ' :: post = s' :: (bs ++ _) := List.cons.inj hRest
      obtain ⟨rfl, -⟩ := List.cons.inj hSecond
      exact absurd hLeft h.not_left

/-! ### Whole templates -/

/-- Adjacent spaces are left of a trimmed text if they are between words. -/
theorem spaces_infix_trim_iff {s : List Char} :
    [' ', ' '] <:+: trim s ↔ ∃ pre post, s = pre ++ ' ' :: ' ' :: post ∧
      (∃ c ∈ pre, isBlank c = false) ∧ ∃ c ∈ post, isBlank c = false := by
  constructor
  · rintro ⟨u, v, hTrim⟩
    obtain ⟨blanks, -, hEnd⟩ := exists_trimEnd_append (trimStart s)
    have hText : s = s.takeWhile isBlank ++ (trim s ++ blanks) := by
      rw [trim, ← hEnd, trimStart, List.takeWhile_append_dropWhile]
    have hHead := head?_dropWhile isBlank (trim s)
    rw [← trimStart, trimStart_trim, ← hTrim] at hHead
    have hLast := getLast?_trimEnd (trimStart s)
    rw [← trim, ← hTrim] at hLast
    refine ⟨s.takeWhile isBlank ++ u, v ++ blanks, ?_, ?_, ?_⟩
    · conv_lhs => rw [hText, ← hTrim]
      simp
    · cases u with
      | nil => exact absurd (hHead ' ' rfl) (by decide)
      | cons c u => exact ⟨c, by simp, hHead c rfl⟩
    · rcases List.eq_nil_or_concat' v with rfl | ⟨v, c, rfl⟩
      · exact absurd (hLast ' ' (by simp)) (by decide)
      · refine ⟨c, by simp, hLast c ?_⟩
        rw [← List.append_assoc]
        exact List.getLast?_concat
  · rintro ⟨pre, post, rfl, hPre, hPost⟩
    have hSplit : trimStart pre ++ ' ' :: ' ' :: post = trimStart pre ++ [' ', ' '] ++ post := by
      simp
    rw [trim, trimStart_append hPre, hSplit, trimEnd_append hPost]
    exact ⟨trimStart pre, trimEnd post, rfl⟩

theorem hasWord_iff {segments : List Segment} :
    (∃ c ∈ segments.flatMap Segment.left, isBlank c = false) ↔ ∃ x ∈ segments, x.HasWord := by
  have hSpace : ∀ isThere, ¬∃ c ∈ spaceText isThere, isBlank c = false := by
    rintro isThere ⟨c, hc, hBlank⟩
    rw [mem_spaceText hc] at hBlank
    exact absurd hBlank (by decide)
  have hLeft : ∀ x : Segment, (∃ c ∈ x.left, isBlank c = false) ↔ x.HasWord := by
    intro x
    cases x with
    | literal text =>
      constructor
      · exact fun h => ⟨text, rfl, h⟩
      · rintro ⟨_, ⟨⟩, h⟩
        exact h
    | byKey c => exact iff_of_false (hSpace _) (by rintro ⟨_, ⟨⟩, _⟩)
    | byParameter c => exact iff_of_false (hSpace _) (by rintro ⟨_, ⟨⟩, _⟩)
    | value key default => exact iff_of_false (by simp [Segment.left]) (by rintro ⟨_, ⟨⟩, _⟩)
  simp only [← hLeft, List.mem_flatMap]
  constructor
  · rintro ⟨c, ⟨x, hx, hc⟩, hBlank⟩
    exact ⟨x, hx, c, hc, hBlank⟩
  · rintro ⟨x, hx, c, hc, hBlank⟩
    exact ⟨c, ⟨x, hx, hc⟩, hBlank⟩

/-- Two choices that leave a space each, with nothing but choices between them, leave adjacent
spaces. -/
theorem exists_spaces (front back : List Segment) {between : List Segment} {c d : Segment}
    (hc : c.LeavesSpace) (hd : d.LeavesSpace) (hBetween : ∀ y ∈ between, y.choice?.isSome = true) :
    ∃ post, (front ++ c :: (between ++ d :: back)).flatMap Segment.left =
      front.flatMap Segment.left ++ ' ' :: ' ' :: post ∧
        back.flatMap Segment.left ⊆ post := by
  have hLeft : ∀ {x : Segment}, x.LeavesSpace → x.left = [' '] := by
    rintro x ⟨e, he, hTrailing⟩
    rw [Segment.left_of_choice? he, hTrailing]
    rfl
  have hSpaces : ∀ b ∈ between.flatMap Segment.left, b = ' ' := by
    intro b hb
    obtain ⟨y, hy, hby⟩ := List.mem_flatMap.mp hb
    obtain ⟨e, he⟩ := Option.isSome_iff_exists.mp (hBetween y hy)
    rw [Segment.left_of_choice? he] at hby
    exact mem_spaceText hby
  simp only [List.flatMap_append, List.flatMap_cons, hLeft hc, hLeft hd]
  cases hShown : between.flatMap Segment.left with
  | nil => exact ⟨back.flatMap Segment.left, rfl, fun _ hMem => hMem⟩
  | cons b spaces =>
    obtain rfl : b = ' ' := hSpaces b (by simp [hShown])
    refine ⟨spaces ++ ' ' :: back.flatMap Segment.left, rfl, fun e he => ?_⟩
    exact List.mem_append_right _ (List.mem_cons_of_mem _ he)

/-- **Adjacent spaces.** In a text without adjacent spaces, let all placeholders be choices of which
nothing is shown. There are adjacent spaces in what is rendered if and only if two of the choices
have a space behind them, nothing but choices is between these, and there are words before and
after them. -/
theorem render_adjacent_spaces_iff {raw : String} {values : TemplateValues}
    {parameters : List String} (hSingle : ¬[' ', ' '] <:+: raw.toList)
    (hDropped : ∀ x ∈ segments raw.toList, x.isDropped values parameters = true) :
    [' ', ' '] <:+: (render raw values parameters).toList ↔
      ∃ front c between d back, segments raw.toList = front ++ c :: (between ++ d :: back) ∧
        c.LeavesSpace ∧ d.LeavesSpace ∧ (∀ y ∈ between, y.choice?.isSome = true) ∧
        (∃ x ∈ front, x.HasWord) ∧ ∃ x ∈ back, x.HasWord := by
  have hText : (segments raw.toList).flatMap (Segment.text values parameters) =
      (segments raw.toList).flatMap Segment.left :=
    List.flatMap_congr fun x hx => Segment.text_eq_left (hDropped x hx)
  have hBare : Bare (segments raw.toList) := by
    refine ⟨laid_segments _, fun x hx => ?_, by rwa [flatMap_source_segments]⟩
    cases x with
    | literal text => exact .inl ⟨text, rfl⟩
    | byKey c => exact .inr ⟨c, rfl⟩
    | byParameter c => exact .inr ⟨c, rfl⟩
    | value key default => cases hDropped _ hx
  rw [render, String.toList_ofList, hText, spaces_infix_trim_iff]
  constructor
  · rintro ⟨pre, post, hSpaces, hPre, hPost⟩
    obtain ⟨front, c, between, d, back, hSegments, hc, hd, hBetween, rfl, rfl⟩ :=
      exists_of_adjacent_spaces hBare hSpaces
    exact ⟨front, c, between, d, back, hSegments, hc, hd, hBetween, hasWord_iff.mp hPre,
      hasWord_iff.mp hPost⟩
  · rintro ⟨front, c, between, d, back, hSegments, hc, hd, hBetween, hFront, hBack⟩
    obtain ⟨post, hSpaces, hPost⟩ := exists_spaces front back hc hd hBetween
    obtain ⟨e, he, hBlank⟩ := hasWord_iff.mpr hBack
    exact ⟨_, post, hSegments ▸ hSpaces, hasWord_iff.mpr hFront, e, hPost he, hBlank⟩

/-- Two choices that share a space. -/
theorem render_adjacent_spaces_shared :
    ¬[' ', ' '] <:+: "A \x7b\x7ba?x\x7d\x7d \x7b\x7bb?y\x7d\x7d B".toList ∧
    (∀ x ∈ segments "A \x7b\x7ba?x\x7d\x7d \x7b\x7bb?y\x7d\x7d B".toList,
      x.isDropped [] [] = true) ∧
    [' ', ' '] <:+:
      (render "A \x7b\x7ba?x\x7d\x7d \x7b\x7bb?y\x7d\x7d B" [] []).toList := by
  have hSingle : ¬[' ', ' '] <:+: "A \x7b\x7ba?x\x7d\x7d \x7b\x7bb?y\x7d\x7d B".toList := by
    decide +kernel
  have hDropped : ∀ x ∈ segments "A \x7b\x7ba?x\x7d\x7d \x7b\x7bb?y\x7d\x7d B".toList,
      x.isDropped [] [] = true := by
    decide +kernel
  refine ⟨hSingle, hDropped, (render_adjacent_spaces_iff hSingle hDropped).mpr ?_⟩
  refine ⟨[.literal ['A']], .byKey ⟨true, ['a'], ['x'], none, true⟩, [],
    .byKey ⟨false, ['b'], ['y'], none, true⟩, [.literal ['B']], by decide +kernel,
    ⟨_, rfl, rfl⟩, ⟨_, rfl, rfl⟩, by simp, ?_, ?_⟩
  · exact ⟨_, List.mem_singleton.mpr rfl, _, rfl, 'A', by simp, by decide⟩
  · exact ⟨_, List.mem_singleton.mpr rfl, _, rfl, 'B', by simp, by decide⟩

/-- So adjacent spaces can be left of a text that has none. -/
theorem not_single_spaced : ¬∀ (raw : String) (values : TemplateValues) (parameters : List String),
    ¬[' ', ' '] <:+: raw.toList →
    (∀ x ∈ segments raw.toList, x.isDropped values parameters = true) →
      ¬[' ', ' '] <:+: (render raw values parameters).toList := by
  intro h
  exact h "A \x7b\x7ba?x\x7d\x7d \x7b\x7bb?y\x7d\x7d B" [] [] (by decide +kernel)
    (by decide +kernel) (by decide +kernel)

end Template

end ClassSketch
