import ClassSketch.Doc.Template
import ClassSketch.Proofs.Text.Words

/-!
# Templates are cut once

A template is cut at its placeholders before anything is replaced, so where it is cut depends on its
text alone. Three forms are cut out in turn, and what one of them leaves is literal text for the
next one. What is left in the end has no placeholder of any form in it, and all the segments
together are the text.

Where a form is found is told by one property of its reader: it reads a placeholder at the head of a
text exactly if the text starts with one.

## Main definitions

* `Template.Segment.source` — the text of a segment as it stands in a template
* `Template.Segment.IsPlaceholder` — segments that are placeholders, with parts as they are captured
* `Template.Recognises` — a reader of placeholders of one kind

## Main results

* `Template.byKey?_recognises`, `Template.byParameter?_recognises`, `Template.value?_recognises` —
  the three forms
* `Template.flatMap_source_segments`, `Template.segments_parted` — the segments are the text, and no
  literal text holds a placeholder
* `Template.render_segments` — a template is its segments, each replaced on its own
-/

namespace ClassSketch

namespace Template

open Text

/-! ### Placeholders as they stand -/

/-- A text of characters that satisfy `p`, at least one. -/
structure IsRun (p : Char → Bool) (s : List Char) : Prop where
  ne_nil : s ≠ []
  all : ∀ c ∈ s, p c = true

/-- The text of an alternative that may be missing. -/
def alternativeSource : Option (List Char) → List Char
  | none => []
  | some text => ':' :: text

/-- The text of a choice whose name stands after the given mark. -/
def Choice.source (mark : List Char) (c : Choice) : List Char :=
  spaceText c.leading ++ ('\x7b' :: '\x7b' :: mark) ++ c.name ++ ['?'] ++ c.whenPresent ++
    alternativeSource c.otherwise ++ ['\x7d', '\x7d'] ++ spaceText c.trailing

/-- The text of a segment. -/
def Segment.source : Segment → List Char
  | literal text => text
  | byKey c => c.source []
  | byParameter c => c.source "param:".toList
  | value key default =>
    ['\x7b', '\x7b'] ++ key ++ alternativeSource default ++ ['\x7d', '\x7d']

/-- The parts of a choice are such as can be captured. -/
structure Choice.Fits (c : Choice) : Prop where
  name : IsRun isWord c.name
  whenPresent : IsRun isBranchText c.whenPresent
  otherwise : ∀ text ∈ c.otherwise, IsRun isOpenText text

/-- A choice by a key. -/
def Segment.IsByKey (p : Segment) : Prop := ∃ c : Choice, c.Fits ∧ p = byKey c

/-- A choice by a parameter. -/
def Segment.IsByParameter (p : Segment) : Prop := ∃ c : Choice, c.Fits ∧ p = byParameter c

/-- A placeholder for a value. -/
def Segment.IsValue (p : Segment) : Prop :=
  ∃ key default, IsRun isWord key ∧ (∀ text ∈ default, IsRun isBranchText text) ∧
    p = value key default

/-- A placeholder of one of the three forms. -/
def Segment.IsPlaceholder (p : Segment) : Prop := p.IsByKey ∨ p.IsByParameter ∨ p.IsValue

/-- No placeholder of the given kind stands in the text. -/
def Lacks (P : Segment → Prop) (text : List Char) : Prop := ∀ p, P p → ¬p.source <:+: text

/-! ### Reading the parts -/

/-- A run that is found is the text in front. -/
theorem run?_eq_some {p : Char → Bool} {s run rest : List Char} (h : run? p s = some (run, rest)) :
    IsRun p run ∧ s = run ++ rest := by
  have hSplit := List.takeWhile_append_dropWhile (p := p) (l := s)
  rw [run?] at h
  split at h
  · cases h
  · next hTake =>
    cases h
    rw [hTake] at hSplit
    exact ⟨⟨List.cons_ne_nil _ _, fun c hc => List.mem_takeWhile_imp (hTake ▸ hc)⟩, hSplit.symm⟩

/-- A run that a character ends is read. -/
theorem run?_append {p : Char → Bool} {run : List Char} (h : IsRun p run) {c : Char}
    (hc : p c = false) (rest : List Char) : run? p (run ++ c :: rest) = some (run, c :: rest) := by
  have hTake : (run ++ c :: rest).takeWhile p = run := by
    rw [List.takeWhile_append_of_pos h.all, List.takeWhile_cons_of_neg (by simp [hc]),
      List.append_nil]
  have hDrop : (run ++ c :: rest).dropWhile p = c :: rest := by
    rw [List.dropWhile_append_of_pos h.all, List.dropWhile_cons_of_neg (by simp [hc])]
  rw [run?, hTake, hDrop]
  cases run with
  | nil => exact absurd rfl h.ne_nil
  | cons d run => rfl

theorem eq_of_space {s rest : List Char} {isThere : Bool} (h : space s = (isThere, rest)) :
    s = spaceText isThere ++ rest := by
  rw [space.eq_def] at h
  split at h <;> cases h <;> rfl

/-- An alternative that is found stands in front as it is written. -/
theorem alternative?_eq_some {p : Char → Bool} {s rest : List Char} {o : Option (List Char)}
    (h : alternative? p s = some (o, rest)) :
    (∀ text ∈ o, IsRun p text) ∧ s = alternativeSource o ++ rest := by
  rw [alternative?.eq_def] at h
  split at h
  · obtain ⟨⟨run, rest'⟩, hRun, heq⟩ := Option.map_eq_some_iff.mp h
    cases heq
    obtain ⟨hFits, rfl⟩ := run?_eq_some hRun
    exact ⟨by simpa using hFits, rfl⟩
  · cases h
    exact ⟨by simp, rfl⟩

/-- An alternative before a closing brace is read. -/
theorem alternative?_append {p : Char → Bool} (hp : p '\x7d' = false) {o : Option (List Char)}
    (h : ∀ text ∈ o, IsRun p text) (rest : List Char) :
    alternative? p (alternativeSource o ++ '\x7d' :: rest) = some (o, '\x7d' :: rest) := by
  cases o with
  | none => rfl
  | some text =>
    change (run? p (text ++ '\x7d' :: rest)).map _ = _
    rw [run?_append (h text rfl) hp]
    rfl

/-! ### The forms -/

/-- The reader reads a placeholder of the given kind at the head of a text exactly if the text
starts with one. Which one it is may depend on what follows. -/
structure Recognises (form : List Char → Option (Segment × List Char)) (P : Segment → Prop) :
    Prop where
  sound : ∀ {s p rest}, form s = some (p, rest) → P p ∧ s = p.source ++ rest
  complete : ∀ {p}, P p → ∀ rest, form (p.source ++ rest) ≠ none

/-- A choice that is found stands in front as it is written, and its parts are what they may be. -/
theorem choice?_eq_some {mark s rest : List Char} {c : Choice}
    (h : choice? mark s = some (c, rest)) : c.Fits ∧ s = c.source mark ++ rest := by
  rw [choice?] at h
  cases hLeading : space s with | mk leading s₀ =>
  rw [hLeading] at h
  obtain ⟨s₁, hOpen, h⟩ := Option.bind_eq_some_iff.mp h
  obtain ⟨⟨name, s₂⟩, hName, h⟩ := Option.bind_eq_some_iff.mp h
  obtain ⟨s₃, hMark, h⟩ := Option.bind_eq_some_iff.mp h
  obtain ⟨⟨whenPresent, s₄⟩, hPresent, h⟩ := Option.bind_eq_some_iff.mp h
  obtain ⟨⟨otherwise, s₅⟩, hOtherwise, h⟩ := Option.bind_eq_some_iff.mp h
  obtain ⟨s₆, hClose, h⟩ := Option.bind_eq_some_iff.mp h
  cases hTrailing : space s₆ with | mk trailing s₇ =>
  simp only [hTrailing] at h
  cases h
  obtain ⟨hNameFits, rfl⟩ := run?_eq_some hName
  obtain ⟨hPresentFits, rfl⟩ := run?_eq_some hPresent
  obtain ⟨hOtherwiseFits, rfl⟩ := alternative?_eq_some hOtherwise
  refine ⟨⟨hNameFits, hPresentFits, hOtherwiseFits⟩, ?_⟩
  rw [eq_of_space hLeading, dropWord?_eq_some_iff.mp hOpen, dropWord?_eq_some_iff.mp hMark,
    dropWord?_eq_some_iff.mp hClose, eq_of_space hTrailing, Choice.source]
  simp only [List.append_assoc]

/-- A choice at the head of a text is read. The space after it may be one of the text. -/
theorem choice?_append {mark : List Char} {c : Choice} (h : c.Fits) (rest : List Char) :
    choice? mark (c.source mark ++ rest) ≠ none := by
  have hSource : c.source mark ++ rest = spaceText c.leading ++ '\x7b' :: '\x7b' :: (mark ++
      (c.name ++ '?' :: (c.whenPresent ++ (alternativeSource c.otherwise ++
        '\x7d' :: '\x7d' :: (spaceText c.trailing ++ rest))))) := by
    simp [Choice.source]
  have hSpace : ∀ s, space (spaceText c.leading ++ '\x7b' :: s) = (c.leading, '\x7b' :: s) := by
    intro s
    cases c.leading <;> rfl
  have hOpen : ∀ s, dropWord? ('\x7b' :: '\x7b' :: mark) ('\x7b' :: '\x7b' :: (mark ++ s)) =
      some s := fun s => dropWord?_eq_some_iff.mpr rfl
  have hName := fun s => run?_append h.name (c := '?') (by decide +kernel) s
  have hMark : ∀ s, dropWord? ['?'] ('?' :: s) = some s := fun s => rfl
  have hPresent : ∀ s, run? isBranchText (c.whenPresent ++ (alternativeSource c.otherwise ++
      '\x7d' :: s)) = some (c.whenPresent, alternativeSource c.otherwise ++ '\x7d' :: s) := by
    intro s
    cases c.otherwise <;> exact run?_append h.whenPresent (by decide) _
  have hOtherwise := fun s => alternative?_append (by decide) h.otherwise s
  have hClose : ∀ s, dropWord? ['\x7d', '\x7d'] ('\x7d' :: '\x7d' :: s) = some s := fun s => rfl
  rw [hSource, choice?, hSpace]
  simp [hOpen, hName, hMark, hPresent, hOtherwise, hClose]

/-- Both forms of choices are recognised. -/
theorem choice?_recognises {mark : List Char} {choose : Choice → Segment}
    (hSource : ∀ c, (choose c).source = c.source mark) :
    Recognises (fun s => (choice? mark s).map fun (c, rest) => (choose c, rest))
      fun p => ∃ c : Choice, c.Fits ∧ p = choose c where
  sound := by
    intro s p rest h
    obtain ⟨⟨c, rest'⟩, hChoice, heq⟩ := Option.map_eq_some_iff.mp h
    cases heq
    obtain ⟨hFits, hChoice⟩ := choice?_eq_some hChoice
    exact ⟨⟨c, hFits, rfl⟩, hSource c ▸ hChoice⟩
  complete := by
    rintro _ ⟨c, hFits, rfl⟩ rest h
    rw [hSource] at h
    exact choice?_append hFits rest (Option.map_eq_none_iff.mp h)

theorem byKey?_recognises : Recognises byKey? Segment.IsByKey :=
  choice?_recognises fun _ => rfl

theorem byParameter?_recognises : Recognises byParameter? Segment.IsByParameter :=
  choice?_recognises fun _ => rfl

theorem value?_recognises : Recognises value? Segment.IsValue where
  sound := by
    intro s p rest h
    rw [value?] at h
    obtain ⟨s₁, hOpen, h⟩ := Option.bind_eq_some_iff.mp h
    obtain ⟨⟨key, s₂⟩, hKey, h⟩ := Option.bind_eq_some_iff.mp h
    obtain ⟨⟨default, s₃⟩, hDefault, h⟩ := Option.bind_eq_some_iff.mp h
    obtain ⟨s₄, hClose, h⟩ := Option.bind_eq_some_iff.mp h
    cases h
    obtain ⟨hKeyFits, rfl⟩ := run?_eq_some hKey
    obtain ⟨hDefaultFits, rfl⟩ := alternative?_eq_some hDefault
    refine ⟨⟨key, default, hKeyFits, hDefaultFits, rfl⟩, ?_⟩
    rw [dropWord?_eq_some_iff.mp hOpen, dropWord?_eq_some_iff.mp hClose, Segment.source]
    simp only [List.append_assoc]
  complete := by
    rintro _ ⟨key, default, hKeyFits, hDefaultFits, rfl⟩ rest
    have hSource : (Segment.value key default).source ++ rest = '\x7b' :: '\x7b' :: (key ++
        (alternativeSource default ++ '\x7d' :: '\x7d' :: rest)) := by
      simp [Segment.source]
    have hOpen : ∀ s, dropWord? ['\x7b', '\x7b'] ('\x7b' :: '\x7b' :: s) = some s := fun s => rfl
    have hKey : ∀ s, run? isWord (key ++ (alternativeSource default ++ '\x7d' :: s)) =
        some (key, alternativeSource default ++ '\x7d' :: s) := by
      intro s
      cases default <;> exact run?_append hKeyFits (by decide +kernel) _
    have hDefault := fun s => alternative?_append (by decide) hDefaultFits s
    have hClose : ∀ s, dropWord? ['\x7d', '\x7d'] ('\x7d' :: '\x7d' :: s) = some s := fun s => rfl
    rw [hSource, value?]
    simp [hOpen, hKey, hDefault, hClose]

/-! ### Cutting -/

section

variable {form : List Char → Option (Segment × List Char)} {P Q : Segment → Prop}

theorem Segment.IsPlaceholder.source_ne_nil {p : Segment} (h : p.IsPlaceholder) :
    p.source ≠ [] := by
  rcases h with ⟨c, -, rfl⟩ | ⟨c, -, rfl⟩ | ⟨key, default, -, -, rfl⟩ <;>
    simp [Segment.source, Choice.source]

theorem flatMap_source_push (c : Char) (segments : List Segment) :
    (push c segments).flatMap Segment.source = c :: segments.flatMap Segment.source := by
  rw [push.eq_def]
  split <;> rfl

theorem cutFrom_eq_drop (n : ℕ) (s : List Char) : cutFrom form n s = cutFrom form 0 (s.drop n) := by
  induction n generalizing s with
  | zero => rfl
  | succ n ih =>
    cases s with
    | nil => simp [cutFrom]
    | cons c s => rw [cutFrom, ih, List.drop_succ_cons]

/-- A placeholder is cut off in one piece, and the rest is cut on its own. -/
theorem cutFrom_found {s : List Char} {p : Segment} {rest : List Char}
    (h : form s = some (p, rest)) (hSource : s = p.source ++ rest) (hne : p.source ≠ []) :
    cutFrom form 0 s = p :: cutFrom form 0 rest := by
  obtain ⟨c, source, hCons⟩ := List.exists_cons_of_ne_nil hne
  rw [hCons, List.cons_append] at hSource
  subst hSource
  rw [cutFrom, h]
  simp only
  rw [cutFrom_eq_drop, List.length_append, Nat.add_sub_cancel, List.drop_left]

/-- Where no placeholder starts, a character is put before the pieces of the rest. -/
theorem cutFrom_not_found {c : Char} {s : List Char} (h : form (c :: s) = none) :
    cutFrom form 0 (c :: s) = push c (cutFrom form 0 s) := by
  rw [cutFrom, h]

/-- How a text is cut: at a placeholder where one is read, and else behind the next character. -/
inductive Cuts (form : List Char → Option (Segment × List Char)) : List Char → List Segment → Prop
  | nil : Cuts form [] []
  | found {p : Segment} {rest : List Char} {segments : List Segment} :
      form (p.source ++ rest) = some (p, rest) → Cuts form rest segments →
        Cuts form (p.source ++ rest) (p :: segments)
  | push {c : Char} {s : List Char} {segments : List Segment} :
      form (c :: s) = none → Cuts form s segments → Cuts form (c :: s) (push c segments)

theorem cuts_cutFrom (h : Recognises form P) (hP : ∀ p, P p → p.IsPlaceholder) (s : List Char) :
    Cuts form s (cutFrom form 0 s) := by
  induction hLength : s.length using Nat.strong_induction_on generalizing s with
  | _ n ih =>
    cases s with
    | nil =>
      rw [cutFrom]
      exact .nil
    | cons c s =>
      cases hForm : form (c :: s) with
      | none =>
        rw [cutFrom_not_found hForm]
        exact .push hForm (ih s.length (hLength ▸ Nat.lt_succ_self _) s rfl)
      | some result =>
        obtain ⟨p, rest⟩ := result
        obtain ⟨hp, hSource⟩ := h.sound hForm
        have hne := (hP p hp).source_ne_nil
        rw [cutFrom_found hForm hSource hne]
        rw [hSource] at hForm hLength ⊢
        rw [List.length_append] at hLength
        have hShorter : rest.length < n := by
          have := List.length_pos_iff.mpr hne
          omega
        exact .found hForm (ih rest.length hShorter rest rfl)

/-- The pieces make up the text. -/
theorem Cuts.flatMap_source {s : List Char} {segments : List Segment} (h : Cuts form s segments) :
    segments.flatMap Segment.source = s := by
  induction h with
  | nil => rfl
  | found _ _ ih => rw [List.flatMap_cons, ih]
  | push _ _ ih => rw [flatMap_source_push, ih]

/-- Segments of which the literal ones have no place where a placeholder is read, with all that
follows them. -/
inductive Settled (form : List Char → Option (Segment × List Char)) (P : Segment → Prop) :
    List Segment → Prop
  | nil : Settled form P []
  | placeholder {p : Segment} {segments : List Segment} :
      P p → Settled form P segments → Settled form P (p :: segments)
  | literal {text : List Char} {segments : List Segment} :
      (∀ tail, tail ≠ [] → tail <:+ text →
        form (tail ++ segments.flatMap Segment.source) = none) →
        Settled form P segments → Settled form P (.literal text :: segments)

theorem Settled.push (hP : ∀ p, P p → p.IsPlaceholder) {c : Char} {segments : List Segment}
    (h : Settled form P segments) (hForm : form (c :: segments.flatMap Segment.source) = none) :
    Settled form P (push c segments) := by
  have hStart : Settled form P (.literal [c] :: segments) := by
    refine .literal (fun tail hne hTail => ?_) h
    rcases List.suffix_cons_iff.mp hTail with rfl | hTail
    · exact hForm
    · exact absurd (List.suffix_nil.mp hTail) hne
  cases h with
  | nil => exact hStart
  | placeholder hp _ =>
    rcases hP _ hp with ⟨_, _, rfl⟩ | ⟨_, _, rfl⟩ | ⟨_, _, _, _, rfl⟩ <;> exact hStart
  | literal hTails hOthers =>
    refine .literal (fun tail hne hTail => ?_) hOthers
    rcases List.suffix_cons_iff.mp hTail with rfl | hTail
    · exact hForm
    · exact hTails tail hne hTail

/-- Between placeholders, no other placeholder has been passed over. -/
theorem Cuts.settled (h : Recognises form P) (hP : ∀ p, P p → p.IsPlaceholder) {s : List Char}
    {segments : List Segment} (hCuts : Cuts form s segments) : Settled form P segments := by
  induction hCuts with
  | nil => exact .nil
  | found hForm _ ih => exact .placeholder (h.sound hForm).1 ih
  | push hForm hOthers ih => exact ih.push hP (hOthers.flatMap_source.symm ▸ hForm)

/-- A literal segment has no placeholder in it, as it would have been read there. -/
theorem Settled.lacks (h : Recognises form P) (hP : ∀ p, P p → p.IsPlaceholder)
    {segments : List Segment} (hSettled : Settled form P segments) :
    ∀ segment ∈ segments, P segment ∨ ∃ text, segment = .literal text ∧ Lacks P text := by
  induction hSettled with
  | nil => simp
  | placeholder hp _ ih => exact List.forall_mem_cons.mpr ⟨.inl hp, ih⟩
  | literal hTails _ ih =>
    refine List.forall_mem_cons.mpr ⟨.inr ⟨_, rfl, fun p hp hInfix => ?_⟩, ih⟩
    obtain ⟨front, back, rfl⟩ := hInfix
    have hne : p.source ++ back ≠ [] := List.append_ne_nil_of_left_ne_nil (hP p hp).source_ne_nil _
    have hNone := hTails (p.source ++ back) hne ⟨front, (List.append_assoc ..).symm⟩
    rw [List.append_assoc] at hNone
    exact h.complete hp _ hNone

/-! ### Cutting in turn -/

/-- A part of a text lacks the placeholders that the text lacks. -/
theorem Lacks.of_infix {text text' : List Char} (h : Lacks P text) (hInfix : text' <:+: text) :
    Lacks P text' := fun p hp hSource => h p hp (hSource.trans hInfix)

theorem source_infix {segments : List Segment} {segment : Segment} (h : segment ∈ segments) :
    segment.source <:+: segments.flatMap Segment.source := by
  obtain ⟨front, back, rfl⟩ := List.append_of_mem h
  refine ⟨front.flatMap Segment.source, back.flatMap Segment.source, ?_⟩
  rw [List.flatMap_append, List.flatMap_cons, List.append_assoc]

/-- Each segment is a placeholder, or literal text without placeholders of the given kind. -/
def Parted (Q : Segment → Prop) (segments : List Segment) : Prop :=
  ∀ segment ∈ segments, segment.IsPlaceholder ∨ ∃ text, segment = .literal text ∧ Lacks Q text

theorem cut_of_isPlaceholder {p : Segment} (h : p.IsPlaceholder) : cut form p = [p] := by
  rcases h with ⟨_, _, rfl⟩ | ⟨_, _, rfl⟩ | ⟨_, _, _, _, rfl⟩ <;> rfl

theorem flatMap_source_cut (h : Recognises form P) (hP : ∀ p, P p → p.IsPlaceholder)
    (segments : List Segment) :
    (segments.flatMap (cut form)).flatMap Segment.source = segments.flatMap Segment.source := by
  rw [List.flatMap_assoc]
  refine List.flatMap_congr fun segment _ => ?_
  cases segment with
  | literal text => exact (cuts_cutFrom h hP text).flatMap_source
  | byKey c => exact List.flatMap_singleton ..
  | byParameter c => exact List.flatMap_singleton ..
  | value key default => exact List.flatMap_singleton ..

/-- Cutting at one more form leaves literal text without placeholders of that form either. -/
theorem Parted.cut (h : Recognises form P) (hP : ∀ p, P p → p.IsPlaceholder)
    {segments : List Segment} (hParted : Parted Q segments) :
    Parted (fun p => Q p ∨ P p) (segments.flatMap (cut form)) := by
  intro segment hSegment
  obtain ⟨whole, hWhole, hCut⟩ := List.mem_flatMap.mp hSegment
  rcases hParted whole hWhole with hPlaceholder | ⟨text, rfl, hLacks⟩
  · rw [cut_of_isPlaceholder hPlaceholder, List.mem_singleton] at hCut
    exact .inl (hCut ▸ hPlaceholder)
  · have hCuts := cuts_cutFrom h hP text
    rcases (hCuts.settled h hP).lacks h hP segment hCut with hp | ⟨text', rfl, hLacks'⟩
    · exact .inl (hP segment hp)
    · have hInfix : text' <:+: text := hCuts.flatMap_source ▸ source_infix hCut
      exact .inr ⟨text', rfl, fun p hp => hp.elim (hLacks.of_infix hInfix p) (hLacks' p)⟩

end

/-! ### Whole templates -/

/-- **The segments of a template make up the template.** -/
theorem flatMap_source_segments (raw : List Char) :
    (segments raw).flatMap Segment.source = raw := by
  rw [segments, flatMap_source_cut value?_recognises fun _ h => .inr (.inr h),
    flatMap_source_cut byParameter?_recognises fun _ h => .inr (.inl h)]
  exact (cuts_cutFrom byKey?_recognises (fun _ h => .inl h) raw).flatMap_source

/-- What stands between the placeholders of a template contains none. -/
theorem segments_parted (raw : List Char) : Parted Segment.IsPlaceholder (segments raw) := by
  have hRaw : Parted (fun _ => False) [Segment.literal raw] := by
    intro segment h
    rw [List.mem_singleton.mp h]
    exact .inr ⟨raw, rfl, fun _ h => h.elim⟩
  have hByKey := hRaw.cut byKey?_recognises fun _ h => .inl h
  have hByParameter := hByKey.cut byParameter?_recognises fun _ h => .inr (.inl h)
  have hValue := hByParameter.cut value?_recognises fun _ h => .inr (.inr h)
  rw [List.flatMap_singleton] at hValue
  intro segment hSegment
  rcases hValue segment hSegment with hPlaceholder | ⟨text, rfl, hLacks⟩
  · exact .inl hPlaceholder
  · refine .inr ⟨text, rfl, fun p hp => hLacks p ?_⟩
    rcases hp with hp | hp | hp
    · exact .inl (.inl (.inr hp))
    · exact .inl (.inr hp)
    · exact .inr hp

/-- A text without placeholders is one literal segment, up to how it is cut. -/
theorem flatMap_text_of_lacks {raw : List Char} (h : Lacks Segment.IsPlaceholder raw)
    (values : TemplateValues) (parameters : List String) :
    (segments raw).flatMap (Segment.text values parameters) = raw := by
  have hSource := flatMap_source_segments raw
  refine Eq.trans (List.flatMap_congr fun segment hSegment => ?_) hSource
  rcases segments_parted raw segment hSegment with hPlaceholder | ⟨text, rfl, -⟩
  · exact absurd (hSource ▸ source_infix hSegment) (h segment hPlaceholder)
  · rfl

/-- A template is cut into segments that are there before anything is replaced: together they are
the text, and each is a placeholder or literal text that has no placeholder in it. Whatever the
values and parameters are, the text with all placeholders replaced is what replaces the segments,
one after the other; so what replaces a placeholder is not looked at again, and without a
placeholder there is nothing to replace. -/
theorem render_segments (raw : String) : ∃ segments : List Segment,
    segments.flatMap Segment.source = raw.toList ∧
    (∀ segment ∈ segments, segment.IsPlaceholder ∨
      ∃ text, segment = .literal text ∧ ∀ p : Segment, p.IsPlaceholder → ¬p.source <:+: text) ∧
    (∀ values parameters, render raw values parameters =
      String.ofList (trim (segments.flatMap (Segment.text values parameters)))) ∧
    ((∀ p : Segment, p.IsPlaceholder → ¬p.source <:+: raw.toList) →
      ∀ values parameters, render raw values parameters = String.ofList (trim raw.toList)) := by
  refine ⟨segments raw.toList, flatMap_source_segments _, segments_parted _, fun _ _ => rfl, ?_⟩
  intro hLacks values parameters
  rw [render, flatMap_text_of_lacks hLacks]

theorem lacks_of_not_mem {text : List Char} (h : '\x7b' ∉ text) :
    Lacks Segment.IsPlaceholder text := by
  intro p hp hInfix
  refine h (hInfix.subset ?_)
  rcases hp with ⟨c, -, rfl⟩ | ⟨c, -, rfl⟩ | ⟨key, default, -, -, rfl⟩ <;>
    simp [Segment.source, Choice.source]

/-- A text with closing braces only. -/
theorem render_segments_plain :
    (∀ p : Segment, p.IsPlaceholder → ¬p.source <:+: " a\x7d b\x7d\x7d ".toList) ∧
    ∀ values parameters, render " a\x7d b\x7d\x7d " values parameters = "a\x7d b\x7d\x7d" := by
  have hLacks : Lacks Segment.IsPlaceholder " a\x7d b\x7d\x7d ".toList :=
    lacks_of_not_mem (by decide)
  obtain ⟨segments, -, -, -, hPlain⟩ := render_segments " a\x7d b\x7d\x7d "
  exact ⟨hLacks, hPlain hLacks⟩

example : render "\x7b\x7ba\x7d\x7d" [("a", "\x7b\x7bb\x7d\x7d"), ("b", "c")] [] =
    "\x7b\x7bb\x7d\x7d" := by
  decide +kernel

end Template

end ClassSketch
