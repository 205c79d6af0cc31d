import ClassSketch.Proofs.Signature.Lookahead

/-!
# Texts that can be completed

A parser that gets to the end of a text and misses something there has read the beginning of a
derivation. So the text can be completed, whatever the parser was in the middle of. The empty lists
are the exception: their fault is found after their closing bracket.

The lemmas follow the productions. Each takes apart what was read before the end, which is made of
whole derivations, and completes the one that was begun.

## Main definitions

* `Unfinished` — texts at whose end a parser misses something
* `Completable` — parsers for which all such texts are beginnings of derivations

## Main results

* `referenceType_completable`, `formals_completable` — types and type parameters
* `field_completable`, `class_completable`, `method_completable` — whole signatures
-/

namespace ClassSketch

namespace Signature

open Parsing

variable {α β δ : Type}

/-- At the end of the text, the parser misses something. -/
def Unfinished (p : Parser α) (s : List Char) : Prop :=
  ∃ fault, p s = .error ⟨fault, []⟩ ∧ fault ≠ .emptyParameters ∧ fault ≠ .emptyArguments

/-- A text at whose end the parser misses something is the beginning of the text of a
derivation. -/
def Completable (p : Parser α) (text : δ → List Char) : Prop :=
  ∀ {s : List Char}, Unfinished p s → ∃ d, s <+: text d

section Unfinished

variable {p q : Parser α} {f : α → Parser β} {s t : List Char}

/-- A sequence is unfinished in its first part, or in its second one after the first. -/
theorem unfinished_bind :
    Unfinished (p >>= f) s ↔
      Unfinished p s ∨ ∃ x t, p s = .ok (x, t) ∧ Unfinished (f x) t := by
  simp only [Unfinished, bind_eq_error]
  constructor
  · rintro ⟨fault, h | ⟨x, t, hp, h⟩, hFault⟩
    · exact .inl ⟨fault, h, hFault⟩
    · exact .inr ⟨x, t, hp, fault, h, hFault⟩
  · rintro (⟨fault, h, hFault⟩ | ⟨x, t, hp, fault, h, hFault⟩)
    · exact ⟨fault, .inl h, hFault⟩
    · exact ⟨fault, .inr ⟨x, t, hp, h⟩, hFault⟩

theorem unfinished_test {more : List Char → Bool} :
    Unfinished (get >>= fun s => if more s then p else q) s ↔
      Unfinished (if more s then p else q) s := by
  simp only [Unfinished, bind_of_ok (get_run s)]

theorem not_unfinished_pure (x : α) : ¬Unfinished (pure x : Parser α) s := by
  rintro ⟨fault, h, -⟩
  cases h

/-- A parser that stops at once is unfinished at the end of a text only. -/
theorem unfinished_stop {fault : SignatureFault} (h : Unfinished (stop fault : Parser α) s) :
    s = [] ∧ fault ≠ .emptyParameters ∧ fault ≠ .emptyArguments := by
  obtain ⟨_, h, hFault⟩ := h
  cases h
  exact ⟨rfl, hFault⟩

/-- A text at whose end the next character is missed is empty. -/
theorem unfinished_expect {c : Char} (h : Unfinished (expect c) s) : s = [] := by
  obtain ⟨fault, h, -⟩ := h
  cases s with
  | nil => rfl
  | cons d s =>
    rw [expect] at h
    split at h <;> cases h

/-- An unfinished text is empty, or it starts with the character and its rest is unfinished. -/
theorem unfinished_after {c : Char} {f : Unit → Parser β} (h : Unfinished (expect c >>= f) s) :
    s = [] ∨ ∃ t, s = c :: t ∧ Unfinished (f ()) t := by
  rcases unfinished_bind.mp h with h | ⟨_, t, hTake, h⟩
  · exact .inl (unfinished_expect h)
  · exact .inr ⟨t, expect_eq_ok.mp hTake, h⟩

theorem unfinished_bind_pure {g : α → β} :
    Unfinished (p >>= fun x => pure (g x)) s ↔ Unfinished p s := by
  refine unfinished_bind.trans (or_iff_left ?_)
  rintro ⟨_, _, _, h⟩
  exact not_unfinished_pure _ h

theorem nonempty_identifier {ends : List Char} (hEnds : 'A' ∉ ends) :
    Nonempty (Identifier ends) :=
  ⟨⟨['A'], by simp, by simpa using hEnds⟩⟩

/-- The name of one letter is missing at most its end. -/
theorem identifier_completable {ends : List Char} (hEnds : 'A' ∉ ends) :
    Completable (identifier ends) (Identifier.chars : Identifier ends → List Char) := by
  rintro s ⟨fault, h, -⟩
  have hFree : s = [] ∨ s ≠ [] ∧ ∀ c ∈ s, c ∉ ends := by
    rcases identifier_eq_error.mp h with ⟨-, heq⟩ | ⟨hFree, -⟩
    · cases heq
      exact .inl rfl
    · exact .inr hFree
  rcases hFree with rfl | ⟨hne, hFree⟩
  · obtain ⟨i⟩ := nonempty_identifier hEnds
    exact ⟨i, List.nil_prefix⟩
  · exact ⟨⟨s, hne, hFree⟩, List.prefix_rfl⟩

theorem Repeats.length_le {more : List Char → Bool} {item : Parser α} (hItem : Consumes item)
    {xs : List α} (h : Repeats more item s xs t) : t.length ≤ s.length := by
  induction h with
  | stop _ => exact le_rfl
  | step _ hx _ ih => exact le_trans ih (hItem hx).le

theorem Repeats.more_eq_false {more : List Char → Bool} {item : Parser α} {xs : List α}
    (h : Repeats more item s xs t) : more t = false := by
  induction h with
  | stop hMore => exact hMore
  | step _ _ _ ih => exact ih

/-- Items are read up to the one that is not finished. -/
theorem unfinished_repeatWhile {more : List Char → Bool} {item : Parser α}
    (hItem : Consumes item) (h : Unfinished (repeatWhile more item) s) :
    ∃ xs t, Repeats (fun u => decide (t.length < u.length)) item s xs t ∧ more t = true ∧
      Unfinished item t := by
  induction hLength : s.length using Nat.strong_induction_on generalizing s with
  | _ n ih =>
    rw [repeatWhile_eq hItem, unfinished_test] at h
    split at h
    · next hMore =>
      rcases unfinished_bind.mp h with h | ⟨x, u, hx, h⟩
      · exact ⟨[], s, .stop (by simp), hMore, h⟩
      · have hu := hItem hx
        rcases unfinished_bind.mp h with h | ⟨_, _, _, h⟩
        · obtain ⟨xs, t, hRepeats, hRest⟩ := ih u.length (hLength ▸ hu) h rfl
          have ht := lt_of_le_of_lt (hRepeats.length_le hItem) hu
          exact ⟨x :: xs, t, .step (by simpa using ht) hx hRepeats, hRest⟩
        · exact absurd h (not_unfinished_pure _)
    · exact absurd h (not_unfinished_pure _)

/-- After items up to a closing character, that character is there. Then nothing is missed but
an item. -/
theorem not_unfinished_close {c : Char} {item : Parser α} {fault : SignatureFault} {xs : List α}
    (hItem : Consumes item) (hItems : repeatWhile (fun s => !starts c s) item s = .ok (xs, t))
    (hFault : fault = .emptyParameters ∨ fault = .emptyArguments) :
    ¬Unfinished (expect c >>= fun _ =>
      if xs.isEmpty then (stop fault : Parser PUnit) >>= fun _ => pure xs else pure xs) t := by
  intro h
  have hMore := ((repeatWhile_eq_ok hItem).mp hItems).more_eq_false
  rcases unfinished_after h with rfl | ⟨u, rfl, hClosed⟩
  · cases hMore
  split at hClosed
  · obtain ⟨-, hParameters, hArguments⟩ := unfinished_stop (unfinished_bind_pure.mp hClosed)
    exact hFault.elim hParameters hArguments
  · exact not_unfinished_pure _ hClosed

end Unfinished

/-! ### Types -/

theorem variableType_completable :
    Completable variableType fun i : Identifier variableEnds => (RefTree.typeVariable i).text := by
  intro s h
  rcases unfinished_after h with rfl | ⟨u, rfl, hName⟩
  · obtain ⟨i⟩ := nonempty_identifier (by decide : 'A' ∉ variableEnds)
    exact ⟨i, List.nil_prefix⟩
  rcases unfinished_bind.mp hName with hName | ⟨x, v, hName, hEnd⟩
  · obtain ⟨i, hi⟩ := identifier_completable (by decide) hName
    exact ⟨i, List.prefix_append_of_prefix (List.cons_prefix_cons.mpr ⟨rfl, hi⟩)⟩
  · obtain ⟨i, rfl, rfl, -⟩ := identifier_eq_ok.mp hName
    obtain rfl := unfinished_expect (unfinished_bind_pure.mp hEnd)
    exact ⟨i, by simp [RefTree.text]⟩

section Types

variable {n : ℕ} {type : Parser TypeRef}

theorem javaType_completable (hType : Completable type RefTree.text) :
    Completable (javaType type) JavaTree.text := by
  intro s h
  have hReference : Unfinished type s → ∃ d : JavaTree, s <+: d.text := fun h =>
    have ⟨d, hd⟩ := hType h
    ⟨.reference d, hd⟩
  cases s with
  | nil => exact hReference h
  | cons c s =>
    obtain ⟨fault, h, hFault⟩ := h
    rw [javaType] at h
    split at h
    · cases h
    · exact hReference ⟨fault, h, hFault⟩

/-- An unfinished type argument can be completed, at worst by a type. -/
theorem argument_completable (hType : Completable type RefTree.text) :
    Completable (argument type) ArgumentTree.text := by
  intro s h
  have hNil : ∃ d : ArgumentTree, [] <+: d.text := ⟨.unbounded, List.nil_prefix⟩
  rw [argument_eq, unfinished_test] at h
  split at h
  · rcases unfinished_after h with rfl | ⟨u, rfl, hRest⟩
    · exact hNil
    · exact absurd hRest (not_unfinished_pure _)
  rw [unfinished_test] at h
  split at h
  · rcases unfinished_after h with rfl | ⟨u, rfl, hBound⟩
    · exact hNil
    · obtain ⟨d, hd⟩ := hType (unfinished_bind_pure.mp hBound)
      exact ⟨.upper d, List.cons_prefix_cons.mpr ⟨rfl, hd⟩⟩
  rw [unfinished_test] at h
  split at h
  · rcases unfinished_after h with rfl | ⟨u, rfl, hBound⟩
    · exact hNil
    · obtain ⟨d, hd⟩ := hType (unfinished_bind_pure.mp hBound)
      exact ⟨.lower d, List.cons_prefix_cons.mpr ⟨rfl, hd⟩⟩
  rw [unfinished_test] at h
  split at h
  · obtain ⟨rfl, -⟩ := unfinished_stop h
    exact hNil
  · obtain ⟨d, hd⟩ := hType h
    exact ⟨.exactly d, hd⟩

/-- After whole items comes the end of the list or one more item. -/
theorem prefix_flatMap_concat {text : δ → List Char} {d : δ} {t : List Char} (ds : List δ)
    (h : t <+: text d) : ds.flatMap text ++ t <+: (ds ++ [d]).flatMap text := by
  rw [List.flatMap_append, List.flatMap_singleton]
  exact (List.prefix_append_right_inj _).mpr h

/-- A list is completed by the argument that was begun and the closing bracket. -/
theorem arguments_completable (hReads : ReadsTypes n type)
    (hType : Completable type RefTree.text) :
    Completable (arguments type) fun ds => bracketed (ArgumentTree.texts ds) := by
  intro s h
  have hItem : Consumes (argument type) := consumes_argument hReads
  rw [arguments, unfinished_test] at h
  split at h
  · rcases unfinished_after h with rfl | ⟨u, rfl, hItems⟩
    · exact ⟨[], List.nil_prefix⟩
    rcases unfinished_bind.mp hItems with hItems | ⟨xs, t, hItems, hEnd⟩
    · obtain ⟨xs, t, hRepeats, -, hLast⟩ := unfinished_repeatWhile hItem hItems
      obtain ⟨ds, rfl, -, -⟩ := hRepeats.sound fun hs => argument_sound hReads hs
      obtain ⟨d, hd⟩ := argument_completable hType hLast
      have hne : (ds ++ [d]).flatMap ArgumentTree.text ≠ [] := by
        simp [d.text_head.ne_nil]
      refine ⟨ds ++ [d], ?_⟩
      dsimp only
      rw [ArgumentTree.texts_eq_flatMap, bracketed_eq hne]
      exact List.prefix_append_of_prefix
        (List.cons_prefix_cons.mpr ⟨rfl, prefix_flatMap_concat ds hd⟩)
    · exact absurd hEnd (not_unfinished_close hItem hItems (.inr rfl))
  · exact absurd h (not_unfinished_pure _)

/-- An unfinished inner class can be completed, by its name or by its arguments. -/
theorem innerClass_completable (hReads : ReadsTypes n type)
    (hType : Completable type RefTree.text) :
    Completable (innerClass type) InnerTree.text := by
  intro s h
  rcases unfinished_after h with rfl | ⟨u, rfl, hName⟩
  · obtain ⟨i⟩ := nonempty_identifier (by decide : 'A' ∉ innerEnds)
    exact ⟨.mk i [], List.nil_prefix⟩
  rcases unfinished_bind.mp hName with hName | ⟨x, v, hName, hArguments⟩
  · obtain ⟨i, hi⟩ := identifier_completable (by decide) hName
    exact ⟨.mk i [], List.prefix_append_of_prefix (List.cons_prefix_cons.mpr ⟨rfl, hi⟩)⟩
  · obtain ⟨i, rfl, rfl, -⟩ := identifier_eq_ok.mp hName
    obtain ⟨ds, hds⟩ := arguments_completable hReads hType (unfinished_bind_pure.mp hArguments)
    exact ⟨.mk i ds, (List.prefix_append_right_inj ('.' :: i.chars)).mpr hds⟩

/-- An unfinished class type can be completed, at worst by the character that ends it. -/
theorem classType_completable (hReads : ReadsTypes n type)
    (hType : Completable type RefTree.text) :
    Completable (classType type) ClassTree.text := by
  intro s h
  have hInner : Consumes (innerClass type) := consumes_innerClass hReads
  rcases unfinished_after h with rfl | ⟨u, rfl, hPath⟩
  · obtain ⟨i⟩ := nonempty_identifier (by decide : 'A' ∉ pathEnds)
    exact ⟨.mk i [] [], List.nil_prefix⟩
  rcases unfinished_bind.mp hPath with hPath | ⟨path, v, hPath, hOuter⟩
  · obtain ⟨i, hi⟩ := identifier_completable (by decide) hPath
    refine ⟨.mk i [] [], ?_⟩
    simpa [ClassTree.text, bracketed, ArgumentTree.texts, InnerTree.texts] using
      List.prefix_append_of_prefix hi
  obtain ⟨i, rfl, rfl, -⟩ := identifier_eq_ok.mp hPath
  rcases unfinished_bind.mp hOuter with hOuter | ⟨outer, w, hOuter, hRest⟩
  · obtain ⟨ds, hds⟩ := arguments_completable hReads hType hOuter
    refine ⟨.mk i ds [], ?_⟩
    simpa [ClassTree.text, InnerTree.texts] using List.prefix_append_of_prefix hds
  obtain ⟨ds, rfl, rfl⟩ := arguments_sound hReads hOuter
  rcases unfinished_bind.mp hRest with hSteps | ⟨steps, x, hSteps, hEnd⟩
  · obtain ⟨steps, x, hRepeats, -, hLast⟩ := unfinished_repeatWhile hInner hSteps
    obtain ⟨es, rfl, -, -⟩ := hRepeats.sound fun hs => innerClass_sound hReads hs
    obtain ⟨e, he⟩ := innerClass_completable hReads hType hLast
    refine ⟨.mk i ds (es ++ [e]), ?_⟩
    simpa [ClassTree.text, InnerTree.texts_eq_flatMap] using
      List.prefix_append_of_prefix (prefix_flatMap_concat es he)
  · obtain ⟨es, rfl, -, -⟩ := ((repeatWhile_eq_ok hInner).mp hSteps).sound
      fun hs => innerClass_sound hReads hs
    obtain rfl := unfinished_expect (unfinished_bind_pure.mp hEnd)
    exact ⟨.mk i ds es, by simp [ClassTree.text, InnerTree.texts_eq_flatMap]⟩

end Types

/-- Unfinished types can be completed, by induction on the depth they may be nested to. -/
theorem typeWithin_completable (n : ℕ) : Completable (typeWithin n) RefTree.text := by
  induction n with
  | zero =>
    intro s h
    obtain ⟨rfl, -⟩ := unfinished_stop h
    obtain ⟨i⟩ := nonempty_identifier (by decide : 'A' ∉ variableEnds)
    exact ⟨.typeVariable i, List.nil_prefix⟩
  | succ n ih =>
    intro s h
    rw [typeWithin_succ, unfinished_test] at h
    split at h
    · obtain ⟨d, hd⟩ := classType_completable (typeWithin_reads n) ih h
      exact ⟨.classType d, hd⟩
    rw [unfinished_test] at h
    split at h
    · obtain ⟨i, hi⟩ := variableType_completable h
      exact ⟨.typeVariable i, hi⟩
    rw [unfinished_test] at h
    split at h
    · rcases unfinished_after h with rfl | ⟨u, rfl, hElement⟩
      · obtain ⟨i⟩ := nonempty_identifier (by decide : 'A' ∉ variableEnds)
        exact ⟨.typeVariable i, List.nil_prefix⟩
      · obtain ⟨d, hd⟩ := javaType_completable ih (unfinished_bind_pure.mp hElement)
        exact ⟨.array d, List.cons_prefix_cons.mpr ⟨rfl, hd⟩⟩
    · obtain ⟨fault, h, -⟩ := h
      cases h
      obtain ⟨i⟩ := nonempty_identifier (by decide : 'A' ∉ variableEnds)
      exact ⟨.typeVariable i, List.nil_prefix⟩

theorem referenceType_completable : Completable referenceType RefTree.text :=
  fun {s} h => typeWithin_completable s.length h

theorem classReference_completable : Completable (classType referenceType) ClassTree.text :=
  classType_completable (referenceType_reads 0) referenceType_completable

/-! ### Type parameters -/

namespace FormalTree

/-- Any parameter may be the last one of a list. -/
theorem precedes_close (f : FormalTree) : f.Precedes ['>'] := by
  intro _
  obtain ⟨name, bound, others⟩ := f
  cases others <;> simp [otherText, boundText]

end FormalTree

/-- An unfinished first bound can be completed, at worst by a type. -/
theorem classBound_completable :
    Completable classBound fun d : Option RefTree => d.elim [] RefTree.text := by
  intro s h
  have hTest : classBound = get >>= fun s =>
      if starts ':' s || starts '>' s then pure [] else referenceType >>= fun d => pure [d] := rfl
  rw [hTest, unfinished_test] at h
  split at h
  · exact absurd h (not_unfinished_pure _)
  · obtain ⟨d, hd⟩ := referenceType_completable (unfinished_bind_pure.mp h)
    exact ⟨some d, hd⟩

/-- An unfinished type parameter can be completed, at worst by a bound. -/
theorem formal_completable : Completable formal FormalTree.text := by
  intro s h
  rcases unfinished_bind.mp h with hName | ⟨x, t, hName, hColon⟩
  · obtain ⟨i, hi⟩ := identifier_completable (by decide) hName
    exact ⟨⟨i, none, []⟩, List.prefix_append_of_prefix hi⟩
  obtain ⟨i, rfl, rfl, -⟩ := identifier_eq_ok.mp hName
  rcases unfinished_after hColon with rfl | ⟨u, rfl, hBound⟩
  · exact ⟨⟨i, none, []⟩, by simp [FormalTree.text]⟩
  rcases unfinished_bind.mp hBound with hBound | ⟨first, v, hBound, hOthers⟩
  · obtain ⟨d, hd⟩ := classBound_completable hBound
    refine ⟨⟨i, d, []⟩, ?_⟩
    simpa [FormalTree.text, FormalTree.otherText] using hd
  obtain ⟨bound, rfl, rfl, -⟩ := classBound_sound hBound
  have hOther : Consumes (do expect ':'; referenceType : Parser TypeRef) :=
    consumes_of_sound (fun _ => List.cons_ne_nil _ _) otherBound_sound
  rcases unfinished_bind.mp hOthers with hOthers | ⟨others, w, hOthers, hEnd⟩
  · obtain ⟨others, w, hRepeats, hMore, hLast⟩ := unfinished_repeatWhile hOther hOthers
    obtain ⟨ds, rfl, -, -⟩ := hRepeats.sound otherBound_sound
    rcases unfinished_after hLast with rfl | ⟨y, rfl, hLast⟩
    · cases hMore
    obtain ⟨d, hd⟩ := referenceType_completable hLast
    refine ⟨⟨i, bound, ds ++ [d]⟩, ?_⟩
    have hd' : ':' :: y <+: FormalTree.boundText d := List.cons_prefix_cons.mpr ⟨rfl, hd⟩
    simpa [FormalTree.text, FormalTree.otherText] using prefix_flatMap_concat ds hd'
  · obtain ⟨ds, rfl, -, -⟩ := (otherBounds_eq_ok.mp hOthers).sound otherBound_sound
    rw [unfinished_test] at hEnd
    split at hEnd
    · obtain ⟨rfl, -⟩ := unfinished_stop (unfinished_bind_pure.mp hEnd)
      exact ⟨⟨i, bound, ds⟩, by simp [FormalTree.text, FormalTree.otherText]⟩
    · exact absurd hEnd (not_unfinished_pure _)

theorem ne_nil_of_formal {s t : List Char} {v : TypeParameter} (h : formal s = .ok (v, t)) :
    t ≠ [] := by
  simp only [formal, bind_eq_ok, get_eq_ok] at h
  obtain ⟨_, _, _, _, _, _, _, _, _, _, _, _, _, _, ⟨rfl, rfl⟩, h⟩ := h
  split at h
  · obtain ⟨_, _, hStop, -⟩ := bind_eq_ok.mp h
    exact absurd hStop stop_ne_ok
  · next hne =>
    obtain ⟨-, rfl⟩ := pure_eq_ok.mp h
    simpa using hne

/-- Parameters before one that was begun chain up with it, since what follows each of them starts
as before. -/
theorem chained_concat_of_repeats {more : List Char → Bool} {s t : List Char}
    {vs : List TypeParameter} (h : Repeats more formal s vs t) :
    ∃ fs, s = fs.flatMap FormalTree.text ++ t ∧
      ∀ g : FormalTree, t <+: g.text → FormalTree.Chained (fs ++ [g]) := by
  induction h with
  | stop _ => exact ⟨[], rfl, fun g _ => ⟨g.precedes_close, trivial⟩⟩
  | step _ hx _ ih =>
    have hne := ne_nil_of_formal hx
    obtain ⟨f, rfl, -, hf⟩ := formal_sound hx
    obtain ⟨fs, rfl, hfs⟩ := ih
    refine ⟨f :: fs, by simp, fun g hg => ⟨?_, hfs g hg⟩⟩
    obtain ⟨rest, hRest⟩ := prefix_flatMap_concat fs hg
    change f.Precedes ((fs ++ [g]).flatMap FormalTree.text ++ ['>'])
    rw [← hRest, List.append_assoc]
    exact (f.precedes_congr (List.head?_append_of_ne_nil _ hne).symm).mp hf

/-- Unfinished type parameters can be completed by the one that was begun. -/
theorem formals_completable : Completable formals FormalsTree.text := by
  intro s h
  rw [formals, unfinished_test] at h
  split at h
  · rcases unfinished_after h with rfl | ⟨u, rfl, hItems⟩
    · exact ⟨⟨[], trivial⟩, List.nil_prefix⟩
    rcases unfinished_bind.mp hItems with hItems | ⟨xs, t, hItems, hEnd⟩
    · obtain ⟨xs, t, hRepeats, -, hLast⟩ := unfinished_repeatWhile consumes_formal hItems
      obtain ⟨fs, rfl, hChained⟩ := chained_concat_of_repeats hRepeats
      obtain ⟨g, hg⟩ := formal_completable hLast
      have hne : (fs ++ [g]).flatMap FormalTree.text ≠ [] := by
        simp [g.text_ne_nil]
      refine ⟨⟨fs ++ [g], hChained g hg⟩, ?_⟩
      rw [FormalsTree.text, bracketed_eq hne]
      exact List.prefix_append_of_prefix
        (List.cons_prefix_cons.mpr ⟨rfl, prefix_flatMap_concat fs hg⟩)
    · exact absurd hEnd (not_unfinished_close consumes_formal hItems (.inl rfl))
  · exact absurd h (not_unfinished_pure _)

/-! ### Whole signatures -/

theorem not_unfinished_finish (x : α) {s : List Char} :
    ¬Unfinished (finish >>= fun _ => pure x) s := by
  intro h
  have hEnd := unfinished_bind_pure.mp h
  rw [finish, unfinished_test] at hEnd
  split at hEnd
  · next hne =>
    obtain ⟨rfl, -⟩ := unfinished_stop hEnd
    cases hne
  · exact not_unfinished_pure _ hEnd

theorem field_completable :
    Completable (do let type ← referenceType; finish; return type) RefTree.text := by
  intro s h
  rcases unfinished_bind.mp h with hType | ⟨v, t, -, hEnd⟩
  · exact referenceType_completable hType
  · exact absurd hEnd (not_unfinished_finish v)

theorem nonempty_classTree : Nonempty ClassTree :=
  have ⟨i⟩ := nonempty_identifier (by decide : 'A' ∉ pathEnds)
  ⟨.mk i [] []⟩

/-- **An unfinished class signature can be completed.** -/
theorem class_completable : Completable ClassSignature.parser ClassForm.text := by
  intro s h
  have hClass : Consumes (classType referenceType) :=
    consumes_of_sound (fun d : ClassTree => d.text_head.ne_nil) classReference_sound
  rcases unfinished_bind.mp h with hFormals | ⟨fs, t, hFormals, hSuperclass⟩
  · obtain ⟨f, hf⟩ := formals_completable hFormals
    obtain ⟨c⟩ := nonempty_classTree
    refine ⟨⟨f, c, []⟩, ?_⟩
    simpa [ClassForm.text] using List.prefix_append_of_prefix hf
  obtain ⟨f, rfl, -⟩ := formals_sound hFormals
  rcases unfinished_bind.mp hSuperclass with hSuperclass | ⟨v, u, hSuperclass, hInterfaces⟩
  · obtain ⟨c, hc⟩ := classReference_completable hSuperclass
    exact ⟨⟨f, c, []⟩, by simpa [ClassForm.text] using hc⟩
  obtain ⟨c, rfl, -⟩ := classReference_sound hSuperclass
  obtain ⟨vs, w, hRepeats, -, hLast⟩ :=
    unfinished_repeatWhile hClass (unfinished_bind_pure.mp hInterfaces)
  obtain ⟨ds, rfl, -, -⟩ := hRepeats.sound classReference_sound
  obtain ⟨d, hd⟩ := classReference_completable hLast
  refine ⟨⟨f, c, ds ++ [d]⟩, ?_⟩
  simpa [ClassForm.text] using prefix_flatMap_concat ds hd

theorem thrownType_completable : Completable thrownType ThrownTree.text := by
  intro s h
  rcases unfinished_after h with rfl | ⟨u, rfl, hType⟩
  · obtain ⟨c⟩ := nonempty_classTree
    exact ⟨.classType c, List.nil_prefix⟩
  rw [unfinished_test] at hType
  split at hType
  · obtain ⟨i, hi⟩ := variableType_completable hType
    exact ⟨.typeVariable i, List.cons_prefix_cons.mpr ⟨rfl, hi⟩⟩
  · obtain ⟨c, hc⟩ := classReference_completable hType
    exact ⟨.classType c, List.cons_prefix_cons.mpr ⟨rfl, hc⟩⟩

theorem parameterType_completable : Completable (javaType referenceType) JavaTree.text :=
  javaType_completable referenceType_completable

theorem resultType_completable : Completable MethodSignature.resultType
    fun d : Option JavaTree => d.elim ['V'] JavaTree.text := by
  intro s h
  rw [MethodSignature.resultType, unfinished_test] at h
  split at h
  · obtain rfl := unfinished_expect (unfinished_bind_pure.mp h)
    exact ⟨none, List.nil_prefix⟩
  · obtain ⟨d, hd⟩ := parameterType_completable h
    exact ⟨some d, hd⟩

/-- **An unfinished method signature can be completed.** -/
theorem method_completable : Completable MethodSignature.parser MethodForm.text := by
  intro s h
  have hParameter : Consumes (javaType referenceType) :=
    consumes_of_sound (fun d : JavaTree => d.text_head.ne_nil) parameterType_sound
  have hThrown : Consumes thrownType :=
    consumes_of_sound (fun d : ThrownTree => by simp [ThrownTree.text]) thrownType_sound
  rcases unfinished_bind.mp h with hFormals | ⟨fs, t, hFormals, hOpen⟩
  · obtain ⟨f, hf⟩ := formals_completable hFormals
    refine ⟨⟨f, [], none, []⟩, ?_⟩
    simpa [MethodForm.text] using List.prefix_append_of_prefix hf
  obtain ⟨f, rfl, -⟩ := formals_sound hFormals
  rcases unfinished_after hOpen with rfl | ⟨u, rfl, hParameters⟩
  · exact ⟨⟨f, [], none, []⟩, by simp [MethodForm.text]⟩
  rcases unfinished_bind.mp hParameters with hParameters | ⟨ps, v, hParameters, hClose⟩
  · obtain ⟨ps, v, hRepeats, -, hLast⟩ := unfinished_repeatWhile hParameter hParameters
    obtain ⟨ds, rfl, -, -⟩ := hRepeats.sound parameterType_sound
    obtain ⟨d, hd⟩ := parameterType_completable hLast
    refine ⟨⟨f, ds ++ [d], none, []⟩, ?_⟩
    simpa [MethodForm.text] using
      List.prefix_append_of_prefix (prefix_flatMap_concat ds hd)
  obtain ⟨hMore, ds, rfl, -⟩ := parameters_eq_ok.mp hParameters
  rcases unfinished_after hClose with rfl | ⟨w, rfl, hResult⟩
  · cases hMore
  rcases unfinished_bind.mp hResult with hResult | ⟨r, x, hResult, hTypes⟩
  · obtain ⟨d, hd⟩ := resultType_completable hResult
    exact ⟨⟨f, ds, d, []⟩, by simpa [MethodForm.text] using hd⟩
  obtain ⟨result, rfl, -⟩ := resultType_sound hResult
  rcases unfinished_bind.mp hTypes with hTypes | ⟨ts, y, -, hEnd⟩
  · obtain ⟨ts, y, hRepeats, -, hLast⟩ := unfinished_repeatWhile hThrown hTypes
    obtain ⟨es, rfl, -, -⟩ := hRepeats.sound thrownType_sound
    obtain ⟨e, he⟩ := thrownType_completable hLast
    refine ⟨⟨f, ds, result, es ++ [e]⟩, ?_⟩
    simpa [MethodForm.text] using prefix_flatMap_concat es he
  · exact absurd hEnd (not_unfinished_finish _)

end Signature

end ClassSketch
