import ClassSketch.Proofs.Signature.Reading

/-!
# The three forms of signatures

What `Reading` says of types is extended here to type parameters and to the signatures of fields,
classes and methods, each of which has to be read to its end.

## Main results

* `field_eq_ok_iff`, `class_eq_ok_iff`, `method_eq_ok_iff` — a form is read if and only if it has a
  derivation, and its value is that of the derivation
-/

namespace ClassSketch

namespace Signature

open Parsing

/-! ### Type parameters -/

theorem referenceType_sound {s t : List Char} {v : TypeRef} (hs : referenceType s = .ok (v, t)) :
    ∃ d : RefTree, s = d.text ++ t ∧ d.value = v :=
  (referenceType_reads 0).sound hs

theorem referenceType_complete (d : RefTree) (t : List Char) :
    referenceType (d.text ++ t) = .ok (d.value, t) :=
  (referenceType_reads d.text.length).complete d le_rfl t

namespace FormalTree

/-- Whether a parameter may precede a text depends on the first character of the text only. -/
theorem precedes_congr (f : FormalTree) {s t : List Char} (h : s.head? = t.head?) :
    f.Precedes s ↔ f.Precedes t := by
  simp only [Precedes, List.head?_append, h]

/-- A type parameter is never written as nothing. -/
theorem text_ne_nil (f : FormalTree) : f.text ≠ [] := by
  simp [text]

/-- The name of a parameter starts with a character that ends no name. -/
theorem text_head (f : FormalTree) : ∃ c, c ∉ formalEnds ∧ ∃ s, f.text = c :: s := by
  obtain ⟨⟨chars, hne, hfree⟩, bound, others⟩ := f
  cases chars with
  | nil => exact absurd rfl hne
  | cons c s => exact ⟨c, hfree c (by simp), _, rfl⟩

end FormalTree

/-- The bounds after the class bound, each with the colon before it. -/
theorem otherBound_sound {s t : List Char} {v : TypeRef}
    (hs : (do expect ':'; referenceType : Parser TypeRef) s = .ok (v, t)) :
    ∃ d : RefTree, s = FormalTree.boundText d ++ t ∧ d.value = v := by
  simp only [bind_eq_ok, expect_eq_ok] at hs
  obtain ⟨_, u, rfl, hs⟩ := hs
  obtain ⟨d, rfl, rfl⟩ := referenceType_sound hs
  exact ⟨d, rfl, rfl⟩

theorem otherBounds_eq_ok {s t : List Char} {vs : List TypeRef} :
    repeatWhile (starts ':') (do expect ':'; referenceType) s = .ok (vs, t) ↔
      Repeats (starts ':') (do expect ':'; referenceType) s vs t :=
  repeatWhile_eq_ok (consumes_of_sound (fun _ => List.cons_ne_nil _ _) otherBound_sound)

/-- Bounds that are written one after the other are read up to what starts no further bound. -/
theorem otherBounds_complete (ds : List RefTree) {t : List Char} (ht : starts ':' t = false) :
    repeatWhile (starts ':') (do expect ':'; referenceType)
        (ds.flatMap FormalTree.boundText ++ t) = .ok (ds.map RefTree.value, t) := by
  have hMore : ∀ d ∈ ds, ∀ u, starts ':' (FormalTree.boundText d ++ u) = true := by
    simp [FormalTree.boundText]
  refine otherBounds_eq_ok.mpr (.complete (fun _ => True) ?_ (by simp) hMore trivial ht)
  intro d _ u _
  rw [FormalTree.boundText, List.cons_append, bind_of_ok (expect_cons ..)]
  exact referenceType_complete d u

/-- The first bound may be missing, but only where another bound, or the end, follows. -/
theorem classBound_sound {s t : List Char} {vs : List TypeRef}
    (hs : classBound s = .ok (vs, t)) :
    ∃ d : Option RefTree, s = d.elim [] RefTree.text ++ t ∧ d.toList.map RefTree.value = vs ∧
      (d = none → s.head? ∈ [some ':', some '>']) := by
  simp only [classBound, bind_eq_ok, get_eq_ok] at hs
  obtain ⟨_, _, ⟨rfl, rfl⟩, hs⟩ := hs
  split at hs
  · next hstart =>
    obtain ⟨rfl, rfl⟩ := pure_eq_ok.mp hs
    refine ⟨none, rfl, rfl, fun _ => ?_⟩
    simpa [starts] using hstart
  · simp only [bind_eq_ok, pure_eq_ok] at hs
    obtain ⟨v, u, hv, rfl, rfl⟩ := hs
    obtain ⟨d, rfl, rfl⟩ := referenceType_sound hv
    exact ⟨some d, rfl, rfl, by simp⟩

/-- The first bound is read, or left out where another bound or the end follows. -/
theorem classBound_complete (d : Option RefTree) {t : List Char}
    (ht : d = none → t.head? ∈ [some ':', some '>']) :
    classBound (d.elim [] RefTree.text ++ t) = .ok (d.toList.map RefTree.value, t) := by
  rw [classBound, bind_of_ok (get_run _)]
  cases d with
  | none =>
    have hstart : (starts ':' t || starts '>' t) = true := by simpa [starts] using ht rfl
    simp only [Option.elim_none, List.nil_append, hstart, if_true]
    rfl
  | some d =>
    have hd := d.text_head.append t
    simp only [Option.elim_some, hd.starts_eq_false (by decide : ':' ∉ _),
      hd.starts_eq_false (by decide : '>' ∉ _), Bool.or_self, Bool.false_eq_true, if_false]
    rw [bind_of_ok (referenceType_complete d t)]
    rfl

/-- What is read as a type parameter is the text of one, and it may stand before what is left. -/
theorem formal_sound {s t : List Char} {v : TypeParameter} (hs : formal s = .ok (v, t)) :
    ∃ f : FormalTree, s = f.text ++ t ∧ f.value = v ∧ f.Precedes t := by
  simp only [formal, bind_eq_ok, expect_eq_ok, get_eq_ok] at hs
  obtain ⟨name, u, hname, _, w, rfl, first, x, hfirst, others, y, hothers, _, _, ⟨rfl, rfl⟩, hs⟩ :=
    hs
  obtain ⟨i, rfl, rfl, -⟩ := identifier_eq_ok.mp hname
  obtain ⟨bound, rfl, rfl, hbound⟩ := classBound_sound hfirst
  obtain ⟨ds, rfl, rfl, -⟩ := (otherBounds_eq_ok.mp hothers).sound otherBound_sound
  split at hs
  · obtain ⟨_, _, hstop, -⟩ := bind_eq_ok.mp hs
    exact absurd hstop stop_ne_ok
  · obtain ⟨rfl, rfl⟩ := pure_eq_ok.mp hs
    refine ⟨⟨i, bound, ds⟩, ?_, by simp [FormalTree.value], ?_⟩
    · simp [FormalTree.text, FormalTree.otherText]
    · intro hnone
      have hhead := hbound hnone
      obtain rfl : bound = none := hnone
      exact hhead

/-- The text of a type parameter is read as it, where the text may stand. -/
theorem formal_complete (f : FormalTree) {t : List Char} (hf : f.Precedes t) (hne : t ≠ [])
    (ht : starts ':' t = false) : formal (f.text ++ t) = .ok (f.value, t) := by
  obtain ⟨i, bound, ds⟩ := f
  have hname : identifier formalEnds (i.chars ++ ':' :: (bound.elim [] RefTree.text ++
      (ds.flatMap FormalTree.boundText ++ t))) = .ok (String.ofList i.chars, _) :=
    identifier_append i (.cons (by simp) _)
  have hbound := classBound_complete bound (t := ds.flatMap FormalTree.boundText ++ t) hf
  simp only [FormalTree.text, FormalTree.otherText, List.append_assoc, List.cons_append]
  rw [formal, bind_of_ok hname, bind_of_ok (expect_cons ..), bind_of_ok hbound,
    bind_of_ok (otherBounds_complete ds ht), bind_of_ok (get_run _), if_neg (by simpa using hne)]
  simp [FormalTree.value, pure_run]

theorem consumes_formal : Consumes formal :=
  consumes_of_sound FormalTree.text_ne_nil fun hs => by
    obtain ⟨f, hf, hv, -⟩ := formal_sound hs
    exact ⟨f, hf, hv⟩

/-- The parameters before the closing bracket, read one after the other, chain up. -/
theorem formals_sound_of_repeats {s t : List Char} {vs : List TypeParameter}
    (h : Repeats (fun s => !starts '>' s) formal s vs t) (ht : t.head? = some '>') :
    ∃ fs, s = fs.flatMap FormalTree.text ++ t ∧ fs.map FormalTree.value = vs ∧
      FormalTree.Chained fs := by
  induction h with
  | stop _ => exact ⟨[], rfl, rfl, trivial⟩
  | step _ hx _ ih =>
    obtain ⟨f, rfl, rfl, hf⟩ := formal_sound hx
    obtain ⟨fs, rfl, rfl, hfs⟩ := ih ht
    refine ⟨f :: fs, by simp, rfl, ?_, hfs⟩
    exact (f.precedes_congr (by simp [List.head?_append, ht])).mp hf

theorem formals_repeats_of_chained {fs : List FormalTree} (hfs : FormalTree.Chained fs)
    {t : List Char} (ht : t.head? = some '>') :
    Repeats (fun s => !starts '>' s) formal (fs.flatMap FormalTree.text ++ t)
      (fs.map FormalTree.value) t := by
  induction fs with
  | nil => exact .stop (by simp [starts, ht])
  | cons f fs ih =>
    have hhead : ∃ c, c ≠ ':' ∧ (fs.flatMap FormalTree.text ++ t).head? = some c := by
      cases fs with
      | nil => exact ⟨'>', by decide, ht⟩
      | cons g gs =>
        obtain ⟨c, hc, s, hs⟩ := g.text_head
        exact ⟨c, fun h => hc (by simp [h]), by simp [hs]⟩
    obtain ⟨c, hc, hhead⟩ := hhead
    have hf : f.Precedes (fs.flatMap FormalTree.text ++ t) :=
      (f.precedes_congr (by simp [List.head?_append, ht])).mp hfs.1
    rw [List.flatMap_cons, List.append_assoc]
    refine .step ?_ (formal_complete f hf ?_ ?_) (ih hfs.2)
    · obtain ⟨d, hd, s, hs⟩ := f.text_head
      have hne : d ≠ '>' := fun h => hd (by simp [h])
      simp [hs, hne]
    · intro hnil
      simp [hnil] at hhead
    · simpa [starts, hhead] using hc

/-- What is read as type parameters is the text of some. -/
theorem formals_sound {s t : List Char} {vs : List TypeParameter} (hs : formals s = .ok (vs, t)) :
    ∃ d : FormalsTree, s = d.text ++ t ∧ d.value = vs := by
  simp only [formals, bind_eq_ok, get_eq_ok] at hs
  obtain ⟨_, _, ⟨rfl, rfl⟩, hs⟩ := hs
  split at hs
  · simp only [bind_eq_ok, expect_eq_ok] at hs
    obtain ⟨_, u, rfl, items, v, hitems, _, w, rfl, hs⟩ := hs
    split at hs
    · obtain ⟨_, _, hstop, -⟩ := bind_eq_ok.mp hs
      exact absurd hstop stop_ne_ok
    · next hne =>
      obtain ⟨rfl, rfl⟩ := pure_eq_ok.mp hs
      obtain ⟨fs, rfl, rfl, hfs⟩ :=
        formals_sound_of_repeats ((repeatWhile_eq_ok consumes_formal).mp hitems) rfl
      have htext : fs.flatMap FormalTree.text ≠ [] := by
        cases fs with
        | nil => simp at hne
        | cons f fs => simp [f.text_ne_nil]
      exact ⟨⟨fs, hfs⟩, by simp [FormalsTree.text, bracketed_eq htext], rfl⟩
  · obtain ⟨rfl, rfl⟩ := pure_eq_ok.mp hs
    exact ⟨⟨[], trivial⟩, rfl, rfl⟩

/-- The text of type parameters is read as them, unless another bracket opens behind it. -/
theorem formals_complete (d : FormalsTree) {t : List Char} (ht : starts '<' t = false) :
    formals (d.text ++ t) = .ok (d.value, t) := by
  obtain ⟨fs, hfs⟩ := d
  cases fs with
  | nil =>
    rw [formals, bind_of_ok (get_run _), if_neg (by simp [FormalsTree.text, bracketed, ht])]
    rfl
  | cons f fs =>
    have htext : (f :: fs).flatMap FormalTree.text ≠ [] := by simp [f.text_ne_nil]
    have hitems : repeatWhile (fun s => !starts '>' s) formal
        ((f :: fs).flatMap FormalTree.text ++ '>' :: t) =
          .ok ((f :: fs).map FormalTree.value, '>' :: t) :=
      (repeatWhile_eq_ok consumes_formal).mpr (formals_repeats_of_chained hfs rfl)
    rw [FormalsTree.text, bracketed_eq htext, List.append_assoc, List.cons_append,
      List.singleton_append]
    rw [formals, bind_of_ok (get_run _), if_pos (by simp), bind_of_ok (expect_cons ..),
      bind_of_ok hitems, bind_of_ok (expect_cons ..)]
    rfl

/-! ### Whole signatures -/

theorem run_eq_ok {α : Type} {parser : Parser α} {text : String} {x : α} :
    run parser text = .ok x ↔ ∃ t, parser text.toList = .ok (x, t) := by
  simp only [run]
  cases parser text.toList with
  | error e => simp
  | ok r => obtain ⟨y, t⟩ := r; simp

theorem finish_eq_ok {s t : List Char} {x : Unit} : finish s = .ok (x, t) ↔ s = [] ∧ t = [] := by
  simp only [finish, bind_eq_ok, get_eq_ok]
  constructor
  · rintro ⟨_, _, ⟨rfl, rfl⟩, h⟩
    split at h
    · exact absurd h stop_ne_ok
    · next hne =>
      obtain ⟨-, rfl⟩ := pure_eq_ok.mp h
      simpa using hne
  · rintro ⟨rfl, rfl⟩
    exact ⟨[], [], ⟨rfl, rfl⟩, rfl⟩

/-- A text is the signature of a field if it is the text of a reference type. -/
theorem field_eq_ok_iff {text : String} {v : TypeRef} :
    field text = .ok v ↔ ∃ d : RefTree, d.text = text.toList ∧ d.value = v := by
  rw [field, run_eq_ok]
  constructor
  · rintro ⟨t, h⟩
    simp only [bind_eq_ok, finish_eq_ok, pure_eq_ok] at h
    obtain ⟨w, u, hw, _, _, ⟨rfl, rfl⟩, rfl, rfl⟩ := h
    obtain ⟨d, hd, rfl⟩ := referenceType_sound hw
    exact ⟨d, by simp [hd], rfl⟩
  · rintro ⟨d, hd, rfl⟩
    refine ⟨[], ?_⟩
    have h := referenceType_complete d []
    rw [List.append_nil, hd] at h
    rw [bind_of_ok h]
    rfl

theorem classReference_sound {s t : List Char} {v : TypeRef}
    (hs : classType referenceType s = .ok (v, t)) :
    ∃ d : ClassTree, s = d.text ++ t ∧ d.value = v :=
  classType_sound (referenceType_reads 0) hs

theorem classReference_complete (d : ClassTree) (t : List Char) :
    classType referenceType (d.text ++ t) = .ok (d.value, t) :=
  classType_complete (referenceType_reads d.text.length) d (Nat.le_succ _) t

/-- The types after the superclass are read up to the end of the text. -/
theorem interfaces_eq_ok {s t : List Char} {vs : List TypeRef} :
    repeatWhile (fun s => !s.isEmpty) (classType referenceType) s = .ok (vs, t) ↔
      t = [] ∧ ∃ ds : List ClassTree, s = ds.flatMap ClassTree.text ∧
        ds.map ClassTree.value = vs := by
  rw [repeatWhile_eq_ok (consumes_of_sound (fun d : ClassTree => d.text_head.ne_nil)
    classReference_sound)]
  constructor
  · intro h
    obtain ⟨ds, rfl, rfl, ht⟩ := h.sound classReference_sound
    obtain rfl : t = [] := by simpa using ht
    exact ⟨rfl, ds, by simp, rfl⟩
  · rintro ⟨rfl, ds, rfl, rfl⟩
    have h : Repeats (fun s => !s.isEmpty) (classType referenceType)
        (ds.flatMap ClassTree.text ++ []) (ds.map ClassTree.value) [] :=
      .complete (fun _ => True) (fun d _ u _ => classReference_complete d u) (by simp)
        (fun d _ u => by simp [d.text_head.ne_nil]) trivial rfl
    rwa [List.append_nil] at h

/-- A text is the signature of a class if it is derived as one. -/
theorem class_eq_ok_iff {text : String} {v : ClassSignature} :
    ClassSignature.ofText text = .ok v ↔ ∃ d : ClassForm, d.text = text.toList ∧ d.value = v := by
  rw [ClassSignature.ofText, run_eq_ok]
  constructor
  · rintro ⟨t, h⟩
    simp only [ClassSignature.parser, bind_eq_ok, interfaces_eq_ok, pure_eq_ok] at h
    obtain ⟨fs, u, hfs, c, w, hc, is, _, ⟨rfl, ds, rfl, rfl⟩, rfl, rfl⟩ := h
    obtain ⟨f, hf, rfl⟩ := formals_sound hfs
    obtain ⟨d, rfl, rfl⟩ := classReference_sound hc
    exact ⟨⟨f, d, ds⟩, by simp [ClassForm.text, hf], rfl⟩
  · rintro ⟨⟨f, c, ds⟩, hd, rfl⟩
    refine ⟨[], ?_⟩
    have hstart : starts '<' (c.text ++ ds.flatMap ClassTree.text) = false :=
      (c.text_head.append _).starts_eq_false (by decide)
    rw [← hd, ClassForm.text, List.append_assoc, ClassSignature.parser,
      bind_of_ok (formals_complete f hstart), bind_of_ok (classReference_complete c _),
      bind_of_ok (interfaces_eq_ok.mpr ⟨rfl, ds, rfl, rfl⟩)]
    rfl

/-! ### Methods -/

theorem parameterType_sound {s t : List Char} {v : TypeRef}
    (hs : javaType referenceType s = .ok (v, t)) :
    ∃ d : JavaTree, s = d.text ++ t ∧ d.value = v :=
  javaType_sound (referenceType_reads 0) hs

theorem parameterType_complete (d : JavaTree) (t : List Char) :
    javaType referenceType (d.text ++ t) = .ok (d.value, t) :=
  javaType_complete (referenceType_reads d.text.length) d le_rfl t

/-- The types of parameters are read up to the closing bracket. -/
theorem parameters_eq_ok {s t : List Char} {vs : List TypeRef} :
    repeatWhile (fun s => !starts ')' s) (javaType referenceType) s = .ok (vs, t) ↔
      starts ')' t = true ∧
        ∃ ds : List JavaTree, s = ds.flatMap JavaTree.text ++ t ∧ ds.map JavaTree.value = vs := by
  rw [repeatWhile_eq_ok (consumes_of_sound (fun d : JavaTree => d.text_head.ne_nil)
    parameterType_sound)]
  constructor
  · intro h
    obtain ⟨ds, rfl, rfl, ht⟩ := h.sound parameterType_sound
    exact ⟨by simpa using ht, ds, rfl, rfl⟩
  · rintro ⟨ht, ds, rfl, rfl⟩
    refine .complete (fun _ => True) (fun d _ u _ => parameterType_complete d u) (by simp) ?_
      trivial (by simpa using ht)
    intro d _ u
    simp [(d.text_head.append u).starts_eq_false (by decide : ')' ∉ _)]

theorem resultType_sound {s t : List Char} {v : TypeRef}
    (hs : MethodSignature.resultType s = .ok (v, t)) :
    ∃ d : Option JavaTree, s = d.elim ['V'] JavaTree.text ++ t ∧
      d.elim .void JavaTree.value = v := by
  simp only [MethodSignature.resultType, bind_eq_ok, get_eq_ok] at hs
  obtain ⟨_, _, ⟨rfl, rfl⟩, hs⟩ := hs
  split at hs
  · simp only [bind_eq_ok, expect_eq_ok, pure_eq_ok] at hs
    obtain ⟨_, u, rfl, rfl, rfl⟩ := hs
    exact ⟨none, rfl, rfl⟩
  · obtain ⟨d, rfl, rfl⟩ := parameterType_sound hs
    exact ⟨some d, rfl, rfl⟩

theorem resultType_complete (d : Option JavaTree) (t : List Char) :
    MethodSignature.resultType (d.elim ['V'] JavaTree.text ++ t) =
      .ok (d.elim .void JavaTree.value, t) := by
  rw [MethodSignature.resultType, bind_of_ok (get_run _)]
  cases d with
  | none => rfl
  | some d =>
    simp only [Option.elim_some, (d.text_head.append t).starts_eq_false (by decide : 'V' ∉ _),
      Bool.false_eq_true, if_false]
    exact parameterType_complete d t

theorem thrownType_sound {s t : List Char} {v : TypeRef} (hs : thrownType s = .ok (v, t)) :
    ∃ d : ThrownTree, s = d.text ++ t ∧ d.type.value = v := by
  simp only [thrownType, bind_eq_ok, expect_eq_ok, get_eq_ok] at hs
  obtain ⟨_, u, rfl, _, _, ⟨rfl, rfl⟩, hs⟩ := hs
  split at hs
  · obtain ⟨i, rfl, rfl⟩ := variableType_sound hs
    exact ⟨.typeVariable i, rfl, rfl⟩
  · obtain ⟨d, rfl, rfl⟩ := classReference_sound hs
    exact ⟨.classType d, rfl, rfl⟩

theorem thrownType_complete (d : ThrownTree) (t : List Char) :
    thrownType (d.text ++ t) = .ok (d.type.value, t) := by
  rw [thrownType, ThrownTree.text, List.cons_append, bind_of_ok (expect_cons ..),
    bind_of_ok (get_run _)]
  cases d with
  | typeVariable i =>
    exact variableType_complete i t
  | classType c =>
    have hstart := (c.text_head.append t).starts_eq_false (by decide : 'T' ∉ _)
    simp only [ThrownTree.type, RefTree.text, hstart, Bool.false_eq_true, if_false]
    exact classReference_complete c t

/-- The thrown types are read as far as there is a mark before each of them. -/
theorem thrown_eq_ok {s t : List Char} {vs : List TypeRef} :
    repeatWhile (starts '^') thrownType s = .ok (vs, t) ↔
      starts '^' t = false ∧ ∃ ds : List ThrownTree,
        s = ds.flatMap ThrownTree.text ++ t ∧ (ds.map fun d => d.type.value) = vs := by
  rw [repeatWhile_eq_ok (consumes_of_sound (fun d : ThrownTree => by simp [ThrownTree.text])
    thrownType_sound)]
  constructor
  · intro h
    obtain ⟨ds, rfl, rfl, ht⟩ := h.sound thrownType_sound
    exact ⟨ht, ds, rfl, rfl⟩
  · rintro ⟨ht, ds, rfl, rfl⟩
    exact .complete (fun _ => True) (fun d _ u _ => thrownType_complete d u) (by simp)
      (by simp [ThrownTree.text]) trivial ht

/-- A text is the signature of a method if it is derived as one. -/
theorem method_eq_ok_iff {text : String} {v : MethodSignature} :
    MethodSignature.ofText text = .ok v ↔
      ∃ d : MethodForm, d.text = text.toList ∧ d.value = v := by
  rw [MethodSignature.ofText, run_eq_ok]
  constructor
  · rintro ⟨t, h⟩
    simp only [MethodSignature.parser, bind_eq_ok, expect_eq_ok, parameters_eq_ok, thrown_eq_ok,
      finish_eq_ok, pure_eq_ok] at h
    obtain ⟨fs, u, hfs, _, w, rfl, ps, _, ⟨-, ds, rfl, rfl⟩, _, x, rfl, r, y, hr, es, _,
      ⟨-, ts, rfl, rfl⟩, _, _, ⟨rfl, rfl⟩, rfl, rfl⟩ := h
    obtain ⟨f, hf, rfl⟩ := formals_sound hfs
    obtain ⟨result, rfl, rfl⟩ := resultType_sound hr
    exact ⟨⟨f, ds, result, ts⟩, by simp [MethodForm.text, hf], rfl⟩
  · rintro ⟨⟨f, ds, result, ts⟩, hd, rfl⟩
    refine ⟨[], ?_⟩
    have hthrown := thrown_eq_ok.mpr ⟨(rfl : starts '^' [] = false), ts, rfl, rfl⟩
    have hparameters := fun s => parameters_eq_ok.mpr
      ⟨(rfl : starts ')' (')' :: s) = true), ds, rfl, rfl⟩
    rw [List.append_nil] at hthrown
    have hformals := fun s => formals_complete f (t := '(' :: s) rfl
    rw [← hd, MethodForm.text, List.append_assoc, List.cons_append, MethodSignature.parser,
      bind_of_ok (hformals _), bind_of_ok (expect_cons ..), bind_of_ok (hparameters _),
      bind_of_ok (expect_cons ..), bind_of_ok (resultType_complete result _), bind_of_ok hthrown]
    rfl

end Signature

end ClassSketch
