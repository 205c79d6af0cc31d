import ClassSketch.Proofs.Signature.Erased

/-!
# The common language of descriptors and signatures

A text without type arguments and without inner classes after a point is a descriptor if and only if
it is a signature in which no type variable occurs, and it stands for the same types either way.

The two grammars derive such a text by trees of the same shape. What differs is what a descriptor
has no tree for: a type variable, brackets, and a simple name after a point.

## Main definitions

* `TypeRef.mentionsVariable` — whether a type variable occurs in a type
* `IsPlain` — a text with neither type arguments nor inner classes
* `Matches` — derivations of the two grammars with the same text and the same value

## Main results

* `ErasedTree.exists_matches`, `JavaTree.exists_matches` — every plain derivation of either grammar
  has its match in the other one
* `descriptor_eq_ok_iff_signature` — the parsers agree on plain texts
-/

namespace ClassSketch

/-! ### Type variables -/

namespace TypeRef

mutual

/-- Whether a type variable occurs in a type. -/
def mentionsVariable : TypeRef → Bool
  | primitive _ => false
  | array element => element.mentionsVariable
  | classType _ arguments => anyMentionsVariable arguments
  | typeVariable _ => true
  | wildcard _ (some bound) => bound.mentionsVariable
  | wildcard _ none => false

/-- Whether a type variable occurs in one of the types. -/
def anyMentionsVariable : List TypeRef → Bool
  | [] => false
  | type :: types => type.mentionsVariable || anyMentionsVariable types

end

end TypeRef

namespace Signature

/-! ### Plain texts -/

/-- A text with neither type arguments nor inner classes. -/
def IsPlain (s : List Char) : Prop := '<' ∉ s ∧ '.' ∉ s

theorem isPlain_append {s t : List Char} : IsPlain (s ++ t) ↔ IsPlain s ∧ IsPlain t := by
  simp only [IsPlain, List.mem_append, not_or]
  tauto

theorem isPlain_cons {c : Char} {s : List Char} :
    IsPlain (c :: s) ↔ (c ≠ '<' ∧ c ≠ '.') ∧ IsPlain s := by
  simp only [IsPlain, List.mem_cons, not_or, ne_comm (a := c)]
  tauto

theorem IsPlain.of_mem {δ : Type} {text : δ → List Char} {ds : List δ}
    (h : IsPlain (ds.flatMap text)) {d : δ} (hd : d ∈ ds) : IsPlain (text d) :=
  ⟨fun hc => h.1 (List.mem_flatMap.mpr ⟨d, hd, hc⟩),
    fun hc => h.2 (List.mem_flatMap.mpr ⟨d, hd, hc⟩)⟩

/-- Brackets that are written hold type arguments. -/
theorem arguments_eq_nil {as : List ArgumentTree}
    (h : IsPlain (bracketed (ArgumentTree.texts as))) : as = [] := by
  cases as with
  | nil => rfl
  | cons a as =>
    have hText : ArgumentTree.texts (a :: as) ≠ [] := by
      simp [ArgumentTree.texts, a.text_head.ne_nil]
    rw [bracketed_eq hText] at h
    exact absurd List.mem_cons_self h.1

/-- In a plain text there are no inner classes. -/
theorem inner_eq_nil {inner : List InnerTree} (h : IsPlain (InnerTree.texts inner)) :
    inner = [] := by
  cases inner with
  | nil => rfl
  | cons i inner =>
    obtain ⟨name, as⟩ := i
    exact absurd List.mem_cons_self h.2

/-! ### Matching derivations -/

/-- Derivations of the two grammars with the same text and the same value. -/
structure Matches (d : ErasedTree) (e : JavaTree) : Prop where
  text : d.text = e.text
  value : d.value = e.value

/-- Erased types mention no type variables. -/
theorem ErasedTree.mentionsVariable_value (d : ErasedTree) :
    d.value.mentionsVariable = false := by
  induction d with
  | base type => rfl
  | classType name => rfl
  | array element ih => exact ih

theorem RefTree.isPrimitive_value (e : RefTree) : e.value.isPrimitive = false := by
  cases e with
  | classType type => cases type; rfl
  | typeVariable name => rfl
  | array element => rfl

/-- Every plain erased type is the text of a generic one. -/
theorem ErasedTree.exists_matches (d : ErasedTree) (hPlain : IsPlain d.text) :
    ∃ e, Matches d e := by
  induction d with
  | base type => exact ⟨.base type, rfl, rfl⟩
  | classType name =>
    obtain ⟨chars, hne, hFree⟩ := name
    have hName : IsPlain chars := (isPlain_append.mp (isPlain_cons.mp hPlain).2).1
    refine ⟨.reference (.classType (.mk ⟨chars, hne, fun c hc => ?_⟩ [] [])), ?_, rfl⟩
    · have hSemicolon : c ≠ ';' := by simpa using hFree c hc
      have hBracket : c ≠ '<' := fun h => hName.1 (h ▸ hc)
      have hPoint : c ≠ '.' := fun h => hName.2 (h ▸ hc)
      simp [hSemicolon, hBracket, hPoint]
    · simp [ErasedTree.text, JavaTree.text, RefTree.text, ClassTree.text, ArgumentTree.texts,
        InnerTree.texts, bracketed]
  | array element ih =>
    obtain ⟨e, hText, hValue⟩ := ih (isPlain_cons.mp hPlain).2
    exact ⟨.reference (.array e), congrArg ('[' :: ·) hText, congrArg TypeRef.array hValue⟩

theorem ClassTree.exists_erased (e : ClassTree) (hPlain : IsPlain e.text) :
    ∃ d : ErasedTree, d.text = e.text ∧ d.value = e.value := by
  obtain ⟨path, as, inner⟩ := e
  simp only [ClassTree.text, List.cons_append, isPlain_cons, isPlain_append] at hPlain
  obtain ⟨-, ⟨⟨-, hArguments⟩, hInner⟩, -⟩ := hPlain
  obtain rfl := arguments_eq_nil hArguments
  obtain rfl := inner_eq_nil hInner
  refine ⟨.classType ⟨path.chars, path.chars_ne_nil, fun c hc => ?_⟩, ?_, rfl⟩
  · have hFree := path.not_mem_ends c hc
    simp only [List.mem_cons, not_or] at hFree ⊢
    exact ⟨hFree.2.2.1, by simp⟩
  · simp [ErasedTree.text, ClassTree.text, ArgumentTree.texts, InnerTree.texts, bracketed]

mutual

/-- A plain generic type that mentions no type variable is the text of an erased one. The trees are
taken apart at once with those of types that may be primitive. -/
theorem RefTree.exists_erased : ∀ e : RefTree, IsPlain e.text → e.value.mentionsVariable = false →
    ∃ d : ErasedTree, d.text = e.text ∧ d.value = e.value
  | .classType type, hPlain, _ => type.exists_erased hPlain
  | .typeVariable name, _, hVariable => by cases hVariable
  | .array element, hPlain, hVariable => by
    obtain ⟨d, hText, hValue⟩ :=
      JavaTree.exists_matches element (isPlain_cons.mp hPlain).2 hVariable
    exact ⟨.array d, congrArg ('[' :: ·) hText, congrArg TypeRef.array hValue⟩

theorem JavaTree.exists_matches : ∀ e : JavaTree, IsPlain e.text →
    e.value.mentionsVariable = false → ∃ d, Matches d e
  | .base type, _, _ => ⟨.base type, rfl, rfl⟩
  | .reference type, hPlain, hVariable => by
    obtain ⟨d, hText, hValue⟩ := RefTree.exists_erased type hPlain hVariable
    exact ⟨d, hText, hValue⟩

end

theorem exists_forall₂_of_forall {α β : Type} {R : α → β → Prop} {xs : List α}
    (h : ∀ x ∈ xs, ∃ y, R x y) : ∃ ys, List.Forall₂ R xs ys := by
  induction xs with
  | nil => exact ⟨[], .nil⟩
  | cons x xs ih =>
    rw [List.forall_mem_cons] at h
    obtain ⟨y, hy⟩ := h.1
    obtain ⟨ys, hys⟩ := ih h.2
    exact ⟨y :: ys, .cons hy hys⟩

/-- Lists of matching derivations have the same text and the same values. -/
theorem Matches.all {ds : List ErasedTree} {es : List JavaTree} (h : List.Forall₂ Matches ds es) :
    ds.flatMap ErasedTree.text = es.flatMap JavaTree.text ∧
      ds.map ErasedTree.value = es.map JavaTree.value := by
  induction h with
  | nil => exact ⟨rfl, rfl⟩
  | cons hFirst _ ih =>
    simp only [List.flatMap_cons, List.map_cons, hFirst.text, hFirst.value, ih.1, ih.2, and_self]

/-! ### Agreement -/

/-- The type of a descriptor that is not primitive is that of the signature, where no type variable
occurs. -/
theorem fieldType_eq_ok_iff_field {text : String} (hPlain : IsPlain text.toList) {t : TypeRef} :
    Descriptor.fieldType text = .ok t ∧ t.isPrimitive = false ↔
      field text = .ok t ∧ t.mentionsVariable = false := by
  rw [fieldType_eq_ok_iff, field_eq_ok_iff]
  constructor
  · rintro ⟨⟨d, hText, rfl⟩, hReference⟩
    refine ⟨?_, d.mentionsVariable_value⟩
    obtain ⟨e, he⟩ := d.exists_matches (hText ▸ hPlain)
    cases e with
    | base type =>
      rw [he.value] at hReference
      cases hReference
    | reference e => exact ⟨e, he.text.symm.trans hText, he.value.symm⟩
  · rintro ⟨⟨e, hText, rfl⟩, hVariable⟩
    obtain ⟨d, hd, hValue⟩ := e.exists_erased (hText ▸ hPlain) hVariable
    exact ⟨⟨d, hd.trans hText, hValue⟩, e.isPrimitive_value⟩

theorem FormalsTree.eq_nil {f : FormalsTree} (h : f.value = []) : f = ⟨[], trivial⟩ := by
  obtain ⟨formals, chained⟩ := f
  obtain rfl : formals = [] := List.map_eq_nil_iff.mp h
  rfl

/-- Of matching parameters and results, a descriptor and a signature without type parameters and
thrown types are made, with the same text and the same types. -/
theorem Matches.form {ds : List ErasedTree} {es : List JavaTree} {d : Option ErasedTree}
    {e : Option JavaTree} (hAll : List.Forall₂ Matches ds es) (hResult : Option.Rel Matches d e) :
    (ErasedForm.mk ds d).text = (MethodForm.mk ⟨[], trivial⟩ es e []).text ∧
      (MethodForm.mk ⟨[], trivial⟩ es e []).value =
        ⟨[], (ErasedForm.mk ds d).value.parameters, (ErasedForm.mk ds d).value.result, []⟩ := by
  obtain ⟨hTexts, hValues⟩ := Matches.all hAll
  rw [ErasedForm.text, ErasedForm.value, MethodForm.value, hTexts, hValues]
  cases hResult with
  | none => simp [MethodForm.text, FormalsTree.text, FormalsTree.value, bracketed]
  | some h =>
    simp [MethodForm.text, FormalsTree.text, FormalsTree.value, bracketed, h.text, h.value]

/-- A plain text is read as the descriptor of a method as it is as a signature without variables. -/
theorem methodDescriptor_eq_ok_iff_signature {text : String} (hPlain : IsPlain text.toList)
    {parameters : List TypeRef} {result : TypeRef} :
    MethodDescriptor.ofText text = .ok ⟨parameters, result⟩ ↔
      MethodSignature.ofText text = .ok ⟨[], parameters, result, []⟩ ∧
        (∀ t ∈ parameters, t.mentionsVariable = false) ∧ result.mentionsVariable = false := by
  rw [methodDescriptor_eq_ok_iff, method_eq_ok_iff]
  constructor
  · rintro ⟨⟨ds, d⟩, hText, hValue⟩
    simp only [← hText, ErasedForm.text, isPlain_append, isPlain_cons] at hPlain
    obtain ⟨⟨-, hParameters⟩, -, hResult⟩ := hPlain
    obtain ⟨es, hAll⟩ := exists_forall₂_of_forall fun d hd =>
      ErasedTree.exists_matches d (hParameters.of_mem hd)
    obtain ⟨e, hSame⟩ : ∃ e, Option.Rel Matches d e := by
      cases d with
      | none => exact ⟨none, .none⟩
      | some d =>
        obtain ⟨e, he⟩ := d.exists_matches hResult
        exact ⟨some e, .some he⟩
    obtain ⟨hForm, hSignature⟩ := Matches.form hAll hSame
    rw [hValue] at hSignature
    cases hValue
    refine ⟨⟨_, hForm.symm.trans hText, hSignature⟩, fun t ht => ?_, ?_⟩
    · obtain ⟨d, -, rfl⟩ := List.mem_map.mp ht
      exact d.mentionsVariable_value
    · cases d with
      | none => rfl
      | some d => exact d.mentionsVariable_value
  · rintro ⟨⟨⟨f, es, e, ts⟩, hText, hValue⟩, hVariables, hVariable⟩
    obtain ⟨hFormals, rfl, rfl, hThrown⟩ := MethodSignature.mk.inj hValue
    obtain rfl := FormalsTree.eq_nil hFormals
    obtain rfl : ts = [] := List.map_eq_nil_iff.mp hThrown
    simp only [← hText, MethodForm.text, isPlain_append, isPlain_cons] at hPlain
    obtain ⟨⟨-, -, hParameters⟩, -, hResult, -⟩ := hPlain
    obtain ⟨ds, hAll⟩ := exists_forall₂_of_forall (R := fun e d => Matches d e) fun e he =>
      e.exists_matches (hParameters.of_mem he) (hVariables _ (List.mem_map_of_mem he))
    obtain ⟨d, hSame⟩ : ∃ d, Option.Rel Matches d e := by
      cases e with
      | none => exact ⟨none, .none⟩
      | some e =>
        obtain ⟨d, hd⟩ := e.exists_matches hResult hVariable
        exact ⟨some d, .some hd⟩
    obtain ⟨hForm, hSignature⟩ := Matches.form hAll.flip hSame
    rw [hValue] at hSignature
    obtain ⟨-, hParameters, hResult, -⟩ := MethodSignature.mk.inj hSignature
    refine ⟨_, hForm.trans hText, ?_⟩
    rw [hParameters, hResult]

/-- **Descriptors and signatures.** A text with neither type arguments nor inner classes is a
descriptor if and only if it is a signature in which no type variable occurs: for a method with the
same parameters and the same result, and neither type parameters nor thrown types; for a field with
the same type, which is not primitive. -/
theorem descriptor_eq_ok_iff_signature {text : String} (hArguments : '<' ∉ text.toList)
    (hInner : '.' ∉ text.toList) :
    (∀ parameters result, MethodDescriptor.ofText text = .ok ⟨parameters, result⟩ ↔
      MethodSignature.ofText text = .ok ⟨[], parameters, result, []⟩ ∧
        (∀ t ∈ parameters, t.mentionsVariable = false) ∧ result.mentionsVariable = false) ∧
    ∀ t, Descriptor.fieldType text = .ok t ∧ t.isPrimitive = false ↔
      field text = .ok t ∧ t.mentionsVariable = false :=
  ⟨fun _ _ => methodDescriptor_eq_ok_iff_signature ⟨hArguments, hInner⟩,
    fun _ => fieldType_eq_ok_iff_field ⟨hArguments, hInner⟩⟩

/-- The nested class `p.A.B`, as an element of an array. -/
def nestedElements : TypeRef := .array (.ofClass ⟨"p", ["A", "B"]⟩)

theorem descriptor_eq_ok_iff_signature_nested :
    ('<' ∉ "(I[Lp/A$B;)V".toList ∧ '.' ∉ "(I[Lp/A$B;)V".toList ∧
      MethodDescriptor.ofText "(I[Lp/A$B;)V" = .ok ⟨[.primitive .int, nestedElements], .void⟩ ∧
      MethodSignature.ofText "(I[Lp/A$B;)V" =
        .ok ⟨[], [.primitive .int, nestedElements], .void, []⟩) ∧
    '<' ∉ "[Lp/A$B;".toList ∧ '.' ∉ "[Lp/A$B;".toList ∧
      Descriptor.fieldType "[Lp/A$B;" = .ok nestedElements ∧
      field "[Lp/A$B;" = .ok nestedElements := by
  have hMethod : MethodDescriptor.ofText "(I[Lp/A$B;)V" =
      .ok ⟨[.primitive .int, nestedElements], .void⟩ := by cbv
  have hField : Descriptor.fieldType "[Lp/A$B;" = .ok nestedElements := by cbv
  have hAgree := @descriptor_eq_ok_iff_signature "(I[Lp/A$B;)V" (by decide) (by decide)
  have hAgree' := @descriptor_eq_ok_iff_signature "[Lp/A$B;" (by decide) (by decide)
  exact ⟨⟨by decide, by decide, hMethod, ((hAgree.1 _ _).mp hMethod).1⟩, by decide, by decide,
    hField, ((hAgree'.2 _).mp ⟨hField, rfl⟩).1⟩

end Signature

end ClassSketch
