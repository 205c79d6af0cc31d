import ClassSketch.ClassFile.Descriptor
import ClassSketch.Proofs.Signature.Forms
import ClassSketch.Proofs.Text.Words

/-!
# Derivations of descriptors

The grammar of descriptors, as types of derivation trees with a text and a value, and what their
parsers read. A descriptor has neither type variables nor type arguments, and spells a nested class
with its whole name up to the semicolon, so that its trees are fewer and simpler than those of
signatures.

## Main definitions

* `ErasedTree` — derivations of erased types
* `ErasedForm` — derivations of method descriptors

## Main results

* `erasedType_eq_ok` — the parser of erased types reads the derivations and nothing else
* `fieldType_eq_ok_iff`, `methodDescriptor_eq_ok_iff` — a descriptor is read if and only if it has a
  derivation, and its value is that of the derivation
-/

namespace ClassSketch

namespace Signature

open Text

/-! ### Trees -/

/-- A derivation of an erased type: one of the letters `BCDFIJSZ`, `L` with the name of a class and
`;`, or `[` and the type of the elements. -/
inductive ErasedTree where
  | base (type : {p : Primitive // p ≠ .void})
  | classType (name : Identifier [';'])
  | array (element : ErasedTree)

namespace ErasedTree

/-- The text of an erased type. -/
def text : ErasedTree → List Char
  | base type => [type.val.letter]
  | classType name => 'L' :: name.chars ++ [';']
  | array element => '[' :: element.text

/-- The type that a derivation stands for. -/
def value : ErasedTree → TypeRef
  | base type => .primitive type
  | classType name => .ofClass (.ofInternal (String.ofList name.chars))
  | array element => .array element.value

theorem text_head (d : ErasedTree) :
    HeadIn ['B', 'C', 'D', 'F', 'I', 'J', 'S', 'Z', 'L', '['] d.text := by
  cases d with
  | base type =>
    obtain ⟨p, hp⟩ := type
    cases p with
    | void => exact absurd rfl hp
    | _ => exact .cons (by simp [Primitive.letter]) _
  | classType name => exact .cons (by simp) _
  | array element => exact .cons (by simp) _

end ErasedTree

/-- A derivation of a method descriptor: parameters in parentheses and a result, which is `V` if
there is none. -/
structure ErasedForm where
  parameters : List ErasedTree
  result : Option ErasedTree

namespace ErasedForm

/-- The text of a method descriptor. -/
def text (t : ErasedForm) : List Char :=
  '(' :: t.parameters.flatMap ErasedTree.text ++ ')' :: t.result.elim ['V'] ErasedTree.text

/-- The method descriptor that a derivation stands for. -/
def value (t : ErasedForm) : MethodDescriptor :=
  ⟨t.parameters.map ErasedTree.value, t.result.elim .void ErasedTree.value⟩

end ErasedForm

/-! ### Types -/

theorem ofLetter?_eq_some {c : Char} {p : Primitive} :
    Primitive.ofLetter? c = some p ↔ p.letter = c := by
  constructor
  · intro h
    simpa using List.find?_some h
  · rintro rfl
    cases p <;> rfl

/-- The name of a class is what stands before the first semicolon. -/
theorem reference_eq_ok {s t : List Char} {v : TypeRef} :
    Descriptor.reference s = .ok (v, t) ↔
      ∃ name : Identifier [';'], s = name.chars ++ ';' :: t ∧
        .ofClass (.ofInternal (String.ofList name.chars)) = v := by
  rw [Descriptor.reference]
  constructor
  · intro h
    split at h
    · cases h
    · cases h
    · next name rest hne hCut =>
      cases h
      obtain ⟨c, hc, hFree, rfl⟩ := cutFirst_eq_some_iff.mp hCut
      obtain rfl : c = ';' := by simpa using hc
      exact ⟨⟨name, hne, by simpa using hFree⟩, rfl, rfl⟩
  · rintro ⟨⟨name, hne, hFree⟩, rfl, rfl⟩
    have hCut : cutFirst (· == ';') (name ++ ';' :: t) = some (name, t) :=
      cutFirst_eq_some_iff.mpr ⟨';', by simp, by simpa using hFree, rfl⟩
    rw [hCut]
    cases name with
    | nil => exact absurd rfl hne
    | cons c name => rfl

/-- An erased type at the head of a text is read up to its end, whatever follows. -/
theorem erasedType_complete (d : ErasedTree) (t : List Char) :
    Descriptor.type (d.text ++ t) = .ok (d.value, t) := by
  induction d with
  | base type =>
    obtain ⟨p, hp⟩ := type
    cases p with
    | void => exact absurd rfl hp
    | _ => rfl
  | classType name =>
    have hName : Descriptor.reference (name.chars ++ ';' :: t) = .ok (_, t) :=
      reference_eq_ok.mpr ⟨name, rfl, rfl⟩
    simpa [ErasedTree.text, ErasedTree.value, Descriptor.type] using hName
  | array element ih => simp [ErasedTree.text, Descriptor.type, ih, Except.map, ErasedTree.value]

/-- What is read as an erased type is the text of one. -/
theorem erasedType_sound {s t : List Char} {v : TypeRef} (h : Descriptor.type s = .ok (v, t)) :
    ∃ d : ErasedTree, s = d.text ++ t ∧ d.value = v := by
  induction s generalizing v with
  | nil => cases h
  | cons c s ih =>
    rw [Descriptor.type] at h
    split at h
    · next hc =>
      obtain ⟨name, rfl, rfl⟩ := reference_eq_ok.mp h
      exact ⟨.classType name, by simp [ErasedTree.text, hc], rfl⟩
    split at h
    · next hc =>
      obtain ⟨⟨element, rest⟩, hElement, heq⟩ := Parsing.map_eq_ok.mp h
      cases heq
      obtain ⟨d, rfl, rfl⟩ := ih hElement
      exact ⟨.array d, by simp [ErasedTree.text, hc], rfl⟩
    split at h
    · cases h
    · next hVoid =>
      split at h
      · next p hp =>
        cases h
        obtain rfl := ofLetter?_eq_some.mp hp
        refine ⟨.base ⟨p, ?_⟩, rfl, rfl⟩
        rintro rfl
        exact hVoid rfl
      · cases h

/-- The parser of erased types reads the derivations and nothing else. -/
theorem erasedType_eq_ok {s t : List Char} {v : TypeRef} :
    Descriptor.type s = .ok (v, t) ↔ ∃ d : ErasedTree, s = d.text ++ t ∧ d.value = v := by
  constructor
  · exact erasedType_sound
  · rintro ⟨d, rfl, rfl⟩
    exact erasedType_complete d t

/-! ### Whole descriptors -/

theorem located_eq_ok {α : Type} {text : String} {r : Except DescriptorFault α} {x : α} :
    Descriptor.located text r = .ok x ↔ r = .ok x :=
  Except.mapError_eq_ok

theorem complete_eq_ok {α : Type} {x y : α} {s : List Char} :
    Descriptor.complete (x, s) = .ok y ↔ x = y ∧ s = [] := by
  cases s <;> simp [Descriptor.complete]

/-- A text is the descriptor of a field if it is the text of an erased type. -/
theorem fieldType_eq_ok_iff {text : String} {v : TypeRef} :
    Descriptor.fieldType text = .ok v ↔ ∃ d : ErasedTree, d.text = text.toList ∧ d.value = v := by
  rw [Descriptor.fieldType, located_eq_ok, Except.bind_eq_ok]
  constructor
  · rintro ⟨⟨w, t⟩, hType, hEnd⟩
    obtain ⟨rfl, rfl⟩ := complete_eq_ok.mp hEnd
    obtain ⟨d, hd, rfl⟩ := erasedType_eq_ok.mp hType
    exact ⟨d, by rw [hd, List.append_nil], rfl⟩
  · rintro ⟨d, hd, rfl⟩
    refine ⟨(d.value, []), ?_, rfl⟩
    rw [← hd, ← erasedType_complete d [], List.append_nil]

/-- With as much fuel as there are characters, the parameters are read up to the parenthesis. -/
theorem parametersWithin_eq_ok {fuel : ℕ} {s t : List Char} {vs : List TypeRef}
    (hFuel : s.length ≤ fuel) :
    MethodDescriptor.parametersWithin fuel s = .ok (vs, t) ↔
      ∃ ds : List ErasedTree, s = ds.flatMap ErasedTree.text ++ ')' :: t ∧
        ds.map ErasedTree.value = vs := by
  induction fuel generalizing s vs with
  | zero =>
    obtain rfl : s = [] := List.length_eq_zero_iff.mp (Nat.le_zero.mp hFuel)
    simp [MethodDescriptor.parametersWithin]
  | succ fuel ih =>
    cases s with
    | nil => simp [MethodDescriptor.parametersWithin]
    | cons c s =>
      rw [MethodDescriptor.parametersWithin]
      constructor
      · intro h
        split at h
        · next hc =>
          cases h
          exact ⟨[], by simp [hc], rfl⟩
        · obtain ⟨⟨v, u⟩, hFirst, h⟩ := Except.bind_eq_ok.mp h
          obtain ⟨⟨others, w⟩, hOthers, heq⟩ := Except.bind_eq_ok.mp h
          cases heq
          obtain ⟨d, hd, rfl⟩ := erasedType_eq_ok.mp hFirst
          have hLength : u.length ≤ fuel := by
            have := List.length_pos_of_ne_nil d.text_head.ne_nil
            rw [hd, List.length_append] at hFuel
            omega
          obtain ⟨ds, rfl, rfl⟩ := (ih hLength).mp hOthers
          exact ⟨d :: ds, by simp [hd], rfl⟩
      · rintro ⟨ds, hText, rfl⟩
        cases ds with
        | nil =>
          rw [List.flatMap_nil, List.nil_append, List.cons.injEq] at hText
          rw [if_pos hText.1, hText.2]
          rfl
        | cons d ds =>
          rw [List.flatMap_cons, List.append_assoc] at hText
          have hHead : c ≠ ')' := by
            obtain ⟨e, he, u, hu⟩ := d.text_head
            rw [hu, List.cons_append, List.cons.injEq] at hText
            rintro rfl
            rw [← hText.1] at he
            exact absurd he (by decide)
          have hLength : (ds.flatMap ErasedTree.text ++ ')' :: t).length ≤ fuel := by
            have := List.length_pos_of_ne_nil d.text_head.ne_nil
            rw [hText, List.length_append] at hFuel
            omega
          rw [if_neg hHead, hText, erasedType_complete]
          have hOthers := (ih hLength).mpr ⟨ds, rfl, rfl⟩
          exact Except.bind_eq_ok.mpr ⟨_, rfl, Except.bind_eq_ok.mpr ⟨_, hOthers, rfl⟩⟩

theorem erasedResult_eq_ok {s t : List Char} {v : TypeRef} :
    MethodDescriptor.resultType s = .ok (v, t) ↔
      ∃ d : Option ErasedTree, s = d.elim ['V'] ErasedTree.text ++ t ∧
        d.elim .void ErasedTree.value = v := by
  constructor
  · intro h
    rw [MethodDescriptor.resultType.eq_def] at h
    split at h
    · cases h
      exact ⟨none, rfl, rfl⟩
    · obtain ⟨d, rfl, rfl⟩ := erasedType_eq_ok.mp h
      exact ⟨some d, rfl, rfl⟩
  · rintro ⟨d, rfl, rfl⟩
    cases d with
    | none => rfl
    | some d =>
      obtain ⟨c, hc, s, hs⟩ := d.text_head
      have hRead := erasedType_complete d t
      simp only [Option.elim_some, hs, List.cons_append] at hRead ⊢
      rw [MethodDescriptor.resultType, hRead]
      rintro u hu
      rw [List.cons.injEq] at hu
      rw [hu.1] at hc
      exact absurd hc (by decide)

/-- A text is the descriptor of a method if it is derived as one. -/
theorem methodDescriptor_eq_ok_iff {text : String} {v : MethodDescriptor} :
    MethodDescriptor.ofText text = .ok v ↔
      ∃ d : ErasedForm, d.text = text.toList ∧ d.value = v := by
  rw [MethodDescriptor.ofText, located_eq_ok]
  constructor
  · intro h
    cases hText : text.toList with
    | nil =>
      rw [hText] at h
      cases h
    | cons c s =>
      rw [hText, MethodDescriptor.parse] at h
      split at h
      · next hc =>
        obtain ⟨⟨parameters, u⟩, hParameters, h⟩ := Except.bind_eq_ok.mp h
        obtain ⟨⟨result, w⟩, hResult, hEnd⟩ := Except.bind_eq_ok.mp h
        obtain ⟨rfl, rfl⟩ := complete_eq_ok.mp hEnd
        obtain ⟨ds, rfl, rfl⟩ := (parametersWithin_eq_ok le_rfl).mp hParameters
        obtain ⟨d, rfl, rfl⟩ := erasedResult_eq_ok.mp hResult
        exact ⟨⟨ds, d⟩, by simp [ErasedForm.text, hc], rfl⟩
      · cases h
  · rintro ⟨⟨ds, d⟩, hText, rfl⟩
    rw [← hText, ErasedForm.text, List.cons_append, MethodDescriptor.parse, if_pos rfl]
    have hResult := erasedResult_eq_ok.mpr ⟨d, (List.append_nil _).symm, rfl⟩
    refine Except.bind_eq_ok.mpr ⟨_, (parametersWithin_eq_ok le_rfl).mpr ⟨ds, rfl, rfl⟩, ?_⟩
    exact Except.bind_eq_ok.mpr ⟨_, hResult, rfl⟩

end Signature

end ClassSketch
