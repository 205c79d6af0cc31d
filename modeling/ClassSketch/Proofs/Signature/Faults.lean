import ClassSketch.Proofs.Signature.Erased

/-!
# Faults of descriptors

A descriptor that is not read is refused with a fault, which is the first that a reader from the
left comes upon. What follows a type counts last: only a text that starts with a whole type can have
something left over.

## Main definitions

* `ErasedFault` — what is wrong at the head of a text
* `FieldFault` — what is wrong with a whole descriptor
* `ClassFault` — what is wrong with a descriptor that has to name a class

## Main results

* `erasedType_eq_error` — the parser of erased types stops at the fault
* `fieldType_eq_error_iff`, `className_eq_error_iff`, `returnType_eq_error_iff` — which error a
  descriptor gives
* `className_eq_ok_iff`, `returnType_eq_ok_iff` — and which value
-/

namespace ClassSketch

namespace Signature

open Text

/-- The characters with which a type starts, and the letter of no type. -/
abbrev erasedHeads : List Char := ['B', 'C', 'D', 'F', 'I', 'J', 'S', 'Z', 'L', '[', 'V']

/-- What is wrong at the head of a text. Behind `[` it is what is wrong with the elements. -/
inductive ErasedFault : List Char → DescriptorFault → Prop
  | unexpectedEnd : ErasedFault [] .unexpectedEnd
  | misplacedVoid {s : List Char} : ErasedFault ('V' :: s) .misplacedVoid
  | unexpectedTag {c : Char} {s : List Char} (h : c ∉ erasedHeads) :
      ErasedFault (c :: s) (.unexpectedTag c)
  | unterminatedReference {s : List Char} (h : ';' ∉ s) :
      ErasedFault ('L' :: s) .unterminatedReference
  | emptyClassName {s : List Char} : ErasedFault ('L' :: ';' :: s) .emptyClassName
  | element {s : List Char} {f : DescriptorFault} (h : ErasedFault s f) : ErasedFault ('[' :: s) f

/-- What is wrong with a text that has to be a type: a fault at its head, or what follows a type. -/
inductive FieldFault : List Char → DescriptorFault → Prop
  | head {s : List Char} {f : DescriptorFault} (h : ErasedFault s f) : FieldFault s f
  | leftover {d : ErasedTree} {rest : List Char} (h : rest ≠ []) :
      FieldFault (d.text ++ rest) .leftover

/-- What is wrong with a text that has to name a class. -/
inductive ClassFault : List Char → DescriptorFault → Prop
  | field {s : List Char} {f : DescriptorFault} (h : FieldFault s f) : ClassFault s f
  | notAClass {d : ErasedTree} (h : ∀ name, d ≠ .classType name) : ClassFault d.text .notAClass

/-- A text names a class if it is `L`, the name and `;`. -/
def NamesClass (text : String) (c : ClassName) : Prop :=
  ∃ name : Identifier [';'], text.toList = 'L' :: (name.chars ++ [';']) ∧
    c = .ofInternal (String.ofList name.chars)

/-- A text names a type if it derives one, or is the letter of `void`. -/
def NamesType (text : String) (t : TypeRef) : Prop :=
  text = "V" ∧ t = .void ∨ ∃ d : ErasedTree, d.text = text.toList ∧ d.value = t

/-! ### The head of a text -/

theorem fault_of_reference_eq_error {s : List Char} {f : DescriptorFault}
    (h : Descriptor.reference s = .error f) : ErasedFault ('L' :: s) f := by
  rw [Descriptor.reference] at h
  split at h
  · next hCut =>
    cases h
    have hFree : ∀ c ∈ s, c ≠ ';' := by simpa using cutFirst_eq_none_iff.mp hCut
    exact .unterminatedReference fun hMem => hFree ';' hMem rfl
  · next rest hCut =>
    cases h
    obtain ⟨c, hc, -, rfl⟩ := cutFirst_eq_some_iff.mp hCut
    obtain rfl : c = ';' := by simpa using hc
    exact .emptyClassName
  · cases h

theorem ofLetter?_eq_none_iff {c : Char} :
    Primitive.ofLetter? c = none ↔ ∀ p : Primitive, p.letter ≠ c := by
  rw [Option.eq_none_iff_forall_ne_some]
  exact forall_congr' fun p => not_congr ofLetter?_eq_some

theorem letter_mem_erasedHeads (p : Primitive) : p.letter ∈ erasedHeads := by
  cases p <;> simp [Primitive.letter]

/-- A text with a fault is refused with this fault. -/
theorem erasedType_eq_error_of_fault {s : List Char} {f : DescriptorFault}
    (h : ErasedFault s f) : Descriptor.type s = .error f := by
  induction h with
  | unexpectedEnd => rfl
  | misplacedVoid => rfl
  | @unexpectedTag c s h =>
    have hLetter : Primitive.ofLetter? c = none :=
      ofLetter?_eq_none_iff.mpr fun p hp => h (hp ▸ letter_mem_erasedHeads p)
    simp only [List.mem_cons, List.not_mem_nil, or_false, not_or] at h
    obtain ⟨-, -, -, -, -, -, -, -, hReference, hArray, hVoid⟩ := h
    rw [Descriptor.type, if_neg hReference, if_neg hArray, if_neg hVoid, hLetter]
  | @unterminatedReference s h =>
    have hCut : cutFirst (· == ';') s = none := by
      refine cutFirst_eq_none_iff.mpr fun c hc => beq_eq_false_iff_ne.mpr ?_
      rintro rfl
      exact h hc
    rw [Descriptor.type, if_pos rfl, Descriptor.reference, hCut]
  | emptyClassName => rfl
  | element _ ih =>
    rw [Descriptor.type, if_neg (by decide), if_pos rfl, ih]
    rfl

/-- A text that is refused has the fault it is refused with. -/
theorem fault_of_erasedType_eq_error {s : List Char} {f : DescriptorFault}
    (h : Descriptor.type s = .error f) : ErasedFault s f := by
  induction s with
  | nil =>
    cases h
    exact .unexpectedEnd
  | cons c s ih =>
    rw [Descriptor.type] at h
    split at h
    · next hc =>
      subst hc
      exact fault_of_reference_eq_error h
    split at h
    · next hc =>
      subst hc
      exact .element (ih (Except.map_eq_error.mp h))
    split at h
    · next hc =>
      subst hc
      cases h
      exact .misplacedVoid
    · next hReference hArray hVoid =>
      split at h
      · cases h
      · next hLetter =>
        cases h
        refine .unexpectedTag fun hMem => ?_
        have hNone := ofLetter?_eq_none_iff.mp hLetter
        simp only [List.mem_cons, List.not_mem_nil, or_false, hReference, hArray, hVoid] at hMem
        rcases hMem with rfl | rfl | rfl | rfl | rfl | rfl | rfl | rfl
        · exact hNone .byte rfl
        · exact hNone .char rfl
        · exact hNone .double rfl
        · exact hNone .float rfl
        · exact hNone .int rfl
        · exact hNone .long rfl
        · exact hNone .short rfl
        · exact hNone .boolean rfl

/-- The parser of erased types stops at the fault at the head of a text, and at nothing else. -/
theorem erasedType_eq_error {s : List Char} {f : DescriptorFault} :
    Descriptor.type s = .error f ↔ ErasedFault s f :=
  ⟨fault_of_erasedType_eq_error, erasedType_eq_error_of_fault⟩

/-! ### Whole descriptors -/

theorem located_eq_error {α : Type} {text : String} {r : Except DescriptorFault α}
    {e : ClassFile.Error} :
    Descriptor.located text r = .error e ↔ ∃ f, r = .error f ∧ e = .invalidDescriptor text f := by
  rw [Descriptor.located, Except.mapError_eq_error]
  simp only [eq_comm]

theorem complete_eq_error {α : Type} {x : α} {s : List Char} {f : DescriptorFault} :
    Descriptor.complete (x, s) = .error f ↔ s ≠ [] ∧ f = .leftover := by
  cases s <;> simp [Descriptor.complete, eq_comm]

/-- The descriptor of a field is refused for its type or for what follows it. -/
theorem fieldFault_iff {s : List Char} {f : DescriptorFault} :
    FieldFault s f ↔ (Descriptor.type s >>= Descriptor.complete) = .error f := by
  rw [Except.bind_eq_error, erasedType_eq_error]
  constructor
  · intro h
    cases h with
    | head h => exact .inl h
    | @leftover d rest h =>
      exact .inr ⟨(d.value, rest), erasedType_complete d rest, complete_eq_error.mpr ⟨h, rfl⟩⟩
  · rintro (h | ⟨⟨v, rest⟩, hType, hEnd⟩)
    · exact .head h
    · obtain ⟨d, rfl, -⟩ := erasedType_eq_ok.mp hType
      obtain ⟨hne, rfl⟩ := complete_eq_error.mp hEnd
      exact .leftover hne

/-- A text that is no type is refused with its fault. -/
theorem fieldType_eq_error_iff {text : String} {e : ClassFile.Error} :
    Descriptor.fieldType text = .error e ↔
      ∃ f, FieldFault text.toList f ∧ e = .invalidDescriptor text f := by
  rw [Descriptor.fieldType, located_eq_error]
  simp only [fieldFault_iff]

/-- The type of a class literal, where `V` stands for `void`. -/
theorem returnType_eq_ok_iff {text : String} {t : TypeRef} :
    Descriptor.returnType text = .ok t ↔ NamesType text t := by
  rw [Descriptor.returnType, NamesType]
  split
  · next hVoid =>
    subst hVoid
    constructor
    · intro h
      cases h
      exact .inl ⟨rfl, rfl⟩
    · rintro (⟨-, rfl⟩ | ⟨d, hText, -⟩)
      · rfl
      · -- no type starts with the letter of `void`
        obtain ⟨c, hc, s, hs⟩ := d.text_head
        rw [hs] at hText
        cases hText
        exact absurd hc (by decide)
  · next hVoid =>
    rw [fieldType_eq_ok_iff]
    exact ⟨.inr, fun h => h.resolve_left fun hText => hVoid hText.1⟩

/-- Class literals are refused as the descriptors of fields are. -/
theorem returnType_eq_error_iff {text : String} {e : ClassFile.Error} :
    Descriptor.returnType text = .error e ↔
      text ≠ "V" ∧ ∃ f, FieldFault text.toList f ∧ e = .invalidDescriptor text f := by
  rw [Descriptor.returnType]
  split
  · next hVoid => simp [hVoid]
  · next hVoid => simp only [fieldType_eq_error_iff, ne_eq, hVoid, not_false_eq_true, true_and]

theorem className_eq_ok_iff {text : String} {c : ClassName} :
    Descriptor.className text = .ok c ↔ NamesClass text c := by
  rw [Descriptor.className, Except.bind_eq_ok]
  constructor
  · rintro ⟨t, hType, h⟩
    obtain ⟨d, hText, rfl⟩ := fieldType_eq_ok_iff.mp hType
    cases d with
    | base type => cases h
    | classType name =>
      cases h
      exact ⟨name, hText.symm, rfl⟩
    | array element => cases h
  · rintro ⟨name, hText, rfl⟩
    exact ⟨_, fieldType_eq_ok_iff.mpr ⟨.classType name, hText.symm, rfl⟩, rfl⟩

/-- The name of a class is refused where the descriptor is, or where it names no class. -/
theorem className_eq_error_iff {text : String} {e : ClassFile.Error} :
    Descriptor.className text = .error e ↔
      ∃ f, ClassFault text.toList f ∧ e = .invalidDescriptor text f := by
  rw [Descriptor.className, Except.bind_eq_error, fieldType_eq_error_iff]
  constructor
  · rintro (⟨f, hFault, rfl⟩ | ⟨t, hType, h⟩)
    · exact ⟨f, .field hFault, rfl⟩
    · obtain ⟨d, hText, rfl⟩ := fieldType_eq_ok_iff.mp hType
      rw [← hText]
      cases d with
      | base type =>
        cases h
        exact ⟨_, .notAClass (by simp), rfl⟩
      | classType name => cases h
      | array element =>
        cases h
        exact ⟨_, .notAClass (by simp), rfl⟩
  · rintro ⟨f, hFault, rfl⟩
    generalize hText : text.toList = s at hFault
    cases hFault with
    | field h => exact .inl ⟨f, hText ▸ h, rfl⟩
    | @notAClass d hNot =>
      refine .inr ⟨d.value, fieldType_eq_ok_iff.mpr ⟨d, hText.symm, rfl⟩, ?_⟩
      cases d with
      | base type => rfl
      | classType name => exact absurd rfl (hNot name)
      | array element => rfl

end Signature

end ClassSketch
