import ClassSketch.Proofs.Sketch.Skeleton

/-!
# Members that are shown

A field or method is shown if it can be seen from outside, was written by the author, is not marked
as internal, and has no generic signature that cannot be read. Building a member asks for these
things one after the other, and may fail in between. The lemmas here say what an end without failure
means: the member was left out and is none that is kept, or it is kept and was built.

## Main definitions

* `Owner.Keeps`, `Owner.KeepsField`, `Owner.KeepsMethod` — which members are shown
* `Owner.BuildsField`, `Owner.BuildsExecutable` — what a shown member is built from
* `Owner.bareParameters` — the names and types of the parameters of a method

## Main results

* `Owner.executable_cases` — what a built method is put together from
* `Owner.field_eq_ok`, `Owner.executable_eq_ok` — what becomes of a field and of a method
-/

namespace ClassSketch

deriving instance ReflBEq, LawfulBEq for TypeKind

/-! ### Which members are shown -/

/-- Whether the settings name the class of an annotation, in either spelling, as one that marks
members as internal. -/
def RawAnnotation.IsInternal (settings : Settings) (a : RawAnnotation) : Prop :=
  ∃ type ∈ a.className.toOption,
    type.canonical ∈ settings.internalAnnotations ∨ type.binary ∈ settings.internalAnnotations

instance (settings : Settings) (a : RawAnnotation) : Decidable (a.IsInternal settings) :=
  inferInstanceAs (Decidable (∃ type ∈ a.className.toOption, _))

theorem Settings.isInternalAnnotation_iff {settings : Settings} {canonical binary : String} :
    settings.isInternalAnnotation canonical binary = true ↔
      canonical ∈ settings.internalAnnotations ∨ binary ∈ settings.internalAnnotations := by
  unfold isInternalAnnotation
  rw [List.any_eq_true]
  constructor
  · rintro ⟨name, hName, hEq⟩
    rw [Bool.or_eq_true, beq_iff_eq, beq_iff_eq] at hEq
    rcases hEq with rfl | rfl
    · exact .inl hName
    · exact .inr hName
  · rintro (h | h)
    · exact ⟨canonical, h, by simp⟩
    · exact ⟨binary, h, by simp⟩

/-- A search for an internal mark that ends with an answer gives the right one. -/
theorem hasInternalMark_eq_ok {settings : Settings} {annotations : List RawAnnotation}
    {marked : Bool} (h : hasInternalMark settings annotations = .ok marked) :
    marked = true ↔ ∃ a ∈ annotations, a.IsInternal settings := by
  induction annotations with
  | nil =>
    cases h
    simp
  | cons a annotations ih =>
    rw [hasInternalMark] at h
    obtain ⟨type, hType, h⟩ := Except.bind_eq_ok.mp h
    have hInternal : a.IsInternal settings ↔
        settings.isInternalAnnotation type.canonical type.binary = true := by
      rw [Settings.isInternalAnnotation_iff, RawAnnotation.IsInternal, hType]
      simp [Except.toOption]
    split at h
    · next hMark =>
      cases h
      simp only [true_iff]
      exact ⟨a, List.mem_cons_self, hInternal.mpr hMark⟩
    · next hMark =>
      rw [ih h, List.exists_mem_cons_iff, hInternal]
      simp [hMark]

namespace Owner

/-- What is asked of a member of either kind: it can be seen from outside, neither flags nor name
say that a compiler made it, and no annotation marks it as internal. -/
structure Keeps (o : Owner) (access : AccessFlags) (name : String)
    (annotations : List RawAnnotation) : Prop where
  notSynthetic : access.isSynthetic = false
  visible : access.isPublic = true ∨ access.isProtected = true
  notGenerated : '$' ∉ name.toList
  notInternal : ∀ a ∈ annotations, ¬a.IsInternal o.settings

/-- The fields that are shown. -/
structure KeepsField (o : Owner) (f : FieldInfo) : Prop
    extends o.Keeps f.access f.name f.annotations where
  notRange : o.kind = .enum → f.name ∉ ["MIN_VALUE", "MAX_VALUE"]
  signature : ∀ text ∈ f.signature, (Signature.field text).isOk = true

/-- The methods and constructors that are shown. -/
structure KeepsMethod (o : Owner) (m : MethodInfo) : Prop
    extends o.Keeps m.access m.name m.annotations where
  notBridge : m.access.isBridge = false
  notInitializer : m.name ≠ initializerName
  notExcluded : m.name ∉ o.settings.excludedMethods
  notSupplied : o.kind = .enum →
    m.name ∉ [constructorName, "values", "valueOf", "next", "previous"]
  signature : ∀ text ∈ m.signature, (MethodSignature.ofText text).isOk = true

instance (o : Owner) (access : AccessFlags) (name : String) (annotations : List RawAnnotation) :
    Decidable (o.Keeps access name annotations) :=
  decidable_of_iff
    (access.isSynthetic = false ∧ (access.isPublic = true ∨ access.isProtected = true) ∧
      '$' ∉ name.toList ∧ ∀ a ∈ annotations, ¬a.IsInternal o.settings)
    ⟨fun ⟨h, h', h'', h'''⟩ => ⟨h, h', h'', h'''⟩,
      fun h => ⟨h.notSynthetic, h.visible, h.notGenerated, h.notInternal⟩⟩

instance (o : Owner) : DecidablePred o.KeepsField := fun f =>
  decidable_of_iff
    (o.Keeps f.access f.name f.annotations ∧
      (o.kind = .enum → f.name ∉ ["MIN_VALUE", "MAX_VALUE"]) ∧
      ∀ text ∈ f.signature, (Signature.field text).isOk = true)
    ⟨fun ⟨h, h', h''⟩ => ⟨h, h', h''⟩, fun h => ⟨h.toKeeps, h.notRange, h.signature⟩⟩

instance (o : Owner) : DecidablePred o.KeepsMethod := fun m =>
  decidable_of_iff
    (o.Keeps m.access m.name m.annotations ∧ m.access.isBridge = false ∧ m.name ≠ initializerName ∧
      m.name ∉ o.settings.excludedMethods ∧
      (o.kind = .enum → m.name ∉ [constructorName, "values", "valueOf", "next", "previous"]) ∧
      ∀ text ∈ m.signature, (MethodSignature.ofText text).isOk = true)
    ⟨fun ⟨h, h₁, h₂, h₃, h₄, h₅⟩ => ⟨h, h₁, h₂, h₃, h₄, h₅⟩,
      fun h => ⟨h.toKeeps, h.notBridge, h.notInitializer, h.notExcluded, h.notSupplied,
        h.signature⟩⟩

theorem isVisible_iff {access : AccessFlags} :
    access.isVisible = true ↔ access.isPublic = true ∨ access.isProtected = true := by
  rw [AccessFlags.isVisible, Bool.or_eq_true]

theorem isGeneratedName_eq_false_iff {name : String} :
    isGeneratedName name = false ↔ '$' ∉ name.toList := by
  rw [isGeneratedName, ← Bool.not_eq_true, List.contains_iff_mem]

theorem keepsField_iff {o : Owner} {f : FieldInfo} :
    o.KeepsField f ↔ o.hidesField f = false ∧ (¬∃ a ∈ f.annotations, a.IsInternal o.settings) ∧
      ∀ text ∈ f.signature, (Signature.field text).isOk = true := by
  simp only [hidesField, Bool.or_eq_false_iff, Bool.not_eq_false', isVisible_iff,
    isGeneratedName_eq_false_iff, Bool.and_eq_false_imp, beq_iff_eq, List.contains_eq_mem,
    decide_eq_false_iff_not, not_exists, not_and]
  constructor
  · intro h
    exact ⟨⟨⟨⟨h.notSynthetic, h.visible⟩, h.notGenerated⟩, h.notRange⟩, h.notInternal, h.signature⟩
  · rintro ⟨⟨⟨⟨hSynthetic, hVisible⟩, hName⟩, hRange⟩, hInternal, hSignature⟩
    exact ⟨⟨hSynthetic, hVisible, hName, hInternal⟩, hRange, hSignature⟩

theorem keepsMethod_iff {o : Owner} {m : MethodInfo} :
    o.KeepsMethod m ↔ o.hidesMethod m = false ∧ (¬∃ a ∈ m.annotations, a.IsInternal o.settings) ∧
      ∀ text ∈ m.signature, (MethodSignature.ofText text).isOk = true := by
  simp only [hidesMethod, Bool.or_eq_false_iff, Bool.not_eq_false', isVisible_iff,
    isGeneratedName_eq_false_iff, Bool.and_eq_false_imp, beq_iff_eq, beq_eq_false_iff_ne,
    List.contains_eq_mem, decide_eq_false_iff_not, not_exists, not_and]
  constructor
  · intro h
    exact ⟨⟨⟨⟨⟨⟨⟨h.notSynthetic, h.notBridge⟩, h.notInitializer⟩, h.visible⟩, h.notGenerated⟩,
      h.notExcluded⟩, h.notSupplied⟩, h.notInternal, h.signature⟩
  · rintro ⟨⟨⟨⟨⟨⟨⟨hSynthetic, hBridge⟩, hInitializer⟩, hVisible⟩, hName⟩, hExcluded⟩, hSupplied⟩,
      hInternal, hSignature⟩
    exact ⟨⟨hSynthetic, hVisible, hName, hInternal⟩, hBridge, hInitializer, hExcluded, hSupplied,
      hSignature⟩

/-! ### What becomes of a member -/

/-- A member is shown if neither its flags nor its name hide it and no annotation marks it. -/
theorem shown_eq_ok {o : Owner} {hidden : Bool} {member : String}
    {annotations : List RawAnnotation} {shown : Bool}
    (h : (if hidden then .ok false
      else do return !(← o.concerning member (hasInternalMark o.settings annotations))) =
        (.ok shown : Except SketchError Bool)) :
    shown = true ↔ hidden = false ∧ ¬∃ a ∈ annotations, a.IsInternal o.settings := by
  split at h
  · next hHidden =>
    cases h
    simp [hHidden]
  · next hVisible =>
    obtain ⟨marked, hMarked, heq⟩ := Except.bind_eq_ok.mp h
    cases heq
    rw [← hasInternalMark_eq_ok (Except.mapError_eq_ok.mp hMarked)]
    simp [hVisible]

/-- The search for an internal mark has an answer if all classes of annotations can be read. -/
theorem exists_hasInternalMark (settings : Settings) {annotations : List RawAnnotation}
    (h : ∀ a ∈ annotations, a.className.isOk = true) :
    ∃ marked, hasInternalMark settings annotations = .ok marked := by
  induction annotations with
  | nil => exact ⟨false, rfl⟩
  | cons a annotations ih =>
    obtain ⟨hFirst, hRest⟩ := List.forall_mem_cons.mp h
    obtain ⟨type, hType⟩ := Except.isOk_iff.mp hFirst
    rw [hasInternalMark, hType]
    by_cases hMark : settings.isInternalAnnotation type.canonical type.binary = true
    · exact ⟨true, if_pos hMark⟩
    · obtain ⟨marked, hMarked⟩ := ih hRest
      exact ⟨marked, (if_neg hMark).trans hMarked⟩

/-- Whether a member is shown is decided without an error if all classes of its annotations can be
read. -/
theorem exists_shown (o : Owner) (hidden : Bool) (member : String)
    {annotations : List RawAnnotation} (h : ∀ a ∈ annotations, a.className.isOk = true) :
    ∃ shown, (if hidden then .ok false
      else do return !(← o.concerning member (hasInternalMark o.settings annotations))) =
        (.ok shown : Except SketchError Bool) := by
  obtain ⟨marked, hMarked⟩ := exists_hasInternalMark o.settings h
  split
  · exact ⟨false, rfl⟩
  · rw [concerning, hMarked]
    exact ⟨!marked, rfl⟩

/-- The generic form of a type: that of the signature, or the erased one if there is none. -/
def generic? {α : Type} (read : String → Except SignatureError α) (erased : α) :
    Option String → Option α
  | some text => (read text).toOption
  | none => some erased

theorem generic?_eq_none {α : Type} (read : String → Except SignatureError α) (erased : α)
    {signature : Option String} (h : generic? read erased signature = none) :
    ¬∀ text ∈ signature, (read text).isOk = true := by
  intro hOk
  cases signature with
  | none => cases h
  | some text =>
    obtain ⟨type, hType⟩ := Except.isOk_iff.mp (hOk text rfl)
    rw [generic?, hType] at h
    cases h

theorem generic?_eq_some {α : Type} (read : String → Except SignatureError α) (erased : α)
    {signature : Option String} {type : α} (h : generic? read erased signature = some type) :
    (signature = none → type = erased) ∧ ∀ text ∈ signature, read text = .ok type := by
  cases signature with
  | none =>
    cases h
    simp
  | some text =>
    refine ⟨by simp, ?_⟩
    rintro _ ⟨⟩
    rw [generic?] at h
    cases hRead : read text with
    | error e =>
      rw [hRead] at h
      cases h
    | ok type' =>
      rw [hRead] at h
      cases h
      rfl

/-- What a field that is shown is built from. -/
structure BuildsField (o : Owner) (f : FieldInfo) (b : BuiltField) : Prop where
  name : b.decl.name = f.name
  /-- Without a signature, the type is that of the descriptor. -/
  erased : f.signature = none → Descriptor.fieldType f.descriptor = .ok b.decl.type
  generic : ∀ text ∈ f.signature, Signature.field text = .ok b.decl.type
  annotations : ∃ converted, convertAnnotations o.settings f.annotations = .ok converted ∧
    b.decl.annotations = converted.annotations

/-- What becomes of a field: it is left out unless it is kept, and else built. -/
theorem field_eq_ok {o : Owner} {f : FieldInfo} {result : Option BuiltField}
    (h : o.field f = .ok result) :
    (¬o.KeepsField f ∧ result = none) ∨
      (o.KeepsField f ∧ ∃ b, result = some b ∧ o.BuildsField f b) := by
  rw [keepsField_iff]
  obtain ⟨shown, hShown, h⟩ := Except.bind_eq_ok.mp h
  have hKeeps := shown_eq_ok hShown
  split at h
  · next hHidden =>
    cases h
    refine .inl ⟨fun hKept => ?_, rfl⟩
    simp [hKeeps.mpr ⟨hKept.1, hKept.2.1⟩] at hHidden
  · next hVisible =>
    obtain ⟨hHides, hInternal⟩ := hKeeps.mp (by simpa using hVisible)
    obtain ⟨erased, hErased, h⟩ := Except.bind_eq_ok.mp h
    simp only at h
    split at h
    · next hGeneric =>
      cases h
      have hBad := generic?_eq_none Signature.field erased hGeneric
      exact .inl ⟨fun hKept => hBad hKept.2.2, rfl⟩
    · next type hGeneric =>
      obtain ⟨hNone, hSome⟩ := generic?_eq_some Signature.field erased hGeneric
      obtain ⟨constant, -, h⟩ := Except.bind_eq_ok.mp h
      obtain ⟨converted, hConverted, heq⟩ := Except.bind_eq_ok.mp h
      cases heq
      refine .inr ⟨⟨hHides, hInternal, ?_⟩, _, rfl, rfl, ?_, hSome, ?_⟩
      · exact fun text hText => Except.isOk_iff.mpr ⟨type, hSome text hText⟩
      · intro hSignature
        rw [Except.mapError_eq_ok.mp hErased, ← hNone hSignature]
      · exact ⟨converted, Except.mapError_eq_ok.mp hConverted, rfl⟩

/-- A table of annotations leaves the number of parameters as it is, however long it is. -/
theorem length_annotate {o : Owner} {member : String} {bare parameters : List Parameter}
    {table : List (List RawAnnotation)} (h : o.annotate member bare table = .ok parameters) :
    parameters.length = bare.length := by
  rw [annotate] at h
  rw [Except.length_of_mapM_eq_ok h, List.length_zip, List.length_append, List.length_replicate]
  omega

theorem length_reconcile (generic erased : List TypeRef) :
    (reconcile generic erased).length = erased.length := by
  rw [reconcile, List.length_append, List.length_take, List.length_drop]
  omega

/-- What a method or constructor that is shown is built from. -/
structure BuildsExecutable (o : Owner) (m : MethodInfo) (b : BuiltExecutable) : Prop where
  name : b.decl.name = m.name
  annotations : ∃ converted, convertAnnotations o.settings m.annotations = .ok converted ∧
    b.decl.annotations = converted.annotations
  parameters : ∃ bare, o.annotate m.name bare m.parameterAnnotations = .ok b.decl.parameters
  defaultValue : o.defaultValue m b.decl.parameters = .ok b.decl.defaultValue

/-- The names of the parameters: the recorded ones, or else a placeholder for each. -/
def givenNames (m : MethodInfo) (d : MethodDescriptor) : List String :=
  (recoveredNames? m d).getD ((List.range d.parameters.length).map placeholderName)

/-- The parameters with their names and types. -/
def bareParameters (m : MethodInfo) (d : MethodDescriptor) (s : MethodSignature) :
    List Parameter :=
  ((givenNames m d).zip (reconcile s.parameters d.parameters)).map fun (name, type) =>
    { name := name, type := type }

/-- What an end without failure says of a method: it is not shown, its signature cannot be read, or
it is put together from what its parts are. -/
theorem executable_cases {o : Owner} {m : MethodInfo} {result : Option BuiltExecutable}
    (h : o.executable m = .ok result) :
    (result = none ∧ (o.showsMethod m = .ok false ∨
      ∃ d, generic? MethodSignature.ofText (erasedSignature d) m.signature = none)) ∨
    ∃ d s b, result = some b ∧ o.showsMethod m = .ok true ∧
      MethodDescriptor.ofText m.descriptor = .ok d ∧
      generic? MethodSignature.ofText (erasedSignature d) m.signature = some s ∧
      o.annotate m.name (bareParameters m d s) m.parameterAnnotations = .ok b.decl.parameters ∧
      b.namesRecovered = (recoveredNames? m d).isSome ∧ b.erasedParameters = d.parameters ∧
      o.BuildsExecutable m b := by
  obtain ⟨shown, hShown, h⟩ := Except.bind_eq_ok.mp h
  cases shown with
  | false =>
    cases h
    exact .inl ⟨rfl, .inl hShown⟩
  | true =>
    obtain ⟨d, hDescriptor, h⟩ := Except.bind_eq_ok.mp h
    simp only at h
    split at h
    · next hGeneric =>
      cases h
      exact .inl ⟨rfl, .inr ⟨d, hGeneric⟩⟩
    · next s hGeneric =>
      obtain ⟨parameters, hParameters, h⟩ := Except.bind_eq_ok.mp h
      obtain ⟨converted, hConverted, h⟩ := Except.bind_eq_ok.mp h
      obtain ⟨default, hDefault, heq⟩ := Except.bind_eq_ok.mp h
      cases heq
      exact .inr ⟨d, s, _, rfl, hShown, Except.mapError_eq_ok.mp hDescriptor, hGeneric, hParameters,
        rfl, rfl, rfl, ⟨converted, Except.mapError_eq_ok.mp hConverted, rfl⟩, ⟨_, hParameters⟩,
        hDefault⟩

/-- What becomes of a method: it is left out unless it is kept, and else built. -/
theorem executable_eq_ok {o : Owner} {m : MethodInfo} {result : Option BuiltExecutable}
    (h : o.executable m = .ok result) :
    (¬o.KeepsMethod m ∧ result = none) ∨
      (o.KeepsMethod m ∧ ∃ b, result = some b ∧ o.BuildsExecutable m b) := by
  rw [keepsMethod_iff]
  rcases executable_cases h with ⟨rfl, hHidden | ⟨d, hGeneric⟩⟩ |
    ⟨d, s, b, rfl, hShown, -, hGeneric, -, -, -, hBuilds⟩
  · refine .inl ⟨fun hKept => ?_, rfl⟩
    cases (shown_eq_ok hHidden).mpr ⟨hKept.1, hKept.2.1⟩
  · have hBad := generic?_eq_none MethodSignature.ofText (erasedSignature d) hGeneric
    exact .inl ⟨fun hKept => hBad hKept.2.2, rfl⟩
  · obtain ⟨hHides, hInternal⟩ := (shown_eq_ok hShown).mp rfl
    obtain ⟨-, hSome⟩ := generic?_eq_some MethodSignature.ofText (erasedSignature d) hGeneric
    refine .inr ⟨⟨hHides, hInternal, fun text hText => ?_⟩, b, rfl, hBuilds⟩
    exact Except.isOk_iff.mpr ⟨s, hSome text hText⟩

end Owner

end ClassSketch
