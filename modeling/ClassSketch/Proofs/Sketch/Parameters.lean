import ClassSketch.Proofs.ClassFile.LocalVariables
import ClassSketch.Proofs.Sketch.Members

/-!
# Putting parameters together

The parameters of a method come from four sources of their own lengths: the types of its signature,
the types of its descriptor, the recorded names and the table of annotations. The descriptor alone
says how many there are. Missing types of the signature are replaced by those of the descriptor,
missing names by placeholders, and the table of annotations belongs to the last parameters, so that
a type, a name and a row of annotations at one place always belong to the same parameter.

## Main definitions

* `Owner.rowsFor` — a row of annotations for each parameter
* `Owner.AssemblesParameter` — what a parameter is put together from

## Main results

* `Owner.exists_of_executable` — what a built method is put together from
* `Owner.getElem?_bareParameters`, `Owner.getElem?_annotate` — the parameter at a place
* `Owner.executable_isOk_iff` — when a method that is kept is built without an error
* `Owner.executable_parameters` — the parameters of a built method
-/

namespace ClassSketch

namespace Owner

/-! ### Names and types -/

theorem recoveredNames?_of_ne_nil {m : MethodInfo} {d : MethodDescriptor}
    (h : d.parameters ≠ []) : recoveredNames? m d = m.parameterNames? d := by
  rw [recoveredNames?, if_neg (by simpa using h)]

theorem recoveredNames?_isSome_iff {m : MethodInfo} {d : MethodDescriptor} :
    (recoveredNames? m d).isSome = true ↔
      (m.parameterNames? d).isSome = true ∨ d.parameters = [] := by
  by_cases h : d.parameters = []
  · simp [recoveredNames?, h]
  · simp [recoveredNames?_of_ne_nil h, h]

theorem length_givenNames (m : MethodInfo) (d : MethodDescriptor) :
    (givenNames m d).length = d.parameters.length := by
  by_cases h : d.parameters = []
  · simp [givenNames, recoveredNames?, h]
  rw [givenNames, recoveredNames?_of_ne_nil h]
  cases hNames : m.parameterNames? d with
  | none => rw [Option.getD_none, List.length_map, List.length_range]
  | some names => rw [Option.getD_some, MethodInfo.length_parameterNames? hNames]

theorem getElem?_givenNames {m : MethodInfo} {d : MethodDescriptor} {i : ℕ}
    (hi : i < d.parameters.length) : (givenNames m d)[i]? =
      match m.parameterNames? d with
      | some names => names[i]?
      | none => some (placeholderName i) := by
  rw [givenNames, recoveredNames?_of_ne_nil (List.ne_nil_of_length_pos (Nat.zero_lt_of_lt hi))]
  cases m.parameterNames? d with
  | none => simp [hi]
  | some names => rfl

/-- Where the signature lists no type, the type is that of the descriptor. -/
theorem getElem?_reconcile {generic erased : List TypeRef} {i : ℕ} (hi : i < erased.length) :
    (reconcile generic erased)[i]? = generic[i]?.or erased[i]? := by
  rw [reconcile, List.getElem?_append, List.length_take, List.getElem?_take_of_lt hi,
    List.getElem?_drop]
  by_cases hShort : i < generic.length
  · rw [if_pos (by omega), List.getElem?_eq_getElem hShort, Option.some_or]
  · rw [if_neg (by omega), List.getElem?_eq_none (Nat.not_lt.mp hShort), Option.none_or]
    congr 1
    omega

theorem length_bareParameters (m : MethodInfo) (d : MethodDescriptor) (s : MethodSignature) :
    (bareParameters m d s).length = d.parameters.length := by
  rw [bareParameters, List.length_map, List.length_zip, length_givenNames, length_reconcile,
    Nat.min_self]

theorem types_bareParameters (m : MethodInfo) (d : MethodDescriptor) (s : MethodSignature) :
    (bareParameters m d s).map Parameter.type = reconcile s.parameters d.parameters := by
  rw [bareParameters, List.map_map]
  exact List.map_snd_zip (by rw [length_reconcile, length_givenNames])

theorem getElem?_bareParameters {m : MethodInfo} {d : MethodDescriptor} {s : MethodSignature}
    {i : ℕ} {p : Parameter} (h : (bareParameters m d s)[i]? = some p) :
    (givenNames m d)[i]? = some p.name ∧ s.parameters[i]?.or d.parameters[i]? = some p.type := by
  have hi : i < d.parameters.length := by
    rw [← length_bareParameters m d s]
    exact (List.getElem?_eq_some_iff.mp h).1
  rw [bareParameters, List.getElem?_map, Option.map_eq_some_iff] at h
  obtain ⟨⟨name, type⟩, hZip, rfl⟩ := h
  obtain ⟨hName, hType⟩ := List.getElem?_zip_eq_some.mp hZip
  exact ⟨hName, (getElem?_reconcile hi).symm.trans hType⟩

/-! ### Rows of annotations -/

/-- The rows of a table of annotations for a number of parameters. Where there are too few of them,
they belong to the last parameters, and the others have none. -/
def rowsFor (count : ℕ) (table : List (List RawAnnotation)) : List (List RawAnnotation) :=
  List.replicate (count - table.length) [] ++ table

variable {o : Owner} {member : String} {table : List (List RawAnnotation)}

theorem getElem?_rowsFor_of_short {count i : ℕ} (h : i + table.length < count) :
    (rowsFor count table)[i]? = some [] := by
  rw [rowsFor, List.getElem?_append_left (by rw [List.length_replicate]; omega),
    List.getElem?_replicate_of_lt (by omega)]

theorem getElem?_rowsFor {count i : ℕ} (h : count ≤ i + table.length) :
    (rowsFor count table)[i]? = table[i - (count - table.length)]? := by
  rw [rowsFor, List.getElem?_append_right (by rw [List.length_replicate]; omega),
    List.length_replicate]

/-- The rows that are used are those of the table up to the number of parameters. -/
theorem take_rowsFor (count : ℕ) : (rowsFor count table).take count =
    List.replicate (count - table.length) [] ++ table.take count := by
  rw [rowsFor, List.take_append, List.length_replicate,
    List.take_of_length_le (by rw [List.length_replicate]; omega)]
  congr 1
  by_cases hShort : table.length ≤ count
  · rw [List.take_of_length_le hShort, List.take_of_length_le (by omega)]
  · congr 1
    omega

/-- The parameter at a place has the annotations of the row at that place. -/
theorem getElem?_annotate {bare parameters : List Parameter}
    (h : o.annotate member bare table = .ok parameters) {i : ℕ} {p : Parameter}
    (hp : parameters[i]? = some p) : ∃ b row converted, bare[i]? = some b ∧
      (rowsFor bare.length table)[i]? = some row ∧
      convertAnnotations o.settings row = .ok converted ∧
      p = { b with annotations := converted.annotations } := by
  obtain ⟨⟨b, row⟩, hZip, hStep⟩ := Except.getElem?_of_mapM_eq_ok h hp
  obtain ⟨hBare, hRow⟩ := List.getElem?_zip_eq_some.mp hZip
  obtain ⟨converted, hConverted, heq⟩ := Except.bind_eq_ok.mp hStep
  cases heq
  exact ⟨b, row, converted, hBare, hRow, Except.mapError_eq_ok.mp hConverted, rfl⟩

/-- Annotations leave the types of the parameters as they are. -/
theorem types_annotate {bare parameters : List Parameter}
    (h : o.annotate member bare table = .ok parameters) :
    parameters.map Parameter.type = bare.map Parameter.type := by
  rw [annotate] at h
  have hTypes := Except.map_of_mapM_eq_ok (g := Parameter.type)
    (k := fun row : Parameter × List RawAnnotation => row.1.type) ?_ h
  · have hRows : bare.length ≤
        (List.replicate (bare.length - table.length) [] ++ table).length := by
      rw [List.length_append, List.length_replicate]
      omega
    conv_rhs => rw [← List.map_fst_zip hRows]
    rw [hTypes, List.map_map]
    rfl
  · intro row parameter hRow
    obtain ⟨converted, -, heq⟩ := Except.bind_eq_ok.mp hRow
    cases heq
    rfl

/-- Annotating fails only for a row that is used. -/
theorem annotate_isOk_iff (member : String) {bare : List Parameter} :
    (o.annotate member bare table).isOk = true ↔
      ∀ row ∈ table.take bare.length, (convertAnnotations o.settings row).isOk = true := by
  have hStep : ∀ x : Parameter × List RawAnnotation, Except.isOk (do
      let converted ← o.concerning member (convertAnnotations o.settings x.2)
      return { x.1 with annotations := converted.annotations }) =
        (convertAnnotations o.settings x.2).isOk := by
    intro x
    rw [concerning]
    cases convertAnnotations o.settings x.2 <;> rfl
  have hLength : bare.length ≤ (rowsFor bare.length table).length := by
    rw [rowsFor, List.length_append, List.length_replicate]
    omega
  have hRows : (bare.zip (rowsFor bare.length table)).map Prod.snd =
      List.replicate (bare.length - table.length) [] ++ table.take bare.length := by
    rw [List.zip_eq_zip_take_min, Nat.min_eq_left hLength, List.take_length, List.map_snd_zip,
      take_rowsFor]
    exact List.length_take_le ..
  rw [annotate, Except.isOk_mapM_iff]
  simp only [hStep]
  rw [← rowsFor, ← List.forall_mem_map (f := Prod.snd)
    (P := fun row => (convertAnnotations o.settings row).isOk = true), hRows,
    List.forall_mem_append, and_iff_right_iff_imp]
  intro _ row hRow
  rw [List.eq_of_mem_replicate hRow]
  rfl

/-! ### Built methods -/

variable {m : MethodInfo} {d : MethodDescriptor}

/-- What a built method is put together from. -/
theorem exists_of_executable {b : BuiltExecutable} (h : o.executable m = .ok (some b)) :
    ∃ d s, MethodDescriptor.ofText m.descriptor = .ok d ∧
      (m.signature = none → s = erasedSignature d) ∧
      (∀ text ∈ m.signature, MethodSignature.ofText text = .ok s) ∧
      o.annotate m.name (bareParameters m d s) m.parameterAnnotations = .ok b.decl.parameters ∧
      b.namesRecovered = (recoveredNames? m d).isSome ∧ b.erasedParameters = d.parameters := by
  rcases executable_cases h with ⟨hNone, -⟩ |
    ⟨d, s, _, heq, -, hDescriptor, hGeneric, hParameters, hRecovered, hErased, -⟩
  · cases hNone
  · cases heq
    obtain ⟨hNone, hSome⟩ := generic?_eq_some MethodSignature.ofText (erasedSignature d) hGeneric
    exact ⟨d, s, hDescriptor, hNone, hSome, hParameters, hRecovered, hErased⟩

/-- Annotations can be converted only if all their classes can be read. -/
theorem className_isOk_of_convert {settings : Settings} {annotations : List RawAnnotation} :
    ∀ {init : ConvertedAnnotations},
      (annotations.foldlM (ConvertedAnnotations.add settings) init).isOk = true →
        ∀ a ∈ annotations, a.className.isOk = true := by
  induction annotations with
  | nil => simp
  | cons a annotations ih =>
    intro init h
    rw [List.foldlM_cons] at h
    obtain ⟨next, hNext, hRest⟩ := Except.isOk_bind_iff.mp h
    obtain ⟨type, hType, -⟩ := Except.bind_eq_ok.mp hNext
    exact List.forall_mem_cons.mpr ⟨Except.isOk_iff.mpr ⟨type, hType⟩, ih hRest⟩

/-- A method that is kept is shown if the classes of its annotations can be read. -/
theorem showsMethod_of_keeps (hKept : o.KeepsMethod m)
    (h : ∀ a ∈ m.annotations, a.className.isOk = true) : o.showsMethod m = .ok true := by
  obtain ⟨shown, hShown⟩ := exists_shown o (o.hidesMethod m) m.name h
  obtain ⟨hHides, hInternal, -⟩ := keepsMethod_iff.mp hKept
  rw [(shown_eq_ok hShown).mpr ⟨hHides, hInternal⟩] at hShown
  exact hShown

theorem defaultValue_isOk_iff {parameters : List Parameter} :
    (o.defaultValue m parameters).isOk = true ↔ ∀ value ∈ m.defaultValue,
      o.kind = .annotationType ∧ parameters = [] ∧
        (AnnotationValue.ofElement value).isOk = true := by
  rw [defaultValue]
  cases m.defaultValue with
  | none => simp [Except.isOk, Except.toBool]
  | some value =>
    simp only [Option.mem_some_iff, forall_eq']
    by_cases hKind : o.kind = .annotationType
    · by_cases hNone : parameters = []
      · simp [hKind, hNone, concerning, Except.isOk_map, Except.isOk_mapError]
      · simp [hKind, hNone, Except.isOk, Except.toBool]
    · simp [hKind, Except.isOk, Except.toBool]

/-- A method that is kept and has a descriptor is built unless an annotation cannot be converted, of
its own or of a row that is used, or a default value is misplaced or cannot be read. -/
theorem executable_isOk_iff (hKept : o.KeepsMethod m)
    (hDescriptor : MethodDescriptor.ofText m.descriptor = .ok d) :
    (o.executable m).isOk = true ↔
      (convertAnnotations o.settings m.annotations).isOk = true ∧
      (∀ row ∈ m.parameterAnnotations.take d.parameters.length,
        (convertAnnotations o.settings row).isOk = true) ∧
      ∀ value ∈ m.defaultValue, o.kind = .annotationType ∧ d.parameters = [] ∧
        (AnnotationValue.ofElement value).isOk = true := by
  have hEmpty : ∀ {parameters : List Parameter}, parameters.length = d.parameters.length →
      (parameters = [] ↔ d.parameters = []) := by
    intro parameters h
    rw [← List.length_eq_zero_iff, h, List.length_eq_zero_iff]
  constructor
  · intro h
    obtain ⟨result, hResult⟩ := Except.isOk_iff.mp h
    obtain ⟨hLost, -⟩ | ⟨-, b, rfl, hBuilds⟩ := executable_eq_ok hResult
    · exact absurd hKept hLost
    obtain ⟨d', s, hDescriptor', -, -, hParameters, -⟩ := exists_of_executable hResult
    obtain rfl : d = d' := Except.ok.inj (hDescriptor.symm.trans hDescriptor')
    obtain ⟨converted, hConverted, -⟩ := hBuilds.annotations
    have hRows := (annotate_isOk_iff _).mp (Except.isOk_iff.mpr ⟨_, hParameters⟩)
    have hDefault := defaultValue_isOk_iff.mp (Except.isOk_iff.mpr ⟨_, hBuilds.defaultValue⟩)
    rw [length_bareParameters] at hRows
    rw [hEmpty ((length_annotate hParameters).trans (length_bareParameters m d s))] at hDefault
    exact ⟨Except.isOk_iff.mpr ⟨converted, hConverted⟩, hRows, hDefault⟩
  · rintro ⟨hAnnotations, hRows, hDefault⟩
    obtain ⟨s, hGeneric⟩ : ∃ s, generic? MethodSignature.ofText (erasedSignature d) m.signature =
        some s := by
      cases hRead : generic? MethodSignature.ofText (erasedSignature d) m.signature with
      | none => exact absurd hKept.signature (generic?_eq_none _ _ hRead)
      | some s => exact ⟨s, rfl⟩
    have hShown := showsMethod_of_keeps hKept (className_isOk_of_convert hAnnotations)
    obtain ⟨converted, hConverted⟩ := Except.isOk_iff.mp hAnnotations
    rw [← length_bareParameters m d s, ← annotate_isOk_iff m.name] at hRows
    obtain ⟨parameters, hParameters⟩ := Except.isOk_iff.mp hRows
    rw [← hEmpty ((length_annotate hParameters).trans (length_bareParameters m d s)),
      ← defaultValue_isOk_iff] at hDefault
    obtain ⟨default, hDefault⟩ := Except.isOk_iff.mp hDefault
    refine Except.isOk_bind_iff.mpr ⟨true, hShown, ?_⟩
    refine Except.isOk_bind_iff.mpr ⟨d, Except.mapError_eq_ok.mpr hDescriptor, ?_⟩
    simp only
    split
    · next hNone => cases hNone.symm.trans hGeneric
    · next s' hSome =>
      obtain rfl : s' = s := Option.some.inj (hSome.symm.trans hGeneric)
      refine Except.isOk_bind_iff.mpr ⟨parameters, hParameters, ?_⟩
      refine Except.isOk_bind_iff.mpr ⟨converted, Except.mapError_eq_ok.mpr hConverted, ?_⟩
      exact Except.isOk_bind_iff.mpr ⟨default, hDefault, rfl⟩

/-! ### The parameters of built methods -/

/-- A row of raw annotations gives the annotations of a parameter. -/
def ConvertsRow (o : Owner) (row : List RawAnnotation) (annotations : List Annotation) : Prop :=
  ∃ converted, convertAnnotations o.settings row = .ok converted ∧
    annotations = converted.annotations

/-- What the parameter at a place of a method is put together from. -/
structure AssemblesParameter (o : Owner) (m : MethodInfo) (d : MethodDescriptor) (i : ℕ)
    (p : Parameter) : Prop where
  /-- A signature may list fewer types than the descriptor, or more. -/
  generic : ∀ text ∈ m.signature, ∃ s, MethodSignature.ofText text = .ok s ∧
    s.parameters[i]?.or d.parameters[i]? = some p.type
  erased : m.signature = none → d.parameters[i]? = some p.type
  recorded : ∀ names ∈ m.parameterNames? d, names[i]? = some p.name
  placeholder : m.parameterNames? d = none → p.name = "arg" ++ toString i
  unannotated : i + m.parameterAnnotations.length < d.parameters.length → p.annotations = []
  /-- The last row of a short table is that of the last parameter. -/
  trailing : m.parameterAnnotations.length ≤ d.parameters.length →
    d.parameters.length - m.parameterAnnotations.length ≤ i →
    ∃ row ∈ m.parameterAnnotations[i - (d.parameters.length - m.parameterAnnotations.length)]?,
      o.ConvertsRow row p.annotations
  leading : d.parameters.length < m.parameterAnnotations.length →
    ∃ row ∈ m.parameterAnnotations[i]?, o.ConvertsRow row p.annotations

theorem assemblesParameter_of_annotate {s : MethodSignature} {parameters : List Parameter}
    (hNone : m.signature = none → s = erasedSignature d)
    (hSome : ∀ text ∈ m.signature, MethodSignature.ofText text = .ok s)
    (h : o.annotate m.name (bareParameters m d s) m.parameterAnnotations = .ok parameters)
    {i : ℕ} {p : Parameter} (hp : parameters[i]? = some p) : o.AssemblesParameter m d i p := by
  obtain ⟨b, row, converted, hBare, hRow, hConverted, rfl⟩ := getElem?_annotate h hp
  have hi : i < d.parameters.length := by
    rw [← length_bareParameters m d s]
    exact (List.getElem?_eq_some_iff.mp hBare).1
  rw [length_bareParameters] at hRow
  obtain ⟨hName, hType⟩ := getElem?_bareParameters hBare
  rw [getElem?_givenNames hi] at hName
  constructor
  case generic => exact fun text hText => ⟨s, hSome text hText, hType⟩
  case erased =>
    intro hSignature
    rwa [hNone hSignature, erasedSignature, Option.or_self] at hType
  case recorded =>
    intro names hNames
    rwa [Option.mem_def.mp hNames] at hName
  case placeholder =>
    intro hLost
    rw [hLost] at hName
    exact (Option.some.inj hName).symm
  case unannotated =>
    intro hShort
    rw [getElem?_rowsFor_of_short hShort] at hRow
    cases hRow
    cases hConverted
    rfl
  case trailing =>
    intro hShort hPlace
    rw [getElem?_rowsFor (by omega)] at hRow
    exact ⟨row, hRow, converted, hConverted, rfl⟩
  case leading =>
    intro hLong
    rw [getElem?_rowsFor (by omega), Nat.sub_eq_zero_of_le hLong.le, Nat.sub_zero] at hRow
    exact ⟨row, hRow, converted, hConverted, rfl⟩

/-- **Parameters are neither lost nor shifted.** A method that is kept is built unless an annotation
or a default value forbids it. It then has as many parameters as its descriptor, with recorded names
for all of them or for none, and each is put together from the types, the name and the row of
annotations that belong to its place, however many of them the class file lists. -/
theorem executable_parameters (hKept : o.KeepsMethod m)
    (hDescriptor : MethodDescriptor.ofText m.descriptor = .ok d) :
    ((o.executable m).isOk = true ↔
      (convertAnnotations o.settings m.annotations).isOk = true ∧
      (∀ row ∈ m.parameterAnnotations.take d.parameters.length,
        (convertAnnotations o.settings row).isOk = true) ∧
      ∀ value ∈ m.defaultValue, o.kind = .annotationType ∧ d.parameters = [] ∧
        (AnnotationValue.ofElement value).isOk = true) ∧
    ∀ result, o.executable m = .ok result → ∃ b, result = some b ∧
      b.decl.parameters.length = d.parameters.length ∧
      (b.namesRecovered = true ↔ (m.parameterNames? d).isSome = true ∨ d.parameters = []) ∧
      (∀ names ∈ m.parameterNames? d, names.length = d.parameters.length) ∧
      ∀ i p, b.decl.parameters[i]? = some p → o.AssemblesParameter m d i p := by
  refine ⟨executable_isOk_iff hKept hDescriptor, fun result hResult => ?_⟩
  obtain ⟨hLost, -⟩ | ⟨-, b, rfl, -⟩ := executable_eq_ok hResult
  · exact absurd hKept hLost
  obtain ⟨d', s, hDescriptor', hNone, hSome, hParameters, hRecovered, -⟩ :=
    exists_of_executable hResult
  obtain rfl : d = d' := Except.ok.inj (hDescriptor.symm.trans hDescriptor')
  refine ⟨b, rfl, ?_, ?_, fun _ => MethodInfo.length_parameterNames?, fun i p hp => ?_⟩
  · rw [length_annotate hParameters, length_bareParameters]
  · rw [hRecovered, recoveredNames?_isSome_iff]
  · exact assemblesParameter_of_annotate hNone hSome hParameters hp

/-- A method with three parameters. Its signature lists the first two of them, and its table of
annotations the last two. -/
def listing : MethodInfo :=
  ⟨⟨0x1⟩, "put", "(Ljava/util/List;JI)V", some "(Ljava/util/List<TT;>;J)V", [], none,
    [⟨0, "this", "Lp/A;", 0⟩, ⟨0, "items", "Ljava/util/List;", 1⟩, ⟨0, "time", "J", 2⟩,
      ⟨0, "place", "I", 4⟩],
    [], [[], [⟨"Lp/Index;", []⟩]], none⟩

theorem executable_parameters_listing :
    let o : Owner := ⟨{}, .classType, "p.A"⟩
    ∃ d b, o.KeepsMethod listing ∧ MethodDescriptor.ofText listing.descriptor = .ok d ∧
      o.executable listing = .ok (some b) ∧ b.decl.parameters.length = 3 ∧
      b.decl.parameters.map Parameter.name = ["items", "time", "place"] ∧
      (b.decl.parameters.map fun p => p.annotations.length) = [0, 0, 1] ∧
      ∀ i p, b.decl.parameters[i]? = some p → o.AssemblesParameter listing d i p := by
  intro o
  have hKept : o.KeepsMethod listing := by decide +kernel
  have hDescriptor : MethodDescriptor.ofText listing.descriptor =
      .ok ⟨[.ofClass (.ofInternal "java/util/List"), .primitive .long, .primitive .int], .void⟩ :=
    rfl
  have hBuilt : (o.executable listing).toOption.any (fun r => r.any fun b =>
      b.decl.parameters.map Parameter.name = ["items", "time", "place"] ∧
      (b.decl.parameters.map fun p => p.annotations.length) = [0, 0, 1]) = true := by
    decide +kernel
  obtain ⟨r, hExecutable, hAny⟩ := Except.exists_of_any_toOption hBuilt
  obtain ⟨b, rfl, hLength, -, -, hAssembles⟩ :=
    (executable_parameters hKept hDescriptor).2 r hExecutable
  obtain ⟨hNames, hAnnotations⟩ := of_decide_eq_true hAny
  exact ⟨_, b, hKept, hDescriptor, hExecutable, hLength, hNames, hAnnotations, hAssembles⟩

end Owner

end ClassSketch
