import ClassSketch.Proofs.ClassFile.Encoding

/-!
# Reading what was written

Each layout of the reference encoder is read as what it was made from: annotations by induction on
the depth that the reader allows, attributes by what they add to what is known of their owner, and
declarations from these. Put together, a class file within the limits of the format is read back
from its bytes.

## Main results

* `Element.reads` — the value of an annotation element
* `FieldInfo.reads`, `MethodInfo.reads` — members
* `ClassFile.parse_encode` — a whole class file
-/

namespace ClassSketch

variable {p : Pool}

/-! ### Annotations -/

/-- The layout of an element with its name. -/
def Element.namedLayout (e : String × Element) : Layout := .index (.utf8 e.1) :: e.2.layout

theorem Element.namedLayouts_eq_flatMap (elements : List (String × Element)) :
    Element.namedLayouts elements = elements.flatMap Element.namedLayout := by
  induction elements with
  | nil => rfl
  | cons e elements ih =>
    obtain ⟨name, value⟩ := e
    rw [Element.namedLayouts, ih, List.flatMap_cons, Element.namedLayout, List.cons_append]

theorem Element.layouts_eq_flatMap (items : List Element) :
    Element.layouts items = items.flatMap Element.layout := by
  induction items with
  | nil => rfl
  | cons item items ih => rw [Element.layouts, ih, List.flatMap_cons]

namespace RawAnnotation

theorem layout_eq (a : RawAnnotation) :
    a.layout = .index (.utf8 a.type) :: Layout.table 2 Element.namedLayout a.elements := by
  rw [layout, Element.namedLayouts_eq_flatMap, Layout.table]

/-- An annotation is read back if its values are. -/
theorem readWith_reads {element : Reader Element} {a : RawAnnotation}
    (h : ∀ e ∈ a.elements, Reads p element e.2.layout e.2) :
    Reads p (readWith p.numbered element) a.layout a := by
  rw [layout_eq]
  refine .bind (s := [.index (.utf8 a.type)]) .index fun hType => ?_
  refine .bind (s := [.number 2 a.elements.length]) .u2 fun hCount => ?_
  rw [hCount.toNat_u2]
  refine .bind_nil (.times ?_) fun _ => .lookup_bind (Pool.utf8_number hType.mem) (.pure _)
  intro e he
  exact .index_bind Pool.utf8_number (h e he).bind_pure

end RawAnnotation

namespace Element

/-- A tag, as the reader sees it, is the letter that was written. -/
theorem letter_bind {α : Type} {c : Char} {f : UInt8 → Reader α} {s : Layout} {x : α}
    (h : Reads p (f c.toNat.toUInt8) s x) :
    Reads p (Reader.u1 >>= f) (.letter c :: s) x :=
  .bind (s := [.letter c]) .u1 fun _ => h

/-- The constant of an element is read by its tag. -/
theorem constant_reads (depth : ℕ) (tag : UInt8) (value : Constant) :
    Reads p (readWithin p.numbered (depth + 1)) [.constant tag value] (.constant tag value) := by
  intro hFits rest
  obtain ⟨⟨hTag, hString⟩, hMentions⟩ := hFits _ (List.mem_singleton_self _)
  have hEntry : value.elementEntry ∈ p.entries := hMentions List.mem_cons_self
  have hIndex := Reader.u2_toBigEndian (Pool.number_lt hEntry) rest
  rw [Layout.bytes, List.flatMap_singleton, Piece.bytes, List.append_assoc, readWithin,
    Parsing.bind_of_ok (Reader.u1_toNat tag _)]
  simp only [if_pos hTag]
  rw [readConstant, Parsing.bind_of_ok hIndex]
  split
  · next hs =>
    cases value with
    | string text => exact Parsing.bind_of_ok (Parsing.lift_of_ok (Pool.utf8_number hEntry) rest)
    | _ => simp [Constant.isString, hs] at hString
  · next hs =>
    have hPlain : value.elementEntry = value.entry := by
      cases value with
      | string text => exact absurd (hString.mp rfl) hs
      | _ => rfl
    rw [hPlain] at hEntry ⊢
    exact Parsing.bind_of_ok (Parsing.lift_of_ok (Pool.constant_number hEntry) rest)

/-- No value is written as nothing, so that the depth it may be nested to is less than its length.
-/
theorem layout_size_pos (e : Element) : 0 < e.layout.size := by
  cases e <;> simp [layout, Layout.size, Piece.size, Piece.letter]

/-- An element is read with as many levels as its layout takes bytes. -/
theorem readWithin_reads (depth : ℕ) : ∀ e : Element, e.layout.size ≤ depth →
    Reads p (readWithin p.numbered depth) e.layout e := by
  induction depth with
  | zero => intro e h; have := e.layout_size_pos; omega
  | succ depth ih =>
    intro e h
    cases e with
    | constant tag value => exact constant_reads depth tag value
    | enumConstant type name =>
      rw [layout, readWithin]
      refine letter_bind ?_
      refine .bind (s := [.index (.utf8 type)]) .index fun hType => ?_
      refine .bind_nil .index fun hName => ?_
      exact .lookup_bind (Pool.utf8_number hType.mem)
        (.lookup_bind (Pool.utf8_number hName.mem) (.pure _))
    | classLiteral descriptor =>
      rw [layout, readWithin]
      exact letter_bind (.index_bind Pool.utf8_number (.pure _))
    | nested type elements =>
      rw [layout, namedLayouts_eq_flatMap, Layout.size_cons, Layout.size_cons,
        Layout.size_cons] at h
      have hSizes : ∀ e ∈ elements, e.2.layout.size ≤ depth := by
        intro e he
        have hRow : (namedLayout e).size ≤ Layout.size (elements.flatMap namedLayout) :=
          Layout.size_le_flatMap he
        rw [namedLayout, Layout.size_cons] at hRow
        simp only [Piece.letter, Piece.size] at h
        omega
      have hNested := RawAnnotation.readWith_reads (a := ⟨type, elements⟩)
        fun e he => ih e.2 (hSizes e he)
      rw [layout, readWithin]
      exact letter_bind hNested.bind_pure
    | array items =>
      rw [layout, layouts_eq_flatMap, Layout.size_cons, Layout.size_cons] at h
      have hSizes : ∀ item ∈ items, item.layout.size ≤ depth := by
        intro item hi
        have hItem : item.layout.size ≤ Layout.size (items.flatMap layout) :=
          Layout.size_le_flatMap hi
        simp only [Piece.letter, Piece.size] at h
        omega
      rw [layout, layouts_eq_flatMap, readWithin]
      refine letter_bind ?_
      refine .bind (s := [.number 2 items.length]) .u2 fun hCount => ?_
      rw [hCount.toNat_u2]
      exact (Reads.times fun item hi => ih item (hSizes item hi)).bind_pure

theorem reads (e : Element) : Reads p (Element.read p.numbered) e.layout e := by
  intro hFits rest
  have hLength : e.layout.size ≤ (e.layout.bytes p.entries ++ rest).length := by
    rw [List.length_append, Layout.length_bytes]
    omega
  exact readWithin_reads _ e hLength hFits rest

end Element

namespace RawAnnotation

theorem reads (a : RawAnnotation) : Reads p (read p.numbered) a.layout a :=
  readWith_reads fun e _ => e.2.reads

/-- Annotations are read back, with their number in front. -/
theorem readAll_reads (as : List RawAnnotation) :
    Reads p (readAll p.numbered) (Layout.table 2 layout as) as :=
  .table_u2 fun a _ => a.reads

theorem readParameters_reads (as : List (List RawAnnotation)) :
    Reads p (readParameters p.numbered) (Layout.table 1 (Layout.table 2 layout) as) as :=
  .table_u1 fun a _ => readAll_reads a

end RawAnnotation

/-! ### Single values -/

theorem readUtf8_reads (value : String) :
    Reads p (readUtf8 p.numbered) [.index (.utf8 value)] value :=
  .index_lookup Pool.utf8_number

theorem readUtf8?_reads (value : Option String) :
    Reads p (readUtf8? p.numbered) [.optional (value.map .utf8)] value :=
  .optional_lookup fun _ => Pool.utf8_number

theorem readClassName_reads (name : String) :
    Reads p (readClassName p.numbered) [.index (.classRef name)] name :=
  .index_lookup Pool.className_number

theorem readClassName?_reads (name : Option String) :
    Reads p (readClassName? p.numbered) [.optional (name.map .classRef)] name :=
  .optional_lookup fun _ => Pool.className_number

theorem readAccess_reads (access : AccessFlags) :
    Reads p readAccess [.number 2 access.bits.toNat] access := by
  have h : Reads p readAccess [.number 2 access.bits.toNat] ⟨access.bits.toNat.toUInt16⟩ :=
    Reads.u2.bind_pure
  simpa using h

/-- A table is read back if its rows are. -/
theorem readCounted_reads {α : Type} {r : Reader α} {row : α → Layout} {xs : List α}
    (h : ∀ x ∈ xs, Reads p r (row x) x) : Reads p (readCounted r) (Layout.table 2 row xs) xs :=
  .table_u2 h

/-! ### Attributes -/

namespace Adds

variable {α β : Type} {meaning : Attributes.Meaning α} {name : String} {x : α}

/-- The attribute for a value sets it, where it is not set before. -/
theorem forSome (set : Option β → α) {body : β → Layout} {step : α → Reader α}
    (hName : meaning name = some step) (hNone : set none = x)
    (hSome : ∀ v, Reads p (step x) (body v) (set (some v))) (o : Option β) :
    Adds p meaning (Attribute.forSome name body o) x (set o) := by
  cases o with
  | none => rw [hNone]; exact .nil
  | some v => exact .single hName (hSome v)

/-- The attribute for a list sets it, where it is empty before. -/
theorem forMany (set : List β → α) {body : List β → Layout} {step : α → Reader α}
    (hName : meaning name = some step) (hNil : set [] = x)
    (hBody : ∀ vs, Reads p (step x) (body vs) (set vs)) (vs : List β) :
    Adds p meaning (Attribute.forMany name body vs) x (set vs) := by
  cases vs with
  | nil => rw [hNil]; exact .nil
  | cons v vs => exact .single hName (hBody (v :: vs))

end Adds

/-! ### Fields -/

/-- What the attributes of a field add up to. -/
theorem FieldInfo.attributes_add (f : FieldInfo) :
    Adds p (FieldAttributes.meaning p.numbered) f.attributes {}
      { signature := f.signature, constant := f.constant, visible := f.annotations } := by
  let a₁ : FieldAttributes := { signature := f.signature }
  let a₂ : FieldAttributes := { a₁ with constant := f.constant }
  let a₃ : FieldAttributes := { a₂ with visible := f.annotations }
  have h₁ : Adds p (FieldAttributes.meaning p.numbered) (Attribute.signature f.signature) {} a₁ :=
    .forSome (fun o => { a₁ with signature := o }) rfl rfl
      (fun text => (readUtf8_reads text).bind_pure.bind_pure) _
  have h₂ : Adds p (FieldAttributes.meaning p.numbered) (Attribute.constantValue f.constant)
      a₁ a₂ := by
    refine .forSome (fun o => ({ a₁ with constant := o } : FieldAttributes)) rfl rfl
      (fun value => ?_) f.constant
    exact .index_bind Pool.constant_number (.pure _)
  have h₃ : Adds p (FieldAttributes.meaning p.numbered) (Attribute.annotations f.annotations)
      a₂ a₃ :=
    .forMany (fun as => { a₂ with visible := as }) rfl rfl
      (fun as => .bind_pure <| .bind_pure <| RawAnnotation.readAll_reads as) _
  exact (h₁.append h₂).append h₃

/-- Fields are read back. -/
theorem FieldInfo.reads (f : FieldInfo) : Reads p (FieldInfo.read p.numbered) f.layout f := by
  refine .bind (s := [.number 2 _]) (readAccess_reads f.access) fun _ => ?_
  refine .bind (s := [.index _]) (readUtf8_reads f.name) fun _ => ?_
  refine .bind (s := [.index _]) (readUtf8_reads f.descriptor) fun _ => ?_
  refine .bind_nil f.attributes_add.reads fun _ => ?_
  simp only [CommonAttributes.adjust, CommonAttributes.annotations, List.append_nil,
    Bool.false_eq_true, if_false]
  exact .pure f

/-! ### Methods -/

theorem LocalVariable.reads (v : LocalVariable) :
    Reads p (LocalVariable.read p.numbered)
      [.number 2 v.start.toNat, .number 2 0, .index (.utf8 v.name), .index (.utf8 v.descriptor),
        .number 2 v.slot.toNat] v := by
  refine .bind (s := [.number 2 _]) .u2 fun _ => ?_
  refine .bind (s := [.number 2 0]) .u2 fun _ => ?_
  refine .bind (s := [.index _]) (readUtf8_reads v.name) fun _ => ?_
  refine .bind (s := [.index _]) (readUtf8_reads v.descriptor) fun _ => ?_
  refine .bind_nil .u2 fun _ => ?_
  simp only [UInt16.ofNat_toNat, Nat.toUInt16_eq]
  exact .pure v

/-- Code is read past, up to its table of local variables. -/
theorem readCode_reads (vs : List LocalVariable) :
    Reads p (readCode p.numbered)
      ([.number 2 0, .number 2 0, .number 4 1, .number 1 0xB1, .number 2 0] ++
        Layout.table 2 Attribute.layout (Attribute.localVariables vs)) vs := by
  have hTable : Adds p (codeMeaning p.numbered) (Attribute.localVariables vs) [] vs :=
    .forMany id rfl rfl (fun _ => (readCounted_reads fun v _ => LocalVariable.reads v).bind_pure) vs
  refine .bind (s := [.number 2 0]) .u2 fun _ => ?_
  refine .bind (s := [.number 2 0]) .u2 fun _ => ?_
  refine .bind (s := [.number 4 1]) .u4 fun _ => ?_
  refine .bind (s := [.number 1 0xB1]) (.bytes (s := [.number 1 0xB1])) fun _ => ?_
  refine .bind (s := [.number 2 0]) .u2 fun _ => ?_
  refine .bind (s := []) (.bytes (s := [])) fun _ => ?_
  exact hTable.reads

theorem readParameters_reads (ps : List MethodParameter) :
    Reads p (readParameters p.numbered)
      (Layout.table 1 (fun parameter => [.optional (parameter.name.map .utf8),
        .number 2 parameter.access.bits.toNat]) ps) ps := by
  refine .table_u1 fun parameter _ => ?_
  refine .bind (s := [.optional _]) (readUtf8?_reads parameter.name) fun _ => ?_
  exact (readAccess_reads parameter.access).bind_pure

/-- What the attributes of a method add up to. -/
theorem MethodInfo.attributes_add (m : MethodInfo) :
    Adds p (MethodAttributes.meaning p.numbered) m.attributes {}
      { signature := m.signature, exceptions := m.exceptions, parameters := m.parameters,
        localVariables := m.localVariables, visible := m.annotations,
        visibleOfParameters := m.parameterAnnotations, defaultValue := m.defaultValue } := by
  let a₁ : MethodAttributes := { signature := m.signature }
  let a₂ : MethodAttributes := { a₁ with exceptions := m.exceptions }
  let a₃ : MethodAttributes := { a₂ with parameters := m.parameters }
  let a₄ : MethodAttributes := { a₃ with localVariables := m.localVariables }
  let a₅ : MethodAttributes := { a₄ with visible := m.annotations }
  let a₆ : MethodAttributes := { a₅ with visibleOfParameters := m.parameterAnnotations }
  let a₇ : MethodAttributes := { a₆ with defaultValue := m.defaultValue }
  have h₁ : Adds p (MethodAttributes.meaning p.numbered) (Attribute.signature m.signature)
      {} a₁ :=
    .forSome (fun o => { a₁ with signature := o }) rfl rfl
      (fun text => (readUtf8_reads text).bind_pure.bind_pure) _
  have h₂ : Adds p (MethodAttributes.meaning p.numbered) (Attribute.exceptions m.exceptions)
      a₁ a₂ :=
    .forMany (fun names => { a₁ with exceptions := names }) rfl rfl
      (fun _ => (readCounted_reads fun name _ => readClassName_reads name).bind_pure) _
  have h₃ : Adds p (MethodAttributes.meaning p.numbered) (Attribute.methodParameters m.parameters)
      a₂ a₃ :=
    .forSome (fun o => { a₂ with parameters := o }) rfl rfl
      (fun ps => (readParameters_reads ps).bind_pure) _
  have h₄ : Adds p (MethodAttributes.meaning p.numbered) (Attribute.code m.localVariables)
      a₃ a₄ :=
    .forMany (fun vs => { a₃ with localVariables := vs }) rfl rfl
      (fun vs => (readCode_reads vs).bind_pure) _
  have h₅ : Adds p (MethodAttributes.meaning p.numbered) (Attribute.annotations m.annotations)
      a₄ a₅ :=
    .forMany (fun as => { a₄ with visible := as }) rfl rfl
      (fun as => .bind_pure <| .bind_pure <| RawAnnotation.readAll_reads as) _
  have h₆ : Adds p (MethodAttributes.meaning p.numbered)
      (Attribute.parameterAnnotations m.parameterAnnotations) a₅ a₆ :=
    .forMany (fun as => { a₅ with visibleOfParameters := as }) rfl rfl
      (fun as => .bind_pure <| RawAnnotation.readParameters_reads as) _
  have h₇ : Adds p (MethodAttributes.meaning p.numbered)
      (Attribute.annotationDefault m.defaultValue) a₆ a₇ :=
    .forSome (fun o => { a₆ with defaultValue := o }) rfl rfl (fun e => e.reads.bind_pure) _
  exact (((((h₁.append h₂).append h₃).append h₄).append h₅).append h₆).append h₇

theorem zipAppend_nil {α : Type} (xs : List (List α)) : zipAppend xs [] = xs := by
  cases xs <;> rfl

/-- Methods are read back. -/
theorem MethodInfo.reads (m : MethodInfo) : Reads p (MethodInfo.read p.numbered) m.layout m := by
  refine .bind (s := [.number 2 _]) (readAccess_reads m.access) fun _ => ?_
  refine .bind (s := [.index _]) (readUtf8_reads m.name) fun _ => ?_
  refine .bind (s := [.index _]) (readUtf8_reads m.descriptor) fun _ => ?_
  refine .bind_nil m.attributes_add.reads fun _ => ?_
  simp only [CommonAttributes.adjust, CommonAttributes.annotations, List.append_nil, zipAppend_nil,
    Bool.false_eq_true, if_false]
  exact .pure m

/-! ### Classes -/

theorem InnerClass.reads (entry : InnerClass) :
    Reads p (InnerClass.read p.numbered)
      [.index (.classRef entry.inner), .optional (entry.outer.map .classRef),
        .optional (entry.simpleName.map .utf8), .number 2 entry.access.bits.toNat] entry := by
  refine .bind (s := [.index _]) (readClassName_reads entry.inner) fun _ => ?_
  refine .bind (s := [.optional _]) (readClassName?_reads entry.outer) fun _ => ?_
  refine .bind (s := [.optional _]) (readUtf8?_reads entry.simpleName) fun _ => ?_
  exact (readAccess_reads entry.access).bind_pure

namespace ClassFile

/-- What the attributes of a class add up to. -/
theorem attributes_add (c : ClassFile) :
    Adds p (ClassAttributes.meaning p.numbered) c.attributes {}
      { signature := c.signature, visible := c.annotations, innerClasses := c.innerClasses } := by
  let a₁ : ClassAttributes := { signature := c.signature }
  let a₂ : ClassAttributes := { a₁ with visible := c.annotations }
  let a₃ : ClassAttributes := { a₂ with innerClasses := c.innerClasses }
  have h₁ : Adds p (ClassAttributes.meaning p.numbered) (Attribute.signature c.signature) {} a₁ :=
    .forSome (fun o => { a₁ with signature := o }) rfl rfl
      (fun text => (readUtf8_reads text).bind_pure.bind_pure) _
  have h₂ : Adds p (ClassAttributes.meaning p.numbered) (Attribute.annotations c.annotations)
      a₁ a₂ :=
    .forMany (fun as => { a₁ with visible := as }) rfl rfl
      (fun as => .bind_pure <| .bind_pure <| RawAnnotation.readAll_reads as) _
  have h₃ : Adds p (ClassAttributes.meaning p.numbered) (Attribute.innerClasses c.innerClasses)
      a₂ a₃ :=
    .forMany (fun entries => { a₂ with innerClasses := entries }) rfl rfl
      (fun _ => (readCounted_reads fun entry _ => InnerClass.reads entry).bind_pure) _
  exact (h₁.append h₂).append h₃

/-- The constants of a class file are those that its layout mentions. -/
theorem mem_constants {c : ClassFile} {e : PoolEntry} :
    e ∈ c.constants ↔ ∃ piece ∈ c.layout, e ∈ piece.mentions := by
  rw [constants, List.mem_dedup, Layout.mentions, List.mem_flatMap]

/-- The constants of a class file are there with those they refer to. -/
theorem constants_closed (c : ClassFile) : ∀ e ∈ c.constants, e.parts ⊆ c.constants := by
  intro e he d hd
  obtain ⟨piece, hPiece, he⟩ := mem_constants.mp he
  exact mem_constants.mpr ⟨piece, hPiece, piece.mentions_closed he hd⟩

/-- The pool of a class file within the limits. -/
def pool (c : ClassFile) (h : c.Fits) : Pool where
  entries := c.constants
  closed := c.constants_closed
  fits := h.texts
  slotCount_le := h.slots

/-- A class file within the limits fits in its own layout. -/
theorem layout_fitsIn {c : ClassFile} (h : c.Fits) : c.layout.FitsIn c.constants :=
  fun piece hPiece => ⟨h.pieces piece hPiece, fun _ he => mem_constants.mpr ⟨piece, hPiece, he⟩⟩

/-- What comes after the constant pool. -/
def readAfterPool (majorVersion : UInt16) (pool : ConstantPool) : Reader ClassFile := do
  let access ← readAccess
  let thisClass ← readClassName pool
  let superClass ← readClassName? pool
  let interfaces ← readCounted (readClassName pool)
  let fields ← readCounted (FieldInfo.read pool)
  let methods ← readCounted (MethodInfo.read pool)
  let a ← Attributes.read pool (ClassAttributes.meaning pool) {}
  return {
    majorVersion := majorVersion
    access := a.adjust access
    thisClass := thisClass
    superClass := superClass
    interfaces := interfaces
    signature := a.signature
    fields := fields
    methods := methods
    annotations := a.annotations
    innerClasses := a.innerClasses }

theorem reads (c : ClassFile) :
    Reads p (readAfterPool c.majorVersion p.numbered) c.layout c := by
  rw [layout, List.append_assoc, List.append_assoc, List.append_assoc]
  refine .bind (s := [.number 2 _]) (readAccess_reads c.access) fun _ => ?_
  refine .bind (s := [.index _]) (readClassName_reads c.thisClass) fun _ => ?_
  refine .bind (s := [.optional _]) (readClassName?_reads c.superClass) fun _ => ?_
  refine .bind (readCounted_reads fun name _ => readClassName_reads name) fun _ => ?_
  refine .bind (readCounted_reads fun f _ => f.reads) fun _ => ?_
  refine .bind (readCounted_reads fun m _ => m.reads) fun _ => ?_
  refine .bind_nil c.attributes_add.reads fun _ => ?_
  simp only [CommonAttributes.adjust, CommonAttributes.annotations, List.append_nil,
    Bool.false_eq_true, if_false]
  exact .pure c

/-- A class file within the limits of the format is read back from its bytes. -/
theorem parse_encode (c : ClassFile) (h : c.Fits) : parse c.encode = .ok c := by
  have hMagic := Reader.u4_toNat magic (Reader.toBigEndian 2 0 ++
    (Reader.toBigEndian 2 c.majorVersion.toNat ++
      (PoolEntry.poolBytes c.constants ++ c.layout.bytes c.constants)))
  have hPool := Pool.read_bytes (p := c.pool h) (c.layout.bytes c.constants)
  have hLayout := reads (p := c.pool h) c (layout_fitsIn h) []
  rw [List.append_nil] at hLayout
  have hRun : read c.encode = .ok (c, []) := by
    simp only [encode, List.append_assoc]
    rw [read, Parsing.bind_of_ok hMagic, if_neg (by simp)]
    refine (Parsing.bind_of_ok (Reader.u2_toBigEndian (by decide) _)).trans ?_
    refine (Parsing.bind_of_ok (Reader.u2_toNat c.majorVersion _)).trans ?_
    exact (Parsing.bind_of_ok hPool).trans hLayout
  rw [parse, StateT.run, hRun]
  rfl

/-- An annotation type with a constant of two numbers, a text with characters of every length, and
elements inside elements. -/
def sample : ClassFile where
  majorVersion := 52
  access := ⟨0x2601⟩
  thisClass := "a/B"
  superClass := some "java/lang/Object"
  interfaces := ["a/C"]
  signature := none
  fields := [⟨⟨0x19⟩, "N", "J", none, some (.long (-1)), []⟩]
  methods := [⟨⟨0x401⟩, "v", "(I)[La/D;", none, ["a/E"], some [⟨none, ⟨0⟩⟩], [⟨0, "x", "I", 1⟩],
    [], [[⟨"La/F;", []⟩]],
    some (.array [.nested "La/D;" [("c", .constant 73 (.int 7)),
      ("e", .enumConstant "La/G;" "H")]])⟩]
  annotations := [⟨"La/F;", [("s", .constant 115 (.string "aé€😀\x00"))]⟩]
  innerClasses := [⟨"a/B$1", none, none, ⟨0⟩⟩]

theorem parse_encode_sample : sample.Fits ∧ parse sample.encode = .ok sample := by
  have h : sample.Fits := by decide +kernel
  exact ⟨h, parse_encode sample h⟩

end ClassFile

end ClassSketch
