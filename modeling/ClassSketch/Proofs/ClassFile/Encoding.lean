import ClassSketch.ClassFile.Parse
import ClassSketch.Proofs.ClassFile.Layout
import Mathlib.Data.List.Dedup

/-!
# Writing class files

A reference encoder: the layout of a class file as the format has it, the constants it mentions as
its pool, and the bytes. Each kind of attribute that is understood is written where there is
something to say. Annotations are written as visible ones, and code as a single return instruction
with the table of local variables.

## Main definitions

* `Element.layout`, `RawAnnotation.layout` — annotations
* `FieldInfo.layout`, `MethodInfo.layout`, `ClassFile.layout` — declarations
* `ClassFile.encode` — the bytes of a class file
* `ClassFile.Fits` — the limits of the format
-/

namespace ClassSketch

/-! ### Annotations -/

mutual

/-- The layout of the value of an element: its tag, and what belongs to the tag. -/
def Element.layout : Element → Layout
  | .constant tag value => [.constant tag value]
  | .enumConstant type name => [.letter 'e', .index (.utf8 type), .index (.utf8 name)]
  | .classLiteral descriptor => [.letter 'c', .index (.utf8 descriptor)]
  | .nested type elements =>
    .letter '@' :: .index (.utf8 type) :: .number 2 elements.length :: Element.namedLayouts elements
  | .array items => .letter '[' :: .number 2 items.length :: Element.layouts items

/-- The layouts of elements with their names. -/
def Element.namedLayouts : List (String × Element) → Layout
  | [] => []
  | (name, value) :: elements =>
    .index (.utf8 name) :: (Element.layout value ++ Element.namedLayouts elements)

/-- The layouts of the items of an array. -/
def Element.layouts : List Element → Layout
  | [] => []
  | item :: items => Element.layout item ++ Element.layouts items

end

/-- The layout of an annotation: its type and a table of elements. -/
def RawAnnotation.layout (a : RawAnnotation) : Layout :=
  .index (.utf8 a.type) :: .number 2 a.elements.length :: Element.namedLayouts a.elements

/-! ### Attributes -/

namespace Attribute

/-- The attribute for a value, if there is one. -/
def forSome {α : Type} (name : String) (body : α → Layout) : Option α → List Attribute
  | none => []
  | some x => [⟨name, body x⟩]

/-- The attribute for a list, unless it is empty. -/
def forMany {α : Type} (name : String) (body : List α → Layout) : List α → List Attribute
  | [] => []
  | x :: xs => [⟨name, body (x :: xs)⟩]

/-- The attribute of a generic signature. -/
def signature : Option String → List Attribute :=
  forSome "Signature" fun text => [.index (.utf8 text)]

/-- The attribute of annotations. -/
def annotations : List RawAnnotation → List Attribute :=
  forMany "RuntimeVisibleAnnotations" (Layout.table 2 RawAnnotation.layout)

/-- The attribute of the value of a constant field. -/
def constantValue : Option Constant → List Attribute :=
  forSome "ConstantValue" fun value => [.index value.entry]

/-- The attribute of declared exceptions. -/
def exceptions : List String → List Attribute :=
  forMany "Exceptions" (Layout.table 2 fun name => [.index (.classRef name)])

/-- The attribute of declared parameters, which may be an empty table. -/
def methodParameters : Option (List MethodParameter) → List Attribute :=
  forSome "MethodParameters" <| Layout.table 1 fun parameter =>
    [.optional (parameter.name.map .utf8), .number 2 parameter.access.bits.toNat]

/-- The attribute of local variables. Each is written with an empty range. -/
def localVariables : List LocalVariable → List Attribute :=
  forMany "LocalVariableTable" <| Layout.table 2 fun v =>
    [.number 2 v.start.toNat, .number 2 0, .index (.utf8 v.name), .index (.utf8 v.descriptor),
      .number 2 v.slot.toNat]

/-- The attribute of code: no stack, no variables, a return instruction and no handlers. -/
def code : List LocalVariable → List Attribute :=
  forMany "Code" fun vs =>
    [.number 2 0, .number 2 0, .number 4 1, .number 1 0xB1, .number 2 0] ++
      Layout.table 2 layout (localVariables vs)

/-- The attribute of the annotations of parameters. -/
def parameterAnnotations : List (List RawAnnotation) → List Attribute :=
  forMany "RuntimeVisibleParameterAnnotations"
    (Layout.table 1 (Layout.table 2 RawAnnotation.layout))

/-- The attribute of the default value of an element. -/
def annotationDefault : Option Element → List Attribute :=
  forSome "AnnotationDefault" Element.layout

/-- The attribute of inner classes. -/
def innerClasses : List InnerClass → List Attribute :=
  forMany "InnerClasses" <| Layout.table 2 fun entry =>
    [.index (.classRef entry.inner), .optional (entry.outer.map .classRef),
      .optional (entry.simpleName.map .utf8), .number 2 entry.access.bits.toNat]

end Attribute

/-! ### Declarations -/

namespace FieldInfo

/-- The attributes of a field. -/
def attributes (f : FieldInfo) : List Attribute :=
  Attribute.signature f.signature ++ Attribute.constantValue f.constant ++
    Attribute.annotations f.annotations

/-- The layout of a field. -/
def layout (f : FieldInfo) : Layout :=
  [.number 2 f.access.bits.toNat, .index (.utf8 f.name), .index (.utf8 f.descriptor)] ++
    Layout.table 2 Attribute.layout f.attributes

end FieldInfo

namespace MethodInfo

/-- The attributes of a method. -/
def attributes (m : MethodInfo) : List Attribute :=
  Attribute.signature m.signature ++ Attribute.exceptions m.exceptions ++
    Attribute.methodParameters m.parameters ++ Attribute.code m.localVariables ++
    Attribute.annotations m.annotations ++
    Attribute.parameterAnnotations m.parameterAnnotations ++
    Attribute.annotationDefault m.defaultValue

/-- The layout of a method. -/
def layout (m : MethodInfo) : Layout :=
  [.number 2 m.access.bits.toNat, .index (.utf8 m.name), .index (.utf8 m.descriptor)] ++
    Layout.table 2 Attribute.layout m.attributes

end MethodInfo

namespace ClassFile

/-- The attributes of a class. -/
def attributes (c : ClassFile) : List Attribute :=
  Attribute.signature c.signature ++ Attribute.annotations c.annotations ++
    Attribute.innerClasses c.innerClasses

/-- The layout of a class file after its constant pool. -/
def layout (c : ClassFile) : Layout :=
  [.number 2 c.access.bits.toNat, .index (.classRef c.thisClass),
      .optional (c.superClass.map .classRef)] ++
    Layout.table 2 (fun name => [.index (.classRef name)]) c.interfaces ++
    Layout.table 2 FieldInfo.layout c.fields ++ Layout.table 2 MethodInfo.layout c.methods ++
    Layout.table 2 Attribute.layout c.attributes

/-- The constants of a class file, each of them once. -/
def constants (c : ClassFile) : List PoolEntry := c.layout.mentions.dedup

/-- The bytes of a class file: the magic number, the versions, the pool and the layout. -/
def encode (c : ClassFile) : List UInt8 :=
  Reader.toBigEndian 4 magic.toNat ++ Reader.toBigEndian 2 0 ++
    Reader.toBigEndian 2 c.majorVersion.toNat ++ PoolEntry.poolBytes c.constants ++
    c.layout.bytes c.constants

/-- The limits of the format: every number that is written fits its bytes, every constant of an
annotation fits its tag, no text takes more than 65535 bytes, and the pool has at most 65534
numbers. The numbers written are access flags, places and slots, which always fit, and the lengths
of tables and attributes. -/
structure Fits (c : ClassFile) : Prop where
  pieces : ∀ piece ∈ c.layout, piece.Fits
  texts : ∀ e ∈ c.constants, e.Fits
  slots : PoolEntry.slotCount c.constants ≤ 65534

instance (c : ClassFile) : Decidable c.Fits :=
  decidable_of_iff
    ((∀ piece ∈ c.layout, piece.Fits) ∧ (∀ e ∈ c.constants, e.Fits) ∧
      PoolEntry.slotCount c.constants ≤ 65534)
    ⟨fun ⟨h, h', h''⟩ => ⟨h, h', h''⟩, fun h => ⟨h.pieces, h.texts, h.slots⟩⟩

end ClassFile

end ClassSketch
