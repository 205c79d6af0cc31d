import ClassSketch.ClassFile.Attribute
import ClassSketch.ClassFile.Basic

/-!
# Reading class files

## Main definitions

* `FieldInfo.read`, `MethodInfo.read`: reading members
* `ClassFile.read`: reading a class file at the front of the input
* `ClassFile.parse`: the class file with the given bytes

## Implementation notes

What the attributes of a declaration say is collected in a structure of its own. Visible and
invisible annotations are kept apart there and joined afterwards, so that the order of the
attributes does not matter.
-/

namespace ClassSketch

/-- The lists joined place by place; a place that only one of them has is kept. -/
def zipAppend {α : Type} : List (List α) → List (List α) → List (List α)
  | [], ys => ys
  | xs, [] => xs
  | x :: xs, y :: ys => (x ++ y) :: zipAppend xs ys

/-- Reads the string whose number comes next. -/
def readUtf8 (pool : ConstantPool) : Reader String := do pool.utf8 (← Reader.u2)

/-- Reads the string whose number comes next, where zero names none. -/
def readUtf8? (pool : ConstantPool) : Reader (Option String) := do pool.utf8? (← Reader.u2)

/-- Reads the class name whose number comes next. -/
def readClassName (pool : ConstantPool) : Reader String := do pool.className (← Reader.u2)

/-- Reads the class name whose number comes next, where zero names none. -/
def readClassName? (pool : ConstantPool) : Reader (Option String) := do
  pool.className? (← Reader.u2)

/-- Reads access flags. -/
def readAccess : Reader AccessFlags := return ⟨← Reader.u2⟩

/-- Reads a count of two bytes and as many values. -/
def readCounted {α : Type} (read : Reader α) : Reader (List α) := do
  let count ← Reader.u2
  Reader.times read count.toNat

/-- What the attributes of any declaration say. -/
structure CommonAttributes where
  signature : Option String := none
  isSynthetic : Bool := false
  visible : List RawAnnotation := []
  invisible : List RawAnnotation := []

namespace CommonAttributes

/-- The attributes that any declaration may have. -/
def meaning (pool : ConstantPool) : Attributes.Meaning CommonAttributes
  | "Signature" => some fun a => do return { a with signature := ← readUtf8 pool }
  | "Synthetic" => some fun a => return { a with isSynthetic := true }
  | "RuntimeVisibleAnnotations" =>
    some fun a => do return { a with visible := ← RawAnnotation.readAll pool }
  | "RuntimeInvisibleAnnotations" =>
    some fun a => do return { a with invisible := ← RawAnnotation.readAll pool }
  | _ => none

/-- The annotations, the visible ones first. -/
def annotations (a : CommonAttributes) : List RawAnnotation := a.visible ++ a.invisible

/-- The access flags, with the mark that an attribute may add. -/
def adjust (a : CommonAttributes) (access : AccessFlags) : AccessFlags :=
  if a.isSynthetic then access.synthetic else access

end CommonAttributes

/-! ### Fields -/

/-- What the attributes of a field say. -/
structure FieldAttributes extends CommonAttributes where
  constant : Option Constant := none

/-- The attributes that a field may have. -/
def FieldAttributes.meaning (pool : ConstantPool) : Attributes.Meaning FieldAttributes
  | "ConstantValue" =>
    some fun a => do return { a with constant := ← pool.constant (← Reader.u2) }
  | name =>
    (CommonAttributes.meaning pool name).map fun step a => do
      return { a with toCommonAttributes := ← step a.toCommonAttributes }

/-- Reads a field. -/
def FieldInfo.read (pool : ConstantPool) : Reader FieldInfo := do
  let access ← readAccess
  let name ← readUtf8 pool
  let descriptor ← readUtf8 pool
  let a ← Attributes.read pool (FieldAttributes.meaning pool) {}
  return {
    access := a.adjust access
    name := name
    descriptor := descriptor
    signature := a.signature
    constant := a.constant
    annotations := a.annotations }

/-! ### Methods -/

/-- Reads a local variable. -/
def LocalVariable.read (pool : ConstantPool) : Reader LocalVariable := do
  let start ← Reader.u2
  let _ ← Reader.u2
  let name ← readUtf8 pool
  let descriptor ← readUtf8 pool
  return ⟨start, name, descriptor, ← Reader.u2⟩

/-- The attributes of code that are understood: tables of local variables. -/
def codeMeaning (pool : ConstantPool) : Attributes.Meaning (List LocalVariable)
  | "LocalVariableTable" =>
    some fun known => do return known ++ (← readCounted (LocalVariable.read pool))
  | _ => none

/-- Reads past code and gives the local variables it declares. -/
def readCode (pool : ConstantPool) : Reader (List LocalVariable) := do
  let _ ← Reader.u2
  let _ ← Reader.u2
  let codeLength ← Reader.u4
  let _ ← Reader.bytes codeLength.toNat
  let handlers ← Reader.u2
  let _ ← Reader.bytes (handlers.toNat * 8)
  Attributes.read pool (codeMeaning pool) []

/-- Reads the table of parameters. -/
def readParameters (pool : ConstantPool) : Reader (List MethodParameter) := do
  let count ← Reader.u1
  Reader.times (do return ⟨← readUtf8? pool, ← readAccess⟩) count.toNat

/-- What the attributes of a method say. -/
structure MethodAttributes extends CommonAttributes where
  exceptions : List String := []
  parameters : Option (List MethodParameter) := none
  localVariables : List LocalVariable := []
  visibleOfParameters : List (List RawAnnotation) := []
  invisibleOfParameters : List (List RawAnnotation) := []
  defaultValue : Option Element := none

namespace MethodAttributes

/-- The attributes that a method may have. -/
def meaning (pool : ConstantPool) : Attributes.Meaning MethodAttributes
  | "Exceptions" => some fun a => do
    return { a with exceptions := a.exceptions ++ (← readCounted (readClassName pool)) }
  | "MethodParameters" => some fun a => do return { a with parameters := ← readParameters pool }
  | "Code" => some fun a => do
    return { a with localVariables := a.localVariables ++ (← readCode pool) }
  | "RuntimeVisibleParameterAnnotations" => some fun a => do
    return { a with visibleOfParameters := ← RawAnnotation.readParameters pool }
  | "RuntimeInvisibleParameterAnnotations" => some fun a => do
    return { a with invisibleOfParameters := ← RawAnnotation.readParameters pool }
  | "AnnotationDefault" => some fun a => do return { a with defaultValue := ← Element.read pool }
  | name =>
    (CommonAttributes.meaning pool name).map fun step a => do
      return { a with toCommonAttributes := ← step a.toCommonAttributes }

end MethodAttributes

/-- Reads a method. -/
def MethodInfo.read (pool : ConstantPool) : Reader MethodInfo := do
  let access ← readAccess
  let name ← readUtf8 pool
  let descriptor ← readUtf8 pool
  let a ← Attributes.read pool (MethodAttributes.meaning pool) {}
  return {
    access := a.adjust access
    name := name
    descriptor := descriptor
    signature := a.signature
    exceptions := a.exceptions
    parameters := a.parameters
    localVariables := a.localVariables
    annotations := a.annotations
    parameterAnnotations := zipAppend a.visibleOfParameters a.invisibleOfParameters
    defaultValue := a.defaultValue }

/-! ### Classes -/

/-- Reads an entry of the table of inner classes. -/
def InnerClass.read (pool : ConstantPool) : Reader InnerClass := do
  let inner ← readClassName pool
  let outer ← readClassName? pool
  let simpleName ← readUtf8? pool
  return ⟨inner, outer, simpleName, ← readAccess⟩

/-- What the attributes of a class say. -/
structure ClassAttributes extends CommonAttributes where
  innerClasses : List InnerClass := []

/-- The attributes that a class may have. -/
def ClassAttributes.meaning (pool : ConstantPool) : Attributes.Meaning ClassAttributes
  | "InnerClasses" => some fun a => do
    return { a with innerClasses := ← readCounted (InnerClass.read pool) }
  | name =>
    (CommonAttributes.meaning pool name).map fun step a => do
      return { a with toCommonAttributes := ← step a.toCommonAttributes }

namespace ClassFile

/-- The number at the start of every class file. -/
def magic : UInt32 := 0xCAFEBABE

/-- Reads a class file at the front of the input. -/
def read : Reader ClassFile := do
  if (← Reader.u4) ≠ magic then throw .invalidMagic
  let _ ← Reader.u2
  let majorVersion ← Reader.u2
  let pool ← ConstantPool.read
  let access ← readAccess
  let thisClass ← readClassName pool
  let superClass ← readClassName? pool
  let interfaces ← readCounted (readClassName pool)
  let fields ← readCounted (FieldInfo.read pool)
  let methods ← readCounted (MethodInfo.read pool)
  let a ← Attributes.read pool (ClassAttributes.meaning pool) {}
  return {
    majorVersion := majorVersion
    access := a.adjust access
    thisClass := thisClass
    superClass := superClass
    interfaces := interfaces
    signature := a.signature
    fields := fields
    methods := methods
    annotations := a.annotations
    innerClasses := a.innerClasses }

/-- The class file with the given bytes; bytes after its end are ignored. -/
def parse (bytes : List UInt8) : Except Error ClassFile := (read.run bytes).map Prod.fst

end ClassFile

end ClassSketch
