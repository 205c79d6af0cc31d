import ClassSketch.ClassFile.Parse

/-!
# Readers of class files in parts

A class file is read in one go. Here its reader is taken apart: what comes before the members, the
members, which are read alike up to what their attributes mean, and what is made of all of it.

## Main definitions

* `readMember` — a reader of fields or methods
* `ClassHead.read` — the reader of what comes before the members
* `FieldAttributes.field`, `MethodAttributes.method`, `ClassHead.classFile` — what is made of the
  parts

## Main results

* `FieldInfo.read_eq`, `MethodInfo.read_eq`, `ClassFile.read_eq` — the readers, put together
-/

namespace ClassSketch

/-! ### Members -/

section

variable {α β : Type} (pool : ConstantPool) (meaning : Attributes.Meaning α) (initial : α)
  (make : AccessFlags → String → String → α → β)

/-- Reads a member, given what its attributes mean and how it is put together. -/
def readMember : Reader β := do
  let access ← readAccess
  let name ← readUtf8 pool
  let descriptor ← readUtf8 pool
  return make access name descriptor (← Attributes.read pool meaning initial)

end

/-- The field with what its attributes say. -/
def FieldAttributes.field (access : AccessFlags) (name descriptor : String)
    (a : FieldAttributes) : FieldInfo where
  access := a.adjust access
  name := name
  descriptor := descriptor
  signature := a.signature
  constant := a.constant
  annotations := a.annotations

/-- A field is a member whose attributes are those of fields. -/
theorem FieldInfo.read_eq (pool : ConstantPool) :
    FieldInfo.read pool = readMember pool (FieldAttributes.meaning pool) {} FieldAttributes.field :=
  rfl

/-- The method with what its attributes say. -/
def MethodAttributes.method (access : AccessFlags) (name descriptor : String)
    (a : MethodAttributes) : MethodInfo where
  access := a.adjust access
  name := name
  descriptor := descriptor
  signature := a.signature
  exceptions := a.exceptions
  parameters := a.parameters
  localVariables := a.localVariables
  annotations := a.annotations
  parameterAnnotations := zipAppend a.visibleOfParameters a.invisibleOfParameters
  defaultValue := a.defaultValue

/-- A method is a member whose attributes are those of methods. -/
theorem MethodInfo.read_eq (pool : ConstantPool) : MethodInfo.read pool =
    readMember pool (MethodAttributes.meaning pool) {} MethodAttributes.method :=
  rfl

/-! ### Classes -/

/-- What a class file says before its members. -/
structure ClassHead where
  majorVersion : UInt16
  pool : ConstantPool
  access : AccessFlags
  thisClass : String
  superClass : Option String
  interfaces : List String
  deriving DecidableEq

namespace ClassHead

/-- Reads what comes before the members. -/
def read : Reader ClassHead := do
  if (← Reader.u4) ≠ ClassFile.magic then throw .invalidMagic
  let _ ← Reader.u2
  let majorVersion ← Reader.u2
  let pool ← ConstantPool.read
  let access ← readAccess
  let thisClass ← readClassName pool
  let superClass ← readClassName? pool
  return {
    majorVersion := majorVersion
    pool := pool
    access := access
    thisClass := thisClass
    superClass := superClass
    interfaces := ← readCounted (readClassName pool) }

/-- The class file with members and with what its attributes say. -/
def classFile (h : ClassHead) (fields : List FieldInfo) (methods : List MethodInfo)
    (a : ClassAttributes) : ClassFile where
  majorVersion := h.majorVersion
  access := a.adjust h.access
  thisClass := h.thisClass
  superClass := h.superClass
  interfaces := h.interfaces
  signature := a.signature
  fields := fields
  methods := methods
  annotations := a.annotations
  innerClasses := a.innerClasses

end ClassHead

/-- A class file is its head, its members and its attributes, one after the other. -/
theorem ClassFile.read_eq : ClassFile.read = ClassHead.read >>= fun h =>
    readCounted (FieldInfo.read h.pool) >>= fun fields =>
      readCounted (MethodInfo.read h.pool) >>= fun methods =>
        Attributes.read h.pool (ClassAttributes.meaning h.pool) {} >>= fun a =>
          pure (h.classFile fields methods a) := by
  simp only [ClassFile.read, ClassHead.read, ClassHead.classFile, bind_assoc]
  refine congrArg _ (funext fun number => ?_)
  split
  · rfl
  · simp only [bind_assoc, pure_bind]

end ClassSketch
