import ClassSketch.ClassFile.Access
import ClassSketch.ClassFile.Element
import ClassSketch.Decl.ClassName

/-!
# Class files

The declarations of a class file. Class names stay in the spelling of class files.

## Main definitions

* `FieldInfo`, `MethodInfo`, `InnerClass`: parts of a class file
* `ClassFile`: a class file
* `ClassFile.ownInner?`, `ClassFile.memberClasses`: nesting
-/

namespace ClassSketch

/-- A field of a class file. -/
structure FieldInfo where
  access : AccessFlags
  name : String
  descriptor : String
  signature : Option String
  constant : Option Constant
  annotations : List RawAnnotation
  deriving Repr, BEq, Inhabited

/-- A parameter as a method declares it, with its name if that is recorded. -/
structure MethodParameter where
  name : Option String
  access : AccessFlags
  deriving Repr, DecidableEq, BEq, Inhabited

/-- A local variable of a method, which lives in a slot from a place in the code on. -/
structure LocalVariable where
  start : UInt16
  name : String
  descriptor : String
  slot : UInt16
  deriving Repr, DecidableEq, BEq, Inhabited

/-- A method or constructor of a class file. -/
structure MethodInfo where
  access : AccessFlags
  name : String
  descriptor : String
  signature : Option String
  exceptions : List String
  parameters : Option (List MethodParameter)
  localVariables : List LocalVariable
  annotations : List RawAnnotation
  parameterAnnotations : List (List RawAnnotation)
  defaultValue : Option Element
  deriving Repr, BEq, Inhabited

/-- An entry of the table of inner classes. An anonymous class has no simple name. -/
structure InnerClass where
  inner : String
  outer : Option String
  simpleName : Option String
  access : AccessFlags
  deriving Repr, DecidableEq, BEq, Inhabited

/-- The declarations of a class file. -/
structure ClassFile where
  majorVersion : UInt16
  access : AccessFlags
  thisClass : String
  superClass : Option String
  interfaces : List String
  signature : Option String
  fields : List FieldInfo
  methods : List MethodInfo
  annotations : List RawAnnotation
  innerClasses : List InnerClass
  deriving Repr, BEq, Inhabited

namespace ClassFile

/-- The name of the class. -/
def className (c : ClassFile) : ClassName := .ofInternal c.thisClass

/-- The name of the class in a running machine. -/
def binaryName (c : ClassFile) : String := replaceChar '/' '.' c.thisClass

/-- The entry that describes the class itself, if it is nested. -/
def ownInner? (c : ClassFile) : Option InnerClass :=
  c.innerClasses.find? fun e => e.inner == c.thisClass

/-- The entries of the named classes declared directly inside the class, in order. -/
def memberClasses (c : ClassFile) : List InnerClass :=
  c.innerClasses.filter fun e => e.simpleName.isSome && e.outer == some c.thisClass

end ClassFile

end ClassSketch
