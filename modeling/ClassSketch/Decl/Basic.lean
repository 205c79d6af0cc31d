import ClassSketch.Decl.Literal
import ClassSketch.Decl.Modifiers

/-!
# Declarations

The sketch of a type: everything that a skeleton of its source text shows, without bodies.

## Main definitions

* `TypeKind`: class, interface, enum or annotation type
* `FieldDecl`, `ExecutableDecl`, `Member`: the members
* `TypeDecl`: a type with its members and the types nested in it
-/

namespace ClassSketch

/-- The kinds of types. -/
inductive TypeKind where
  | classType
  | interface
  | enum
  | annotationType
  deriving Repr, DecidableEq, BEq, Inhabited

/-- The word that introduces a declaration of the kind. -/
def TypeKind.keyword : TypeKind → String
  | .classType => "class"
  | .interface => "interface"
  | .enum => "enum"
  | .annotationType => "@interface"

/-- A field, or a constant of an enum. -/
structure FieldDecl where
  name : String
  modifiers : Modifiers := .empty
  annotations : List Annotation := []
  documentation : Option String := none
  type : TypeRef
  isEnumConstant : Bool := false
  constant : Option Literal := none
  deriving Repr, BEq, Inhabited

/-- A parameter of a method or constructor. -/
structure Parameter where
  name : String
  type : TypeRef
  annotations : List Annotation := []
  deriving Repr, BEq, Inhabited

/-- A method, or a constructor, which has no return type. -/
structure ExecutableDecl where
  name : String
  modifiers : Modifiers := .empty
  annotations : List Annotation := []
  documentation : Option String := none
  typeParameters : List TypeParameter := []
  returnType : Option TypeRef := none
  parameters : List Parameter := []
  thrown : List TypeRef := []
  defaultValue : Option AnnotationValue := none
  deriving Repr, BEq, Inhabited

/-- The name of constructors in class files. -/
def constructorName : String := "<init>"

namespace ExecutableDecl

/-- Whether the declaration is a constructor. -/
def isConstructor (e : ExecutableDecl) : Bool := e.name == constructorName

/-- The names of the parameters. -/
def parameterNames (e : ExecutableDecl) : List String := e.parameters.map Parameter.name

end ExecutableDecl

/-- A member that is no type. -/
inductive Member where
  | field (decl : FieldDecl)
  | executable (decl : ExecutableDecl)
  deriving Repr, BEq, Inhabited

namespace Member

/-- The member as a field. -/
def field? : Member → Option FieldDecl
  | field f => some f
  | executable _ => none

/-- The member as a method or constructor. -/
def executable? : Member → Option ExecutableDecl
  | field _ => none
  | executable e => some e

/-- The name of the member. -/
def name : Member → String
  | field f => f.name
  | executable e => e.name

/-- The modifiers of the member. -/
def modifiers : Member → Modifiers
  | field f => f.modifiers
  | executable e => e.modifiers

/-- The annotations of the member. -/
def annotations : Member → List Annotation
  | field f => f.annotations
  | executable e => e.annotations

/-- The documentation of the member. -/
def documentation : Member → Option String
  | field f => f.documentation
  | executable e => e.documentation

end Member

/-- A type with its members and the types nested in it. -/
structure TypeDecl where
  kind : TypeKind
  name : ClassName
  modifiers : Modifiers := .empty
  superclass : Option TypeRef := none
  superinterfaces : List TypeRef := []
  typeParameters : List TypeParameter := []
  members : List Member := []
  nestedTypes : List TypeDecl := []
  documentation : Option String := none
  annotations : List Annotation := []
  deriving Repr, BEq, Inhabited

namespace TypeDecl

/-- The fields, in order. -/
def fields (t : TypeDecl) : List FieldDecl := t.members.filterMap Member.field?

/-- The methods and constructors, in order. -/
def executables (t : TypeDecl) : List ExecutableDecl := t.members.filterMap Member.executable?

/-- The constructors, in order. -/
def constructors (t : TypeDecl) : List ExecutableDecl := t.executables.filter (·.isConstructor)

/-- The methods, in order. -/
def methods (t : TypeDecl) : List ExecutableDecl := t.executables.filter (!·.isConstructor)

/-- The first field with the given name. -/
def field? (t : TypeDecl) (name : String) : Option FieldDecl := t.fields.find? (·.name == name)

/-- The first method with the given name. -/
def method? (t : TypeDecl) (name : String) : Option ExecutableDecl :=
  t.methods.find? (·.name == name)

/-- The first nested type with the given simple name. -/
def nestedType? (t : TypeDecl) (simpleName : String) : Option TypeDecl :=
  t.nestedTypes.find? (·.name.simpleName == simpleName)

end TypeDecl

end ClassSketch
