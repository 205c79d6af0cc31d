import ClassSketch.Decimal.Layout
import ClassSketch.Decl.Basic
import ClassSketch.Json.Number

/-!
# The JSON form of declarations

A choice between shapes is an object with one entry whose name says which shape follows, a structure
is an object with its fields in order, and nothing is `null`.

## Main definitions

* `TypeRef.toJson`, `Annotation.toJson`, `TypeDecl.toJson`: writing
* `TypeRef.ofJson?`, `Annotation.ofJson?`, `TypeDecl.ofJson?`: reading

## Implementation notes

Reading a recursive type goes down one level of the JSON value at a time and is bounded by the depth
of that value.
-/

namespace ClassSketch

namespace Json

/-- The shape of a choice and its content. -/
def choice? : Json → Option (String × Json)
  | obj [entry] => some entry
  | _ => none

/-- A choice of the given shape. -/
def ofChoice (shape : String) (content : Json) : Json := obj [(shape, content)]

/-- A value that may be absent. -/
def ofOption {α : Type} (write : α → Json) : Option α → Json
  | none => null
  | some x => write x

/-- An array of written values. -/
def ofList {α : Type} (write : α → Json) (xs : List α) : Json := arr (xs.map write)

/-- The values of an array, all read. -/
def listOf? {α : Type} (read : Json → Option α) (j : Json) : Option (List α) :=
  j.asList?.bind fun items => items.mapM read

/-- The required entry of an object, read. -/
def get? {α : Type} (name : String) (read : Json → Option α) (j : Json) : Option α :=
  (j.field? name).bind read

/-- The optional entry of an object, read. -/
def getOption? {α : Type} (name : String) (read : Json → Option α) (j : Json) :
    Option (Option α) :=
  (j.fieldD name).asOption? read

/-- An integer within bounds. -/
def intWithin? (least greatest : Int) (j : Json) : Option Int :=
  j.asInt?.bind fun n => if least ≤ n ∧ n ≤ greatest then some n else none

end Json

/-! ### Names and types -/

namespace ClassName

/-- The JSON form of a class name. -/
def toJson (c : ClassName) : Json :=
  .obj [("package", .str c.package), ("simple_names", .ofList .str c.simpleNames)]

/-- The class name with the given JSON form. -/
def ofJson? (j : Json) : Option ClassName := do
  return ⟨← j.get? "package" Json.asString?, ← j.get? "simple_names" (Json.listOf? Json.asString?)⟩

end ClassName

namespace Variance

/-- The word for the variance. -/
def keyword : Variance → String
  | unbounded => "unbounded"
  | upper => "extends"
  | lower => "super"

/-- The variance with the given word. -/
def ofKeyword? (word : String) : Option Variance :=
  [unbounded, upper, lower].find? fun v => v.keyword == word

end Variance

namespace TypeRef

mutual

/-- The JSON form of a type. -/
def toJson : TypeRef → Json
  | primitive p => .ofChoice "primitive" (.str p.keyword)
  | array element => .ofChoice "array" element.toJson
  | classType name arguments =>
    .ofChoice "class" (.obj [("name", name.toJson), ("type_args", .arr (toJsonAll arguments))])
  | typeVariable name => .ofChoice "type_variable" (.str name)
  | wildcard variance bound =>
    .ofChoice "wildcard" (.obj [("kind", .str variance.keyword), ("bound", toJsonBound bound)])

/-- The JSON forms of types. -/
def toJsonAll : List TypeRef → List Json
  | [] => []
  | type :: types => type.toJson :: toJsonAll types

/-- The JSON form of a bound. -/
def toJsonBound : Option TypeRef → Json
  | none => .null
  | some bound => bound.toJson

end

/-- The type with the given JSON form of at most `depth` levels. -/
def ofJsonWithin : Nat → Json → Option TypeRef
  | 0, _ => none
  | depth + 1, j => do
    let (shape, content) ← j.choice?
    match shape with
    | "primitive" => return primitive (← content.asString?.bind Primitive.ofKeyword?)
    | "array" => return array (← ofJsonWithin depth content)
    | "class" =>
      return classType (← content.get? "name" ClassName.ofJson?)
        (← content.get? "type_args" (Json.listOf? (ofJsonWithin depth)))
    | "type_variable" => return typeVariable (← content.asString?)
    | "wildcard" =>
      return wildcard (← content.get? "kind" fun k => k.asString?.bind Variance.ofKeyword?)
        (← content.getOption? "bound" (ofJsonWithin depth))
    | _ => none

/-- The type with the given JSON form. -/
def ofJson? (j : Json) : Option TypeRef := ofJsonWithin j.depth j

end TypeRef

namespace TypeParameter

/-- The JSON form of a type parameter. -/
def toJson (p : TypeParameter) : Json :=
  .obj [("name", .str p.name), ("bounds", .ofList TypeRef.toJson p.bounds)]

/-- The type parameter with the given JSON form. -/
def ofJson? (j : Json) : Option TypeParameter := do
  return ⟨← j.get? "name" Json.asString?, ← j.get? "bounds" (Json.listOf? TypeRef.ofJson?)⟩

end TypeParameter

namespace Modifiers

/-- The JSON form of a set of modifiers. -/
def toJson (s : Modifiers) : Json := .ofList (fun m => .str m.keyword) s.toList

/-- The set of modifiers with the given JSON form. -/
def ofJson? (j : Json) : Option Modifiers :=
  (j.listOf? fun word => word.asString?.bind Modifier.ofKeyword?).map ofList

end Modifiers

/-! ### Literals and annotations -/

namespace Literal

/-- The JSON form of a literal. A floating point constant that is not finite has none. -/
def toJson : Literal → Json
  | string s => .ofChoice "string" (.str s)
  | boolean b => .ofChoice "boolean" (.bool b)
  | byte n => .ofChoice "byte" (.int n.toInt)
  | char c escaped =>
    .ofChoice "char"
      (.obj [("value", .str (String.singleton c)), ("escaped", .str escaped)])
  | short n => .ofChoice "short" (.int n.toInt)
  | int n => .ofChoice "int" (.int n.toInt)
  | long n => .ofChoice "long" (.int n.toInt)
  | float x => .ofChoice "float" (.ofOption .real x.text?)
  | double x => .ofChoice "double" (.ofOption .real x.text?)

/-- The only character of a text. -/
def oneChar? (s : String) : Option Char :=
  match s.toList with
  | [c] => some c
  | _ => none

/-- The literal with the given JSON form. -/
def ofJson? (j : Json) : Option Literal := do
  let (shape, content) ← j.choice?
  match shape with
  | "string" => return string (← content.asString?)
  | "boolean" => return boolean (← content.asBool?)
  | "byte" => return byte (Int8.ofInt (← content.intWithin? (-0x80) 0x7F))
  | "char" =>
    return char (← content.get? "value" fun v => v.asString?.bind oneChar?)
      (← content.get? "escaped" Json.asString?)
  | "short" => return short (Int16.ofInt (← content.intWithin? (-0x8000) 0x7FFF))
  | "int" => return int (Int32.ofInt (← content.intWithin? (-0x80000000) 0x7FFFFFFF))
  | "long" =>
    return long (Int64.ofInt (← content.intWithin? (-0x8000000000000000) 0x7FFFFFFFFFFFFFFF))
  | "float" => return float (← content.asBinary32?)
  | "double" => return double (← content.asBinary64?)
  | _ => none

end Literal

/-- The JSON form of an annotation whose entries are written already. -/
def annotationJson (type : ClassName) (entries : List (String × Json)) : Json :=
  .obj [("ty", type.toJson), ("entries", .obj entries)]

namespace AnnotationValue

mutual

/-- The JSON form of an annotation value. -/
def toJson : AnnotationValue → Json
  | literal value => .ofChoice "literal" value.toJson
  | enumConstant type constant =>
    .ofChoice "enum_constant" (.obj [("ty", type.toJson), ("constant", .str constant)])
  | classRef type => .ofChoice "class_ref" type.toJson
  | nested type entries => .ofChoice "nested" (annotationJson type (toJsonEntries entries))
  | array items => .ofChoice "array" (.arr (toJsonAll items))

/-- The JSON forms of annotation values. -/
def toJsonAll : List AnnotationValue → List Json
  | [] => []
  | value :: values => value.toJson :: toJsonAll values

/-- The JSON forms of entries. -/
def toJsonEntries : List (String × AnnotationValue) → List (String × Json)
  | [] => []
  | (name, value) :: entries => (name, value.toJson) :: toJsonEntries entries

end

end AnnotationValue

/-- The class and the entries of an annotation, where `read` reads the values. -/
def annotationParts? (read : Json → Option AnnotationValue) (j : Json) :
    Option (ClassName × List (String × AnnotationValue)) := do
  let type ← j.get? "ty" ClassName.ofJson?
  match ← j.field? "entries" with
  | .obj entries =>
    let values ← entries.mapM fun (name, value) => (read value).map fun v => (name, v)
    return (type, values.foldl (fun done (name, value) => putEntry name value done) [])
  | _ => none

namespace AnnotationValue

/-- The annotation value with the given JSON form of at most `depth` levels. -/
def ofJsonWithin : Nat → Json → Option AnnotationValue
  | 0, _ => none
  | depth + 1, j => do
    let (shape, content) ← j.choice?
    match shape with
    | "literal" => return literal (← Literal.ofJson? content)
    | "enum_constant" =>
      return enumConstant (← content.get? "ty" ClassName.ofJson?)
        (← content.get? "constant" Json.asString?)
    | "class_ref" => return classRef (← TypeRef.ofJson? content)
    | "nested" =>
      let (type, entries) ← annotationParts? (ofJsonWithin depth) content
      return nested type entries
    | "array" => return array (← content.listOf? (ofJsonWithin depth))
    | _ => none

/-- The annotation value with the given JSON form. -/
def ofJson? (j : Json) : Option AnnotationValue := ofJsonWithin j.depth j

end AnnotationValue

namespace Annotation

/-- The JSON form of an annotation. -/
def toJson (a : Annotation) : Json :=
  annotationJson a.type (AnnotationValue.toJsonEntries a.entries)

/-- The annotation with the given JSON form. -/
def ofJson? (j : Json) : Option Annotation := do
  let (type, entries) ← annotationParts? AnnotationValue.ofJson? j
  return ⟨type, entries⟩

end Annotation

/-! ### Declarations -/

namespace FieldDecl

/-- The JSON form of a field. -/
def toJson (f : FieldDecl) : Json :=
  .obj [("name", .str f.name), ("modifiers", f.modifiers.toJson),
    ("annotations", .ofList Annotation.toJson f.annotations),
    ("documentation", .ofOption .str f.documentation), ("ty", f.type.toJson),
    ("enum_constant", .bool f.isEnumConstant), ("constant", .ofOption Literal.toJson f.constant)]

/-- The field with the given JSON form. -/
def ofJson? (j : Json) : Option FieldDecl := do
  return {
    name := ← j.get? "name" Json.asString?
    modifiers := ← j.get? "modifiers" Modifiers.ofJson?
    annotations := ← j.get? "annotations" (Json.listOf? Annotation.ofJson?)
    documentation := ← j.getOption? "documentation" Json.asString?
    type := ← j.get? "ty" TypeRef.ofJson?
    isEnumConstant := ← j.get? "enum_constant" Json.asBool?
    constant := ← j.getOption? "constant" Literal.ofJson? }

end FieldDecl

namespace Parameter

/-- The JSON form of a parameter. -/
def toJson (p : Parameter) : Json :=
  .obj [("name", .str p.name), ("ty", p.type.toJson),
    ("annotations", .ofList Annotation.toJson p.annotations)]

/-- The parameter with the given JSON form. -/
def ofJson? (j : Json) : Option Parameter := do
  return {
    name := ← j.get? "name" Json.asString?
    type := ← j.get? "ty" TypeRef.ofJson?
    annotations := ← j.get? "annotations" (Json.listOf? Annotation.ofJson?) }

end Parameter

namespace ExecutableDecl

/-- The JSON form of a method or constructor. -/
def toJson (e : ExecutableDecl) : Json :=
  .obj [("name", .str e.name), ("modifiers", e.modifiers.toJson),
    ("annotations", .ofList Annotation.toJson e.annotations),
    ("documentation", .ofOption .str e.documentation),
    ("type_parameters", .ofList TypeParameter.toJson e.typeParameters),
    ("return_type", .ofOption TypeRef.toJson e.returnType),
    ("parameters", .ofList Parameter.toJson e.parameters),
    ("thrown", .ofList TypeRef.toJson e.thrown),
    ("default_value", .ofOption AnnotationValue.toJson e.defaultValue)]

/-- The method or constructor with the given JSON form. -/
def ofJson? (j : Json) : Option ExecutableDecl := do
  return {
    name := ← j.get? "name" Json.asString?
    modifiers := ← j.get? "modifiers" Modifiers.ofJson?
    annotations := ← j.get? "annotations" (Json.listOf? Annotation.ofJson?)
    documentation := ← j.getOption? "documentation" Json.asString?
    typeParameters := ← j.get? "type_parameters" (Json.listOf? TypeParameter.ofJson?)
    returnType := ← j.getOption? "return_type" TypeRef.ofJson?
    parameters := ← j.get? "parameters" (Json.listOf? Parameter.ofJson?)
    thrown := ← j.get? "thrown" (Json.listOf? TypeRef.ofJson?)
    defaultValue := ← j.getOption? "default_value" AnnotationValue.ofJson? }

end ExecutableDecl

namespace Member

/-- The JSON form of a member. -/
def toJson : Member → Json
  | field f => .ofChoice "field" f.toJson
  | executable e => .ofChoice "executable" e.toJson

/-- The member with the given JSON form. -/
def ofJson? (j : Json) : Option Member := do
  let (shape, content) ← j.choice?
  match shape with
  | "field" => return field (← FieldDecl.ofJson? content)
  | "executable" => return executable (← ExecutableDecl.ofJson? content)
  | _ => none

end Member

namespace TypeKind

/-- The word for the kind in the JSON form. -/
def tag : TypeKind → String
  | .classType => "class"
  | .interface => "interface"
  | .enum => "enum"
  | .annotationType => "annotation"

/-- The kind with the given word. -/
def ofTag? (word : String) : Option TypeKind :=
  [.classType, .interface, .enum, .annotationType].find? fun k => k.tag == word

end TypeKind

namespace TypeDecl

mutual

/-- The JSON form of a type. -/
def toJson : TypeDecl → Json
  | ⟨kind, name, modifiers, superclass, superinterfaces, typeParameters, members, nestedTypes,
      documentation, annotations⟩ =>
    .obj [("kind", .str kind.tag), ("name", name.toJson), ("modifiers", modifiers.toJson),
      ("superclass", .ofOption TypeRef.toJson superclass),
      ("superinterfaces", .ofList TypeRef.toJson superinterfaces),
      ("type_parameters", .ofList TypeParameter.toJson typeParameters),
      ("members", .ofList Member.toJson members), ("nested_types", .arr (toJsonAll nestedTypes)),
      ("documentation", .ofOption .str documentation),
      ("annotations", .ofList Annotation.toJson annotations)]

/-- The JSON forms of types. -/
def toJsonAll : List TypeDecl → List Json
  | [] => []
  | t :: ts => toJson t :: toJsonAll ts

end

/-- The type with the given JSON form of at most `depth` levels. -/
def ofJsonWithin : Nat → Json → Option TypeDecl
  | 0, _ => none
  | depth + 1, j => do
    return {
      kind := ← j.get? "kind" fun k => k.asString?.bind TypeKind.ofTag?
      name := ← j.get? "name" ClassName.ofJson?
      modifiers := ← j.get? "modifiers" Modifiers.ofJson?
      superclass := ← j.getOption? "superclass" TypeRef.ofJson?
      superinterfaces := ← j.get? "superinterfaces" (Json.listOf? TypeRef.ofJson?)
      typeParameters := ← j.get? "type_parameters" (Json.listOf? TypeParameter.ofJson?)
      members := ← j.get? "members" (Json.listOf? Member.ofJson?)
      nestedTypes := ← j.get? "nested_types" (Json.listOf? (ofJsonWithin depth))
      documentation := ← j.getOption? "documentation" Json.asString?
      annotations := ← j.get? "annotations" (Json.listOf? Annotation.ofJson?) }

/-- The type with the given JSON form. -/
def ofJson? (j : Json) : Option TypeDecl := ofJsonWithin j.depth j

end TypeDecl

end ClassSketch
