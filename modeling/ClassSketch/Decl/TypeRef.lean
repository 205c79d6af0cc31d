import ClassSketch.Decl.ClassName

/-!
# Types in declarations

## Main definitions

* `Primitive`: the primitive types and `void`
* `TypeRef`: a type with its arguments
* `TypeRef.display`: source text
* `TypeRef.documentationKey`: the name under which documentation refers to the type
* `TypeParameter`: a formal type parameter with its bounds
-/

namespace ClassSketch

/-- The primitive types and `void`. -/
inductive Primitive where
  | boolean
  | byte
  | char
  | short
  | int
  | long
  | float
  | double
  | void
  deriving Repr, DecidableEq, BEq, Inhabited

namespace Primitive

/-- All primitive types. -/
def all : List Primitive := [boolean, byte, char, short, int, long, float, double, void]

/-- The letter of the type in descriptors. -/
def letter : Primitive → Char
  | boolean => 'Z'
  | byte => 'B'
  | char => 'C'
  | short => 'S'
  | int => 'I'
  | long => 'J'
  | float => 'F'
  | double => 'D'
  | void => 'V'

/-- The type with the given letter. -/
def ofLetter? (c : Char) : Option Primitive := all.find? fun p => p.letter == c

/-- The word for the type in source text. -/
def keyword : Primitive → String
  | boolean => "boolean"
  | byte => "byte"
  | char => "char"
  | short => "short"
  | int => "int"
  | long => "long"
  | float => "float"
  | double => "double"
  | void => "void"

/-- The type with the given word. -/
def ofKeyword? (word : String) : Option Primitive := all.find? fun p => p.keyword == word

/-- How many local variable slots a value of the type takes. -/
def slots : Primitive → Nat
  | long | double => 2
  | void => 0
  | _ => 1

end Primitive

/-- Which way a wildcard type argument is bounded. -/
inductive Variance where
  | unbounded
  | upper
  | lower
  deriving Repr, DecidableEq, BEq, Inhabited

/-- A type as it appears in a declaration. -/
inductive TypeRef where
  | primitive (type : Primitive)
  | array (element : TypeRef)
  | classType (name : ClassName) (arguments : List TypeRef)
  | typeVariable (name : String)
  | wildcard (variance : Variance) (bound : Option TypeRef)
  deriving Repr, BEq, Inhabited

namespace TypeRef

/-- A class without type arguments. -/
def ofClass (name : ClassName) : TypeRef := classType name []

/-- The type of what returns nothing. -/
def void : TypeRef := primitive .void

/-- Whether the type is `void`. -/
def isVoid : TypeRef → Bool
  | primitive .void => true
  | _ => false

/-- Whether the type is primitive. -/
def isPrimitive : TypeRef → Bool
  | primitive _ => true
  | _ => false

/-- The class of a class type. -/
def className? : TypeRef → Option ClassName
  | classType name _ => some name
  | _ => none

/-- How many local variable slots a value of the type takes. -/
def slots : TypeRef → Nat
  | primitive p => p.slots
  | _ => 1

/-- The name under which documentation refers to the type: without type arguments, nested classes
dotted, a wildcard by its bound. -/
def documentationKey : TypeRef → String
  | primitive p => p.keyword
  | array element => element.documentationKey ++ "[]"
  | classType name _ => name.canonical
  | typeVariable name => name
  | wildcard _ (some bound) => bound.documentationKey
  | wildcard _ none => ClassName.object.canonical

mutual

/-- The type in source text. -/
def display : TypeRef → String
  | primitive p => p.keyword
  | array element => element.display ++ "[]"
  | classType name [] => name.canonical
  | classType name arguments =>
    name.canonical ++ "<" ++ ", ".intercalate (displayAll arguments) ++ ">"
  | typeVariable name => name
  | wildcard .upper (some bound) => "? extends " ++ bound.display
  | wildcard .lower (some bound) => "? super " ++ bound.display
  | wildcard _ _ => "?"

/-- The types in source text. -/
def displayAll : List TypeRef → List String
  | [] => []
  | type :: types => type.display :: displayAll types

end

end TypeRef

/-- A formal type parameter, with its bounds in the order of the declaration. -/
structure TypeParameter where
  name : String
  bounds : List TypeRef
  deriving Repr, BEq, Inhabited

end ClassSketch
