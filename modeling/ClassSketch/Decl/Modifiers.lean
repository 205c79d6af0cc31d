/-!
# Modifiers

The modifiers of a declaration form a set, which is always shown in the order in which modifiers
are written in source text.

## Main definitions

* `Modifier`, `Modifiers`: a modifier and a set of them
* `Modifiers.insert`, `Modifiers.erase`: adding and removing one
* `Modifiers.toList`: the members in source order
-/

namespace ClassSketch

/-- A word that modifies a declaration. -/
inductive Modifier where
  | isPublic
  | isProtected
  | isPrivate
  | isAbstract
  | isDefault
  | isStatic
  | isFinal
  deriving Repr, DecidableEq, BEq, Inhabited

namespace Modifier

/-- All modifiers, in the order in which they are written. -/
def all : List Modifier :=
  [isPublic, isProtected, isPrivate, isAbstract, isDefault, isStatic, isFinal]

/-- The word for the modifier. -/
def keyword : Modifier → String
  | isPublic => "public"
  | isProtected => "protected"
  | isPrivate => "private"
  | isAbstract => "abstract"
  | isDefault => "default"
  | isStatic => "static"
  | isFinal => "final"

/-- The modifier with the given word. -/
def ofKeyword? (word : String) : Option Modifier := all.find? fun m => m.keyword == word

end Modifier

/-- A set of modifiers. -/
structure Modifiers where
  /-- Whether the set has a modifier. -/
  has : Modifier → Bool

namespace Modifiers

/-- The set without members. -/
def empty : Modifiers := ⟨fun _ => false⟩

/-- The members, in the order in which they are written. -/
def toList (s : Modifiers) : List Modifier := Modifier.all.filter s.has

/-- The set with a modifier added. -/
def insert (s : Modifiers) (m : Modifier) : Modifiers := ⟨fun n => n == m || s.has n⟩

/-- The set without a modifier. -/
def erase (s : Modifiers) (m : Modifier) : Modifiers := ⟨fun n => n != m && s.has n⟩

/-- The set with a modifier added if a condition holds. -/
def insertIf (s : Modifiers) (condition : Bool) (m : Modifier) : Modifiers :=
  if condition then s.insert m else s

/-- The set of the modifiers in a list. -/
def ofList (members : List Modifier) : Modifiers := ⟨fun m => members.contains m⟩

/-- Whether the set has no members. -/
def isEmpty (s : Modifiers) : Bool := s.toList.isEmpty

/-- Whether the set has none of the three access modifiers. -/
def isPackagePrivate (s : Modifiers) : Bool :=
  !(s.has .isPublic || s.has .isProtected || s.has .isPrivate)

/-- The words for the members, in order, with single spaces. -/
def display (s : Modifiers) : String := " ".intercalate (s.toList.map Modifier.keyword)

instance : BEq Modifiers := ⟨fun s t => s.toList == t.toList⟩

instance : Inhabited Modifiers := ⟨empty⟩

instance : Repr Modifiers := ⟨fun s _ => s.display⟩

end Modifiers

end ClassSketch
