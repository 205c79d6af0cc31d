import ClassSketch.Text.Lines

/-!
# Class names

A class is named by its package and the chain of simple names from the outermost class inwards.
Source text, the running machine and class files spell such a name in three ways: `p.Outer.Inner`,
`p.Outer$Inner` and `p/Outer$Inner`.

## Main definitions

* `ClassName`: package and nesting chain
* `ClassName.canonical`, `ClassName.binary`, `ClassName.internal`: the three spellings
* `ClassName.ofInternal`, `ClassName.ofBinary`: a name from a spelling
* `ClassName.nested`, `ClassName.enclosing`: one step into and out of a class
-/

namespace ClassSketch

/-- The name of a class: its package, and the simple names from the outermost class inwards. -/
structure ClassName where
  package : String
  simpleNames : List String
  deriving Repr, DecidableEq, BEq, Inhabited

/-- The text with every `old` replaced by `new`. -/
def replaceChar (old new : Char) (s : String) : String :=
  s.map fun c => if c = old then new else c

namespace ClassName

/-- A class in a package that is not nested. -/
def topLevel (package simpleName : String) : ClassName := ⟨package, [simpleName]⟩

/-- The root of the class hierarchy. -/
def object : ClassName := topLevel "java.lang" "Object"

/-- The innermost simple name. -/
def simpleName (c : ClassName) : String := c.simpleNames.getLastD ""

/-- Whether the class is a member of another one. -/
def isNested (c : ClassName) : Bool := 1 < c.simpleNames.length

/-- The class directly around a nested class. -/
def enclosing (c : ClassName) : Option ClassName :=
  if c.isNested then some ⟨c.package, c.simpleNames.dropLast⟩ else none

/-- The member class of the given simple name. -/
def nested (c : ClassName) (simpleName : String) : ClassName :=
  ⟨c.package, c.simpleNames ++ [simpleName]⟩

/-- The spelling with `nesting` between simple names. -/
def spelled (c : ClassName) (nesting : String) : String :=
  (if c.package.isEmpty then "" else c.package ++ ".") ++ nesting.intercalate c.simpleNames

/-- The name in source text, as in `p.Outer.Inner`. -/
def canonical (c : ClassName) : String := c.spelled "."

/-- The name in a running machine, as in `p.Outer$Inner`. -/
def binary (c : ClassName) : String := c.spelled "$"

/-- The name in class files, as in `p/Outer$Inner`. -/
def internal (c : ClassName) : String := replaceChar '.' '/' c.binary

/-- The nesting chain of a class-file name without its package. A dollar sign separates simple
names only if none of them is empty; otherwise the whole is one simple name. -/
def nestingChain (simple : List Char) : List (List Char) :=
  let parts := Text.splitOn '$' simple
  if parts.all fun part => !part.isEmpty then parts else [simple]

/-- The class with the given class-file name. -/
def ofInternal (name : String) : ClassName :=
  let (package, simple) := match Text.cutLast '/' name.toList with
    | some (package, simple) => (replaceChar '/' '.' (String.ofList package), simple)
    | none => ("", name.toList)
  ⟨package, (nestingChain simple).map String.ofList⟩

/-- The class with the given name in a running machine. -/
def ofBinary (name : String) : ClassName := ofInternal (replaceChar '.' '/' name)

end ClassName

end ClassSketch
