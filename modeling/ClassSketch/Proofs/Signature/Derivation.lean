import ClassSketch.ClassFile.Signature

/-!
# Derivations of signatures

The grammar of generic signatures, as types of derivation trees. A tree has a text, which is what
the grammar derives, and a value, which is the type that the text stands for. Identifiers carry the
proof that they are not empty and stop where they have to, so that every tree is a derivation.

A list in a tree stands for a bracketed list that is left out when it is empty: the grammar has no
empty pair of brackets.

## Main definitions

* `RefTree`, `JavaTree`, `ClassTree` — derivations of types
* `FormalsTree` — derivations of formal type parameters
* `ClassForm`, `MethodForm` — derivations of the signatures of classes and methods; a field has
  that of a reference type
-/

namespace ClassSketch

namespace Signature

/-! ### Identifiers -/

/-- A non-empty run of characters none of which is among the given ones. -/
structure Identifier (ends : List Char) where
  chars : List Char
  chars_ne_nil : chars ≠ []
  not_mem_ends : ∀ c ∈ chars, c ∉ ends

/-- What ends the name of a type variable. -/
abbrev variableEnds : List Char := [';', '<', '>', '.', ':', '/', '[']

/-- What ends the path of a class. -/
abbrev pathEnds : List Char := ['<', '.', ';']

/-- What ends the simple name of an inner class. -/
abbrev innerEnds : List Char := ['<', '.', ';', '/']

/-- What ends the name of a type parameter. -/
abbrev formalEnds : List Char := [':', '>', ';', '<']

/-! ### Types -/

mutual

/-- A derivation of a reference type: a class, a variable, or `[` and the type of the elements. -/
inductive RefTree where
  | classType (type : ClassTree)
  | typeVariable (name : Identifier variableEnds)
  | array (element : JavaTree)

/-- A derivation of a type: one of the letters `BCDFIJSZ`, or a reference type. -/
inductive JavaTree where
  | base (type : {p : Primitive // p ≠ .void})
  | reference (type : RefTree)

/-- A derivation of a class type: `L`, a path, type arguments, inner classes and `;`. -/
inductive ClassTree where
  | mk (path : Identifier pathEnds) (arguments : List ArgumentTree) (inner : List InnerTree)

/-- A derivation of an inner class: `.`, a simple name and type arguments. -/
inductive InnerTree where
  | mk (name : Identifier innerEnds) (arguments : List ArgumentTree)

/-- A derivation of a type argument: `*`, or a reference type after `+`, after `-` or alone. -/
inductive ArgumentTree where
  | unbounded
  | upper (bound : RefTree)
  | lower (bound : RefTree)
  | exactly (type : RefTree)

end

/-- A text in the brackets of a list, which are left out if there is nothing between them. -/
def bracketed : List Char → List Char
  | [] => []
  | c :: s => '<' :: c :: s ++ ['>']

mutual

/-- The text of a reference type. -/
def RefTree.text : RefTree → List Char
  | .classType type => type.text
  | .typeVariable name => 'T' :: name.chars ++ [';']
  | .array element => '[' :: element.text

/-- The text of a type. -/
def JavaTree.text : JavaTree → List Char
  | .base type => [type.val.letter]
  | .reference type => type.text

/-- The text of a class type. -/
def ClassTree.text : ClassTree → List Char
  | .mk path arguments inner =>
    'L' :: path.chars ++ bracketed (ArgumentTree.texts arguments) ++ InnerTree.texts inner ++ [';']

/-- The text of an inner class. -/
def InnerTree.text : InnerTree → List Char
  | .mk name arguments => '.' :: name.chars ++ bracketed (ArgumentTree.texts arguments)

/-- The text of a type argument. -/
def ArgumentTree.text : ArgumentTree → List Char
  | .unbounded => ['*']
  | .upper bound => '+' :: bound.text
  | .lower bound => '-' :: bound.text
  | .exactly type => type.text

/-- The texts of inner classes one after the other. -/
def InnerTree.texts : List InnerTree → List Char
  | [] => []
  | i :: inner => i.text ++ InnerTree.texts inner

/-- The texts of type arguments one after the other. -/
def ArgumentTree.texts : List ArgumentTree → List Char
  | [] => []
  | a :: arguments => a.text ++ ArgumentTree.texts arguments

end

mutual

/-- The reference type that a derivation stands for. -/
def RefTree.value : RefTree → TypeRef
  | .classType type => type.value
  | .typeVariable name => .typeVariable (String.ofList name.chars)
  | .array element => .array element.value

/-- The type that a derivation stands for. -/
def JavaTree.value : JavaTree → TypeRef
  | .base type => .primitive type
  | .reference type => type.value

/-- The class type that a derivation stands for: the class of the path, with every inner class one
step further in, and the type arguments of the last of them. -/
def ClassTree.value : ClassTree → TypeRef
  | .mk path arguments inner =>
    let steps := InnerTree.values inner
    .classType
      ((steps.map Prod.fst).foldl ClassName.nested (.ofInternal (String.ofList path.chars)))
      ((steps.map Prod.snd).getLastD (ArgumentTree.values arguments))

/-- The simple name and the type arguments of an inner class. -/
def InnerTree.value : InnerTree → String × List TypeRef
  | .mk name arguments => (String.ofList name.chars, ArgumentTree.values arguments)

/-- The type argument that a derivation stands for. -/
def ArgumentTree.value : ArgumentTree → TypeRef
  | .unbounded => .wildcard .unbounded none
  | .upper bound => .wildcard .upper (some bound.value)
  | .lower bound => .wildcard .lower (some bound.value)
  | .exactly type => type.value

/-- The values of inner classes, in order. -/
def InnerTree.values : List InnerTree → List (String × List TypeRef)
  | [] => []
  | i :: inner => i.value :: InnerTree.values inner

/-- The values of type arguments, in order. -/
def ArgumentTree.values : List ArgumentTree → List TypeRef
  | [] => []
  | a :: arguments => a.value :: ArgumentTree.values arguments

end

/-- The inner names are written one after the other. -/
theorem InnerTree.texts_eq_flatMap (inner : List InnerTree) :
    InnerTree.texts inner = inner.flatMap InnerTree.text := by
  induction inner with
  | nil => rfl
  | cons i inner ih => simp [InnerTree.texts, ih]

theorem ArgumentTree.texts_eq_flatMap (arguments : List ArgumentTree) :
    ArgumentTree.texts arguments = arguments.flatMap ArgumentTree.text := by
  induction arguments with
  | nil => rfl
  | cons a arguments ih => simp [ArgumentTree.texts, ih]

theorem InnerTree.values_eq_map (inner : List InnerTree) :
    InnerTree.values inner = inner.map InnerTree.value := by
  induction inner with
  | nil => rfl
  | cons i inner ih => simp [InnerTree.values, ih]

/-- The arguments denote a list of types, one for each. -/
theorem ArgumentTree.values_eq_map (arguments : List ArgumentTree) :
    ArgumentTree.values arguments = arguments.map ArgumentTree.value := by
  induction arguments with
  | nil => rfl
  | cons a arguments ih => simp [ArgumentTree.values, ih]

/-! ### Formal type parameters -/

/-- A derivation of a type parameter: a name, `:`, a class bound that may be left out, and further
bounds, each after a `:`. -/
structure FormalTree where
  name : Identifier formalEnds
  classBound : Option RefTree
  otherBounds : List RefTree

namespace FormalTree

/-- The text of a bound after the class bound. -/
def boundText (bound : RefTree) : List Char := ':' :: bound.text

/-- The text of the bounds after the class bound. -/
def otherText (f : FormalTree) : List Char := f.otherBounds.flatMap boundText

/-- The text of a type parameter. -/
def text (f : FormalTree) : List Char :=
  f.name.chars ++ ':' :: (f.classBound.elim [] RefTree.text ++ f.otherText)

/-- The type parameter that a derivation stands for. -/
def value (f : FormalTree) : TypeParameter :=
  ⟨String.ofList f.name.chars, (f.classBound.toList ++ f.otherBounds).map RefTree.value⟩

/-- The class bound may only be left out where the next character is `:` or `>`, so that what
follows the parameter matters. -/
def Precedes (f : FormalTree) (rest : List Char) : Prop :=
  f.classBound = none → (f.otherText ++ rest).head? ∈ [some ':', some '>']

/-- Every parameter of a list may stand before the others and the bracket after them. -/
def Chained : List FormalTree → Prop
  | [] => True
  | f :: formals => f.Precedes (formals.flatMap text ++ ['>']) ∧ Chained formals

end FormalTree

/-- A derivation of a list of type parameters. -/
structure FormalsTree where
  formals : List FormalTree
  chained : FormalTree.Chained formals

namespace FormalsTree

/-- The text of a list of type parameters. -/
def text (t : FormalsTree) : List Char := bracketed (t.formals.flatMap FormalTree.text)

/-- The type parameters that a derivation stands for. -/
def value (t : FormalsTree) : List TypeParameter := t.formals.map FormalTree.value

end FormalsTree

/-! ### Classes and methods -/

/-- A derivation of a class signature: type parameters, the superclass and the interfaces. -/
structure ClassForm where
  formals : FormalsTree
  superclass : ClassTree
  interfaces : List ClassTree

namespace ClassForm

/-- The text of a class signature. -/
def text (t : ClassForm) : List Char :=
  t.formals.text ++ t.superclass.text ++ t.interfaces.flatMap ClassTree.text

/-- The class signature that a derivation stands for. -/
def value (t : ClassForm) : ClassSignature :=
  ⟨t.formals.value, t.superclass.value, t.interfaces.map ClassTree.value⟩

end ClassForm

/-- A derivation of a thrown type. -/
inductive ThrownTree where
  | typeVariable (name : Identifier variableEnds)
  | classType (type : ClassTree)

namespace ThrownTree

/-- The reference type that is thrown. -/
def type : ThrownTree → RefTree
  | typeVariable name => .typeVariable name
  | classType type => .classType type

/-- The text of a thrown type, with the mark before it. -/
def text (t : ThrownTree) : List Char := '^' :: t.type.text

end ThrownTree

/-- A derivation of a method signature: type parameters, parameters in parentheses, a result, which
is `V` if there is none, and thrown types. -/
structure MethodForm where
  formals : FormalsTree
  parameters : List JavaTree
  result : Option JavaTree
  thrown : List ThrownTree

namespace MethodForm

/-- The text of a method signature. -/
def text (t : MethodForm) : List Char :=
  t.formals.text ++ '(' :: t.parameters.flatMap JavaTree.text ++ ')' ::
    (t.result.elim ['V'] JavaTree.text ++ t.thrown.flatMap ThrownTree.text)

/-- The method signature that a derivation stands for. -/
def value (t : MethodForm) : MethodSignature :=
  ⟨t.formals.value, t.parameters.map JavaTree.value, t.result.elim .void JavaTree.value,
    t.thrown.map fun thrown => thrown.type.value⟩

end MethodForm

end Signature

end ClassSketch
