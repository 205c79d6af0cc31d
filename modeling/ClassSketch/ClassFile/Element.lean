import ClassSketch.ClassFile.ConstantPool

/-!
# Annotations in class files

## Main definitions

* `Element`, `RawAnnotation`: an annotation as it is stored
* `RawAnnotation.read`, `Element.read`: reading them
* `RawAnnotation.element?`: the first element with a name

## Implementation notes

An element takes at least its tag, so elements are nested no deeper than there are bytes. The
number of bytes bounds the recursion; where it is used up there is nothing left to read.
-/

namespace ClassSketch

/-- The value of an annotation element, as stored. The tag of a constant is kept because several
types share the storage of integers. -/
inductive Element where
  | constant (tag : UInt8) (value : Constant)
  | enumConstant (type name : String)
  | classLiteral (descriptor : String)
  | nested (type : String) (elements : List (String × Element))
  | array (items : List Element)
  deriving Repr, BEq, Inhabited

/-- An annotation as stored: the descriptor of its type, and its elements. -/
structure RawAnnotation where
  type : String
  elements : List (String × Element)
  deriving Repr, BEq, Inhabited

/-- The first element with the given name. -/
def RawAnnotation.element? (a : RawAnnotation) (name : String) : Option Element :=
  (a.elements.find? fun element => element.1 == name).map Prod.snd

namespace Element

/-- Whether a tag introduces a constant. -/
def isConstantTag (tag : Char) : Bool :=
  ['B', 'C', 'D', 'F', 'I', 'J', 'S', 'Z', 's'].contains tag

/-- Reads the constant of an element with the given tag. -/
def readConstant (pool : ConstantPool) (tag : UInt8) : Reader Element := do
  let index ← Reader.u2
  if Text.byteChar tag = 's' then return .constant tag (.string (← pool.utf8 index))
  else return .constant tag (← pool.constant index)

end Element

namespace RawAnnotation

/-- Reads an annotation, given how to read the value of an element. Its type is looked up after its
elements. -/
def readWith (pool : ConstantPool) (element : Reader Element) : Reader RawAnnotation := do
  let type ← Reader.u2
  let count ← Reader.u2
  let elements ← Reader.times (do
    let name ← pool.utf8 (← Reader.u2)
    return (name, ← element)) count.toNat
  return ⟨← pool.utf8 type, elements⟩

end RawAnnotation

namespace Element

/-- Reads an element with at most `depth` levels. -/
def readWithin (pool : ConstantPool) : Nat → Reader Element
  | 0 => throw .unexpectedEnd
  | depth + 1 => do
    let tag ← Reader.u1
    let letter := Text.byteChar tag
    if isConstantTag letter then readConstant pool tag
    else if letter = 'e' then
      let type ← Reader.u2
      let name ← Reader.u2
      return .enumConstant (← pool.utf8 type) (← pool.utf8 name)
    else if letter = 'c' then return .classLiteral (← pool.utf8 (← Reader.u2))
    else if letter = '@' then
      let a ← RawAnnotation.readWith pool (readWithin pool depth)
      return .nested a.type a.elements
    else if letter = '[' then
      let count ← Reader.u2
      return .array (← Reader.times (readWithin pool depth) count.toNat)
    else throw (.invalidElementTag tag)

/-- Reads an element. -/
def read (pool : ConstantPool) : Reader Element := fun s => readWithin pool s.length s

end Element

namespace RawAnnotation

/-- Reads an annotation. -/
def read (pool : ConstantPool) : Reader RawAnnotation := readWith pool (Element.read pool)

/-- Reads a list of annotations. -/
def readAll (pool : ConstantPool) : Reader (List RawAnnotation) := do
  let count ← Reader.u2
  Reader.times (read pool) count.toNat

/-- Reads the lists of annotations of parameters. -/
def readParameters (pool : ConstantPool) : Reader (List (List RawAnnotation)) := do
  let count ← Reader.u1
  Reader.times (readAll pool) count.toNat

end RawAnnotation

end ClassSketch
