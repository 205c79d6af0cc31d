import ClassSketch.ClassFile.Basic
import ClassSketch.ClassFile.Descriptor
import ClassSketch.Decl.Literal

/-!
# Values of annotations and constants

## Main definitions

* `Literal.ofElement`: the literal of a constant with the tag of an annotation element
* `Literal.ofField`: the literal of the constant of a field
* `AnnotationValue.ofElement`, `Annotation.ofRaw`: annotations
-/

namespace ClassSketch

namespace Literal

/-- The character literal of the last sixteen bits of an integer. -/
def ofCode (code : Int32) : Literal := ofUnit code.toUInt32.toUInt16

/-- The literal of a constant with the tag of an annotation element. -/
def ofElement (tag : UInt8) (value : Constant) : Except ClassFile.Error Literal :=
  match Text.byteChar tag, value with
  | 's', .string text => .ok (.string text)
  | 'Z', .int n => .ok (.boolean (n != 0))
  | 'B', .int n => .ok (.byte n.toInt8)
  | 'S', .int n => .ok (.short n.toInt16)
  | 'C', .int n => .ok (ofCode n)
  | 'I', .int n => .ok (.int n)
  | 'J', .long n => .ok (.long n)
  | 'F', .float x => .ok (.float x)
  | 'D', .double x => .ok (.double x)
  | _, _ => .error (.constantMismatch (Text.byteChar tag))

/-- The letter that stands for a type in a mismatch. -/
def mismatchLetter : TypeRef → Char
  | .primitive p => p.letter
  | .array _ => '['
  | _ => 'L'

/-- The literal of an integer constant of a primitive type. -/
def ofInteger? (type : Primitive) (n : Int32) : Option Literal :=
  match type with
  | .boolean => some (.boolean (n != 0))
  | .byte => some (.byte n.toInt8)
  | .short => some (.short n.toInt16)
  | .char => some (ofCode n)
  | .int => some (.int n)
  | _ => none

/-- The literal of the constant of a field of the given type. -/
def ofField (type : TypeRef) (value : Constant) : Except ClassFile.Error Literal :=
  let literal : Option Literal := match type, value with
    | .primitive p, .int n => ofInteger? p n
    | .primitive .long, .long n => some (.long n)
    | .primitive .float, .float x => some (.float x)
    | .primitive .double, .double x => some (.double x)
    | .classType _ _, .string text => some (.string text)
    | _, _ => none
  match literal with
  | some l => .ok l
  | none => .error (.constantMismatch (mismatchLetter type))

end Literal

/-- Entries written one after the other. -/
def writeEntries {α : Type} (entries : List (String × α)) : List (String × α) :=
  entries.foldl (fun done (name, value) => putEntry name value done) []

namespace AnnotationValue

mutual

/-- The value of an annotation element. -/
def ofElement : Element → Except ClassFile.Error AnnotationValue
  | .constant tag value => do return literal (← Literal.ofElement tag value)
  | .enumConstant type name => do return enumConstant (← Descriptor.className type) name
  | .classLiteral descriptor => do return classRef (← Descriptor.returnType descriptor)
  | .nested type elements => do
    let class_ ← Descriptor.className type
    return nested class_ (writeEntries (← ofElements elements))
  | .array items => do return array (← ofItems items)

/-- The values of the items of an array. -/
def ofItems : List Element → Except ClassFile.Error (List AnnotationValue)
  | [] => .ok []
  | item :: items => do
    let value ← ofElement item
    return value :: (← ofItems items)

/-- The values of the elements of an annotation. -/
def ofElements :
    List (String × Element) → Except ClassFile.Error (List (String × AnnotationValue))
  | [] => .ok []
  | (name, element) :: elements => do
    let value ← ofElement element
    return (name, value) :: (← ofElements elements)

end

end AnnotationValue

/-- The class of an annotation. -/
def RawAnnotation.className (a : RawAnnotation) : Except ClassFile.Error ClassName :=
  Descriptor.className a.type

/-- An annotation with its values. An element that is given again keeps its place and has the later
value. -/
def Annotation.ofRaw (a : RawAnnotation) : Except ClassFile.Error Annotation := do
  let type ← a.className
  return ⟨type, writeEntries (← AnnotationValue.ofElements a.elements)⟩

end ClassSketch
