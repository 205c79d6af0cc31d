import ClassSketch.ClassFile.Error
import ClassSketch.Decl.TypeRef

/-!
# Descriptors

Erased types as class files spell them: `I`, `[Ljava/lang/String;`, `(IJ)V`.

## Main definitions

* `Descriptor.type`: a type at the head of a text
* `Descriptor.fieldType`, `Descriptor.returnType`, `MethodDescriptor.ofText`: whole descriptors
* `MethodDescriptor.slots`: the local variable slots of the parameters
-/

namespace ClassSketch

namespace Descriptor

/-- Reads a class name up to its semicolon. -/
def reference (s : List Char) : Except DescriptorFault (TypeRef × List Char) :=
  match Text.cutFirst (· == ';') s with
  | none => .error .unterminatedReference
  | some ([], _) => .error .emptyClassName
  | some (name, rest) => .ok (.ofClass (.ofInternal (String.ofList name)), rest)

/-- Reads a type other than `void`. -/
def type : List Char → Except DescriptorFault (TypeRef × List Char)
  | [] => .error .unexpectedEnd
  | c :: s =>
    if c = 'L' then reference s
    else if c = '[' then (type s).map fun (element, rest) => (.array element, rest)
    else if c = 'V' then .error .misplacedVoid
    else
      match Primitive.ofLetter? c with
      | some p => .ok (.primitive p, s)
      | none => .error (.unexpectedTag c)

/-- Gives up with a fault in the given text. -/
def located {α : Type} (text : String) (r : Except DescriptorFault α) : Except ClassFile.Error α :=
  r.mapError (.invalidDescriptor text)

/-- The value, if no text is left after it. -/
def complete {α : Type} : α × List Char → Except DescriptorFault α
  | (x, []) => .ok x
  | (_, _ :: _) => .error .leftover

/-- The type that a field descriptor names. -/
def fieldType (text : String) : Except ClassFile.Error TypeRef :=
  located text (type text.toList >>= complete)

/-- The type that a descriptor of a class literal names, which may be `void`. -/
def returnType (text : String) : Except ClassFile.Error TypeRef :=
  if text = "V" then .ok .void else fieldType text

/-- The class that a field descriptor names. -/
def className (text : String) : Except ClassFile.Error ClassName := do
  match ← fieldType text with
  | .classType name _ => return name
  | _ => throw (.invalidDescriptor text .notAClass)

end Descriptor

/-- The types of a method after erasure. -/
structure MethodDescriptor where
  parameters : List TypeRef
  result : TypeRef
  deriving Repr, BEq

namespace MethodDescriptor

/-- The local variable slots that each parameter takes. -/
def slots (d : MethodDescriptor) : List Nat := d.parameters.map TypeRef.slots

/-- Reads at most `fuel` parameter types and the closing parenthesis. -/
def parametersWithin :
    Nat → List Char → Except DescriptorFault (List TypeRef × List Char)
  | _, [] => .error .unexpectedEnd
  | 0, _ :: _ => .error .unexpectedEnd
  | fuel + 1, c :: s =>
    if c = ')' then .ok ([], s)
    else do
      let (first, rest) ← Descriptor.type (c :: s)
      let (others, rest) ← parametersWithin fuel rest
      return (first :: others, rest)

/-- Reads a type or `void`. -/
def resultType : List Char → Except DescriptorFault (TypeRef × List Char)
  | 'V' :: s => .ok (.void, s)
  | s => Descriptor.type s

/-- Reads a whole method descriptor. -/
def parse : List Char → Except DescriptorFault MethodDescriptor
  | [] => .error .unexpectedEnd
  | c :: s =>
    if c = '(' then do
      let (parameters, rest) ← parametersWithin s.length s
      let (result, rest) ← resultType rest
      Descriptor.complete (⟨parameters, result⟩, rest)
    else .error (.expected '(')

/-- The method descriptor with the given text. -/
def ofText (text : String) : Except ClassFile.Error MethodDescriptor :=
  Descriptor.located text (parse text.toList)

end MethodDescriptor

end ClassSketch
