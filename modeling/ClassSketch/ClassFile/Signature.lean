import ClassSketch.Decl.TypeRef
import ClassSketch.Text.Utf8

/-!
# Generic signatures

```
field   Ref
class   Formals? Class Class*
method  Formals? '(' Java* ')' ('V' | Java) ('^' (Variable | Class))*
Formals '<' (id ':' Ref? (':' Ref)*)+ '>'
Ref     Class | Variable | '[' Java
Java    one of BCDFIJSZ | Ref
Class   'L' id Arguments? ('.' id Arguments?)* ';'
Variable 'T' id ';'
Arguments '<' ('*' | '+' Ref | '-' Ref | Ref)+ '>'
```

A parser takes characters off the front of a text. Where it stops without success it names the fault
and the text it could not read, from which the position follows.

## Main definitions

* `SignatureFault`, `SignatureError`: what is wrong with a signature, and where
* `Signature.referenceType`, `Signature.classType`: the types of the grammar
* `Signature.field`, `ClassSignature.ofText`, `MethodSignature.ofText`: the three forms

## Implementation notes

A type inside another one starts after the first character of that one, so the length of the text
bounds how deep types are nested. The same holds for repetitions, whose items are never empty.
-/

namespace ClassSketch

/-- What is wrong with a signature. -/
inductive SignatureFault where
  | expected (wanted : Char) (found : Option Char)
  | expectedType (found : Option Char)
  | expectedIdentifier
  | unterminatedIdentifier
  | trailing
  | unterminatedParameters
  | emptyParameters
  | unterminatedArguments
  | emptyArguments
  deriving Repr, DecidableEq, BEq

namespace SignatureFault

/-- How what was found is called. -/
def foundText : Option Char → String
  | some c => "'" ++ String.singleton (Text.leadChar c) ++ "'"
  | none => "end"

/-- The description of the fault. -/
def message : SignatureFault → String
  | expected wanted found =>
    "expected '" ++ String.singleton wanted ++ "', found " ++ foundText found
  | expectedType found => "expected reference type, found " ++ foundText found
  | expectedIdentifier => "expected identifier"
  | unterminatedIdentifier => "unterminated identifier"
  | trailing => "trailing characters"
  | unterminatedParameters => "unterminated type parameters"
  | emptyParameters => "empty type parameter list"
  | unterminatedArguments => "unterminated type arguments"
  | emptyArguments => "empty type argument list"

end SignatureFault

/-- What is wrong with a signature, and how many bytes stand before that place. -/
structure SignatureError where
  text : String
  position : Nat
  fault : SignatureFault
  deriving Repr, DecidableEq, BEq

/-- The description of the error. -/
def SignatureError.message (e : SignatureError) : String :=
  "malformed signature `" ++ e.text ++ "` at offset " ++ toString e.position ++ ": " ++
    e.fault.message

namespace Signature

/-- Where a parser stopped: the fault, and the text it did not read. -/
structure Stop where
  fault : SignatureFault
  rest : List Char
  deriving Repr, DecidableEq, BEq

/-- A computation that takes characters off the front of a text. -/
abbrev Parser := StateT (List Char) (Except Stop)

/-- Stops here with a fault. -/
def stop {α : Type} (fault : SignatureFault) : Parser α := fun s => .error ⟨fault, s⟩

/-- Whether the text starts with a character. -/
def starts (c : Char) (s : List Char) : Bool := s.head? == some c

/-- Reads the given character. -/
def expect (wanted : Char) : Parser Unit := fun s =>
  match s with
  | c :: rest => if c = wanted then .ok ((), rest) else .error ⟨.expected wanted (some c), s⟩
  | [] => .error ⟨.expected wanted none, s⟩

/-- Reads a non-empty identifier up to one of the given characters, which must follow. -/
def identifier (ends : List Char) : Parser String := fun s =>
  let name := s.takeWhile fun c => !ends.contains c
  let rest := s.dropWhile fun c => !ends.contains c
  if name.isEmpty then .error ⟨.expectedIdentifier, s⟩
  else if rest.isEmpty then .error ⟨.unterminatedIdentifier, rest⟩
  else .ok (String.ofList name, rest)

/-- Reads items as long as the text satisfies a condition, at most `fuel` of them. -/
def repeatWithin {α : Type} (more : List Char → Bool) (item : Parser α) : Nat → Parser (List α)
  | 0 => pure []
  | fuel + 1 => do
    if more (← get) then
      let x ← item
      return x :: (← repeatWithin more item fuel)
    else return []

/-- Reads items as long as the text satisfies a condition. -/
def repeatWhile {α : Type} (more : List Char → Bool) (item : Parser α) : Parser (List α) :=
  fun s => repeatWithin more item (s.length + 1) s

/-- Reads a type variable. -/
def variableType : Parser TypeRef := do
  expect 'T'
  let name ← identifier [';', '<', '>', '.', ':', '/', '[']
  expect ';'
  return .typeVariable name

/-- The primitive type with the given letter; `void` is none here. -/
def baseType? (c : Char) : Option Primitive := (Primitive.ofLetter? c).filter (· != .void)

section Types

variable (type : Parser TypeRef)

/-- Reads a primitive type or what `type` reads. -/
def javaType : Parser TypeRef := fun s =>
  match s with
  | c :: rest =>
    match baseType? c with
    | some p => .ok (.primitive p, rest)
    | none => type s
  | [] => type s

/-- Reads a type argument. -/
def argument : Parser TypeRef := fun s =>
  match s with
  | '*' :: rest => .ok (.wildcard .unbounded none, rest)
  | '+' :: rest => (type rest).map fun (bound, rest) => (.wildcard .upper (some bound), rest)
  | '-' :: rest => (type rest).map fun (bound, rest) => (.wildcard .lower (some bound), rest)
  | [] => .error ⟨.unterminatedArguments, s⟩
  | _ => type s

/-- Reads a list of type arguments, which may be missing but not empty. -/
def arguments : Parser (List TypeRef) := do
  if starts '<' (← get) then
    expect '<'
    let items ← repeatWhile (fun s => !starts '>' s) (argument type)
    expect '>'
    if items.isEmpty then stop .emptyArguments
    return items
  else return []

/-- Reads the simple name and the type arguments of an inner class after its point. -/
def innerClass : Parser (String × List TypeRef) := do
  expect '.'
  let name ← identifier ['<', '.', ';', '/']
  return (name, ← arguments type)

/-- Reads a class type. Only the arguments of the innermost class are kept. -/
def classType : Parser TypeRef := do
  expect 'L'
  let path ← identifier ['<', '.', ';']
  let outer ← arguments type
  let inner ← repeatWhile (starts '.') (innerClass type)
  expect ';'
  let name := inner.foldl (fun name (simple, _) => name.nested simple) (ClassName.ofInternal path)
  return .classType name (inner.foldl (fun _ (_, args) => args) outer)

end Types

/-- Reads a reference type nested at most `depth` levels deep. -/
def typeWithin : Nat → Parser TypeRef
  | 0 => stop (.expectedType none)
  | depth + 1 => fun s =>
    match s with
    | 'L' :: _ => classType (typeWithin depth) s
    | 'T' :: _ => variableType s
    | '[' :: rest => (javaType (typeWithin depth) rest).map fun (e, rest) => (.array e, rest)
    | c :: _ => .error ⟨.expectedType (some c), s⟩
    | [] => .error ⟨.expectedType none, s⟩

/-- Reads a reference type. -/
def referenceType : Parser TypeRef := fun s => typeWithin s.length s

/-- Reads the class bound of a type parameter, which may be missing before another bound or the end
of the list. -/
def classBound : Parser (List TypeRef) := do
  let s ← get
  if starts ':' s || starts '>' s then return [] else return [← referenceType]

/-- Reads a type parameter with its bounds. -/
def formal : Parser TypeParameter := do
  let name ← identifier [':', '>', ';', '<']
  expect ':'
  let first ← classBound
  let others ← repeatWhile (starts ':') (do expect ':'; referenceType)
  if (← get).isEmpty then stop .unterminatedParameters
  return ⟨name, first ++ others⟩

/-- Reads a list of type parameters, which may be missing but not empty. -/
def formals : Parser (List TypeParameter) := do
  if starts '<' (← get) then
    expect '<'
    let items ← repeatWhile (fun s => !starts '>' s) formal
    expect '>'
    if items.isEmpty then stop .emptyParameters
    return items
  else return []

/-- Reads a thrown type after its mark. -/
def thrownType : Parser TypeRef := do
  expect '^'
  if starts 'T' (← get) then variableType else classType referenceType

/-- Stops unless the whole text is read. -/
def finish : Parser Unit := do
  if !(← get).isEmpty then stop .trailing

/-- The value that a parser reads from a whole text. -/
def run {α : Type} (parser : Parser α) (text : String) : Except SignatureError α :=
  match parser text.toList with
  | .ok (x, _) => .ok x
  | .error e =>
    .error ⟨text, Text.utf8Length text.toList - Text.utf8Length e.rest, e.fault⟩

/-- The type of a field signature. -/
def field (text : String) : Except SignatureError TypeRef :=
  run (do let type ← referenceType; finish; return type) text

end Signature

/-- The generic supertypes of a class. -/
structure ClassSignature where
  typeParameters : List TypeParameter
  superclass : TypeRef
  interfaces : List TypeRef
  deriving Repr, BEq

/-- The generic types of a method. -/
structure MethodSignature where
  typeParameters : List TypeParameter
  parameters : List TypeRef
  result : TypeRef
  thrown : List TypeRef
  deriving Repr, BEq

namespace ClassSignature

open Signature

/-- Reads a class signature. -/
def parser : Parser ClassSignature := do
  let typeParameters ← formals
  let superclass ← classType referenceType
  let interfaces ← repeatWhile (fun s => !s.isEmpty) (classType referenceType)
  return ⟨typeParameters, superclass, interfaces⟩

/-- The class signature with the given text. -/
def ofText (text : String) : Except SignatureError ClassSignature := run parser text

end ClassSignature

namespace MethodSignature

open Signature

/-- Reads the result of a method. -/
def resultType : Parser TypeRef := do
  if starts 'V' (← get) then
    expect 'V'
    return .void
  else javaType referenceType

/-- Reads a method signature. -/
def parser : Parser MethodSignature := do
  let typeParameters ← formals
  expect '('
  let parameters ← repeatWhile (fun s => !starts ')' s) (javaType referenceType)
  expect ')'
  let result ← resultType
  let thrown ← repeatWhile (starts '^') thrownType
  finish
  return ⟨typeParameters, parameters, result, thrown⟩

/-- The method signature with the given text. -/
def ofText (text : String) : Except SignatureError MethodSignature := run parser text

end MethodSignature

end ClassSketch
