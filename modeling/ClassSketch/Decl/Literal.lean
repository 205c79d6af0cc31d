import ClassSketch.Decimal.Binary
import ClassSketch.Decl.TypeRef
import ClassSketch.Entries
import ClassSketch.Text.Blank
import ClassSketch.Text.Utf16

/-!
# Literals and annotations

## Main definitions

* `Literal`: a constant as it is written in a declaration
* `Literal.ofUnit`, `escapeChar`: character literals
* `Annotation`, `AnnotationValue`: an annotation with its values, in the order of the class file
-/

namespace ClassSketch

/-- A constant as it is written in a declaration. -/
inductive Literal where
  | string (value : String)
  | boolean (value : Bool)
  | byte (value : Int8)
  /-- A character, with the body of its literal in source text. -/
  | char (value : Char) (escaped : String)
  | short (value : Int16)
  | int (value : Int32)
  | long (value : Int64)
  | float (value : Binary32)
  | double (value : Binary64)
  deriving Repr, DecidableEq, BEq, Inhabited

/-- The digits of a unicode escape, four at least. -/
def unicodeDigits (n : Nat) : List Char :=
  let digits := Nat.toDigits 16 n
  List.replicate (4 - digits.length) '0' ++ digits

/-- The body of a character literal: named escapes, a unicode escape for other control characters,
and any other character as it is. -/
def escapeChar (c : Char) : List Char :=
  if c = '\x08' then ['\\', 'b']
  else if c = '\t' then ['\\', 't']
  else if c = '\n' then ['\\', 'n']
  else if c = '\x0c' then ['\\', 'f']
  else if c = '\r' then ['\\', 'r']
  else if c = '\'' then ['\\', '\'']
  else if c = '\\' then ['\\', '\\']
  else if Text.isControl c then '\\' :: 'u' :: unicodeDigits c.toNat
  else [c]

/-- The character literal of a UTF-16 unit. A surrogate is no character; its literal is a unicode
escape, and the replacement character stands for it. -/
def Literal.ofUnit (u : UInt16) : Literal :=
  if Text.isHighUnit u || Text.isLowUnit u then
    .char Text.replacement (String.ofList ('\\' :: 'u' :: unicodeDigits u.toNat))
  else .char (Text.unitChar u) (String.ofList (escapeChar (Text.unitChar u)))

/-- The value of an annotation element. An annotation value holds the annotation's class and its
entries. -/
inductive AnnotationValue where
  | literal (value : Literal)
  | enumConstant (type : ClassName) (constant : String)
  | classRef (type : TypeRef)
  | nested (type : ClassName) (entries : List (String × AnnotationValue))
  | array (items : List AnnotationValue)
  deriving Repr, BEq, Inhabited

/-- The text of a string literal. -/
def AnnotationValue.asString? : AnnotationValue → Option String
  | literal (.string s) => some s
  | _ => none

/-- An annotation in use: its class, and one entry for each element it gives. -/
structure Annotation where
  type : ClassName
  entries : List (String × AnnotationValue)
  deriving Repr, BEq, Inhabited

/-- The value that an annotation gives to an element. -/
def Annotation.get? (a : Annotation) (name : String) : Option AnnotationValue :=
  valueOf? name a.entries

end ClassSketch
