import ClassSketch.Json.Number
import ClassSketch.Text.Hex
import ClassSketch.Text.Utf16

/-!
# Reading JSON text

## Main definitions

* `Json.stringBody?`: the rest of a quoted string
* `Json.valueWithin`: a value at the head of a text
* `Json.parse?`: the value a whole text stands for

## Implementation notes

Every step of `valueWithin` takes a character, so a budget of twice the length of the text, two
steps for each character, is never used up.
-/

namespace ClassSketch

namespace Json

/-- The characters allowed between the parts of a JSON text. -/
def isSpace (c : Char) : Bool := c = ' ' ∨ c = '\n' ∨ c = '\t' ∨ c = '\r'

/-- The text without leading space. -/
def skipSpace (s : List Char) : List Char := s.dropWhile isSpace

/-- The character that a letter after a backslash stands for. -/
def shortEscape? (c : Char) : Option Char :=
  if c = '"' ∨ c = '\\' ∨ c = '/' then some c
  else if c = 'b' then some '\x08'
  else if c = 'f' then some '\x0c'
  else if c = 'n' then some '\n'
  else if c = 'r' then some '\r'
  else if c = 't' then some '\t'
  else none

/-- Reads a string after its opening quote. -/
def stringBody? : List Char → Option (List Char × List Char)
  | [] => none
  | '"' :: s => some ([], s)
  | '\\' :: 'u' :: a :: b :: c :: d :: s => do
    let unit ← Text.hexUnit? a b c d
    if Text.isHighUnit unit then
      match s with
      | '\\' :: 'u' :: a :: b :: c :: d :: s => do
        let low ← Text.hexUnit? a b c d
        if Text.isLowUnit low then
          let (chars, rest) ← stringBody? s
          return (Text.pairChar unit low :: chars, rest)
        else none
      | _ => none
    else if Text.isLowUnit unit then none
    else
      let (chars, rest) ← stringBody? s
      return (Text.unitChar unit :: chars, rest)
  | '\\' :: c :: s => do
    let escaped ← shortEscape? c
    let (chars, rest) ← stringBody? s
    return (escaped :: chars, rest)
  | c :: s =>
    if c.toNat < 0x20 then none
    else do
      let (chars, rest) ← stringBody? s
      return (c :: chars, rest)

/-- Reads a number, which stays as written unless it is an integer of 64 bits. -/
def number? (s : List Char) : Option (Json × List Char) := do
  let (n, rest) ← numeral? s
  match n.toInt? with
  | some value => return (int value, rest)
  | none =>
    let _ ← n.toBinary64?
    return (real (String.ofList (s.take (s.length - rest.length))), rest)

/-- Drops a given word from the head of a text. -/
def word? (word : String) (s : List Char) : Option (List Char) :=
  if word.toList.isPrefixOf s then some (s.drop word.length) else none

mutual

/-- Reads a value at the head of a text, in at most `fuel` steps. -/
def valueWithin : Nat → List Char → Option (Json × List Char)
  | 0, _ => none
  | fuel + 1, s =>
    match skipSpace s with
    | '"' :: s => (stringBody? s).map fun (chars, rest) => (str (String.ofList chars), rest)
    | '[' :: s =>
      match skipSpace s with
      | ']' :: s => some (arr [], s)
      | s => (itemsWithin fuel s).map fun (items, rest) => (arr items, rest)
    | '\x7b' :: s =>
      match skipSpace s with
      | '\x7d' :: s => some (obj [], s)
      | s => (entriesWithin fuel s).map fun (entries, rest) => (obj entries, rest)
    | 'n' :: s => (word? "ull" s).map fun rest => (null, rest)
    | 't' :: s => (word? "rue" s).map fun rest => (bool true, rest)
    | 'f' :: s => (word? "alse" s).map fun rest => (bool false, rest)
    | s => number? s

/-- Reads the items of an array and its closing bracket. -/
def itemsWithin : Nat → List Char → Option (List Json × List Char)
  | 0, _ => none
  | fuel + 1, s => do
    let (item, s) ← valueWithin fuel s
    match skipSpace s with
    | ']' :: s => return ([item], s)
    | ',' :: s => do
      let (items, s) ← itemsWithin fuel s
      return (item :: items, s)
    | _ => none

/-- Reads the entries of an object and its closing brace. -/
def entriesWithin : Nat → List Char → Option (List (String × Json) × List Char)
  | 0, _ => none
  | fuel + 1, s =>
    match skipSpace s with
    | '"' :: s => do
      let (name, s) ← stringBody? s
      match skipSpace s with
      | ':' :: s => do
        let (value, s) ← valueWithin fuel s
        match skipSpace s with
        | '\x7d' :: s => return ([(String.ofList name, value)], s)
        | ',' :: s => do
          let (entries, s) ← entriesWithin fuel s
          return ((String.ofList name, value) :: entries, s)
        | _ => none
      | _ => none
    | _ => none

end

/-- The value that a text stands for. -/
def parse? (text : String) : Option Json := do
  let s := text.toList
  let (value, rest) ← valueWithin (2 * s.length + 2) s
  if (skipSpace rest).isEmpty then some value else none

end Json

end ClassSketch
