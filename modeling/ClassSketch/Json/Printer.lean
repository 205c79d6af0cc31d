import ClassSketch.Json.Basic
import ClassSketch.Text.Hex

/-!
# JSON text

A value is written either on one line without spaces or over several lines, where each level is
indented by two spaces and an empty array or object stays on its line.

## Main definitions

* `Json.quote`: a string in quotes
* `Json.compact`: the text on one line
* `Json.pretty`: the indented text
-/

namespace ClassSketch

namespace Json

/-- A character as it stands in a quoted string. -/
def escape (c : Char) : List Char :=
  if c = '"' then ['\\', '"']
  else if c = '\\' then ['\\', '\\']
  else if c = '\x08' then ['\\', 'b']
  else if c = '\t' then ['\\', 't']
  else if c = '\n' then ['\\', 'n']
  else if c = '\x0c' then ['\\', 'f']
  else if c = '\r' then ['\\', 'r']
  else if c.toNat < 0x20 then ['\\', 'u', '0', '0', Text.hexDigit (c.toNat / 16),
    Text.hexDigit c.toNat]
  else [c]

/-- The string in quotes. -/
def quote (s : String) : String := String.ofList ('"' :: s.toList.flatMap escape ++ ['"'])

mutual

/-- The text of a value on one line. -/
def compact : Json → String
  | null => "null"
  | bool true => "true"
  | bool false => "false"
  | int n => toString n
  | real lexeme => lexeme
  | str s => quote s
  | arr items => "[" ++ String.intercalate "," (compactItems items) ++ "]"
  | obj entries => "\x7b" ++ String.intercalate "," (compactEntries entries) ++ "\x7d"

/-- The texts of the items. -/
def compactItems : List Json → List String
  | [] => []
  | item :: items => item.compact :: compactItems items

/-- The texts of the entries. -/
def compactEntries : List (String × Json) → List String
  | [] => []
  | (name, value) :: entries => (quote name ++ ":" ++ value.compact) :: compactEntries entries

end

/-- A line end followed by the indentation of a level. -/
def newline (level : Nat) : String := String.ofList ('\n' :: List.replicate (2 * level) ' ')

/-- The texts of the parts of a value, one to a line between brackets. -/
def block (opening closing : String) (level : Nat) (parts : List String) : String :=
  if parts.isEmpty then opening ++ closing
  else
    opening ++ newline (level + 1) ++ String.intercalate ("," ++ newline (level + 1)) parts ++
      newline level ++ closing

mutual

/-- The indented text of a value that starts on a line of the given level. -/
def prettyAt (level : Nat) : Json → String
  | arr items => block "[" "]" level (prettyItems (level + 1) items)
  | obj entries => block "\x7b" "\x7d" level (prettyEntries (level + 1) entries)
  | null => "null"
  | bool true => "true"
  | bool false => "false"
  | int n => toString n
  | real lexeme => lexeme
  | str s => quote s

/-- The indented texts of the items. -/
def prettyItems (level : Nat) : List Json → List String
  | [] => []
  | item :: items => item.prettyAt level :: prettyItems level items

/-- The indented texts of the entries. -/
def prettyEntries (level : Nat) : List (String × Json) → List String
  | [] => []
  | (name, value) :: entries =>
    (quote name ++ ": " ++ value.prettyAt level) :: prettyEntries level entries

end

/-- The indented text of a value. -/
def pretty (j : Json) : String := j.prettyAt 0

end Json

end ClassSketch
