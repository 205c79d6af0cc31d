import ClassSketch.Doc.MemberKey
import ClassSketch.Entries
import ClassSketch.Text.Hex
import ClassSketch.Text.Lines
import ClassSketch.Text.Utf16

/-!
# Property files

A property file has one entry on each logical line. A logical line is a line with those joined to it
by a backslash at their ends; blank lines and comments are left out. Key and value are separated by
an equals sign, a colon or blanks, and backslashes escape single characters and UTF-16 units.

## Main definitions

* `Properties`: the entries of a file, in order
* `Properties.logicalLines`: the logical lines of a text
* `Properties.splitEntry`: key and value of a logical line, still escaped
* `Properties.unescape?`: the text an escaped text stands for
* `Properties.parse`: the entries of a text
-/

namespace ClassSketch

/-- The entries of a property file, in order. -/
structure Properties where
  entries : List (String × String)
  deriving Repr, DecidableEq, BEq

/-- What is wrong with a property file: an escape of a unit on the logical line that starts on the
given line. -/
inductive PropertiesError where
  | malformedUnicodeEscape (line : Nat)
  deriving Repr, DecidableEq, BEq

/-- The description of the error. -/
def PropertiesError.message : PropertiesError → String
  | malformedUnicodeEscape line => "malformed \\uXXXX escape on line " ++ toString line

namespace Properties

/-- The blanks between the parts of an entry. -/
def isGap (c : Char) : Bool := c == ' ' || c == '\t' || c == '\x0c'

/-- The text without leading blanks. -/
def skipGap (s : List Char) : List Char := s.dropWhile isGap

/-! ### Logical lines -/

/-- A logical line and the number of the line on which it starts. -/
structure LogicalLine where
  line : Nat
  text : List Char
  deriving Repr, DecidableEq

/-- The number of backslashes at the end of a text. -/
def finalBackslashes (s : List Char) : Nat := (s.reverse.takeWhile (· == '\\')).length

/-- Whether the next line is joined to a line: it ends in an odd number of backslashes. -/
def continues (s : List Char) : Bool := finalBackslashes s % 2 == 1

/-- Whether a line without its leading blanks is blank or a comment. -/
def isIgnored (s : List Char) : Bool :=
  match s with
  | [] => true
  | c :: _ => c == '#' || c == '!'

/-- The logical lines of lines numbered from `number` on, where `started` is the one that the first
of them continues. -/
def joinLines (started : Option LogicalLine) (number : Nat) : List (List Char) → List LogicalLine
  | [] => started.toList
  | physical :: lines =>
    let stripped := skipGap physical
    if started.isNone && isIgnored stripped then joinLines none (number + 1) lines
    else
      let current := started.getD ⟨number, []⟩
      if continues stripped then
        joinLines (some ⟨current.line, current.text ++ stripped.dropLast⟩) (number + 1) lines
      else ⟨current.line, current.text ++ stripped⟩ :: joinLines none (number + 1) lines

/-- The logical lines of a text. -/
def logicalLines (s : List Char) : List LogicalLine := joinLines none 1 (Text.lines s)

/-! ### Keys and values -/

/-- The value after the blanks that end a key, which may have a sign before it. -/
def afterGap (s : List Char) : List Char :=
  match skipGap s with
  | '=' :: s => skipGap s
  | ':' :: s => skipGap s
  | s => s

/-- The key and the value of a logical line, where `escaped` says whether a backslash precedes. -/
def splitEntry (escaped : Bool) : List Char → List Char × List Char
  | [] => ([], [])
  | c :: s =>
    if !escaped && (c == '=' || c == ':') then ([], skipGap s)
    else if !escaped && isGap c then ([], afterGap (c :: s))
    else
      let (key, value) := splitEntry (!escaped && c == '\\') s
      (c :: key, value)

/-! ### Escapes -/

/-- The unit written with four characters. A plus sign may stand in place of the first digit. -/
def unit? (a b c d : Char) : Option UInt16 :=
  if a = '+' then Text.hexUnit? '0' b c d else Text.hexUnit? a b c d

/-- The character that a character after a backslash stands for. -/
def escapedChar (c : Char) : Char :=
  if c = 't' then '\t'
  else if c = 'n' then '\n'
  else if c = 'r' then '\r'
  else if c = 'f' then '\x0c'
  else c

/-- What a high surrogate becomes if no low one follows. -/
def flush : Option UInt16 → List Char
  | some _ => [Text.replacement]
  | none => []

/-- What a unit adds to the text, and the high surrogate that waits for its partner, given the one
that waited before. -/
def addUnit (waiting : Option UInt16) (unit : UInt16) : List Char × Option UInt16 :=
  match waiting with
  | some high =>
    if Text.isLowUnit unit then ([Text.pairChar high unit], none)
    else if Text.isHighUnit unit then ([Text.replacement], some unit)
    else ([Text.replacement, Text.unitChar unit], none)
  | none =>
    if Text.isHighUnit unit then ([], some unit)
    else if Text.isLowUnit unit then ([Text.replacement], none)
    else ([Text.unitChar unit], none)

/-- The text that an escaped text stands for after a high surrogate that may wait for its partner,
or nothing if a unit is not written with four digits. -/
def unescapeFrom (waiting : Option UInt16) : List Char → Option (List Char)
  | [] => some (flush waiting)
  | c :: s =>
    if c = '\\' then
      match s with
      | [] => some (flush waiting)
      | e :: s =>
        if e = 'u' then
          match s with
          | a :: b :: c :: d :: s => do
            let (text, waiting) := addUnit waiting (← unit? a b c d)
            return text ++ (← unescapeFrom waiting s)
          | _ => none
        else (unescapeFrom none s).map (flush waiting ++ escapedChar e :: ·)
    else (unescapeFrom none s).map (flush waiting ++ c :: ·)

/-- The text that an escaped text stands for. -/
def unescape? (s : List Char) : Option (List Char) := unescapeFrom none s

/-! ### Whole files -/

/-- The entry on a logical line. -/
def parseLine (l : LogicalLine) : Except PropertiesError (String × String) :=
  let (key, value) := splitEntry false l.text
  match unescape? key, unescape? value with
  | some key, some value => .ok (String.ofList key, String.ofList value)
  | _, _ => .error (.malformedUnicodeEscape l.line)

/-- The entries of a text. A key that occurs again keeps its place and gets the later value. -/
def parse (text : String) : Except PropertiesError Properties := do
  let entries ← (logicalLines text.toList).mapM parseLine
  return ⟨entries.foldl (fun done (key, value) => putEntry key value done) []⟩

/-- The file without entries. -/
def empty : Properties := ⟨[]⟩

/-- The value of a key. -/
def getText? (p : Properties) (key : String) : Option String := valueOf? key p.entries

/-- The documentation of a declaration. -/
def get? (p : Properties) (key : MemberKey) : Option String := p.getText? key.text

/-- The entries with the documentation of a declaration written. -/
def insert (p : Properties) (key : MemberKey) (text : String) : Properties :=
  ⟨putEntry key.text text p.entries⟩

/-- The number of entries. -/
def size (p : Properties) : Nat := p.entries.length

end Properties

end ClassSketch
