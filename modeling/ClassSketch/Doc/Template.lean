import ClassSketch.Entries
import ClassSketch.Text.Blank
import ClassSketch.Text.Lines
import ClassSketch.Text.Word

/-!
# Templates in documentation

Three forms of placeholders between double braces are replaced:

* `key?then` and `key?then:else` choose by whether `key` has a value;
* `param:name?then` and `param:name?then:else` choose by whether the documented member has a
  parameter `name`;
* `key` and `key:default` give the value of `key`, else the default, else the key itself.

A text is first cut into segments, one form after the other, and then every segment is replaced on
its own. What replaces a placeholder is never looked at again.

## Main definitions

* `Template.Segment`: literal text or a placeholder
* `Template.segments`: the segments of a text
* `Template.render`: the text with all placeholders replaced
-/

namespace ClassSketch

/-- The values of template keys. -/
abbrev TemplateValues := List (String × String)

namespace Template

/-- A placeholder that chooses between two texts, with at most one space on each side of it. -/
structure Choice where
  leading : Bool
  name : List Char
  whenPresent : List Char
  otherwise : Option (List Char)
  trailing : Bool
  deriving Repr, DecidableEq

/-- A piece of a template. -/
inductive Segment where
  | literal (text : List Char)
  | byKey (choice : Choice)
  | byParameter (choice : Choice)
  | value (key : List Char) (default : Option (List Char))
  deriving Repr, DecidableEq

/-! ### Recognising placeholders -/

/-- Splits off the longest run of characters that satisfy `p`, if it is not empty. -/
def run? (p : Char → Bool) (s : List Char) : Option (List Char × List Char) :=
  match s.takeWhile p with
  | [] => none
  | c :: run => some (c :: run, s.dropWhile p)

/-- Splits off a space, if there is one. -/
def space : List Char → Bool × List Char
  | ' ' :: s => (true, s)
  | s => (false, s)

/-- Splits off a colon and the run of characters that satisfy `p` after it, if there is a colon. -/
def alternative? (p : Char → Bool) : List Char → Option (Option (List Char) × List Char)
  | ':' :: s => (run? p s).map fun (text, rest) => (some text, rest)
  | s => some (none, s)

/-- Whether a character is no closing brace. -/
def isOpenText (c : Char) : Bool := c != '\x7d'

/-- Whether a character is neither a closing brace nor a colon. -/
def isBranchText (c : Char) : Bool := c != '\x7d' && c != ':'

/-- Reads a choice at the head of a text, whose name stands after the given mark. -/
def choice? (mark : List Char) (s : List Char) : Option (Choice × List Char) := do
  let (leading, s) := space s
  let s ← Text.dropWord? ('\x7b' :: '\x7b' :: mark) s
  let (name, s) ← run? Text.isWord s
  let s ← Text.dropWord? ['?'] s
  let (whenPresent, s) ← run? isBranchText s
  let (otherwise, s) ← alternative? isOpenText s
  let s ← Text.dropWord? ['\x7d', '\x7d'] s
  let (trailing, s) := space s
  return (⟨leading, name, whenPresent, otherwise, trailing⟩, s)

/-- Reads a choice by a key. -/
def byKey? (s : List Char) : Option (Segment × List Char) :=
  (choice? [] s).map fun (c, rest) => (.byKey c, rest)

/-- Reads a choice by a parameter. -/
def byParameter? (s : List Char) : Option (Segment × List Char) :=
  (choice? "param:".toList s).map fun (c, rest) => (.byParameter c, rest)

/-- Reads a placeholder for a value. -/
def value? (s : List Char) : Option (Segment × List Char) := do
  let s ← Text.dropWord? ['\x7b', '\x7b'] s
  let (key, s) ← run? Text.isWord s
  let (default, s) ← alternative? isBranchText s
  let s ← Text.dropWord? ['\x7d', '\x7d'] s
  return (.value key default, s)

/-! ### Segments -/

/-- Puts a character before segments, into the first one if that is literal. -/
def push (c : Char) : List Segment → List Segment
  | .literal text :: segments => .literal (c :: text) :: segments
  | segments => .literal [c] :: segments

/-- The segments of a text after its first `skip` characters, where `form` reads a placeholder at
the head of a text. Placeholders are taken from left to right and do not overlap. -/
def cutFrom (form : List Char → Option (Segment × List Char)) : Nat → List Char → List Segment
  | _, [] => []
  | skip + 1, _ :: s => cutFrom form skip s
  | 0, c :: s =>
    match form (c :: s) with
    | some (placeholder, rest) => placeholder :: cutFrom form (s.length - rest.length) s
    | none => push c (cutFrom form 0 s)

/-- A literal segment cut at the placeholders of one form. -/
def cut (form : List Char → Option (Segment × List Char)) : Segment → List Segment
  | .literal text => cutFrom form 0 text
  | placeholder => [placeholder]

/-- The segments of a text. -/
def segments (raw : List Char) : List Segment :=
  ((cut byKey? (.literal raw)).flatMap (cut byParameter?)).flatMap (cut value?)

/-! ### Replacement -/

/-- The text of a space that may be there. -/
def spaceText (isThere : Bool) : List Char := if isThere then [' '] else []

/-- What replaces a choice. Without a branch to show, one space is left between words. -/
def Choice.text (c : Choice) (present : Bool) : List Char :=
  if present then spaceText c.leading ++ c.whenPresent ++ spaceText c.trailing
  else
    match c.otherwise with
    | some text => spaceText c.leading ++ text ++ spaceText c.trailing
    | none => spaceText c.trailing

/-- What replaces a segment. -/
def Segment.text (values : TemplateValues) (parameters : List String) : Segment → List Char
  | literal text => text
  | byKey c => c.text (valueOf? (String.ofList c.name) values).isSome
  | byParameter c => c.text (parameters.contains (String.ofList c.name))
  | value key default =>
    match valueOf? (String.ofList key) values with
    | some text => text.toList
    | none => default.getD key

/-- The text with all placeholders replaced, trimmed. -/
def render (raw : String) (values : TemplateValues) (parameters : List String) : String :=
  String.ofList
    (Text.trim ((segments raw.toList).flatMap (Segment.text values parameters)))

end Template

end ClassSketch
