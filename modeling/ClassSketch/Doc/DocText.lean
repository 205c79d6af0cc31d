import ClassSketch.Doc.Sentence
import ClassSketch.Entries
import ClassSketch.Text.Lines

/-!
# Documentation comments

A comment has a title, a body and block tags. The title is the first sentence, the body is what
follows up to the first tag, and a tag is a line that starts with `@` together with the lines up to
the next such line.

## Main definitions

* `DocText`: a comment in its parts
* `DocText.parse`: the parts of a text
* `DocText.tag?`, `DocText.namedTag?`, `DocText.namedTags`: what the tags say
-/

namespace ClassSketch

/-- A documentation comment in its parts. Tags are in the order in which their names first occur,
the values of each in the order of the text. -/
structure DocText where
  raw : String
  title : String
  body : String
  tags : List (String × List String)
  deriving Repr, DecidableEq, BEq

namespace DocText

/-! ### Title and body -/

/-- The text before the first place where `start` holds of the text from there on. -/
def before (start : List Char → Bool) : List Char → List Char
  | [] => []
  | c :: s => if start (c :: s) then [] else c :: before start s

/-- Whether a text starts with the mark of a paragraph. -/
def startsParagraph (s : List Char) : Bool := ['<', 'p', '>'].isPrefixOf s

/-- Whether a text starts with a newline and a blank line. -/
def startsBlankLine : List Char → Bool
  | '\n' :: s =>
    (s.dropWhile fun c => c == ' ' || c == '\t' || c == '\r' || c == '\x0c').head? == some '\n'
  | _ => false

/-- Whether a text starts with the mark and the first letter of a tag. -/
def startsTag : List Char → Bool
  | '@' :: c :: _ => 'a' ≤ c && c ≤ 'z'
  | _ => false

/-- The text before the first line from which only blanks lead to a tag. -/
def beforeTag (atLineStart : Bool) : List Char → List Char
  | [] => []
  | c :: s =>
    if atLineStart && startsTag (Text.trimStart (c :: s)) then []
    else c :: beforeTag (c == '\n') s

/-- The text before the first tag, trimmed. -/
def cutTags (s : List Char) : List Char := Text.trim (beforeTag true s)

/-- The title: the first sentence of the first paragraph before the tags. -/
def titleOf (raw : List Char) : List Char :=
  let paragraph := Text.trim (before startsParagraph raw)
  let opening := Text.trim (before startsBlankLine paragraph)
  Text.trim (Sentence.first (cutTags opening))

/-- The body: what follows the title up to the first tag. -/
def bodyOf (raw title : List Char) : List Char :=
  let rest := match Text.find? title raw with
    | some (_, after) => Text.trim after
    | none => Text.trim raw
  if rest.head? = some '@' then [] else cutTags rest

/-! ### Tags -/

/-- The text with a single space for every run of blanks. -/
def squeeze : List Char → List Char
  | [] => []
  | c :: s =>
    if Text.isBlank c then
      if Text.startsBlank s then squeeze s else ' ' :: squeeze s
    else c :: squeeze s

/-- The trimmed text with a single space for every run of blanks. -/
def collapse (s : List Char) : List Char := squeeze (Text.trim s)

/-- The lines before the first tag, each after a space, and the tags with their names and texts. -/
def tagBlocks : List (List Char) → List Char × List (List Char × List Char)
  | [] => ([], [])
  | line :: lines =>
    let (continuation, tags) := tagBlocks lines
    match Text.trim line with
    | '@' :: tag =>
      let (name, text) := (Text.cutFirst Text.isBlank tag).getD (tag, [])
      ([], (name, text ++ continuation) :: tags)
    | line => (' ' :: line ++ continuation, tags)

/-- The tags with one more value of one of them. -/
def addValue (tags : List (String × List String)) (name value : String) :
    List (String × List String) :=
  putEntry name ((valueOf? name tags).getD [] ++ [value]) tags

/-- The tags of a text, values grouped by name. -/
def tagsOf (raw : List Char) : List (String × List String) :=
  (tagBlocks (Text.lines raw)).2.foldl
    (fun tags (name, text) => addValue tags (String.ofList name) (String.ofList (collapse text))) []

/-- The parts of a comment. -/
def parse (raw : String) : DocText :=
  let title := titleOf raw.toList
  { raw := raw
    title := String.ofList title
    body := String.ofList (bodyOf raw.toList title)
    tags := tagsOf raw.toList }

/-! ### Reading the tags -/

/-- Whether the comment says nothing. -/
def isEmpty (d : DocText) : Bool := (Text.trim d.raw.toList).isEmpty

/-- All values of a tag. -/
def values (d : DocText) (name : String) : List String := (valueOf? name d.tags).getD []

/-- The first value of a tag. -/
def tag? (d : DocText) (name : String) : Option String := (d.values name).head?

/-- What a value says about a name, if that name leads it. -/
def descriptionOf? (name value : String) : Option String :=
  match Text.dropWord? name.toList value.toList with
  | none => none
  | some [] => some ""
  | some rest => if Text.startsBlank rest then some (String.ofList (Text.trim rest)) else none

/-- What the first value of a tag led by a name says about that name. -/
def namedTag? (d : DocText) (tag name : String) : Option String :=
  (d.values tag).findSome? (descriptionOf? name)

/-- The leading name of a value and the description after it. -/
def nameAndDescription (value : String) : String × String :=
  match Text.cutFirst (· == ' ') value.toList with
  | some (name, description) => (String.ofList name, String.ofList description)
  | none => (value, "")

/-- The names that lead the values of a tag, with their descriptions. -/
def namedTags (d : DocText) (tag : String) : List (String × String) :=
  (d.values tag).foldl (fun named value =>
    let (name, description) := nameAndDescription value
    putEntry name description named) []

/-- The comment with the values of a tag replaced; no values remove the tag. -/
def withTagValues (d : DocText) (name : String) (values : List String) : DocText :=
  { d with
    tags :=
      if values.isEmpty then d.tags.filter fun entry => entry.1 != name
      else putEntry name values d.tags }

end DocText

end ClassSketch
