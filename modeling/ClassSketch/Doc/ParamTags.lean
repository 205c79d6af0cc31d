import ClassSketch.Text.Blank
import ClassSketch.Text.Lines

/-!
# Stale parameter tags

A `@param` tag is stale if it names a parameter, or in angle brackets a type parameter, that the
documented member does not have.

## Main definitions

* `ParamTags.staleName?`: the name that a stale tag line gives
* `ParamTags.strip`: the text without the stale tags and their continuation lines
-/

namespace ClassSketch

namespace ParamTags

/-- The parameters and the type parameters of a documented member. -/
structure Known where
  parameters : List String
  typeParameters : List String

/-- The name between angle brackets. -/
def angled? : List Char → Option (List Char)
  | '<' :: s => Text.dropFinalWord? ['>'] s
  | _ => none

/-- Whether a name as given in a tag belongs to the member. -/
def Known.has (known : Known) (name : List Char) : Bool :=
  match angled? name with
  | some typeParameter => known.typeParameters.contains (String.ofList typeParameter)
  | none => known.parameters.contains (String.ofList name)

/-- The first word after the mark of a parameter tag. -/
def tagName? (line : List Char) : Option (List Char) := do
  let rest ← Text.dropWord? "@param".toList line
  if Text.startsBlank rest then Text.firstWord? Text.isBlank rest else none

/-- The name that a line gives, if the line is a parameter tag and the member has no such name. -/
def staleName? (known : Known) (line : List Char) : Option (List Char) :=
  (tagName? line).filter fun name => !known.has name

/-- The text that is left, and the names of the tags taken out. -/
structure Outcome where
  text : String
  removed : List String
  deriving Repr, DecidableEq, BEq

/-- The lines to keep and the names of the stale tags, where `dropping` says whether the lines
before the next tag belong to a stale one. -/
def sift (known : Known) : Bool → List (List Char) → List (List Char) × List (List Char)
  | _, [] => ([], [])
  | dropping, line :: lines =>
    let trimmed := Text.trimStart line
    if trimmed.head? = some '@' then
      match staleName? known trimmed with
      | some name =>
        let (kept, removed) := sift known true lines
        (kept, name :: removed)
      | none =>
        let (kept, removed) := sift known false lines
        (line :: kept, removed)
    else
      let (kept, removed) := sift known dropping lines
      (if dropping then kept else line :: kept, removed)

/-- The text without its stale tags. A text without any is left as it is. -/
def strip (known : Known) (raw : String) : Outcome :=
  let (kept, removed) := sift known false (Text.lines raw.toList)
  if removed.isEmpty then ⟨raw, []⟩
  else ⟨String.ofList (Text.trimEnd (['\n'].intercalate kept)), removed.map String.ofList⟩

end ParamTags

end ClassSketch
