import ClassSketch.Text.Lines
import ClassSketch.Text.Utf8

/-!
# Paths

A path is made of bytes. They are those of a text where the system was given one, and need not be
otherwise: the names that files have are bytes too.

## Main definitions

* `Path`: paths and names
* `Path.ofText`, `Path.display`: the path of a text, and the text that is shown for a path
* `Path.join`: one path inside another
* `Path.ofNames`: the path through names
* `Path.parts`: the names a path goes through
* `Path.parents`: the directories on the way
* `Path.fileName?`, `Path.splitExtension`: the last name and its extension
-/

namespace ClassSketch

/-- The bytes of a path, or of the name of a file. -/
abbrev Path := List UInt8

namespace Path

/-- The path that a text names. -/
def ofText (text : String) : Path := Text.encodeUtf8 text.toList

/-- The text that is shown for a path. -/
def display (path : Path) : String := String.ofList (Text.decodeUtf8Lossy path)

/-- The byte between the names of a path. -/
def slash : UInt8 := 0x2F

/-- The byte before an extension. -/
def point : UInt8 := 0x2E

/-- The name that stays in place. -/
def stay : Path := [point]

/-- The name that leads upwards. -/
def up : Path := [point, point]

/-- Whether a path starts at the root. -/
def isAbsolute (path : Path) : Bool := path.head? == some slash

/-- The second path as seen from the first one. -/
def join (base path : Path) : Path :=
  if isAbsolute path then path
  else if base.isEmpty || base.getLast? == some slash then base ++ path
  else base ++ slash :: path

/-- The path through the given names. -/
def ofNames (names : List Path) : Path := [slash].intercalate names

/-- The pieces of a path between its slashes. -/
def pieces (path : Path) : List Path := Text.splitOn slash path

/-- The names a path goes through, without those that stay in place. -/
def parts (path : Path) : List Path :=
  (pieces path).filter fun piece => piece != [] && piece != stay

/-- The paths of the directories on the way to a path, the nearest one first. -/
def parents (path : Path) : List Path :=
  let names := parts path
  let root := if isAbsolute path then [slash] else []
  ((List.range names.length).drop 1).reverse.map fun n => root ++ ofNames (names.take n)

/-- The last name of a path, unless the path leads upwards there. -/
def fileName? (path : Path) : Option Path := (parts path).getLast?.filter (· != up)

/-- A name without its extension, and the extension: what follows the last point, unless that point
starts the name. -/
def splitExtension (name : Path) : Path × Option Path :=
  match Text.cutLast point name with
  | some (stem, extension) =>
    if stem.isEmpty || name == up then (name, none) else (stem, some extension)
  | none => (name, none)

/-- The extension of the last name of a path. -/
def extension? (path : Path) : Option Path := do (splitExtension (← fileName? path)).2

end Path

end ClassSketch
