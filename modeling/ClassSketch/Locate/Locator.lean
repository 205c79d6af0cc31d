import ClassSketch.ClassFile.Parse
import ClassSketch.Entries
import ClassSketch.Locate.Error

/-!
# Locators

A locator finds classes by their binary names and the resources next to them by slash-separated
paths. It is composed of places that keep resources: in memory, in a directory or in an archive.

## Main definitions

* `Place`: where resources are kept
* `Composition`: a search path, or one composition behind another, of places of some kind
* `Composition.resource`: the bytes at a path
* `Composition.resolve`: the class of a name
* `Locator`: a composition of places

## Implementation notes

What compositions do depends on their places only through the resources that these have, so that it
is the same for all kinds of places.
-/

namespace ClassSketch

/-- The path of the class file of a class, as in `a/b/Outer$Inner.class`. -/
def classFilePath (name : String) : String := replaceChar '.' '/' name ++ ".class"

/-! ### Places -/

/-- A place where resources are kept. -/
inductive Place where
  | memory (resources : List (String × List UInt8))
  | directory (files : FileTree) (root : Path)
  | archive (path : Path) (entries : List ArchiveEntry)

namespace Place

/-- The bytes at a path below a directory. -/
def readBelow (files : FileTree) (root : Path) (path : String) :
    Except LocateError (Option (List UInt8)) :=
  let full := Path.join root (.ofText path)
  match files.read full with
  | .ok bytes => .ok (some bytes)
  | .error .missing => .ok none
  | .error fault => .error (.file full fault)

/-- The bytes of the entry of an archive with the given name, the last one of that name. -/
def readEntry (archive : Path) (entries : List ArchiveEntry) (name : String) :
    Except LocateError (Option (List UInt8)) :=
  match (entries.reverse.find? fun e => e.name == name).map ArchiveEntry.content with
  | none => .ok none
  | some (.stored bytes) => .ok (some bytes)
  | some .corrupt => .error (.file (.ofText (archive.display ++ "!/" ++ name)) .badChecksum)
  | some .unsupported => .error (.archive archive .unsupportedMethod)

/-- The bytes of the resource at a path, if there is one. -/
def resource : Place → String → Except LocateError (Option (List UInt8))
  | memory resources, path => .ok (valueOf? path resources)
  | directory files root, path => readBelow files root path
  | archive name entries, path => readEntry name entries path

end Place

/-- A kind of places: what matters of them is which resources they have. -/
class Resourceful (α : Type) where
  /-- The bytes of the resource at a path, if there is one. -/
  resource : α → String → Except LocateError (Option (List UInt8))

instance : Resourceful Place := ⟨Place.resource⟩

/-! ### Compositions -/

/-- Places of some kind, put together. -/
inductive Composition (α : Type) where
  | single (place : α)
  /-- The first part that has a resource wins. -/
  | searchPath (parts : List (Composition α))
  /-- The second part is asked only for what the first one lacks. -/
  | fallback (primary alternate : Composition α)
  deriving Inhabited

namespace Composition

variable {α : Type} [Resourceful α]

mutual

/-- The bytes of the resource at a path, if there is one. -/
def resource : Composition α → String → Except LocateError (Option (List UInt8))
  | single place, path => Resourceful.resource place path
  | searchPath parts, path => firstResource parts path
  | fallback primary alternate, path => do
    match ← primary.resource path with
    | some bytes => return some bytes
    | none => alternate.resource path

/-- The bytes of the resource at a path in the first part that has it. -/
def firstResource : List (Composition α) → String → Except LocateError (Option (List UInt8))
  | [], _ => .ok none
  | part :: parts, path => do
    match ← part.resource path with
    | some bytes => return some bytes
    | none => firstResource parts path

end

/-- The class of a name, found in its class file among the given resources. -/
def resolveIn (resource : String → Except LocateError (Option (List UInt8))) (name : String) :
    Except LocateError ClassFile := do
  match ← resource (classFilePath name) with
  | none => throw (.notFound name)
  | some bytes => (ClassFile.parse bytes).mapError (.classFile name)

/-- The class of a name. A fallback asks its second part if the first one does not know the
name. -/
def resolve : Composition α → String → Except LocateError ClassFile
  | fallback primary alternate, name =>
    match primary.resolve name with
    | .error (.notFound _) => alternate.resolve name
    | other => other
  | part, name => resolveIn part.resource name

end Composition

/-! ### Locators -/

/-- Where classes and resources are looked for. -/
abbrev Locator := Composition Place

namespace Locator

/-- Resources in memory. -/
@[match_pattern]
abbrev memory (resources : List (String × List UInt8)) : Locator := .single (.memory resources)

/-- The files below a directory. -/
@[match_pattern]
abbrev directory (files : FileTree) (root : Path) : Locator := .single (.directory files root)

/-- The entries of an archive. -/
@[match_pattern]
abbrev archive (path : Path) (entries : List ArchiveEntry) : Locator :=
  .single (.archive path entries)

/-- The memory locator with a resource written. -/
def putResource (resources : List (String × List UInt8)) (path : String) (bytes : List UInt8) :
    List (String × List UInt8) :=
  putEntry path bytes resources

end Locator

end ClassSketch
