import ClassSketch.Locate.Locator
import ClassSketch.Text.Blank

/-!
# Search paths

A search path is written as texts that each name several places, separated by colons. A place is a
directory or an archive; whatever else is named is left out.

## Main definitions

* `SearchPath.places`: the paths that are named
* `Locator.openArchive`: an archive as a place
* `SearchPath.openPlaces`: the places that exist
-/

namespace ClassSketch

/-- The archive that a path leads to, as a place. -/
def Locator.openArchive (files : FileTree) (path : Path) : Except LocateError Locator :=
  match files.node path with
  | .error fault => .error (.file path fault)
  | .ok (.file _ (some entries)) => .ok (.archive path entries)
  | .ok _ => .error (.archive path .notAnArchive)

namespace SearchPath

/-- The paths that the texts of a search path name. -/
def places (texts : List String) : List Path :=
  texts.flatMap fun text =>
    ((Text.splitOn ':' text.toList).filter fun part => !(Text.trim part).isEmpty).map
      Text.encodeUtf8

/-- Whether the name of a file says that it is an archive. -/
def isArchiveName (path : Path) : Bool :=
  match Path.extension? path >>= Text.decodeUtf8 with
  | some extension => ["jar", "zip"].contains (String.ofList extension).toLower
  | none => false

/-- The place at a path, if there is one. -/
def place? (files : FileTree) (path : Path) : Except LocateError (Option Locator) :=
  if files.isDirectory path then .ok (some (.directory files path))
  else if isArchiveName path && files.isFile path then
    (Locator.openArchive files path).map some
  else .ok none

/-- The places that a search path names, as far as they exist. -/
def openPlaces (files : FileTree) (texts : List String) : Except LocateError (List Locator) := do
  return (← (places texts).mapM (place? files)).filterMap id

end SearchPath

end ClassSketch
