import ClassSketch.Files.Tree

/-!
# The types of a directory

## Main definitions

* `Scan.typeName?`: the type in a file, from its place below the directory
* `Scan.typeNames`: the types in all files below a directory

## Implementation notes

The names are sorted by code points. Files in different places may have one name, if a directory
has a point in its name, or if names of files are no texts and the same is shown for them; the name
is then listed once for each.

The directories below a directory are opened by their whole paths, while a file is only listed. So
a directory whose path is too long is not walked, and a file whose path is too long gives a name.
-/

namespace ClassSketch

namespace Scan

/-- The place of a class file with the extension left out. Where a single point would be left, the
point before the extension stays as well. -/
def stems? (place : List Path) : Option (List Path) := do
  let (stem, extension) := Path.splitExtension (← place.getLast?)
  if extension = some (Path.ofText "class") then
    return place.dropLast ++ [if stem = Path.stay then Path.up else stem]
  else none

/-- Whether a simple name belongs to a type that is nested in no other, and to a type at all. -/
def isTypeName (simple : String) : Bool :=
  !simple.toList.contains '$' && simple != "package-info" && simple != "module-info"

/-- The binary name of the type in a file, if the file is the class file of a type that is nested in
no other. -/
def typeName? (place : List Path) : Option String := do
  let names := (← stems? place).map Path.display
  if isTypeName (← names.getLast?) then return ".".intercalate names else none

/-- Whether the directories below a directory have paths that the system accepts. -/
def canWalk (files : FileTree) (directory : Path) (location : List Path) : Bool :=
  (files.directoriesBelow location).all fun place =>
    (Path.join directory (Path.ofNames place)).length ≤ FileTree.pathLimit

/-- The binary names of the types in all files below a directory, in order. -/
def typeNames (files : FileTree) (directory : Path) : Except FileFault (List String) := do
  let location ← files.locate directory
  match files.at? location with
  | none => throw .missing
  | some (.file ..) => return []
  | some .directory =>
    if canWalk files directory location then
      return ((files.filesBelow location).filterMap typeName?).mergeSort fun a b => decide (a ≤ b)
    else throw .nameTooLong

end Scan

end ClassSketch
