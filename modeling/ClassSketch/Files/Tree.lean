import ClassSketch.Files.Path

/-!
# File trees

The files a run can see, as a value: what stands at every path, and the directory from which
relative paths start. Writing gives a new tree.

## Main definitions

* `FileTree`: the files
* `FileTree.put`, `FileTree.insert`: building a tree
* `FileTree.node`: what a path leads to
* `FileTree.read`, `FileTree.isDirectory`, `FileTree.isFile`: reading
* `FileTree.makeDirectories`, `FileTree.write`: writing
* `FileTree.filesBelow`, `FileTree.directoriesBelow`: what stands below a directory
-/

namespace ClassSketch

/-- Why a file cannot be used. -/
inductive FileFault where
  | missing
  | notADirectory
  | isADirectory
  | alreadyExists
  | nameTooLong
  | nulByte
  | notText
  | badChecksum
  deriving Repr, DecidableEq, BEq

/-- The description of the fault. -/
def FileFault.message : FileFault → String
  | missing => "No such file or directory (os error 2)"
  | notADirectory => "Not a directory (os error 20)"
  | isADirectory => "Is a directory (os error 21)"
  | alreadyExists => "File exists (os error 17)"
  | nameTooLong => "File name too long (os error 36)"
  | nulByte => "file name contained an unexpected NUL byte"
  | notText => "stream did not contain valid UTF-8"
  | badChecksum => "Invalid checksum"

/-- What an archive holds under a name. -/
inductive EntryContent where
  | stored (bytes : List UInt8)
  /-- Content whose checksum is wrong. -/
  | corrupt
  /-- Content packed in a way that cannot be read. -/
  | unsupported
  deriving Repr, DecidableEq, BEq

/-- An entry of an archive. -/
structure ArchiveEntry where
  name : String
  content : EntryContent
  deriving Repr, DecidableEq, BEq

/-- What stands at a path: a directory, or a file with its bytes and, if these form an archive, the
entries of it. -/
inductive FileNode where
  | directory
  | file (bytes : List UInt8) (archive : Option (List ArchiveEntry))
  deriving Repr, DecidableEq, BEq

/-- Files and directories by the names that lead to them from the root, which is a directory itself
and has the empty path. -/
structure FileTree where
  /-- Where relative paths start. -/
  start : List Path
  nodes : List (List Path × FileNode)
  deriving Repr

namespace FileTree

/-- What stands at the end of the given names. -/
def at? (t : FileTree) (location : List Path) : Option FileNode :=
  if location.isEmpty then some .directory
  else (t.nodes.find? fun node => node.1 == location).map Prod.snd

/-- The tree with a node put at the end of the given names. -/
def put (t : FileTree) (location : List Path) (node : FileNode) : FileTree :=
  { t with nodes := (location, node) :: t.nodes.filter fun other => other.1 != location }

/-- The tree with a node put at the end of the given names, and with directories on the way
to it. -/
def insert (t : FileTree) (location : List Path) (node : FileNode) : FileTree :=
  let above := (List.range location.length).map location.take
  let missing := above.filter fun place => (t.at? place).isNone
  (missing.foldl (fun t place => t.put place .directory) t).put location node

/-- The longest name of a file, in bytes. -/
def nameLimit : Nat := 255

/-- The longest path, in bytes. -/
def pathLimit : Nat := 4095

/-- Fails unless a directory stands at the end of the given names. -/
def requireDirectory (t : FileTree) (location : List Path) : Except FileFault Unit :=
  match t.at? location with
  | some .directory => .ok ()
  | some (.file ..) => .error .notADirectory
  | none => .error .missing

/-- Where a step through a directory leads; the name need not exist. -/
def step (t : FileTree) (location : List Path) (piece : Path) :
    Except FileFault (List Path) := do
  t.requireDirectory location
  if piece = Path.stay then return location
  else if piece = Path.up then return location.dropLast
  else if nameLimit < piece.length then throw .nameTooLong
  else return location ++ [piece]

/-- Where the pieces of a path lead. A last piece that is empty asks for a directory. -/
def follow (t : FileTree) : List Path → List Path → Except FileFault (List Path)
  | location, [] => .ok location
  | location, [piece] =>
    if piece = [] then (t.requireDirectory location).map fun _ => location
    else t.step location piece
  | location, piece :: pieces => do
    if piece = [] then t.follow location pieces else t.follow (← t.step location piece) pieces

/-- Where a path leads. -/
def locate (t : FileTree) (path : Path) : Except FileFault (List Path) :=
  if path.isEmpty then .error .missing
  else if path.contains 0 then .error .nulByte
  else if pathLimit < path.length then .error .nameTooLong
  else t.follow (if Path.isAbsolute path then [] else t.start) (Path.pieces path)

/-- What a path leads to. -/
def node (t : FileTree) (path : Path) : Except FileFault FileNode := do
  match t.at? (← t.locate path) with
  | some n => return n
  | none => throw .missing

/-- Whether a path leads to a directory. -/
def isDirectory (t : FileTree) (path : Path) : Bool :=
  match t.node path with
  | .ok .directory => true
  | _ => false

/-- Whether a path leads to a regular file. -/
def isFile (t : FileTree) (path : Path) : Bool :=
  match t.node path with
  | .ok (.file ..) => true
  | _ => false

/-- The bytes of the file that a path leads to. -/
def read (t : FileTree) (path : Path) : Except FileFault (List UInt8) := do
  match ← t.node path with
  | .file bytes _ => return bytes
  | .directory => throw .isADirectory

/-- The text of the file that a path leads to. -/
def readText (t : FileTree) (path : Path) : Except FileFault String := do
  match Text.decodeUtf8 (← t.read path) with
  | some s => return String.ofList s
  | none => throw .notText

/-- The places below a directory where nodes of some kind stand, as names from that directory
on. -/
def placesBelow (t : FileTree) (location : List Path) (kind : FileNode → Bool) :
    List (List Path) :=
  t.nodes.filterMap fun (place, node) =>
    if kind node && location.isPrefixOf place && location.length < place.length then
      some (place.drop location.length)
    else none

/-- The places of the regular files below a directory. -/
def filesBelow (t : FileTree) (location : List Path) : List (List Path) :=
  t.placesBelow location (· != .directory)

/-- The places of the directories below a directory. -/
def directoriesBelow (t : FileTree) (location : List Path) : List (List Path) :=
  t.placesBelow location (· == .directory)

/-! ### Writing -/

/-- The tree with a new directory at the end of a path. Slashes at the end do not count; a path that
ends by staying in place or going upwards names no new directory. -/
def makeDirectory (t : FileTree) (path : Path) : Except FileFault FileTree := do
  if path.isEmpty then throw .missing
  if path.contains 0 then throw .nulByte
  if pathLimit < path.length then throw .nameTooLong
  let pieces := (Path.pieces path).filter (· != [])
  let above ← t.follow (if Path.isAbsolute path then [] else t.start) pieces.dropLast
  match pieces.getLast? with
  | none => throw .alreadyExists
  | some piece =>
    let location ← t.step above piece
    if (t.at? location).isSome then throw .alreadyExists else return t.put location .directory

/-- The tree in which a path leads to a directory, made if its parent is there. -/
def ensureDirectory (t : FileTree) (path : Path) : Except FileFault FileTree :=
  match t.makeDirectory path with
  | .ok made => .ok made
  | .error fault => if t.isDirectory path then .ok t else .error fault

/-- The tree in which the first of the paths leads to a directory, where each path is the parent of
the one before it. Parents are made as far as they are missing. -/
def ensureBelow (t : FileTree) : List Path → Except FileFault FileTree
  | [] => .ok t
  | path :: above =>
    match t.ensureDirectory path with
    | .error .missing => do (← t.ensureBelow above).ensureDirectory path
    | result => result

/-- The tree in which a path leads to a directory; the empty path always does. A path through a
missing directory that ends by staying in place leads nowhere, whatever is made. -/
def makeDirectories (t : FileTree) (path : Path) : Except FileFault FileTree :=
  if path.isEmpty then .ok t else t.ensureBelow (path :: Path.parents path)

/-- The tree in which a path leads to a file with the given bytes. -/
def write (t : FileTree) (path : Path) (bytes : List UInt8) : Except FileFault FileTree := do
  let location ← t.locate path
  match t.at? location with
  | some .directory => throw .isADirectory
  | _ =>
    t.requireDirectory location.dropLast
    return t.put location (.file bytes none)

end FileTree

end ClassSketch
