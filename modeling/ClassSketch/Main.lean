import ClassSketch.Command.Run

/-!
# The program

Loads the files that a command line names, runs the command on them, and writes what it leaves
behind. Archives are not unpacked: every file is loaded as plain bytes. Names of files are loaded as
the texts that the system shows for them.
-/

namespace ClassSketch

namespace Disk

/-- The names that lead from the root to a path. -/
def location (start : List Path) (path : Path) : List Path :=
  (Path.parts path).foldl
    (fun place piece => if piece = Path.up then place.dropLast else place ++ [piece])
    (if Path.isAbsolute path then [] else start)

/-- The paths that an invocation reads from or writes to. -/
def pathsOf (i : Invocation) : List Path :=
  let targets := match i.target with
    | .types _ => []
    | .classes directory => [directory]
  SearchPath.places i.options.classpath ++
    (targets ++ i.options.config.toList ++ i.options.out.toList).map Path.ofText

/-- The tree with what stands at a path, down to a number of levels. What cannot be read is left
out. -/
def load : Nat → FileTree → Path → IO FileTree
  | 0, files, _ => return files
  | levels + 1, files, path => do
    let place := location files.start path
    try
      let directory ← IO.FS.realPath path.display
      let entries ← directory.readDir
      entries.foldlM
        (fun files entry => load levels files (Path.join path (.ofText entry.fileName)))
        (files.insert place .directory)
    catch _ =>
      try
        let bytes ← IO.FS.readBinFile path.display
        return files.insert place (.file bytes.toList none)
      catch _ => return files

/-- How many levels of directories are loaded. -/
def directoryLevels : Nat := 64

/-- How many levels of nested types there is room for. -/
def nestingLevels : Nat := 10000

/-- The files that a command line names. -/
def filesFor (arguments : List String) : IO FileTree := do
  let start := Path.parts (.ofText (← IO.currentDir).toString)
  let empty : FileTree := ⟨start, []⟩
  match Invocation.ofArguments arguments with
  | .error _ => return empty
  | .ok i => (pathsOf i).foldlM (load directoryLevels) (empty.insert start .directory)

/-- Writes a node to its place. -/
def save (place : List Path) (node : FileNode) : IO Unit :=
  let path := "/" ++ (Path.ofNames place).display
  match node with
  | .directory => IO.FS.createDirAll path
  | .file bytes _ => IO.FS.writeBinFile path ⟨bytes.toArray⟩

/-- Runs a command line. -/
def perform (arguments : List String) : IO UInt32 := do
  let files ← filesFor arguments
  match run nestingLevels files arguments with
  | none =>
    IO.eprint "Error: Types are nested too deeply\n"
    return 1
  | some outcome =>
    for (place, node) in outcome.files.nodes.reverse do
      if files.at? place != some node then save place node
    IO.print outcome.stdout
    IO.eprint outcome.stderr
    return outcome.exitCode.toUInt32

end Disk

end ClassSketch

/-- Runs the command line that the program is started with. -/
def main (arguments : List String) : IO UInt32 := ClassSketch.Disk.perform arguments
