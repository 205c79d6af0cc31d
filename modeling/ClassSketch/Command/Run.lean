import ClassSketch.Command.Arguments
import ClassSketch.Command.Scan
import ClassSketch.Decl.Codec
import ClassSketch.Doc.Store
import ClassSketch.Json.Printer
import ClassSketch.Locate.SearchPath
import ClassSketch.Sketch.Batch
import ClassSketch.Sketch.SettingsFile

/-!
# Running a command

## Main definitions

* `CommandError`: why a command stops
* `loadSettings`, `openLocator`, `scanNames`, `reportOn`, `writeReport`: the steps
* `Outcome`: what a run leaves behind
* `run`: the outcome of a command line
-/

namespace ClassSketch

/-- Why a command stops before its report is written. -/
inductive CommandError where
  | settings (path : Path) (error : SettingsError)
  | classpath (error : LocateError)
  | scan (directory : Path) (fault : FileFault)
  | createDirectory (directory : Path) (fault : FileFault)
  | write (path : Path) (fault : FileFault)
  deriving Repr, DecidableEq, BEq

/-- What could not be done. -/
def CommandError.message : CommandError → String
  | settings path _ => "Failed to load configuration " ++ path.display
  | classpath _ => "Failed to open classpath"
  | scan directory _ => "Failed to scan " ++ directory.display
  | createDirectory directory _ => "Failed to create output directory " ++ directory.display
  | write path _ => "Failed to write " ++ path.display

/-- The settings of a file, or the defaults, with template values added. -/
def loadSettings (files : FileTree) (path : Option Path) (templates : List (String × String)) :
    Except CommandError Settings := do
  let settings ← match path with
    | some path => (Settings.load files path).mapError (.settings path)
    | none => pure {}
  return settings.withTemplateValues templates

/-- A search path: the directory of classes, if there is one, and then what the texts name. -/
def openLocator (files : FileTree) (classes : Option Path) (classpath : List String) :
    Except CommandError Locator := do
  let places ← (SearchPath.openPlaces files classpath).mapError .classpath
  let first := classes.toList.map (Locator.directory files)
  return .searchPath (if places.isEmpty then first else first ++ [.searchPath places])

/-- The names of the types below a directory. -/
def scanNames (files : FileTree) (directory : Path) : Except CommandError (List String) :=
  (Scan.typeNames files directory).mapError (.scan directory)

/-- The report on names, with documentation from the files next to the class files. Every sketch
has room for a number of levels. -/
def reportOn (levels : Nat) (locator : Locator) (settings : Settings) (names : List String) :
    Option Report :=
  let lookup := ColocatedStore.fresh locator.resource settings.documentationSuffix
  (Sketcher.mk locator lookup settings).sketchAll levels names

namespace Report

/-- The text of a file for each type in a directory. -/
def documents (r : Report) (directory : Path) : List (Path × String) :=
  r.types.map fun decl =>
    (Path.join directory (.ofText (decl.name.binary ++ ".json")), decl.toJson.pretty)

/-- The text of all types. -/
def document (r : Report) : String := (Json.arr (r.types.map TypeDecl.toJson)).pretty

end Report

/-- Writes texts to files until one cannot be written. -/
def writeDocuments (files : FileTree) : List (Path × String) → FileTree × Option CommandError
  | [] => (files, none)
  | (path, text) :: documents =>
    match files.write path (Text.encodeUtf8 text.toList) with
    | .ok files => writeDocuments files documents
    | .error fault => (files, some (.write path fault))

/-- Writes a file for each type of a report into a directory. -/
def writeReport (files : FileTree) (directory : Path) (report : Report) :
    FileTree × Option CommandError :=
  match files.makeDirectories directory with
  | .error fault => (files, some (.createDirectory directory fault))
  | .ok files => writeDocuments files (report.documents directory)

/-! ### Whole runs -/

/-- What a run leaves behind. -/
structure Outcome where
  exitCode : Nat
  stdout : String := ""
  stderr : String := ""
  files : FileTree

namespace Outcome

/-- The outcome when a command line asks for nothing that can be done. -/
def ofUsage (files : FileTree) (error : UsageError) : Outcome :=
  let text := error.message ++ "\n"
  if error = .helpRequested ∨ error = .versionRequested then ⟨0, text, "", files⟩
  else ⟨2, "", text, files⟩

/-- The outcome when a command stops. -/
def ofError (files : FileTree) (error : CommandError) : Outcome :=
  ⟨1, "", "Error: " ++ error.message ++ "\n", files⟩

/-- The outcome when a report is complete: one line for each failure. -/
def ofReport (files : FileTree) (stdout : String) (report : Report) : Outcome where
  exitCode := if report.isSuccess then 0 else 1
  stdout := stdout
  stderr := String.join (report.failures.map fun failure => failure.line ++ "\n")
  files := files

end Outcome

namespace Invocation

/-- The report that an invocation asks for, unless a sketch needs room for more levels. -/
def report (levels : Nat) (files : FileTree) (i : Invocation) :
    Except CommandError (Option Report) := do
  let settings ← loadSettings files (i.options.config.map .ofText) i.options.templates
  let (names, classes) ← match i.target with
    | .types names => pure (names, none)
    | .classes directory =>
      let directory := Path.ofText directory
      pure (← scanNames files directory, some directory)
  return reportOn levels (← openLocator files classes i.options.classpath) settings names

/-- The outcome of an invocation with a report: the types go to files of a directory, if one is
named. -/
def deliver (files : FileTree) (i : Invocation) (report : Report) : Outcome :=
  match i.options.out with
  | none => .ofReport files (report.document ++ "\n") report
  | some directory =>
    match writeReport files (.ofText directory) report with
    | (files, some e) => .ofError files e
    | (files, none) => .ofReport files "" report

/-- The outcome of an invocation. There is none if there is no report. -/
def outcome (levels : Nat) (files : FileTree) (i : Invocation) : Option Outcome :=
  match i.report levels files with
  | .error e => some (.ofError files e)
  | .ok report => report.map (i.deliver files)

end Invocation

/-- The outcome of a command line, where every sketch has room for a number of levels. -/
def run (levels : Nat) (files : FileTree) (arguments : List String) : Option Outcome :=
  match Invocation.ofArguments arguments with
  | .error e => some (.ofUsage files e)
  | .ok invocation => invocation.outcome levels files

end ClassSketch
