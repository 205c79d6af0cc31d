import ClassSketch.Sketch.Nesting

/-!
# Many types at once

## Main definitions

* `Report`: the types that could be sketched, and the failures
* `Sketcher.sketchAll`: a report on names
-/

namespace ClassSketch

/-- A name whose type could not be sketched, and why. -/
structure Failure where
  name : String
  cause : SketchError
  deriving Repr, DecidableEq, BEq

/-- The line that reports a failure. -/
def Failure.line (f : Failure) : String := f.name ++ ": " ++ f.cause.message

/-- The types that could be sketched and the failures, both in the order of the names. -/
structure Report where
  types : List TypeDecl
  failures : List Failure

namespace Report

/-- The report on no names. -/
def empty : Report := ⟨[], []⟩

/-- The report with a result before the others. -/
def push (r : Report) (name : String) : Except SketchError TypeDecl → Report
  | .ok decl => { r with types := decl :: r.types }
  | .error cause => { r with failures := ⟨name, cause⟩ :: r.failures }

/-- Whether there are no failures. -/
def isSuccess (r : Report) : Bool := r.failures.isEmpty

end Report

/-- The report on names, where every sketch has room for a number of levels. A failure never keeps
other types from being sketched, but there is no report if one of the sketches has no outcome. -/
def Sketcher.sketchAll (s : Sketcher) (levels : Nat) (names : List String) : Option Report :=
  names.foldrM (fun name report => do return report.push name (← s.sketch levels name)) .empty

end ClassSketch
