import ClassSketch.Locate.Locator
import ClassSketch.Sketch.Skeleton

/-!
# Types with the types nested in them

A nested type is found by the name that the type around it records. A type being built is never
attached below itself, and within one run a nested type is built only once.

## Main definitions

* `Sketcher`: where classes and documentation come from
* `Progress`: the types being built and the nested types that are complete
* `Sketcher.build`: a type with its nested types
* `Sketcher.sketch`: the type of a name

## Implementation notes

Building goes down from a type to the types nested in it, and there is room for a given number of
levels. A run that would have to go further down has no outcome, neither a type nor a failure. More
room never changes an outcome, and there are runs for which no room is enough: a type being built is
remembered by the name that its class file claims and looked for by the name that an entry gives, so
that a class file stored under another name than it claims may be built below itself without end.
-/

namespace ClassSketch

/-- Where classes and documentation come from. -/
structure Sketcher where
  locator : Locator
  lookup : Lookup
  settings : Settings

/-- The binary names of the types being built, and the nested types that are complete. -/
structure Progress where
  building : List String
  complete : List (String × TypeDecl)

namespace Progress

/-- Nothing built yet. -/
def empty : Progress := ⟨[], []⟩

/-- The progress when the type of a name is being built. -/
def start (p : Progress) (name : String) : Progress :=
  if p.building.contains name then p else { p with building := name :: p.building }

/-- The progress when the type of a name is no longer being built. -/
def finish (p : Progress) (name : String) : Progress :=
  { p with building := p.building.filter (· != name) }

/-- The progress when the nested type of a name is complete. -/
def record (p : Progress) (name : String) (decl : TypeDecl) : Progress :=
  { p with complete := (name, decl) :: p.complete }

end Progress

/-- The binary name of an inner class. -/
def InnerClass.binaryName (e : InnerClass) : String := replaceChar '/' '.' e.inner

namespace Sketcher

/-- Whether an inner class is never attached. -/
def hidesNested (s : Sketcher) (e : InnerClass) : Bool :=
  e.access.isSynthetic || e.access.isPrivate || s.settings.isExcludedNested e.binaryName

/-- How a class file is turned into a type, given the access flags recorded for it. There may be no
outcome. -/
abbrev Builder :=
  ClassFile → Option AccessFlags → Progress → Option (Except SketchError TypeDecl × Progress)

/-- The nested type of an entry, unless it is not shown, is being built or cannot be built. -/
def attach (s : Sketcher) (build : Builder) (e : InnerClass) (p : Progress) :
    Option (Option TypeDecl × Progress) :=
  let name := e.binaryName
  if s.hidesNested e || p.building.contains name then some (none, p)
  else
    match valueOf? name p.complete with
    | some decl => some (some decl, p)
    | none =>
      match s.locator.resolve name with
      | .error _ => some (none, p)
      | .ok c =>
        match build c (some e.access) p with
        | none => none
        | some (.ok decl, p) => some (some decl, p.record name decl)
        | some (.error _, p) => some (none, p)

/-- The nested types of entries, in order. -/
def attachAll (s : Sketcher) (build : Builder) :
    List InnerClass → Progress → Option (List TypeDecl × Progress)
  | [], p => some ([], p)
  | e :: entries, p =>
    match s.attach build e p with
    | none => none
    | some (decl, p) =>
      (attachAll s build entries p).map fun rest => (decl.toList ++ rest.1, rest.2)

/-- The type of a class file with its nested types. There is no outcome where there would have to be
room for more levels, the class file itself being on the first of them. -/
def build (s : Sketcher) : Nat → Builder
  | 0, _, _, _ => none
  | levels + 1, c, access, p =>
    let name := c.binaryName
    let p := p.start name
    match skeleton s.settings s.lookup c access with
    | .error e => some (.error e, p.finish name)
    | .ok decl =>
      (s.attachAll (s.build levels) c.memberClasses p).map fun nested =>
        (.ok { decl with nestedTypes := nested.1 }, nested.2.finish name)

/-- The type of a class file with its nested types, on a number of levels. -/
def sketchClass (s : Sketcher) (levels : Nat) (c : ClassFile) :
    Option (Except SketchError TypeDecl) :=
  (s.build levels c none .empty).map Prod.fst

/-- The type of a name with its nested types, on a number of levels. -/
def sketch (s : Sketcher) (levels : Nat) (name : String) : Option (Except SketchError TypeDecl) :=
  match s.locator.resolve name with
  | .error e => some (.error (.lookup e))
  | .ok c => s.sketchClass levels c

end Sketcher

end ClassSketch
