import ClassSketch.Proofs.Entries
import ClassSketch.Proofs.Parsing
import ClassSketch.Sketch.Nesting
import Mathlib.Data.List.Basic

/-!
# Sketches that remember their class files

A trace builds what a sketch builds, and remembers the class file that each type is built from and
the names of all types built in the run. It has an outcome just where the sketch has one, which is
that outcome without what the trace remembers.

## Main definitions

* `Origin` — a type with the class files that it and the types nested in it are built from
* `Origin.Path` — the class files on the way from a type down to a type nested in it
* `Run` — the progress of a trace
* `Sketcher.trace` — the type of a class file, on a number of levels
* `Sketcher.EntryTraced`, `Sketcher.ClassTraced` — what a trace with an outcome has done

## Main results

* `Sketcher.traceEntry_eq_some`, `Sketcher.trace_succ_eq_some` — these are all cases
* `Sketcher.build_follows_trace`, `Sketcher.sketch_eq_trace` — sketches are traces without what
  these remember
-/

namespace ClassSketch

/-- A type with the class files that it and the types nested in it are built from. -/
inductive Origin where
  | node (source : ClassFile) (skeleton : TypeDecl) (nested : List Origin)

namespace Origin

mutual

/-- The type. -/
def decl : Origin → TypeDecl
  | node _ skeleton nested => { skeleton with nestedTypes := decls nested }

/-- The types. -/
def decls : List Origin → List TypeDecl
  | [] => []
  | o :: origins => o.decl :: decls origins

end

theorem decls_eq_map (origins : List Origin) : decls origins = origins.map decl := by
  induction origins with
  | nil => rfl
  | cons o origins ih => rw [decls, ih, List.map_cons]

/-- The class files on the way from a type down to a type nested in it at any depth. -/
inductive Path : Origin → List ClassFile → Prop
  | here (source : ClassFile) (skeleton : TypeDecl) (nested : List Origin) :
      Path (.node source skeleton nested) [source]
  | down {source : ClassFile} {skeleton : TypeDecl} {nested : List Origin} {o : Origin}
      {path : List ClassFile} : o ∈ nested → Path o path →
        Path (.node source skeleton nested) (source :: path)

end Origin

/-- The binary names of the types being built, the nested types that are complete, and the binary
names of all types built so far. -/
structure Run where
  building : List String
  complete : List (String × Origin)
  built : List String

namespace Run

/-- Nothing built yet. -/
def empty : Run := ⟨[], [], []⟩

/-- The run when the type of a name is being built. -/
def start (r : Run) (name : String) : Run :=
  if r.building.contains name then r else { r with building := name :: r.building }

/-- The run when the type of a name is no longer being built. -/
def finish (r : Run) (name : String) : Run :=
  { r with building := r.building.filter (· != name) }

/-- The run when the type of a name is built. -/
def add (r : Run) (name : String) : Run := { r with built := name :: r.built }

/-- The run when the nested type of a name is complete. -/
def record (r : Run) (name : String) (o : Origin) : Run :=
  { r with complete := (name, o) :: r.complete }

/-- The progress of a sketch at the same point. -/
def progress (r : Run) : Progress := ⟨r.building, r.complete.map fun e => (e.1, e.2.decl)⟩

@[simp] theorem progress_empty : empty.progress = .empty := rfl

@[simp] theorem progress_building (r : Run) : r.progress.building = r.building := rfl

@[simp] theorem progress_start (r : Run) (name : String) :
    (r.start name).progress = r.progress.start name := by
  rw [start, Progress.start]
  change _ = if r.building.contains name = true then _ else _
  split <;> rfl

@[simp] theorem progress_finish (r : Run) (name : String) :
    (r.finish name).progress = r.progress.finish name := rfl

@[simp] theorem progress_add (r : Run) (name : String) : (r.add name).progress = r.progress := rfl

theorem valueOf?_progress (r : Run) (name : String) :
    valueOf? name r.progress.complete = (valueOf? name r.complete).map Origin.decl :=
  valueOf?_map Origin.decl

end Run

namespace Sketcher

/-! ### Traces -/

/-- How a class file is traced, given the access flags recorded for it. There may be no outcome. -/
abbrev Tracer := ClassFile → Option AccessFlags → Run → Option (Except SketchError Origin × Run)

/-- The nested type of an entry, unless it is not shown, is being built or cannot be built. -/
def traceEntry (s : Sketcher) (trace : Tracer) (e : InnerClass) (r : Run) :
    Option (Option Origin × Run) :=
  if s.hidesNested e || r.building.contains e.binaryName then some (none, r)
  else
    match valueOf? e.binaryName r.complete with
    | some o => some (some o, r)
    | none =>
      match s.locator.resolve e.binaryName with
      | .error _ => some (none, r)
      | .ok c =>
        match trace c (some e.access) r with
        | none => none
        | some (.ok o, r) => some (some o, r.record e.binaryName o)
        | some (.error _, r) => some (none, r)

/-- The nested types of entries, in order. -/
def traceEntries (s : Sketcher) (trace : Tracer) :
    List InnerClass → Run → Option (List Origin × Run)
  | [], r => some ([], r)
  | e :: entries, r =>
    match s.traceEntry trace e r with
    | none => none
    | some (o, r) => (traceEntries s trace entries r).map fun rest => (o.toList ++ rest.1, rest.2)

/-- The type of a class file with its nested types. There is no outcome where there would have to be
room for more levels, the class file itself being on the first of them. -/
def trace (s : Sketcher) : ℕ → Tracer
  | 0, _, _, _ => none
  | levels + 1, c, access, r =>
    match skeleton s.settings s.lookup c access with
    | .error e => some (.error e, (r.start c.binaryName).finish c.binaryName)
    | .ok t =>
      (s.traceEntries (s.trace levels) c.memberClasses (r.start c.binaryName)).map fun nested =>
        (.ok (.node c t nested.1), (nested.2.add c.binaryName).finish c.binaryName)

/-! ### What a trace with an outcome has done -/

variable {s : Sketcher} {build : Builder} {trace : Tracer}

/-- What becomes of an entry in a trace. -/
inductive EntryTraced (s : Sketcher) (trace : Tracer) (e : InnerClass) (r : Run) :
    Option Origin → Run → Prop
  | skipped : s.hidesNested e = true ∨ e.binaryName ∈ r.building → EntryTraced s trace e r none r
  | reused {o : Origin} : s.hidesNested e = false → e.binaryName ∉ r.building →
      valueOf? e.binaryName r.complete = some o → EntryTraced s trace e r (some o) r
  | missing {error : LocateError} : s.hidesNested e = false → e.binaryName ∉ r.building →
      valueOf? e.binaryName r.complete = none → s.locator.resolve e.binaryName = .error error →
      EntryTraced s trace e r none r
  | failed {c : ClassFile} {error : SketchError} {r' : Run} : s.hidesNested e = false →
      e.binaryName ∉ r.building → valueOf? e.binaryName r.complete = none →
      s.locator.resolve e.binaryName = .ok c →
      trace c (some e.access) r = some (.error error, r') → EntryTraced s trace e r none r'
  | built {c : ClassFile} {o : Origin} {r' : Run} : s.hidesNested e = false →
      e.binaryName ∉ r.building → valueOf? e.binaryName r.complete = none →
      s.locator.resolve e.binaryName = .ok c → trace c (some e.access) r = some (.ok o, r') →
      EntryTraced s trace e r (some o) (r'.record e.binaryName o)

/-- An entry that is traced with an outcome is one of these cases. -/
theorem traceEntry_eq_some {e : InnerClass} {r r' : Run} {o : Option Origin} :
    s.traceEntry trace e r = some (o, r') ↔ s.EntryTraced trace e r o r' := by
  constructor
  · intro h
    rw [traceEntry] at h
    split at h
    · next hSkip =>
      cases h
      exact .skipped (by simpa using hSkip)
    · next hSkip =>
      obtain ⟨hShown, hNew⟩ : s.hidesNested e = false ∧ e.binaryName ∉ r.building := by
        simpa using hSkip
      split at h
      · next hComplete =>
        cases h
        exact .reused hShown hNew hComplete
      · next hComplete =>
        split at h
        · next hResolve =>
          cases h
          exact .missing hShown hNew hComplete hResolve
        · next hResolve =>
          split at h
          · cases h
          · next hTrace =>
            cases h
            exact .built hShown hNew hComplete hResolve hTrace
          · next hTrace =>
            cases h
            exact .failed hShown hNew hComplete hResolve hTrace
  · intro h
    rw [traceEntry]
    cases h with
    | skipped hSkip => exact if_pos (by simpa using hSkip)
    | reused hShown hNew hComplete => rw [if_neg (by simp [hShown, hNew]), hComplete]
    | missing hShown hNew hComplete hResolve =>
      rw [if_neg (by simp [hShown, hNew]), hComplete, hResolve]
    | failed hShown hNew hComplete hResolve hTrace =>
      rw [if_neg (by simp [hShown, hNew]), hComplete, hResolve]
      simp only [hTrace]
    | built hShown hNew hComplete hResolve hTrace =>
      rw [if_neg (by simp [hShown, hNew]), hComplete, hResolve]
      simp only [hTrace]

/-- Entries are traced one after the other. -/
theorem traceEntries_cons_eq_some {e : InnerClass} {entries : List InnerClass} {r r' : Run}
    {origins : List Origin} : s.traceEntries trace (e :: entries) r = some (origins, r') ↔
      ∃ o between rest, s.traceEntry trace e r = some (o, between) ∧
        s.traceEntries trace entries between = some (rest, r') ∧ origins = o.toList ++ rest := by
  rw [traceEntries]
  split
  · next hNone => simp [hNone]
  · next o between hEntry =>
    simp only [Option.map_eq_some_iff, Prod.mk.injEq, Prod.exists, hEntry, Option.some.injEq]
    constructor
    · rintro ⟨rest, r', hRest, rfl, rfl⟩
      exact ⟨o, between, rest, ⟨rfl, rfl⟩, hRest, rfl⟩
    · rintro ⟨_, _, rest, ⟨rfl, rfl⟩, hRest, rfl⟩
      exact ⟨rest, r', hRest, rfl, rfl⟩

/-- What becomes of a class file in a trace. -/
inductive ClassTraced (s : Sketcher) (trace : Tracer) (c : ClassFile) (access : Option AccessFlags)
    (r : Run) : Except SketchError Origin → Run → Prop
  | failed {e : SketchError} : skeleton s.settings s.lookup c access = .error e →
      ClassTraced s trace c access r (.error e) ((r.start c.binaryName).finish c.binaryName)
  | built {t : TypeDecl} {nested : List Origin} {inner : Run} :
      skeleton s.settings s.lookup c access = .ok t →
      s.traceEntries trace c.memberClasses (r.start c.binaryName) = some (nested, inner) →
      ClassTraced s trace c access r (.ok (.node c t nested))
        ((inner.add c.binaryName).finish c.binaryName)

/-- A class file that is traced with an outcome is one of these cases. -/
theorem trace_succ_eq_some {levels : ℕ} {c : ClassFile} {access : Option AccessFlags} {r r' : Run}
    {result : Except SketchError Origin} : s.trace (levels + 1) c access r = some (result, r') ↔
      s.ClassTraced (s.trace levels) c access r result r' := by
  rw [Sketcher.trace]
  constructor
  · intro h
    split at h
    · next hSkeleton =>
      cases h
      exact .failed hSkeleton
    · next hSkeleton =>
      obtain ⟨⟨nested, inner⟩, hNested, heq⟩ := Option.map_eq_some_iff.mp h
      cases heq
      exact .built hSkeleton hNested
  · intro h
    cases h with
    | failed hSkeleton => rw [hSkeleton]
    | built hSkeleton hNested =>
      rw [hSkeleton]
      simp only [hNested, Option.map_some]

/-! ### Traces and sketches -/

/-- A builder builds what a tracer traces, and has an outcome just where the tracer has one. -/
def Follows (build : Builder) (trace : Tracer) : Prop :=
  ∀ c access r, build c access r.progress =
    (trace c access r).map (Prod.map (Except.map Origin.decl) Run.progress)

/-- An entry is attached as it is traced. -/
theorem attach_follows (hBuild : Follows build trace) (e : InnerClass) (r : Run) :
    s.attach build e r.progress =
      (s.traceEntry trace e r).map (Prod.map (Option.map Origin.decl) Run.progress) := by
  rw [attach, traceEntry]
  simp only [Run.progress_building, Run.valueOf?_progress]
  split
  · rfl
  cases valueOf? e.binaryName r.complete with
  | some o => rfl
  | none =>
    cases s.locator.resolve e.binaryName with
    | error _ => rfl
    | ok c =>
      simp only [Option.map_none, hBuild c (some e.access) r]
      rcases trace c (some e.access) r with _ | ⟨_ | _, _⟩ <;> rfl

/-- The entries of a class file are attached as they are traced. -/
theorem attachAll_follows (hBuild : Follows build trace) (entries : List InnerClass) :
    ∀ r : Run, s.attachAll build entries r.progress =
      (s.traceEntries trace entries r).map (Prod.map (List.map Origin.decl) Run.progress) := by
  induction entries with
  | nil => exact fun r => rfl
  | cons e entries ih =>
    intro r
    rw [attachAll, traceEntries, attach_follows hBuild]
    rcases s.traceEntry trace e r with _ | ⟨o, between⟩
    · rfl
    · change Option.map _ (s.attachAll build entries between.progress) = _
      rw [ih between, Option.map_map, Option.map_map]
      refine congrArg (Option.map · _) (funext fun rest => Prod.ext ?_ rfl)
      cases o <;> simp [Prod.map]

/-- A build is a trace without what this remembers. -/
theorem build_follows_trace (s : Sketcher) (levels : ℕ) :
    Follows (s.build levels) (s.trace levels) := by
  induction levels with
  | zero => exact fun c access r => rfl
  | succ levels ih =>
    intro c access r
    rw [build, trace]
    cases skeleton s.settings s.lookup c access with
    | error e => simp [Prod.map, Except.map]
    | ok t =>
      simp only [← Run.progress_start, attachAll_follows ih, Option.map_map]
      refine congrArg (Option.map · _) (funext fun nested => ?_)
      simp [Prod.map, Except.map, Origin.decl, Origin.decls_eq_map]

/-- The sketch of a name is the trace of its class file without what this remembers. -/
theorem sketch_eq_trace (levels : ℕ) {name : String} {c : ClassFile}
    (hResolve : s.locator.resolve name = .ok c) : s.sketch levels name =
      (s.trace levels c none .empty).map fun outcome => outcome.1.map Origin.decl := by
  have hBuild := s.build_follows_trace levels c none .empty
  rw [Run.progress_empty] at hBuild
  simp only [sketch, hResolve, sketchClass, hBuild, Option.map_map]
  rfl

end Sketcher

end ClassSketch
