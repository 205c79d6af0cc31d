import ClassSketch.Proofs.Entries
import ClassSketch.Proofs.Parsing
import ClassSketch.Sketch.Nesting

/-!
# Room for nested types

A build has no outcome where the nesting goes deeper than there is room for. What a build with an
outcome has done is told here by cases, one for each thing that can become of an entry and of a
class file; the proofs about builds go through these cases and never look into a build themselves.

Where there is an outcome, more room does not change it. So the outcome of a sketch does not depend
on the room there is, and only whether there is one does.

## Main definitions

* `Sketcher.EntryAttached` — what becomes of an entry
* `Sketcher.ClassBuilt` — what becomes of a class file
* `Sketcher.Builder.Extends` — a builder has the outcomes of another one

## Main results

* `Sketcher.attach_eq_some`, `Sketcher.build_succ_eq_some` — these are all cases
* `Sketcher.build_extends`, `Sketcher.sketch_mono` — more room changes no outcome
-/

namespace ClassSketch

namespace Sketcher

variable {s : Sketcher} {build build' : Builder} {e : InnerClass} {entries : List InnerClass}
  {c : ClassFile} {access : Option AccessFlags} {p p' : Progress}

/-! ### What builds do -/

/-- What becomes of an entry: it is hidden or being built, its nested type is complete, its class
file is missing, or the class file is built, which fails or gives a type. -/
inductive EntryAttached (s : Sketcher) (build : Builder) (e : InnerClass) (p : Progress) :
    Option TypeDecl → Progress → Prop
  | skipped : s.hidesNested e = true ∨ e.binaryName ∈ p.building → EntryAttached s build e p none p
  | reused {t : TypeDecl} : s.hidesNested e = false → e.binaryName ∉ p.building →
      valueOf? e.binaryName p.complete = some t → EntryAttached s build e p (some t) p
  | missing {error : LocateError} : s.hidesNested e = false → e.binaryName ∉ p.building →
      valueOf? e.binaryName p.complete = none → s.locator.resolve e.binaryName = .error error →
      EntryAttached s build e p none p
  | failed {c : ClassFile} {error : SketchError} {p' : Progress} : s.hidesNested e = false →
      e.binaryName ∉ p.building → valueOf? e.binaryName p.complete = none →
      s.locator.resolve e.binaryName = .ok c →
      build c (some e.access) p = some (.error error, p') → EntryAttached s build e p none p'
  | built {c : ClassFile} {t : TypeDecl} {p' : Progress} : s.hidesNested e = false →
      e.binaryName ∉ p.building → valueOf? e.binaryName p.complete = none →
      s.locator.resolve e.binaryName = .ok c → build c (some e.access) p = some (.ok t, p') →
      EntryAttached s build e p (some t) (p'.record e.binaryName t)

theorem attach_eq_some {t : Option TypeDecl} :
    s.attach build e p = some (t, p') ↔ s.EntryAttached build e p t p' := by
  constructor
  · intro h
    rw [attach] at h
    split at h
    · next hSkip =>
      cases h
      exact .skipped (by simpa using hSkip)
    · next hSkip =>
      obtain ⟨hShown, hNew⟩ : s.hidesNested e = false ∧ e.binaryName ∉ p.building := by
        simpa using hSkip
      split at h
      · next hComplete =>
        cases h
        exact .reused hShown hNew hComplete
      · next hComplete =>
        split at h
        · next hResolve =>
          cases h
          exact .missing hShown hNew hComplete hResolve
        · next hResolve =>
          split at h
          · cases h
          · next hBuild =>
            cases h
            exact .built hShown hNew hComplete hResolve hBuild
          · next hBuild =>
            cases h
            exact .failed hShown hNew hComplete hResolve hBuild
  · intro h
    rw [attach]
    cases h with
    | skipped hSkip => exact if_pos (by simpa using hSkip)
    | reused hShown hNew hComplete => simp [hShown, hNew, hComplete]
    | missing hShown hNew hComplete hResolve => simp [hShown, hNew, hComplete, hResolve]
    | failed hShown hNew hComplete hResolve hBuild =>
      simp [hShown, hNew, hComplete, hResolve, hBuild]
    | built hShown hNew hComplete hResolve hBuild =>
      simp [hShown, hNew, hComplete, hResolve, hBuild]

/-- Entries are attached one after the other. -/
theorem attachAll_cons_eq_some {ts : List TypeDecl} :
    s.attachAll build (e :: entries) p = some (ts, p') ↔
      ∃ t between rest, s.attach build e p = some (t, between) ∧
        s.attachAll build entries between = some (rest, p') ∧ ts = t.toList ++ rest := by
  rw [attachAll]
  split
  · next hNone => simp [hNone]
  · next t between hEntry =>
    simp only [Option.map_eq_some_iff, Prod.mk.injEq, Prod.exists, hEntry, Option.some.injEq]
    constructor
    · rintro ⟨rest, p', hRest, rfl, rfl⟩
      exact ⟨t, between, rest, ⟨rfl, rfl⟩, hRest, rfl⟩
    · rintro ⟨_, _, rest, ⟨rfl, rfl⟩, hRest, rfl⟩
      exact ⟨rest, p', hRest, rfl, rfl⟩

/-- What becomes of a class file: its skeleton fails, or nested types are attached to it. -/
inductive ClassBuilt (s : Sketcher) (build : Builder) (c : ClassFile) (access : Option AccessFlags)
    (p : Progress) : Except SketchError TypeDecl → Progress → Prop
  | failed {error : SketchError} : skeleton s.settings s.lookup c access = .error error →
      ClassBuilt s build c access p (.error error) ((p.start c.binaryName).finish c.binaryName)
  | built {t : TypeDecl} {nested : List TypeDecl} {inner : Progress} :
      skeleton s.settings s.lookup c access = .ok t →
      s.attachAll build c.memberClasses (p.start c.binaryName) = some (nested, inner) →
      ClassBuilt s build c access p (.ok { t with nestedTypes := nested })
        (inner.finish c.binaryName)

theorem build_succ_eq_some {levels : ℕ} {result : Except SketchError TypeDecl} :
    s.build (levels + 1) c access p = some (result, p') ↔
      s.ClassBuilt (s.build levels) c access p result p' := by
  rw [Sketcher.build]
  constructor
  · intro h
    split at h
    · next hSkeleton =>
      cases h
      exact .failed hSkeleton
    · next hSkeleton =>
      obtain ⟨⟨nested, inner⟩, hNested, heq⟩ := Option.map_eq_some_iff.mp h
      cases heq
      exact .built hSkeleton hNested
  · intro h
    cases h with
    | failed hSkeleton => simp only [hSkeleton]
    | built hSkeleton hNested => simp only [hSkeleton, hNested, Option.map_some]

/-- A build gives the skeleton of the class file with some nested types. -/
theorem exists_nested_of_build {levels : ℕ} {result : Except SketchError TypeDecl}
    (h : s.build levels c access p = some (result, p')) : ∃ nested, result =
      (skeleton s.settings s.lookup c access).map fun t => { t with nestedTypes := nested } := by
  cases levels with
  | zero => cases h
  | succ levels =>
    cases build_succ_eq_some.mp h with
    | failed hSkeleton => exact ⟨[], by rw [hSkeleton, Except.map]⟩
    | built hSkeleton => exact ⟨_, by rw [hSkeleton, Except.map]⟩

/-- A sketch fails where there is no class file of the name, and else is what is built from it. -/
theorem sketch_eq_some {levels : ℕ} {name : String} {result : Except SketchError TypeDecl} :
    s.sketch levels name = some result ↔
      (∃ error, s.locator.resolve name = .error error ∧ result = .error (.lookup error)) ∨
      ∃ c p, s.locator.resolve name = .ok c ∧ s.build levels c none .empty = some (result, p) := by
  rw [sketch]
  cases s.locator.resolve name with
  | error error => simp [eq_comm]
  | ok c => simp [sketchClass]

/-- A sketch that is found to give a type of some kind gives one. -/
theorem exists_of_any_sketch {levels : ℕ} {name : String} {q : TypeDecl → Bool}
    (h : (s.sketch levels name).any (fun result => result.toOption.any q) = true) :
    ∃ t, s.sketch levels name = some (.ok t) ∧ q t = true := by
  obtain ⟨result, hSketch, hAny⟩ := (Option.any_eq_true _ _).mp h
  obtain ⟨t, rfl, ht⟩ := Except.exists_of_any_toOption hAny
  exact ⟨t, hSketch, ht⟩

/-! ### More room -/

/-- A builder has an outcome at least where another one does, and then the same. -/
def Builder.Extends (build' build : Builder) : Prop :=
  ∀ c access p outcome, build c access p = some outcome → build' c access p = some outcome

theorem attach_extends (h : build'.Extends build) {outcome : Option TypeDecl × Progress}
    (hAttach : s.attach build e p = some outcome) : s.attach build' e p = some outcome := by
  obtain ⟨t, p'⟩ := outcome
  rw [attach_eq_some] at hAttach ⊢
  cases hAttach with
  | skipped hSkip => exact .skipped hSkip
  | reused hShown hNew hComplete => exact .reused hShown hNew hComplete
  | missing hShown hNew hComplete hResolve => exact .missing hShown hNew hComplete hResolve
  | failed hShown hNew hComplete hResolve hBuild =>
    exact .failed hShown hNew hComplete hResolve (h _ _ _ _ hBuild)
  | built hShown hNew hComplete hResolve hBuild =>
    exact .built hShown hNew hComplete hResolve (h _ _ _ _ hBuild)

theorem attachAll_extends (h : build'.Extends build) :
    ∀ {p : Progress} {outcome : List TypeDecl × Progress},
      s.attachAll build entries p = some outcome → s.attachAll build' entries p = some outcome := by
  induction entries with
  | nil => exact fun hNil => hNil
  | cons e entries ih =>
    intro p outcome hAll
    obtain ⟨t, between, rest, hEntry, hRest, hTypes⟩ := attachAll_cons_eq_some.mp hAll
    exact attachAll_cons_eq_some.mpr
      ⟨t, between, rest, attach_extends h hEntry, ih hRest, hTypes⟩

/-- With room for more levels, builds have the same outcomes. -/
theorem build_extends (s : Sketcher) {n : ℕ} :
    ∀ {m : ℕ}, n ≤ m → Builder.Extends (s.build m) (s.build n) := by
  induction n with
  | zero =>
    intro m _ c access p outcome h
    cases h
  | succ n ih =>
    rintro m hLevels c access p ⟨result, p'⟩ h
    obtain ⟨m, rfl⟩ : ∃ k, m = k + 1 := ⟨m - 1, by omega⟩
    rw [build_succ_eq_some] at h ⊢
    cases h with
    | failed hSkeleton => exact .failed hSkeleton
    | built hSkeleton hNested =>
      exact .built hSkeleton (attachAll_extends (ih (Nat.le_of_succ_le_succ hLevels)) hNested)

/-- The outcome of a sketch does not depend on how much room there is. -/
theorem sketch_mono {n m : ℕ} (h : n ≤ m) {name : String} {result : Except SketchError TypeDecl}
    (hSketch : s.sketch n name = some result) : s.sketch m name = some result := by
  rw [sketch_eq_some] at hSketch ⊢
  refine hSketch.imp_right ?_
  rintro ⟨c, p, hResolve, hBuild⟩
  exact ⟨c, p, hResolve, s.build_extends h _ _ _ _ hBuild⟩

end Sketcher

end ClassSketch
