import ClassSketch.Command.Run
import ClassSketch.Proofs.ClassFile.Encoding
import ClassSketch.Proofs.Doc.SharedStore
import ClassSketch.Proofs.Sketch.Inquiry
import ClassSketch.Proofs.Sketch.Nesting

/-!
# Sketches of many types at the same time

The sketches of a list of names share one store of documentation that remembers. Each of them is a
worker, and their lookups take their steps in any order. The report on the names is the one that the
sketches give one by one, each with a store of its own. Workers that are fewer than the names and
take one name after the other are the schedules in which a name is begun when another one is done.

## Main definitions

* `Report.ofResults` — the report on names with their results
* `Inquiry.isolated` — the result of a sketch that has a new store to itself
* `SharedRun.report?` — the report, once all sketches are done

## Main results

* `Report.ofResults_eq` — no result of a name is lost, and none occurs twice
* `Inquiry.isolated_eq` — an isolated sketch reads every property file anew
* `SharedRun.report_agrees` — the report in every order of steps
-/

namespace ClassSketch

namespace Report

/-- The report on names with their results. -/
def ofResults (names : List String) (results : List (Except SketchError TypeDecl)) : Report :=
  (names.zip results).foldr (fun row report => report.push row.1 row.2) .empty

/-- A report holds the types of the names that have one and the failures of the others, in order. -/
theorem ofResults_eq {f : String → Option (Except SketchError TypeDecl)} {names : List String}
    {results : List (Except SketchError TypeDecl)} (h : names.mapM f = some results) :
    ofResults names results = ⟨names.filterMap fun name => (f name).bind Except.toOption,
      names.filterMap fun name => ((f name).bind Except.error?).map (Failure.mk name)⟩ := by
  have hAll : List.Forall₂ (fun name result => f name = some result) names results :=
    forall₂_of_mapM_eq_some h
  clear h
  induction hAll with
  | nil => rfl
  | @cons name result names results hName _ ih =>
    rw [ofResults, List.zip_cons_cons, List.foldr_cons, ← ofResults, ih]
    cases result with
    | ok decl => simp [push, hName, Except.toOption, Except.error?]
    | error cause => simp [push, hName, Except.toOption, Except.error?]

end Report

/-- There is a report if every name has a result, and it is the one on these results. -/
theorem Sketcher.sketchAll_eq (s : Sketcher) (levels : ℕ) (names : List String) :
    s.sketchAll levels names = (names.mapM (s.sketch levels)).map (.ofResults names) := by
  induction names with
  | nil => rfl
  | cons name names ih =>
    rw [sketchAll, List.foldrM_cons, ← sketchAll, ih, List.mapM_cons]
    cases s.sketch levels name <;> cases names.mapM (s.sketch levels) <;> rfl

section Files

variable {ε : Type} (resource : String → Except ε (Option (List UInt8)))

/-- The result of a sketch that has a new store to itself. -/
def Inquiry.isolated (suffix : String) (locator : Locator) (settings : Settings) (levels : ℕ)
    (name : String) : Option (Except SketchError TypeDecl) :=
  ((sketch locator settings levels name).alone resource ⟨suffix, []⟩).1

variable {resource}

/-- An isolated sketch is the sketch that reads every property file anew. -/
theorem Inquiry.isolated_eq (suffix : String) (locator : Locator) (settings : Settings)
    (levels : ℕ) : isolated resource suffix locator settings levels =
      (Sketcher.mk locator (ColocatedStore.fresh resource suffix) settings).sketch levels := by
  funext name
  rw [isolated, Asking.alone_eq (ColocatedStore.truthful_new suffix), answer_sketch]

namespace SharedRun

/-- The report on names, once all sketches are done. It is missing if one of them has no result. -/
def report? (r : SharedRun (Option (Except SketchError TypeDecl))) (names : List String) :
    Option (Option Report) :=
  r.results?.map fun results => (results.mapM id).map (.ofResults names)

/-- **Sketches at the same time.** However the steps of the lookups are ordered, every lookup is
answered as if the file were read and parsed anew. The report holds, in the order of the names, the
types of the names whose isolated sketch gives one and the failures of the others. Every schedule
can be continued until all sketches are done, and there is a report then if and only if every
isolated sketch has a result. No schedule is longer than three steps for each lookup. -/
theorem report_agrees {store : ColocatedStore} (hStore : store.Truthful resource)
    (locator : Locator) (settings : Settings) (levels : ℕ) (names : List String)
    {schedule : List ℕ} {r : SharedRun (Option (Except SketchError TypeDecl))}
    (h : (start store (names.map (Inquiry.sketch locator settings levels))).run? resource schedule =
      some r) :
    (∀ a ∈ r.answers, a.text = ColocatedStore.fresh resource store.suffix a.type a.key) ∧
    (∀ outcome, r.report? names = some outcome →
      outcome = (Sketcher.mk locator (ColocatedStore.fresh resource store.suffix)
        settings).sketchAll levels names ∧
      ∀ report ∈ outcome,
        report.types = names.filterMap (fun name =>
          (Inquiry.isolated resource store.suffix locator settings levels name).bind
            Except.toOption) ∧
        report.failures = names.filterMap (fun name =>
          ((Inquiry.isolated resource store.suffix locator settings levels name).bind
            Except.error?).map (Failure.mk name))) ∧
    (∃ rest r' outcome, r.run? resource rest = some r' ∧ r'.report? names = some outcome ∧
      (outcome.isSome = true ↔ ∀ name ∈ names,
        (Inquiry.isolated resource store.suffix locator settings levels name).isSome = true)) ∧
    schedule.length ≤ (names.map fun name =>
      3 * (Inquiry.sketch locator settings levels name).count
        (ColocatedStore.fresh resource store.suffix)).sum := by
  have hStart := sound_start hStore (names.map (Inquiry.sketch locator settings levels))
  obtain ⟨hSound, hSteps⟩ := hStart.run h
  have hIsolated : Inquiry.isolated resource store.suffix locator settings levels = _ :=
    Inquiry.isolated_eq store.suffix locator settings levels
  have hResults : (names.map (Inquiry.sketch locator settings levels)).map
      (·.answer (ColocatedStore.fresh resource store.suffix)) =
      names.map (Inquiry.isolated resource store.suffix locator settings levels) := by
    rw [List.map_map, hIsolated]
    exact List.map_congr_left fun name _ => Inquiry.answer_sketch levels name
  rw [hResults] at hSound
  refine ⟨hSound.answers, ?_, ?_, ?_⟩
  · intro outcome hOutcome
    obtain ⟨results, hFound, rfl⟩ := Option.map_eq_some_iff.mp hOutcome
    rw [hSound.results_eq hFound, List.mapM_map, Sketcher.sketchAll_eq, ← hIsolated]
    refine ⟨rfl, fun report hReport => ?_⟩
    obtain ⟨results, hSome, rfl⟩ := Option.map_eq_some_iff.mp hReport
    rw [Report.ofResults_eq hSome]
    exact ⟨rfl, rfl⟩
  · obtain ⟨rest, r', hRun, hEnd⟩ := hSound.exists_finish
    refine ⟨rest, r', _, hRun, by rw [report?, hEnd, Option.map_some], ?_⟩
    rw [Option.isSome_map, List.mapM_map]
    exact isSome_mapM_iff
  · refine (Nat.le_add_right _ _).trans (hSteps.trans ?_)
    rw [remaining, start, List.map_map, List.map_map]
    rfl

/-- A class with its property file. -/
def documented : Locator := .memory [
  ("p/A.class", (Sketcher.classWithInner "p/A" []).encode),
  ("p/A__annodoc.properties", Text.encodeUtf8 "classDoc=An example.".toList)]

/-- Sketches of a class, of one that does not exist, and of the first one again. -/
def documentedRun : SharedRun (Option (Except SketchError TypeDecl)) :=
  start ⟨"__annodoc.properties", []⟩ (["p.A", "p.B", "p.A"].map (Inquiry.sketch documented {} 1))

/-- Both sketches of the class look into the memory before any of them has read the file, so that
both read it and remember it. -/
theorem report_agrees_overlapping :
    (ColocatedStore.mk "__annodoc.properties" []).Truthful documented.resource ∧
    ∃ r report, documentedRun.run? documented.resource [0, 2, 2, 0, 0, 2] = some r ∧
      r.report? ["p.A", "p.B", "p.A"] = some (some report) ∧
      r.answers.length = 2 ∧
      report.types.map TypeDecl.documentation = [some "An example.", some "An example."] ∧
      some report = reportOn 1 documented {} ["p.A", "p.B", "p.A"] := by
  have hStore : (ColocatedStore.mk "__annodoc.properties" []).Truthful documented.resource :=
    ColocatedStore.truthful_new _
  have hRun : (documentedRun.run? documented.resource [0, 2, 2, 0, 0, 2]).any (fun r =>
      r.answers.length == 2 && (r.report? ["p.A", "p.B", "p.A"]).any fun outcome =>
        outcome.any fun report => report.types.map TypeDecl.documentation ==
          [some "An example.", some "An example."]) = true := by
    decide +kernel
  obtain ⟨r, hSome, hEnd⟩ := (Option.any_eq_true _ _).mp hRun
  obtain ⟨hAnswers, hReport⟩ := Bool.and_eq_true_iff.mp hEnd
  obtain ⟨outcome, hReport, hTypes⟩ := (Option.any_eq_true _ _).mp hReport
  obtain ⟨report, rfl, hTypes⟩ := (Option.any_eq_true _ _).mp hTypes
  obtain ⟨-, hAgrees, -⟩ := report_agrees hStore documented {} 1 ["p.A", "p.B", "p.A"] hSome
  exact ⟨hStore, r, report, hSome, hReport, beq_iff_eq.mp hAnswers, beq_iff_eq.mp hTypes,
    (hAgrees _ hReport).1⟩

end SharedRun

end Files

end ClassSketch
