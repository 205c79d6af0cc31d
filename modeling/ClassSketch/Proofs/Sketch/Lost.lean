import ClassSketch.Proofs.Locate.Composition
import ClassSketch.Proofs.Sketch.MemberTree
import ClassSketch.Proofs.Sketch.Rules

/-!
# Nested types that are lost

The class file of a nested type may be missing, damaged, or say what cannot be built. If the class
files below the root are a tree, this costs the nested type and what is nested in it, and nothing
else.

Two runs are compared, one in which the nested type can be built and one in which it is lost. They
are in step up to the entry of the lost type. There the first run goes on and completes types of
which the second one knows nothing, so that the two runs never agree again. What carries the proof
is that these types all have names below the lost one, and no entry that is met later has such a
name.

## Main definitions

* `Origin.without`, `Origin.Prunes` — a type without the nested type of a name
* `Run.Stays` — a run goes on below a class file, and nothing else changes
* `Locator.Beside` — the names that have nothing to do with a lost type
* `Run.Lacks` — what is complete in one run is complete in the other, but for the lost type
* `Run.InStep` — the invariant of the two runs
* `Sketcher.Loses` — all that changes is that the class of one name cannot be built any more

## Main results

* `Origin.prunes_without` — leaving out a name that occurs once takes out one nested type
* `Sketcher.trace_lost` — the two runs
* `Sketcher.sketch_lost` — a lost nested type is taken out, and the rest of the sketch stays
-/

namespace ClassSketch

/-! ### A type without one of its nested types -/

namespace Origin

mutual

/-- The second type is the first one without one nested type of the given name. What is nested in
that type goes with it. -/
inductive Prunes (lost : String) : Origin → Origin → Prop
  | node {c : ClassFile} {t : TypeDecl} {nested nested' : List Origin} :
      PrunesOne lost nested nested' → Prunes lost (.node c t nested) (.node c t nested')

/-- The same for a list of types. The name is that of one of them, or of a type nested in one of
them, and the others stay as they are. -/
inductive PrunesOne (lost : String) : List Origin → List Origin → Prop
  | here {o : Origin} {rest : List Origin} :
      o.source.binaryName = lost → PrunesOne lost (o :: rest) rest
  | inside {o o' : Origin} {rest : List Origin} :
      Prunes lost o o' → PrunesOne lost (o :: rest) (o' :: rest)
  | later {o : Origin} {rest rest' : List Origin} :
      PrunesOne lost rest rest' → PrunesOne lost (o :: rest) (o :: rest')

end

mutual

/-- A type without all nested types of the given name. -/
def without (lost : String) : Origin → Origin
  | node c t nested => node c t (allWithout lost nested)

/-- Types, and the types nested in them, but for all of the given name. -/
def allWithout (lost : String) : List Origin → List Origin
  | [] => []
  | o :: origins =>
    if o.source.binaryName = lost then allWithout lost origins
    else o.without lost :: allWithout lost origins

end

variable {lost : String}

theorem allWithout_append (origins more : List Origin) :
    allWithout lost (origins ++ more) = allWithout lost origins ++ allWithout lost more := by
  induction origins with
  | nil => rfl
  | cons o origins ih =>
    rw [List.cons_append, allWithout, allWithout, ih]
    split <;> rfl

theorem allWithout_toList_of_eq {o : Option Origin} (h : ∀ t ∈ o, t.source.binaryName = lost) :
    allWithout lost o.toList = [] := by
  cases o with
  | none => rfl
  | some t => rw [Option.toList_some, allWithout, if_pos (h t rfl), allWithout]

/-- A type of another name stays, without the lost one below it. -/
theorem allWithout_toList_of_ne {o : Option Origin} (h : ∀ t ∈ o, t.source.binaryName ≠ lost) :
    allWithout lost o.toList = (o.map fun t => t.without lost).toList := by
  cases o with
  | none => rfl
  | some t =>
    rw [Option.toList_some, allWithout, if_neg (h t rfl), allWithout]
    rfl

mutual

/-- Leaving out a name that does not occur changes nothing. -/
theorem without_eq_self : ∀ {o : Origin}, lost ∉ o.names → o.without lost = o
  | node c t nested, h => by rw [without, allWithout_eq_self (by rwa [names] at h)]

/-- Where the lost class is not, nothing changes. -/
theorem allWithout_eq_self : ∀ {origins : List Origin}, lost ∉ allNames origins →
    allWithout lost origins = origins
  | [], _ => rfl
  | o :: origins, h => by
    rw [allNames, List.mem_cons, List.mem_append, not_or, not_or] at h
    obtain ⟨hName, hInside, hRest⟩ := h
    rw [allWithout, if_neg (Ne.symm hName), without_eq_self hInside, allWithout_eq_self hRest]

end

mutual

/-- Leaving out a name that occurs once takes out one nested type. -/
theorem prunes_without : ∀ {o : Origin}, o.names.Nodup → lost ∈ o.names →
    o.Prunes lost (o.without lost)
  | node c t nested, hNodup, hLost => by
    rw [names] at hNodup hLost
    exact .node (prunesOne_allWithout hNodup hLost)

/-- Where every name is there once, the lost class is left out of one branch only. -/
theorem prunesOne_allWithout : ∀ {origins : List Origin}, (allNames origins).Nodup →
    lost ∈ allNames origins → PrunesOne lost origins (allWithout lost origins)
  | o :: origins, hNodup, hLost => by
    rw [allNames, List.nodup_cons, List.mem_append, not_or, List.nodup_append] at hNodup
    obtain ⟨⟨hInside, hOutside⟩, hNodup, hRest, hApart⟩ := hNodup
    rw [allNames, List.mem_cons, List.mem_append] at hLost
    rcases hLost with rfl | hLost | hLost
    · rw [allWithout, if_pos rfl, allWithout_eq_self hOutside]
      exact .here rfl
    · have hName : o.source.binaryName ≠ lost := fun heq => hInside (heq ▸ hLost)
      rw [allWithout, if_neg hName,
        allWithout_eq_self fun hAgain => hApart _ hLost _ hAgain rfl]
      exact .inside (prunes_without hNodup hLost)
    · have hName : o.source.binaryName ≠ lost := fun heq => hOutside (heq ▸ hLost)
      rw [allWithout, if_neg hName,
        without_eq_self fun hAgain => hApart _ hAgain _ hLost rfl]
      exact .later (prunesOne_allWithout hRest hLost)

end

end Origin

/-! ### What a run leaves as it is -/

namespace Run

/-- The run goes on with class files below the given one. What has been said of other names stays
true. -/
structure Stays (l : Locator) (c : ClassFile) (r r' : Run) : Prop where
  building : r'.building ⊆ r.building
  complete : ∀ name, ¬l.Below c name → valueOf? name r'.complete = valueOf? name r.complete

variable {l : Locator} {c d : ClassFile} {r r' r'' : Run}

theorem Stays.refl (l : Locator) (c : ClassFile) (r : Run) : r.Stays l c r :=
  ⟨List.Subset.refl _, fun _ _ => rfl⟩

/-- What stays within a class through two steps stays within it. -/
theorem Stays.trans (h : r.Stays l c r') (h' : r'.Stays l c r'') : r.Stays l c r'' :=
  ⟨List.Subset.trans h'.building h.building,
    fun name hName => (h'.complete name hName).trans (h.complete name hName)⟩

theorem Stays.of_member (hMember : l.Member c d) (h : r.Stays l d r') : r.Stays l c r' :=
  ⟨h.building, fun name hName => h.complete name fun hBelow => hName (hBelow.of_member hMember)⟩

theorem Stays.record (h : r.Stays l c r') {e : InnerClass} (he : e ∈ c.memberClasses)
    (o : Origin) : r.Stays l c (r'.record e.binaryName o) where
  building := h.building
  complete := by
    intro name hName
    rw [Run.record, valueOf?_cons, if_neg, h.complete name hName]
    rintro rfl
    exact hName (.of_mem he)

theorem Stays.finish (h : (r.start c.binaryName).Stays l c r') :
    r.Stays l c (r'.finish c.binaryName) where
  building := building_finish_subset
    (List.Subset.trans h.building (building_start_subset r c.binaryName))
  complete := by
    intro name hName
    rw [Run.finish, h.complete name hName, complete_start]

end Run

namespace Sketcher

open Run

/-- The tracer says nothing of names that are not below the class file. -/
def Tracer.Keeps (l : Locator) (trace : Tracer) : Prop :=
  ∀ c access r result r', trace c access r = some (result, r') → r.Stays l c r'

variable {s : Sketcher} {trace : Tracer}

/-- An entry adds classes only that are below the class file. -/
theorem traceEntry_keeps (hTrace : trace.Keeps s.locator) {c : ClassFile} {e : InnerClass}
    (he : e ∈ c.memberClasses) {r r' : Run} {o : Option Origin}
    (h : s.traceEntry trace e r = some (o, r')) : r.Stays s.locator c r' := by
  cases traceEntry_eq_some.mp h with
  | skipped _ => exact .refl _ _ r
  | reused => exact .refl _ _ r
  | missing => exact .refl _ _ r
  | failed _ _ _ hResolve hFailed =>
    exact (hTrace _ _ _ _ _ hFailed).of_member ⟨e, he, hResolve⟩
  | built _ _ _ hResolve hBuilt =>
    exact ((hTrace _ _ _ _ _ hBuilt).of_member ⟨e, he, hResolve⟩).record he _

/-- The entries of a class file add classes only that are below it. -/
theorem traceEntries_keeps (hTrace : trace.Keeps s.locator) {c : ClassFile}
    {entries : List InnerClass} : entries ⊆ c.memberClasses →
      ∀ {r r' : Run} {origins : List Origin},
        s.traceEntries trace entries r = some (origins, r') → r.Stays s.locator c r' := by
  induction entries with
  | nil =>
    intro _ r r' origins h
    cases h
    exact .refl _ _ r
  | cons e entries ih =>
    intro hEntries r r' origins h
    obtain ⟨he, hEntries⟩ := List.cons_subset.mp hEntries
    obtain ⟨o, between, rest, hEntry, hRest, -⟩ := traceEntries_cons_eq_some.mp h
    exact (traceEntry_keeps hTrace he hEntry).trans (ih hEntries hRest)

/-- Tracing a class file changes nothing that is not below it. -/
theorem trace_keeps (s : Sketcher) (levels : ℕ) : Tracer.Keeps s.locator (s.trace levels) := by
  induction levels with
  | zero =>
    intro c access r result r' h
    cases h
  | succ levels ih =>
    intro c access r result r' h
    cases trace_succ_eq_some.mp h with
    | failed _ => exact (Stays.refl _ _ _).finish
    | built _ hNested =>
      have hInner := traceEntries_keeps ih (List.Subset.refl _) hNested
      exact Stays.finish ⟨hInner.building, hInner.complete⟩

end Sketcher

/-! ### Names beside a lost type -/

namespace Locator

/-- A name that is neither the lost one nor below it. -/
def Beside (l : Locator) (root : ClassFile) (lost name : String) : Prop :=
  name ≠ lost ∧ ∀ c, l.Reaches root c → c.binaryName = lost → ¬l.Below c name

variable {l : Locator} {root : ClassFile} {lost : String}

theorem Acyclic.beside_root (hAcyclic : l.Acyclic root)
    (hRoot : l.resolve root.binaryName = .ok root) (hLost : root.binaryName ≠ lost) :
    l.Beside root lost root.binaryName := by
  refine ⟨hLost, fun c hReaches _ hBelow => ?_⟩
  obtain ⟨d, hBelow, hListed⟩ := hBelow
  exact hAcyclic.not_below_self hRoot ⟨d, hReaches.trans hBelow, hListed⟩

/-- In a tree, a class file beside the lost type may list the lost type, but no name below it. -/
theorem Tree.beside_entry (hFiled : l.Filed) (hTree : l.Tree root) {c : ClassFile}
    (hReaches : l.Reaches root c) (hBeside : l.Beside root lost c.binaryName) {e : InnerClass}
    (he : e ∈ c.memberClasses) (hName : e.binaryName ≠ lost) :
    l.Beside root lost e.binaryName := by
  refine ⟨hName, fun x hx hLost hBelow => ?_⟩
  obtain ⟨d, hd, e', he', heq⟩ := hBelow
  obtain rfl : c = d := hTree.parent c d hReaches (hx.trans hd) e he e' he' heq.symm
  -- the class file would be the lost one, or below it
  rcases Relation.ReflTransGen.cases_tail hd with rfl | ⟨f, hf, hMember⟩
  · exact hBeside.1 hLost
  · exact hBeside.2 x hx hLost (hFiled.below_binaryName hf hMember)

end Locator

/-- What is complete in the first run is complete in the second one, without the lost type. Nothing
is said of names below the lost one. -/
structure Run.Lacks (l : Locator) (root : ClassFile) (lost : String) (r r' : Run) : Prop where
  missing : valueOf? lost r'.complete = none
  others : ∀ name, l.Beside root lost name →
    valueOf? name r'.complete = (valueOf? name r.complete).map fun o => o.without lost

/-- Both runs complete a type. -/
theorem Run.Lacks.record {l : Locator} {root : ClassFile} {lost : String} {r r' : Run}
    (h : r.Lacks l root lost r') {name : String} (hName : name ≠ lost) (o : Origin) :
    (r.record name o).Lacks l root lost (r'.record name (o.without lost)) where
  missing := by rw [Run.record, valueOf?_cons, if_neg hName, h.missing]
  others := by
    intro other hOther
    rw [Run.record, Run.record, valueOf?_cons, valueOf?_cons, h.others other hOther]
    split <;> rfl

/-- What holds of the two runs when both come to a class file. -/
structure Run.InStep (l : Locator) (root : ClassFile) (lost : String) (c : ClassFile)
    (r r' : Run) : Prop where
  around : r.Around l c
  around' : r'.Around l c
  grown : r.Grown l
  lacks : r.Lacks l root lost r'

namespace Run

variable {l : Locator} {root c d : ClassFile} {lost : String} {r r' : Run}

theorem InStep.member (h : r.InStep l root lost c r') (hMember : l.Member c d) :
    r.InStep l root lost d r' :=
  ⟨h.around.member hMember, h.around'.member hMember, h.grown, h.lacks⟩

theorem InStep.start (h : r.InStep l root lost c r') (hResolve : l.resolve c.binaryName = .ok c) :
    (r.start c.binaryName).InStep l root lost c (r'.start c.binaryName) where
  around := h.around.start hResolve
  around' := h.around'.start hResolve
  grown := h.grown.start _
  lacks := by
    constructor
    · rw [complete_start, h.lacks.missing]
    · intro name hName
      rw [complete_start, complete_start, h.lacks.others name hName]

theorem inStep_empty (l : Locator) (root : ClassFile) (lost : String) :
    empty.InStep l root lost root empty where
  around := by simp [Around, empty]
  around' := by simp [Around, empty]
  grown := grown_empty l
  lacks := ⟨rfl, fun _ _ => rfl⟩

end Run

/-! ### A run with the lost type and one without it -/

/-- Whether a class file can be built does not depend on the access flags recorded for it. -/
theorem skeleton_eq_error_iff {settings : Settings} {lookup : Lookup} {c : ClassFile}
    {recorded recorded' : Option AccessFlags} {e : SketchError} :
    skeleton settings lookup c recorded = .error e ↔
      skeleton settings lookup c recorded' = .error e := by
  rw [skeleton_eq_draft, skeleton_eq_draft]
  simp only [draft, Except.bind_eq_error, pure, Except.pure, reduceCtorEq]

namespace Sketcher

open Run

/-- All that changes from one sketcher to the other is that the class file of a name, spelled with
dots, is missing, damaged or cannot be built. -/
structure Loses (s : Sketcher) (lost : String) (s' : Sketcher) : Prop where
  lookup : s'.lookup = s.lookup
  settings : s'.settings = s.settings
  /-- All other names are resolved as before. -/
  others : ∀ name, replaceChar '/' '.' name ≠ lost →
    s'.locator.resolve name = s.locator.resolve name
  /-- If a class file is found and can be read, it cannot be built. It may claim any name. -/
  broken : ∀ c, s'.locator.resolve lost = .ok c →
    ∃ e, skeleton s.settings s.lookup c none = .error e

variable {s s' : Sketcher} {root : ClassFile} {lost : String}

/-- A class file in memory is overwritten with bytes that cannot be built. -/
theorem loses_putResource {resources : List (String × List UInt8)} {lookup : Lookup}
    {settings : Settings} {lost : String} {bytes : List UInt8} (hSlash : '/' ∉ lost.toList)
    (hBroken : ∀ c, ClassFile.parse bytes = .ok c →
      ∃ e, skeleton settings lookup c none = .error e) :
    Loses ⟨.memory resources, lookup, settings⟩ lost
      ⟨.memory (Locator.putResource resources (classFilePath lost) bytes), lookup, settings⟩ where
  lookup := rfl
  settings := rfl
  others := by
    intro name hName
    have hPath : classFilePath lost ≠ classFilePath name := by
      intro heq
      have hDotted := dotted_eq_of_classFilePath_eq heq
      rw [dotted_eq_self hSlash] at hDotted
      exact hName hDotted.symm
    have hSame : Place.resource (.memory (Locator.putResource resources (classFilePath lost) bytes))
        (classFilePath name) = Place.resource (.memory resources) (classFilePath name) := by
      rw [Place.resource, Place.resource, Locator.putResource, valueOf?_putEntry, if_neg hPath]
    exact Composition.resolveIn_congr hSame
  broken := by
    intro c hResolve
    obtain ⟨found, hFound, hParse⟩ := Except.bind_eq_ok.mp hResolve
    change Except.ok (valueOf? _ (Locator.putResource _ _ _)) = _ at hFound
    rw [Locator.putResource, valueOf?_putEntry, if_pos rfl] at hFound
    cases hFound
    exact hBroken c (Except.mapError_eq_ok.mp hParse)

theorem Loses.hidesNested (h : s.Loses lost s') (e : InnerClass) :
    s'.hidesNested e = s.hidesNested e := by
  rw [Sketcher.hidesNested, Sketcher.hidesNested, h.settings]

/-- Every other entry is found as before. -/
theorem Loses.resolve_entry (h : s.Loses lost s') {e : InnerClass} (hName : e.binaryName ≠ lost) :
    s'.locator.resolve e.binaryName = s.locator.resolve e.binaryName := by
  have hDotted : replaceChar '/' '.' e.binaryName = e.binaryName :=
    dotted_eq_self (slash_not_mem_dotted e.inner)
  exact h.others _ (hDotted.symm ▸ hName)

/-- The second tracer traces class files beside the lost type as the first one does, without the
lost type. -/
def Tracer.Misses (l : Locator) (root : ClassFile) (lost : String) (trace trace' : Tracer) : Prop :=
  ∀ c access r r' result after, l.Reaches root c → l.resolve c.binaryName = .ok c →
    l.Beside root lost c.binaryName → r.InStep l root lost c r' →
    trace c access r = some (result, after) →
    ∃ after', trace' c access r' = some (result.map fun o => o.without lost, after') ∧
      after.Lacks l root lost after'

/-- The entry of the lost type gives nothing, and nothing is complete afterwards that was not
complete before. -/
theorem Loses.exists_traceEntry (hLoses : s.Loses lost s') (levels : ℕ) {e : InnerClass}
    (hName : e.binaryName = lost) {r : Run} (hMissing : valueOf? lost r.complete = none)
    (hNew : lost ∉ r.building) :
    ∃ r', s'.traceEntry (s'.trace (levels + 1)) e r = some (none, r') ∧
      r'.complete = r.complete := by
  subst hName
  cases hHidden : s'.hidesNested e with
  | true => exact ⟨r, traceEntry_eq_some.mpr (.skipped (.inl hHidden)), rfl⟩
  | false =>
    cases hResolve : s'.locator.resolve e.binaryName with
    | error error =>
      exact ⟨r, traceEntry_eq_some.mpr (.missing hHidden hNew hMissing hResolve), rfl⟩
    | ok c =>
      obtain ⟨error, hBroken⟩ := hLoses.broken c hResolve
      rw [← hLoses.settings, ← hLoses.lookup] at hBroken
      have hFailed : s'.trace (levels + 1) c (some e.access) r =
          some (.error error, (r.start c.binaryName).finish c.binaryName) :=
        trace_succ_eq_some.mpr (.failed (skeleton_eq_error_iff.mp hBroken))
      exact ⟨_, traceEntry_eq_some.mpr (.failed hHidden hNew hMissing hResolve hFailed),
        complete_start r _⟩

/-- Tracing an entry changes nothing for names beside it. -/
theorem valueOf?_of_traceEntry (hFiled : s.locator.Filed) {levels : ℕ} {c : ClassFile}
    (hReaches : s.locator.Reaches root c) {e : InnerClass} (he : e ∈ c.memberClasses)
    {r r' : Run} {o : Option Origin} (h : s.traceEntry (s.trace levels) e r = some (o, r'))
    {name : String} (hName : s.locator.Beside root e.binaryName name) :
    valueOf? name r'.complete = valueOf? name r.complete := by
  have hBelow : ∀ {d result r'}, s.locator.resolve e.binaryName = .ok d →
      s.trace levels d (some e.access) r = some (result, r') →
      valueOf? name r'.complete = valueOf? name r.complete := by
    intro d result r' hResolve hTrace
    refine (s.trace_keeps levels _ _ _ _ _ hTrace).complete name ?_
    exact hName.2 d (hReaches.member ⟨e, he, hResolve⟩) (hFiled.binaryName_member hResolve)
  cases traceEntry_eq_some.mp h with
  | skipped _ => rfl
  | reused => rfl
  | missing => rfl
  | failed _ _ _ hResolve hFailed => exact hBelow hResolve hFailed
  | built _ _ _ hResolve hBuilt =>
    rw [Run.record, valueOf?_cons, if_neg hName.1.symm, hBelow hResolve hBuilt]

section

variable (hFiled : s.locator.Filed) (hTree : s.locator.Tree root) (hLoses : s.Loses lost s')
  {levels : ℕ} {c : ClassFile} {e : InnerClass} {r r' after : Run} {o : Option Origin}

include hFiled hLoses

/-- At the entry of the lost type, the first run may go on below it. The second one does not. -/
theorem traceEntry_at_lost (hReaches : s.locator.Reaches root c) (he : e ∈ c.memberClasses)
    (hName : e.binaryName = lost) (hNew : lost ∉ r'.building)
    (hLacks : r.Lacks s.locator root lost r')
    (h : s.traceEntry (s.trace levels) e r = some (o, after)) :
    ∃ after', s'.traceEntry (s'.trace (levels + 1)) e r' = some (none, after') ∧
      after.Lacks s.locator root lost after' := by
  obtain ⟨after', hEntry, hSame⟩ := hLoses.exists_traceEntry levels hName hLacks.missing hNew
  refine ⟨after', hEntry, hSame ▸ hLacks.missing, fun name hOther => ?_⟩
  rw [hSame, hLacks.others name hOther,
    valueOf?_of_traceEntry hFiled hReaches he h (hName ▸ hOther)]

/-- At any other entry the two runs do the same. -/
theorem traceEntry_beside
    (hTrace : Tracer.Misses s.locator root lost (s.trace levels) (s'.trace (levels + 1)))
    (hReaches : s.locator.Reaches root c) (he : e ∈ c.memberClasses)
    (hBeside : s.locator.Beside root lost e.binaryName) (hNew : e.binaryName ∉ r.building)
    (hNew' : e.binaryName ∉ r'.building) (hStep : r.InStep s.locator root lost c r')
    (h : s.traceEntry (s.trace levels) e r = some (o, after)) :
    ∃ after', s'.traceEntry (s'.trace (levels + 1)) e r' =
        some (o.map fun t => t.without lost, after') ∧
      after.Lacks s.locator root lost after' := by
  have hComplete := hStep.lacks.others _ hBeside
  have hShows := hLoses.hidesNested e
  have hSame := hLoses.resolve_entry hBeside.1
  have hBelow : ∀ {d result after}, s.locator.resolve e.binaryName = .ok d →
      s.trace levels d (some e.access) r = some (result, after) →
      ∃ after', s'.trace (levels + 1) d (some e.access) r' =
          some (result.map fun t => t.without lost, after') ∧
        after.Lacks s.locator root lost after' := by
    intro d result after hResolve hTraced
    have hMember : s.locator.Member c d := ⟨e, he, hResolve⟩
    exact hTrace d _ r r' result after (hReaches.member hMember)
      (hFiled.resolve_binaryName hResolve) ((hFiled.binaryName_member hResolve).symm ▸ hBeside)
      (hStep.member hMember) hTraced
  simp only [traceEntry_eq_some]
  cases traceEntry_eq_some.mp h with
  | skipped hSkip =>
    exact ⟨r', .skipped (.inl (hShows.trans (hSkip.resolve_right hNew))), hStep.lacks⟩
  | reused hShown _ hReused =>
    rw [hReused] at hComplete
    exact ⟨r', .reused (hShows.trans hShown) hNew' hComplete, hStep.lacks⟩
  | missing hShown _ hMissing hNone =>
    rw [hMissing] at hComplete
    exact ⟨r', .missing (hShows.trans hShown) hNew' hComplete (hSame.trans hNone), hStep.lacks⟩
  | failed hShown _ hMissing hResolve hFailed =>
    rw [hMissing] at hComplete
    obtain ⟨after', hFailed', hAfter⟩ := hBelow hResolve hFailed
    exact ⟨after', .failed (hShows.trans hShown) hNew' hComplete (hSame.trans hResolve) hFailed',
      hAfter⟩
  | built hShown _ hMissing hResolve hBuilt =>
    rw [hMissing] at hComplete
    obtain ⟨after', hBuilt', hAfter⟩ := hBelow hResolve hBuilt
    exact ⟨_, .built (hShows.trans hShown) hNew' hComplete (hSame.trans hResolve) hBuilt',
      hAfter.record hBeside.1 _⟩

include hTree

/-- An entry is attached as before, without the lost class, or it is the lost class itself. -/
theorem traceEntry_lost
    (hTrace : Tracer.Misses s.locator root lost (s.trace levels) (s'.trace (levels + 1)))
    (hReaches : s.locator.Reaches root c) (hBeside : s.locator.Beside root lost c.binaryName)
    (he : e ∈ c.memberClasses) (hStep : r.InStep s.locator root lost c r')
    (h : s.traceEntry (s.trace levels) e r = some (o, after)) :
    ∃ o' after', s'.traceEntry (s'.trace (levels + 1)) e r' = some (o', after') ∧
      o'.toList = Origin.allWithout lost o.toList ∧ after.Lacks s.locator root lost after' := by
  have hNew : e.binaryName ∉ r.building :=
    hStep.around.not_mem_building hTree.acyclic hReaches he
  have hNew' : e.binaryName ∉ r'.building :=
    hStep.around'.not_mem_building hTree.acyclic hReaches he
  have hSource : ∀ t ∈ o, t.source.binaryName = e.binaryName := fun t ht =>
    hFiled.binaryName_member ((traceEntry_grows (s.trace_grows levels) hStep.grown h).2 t ht).1
  by_cases hName : e.binaryName = lost
  · obtain ⟨after', hEntry, hAfter⟩ :=
      traceEntry_at_lost hFiled hLoses hReaches he hName (hName ▸ hNew') hStep.lacks h
    refine ⟨none, after', hEntry, ?_, hAfter⟩
    rw [Origin.allWithout_toList_of_eq fun t ht => (hSource t ht).trans hName]
    rfl
  · obtain ⟨after', hEntry, hAfter⟩ := traceEntry_beside hFiled hLoses hTrace hReaches he
      (hTree.beside_entry hFiled hReaches hBeside he hName) hNew hNew' hStep h
    refine ⟨_, after', hEntry, ?_, hAfter⟩
    rw [Origin.allWithout_toList_of_ne fun t ht heq => hName ((hSource t ht).symm.trans heq)]

theorem traceEntries_lost
    (hTrace : Tracer.Misses s.locator root lost (s.trace levels) (s'.trace (levels + 1)))
    (hReaches : s.locator.Reaches root c)
    (hBeside : s.locator.Beside root lost c.binaryName) {entries : List InnerClass} :
    entries ⊆ c.memberClasses → ∀ {r r' after : Run} {origins : List Origin},
      r.InStep s.locator root lost c r' →
      s.traceEntries (s.trace levels) entries r = some (origins, after) →
      ∃ after', s'.traceEntries (s'.trace (levels + 1)) entries r' =
          some (Origin.allWithout lost origins, after') ∧
        after.Lacks s.locator root lost after' := by
  induction entries with
  | nil =>
    intro _ r r' after origins hStep h
    cases h
    exact ⟨r', rfl, hStep.lacks⟩
  | cons e entries ih =>
    intro hEntries r r' after origins hStep h
    obtain ⟨he, hEntries⟩ := List.cons_subset.mp hEntries
    obtain ⟨o, between, rest, hEntry, hRest, rfl⟩ := traceEntries_cons_eq_some.mp h
    obtain ⟨o', between', hEntry', hToList, hBetween⟩ :=
      traceEntry_lost hFiled hTree hLoses hTrace hReaches hBeside he hStep hEntry
    have hStep' : between.InStep s.locator root lost c between' := {
      around := hStep.around.mono (traceEntry_keeps (s.trace_keeps levels) he hEntry).building
      around' :=
        hStep.around'.mono (traceEntry_keeps (s'.trace_keeps (levels + 1)) he hEntry').building
      grown := (traceEntry_grows (s.trace_grows levels) hStep.grown hEntry).1
      lacks := hBetween }
    obtain ⟨after', hRest', hAfter⟩ := ih hEntries hStep' hRest
    refine ⟨after', ?_, hAfter⟩
    rw [traceEntries_cons_eq_some, Origin.allWithout_append, ← hToList]
    exact ⟨o', between', _, hEntry', hRest', rfl⟩

/-- A run in which a type is lost builds what a run builds in which it is not, without that type. It
goes one level further down, to see that the lost type cannot be built. -/
theorem trace_lost (levels : ℕ) :
    Tracer.Misses s.locator root lost (s.trace levels) (s'.trace (levels + 1)) := by
  induction levels with
  | zero =>
    intro c access r r' result after _ _ _ _ h
    cases h
  | succ levels ih =>
    intro c access r r' result after hReaches hResolve hBeside hStep h
    simp only [trace_succ_eq_some]
    have hStart := hStep.start hResolve
    cases trace_succ_eq_some.mp h with
    | failed hSkeleton =>
      rw [← hLoses.settings, ← hLoses.lookup] at hSkeleton
      exact ⟨_, .failed hSkeleton, hStart.lacks.missing, hStart.lacks.others⟩
    | built hSkeleton hNested =>
      rw [← hLoses.settings, ← hLoses.lookup] at hSkeleton
      obtain ⟨inner', hNested', hInner⟩ := traceEntries_lost hFiled hTree hLoses ih hReaches
        hBeside (List.Subset.refl _) hStart hNested
      exact ⟨_, .built hSkeleton hNested', hInner.missing, hInner.others⟩

end

/-- If every class file is stored under the name it claims, and the class files below one that can
be sketched are a tree, then a class file that is lost costs its own nested type in the sketch, with
what is nested in it, and nothing else. A class file that has no type in the sketch costs nothing,
unless it is that of the sketch itself. There has to be room for one level more, to see that the
lost type cannot be built. -/
theorem sketch_lost (s : Sketcher) (hFiled : s.locator.Filed) {name : String} {root : ClassFile}
    (hResolve : s.locator.resolve name = .ok root) (hTree : s.locator.Tree root) {levels : ℕ}
    {t : TypeDecl} (hSketch : s.sketch levels name = some (.ok t)) :
    ∃ o run, s.trace levels root none .empty = some (.ok o, run) ∧
      o.decl = t ∧ o.names.Nodup ∧ ∀ lost s', s.Loses lost s' →
        (lost ∈ o.names →
          ∃ o', o.Prunes lost o' ∧ s'.sketch (levels + 1) name = some (.ok o'.decl)) ∧
        (lost ∉ o.names → lost ≠ root.binaryName → s'.sketch (levels + 1) name = some (.ok t)) := by
  obtain ⟨⟨result, run⟩, hTrace, hResult⟩ :=
    Option.map_eq_some_iff.mp ((s.sketch_eq_trace levels hResolve).symm.trans hSketch)
  cases result with
  | error e => cases hResult
  | ok o =>
    cases hResult
    obtain ⟨hSource, hFits⟩ := (s.trace_grows _ _ _ _ _ _ (grown_empty _) hTrace).2 o rfl
    have hNodup := hFits.nodup_names hFiled hTree (hSource ▸ .refl)
    have hRoot := hFiled.resolve_binaryName hResolve
    refine ⟨o, run, hTrace, rfl, hNodup, fun lost s' hLoses => ?_⟩
    have hWithout : lost ≠ root.binaryName →
        s'.sketch (levels + 1) name = some (.ok (o.without lost).decl) := by
      intro hLost
      have hResolve' : s'.locator.resolve name = .ok root := by
        rw [hLoses.others name, hResolve]
        exact hFiled.binaryName_eq hResolve ▸ hLost.symm
      obtain ⟨run', hTrace', -⟩ := trace_lost hFiled hTree hLoses levels root none empty empty _ run
        .refl hRoot (hTree.acyclic.beside_root hRoot hLost.symm) (inStep_empty _ root lost) hTrace
      rw [sketch_eq_trace _ hResolve', hTrace']
      rfl
    constructor
    · intro hLost
      refine ⟨o.without lost, Origin.prunes_without hNodup hLost, hWithout ?_⟩
      rintro rfl
      have hBelow := hFits.names_below hFiled _ hLost
      rw [hSource] at hBelow
      exact hTree.acyclic.not_below_self hRoot hBelow
    · intro hLost hOther
      rw [hWithout hOther, Origin.without_eq_self hLost]

/-- A class with two nested classes, the first of which has a nested class of its own. -/
def branched : List (String × List UInt8) := [
  ("p/A.class", (classWithInner "p/A" [("p/A$B", "p/A", "B"), ("p/A$C", "p/A", "C")]).encode),
  ("p/A$B.class", (classWithInner "p/A$B" [("p/A$B$D", "p/A$B", "D")]).encode),
  ("p/A$B$D.class", (classWithInner "p/A$B$D" []).encode),
  ("p/A$C.class", (classWithInner "p/A$C" []).encode)]

/-- The first nested class, with a signature that has no type parameter between its brackets. -/
def damaged : ClassFile :=
  { classWithInner "p/A$B" [("p/A$B$D", "p/A$B", "D")] with
    signature := some "<>Ljava/lang/Object;" }

/-- The class files in memory. -/
def whole : Sketcher := ⟨.memory branched, fun _ _ => none, {}⟩

/-- The same with the damaged class file. -/
def bereft : Sketcher where
  locator := .memory (Locator.putResource branched (classFilePath "p.A$B") damaged.encode)
  lookup := fun _ _ => none
  settings := {}

theorem filed_whole : whole.locator.Filed := Locator.filed_memory_of_all (by decide +kernel)

theorem tree_whole {root : ClassFile} (h : ∃ name, whole.locator.resolve name = .ok root) :
    whole.locator.Tree root := by
  have hLonger : ∀ bytes ∈ whole.locator.contents, (ClassFile.parse bytes).toOption.all fun c =>
      ∀ e ∈ c.memberClasses, c.binaryName.length < e.binaryName.length := by
    decide +kernel
  refine (filed_whole.acyclic_of_length h fun c hFound => ?_).tree h (by decide +kernel)
  obtain ⟨name, hResolve⟩ := hFound
  exact Locator.of_forall_contents hLonger hResolve

theorem loses_bereft : whole.Loses "p.A$B" bereft := by
  have hBroken : (ClassFile.parse damaged.encode).toOption.all fun c =>
      (skeleton whole.settings whole.lookup c none).isOk = false := by
    decide +kernel
  refine loses_putResource (by decide) fun c hParse => ?_
  rw [hParse] at hBroken
  exact Except.isOk_eq_false_iff.mp (of_decide_eq_true hBroken)

/-- The nested type `p.A$B` is lost, with what is nested in it, and the other one stays. -/
theorem sketch_lost_bereft : whole.locator.Filed ∧ whole.Loses "p.A$B" bereft ∧
    ∃ root t, whole.locator.resolve "p.A" = .ok root ∧ whole.locator.Tree root ∧
      whole.sketch 3 "p.A" = some (.ok t) ∧ t.nestedTypes.length = 2 ∧
      ∃ o o' : Origin, o.decl = t ∧ o.Prunes "p.A$B" o' ∧
        bereft.sketch 4 "p.A" = some (.ok o'.decl) ∧ o'.decl.nestedTypes.length = 1 := by
  have hFound : (whole.locator.resolve "p.A").isOk = true := by decide +kernel
  have hWhole : (whole.sketch 3 "p.A").any (fun result =>
      result.toOption.any fun t => t.nestedTypes.length = 2) = true := by
    decide +kernel
  have hBereft : (bereft.sketch 4 "p.A").any (fun result =>
      result.toOption.any fun t => t.nestedTypes.length = 1) = true := by
    decide +kernel
  obtain ⟨root, hResolve⟩ := Except.isOk_iff.mp hFound
  obtain ⟨t, hSketch, hTwo⟩ := exists_of_any_sketch hWhole
  obtain ⟨t', hSketch', hOne⟩ := exists_of_any_sketch hBereft
  have hTree := tree_whole ⟨_, hResolve⟩
  refine ⟨filed_whole, loses_bereft, root, t, hResolve, hTree, hSketch, of_decide_eq_true hTwo, ?_⟩
  obtain ⟨o, run, -, hDecl, -, hLost⟩ := sketch_lost whole filed_whole hResolve hTree hSketch
  obtain ⟨hPruned, hSame⟩ := hLost "p.A$B" bereft loses_bereft
  by_cases hName : "p.A$B" ∈ o.names
  · obtain ⟨o', hPrunes, hSketched⟩ := hPruned hName
    rw [hSketched] at hSketch'
    cases hSketch'
    exact ⟨o, o', hDecl, hPrunes, hSketched, of_decide_eq_true hOne⟩
  · -- the sketches are different
    have hRoot : "p.A$B" ≠ root.binaryName := by
      rw [filed_whole.binaryName_eq hResolve]
      decide +kernel
    rw [hSame hName hRoot] at hSketch'
    cases hSketch'
    exact absurd ((of_decide_eq_true hTwo).symm.trans (of_decide_eq_true hOne)) (by decide)

end Sketcher

end ClassSketch
