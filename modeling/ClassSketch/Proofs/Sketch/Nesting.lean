import ClassSketch.Proofs.ClassFile.Encoding
import ClassSketch.Proofs.Locate.Filing
import ClassSketch.Proofs.Sketch.Levels
import ClassSketch.Proofs.Sketch.Trace

/-!
# Nesting ends

Tables of inner classes may be cyclic. A sketch comes to an end all the same, if every class file is
stored under the name it claims. What decreases is the set of names of classes that can be found and
are not being built: while the types nested in a type are built, the name of that type is missing
from the set.

A nested type that is complete is attached again without being built again. That this makes no cycle
rests on two facts that every step preserves: no name is complete and being built at the same time,
and all types nested in a complete one are complete.

## Main definitions

* `Locator.remaining` — the names that can be found and are not being built
* `Origin.Within` — no name occurs twice on the way down, and all are among given ones
* `Run.Sound` — what every step of a run preserves
* `Run.Traced` — what becomes of a class file in a run

## Main results

* `Sketcher.trace_traced` — the invariant, and room enough
* `Sketcher.sketch_ends` — sketches end, no name occurs twice on the way down, and none is built
  twice
-/

namespace ClassSketch

/-! ### The measure -/

namespace Locator

variable {l : Locator}

/-- The names that can be found and are not being built. -/
def remaining (l : Locator) (building : List String) : Set String :=
  {name | name ∈ l.resolvable ∧ name ∉ building}

theorem remaining_nil (l : Locator) : l.remaining [] = l.resolvable := by
  simp [remaining]

/-- A class that is being built is no longer among those that are left. -/
theorem Filed.ncard_remaining_cons_lt (h : l.Filed) {name : String} {building : List String}
    (hName : name ∈ l.resolvable) (hNew : name ∉ building) :
    (l.remaining (name :: building)).ncard < (l.remaining building).ncard := by
  refine Set.ncard_lt_ncard ?_ (h.finite_resolvable.subset fun other hOther => hOther.1)
  have hSubset : l.remaining (name :: building) ⊆ l.remaining building :=
    fun other hOther => ⟨hOther.1, fun hMem => hOther.2 (List.mem_cons_of_mem name hMem)⟩
  rw [Set.ssubset_iff_of_subset hSubset]
  exact ⟨name, ⟨hName, hNew⟩, fun hMem => hMem.2 List.mem_cons_self⟩

end Locator

/-! ### The invariant -/

/-- No name occurs twice on the way down to a nested type, and all are among the given ones. -/
def Origin.Within (o : Origin) (names : List String) : Prop :=
  ∀ path, o.Path path →
    (path.map ClassFile.binaryName).Nodup ∧ ∀ c ∈ path, c.binaryName ∈ names

/-- What is made of some names is made of more names. -/
theorem Origin.Within.mono {o : Origin} {names others : List String} (h : o.Within names)
    (hSubset : names ⊆ others) : o.Within others :=
  fun path hPath => ⟨(h path hPath).1, fun c hc => hSubset ((h path hPath).2 c hc)⟩

/-- A type of a new name with nested types of other names. -/
theorem Origin.Within.node {c : ClassFile} {t : TypeDecl} {nested : List Origin}
    {names : List String} (hNested : ∀ o ∈ nested, o.Within names)
    (hNew : c.binaryName ∉ names) : (Origin.node c t nested).Within (c.binaryName :: names) := by
  intro path hPath
  cases hPath with
  | here => simp
  | down hMem hPath =>
    obtain ⟨hNodup, hNames⟩ := hNested _ hMem _ hPath
    constructor
    · rw [List.map_cons, List.nodup_cons]
      refine ⟨fun hAgain => ?_, hNodup⟩
      obtain ⟨d, hd, hName⟩ := List.mem_map.mp hAgain
      exact hNew (hName ▸ hNames d hd)
    · intro d hd
      rcases List.mem_cons.mp hd with rfl | hd
      · exact List.mem_cons_self
      · exact List.mem_cons_of_mem _ (hNames d hd)

namespace Run

/-- The names of the nested types that are complete. -/
def names (r : Run) : List String := r.complete.map Prod.fst

/-- What every step of a run preserves. -/
structure Sound (r : Run) : Prop where
  /-- No name is complete and being built at the same time. -/
  apart : ∀ name ∈ r.names, name ∉ r.building
  /-- All types nested in a complete one are complete. -/
  within : ∀ e ∈ r.complete, e.2.Within r.names
  /-- No name is built twice. -/
  once : r.built.Nodup
  /-- What is built is complete. -/
  built : r.built ⊆ r.names

theorem sound_empty : empty.Sound :=
  ⟨by simp [empty, names], by simp [empty], List.nodup_nil, List.nil_subset _⟩

/-- The run after some steps between which no type is left unfinished. -/
structure Continues (r r' : Run) : Prop where
  sound : r'.Sound
  building : r'.building = r.building
  names : r.names ⊆ r'.names

theorem Sound.continues {r : Run} (h : r.Sound) : r.Continues r := ⟨h, rfl, List.Subset.refl _⟩

theorem Continues.trans {r r' r'' : Run} (h : r.Continues r') (h' : r'.Continues r'') :
    r.Continues r'' :=
  ⟨h'.sound, h'.building.trans h.building, List.Subset.trans h.names h'.names⟩

theorem start_eq {r : Run} {name : String} (h : name ∉ r.building) :
    r.start name = { r with building := name :: r.building } := by
  rw [start, if_neg (by simpa using h)]

/-- A class that is not known yet may be started. -/
theorem Sound.start {r : Run} (h : r.Sound) {name : String} (hNew : name ∉ r.names) :
    Sound { r with building := name :: r.building } where
  apart := by
    intro other hOther hBuilding
    rcases List.mem_cons.mp hBuilding with rfl | hBuilding
    · exact hNew hOther
    · exact h.apart other hOther hBuilding
  within := h.within
  once := h.once
  built := h.built

theorem filter_cons_self {name : String} {building : List String} (h : name ∉ building) :
    (name :: building).filter (· != name) = building := by
  rw [List.filter_cons_of_neg (by simp), List.filter_eq_self]
  intro other hOther
  rw [bne_iff_ne]
  rintro rfl
  exact h hOther

/-- What becomes of a class file in a run: it fails and changes nothing, or it is built, where
`inner` is the run when its nested types are complete. -/
inductive Traced (c : ClassFile) (r : Run) : Option (Except SketchError Origin × Run) → Prop
  | failed (e : SketchError) : Traced c r (some (.error e, r))
  | built {o : Origin} {inner : Run} : inner.Sound →
      inner.building = c.binaryName :: r.building → r.names ⊆ inner.names →
      o.Within (c.binaryName :: inner.names) →
      Traced c r (some (.ok o, ⟨r.building, inner.complete, c.binaryName :: inner.built⟩))

/-- No name is built twice in a run, even if the last type that is built is not nested. -/
theorem Sound.nodup_cons_built {r : Run} (h : r.Sound) {name : String}
    (hBuilding : name ∈ r.building) : (name :: r.built).Nodup :=
  List.nodup_cons.mpr ⟨fun hBuilt => h.apart name (h.built hBuilt) hBuilding, h.once⟩

/-- The run after a nested type is built. -/
theorem Sound.continues_record {r inner : Run} {name : String} {o : Origin} (h : inner.Sound)
    (hBuilding : inner.building = name :: r.building) (hNames : r.names ⊆ inner.names)
    (hWithin : o.Within (name :: inner.names)) (hNew : name ∉ r.building) :
    r.Continues ⟨r.building, (name, o) :: inner.complete, name :: inner.built⟩ where
  sound := {
    apart := by
      intro other hOther hMem
      rcases List.mem_cons.mp hOther with rfl | hOther
      · exact hNew hMem
      · exact h.apart other hOther (hBuilding ▸ List.mem_cons_of_mem name hMem)
    within := by
      intro e he
      rcases List.mem_cons.mp he with rfl | he
      · exact hWithin
      · exact (h.within e he).mono (List.subset_cons_self _ _)
    once := h.nodup_cons_built (hBuilding ▸ List.mem_cons_self)
    built := List.cons_subset_cons name h.built }
  building := rfl
  names := List.Subset.trans hNames (List.subset_cons_self _ _)

end Run

/-! ### Runs -/

namespace Sketcher

open Run

/-- The tracer traces every class file that can be found, is not being built and is not complete,
if there are at most the given number of names left. -/
def Tracer.Total (l : Locator) (n : ℕ) (trace : Tracer) : Prop :=
  ∀ c access r, r.Sound → c.binaryName ∈ l.resolvable → c.binaryName ∉ r.building →
    c.binaryName ∉ r.names → (l.remaining r.building).ncard ≤ n → Traced c r (trace c access r)

variable {s : Sketcher} {trace : Tracer} {n : ℕ}

/-- An entry is attached or left out, and the run goes on soundly, if there is room for the classes
that are left. -/
theorem traceEntry_continues (hFiled : s.locator.Filed) (hTrace : trace.Total s.locator n)
    (e : InnerClass) {r : Run} (h : r.Sound) (hLeft : (s.locator.remaining r.building).ncard ≤ n) :
    ∃ o r', s.traceEntry trace e r = some (o, r') ∧ r.Continues r' ∧
      ∀ t ∈ o, t.Within r'.names := by
  rw [traceEntry]
  split
  · exact ⟨none, r, rfl, h.continues, by simp⟩
  · next hShown =>
    have hNew : e.binaryName ∉ r.building := by
      intro hBuilding
      exact hShown (by simp [hBuilding])
    cases hComplete : valueOf? e.binaryName r.complete with
    | some done =>
      refine ⟨some done, r, rfl, h.continues, ?_⟩
      rintro _ ⟨⟩
      exact h.within _ (mem_of_valueOf? hComplete)
    | none =>
      cases hResolve : s.locator.resolve e.binaryName with
      | error _ => exact ⟨none, r, rfl, h.continues, by simp⟩
      | ok c =>
        -- as it claims the name of the entry, it is neither complete nor being built
        have hName : c.binaryName = e.binaryName :=
          hFiled _ c (slash_not_mem_dotted e.inner) hResolve
        have hTraced := hTrace c (some e.access) r h (hFiled.mem_resolvable hResolve)
          (hName ▸ hNew) (hName ▸ not_mem_keys_of_valueOf?_eq_none hComplete) hLeft
        simp only
        generalize trace c (some e.access) r = outcome at hTraced ⊢
        cases hTraced with
        | failed error => exact ⟨none, r, rfl, h.continues, by simp⟩
        | built hInner hBuilding hNames hWithin =>
          rename_i o inner
          rw [hName] at hBuilding hWithin
          refine ⟨some o, _, rfl, ?_, ?_⟩
          · rw [record, hName]
            exact hInner.continues_record hBuilding hNames hWithin hNew
          · rintro _ ⟨⟩
            exact hWithin

/-- The entries of a class file are gone through to their end. -/
theorem traceEntries_continues (hFiled : s.locator.Filed) (hTrace : trace.Total s.locator n)
    (entries : List InnerClass) : ∀ {r : Run}, r.Sound →
      (s.locator.remaining r.building).ncard ≤ n →
      ∃ origins r', s.traceEntries trace entries r = some (origins, r') ∧ r.Continues r' ∧
        ∀ o ∈ origins, o.Within r'.names := by
  induction entries with
  | nil => exact fun {r} h _ => ⟨[], r, rfl, h.continues, by simp⟩
  | cons e entries ih =>
    intro r h hLeft
    obtain ⟨o, r', hEntry, hOne, hFirst⟩ := traceEntry_continues hFiled hTrace e h hLeft
    obtain ⟨origins, r'', hEntries, hOthers, hRest⟩ :=
      ih hOne.sound (by rwa [hOne.building])
    refine ⟨o.toList ++ origins, r'', ?_, hOne.trans hOthers, ?_⟩
    · rw [traceEntries, hEntry]
      simp only [hEntries, Option.map_some]
    · intro t ht
      rcases List.mem_append.mp ht with ht | ht
      · exact (hFirst t (Option.mem_toList.mp ht)).mono hOthers.names
      · exact hRest t ht

/-- There is room enough: with each level down, one name less is left. -/
theorem trace_traced (s : Sketcher) (hFiled : s.locator.Filed) (n : ℕ) :
    Tracer.Total s.locator n (s.trace n) := by
  induction n with
  | zero =>
    intro c access r _ hFound hNew _ hLeft
    have hLess := hFiled.ncard_remaining_cons_lt hFound hNew
    omega
  | succ n ih =>
    intro c access r h hFound hNew hIncomplete hLeft
    rw [Sketcher.trace, start_eq hNew]
    cases skeleton s.settings s.lookup c access with
    | error e =>
      simp only [finish, filter_cons_self hNew]
      exact .failed e
    | ok t =>
      -- one name less is left while the nested types are traced
      have hLess := hFiled.ncard_remaining_cons_lt hFound hNew
      obtain ⟨nested, inner, hNested, hInner, hWithin⟩ :=
        traceEntries_continues hFiled ih c.memberClasses (h.start hIncomplete) (by simp only; omega)
      have hBuilding : inner.building = c.binaryName :: r.building := hInner.building
      simp only [hNested, Option.map_some, finish, add, hBuilding, filter_cons_self hNew]
      refine .built hInner.sound hBuilding hInner.names (.node hWithin fun hMem => ?_)
      exact hInner.sound.apart _ hMem (hBuilding ▸ List.mem_cons_self)

/-- A class file that is found is traced with as many levels as there are classes to be found. -/
theorem traced_of_resolve (s : Sketcher) (hFiled : s.locator.Filed) {name : String} {c : ClassFile}
    (hResolve : s.locator.resolve name = .ok c) :
    Traced c .empty (s.trace s.locator.resolvable.ncard c none .empty) := by
  refine s.trace_traced hFiled _ c none .empty sound_empty (hFiled.mem_resolvable hResolve)
    List.not_mem_nil List.not_mem_nil ?_
  rw [Run.empty, Locator.remaining_nil]

/-- A class that is found is traced, with as many levels as there are classes. -/
theorem exists_trace (s : Sketcher) (hFiled : s.locator.Filed) {name : String} {c : ClassFile}
    (hResolve : s.locator.resolve name = .ok c) :
    ∃ result run, s.trace s.locator.resolvable.ncard c none .empty = some (result, run) := by
  have hTraced := s.traced_of_resolve hFiled hResolve
  generalize s.trace s.locator.resolvable.ncard c none .empty = outcome at hTraced ⊢
  cases hTraced with
  | failed e => exact ⟨_, _, rfl⟩
  | built => exact ⟨_, _, rfl⟩

/-- A sketch of a name, with the class file that is found under it, that ends with a result. -/
structure Ends (s : Sketcher) (name : String) (c : ClassFile) (levels : ℕ)
    (result : Except SketchError Origin) (run : Run) : Prop where
  /-- It goes no more than the given number of levels down. -/
  trace : s.trace levels c none .empty = some (result, run)
  /-- The result is what is sketched wherever there is room for so many levels. -/
  sketch : ∀ m, levels ≤ m → s.sketch m name = some (result.map Origin.decl)
  /-- No name occurs twice on the way down to a nested type. -/
  apart : ∀ origin, result = .ok origin → ∀ path, origin.Path path →
    (path.map ClassFile.binaryName).Nodup
  /-- No name is built twice. -/
  once : run.built.Nodup

/-- If every class file is stored under the name it claims, the sketch of every name ends, and goes
at most as many levels down as there are names of classes to be found, spelled with dots. -/
theorem sketch_ends (s : Sketcher) (hFiled : s.locator.Filed) (name : String) :
    (∀ e, s.locator.resolve name = .error e →
      ∀ m, s.sketch m name = some (.error (.lookup e))) ∧
    ∀ c, s.locator.resolve name = .ok c → s.locator.resolvable.Finite ∧
      ∃ result run, s.Ends name c s.locator.resolvable.ncard result run := by
  constructor
  · exact fun e h m => sketch_eq_some.mpr (.inl ⟨e, h, rfl⟩)
  · intro c h
    refine ⟨hFiled.finite_resolvable, ?_⟩
    have hTraced := s.traced_of_resolve hFiled h
    generalize hTrace : s.trace s.locator.resolvable.ncard c none .empty = outcome at hTraced
    have hSketch : ∀ m, s.locator.resolvable.ncard ≤ m →
        s.sketch m name = outcome.map fun outcome => outcome.1.map Origin.decl := by
      intro m hRoom
      have hEnough := s.sketch_eq_trace s.locator.resolvable.ncard h
      rw [hTrace] at hEnough
      cases hTraced <;> exact sketch_mono hRoom hEnough
    cases hTraced with
    | failed e =>
      refine ⟨_, _, hTrace, hSketch, ?_, List.nodup_nil⟩
      rintro origin ⟨⟩
    | built hInner hBuilding _ hWithin =>
      refine ⟨_, _, hTrace, hSketch, ?_, hInner.nodup_cons_built (hBuilding ▸ List.mem_cons_self)⟩
      rintro origin ⟨⟩ path hPath
      exact (hWithin path hPath).1

/-- A class file with a table of inner classes: for each its name, the name of the class around it,
and its simple name. -/
def classWithInner (name : String) (inner : List (String × String × String)) : ClassFile where
  majorVersion := 52
  access := ⟨0x21⟩
  thisClass := name
  superClass := some "java/lang/Object"
  interfaces := []
  signature := none
  fields := []
  methods := []
  annotations := []
  innerClasses := inner.map fun (name, outer, simple) => ⟨name, some outer, some simple, ⟨0x9⟩⟩

/-- Three nested classes. The second one also lists the first one and itself as its inner classes,
and the third one lists the second. -/
def knot : List (String × List UInt8) := [
  ("p/A.class", (classWithInner "p/A" [("p/A$B", "p/A", "B")]).encode),
  ("p/A$B.class", (classWithInner "p/A$B"
    [("p/A", "p/A$B", "A"), ("p/A$B", "p/A$B", "B"), ("p/A$B$C", "p/A$B", "C")]).encode),
  ("p/A$B$C.class", (classWithInner "p/A$B$C" [("p/A$B", "p/A$B$C", "B")]).encode)]

/-- The three classes in memory. -/
def knotted : Sketcher := ⟨.memory knot, fun _ _ => none, {}⟩

theorem filed_knotted : knotted.locator.Filed :=
  Locator.filed_memory_of_all (by decide +kernel)

theorem sketch_ends_knotted : knotted.locator.Filed ∧ ∃ c, knotted.locator.resolve "p.A" = .ok c ∧
    knotted.locator.resolvable.Finite ∧ ∃ origin run,
      knotted.Ends "p.A" c knotted.locator.resolvable.ncard (.ok origin) run := by
  refine ⟨filed_knotted, ?_⟩
  have hFound : (knotted.locator.resolve "p.A").isOk = true := by decide +kernel
  have hSketched : (knotted.sketch 4 "p.A").any Except.isOk = true := by decide +kernel
  obtain ⟨c, hResolve⟩ := Except.isOk_iff.mp hFound
  obtain ⟨sketched, hSketch, hOk⟩ := (Option.any_eq_true _ _).mp hSketched
  obtain ⟨hFinite, result, run, hEnds⟩ := (sketch_ends knotted filed_knotted "p.A").2 c hResolve
  -- the outcome is the same with more room than either of the two needs
  have hSame := (sketch_mono (le_max_left 4 _) hSketch).symm.trans
    (hEnds.sketch _ (le_max_right 4 _))
  rw [Option.some.injEq] at hSame
  cases result with
  | error e =>
    rw [hSame] at hOk
    cases hOk
  | ok origin => exact ⟨c, hResolve, hFinite, origin, run, hEnds⟩

end Sketcher

end ClassSketch
