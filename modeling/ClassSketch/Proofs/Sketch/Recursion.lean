import ClassSketch.Proofs.Sketch.Nesting
import Mathlib.Logic.Relation

/-!
# Sketches as a plain recursion

A sketch keeps the types being built and the nested types that are complete. The plain recursion
keeps nothing: it finds the class file of every entry that is shown, builds it with the access flags
of the entry, and leaves out what cannot be built. Both give the same result if the tables of inner
classes lead to no class file twice on the way down, and entries of one name record the same flags.

A nested type that is complete stands for what the plain recursion would build in its place. What
makes this an invariant is that failures are not kept, and that a type being built is never met
again: it would be on its own way down.

## Main definitions

* `Sketcher.plain`, `Sketcher.plainSketch` — the plain recursion, on a number of levels
* `Locator.Member` — the step from a class file to one that it lists as its member
* `Locator.Acyclic`, `Locator.Agrees` — what is asked of the class files below a class file
* `Run.Plain`, `Run.Around` — the invariant

## Main results

* `Sketcher.trace_plain` — the invariant, and that a trace builds what the plain recursion builds
* `Sketcher.sketch_eq_plainSketch` — sketches are plain recursions
-/

namespace ClassSketch

/-! ### The plain recursion -/

namespace Sketcher

/-- How a class file is turned into a type, given the access flags recorded for it, where nothing is
kept. There may be no outcome. -/
abbrev Recursion := ClassFile → Option AccessFlags → Option (Except SketchError TypeDecl)

/-- The nested type of an entry, unless it is not shown or cannot be built. -/
def plainEntry (s : Sketcher) (plain : Recursion) (e : InnerClass) : Option (Option TypeDecl) :=
  if s.hidesNested e then some none
  else
    match s.locator.resolve e.binaryName with
    | .error _ => some none
    | .ok c => (plain c (some e.access)).map Except.toOption

/-- The nested types of entries, in order. -/
def plainEntries (s : Sketcher) (plain : Recursion) : List InnerClass → Option (List TypeDecl)
  | [] => some []
  | e :: entries =>
    (s.plainEntry plain e).bind fun t =>
      (plainEntries s plain entries).map fun nested => t.toList ++ nested

/-- The type of a class file with its nested types. There is no outcome where there would have to be
room for more levels, the class file itself being on the first of them. -/
def plain (s : Sketcher) : ℕ → Recursion
  | 0, _, _ => none
  | levels + 1, c, access =>
    match skeleton s.settings s.lookup c access with
    | .error e => some (.error e)
    | .ok t =>
      (s.plainEntries (s.plain levels) c.memberClasses).map fun nested =>
        .ok { t with nestedTypes := nested }

/-- The type of a name with its nested types. -/
def plainSketch (s : Sketcher) (levels : ℕ) (name : String) :
    Option (Except SketchError TypeDecl) :=
  match s.locator.resolve name with
  | .error e => some (.error (.lookup e))
  | .ok c => s.plain levels c none

variable {s : Sketcher}

/-- A recursion has an outcome at least where another one does, and then the same. -/
def Recursion.Extends (plain' plain : Recursion) : Prop :=
  ∀ c access result, plain c access = some result → plain' c access = some result

/-- An entry that is attached with some levels is attached in the same way with more. -/
theorem plainEntry_extends {plain plain' : Recursion} (h : plain'.Extends plain) {e : InnerClass}
    {t : Option TypeDecl} (hEntry : s.plainEntry plain e = some t) :
    s.plainEntry plain' e = some t := by
  rw [plainEntry] at hEntry ⊢
  split
  · next hHidden => rwa [if_pos hHidden] at hEntry
  · next hShown =>
    rw [if_neg hShown] at hEntry
    cases hResolve : s.locator.resolve e.binaryName with
    | error _ => rwa [hResolve] at hEntry
    | ok c =>
      rw [hResolve] at hEntry
      obtain ⟨result, hResult, rfl⟩ := Option.map_eq_some_iff.mp hEntry
      exact Option.map_eq_some_iff.mpr ⟨result, h _ _ _ hResult, rfl⟩

/-- Entries that are attached with some levels are attached in the same way with more. -/
theorem plainEntries_extends {plain plain' : Recursion} (h : plain'.Extends plain)
    {entries : List InnerClass} : ∀ {nested : List TypeDecl},
      s.plainEntries plain entries = some nested → s.plainEntries plain' entries = some nested := by
  induction entries with
  | nil => exact fun hNested => hNested
  | cons e entries ih =>
    intro nested hNested
    obtain ⟨t, hEntry, hRest⟩ := Option.bind_eq_some_iff.mp hNested
    obtain ⟨others, hOthers, rfl⟩ := Option.map_eq_some_iff.mp hRest
    rw [plainEntries, plainEntry_extends h hEntry, Option.bind_some, ih hOthers, Option.map_some]

/-- With more levels the recursion gives the same result. -/
theorem plain_extends (s : Sketcher) {n : ℕ} :
    ∀ {m : ℕ}, n ≤ m → Recursion.Extends (s.plain m) (s.plain n) := by
  induction n with
  | zero =>
    intro m _ c access result h
    cases h
  | succ n ih =>
    intro m hLevels c access result h
    obtain ⟨m, rfl⟩ : ∃ k, m = k + 1 := ⟨m - 1, by omega⟩
    rw [plain] at h ⊢
    cases hSkeleton : skeleton s.settings s.lookup c access with
    | error e => rwa [hSkeleton] at h
    | ok t =>
      rw [hSkeleton] at h
      obtain ⟨nested, hNested, rfl⟩ := Option.map_eq_some_iff.mp h
      have hMore := plainEntries_extends (ih (Nat.le_of_succ_le_succ hLevels)) hNested
      exact Option.map_eq_some_iff.mpr ⟨nested, hMore, rfl⟩

end Sketcher

/-! ### The class files below a class file -/

namespace Locator

/-- The step from a class file to one that it lists as its member. -/
def Member (l : Locator) (c d : ClassFile) : Prop :=
  ∃ e ∈ c.memberClasses, l.resolve e.binaryName = .ok d

/-- The class files below a class file, and itself. -/
def Reaches (l : Locator) : ClassFile → ClassFile → Prop := Relation.ReflTransGen l.Member

/-- No class file below the given one, nor itself, is below itself. -/
def Acyclic (l : Locator) (root : ClassFile) : Prop :=
  ∀ c, l.Reaches root c → ¬Relation.TransGen l.Member c c

/-- All entries of one name, in the given class file and those below it, record the same flags. -/
def Agrees (l : Locator) (root : ClassFile) : Prop :=
  ∀ c d, l.Reaches root c → l.Reaches root d → ∀ e ∈ c.memberClasses, ∀ e' ∈ d.memberClasses,
    e.binaryName = e'.binaryName → e.access = e'.access

variable {l : Locator}

theorem Reaches.member {c d : ClassFile} {root : ClassFile} (h : l.Reaches root c)
    (hMember : l.Member c d) : l.Reaches root d :=
  Relation.ReflTransGen.tail h hMember

/-- A class file that is found is found under the name it claims. -/
theorem Filed.resolve_binaryName (h : l.Filed) {name : String} {c : ClassFile}
    (hResolve : l.resolve name = .ok c) : l.resolve c.binaryName = .ok c := by
  rw [h.binaryName_eq hResolve]
  exact resolve_dotted hResolve

/-- The class files below one that is found are found. -/
theorem Reaches.found {root c : ClassFile} (h : l.Reaches root c)
    (hRoot : ∃ name, l.resolve name = .ok root) : ∃ name, l.resolve name = .ok c := by
  cases h with
  | refl => exact hRoot
  | tail _ hMember =>
    obtain ⟨e, -, hResolve⟩ := hMember
    exact ⟨e.binaryName, hResolve⟩

/-- There is no cycle if a rank grows from every class file to its members. -/
theorem acyclic_of_rank {root : ClassFile} (rank : ClassFile → ℕ)
    (h : ∀ c d, l.Reaches root c → l.Member c d → rank c < rank d) : l.Acyclic root := by
  intro c hReaches hCycle
  have hBelow : ∀ d, Relation.TransGen l.Member c d → l.Reaches root d ∧ rank c < rank d := by
    intro d hPath
    induction hPath with
    | single hStep => exact ⟨hReaches.member hStep, h _ _ hReaches hStep⟩
    | tail _ hStep ih => exact ⟨ih.1.member hStep, ih.2.trans (h _ _ ih.1 hStep)⟩
  exact (hBelow c hCycle).2.false

/-- There is no cycle if members have longer names than the class files that list them. -/
theorem Filed.acyclic_of_length {root : ClassFile} (h : l.Filed)
    (hRoot : ∃ name, l.resolve name = .ok root)
    (hLonger : ∀ c, (∃ name, l.resolve name = .ok c) →
      ∀ e ∈ c.memberClasses, c.binaryName.length < e.binaryName.length) : l.Acyclic root := by
  refine acyclic_of_rank (fun c => c.binaryName.length) fun c d hReaches hMember => ?_
  obtain ⟨e, he, hResolve⟩ := hMember
  simp only [h _ d (slash_not_mem_dotted e.inner) hResolve]
  exact hLonger c (hReaches.found hRoot) e he

end Locator

/-! ### The invariant -/

namespace Run

/-- Every nested type that is complete is what the plain recursion builds for an entry below the
root, with the flags of that entry. -/
def Plain (s : Sketcher) (root : ClassFile) (r : Run) : Prop :=
  ∀ done ∈ r.complete, ∃ c e d n, s.locator.Reaches root c ∧ e ∈ c.memberClasses ∧
    e.binaryName = done.1 ∧ s.locator.resolve e.binaryName = .ok d ∧
    s.plain n d (some e.access) = some (.ok done.2.decl)

/-- All types being built are around a class file, or it is one of them. -/
def Around (l : Locator) (c : ClassFile) (r : Run) : Prop :=
  ∀ name ∈ r.building, ∃ d, l.resolve name = .ok d ∧ l.Reaches d c

variable {s : Sketcher} {root c : ClassFile} {r r' : Run}

theorem Around.mono {l : Locator} (h : r.Around l c) (hSubset : r'.building ⊆ r.building) :
    r'.Around l c :=
  fun name hName => h name (hSubset hName)

theorem building_start_subset (r : Run) (name : String) :
    (r.start name).building ⊆ name :: r.building := by
  rw [start]
  split
  · exact List.subset_cons_self _ _
  · exact List.Subset.refl _

/-- A class that is finished is no longer among those that are being built. -/
theorem building_finish_subset {name : String} (h : r'.building ⊆ name :: r.building) :
    (r'.finish name).building ⊆ r.building := by
  intro other hOther
  obtain ⟨hMem, hne⟩ := List.mem_filter.mp hOther
  rcases List.mem_cons.mp (h hMem) with rfl | hMem
  · simp at hne
  · exact hMem

@[simp] theorem complete_start (r : Run) (name : String) :
    (r.start name).complete = r.complete := by
  rw [start]
  split <;> rfl

/-- The types around the members of a class file are those around it, and itself. -/
theorem Around.start {l : Locator} (h : r.Around l c) (hResolve : l.resolve c.binaryName = .ok c) :
    (r.start c.binaryName).Around l c := by
  intro name hName
  rcases List.mem_cons.mp (building_start_subset r c.binaryName hName) with rfl | hName
  · exact ⟨c, hResolve, .refl⟩
  · exact h name hName

/-- The classes that are being built are around a member, too. -/
theorem Around.member {l : Locator} (h : r.Around l c) {d : ClassFile} (hMember : l.Member c d) :
    r.Around l d := by
  intro name hName
  obtain ⟨around, hResolve, hReaches⟩ := h name hName
  exact ⟨around, hResolve, hReaches.member hMember⟩

/-- No entry of a class file has the name of a type being built around it. -/
theorem Around.not_mem_building {l : Locator} (h : r.Around l c) (hAcyclic : l.Acyclic root)
    (hReaches : l.Reaches root c) {e : InnerClass} (he : e ∈ c.memberClasses) :
    e.binaryName ∉ r.building := by
  intro hName
  obtain ⟨d, hResolve, hAround⟩ := h _ hName
  have hMember : l.Member c d := ⟨e, he, hResolve⟩
  exact hAcyclic d (hReaches.member hMember) (Relation.TransGen.tail' hAround hMember)

end Run

/-! ### Traces and plain recursions -/

namespace Sketcher

open Run

variable {s : Sketcher} {root : ClassFile} {trace : Tracer}

/-- The tracer builds what the plain recursion builds, and preserves the invariant. -/
def Tracer.Plain (s : Sketcher) (root : ClassFile) (trace : Tracer) : Prop :=
  ∀ c access r result r', s.locator.Reaches root c → s.locator.resolve c.binaryName = .ok c →
    r.Around s.locator c → r.Plain s root → trace c access r = some (result, r') →
    (∃ n, s.plain n c access = some (result.map Origin.decl)) ∧ r'.Plain s root ∧
      r'.building ⊆ r.building

/-- What a run attaches, whether it is built now or reused, is what the plain recursion gives. -/
theorem traceEntry_plain (hFiled : s.locator.Filed) (hAcyclic : s.locator.Acyclic root)
    (hAgrees : s.locator.Agrees root) (hTrace : trace.Plain s root) {c : ClassFile}
    (hReaches : s.locator.Reaches root c) {e : InnerClass} (he : e ∈ c.memberClasses) {r r' : Run}
    (hAround : r.Around s.locator c) (hPlain : r.Plain s root) {o : Option Origin}
    (h : s.traceEntry trace e r = some (o, r')) :
    (∃ n, s.plainEntry (s.plain n) e = some (o.map Origin.decl)) ∧ r'.Plain s root ∧
      r'.building ⊆ r.building := by
  have hNew : e.binaryName ∉ r.building := hAround.not_mem_building hAcyclic hReaches he
  have hBelow : ∀ {d result after}, s.locator.resolve e.binaryName = .ok d →
      trace d (some e.access) r = some (result, after) →
      (∃ n, s.plain n d (some e.access) = some (result.map Origin.decl)) ∧ after.Plain s root ∧
        after.building ⊆ r.building := by
    intro d result after hResolve hTraced
    have hMember : s.locator.Member c d := ⟨e, he, hResolve⟩
    exact hTrace d _ r result after (hReaches.member hMember) (hFiled.resolve_binaryName hResolve)
      (hAround.member hMember) hPlain hTraced
  simp only [plainEntry]
  cases traceEntry_eq_some.mp h with
  | skipped hSkip =>
    exact ⟨⟨0, if_pos (hSkip.resolve_right hNew)⟩, hPlain, List.Subset.refl _⟩
  | reused hShown _ hComplete =>
    -- the entry that it was built for records the same flags
    obtain ⟨c', e', d, n, hReaches', he', hName, hResolve, hBuilt⟩ :=
      hPlain _ (mem_of_valueOf? hComplete)
    have hAccess : e'.access = e.access := hAgrees c' c hReaches' hReaches e' he' e he hName
    rw [hName] at hResolve
    rw [hAccess] at hBuilt
    refine ⟨⟨n, ?_⟩, hPlain, List.Subset.refl _⟩
    simp [hShown, hResolve, hBuilt, Except.toOption]
  | missing hShown _ _ hResolve =>
    exact ⟨⟨0, by simp [hShown, hResolve]⟩, hPlain, List.Subset.refl _⟩
  | failed hShown _ _ hResolve hFailed =>
    obtain ⟨⟨n, hNone⟩, hAfter, hBuilding⟩ := hBelow hResolve hFailed
    refine ⟨⟨n, ?_⟩, hAfter, hBuilding⟩
    simp [hShown, hResolve, hNone, Except.map, Except.toOption]
  | built hShown _ _ hResolve hBuilt =>
    obtain ⟨⟨n, hSome⟩, hAfter, hBuilding⟩ := hBelow hResolve hBuilt
    refine ⟨⟨n, ?_⟩, ?_, hBuilding⟩
    · simp [hShown, hResolve, hSome, Except.map, Except.toOption]
    · intro done hDone
      rcases List.mem_cons.mp hDone with rfl | hDone
      · exact ⟨c, e, _, n, hReaches, he, rfl, hResolve, hSome⟩
      · exact hAfter done hDone

/-- The entries of a class file give the same nested types in both recursions. -/
theorem traceEntries_plain (hFiled : s.locator.Filed) (hAcyclic : s.locator.Acyclic root)
    (hAgrees : s.locator.Agrees root) (hTrace : trace.Plain s root) {c : ClassFile}
    (hReaches : s.locator.Reaches root c) {entries : List InnerClass} :
    entries ⊆ c.memberClasses → ∀ {r r' : Run} {origins : List Origin},
      r.Around s.locator c → r.Plain s root →
      s.traceEntries trace entries r = some (origins, r') →
      (∃ n, s.plainEntries (s.plain n) entries = some (origins.map Origin.decl)) ∧
        r'.Plain s root ∧ r'.building ⊆ r.building := by
  induction entries with
  | nil =>
    intro _ r r' origins _ hPlain h
    cases h
    exact ⟨⟨0, rfl⟩, hPlain, List.Subset.refl _⟩
  | cons e entries ih =>
    intro hEntries r r' origins hAround hPlain h
    obtain ⟨he, hEntries⟩ := List.cons_subset.mp hEntries
    obtain ⟨o, between, rest, hEntry, hRest, rfl⟩ := traceEntries_cons_eq_some.mp h
    obtain ⟨⟨n, hFirst⟩, hBetween, hBuilding⟩ :=
      traceEntry_plain hFiled hAcyclic hAgrees hTrace hReaches he hAround hPlain hEntry
    obtain ⟨⟨m, hOthers⟩, hLast, hBuilding'⟩ :=
      ih hEntries (hAround.mono hBuilding) hBetween hRest
    refine ⟨⟨max n m, ?_⟩, hLast, List.Subset.trans hBuilding' hBuilding⟩
    have hFirst' := plainEntry_extends (s.plain_extends (le_max_left n m)) hFirst
    have hOthers' := plainEntries_extends (s.plain_extends (le_max_right n m)) hOthers
    rw [plainEntries, hFirst', Option.bind_some, hOthers', Option.map_some, List.map_append]
    cases o <;> rfl

/-- **Where no class is below itself, a run gives what the plain recursion gives.** -/
theorem trace_plain (hFiled : s.locator.Filed) (hAcyclic : s.locator.Acyclic root)
    (hAgrees : s.locator.Agrees root) (levels : ℕ) : Tracer.Plain s root (s.trace levels) := by
  induction levels with
  | zero =>
    intro c access r result r' _ _ _ _ h
    cases h
  | succ levels ih =>
    intro c access r result r' hReaches hResolve hAround hPlain h
    have hStart : (r.start c.binaryName).Plain s root := by
      rwa [Run.Plain, Run.complete_start]
    cases trace_succ_eq_some.mp h with
    | failed hSkeleton =>
      refine ⟨⟨1, ?_⟩, hStart, building_finish_subset (building_start_subset r _)⟩
      rw [plain, hSkeleton]
      rfl
    | built hSkeleton hNested =>
      obtain ⟨⟨n, hOrigins⟩, hInner, hBuilding⟩ :=
        traceEntries_plain hFiled hAcyclic hAgrees ih hReaches (List.Subset.refl _)
          (hAround.start hResolve) hStart hNested
      refine ⟨⟨n + 1, ?_⟩, hInner, building_finish_subset
        (List.Subset.trans hBuilding (building_start_subset r _))⟩
      rw [plain, hSkeleton]
      simp only [hOrigins, Option.map_some, Except.map, Origin.decl, Origin.decls_eq_map]

/-- If every class file is stored under the name it claims, no class file is below itself, and
entries of one name record the same flags, then the sketch of a name and the plain recursion both
end, with one result. -/
theorem sketch_eq_plainSketch (s : Sketcher) (hFiled : s.locator.Filed) (name : String)
    (hRoot : ∀ c, s.locator.resolve name = .ok c → s.locator.Acyclic c ∧ s.locator.Agrees c) :
    ∃ n result, ∀ m, n ≤ m →
      s.plainSketch m name = some result ∧ s.sketch m name = some result := by
  cases hResolve : s.locator.resolve name with
  | error e =>
    refine ⟨0, .error (.lookup e), fun m _ => ?_⟩
    rw [plainSketch, sketch, hResolve]
    exact ⟨rfl, rfl⟩
  | ok c =>
    obtain ⟨hAcyclic, hAgrees⟩ := hRoot c hResolve
    obtain ⟨result, run, hTrace⟩ := s.exists_trace hFiled hResolve
    obtain ⟨⟨n, hPlain⟩, -, -⟩ := trace_plain hFiled hAcyclic hAgrees _ c none .empty result run
      .refl (hFiled.resolve_binaryName hResolve) (by simp [Around, Run.empty])
      (by simp [Run.Plain, Run.empty]) hTrace
    have hSketch : s.sketch s.locator.resolvable.ncard name = some (result.map Origin.decl) := by
      rw [sketch_eq_trace _ hResolve, hTrace, Option.map_some]
    refine ⟨max n s.locator.resolvable.ncard, result.map Origin.decl, fun m hLevels => ⟨?_, ?_⟩⟩
    · rw [plainSketch, hResolve]
      exact s.plain_extends (le_of_max_le_left hLevels) c none _ hPlain
    · exact sketch_mono (le_of_max_le_right hLevels) hSketch

/-- A class with two nested classes that list the same class as their member. -/
def diamond : Sketcher where
  locator := .memory [
    ("p/A.class", (classWithInner "p/A" [("p/A$B", "p/A", "B"), ("p/A$C", "p/A", "C")]).encode),
    ("p/A$B.class", (classWithInner "p/A$B" [("p/A$B$D", "p/A$B", "D")]).encode),
    ("p/A$C.class", (classWithInner "p/A$C" [("p/A$B$D", "p/A$C", "D")]).encode),
    ("p/A$B$D.class", (classWithInner "p/A$B$D" []).encode)]
  lookup := fun _ _ => none
  settings := {}

theorem filed_diamond : diamond.locator.Filed :=
  Locator.filed_memory_of_all (by decide +kernel)

theorem diamond_member {c : ClassFile} (h : ∃ name, diamond.locator.resolve name = .ok c) :
    ∀ e ∈ c.memberClasses, c.binaryName.length < e.binaryName.length ∧ e.access = ⟨0x9⟩ := by
  obtain ⟨name, hResolve⟩ := h
  have hAll : ∀ bytes ∈ diamond.locator.contents, (ClassFile.parse bytes).toOption.all fun c =>
      ∀ e ∈ c.memberClasses, c.binaryName.length < e.binaryName.length ∧ e.access = ⟨0x9⟩ := by
    decide +kernel
  exact Locator.of_forall_contents hAll hResolve

theorem acyclic_diamond {root : ClassFile} (h : ∃ name, diamond.locator.resolve name = .ok root) :
    diamond.locator.Acyclic root :=
  filed_diamond.acyclic_of_length h fun _ hFound e he => (diamond_member hFound e he).1

theorem agrees_diamond {root : ClassFile} (h : ∃ name, diamond.locator.resolve name = .ok root) :
    diamond.locator.Agrees root := by
  intro c d hc hd e he e' he' _
  rw [(diamond_member (hc.found h) e he).2, (diamond_member (hd.found h) e' he').2]

theorem sketch_eq_plainSketch_diamond : diamond.locator.Filed ∧
    (∀ c, diamond.locator.resolve "p.A" = .ok c →
      diamond.locator.Acyclic c ∧ diamond.locator.Agrees c) ∧
    (diamond.sketch 3 "p.A").any Except.isOk = true ∧
    ∃ n result, ∀ m, n ≤ m →
      diamond.plainSketch m "p.A" = some result ∧ diamond.sketch m "p.A" = some result := by
  have hRoot : ∀ c, diamond.locator.resolve "p.A" = .ok c →
      diamond.locator.Acyclic c ∧ diamond.locator.Agrees c :=
    fun c h => ⟨acyclic_diamond ⟨_, h⟩, agrees_diamond ⟨_, h⟩⟩
  have hSketched : (diamond.sketch 3 "p.A").any Except.isOk = true := by decide +kernel
  exact ⟨filed_diamond, hRoot, hSketched, sketch_eq_plainSketch diamond filed_diamond "p.A" hRoot⟩

end Sketcher

end ClassSketch
