import ClassSketch.Proofs.Sketch.Nesting
import ClassSketch.Proofs.Sketch.Skeleton

/-!
# Nested types that are attached again

The entry that a nested type is attached for records access flags, and these decide its modifiers.
A nested type that is complete is attached again as it is, however, for whatever entry of its name
comes next. So only the first entry of a name has a say: all nested types of one name are equal, and
have the modifiers of the entry that was first complete.

What a run keeps of the past is one type for each name. To say which entry it was built for, the
lemmas here carry along a log of all nested types, in the order in which they are complete. Every
type in the log follows the first one of its name, in the log up to it and then in all of it, as the
log grows only at its end.

## Main definitions

* `Sketcher.LoggedFrom` — a type made from a class file, with the log of what is nested in it
* `Sketcher.FollowsFirst` — a nested type is the first one of its name in a log
* `Sketcher.Logs` — the invariant: what is complete is what is first in the log
* `Sketcher.NestsFrom` — the nested types of a class file, and what decides their modifiers

## Main results

* `Sketcher.build_logging` — every step preserves the invariant
* `Sketcher.sketch_follows_first` — what decides the modifiers of the nested types of a sketch
* `Sketcher.reused_modifiers` — it need not be the entry that a nested type is attached for
-/

namespace ClassSketch

namespace Sketcher

/-! ### Logs -/

/-- A nested type with all types nested in it at any depth, in the order in which they are
complete. -/
structure Branch where
  top : Attached
  below : List Attached

/-- The types of a branch, in the order in which they are complete. -/
def Branch.all (b : Branch) : List Attached := b.below ++ [b.top]

/-- A type made from a class file, with the log of all types nested in it: the skeleton of the class
file with one branch for each of some entries, in order. -/
inductive LoggedFrom (s : Sketcher) : ClassFile → TypeDecl → List Attached → Prop
  | mk {c : ClassFile} {access : Option AccessFlags} {t : TypeDecl} {branches : List Branch} :
      skeleton s.settings s.lookup c access = .ok t →
      (branches.map fun b => b.top.entry).Sublist c.memberClasses →
      (∀ b ∈ branches, s.locator.resolve b.top.entry.binaryName = .ok b.top.source) →
      (∀ b ∈ branches, LoggedFrom s b.top.source b.top.type b.below) →
      LoggedFrom s c { t with nestedTypes := branches.map fun b => b.top.type }
        (branches.flatMap Branch.all)

/-- The first nested type in a log that is attached for an entry of the given name. -/
def firstNamed (log : List Attached) (name : String) : Option Attached :=
  log.find? fun k => k.entry.binaryName == name

/-- A nested type is the first one of its name, with the modifiers that the entry of the first one
gives. -/
def FollowsFirst (log : List Attached) (k : Attached) : Prop :=
  ∃ first, firstNamed log k.entry.binaryName = some first ∧ k.type = first.type ∧
    k.type.modifiers = typeModifiers k.type.kind first.entry.access

theorem firstNamed_append (log more : List Attached) (name : String) :
    firstNamed (log ++ more) name = (firstNamed log name).or (firstNamed more name) :=
  List.find?_append

/-- What was completed first stays the first. -/
theorem firstNamed_append_of_some {log : List Attached} {name : String} {k : Attached}
    (h : firstNamed log name = some k) (more : List Attached) :
    firstNamed (log ++ more) name = some k := by
  rw [firstNamed_append, h, Option.some_or]

/-- A type that follows the first one still does when more is logged. -/
theorem FollowsFirst.append {log : List Attached} {k : Attached} (h : FollowsFirst log k)
    (more : List Attached) : FollowsFirst (log ++ more) k := by
  obtain ⟨first, hFirst, hType, hModifiers⟩ := h
  exact ⟨first, firstNamed_append_of_some hFirst more, hType, hModifiers⟩

/-! ### The invariant -/

variable {s : Sketcher} {p p' : Progress} {log : List Attached}

/-- What is complete is what is first in the log, and no name is complete and being built. -/
structure Logs (s : Sketcher) (p : Progress) (log : List Attached) : Prop where
  /-- A nested type that is complete is the first one of its name, it has the modifiers of the entry
  that it was built for, and all types nested in it follow the first ones of their names. -/
  first : ∀ name t, valueOf? name p.complete = some t → ∃ k below,
    firstNamed log name = some k ∧ k.type = t ∧ s.locator.resolve name = .ok k.source ∧
      s.LoggedFrom k.source t below ∧ t.modifiers = typeModifiers t.kind k.entry.access ∧
      ∀ k' ∈ below, FollowsFirst log k'
  fresh : ∀ name, valueOf? name p.complete = none → firstNamed log name = none
  apart : ∀ name ∈ p.building, valueOf? name p.complete = none

theorem logs_empty (s : Sketcher) : s.Logs .empty [] where
  first := by
    intro name t h
    cases h
  fresh := fun _ _ => rfl
  apart := by simp [Progress.empty]

/-- A class that is started is not complete yet. -/
theorem Logs.start (h : s.Logs p log) {name : String} (hNew : valueOf? name p.complete = none) :
    s.Logs { p with building := name :: p.building } log where
  first := h.first
  fresh := h.fresh
  apart := List.forall_mem_cons.mpr ⟨hNew, h.apart⟩

/-- Attaching again what follows the first ones of its names changes nothing. -/
theorem Logs.append (h : s.Logs p log) {more : List Attached}
    (hMore : ∀ k ∈ more, FollowsFirst log k) : s.Logs p (log ++ more) where
  first := by
    intro name t hComplete
    obtain ⟨k, below, hFirst, hType, hResolve, hFrom, hModifiers, hBelow⟩ :=
      h.first name t hComplete
    exact ⟨k, below, firstNamed_append_of_some hFirst more, hType, hResolve, hFrom, hModifiers,
      fun k' hk' => (hBelow k' hk').append more⟩
  fresh := by
    intro name hNew
    have hNone : firstNamed log name = none := h.fresh name hNew
    rw [firstNamed_append, hNone, Option.none_or, firstNamed, List.find?_eq_none]
    intro k hk hName
    obtain ⟨first, hFirst, -⟩ := hMore k hk
    rw [beq_iff_eq.mp hName, hNone] at hFirst
    cases hFirst
  apart := h.apart

/-- A nested type that is built is the first one of its name: while it was being built, none of its
name was complete. -/
theorem Logs.record (k : Attached) {building : List String} {complete : List (String × TypeDecl)}
    {below : List Attached} (h : s.Logs ⟨k.entry.binaryName :: building, complete⟩ log)
    (hNew : k.entry.binaryName ∉ building)
    (hResolve : s.locator.resolve k.entry.binaryName = .ok k.source)
    (hFrom : s.LoggedFrom k.source k.type below)
    (hModifiers : k.type.modifiers = typeModifiers k.type.kind k.entry.access)
    (hBelow : ∀ k' ∈ below, FollowsFirst log k') :
    s.Logs ⟨building, (k.entry.binaryName, k.type) :: complete⟩ (log ++ [k]) ∧
      FollowsFirst (log ++ [k]) k := by
  have hNone : firstNamed log k.entry.binaryName = none :=
    h.fresh _ (h.apart _ List.mem_cons_self)
  have hFirst : firstNamed (log ++ [k]) k.entry.binaryName = some k := by
    rw [firstNamed_append, hNone, Option.none_or, firstNamed, List.find?_cons_of_pos]
    exact beq_self_eq_true _
  refine ⟨⟨?_, ?_, ?_⟩, k, hFirst, rfl, hModifiers⟩
  · intro name t hComplete
    rw [valueOf?_cons] at hComplete
    split at hComplete
    · next hName =>
      cases hComplete
      cases hName
      exact ⟨k, below, hFirst, rfl, hResolve, hFrom, hModifiers,
        fun k' hk' => (hBelow k' hk').append [k]⟩
    · obtain ⟨k', below', hFirst', hType, hResolve', hFrom', hModifiers', hBelow'⟩ :=
        h.first name t hComplete
      exact ⟨k', below', firstNamed_append_of_some hFirst' [k], hType, hResolve', hFrom',
        hModifiers', fun k'' hk'' => (hBelow' k'' hk'').append [k]⟩
  · intro name hComplete
    rw [valueOf?_cons] at hComplete
    split at hComplete
    · cases hComplete
    · next hName =>
      rw [firstNamed_append, h.fresh name hComplete, Option.none_or, firstNamed,
        List.find?_cons_of_neg (by simpa using hName), List.find?_nil]
  · intro name hName
    have hne : k.entry.binaryName ≠ name := fun heq => hNew (heq ▸ hName)
    rw [valueOf?_cons, if_neg hne]
    exact h.apart name (List.mem_cons_of_mem _ hName)

/-! ### Steps -/

/-- What attaching nested types for entries adds to a run: branches for some of the entries, in
order. -/
structure Grows (s : Sketcher) (entries : List InnerClass) (p : Progress) (log : List Attached)
    (types : List TypeDecl) (p' : Progress) (branches : List Branch) : Prop where
  types : types = branches.map fun b => b.top.type
  entries : (branches.map fun b => b.top.entry).Sublist entries
  found : ∀ b ∈ branches, s.locator.resolve b.top.entry.binaryName = .ok b.top.source
  made : ∀ b ∈ branches, s.LoggedFrom b.top.source b.top.type b.below
  building : p'.building = p.building
  logs : s.Logs p' (log ++ branches.flatMap Branch.all)
  follows : ∀ k ∈ branches.flatMap Branch.all,
    FollowsFirst (log ++ branches.flatMap Branch.all) k

theorem Logs.grows_nil (h : s.Logs p log) (entries : List InnerClass) :
    s.Grows entries p log [] p [] where
  types := rfl
  entries := List.nil_sublist _
  found := List.forall_mem_nil _
  made := List.forall_mem_nil _
  building := rfl
  logs := by rwa [List.flatMap_nil, List.append_nil]
  follows := List.forall_mem_nil _

/-- Entries in a row grow the log one after the other. -/
theorem Grows.append {entries entries' : List InnerClass} {types types' : List TypeDecl}
    {p'' : Progress} {branches branches' : List Branch}
    (h : s.Grows entries p log types p' branches)
    (h' : s.Grows entries' p' (log ++ branches.flatMap Branch.all) types' p'' branches') :
    s.Grows (entries ++ entries') p log (types ++ types') p'' (branches ++ branches') where
  types := by rw [h.types, h'.types, List.map_append]
  entries := by
    rw [List.map_append]
    exact h.entries.append h'.entries
  found := List.forall_mem_append.mpr ⟨h.found, h'.found⟩
  made := List.forall_mem_append.mpr ⟨h.made, h'.made⟩
  building := h'.building.trans h.building
  logs := by
    rw [List.flatMap_append, ← List.append_assoc]
    exact h'.logs
  follows := by
    rw [List.flatMap_append, ← List.append_assoc]
    exact List.forall_mem_append.mpr ⟨fun k hk => (h.follows k hk).append _, h'.follows⟩

/-- What becomes of a class file in a run: it fails and changes nothing, or it is built with the
modifiers of the recorded flags, where the log grows by what is nested in it. -/
inductive Built (s : Sketcher) (c : ClassFile) (access : Option AccessFlags) (p : Progress)
    (log : List Attached) : Except SketchError TypeDecl × Progress → Prop
  | failed (e : SketchError) : Built s c access p log (.error e, p)
  | made {t : TypeDecl} {complete : List (String × TypeDecl)} {below : List Attached} :
      s.LoggedFrom c t below → (∀ flags ∈ access, t.modifiers = typeModifiers t.kind flags) →
      s.Logs ⟨c.binaryName :: p.building, complete⟩ (log ++ below) →
      (∀ k ∈ below, FollowsFirst (log ++ below) k) →
      Built s c access p log (.ok t, ⟨p.building, complete⟩)

/-- The builder keeps the log, for class files that are neither being built nor complete. -/
def Logging (s : Sketcher) (build : Builder) : Prop :=
  ∀ c access p log outcome, s.Logs p log → c.binaryName ∉ p.building →
    valueOf? c.binaryName p.complete = none → build c access p = some outcome →
    s.Built c access p log outcome

/-- Attaching the nested type of an entry adds one branch, or none. -/
theorem attach_grows (hFiled : s.locator.Filed) {build : Builder} (hBuild : s.Logging build)
    {e : InnerClass} {attached : Option TypeDecl} (h : s.Logs p log)
    (hAttach : s.attach build e p = some (attached, p')) :
    ∃ branches, s.Grows [e] p log attached.toList p' branches := by
  cases attach_eq_some.mp hAttach with
  | skipped => exact ⟨[], h.grows_nil [e]⟩
  | missing => exact ⟨[], h.grows_nil [e]⟩
  | reused _ _ hComplete =>
    -- the type of the name is complete, and follows its first entry here as it did before
    obtain ⟨first, below, hFirst, rfl, hResolve, hFrom, hModifiers, hBelow⟩ :=
      h.first _ _ hComplete
    have hTop : FollowsFirst log ⟨e, first.source, first.type⟩ := ⟨first, hFirst, rfl, hModifiers⟩
    have hAll : ∀ k ∈ [Branch.mk ⟨e, first.source, first.type⟩ below].flatMap Branch.all,
        FollowsFirst log k := by
      rw [List.flatMap_singleton, Branch.all]
      exact List.forall_mem_append.mpr ⟨hBelow, List.forall_mem_singleton.mpr hTop⟩
    exact ⟨[⟨⟨e, first.source, first.type⟩, below⟩], {
      types := rfl
      entries := List.Sublist.refl _
      found := List.forall_mem_singleton.mpr hResolve
      made := List.forall_mem_singleton.mpr hFrom
      building := rfl
      logs := h.append hAll
      follows := fun k hk => (hAll k hk).append _ }⟩
  | failed _ hNew hIncomplete hResolve hFailed =>
    have hName : _ = e.binaryName := hFiled _ _ (slash_not_mem_dotted e.inner) hResolve
    cases hBuild _ _ _ _ _ h (hName ▸ hNew) (hName ▸ hIncomplete) hFailed
    exact ⟨[], h.grows_nil [e]⟩
  | @built c t _ _ hNew hIncomplete hResolve hBuilt =>
    -- as the class file claims the name of the entry, it is built for the first time
    have hName : c.binaryName = e.binaryName := hFiled _ c (slash_not_mem_dotted e.inner) hResolve
    cases hBuild _ _ _ _ _ h (hName ▸ hNew) (hName ▸ hIncomplete) hBuilt with
    | @made _ complete below hFrom hModifiers hLogs hFollows =>
      rw [hName] at hLogs
      obtain ⟨hRecorded, hTop⟩ := Logs.record ⟨e, c, t⟩ hLogs hNew hResolve hFrom
        (hModifiers e.access rfl) hFollows
      have hAll : [Branch.mk ⟨e, c, t⟩ below].flatMap Branch.all = below ++ [⟨e, c, t⟩] :=
        List.flatMap_singleton _ _
      refine ⟨[⟨⟨e, c, t⟩, below⟩], {
        types := rfl
        entries := List.Sublist.refl _
        found := List.forall_mem_singleton.mpr hResolve
        made := List.forall_mem_singleton.mpr hFrom
        building := rfl
        logs := ?_
        follows := ?_ }⟩
      · rw [hAll, ← List.append_assoc]
        exact hRecorded
      · rw [hAll, ← List.append_assoc]
        exact List.forall_mem_append.mpr
          ⟨fun k hk => (hFollows k hk).append _, List.forall_mem_singleton.mpr hTop⟩

/-- The entries of a class file grow the log by a branch for each type that is attached. -/
theorem attachAll_grows (hFiled : s.locator.Filed) {build : Builder} (hBuild : s.Logging build)
    {entries : List InnerClass} : ∀ {p p' : Progress} {log : List Attached} {types : List TypeDecl},
      s.Logs p log → s.attachAll build entries p = some (types, p') →
      ∃ branches, s.Grows entries p log types p' branches := by
  induction entries with
  | nil =>
    intro p p' log types h hAttach
    cases hAttach
    exact ⟨[], h.grows_nil []⟩
  | cons e entries ih =>
    intro p p' log types h hAttach
    obtain ⟨attached, between, rest, hEntry, hRest, rfl⟩ := attachAll_cons_eq_some.mp hAttach
    obtain ⟨branches, hFirst⟩ := attach_grows hFiled hBuild h hEntry
    obtain ⟨branches', hGrows⟩ := ih hFirst.logs hRest
    exact ⟨branches ++ branches', hFirst.append hGrows⟩

/-- A type that is built for an entry has the modifiers that the entry records. -/
theorem modifiers_of_recorded {c : ClassFile} {flags : AccessFlags} {t : TypeDecl}
    (h : skeleton s.settings s.lookup c (some flags) = .ok t) :
    t.modifiers = typeModifiers t.kind flags :=
  modifiers_of_draft (draft_of_skeleton h)

theorem start_of_not_mem {name : String} (h : name ∉ p.building) :
    p.start name = { p with building := name :: p.building } := by
  rw [Progress.start, if_neg (by simpa using h)]

/-- What is built keeps the log, at every number of levels. -/
theorem build_logging (s : Sketcher) (hFiled : s.locator.Filed) (levels : ℕ) :
    s.Logging (s.build levels) := by
  induction levels with
  | zero =>
    intro c access p log outcome _ _ _ hBuild
    cases hBuild
  | succ levels ih =>
    rintro c access p log ⟨result, p'⟩ h hNew hIncomplete hBuild
    cases build_succ_eq_some.mp hBuild with
    | failed =>
      rw [start_of_not_mem hNew]
      simp only [Progress.finish, Run.filter_cons_self hNew]
      exact .failed _
    | @built t nested inner hSkeleton hNested =>
      rw [start_of_not_mem hNew] at hNested
      obtain ⟨branches, hGrows⟩ := attachAll_grows hFiled ih (h.start hIncomplete) hNested
      obtain ⟨building, complete⟩ := inner
      obtain rfl : building = c.binaryName :: p.building := hGrows.building
      obtain rfl : nested = branches.map fun b => b.top.type := hGrows.types
      simp only [Progress.finish, Run.filter_cons_self hNew]
      refine .made (.mk hSkeleton hGrows.entries hGrows.found hGrows.made) ?_ hGrows.logs
        hGrows.follows
      rintro flags ⟨⟩
      have hModifiers : t.modifiers = typeModifiers t.kind flags := modifiers_of_recorded hSkeleton
      exact hModifiers

/-! ### Sketches -/

/-- Every type in a type that is logged is logged too, and what is nested in it is in the log. -/
theorem LoggedFrom.of_contains {c : ClassFile} {t u : TypeDecl} (h : s.LoggedFrom c t log)
    (hu : t.Contains u) : ∃ d below, s.LoggedFrom d u below ∧ below ⊆ log := by
  induction hu generalizing c log with
  | self t => exact ⟨c, log, h, List.Subset.refl _⟩
  | nested hMem _ ih =>
    obtain ⟨-, -, -, hMade⟩ := h
    obtain ⟨b, hb, rfl⟩ := List.mem_map.mp hMem
    obtain ⟨d, below, hFrom, hSubset⟩ := ih (hMade b hb)
    refine ⟨d, below, hFrom, fun k hk => List.mem_flatMap.mpr ⟨b, hb, ?_⟩⟩
    exact List.mem_append_left _ (hSubset hk)

/-- A type is the skeleton of a class file. Its nested types are attached, in order, for some of the
member entries of the class file, and each of them follows the first one of its name in a log. -/
structure NestsFrom (s : Sketcher) (log : List Attached) (c : ClassFile) (t : TypeDecl)
    (children : List Attached) : Prop where
  skeleton : ∃ access, skeleton s.settings s.lookup c access = .ok { t with nestedTypes := [] }
  types : t.nestedTypes = children.map Attached.type
  entries : (children.map Attached.entry).Sublist c.memberClasses
  found : ∀ k ∈ children, s.locator.resolve k.entry.binaryName = .ok k.source
  logged : children ⊆ log
  follows : ∀ k ∈ children, FollowsFirst log k

/-- The nested types of a type come from entries of its class file, in order. -/
theorem LoggedFrom.nestsFrom {c : ClassFile} {t : TypeDecl} {below : List Attached}
    (h : s.LoggedFrom c t below) (hSubset : below ⊆ log)
    (hFollows : ∀ k ∈ log, FollowsFirst log k) : ∃ children, s.NestsFrom log c t children := by
  obtain ⟨hSkeleton, hEntries, hFound, -⟩ := h
  rename_i access t branches
  have hLogged : branches.map Branch.top ⊆ log := by
    intro k hk
    obtain ⟨b, hb, rfl⟩ := List.mem_map.mp hk
    exact hSubset (List.mem_flatMap.mpr ⟨b, hb, List.mem_append_right _ List.mem_cons_self⟩)
  exact ⟨branches.map Branch.top, {
    skeleton := ⟨access, by rw [skeleton_without_nested hSkeleton, hSkeleton]⟩
    types := by rw [List.map_map]; rfl
    entries := by rw [List.map_map]; exact hEntries
    found := List.forall_mem_map.mpr hFound
    logged := hLogged
    follows := fun k hk => hFollows k (hLogged hk) }⟩

/-- If every class file is stored under the name it claims, then the nested types of every type of a
sketch are attached, in order, for some of the member entries of the class file that the type is
made from. A nested type has the modifiers of the first entry of its name: the one that was first
complete in the whole sketch, whether that is the entry it is attached for or not. -/
theorem sketch_follows_first (s : Sketcher) (hFiled : s.locator.Filed) {levels : ℕ} {name : String}
    {root : TypeDecl} (hSketch : s.sketch levels name = some (.ok root)) :
    ∃ c log, s.locator.resolve name = .ok c ∧ s.LoggedFrom c root log ∧
      ∀ node, root.Contains node → ∃ d children, s.NestsFrom log d node children := by
  rcases sketch_eq_some.mp hSketch with ⟨error, -, hError⟩ | ⟨c, p, hResolve, hBuild⟩
  · cases hError
  cases s.build_logging hFiled levels _ _ _ _ _ (logs_empty s) List.not_mem_nil rfl hBuild with
  | @made _ _ log hFrom _ _ hFollows =>
    rw [List.nil_append] at hFollows
    refine ⟨c, log, hResolve, hFrom, fun node hNode => ?_⟩
    obtain ⟨d, below, hNode, hSubset⟩ := hFrom.of_contains hNode
    obtain ⟨children, hNests⟩ := hNode.nestsFrom hSubset hFollows
    exact ⟨d, children, hNests⟩

/-- A class with two nested classes that list the same class as their member: one as public and
static, the other one as protected. -/
def crossed : Sketcher where
  locator := .memory [
    ("p/A.class", (classWithInner "p/A" [("p/A$B", "p/A", "B"), ("p/A$C", "p/A", "C")]).encode),
    ("p/A$B.class", (classWithInner "p/A$B" [("p/A$D", "p/A$B", "D")]).encode),
    ("p/A$C.class", { classWithInner "p/A$C" [] with
      innerClasses := [⟨"p/A$D", some "p/A$C", some "D", ⟨0x4⟩⟩] }.encode),
    ("p/A$D.class", (classWithInner "p/A$D" []).encode)]
  lookup := fun _ _ => none
  settings := {}

theorem filed_crossed : crossed.locator.Filed :=
  Locator.filed_memory_of_all (by decide +kernel)

theorem sketch_crossed :
    ∃ root, crossed.sketch 3 "p.A" = some (.ok root) ∧ root.nestedTypes.length = 2 := by
  have h : (crossed.sketch 3 "p.A").any (fun result =>
      result.toOption.any fun root => root.nestedTypes.length == 2) = true := by
    decide +kernel
  obtain ⟨root, hRoot, hLength⟩ := exists_of_any_sketch h
  exact ⟨root, hRoot, beq_iff_eq.mp hLength⟩

theorem sketch_follows_first_crossed : crossed.locator.Filed ∧ ∃ root,
    crossed.sketch 3 "p.A" = some (.ok root) ∧ root.nestedTypes.length = 2 ∧
    ∃ c log, crossed.locator.resolve "p.A" = .ok c ∧ crossed.LoggedFrom c root log ∧
      ∀ node, root.Contains node → ∃ d children, crossed.NestsFrom log d node children := by
  obtain ⟨root, hRoot, hLength⟩ := sketch_crossed
  exact ⟨filed_crossed, root, hRoot, hLength, sketch_follows_first crossed filed_crossed hRoot⟩

/-- The only nested type of a class file has modifiers that are not those of its only entry. -/
theorem reused_modifiers : crossed.locator.Filed ∧ ∃ root node child c e,
    crossed.sketch 3 "p.A" = some (.ok root) ∧ node ∈ root.nestedTypes ∧
    crossed.locator.resolve "p.A$C" = .ok c ∧ node.name = c.className ∧
    c.memberClasses = [e] ∧ node.nestedTypes = [child] ∧
    child.modifiers.toList = [.isPublic, .isStatic] ∧
    (typeModifiers child.kind e.access).toList = [.isProtected] := by
  obtain ⟨root, hRoot, -⟩ := sketch_crossed
  have h : ((crossed.sketch 3 "p.A").any fun result => result.toOption.any fun root =>
      root.nestedTypes.any fun node => (crossed.locator.resolve "p.A$C").toOption.any fun c =>
        decide (node.name = c.className) && c.memberClasses.length == 1 &&
        node.nestedTypes.length == 1 && node.nestedTypes.all fun child =>
          decide (child.modifiers.toList = [.isPublic, .isStatic]) && c.memberClasses.all fun e =>
            decide ((typeModifiers child.kind e.access).toList = [.isProtected])) = true := by
    decide +kernel
  rw [hRoot] at h
  obtain ⟨node, hNode, h⟩ := List.any_eq_true.mp h
  obtain ⟨c, hResolve, h⟩ := Except.exists_of_any_toOption h
  simp only [Bool.and_eq_true, decide_eq_true_eq, beq_iff_eq, List.length_eq_one_iff] at h
  obtain ⟨⟨⟨hName, e, hEntries⟩, child, hNested⟩, hAll⟩ := h
  rw [hNested, hEntries] at hAll
  simp only [List.all_cons, List.all_nil, Bool.and_true, Bool.and_eq_true,
    decide_eq_true_eq] at hAll
  exact ⟨filed_crossed, root, node, child, c, e, hRoot, hNode, hResolve, hName, hEntries, hNested,
    hAll⟩

end Sketcher

end ClassSketch
