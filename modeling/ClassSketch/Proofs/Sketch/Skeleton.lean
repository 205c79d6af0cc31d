import ClassSketch.Proofs.Parsing
import ClassSketch.Proofs.Sketch.Levels

/-!
# Where the nodes of a sketch come from

Every type in a sketch, at any depth, is the skeleton of a class file with other such types nested
in it, and its methods are those methods of the class file that are shown. The class file of the
root is the one found under the name that is sketched, and from there on the entries lead from one
class file to the next.

## Main definitions

* `TypeDecl.Contains` — a type and the types nested in it at any depth
* `Sketcher.SketchedFrom` — a type with the class files and the entries that it is made from
* `Sketcher.SketchedWithin` — a type at any depth of another one, with its class file
* `Owner.ofClassFile`, `Documenter.ofClassFile` — what the members of a class file are built with

## Main results

* `skeleton_eq_checked_draft`, `draftedFrom_of_skeleton` — what a skeleton holds
* `mem_shownExecutables` — the methods of a skeleton
* `Sketcher.build_sketchedFrom` — builds preserve that all is made from class files
* `Sketcher.sketchedFrom_of_sketch` — a sketch is made from the class file of its name
* `Sketcher.sketchedWithin_of_sketch` — so are all types in it, from one class file to the next
-/

namespace ClassSketch

/-! ### Skeletons -/

/-- What the members of a class file have in common. -/
def Owner.ofClassFile (settings : Settings) (c : ClassFile) : Owner :=
  ⟨settings, TypeKind.ofAccess c.access, c.className.canonical⟩

/-- Where the documentation of the members of a class file comes from. -/
def Documenter.ofClassFile (settings : Settings) (lookup : Lookup) (c : ClassFile) : Documenter :=
  ⟨settings, lookup, c.binaryName⟩

/-- A field with its documentation. -/
def Documenter.documentedField (d : Documenter) (b : Owner.BuiltField) : FieldDecl :=
  { b.decl with documentation := d.ofField b.decl.name b.inlineDocumentation }

/-- A method with its documentation. -/
def Documenter.documented (d : Documenter) (b : Owner.BuiltExecutable) : ExecutableDecl :=
  { b.decl with documentation := d.ofExecutable b }

theorem mem_collect {α β ε : Type} {f : α → Except ε (Option β)} {xs : List α} {ys : List β}
    (h : collect f xs = .ok ys) {y : β} : y ∈ ys ↔ ∃ x ∈ xs, f x = .ok (some y) := by
  induction xs generalizing ys with
  | nil =>
    cases h
    simp
  | cons x xs ih =>
    rw [collect, Except.bind_eq_ok] at h
    obtain ⟨o, hx, h⟩ := h
    cases o with
    | none =>
      rw [ih h]
      simp [hx]
    | some z =>
      obtain ⟨zs, hzs, heq⟩ := Except.bind_eq_ok.mp h
      cases heq
      rw [List.mem_cons, ih hzs]
      simp [hx, eq_comm]

/-- The results that are collected are those of the items that have one, in order. -/
theorem forall₂_of_collect {α β ε : Type} {f : α → Except ε (Option β)} {keep : α → Prop}
    [DecidablePred keep] (hKeep : ∀ x o, f x = .ok o → (o.isSome = true ↔ keep x)) {xs : List α}
    {ys : List β} (h : collect f xs = .ok ys) :
    List.Forall₂ (fun x y => f x = .ok (some y)) (xs.filter (keep ·)) ys := by
  induction xs generalizing ys with
  | nil =>
    cases h
    exact .nil
  | cons x xs ih =>
    obtain ⟨o, hx, h⟩ := Except.bind_eq_ok.mp h
    have hHead := hKeep x o hx
    cases o with
    | none =>
      have hSkipped : ¬keep x := by simpa using hHead
      rw [List.filter_cons_of_neg (by simpa using hSkipped)]
      exact ih h
    | some y =>
      have hKept : keep x := by simpa using hHead
      obtain ⟨zs, hzs, heq⟩ := Except.bind_eq_ok.mp h
      cases heq
      rw [List.filter_cons_of_pos (by simpa using hKept)]
      exact .cons hx (ih hzs)

/-- What is made of the results that are collected, in two steps, where the first step makes of
every result something that is related to its item. -/
theorem exists_forall₂_of_collect {α β γ δ ε : Type} {f : α → Except ε (Option β)}
    {keep : α → Prop} [DecidablePred keep] {R : α → γ → Prop} (make : β → γ) (wrap : γ → δ)
    (hKeep : ∀ x o, f x = .ok o → (o.isSome = true ↔ keep x))
    (hMake : ∀ x y, f x = .ok (some y) → R x (make y)) {xs : List α} {ws : List δ}
    (h : (do return (← collect f xs).map fun y => wrap (make y)) = .ok ws) :
    ∃ zs, ws = zs.map wrap ∧ List.Forall₂ R (xs.filter (keep ·)) zs := by
  obtain ⟨ys, hys, heq⟩ := Except.bind_eq_ok.mp h
  cases heq
  refine ⟨ys.map make, by rw [List.map_map]; rfl, ?_⟩
  rw [List.forall₂_map_right_iff]
  exact (forall₂_of_collect hKeep hys).imp hMake

theorem exists_of_collect_eq_error {α β ε : Type} {f : α → Except ε (Option β)} {xs : List α}
    {e : ε} (h : collect f xs = .error e) : ∃ x ∈ xs, f x = .error e := by
  induction xs with
  | nil => cases h
  | cons x xs ih =>
    rw [collect] at h
    rcases Except.bind_eq_error.mp h with hFirst | ⟨o, -, h⟩
    · exact ⟨x, List.mem_cons_self, hFirst⟩
    have hRest : collect f xs = .error e := by
      cases o with
      | none => exact h
      | some y =>
        rcases Except.bind_eq_error.mp h with hRest | ⟨ys, -, hReturn⟩
        · exact hRest
        · cases hReturn
    obtain ⟨z, hz, hError⟩ := ih hRest
    exact ⟨z, List.mem_cons_of_mem x hz, hError⟩

/-- What is made of the results that are collected is made of those of some item. -/
theorem mem_map_collect {α β γ ε : Type} {f : α → Except ε (Option β)} {g : β → γ} {xs : List α}
    {zs : List γ} (h : (do return (← collect f xs).map g) = .ok zs) {z : γ} :
    z ∈ zs ↔ ∃ x ∈ xs, ∃ y, f x = .ok (some y) ∧ z = g y := by
  obtain ⟨ys, hys, heq⟩ := Except.bind_eq_ok.mp h
  cases heq
  rw [List.mem_map]
  constructor
  · rintro ⟨y, hy, rfl⟩
    obtain ⟨x, hx, hy⟩ := (mem_collect hys).mp hy
    exact ⟨x, hx, y, hy, rfl⟩
  · rintro ⟨x, hx, y, hy, rfl⟩
    exact ⟨y, (mem_collect hys).mpr ⟨x, hx, hy⟩, rfl⟩

theorem mem_shownFields {o : Owner} {d : Documenter} {fields : List FieldInfo}
    {members : List Member} (h : shownFields o d fields = .ok members) {e : Member} :
    e ∈ members ↔ ∃ f ∈ fields, ∃ b, o.field f = .ok (some b) ∧
      e = .field (d.documentedField b) :=
  mem_map_collect h

theorem mem_shownExecutables {o : Owner} {d : Documenter} {methods : List MethodInfo}
    {members : List Member} (h : shownExecutables o d methods = .ok members) {e : Member} :
    e ∈ members ↔ ∃ m ∈ methods, ∃ b, o.executable m = .ok (some b) ∧
      e = .executable (d.documented b) :=
  mem_map_collect h

/-- The declaration of a class file without nested types, put together but not checked. -/
def draft (settings : Settings) (lookup : Lookup) (c : ClassFile) (recorded : Option AccessFlags) :
    Except SketchError TypeDecl := do
  let kind := TypeKind.ofAccess c.access
  let access := (recorded.or (c.ownInner?.map InnerClass.access)).getD c.access
  let supertypes ← Supertypes.ofClassFile c
  let converted ←
    (convertAnnotations settings c.annotations).mapError (.classFile c.className.canonical)
  let documenter := Documenter.ofClassFile settings lookup c
  let owner := Owner.ofClassFile settings c
  let fields ← shownFields owner documenter c.fields
  let executables ← shownExecutables owner documenter c.methods
  return {
    kind := kind
    name := c.className
    modifiers := typeModifiers kind access
    superclass := supertypes.shownSuperclass settings kind
    superinterfaces := supertypes.shownInterfaces settings kind
    typeParameters := supertypes.typeParameters
    members := fields ++ executables
    documentation := documenter.ofType converted.documentation
    annotations := converted.annotations }

/-- A skeleton is a draft that is checked. -/
theorem skeleton_eq_checked_draft {settings : Settings} {lookup : Lookup} {c : ClassFile}
    {recorded : Option AccessFlags} : skeleton settings lookup c recorded = (do
      let t ← draft settings lookup c recorded
      t.check.mapError .rule
      return t) := by
  simp only [skeleton, draft, bind_assoc, pure_bind]
  rfl

/-- What the draft of a class file holds. -/
structure DraftedFrom (settings : Settings) (lookup : Lookup) (c : ClassFile) (t : TypeDecl) :
    Prop where
  kind : t.kind = TypeKind.ofAccess c.access
  name : t.name = c.className
  supertypes : ∃ s, Supertypes.ofClassFile c = .ok s ∧
    t.superclass = s.shownSuperclass settings t.kind ∧
    t.superinterfaces = s.shownInterfaces settings t.kind
  annotations : ∃ converted, convertAnnotations settings c.annotations = .ok converted ∧
    t.annotations = converted.annotations
  members : ∃ fields executables,
    shownFields (.ofClassFile settings c) (.ofClassFile settings lookup c) c.fields = .ok fields ∧
    shownExecutables (.ofClassFile settings c) (.ofClassFile settings lookup c) c.methods =
      .ok executables ∧
    t.members = fields ++ executables
  nestedTypes : t.nestedTypes = []

theorem draftedFrom_of_draft {settings : Settings} {lookup : Lookup} {c : ClassFile}
    {recorded : Option AccessFlags} {t : TypeDecl}
    (h : draft settings lookup c recorded = .ok t) : DraftedFrom settings lookup c t := by
  simp only [draft, Except.bind_eq_ok] at h
  obtain ⟨supertypes, hSupertypes, converted, hConverted, fields, hFields, executables,
    hExecutables, heq⟩ := h
  cases heq
  exact {
    kind := rfl
    name := rfl
    supertypes := ⟨supertypes, hSupertypes, rfl, rfl⟩
    annotations := ⟨converted, Except.mapError_eq_ok.mp hConverted, rfl⟩
    members := ⟨fields, executables, hFields, hExecutables, rfl⟩
    nestedTypes := rfl }

/-- The modifiers of a draft are those of the flags recorded around it, or else of its own entry, or
else of the class file itself. -/
theorem modifiers_of_draft {settings : Settings} {lookup : Lookup} {c : ClassFile}
    {recorded : Option AccessFlags} {t : TypeDecl}
    (h : draft settings lookup c recorded = .ok t) : t.modifiers =
      typeModifiers t.kind ((recorded.or (c.ownInner?.map InnerClass.access)).getD c.access) := by
  simp only [draft, Except.bind_eq_ok] at h
  obtain ⟨supertypes, -, converted, -, fields, -, executables, -, heq⟩ := h
  cases heq
  rfl

theorem draft_of_skeleton {settings : Settings} {lookup : Lookup} {c : ClassFile}
    {recorded : Option AccessFlags} {t : TypeDecl}
    (h : skeleton settings lookup c recorded = .ok t) :
    draft settings lookup c recorded = .ok t := by
  rw [skeleton_eq_checked_draft] at h
  obtain ⟨t', hDraft, h⟩ := Except.bind_eq_ok.mp h
  obtain ⟨-, -, heq⟩ := Except.bind_eq_ok.mp h
  cases heq
  exact hDraft

theorem draftedFrom_of_skeleton {settings : Settings} {lookup : Lookup} {c : ClassFile}
    {recorded : Option AccessFlags} {t : TypeDecl}
    (h : skeleton settings lookup c recorded = .ok t) : DraftedFrom settings lookup c t :=
  draftedFrom_of_draft (draft_of_skeleton h)

theorem skeleton_without_nested {settings : Settings} {lookup : Lookup} {c : ClassFile}
    {recorded : Option AccessFlags} {t : TypeDecl}
    (h : skeleton settings lookup c recorded = .ok t) : { t with nestedTypes := [] } = t := by
  have hNone : t.nestedTypes = [] := (draftedFrom_of_skeleton h).nestedTypes
  cases t
  cases hNone
  rfl

/-- The fields of a draft are those of the class file that are shown. -/
theorem DraftedFrom.field_mem {settings : Settings} {lookup : Lookup} {c : ClassFile}
    {t : TypeDecl} (h : DraftedFrom settings lookup c t) {f : FieldDecl} :
    .field f ∈ t.members ↔ ∃ info ∈ c.fields, ∃ b,
      (Owner.ofClassFile settings c).field info = .ok (some b) ∧
      f = (Documenter.ofClassFile settings lookup c).documentedField b := by
  obtain ⟨fields, executables, hFields, hExecutables, hMembers⟩ := h.members
  rw [hMembers, List.mem_append, mem_shownFields hFields, mem_shownExecutables hExecutables]
  simp

/-- The methods and constructors of a draft are those of the class file that are shown. -/
theorem DraftedFrom.executable_mem {settings : Settings} {lookup : Lookup} {c : ClassFile}
    {t : TypeDecl} (h : DraftedFrom settings lookup c t) {e : ExecutableDecl} :
    .executable e ∈ t.members ↔ ∃ m ∈ c.methods, ∃ b,
      (Owner.ofClassFile settings c).executable m = .ok (some b) ∧
      e = (Documenter.ofClassFile settings lookup c).documented b := by
  obtain ⟨fields, executables, hFields, hExecutables, hMembers⟩ := h.members
  rw [hMembers, List.mem_append, mem_shownFields hFields, mem_shownExecutables hExecutables]
  simp

theorem TypeDecl.mem_executables {t : TypeDecl} {e : ExecutableDecl} :
    e ∈ t.executables ↔ .executable e ∈ t.members := by
  rw [executables, List.mem_filterMap]
  constructor
  · rintro ⟨member, hMember, hExecutable⟩
    cases member with
    | field _ => cases hExecutable
    | executable _ =>
      cases hExecutable
      exact hMember
  · exact fun h => ⟨_, h, rfl⟩

/-! ### Sketches -/

/-- A type and the types nested in it at any depth. -/
inductive TypeDecl.Contains : TypeDecl → TypeDecl → Prop
  | self (t : TypeDecl) : Contains t t
  | nested {t u v : TypeDecl} : u ∈ t.nestedTypes → Contains u v → Contains t v

namespace Progress

@[simp] theorem start_complete (p : Progress) (name : String) :
    (p.start name).complete = p.complete := by
  rw [start]
  split <;> rfl

end Progress

namespace Sketcher

variable {s : Sketcher}

/-- A nested type with the entry that it is attached for and the class file it is made from. -/
structure Attached where
  entry : InnerClass
  source : ClassFile
  type : TypeDecl

/-- A type made from a class file: the skeleton of the class file, and types made from the class
files that some of its entries name. These entries stand in order, and none of them is hidden. -/
inductive SketchedFrom (s : Sketcher) : ClassFile → TypeDecl → Prop
  | mk {c : ClassFile} {access : Option AccessFlags} {t : TypeDecl} {children : List Attached} :
      skeleton s.settings s.lookup c access = .ok t →
      (children.map Attached.entry).Sublist c.memberClasses →
      (∀ k ∈ children, s.hidesNested k.entry = false ∧
        s.locator.resolve k.entry.binaryName = .ok k.source) →
      (∀ k ∈ children, SketchedFrom s k.source k.type) →
      SketchedFrom s c { t with nestedTypes := children.map Attached.type }

/-- The nested types that are complete are made from the class files found under their names. -/
def Honest (s : Sketcher) (p : Progress) : Prop :=
  ∀ e ∈ p.complete, ∃ c, s.locator.resolve e.1 = .ok c ∧ s.SketchedFrom c e.2

/-- A builder makes types from class files, given nested types made so. -/
def Faithful (s : Sketcher) (build : Builder) : Prop :=
  ∀ c access p result p', s.Honest p → build c access p = some (result, p') →
    (∀ t, result = .ok t → s.SketchedFrom c t) ∧ s.Honest p'

theorem Honest.start {p : Progress} (h : s.Honest p) (name : String) : s.Honest (p.start name) := by
  rwa [Honest, Progress.start_complete]

theorem attach_sketchedFrom {build : Builder} (hBuild : s.Faithful build) {e : InnerClass}
    {p p' : Progress} {attached : Option TypeDecl} (hHonest : s.Honest p)
    (h : s.attach build e p = some (attached, p')) :
    (∀ t ∈ attached, s.hidesNested e = false ∧
      ∃ c, s.locator.resolve e.binaryName = .ok c ∧ s.SketchedFrom c t) ∧ s.Honest p' := by
  cases attach_eq_some.mp h with
  | skipped => exact ⟨by simp, hHonest⟩
  | missing => exact ⟨by simp, hHonest⟩
  | reused hShown _ hComplete =>
    refine ⟨?_, hHonest⟩
    rintro _ ⟨⟩
    exact ⟨hShown, hHonest _ (mem_of_valueOf? hComplete)⟩
  | failed _ _ _ _ hFailed => exact ⟨by simp, (hBuild _ _ _ _ _ hHonest hFailed).2⟩
  | built hShown _ _ hResolve hBuilt =>
    obtain ⟨hMade, hAfter⟩ := hBuild _ _ _ _ _ hHonest hBuilt
    have hType := hMade _ rfl
    refine ⟨?_, List.forall_mem_cons.mpr ⟨⟨_, hResolve, hType⟩, hAfter⟩⟩
    rintro _ ⟨⟩
    exact ⟨hShown, _, hResolve, hType⟩

theorem attachAll_sketchedFrom {build : Builder} (hBuild : s.Faithful build)
    {entries : List InnerClass} : ∀ {p p' : Progress} {ts : List TypeDecl}, s.Honest p →
      s.attachAll build entries p = some (ts, p') →
      (∃ children : List Attached, ts = children.map Attached.type ∧
        (children.map Attached.entry).Sublist entries ∧
        (∀ k ∈ children, s.hidesNested k.entry = false ∧
          s.locator.resolve k.entry.binaryName = .ok k.source) ∧
        ∀ k ∈ children, s.SketchedFrom k.source k.type) ∧ s.Honest p' := by
  induction entries with
  | nil =>
    intro p p' ts hHonest h
    cases h
    exact ⟨⟨[], by simp⟩, hHonest⟩
  | cons e entries ih =>
    intro p p' ts hHonest h
    obtain ⟨attached, between, rest, hEntry, hRest, rfl⟩ := attachAll_cons_eq_some.mp h
    obtain ⟨hFirst, hBetween⟩ := attach_sketchedFrom hBuild hHonest hEntry
    obtain ⟨⟨children, rfl, hEntries, hShown, hChildren⟩, hEnd⟩ := ih hBetween hRest
    refine ⟨?_, hEnd⟩
    cases attached with
    | none => exact ⟨children, rfl, hEntries.cons e, hShown, hChildren⟩
    | some t =>
      obtain ⟨hVisible, c, hResolve, hType⟩ := hFirst t rfl
      refine ⟨⟨e, c, t⟩ :: children, rfl, hEntries.cons_cons e, ?_, ?_⟩
      · exact List.forall_mem_cons.mpr ⟨⟨hVisible, hResolve⟩, hShown⟩
      · exact List.forall_mem_cons.mpr ⟨hType, hChildren⟩

/-- What is built is made from its class file, and what is complete stays so. -/
theorem build_sketchedFrom (s : Sketcher) (levels : ℕ) : s.Faithful (s.build levels) := by
  induction levels with
  | zero =>
    intro c access p result p' _ h
    cases h
  | succ levels ih =>
    intro c access p result p' hHonest h
    have hStart := hHonest.start c.binaryName
    cases build_succ_eq_some.mp h with
    | failed => exact ⟨by simp, hStart⟩
    | built hSkeleton hNested =>
      obtain ⟨⟨children, rfl, hEntries, hShown, hChildren⟩, hEnd⟩ :=
        attachAll_sketchedFrom ih hStart hNested
      refine ⟨?_, hEnd⟩
      rintro _ ⟨⟩
      exact .mk hSkeleton hEntries hShown hChildren

/-- A sketch is made from the class file of its name. -/
theorem sketchedFrom_of_sketch {levels : ℕ} {name : String} {t : TypeDecl}
    (h : s.sketch levels name = some (.ok t)) :
    ∃ c, s.locator.resolve name = .ok c ∧ s.SketchedFrom c t := by
  rcases sketch_eq_some.mp h with ⟨error, -, hError⟩ | ⟨c, p, hResolve, hBuild⟩
  · cases hError
  · have hHonest : s.Honest .empty := by simp [Honest, Progress.empty]
    exact ⟨c, hResolve, (s.build_sketchedFrom levels _ _ _ _ _ hHonest hBuild).1 t rfl⟩

/-- What a type made from a class file is without its nested types, and where these come from. -/
theorem SketchedFrom.exists_children {c : ClassFile} {t : TypeDecl} (h : s.SketchedFrom c t) :
    ∃ (access : Option AccessFlags) (children : List Attached),
      skeleton s.settings s.lookup c access = .ok { t with nestedTypes := [] } ∧
      t.nestedTypes = children.map Attached.type ∧
      (children.map Attached.entry).Sublist c.memberClasses ∧
      ∀ k ∈ children, s.hidesNested k.entry = false ∧
        s.locator.resolve k.entry.binaryName = .ok k.source ∧ s.SketchedFrom k.source k.type := by
  obtain ⟨hSkeleton, hEntries, hShown, hChildren⟩ := h
  rename_i access t children
  refine ⟨access, children, ?_, rfl, hEntries, fun k hk => ⟨(hShown k hk).1, (hShown k hk).2, ?_⟩⟩
  · rwa [skeleton_without_nested hSkeleton]
  · exact hChildren k hk

/-- A type in a type that is made from a class file, at any depth, with the class file that it is
made from in turn. From the class file of the type around it, an entry that is not hidden leads to
the class file that is found under its name. -/
inductive SketchedWithin (s : Sketcher) : ClassFile → TypeDecl → ClassFile → TypeDecl → Prop
  | self {c : ClassFile} {t : TypeDecl} : s.SketchedFrom c t → SketchedWithin s c t c t
  | nested {c d : ClassFile} {t u : TypeDecl} (k : Attached) : k.type ∈ t.nestedTypes →
      k.entry ∈ c.memberClasses → s.hidesNested k.entry = false →
      s.locator.resolve k.entry.binaryName = .ok k.source →
      SketchedWithin s k.source k.type d u → SketchedWithin s c t d u

theorem SketchedWithin.sketchedFrom {c d : ClassFile} {t u : TypeDecl}
    (h : s.SketchedWithin c t d u) : s.SketchedFrom d u := by
  induction h with
  | self hFrom => exact hFrom
  | nested _ _ _ _ _ _ ih => exact ih

/-- Every type in a type made from a class file is made from a class file that the entries lead
to. -/
theorem SketchedFrom.exists_within {c : ClassFile} {t u : TypeDecl} (h : s.SketchedFrom c t)
    (hu : t.Contains u) : ∃ d, s.SketchedWithin c t d u := by
  induction hu generalizing c with
  | self t => exact ⟨c, .self h⟩
  | nested hMem _ ih =>
    obtain ⟨access, children, -, hTypes, hEntries, hChildren⟩ := h.exists_children
    rw [hTypes] at hMem
    obtain ⟨k, hk, rfl⟩ := List.mem_map.mp hMem
    obtain ⟨hShown, hResolve, hFrom⟩ := hChildren k hk
    obtain ⟨d, hWithin⟩ := ih hFrom
    refine ⟨d, .nested k ?_ (hEntries.subset (List.mem_map_of_mem hk)) hShown hResolve hWithin⟩
    exact hTypes ▸ List.mem_map_of_mem hk

/-- Every type in a sketch is made from a class file, to which the entries lead from the class file
that is found under the name. -/
theorem sketchedWithin_of_sketch {levels : ℕ} {name : String} {t u : TypeDecl}
    (h : s.sketch levels name = some (.ok t)) (hu : t.Contains u) :
    ∃ c d, s.locator.resolve name = .ok c ∧ s.SketchedWithin c t d u := by
  obtain ⟨c, hResolve, hFrom⟩ := sketchedFrom_of_sketch h
  obtain ⟨d, hWithin⟩ := hFrom.exists_within hu
  exact ⟨c, d, hResolve, hWithin⟩

end Sketcher

end ClassSketch
