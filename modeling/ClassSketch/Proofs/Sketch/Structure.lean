import ClassSketch.Proofs.Sketch.Nesting
import ClassSketch.Proofs.Sketch.Rules

/-!
# Documentation does not change structure

Documentation is found while the members of a type are built, and it is kept with them. Nothing else
looks at it: two sketchers that differ in documentation only, in the store and in the settings that
concern it, fail with the same error or give types that are equal without their documentation. They
need the same room for it, so that if one of them has no outcome the other one has none.

The two runs go side by side. What both keep of the past is equal without documentation, and this is
enough for every decision: which entries are hidden, being built or complete, and which class files
fail.

## Main definitions

* `TypeDecl.undocumented` — a type without documentation, at all depths
* `Sketcher.DiffersInDocs` — two sketchers that differ in documentation only
* `Sketcher.Agrees` — two builders that give the same without documentation

## Main results

* `draft_undocumented` — drafts are the same without documentation
* `Sketcher.build_agrees` — so are builds, step by step
* `Sketcher.sketch_undocumented` — and sketches
-/

namespace ClassSketch

/-! ### Types without documentation -/

/-- The member without documentation. -/
def Member.undocumented : Member → Member
  | field f => field { f with documentation := none }
  | executable e => executable { e with documentation := none }

namespace TypeDecl

mutual

/-- The type without documentation, and without that of all members and nested types. -/
def undocumented : TypeDecl → TypeDecl
  | ⟨kind, name, modifiers, superclass, superinterfaces, typeParameters, members, nestedTypes, _,
      annotations⟩ =>
    ⟨kind, name, modifiers, superclass, superinterfaces, typeParameters,
      members.map Member.undocumented, undocumentedAll nestedTypes, none, annotations⟩

/-- The types without documentation. -/
def undocumentedAll : List TypeDecl → List TypeDecl
  | [] => []
  | t :: ts => undocumented t :: undocumentedAll ts

end

theorem undocumentedAll_eq_map (ts : List TypeDecl) : undocumentedAll ts = ts.map undocumented := by
  induction ts with
  | nil => rfl
  | cons t ts ih => rw [undocumentedAll, ih, List.map_cons]

/-- Of a type with given nested types, each part is without documentation. -/
theorem undocumented_with (t : TypeDecl) (nested : List TypeDecl) :
    undocumented { t with nestedTypes := nested } =
      { t.undocumented with nestedTypes := nested.map undocumented } := by
  cases t
  rw [undocumented, undocumentedAll_eq_map, undocumented]

end TypeDecl

/-! ### Settings -/

/-- The settings with other ones for documentation. -/
def Settings.withDocs (settings : Settings) (validate : Bool) (templates : TemplateSettings)
    (suffix : String) : Settings :=
  { settings with
    validateParamTags := validate
    templates := templates
    documentationSuffix := suffix }

section

variable (settings : Settings) (validate : Bool) (templates : TemplateSettings) (suffix : String)

/-- Whether an annotation is an internal mark does not depend on documentation. -/
theorem hasInternalMark_withDocs (annotations : List RawAnnotation) :
    hasInternalMark (settings.withDocs validate templates suffix) annotations =
      hasInternalMark settings annotations := by
  induction annotations with
  | nil => rfl
  | cons a annotations ih =>
    rw [hasInternalMark, hasInternalMark, ih]
    rfl

theorem convertAnnotations_withDocs (annotations : List RawAnnotation) :
    convertAnnotations (settings.withDocs validate templates suffix) annotations =
      convertAnnotations settings annotations :=
  rfl

/-- Fields do not depend on settings for documentation. -/
theorem field_withDocs (kind : TypeKind) (name : String) (f : FieldInfo) :
    (Owner.mk (settings.withDocs validate templates suffix) kind name).field f =
      (Owner.mk settings kind name).field f := by
  simp only [Owner.field, Owner.showsField, hasInternalMark_withDocs]
  rfl

/-- Methods do not depend on settings for documentation. -/
theorem executable_withDocs (kind : TypeKind) (name : String) (m : MethodInfo) :
    (Owner.mk (settings.withDocs validate templates suffix) kind name).executable m =
      (Owner.mk settings kind name).executable m := by
  simp only [Owner.executable, Owner.showsMethod, hasInternalMark_withDocs]
  rfl

/-- Without documentation, the draft of a class file depends neither on the store nor on the
settings that concern documentation. -/
theorem draft_undocumented (lookup lookup' : Lookup) (c : ClassFile)
    (recorded : Option AccessFlags) :
    (draft settings lookup c recorded).map TypeDecl.undocumented =
      (draft (settings.withDocs validate templates suffix) lookup' c recorded).map
        TypeDecl.undocumented := by
  have hFields : (Owner.ofClassFile (settings.withDocs validate templates suffix) c).field =
      (Owner.ofClassFile settings c).field :=
    funext fun f => field_withDocs settings validate templates suffix _ _ f
  have hExecutables :
      (Owner.ofClassFile (settings.withDocs validate templates suffix) c).executable =
        (Owner.ofClassFile settings c).executable :=
    funext fun m => executable_withDocs settings validate templates suffix _ _ m
  simp only [draft, shownFields, shownExecutables, convertAnnotations_withDocs, hFields,
    hExecutables, bind_assoc, pure_bind]
  refine Except.map_bind_congr fun supertypes => ?_
  refine Except.map_bind_congr fun converted => ?_
  refine Except.map_bind_congr fun fields => ?_
  refine Except.map_bind_congr fun executables => ?_
  refine congrArg Except.ok ?_
  rw [TypeDecl.undocumented, TypeDecl.undocumented, List.map_append, List.map_append,
    List.map_map, List.map_map, List.map_map, List.map_map]
  rfl

end

/-! ### Builds -/

/-- The progress without the documentation of what is complete. -/
def Progress.undocumented (p : Progress) : Progress :=
  ⟨p.building, p.complete.map fun e => (e.1, e.2.undocumented)⟩

namespace Progress

variable {p p' : Progress}

theorem building_eq_of_undocumented (h : p.undocumented = p'.undocumented) :
    p.building = p'.building := by
  change p.undocumented.building = p'.undocumented.building
  rw [h]

/-- A finished type is found in both runs, with the same structure. -/
theorem valueOf?_of_undocumented (h : p.undocumented = p'.undocumented) (name : String) :
    (valueOf? name p.complete).map TypeDecl.undocumented =
      (valueOf? name p'.complete).map TypeDecl.undocumented := by
  have hComplete := congrArg (fun q : Progress => valueOf? name q.complete) h
  simpa only [undocumented, valueOf?_map] using hComplete

theorem undocumented_start (h : p.undocumented = p'.undocumented) (name : String) :
    (p.start name).undocumented = (p'.start name).undocumented := by
  rw [start, start, ← building_eq_of_undocumented h]
  split
  · exact h
  · exact congrArg (fun q : Progress => { q with building := name :: p.building }) h

theorem undocumented_finish (h : p.undocumented = p'.undocumented) (name : String) :
    (p.finish name).undocumented = (p'.finish name).undocumented :=
  congrArg (fun q : Progress => q.finish name) h

/-- Runs with the same structure keep it when a type is finished. -/
theorem undocumented_record (h : p.undocumented = p'.undocumented) (name : String)
    {t t' : TypeDecl} (hType : t.undocumented = t'.undocumented) :
    (p.record name t).undocumented = (p'.record name t').undocumented := by
  change p.undocumented.record name t.undocumented = p'.undocumented.record name t'.undocumented
  rw [h, hType]

end Progress

namespace Sketcher

/-- Two sketchers that differ in documentation only: in the store, and in the settings for it. -/
structure DiffersInDocs (s s' : Sketcher) : Prop where
  locator : s'.locator = s.locator
  settings : ∃ validate templates suffix,
    s'.settings = s.settings.withDocs validate templates suffix

/-- Two outcomes are the same without documentation, and so is what is kept; or there is none. -/
def SameStructure {α : Type} (strip : α → α) (x x' : Option (α × Progress)) : Prop :=
  x.map (Prod.map strip Progress.undocumented) = x'.map (Prod.map strip Progress.undocumented)

/-- Two builders give the same without documentation from a progress that is the same without it. -/
def Agrees (build build' : Builder) : Prop :=
  ∀ c access p p', p.undocumented = p'.undocumented →
    SameStructure (Except.map TypeDecl.undocumented) (build c access p) (build' c access p')

section

variable {α : Type} {strip : α → α} {x x' : Option (α × Progress)}

theorem SameStructure.some {a a' : α} {p p' : Progress} (h : strip a = strip a')
    (hProgress : p.undocumented = p'.undocumented) :
    SameStructure strip (some (a, p)) (some (a', p')) := by
  rw [SameStructure, Option.map_some, Option.map_some, Prod.map, Prod.map, h, hProgress]

/-- Both outcomes are missing, or both are there. -/
theorem SameStructure.cases (h : SameStructure strip x x') : (x = none ∧ x' = none) ∨
    ∃ a p a' p', x = Option.some (a, p) ∧ x' = Option.some (a', p') ∧ strip a = strip a' ∧
      p.undocumented = p'.undocumented := by
  rcases x with _ | ⟨a, p⟩ <;> rcases x' with _ | ⟨a', p'⟩
  · exact .inl ⟨rfl, rfl⟩
  · cases h
  · cases h
  · obtain ⟨hFirst, hProgress⟩ := Prod.mk.inj (Option.some.inj h)
    exact .inr ⟨a, p, a', p', rfl, rfl, hFirst, hProgress⟩

end

variable {s s' : Sketcher} {build build' : Builder} {p p' : Progress}

/-- An entry is attached in both runs or in none, to the same structure. -/
theorem attach_agrees (h : s.DiffersInDocs s') (hBuild : Agrees build build') (e : InnerClass)
    (hProgress : p.undocumented = p'.undocumented) :
    SameStructure (Option.map TypeDecl.undocumented) (s.attach build e p)
      (s'.attach build' e p') := by
  obtain ⟨hLocator, validate, templates, suffix, hSettings⟩ := h
  have hHides : s'.hidesNested e = s.hidesNested e := by
    rw [hidesNested, hidesNested, hSettings]
    rfl
  have hComplete := Progress.valueOf?_of_undocumented hProgress e.binaryName
  rw [attach, attach]
  simp only [hHides, hLocator, ← Progress.building_eq_of_undocumented hProgress]
  split
  · exact .some rfl hProgress
  · cases hDone : valueOf? e.binaryName p.complete with
    | some t =>
      obtain ⟨t', hDone', hSame⟩ : ∃ t', valueOf? e.binaryName p'.complete = some t' ∧
          t'.undocumented = t.undocumented := by
        rw [hDone, Option.map_some] at hComplete
        exact Option.map_eq_some_iff.mp hComplete.symm
      rw [hDone']
      exact .some (congrArg some hSame.symm) hProgress
    | none =>
      have hDone' : valueOf? e.binaryName p'.complete = none := by
        rw [hDone, Option.map_none] at hComplete
        exact Option.map_eq_none_iff.mp hComplete.symm
      rw [hDone']
      cases s.locator.resolve e.binaryName with
      | error _ => exact .some rfl hProgress
      | ok c =>
        rcases (hBuild c (some e.access) p p' hProgress).cases with ⟨hNone, hNone'⟩ |
          ⟨result, q, result', q', hSome, hSome', hResult, hAfter⟩
        · simp only [hNone, hNone']
          rfl
        · simp only [hSome, hSome']
          rcases Except.map_eq_map_iff.mp hResult with ⟨error, rfl, rfl⟩ |
            ⟨t, t', rfl, rfl, hType⟩
          · exact .some rfl hAfter
          · exact .some (congrArg some hType) (Progress.undocumented_record hAfter _ hType)

/-- The entries of a class file are attached to the same structure in both runs. -/
theorem attachAll_agrees (h : s.DiffersInDocs s') (hBuild : Agrees build build')
    (entries : List InnerClass) : ∀ {p p' : Progress}, p.undocumented = p'.undocumented →
      SameStructure (List.map TypeDecl.undocumented) (s.attachAll build entries p)
        (s'.attachAll build' entries p') := by
  induction entries with
  | nil => exact fun hProgress => .some rfl hProgress
  | cons e entries ih =>
    intro p p' hProgress
    rw [attachAll, attachAll]
    rcases (attach_agrees h hBuild e hProgress).cases with ⟨hNone, hNone'⟩ |
      ⟨t, q, t', q', hSome, hSome', hFirst, hNext⟩
    · simp only [hNone, hNone']
      rfl
    simp only [hSome, hSome']
    rcases (ih hNext).cases with ⟨hNone, hNone'⟩ | ⟨ts, r, ts', r', hAll, hAll', hRest, hEnd⟩
    · simp only [hNone, hNone']
      rfl
    · simp only [hAll, hAll', Option.map_some]
      refine .some ?_ hEnd
      rw [List.map_append, List.map_append, ← Option.toList_map, ← Option.toList_map, hFirst, hRest]

/-- The skeletons of a class file are the same without documentation. -/
theorem DiffersInDocs.skeleton (h : s.DiffersInDocs s') (c : ClassFile)
    (access : Option AccessFlags) :
    (skeleton s.settings s.lookup c access).map TypeDecl.undocumented =
      (skeleton s'.settings s'.lookup c access).map TypeDecl.undocumented := by
  obtain ⟨validate, templates, suffix, hSettings⟩ := h.settings
  rw [skeleton_eq_draft, skeleton_eq_draft, hSettings]
  exact draft_undocumented s.settings validate templates suffix s.lookup s'.lookup c access

/-- At every number of levels, two builds have the same outcome without documentation, or both have
none. -/
theorem build_agrees (h : s.DiffersInDocs s') (levels : ℕ) :
    Agrees (s.build levels) (s'.build levels) := by
  induction levels with
  | zero => exact fun c access p p' hProgress => rfl
  | succ levels ih =>
    intro c access p p' hProgress
    have hStart := Progress.undocumented_start hProgress c.binaryName
    rw [build, build]
    rcases Except.map_eq_map_iff.mp (h.skeleton c access) with ⟨e, hError, hError'⟩ |
      ⟨t, t', hOk, hOk', hType⟩
    · simp only [hError, hError']
      exact .some rfl (Progress.undocumented_finish hStart _)
    · simp only [hOk, hOk']
      rcases (attachAll_agrees h ih c.memberClasses hStart).cases with ⟨hNone, hNone'⟩ |
        ⟨ts, q, ts', q', hAll, hAll', hNested, hEnd⟩
      · simp only [hNone, hNone']
        rfl
      · simp only [hAll, hAll', Option.map_some]
        refine .some ?_ (Progress.undocumented_finish hEnd _)
        simp only [Except.map, TypeDecl.undocumented_with, hType, hNested]

/-- Two sketchers that differ in documentation only fail with the same error, or give types that are
the same without their documentation, whatever number of levels there is room for. A run that needs
more room in one of them needs more room in the other one too. -/
theorem sketch_undocumented {s s' : Sketcher} (h : s.DiffersInDocs s') (levels : ℕ)
    (name : String) :
    (s.sketch levels name = none ∧ s'.sketch levels name = none) ∨
    (∃ e, s.sketch levels name = some (.error e) ∧ s'.sketch levels name = some (.error e)) ∨
      ∃ t t', s.sketch levels name = some (.ok t) ∧ s'.sketch levels name = some (.ok t') ∧
        t.undocumented = t'.undocumented := by
  rw [sketch, sketch, h.locator]
  cases s.locator.resolve name with
  | error e => exact .inr (.inl ⟨.lookup e, rfl, rfl⟩)
  | ok c =>
    simp only [sketchClass]
    rcases (build_agrees h levels c none .empty .empty rfl).cases with ⟨hNone, hNone'⟩ |
      ⟨result, p, result', p', hSome, hSome', hResult, -⟩
    · exact .inl (by simp only [hNone, hNone', Option.map_none, and_self])
    · simp only [hSome, hSome', Option.map_some]
      rcases Except.map_eq_map_iff.mp hResult with ⟨e, rfl, rfl⟩ | ⟨t, t', rfl, rfl, hType⟩
      · exact .inr (.inl ⟨e, rfl, rfl⟩)
      · exact .inr (.inr ⟨t, t', rfl, rfl, hType⟩)

/-- A class with a field, a method and a nested class, and no documentation. -/
def silent : Sketcher where
  locator := .memory [
    ("p/A.class", { classWithInner "p/A" [("p/A$B", "p/A", "B")] with
      fields := [⟨⟨0x1⟩, "size", "I", none, none, []⟩]
      methods := [⟨⟨0x1⟩, "run", "()V", none, [], none, [], [], [], none⟩] }.encode),
    ("p/A$B.class", (classWithInner "p/A$B" []).encode)]
  lookup := fun _ _ => none
  settings := {}

/-- The same classes with a text for everything, in which a template is replaced. -/
def told : Sketcher where
  locator := silent.locator
  lookup := fun type _ => some ("Of {{kind}} " ++ type ++ ".\n@param ghost the ghost")
  settings := silent.settings.withDocs false ⟨true, [("kind", "type")]⟩ "_docs"

theorem sketch_undocumented_told : silent.DiffersInDocs told ∧ ∃ t t',
    silent.sketch 2 "p.A" = some (.ok t) ∧ told.sketch 2 "p.A" = some (.ok t') ∧
      t.documentation = none ∧
      t'.documentation = some "Of type p.A.\n@param ghost the ghost" ∧
      t.undocumented = t'.undocumented := by
  have hDiffers : silent.DiffersInDocs told := ⟨rfl, _, _, _, rfl⟩
  have hSilent : (silent.sketch 2 "p.A").any (fun result =>
      result.toOption.any fun t => t.documentation == none) = true := by
    decide +kernel
  have hTold : (told.sketch 2 "p.A").any (fun result => result.toOption.any fun t =>
      t.documentation == some "Of type p.A.\n@param ghost the ghost") = true := by
    decide +kernel
  obtain ⟨t, hSketch, hNone⟩ := exists_of_any_sketch hSilent
  obtain ⟨t', hSketch', hText⟩ := exists_of_any_sketch hTold
  refine ⟨hDiffers, t, t', hSketch, hSketch', beq_iff_eq.mp hNone, beq_iff_eq.mp hText, ?_⟩
  rcases sketch_undocumented hDiffers 2 "p.A" with ⟨hNothing, -⟩ | ⟨e, hError, -⟩ |
    ⟨u, u', hOk, hOk', hSame⟩
  · rw [hSketch] at hNothing
    cases hNothing
  · rw [hSketch] at hError
    cases hError
  · rw [hSketch] at hOk
    rw [hSketch'] at hOk'
    cases hOk
    cases hOk'
    exact hSame

end Sketcher

end ClassSketch
