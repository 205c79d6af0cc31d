import ClassSketch.Proofs.Sketch.Members
import ClassSketch.Proofs.Sketch.Nesting

/-!
# What sketches never show

Compilers leave marks in class files: interfaces that every class or every annotation type has, the
root of all classes, annotations that hold documentation or mark the methods of traits, and classes
of their own among the inner classes. No type of a sketch shows any of them, wherever its supertypes
come from and whether it was built for its entry or reused.

## Main definitions

* `Annotation.IsNoise` — annotations that are not shown
* `TypeDecl.Quiet` — a type without marks of a compiler
* `Sketcher.Presents` — a nested type and the entry that it is attached for
* `Sketcher.PresentsNested` — a type whose nested types are all attached for such entries of its
  class file

## Main results

* `convertAnnotations_quiet` — annotations are shown without those that are not
* `DraftedFrom.quiet` — drafts are quiet
* `Sketcher.sketch_quiet` — all types of a sketch are quiet, and their nested types are attached for
  entries that are shown
-/

namespace ClassSketch

deriving instance ReflBEq, LawfulBEq for ClassName

/-! ### Annotations -/

/-- An annotation that holds documentation, or marks a method of a trait. -/
def Annotation.IsNoise (settings : Settings) (a : Annotation) : Prop :=
  a.type.canonical = settings.docAnnotation ∨ a.type.binary = settings.docAnnotation ∨
    a.type.binary = traitMark

variable {settings : Settings}

theorem Settings.isDocAnnotation_iff {canonical binary : String} :
    settings.isDocAnnotation canonical binary = true ↔
      canonical = settings.docAnnotation ∨ binary = settings.docAnnotation := by
  unfold isDocAnnotation
  rw [Bool.or_eq_true, beq_iff_eq, beq_iff_eq, eq_comm, @eq_comm _ _ binary]

/-- One more annotation adds none that is not shown. -/
theorem ConvertedAnnotations.add_quiet {done result : ConvertedAnnotations} {raw : RawAnnotation}
    (hDone : ∀ a ∈ done.annotations, ¬a.IsNoise settings)
    (h : done.add settings raw = .ok result) : ∀ a ∈ result.annotations, ¬a.IsNoise settings := by
  obtain ⟨type, hType, h⟩ := Except.bind_eq_ok.mp h
  split at h
  · -- documentation is taken out
    split at h
    · obtain ⟨value, -, heq⟩ := Except.bind_eq_ok.mp h
      cases heq
      exact hDone
    · cases h
      exact hDone
  · next hDoc =>
    split at h
    · cases h
      exact hDone
    · next hMark =>
      obtain ⟨added, hAdded, heq⟩ := Except.bind_eq_ok.mp h
      cases heq
      obtain ⟨type', hType', hAdded⟩ := Except.bind_eq_ok.mp hAdded
      obtain ⟨entries, -, hAdded⟩ := Except.bind_eq_ok.mp hAdded
      rw [hType] at hType'
      cases hType'
      cases hAdded
      intro a ha
      rcases List.mem_append.mp ha with ha | ha
      · exact hDone a ha
      · rw [List.mem_singleton.mp ha]
        rintro (hCanonical | hBinary | hTrait)
        · exact hDoc (Settings.isDocAnnotation_iff.mpr (.inl hCanonical))
        · exact hDoc (Settings.isDocAnnotation_iff.mpr (.inr hBinary))
        · exact hMark hTrait

/-- What remains after the conversion of annotations is no noise. -/
theorem convertAnnotations_quiet {raw : List RawAnnotation} {converted : ConvertedAnnotations}
    (h : convertAnnotations settings raw = .ok converted) :
    ∀ a ∈ converted.annotations, ¬a.IsNoise settings := by
  refine Except.foldlM_invariant (P := fun done => ∀ a ∈ done.annotations, ¬a.IsNoise settings)
    (by simp) (fun done x next hDone hNext => ?_) h
  exact ConvertedAnnotations.add_quiet hDone hNext

/-! ### Types without nested types -/

/-- The lists of annotations of a member: its own, and those of its parameters. -/
def Member.annotationLists : Member → List (List Annotation)
  | field f => [f.annotations]
  | executable e => e.annotations :: e.parameters.map Parameter.annotations

/-- The lists of annotations of a type and of its members. -/
def TypeDecl.annotationLists (t : TypeDecl) : List (List Annotation) :=
  t.annotations :: t.members.flatMap Member.annotationLists

/-- A type without marks of a compiler. -/
structure TypeDecl.Quiet (settings : Settings) (t : TypeDecl) : Prop where
  superclass : ∀ type ∈ t.superclass, t.kind = .classType ∧ type.className? ≠ some .object
  supertypes : ∀ type ∈ t.superclass.toList ++ t.superinterfaces, ∀ name ∈ type.className?,
    name.canonical ∉ settings.markerInterfaces ∧
      (t.kind = .annotationType → name.canonical ≠ annotationInterface)
  annotations : ∀ shown ∈ t.annotationLists, ∀ a ∈ shown, ¬a.IsNoise settings

/-- A supertype is shown only if it is not elided. -/
theorem Supertypes.shows_quiet {kind : TypeKind} {type : TypeRef}
    (h : shows settings kind type = true) : ∀ name ∈ type.className?,
      name.canonical ∉ settings.markerInterfaces ∧
        (kind = .annotationType → name.canonical ≠ annotationInterface) := by
  intro name hName
  rw [shows, Option.mem_def.mp hName] at h
  simp only [isElided, Bool.not_eq_true', Bool.or_eq_false_iff, Bool.and_eq_false_imp, beq_iff_eq,
    beq_eq_false_iff_ne, List.contains_eq_mem, decide_eq_false_iff_not] at h
  exact ⟨h.2, h.1⟩

theorem Owner.annotate_quiet {o : Owner} {member : String} {bare parameters : List Parameter}
    {table : List (List RawAnnotation)} (h : o.annotate member bare table = .ok parameters) :
    ∀ p ∈ parameters, ∀ a ∈ p.annotations, ¬a.IsNoise o.settings := by
  intro p hp
  obtain ⟨row, -, hRow⟩ := Except.exists_of_mem_mapM h hp
  obtain ⟨converted, hConverted, heq⟩ := Except.bind_eq_ok.mp hRow
  cases heq
  exact convertAnnotations_quiet (Except.mapError_eq_ok.mp hConverted)

variable {lookup : Lookup} {c : ClassFile} {t : TypeDecl}

theorem DraftedFrom.member_quiet (h : DraftedFrom settings lookup c t) {member : Member}
    (hMember : member ∈ t.members) :
    ∀ shown ∈ member.annotationLists, ∀ a ∈ shown, ¬a.IsNoise settings := by
  cases member with
  | field f =>
    obtain ⟨info, -, b, hBuilt, rfl⟩ := h.field_mem.mp hMember
    rcases Owner.field_eq_ok hBuilt with ⟨-, hNone⟩ | ⟨-, b', hSome, hBuilds⟩
    · cases hNone
    cases hSome
    obtain ⟨converted, hConverted, hAnnotations⟩ := hBuilds.annotations
    intro shown hShown
    rw [List.mem_singleton.mp hShown]
    change ∀ a ∈ b.decl.annotations, _
    rw [hAnnotations]
    exact convertAnnotations_quiet hConverted
  | executable e =>
    obtain ⟨info, -, b, hBuilt, rfl⟩ := h.executable_mem.mp hMember
    rcases Owner.executable_eq_ok hBuilt with ⟨-, hNone⟩ | ⟨-, b', hSome, hBuilds⟩
    · cases hNone
    cases hSome
    obtain ⟨converted, hConverted, hAnnotations⟩ := hBuilds.annotations
    obtain ⟨bare, hParameters⟩ := hBuilds.parameters
    intro shown hShown
    rcases List.mem_cons.mp hShown with rfl | hShown
    · change ∀ a ∈ b.decl.annotations, _
      rw [hAnnotations]
      exact convertAnnotations_quiet hConverted
    · obtain ⟨p, hp, rfl⟩ := List.mem_map.mp hShown
      exact Owner.annotate_quiet hParameters p hp

/-- A type that is drafted has no noise of its own. -/
theorem DraftedFrom.quiet (h : DraftedFrom settings lookup c t) : t.Quiet settings where
  superclass := by
    intro type hType
    obtain ⟨s, -, hSuperclass, -⟩ := h.supertypes
    rw [hSuperclass, Supertypes.shownSuperclass] at hType
    split at hType
    · next hKind =>
      obtain ⟨-, hShows⟩ := Option.filter_eq_some_iff.mp hType
      rw [Bool.and_eq_true] at hShows
      exact ⟨hKind, by simpa using hShows.1⟩
    · cases hType
  supertypes := by
    obtain ⟨s, -, hSuperclass, hInterfaces⟩ := h.supertypes
    intro type hType
    have hShows : Supertypes.shows settings t.kind type = true := by
      rcases List.mem_append.mp hType with hType | hType
      · rw [Option.mem_toList, hSuperclass, Supertypes.shownSuperclass] at hType
        split at hType
        · obtain ⟨-, hShows⟩ := Option.filter_eq_some_iff.mp hType
          rw [Bool.and_eq_true] at hShows
          exact hShows.2
        · cases hType
      · rw [hInterfaces, Supertypes.shownInterfaces] at hType
        exact (List.mem_filter.mp hType).2
    exact Supertypes.shows_quiet hShows
  annotations := by
    intro shown hShown
    rcases List.mem_cons.mp hShown with rfl | hShown
    · obtain ⟨converted, hConverted, hAnnotations⟩ := h.annotations
      rw [hAnnotations]
      exact convertAnnotations_quiet hConverted
    · obtain ⟨member, hMember, hShown⟩ := List.mem_flatMap.mp hShown
      exact h.member_quiet hMember shown hShown

/-! ### Sketches -/

namespace Sketcher

/-- A nested type is made from the class file that an entry names, and the entry is one of the class
file around it that is shown: it names a class declared directly inside, neither synthetic nor
private, and its name has no ending that is left out. -/
structure Presents (s : Sketcher) (c : ClassFile) (k : Attached) : Prop where
  named : k.entry.simpleName.isSome = true
  outer : k.entry.outer = some c.thisClass
  notSynthetic : k.entry.access.isSynthetic = false
  notPrivate : k.entry.access.isPrivate = false
  notExcluded : ∀ ending ∈ s.settings.excludedNestedSuffixes,
    ¬ending.toList <:+ k.entry.binaryName.toList
  found : s.locator.resolve k.entry.binaryName = .ok k.source
  made : s.SketchedFrom k.source k.type

variable {s : Sketcher}

theorem mem_memberClasses {e : InnerClass} : e ∈ c.memberClasses ↔
    e ∈ c.innerClasses ∧ e.simpleName.isSome = true ∧ e.outer = some c.thisClass := by
  simp [ClassFile.memberClasses]

/-- An entry that is not hidden is visible, declared in the source, and has no excluded ending. -/
theorem hidesNested_eq_false {e : InnerClass} (h : s.hidesNested e = false) :
    e.access.isSynthetic = false ∧ e.access.isPrivate = false ∧
      ∀ ending ∈ s.settings.excludedNestedSuffixes, ¬ending.toList <:+ e.binaryName.toList := by
  simp only [hidesNested, Bool.or_eq_false_iff, Settings.isExcludedNested, List.any_eq_false,
    List.isSuffixOf_iff_suffix] at h
  exact ⟨h.1.1, h.1.2, h.2⟩

/-- A type is made from the given class file, with nested types that are attached, in order, for
entries of this class file that are shown. -/
def PresentsNested (s : Sketcher) (c : ClassFile) (t : TypeDecl) : Prop :=
  ∃ (access : Option AccessFlags) (children : List Attached),
    skeleton s.settings s.lookup c access = .ok { t with nestedTypes := [] } ∧
    t.nestedTypes = children.map Attached.type ∧
    (children.map Attached.entry).Sublist c.innerClasses ∧ ∀ k ∈ children, s.Presents c k

/-- The nested types of a type that is made from a class file are attached for entries of it. -/
theorem SketchedFrom.presentsNested {t : TypeDecl} (h : s.SketchedFrom c t) :
    s.PresentsNested c t := by
  obtain ⟨access, children, hSkeleton, hTypes, hEntries, hChildren⟩ := h.exists_children
  refine ⟨access, children, hSkeleton, hTypes, hEntries.trans List.filter_sublist, fun k hk => ?_⟩
  have hListed : k.entry ∈ c.memberClasses := hEntries.subset (List.mem_map_of_mem hk)
  obtain ⟨-, hNamed, hOuter⟩ := mem_memberClasses.mp hListed
  obtain ⟨hHidden, hFound, hMade⟩ := hChildren k hk
  obtain ⟨hSynthetic, hPrivate, hExcluded⟩ := hidesNested_eq_false hHidden
  exact ⟨hNamed, hOuter, hSynthetic, hPrivate, hExcluded, hFound, hMade⟩

/-- A type that is made from a class file has no marks of a compiler. -/
theorem SketchedFrom.quiet {t : TypeDecl} (h : s.SketchedFrom c t) : t.Quiet s.settings := by
  obtain ⟨access, children, hSkeleton, -⟩ := h.exists_children
  -- what a type shows of itself does not depend on the types nested in it
  have hQuiet := (draftedFrom_of_skeleton hSkeleton).quiet
  exact ⟨hQuiet.superclass, hQuiet.supertypes, hQuiet.annotations⟩

/-- No type of a sketch has marks of a compiler. Each is made from the class file to which shown
entries lead from the one that is found under the name, and its nested types are attached for shown
entries of that class file. -/
theorem sketch_quiet {levels : ℕ} {name : String} {root node : TypeDecl}
    (hSketch : s.sketch levels name = some (.ok root)) (hNode : root.Contains node) :
    ∃ c d, s.locator.resolve name = .ok c ∧ s.SketchedWithin c root d node ∧
      node.Quiet s.settings ∧ s.PresentsNested d node := by
  obtain ⟨c, d, hResolve, hWithin⟩ := sketchedWithin_of_sketch hSketch hNode
  exact ⟨c, d, hResolve, hWithin, hWithin.sketchedFrom.quiet, hWithin.sketchedFrom.presentsNested⟩

/-- A class with two nested classes that are shown, and five entries that are not: of an anonymous
class, of a class around another one, of a private and of a synthetic class, and of a helper. -/
def noisyClass : ClassFile where
  majorVersion := 52
  access := ⟨0x21⟩
  thisClass := "p/A"
  superClass := some "java/lang/Object"
  interfaces := ["groovy/lang/GroovyObject", "java/lang/Runnable"]
  signature := none
  fields := []
  methods := [⟨⟨0x1⟩, "run", "()V", none, [], none, [],
    [⟨"Lorg/codehaus/groovy/transform/trait/Traits$Implemented;", []⟩], [], none⟩]
  annotations := [
    ⟨"Lcom/blackbuild/annodocimal/annotations/AnnoDoc;", [("value", .constant 115 (.string "A."))]⟩,
    ⟨"Ljava/lang/Deprecated;", []⟩]
  innerClasses := [
    ⟨"p/A$B", some "p/A", some "B", ⟨0x9⟩⟩,
    ⟨"p/A$1", none, none, ⟨0⟩⟩,
    ⟨"p/C$D", some "p/C", some "D", ⟨0x9⟩⟩,
    ⟨"p/A$P", some "p/A", some "P", ⟨0xA⟩⟩,
    ⟨"p/A$S", some "p/A", some "S", ⟨0x1009⟩⟩,
    ⟨"p/A$B$Trait$Helper", some "p/A", some "B$Trait$Helper", ⟨0x9⟩⟩,
    ⟨"p/A$N", some "p/A", some "N", ⟨0x2609⟩⟩]

/-- The class in memory, with the classes of all its entries. -/
def noisy : Sketcher where
  locator := .memory <|
    ("p/A.class", noisyClass.encode) ::
    ("p/A$N.class", { classWithInner "p/A$N" [] with
      access := ⟨0x2601⟩, interfaces := ["java/lang/annotation/Annotation"] }.encode) ::
    ["p/A$B", "p/A$1", "p/C$D", "p/A$P", "p/A$S", "p/A$B$Trait$Helper"].map fun name =>
      (name ++ ".class", (classWithInner name []).encode)
  lookup := fun _ _ => none
  settings := {}

theorem sketch_quiet_noisy : ∃ root, noisy.sketch 2 "p.A" = some (.ok root) ∧
    root.superinterfaces.length = 1 ∧ root.annotations.length = 1 ∧ root.nestedTypes.length = 2 ∧
    ∀ node, root.Contains node → ∃ c d, noisy.locator.resolve "p.A" = .ok c ∧
      noisy.SketchedWithin c root d node ∧ node.Quiet noisy.settings ∧
      noisy.PresentsNested d node := by
  have hSketched : (noisy.sketch 2 "p.A").any (fun result => result.toOption.any fun root =>
      root.superinterfaces.length == 1 && root.annotations.length == 1 &&
        root.nestedTypes.length == 2) = true := by
    decide +kernel
  obtain ⟨root, hRoot, hLengths⟩ := exists_of_any_sketch hSketched
  simp only [Bool.and_eq_true, beq_iff_eq] at hLengths
  exact ⟨root, hRoot, hLengths.1.1, hLengths.1.2, hLengths.2, fun node => sketch_quiet hRoot⟩

end Sketcher

end ClassSketch
