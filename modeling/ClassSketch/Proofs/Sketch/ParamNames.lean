import ClassSketch.Proofs.ClassFile.Encoding
import ClassSketch.Proofs.Doc.TagBlocks
import ClassSketch.Proofs.Sketch.Parameters

/-!
# Parameters that documentation names

With stale tags taken out, the documentation of a method is meant to name only parameters and type
parameters that the method has. It does, except for names that follow a bare `@param` line of the
text it was made from: these are left as they are, whether the method has them or not.

## Main definitions

* `ExecutableDecl.Declares` — the names that documentation may give
* `Documenter.raw?` — the text that documentation is made from
* `Sketcher.IsSource` — the class file that a type of a sketch shows

## Main results

* `Documenter.withoutStale_shortcut` — looking at the names first changes nothing
* `Sketcher.paramNames_declared_iff` — when the documentation of a sketched method names only what
  the method has
-/

namespace ClassSketch

open Text DocText ParamTags

/-- The names that documentation of a method may give: those of its parameters, and those of its
type parameters in angle brackets. -/
def ExecutableDecl.Declares (e : ExecutableDecl) (name : String) : Prop :=
  name ∈ e.parameterNames ∨ ∃ t ∈ e.typeParameters, name = "<" ++ t.name ++ ">"

instance (e : ExecutableDecl) (name : String) : Decidable (e.Declares name) :=
  inferInstanceAs (Decidable (_ ∨ _))

/-! ### Methods without parameters -/

namespace Owner

/-- A method without parameters counts as one whose names are recorded. -/
theorem namesRecovered_of_no_parameters {o : Owner} {m : MethodInfo} {b : BuiltExecutable}
    (h : o.executable m = .ok (some b)) (hNone : b.decl.parameters = []) :
    b.namesRecovered = true := by
  obtain ⟨d, s, -, -, -, hParameters, hRecovered, -⟩ := exists_of_executable h
  have hLength := length_annotate hParameters
  rw [hNone, length_bareParameters] at hLength
  rw [hRecovered, recoveredNames?_isSome_iff]
  exact .inr (List.eq_nil_of_length_eq_zero hLength.symm)

end Owner

/-! ### What documentation may name -/

namespace Owner.BuiltExecutable

/-- The names that tags may give. -/
def known (b : Owner.BuiltExecutable) : Known :=
  ⟨b.decl.parameterNames, b.decl.typeParameters.map TypeParameter.name⟩

theorem declares_of_known {b : Owner.BuiltExecutable} {word : List Char}
    (h : b.known.has word = true) : b.decl.Declares (String.ofList word) := by
  rw [Known.has] at h
  split at h
  · next typeParameter hAngled =>
    have hWord := angled?_eq_some_iff.mp hAngled
    rw [List.contains_iff_mem] at h
    obtain ⟨t, ht, hName⟩ := List.mem_map.mp h
    refine .inr ⟨t, ht, ?_⟩
    rw [← String.toList_inj, hName, hWord]
    simp
  · exact .inl (List.contains_iff_mem.mp h)

end Owner.BuiltExecutable

namespace Documenter

/-- The text that the documentation of a method is made from. -/
def raw? (d : Documenter) (b : Owner.BuiltExecutable) : Option String :=
  b.inlineDocumentation.or (d.stored? b)

theorem namedTags_all_iff {known : Known} {raw : String} :
    (((DocText.parse raw).namedTags "param").all fun tag => known.has tag.1.toList) = true ↔
      ∀ name ∈ paramNames raw, known.has name.toList = true := by
  rw [List.all_eq_true, paramNames, List.forall_mem_map]

/-- Looking at the names first changes nothing: where all are known, no tag is stale. -/
theorem withoutStale_eq (known : Known) (raw : String) :
    withoutStale known raw = (strip known raw).text := by
  rw [withoutStale]
  split
  · next hAll =>
    have hNone := ((paramNames_known_iff known raw).mp (namedTags_all_iff.mp hAll)).1
    exact (text_strip_of_removed_eq_nil hNone).symm
  · rfl

/-- **Looking at the names first is no more than a shortcut.** The text is always the one that
taking out stale tags gives. The shortcut is taken if and only if there is no stale tag and neither
a name on a line after a bare one is unknown nor a tag lacks a name: parsing finds such names, while
taking out tags looks at one line of a tag only. -/
theorem withoutStale_shortcut (names : List String) (typeParameters : List TypeParameter)
    (raw : String) :
    let known : Known := ⟨names, typeParameters.map TypeParameter.name⟩
    withoutStale known raw = (strip known raw).text ∧
    ((∀ name ∈ paramNames raw, known.Names name.toList) ↔
      (strip known raw).removed = [] ∧
      (∀ word ∈ bareNames (lines raw.toList), known.Names word) ∧
      ("" ∈ paramNames raw → known.Names [])) := by
  intro known
  refine ⟨withoutStale_eq known raw, ?_⟩
  simp only [← Known.has_iff]
  exact paramNames_known_iff known raw

/-- The documentation that is not empty, where stale tags are taken out and templates are not
replaced. -/
theorem documentation_of_recovered {d : Documenter} {b : Owner.BuiltExecutable} {text : String}
    (hValidate : d.settings.validateParamTags = true)
    (hTemplates : d.settings.templates.enabled = false) (hRecovered : b.namesRecovered = true)
    (h : (d.documented b).documentation = some text) :
    ∃ raw, d.raw? b = some raw ∧
      text = String.ofList (trim (strip b.known raw).text.toList) := by
  obtain ⟨raw, hRaw, hFinish⟩ := Option.bind_eq_some_iff.mp h
  refine ⟨raw, hRaw, ?_⟩
  simp only [hValidate, hRecovered, Bool.and_self, if_true] at hFinish
  rw [← Owner.BuiltExecutable.known, withoutStale_eq, finish, hTemplates] at hFinish
  simp only [Bool.false_eq_true, if_false] at hFinish
  split at hFinish
  · cases hFinish
  · exact (Option.some.inj hFinish).symm

/-- Documentation names only what the method has if and only if the names after bare tag lines do,
given that the names of the parameters are recorded. -/
theorem paramNames_documented_iff {d : Documenter} {b : Owner.BuiltExecutable} {text : String}
    (hValidate : d.settings.validateParamTags = true)
    (hTemplates : d.settings.templates.enabled = false) (hRecovered : b.namesRecovered = true)
    (h : (d.documented b).documentation = some text) :
    ∃ raw, d.raw? b = some raw ∧
      ((∀ name ∈ paramNames text, name ≠ "" → (d.documented b).Declares name) ↔
        ∀ word ∈ bareNames (lines raw.toList), (d.documented b).Declares (String.ofList word)) := by
  obtain ⟨raw, hRaw, rfl⟩ := documentation_of_recovered hValidate hTemplates hRecovered h
  have hWords : ∀ name, name ∈ paramNames (String.ofList (trim (strip b.known raw).text.toList)) ↔
      ∃ word ∈ paramWords (sift b.known false (lines raw.toList)).1, name = String.ofList word := by
    intro name
    rw [mem_paramNames, String.toList_ofList, paramWords_ignoresBlanks.lines_trim,
      lines_strip paramWords_ignoresBlanks]
  refine ⟨raw, hRaw, ?_, ?_⟩
  · intro hAll word hWord
    refine hAll _ ((hWords _).mpr ⟨word, bareNames_subset_sift _ false hWord, rfl⟩) ?_
    rw [Ne, String.ofList_eq_empty_iff]
    exact ne_nil_of_mem_bareNames hWord
  · intro hBare name hName hne
    obtain ⟨word, hWord, rfl⟩ := (hWords name).mp hName
    rcases known_of_mem_sift hWord with rfl | hKnown | hWord
    · exact absurd rfl hne
    · exact Owner.BuiltExecutable.declares_of_known hKnown
    · exact hBare word hWord

end Documenter

/-! ### Sketches -/

namespace Sketcher

/-- The type is the skeleton of a class file with some nested types, and its methods are those of
the class file that are shown. -/
structure IsSource (s : Sketcher) (c : ClassFile) (node : TypeDecl) : Prop where
  skeleton : ∃ access,
    skeleton s.settings s.lookup c access = .ok { node with nestedTypes := [] }
  methods : ∀ e, .executable e ∈ node.members ↔ ∃ m ∈ c.methods, ∃ b,
    (Owner.ofClassFile s.settings c).executable m = .ok (some b) ∧
      e = (Documenter.ofClassFile s.settings s.lookup c).documented b

/-- The class file that a type is made from is its source. -/
theorem SketchedFrom.isSource {s : Sketcher} {c : ClassFile} {node : TypeDecl}
    (h : s.SketchedFrom c node) : s.IsSource c node := by
  obtain ⟨access, children, hSkeleton, -⟩ := h.exists_children
  exact ⟨⟨access, hSkeleton⟩, fun e => (draftedFrom_of_skeleton hSkeleton).executable_mem⟩

/-- Every type of a sketch shows the methods of its class file, the one to which shown entries lead
from the class file that is found under the name. Where the names of its parameters are recorded, or
there are none, the documentation of such a method names only what the method has if and only if the
names after bare tag lines do. -/
theorem paramNames_declared_iff {s : Sketcher} {levels : ℕ} {name : String} {root node : TypeDecl}
    (hValidate : s.settings.validateParamTags = true)
    (hTemplates : s.settings.templates.enabled = false)
    (hSketch : s.sketch levels name = some (.ok root)) (hNode : root.Contains node) :
    ∃ c d, s.locator.resolve name = .ok c ∧ s.SketchedWithin c root d node ∧ s.IsSource d node ∧
      ∀ m ∈ d.methods, ∀ b, (Owner.ofClassFile s.settings d).executable m = .ok (some b) →
      b.namesRecovered = true ∨ b.decl.parameters = [] → ∀ text,
      ((Documenter.ofClassFile s.settings s.lookup d).documented b).documentation = some text →
      ∃ raw, (Documenter.ofClassFile s.settings s.lookup d).raw? b = some raw ∧
        ((∀ key ∈ paramNames text, key ≠ "" → b.decl.Declares key) ↔
          ∀ word ∈ bareNames (lines raw.toList), b.decl.Declares (String.ofList word)) := by
  obtain ⟨c, d, hResolve, hWithin⟩ := sketchedWithin_of_sketch hSketch hNode
  refine ⟨c, d, hResolve, hWithin, hWithin.sketchedFrom.isSource, ?_⟩
  intro m _ b hb hNames text hText
  have hRecovered : b.namesRecovered = true :=
    hNames.elim id (Owner.namesRecovered_of_no_parameters hb)
  exact Documenter.paramNames_documented_iff hValidate hTemplates hRecovered hText

/-- A class with a method `run()` in memory, and documentation whose tag names a parameter on the
line after it. -/
def ghostly : Sketcher where
  locator := .memory [("A.class", ClassFile.encode {
    majorVersion := 52
    access := ⟨0x21⟩
    thisClass := "A"
    superClass := some "java/lang/Object"
    interfaces := []
    signature := none
    fields := []
    methods := [⟨⟨0x1⟩, "run", "()V", none, [], none, [], [], [], none⟩]
    annotations := []
    innerClasses := [] })]
  lookup := fun _ key =>
    if key = .method "run" [] then some "Runs.\n@param\n  ghost the ghost" else none
  settings := {}

theorem sketch_ghostly : ∃ root, ghostly.sketch 1 "A" = some (.ok root) := by
  have h : (ghostly.sketch 1 "A").any (fun result => result.toOption.any fun _ => true) = true := by
    decide +kernel
  obtain ⟨root, hRoot, -⟩ := exists_of_any_sketch h
  exact ⟨root, hRoot⟩

theorem paramNames_declared_iff_ghostly : ∃ root c d, ghostly.sketch 1 "A" = some (.ok root) ∧
    ghostly.locator.resolve "A" = .ok c ∧ ghostly.SketchedWithin c root d root ∧
    ghostly.IsSource d root ∧
    ∀ m ∈ d.methods, ∀ b, (Owner.ofClassFile ghostly.settings d).executable m = .ok (some b) →
      b.namesRecovered = true ∨ b.decl.parameters = [] → ∀ text,
      ((Documenter.ofClassFile ghostly.settings ghostly.lookup d).documented b).documentation =
        some text →
      ∃ raw, (Documenter.ofClassFile ghostly.settings ghostly.lookup d).raw? b = some raw ∧
        ((∀ key ∈ paramNames text, key ≠ "" → b.decl.Declares key) ↔
          ∀ word ∈ bareNames (lines raw.toList), b.decl.Declares (String.ofList word)) := by
  obtain ⟨root, hRoot⟩ := sketch_ghostly
  obtain ⟨c, d, h⟩ := paramNames_declared_iff rfl rfl hRoot (.self root)
  exact ⟨root, c, d, hRoot, h⟩

/-- The tag of a parameter that a method without parameters does not have is left. -/
theorem ghost_named : ∃ root e text, ghostly.sketch 1 "A" = some (.ok root) ∧
    .executable e ∈ root.members ∧ e.parameters = [] ∧ e.documentation = some text ∧
    "ghost" ∈ paramNames text ∧ ¬ e.Declares "ghost" := by
  obtain ⟨root, hRoot⟩ := sketch_ghostly
  have h : ((ghostly.sketch 1 "A").any fun result => result.toOption.any fun root =>
      root.executables.any fun e => e.parameters.isEmpty && (e.documentation.any fun text =>
        decide ("ghost" ∈ paramNames text)) && !decide (e.Declares "ghost")) = true := by
    decide +kernel
  rw [hRoot] at h
  obtain ⟨e, hMember, h⟩ := List.any_eq_true.mp h
  simp only [Bool.and_eq_true, List.isEmpty_iff, Bool.not_eq_true', decide_eq_false_iff_not,
    Option.any_eq_true, decide_eq_true_eq] at h
  obtain ⟨⟨hNone, text, hText, hGhost⟩, hUnknown⟩ := h
  obtain ⟨member, hMember, hExecutable⟩ := List.mem_filterMap.mp hMember
  cases member with
  | field _ => cases hExecutable
  | executable _ =>
    cases hExecutable
    exact ⟨root, e, text, hRoot, hMember, hNone, hText, hGhost, hUnknown⟩

end Sketcher

end ClassSketch
