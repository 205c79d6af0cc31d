import ClassSketch.Proofs.Sketch.Members
import ClassSketch.Proofs.Sketch.Nesting

/-!
# Sketches keep the rules of declarations

A skeleton is checked before it is given, and the types nested in it are attached after the check.
Neither matters: what is put together from a class file keeps the rules already, and so does every
type that is attached. The only rule a class file can break is that on default values, and a method
that breaks it fails the type before anything is checked.

## Main definitions

* `TypeDecl.KeepsRules` — the rules that concern one type
* `Owner.BreaksRule` — a method with a default value that it must not have

## Main results

* `TypeDecl.check_eq_ok` — a type passes if all types in it keep the rules
* `Owner.executable_eq_rule` — which methods break a rule
* `DraftedFrom.keepsRules` — a draft keeps the rules
* `Sketcher.sketch_checked` — sketches pass the check, and which rule is broken where there is none
-/

namespace ClassSketch

/-! ### The rules -/

namespace TypeDecl

/-- The rules that concern one type, whatever is nested in it. -/
structure KeepsRules (t : TypeDecl) : Prop where
  superclass : t.kind ≠ .classType → t.superclass = none
  supplied : t.kind = .enum → ∀ e ∈ t.executables, isSuppliedByEnum e.name = false
  defaults : ∀ e ∈ t.executables, e.defaultValue.isSome = true →
    t.kind = .annotationType ∧ e.parameters = []

theorem KeepsRules.ownBreak?_eq_none {t : TypeDecl} (h : t.KeepsRules) : t.ownBreak? = none := by
  have hSuperclass : ¬(t.kind ≠ .classType ∧ t.superclass.isSome = true) := by
    rintro ⟨hKind, hSome⟩
    rw [h.superclass hKind] at hSome
    cases hSome
  have hSupplied :
      (if t.kind = .enum then t.executables.find? (isSuppliedByEnum ·.name) else none) = none := by
    split
    · next hKind =>
      rw [List.find?_eq_none]
      intro e he
      rw [h.supplied hKind e he]
      exact Bool.false_ne_true
    · rfl
  rw [ownBreak?, if_neg hSuperclass, hSupplied]
  rw [List.findSome?_eq_none_iff]
  intro e he
  rw [Option.map_eq_none_iff, ExecutableDecl.defaultBreak?]
  cases hDefault : e.defaultValue with
  | none => rfl
  | some value =>
    obtain ⟨hKind, hParameters⟩ := h.defaults e he (by rw [hDefault]; rfl)
    rw [hKind, hParameters]
    rfl

mutual

/-- A type is sound if it and all types in it keep the rules. -/
theorem break?_eq_none : ∀ {t : TypeDecl}, (∀ u, t.Contains u → u.KeepsRules) → t.break? = none
  | ⟨kind, name, modifiers, superclass, superinterfaces, typeParameters, members, nestedTypes,
      documentation, annotations⟩, h => by
    rw [break?, (h _ (.self _)).ownBreak?_eq_none, Option.none_or]
    exact firstBreak?_eq_none fun u hu v hv => h v (.nested hu hv)

theorem firstBreak?_eq_none : ∀ {ts : List TypeDecl},
    (∀ t ∈ ts, ∀ u, t.Contains u → u.KeepsRules) → firstBreak? ts = none
  | [], _ => rfl
  | t :: ts, h => by
    rw [firstBreak?, break?_eq_none (h t List.mem_cons_self), Option.none_or]
    exact firstBreak?_eq_none fun u hu => h u (List.mem_cons_of_mem t hu)

end

/-- A type passes the check if all types in it keep the rules. -/
theorem check_eq_ok {t : TypeDecl} (h : ∀ u, t.Contains u → u.KeepsRules) : t.check = .ok () := by
  rw [check, break?_eq_none h]

end TypeDecl

/-! ### Members and the rules -/

namespace Owner

variable {o : Owner}

/-- A method that is shown and has a default value that it must not have: its type is no annotation
type, or its descriptor has parameters. -/
structure BreaksRule (o : Owner) (m : MethodInfo) (b : RuleBreak) : Prop where
  kept : o.KeepsMethod m
  hasDefault : m.defaultValue.isSome = true
  declaration : b.declaration = memberLabel o.name m.name
  rule : (o.kind ≠ .annotationType ∧ b.rule = .misplacedDefault) ∨
    (o.kind = .annotationType ∧ b.rule = .defaultWithParameters ∧
      ∃ d, MethodDescriptor.ofText m.descriptor = .ok d ∧ d.parameters ≠ [])

theorem concerning_ne_rule {α : Type} {member : String} {r : Except ClassFile.Error α}
    {b : RuleBreak} : o.concerning member r ≠ .error (.rule b) := by
  intro h
  obtain ⟨e, -, hRule⟩ := Except.mapError_eq_error.mp h
  cases hRule

/-- A default value that is there stands on a method of an annotation type without parameters. -/
theorem defaultValue_eq_some {m : MethodInfo} {parameters : List Parameter}
    {value : AnnotationValue} (h : o.defaultValue m parameters = .ok (some value)) :
    o.kind = .annotationType ∧ parameters = [] := by
  rw [defaultValue] at h
  split at h
  · cases h
  · split at h
    · cases h
    · next hKind =>
      split at h
      · cases h
      · next hParameters => exact ⟨not_not.mp hKind, by simpa using hParameters⟩

/-- A default value that breaks a rule stands where there should be none, or on a method that takes
parameters. -/
theorem defaultValue_eq_rule {m : MethodInfo} {parameters : List Parameter} {b : RuleBreak}
    (h : o.defaultValue m parameters = .error (.rule b)) :
    m.defaultValue.isSome = true ∧ b.declaration = memberLabel o.name m.name ∧
      ((o.kind ≠ .annotationType ∧ b.rule = .misplacedDefault) ∨
        (o.kind = .annotationType ∧ b.rule = .defaultWithParameters ∧ parameters ≠ [])) := by
  rw [defaultValue] at h
  split at h
  · cases h
  · next value hValue =>
    refine ⟨by rw [hValue]; rfl, ?_⟩
    split at h
    · next hKind =>
      cases h
      exact ⟨rfl, .inl ⟨hKind, rfl⟩⟩
    · next hKind =>
      split at h
      · next hParameters =>
        cases h
        exact ⟨rfl, .inr ⟨not_not.mp hKind, rfl, by simpa using hParameters⟩⟩
      · cases hElement : o.concerning m.name (AnnotationValue.ofElement value) with
        | ok v =>
          rw [hElement] at h
          cases h
        | error e =>
          rw [hElement] at h
          cases h
          exact absurd hElement concerning_ne_rule

theorem annotate_ne_rule {member : String} {bare : List Parameter}
    {table : List (List RawAnnotation)} {b : RuleBreak} :
    o.annotate member bare table ≠ .error (.rule b) := by
  intro h
  obtain ⟨row, -, hRow⟩ := Except.exists_of_mapM_eq_error h
  rcases Except.bind_eq_error.mp hRow with hError | ⟨converted, -, hReturn⟩
  · exact concerning_ne_rule hError
  · cases hReturn

theorem shown_ne_rule {hidden : Bool} {member : String} {annotations : List RawAnnotation}
    {b : RuleBreak} :
    (if hidden then .ok false
      else do return !(← o.concerning member (hasInternalMark o.settings annotations))) ≠
        (.error (.rule b) : Except SketchError Bool) := by
  intro h
  split at h
  · cases h
  · rcases Except.bind_eq_error.mp h with hError | ⟨marked, -, hReturn⟩
    · exact concerning_ne_rule hError
    · cases hReturn

theorem field_ne_rule {f : FieldInfo} {b : RuleBreak} : o.field f ≠ .error (.rule b) := by
  intro h
  rcases Except.bind_eq_error.mp h with hShown | ⟨shown, -, h⟩
  · exact shown_ne_rule hShown
  split at h
  · cases h
  rcases Except.bind_eq_error.mp h with hErased | ⟨erased, -, h⟩
  · exact concerning_ne_rule hErased
  simp only at h
  split at h
  · cases h
  rcases Except.bind_eq_error.mp h with hConstant | ⟨constant, -, h⟩
  · exact concerning_ne_rule hConstant
  rcases Except.bind_eq_error.mp h with hConverted | ⟨converted, -, hReturn⟩
  · exact concerning_ne_rule hConverted
  · cases hReturn

/-- A method breaks a rule only by its default value. -/
theorem executable_eq_rule {m : MethodInfo} {b : RuleBreak}
    (h : o.executable m = .error (.rule b)) : o.BreaksRule m b := by
  rcases Except.bind_eq_error.mp h with hShown | ⟨shown, hShown, h⟩
  · exact absurd hShown shown_ne_rule
  have hKeeps := shown_eq_ok hShown
  split at h
  · cases h
  next hVisible =>
  obtain ⟨hHides, hInternal⟩ := hKeeps.mp (by simpa using hVisible)
  rcases Except.bind_eq_error.mp h with hDescriptor | ⟨descriptor, hDescriptor, h⟩
  · exact absurd hDescriptor concerning_ne_rule
  simp only at h
  split at h
  · cases h
  next signature hGeneric =>
  obtain ⟨-, hSome⟩ := generic?_eq_some MethodSignature.ofText (erasedSignature descriptor) hGeneric
  rcases Except.bind_eq_error.mp h with hParameters | ⟨parameters, hParameters, h⟩
  · exact absurd hParameters annotate_ne_rule
  rcases Except.bind_eq_error.mp h with hConverted | ⟨converted, -, h⟩
  · exact absurd hConverted concerning_ne_rule
  rcases Except.bind_eq_error.mp h with hDefault | ⟨default, -, hReturn⟩
  · obtain ⟨hSome', hDeclaration, hRule⟩ := defaultValue_eq_rule hDefault
    refine ⟨keepsMethod_iff.mpr ⟨hHides, hInternal, ?_⟩, hSome', hDeclaration, ?_⟩
    · exact fun text hText => Except.isOk_iff.mpr ⟨signature, hSome text hText⟩
    · rcases hRule with hMisplaced | ⟨hKind, hRule, hParameter⟩
      · exact .inl hMisplaced
      · refine .inr ⟨hKind, hRule, descriptor, Except.mapError_eq_ok.mp hDescriptor, ?_⟩
        intro hNone
        have hLength := length_annotate hParameters
        rw [List.length_map, List.length_zip, length_reconcile, hNone, List.length_nil,
          Nat.min_zero] at hLength
        exact hParameter (List.eq_nil_of_length_eq_zero hLength)
  · cases hReturn

theorem shownFields_ne_rule {d : Documenter} {fields : List FieldInfo} {b : RuleBreak} :
    shownFields o d fields ≠ .error (.rule b) := by
  intro h
  rcases Except.bind_eq_error.mp h with hCollect | ⟨built, -, hReturn⟩
  · obtain ⟨f, -, hField⟩ := exists_of_collect_eq_error hCollect
    exact field_ne_rule hField
  · cases hReturn

/-- A rule that the methods of a type break is broken by one of them. -/
theorem shownExecutables_eq_rule {d : Documenter} {methods : List MethodInfo} {b : RuleBreak}
    (h : shownExecutables o d methods = .error (.rule b)) : ∃ m ∈ methods, o.BreaksRule m b := by
  rcases Except.bind_eq_error.mp h with hCollect | ⟨built, -, hReturn⟩
  · obtain ⟨m, hm, hMethod⟩ := exists_of_collect_eq_error hCollect
    exact ⟨m, hm, executable_eq_rule hMethod⟩
  · cases hReturn

end Owner

/-! ### Drafts and skeletons -/

variable {settings : Settings} {lookup : Lookup} {c : ClassFile} {recorded : Option AccessFlags}

theorem DraftedFrom.exists_method {t : TypeDecl} (h : DraftedFrom settings lookup c t)
    {e : ExecutableDecl} (he : e ∈ t.executables) :
    ∃ m b, (Owner.ofClassFile settings c).KeepsMethod m ∧
      (Owner.ofClassFile settings c).BuildsExecutable m b ∧
      e = (Documenter.ofClassFile settings lookup c).documented b := by
  obtain ⟨m, -, b, hBuilt, heq⟩ := h.executable_mem.mp (TypeDecl.mem_executables.mp he)
  rcases Owner.executable_eq_ok hBuilt with ⟨-, hNone⟩ | ⟨hKept, b', hSome, hBuilds⟩
  · cases hNone
  · cases hSome
    exact ⟨m, b, hKept, hBuilds, heq⟩

/-- A draft keeps the rules: only that of a class has a superclass, the methods that are shown are
none that the compiler supplies, and those with default values are rightly there. -/
theorem DraftedFrom.keepsRules {t : TypeDecl} (h : DraftedFrom settings lookup c t) :
    t.KeepsRules where
  superclass := by
    intro hKind
    obtain ⟨s, -, hSuperclass, -⟩ := h.supertypes
    rw [hSuperclass, Supertypes.shownSuperclass, if_neg hKind]
  supplied := by
    intro hKind e he
    obtain ⟨m, b, hKept, hBuilds, rfl⟩ := h.exists_method he
    have hEnum : (Owner.ofClassFile settings c).kind = .enum := h.kind.symm.trans hKind
    have hName := hKept.notSupplied hEnum
    change isSuppliedByEnum b.decl.name = false
    rw [hBuilds.name]
    simp only [List.mem_cons, not_or] at hName
    simp [isSuppliedByEnum, hName]
  defaults := by
    intro e he hDefault
    obtain ⟨m, b, -, hBuilds, rfl⟩ := h.exists_method he
    obtain ⟨value, hValue⟩ := Option.isSome_iff_exists.mp hDefault
    have hBuilt := hBuilds.defaultValue
    rw [show b.decl.defaultValue = some value from hValue] at hBuilt
    obtain ⟨hKind, hParameters⟩ := Owner.defaultValue_eq_some hBuilt
    exact ⟨h.kind.trans hKind, hParameters⟩

/-- A draft passes the check. -/
theorem check_draft {t : TypeDecl} (h : draft settings lookup c recorded = .ok t) :
    t.check = .ok () := by
  have hDrafted := draftedFrom_of_draft h
  refine TypeDecl.check_eq_ok fun u hu => ?_
  cases hu with
  | self => exact hDrafted.keepsRules
  | nested hMem =>
    rw [hDrafted.nestedTypes] at hMem
    cases hMem

/-- The check of a skeleton changes nothing. -/
theorem skeleton_eq_draft :
    skeleton settings lookup c recorded = draft settings lookup c recorded := by
  rw [skeleton_eq_checked_draft]
  cases hDraft : draft settings lookup c recorded with
  | error e => rfl
  | ok t =>
    change (t.check.mapError SketchError.rule >>= fun _ => .ok t) = _
    rw [check_draft hDraft]
    rfl

theorem supertypes_ne_rule {b : RuleBreak} : Supertypes.ofClassFile c ≠ .error (.rule b) := by
  intro h
  rw [Supertypes.ofClassFile] at h
  split at h
  · split at h <;> cases h
  · cases h

/-- A draft breaks a rule only by a method with a default value. -/
theorem draft_eq_rule {b : RuleBreak} (h : draft settings lookup c recorded = .error (.rule b)) :
    ∃ m ∈ c.methods, (Owner.ofClassFile settings c).BreaksRule m b := by
  rcases Except.bind_eq_error.mp h with hSupertypes | ⟨supertypes, -, h⟩
  · exact absurd hSupertypes supertypes_ne_rule
  rcases Except.bind_eq_error.mp h with hConverted | ⟨converted, -, h⟩
  · obtain ⟨e, -, hRule⟩ := Except.mapError_eq_error.mp hConverted
    cases hRule
  rcases Except.bind_eq_error.mp h with hFields | ⟨fields, -, h⟩
  · exact absurd hFields Owner.shownFields_ne_rule
  rcases Except.bind_eq_error.mp h with hExecutables | ⟨executables, -, hReturn⟩
  · exact Owner.shownExecutables_eq_rule hExecutables
  · cases hReturn

/-! ### Sketches -/

namespace Sketcher

variable {s : Sketcher}

/-- **Every type that is sketched keeps the rules.** -/
theorem SketchedFrom.keepsRules {t : TypeDecl} (h : s.SketchedFrom c t) : t.KeepsRules := by
  obtain ⟨access, children, hSkeleton, -⟩ := h.exists_children
  -- the rules of one type do not look at the types nested in it
  have hRules := (draftedFrom_of_skeleton hSkeleton).keepsRules
  exact ⟨hRules.superclass, hRules.supplied, hRules.defaults⟩

/-- A build breaks a rule only by a method with a default value. -/
theorem build_eq_rule {levels : ℕ} {access : Option AccessFlags} {p p' : Progress} {b : RuleBreak}
    (h : s.build levels c access p = some (.error (.rule b), p')) :
    ∃ m ∈ c.methods, (Owner.ofClassFile s.settings c).BreaksRule m b := by
  obtain ⟨nested, hResult⟩ := exists_nested_of_build h
  rw [eq_comm, Except.map_eq_error, skeleton_eq_draft] at hResult
  exact draft_eq_rule hResult

/-- Sketches pass the check with all types nested in them, however much room there is. The check of
a skeleton never fails, and a build breaks a rule only by a method that has a default value and is
shown, of a type that is no annotation type or with a descriptor that has parameters. -/
theorem sketch_checked (s : Sketcher) :
    (∀ levels name t, s.sketch levels name = some (.ok t) → t.check = .ok ()) ∧
    (∀ c recorded, skeleton s.settings s.lookup c recorded = draft s.settings s.lookup c recorded ∧
      ∀ t, draft s.settings s.lookup c recorded = .ok t → t.check = .ok ()) ∧
    (∀ levels c access p b p', s.build levels c access p = some (.error (.rule b), p') →
      ∃ m ∈ c.methods, (Owner.ofClassFile s.settings c).BreaksRule m b) ∧
    ∀ levels name b, s.sketch levels name = some (.error (.rule b)) →
      ∃ c, s.locator.resolve name = .ok c ∧
        ∃ m ∈ c.methods, (Owner.ofClassFile s.settings c).BreaksRule m b := by
  refine ⟨?_, fun c recorded => ⟨skeleton_eq_draft, fun t => check_draft⟩,
    fun _ _ _ _ _ _ => build_eq_rule, ?_⟩
  · intro levels name t h
    obtain ⟨c, -, hRoot⟩ := sketchedFrom_of_sketch h
    refine TypeDecl.check_eq_ok fun u hu => ?_
    obtain ⟨d, hWithin⟩ := hRoot.exists_within hu
    exact hWithin.sketchedFrom.keepsRules
  · intro levels name b h
    rcases sketch_eq_some.mp h with ⟨error, -, hError⟩ | ⟨c, p, hResolve, hBuild⟩
    · cases hError
    · exact ⟨c, hResolve, build_eq_rule hBuild⟩

/-- An annotation type with a default value and a nested enum, and a class with a default value. -/
def ruled : Sketcher where
  locator := .memory [
    ("p/A.class", { classWithInner "p/A" [("p/A$E", "p/A", "E")] with
      access := ⟨0x2601⟩
      methods := [⟨⟨0x401⟩, "size", "()I", none, [], none, [], [], [],
        some (.constant 73 (.int 7))⟩] }.encode),
    ("p/A$E.class", { classWithInner "p/A$E" [] with
      access := ⟨0x4031⟩
      superClass := some "java/lang/Enum"
      methods := [⟨⟨0x9⟩, "values", "()[Lp/A$E;", none, [], none, [], [], [], none⟩] }.encode),
    ("p/W.class", { classWithInner "p/W" [] with
      methods := [⟨⟨0x401⟩, "size", "()I", none, [], none, [], [], [],
        some (.constant 73 (.int 7))⟩] }.encode)]
  lookup := fun _ _ => none
  settings := {}

/-- An annotation type with a nested enum is sketched, and a class with a default value is not. -/
theorem sketch_checked_ruled :
    (∃ t, ruled.sketch 2 "p.A" = some (.ok t) ∧ t.nestedTypes.length = 1 ∧ t.check = .ok ()) ∧
    ruled.sketch 1 "p.W" = some (.error (.rule ⟨"p.W#size", .misplacedDefault⟩)) ∧
    ∃ c, ruled.locator.resolve "p.W" = .ok c ∧ ∃ m ∈ c.methods,
      (Owner.ofClassFile ruled.settings c).BreaksRule m ⟨"p.W#size", .misplacedDefault⟩ := by
  obtain ⟨hChecked, -, -, hRule⟩ := sketch_checked ruled
  have hSketched : (ruled.sketch 2 "p.A").any (fun result =>
      result.toOption.any fun t => t.nestedTypes.length == 1) = true := by
    decide +kernel
  have hFailed : (ruled.sketch 1 "p.W").bind Except.error? =
      some (.rule ⟨"p.W#size", .misplacedDefault⟩) := by
    decide +kernel
  obtain ⟨result, hSketch', hError⟩ := Option.bind_eq_some_iff.mp hFailed
  rw [Except.error?_eq_some.mp hError] at hSketch'
  obtain ⟨t, hSketch, hLength⟩ := exists_of_any_sketch hSketched
  exact ⟨⟨t, hSketch, beq_iff_eq.mp hLength, hChecked 2 "p.A" t hSketch⟩, hSketch',
    hRule 1 "p.W" _ hSketch'⟩

end Sketcher

end ClassSketch
