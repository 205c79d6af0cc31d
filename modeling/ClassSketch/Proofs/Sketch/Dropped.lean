import ClassSketch.Proofs.Sketch.Members

/-!
# Members that are left out

A member is left out for its flags or its name before anything else of it is read, and for its
signature before its annotations and values are. So what a member that is left out holds does not
matter: a class file gives the same type, or fails with the same error, as the one without it.

## Main definitions

* `Owner.ExcludesField`, `Owner.ExcludesMethod` — members that flags, names and settings exclude
* `Owner.Unreadable` — a member of which nothing but the signature is wrong
* `ClassFile.eraseField`, `ClassFile.eraseMethod` — a class file without one of its members

## Main results

* `collect_eraseIdx` — items without a result do not matter where results are collected
* `Sketcher.build_congr` — builds look at nothing but name, skeleton and member entries
* `Sketcher.build_erase_dropped` — members that are left out do not matter
-/

namespace ClassSketch

/-! ### Members that are left out -/

namespace Owner

/-- The fields that are left out, whatever their type, constant and annotations. -/
inductive ExcludesField (o : Owner) (f : FieldInfo) : Prop
  | synthetic : f.access.isSynthetic = true → ExcludesField o f
  | invisible : f.access.isPublic = false → f.access.isProtected = false → ExcludesField o f
  | generated : '$' ∈ f.name.toList → ExcludesField o f
  | range : o.kind = .enum → f.name ∈ ["MIN_VALUE", "MAX_VALUE"] → ExcludesField o f

/-- The methods and constructors that are left out, whatever their type, annotations and default
value. -/
inductive ExcludesMethod (o : Owner) (m : MethodInfo) : Prop
  | synthetic : m.access.isSynthetic = true → ExcludesMethod o m
  | bridge : m.access.isBridge = true → ExcludesMethod o m
  | initializer : m.name = initializerName → ExcludesMethod o m
  | invisible : m.access.isPublic = false → m.access.isProtected = false → ExcludesMethod o m
  | generated : '$' ∈ m.name.toList → ExcludesMethod o m
  | configured : m.name ∈ o.settings.excludedMethods → ExcludesMethod o m
  | supplied : o.kind = .enum →
      m.name ∈ [constructorName, "values", "valueOf", "next", "previous"] → ExcludesMethod o m

/-- A member whose signature cannot be read, while its descriptor and the classes of its annotations
can. -/
structure Unreadable {α β : Type} (readErased : String → Except ClassFile.Error α)
    (readGeneric : String → Except SignatureError β) (descriptor : String)
    (signature : Option String) (annotations : List RawAnnotation) : Prop where
  signature : ∃ text ∈ signature, (readGeneric text).isOk = false
  descriptor : (readErased descriptor).isOk = true
  annotations : ∀ a ∈ annotations, a.className.isOk = true

/-- The fields that are left out for what can be seen of them, or for a signature that cannot be
read. -/
def DropsField (o : Owner) (f : FieldInfo) : Prop :=
  o.ExcludesField f ∨
    Unreadable Descriptor.fieldType Signature.field f.descriptor f.signature f.annotations

/-- The methods and constructors that are left out for what can be seen of them, or for a signature
that cannot be read. -/
def DropsMethod (o : Owner) (m : MethodInfo) : Prop :=
  o.ExcludesMethod m ∨
    Unreadable MethodDescriptor.ofText MethodSignature.ofText m.descriptor m.signature m.annotations

variable {o : Owner}

theorem ExcludesField.hidesField {f : FieldInfo} (h : o.ExcludesField f) :
    o.hidesField f = true := by
  rw [Owner.hidesField]
  cases h with
  | synthetic hFlag => simp [hFlag]
  | invisible hPublic hProtected => simp [AccessFlags.isVisible, hPublic, hProtected]
  | generated hName => simp [isGeneratedName, hName]
  | range hKind hName =>
    rw [hKind, List.contains_iff_mem.mpr hName]
    simp

theorem ExcludesMethod.hidesMethod {m : MethodInfo} (h : o.ExcludesMethod m) :
    o.hidesMethod m = true := by
  rw [Owner.hidesMethod]
  cases h with
  | synthetic hFlag => simp [hFlag]
  | bridge hFlag => simp [hFlag]
  | initializer hName => simp [hName]
  | invisible hPublic hProtected => simp [AccessFlags.isVisible, hPublic, hProtected]
  | generated hName => simp [isGeneratedName, hName]
  | configured hName => simp [hName]
  | supplied hKind hName =>
    rw [hKind, List.contains_iff_mem.mpr hName]
    simp

/-- A field that is dropped is not built, even if its type cannot be read. -/
theorem field_eq_none {f : FieldInfo} (h : o.DropsField f) : o.field f = .ok none := by
  rcases h with hExcluded | hUnreadable
  · rw [field, showsField, if_pos hExcluded.hidesField]
    rfl
  · obtain ⟨text, hText, hFailed⟩ := hUnreadable.signature
    obtain ⟨e, hError⟩ := Except.isOk_eq_false_iff.mp hFailed
    obtain ⟨erased, hErased⟩ := Except.isOk_iff.mp hUnreadable.descriptor
    obtain ⟨shown, hShown⟩ := exists_shown o (o.hidesField f) f.name hUnreadable.annotations
    rw [field, showsField, hShown]
    cases shown with
    | false => rfl
    | true =>
      rw [concerning, hErased, Option.mem_def.mp hText]
      simp only [hError]
      rfl

/-- A method that is dropped is not built, even if its types cannot be read. -/
theorem executable_eq_none {m : MethodInfo} (h : o.DropsMethod m) :
    o.executable m = .ok none := by
  rcases h with hExcluded | hUnreadable
  · rw [executable, showsMethod, if_pos hExcluded.hidesMethod]
    rfl
  · obtain ⟨text, hText, hFailed⟩ := hUnreadable.signature
    obtain ⟨e, hError⟩ := Except.isOk_eq_false_iff.mp hFailed
    obtain ⟨descriptor, hDescriptor⟩ := Except.isOk_iff.mp hUnreadable.descriptor
    obtain ⟨shown, hShown⟩ := exists_shown o (o.hidesMethod m) m.name hUnreadable.annotations
    rw [executable, showsMethod, hShown]
    cases shown with
    | false => rfl
    | true =>
      rw [concerning, hDescriptor, Option.mem_def.mp hText]
      simp only [hError]
      rfl

end Owner

/-! ### Class files without a member -/

/-- Items without a result do not matter where results are collected. -/
theorem collect_eraseIdx {α β ε : Type} {f : α → Except ε (Option β)} {x : α}
    (hNone : f x = .ok none) : ∀ {xs : List α} {i : ℕ}, xs[i]? = some x →
      collect f (xs.eraseIdx i) = collect f xs := by
  intro xs
  induction xs with
  | nil =>
    intro i h
    cases h
  | cons y xs ih =>
    intro i h
    cases i with
    | zero =>
      obtain rfl : y = x := Option.some.inj h
      rw [List.eraseIdx_cons_zero, collect, hNone]
      rfl
    | succ i =>
      rw [List.getElem?_cons_succ] at h
      rw [List.eraseIdx_cons_succ, collect, collect, ih h]

namespace ClassFile

/-- The class file without the field at a place. -/
def eraseField (c : ClassFile) (i : ℕ) : ClassFile := { c with fields := c.fields.eraseIdx i }

/-- The class file without the method at a place. -/
def eraseMethod (c : ClassFile) (i : ℕ) : ClassFile := { c with methods := c.methods.eraseIdx i }

end ClassFile

section

variable {settings : Settings} {lookup : Lookup} {c : ClassFile} {recorded : Option AccessFlags}

/-- A class file without a dropped field has the same draft. -/
theorem draft_eraseField {i : ℕ} {f : FieldInfo} (hField : c.fields[i]? = some f)
    (hDrops : (Owner.ofClassFile settings c).DropsField f) :
    draft settings lookup (c.eraseField i) recorded = draft settings lookup c recorded := by
  have hFields : collect (Owner.ofClassFile settings c).field (c.fields.eraseIdx i) =
      collect (Owner.ofClassFile settings c).field c.fields :=
    collect_eraseIdx (Owner.field_eq_none hDrops) hField
  rw [draft, draft]
  refine bind_congr fun supertypes => bind_congr fun converted => ?_
  refine congrArg (· >>= _) ?_
  exact congrArg (· >>= _) hFields

/-- A class file without a dropped method has the same draft. -/
theorem draft_eraseMethod {i : ℕ} {m : MethodInfo} (hMethod : c.methods[i]? = some m)
    (hDrops : (Owner.ofClassFile settings c).DropsMethod m) :
    draft settings lookup (c.eraseMethod i) recorded = draft settings lookup c recorded := by
  have hMethods : collect (Owner.ofClassFile settings c).executable (c.methods.eraseIdx i) =
      collect (Owner.ofClassFile settings c).executable c.methods :=
    collect_eraseIdx (Owner.executable_eq_none hDrops) hMethod
  rw [draft, draft]
  refine bind_congr fun supertypes => bind_congr fun converted => bind_congr fun fields => ?_
  refine congrArg (· >>= _) ?_
  exact congrArg (· >>= _) hMethods

end

namespace Sketcher

variable {s : Sketcher}

/-- A build looks at nothing but the name, the skeleton and the member entries of a class file. -/
theorem build_congr {c c' : ClassFile} (hName : c'.binaryName = c.binaryName)
    (hMembers : c'.memberClasses = c.memberClasses)
    (hDraft : ∀ access, draft s.settings s.lookup c' access = draft s.settings s.lookup c access)
    (levels : ℕ) : s.build levels c' = s.build levels c := by
  funext access p
  have hSkeleton : skeleton s.settings s.lookup c' access =
      skeleton s.settings s.lookup c access := by
    rw [skeleton_eq_checked_draft, skeleton_eq_checked_draft, hDraft]
  cases levels with
  | zero => rfl
  | succ levels => rw [build, build, hName, hMembers, hSkeleton]

/-- A class file without a member that is left out is built as the one with it: at any number of
levels, with any flags recorded around it and at any point of a run, with the same result and the
same progress, so that its sketch is the same; or neither build has an outcome. -/
theorem build_erase_dropped (s : Sketcher) (c : ClassFile) (i : ℕ) :
    (∀ f, c.fields[i]? = some f → (Owner.ofClassFile s.settings c).DropsField f →
      (∀ levels, s.build levels (c.eraseField i) = s.build levels c) ∧
        ∀ levels, s.sketchClass levels (c.eraseField i) = s.sketchClass levels c) ∧
    ∀ m, c.methods[i]? = some m → (Owner.ofClassFile s.settings c).DropsMethod m →
      (∀ levels, s.build levels (c.eraseMethod i) = s.build levels c) ∧
        ∀ levels, s.sketchClass levels (c.eraseMethod i) = s.sketchClass levels c := by
  constructor
  · intro f hField hDrops
    have hBuild : ∀ levels, s.build levels (c.eraseField i) = s.build levels c :=
      build_congr rfl rfl fun _ => draft_eraseField hField hDrops
    exact ⟨hBuild, fun levels => by rw [sketchClass, sketchClass, hBuild]⟩
  · intro m hMethod hDrops
    have hBuild : ∀ levels, s.build levels (c.eraseMethod i) = s.build levels c :=
      build_congr rfl rfl fun _ => draft_eraseMethod hMethod hDrops
    exact ⟨hBuild, fun levels => by rw [sketchClass, sketchClass, hBuild]⟩

/-- A class. Nobody sees its second field, and its second method is an initializer; all that is said
of them is wrong. The third ones have signatures that cannot be read. -/
def cluttered : ClassFile where
  majorVersion := 52
  access := ⟨0x21⟩
  thisClass := "p/A"
  superClass := some "java/lang/Object"
  interfaces := []
  signature := none
  fields := [
    ⟨⟨0x1⟩, "size", "I", none, some (.int 3), []⟩,
    ⟨⟨0x2⟩, "junk", "?", some "<", some (.string "x"), [⟨"?", []⟩]⟩,
    ⟨⟨0x1⟩, "broken", "Ljava/util/List;", some "Ljava/util/List<", some (.int 0), []⟩]
  methods := [
    ⟨⟨0x1⟩, "run", "()V", none, [], none, [], [], [], none⟩,
    ⟨⟨0x9⟩, "<clinit>", "?", some "(", [], none, [], [⟨"?", []⟩], [], some (.constant 63 (.int 0))⟩,
    ⟨⟨0x1⟩, "torn", "(I)V", some "(I", [], none, [], [⟨"Ljava/lang/Deprecated;", []⟩],
      [[⟨"?", []⟩]], some (.constant 63 (.int 0))⟩]
  annotations := []
  innerClasses := []

/-- No class files and no documentation. -/
def bare : Sketcher := ⟨.memory [], fun _ _ => none, {}⟩

theorem build_erase_dropped_cluttered :
    (bare.sketchClass 1 cluttered).any (fun result =>
      result.toOption.any fun t => t.members.length == 2) = true ∧
    bare.sketchClass 1 (cluttered.eraseField 1) = bare.sketchClass 1 cluttered ∧
    bare.sketchClass 1 (cluttered.eraseField 2) = bare.sketchClass 1 cluttered ∧
    bare.sketchClass 1 (cluttered.eraseMethod 1) = bare.sketchClass 1 cluttered ∧
    bare.sketchClass 1 (cluttered.eraseMethod 2) = bare.sketchClass 1 cluttered := by
  have hJunk : (Owner.ofClassFile bare.settings cluttered).DropsField cluttered.fields[1] :=
    .inl (.invisible rfl rfl)
  have hBroken : (Owner.ofClassFile bare.settings cluttered).DropsField cluttered.fields[2] :=
    .inr ⟨⟨_, rfl, by decide +kernel⟩, by decide +kernel, by decide +kernel⟩
  have hInitializer :
      (Owner.ofClassFile bare.settings cluttered).DropsMethod cluttered.methods[1] :=
    .inl (.initializer rfl)
  have hTorn : (Owner.ofClassFile bare.settings cluttered).DropsMethod cluttered.methods[2] :=
    .inr ⟨⟨_, rfl, by decide +kernel⟩, by decide +kernel, by decide +kernel⟩
  have hBuilt : (bare.sketchClass 1 cluttered).any (fun result =>
      result.toOption.any fun t => t.members.length == 2) = true := by
    decide +kernel
  exact ⟨hBuilt, ((build_erase_dropped bare cluttered 1).1 _ rfl hJunk).2 1,
    ((build_erase_dropped bare cluttered 2).1 _ rfl hBroken).2 1,
    ((build_erase_dropped bare cluttered 1).2 _ rfl hInitializer).2 1,
    ((build_erase_dropped bare cluttered 2).2 _ rfl hTorn).2 1⟩

end Sketcher

end ClassSketch
