import ClassSketch.Proofs.Doc.Asking
import ClassSketch.Proofs.Sketch.Skeleton

/-!
# Sketches that ask for documentation

A sketch asks its store for the documentation of the type, of each field and of each method at the
moment it comes to them, and asks nothing further after a part that fails. Here sketches are
computations that ask. With the answers of a lookup they give what the sketches with this lookup
are.

## Main definitions

* `Documenter.askType`, `Documenter.askField`, `Documenter.askExecutable` — documentation
* `askMembers` — the members that are shown, each with its documentation
* `skeletonAsking` — the declaration of a class file
* `Inquiry.build`, `Inquiry.sketch` — types with the types nested in them

## Main results

* `answer_skeletonAsking`, `Inquiry.answer_build` — the same with the answers of a lookup
* `Inquiry.answer_sketch` — a sketch with the answers of a lookup
-/

namespace ClassSketch

/-- The lookup that finds nothing. -/
def Lookup.silent : Lookup := fun _ _ => none

/-! ### Documentation -/

namespace Documenter

variable (d : Documenter) {lookup : Lookup}

/-- The documenter with another lookup. -/
def withLookup (lookup : Lookup) : Documenter := { d with lookup := lookup }

/-- The documentation under a key. If another one is given, nothing is asked. -/
def askText (key : MemberKey) : Option String → Asking (Option String)
  | some text => .done (some text)
  | none => .ask d.type key .done

/-- The documentation of the type, asked for. -/
def askType (given : Option String) : Asking (Option String) := do
  return (← d.askText .type given).bind (d.finish · [])

/-- The documentation of a field, asked for. -/
def askField (name : String) (given : Option String) : Asking (Option String) := do
  return (← d.askText (.field name) given).bind (d.finish · [])

/-- The documentation of a method in the store: the erased key is asked for if there is nothing
under the generic one and it is another one. -/
def askStored (built : Owner.BuiltExecutable) : Asking (Option String) :=
  let generic := keyOf built.decl.name (built.decl.parameters.map Parameter.type)
  let erased := keyOf built.decl.name built.erasedParameters
  .ask d.type generic fun
    | some text => .done (some text)
    | none => if erased = generic then .done none else .ask d.type erased .done

/-- The text of a method as it is shown, without stale parameter tags. -/
def shown (built : Owner.BuiltExecutable) (raw : String) : Option String :=
  let names := built.decl.parameterNames
  let known := ⟨names, built.decl.typeParameters.map TypeParameter.name⟩
  let raw := if d.settings.validateParamTags && built.namesRecovered then
    withoutStale known raw else raw
  d.finish raw names

/-- The documentation of a method or constructor, asked for. -/
def askExecutable (built : Owner.BuiltExecutable) : Asking (Option String) := do
  let raw ← match built.inlineDocumentation with
    | some text => pure (some text)
    | none => d.askStored built
  return raw.bind (d.shown built)

/-- The text of a key is what the store has for it. -/
theorem answer_askText (key : MemberKey) (given : Option String) :
    (d.askText key given).answer lookup = (d.withLookup lookup).rawText? key given := by
  cases given <;> rfl

theorem answer_askType (given : Option String) :
    (d.askType given).answer lookup = (d.withLookup lookup).ofType given := by
  rw [askType, Asking.answer_bind, answer_askText]
  rfl

theorem answer_askField (name : String) (given : Option String) :
    (d.askField name given).answer lookup = (d.withLookup lookup).ofField name given := by
  rw [askField, Asking.answer_bind, answer_askText]
  rfl

theorem answer_askStored (built : Owner.BuiltExecutable) :
    (d.askStored built).answer lookup = (d.withLookup lookup).stored? built := by
  rw [askStored, stored?, withLookup]
  simp only [Asking.answer]
  cases lookup d.type (keyOf built.decl.name (built.decl.parameters.map Parameter.type)) with
  | some text => rfl
  | none =>
    simp only [Option.none_or]
    split <;> rfl

/-- The documentation of a method is what the store gives for it. -/
theorem answer_askExecutable (built : Owner.BuiltExecutable) :
    (d.askExecutable built).answer lookup = (d.withLookup lookup).ofExecutable built := by
  rw [askExecutable, ofExecutable]
  cases built.inlineDocumentation with
  | some text => rfl
  | none =>
    rw [Option.none_or, Asking.answer_bind, answer_askStored]
    rfl

end Documenter

/-! ### Skeletons -/

/-- The members of the items that are shown, each with what is found out about it, up to the first
item that cannot be built. -/
def askMembers {α β γ ε : Type} (build : α → Except ε (Option β)) (document : β → Asking γ) :
    List α → ExceptT ε Asking (List γ)
  | [] => pure []
  | x :: xs => do
    match ← build x with
    | some y =>
      let member ← document y
      return member :: (← askMembers build document xs)
    | none => askMembers build document xs

/-- Members are documented one by one, with the answers of the store. -/
theorem answer_askMembers {α β γ ε : Type} {build : α → Except ε (Option β)}
    {document : β → Asking γ} {lookup : Lookup} (xs : List α) :
    (askMembers build document xs).run.answer lookup =
      (collect build xs).map (List.map fun y => (document y).answer lookup) := by
  induction xs with
  | nil => rfl
  | cons x xs ih =>
    rw [askMembers, collect, Asking.answer_run_bind, Asking.answer_run_except]
    cases build x with
    | error e => rfl
    | ok built =>
      cases built with
      | none => exact ih
      | some y =>
        -- the match on what was built, with the lift of `document y` spelled out
        change (do
          let member ← (document y : ExceptT ε Asking γ)
          return member :: (← askMembers build document xs) : ExceptT ε Asking (List γ)).run.answer
            lookup = _
        simp only [Asking.answer_run_bind, Asking.answer_run_lift, ih]
        cases collect build xs <;> rfl

/-- The fields of a class file that are shown, their documentation asked for. -/
def askFields (o : Owner) (d : Documenter) :
    List FieldInfo → ExceptT SketchError Asking (List Member) :=
  askMembers o.field fun b => do
    let documentation ← d.askField b.decl.name b.inlineDocumentation
    return .field { b.decl with documentation := documentation }

/-- The methods and constructors of a class file that are shown, their documentation asked for. -/
def askExecutables (o : Owner) (d : Documenter) :
    List MethodInfo → ExceptT SketchError Asking (List Member) :=
  askMembers o.executable fun b => do
    let documentation ← d.askExecutable b
    return .executable { b.decl with documentation := documentation }

theorem answer_askFields (o : Owner) (d : Documenter) {lookup : Lookup} (fields : List FieldInfo) :
    (askFields o d fields).run.answer lookup = shownFields o (d.withLookup lookup) fields := by
  rw [askFields, answer_askMembers, shownFields]
  simp only [Asking.answer_bind, Documenter.answer_askField, Asking.answer_pure]
  cases collect o.field fields <;> rfl

theorem answer_askExecutables (o : Owner) (d : Documenter) {lookup : Lookup}
    (methods : List MethodInfo) : (askExecutables o d methods).run.answer lookup =
      shownExecutables o (d.withLookup lookup) methods := by
  rw [askExecutables, answer_askMembers, shownExecutables]
  simp only [Asking.answer_bind, Documenter.answer_askExecutable, Asking.answer_pure]
  cases collect o.executable methods <;> rfl

/-- The declaration of a class file without nested types, its documentation asked for. -/
def skeletonAsking (settings : Settings) (c : ClassFile) (recorded : Option AccessFlags) :
    ExceptT SketchError Asking TypeDecl := do
  let kind := TypeKind.ofAccess c.access
  let access := (recorded.or (c.ownInner?.map InnerClass.access)).getD c.access
  let supertypes ← Supertypes.ofClassFile c
  let converted ← ((convertAnnotations settings c.annotations).mapError
    (.classFile c.className.canonical) : Except SketchError ConvertedAnnotations)
  let d := Documenter.ofClassFile settings .silent c
  let owner := Owner.ofClassFile settings c
  let documentation ← d.askType converted.documentation
  let fields ← askFields owner d c.fields
  let executables ← askExecutables owner d c.methods
  let decl : TypeDecl := {
    kind := kind
    name := c.className
    modifiers := typeModifiers kind access
    superclass := supertypes.shownSuperclass settings kind
    superinterfaces := supertypes.shownInterfaces settings kind
    typeParameters := supertypes.typeParameters
    members := fields ++ executables
    documentation := documentation
    annotations := converted.annotations }
  (decl.check.mapError .rule : Except SketchError Unit)
  return decl

/-- A skeleton whose questions are answered is the skeleton with these answers. -/
theorem answer_skeletonAsking {settings : Settings} {c : ClassFile}
    {recorded : Option AccessFlags} {lookup : Lookup} :
    (skeletonAsking settings c recorded).run.answer lookup =
      skeleton settings lookup c recorded := by
  simp only [skeletonAsking, Asking.answer_run_bind, Asking.answer_run_except,
    Asking.answer_run_lift, Asking.answer_run_pure, answer_askFields, answer_askExecutables,
    Documenter.answer_askType]
  rfl

/-! ### Types with the types nested in them -/

namespace Inquiry

variable (locator : Locator) (settings : Settings)

/-- How a class file is turned into a type by asking, given the access flags recorded for it. There
may be no outcome. -/
abbrev Builder := ClassFile → Option AccessFlags → Progress →
  Asking (Option (Except SketchError TypeDecl × Progress))

/-- The nested type of an entry, unless it is not shown, is being built or cannot be built. -/
def attach (build : Builder) (e : InnerClass) (p : Progress) :
    Asking (Option (Option TypeDecl × Progress)) :=
  let name := e.binaryName
  if (Sketcher.mk locator .silent settings).hidesNested e || p.building.contains name then
    pure (some (none, p))
  else
    match valueOf? name p.complete with
    | some decl => pure (some (some decl, p))
    | none =>
      match locator.resolve name with
      | .error _ => pure (some (none, p))
      | .ok c => do
        match ← build c (some e.access) p with
        | none => return none
        | some (.ok decl, p) => return some (some decl, p.record name decl)
        | some (.error _, p) => return some (none, p)

/-- The nested types of entries, in order. -/
def attachAll (build : Builder) :
    List InnerClass → Progress → Asking (Option (List TypeDecl × Progress))
  | [], p => pure (some ([], p))
  | e :: entries, p => do
    match ← attach locator settings build e p with
    | none => return none
    | some (decl, p) =>
      return (← attachAll build entries p).map fun rest => (decl.toList ++ rest.1, rest.2)

/-- The type of a class file with its nested types. There is no outcome where there would have to be
room for more levels. -/
def build : Nat → Builder
  | 0, _, _, _ => pure none
  | levels + 1, c, access, p => do
    let name := c.binaryName
    let p := p.start name
    match ← (skeletonAsking settings c access).run with
    | .error e => return some (.error e, p.finish name)
    | .ok decl =>
      return (← attachAll locator settings (build levels) c.memberClasses p).map fun nested =>
        (.ok { decl with nestedTypes := nested.1 }, nested.2.finish name)

/-- The type of a name with its nested types, on a number of levels. -/
def sketch (levels : Nat) (name : String) : Asking (Option (Except SketchError TypeDecl)) :=
  match locator.resolve name with
  | .error e => pure (some (.error (.lookup e)))
  | .ok c => do return (← build locator settings levels c none .empty).map Prod.fst

variable {lookup : Lookup} {locator settings}

/-- With the answers of a lookup, entries are attached as with this lookup. -/
theorem answer_attach {build : Builder} {answered : Sketcher.Builder}
    (h : ∀ c access p, (build c access p).answer lookup = answered c access p) (e : InnerClass)
    (p : Progress) : (attach locator settings build e p).answer lookup =
      (Sketcher.mk locator lookup settings).attach answered e p := by
  rw [attach, Sketcher.attach]
  -- whether an entry is hidden does not depend on the lookup
  change (if (Sketcher.mk locator lookup settings).hidesNested e ||
    p.building.contains e.binaryName then _ else _ : Asking _).answer lookup = _
  simp only
  split
  · rfl
  cases valueOf? e.binaryName p.complete with
  | some decl => rfl
  | none =>
    cases locator.resolve e.binaryName with
    | error _ => rfl
    | ok c =>
      simp only [Asking.answer_bind, h]
      rcases answered c (some e.access) p with _ | ⟨_ | _, _⟩ <;> rfl

/-- The entries of a class file are attached one after the other, with the answers of the store. -/
theorem answer_attachAll {build : Builder} {answered : Sketcher.Builder}
    (h : ∀ c access p, (build c access p).answer lookup = answered c access p)
    (entries : List InnerClass) (p : Progress) :
    (attachAll locator settings build entries p).answer lookup =
      (Sketcher.mk locator lookup settings).attachAll answered entries p := by
  induction entries generalizing p with
  | nil => rfl
  | cons e entries ih =>
    rw [attachAll, Sketcher.attachAll, Asking.answer_bind, answer_attach h]
    rcases (Sketcher.mk locator lookup settings).attach answered e p with _ | ⟨decl, p⟩
    · rfl
    · simp only [Asking.answer_bind, ih, Asking.answer_pure]

/-- With the answers of a lookup, class files are built as with this lookup. -/
theorem answer_build (levels : ℕ) (c : ClassFile) (access : Option AccessFlags) (p : Progress) :
    (build locator settings levels c access p).answer lookup =
      (Sketcher.mk locator lookup settings).build levels c access p := by
  induction levels generalizing c access p with
  | zero => rfl
  | succ levels ih =>
    rw [build, Sketcher.build, Asking.answer_bind, answer_skeletonAsking]
    cases skeleton settings lookup c access with
    | error e => rfl
    | ok decl => simp only [Asking.answer_bind, answer_attachAll ih, Asking.answer_pure]

/-- With the answers of a lookup, a sketch that asks is the sketch with this lookup. -/
theorem answer_sketch (levels : ℕ) (name : String) :
    (sketch locator settings levels name).answer lookup =
      (Sketcher.mk locator lookup settings).sketch levels name := by
  rw [sketch, Sketcher.sketch]
  cases locator.resolve name with
  | error e => rfl
  | ok c =>
    simp only [Asking.answer_bind, answer_build, Asking.answer_pure]
    rfl

end Inquiry

end ClassSketch
