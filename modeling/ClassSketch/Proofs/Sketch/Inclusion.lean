import ClassSketch.Proofs.ClassFile.Encoding
import ClassSketch.Proofs.ClassFile.Synthetic
import ClassSketch.Proofs.Sketch.Members

/-!
# The members of a type

The members of a type are the fields of its class file that are kept, and then its methods that are
kept, each of them once and in the order of the class file. What is kept is decided by the class
file as it was read, where the flag for what is synthetic stands for the attribute too.

## Main definitions

* `Owner.ShowsField`, `Owner.ShowsMethod` — how a field or method is shown
* `Owner.Lists` — the members that are shown, in order

## Main results

* `DraftedFrom.lists` — a draft lists the members that are kept
* `Sketcher.build_members` — so does every type that is built
-/

namespace ClassSketch

namespace Owner

/-- A field is shown under its own name, and with the type of its signature, or that of its
descriptor if it has no signature. -/
structure ShowsField (o : Owner) (d : Documenter) (f : FieldInfo) (decl : FieldDecl) : Prop where
  built : ∃ b, o.field f = .ok (some b) ∧ decl = d.documentedField b
  name : decl.name = f.name
  erased : f.signature = none → Descriptor.fieldType f.descriptor = .ok decl.type
  generic : ∀ text ∈ f.signature, Signature.field text = .ok decl.type

/-- A method is shown under its own name. -/
structure ShowsMethod (o : Owner) (d : Documenter) (m : MethodInfo) (decl : ExecutableDecl) :
    Prop where
  built : ∃ b, o.executable m = .ok (some b) ∧ decl = d.documented b
  name : decl.name = m.name

/-- The members are the fields of a class file that are kept, in order, and then its methods that
are kept, in order. -/
def Lists (o : Owner) (d : Documenter) (c : ClassFile) (members : List Member) : Prop :=
  ∃ (fields : List FieldDecl) (executables : List ExecutableDecl),
    members = fields.map .field ++ executables.map .executable ∧
    List.Forall₂ (o.ShowsField d) (c.fields.filter (o.KeepsField ·)) fields ∧
    List.Forall₂ (o.ShowsMethod d) (c.methods.filter (o.KeepsMethod ·)) executables

variable {o : Owner} {d : Documenter}

/-- A field that can be read is there if it is one of those that are kept. -/
theorem field_isSome_iff {f : FieldInfo} {result : Option BuiltField}
    (h : o.field f = .ok result) : result.isSome = true ↔ o.KeepsField f := by
  rcases field_eq_ok h with ⟨hSkipped, rfl⟩ | ⟨hKept, b, rfl, -⟩
  · simp [hSkipped]
  · simp [hKept]

/-- A method that can be read is there if it is one of those that are kept. -/
theorem executable_isSome_iff {m : MethodInfo} {result : Option BuiltExecutable}
    (h : o.executable m = .ok result) : result.isSome = true ↔ o.KeepsMethod m := by
  rcases executable_eq_ok h with ⟨hSkipped, rfl⟩ | ⟨hKept, b, rfl, -⟩
  · simp [hSkipped]
  · simp [hKept]

/-- A field that is there shows what its entry in the class file says. -/
theorem showsField_of_field {f : FieldInfo} {b : BuiltField} (h : o.field f = .ok (some b)) :
    o.ShowsField d f (d.documentedField b) := by
  rcases field_eq_ok h with ⟨-, hNone⟩ | ⟨-, b', hSome, hBuilds⟩
  · cases hNone
  · cases hSome
    exact ⟨⟨b, h, rfl⟩, hBuilds.name, hBuilds.erased, hBuilds.generic⟩

/-- A method that is there shows what its entry in the class file says. -/
theorem showsMethod_of_executable {m : MethodInfo} {b : BuiltExecutable}
    (h : o.executable m = .ok (some b)) : o.ShowsMethod d m (d.documented b) := by
  rcases executable_eq_ok h with ⟨-, hNone⟩ | ⟨-, b', hSome, hBuilds⟩
  · cases hNone
  · cases hSome
    exact ⟨⟨b, h, rfl⟩, hBuilds.name⟩

/-- The fields of a type are those that are kept, in the order of the class file. -/
theorem shownFields_eq_ok {fields : List FieldInfo} {members : List Member}
    (h : shownFields o d fields = .ok members) : ∃ decls : List FieldDecl,
      members = decls.map .field ∧
      List.Forall₂ (o.ShowsField d) (fields.filter (o.KeepsField ·)) decls :=
  exists_forall₂_of_collect d.documentedField Member.field
    (fun _ _ => field_isSome_iff (o := o)) (fun _ _ => showsField_of_field) h

/-- The methods of a type are those that are kept, in the order of the class file. -/
theorem shownExecutables_eq_ok {methods : List MethodInfo} {members : List Member}
    (h : shownExecutables o d methods = .ok members) : ∃ decls : List ExecutableDecl,
      members = decls.map .executable ∧
      List.Forall₂ (o.ShowsMethod d) (methods.filter (o.KeepsMethod ·)) decls :=
  exists_forall₂_of_collect d.documented Member.executable
    (fun _ _ => executable_isSome_iff (o := o)) (fun _ _ => showsMethod_of_executable) h

end Owner

theorem DraftedFrom.lists {settings : Settings} {lookup : Lookup} {c : ClassFile} {t : TypeDecl}
    (h : DraftedFrom settings lookup c t) :
    (Owner.ofClassFile settings c).Lists (.ofClassFile settings lookup c) c t.members := by
  obtain ⟨fields, executables, hFields, hExecutables, hMembers⟩ := h.members
  obtain ⟨fieldDecls, rfl, hShownFields⟩ := Owner.shownFields_eq_ok hFields
  obtain ⟨executableDecls, rfl, hShownExecutables⟩ := Owner.shownExecutables_eq_ok hExecutables
  exact ⟨fieldDecls, executableDecls, hMembers, hShownFields, hShownExecutables⟩

namespace Sketcher

/-- Every type that is built lists the members of its class file that are kept, and if the class
file was read from bytes, its flags for what is synthetic are those the bytes say, in one of the two
ways. -/
theorem build_members (s : Sketcher) {levels : ℕ} {c : ClassFile} {access : Option AccessFlags}
    {p p' : Progress} {t : TypeDecl} (h : s.build levels c access p = some (.ok t, p')) :
    (Owner.ofClassFile s.settings c).Lists (.ofClassFile s.settings s.lookup c) c t.members ∧
    ∀ bytes, ClassFile.parse bytes = .ok c →
      ∃ raw rest, RawClass.read bytes = .ok (raw, rest) ∧ c.Adjusts raw := by
  constructor
  · obtain ⟨nested, hResult⟩ := exists_nested_of_build h
    obtain ⟨skeleton, hSkeleton, rfl⟩ := Parsing.map_eq_ok.mp hResult.symm
    exact (draftedFrom_of_skeleton hSkeleton).lists
  · intro bytes hParse
    obtain ⟨⟨c', rest⟩, hRead, rfl⟩ := Parsing.map_eq_ok.mp hParse
    obtain ⟨raw, hRaw, hAdjusts⟩ := ClassFile.read_mirrored bytes c' rest hRead
    exact ⟨raw, rest, hRaw, hAdjusts⟩

/-- An enum. Of its fields, a constant and a list with a signature are kept; of its methods, one. -/
def seasons : ClassFile where
  majorVersion := 52
  access := ⟨0x4031⟩
  thisClass := "p/Season"
  superClass := some "java/lang/Enum"
  interfaces := []
  signature := some "Ljava/lang/Enum<Lp/Season;>;"
  fields := [
    ⟨⟨0x4019⟩, "SPRING", "Lp/Season;", none, none, []⟩,
    ⟨⟨0x19⟩, "MIN_VALUE", "Lp/Season;", none, none, []⟩,
    ⟨⟨0x101A⟩, "$VALUES", "[Lp/Season;", none, none, []⟩,
    ⟨⟨0x1⟩, "names", "Ljava/util/List;", some "Ljava/util/List<Ljava/lang/String;>;", none, []⟩,
    ⟨⟨0x1⟩, "broken", "Ljava/util/List;", some "Ljava/util/List<", none, []⟩]
  methods := [
    ⟨⟨0x8⟩, "<clinit>", "()V", none, [], none, [], [], [], none⟩,
    ⟨⟨0x9⟩, "values", "()[Lp/Season;", none, [], none, [], [], [], none⟩,
    ⟨⟨0x1⟩, "label", "()Ljava/lang/String;", none, [], none, [], [], [], none⟩,
    ⟨⟨0x1041⟩, "label", "()Ljava/lang/Object;", none, [], none, [], [], [], none⟩,
    ⟨⟨0x1⟩, "secret", "()V", none, [], none, [], [⟨"Lgroovy/transform/Internal;", []⟩], [], none⟩]
  annotations := []
  innerClasses := []

/-- Nothing but settings. -/
def alone : Sketcher := ⟨.memory [], fun _ _ => none, {}⟩

theorem build_members_seasons : ∃ c t p, ClassFile.parse seasons.encode = .ok c ∧
    alone.build 1 c none .empty = some (.ok t, p) ∧ t.members.length = 3 ∧
    (Owner.ofClassFile alone.settings c).Lists (.ofClassFile alone.settings alone.lookup c) c
      t.members ∧
    ∃ raw rest, RawClass.read seasons.encode = .ok (raw, rest) ∧ c.Adjusts raw := by
  have hBuilt : (ClassFile.parse seasons.encode).toOption.any (fun c =>
      (alone.build 1 c none .empty).any fun outcome =>
        outcome.1.toOption.any fun t => t.members.length == 3) = true := by
    decide +kernel
  obtain ⟨c, hParse, hBuilt⟩ := Except.exists_of_any_toOption hBuilt
  obtain ⟨⟨result, p⟩, hBuild, hResult⟩ := (Option.any_eq_true _ _).mp hBuilt
  obtain ⟨t, rfl, hLength⟩ := Except.exists_of_any_toOption hResult
  obtain ⟨hLists, hFlags⟩ := build_members alone hBuild
  exact ⟨c, t, p, hParse, hBuild, beq_iff_eq.mp hLength, hLists, hFlags _ hParse⟩

end Sketcher

end ClassSketch
