import ClassSketch.Proofs.ClassFile.AttributeOrder

/-!
# Class files with other attributes

Attributes can be put in another order, those that are not understood can be put in and taken out,
and the instructions and handlers of code can be replaced: what is read from a class file stays the
same. So the order of attributes has no part in the order of annotations either, where the visible
ones come first.

## Main definitions

* `Stored.Class.Rearranges` — class files that differ in this way
* `Stored.Class.VisibleFirst` — annotations in the order of what the tables hold

## Main results

* `Stored.Code.value_rearranges`, `Stored.Member.value_rearranges`,
  `Stored.Class.value_rearranges` — what is rearranged says the same
* `ClassFile.parse_rearranged` — class files with other attributes
-/

namespace ClassSketch

open RawAnnotation renaming readAll → readAnnotations,
  readParameters → readParameterAnnotations

/-! ### Lists joined place by place -/

theorem length_zipAppend {α : Type} (xs ys : List (List α)) :
    (zipAppend xs ys).length = max xs.length ys.length := by
  induction xs, ys using zipAppend.induct with
  | case1 ys => simp [zipAppend]
  | case2 xs h => cases xs <;> simp [zipAppend]
  | case3 x xs y ys ih => simp [zipAppend, ih]

/-- In every place stands what the two lists have there, one after the other. -/
theorem getD_zipAppend {α : Type} (xs ys : List (List α)) : ∀ k : ℕ,
    (zipAppend xs ys).getD k [] = xs.getD k [] ++ ys.getD k [] := by
  induction xs, ys using zipAppend.induct with
  | case1 ys => simp [zipAppend]
  | case2 xs h => cases xs <;> simp [zipAppend]
  | case3 x xs y ys ih =>
    intro k
    cases k with
    | zero => simp [zipAppend]
    | succ k => simpa [zipAppend] using ih k

namespace Stored

/-! ### Code -/

/-- Code that differs in all but its table, which is rearranged. -/
def Code.Rearranges (pool : ConstantPool) (c c' : Code) : Prop :=
  Table.Rearranges pool (codeMeaning pool) c.table c'.table

/-- Of the code of a method, only its table of attributes is read. -/
theorem readCode_bytes {pool : ConstantPool} {c : Code} {v : List LocalVariable} :
    readCode pool c.bytes = .ok (v, []) ↔
      Table.value pool (codeMeaning pool) [] c.table = .ok v := by
  have hRun := (readCode_decodes pool).run c []
  rw [List.append_nil] at hRun
  rw [hRun, Parsing.map_eq_ok]
  simp

/-- Code whose table is rearranged reads as the same local variables. -/
theorem Code.value_rearranges {pool : ConstantPool} {c c' : Code} (h : Rearranges pool c c')
    {v : List LocalVariable} (hRead : readCode pool c.bytes = .ok (v, [])) :
    readCode pool c'.bytes = .ok (v, []) :=
  readCode_bytes.mpr (Table.value_rearranges (code_independent pool) h (readCode_bytes.mp hRead))

/-- The attribute stays as it is, or holds code that is rearranged. -/
def Attribute.Recodes (pool : ConstantPool) (a a' : Attribute) : Prop :=
  a' = a ∨ a'.name = a.name ∧ pool.utf8 a.name = .ok "Code" ∧
    ∃ c c' : Code, a.body = c.bytes ∧ a'.body = c'.bytes ∧ Code.Rearranges pool c c'

theorem code_meaning {pool : ConstantPool} : MethodAttributes.meaning pool "Code" = some (Write.step
    ⟨readCode pool, fun v a => { a with localVariables := a.localVariables ++ v }⟩) :=
  rfl

/-- Code with other instructions and handlers says the same. -/
theorem Attribute.value_recodes {pool : ConstantPool} {a a' : Attribute} (h : Recodes pool a a')
    {x y : MethodAttributes} (hValue : a.value pool (MethodAttributes.meaning pool) x = .ok y) :
    a'.value pool (MethodAttributes.meaning pool) x = .ok y := by
  rcases h with rfl | ⟨hSame, hName, c, c', hBody, hBody', hCode⟩
  · exact hValue
  · obtain ⟨v, hRead, rfl⟩ := (value_eq_ok hName code_meaning).mp hValue
    refine (value_eq_ok (hSame ▸ hName) code_meaning).mpr ⟨v, ?_, rfl⟩
    rw [hBody] at hRead
    rw [hBody']
    exact Code.value_rearranges hCode hRead

/-! ### Members and classes -/

/-- A table of attributes of a method: it is rearranged, and then its code is. -/
def Table.RearrangesMethod (pool : ConstantPool) (t t' : Table) : Prop :=
  ∃ between : Table, Rearranges pool (MethodAttributes.meaning pool) t between ∧
    List.Forall₂ (Attribute.Recodes pool) between.items t'.items

/-- The tables of methods may have other code besides another order. -/
theorem Table.value_rearrangesMethod {pool : ConstantPool} {t t' : Table}
    (h : RearrangesMethod pool t t') {x y : MethodAttributes}
    (hValue : value pool (MethodAttributes.meaning pool) x t = .ok y) :
    value pool (MethodAttributes.meaning pool) x t' = .ok y := by
  obtain ⟨between, hOrder, hCode⟩ := h
  have hBetween := value_rearranges (MethodAttributes.independent pool) hOrder hValue
  exact Except.foldlM_of_forall₂ (f := Attribute.value pool (MethodAttributes.meaning pool)) hCode
    (fun _ _ _ _ hRecodes => Attribute.value_recodes hRecodes) hBetween

/-- Members that differ in their tables only. -/
structure Member.Rearranges (R : Table → Table → Prop) (m m' : Member) : Prop where
  access : m'.access = m.access
  name : m'.name = m.name
  descriptor : m'.descriptor = m.descriptor
  table : R m.table m'.table

theorem Member.value_rearranges {pool : ConstantPool} {R : Table → Table → Prop} {α β : Type}
    {meaning : Attributes.Meaning α} {initial : α} {make : AccessFlags → String → String → α → β}
    (hTable : ∀ t t' a, R t t' → Table.value pool meaning initial t = .ok a →
      Table.value pool meaning initial t' = .ok a)
    {m m' : Member} (h : Rearranges R m m') {x : β}
    (hValue : m.value pool meaning initial make = .ok x) :
    m'.value pool meaning initial make = .ok x := by
  obtain ⟨name, hName, hValue⟩ := Except.bind_eq_ok.mp hValue
  obtain ⟨descriptor, hDescriptor, hValue⟩ := Except.bind_eq_ok.mp hValue
  obtain ⟨a, ha, hMake⟩ := Except.bind_eq_ok.mp hValue
  rw [← h.name] at hName
  rw [← h.descriptor] at hDescriptor
  rw [← h.access] at hMake
  exact Except.bind_eq_ok.mpr ⟨name, hName, Except.bind_eq_ok.mpr ⟨descriptor, hDescriptor,
    Except.bind_eq_ok.mpr ⟨a, hTable _ _ a h.table ha, hMake⟩⟩⟩

theorem Member.field_rearranges {pool : ConstantPool} {m m' : Member}
    (h : Rearranges (Table.Rearranges pool (FieldAttributes.meaning pool)) m m') {f : FieldInfo}
    (hValue : m.field pool = .ok f) : m'.field pool = .ok f :=
  value_rearranges (fun _ _ _ => Table.value_rearranges (FieldAttributes.independent pool)) h hValue

theorem Member.method_rearranges {pool : ConstantPool} {m m' : Member}
    (h : Rearranges (Table.RearrangesMethod pool) m m') {f : MethodInfo}
    (hValue : m.method pool = .ok f) : m'.method pool = .ok f :=
  value_rearranges (fun _ _ _ hTable ha => Table.value_rearrangesMethod hTable ha) h hValue

/-- The constant pool of a class file. -/
def Class.pool (c : Class) : ConstantPool := c.head.value.pool

/-- Class files that differ in the order of attributes, in attributes that are not understood, and
in the limits, instructions and handlers of code. -/
structure Class.Rearranges (c c' : Class) : Prop where
  head : c'.head = c.head
  fields : List.Forall₂
    (Member.Rearranges (Table.Rearranges c.pool (FieldAttributes.meaning c.pool)))
    c.fields.items c'.fields.items
  methods : List.Forall₂ (Member.Rearranges (Table.RearrangesMethod c.pool))
    c.methods.items c'.methods.items
  table : Table.Rearranges c.pool (ClassAttributes.meaning c.pool) c.table c'.table

/-- **Rearranged class files say the same.** -/
theorem Class.value_rearranges {c c' : Class} (h : Rearranges c c') {x : ClassFile}
    (hValue : c.value = .ok x) : c'.value = .ok x := by
  obtain ⟨fields, hFields, hValue⟩ := Except.bind_eq_ok.mp hValue
  obtain ⟨methods, hMethods, hValue⟩ := Except.bind_eq_ok.mp hValue
  obtain ⟨a, ha, hMake⟩ := Except.bind_eq_ok.mp hValue
  have hFields' := Except.mapM_of_forall₂ h.fields
    (fun _ _ _ hMember => Member.field_rearranges hMember) hFields
  have hMethods' := Except.mapM_of_forall₂ h.methods
    (fun _ _ _ hMember => Member.method_rearranges hMember) hMethods
  have ha' := Table.value_rearranges (ClassAttributes.independent _) h.table ha
  rw [Class.value, h.head]
  exact Except.bind_eq_ok.mpr ⟨fields, hFields', Except.bind_eq_ok.mpr ⟨methods, hMethods',
    Except.bind_eq_ok.mpr ⟨a, ha', hMake⟩⟩⟩

/-! ### Annotations -/

/-- The annotations are what a table holds, the visible ones first. -/
def Table.Annotates (pool : ConstantPool) (t : Table) (annotations : List RawAnnotation) : Prop :=
  ∃ visible invisible,
    Holds pool t "RuntimeVisibleAnnotations" (readAnnotations pool) visible ∧
    Holds pool t "RuntimeInvisibleAnnotations" (readAnnotations pool) invisible ∧
    annotations = visible ++ invisible

/-- The annotations of each parameter are what a table holds for it, the visible ones first. -/
def Table.AnnotatesParameters (pool : ConstantPool) (t : Table)
    (annotations : List (List RawAnnotation)) : Prop :=
  ∃ visible invisible,
    Holds pool t "RuntimeVisibleParameterAnnotations" (readParameterAnnotations pool) visible ∧
    Holds pool t "RuntimeInvisibleParameterAnnotations" (readParameterAnnotations pool)
      invisible ∧
    annotations.length = max visible.length invisible.length ∧
    ∀ k, annotations.getD k [] = visible.getD k [] ++ invisible.getD k []

/-- The annotations of a class file and of its members are what their tables hold, the visible ones
first. -/
structure Class.VisibleFirst (c : Class) (x : ClassFile) : Prop where
  annotations : Table.Annotates c.pool c.table x.annotations
  fields : List.Forall₂ (fun m f => Table.Annotates c.pool m.table f.annotations)
    c.fields.items x.fields
  methods : List.Forall₂ (fun m f => Table.Annotates c.pool m.table f.annotations ∧
    Table.AnnotatesParameters c.pool m.table f.parameterAnnotations) c.methods.items x.methods

/-- Where the two annotation attributes are understood as everywhere, and no other attribute touches
them, a table's annotations are the visible ones and then the others. -/
theorem Table.annotates {pool : ConstantPool} {α : Type} {meaning : Attributes.Meaning α}
    {own : List (String × Write α)} {p : Part α CommonAttributes}
    (hIndependent : meaning.Independent
      (own ++ (CommonAttributes.writes pool).map fun e => (e.1, e.2.lift p)))
    (hSpares : ∀ e ∈ own, e.2.Spares p)
    (hMeaning : ∀ name, name = "RuntimeVisibleAnnotations" ∨ name = "RuntimeInvisibleAnnotations" →
      meaning name = (CommonAttributes.meaning pool name).map
        fun step x => do return p.set (← step (p.get x)) x)
    {t : Table} {x y : α} (hEmpty : (p.get x).visible = [] ∧ (p.get x).invisible = [])
    (h : value pool meaning x t = .ok y) : Annotates pool t (p.get y).annotations :=
  ⟨_, _,
    holds_of_value hIndependent
      ((CommonAttributes.fills_visible pool).extend hSpares (hMeaning _ (.inl rfl))) hEmpty.1 h,
    holds_of_value hIndependent
      ((CommonAttributes.fills_invisible pool).extend hSpares (hMeaning _ (.inr rfl))) hEmpty.2 h,
    rfl⟩

theorem Member.annotates_field {pool : ConstantPool} {m : Member} {f : FieldInfo}
    (h : m.field pool = .ok f) : Table.Annotates pool m.table f.annotations := by
  obtain ⟨name, -, h⟩ := Except.bind_eq_ok.mp h
  obtain ⟨descriptor, -, h⟩ := Except.bind_eq_ok.mp h
  obtain ⟨a, ha, hMake⟩ := Except.bind_eq_ok.mp h
  cases hMake
  refine Table.annotates (p := FieldAttributes.common) (FieldAttributes.independent pool)
    (FieldAttributes.ownWrites_spare pool) ?_ ⟨rfl, rfl⟩ ha
  rintro name (rfl | rfl) <;> rfl

theorem Member.annotates_method {pool : ConstantPool} {m : Member} {f : MethodInfo}
    (h : m.method pool = .ok f) : Table.Annotates pool m.table f.annotations ∧
      Table.AnnotatesParameters pool m.table f.parameterAnnotations := by
  obtain ⟨name, -, h⟩ := Except.bind_eq_ok.mp h
  obtain ⟨descriptor, -, h⟩ := Except.bind_eq_ok.mp h
  obtain ⟨a, ha, hMake⟩ := Except.bind_eq_ok.mp h
  cases hMake
  have hIndependent := MethodAttributes.independent pool
  refine ⟨?_, a.visibleOfParameters, a.invisibleOfParameters, ?_, ?_, length_zipAppend _ _,
    getD_zipAppend _ _⟩
  · refine Table.annotates (p := MethodAttributes.common) hIndependent
      (MethodAttributes.ownWrites_spare pool) ?_ ⟨rfl, rfl⟩ ha
    rintro name (rfl | rfl) <;> rfl
  · exact Table.holds_of_value hIndependent (MethodAttributes.fills_visibleOfParameters pool) rfl ha
  · exact Table.holds_of_value hIndependent (MethodAttributes.fills_invisibleOfParameters pool) rfl
      ha

/-- In a class file and in its members, the visible annotations come first. -/
theorem Class.visibleFirst {c : Class} {x : ClassFile} (h : c.value = .ok x) :
    c.VisibleFirst x := by
  obtain ⟨fields, hFields, h⟩ := Except.bind_eq_ok.mp h
  obtain ⟨methods, hMethods, h⟩ := Except.bind_eq_ok.mp h
  obtain ⟨a, ha, hMake⟩ := Except.bind_eq_ok.mp h
  cases hMake
  refine ⟨?_, ?_, ?_⟩
  · refine Table.annotates (p := ClassAttributes.common) (ClassAttributes.independent _)
      (ClassAttributes.ownWrites_spare _) ?_ ⟨rfl, rfl⟩ ha
    rintro name (rfl | rfl) <;> rfl
  · exact (Except.forall₂_of_mapM_eq_ok hFields).imp fun _ _ => Member.annotates_field
  · exact (Except.forall₂_of_mapM_eq_ok hMethods).imp fun _ _ => Member.annotates_method

/-- The code of a method that was read is made of limits, instructions, handlers and a table. -/
theorem Member.exists_code {pool : ConstantPool} {m : Member} {f : MethodInfo}
    (h : m.method pool = .ok f) {a : Attribute} (ha : a ∈ m.table.items)
    (hName : pool.utf8 a.name = .ok "Code") : ∃ c : Code, a.body = c.bytes := by
  obtain ⟨name, -, h⟩ := Except.bind_eq_ok.mp h
  obtain ⟨descriptor, -, h⟩ := Except.bind_eq_ok.mp h
  obtain ⟨known, hKnown, -⟩ := Except.bind_eq_ok.mp h
  obtain ⟨x, y, hValue⟩ := Table.exists_value_of_mem hKnown ha
  obtain ⟨v, hRead, -⟩ := (Attribute.value_eq_ok hName code_meaning).mp hValue
  obtain ⟨c, hBody⟩ := (readCode_decodes pool).stored hRead
  exact ⟨c, by rw [hBody, List.append_nil]⟩

end Stored

namespace ClassFile

open Stored

/-- What a class file says is said by what is stored in it, and bytes after its end are ignored. -/
theorem parse_bytes (c : Stored.Class) (more : List UInt8) : parse (c.bytes ++ more) = c.value := by
  rw [parse, StateT.run, read_decodes.run c more]
  cases c.value <;> rfl

/-- A class file that can be read says the same with other attributes: in another order where no two
that are understood have the same name, with others that are not understood, and with code that has
other instructions and handlers. In every order visible annotations come first, and parameters are
annotated one by one in the same way. -/
theorem parse_rearranged {bytes : List UInt8} {x : ClassFile} (h : parse bytes = .ok x) :
    (∃ (c : Stored.Class) (more : List UInt8), bytes = c.bytes ++ more) ∧
    ∀ (c : Stored.Class) (more : List UInt8), bytes = c.bytes ++ more →
      (∀ c' : Stored.Class, c.Rearranges c' → ∀ more', parse (c'.bytes ++ more') = .ok x) ∧
      (∀ m ∈ c.methods.items, ∀ a ∈ m.table.items, c.pool.utf8 a.name = .ok "Code" →
        ∃ code : Code, a.body = code.bytes) ∧
      c.VisibleFirst x := by
  constructor
  · obtain ⟨⟨x', more⟩, hRead, rfl⟩ := Parsing.map_eq_ok.mp h
    obtain ⟨c, hBytes⟩ := read_decodes.stored hRead
    exact ⟨c, more, hBytes⟩
  · rintro c more rfl
    rw [parse_bytes] at h
    refine ⟨fun c' hRearranges more' => ?_, fun m hm a ha hName => ?_, Stored.Class.visibleFirst h⟩
    · rw [parse_bytes]
      exact Stored.Class.value_rearranges hRearranges h
    · obtain ⟨fields, -, h⟩ := Except.bind_eq_ok.mp h
      obtain ⟨methods, hMethods, -⟩ := Except.bind_eq_ok.mp h
      obtain ⟨f, hf⟩ := Except.exists_of_mem_of_mapM hMethods hm
      exact Stored.Member.exists_code hf ha hName

/-! ### An example -/

/-- The start of a class file, with names of attributes in its pool. -/
def sampleHead : Span ClassHead.read where
  bytes := Reader.toBigEndian 4 magic.toNat ++ Reader.toBigEndian 2 0 ++ Reader.toBigEndian 2 52 ++
    PoolEntry.poolBytes [.utf8 "A", .classRef "A", .utf8 "Code", .utf8 "LocalVariableTable",
      .utf8 "Synthetic", .utf8 "Other"] ++
    [0, 0x21, 0, 2, 0, 0, 0, 0]
  value := ⟨52, ⟨[.unusable, .utf8 "A", .classRef 1, .utf8 "Code", .utf8 "LocalVariableTable",
    .utf8 "Synthetic", .utf8 "Other"]⟩, ⟨0x21⟩, "A", none, []⟩
  reads := by decide +kernel

/-- Code with the given instructions and one local variable. -/
def sampleCode (instructions : List UInt8) (h : instructions.length < 256 ^ 4) : Code where
  maxStack := 0
  maxLocals := 1
  instructions := instructions
  handlers := []
  table := ⟨[⟨4, [0, 1, 0, 0, 0, 0, 0, 1, 0, 1, 0, 0], by decide⟩], by decide⟩
  instructions_lt := h
  handlers_length := ⟨0, rfl⟩

/-- A class file with one method, which has the given attributes. -/
def sampleClass (t : Table) : Stored.Class where
  head := sampleHead
  fields := ⟨[], by decide⟩
  methods := ⟨[⟨1, 1, 1, t⟩], (by decide : 1 < 256 ^ 2)⟩
  table := ⟨[], by decide⟩

/-- The attribute of code with one instruction. -/
def shortCode : Stored.Attribute := ⟨3, (sampleCode [0xB1] (by decide)).bytes, by decide⟩

/-- The attribute of code with three instructions. -/
def longCode : Stored.Attribute := ⟨3, (sampleCode [0, 0, 0xB1] (by decide)).bytes, by decide⟩

/-- The mark of what a compiler added. -/
def syntheticMark : Stored.Attribute := ⟨5, [], by decide⟩

/-- An attribute that is not understood. -/
def otherAttribute : Stored.Attribute := ⟨6, [1, 2, 3], by decide⟩

/-- Code and the mark. -/
def plainClass : Stored.Class := sampleClass ⟨[shortCode, syntheticMark], by decide⟩

/-- The mark, an attribute that is not understood and other code. -/
def otherClass : Stored.Class := sampleClass ⟨[syntheticMark, otherAttribute, longCode], by decide⟩

theorem sample_rearranges : plainClass.Rearranges otherClass where
  head := rfl
  fields := .nil
  methods := by
    refine .cons ⟨rfl, rfl, rfl, ?_⟩ .nil
    have hSwap : Table.Rearranges sampleHead.value.pool
        (MethodAttributes.meaning sampleHead.value.pool)
        ⟨[shortCode, syntheticMark], by decide⟩ ⟨[syntheticMark, shortCode], by decide⟩ :=
      .of_perm (by decide +kernel) (by decide +kernel) (.swap ..)
    have hOther : sampleHead.value.pool.utf8 otherAttribute.name = .ok "Other" := by decide +kernel
    have hFront : [syntheticMark, shortCode] = [syntheticMark] ++ [shortCode] := rfl
    have hMiddle : [syntheticMark, otherAttribute, shortCode] =
        [syntheticMark] ++ otherAttribute :: [shortCode] := rfl
    have hInsert : Table.Rearranges sampleHead.value.pool
        (MethodAttributes.meaning sampleHead.value.pool)
        ⟨[syntheticMark, shortCode], by decide⟩
        ⟨[syntheticMark, otherAttribute, shortCode], by decide⟩ :=
      .insert hSwap.named hOther (by decide +kernel) hFront hMiddle
    have hCode : Stored.Attribute.Recodes sampleHead.value.pool shortCode longCode :=
      .inr ⟨rfl, by decide +kernel, _, _, rfl, rfl,
        .of_perm (by decide +kernel) (by decide +kernel) (.refl _)⟩
    exact ⟨_, hSwap.trans hInsert, .cons (.inl rfl) (.cons (.inl rfl) (.cons hCode .nil))⟩
  table := .of_perm (by decide +kernel) (by decide +kernel) (.refl _)

theorem parse_rearranged_sample : ∃ x,
    parse (plainClass.bytes ++ [0]) = .ok x ∧
    x.methods.map (fun m => m.localVariables.map fun v => v.name) = [["A"]] ∧
    parse (otherClass.bytes ++ [1, 2]) = .ok x := by
  have hSample : (parse (plainClass.bytes ++ [0])).toOption.any
      (fun x => x.methods.map (fun m => m.localVariables.map fun v => v.name) == [["A"]]) =
        true := by
    decide +kernel
  obtain ⟨x, hOk, hNames⟩ := Except.exists_of_any_toOption hSample
  exact ⟨x, hOk, beq_iff_eq.mp hNames,
    ((parse_rearranged hOk).2 _ _ rfl).1 _ sample_rearranges [1, 2]⟩

end ClassFile

end ClassSketch
