import ClassSketch.Proofs.ClassFile.Truncation

/-!
# Class files as they are stored

What a class file says is looked up in its constant pool. Here it is taken as it stands: a member is
three numbers and a table of attributes, and an attribute is the number of its name and a body,
whatever these mean. What is stored holds that its lengths and counts can be written, so that all of
it has its bytes.

A reader is then understood in two steps. Every input that it accepts starts with the bytes of
something stored, and what it makes of such bytes is a matter of what is stored alone. Both are
preserved when readers run one after another, so that what is stored is put together as its reader
is.

## Main definitions

* `Stored.Counted`, `Stored.Attribute`, `Stored.Table`, `Stored.Code`, `Stored.Member`,
  `Stored.Class` — parts of a class file as they stand in it, and their bytes
* `Stored.Table.value`, `Stored.Member.value`, `Stored.Class.value` — what they say
* `Reader.Decodes` — a reader accepts what is stored, and gives what it says

## Main results

* `Reader.Decodes.bind`, `Reader.Decodes.counted` — readers in sequence, and counted lists
* `Attributes.read_decodes`, `readCode_decodes`, `readMember_decodes`, `ClassFile.read_decodes` —
  tables of attributes, code, members and class files
-/

namespace ClassSketch

/-! ### Numbers and their bytes -/

namespace Reader

theorem bigEndian_concat (bytes : List UInt8) (b : UInt8) :
    bigEndian (bytes ++ [b]) = bigEndian bytes * 256 + b.toNat := by
  rw [bigEndian, List.foldl_append, bigEndian, List.foldl_cons, List.foldl_nil]

/-- A number of some bytes fits in as many. -/
theorem bigEndian_lt (bytes : List UInt8) : bigEndian bytes < 256 ^ bytes.length := by
  induction bytes using List.reverseRecOn with
  | nil => exact Nat.one_pos
  | append_singleton bytes b ih =>
    have hByte : b.toNat < 256 := b.toNat_lt
    rw [bigEndian_concat, List.length_append, List.length_singleton, Nat.pow_succ]
    omega

/-- Different bytes stand for different numbers, as long as there are as many of them. -/
theorem bigEndian_injective {bytes : List UInt8} : ∀ {bytes' : List UInt8},
    bytes.length = bytes'.length → bigEndian bytes = bigEndian bytes' → bytes = bytes' := by
  induction bytes using List.reverseRecOn with
  | nil => exact fun hLength _ => (List.length_eq_zero_iff.mp hLength.symm).symm
  | append_singleton bytes b ih =>
    intro bytes' hLength hNumber
    cases bytes' using List.reverseRecOn with
    | nil => simp at hLength
    | append_singleton bytes' b' =>
      have hByte : b.toNat < 256 := b.toNat_lt
      have hByte' : b'.toNat < 256 := b'.toNat_lt
      rw [bigEndian_concat, bigEndian_concat] at hNumber
      have hFront : bytes = bytes' := ih (by simpa using hLength) (by omega)
      have hLast : b = b' := UInt8.toNat_inj.mp (by omega)
      rw [hFront, hLast]

/-- The bytes of the number that bytes stand for are these bytes. -/
theorem toBigEndian_bigEndian (bytes : List UInt8) :
    toBigEndian bytes.length (bigEndian bytes) = bytes :=
  bigEndian_injective (length_toBigEndian ..) (bigEndian_toBigEndian (bigEndian_lt bytes))

/-- The bytes of a number that was read are there. -/
theorem eq_toBigEndian {α : Type} {width : ℕ} {ofNat : ℕ → α} {toNat : α → ℕ}
    (hFits : ∀ n < 256 ^ width, toNat (ofNat n) = n) {s rest : List UInt8} {n : α}
    (h : (bytes width >>= fun b => pure (ofNat (bigEndian b)) : Reader α) s = .ok (n, rest)) :
    s = toBigEndian width (toNat n) ++ rest := by
  obtain ⟨front, _, hFront, hNumber⟩ := Parsing.bind_eq_ok.mp h
  cases hNumber
  obtain ⟨rfl, rfl⟩ := bytes_eq_ok.mp hFront
  rw [hFits _ (bigEndian_lt front), toBigEndian_bigEndian]

/-- A number of two bytes is read from exactly those. -/
theorem u2_eq_ok {s rest : List UInt8} {n : UInt16} :
    u2 s = .ok (n, rest) ↔ s = toBigEndian 2 n.toNat ++ rest :=
  ⟨eq_toBigEndian fun _ => UInt16.toNat_ofNat_of_lt, fun h => h ▸ u2_toNat n rest⟩

theorem u4_eq_ok {s rest : List UInt8} {n : UInt32} :
    u4 s = .ok (n, rest) ↔ s = toBigEndian 4 n.toNat ++ rest :=
  ⟨eq_toBigEndian fun _ => UInt32.toNat_ofNat_of_lt, fun h => h ▸ u4_toNat n rest⟩

end Reader

/-! ### What is stored -/

namespace Stored

/-- A list that stands behind the number of its items. -/
structure Counted (α : Type) where
  items : List α
  length_lt : items.length < 256 ^ 2

/-- The bytes of a list, given those of an item. -/
def Counted.bytes {α : Type} (row : α → List UInt8) (t : Counted α) : List UInt8 :=
  Reader.toBigEndian 2 t.items.length ++ t.items.flatMap row

/-- An attribute: the number of its name, and a body. -/
structure Attribute where
  name : UInt16
  body : List UInt8
  length_lt : body.length < 256 ^ 4

/-- The bytes of an attribute. The body stands behind its length. -/
def Attribute.bytes (a : Attribute) : List UInt8 :=
  Reader.toBigEndian 2 a.name.toNat ++ (Reader.toBigEndian 4 a.body.length ++ a.body)

/-- A table of attributes. -/
abbrev Table := Counted Attribute

/-- The bytes of a table of attributes. -/
def Table.bytes : Table → List UInt8 := Counted.bytes Attribute.bytes

/-- Code: two limits, the instructions, the handlers, which take eight bytes each, and a table. -/
structure Code where
  maxStack : UInt16
  maxLocals : UInt16
  instructions : List UInt8
  handlers : List UInt8
  table : Table
  instructions_lt : instructions.length < 256 ^ 4
  handlers_length : ∃ n : UInt16, handlers.length = n.toNat * 8

/-- The bytes of code. -/
def Code.bytes (c : Code) : List UInt8 :=
  Reader.toBigEndian 2 c.maxStack.toNat ++ (Reader.toBigEndian 2 c.maxLocals.toNat ++
    ((Reader.toBigEndian 4 c.instructions.length ++ c.instructions) ++
      ((Reader.toBigEndian 2 (c.handlers.length / 8) ++ c.handlers) ++ Table.bytes c.table)))

/-- A field or method: three numbers and a table. -/
structure Member where
  access : UInt16
  name : UInt16
  descriptor : UInt16
  table : Table

/-- The bytes of a field or method. -/
def Member.bytes (m : Member) : List UInt8 :=
  Reader.toBigEndian 2 m.access.toNat ++ (Reader.toBigEndian 2 m.name.toNat ++
    (Reader.toBigEndian 2 m.descriptor.toNat ++ Table.bytes m.table))

/-- What a reader takes for a value. -/
structure Span {α : Type} (r : Reader α) where
  bytes : List UInt8
  value : α
  reads : r bytes = .ok (value, [])

/-- A class file: what comes before the members, the members and a table. -/
structure Class where
  head : Span ClassHead.read
  fields : Counted Member
  methods : Counted Member
  table : Table

/-- The bytes of a class file. -/
def Class.bytes (c : Class) : List UInt8 :=
  c.head.bytes ++ (c.fields.bytes Member.bytes ++ (c.methods.bytes Member.bytes ++
    Table.bytes c.table))

end Stored

open Stored

/-! ### Readers of what is stored -/

namespace Reader

variable {α β M N : Type} {r : Reader α} {bytes : M → List UInt8}
  {value : M → Except ClassFile.Error α}

/-- The reader accepts what is stored, and nothing else, and gives what it says. -/
structure Decodes (r : Reader α) (bytes : M → List UInt8)
    (value : M → Except ClassFile.Error α) : Prop where
  stored : ∀ {s x rest}, r s = .ok (x, rest) → ∃ m, s = bytes m ++ rest
  run : ∀ m rest, r (bytes m ++ rest) = (value m).map fun x => (x, rest)

namespace Decodes

/-- What is decoded by two readers is stored in two parts. -/
theorem bind {f : α → Reader β} {bytes' : N → List UInt8}
    {value' : α → N → Except ClassFile.Error β} (h : Decodes r bytes value)
    (h' : ∀ x, Decodes (f x) bytes' (value' x)) :
    Decodes (r >>= f) (fun m : M × N => bytes m.1 ++ bytes' m.2)
      fun m => value m.1 >>= fun x => value' x m.2 where
  stored := by
    intro s y rest hRun
    obtain ⟨x, middle, hFirst, hSecond⟩ := Parsing.bind_eq_ok.mp hRun
    obtain ⟨m, rfl⟩ := h.stored hFirst
    obtain ⟨n, rfl⟩ := (h' x).stored hSecond
    exact ⟨(m, n), (List.append_assoc ..).symm⟩
  run := by
    rintro ⟨m, n⟩ rest
    rw [List.append_assoc, Parsing.bind_of_map (h.run m _), Except.map_bind]
    exact congrArg _ (funext fun x => (h' x).run n rest)

/-- What is made of a value takes no bytes. -/
theorem bind_liftM (h : Decodes r bytes value) (f : α → Except ClassFile.Error β) :
    Decodes (r >>= fun x => MonadLiftT.monadLift (f x)) bytes fun m => value m >>= f where
  stored := by
    intro s y rest hRun
    obtain ⟨x, middle, hFirst, hSecond⟩ := Parsing.bind_eq_ok.mp hRun
    obtain ⟨m, rfl⟩ := h.stored hFirst
    refine ⟨m, ?_⟩
    cases hf : f x <;> rw [hf] at hSecond <;> cases hSecond
    rfl
  run := by
    intro m rest
    have hLift : ∀ x, (MonadLiftT.monadLift (f x) : Reader β) rest =
        (f x).map fun y => (y, rest) := by
      intro x
      cases f x <;> rfl
    rw [Parsing.bind_of_map (h.run m rest), Except.map_bind]
    exact congrArg _ (funext hLift)

theorem bind_pure (h : Decodes r bytes value) (f : α → β) :
    Decodes (r >>= fun x => pure (f x)) bytes fun m => value m >>= fun x => .ok (f x) :=
  h.bind_liftM fun x => .ok (f x)

/-- The same things in another form. -/
theorem comap (h : Decodes r bytes value) {g : N → M} (hg : Function.Surjective g) :
    Decodes r (bytes ∘ g) (value ∘ g) where
  stored := by
    intro s x rest hRun
    obtain ⟨m, rfl⟩ := h.stored hRun
    obtain ⟨n, rfl⟩ := hg m
    exact ⟨n, rfl⟩
  run n rest := h.run (g n) rest

/-- A table that is read was stored row by row. -/
theorem exists_of_times (h : Decodes r bytes value) {n : ℕ} : ∀ {s xs rest},
    times r n s = .ok (xs, rest) → ∃ ms : List M, ms.length = n ∧ s = ms.flatMap bytes ++ rest := by
  induction n with
  | zero =>
    intro s xs rest hRun
    cases hRun
    exact ⟨[], rfl, rfl⟩
  | succ n ih =>
    intro s xs rest hRun
    obtain ⟨x, middle, hFirst, hRun⟩ := Parsing.bind_eq_ok.mp hRun
    obtain ⟨ys, ending, hOthers, hPure⟩ := Parsing.bind_eq_ok.mp hRun
    cases hPure
    obtain ⟨m, rfl⟩ := h.stored hFirst
    obtain ⟨ms, rfl, rfl⟩ := ih hOthers
    exact ⟨m :: ms, rfl, by rw [List.flatMap_cons, List.append_assoc]⟩

/-- A stored table is read row by row, as far as its rows say something. -/
theorem times_run (h : Decodes r bytes value) (ms : List M) (rest : List UInt8) :
    times r ms.length (ms.flatMap bytes ++ rest) = (ms.mapM value).map fun xs => (xs, rest) := by
  induction ms with
  | nil => rfl
  | cons m ms ih =>
    rw [List.length_cons, List.flatMap_cons, List.append_assoc, times, List.mapM_cons,
      Parsing.bind_of_map (h.run m _), Except.map_bind]
    refine congrArg _ (funext fun x => ?_)
    rw [Parsing.bind_of_map ih, Except.map_bind]
    rfl

end Decodes

/-- Things behind their number are counted, if they are read one after another. -/
theorem counted_decodes {row : M → List UInt8} {many : ℕ → Reader β}
    {values : List M → Except ClassFile.Error β}
    (hStored : ∀ {n s x rest}, many n s = .ok (x, rest) →
      ∃ ms : List M, ms.length = n ∧ s = ms.flatMap row ++ rest)
    (hRun : ∀ ms rest, many ms.length (ms.flatMap row ++ rest) =
      (values ms).map fun x => (x, rest)) :
    Decodes (u2 >>= fun count => many count.toNat) (Counted.bytes row)
      fun t => values t.items where
  stored := by
    intro s x rest h
    obtain ⟨count, _, hCount, hMany⟩ := Parsing.bind_eq_ok.mp h
    obtain ⟨ms, hLength, rfl⟩ := hStored hMany
    have hBytes := u2_eq_ok.mp hCount
    rw [← hLength] at hBytes
    exact ⟨⟨ms, hLength ▸ count.toNat_lt⟩, by rw [hBytes, Counted.bytes, List.append_assoc]⟩
  run := by
    rintro ⟨ms, hFits⟩ rest
    have hLength : ms.length.toUInt16.toNat = ms.length := UInt16.toNat_ofNat_of_lt hFits
    rw [Counted.bytes, List.append_assoc, Parsing.bind_of_ok (u2_toBigEndian hFits _), hLength]
    exact hRun ms rest

/-- A table with the number of its rows in front is stored as such. -/
theorem Decodes.counted (h : Decodes r bytes value) :
    Decodes (readCounted r) (Counted.bytes bytes) fun t => t.items.mapM value :=
  counted_decodes h.exists_of_times h.times_run

/-! ### Numbers, blocks and spans -/

theorem u2_decodes : Decodes u2 (fun n : UInt16 => toBigEndian 2 n.toNat) .ok where
  stored h := ⟨_, u2_eq_ok.mp h⟩
  run := u2_toNat

/-- A number that comes next, and what is looked up under it. -/
theorem index_decodes (look : UInt16 → Except ClassFile.Error α) :
    Decodes (u2 >>= fun i => MonadLiftT.monadLift (look i) : Reader α)
      (fun n : UInt16 => toBigEndian 2 n.toNat) look :=
  u2_decodes.bind_liftM look

/-- Reads bytes behind their number. -/
def block : Reader (List UInt8) := do Reader.bytes (← u4).toNat

theorem block_decodes : Decodes block
    (fun b : {b : List UInt8 // b.length < 256 ^ 4} => toBigEndian 4 b.1.length ++ b.1)
    fun b => .ok b.1 where
  stored := by
    intro s body rest hRun
    obtain ⟨length, _, hLength, hBody⟩ := Parsing.bind_eq_ok.mp hRun
    obtain ⟨hSize, rfl⟩ := bytes_eq_ok.mp hBody
    have hFits : body.length < 256 ^ 4 := hSize ▸ length.toNat_lt
    have hBytes := u4_eq_ok.mp hLength
    rw [← hSize] at hBytes
    exact ⟨⟨body, hFits⟩, by rw [hBytes, List.append_assoc]⟩
  run := by
    rintro ⟨body, hFits⟩ rest
    have hLength : body.length.toUInt32.toNat = body.length := UInt32.toNat_ofNat_of_lt hFits
    rw [List.append_assoc]
    refine (Parsing.bind_of_ok (u4_toBigEndian hFits _)).trans ?_
    rw [hLength]
    exact bytes_append body rest

/-- Reads past the handlers of code. -/
def handlers : Reader (List UInt8) := do Reader.bytes ((← u2).toNat * 8)

theorem handlers_decodes : Decodes handlers
    (fun h : {h : List UInt8 // ∃ n : UInt16, h.length = n.toNat * 8} =>
      toBigEndian 2 (h.1.length / 8) ++ h.1)
    fun h => .ok h.1 where
  stored := by
    intro s handlers rest hRun
    obtain ⟨count, _, hCount, hHandlers⟩ := Parsing.bind_eq_ok.mp hRun
    obtain ⟨hSize, rfl⟩ := bytes_eq_ok.mp hHandlers
    have hDiv : handlers.length / 8 = count.toNat := by omega
    refine ⟨⟨handlers, count, hSize⟩, ?_⟩
    rw [u2_eq_ok.mp hCount, hDiv, List.append_assoc]
  run := by
    rintro ⟨handlers, count, hSize⟩ rest
    have hDiv : handlers.length / 8 = count.toNat := by omega
    rw [hDiv, List.append_assoc]
    refine (Parsing.bind_of_ok (u2_toNat count _)).trans ?_
    rw [← hSize]
    exact bytes_append handlers rest

theorem Incremental.decodes (h : Incremental r) :
    Decodes r (fun m : Span r => m.bytes) fun m => .ok m.value where
  stored := by
    intro s x rest hRun
    obtain ⟨front, rfl, hTakes, -⟩ := h.takes hRun
    exact ⟨⟨front, x, by simpa using hTakes []⟩, rfl⟩
  run := by
    intro m rest
    obtain ⟨front, hFront, hTakes, -⟩ := h.takes m.reads
    rw [hFront, List.append_nil]
    exact hTakes rest

end Reader

open Reader

/-! ### Tables of attributes -/

namespace Stored

variable {α : Type} (pool : ConstantPool) (meaning : Attributes.Meaning α)

/-- What a body under a name makes of what is known of its owner. -/
def act (name : String) (body : List UInt8) (known : α) : Except ClassFile.Error α :=
  match meaning name with
  | none => .ok known
  | some step => do
    let (known, rest) ← (step known).run body
    if rest.isEmpty then return known else throw (.attributeLength name)

/-- What an attribute makes of what is known of its owner. -/
def Attribute.value (known : α) (a : Attribute) : Except ClassFile.Error α := do
  act meaning (← pool.utf8 a.name) a.body known

/-- What a table makes of what is known of its owner. -/
def Table.value (initial : α) (t : Table) : Except ClassFile.Error α :=
  t.items.foldlM (Attribute.value pool meaning) initial

end Stored

namespace Attributes

variable {α : Type} (pool : ConstantPool) (meaning : Meaning α)

theorem readOne_eq (known : α) : readOne pool meaning known =
    (u2 >>= fun i => MonadLiftT.monadLift (pool.utf8 i)) >>= fun name => block >>= fun body =>
      MonadLiftT.monadLift (act meaning name body known) := by
  have hAct : ∀ name body, MonadLiftT.monadLift (act meaning name body known) =
      (match meaning name with
      | none => pure known
      | some step => Reader.within body (step known) >>= fun result =>
        if result.2.isEmpty then pure result.1 else throw (.attributeLength name) : Reader α) := by
    intro name body
    rw [act]
    cases meaning name with
    | none => rfl
    | some step =>
      simp only [within_eq_monadLift]
      cases (step known).run body with
      | error e => rfl
      | ok result =>
        funext s
        obtain ⟨x, rest⟩ := result
        cases rest <;> rfl
  rw [readOne, bind_assoc]
  refine bind_congr fun i => bind_congr fun name => ?_
  rw [block, bind_assoc]
  exact bind_congr fun length => bind_congr fun body => (hAct name body).symm

/-- An attribute is stored as its name and a block. -/
theorem readOne_decodes (known : α) :
    Decodes (readOne pool meaning known) Stored.Attribute.bytes
      (Stored.Attribute.value pool meaning known) := by
  rw [readOne_eq]
  have h := (index_decodes pool.utf8).bind fun name =>
    block_decodes.bind_liftM fun body => act meaning name body known
  refine h.comap (g := fun a : Stored.Attribute => (a.name, ⟨a.body, a.length_lt⟩)) ?_
  rintro ⟨name, body, hFits⟩
  exact ⟨⟨name, body, hFits⟩, rfl⟩

theorem exists_of_readMany {n : ℕ} : ∀ {known x : α} {s rest},
    readMany pool meaning n known s = .ok (x, rest) → ∃ as : List Stored.Attribute,
      as.length = n ∧ s = as.flatMap Stored.Attribute.bytes ++ rest := by
  induction n with
  | zero =>
    intro known x s rest hRun
    cases hRun
    exact ⟨[], rfl, rfl⟩
  | succ n ih =>
    intro known x s rest hRun
    obtain ⟨next, middle, hFirst, hOthers⟩ := Parsing.bind_eq_ok.mp hRun
    obtain ⟨a, rfl⟩ := (readOne_decodes pool meaning known).stored hFirst
    obtain ⟨as, rfl, rfl⟩ := ih hOthers
    exact ⟨a :: as, rfl, by rw [List.flatMap_cons, List.append_assoc]⟩

/-- Attributes are read one after the other, each with what the ones before it have said. -/
theorem readMany_run (as : List Stored.Attribute) (rest : List UInt8) : ∀ known : α,
    readMany pool meaning as.length known (as.flatMap Stored.Attribute.bytes ++ rest) =
      (as.foldlM (Stored.Attribute.value pool meaning) known).map fun x => (x, rest) := by
  induction as with
  | nil => exact fun _ => rfl
  | cons a as ih =>
    intro known
    rw [List.length_cons, List.flatMap_cons, List.append_assoc, List.foldlM_cons, readMany,
      Parsing.bind_of_map ((readOne_decodes pool meaning known).run a _), Except.map_bind]
    exact congrArg _ (funext ih)

theorem read_decodes (initial : α) :
    Decodes (read pool meaning initial) Table.bytes (Table.value pool meaning initial) :=
  counted_decodes (exists_of_readMany pool meaning)
    fun as rest => readMany_run pool meaning as rest initial

end Attributes

/-! ### Code, members and classes -/

section

variable (pool : ConstantPool)

theorem readCode_eq : readCode pool = u2 >>= fun _ => u2 >>= fun _ => block >>= fun _ =>
    handlers >>= fun _ => Attributes.read pool (codeMeaning pool) [] := by
  simp only [readCode, block, handlers, bind_assoc]

/-- Of code only its table is looked at. -/
theorem readCode_decodes : Decodes (readCode pool) Code.bytes
    fun c => Table.value pool (codeMeaning pool) [] c.table := by
  rw [readCode_eq]
  have h := u2_decodes.bind fun _ => u2_decodes.bind fun _ => block_decodes.bind fun _ =>
    handlers_decodes.bind fun _ => Attributes.read_decodes pool (codeMeaning pool) []
  refine h.comap (g := fun c : Code => (c.maxStack, c.maxLocals,
    ⟨c.instructions, c.instructions_lt⟩, ⟨c.handlers, c.handlers_length⟩, c.table)) ?_
  rintro ⟨maxStack, maxLocals, ⟨instructions, hFits⟩, ⟨handlers, hHandlers⟩, table⟩
  exact ⟨⟨maxStack, maxLocals, instructions, handlers, table, hFits, hHandlers⟩, rfl⟩

variable {α β : Type} (meaning : Attributes.Meaning α) (initial : α)
  (make : AccessFlags → String → String → α → β)

/-- What a member says, given what its attributes mean and how it is put together. -/
def Stored.Member.value (m : Stored.Member) : Except ClassFile.Error β := do
  let name ← pool.utf8 m.name
  let descriptor ← pool.utf8 m.descriptor
  let a ← Table.value pool meaning initial m.table
  return make ⟨m.access⟩ name descriptor a

/-- A member is stored as its flags, its name, its descriptor and its table of attributes. -/
theorem readMember_decodes : Decodes (readMember pool meaning initial make) Stored.Member.bytes
    (Stored.Member.value pool meaning initial make) := by
  have h := (u2_decodes.bind_pure AccessFlags.mk).bind fun access =>
    (index_decodes pool.utf8).bind fun name => (index_decodes pool.utf8).bind fun descriptor =>
      (Attributes.read_decodes pool meaning initial).bind_pure (make access name descriptor)
  refine h.comap (g := fun m : Stored.Member => (m.access, m.name, m.descriptor, m.table)) ?_
  rintro ⟨access, name, descriptor, table⟩
  exact ⟨⟨access, name, descriptor, table⟩, rfl⟩

/-- What a field says. -/
def Stored.Member.field : Stored.Member → Except ClassFile.Error FieldInfo :=
  Stored.Member.value pool (FieldAttributes.meaning pool) {} FieldAttributes.field

/-- What a method says. -/
def Stored.Member.method : Stored.Member → Except ClassFile.Error MethodInfo :=
  Stored.Member.value pool (MethodAttributes.meaning pool) {} MethodAttributes.method

end

/-- What a class file says. -/
def Stored.Class.value (c : Stored.Class) : Except ClassFile.Error ClassFile := do
  let fields ← c.fields.items.mapM (Stored.Member.field c.head.value.pool)
  let methods ← c.methods.items.mapM (Stored.Member.method c.head.value.pool)
  let a ← Table.value c.head.value.pool (ClassAttributes.meaning c.head.value.pool) {} c.table
  return c.head.value.classFile fields methods a

/-- **A class file is stored as its head, its members and its table of attributes.** -/
theorem ClassFile.read_decodes : Decodes read Stored.Class.bytes Stored.Class.value := by
  rw [read_eq]
  have h := ClassHead.read_incremental.decodes.bind fun head =>
    (readMember_decodes head.pool (FieldAttributes.meaning head.pool) {}
      FieldAttributes.field).counted.bind fun fields =>
    (readMember_decodes head.pool (MethodAttributes.meaning head.pool) {}
      MethodAttributes.method).counted.bind fun methods =>
    (Attributes.read_decodes head.pool (ClassAttributes.meaning head.pool) {}).bind_pure
      (head.classFile fields methods)
  refine h.comap (g := fun c : Stored.Class => (c.head, c.fields, c.methods, c.table)) ?_
  rintro ⟨head, fields, methods, table⟩
  exact ⟨⟨head, fields, methods, table⟩, rfl⟩

end ClassSketch
