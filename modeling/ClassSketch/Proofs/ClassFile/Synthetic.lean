import ClassSketch.ClassFile.Parse
import ClassSketch.Proofs.Parsing
import Mathlib.Data.List.Forall2

/-!
# Synthetic declarations

A class file says in two ways that a compiler added a declaration: by a flag, and by an attribute.
What is read keeps the flag only. The readers here take the same bytes and keep the names of the
attributes, so that the flag of what is read can be compared with what the class file says.

## Main definitions

* `RawDeclaration`, `RawMember`, `RawClass` — flags and names of attributes as they stand in a file
* `RawDeclaration.IsSynthetic` — declarations added by a compiler, in either way
* `Reader.Mirrored` — a reader that takes the same bytes as another one

## Main results

* `Attributes.read_mirrored` — the mark of a table of attributes
* `ClassFile.read_mirrored` — the flags of all that is read from a class file
-/

namespace ClassSketch

/-! ### What a class file says -/

/-- The flags of a declaration, and the names of its attributes. -/
structure RawDeclaration where
  access : AccessFlags
  attributes : List String

/-- A field or method as it stands in a class file. -/
structure RawMember extends RawDeclaration where
  name : String

/-- A class as it stands in a class file. -/
structure RawClass extends RawDeclaration where
  fields : List RawMember
  methods : List RawMember

/-- A compiler added the declaration: a flag says so, or an attribute. -/
def RawDeclaration.IsSynthetic (r : RawDeclaration) : Prop :=
  r.access.isSynthetic = true ∨ "Synthetic" ∈ r.attributes

/-- Flags that say of a declaration whether it is synthetic, and else what its own flags say. -/
structure RawDeclaration.Gives (r : RawDeclaration) (access : AccessFlags) : Prop where
  isSynthetic : access.isSynthetic = true ↔ r.IsSynthetic
  other : ∀ mask : UInt16, 0x1000 &&& mask = 0 → access.has mask = r.access.has mask

/-- Reads the name of an attribute and passes over its value. -/
def Attributes.readName (pool : ConstantPool) : Reader String := do
  let name ← pool.utf8 (← Reader.u2)
  let length ← Reader.u4
  let _ ← Reader.bytes length.toNat
  return name

/-- Reads a field or method. -/
def RawMember.read (pool : ConstantPool) : Reader RawMember := do
  let access ← readAccess
  let name ← readUtf8 pool
  let _ ← readUtf8 pool
  let attributes ← readCounted (Attributes.readName pool)
  return { access := access, name := name, attributes := attributes }

/-- Reads a class at the front of the input. -/
def RawClass.read : Reader RawClass := do
  if (← Reader.u4) ≠ ClassFile.magic then throw .invalidMagic
  let _ ← Reader.u2
  let _ ← Reader.u2
  let pool ← ConstantPool.read
  let access ← readAccess
  let _ ← readClassName pool
  let _ ← readClassName? pool
  let _ ← readCounted (readClassName pool)
  let fields ← readCounted (RawMember.read pool)
  let methods ← readCounted (RawMember.read pool)
  let attributes ← readCounted (Attributes.readName pool)
  return { access := access, fields := fields, methods := methods, attributes := attributes }

/-! ### Readers that take the same bytes -/

namespace Reader

variable {α β γ δ : Type} {R : α → β → Prop} {S : γ → δ → Prop}

/-- Where the first reader gives a value, the second one takes the same bytes, and gives a value
that is related to it. -/
def Mirrored (R : α → β → Prop) (p : Reader α) (q : Reader β) : Prop :=
  ∀ bytes x rest, p bytes = .ok (x, rest) → ∃ y, q bytes = .ok (y, rest) ∧ R x y

theorem Mirrored.pure {x : α} {y : β} (h : R x y) :
    Mirrored R (Pure.pure x : Reader α) (Pure.pure y : Reader β) := by
  rintro bytes _ _ ⟨⟩
  exact ⟨y, rfl, h⟩

/-- Readers in a row take the same bytes if each of them does. -/
theorem Mirrored.bind {p : Reader γ} {q : Reader δ} {f : γ → Reader α} {g : δ → Reader β}
    (hFirst : Mirrored S p q) (hRest : ∀ x y, S x y → Mirrored R (f x) (g y)) :
    Mirrored R (p >>= f) (q >>= g) := by
  intro bytes z rest h
  obtain ⟨x, after, hp, hf⟩ := Parsing.bind_eq_ok.mp h
  obtain ⟨y, hq, hRelated⟩ := hFirst bytes x after hp
  obtain ⟨w, hg, hResult⟩ := hRest x y hRelated after z rest hf
  exact ⟨w, Parsing.bind_eq_ok.mpr ⟨y, after, hq, hg⟩, hResult⟩

theorem Mirrored.map_right {p : Reader α} {q : Reader δ} {g : δ → β}
    (h : Mirrored (fun x y => R x (g y)) p q) :
    Mirrored R p (q >>= fun y => Pure.pure (g y)) := by
  intro bytes x rest hp
  obtain ⟨y, hq, hRelated⟩ := h bytes x rest hp
  exact ⟨g y, Parsing.bind_eq_ok.mpr ⟨y, rest, hq, rfl⟩, hRelated⟩

/-- Readers that begin alike. -/
theorem Mirrored.after {p : Reader γ} {f : γ → Reader α} {g : γ → Reader β}
    (h : ∀ x, Mirrored R (f x) (g x)) : Mirrored R (p >>= f) (p >>= g) := by
  have hSame : Mirrored Eq p p := fun bytes x rest hp => ⟨x, hp, rfl⟩
  refine hSame.bind ?_
  rintro x _ rfl
  exact h x

theorem Mirrored.times {p : Reader α} {q : Reader β} (h : Mirrored R p q) (n : ℕ) :
    Mirrored (List.Forall₂ R) (times p n) (times q n) := by
  induction n with
  | zero => exact .pure .nil
  | succ n ih =>
    exact h.bind fun x y hFirst => ih.bind fun xs ys hRest => .pure (.cons hFirst hRest)

/-- Tables take the same bytes if their rows do. -/
theorem Mirrored.readCounted {p : Reader α} {q : Reader β} (h : Mirrored R p q) :
    Mirrored (List.Forall₂ R) (readCounted p) (readCounted q) :=
  .after fun count => h.times count.toNat

end Reader

/-! ### Tables of attributes -/

namespace Attributes

open Reader

variable {α : Type} {pool : ConstantPool} {meaning : Meaning α} {marked : α → Bool}

/-- The attribute of synthetic declarations is understood, and only it leaves a mark. -/
structure Marks (meaning : Meaning α) (marked : α → Bool) : Prop where
  understood : meaning "Synthetic" ≠ none
  step : ∀ name step, meaning name = some step → ∀ known bytes known' rest,
    step known bytes = .ok (known', rest) →
      (marked known' = true ↔ marked known = true ∨ name = "Synthetic")

theorem readOne_mirrored (h : Marks meaning marked) (known : α) :
    Mirrored (fun known' name => marked known' = true ↔ marked known = true ∨ name = "Synthetic")
      (readOne pool meaning known) (readName pool) := by
  refine .after fun index => .after fun name => .after fun length => .after fun body => ?_
  cases hMeaning : meaning name with
  | none =>
    refine .pure ?_
    have hOther : name ≠ "Synthetic" := by
      rintro rfl
      exact h.understood hMeaning
    simp [hOther]
  | some step =>
    intro bytes known' rest hRead
    obtain ⟨⟨result, left⟩, after, hWithin, hRead⟩ := Parsing.bind_eq_ok.mp hRead
    obtain ⟨read, hStep, heq⟩ := Parsing.map_eq_ok.mp hWithin
    cases heq
    simp only at hRead
    split at hRead
    · cases hRead
      exact ⟨name, rfl, h.step name step hMeaning known body known' left hStep⟩
    · cases hRead

/-- A table marks what it is read for if one of its names is that of the mark. -/
theorem readMany_mirrored (h : Marks meaning marked) (n : ℕ) : ∀ known : α,
    Mirrored
      (fun known' names => marked known' = true ↔ marked known = true ∨ "Synthetic" ∈ names)
      (readMany pool meaning n known) (Reader.times (readName pool) n) := by
  induction n with
  | zero => exact fun known => .pure (by simp)
  | succ n ih =>
    intro known
    refine (readOne_mirrored h known).bind fun known' name hOne => .map_right ?_
    intro bytes known'' rest hRead
    obtain ⟨names, hNames, hRest⟩ := ih known' bytes known'' rest hRead
    refine ⟨names, hNames, ?_⟩
    simp only [hRest, hOne, List.mem_cons, or_assoc, eq_comm]

/-- A table leaves the mark if one of its attributes does. -/
theorem read_mirrored (h : Marks meaning marked) (known : α) :
    Mirrored
      (fun known' names => marked known' = true ↔ marked known = true ∨ "Synthetic" ∈ names)
      (read pool meaning known) (readCounted (readName pool)) :=
  .after fun count => readMany_mirrored h count.toNat known

end Attributes

/-! ### Declarations -/

theorem CommonAttributes.marks (pool : ConstantPool) :
    Attributes.Marks (meaning pool) CommonAttributes.isSynthetic where
  understood := by simp [meaning]
  step := by
    intro name step hMeaning known bytes known' rest hStep
    unfold meaning at hMeaning
    split at hMeaning <;> cases hMeaning
    case h_2 =>
      cases hStep
      simp
    all_goals
      obtain ⟨x, after, -, heq⟩ := Parsing.bind_eq_ok.mp hStep
      cases heq
      simp

/-- What is known of any declaration is marked as part of what is known of one of some kind. -/
theorem CommonAttributes.marks_part {α : Type} (part : α → CommonAttributes)
    (put : α → CommonAttributes → α) (hPut : ∀ a c, part (put a c) = c) {pool : ConstantPool}
    {name : String} {step : α → Reader α}
    (h : ((meaning pool name).map fun step a => do return put a (← step (part a))) = some step)
    {known known' : α} {bytes rest : List UInt8} (hStep : step known bytes = .ok (known', rest)) :
    (part known').isSynthetic = true ↔ (part known).isSynthetic = true ∨ name = "Synthetic" := by
  obtain ⟨common, hMeaning, rfl⟩ := Option.map_eq_some_iff.mp h
  obtain ⟨c, after, hCommon, heq⟩ := Parsing.bind_eq_ok.mp hStep
  cases heq
  rw [hPut]
  exact (marks pool).step name common hMeaning _ _ _ _ hCommon

theorem FieldAttributes.marks (pool : ConstantPool) :
    Attributes.Marks (meaning pool) fun a : FieldAttributes => a.isSynthetic where
  understood := by simp [meaning, CommonAttributes.meaning]
  step := by
    intro name step hMeaning known bytes known' rest hStep
    unfold meaning at hMeaning
    split at hMeaning
    · cases hMeaning
      obtain ⟨index, after, -, h⟩ := Parsing.bind_eq_ok.mp hStep
      obtain ⟨value, after', -, heq⟩ := Parsing.bind_eq_ok.mp h
      cases heq
      simp
    · exact CommonAttributes.marks_part toCommonAttributes
        (fun a c => { a with toCommonAttributes := c }) (fun _ _ => rfl) hMeaning hStep

theorem MethodAttributes.marks (pool : ConstantPool) :
    Attributes.Marks (meaning pool) fun a : MethodAttributes => a.isSynthetic where
  understood := by simp [meaning, CommonAttributes.meaning]
  step := by
    intro name step hMeaning known bytes known' rest hStep
    unfold meaning at hMeaning
    split at hMeaning
    case h_7 =>
      exact CommonAttributes.marks_part toCommonAttributes
        (fun a c => { a with toCommonAttributes := c }) (fun _ _ => rfl) hMeaning hStep
    all_goals
      cases hMeaning
      obtain ⟨value, after, -, heq⟩ := Parsing.bind_eq_ok.mp hStep
      cases heq
      simp

theorem ClassAttributes.marks (pool : ConstantPool) :
    Attributes.Marks (meaning pool) fun a : ClassAttributes => a.isSynthetic where
  understood := by simp [meaning, CommonAttributes.meaning]
  step := by
    intro name step hMeaning known bytes known' rest hStep
    unfold meaning at hMeaning
    split at hMeaning
    · cases hMeaning
      obtain ⟨entries, after, -, heq⟩ := Parsing.bind_eq_ok.mp hStep
      cases heq
      simp
    · exact CommonAttributes.marks_part toCommonAttributes
        (fun a c => { a with toCommonAttributes := c }) (fun _ _ => rfl) hMeaning hStep

/-- The mark adds one flag. -/
theorem AccessFlags.has_synthetic (access : AccessFlags) (mask : UInt16) :
    access.synthetic.has mask = true ↔ access.has mask = true ∨ 0x1000 &&& mask ≠ 0 := by
  have hBits : (access.bits ||| 0x1000) &&& mask = access.bits &&& mask ||| 0x1000 &&& mask :=
    UInt16.toBitVec_inj.mp BitVec.and_or_distrib_right
  simp only [has, synthetic, hBits, bne_iff_ne, ne_eq, UInt16.or_eq_zero_iff, not_and_or]

/-- Flags that are adjusted say what the class file says. -/
theorem CommonAttributes.adjust_gives {a : CommonAttributes} {names : List String}
    (h : a.isSynthetic = true ↔ "Synthetic" ∈ names) (access : AccessFlags) :
    RawDeclaration.Gives ⟨access, names⟩ (a.adjust access) := by
  rw [adjust]
  split
  · next hMarked =>
    refine ⟨?_, fun mask hMask => ?_⟩
    · have hSynthetic : access.synthetic.isSynthetic = true :=
        (access.has_synthetic 0x1000).mpr (.inr (by decide))
      simp [hSynthetic, RawDeclaration.IsSynthetic, h.mp hMarked]
    · rw [Bool.eq_iff_iff, access.has_synthetic]
      simp [hMask]
  · next hUnmarked =>
    refine ⟨?_, fun mask _ => rfl⟩
    simp [RawDeclaration.IsSynthetic, ← h, hUnmarked]

open Reader

/-- A field has the flags that its bytes say, and the mark where an attribute of that name stands.
-/
theorem FieldInfo.read_mirrored (pool : ConstantPool) :
    Mirrored (fun (f : FieldInfo) (r : RawMember) => f.name = r.name ∧ r.Gives f.access)
      (FieldInfo.read pool) (RawMember.read pool) := by
  refine .after fun access => .after fun name => .after fun descriptor => ?_
  refine (Attributes.read_mirrored (FieldAttributes.marks pool) {}).bind fun a names h => ?_
  exact .pure ⟨rfl, CommonAttributes.adjust_gives (by simpa using h) access⟩

-- a public field without the flag, but with the attribute
example : ((FieldInfo.read ⟨[.unusable, .utf8 "f", .utf8 "I", .utf8 "Synthetic"]⟩
    [0, 1, 0, 1, 0, 2, 0, 1, 0, 3, 0, 0, 0, 0]).toOption.map fun f => f.1.access) =
      some ⟨0x1001⟩ := by
  decide

theorem MethodInfo.read_mirrored (pool : ConstantPool) :
    Mirrored (fun (m : MethodInfo) (r : RawMember) => m.name = r.name ∧ r.Gives m.access)
      (MethodInfo.read pool) (RawMember.read pool) := by
  refine .after fun access => .after fun name => .after fun descriptor => ?_
  refine (Attributes.read_mirrored (MethodAttributes.marks pool) {}).bind fun a names h => ?_
  exact .pure ⟨rfl, CommonAttributes.adjust_gives (by simpa using h) access⟩

/-- The flags of a class and of its members are those of the class file, where a flag for what is
synthetic stands for the attribute too. -/
structure ClassFile.Adjusts (c : ClassFile) (r : RawClass) : Prop where
  access : r.Gives c.access
  fields : List.Forall₂ (fun f member => f.name = member.name ∧ member.Gives f.access)
    c.fields r.fields
  methods : List.Forall₂ (fun m member => m.name = member.name ∧ member.Gives m.access)
    c.methods r.methods

/-- A class file has the flags that its bytes say, with those of its members. -/
theorem ClassFile.read_mirrored : Mirrored Adjusts ClassFile.read RawClass.read := by
  refine .after fun number => ?_
  split
  · rintro bytes c rest ⟨⟩
  refine .after fun minor => .after fun major => .after fun pool => .after fun access => ?_
  refine .after fun thisClass => .after fun superClass => .after fun interfaces => ?_
  refine (FieldInfo.read_mirrored pool).readCounted.bind fun fields rawFields hFields => ?_
  refine (MethodInfo.read_mirrored pool).readCounted.bind fun methods rawMethods hMethods => ?_
  refine (Attributes.read_mirrored (ClassAttributes.marks pool) {}).bind fun a names h => ?_
  exact .pure ⟨CommonAttributes.adjust_gives (by simpa using h) access, hFields, hMethods⟩

end ClassSketch
