import ClassSketch.ClassFile.ConstantPool
import ClassSketch.Proofs.ClassFile.ModifiedUtf8
import ClassSketch.Proofs.ClassFile.Reader
import Mathlib.Data.List.Basic

/-!
# Constants and their numbers

A pool lists its constants one after another, of whatever kind and in whatever order. The numbers
run on through them from one, and a long or a double takes two, of which the second names nothing.
Reading keeps to this: the number of a constant is one more than the numbers taken before it.

A class or a string refers to its text by number, and nothing keeps that number from naming nothing,
or something that is no text. Looking the class up then fails with the number that is wrong, which
is that of the text and not that of the class.

## Main definitions

* `StoredText`, `OtherConstant`, `StoredConstant` — what a pool lists
* `PoolLayout` — constants that are few enough for their numbers
* `StoredConstant.Numbered`, `StoredConstant.Unnumbered` — what a number names, or that it names
  nothing
* `StoredConstant.Indexed` — how a table answers for constants

## Main results

* `StoredConstant.readConstant_bytes` — a constant is read back
* `StoredConstant.numbered_or_unnumbered` — a number names a constant or nothing
* `PoolLayout.read_indexed` — a pool is read to its end, and its numbers name its constants
-/

namespace ClassSketch

open Reader

/-! ### What a pool lists -/

/-- Bytes that are read as a text, and are few enough for their number to be written. -/
structure StoredText where
  bytes : List UInt8
  text : List Char
  decodes : ModifiedUtf8.decode? bytes = some text
  fits : bytes.length ≤ 65535

/-- The tags of the constants that no declaration needs, each with the number of bytes after it. -/
def OtherConstant.sizes : List (ℕ × ℕ) :=
  [(9, 4), (10, 4), (11, 4), (12, 4), (15, 3), (16, 2), (17, 4), (18, 4), (19, 2), (20, 2)]

/-- A constant that no declaration needs. -/
structure OtherConstant where
  tag : ℕ
  body : List UInt8
  known : (tag, body.length) ∈ OtherConstant.sizes

/-- A constant as it is listed. A class and a string refer to their text by number. -/
inductive StoredConstant where
  | utf8 (text : StoredText)
  | int (value : Int32)
  | float (value : Binary32)
  | long (value : Int64)
  | double (value : Binary64)
  | classRef (nameIndex : UInt16)
  | stringRef (textIndex : UInt16)
  | other (constant : OtherConstant)

namespace StoredConstant

/-- What the first number of a constant names. -/
def slot : StoredConstant → PoolSlot
  | utf8 text => .utf8 (String.ofList text.text)
  | int value => .int value
  | float value => .float value
  | long value => .long value
  | double value => .double value
  | classRef nameIndex => .classRef nameIndex
  | stringRef textIndex => .stringRef textIndex
  | other _ => .other

/-- How many numbers a constant takes. -/
def width : StoredConstant → ℕ
  | long _ | double _ => 2
  | _ => 1

/-- What the numbers of a constant name. -/
def slots (c : StoredConstant) : List PoolSlot :=
  if c.width = 2 then [c.slot, .unusable] else [c.slot]

/-- The tag of a constant. -/
def tag : StoredConstant → ℕ
  | utf8 _ => 1
  | int _ => 3
  | float _ => 4
  | long _ => 5
  | double _ => 6
  | classRef _ => 7
  | stringRef _ => 8
  | other constant => constant.tag

/-- The bytes of a constant after its tag. -/
def body : StoredConstant → List UInt8
  | utf8 text => toBigEndian 2 text.bytes.length ++ text.bytes
  | int value => toBigEndian 4 value.toUInt32.toNat
  | float value => toBigEndian 4 value.bits.toNat
  | long value => toBigEndian 8 value.toUInt64.toNat
  | double value => toBigEndian 8 value.bits.toNat
  | classRef nameIndex => toBigEndian 2 nameIndex.toNat
  | stringRef textIndex => toBigEndian 2 textIndex.toNat
  | other constant => constant.body

/-- The bytes of a constant. -/
def bytes (c : StoredConstant) : List UInt8 := toBigEndian 1 c.tag ++ c.body

/-- How many numbers the constants of a list take. -/
def slotCount (constants : List StoredConstant) : ℕ := (constants.map width).sum

variable {c : StoredConstant} {constants before after : List StoredConstant}

theorem width_eq_one_or_two (c : StoredConstant) : c.width = 1 ∨ c.width = 2 := by
  cases c <;> simp [width]

/-- A constant takes as many slots as it is wide. -/
theorem length_slots (c : StoredConstant) : c.slots.length = c.width := by
  cases c <;> rfl

theorem isWide_slot (c : StoredConstant) : c.slot.isWide = decide (c.width = 2) := by
  cases c <;> rfl

@[simp] theorem slotCount_nil : slotCount [] = 0 := rfl

@[simp] theorem slotCount_cons (c : StoredConstant) (constants : List StoredConstant) :
    slotCount (c :: constants) = c.width + slotCount constants :=
  List.sum_cons

@[simp] theorem slotCount_append (before after : List StoredConstant) :
    slotCount (before ++ after) = slotCount before + slotCount after := by
  simp [slotCount]

theorem length_flatMap_slots (constants : List StoredConstant) :
    (constants.flatMap slots).length = slotCount constants := by
  induction constants with
  | nil => rfl
  | cons c constants ih =>
    rw [List.flatMap_cons, List.length_append, length_slots, ih, slotCount_cons]

/-! ### Reading -/

theorem tag_lt (c : StoredConstant) : c.tag < 256 ^ 1 := by
  cases c with
  | other constant =>
    have hKnown : ∀ size ∈ OtherConstant.sizes, size.1 < 256 ^ 1 := by decide
    exact hKnown _ constant.known
  | _ => simp [tag]

end StoredConstant

/-- The bytes of a text are read as the text they stand for, if there is one. -/
theorem ConstantPool.readUtf8_append {bytes : List UInt8} (h : bytes.length ≤ 65535)
    (rest : List UInt8) :
    ConstantPool.readUtf8 (toBigEndian 2 bytes.length ++ (bytes ++ rest)) =
      match ModifiedUtf8.decode? bytes with
      | some s => .ok (.utf8 (String.ofList s), rest)
      | none => .error .invalidUtf8 := by
  have hNat : bytes.length.toUInt16.toNat = bytes.length := by
    simp
    omega
  rw [ConstantPool.readUtf8, Parsing.bind_of_ok (u2_toBigEndian (by omega) _), hNat,
    Parsing.bind_of_ok (bytes_append bytes rest)]
  cases ModifiedUtf8.decode? bytes <;> rfl

theorem ConstantPool.skipOther_append (body rest : List UInt8) :
    ConstantPool.skipOther body.length (body ++ rest) = .ok (.other, rest) := by
  rw [ConstantPool.skipOther, Parsing.bind_of_ok (bytes_append body rest)]
  rfl

namespace StoredConstant

variable {c : StoredConstant} {constants before after : List StoredConstant}

/-- A constant is read back, and nothing after it is touched. -/
theorem readConstant_bytes (c : StoredConstant) (rest : List UInt8) :
    ConstantPool.readConstant (c.bytes ++ rest) = .ok (c.slot, rest) := by
  rw [bytes, List.append_assoc, ConstantPool.readConstant,
    Parsing.bind_of_ok (u1_toBigEndian c.tag_lt _)]
  cases c with
  | utf8 text =>
    have hRead := ConstantPool.readUtf8_append text.fits rest
    rw [text.decodes] at hRead
    rw [body, List.append_assoc]
    exact hRead
  | int value => exact Parsing.bind_of_ok (u4_toNat value.toUInt32 rest)
  | float value => exact Parsing.bind_of_ok (u4_toNat value.bits rest)
  | long value => exact Parsing.bind_of_ok (u8_toNat value.toUInt64 rest)
  | double value => exact Parsing.bind_of_ok (u8_toNat value.bits rest)
  | classRef nameIndex => exact Parsing.bind_of_ok (u2_toNat nameIndex rest)
  | stringRef textIndex => exact Parsing.bind_of_ok (u2_toNat textIndex rest)
  | other constant =>
    obtain ⟨tag, body, known⟩ := constant
    have hSkip := ConstantPool.skipOther_append body rest
    simp only [OtherConstant.sizes, List.mem_cons, List.not_mem_nil, or_false,
      Prod.mk.injEq] at known
    rcases known with ⟨rfl, hSize⟩ | ⟨rfl, hSize⟩ | ⟨rfl, hSize⟩ | ⟨rfl, hSize⟩ | ⟨rfl, hSize⟩ |
      ⟨rfl, hSize⟩ | ⟨rfl, hSize⟩ | ⟨rfl, hSize⟩ | ⟨rfl, hSize⟩ | ⟨rfl, hSize⟩ <;>
    · rw [hSize] at hSkip
      exact hSkip

/-- Constants are read back for as many numbers as they take. -/
theorem readSlots_bytes (constants : List StoredConstant) (rest : List UInt8) :
    ConstantPool.readSlots (slotCount constants) (constants.flatMap bytes ++ rest) =
      .ok (constants.flatMap slots, rest) := by
  induction constants with
  | nil => rfl
  | cons c constants ih =>
    have hOne := readConstant_bytes c (constants.flatMap bytes ++ rest)
    rw [slotCount_cons, List.flatMap_cons, List.flatMap_cons, List.append_assoc, slots]
    rcases c.width_eq_one_or_two with hWidth | hWidth
    · rw [hWidth, Nat.add_comm, ConstantPool.readSlots, Parsing.bind_of_ok hOne, isWide_slot,
        hWidth]
      simp only [Nat.reduceEqDiff, decide_false, Bool.false_eq_true, if_false]
      rw [Parsing.bind_of_ok ih, Parsing.pure_run]
      rfl
    · rw [hWidth, Nat.add_comm, ConstantPool.readSlots, Parsing.bind_of_ok hOne, isWide_slot,
        hWidth]
      simp only [decide_true, if_true]
      rw [Parsing.bind_of_ok ih, Parsing.pure_run]
      rfl

/-! ### Numbers -/

/-- The value of a constant that is loaded as it stands. -/
def value? : StoredConstant → Option Constant
  | utf8 text => some (.string (String.ofList text.text))
  | int value => some (.int value)
  | float value => some (.float value)
  | long value => some (.long value)
  | double value => some (.double value)
  | _ => none

variable {index : UInt16}

/-- A number names a constant: it is one more than the numbers taken before it. -/
def Numbered (constants : List StoredConstant) (index : UInt16) (c : StoredConstant) : Prop :=
  ∃ before after, constants = before ++ c :: after ∧ index.toNat = 1 + slotCount before

/-- A number names nothing. -/
inductive Unnumbered (constants : List StoredConstant) (index : UInt16) : Prop where
  | zero (h : index = 0)
  | second {before after : List StoredConstant} {c : StoredConstant}
      (hSplit : constants = before ++ c :: after) (hWidth : c.width = 2)
      (h : index.toNat = 2 + slotCount before)
  | beyond (h : 1 + slotCount constants ≤ index.toNat)

/-- What the numbers of constants name. -/
def table (constants : List StoredConstant) : ConstantPool :=
  ⟨.unusable :: constants.flatMap slots⟩

/-- A number of a constant leads to the slot of it. -/
theorem slot_of_numbered (h : Numbered constants index c) :
    (table constants).slot index = .ok c.slot := by
  obtain ⟨before, after, rfl, hIndex⟩ := h
  have hSlot : ((before ++ c :: after).flatMap slots)[slotCount before]? = some c.slot := by
    rw [List.flatMap_append, List.getElem?_append_right (by rw [length_flatMap_slots]),
      length_flatMap_slots, Nat.sub_self, List.flatMap_cons]
    cases c <;> rfl
  rw [ConstantPool.slot, table, hIndex, Nat.add_comm, List.getElem?_cons_succ, hSlot]

/-- A number of no constant leads to an unusable slot or to none. -/
theorem slot_of_unnumbered (h : Unnumbered constants index) :
    (table constants).slot index = .ok .unusable ∨
      (table constants).slot index = .error (.invalidIndex index) := by
  cases h with
  | zero h =>
    subst h
    exact .inl rfl
  | @second before after c hSplit hWidth h =>
    have hSlots : c.slots = [c.slot, .unusable] := if_pos hWidth
    have hSlot : ((before ++ c :: after).flatMap slots)[slotCount before + 1]? =
        some .unusable := by
      rw [List.flatMap_append,
        List.getElem?_append_right (by rw [length_flatMap_slots]; exact Nat.le_succ _),
        length_flatMap_slots, Nat.add_sub_cancel_left, List.flatMap_cons, hSlots]
      rfl
    have hNumber : 2 + slotCount before = slotCount before + 1 + 1 := by omega
    rw [ConstantPool.slot, table, hSplit, h, hNumber, List.getElem?_cons_succ, hSlot]
    exact .inl rfl
  | beyond h =>
    have hNone : (PoolSlot.unusable :: constants.flatMap slots)[index.toNat]? = none := by
      rw [List.getElem?_eq_none_iff, List.length_cons, length_flatMap_slots]
      omega
    rw [ConstantPool.slot, table, hNone]
    exact .inr rfl

/-- A number below the end falls to a constant, as its first number or as its second. -/
theorem exists_split {n : ℕ} (h : n < slotCount constants) :
    ∃ before c after, constants = before ++ c :: after ∧
      (n = slotCount before ∨ c.width = 2 ∧ n = slotCount before + 1) := by
  induction constants generalizing n with
  | nil => cases h
  | cons c constants ih =>
    have hWidth := c.width_eq_one_or_two
    rw [slotCount_cons] at h
    by_cases hFirst : n < c.width
    · refine ⟨[], c, constants, rfl, ?_⟩
      rw [slotCount_nil]
      omega
    · obtain ⟨before, d, after, rfl, hPlace⟩ := ih (n := n - c.width) (by omega)
      refine ⟨c :: before, d, after, rfl, ?_⟩
      rw [slotCount_cons]
      omega

/-- Every number is that of a constant or of none. -/
theorem numbered_or_unnumbered (constants : List StoredConstant) (index : UInt16) :
    (∃ c, Numbered constants index c) ∨ Unnumbered constants index := by
  by_cases hZero : index = 0
  · exact .inr (.zero hZero)
  by_cases hBeyond : 1 + slotCount constants ≤ index.toNat
  · exact .inr (.beyond hBeyond)
  have hPos : index.toNat ≠ 0 := fun h => hZero (UInt16.toNat_inj.mp h)
  have hBelow : index.toNat - 1 < slotCount constants := by omega
  obtain ⟨before, c, after, hSplit, hFirst | ⟨hWidth, hSecond⟩⟩ := exists_split hBelow
  · exact .inl ⟨c, before, after, hSplit, by omega⟩
  · exact .inr (.second hSplit hWidth (by omega))

/-! ### Looking numbers up -/

/-- How a table answers for constants: a number of a constant of the right kind gives the value, and
any other number is the one that is wrong. A class and a string are as good as their text. -/
structure Indexed (constants : List StoredConstant) (pool : ConstantPool) : Prop where
  slot : ∀ index c, Numbered constants index c → pool.slot index = .ok c.slot
  utf8 : ∀ index text, Numbered constants index (.utf8 text) →
    pool.utf8 index = .ok (String.ofList text.text)
  utf8_other : ∀ index c, Numbered constants index c → (∀ text, c ≠ .utf8 text) →
    pool.utf8 index = .error (.invalidIndex index)
  className : ∀ index nameIndex, Numbered constants index (.classRef nameIndex) →
    pool.className index = pool.utf8 nameIndex
  className_other : ∀ index c, Numbered constants index c → (∀ nameIndex, c ≠ .classRef nameIndex) →
    pool.className index = .error (.invalidIndex index)
  constant : ∀ index c value, Numbered constants index c → c.value? = some value →
    pool.constant index = .ok value
  constant_string : ∀ index textIndex, Numbered constants index (.stringRef textIndex) →
    pool.constant index = (pool.utf8 textIndex).map Constant.string
  constant_other : ∀ index c, Numbered constants index c → c.value? = none →
    (∀ textIndex, c ≠ .stringRef textIndex) → pool.constant index = .error (.invalidIndex index)
  unnumbered : ∀ index, Unnumbered constants index →
    pool.utf8 index = .error (.invalidIndex index) ∧
      pool.className index = .error (.invalidIndex index) ∧
      pool.constant index = .error (.invalidIndex index)

/-- What is looked up under a number is what the constant of it says. -/
theorem indexed_table (constants : List StoredConstant) : Indexed constants (table constants) := by
  constructor
  case slot => exact fun index c h => slot_of_numbered h
  case utf8 =>
    intro index text h
    rw [ConstantPool.utf8, slot_of_numbered h]
    rfl
  case utf8_other =>
    intro index c h hKind
    rw [ConstantPool.utf8, slot_of_numbered h]
    cases c with
    | utf8 text => exact absurd rfl (hKind text)
    | _ => rfl
  case className =>
    intro index nameIndex h
    rw [ConstantPool.className, slot_of_numbered h]
    rfl
  case className_other =>
    intro index c h hKind
    rw [ConstantPool.className, slot_of_numbered h]
    cases c with
    | classRef nameIndex => exact absurd rfl (hKind nameIndex)
    | _ => rfl
  case constant =>
    intro index c value h hValue
    rw [ConstantPool.constant, slot_of_numbered h]
    cases c <;> cases hValue <;> rfl
  case constant_string =>
    intro index textIndex h
    rw [ConstantPool.constant, slot_of_numbered h]
    cases hText : (table constants).utf8 textIndex <;>
      simp [slot, bind, Except.bind, hText, Except.map, pure, Except.pure]
  case constant_other =>
    intro index c h hValue hKind
    rw [ConstantPool.constant, slot_of_numbered h]
    cases c with
    | stringRef textIndex => exact absurd rfl (hKind textIndex)
    | classRef | other => rfl
    | _ => cases hValue
  case unnumbered =>
    intro index h
    rw [ConstantPool.utf8, ConstantPool.className, ConstantPool.constant]
    rcases slot_of_unnumbered h with hSlot | hSlot <;>
    · rw [hSlot]
      exact ⟨rfl, rfl, rfl⟩

end StoredConstant

/-! ### Pools -/

open StoredConstant

/-- Constants whose numbers run up to the greatest that two bytes hold. -/
structure PoolLayout where
  constants : List StoredConstant
  slotCount_le : slotCount constants ≤ 65534

namespace PoolLayout

variable {before after : List StoredConstant} {c : StoredConstant}

/-- The bytes of a pool: how many numbers there are, counting zero, and the constants. -/
def bytes (layout : PoolLayout) : List UInt8 :=
  toBigEndian 2 (1 + slotCount layout.constants) ++ layout.constants.flatMap StoredConstant.bytes

/-- A pool is read as the table of its constants. -/
theorem read_bytes (layout : PoolLayout) (rest : List UInt8) :
    ConstantPool.read (layout.bytes ++ rest) = .ok (table layout.constants, rest) := by
  have hCount := layout.slotCount_le
  have hNat : (1 + slotCount layout.constants).toUInt16.toNat - 1 =
      slotCount layout.constants := by
    simp
    omega
  rw [bytes, List.append_assoc, ConstantPool.read,
    Parsing.bind_of_ok (u2_toBigEndian (by omega) _), hNat,
    Parsing.bind_of_ok (readSlots_bytes _ _), Parsing.pure_run, table]

/-- The number of a constant is one more than the numbers taken before it. -/
theorem numbered (layout : PoolLayout) (h : layout.constants = before ++ c :: after) :
    Numbered layout.constants (1 + slotCount before).toUInt16 c := by
  have hCount := layout.slotCount_le
  have hSplit : slotCount layout.constants = slotCount before + (c.width + slotCount after) := by
    rw [h, slotCount_append, slotCount_cons]
  refine ⟨before, after, h, ?_⟩
  have hWidth := c.width_eq_one_or_two
  simp
  omega

/-- **Numbers of constants.** A pool is read to the end of its bytes and no further. Each constant
has the number after those taken before it, each number has a constant or nothing, and looking a
number up gives the value of its constant, or else the number that is wrong. -/
theorem read_indexed (layout : PoolLayout) (rest : List UInt8) :
    ∃ pool, ConstantPool.read (layout.bytes ++ rest) = .ok (pool, rest) ∧
      (∀ before c after, layout.constants = before ++ c :: after →
        Numbered layout.constants (1 + slotCount before).toUInt16 c) ∧
      (∀ index, (∃ c, Numbered layout.constants index c) ∨ Unnumbered layout.constants index) ∧
      Indexed layout.constants pool :=
  ⟨table layout.constants, layout.read_bytes rest, fun _ _ _ h => layout.numbered h,
    numbered_or_unnumbered layout.constants, indexed_table layout.constants⟩

end PoolLayout

end ClassSketch
