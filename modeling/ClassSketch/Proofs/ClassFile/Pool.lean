import ClassSketch.Proofs.ClassFile.Constants

/-!
# Writing constant pools

Constants are numbered in the order in which the pool lists them, and a long or a double takes two
numbers. A constant is known by its number in the written pool, and reading the pool gives the
table in which that number names the constant.

## Main definitions

* `PoolEntry` — a constant, which holds the text it refers to
* `PoolEntry.number` — the number of a constant in a list of constants
* `Pool` — constants that can be written: closed, few enough, with texts that are short enough
* `Pool.numbered`, `PoolEntry.poolBytes` — the pool as it is read, and its bytes
* `Pool.layout` — the constants of a pool as they are listed, with numbers for the texts

## Main results

* `Pool.utf8_number`, `Pool.className_number`, `Pool.constant_number` — looking a number up
* `Pool.read_bytes` — the pool is read back
-/

namespace ClassSketch

/-! ### Constants -/

/-- A constant of a pool. A class and a string hold their text, not its number. -/
inductive PoolEntry where
  | utf8 (value : String)
  | int (value : Int32)
  | float (value : Binary32)
  | long (value : Int64)
  | double (value : Binary64)
  | classRef (name : String)
  | stringRef (text : String)
  deriving DecidableEq

namespace PoolEntry

/-- How many numbers a constant takes. -/
def width : PoolEntry → ℕ
  | long _ | double _ => 2
  | _ => 1

/-- The constants that a constant refers to. -/
def parts : PoolEntry → List PoolEntry
  | classRef text | stringRef text => [utf8 text]
  | _ => []

/-- Whether the length of a text can be written. -/
def Fits : PoolEntry → Prop
  | utf8 value => (ModifiedUtf8.encode value.toList).length ≤ 65535
  | _ => True

instance : DecidablePred Fits
  | utf8 value => inferInstanceAs (Decidable ((ModifiedUtf8.encode value.toList).length ≤ 65535))
  | int _ | float _ | long _ | double _ | classRef _ | stringRef _ => .isTrue trivial

/-- How many numbers come before the constant in a list of constants. -/
def position : List PoolEntry → PoolEntry → ℕ
  | [], _ => 0
  | d :: entries, e => if d = e then 0 else d.width + position entries e

/-- The number of a constant in a list of constants. They are numbered from one. -/
def number (entries : List PoolEntry) (e : PoolEntry) : ℕ := 1 + position entries e

/-- How many numbers the constants of a list take. -/
def slotCount (entries : List PoolEntry) : ℕ := (entries.map width).sum

end PoolEntry

/-- The constant of a pool that holds a value. -/
def Constant.entry : Constant → PoolEntry
  | int value => .int value
  | long value => .long value
  | float value => .float value
  | double value => .double value
  | string value => .stringRef value

/-- The constant of a pool that holds a value of an annotation, where a string is a bare text. -/
def Constant.elementEntry : Constant → PoolEntry
  | string value => .utf8 value
  | value => value.entry

/-- Whether a constant is a string. -/
def Constant.isString : Constant → Bool
  | string _ => true
  | _ => false

/-! ### Pools -/

/-- Constants that can be written as a pool. -/
structure Pool where
  entries : List PoolEntry
  /-- A constant is there with those it refers to. -/
  closed : ∀ e ∈ entries, e.parts ⊆ entries
  /-- The texts are short enough. -/
  fits : ∀ e ∈ entries, e.Fits
  /-- The numbers run up to the greatest that two bytes hold. -/
  slotCount_le : PoolEntry.slotCount entries ≤ 65534

namespace PoolEntry

/-- What the first number of a constant names. -/
def slot (entries : List PoolEntry) : PoolEntry → PoolSlot
  | utf8 value => .utf8 value
  | int value => .int value
  | float value => .float value
  | long value => .long value
  | double value => .double value
  | classRef name => .classRef (number entries (utf8 name)).toUInt16
  | stringRef text => .stringRef (number entries (utf8 text)).toUInt16

/-- What the numbers of a constant name. -/
def slots (entries : List PoolEntry) (e : PoolEntry) : List PoolSlot :=
  if e.width = 2 then [e.slot entries, .unusable] else [e.slot entries]

theorem width_eq_one_or_two (e : PoolEntry) : e.width = 1 ∨ e.width = 2 := by
  cases e <;> simp [width]

/-- An entry takes as many slots as it is wide. -/
theorem length_slots (entries : List PoolEntry) (e : PoolEntry) :
    (e.slots entries).length = e.width := by
  cases e <;> rfl

/-- An entry of the pool stands in one of its slots. -/
theorem position_lt {entries : List PoolEntry} {e : PoolEntry} (h : e ∈ entries) :
    position entries e < slotCount entries := by
  induction entries with
  | nil => cases h
  | cons d entries ih =>
    have hWidth := d.width_eq_one_or_two
    rw [position, slotCount, List.map_cons, List.sum_cons]
    split
    · omega
    · next hne =>
      have := ih ((List.mem_cons.mp h).resolve_left fun h => hne h.symm)
      rw [slotCount] at this
      omega

/-- The number of a constant names it. -/
theorem getElem?_position (all : List PoolEntry) {entries : List PoolEntry} {e : PoolEntry}
    (h : e ∈ entries) :
    (entries.flatMap (slots all))[position entries e]? = some (e.slot all) := by
  induction entries with
  | nil => cases h
  | cons d entries ih =>
    rw [List.flatMap_cons, position]
    split
    · next heq =>
      subst heq
      cases d <;> rfl
    · next hne =>
      rw [List.getElem?_append_right (by rw [length_slots]; omega), length_slots,
        Nat.add_sub_cancel_left]
      exact ih ((List.mem_cons.mp h).resolve_left fun h => hne h.symm)

end PoolEntry

namespace Pool

variable (p : Pool)

/-- The pool as it is read. -/
def numbered : ConstantPool := ⟨.unusable :: p.entries.flatMap (PoolEntry.slots p.entries)⟩

variable {p : Pool}

theorem number_lt {e : PoolEntry} (h : e ∈ p.entries) : e.number p.entries < 256 ^ 2 := by
  have := PoolEntry.position_lt h
  have := p.slotCount_le
  rw [PoolEntry.number]
  omega

/-- The slot with the number of an entry holds that entry. -/
theorem slot_number {e : PoolEntry} (h : e ∈ p.entries) :
    p.numbered.slot (e.number p.entries).toUInt16 = .ok (e.slot p.entries) := by
  have hNumber : (e.number p.entries).toUInt16.toNat = 1 + PoolEntry.position p.entries e := by
    have := number_lt h
    simp [PoolEntry.number] at this ⊢
    omega
  have hSlot := PoolEntry.getElem?_position p.entries h
  rw [ConstantPool.slot, hNumber, numbered, Nat.add_comm, List.getElem?_cons_succ, hSlot]

theorem utf8_number {value : String} (h : .utf8 value ∈ p.entries) :
    p.numbered.utf8 (PoolEntry.number p.entries (.utf8 value)).toUInt16 = .ok value := by
  rw [ConstantPool.utf8, slot_number h]
  rfl

theorem className_number {name : String} (h : .classRef name ∈ p.entries) :
    p.numbered.className (PoolEntry.number p.entries (.classRef name)).toUInt16 = .ok name := by
  have hName : .utf8 name ∈ p.entries := p.closed _ h (List.mem_singleton_self _)
  rw [ConstantPool.className, slot_number h]
  exact utf8_number hName

/-- A constant is found by its number. -/
theorem constant_number {value : Constant} (h : value.entry ∈ p.entries) :
    p.numbered.constant (value.entry.number p.entries).toUInt16 = .ok value := by
  rw [ConstantPool.constant, slot_number h]
  cases value with
  | string text =>
    have hText : .utf8 text ∈ p.entries := p.closed _ h (List.mem_singleton_self _)
    change (do return Constant.string (← p.numbered.utf8 _)) = _
    rw [utf8_number hText]
    rfl
  | _ => rfl

/-- No constant has the number zero, which stands for a missing one. -/
theorem number_ne_zero {e : PoolEntry} (h : e ∈ p.entries) :
    (e.number p.entries).toUInt16 ≠ 0 := by
  intro hZero
  have hNat := congrArg UInt16.toNat hZero
  have := number_lt h
  simp [PoolEntry.number] at this hNat
  omega

end Pool

/-! ### Writing a pool -/

namespace PoolEntry

/-- The tag of a constant. -/
def tag : PoolEntry → ℕ
  | utf8 _ => 1
  | int _ => 3
  | float _ => 4
  | long _ => 5
  | double _ => 6
  | classRef _ => 7
  | stringRef _ => 8

/-- The bytes of a constant after its tag: its value, or the number of its text. -/
def body (entries : List PoolEntry) : PoolEntry → List UInt8
  | utf8 value =>
    let text := ModifiedUtf8.encode value.toList
    Reader.toBigEndian 2 text.length ++ text
  | int value => Reader.toBigEndian 4 value.toUInt32.toNat
  | float value => Reader.toBigEndian 4 value.bits.toNat
  | long value => Reader.toBigEndian 8 value.toUInt64.toNat
  | double value => Reader.toBigEndian 8 value.bits.toNat
  | classRef name => Reader.toBigEndian 2 (number entries (utf8 name))
  | stringRef text => Reader.toBigEndian 2 (number entries (utf8 text))

/-- The bytes of a constant. -/
def bytes (entries : List PoolEntry) (e : PoolEntry) : List UInt8 :=
  Reader.toBigEndian 1 e.tag ++ e.body entries

/-- The bytes of a pool: how many numbers there are, counting zero, and the constants. -/
def poolBytes (entries : List PoolEntry) : List UInt8 :=
  Reader.toBigEndian 2 (1 + slotCount entries) ++ entries.flatMap (bytes entries)

end PoolEntry

/-! ### Reading a pool -/

namespace Pool

/-- A constant of a pool as it is listed. -/
def stored (p : Pool) : (e : PoolEntry) → e ∈ p.entries → StoredConstant
  | .utf8 value, h => .utf8
    { bytes := ModifiedUtf8.encode value.toList
      text := value.toList
      decodes := ModifiedUtf8.decode?_encode _
      fits := p.fits _ h }
  | .int value, _ => .int value
  | .float value, _ => .float value
  | .long value, _ => .long value
  | .double value, _ => .double value
  | .classRef name, _ => .classRef (PoolEntry.number p.entries (.utf8 name)).toUInt16
  | .stringRef text, _ => .stringRef (PoolEntry.number p.entries (.utf8 text)).toUInt16

variable {p : Pool}

theorem width_stored {e : PoolEntry} (h : e ∈ p.entries) : (p.stored e h).width = e.width := by
  cases e <;> rfl

/-- An entry, stored by numbers, fills the slots that it should. -/
theorem slots_stored {e : PoolEntry} (h : e ∈ p.entries) :
    (p.stored e h).slots = e.slots p.entries := by
  cases e with
  | utf8 value => exact congrArg (fun text => [PoolSlot.utf8 text]) String.ofList_toList
  | _ => rfl

/-- The number of a text is written as it is, since two bytes hold it. -/
theorem bytes_stored {e : PoolEntry} (h : e ∈ p.entries) :
    (p.stored e h).bytes = e.bytes p.entries := by
  have hNumber {text : String} (hText : .utf8 text ∈ p.entries) :
      (PoolEntry.number p.entries (.utf8 text)).toUInt16.toNat =
        PoolEntry.number p.entries (.utf8 text) :=
    Nat.mod_eq_of_lt (number_lt hText)
  have hParts := p.closed e h
  cases e with
  | classRef text | stringRef text =>
    rw [stored, StoredConstant.bytes, StoredConstant.body,
      hNumber (hParts (List.mem_singleton_self _))]
    rfl
  | _ => rfl

/-- What is said of stored entries is said of the entries, in the same order. -/
theorem map_stored {α : Type} {f : StoredConstant → α} {g : PoolEntry → α}
    (h : ∀ e he, f (p.stored e he) = g e) :
    (p.entries.pmap p.stored fun _ he => he).map f = p.entries.map g := by
  rw [List.map_pmap, ← List.pmap_eq_map fun _ he => he]
  exact List.pmap_congr_left _ fun e he _ _ => h e he

/-- The constants of a pool in the order in which they are listed. -/
def layout (p : Pool) : PoolLayout where
  constants := p.entries.pmap p.stored fun _ he => he
  slotCount_le := by
    rw [StoredConstant.slotCount, map_stored fun _ => width_stored]
    exact p.slotCount_le

theorem slotCount_layout : StoredConstant.slotCount p.layout.constants =
    PoolEntry.slotCount p.entries :=
  congrArg List.sum (map_stored fun _ => width_stored)

/-- A pool is read back from its bytes. -/
theorem read_bytes (rest : List UInt8) :
    ConstantPool.read (PoolEntry.poolBytes p.entries ++ rest) = .ok (p.numbered, rest) := by
  have hBytes : p.layout.bytes = PoolEntry.poolBytes p.entries := by
    rw [PoolLayout.bytes, slotCount_layout, PoolEntry.poolBytes, List.flatMap_def, List.flatMap_def,
      layout, map_stored fun _ => bytes_stored]
  have hSlots : StoredConstant.table p.layout.constants = p.numbered := by
    rw [StoredConstant.table, numbered, List.flatMap_def, List.flatMap_def, layout,
      map_stored fun _ => slots_stored]
  rw [← hBytes, ← hSlots]
  exact p.layout.read_bytes rest

end Pool

end ClassSketch
