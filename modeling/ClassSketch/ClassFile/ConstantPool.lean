import ClassSketch.ClassFile.ModifiedUtf8
import ClassSketch.ClassFile.Reader
import ClassSketch.Decimal.Binary

/-!
# The constant pool

Constants are numbered from one. A constant of eight bytes takes two numbers, and the second of them
names nothing.

## Main definitions

* `Constant`: the value of a loadable constant
* `PoolSlot`, `ConstantPool`: what a number names, and the whole pool
* `ConstantPool.read`: reading the pool
* `ConstantPool.utf8`, `ConstantPool.className`, `ConstantPool.constant`: looking a number up
-/

namespace ClassSketch

/-- The value of a loadable constant. -/
inductive Constant where
  | int (value : Int32)
  | long (value : Int64)
  | float (value : Binary32)
  | double (value : Binary64)
  | string (value : String)
  deriving Repr, DecidableEq, BEq, Inhabited

/-- What a number of the constant pool names. -/
inductive PoolSlot where
  | utf8 (value : String)
  | int (value : Int32)
  | float (value : Binary32)
  | long (value : Int64)
  | double (value : Binary64)
  | classRef (nameIndex : UInt16)
  | stringRef (textIndex : UInt16)
  /-- A constant that no declaration needs. -/
  | other
  | unusable
  deriving Repr, DecidableEq, BEq, Inhabited

/-- Whether a constant takes two numbers. -/
def PoolSlot.isWide : PoolSlot → Bool
  | long _ | double _ => true
  | _ => false

/-- A constant pool, as the list of what the numbers from zero on name. -/
structure ConstantPool where
  slots : List PoolSlot
  deriving Repr, DecidableEq, BEq

namespace ConstantPool

/-- Reads a string constant after its tag. -/
def readUtf8 : Reader PoolSlot := do
  let length ← Reader.u2
  match ModifiedUtf8.decode? (← Reader.bytes length.toNat) with
  | some s => return .utf8 (String.ofList s)
  | none => throw .invalidUtf8

/-- Reads past a constant of `n` bytes. -/
def skipOther (n : Nat) : Reader PoolSlot := do
  let _ ← Reader.bytes n
  return .other

/-- Reads one constant. -/
def readConstant : Reader PoolSlot := do
  let tag ← Reader.u1
  match tag.toNat with
  | 1 => readUtf8
  | 3 => return .int (← Reader.u4).toInt32
  | 4 => return .float ⟨← Reader.u4⟩
  | 5 => return .long (← Reader.u8).toInt64
  | 6 => return .double ⟨← Reader.u8⟩
  | 7 => return .classRef (← Reader.u2)
  | 8 => return .stringRef (← Reader.u2)
  | 9 | 10 | 11 | 12 | 17 | 18 => skipOther 4
  | 15 => skipOther 3
  | 16 | 19 | 20 => skipOther 2
  | _ => throw (.unsupportedConstant tag)

/-- Reads constants for `n` numbers. A constant of eight bytes may take one number more. -/
def readSlots : Nat → Reader (List PoolSlot)
  | 0 => pure []
  | n + 1 => do
    let constant ← readConstant
    if constant.isWide then
      match n with
      | 0 => return [constant, .unusable]
      | n + 1 => return constant :: .unusable :: (← readSlots n)
    else return constant :: (← readSlots n)

/-- Reads the pool. -/
def read : Reader ConstantPool := do
  let count ← Reader.u2
  return ⟨.unusable :: (← readSlots (count.toNat - 1))⟩

/-- What a number names. -/
def slot (pool : ConstantPool) (index : UInt16) : Except ClassFile.Error PoolSlot :=
  match pool.slots[index.toNat]? with
  | some s => .ok s
  | none => .error (.invalidIndex index)

/-- The string with the given number. -/
def utf8 (pool : ConstantPool) (index : UInt16) : Except ClassFile.Error String := do
  match ← pool.slot index with
  | .utf8 value => return value
  | _ => throw (.invalidIndex index)

/-- The string with the given number, where zero names none. -/
def utf8? (pool : ConstantPool) (index : UInt16) : Except ClassFile.Error (Option String) :=
  if index = 0 then .ok none else (pool.utf8 index).map some

/-- The name of the class with the given number. -/
def className (pool : ConstantPool) (index : UInt16) : Except ClassFile.Error String := do
  match ← pool.slot index with
  | .classRef nameIndex => pool.utf8 nameIndex
  | _ => throw (.invalidIndex index)

/-- The name of the class with the given number, where zero names none. -/
def className? (pool : ConstantPool) (index : UInt16) : Except ClassFile.Error (Option String) :=
  if index = 0 then .ok none else (pool.className index).map some

/-- The loadable constant with the given number. -/
def constant (pool : ConstantPool) (index : UInt16) : Except ClassFile.Error Constant := do
  match ← pool.slot index with
  | .int value => return .int value
  | .float value => return .float value
  | .long value => return .long value
  | .double value => return .double value
  | .stringRef textIndex => return .string (← pool.utf8 textIndex)
  | .utf8 value => return .string value
  | _ => throw (.invalidIndex index)

end ConstantPool

end ClassSketch
