import ClassSketch.ClassFile.Error

/-!
# Reading big-endian bytes

A reader takes bytes off the front of a list and gives a value and the bytes that are left. Reading
past the end is the error `unexpectedEnd`.

## Main definitions

* `Reader`: the readers
* `Reader.bytes`, `Reader.u1`, `Reader.u2`, `Reader.u4`, `Reader.u8`: bytes and numbers
* `Reader.times`: a reader repeated a given number of times
* `Reader.within`: a reader run on bytes of its own
-/

namespace ClassSketch

/-- A computation that takes bytes off the front of its input. -/
abbrev Reader := StateT (List UInt8) (Except ClassFile.Error)

namespace Reader

/-- The first `n` bytes and the others, if there are as many. -/
def split? : Nat → List UInt8 → Option (List UInt8 × List UInt8)
  | 0, s => some ([], s)
  | _ + 1, [] => none
  | n + 1, b :: s => (split? n s).map fun (first, rest) => (b :: first, rest)

/-- Reads `n` bytes. -/
def bytes (n : Nat) : Reader (List UInt8) := fun s =>
  match split? n s with
  | some parts => .ok parts
  | none => .error .unexpectedEnd

/-- The number with the given bytes, the most significant one first. -/
def bigEndian (bytes : List UInt8) : Nat := bytes.foldl (fun n b => n * 256 + b.toNat) 0

/-- Reads a number of one byte. -/
def u1 : Reader UInt8 := return (bigEndian (← bytes 1)).toUInt8

/-- Reads a number of two bytes. -/
def u2 : Reader UInt16 := return (bigEndian (← bytes 2)).toUInt16

/-- Reads a number of four bytes. -/
def u4 : Reader UInt32 := return (bigEndian (← bytes 4)).toUInt32

/-- Reads a number of eight bytes. -/
def u8 : Reader UInt64 := return (bigEndian (← bytes 8)).toUInt64

/-- Reads `n` values one after the other. -/
def times {α : Type} (read : Reader α) : Nat → Reader (List α)
  | 0 => pure []
  | n + 1 => do
    let x ← read
    return x :: (← times read n)

/-- Reads a value from the given bytes and gives it with the bytes left of them; the input stays as
it is. -/
def within {α : Type} (body : List UInt8) (read : Reader α) : Reader (α × List UInt8) := fun s =>
  (read.run body).map fun result => (result, s)

end Reader

end ClassSketch
