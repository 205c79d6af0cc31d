import ClassSketch.ClassFile.Reader
import ClassSketch.ClassFile.ConstantPool

/-!
# Attribute tables

Every attribute carries its name and length. One that is not understood is skipped; one that is
understood has to be read to its end.

## Main definitions

* `Attributes.Meaning`: which attributes are understood and what they add
* `Attributes.read`: reading a table
-/

namespace ClassSketch

namespace Attributes

/-- What the attributes that are understood add to what is known of their owner. -/
abbrev Meaning (α : Type) := String → Option (α → Reader α)

/-- Reads one attribute. -/
def readOne {α : Type} (pool : ConstantPool) (meaning : Meaning α) (known : α) : Reader α := do
  let name ← pool.utf8 (← Reader.u2)
  let length ← Reader.u4
  let body ← Reader.bytes length.toNat
  match meaning name with
  | none => return known
  | some step => do
    let (known, rest) ← Reader.within body (step known)
    if rest.isEmpty then return known else throw (.attributeLength name)

/-- Reads `n` attributes. -/
def readMany {α : Type} (pool : ConstantPool) (meaning : Meaning α) : Nat → α → Reader α
  | 0, known => pure known
  | n + 1, known => do readMany pool meaning n (← readOne pool meaning known)

/-- Reads an attribute table. -/
def read {α : Type} (pool : ConstantPool) (meaning : Meaning α) (initial : α) : Reader α := do
  let count ← Reader.u2
  readMany pool meaning count.toNat initial

end Attributes

end ClassSketch
