import ClassSketch.ClassFile.Error
import ClassSketch.Text.Utf16

/-!
# Modified UTF-8

Strings of a class file are groups of one, two or three bytes, one group for each UTF-16 unit. The
unit zero takes two bytes, and a character outside the basic plane is a surrogate pair of two groups
of three bytes. Strings in plain UTF-8 are accepted as well and tried first.

## Main definitions

* `ModifiedUtf8.groupUnits?`: the units of a sequence of groups
* `ModifiedUtf8.decode?`: the string with the given bytes
-/

namespace ClassSketch

namespace ModifiedUtf8

/-- The units of a sequence of groups. Only the first byte of a group is looked at to find its
length, and of the others the last six bits are taken. -/
def groupUnits? : List UInt8 → Option (List UInt16)
  | [] => some []
  | a :: s =>
    if a < 0x80 then (groupUnits? s).map (a.toUInt16 :: ·)
    else if a < 0xC0 then none
    else if a < 0xE0 then
      match s with
      | b :: s => (groupUnits? s).map ((a.toNat % 32 * 64 + Text.tailBits b).toUInt16 :: ·)
      | [] => none
    else if a < 0xF0 then
      match s with
      | b :: c :: s =>
        (groupUnits? s).map
          ((a.toNat % 16 * 4096 + Text.tailBits b * 64 + Text.tailBits c).toUInt16 :: ·)
      | _ => none
    else none

/-- The string with the given bytes. -/
def decode? (bytes : List UInt8) : Option (List Char) :=
  match Text.decodeUtf8 bytes with
  | some s => some s
  | none => (groupUnits? bytes).bind Text.decodeUtf16

end ModifiedUtf8

end ClassSketch
