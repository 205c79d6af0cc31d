/-!
# Hexadecimal digits

## Main definitions

* `Text.hexValue?`: the value of a digit
* `Text.hexUnit?`: the UTF-16 unit written with four digits
* `Text.hexDigit`: the digit of a value
-/

namespace ClassSketch

namespace Text

/-- The value of a hexadecimal digit of either case. -/
def hexValue? (c : Char) : Option Nat :=
  if '0' ≤ c ∧ c ≤ '9' then some (c.toNat - '0'.toNat)
  else if 'a' ≤ c ∧ c ≤ 'f' then some (c.toNat - 'a'.toNat + 10)
  else if 'A' ≤ c ∧ c ≤ 'F' then some (c.toNat - 'A'.toNat + 10)
  else none

/-- The unit written with four hexadecimal digits. -/
def hexUnit? (a b c d : Char) : Option UInt16 := do
  return ((← hexValue? a) * 4096 + (← hexValue? b) * 256 + (← hexValue? c) * 16 +
    (← hexValue? d)).toUInt16

/-- The last hexadecimal digit of a number, in lower case. -/
def hexDigit (n : Nat) : Char := (n % 16).digitChar

end Text

end ClassSketch
