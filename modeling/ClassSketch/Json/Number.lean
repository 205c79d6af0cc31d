import ClassSketch.Decimal.Binary
import ClassSketch.Json.Basic

/-!
# Reading JSON numbers

An integer of 64 bits is read exactly. Any other number becomes a constant of eight bytes in two
steps, each rounded once: the leading digits that fit into 64 bits, then a multiplication with or a
division by a power of ten. The result may differ from the nearest constant in its last bits.

## Main definitions

* `Json.numeral?`: splits a number off a text
* `Json.asBinary64?`, `Json.asBinary32?`: the constants of eight and of four bytes
-/

namespace ClassSketch

namespace Binary64

/-- The absolute value of a finite constant as a quotient. -/
def magnitude (x : Binary64) : Nat × Nat :=
  match x.value with
  | .finite _ m q => (m * Nat.pow 2 q.toNat, Nat.pow 2 (-q).toNat)
  | _ => (0, 1)

/-- The rounded product of the absolute values. -/
def times (x y : Binary64) : Binary64 :=
  .ofRatio false (x.magnitude.1 * y.magnitude.1) (x.magnitude.2 * y.magnitude.2)

/-- The rounded quotient of the absolute values, for a divisor that is not zero. -/
def dividedBy (x y : Binary64) : Binary64 :=
  .ofRatio false (x.magnitude.1 * y.magnitude.2) (x.magnitude.2 * y.magnitude.1)

/-- The rounded power of ten. -/
def powerOfTen (n : Nat) : Binary64 := .ofRatio false (Nat.pow 10 n) 1

/-- The greatest power of ten that is a finite constant. -/
def greatestPower : Nat := 308

/-- The constant times a power of ten, or nothing if that is too large. Small results are reached
in at most `fuel` divisions. -/
def scaled : Nat → Binary64 → Int → Option Binary64
  | fuel, x, power =>
    if power.natAbs ≤ greatestPower then
      if 0 ≤ power then
        let y := x.times (powerOfTen power.toNat)
        if y.isInfinite then none else some y
      else some (x.dividedBy (powerOfTen power.natAbs))
    else if x.magnitude.1 = 0 then some x
    else if 0 ≤ power then none
    else
      match fuel with
      | 0 => some (.ofRatio false 0 1)
      | fuel + 1 => scaled fuel (x.dividedBy (powerOfTen greatestPower)) (power + greatestPower)

/-- The constant with a sign put before it. -/
def negatedIf (negative : Bool) (x : Binary64) : Binary64 :=
  if negative then ⟨x.bits ||| 0x8000000000000000⟩ else x

end Binary64

namespace Json

/-- The number that a digit stands for. -/
def digitValue (c : Char) : Nat := c.toNat - '0'.toNat

/-- Appends digits to a number while it fits into 64 bits, and gives the digits left over. -/
def appendDigits : Nat → List Char → Nat × List Char
  | n, [] => (n, [])
  | n, c :: digits =>
    let next := n * 10 + digitValue c
    if next < 0x10000000000000000 then appendDigits next digits else (n, c :: digits)

/-- The constant for a number with the given digits before and after the point and the given power
of ten. -/
def realValue? (negative : Bool) (whole fraction : List Char) (power : Int) : Option Binary64 :=
  let (leading, skipped) := appendDigits 0 whole
  let (significand, dropped) := appendDigits leading fraction
  let shift : Int := skipped.length - (fraction.length - dropped.length : Nat)
  (Binary64.scaled 4 (.ofRatio false significand 1) (shift + power)).map (·.negatedIf negative)

/-- The value of digits. -/
def digitsValue (digits : List Char) : Nat := digits.foldl (fun n c => n * 10 + digitValue c) 0

/-- A number as written, cut into sign, digits before the point, digits after it, and power of
ten. -/
structure Numeral where
  negative : Bool
  whole : List Char
  fraction : Option (List Char)
  power : Option Int

/-- Splits off an exponent part, if the text starts with one. -/
def exponentPart : List Char → Option (Option Int × List Char)
  | c :: s =>
    if c = 'e' ∨ c = 'E' then
      let (negative, s) := match s with
        | '-' :: s => (true, s)
        | '+' :: s => (false, s)
        | s => (false, s)
      let digits := s.takeWhile Char.isDigit
      if digits.isEmpty then none
      else
        let n : Int := digitsValue digits
        some (some (if negative then -n else n), s.dropWhile Char.isDigit)
    else some (none, c :: s)
  | [] => some (none, [])

/-- Splits off a fraction part, if the text starts with one. -/
def fractionPart : List Char → Option (Option (List Char) × List Char)
  | '.' :: s =>
    let digits := s.takeWhile Char.isDigit
    if digits.isEmpty then none else some (some digits, s.dropWhile Char.isDigit)
  | s => some (none, s)

/-- Splits off a number; leading zeros are refused. -/
def numeral? (s : List Char) : Option (Numeral × List Char) := do
  let (negative, s) := match s with
    | '-' :: s => (true, s)
    | s => (false, s)
  let whole := s.takeWhile Char.isDigit
  let s := s.dropWhile Char.isDigit
  if whole.isEmpty ∨ (whole.head? = some '0' ∧ whole.length ≠ 1) then none
  let (fraction, s) ← fractionPart s
  let (power, s) ← exponentPart s
  return (⟨negative, whole, fraction, power⟩, s)

/-- The constant that a number stands for, unless it is too large. -/
def Numeral.toBinary64? (n : Numeral) : Option Binary64 :=
  realValue? n.negative n.whole (n.fraction.getD []) (n.power.getD 0)

/-- The integer that a number stands for, if it is written as one and has 64 bits; a negative zero
is none. -/
def Numeral.toInt? (n : Numeral) : Option Int :=
  match n.fraction, n.power with
  | none, none =>
    let value := digitsValue n.whole
    if n.negative then
      if 0 < value ∧ value ≤ 0x8000000000000000 then some (-(value : Int)) else none
    else if value < 0x10000000000000000 then some value
    else none
  | _, _ => none

/-- The constant of eight bytes that a JSON number stands for. -/
def asBinary64? : Json → Option Binary64
  | int n => some (.ofRatio (n < 0) n.natAbs 1)
  | real lexeme => (numeral? lexeme.toList).bind fun (n, _) => n.toBinary64?
  | _ => none

/-- The constant of four bytes that a JSON number stands for: an integer is rounded once, any other
number by way of a constant of eight bytes. -/
def asBinary32? : Json → Option Binary32
  | int n => some (.ofRatio (n < 0) n.natAbs 1)
  | j => j.asBinary64?.map Binary64.toBinary32

end Json

end ClassSketch
