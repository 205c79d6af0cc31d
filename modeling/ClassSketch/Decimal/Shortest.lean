import ClassSketch.Decimal.Binary

/-!
# The shortest decimal that reads back

The numbers that round to a given floating point number form an interval, whose ends belong to it
exactly when the mantissa is even. Among the decimals inside, those with the fewest digits are
wanted, and of these the nearest to the number itself.

## Main definitions

* `Decimal`: a natural number times a power of ten
* `FloatFormat.shortest`: the shortest decimal for `m * 2 ^ q`

## Implementation notes

A grid of decimals with a fixed number of digits meets the interval only if one of the two grid
points next to the number is inside, so these two are all that is tried on each grid.
-/

namespace ClassSketch

/-- The number `digits * 10 ^ exponent`. -/
structure Decimal where
  digits : Nat
  exponent : Int
  deriving Repr, DecidableEq

namespace Decimal

/-- The number of digits of a natural number. -/
def digitCount (n : Nat) : Nat := (Nat.toDigits 10 n).length

/-- The greatest `e` with `10 ^ e ≤ num / den`, for a positive quotient. The search among negative
exponents ends after `fuel` steps. -/
def floorLog10 (num den fuel : Nat) : Int :=
  if den ≤ num then digitCount (num / den) - 1
  else
    match (List.range fuel).find? fun k => den ≤ num * Nat.pow 10 (k + 1) with
    | some k => -(k + 1 : Int)
    | none => -(fuel : Int)

/-- Moves trailing zeros of the digits into the exponent, at most `fuel` of them. -/
def dropZeros : Nat → Decimal → Decimal
  | 0, d => d
  | fuel + 1, d =>
    if d.digits ≠ 0 ∧ d.digits % 10 = 0 then dropZeros fuel ⟨d.digits / 10, d.exponent + 1⟩ else d

end Decimal

namespace FloatFormat

/-- The most digits a shortest decimal of either format needs. -/
def digitLimit : Nat := 17

/-- Above how many negative powers of ten every positive number of either format lies. -/
def powerLimit : Nat := 330

/-- The interval of the numbers that round to `m * 2 ^ q`, as three numerators over one
denominator: lower end, the number, upper end. -/
def interval (f : FloatFormat) (m : Nat) (q : Int) : Nat × Nat × Nat × Nat :=
  let up := Nat.pow 2 (q - 2).toNat
  let lowGap := if m = Nat.pow 2 f.fractionBits ∧ f.leastScale < q then 1 else 2
  ((4 * m - lowGap) * up, 4 * m * up, (4 * m + 2) * up, Nat.pow 2 (2 - q).toNat)

/-- The decimal next to the number on the grid of multiples of `10 ^ grid`, if the grid meets the
interval. -/
def onGrid (f : FloatFormat) (m : Nat) (q grid : Int) : Option Decimal :=
  let (low, num, high, den) := f.interval m q
  let scaleNum := Nat.pow 10 (-grid).toNat
  let step := den * Nat.pow 10 grid.toNat
  let below := num * scaleNum / step
  let closed := m % 2 == 0
  let belowFits := low * scaleNum < below * step || (closed && low * scaleNum == below * step)
  let above := below + 1
  let aboveFits := above * step < high * scaleNum || (closed && above * step == high * scaleNum)
  let belowGap := num * scaleNum - below * step
  let aboveGap := above * step - num * scaleNum
  if belowFits && (!aboveFits || belowGap < aboveGap || (belowGap == aboveGap && below % 2 == 0))
  then some ⟨below, grid⟩
  else if aboveFits then some ⟨above, grid⟩
  else none

/-- The shortest decimal that rounds to `m * 2 ^ q`, for positive `m`. -/
def shortest (f : FloatFormat) (m : Nat) (q : Int) : Decimal :=
  let (_, num, _, den) := f.interval m q
  let lead := Decimal.floorLog10 num den powerLimit
  let found := (List.range digitLimit).findSome? fun (n : Nat) => f.onGrid m q (lead - n)
  (found.getD ⟨m, q⟩).dropZeros digitLimit

end FloatFormat

end ClassSketch
