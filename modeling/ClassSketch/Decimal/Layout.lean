import ClassSketch.Decimal.Shortest

/-!
# Decimal text of floating point constants

Constants are written with the shortest digits that read back. Numbers of moderate size are written
positionally with at least one digit after the point, the others with a power of ten.

## Main definitions

* `NumberLayout`: which powers of ten are written positionally
* `Binary32.layout`, `Binary64.layout`: the choice for each width
* `Binary32.text?`, `Binary64.text?`: the text of a finite constant
-/

namespace ClassSketch

/-- The powers of ten of the leading digit for which a number is written positionally. -/
structure NumberLayout where
  least : Int
  greatest : Int

namespace NumberLayout

/-- Digits with a point after `before` of them. -/
def pointed (before : Nat) (digits : List Char) : List Char :=
  digits.take before ++ '.' :: digits.drop before

/-- The text of a positive decimal. -/
def render (layout : NumberLayout) (d : Decimal) : List Char :=
  let digits := Nat.toDigits 10 d.digits
  let power := d.exponent + (digits.length - 1 : Nat)
  if layout.least ≤ power ∧ power ≤ layout.greatest then
    if 0 ≤ d.exponent then digits ++ List.replicate d.exponent.toNat '0' ++ ['.', '0']
    else if 0 ≤ power then pointed (power.toNat + 1) digits
    else '0' :: '.' :: List.replicate ((-power).toNat - 1) '0' ++ digits
  else
    let head := if digits.length = 1 then digits else pointed 1 digits
    let sign := if power < 0 then '-' else '+'
    head ++ 'e' :: sign :: Nat.toDigits 10 power.natAbs

/-- The text of a finite number, if it is one. -/
def text? (layout : NumberLayout) (f : FloatFormat) : FloatValue → Option String
  | .finite negative m q =>
    let magnitude := if m = 0 then ['0', '.', '0'] else layout.render (f.shortest m q)
    some (String.ofList (if negative then '-' :: magnitude else magnitude))
  | _ => none

end NumberLayout

/-- Constants of four bytes are written positionally from a millionth up to thirteen digits. -/
def Binary32.layout : NumberLayout := ⟨-6, 12⟩

/-- Constants of eight bytes are written positionally from a hundred-thousandth up to sixteen
digits. -/
def Binary64.layout : NumberLayout := ⟨-5, 15⟩

/-- The decimal text of the constant, unless it is infinite or no number. -/
def Binary32.text? (x : Binary32) : Option String :=
  Binary32.layout.text? FloatFormat.binary32 x.value

/-- The decimal text of the constant, unless it is infinite or no number. -/
def Binary64.text? (x : Binary64) : Option String :=
  Binary64.layout.text? FloatFormat.binary64 x.value

end ClassSketch
