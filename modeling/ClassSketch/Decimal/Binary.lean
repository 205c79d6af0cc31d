/-!
# Binary interchange formats

A floating point constant is kept as its bits. This file says which number the bits stand for and
which bits stand nearest to a given quotient; both are exact, in natural numbers.

## Main definitions

* `FloatFormat`, `FloatFormat.binary32`, `FloatFormat.binary64`: the widths of the fields
* `FloatFormat.decode`: the number that bits stand for
* `FloatFormat.nearest`: the bits nearest to a quotient, ties to the even mantissa
* `Binary32`, `Binary64`: constants of the two widths
-/

namespace ClassSketch

/-- The widths of the fields of a binary interchange format. -/
structure FloatFormat where
  /-- Stored bits of the mantissa. -/
  fractionBits : Nat
  /-- Bits of the biased exponent. -/
  exponentBits : Nat

/-- What the bits of a floating point constant stand for. -/
inductive FloatValue where
  /-- The number `mantissa * 2 ^ scale`, with its sign. -/
  | finite (negative : Bool) (mantissa : Nat) (scale : Int)
  | infinite (negative : Bool)
  | nan
  deriving Repr, DecidableEq

namespace FloatFormat

/-- The format of four bytes. -/
def binary32 : FloatFormat := ⟨23, 8⟩

/-- The format of eight bytes. -/
def binary64 : FloatFormat := ⟨52, 11⟩

/-- The exponent of the unit in which the smallest numbers of the format are counted. -/
def leastScale (f : FloatFormat) : Int := 2 - Nat.pow 2 (f.exponentBits - 1) - f.fractionBits

/-- The bits of positive infinity. -/
def infinityBits (f : FloatFormat) : Nat :=
  (Nat.pow 2 f.exponentBits - 1) * Nat.pow 2 f.fractionBits

/-- The bit that holds the sign. -/
def signBit (f : FloatFormat) : Nat := Nat.pow 2 (f.exponentBits + f.fractionBits)

/-- The number that `bits` stand for. -/
def decode (f : FloatFormat) (bits : Nat) : FloatValue :=
  let fraction := bits % Nat.pow 2 f.fractionBits
  let exponent := bits / Nat.pow 2 f.fractionBits % Nat.pow 2 f.exponentBits
  let negative := bits / f.signBit % 2 == 1
  if exponent = Nat.pow 2 f.exponentBits - 1 then
    if fraction = 0 then .infinite negative else .nan
  else if exponent = 0 then .finite negative fraction f.leastScale
  else .finite negative (fraction + Nat.pow 2 f.fractionBits) (f.leastScale + exponent - 1)

/-- The quotient rounded to the nearest integer, a half going to the even neighbour. -/
def divRound (num den : Nat) : Nat :=
  let low := num / den
  let twice := 2 * (num % den)
  if twice < den then low
  else if den < twice then low + 1
  else low + low % 2

/-- The greatest `e` with `2 ^ e ≤ num / den`, for a positive quotient. -/
def floorLog2 (num den : Nat) : Int :=
  let e : Int := (num.log2 : Int) - den.log2
  if den * Nat.pow 2 e.toNat ≤ num * Nat.pow 2 (-e).toNat then e else e - 1

/-- The bits of the number nearest to `num / den`, without a sign; a quotient too large for the
format gives infinity. -/
def nearest (f : FloatFormat) (num den : Nat) : Nat :=
  if num = 0 then 0
  else
    let scale := max f.leastScale (floorLog2 num den - f.fractionBits)
    let mantissa := divRound (num * Nat.pow 2 (-scale).toNat) (den * Nat.pow 2 scale.toNat)
    min f.infinityBits ((scale - f.leastScale).toNat * Nat.pow 2 f.fractionBits + mantissa)

/-- The bits with the sign put in. -/
def signed (f : FloatFormat) (negative : Bool) (bits : Nat) : Nat :=
  if negative then f.signBit + bits else bits

end FloatFormat

/-- A floating point constant of four bytes. -/
structure Binary32 where
  bits : UInt32
  deriving Repr, DecidableEq, BEq, Inhabited

/-- A floating point constant of eight bytes. -/
structure Binary64 where
  bits : UInt64
  deriving Repr, DecidableEq, BEq, Inhabited

namespace Binary32

/-- The number the constant stands for. -/
def value (x : Binary32) : FloatValue := FloatFormat.binary32.decode x.bits.toNat

/-- The constant nearest to a quotient. -/
def ofRatio (negative : Bool) (num den : Nat) : Binary32 :=
  ⟨(FloatFormat.binary32.signed negative (FloatFormat.binary32.nearest num den)).toUInt32⟩

end Binary32

namespace Binary64

/-- The number the constant stands for. -/
def value (x : Binary64) : FloatValue := FloatFormat.binary64.decode x.bits.toNat

/-- The constant nearest to a quotient. -/
def ofRatio (negative : Bool) (num den : Nat) : Binary64 :=
  ⟨(FloatFormat.binary64.signed negative (FloatFormat.binary64.nearest num den)).toUInt64⟩

/-- Whether the constant is an infinity. -/
def isInfinite (x : Binary64) : Bool :=
  match x.value with
  | .infinite _ => true
  | _ => false

/-- The nearest constant of four bytes. -/
def toBinary32 (x : Binary64) : Binary32 :=
  match x.value with
  | .finite negative m q => .ofRatio negative (m * Nat.pow 2 q.toNat) (Nat.pow 2 (-q).toNat)
  | .infinite negative =>
    ⟨(FloatFormat.binary32.signed negative FloatFormat.binary32.infinityBits).toUInt32⟩
  | .nan => ⟨0x7FC00000⟩

end Binary64

end ClassSketch
