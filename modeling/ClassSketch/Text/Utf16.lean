import ClassSketch.Text.Utf8

/-!
# UTF-16 units

A character outside the basic plane is written as a high surrogate unit followed by a low one.
A surrogate unit without its partner is no character; `decodeUtf16` refuses such a sequence.

## Main definitions

* `Text.units`: the units of a character
* `Text.isHighUnit`, `Text.isLowUnit`, `Text.pairChar`: surrogates and their combination
* `Text.decodeUtf16`: the text with the given units, if every surrogate is paired
-/

namespace ClassSketch

namespace Text

/-- The UTF-16 units of a character. -/
def units (c : Char) : List UInt16 :=
  let n := c.toNat
  if n < 0x10000 then [n.toUInt16]
  else [(0xD800 + (n - 0x10000) / 0x400).toUInt16, (0xDC00 + (n - 0x10000) % 0x400).toUInt16]

/-- Whether a unit is the first of a surrogate pair. -/
def isHighUnit (u : UInt16) : Bool := 0xD800 ≤ u && u ≤ 0xDBFF

/-- Whether a unit is the second of a surrogate pair. -/
def isLowUnit (u : UInt16) : Bool := 0xDC00 ≤ u && u ≤ 0xDFFF

/-- The character of a surrogate pair. -/
def pairChar (high low : UInt16) : Char :=
  Char.ofNat (0x10000 + (high.toNat - 0xD800) * 0x400 + (low.toNat - 0xDC00))

/-- The character of a unit that is no surrogate. -/
def unitChar (u : UInt16) : Char := Char.ofNat u.toNat

/-- The text with the given units, if every surrogate is paired. -/
def decodeUtf16 : List UInt16 → Option (List Char)
  | [] => some []
  | u :: us =>
    if isHighUnit u then
      match us with
      | v :: us => if isLowUnit v then (decodeUtf16 us).map (pairChar u v :: ·) else none
      | [] => none
    else if isLowUnit u then none
    else (decodeUtf16 us).map (unitChar u :: ·)

end Text

end ClassSketch
