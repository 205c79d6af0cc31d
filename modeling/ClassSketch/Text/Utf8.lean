/-!
# UTF-8

Text in files is UTF-8. `decodeUtf8` accepts exactly the well-formed sequences: no overlong forms,
no surrogates, nothing above U+10FFFF. `decodeUtf8Lossy` accepts all bytes, and puts a replacement
where they are no text: one for as many of them as a character may begin with.

## Main definitions

* `Text.encodeUtf8`, `Text.decodeUtf8`: the bytes of a text and back
* `Text.decodeUtf8Lossy`: the text that is shown for bytes
* `Text.utf8Length`: how many bytes a text takes
* `Text.latin1`: the text in which every byte is the character of the same number
* `Text.leadChar`: the first byte of a character, shown as such a character
-/

namespace ClassSketch

namespace Text

/-- The bytes of a text. -/
def encodeUtf8 (s : List Char) : List UInt8 := s.flatMap String.utf8EncodeChar

/-- The number of bytes of a text. -/
def utf8Length : List Char → Nat
  | [] => 0
  | c :: s => c.utf8Size + utf8Length s

/-- Whether a byte continues a character. -/
def isTail (b : UInt8) : Bool := 0x80 ≤ b && b ≤ 0xBF

/-- The last six bits of a continuation byte. -/
def tailBits (b : UInt8) : Nat := b.toNat % 64

/-- Whether `b` may follow the first byte `a` of a three-byte character. -/
def isSecondOfThree (a b : UInt8) : Bool :=
  if a == 0xE0 then 0xA0 ≤ b && b ≤ 0xBF
  else if a == 0xED then 0x80 ≤ b && b ≤ 0x9F
  else isTail b

/-- Whether `b` may follow the first byte `a` of a four-byte character. -/
def isSecondOfFour (a b : UInt8) : Bool :=
  if a == 0xF0 then 0x90 ≤ b && b ≤ 0xBF
  else if a == 0xF4 then 0x80 ≤ b && b ≤ 0x8F
  else isTail b

/-- The text with the given bytes, if they are well-formed UTF-8. -/
def decodeUtf8 : List UInt8 → Option (List Char)
  | [] => some []
  | a :: s =>
    if a < 0x80 then (decodeUtf8 s).map (Char.ofNat a.toNat :: ·)
    else if 0xC2 ≤ a && a ≤ 0xDF then
      match s with
      | b :: s =>
        if isTail b then
          (decodeUtf8 s).map (Char.ofNat (a.toNat % 32 * 64 + tailBits b) :: ·)
        else none
      | [] => none
    else if 0xE0 ≤ a && a ≤ 0xEF then
      match s with
      | b :: c :: s =>
        if isSecondOfThree a b && isTail c then
          (decodeUtf8 s).map
            (Char.ofNat (a.toNat % 16 * 4096 + tailBits b * 64 + tailBits c) :: ·)
        else none
      | _ => none
    else if 0xF0 ≤ a && a ≤ 0xF4 then
      match s with
      | b :: c :: d :: s =>
        if isSecondOfFour a b && isTail c && isTail d then
          (decodeUtf8 s).map
            (Char.ofNat
              (a.toNat % 8 * 262144 + tailBits b * 4096 + tailBits c * 64 + tailBits d) :: ·)
        else none
      | _ => none
    else none

/-! ### Bytes that are no text -/

/-- The character that is shown for what is no text: bytes that form no character, or a surrogate
that has no partner. -/
def replacement : Char := '\uFFFD'

/-- The bytes that may follow a first byte `a`, one condition for each. -/
def followers (a : UInt8) : List (UInt8 → Bool) :=
  if 0xC2 ≤ a && a ≤ 0xDF then [isTail]
  else if 0xE0 ≤ a && a ≤ 0xEF then [isSecondOfThree a, isTail]
  else if 0xF0 ≤ a && a ≤ 0xF4 then [isSecondOfFour a, isTail, isTail]
  else []

/-- How many of the first bytes satisfy one condition after the other. -/
def countFollowing : List (UInt8 → Bool) → List UInt8 → Nat
  | p :: ps, b :: s => if p b then countFollowing ps s + 1 else 0
  | _, _ => 0

/-- The text that is shown for bytes, of which the first ones are passed over. -/
def lossyFrom : Nat → List UInt8 → List Char
  | _, [] => []
  | skipped + 1, _ :: s => lossyFrom skipped s
  | 0, a :: s =>
    let following := countFollowing (followers a) s
    let first := (decodeUtf8 (a :: s.take following)).bind List.head?
    first.getD replacement :: lossyFrom following s

/-- The text that is shown for bytes. -/
def decodeUtf8Lossy (bytes : List UInt8) : List Char := lossyFrom 0 bytes

/-! ### Single bytes -/

/-- The character whose number is the byte. -/
def byteChar (b : UInt8) : Char := Char.ofNat b.toNat

/-- The text in which every byte stands for the character of its number. -/
def latin1 (bytes : List UInt8) : List Char := bytes.map byteChar

/-- The first byte of the UTF-8 form of a character, shown as the character of its number. -/
def leadChar (c : Char) : Char := byteChar ((String.utf8EncodeChar c).headD 0)

end Text

end ClassSketch
