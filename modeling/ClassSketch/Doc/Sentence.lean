import ClassSketch.Text.Blank
import ClassSketch.Text.Lowercase

/-!
# The first sentence of a text

A sentence ends at a full stop, a question mark or an exclamation mark, with the closing brackets
and quotes after it, if blanks or the end of the text follow. After a full stop the next word must
not start in lower case, so that an abbreviation does not end a sentence. What stands in a template
placeholder never ends one.

## Main definitions

* `Sentence.mask`: the text with underscores in place of template placeholders
* `Sentence.length`: the number of characters of the first sentence of a masked text
* `Sentence.first`: the first sentence
-/

namespace ClassSketch

namespace Sentence

/-- The number of characters of a template placeholder at the head of a text. -/
def placeholderLength? : List Char → Option Nat
  | '\x7b' :: '\x7b' :: s =>
    let inner := s.takeWhile (· != '\x7d')
    match inner, s.dropWhile (· != '\x7d') with
    | _ :: _, '\x7d' :: '\x7d' :: _ => some (inner.length + 4)
    | _, _ => none
  | _ => none

/-- The text with an underscore for each of the next `n` characters and for each character of a
placeholder after them. -/
def maskFrom : Nat → List Char → List Char
  | _, [] => []
  | n + 1, _ :: s => '_' :: maskFrom n s
  | 0, c :: s =>
    match placeholderLength? (c :: s) with
    | some n => '_' :: maskFrom (n - 1) s
    | none => c :: maskFrom 0 s

/-- The text with an underscore for each character of a template placeholder. -/
def mask (s : List Char) : List Char := maskFrom 0 s

/-- Whether a character can end a sentence. -/
def isTerminator (c : Char) : Bool := c == '.' || c == '?' || c == '!'

/-- Whether a character may stand between the end of a sentence and the blank after it. -/
def isCloser (c : Char) : Bool := c == ')' || c == ']' || c == '"' || c == '\''

/-- Whether a sentence ends with the given terminator, before the given text. -/
def endsBefore (terminator : Char) (s : List Char) : Bool :=
  match s with
  | [] => true
  | c :: _ =>
    Text.isBlank c &&
      match Text.trimStart s with
      | [] => true
      | word :: _ => !(terminator == '.' && Text.isLowercase word)

/-- The number of characters of the first sentence of a masked text. -/
def length : List Char → Nat
  | [] => 0
  | c :: s =>
    if isTerminator c && endsBefore c (s.dropWhile isCloser) then
      (s.takeWhile isCloser).length + 1
    else length s + 1

/-- The first sentence of a text. -/
def first (s : List Char) : List Char := s.take (length (mask s))

end Sentence

end ClassSketch
