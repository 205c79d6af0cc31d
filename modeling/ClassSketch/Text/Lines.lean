/-!
# Cutting text into pieces

Pieces between separators, of characters or of bytes, and lines. A line ends at a newline; a
carriage return directly before that newline belongs to the line end, and text after the last
newline is a line unless it is empty.

## Main definitions

* `Text.splitOn`: the pieces between all occurrences of a separator
* `Text.cutFirst`, `Text.cutLast`: the parts around the first and the last occurrence
* `Text.lines`: the lines of a text
* `Text.dropWord?`, `Text.dropFinalWord?`: what is left without a given beginning or ending
* `Text.find?`: the parts around the first occurrence of a given text
* `Text.firstWord?`: the first run of characters that are not blank
-/

namespace ClassSketch

namespace Text

section Separators

variable {α : Type}

/-- The pieces of a text between the occurrences of `sep`, at least one. -/
def splitOn [DecidableEq α] (sep : α) : List α → List (List α)
  | [] => [[]]
  | c :: s =>
    if c = sep then [] :: splitOn sep s
    else
      match splitOn sep s with
      | [] => [[c]]
      | piece :: pieces => (c :: piece) :: pieces

/-- The parts before and after the first character that satisfies `p`. -/
def cutFirst (p : α → Bool) : List α → Option (List α × List α)
  | [] => none
  | c :: s =>
    if p c then some ([], s)
    else (cutFirst p s).map fun (before, after) => (c :: before, after)

/-- The parts before and after the last occurrence of `sep`. -/
def cutLast [DecidableEq α] (sep : α) (s : List α) : Option (List α × List α) :=
  (cutFirst (· == sep) s.reverse).map fun (after, before) => (before.reverse, after.reverse)

end Separators

/-- Takes off a carriage return that ends the piece. -/
def dropReturn (piece : List Char) : List Char :=
  if piece.getLast? = some '\r' then piece.dropLast else piece

/-- The lines of a text, without their line ends. -/
def lines (s : List Char) : List (List Char) :=
  let pieces := splitOn '\n' s
  pieces.dropLast.map dropReturn ++ (pieces.getLast?.toList.filter fun last => !last.isEmpty)

/-- What follows `word` in a text that begins with it. -/
def dropWord? : List Char → List Char → Option (List Char)
  | [], s => some s
  | _ :: _, [] => none
  | w :: word, c :: s => if w = c then dropWord? word s else none

/-- What comes before `word` in a text that ends with it. -/
def dropFinalWord? (word s : List Char) : Option (List Char) :=
  (dropWord? word.reverse s.reverse).map List.reverse

/-- The parts before and after the first occurrence of `word`. -/
def find? (word : List Char) : List Char → Option (List Char × List Char)
  | [] => if word.isEmpty then some ([], []) else none
  | c :: s =>
    match dropWord? word (c :: s) with
    | some after => some ([], after)
    | none => (find? word s).map fun (before, after) => (c :: before, after)

/-- The first run of characters that are not blank, or nothing if there is none. -/
def firstWord? (blank : Char → Bool) (s : List Char) : Option (List Char) :=
  match s.dropWhile blank with
  | [] => none
  | c :: rest => some (c :: rest.takeWhile fun d => !blank d)

end Text

end ClassSketch
