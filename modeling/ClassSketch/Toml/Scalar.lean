import ClassSketch.Decimal.Shortest
import ClassSketch.Json.Number
import ClassSketch.Text.Hex
import ClassSketch.Text.Lines
import ClassSketch.Toml.Value

/-!
# TOML scalars

## Main definitions

* `Toml.Parser`: computations that take characters off the front of a text, or fail
* `Toml.basicString`, `Toml.literalString`, `Toml.stringValue`: strings
* `Toml.dateTime`, `Toml.floatValue`, `Toml.integerValue`: dates, times and numbers
* `Toml.scalar`: any value that is neither array nor table
-/

namespace ClassSketch

namespace Toml

/-- A computation that takes characters off the front of a text, or fails. -/
abbrev Parser := StateT (List Char) Option

namespace Parser

/-- Reads one character that satisfies a condition. -/
def one (p : Char → Bool) : Parser Char := fun s =>
  match s with
  | c :: s => if p c then some (c, s) else none
  | [] => none

/-- Reads a word. -/
def word (w : String) : Parser Unit := fun s =>
  (Text.dropWord? w.toList s).map fun rest => ((), rest)

/-- Reads all characters up to one that does not satisfy a condition. -/
def many (p : Char → Bool) : Parser (List Char) := fun s =>
  some (s.takeWhile p, s.dropWhile p)

end Parser

open ClassSketch.Toml.Parser

/-- The blanks within a line. -/
def isBlank (c : Char) : Bool := c == ' ' || c == '\t'

/-- Reads past blanks. -/
def skipBlanks : Parser Unit := do let _ ← many isBlank

/-- Whether a character may stand in a comment or a string: no control character but the tab. -/
def isPlain (c : Char) : Bool := c == '\t' || (0x20 ≤ c.toNat && c.toNat != 0x7F)

/-- Splits off a line end, if the text starts with one. -/
def dropNewline? : List Char → Option (List Char)
  | '\n' :: s => some s
  | '\r' :: '\n' :: s => some s
  | _ => none

/-- Reads a line end. -/
def newline : Parser Unit := fun s => (dropNewline? s).map fun rest => ((), rest)

/-! ### Strings -/

/-- The number written with hexadecimal digits. -/
def hexNumber? (digits : List Char) : Option Nat :=
  digits.foldlM (fun n c => (Text.hexValue? c).map (n * 16 + ·)) 0

/-- The character with a number. -/
def charOf? (n : Nat) : Option Char := if n.isValidChar then some (Char.ofNat n) else none

/-- Reads the escape of a character by the given number of digits. -/
def codeEscape (digits : Nat) (s : List Char) : Option (Char × List Char) := do
  let code := s.take digits
  if code.length ≠ digits then none
  return (← charOf? (← hexNumber? code), s.drop digits)

/-- Reads an escape after its backslash. -/
def escape? : List Char → Option (Char × List Char)
  | 'b' :: s => some ('\x08', s)
  | 'f' :: s => some ('\x0c', s)
  | 'n' :: s => some ('\n', s)
  | 'r' :: s => some ('\r', s)
  | 't' :: s => some ('\t', s)
  | '\\' :: s => some ('\\', s)
  | '"' :: s => some ('"', s)
  | 'u' :: s => codeEscape 4 s
  | 'U' :: s => codeEscape 8 s
  | _ => none

/-- Reads the rest of a string on one line, at most `fuel` characters. -/
def basicBody : Nat → List Char → Option (List Char × List Char)
  | 0, _ => none
  | _ + 1, [] => none
  | fuel + 1, c :: s =>
    if c = '"' then some ([], s)
    else if c = '\\' then do
      let (c, s) ← escape? s
      let (body, s) ← basicBody fuel s
      return (c :: body, s)
    else if isPlain c then do
      let (body, s) ← basicBody fuel s
      return (c :: body, s)
    else none

/-- Reads a string on one line in double quotes. -/
def basicString : Parser String := do
  word "\""
  let body ← fun s => basicBody (s.length + 1) s
  return String.ofList body

/-- Reads a string on one line in single quotes. -/
def literalString : Parser String := do
  word "'"
  let body ← many fun c => isPlain c && c != '\''
  word "'"
  return String.ofList body

/-- What a run of quotes means within a string over several lines: quotes that belong to the string
and whether it ends. -/
def quoteRun (n : Nat) : Nat × Bool := if n < 3 then (n, false) else (min n 5 - 3, true)

/-- The text after a line end that a backslash hides, with the blanks and line ends after it. -/
def hiddenNewline? (s : List Char) : Option (List Char) := do
  let s ← dropNewline? (s.dropWhile isBlank)
  return go s.length s
where
  /-- Drops blanks and line ends. -/
  go : Nat → List Char → List Char
    | 0, s => s
    | fuel + 1, s =>
      let s := s.dropWhile isBlank
      match dropNewline? s with
      | some s => go fuel s
      | none => s

/-- Reads the rest of a string over several lines between three quotes, at most `fuel` pieces.
Escapes mean something only if `escapes` holds. -/
def multilineBody (quote : Char) (escapes : Bool) :
    Nat → List Char → Option (List Char × List Char)
  | 0, _ => none
  | _ + 1, [] => none
  | fuel + 1, c :: s =>
    if c = quote then do
      let run := (c :: s).takeWhile (· == quote)
      let (kept, ends) := quoteRun run.length
      if ends then return (List.replicate kept quote, (c :: s).drop (kept + 3))
      else
        let (body, rest) ← multilineBody quote escapes fuel ((c :: s).drop kept)
        return (List.replicate kept quote ++ body, rest)
    else if escapes && c == '\\' then
      match hiddenNewline? s with
      | some s => multilineBody quote escapes fuel s
      | none => do
        let (c, s) ← escape? s
        let (body, s) ← multilineBody quote escapes fuel s
        return (c :: body, s)
    else
      match dropNewline? (c :: s) with
      | some s => do
        let (body, s) ← multilineBody quote escapes fuel s
        return ('\n' :: body, s)
      | none =>
        if isPlain c then do
          let (body, s) ← multilineBody quote escapes fuel s
          return (c :: body, s)
        else none

/-- Reads a string over several lines; a line end directly after the opening is left out. -/
def multilineString (opening : String) (quote : Char) (escapes : Bool) : Parser String := do
  word opening
  let _ ← optional newline
  let body ← fun s => multilineBody quote escapes (s.length + 1) s
  return String.ofList body

/-- Reads a string of any form. -/
def stringValue : Parser String := fun s =>
  if ("\"\"\"".toList).isPrefixOf s then multilineString "\"\"\"" '"' true s
  else if ("'''".toList).isPrefixOf s then multilineString "'''" '\'' false s
  else if s.head? == some '"' then basicString s
  else literalString s

/-! ### Dates and times -/

/-- Reads a number of exactly the given number of digits that lies between bounds. -/
def fixedDigits (digits least greatest : Nat) : Parser (List Char) := fun s =>
  let run := s.take digits
  let n := Json.digitsValue run
  if run.length = digits && run.all Char.isDigit && least ≤ n && n ≤ greatest then
    some (run, s.drop digits)
  else none

/-- The number of days of a month. -/
def daysIn (year month : Nat) : Nat :=
  let isLeap := year % 4 == 0 && (year % 100 != 0 || year % 400 == 0)
  if month = 2 then if isLeap then 29 else 28
  else if [4, 6, 9, 11].contains month then 30
  else 31

/-- Reads a date. -/
def date : Parser (List Char) := do
  let year ← fixedDigits 4 0 9999
  word "-"
  let month ← fixedDigits 2 1 12
  word "-"
  let day ← fixedDigits 2 1 (daysIn (Json.digitsValue year) (Json.digitsValue month))
  return year ++ '-' :: month ++ '-' :: day

/-- Reads the fraction of a second; of its digits at most nine count, and zeros at the end do
not. -/
def secondFraction : Parser (List Char) := do
  word "."
  let digits ← many Char.isDigit
  if digits.isEmpty then failure
  let counted := ((digits.take 9).reverse.dropWhile (· == '0')).reverse
  return if counted.isEmpty then [] else '.' :: counted

/-- Reads a time of day. -/
def timeOfDay : Parser (List Char) := do
  let hour ← fixedDigits 2 0 23
  word ":"
  let minute ← fixedDigits 2 0 59
  word ":"
  let second ← fixedDigits 2 0 60
  let fraction ← optional secondFraction
  return hour ++ ':' :: minute ++ ':' :: second ++ fraction.getD []

/-- Reads the distance of a time from universal time; the distance zero is written with a plus. -/
def timeOffset : Parser (List Char) := do
  let sign ← one fun c => ['Z', 'z', '+', '-'].contains c
  if sign = 'Z' ∨ sign = 'z' then return ['Z']
  else
    let hour ← fixedDigits 2 0 23
    word ":"
    let minute ← fixedDigits 2 0 59
    let distance := hour ++ ':' :: minute
    return (if distance = "00:00".toList then '+' else sign) :: distance

/-- Reads a time of day after a date, with its distance from universal time. -/
def timeAfterDate : Parser (List Char) := do
  let _ ← one fun c => ['T', 't', ' '].contains c
  let time ← timeOfDay
  let offset ← optional timeOffset
  return 'T' :: time ++ offset.getD []

/-- Reads a date, a time of day, or both. -/
def dateTime : Parser Toml := do
  match ← optional date with
  | some day => return datetime (String.ofList (day ++ (← optional timeAfterDate).getD []))
  | none => return datetime (String.ofList (← timeOfDay))

/-! ### Numbers -/

/-- Reads the rest of a run of digits that single underscores may separate, at most `fuel`
characters. -/
def digitRun (isDigit : Char → Bool) : Nat → List Char → Option (List Char × List Char)
  | 0, s => some ([], s)
  | fuel + 1, s =>
    match s with
    | '_' :: c :: rest =>
      if isDigit c then (digitRun isDigit fuel rest).map fun (run, s) => (c :: run, s) else none
    | ['_'] => none
    | c :: rest =>
      if isDigit c then (digitRun isDigit fuel rest).map fun (run, s) => (c :: run, s)
      else some ([], s)
    | [] => some ([], [])

/-- Reads digits that single underscores may separate, at least one. -/
def digits (isDigit : Char → Bool) : Parser (List Char) := do
  let first ← one isDigit
  let others ← fun s => digitRun isDigit s.length s
  return first :: others

/-- Reads a sign, if there is one. -/
def sign : Parser Bool := do
  return (← optional (one fun c => c == '+' || c == '-')) == some '-'

/-- Reads a decimal integer without leading zeros: whether it has a minus sign, and its digits. -/
def decimal : Parser (Bool × List Char) := do
  let negative ← sign
  if (← get).head? = some '0' then
    word "0"
    return (negative, ['0'])
  else return (negative, ← digits Char.isDigit)

/-- Reads a power of ten. -/
def power : Parser Int := do
  let _ ← one fun c => c == 'e' || c == 'E'
  let negative ← sign
  let n : Int := Json.digitsValue (← digits Char.isDigit)
  return if negative then -n else n

/-- Whether the number with the given digits is too large for a constant of eight bytes. Only near
the limit of these constants does it take a computation. -/
def overflows (whole fraction : List Char) (power : Int) : Bool :=
  let significand := Json.digitsValue (whole ++ fraction)
  let scale := power - fraction.length
  let magnitude := scale + Decimal.digitCount significand
  if significand = 0 ∨ magnitude < 308 then false
  else if 310 < magnitude then true
  else
    FloatFormat.binary64.nearest (significand * Nat.pow 10 scale.toNat)
      (Nat.pow 10 (-scale).toNat) == FloatFormat.binary64.infinityBits

/-- Reads a number with a fraction or a power of ten; positive infinity is refused as a result. -/
def floatValue : Parser Toml := do
  let (negative, whole) ← decimal
  let fraction ← optional do
    word "."
    digits Char.isDigit
  let exponent ← if (← get).head?.any fun c => c == 'e' || c == 'E' then
    some <$> power else pure none
  if fraction.isNone && exponent.isNone then failure
  if !negative && overflows whole (fraction.getD []) (exponent.getD 0) then failure
  return .float

/-- Reads infinity or what is no number. -/
def specialFloat : Parser Toml := do
  let _ ← sign
  match ← optional (word "inf") with
  | some _ => return .float
  | none =>
    word "nan"
    return .float

/-- The value of digits in a base. -/
def valueIn (base : Nat) (digits : List Char) : Nat :=
  digits.foldl (fun n c => n * base + (Text.hexValue? c).getD 0) 0

/-- Reads an integer after the mark of its base. -/
def based (mark : String) (base : Nat) : Parser Toml := do
  word mark
  let run ← digits fun c => (Text.hexValue? c).any (· < base)
  let n := valueIn base run
  if n < 0x8000000000000000 then return integer n else failure

/-- Reads an integer of 64 bits. -/
def integerValue : Parser Toml := fun s =>
  if ['0', 'x'].isPrefixOf s then based "0x" 16 s
  else if ['0', 'o'].isPrefixOf s then based "0o" 8 s
  else if ['0', 'b'].isPrefixOf s then based "0b" 2 s
  else do
    let ((negative, run), rest) ← decimal s
    let n : Int := Json.digitsValue run
    let n := if negative then -n else n
    if -0x8000000000000000 ≤ n ∧ n < 0x8000000000000000 then some (integer n, rest) else none

/-- Reads a word that stands for a value. -/
def named (w : String) (value : Toml) : Parser Toml := do
  word w
  return value

/-- Reads a value that is neither array nor table. -/
def scalar : Parser Toml := fun s =>
  match s with
  | [] => none
  | c :: _ =>
    if c = '"' ∨ c = '\'' then (stringValue s).map fun (text, rest) => (string text, rest)
    else if c.isDigit ∨ c = '+' ∨ c = '-' then
      (dateTime s).orElse fun _ => (floatValue s).orElse fun _ =>
        (specialFloat s).orElse fun _ => integerValue s
    else if c = 't' then named "true" (boolean true) s
    else if c = 'f' then named "false" (boolean false) s
    else if c = 'i' ∨ c = 'n' then specialFloat s
    else none

end Toml

end ClassSketch
