import ClassSketch.Entries
import ClassSketch.Toml.Scalar

/-!
# TOML documents

A document is a list of entries and table headers. While it is read every table remembers how it
came about, because a table may be defined only once: by a header, by a header of a table in it, or
by dotted keys.

## Main definitions

* `Toml.Node`: a value under construction
* `Toml.Node.putValue?`, `Toml.Node.openTable?`, `Toml.Node.appendTable?`: entries and headers
* `Toml.value`: a value at the head of a text
* `Toml.parse?`: the table that a text stands for
-/

namespace ClassSketch

namespace Toml

/-! ### Tables under construction -/

/-- How a table came about. -/
inductive Origin where
  /-- By a header of its own, or as an inline table. -/
  | header
  /-- By the header of a table in it. -/
  | implied
  /-- By a dotted key. -/
  | dotted
  deriving Repr, DecidableEq, BEq

/-- A value under construction. -/
inductive Node where
  | value (value : Toml)
  | table (origin : Origin) (entries : List (String × Node))
  /-- An array of tables, each with its entries, the latest one first. -/
  | tables (latest : List (String × Node)) (earlier : List Node)
  deriving Inhabited

namespace Node

/-- The entries with the table at a path changed. Missing tables are added with the given origin;
through dotted keys no table is entered that has a header of its own. -/
def change? (origin : Origin)
    (f : Origin → List (String × Node) → Option (Origin × List (String × Node))) :
    List String → Origin → List (String × Node) → Option (Origin × List (String × Node))
  | [], reached, entries => f reached entries
  | key :: path, reached, entries => do
    match valueOf? key entries with
    | none =>
      let (made, below) ← change? origin f path origin []
      return (reached, putEntry key (table made below) entries)
    | some (value _) => none
    | some (table found below) =>
      if origin == .dotted && found == .header then none
      else
        let (found, below) ← change? origin f path found below
        return (reached, putEntry key (table found below) entries)
    | some (tables latest earlier) =>
      let (_, latest) ← change? origin f path .header latest
      return (reached, putEntry key (tables latest earlier) entries)

/-- The entries with a value put at a dotted key. -/
def putValue? (path : List String) (key : String) (node : Node) :
    List (String × Node) → Option (List (String × Node)) := fun entries => do
  let put (reached : Origin) (below : List (String × Node)) :
      Option (Origin × List (String × Node)) :=
    if !path.isEmpty && reached != .dotted then none
    else if (valueOf? key below).isSome then none
    else some (reached, putEntry key node below)
  return (← change? .dotted put path .header entries).2

/-- The entries after the header of a table. -/
def openTable? (path : List String) (key : String) :
    List (String × Node) → Option (List (String × Node)) := fun entries => do
  let opened (reached : Origin) (below : List (String × Node)) :
      Option (Origin × List (String × Node)) :=
    match valueOf? key below with
    | none => some (reached, putEntry key (table .header []) below)
    | some (table .implied inner) => some (reached, putEntry key (table .header inner) below)
    | some _ => none
  return (← change? .implied opened path .header entries).2

/-- The entries after the header of an element of an array of tables. -/
def appendTable? (path : List String) (key : String) :
    List (String × Node) → Option (List (String × Node)) := fun entries => do
  let appended (reached : Origin) (below : List (String × Node)) :
      Option (Origin × List (String × Node)) :=
    match valueOf? key below with
    | none => some (reached, putEntry key (tables [] []) below)
    | some (tables latest earlier) =>
      some (reached, putEntry key (tables [] (table .header latest :: earlier)) below)
    | some _ => none
  return (← change? .implied appended path .header entries).2

mutual

/-- The finished value. -/
def finish : Node → Toml
  | value v => v
  | table _ entries => .table (finishEntries entries)
  | tables latest earlier =>
    .array ((Toml.table (finishEntries latest) :: finishAll earlier).reverse)

/-- The finished values of a list. -/
def finishAll : List Node → List Toml
  | [] => []
  | node :: nodes => node.finish :: finishAll nodes

/-- The finished entries. -/
def finishEntries : List (String × Node) → List (String × Toml)
  | [] => []
  | (key, node) :: entries => (key, node.finish) :: finishEntries entries

end

end Node

/-! ### Keys -/

/-- How many keys a dotted key may have, and how deep arrays and inline tables may be nested. -/
def depthLimit : Nat := 79

/-- Whether a character may stand in a bare key. -/
def isBareKey (c : Char) : Bool := c.isAlphanum || c == '_' || c == '-'

/-- Reads a key without points. -/
def simpleKey : Parser String := fun s =>
  match s with
  | '"' :: _ => basicString s
  | '\'' :: _ => literalString s
  | _ => (do
    let first ← Parser.one isBareKey
    let others ← Parser.many isBareKey
    return String.ofList (first :: others)) s

/-- Reads at most `fuel` keys with points between them. -/
def keysWithin : Nat → Parser (List String)
  | 0 => failure
  | fuel + 1 => do
    skipBlanks
    let key ← simpleKey
    skipBlanks
    match ← optional (Parser.word ".") with
    | some _ => return key :: (← keysWithin fuel)
    | none => return [key]

/-- Reads a dotted key: the keys that lead to a table, and the key in it. -/
def dottedKey : Parser (List String × String) := do
  let keys ← keysWithin depthLimit
  match keys.getLast? with
  | some key => return (keys.dropLast, key)
  | none => failure

/-! ### Values -/

/-- Reads past a comment, if there is one. -/
def skipComment : Parser Unit := fun s =>
  match s with
  | '#' :: s => some ((), s.dropWhile isPlain)
  | s => some ((), s)

/-- Reads past blanks, comments and line ends, at most `fuel` of them. -/
def skipLines : Nat → Parser Unit
  | 0 => pure ()
  | fuel + 1 => do
    skipBlanks
    skipComment
    match ← optional newline with
    | some _ => skipLines fuel
    | none => pure ()

/-- Reads past blanks, comments and line ends between the items of an array. -/
def skipGaps : Parser Unit := fun s => skipLines (s.length + 1) s

/-- Reads at most `fuel` items of an array and its closing bracket. -/
def itemsWithin (item : Parser Toml) : Nat → Parser (List Toml)
  | 0 => failure
  | fuel + 1 => do
    skipGaps
    match ← optional (Parser.word "]") with
    | some _ => return []
    | none =>
      let first ← item
      skipGaps
      match ← optional (Parser.word ",") with
      | some _ => return first :: (← itemsWithin item fuel)
      | none =>
        Parser.word "]"
        return [first]

/-- Reads at most `fuel` entries of an inline table and its closing brace. -/
def pairsWithin (item : Parser Toml) :
    Nat → List (String × Node) → Parser (List (String × Node))
  | 0, _ => failure
  | fuel + 1, done => do
    let (path, key) ← dottedKey
    Parser.word "="
    skipBlanks
    let value ← item
    skipBlanks
    match Node.putValue? path key (.value value) done with
    | none => failure
    | some done =>
      match ← optional (Parser.word ",") with
      | some _ => pairsWithin item fuel done
      | none =>
        Parser.word "\x7d"
        return done

/-- Reads an array after its opening bracket. -/
def arrayBody (item : Parser Toml) : Parser Toml := fun s =>
  (itemsWithin item (s.length + 1) s).map fun (items, rest) => (array items, rest)

/-- Reads an inline table after its opening brace. -/
def inlineBody (item : Parser Toml) : Parser Toml := do
  skipBlanks
  match ← optional (Parser.word "\x7d") with
  | some _ => return table []
  | none =>
    let entries ← fun s => pairsWithin item (s.length + 1) [] s
    return table (Node.finishEntries entries)

/-- Reads a value whose arrays and inline tables are nested at most `levels` levels deep. -/
def valueWithin : Nat → Parser Toml
  | 0 => scalar
  | levels + 1 => fun s =>
    match s with
    | '[' :: s => arrayBody (valueWithin levels) s
    | '\x7b' :: s => inlineBody (valueWithin levels) s
    | s => scalar s

/-- Reads a value. -/
def value : Parser Toml := valueWithin depthLimit

/-! ### Documents -/

/-- Reads the rest of a line: blanks, a comment, and the line end or the end of the text. -/
def lineEnd : Parser Unit := do
  skipBlanks
  skipComment
  if (← get).isEmpty then return () else newline

/-- The entries read so far, and the header they stand under. -/
structure Draft where
  root : List (String × Node)
  path : List String

/-- Changes the table that the last header opened. -/
def Draft.change? (d : Draft)
    (f : List (String × Node) → Option (List (String × Node))) : Option Draft := do
  let inner (reached : Origin) (below : List (String × Node)) :
      Option (Origin × List (String × Node)) := (f below).map fun below => (reached, below)
  return { d with root := (← Node.change? .implied inner d.path .header d.root).2 }

/-- Reads a table header. -/
def headerLine (d : Draft) : Parser Draft := do
  Parser.word "["
  let isArray := (← optional (Parser.word "[")).isSome
  let (path, key) ← dottedKey
  Parser.word (if isArray then "]]" else "]")
  lineEnd
  let root := if isArray then Node.appendTable? path key d.root
    else Node.openTable? path key d.root
  match root with
  | some root => return ⟨root, path ++ [key]⟩
  | none => failure

/-- Reads an entry. -/
def entryLine (d : Draft) : Parser Draft := do
  let (path, key) ← dottedKey
  Parser.word "="
  skipBlanks
  let v ← value
  lineEnd
  match d.change? (Node.putValue? path key (.value v)) with
  | some d => return d
  | none => failure

/-- Reads at most `fuel` lines. -/
def linesWithin : Nat → Draft → Parser Draft
  | 0, _ => failure
  | fuel + 1, d => do
    skipBlanks
    match (← get).head? with
    | none => return d
    | some c =>
      if c = '#' ∨ c = '\n' ∨ c = '\r' then
        lineEnd
        linesWithin fuel d
      else if c = '[' then linesWithin fuel (← headerLine d)
      else linesWithin fuel (← entryLine d)

/-- The table that a text stands for. A byte order mark at its start is left out. -/
def parse? (text : String) : Option (List (String × Toml)) := do
  let s := match text.toList with
    | '\uFEFF' :: s => s
    | s => s
  let (d, _) ← linesWithin (s.length + 1) ⟨[], []⟩ s
  return Node.finishEntries d.root

end Toml

end ClassSketch
