/-!
# JSON values

Values keep the order of object entries. An integer is kept as a number; any other number is kept
as the text it is written with, because that text depends on the width of the constant it came from.

## Main definitions

* `Json`: the values
* `Json.field?`: an entry of an object
* `Json.depth`: how deeply a value is nested
-/

namespace ClassSketch

/-- A JSON value. -/
inductive Json where
  | null
  | bool (value : Bool)
  | int (value : Int)
  /-- A number that is no integer of 64 bits, as written. -/
  | real (lexeme : String)
  | str (value : String)
  | arr (items : List Json)
  | obj (entries : List (String × Json))
  deriving Repr, BEq, Inhabited

namespace Json

/-- The first entry with the given name among object entries. -/
def lookup? (name : String) (entries : List (String × Json)) : Option Json :=
  (entries.find? fun entry => entry.1 == name).map Prod.snd

/-- The first entry with the given name, if the value is an object that has one. -/
def field? (name : String) : Json → Option Json
  | obj entries => lookup? name entries
  | _ => none

/-- The entry with the given name, `null` if there is none. -/
def fieldD (name : String) (j : Json) : Json := (j.field? name).getD null

mutual

/-- The number of levels of a value, at least one. -/
def depth : Json → Nat
  | arr items => depthItems items + 1
  | obj entries => depthEntries entries + 1
  | _ => 1

/-- The greatest depth of the items. -/
def depthItems : List Json → Nat
  | [] => 0
  | item :: items => max item.depth (depthItems items)

/-- The greatest depth of the values of the entries. -/
def depthEntries : List (String × Json) → Nat
  | [] => 0
  | (_, value) :: entries => max value.depth (depthEntries entries)

end

/-- The text of a JSON string value. -/
def asString? : Json → Option String
  | str s => some s
  | _ => none

/-- The truth value of a JSON value. -/
def asBool? : Json → Option Bool
  | bool b => some b
  | _ => none

/-- The number of a JSON value that is an integer. -/
def asInt? : Json → Option Int
  | int n => some n
  | _ => none

/-- The items of a JSON array. -/
def asList? : Json → Option (List Json)
  | arr items => some items
  | _ => none

/-- The value that a JSON value other than `null` stands for; `null` stands for nothing. -/
def asOption? {α : Type} (read : Json → Option α) : Json → Option (Option α)
  | null => some none
  | j => (read j).map some

end Json

end ClassSketch
