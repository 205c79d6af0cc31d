/-!
# TOML values

## Main definitions

* `Toml`: the values
* `Toml.field?`: an entry of a table
-/

namespace ClassSketch

/-- A TOML value. Of numbers with a fraction only their kind is kept, and a date or time is kept as
its canonical text. -/
inductive Toml where
  | string (value : String)
  | integer (value : Int)
  | float
  | boolean (value : Bool)
  | datetime (text : String)
  | array (items : List Toml)
  | table (entries : List (String × Toml))
  deriving Repr, BEq, Inhabited

namespace Toml

/-- The text of a string. -/
def asString? : Toml → Option String
  | string s => some s
  | _ => none

/-- The truth value of a boolean. -/
def asBool? : Toml → Option Bool
  | boolean b => some b
  | _ => none

/-- The texts of an array of strings. -/
def asStrings? : Toml → Option (List String)
  | array items => items.mapM asString?
  | _ => none

end Toml

end ClassSketch
