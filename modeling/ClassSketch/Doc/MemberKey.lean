/-!
# Keys of documented declarations

## Main definitions

* `MemberKey`: a declaration within a type
* `MemberKey.text`: the key under which its documentation is stored
-/

namespace ClassSketch

/-- A documented declaration within a type. A constructor is the method of the name that class
files give it. -/
inductive MemberKey where
  | type
  | field (name : String)
  | method (name : String) (parameters : List String)
  deriving Repr, DecidableEq, BEq

/-- The key under which the documentation of a declaration is stored. -/
def MemberKey.text : MemberKey → String
  | type => "classDoc"
  | field name => "field." ++ name
  | method name parameters => "method." ++ name ++ "(" ++ ",".intercalate parameters ++ ")"

end ClassSketch
