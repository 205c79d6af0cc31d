import ClassSketch.ClassFile.Signature
import ClassSketch.Decl.Rules
import ClassSketch.Locate.Error

/-!
# Why a type cannot be sketched

## Main definitions

* `SketchError`: the reasons
* `SketchError.message`: the wording
-/

namespace ClassSketch

/-- Why a type cannot be sketched. -/
inductive SketchError where
  | lookup (error : LocateError)
  | signature (declaration : String) (error : SignatureError)
  | classFile (declaration : String) (error : ClassFile.Error)
  | rule (broken : RuleBreak)
  deriving Repr, DecidableEq, BEq

/-- The description of the error. -/
def SketchError.message : SketchError → String
  | lookup error => error.message
  | signature declaration error =>
    "malformed signature on " ++ declaration ++ ": " ++ error.message
  | classFile declaration error =>
    "malformed class data on " ++ declaration ++ ": " ++ error.message
  | rule broken => broken.message

end ClassSketch
