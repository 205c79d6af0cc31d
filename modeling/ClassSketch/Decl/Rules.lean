import ClassSketch.Decl.Basic

/-!
# Rules of declarations

Only classes have a superclass, an enum shows none of the members its compiler supplies, and only
the elements of an annotation type have default values and then take no parameters.

## Main definitions

* `RuleBreak`: a declaration and the rule it breaks
* `TypeDecl.check`: the first rule that a type or a type nested in it breaks
-/

namespace ClassSketch

/-- A rule that a declaration can break. -/
inductive Rule where
  | superclass (kind : TypeKind)
  | suppliedMember (name : String)
  | misplacedDefault
  | defaultWithParameters
  deriving Repr, DecidableEq, BEq

/-- What breaking the rule means. -/
def Rule.message : Rule → String
  | superclass kind => kind.keyword ++ " declares a superclass"
  | suppliedMember name => "enum exposes compiler-supplied member `" ++ name ++ "`"
  | misplacedDefault => "default value outside an annotation type"
  | defaultWithParameters => "annotation element with a default value takes parameters"

/-- A declaration that breaks a rule. -/
structure RuleBreak where
  declaration : String
  rule : Rule
  deriving Repr, DecidableEq, BEq

/-- The declaration and what is wrong with it. -/
def RuleBreak.message (b : RuleBreak) : String :=
  "invariant violated on " ++ b.declaration ++ ": " ++ b.rule.message

/-- The name of a member in diagnostics. -/
def memberLabel (declaring member : String) : String := declaring ++ "#" ++ member

/-- Whether the compiler supplies a member of the given name to every enum. -/
def isSuppliedByEnum (name : String) : Bool :=
  name == constructorName || name == "values" || name == "valueOf"

/-- The rule that a member of a type of the given kind breaks by its default value. -/
def ExecutableDecl.defaultBreak? (kind : TypeKind) (e : ExecutableDecl) : Option Rule :=
  if e.defaultValue.isNone then none
  else if kind ≠ .annotationType then some .misplacedDefault
  else if !e.parameters.isEmpty then some .defaultWithParameters
  else none

namespace TypeDecl

/-- The first rule that the type itself breaks. -/
def ownBreak? (t : TypeDecl) : Option RuleBreak :=
  if t.kind ≠ .classType ∧ t.superclass.isSome then
    some ⟨t.name.canonical, .superclass t.kind⟩
  else
    let supplied := if t.kind = .enum then t.executables.find? (isSuppliedByEnum ·.name) else none
    match supplied with
    | some e => some ⟨t.name.canonical, .suppliedMember e.name⟩
    | none =>
      t.executables.findSome? fun e =>
        (e.defaultBreak? t.kind).map fun rule => ⟨memberLabel t.name.canonical e.name, rule⟩

mutual

/-- The first rule that the type or a type nested in it breaks. -/
def break? : TypeDecl → Option RuleBreak
  | ⟨kind, name, modifiers, superclass, superinterfaces, typeParameters, members, nestedTypes,
      documentation, annotations⟩ =>
    (ownBreak? ⟨kind, name, modifiers, superclass, superinterfaces, typeParameters, members,
      nestedTypes, documentation, annotations⟩).or (firstBreak? nestedTypes)

/-- The first rule that one of the types breaks. -/
def firstBreak? : List TypeDecl → Option RuleBreak
  | [] => none
  | t :: ts => (break? t).or (firstBreak? ts)

end

/-- Fails with the first rule that the type or a type nested in it breaks. -/
def check (t : TypeDecl) : Except RuleBreak Unit :=
  match t.break? with
  | some b => .error b
  | none => .ok ()

end TypeDecl

end ClassSketch
