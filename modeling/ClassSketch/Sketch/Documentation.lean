import ClassSketch.Doc.DocText
import ClassSketch.Doc.ParamTags
import ClassSketch.Doc.Store
import ClassSketch.Sketch.Members

/-!
# Documentation of a sketch

Documentation found in an annotation comes before documentation in the store. In the store a method
is looked up by its generic parameter types and then by the erased ones. Tags of parameters that do
not exist are taken out, and templates are replaced.

## Main definitions

* `Documenter`: where documentation of the members of a type comes from
* `Documenter.ofType`, `Documenter.ofField`, `Documenter.ofExecutable`: documentation
-/

namespace ClassSketch

/-- Where documentation of a type and its members comes from. -/
structure Documenter where
  settings : Settings
  lookup : Lookup
  /-- The binary name of the type. -/
  type : String

namespace Documenter

/-- The text as it is shown, unless there is nothing to show. -/
def finish (d : Documenter) (raw : String) (parameters : List String) : Option String :=
  let text := if d.settings.templates.enabled then
    Template.render raw d.settings.templates.values parameters
    else String.ofList (Text.trim raw.toList)
  if text.isEmpty then none else some text

/-- The documentation under a key, unless another one is given. -/
def rawText? (d : Documenter) (key : MemberKey) (given : Option String) : Option String :=
  given.or (d.lookup d.type key)

/-- The documentation of the type. -/
def ofType (d : Documenter) (given : Option String) : Option String := do
  d.finish (← d.rawText? .type given) []

/-- The documentation of a field. -/
def ofField (d : Documenter) (name : String) (given : Option String) : Option String := do
  d.finish (← d.rawText? (.field name) given) []

/-- The key of a method with parameters of the given types. -/
def keyOf (name : String) (parameters : List TypeRef) : MemberKey :=
  .method name (parameters.map TypeRef.documentationKey)

/-- The documentation of a method in the store, under its generic or else its erased key. -/
def stored? (d : Documenter) (built : Owner.BuiltExecutable) : Option String :=
  let generic := keyOf built.decl.name (built.decl.parameters.map Parameter.type)
  let erased := keyOf built.decl.name built.erasedParameters
  (d.lookup d.type generic).or (if erased = generic then none else d.lookup d.type erased)

/-- The text without stale parameter tags. A text in which every tag is known stays as it is. -/
def withoutStale (known : ParamTags.Known) (raw : String) : String :=
  if ((DocText.parse raw).namedTags "param").all fun tag => known.has tag.1.toList then raw
  else (ParamTags.strip known raw).text

/-- The documentation of a method or constructor. -/
def ofExecutable (d : Documenter) (built : Owner.BuiltExecutable) : Option String := do
  let raw ← built.inlineDocumentation.or (d.stored? built)
  let names := built.decl.parameterNames
  let known := ⟨names, built.decl.typeParameters.map TypeParameter.name⟩
  let raw := if d.settings.validateParamTags && built.namesRecovered then
    withoutStale known raw else raw
  d.finish raw names

end Documenter

end ClassSketch
