import ClassSketch.Decl.ClassName
import ClassSketch.Doc.Template

/-!
# Settings

## Main definitions

* `Settings`: what decides which declarations are shown and how they are documented
* `Settings.withTemplateValue`: a template value added
-/

namespace ClassSketch

/-- Whether templates are replaced, and the values of their keys. -/
structure TemplateSettings where
  enabled : Bool := false
  values : TemplateValues := []
  deriving Repr, DecidableEq, BEq

/-- What decides which declarations are shown and how they are documented. -/
structure Settings where
  /-- The annotation whose value is documentation. -/
  docAnnotation : String := "com.blackbuild.annodocimal.annotations.AnnoDoc"
  /-- Annotations whose members are not shown. -/
  internalAnnotations : List String := ["groovy.transform.Internal"]
  /-- Supertypes that are not shown. -/
  markerInterfaces : List String := ["groovy.lang.GroovyObject"]
  /-- Names of methods that are not shown. -/
  excludedMethods : List String := ["getMetaClass", "setMetaClass"]
  /-- Endings of the binary names of nested types that are not shown. -/
  excludedNestedSuffixes : List String :=
    ["$Trait$Helper", "$Trait$FieldHelper", "$Trait$StaticFieldHelper"]
  /-- What follows the name of a class in the name of its property file. -/
  documentationSuffix : String := "__annodoc.properties"
  /-- Whether tags of parameters that do not exist are taken out. -/
  validateParamTags : Bool := true
  templates : TemplateSettings := {}
  deriving Repr, DecidableEq, BEq

namespace Settings

/-- The settings with the value of a template key, and with templates replaced. -/
def withTemplateValue (s : Settings) (key value : String) : Settings :=
  { s with templates := ⟨true, putEntry key value s.templates.values⟩ }

/-- The settings with the values of template keys, later ones winning. -/
def withTemplateValues (s : Settings) (values : List (String × String)) : Settings :=
  values.foldl (fun s (key, value) => s.withTemplateValue key value) s

/-- Whether an annotation, given by the canonical and the binary name of its class, marks members
that are not shown. -/
def isInternalAnnotation (s : Settings) (canonical binary : String) : Bool :=
  s.internalAnnotations.any fun name => name == canonical || name == binary

/-- Whether an annotation, given by the two names of its class, holds documentation. -/
def isDocAnnotation (s : Settings) (canonical binary : String) : Bool :=
  s.docAnnotation == canonical || s.docAnnotation == binary

/-- Whether a nested type of the given binary name is not shown. -/
def isExcludedNested (s : Settings) (binary : String) : Bool :=
  s.excludedNestedSuffixes.any fun ending => ending.toList.isSuffixOf binary.toList

end Settings

end ClassSketch
