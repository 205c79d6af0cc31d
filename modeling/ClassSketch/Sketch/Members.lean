import ClassSketch.ClassFile.ParameterNames
import ClassSketch.Sketch.Error
import ClassSketch.Sketch.Settings
import ClassSketch.Sketch.Values

/-!
# Members of a sketch

A member is shown if it can be seen from outside, was written by the author and is not marked as
internal. A shown member whose generic signature cannot be read is left out as well.

## Main definitions

* `convertAnnotations`: annotations, with documentation and marks taken out
* `Owner.showsField`, `Owner.field`: which fields are shown, and how
* `Owner.showsMethod`, `Owner.executable`: which methods and constructors are shown, and how
-/

namespace ClassSketch

/-! ### Annotations -/

/-- The mark of a trait method that has a body. -/
def traitMark : String := "org.codehaus.groovy.transform.trait.Traits$Implemented"

/-- Annotations with the documentation and the marks found among them. -/
structure ConvertedAnnotations where
  annotations : List Annotation := []
  documentation : Option String := none
  isTraitMethod : Bool := false

/-- What is converted so far with one more annotation. -/
def ConvertedAnnotations.add (settings : Settings) (done : ConvertedAnnotations)
    (a : RawAnnotation) : Except ClassFile.Error ConvertedAnnotations := do
  let type ← a.className
  if settings.isDocAnnotation type.canonical type.binary then
    match a.element? "value" with
    | some value =>
      return { done with documentation := (← AnnotationValue.ofElement value).asString? }
    | none => return done
  else if type.binary = traitMark then return { done with isTraitMethod := true }
  else return { done with annotations := done.annotations ++ [← Annotation.ofRaw a] }

/-- Annotations, with documentation and marks taken out. -/
def convertAnnotations (settings : Settings) (annotations : List RawAnnotation) :
    Except ClassFile.Error ConvertedAnnotations :=
  annotations.foldlM (ConvertedAnnotations.add settings) {}

/-- Whether one of the annotations marks a member as internal. -/
def hasInternalMark (settings : Settings) : List RawAnnotation → Except ClassFile.Error Bool
  | [] => .ok false
  | a :: annotations => do
    let type ← a.className
    if settings.isInternalAnnotation type.canonical type.binary then return true
    else hasInternalMark settings annotations

/-! ### The type around a member -/

/-- What the members of a type have in common. -/
structure Owner where
  settings : Settings
  kind : TypeKind
  /-- The canonical name, for diagnostics. -/
  name : String

namespace Owner

/-- A computation on the class file whose errors concern a member. -/
def concerning {α : Type} (o : Owner) (member : String) (r : Except ClassFile.Error α) :
    Except SketchError α :=
  r.mapError (.classFile (memberLabel o.name member))

/-- The modifiers that access flags give to any member. -/
def modifiersOf (access : AccessFlags) : Modifiers :=
  (((((Modifiers.empty.insertIf access.isPublic .isPublic).insertIf
    access.isProtected .isProtected).insertIf
    access.isPrivate .isPrivate).insertIf
    access.isStatic .isStatic).insertIf
    access.isFinal .isFinal).insertIf
    access.isAbstract .isAbstract

/-! ### Fields -/

/-- Whether a name was made by a compiler. -/
def isGeneratedName (name : String) : Bool := name.toList.contains '$'

/-- Whether the flags and the name of a field keep it from being shown. -/
def hidesField (o : Owner) (f : FieldInfo) : Bool :=
  f.access.isSynthetic || !f.access.isVisible || isGeneratedName f.name ||
    (o.kind == .enum && ["MIN_VALUE", "MAX_VALUE"].contains f.name)

/-- Whether a field is shown. -/
def showsField (o : Owner) (f : FieldInfo) : Except SketchError Bool :=
  if o.hidesField f then .ok false
  else do return !(← o.concerning f.name (hasInternalMark o.settings f.annotations))

/-- A field without its final documentation, and the documentation found in its annotations. -/
structure BuiltField where
  decl : FieldDecl
  inlineDocumentation : Option String

/-- The field, unless it is not shown. -/
def field (o : Owner) (f : FieldInfo) : Except SketchError (Option BuiltField) := do
  if !(← o.showsField f) then return none
  let erased ← o.concerning f.name (Descriptor.fieldType f.descriptor)
  let generic := match f.signature with
    | some signature => (Signature.field signature).toOption
    | none => some erased
  match generic with
  | none => return none
  | some type =>
    let constant ← o.concerning f.name (f.constant.mapM (Literal.ofField erased))
    let converted ← o.concerning f.name (convertAnnotations o.settings f.annotations)
    return some {
      decl := {
        name := f.name
        modifiers := modifiersOf f.access
        annotations := converted.annotations
        type := type
        isEnumConstant := f.access.isEnum
        constant := constant }
      inlineDocumentation := converted.documentation }

/-! ### Methods and constructors -/

/-- The name of static initializers in class files. -/
def initializerName : String := "<clinit>"

/-- Whether the flags and the name of a method keep it from being shown. -/
def hidesMethod (o : Owner) (m : MethodInfo) : Bool :=
  m.access.isSynthetic || m.access.isBridge || m.name == initializerName ||
    !m.access.isVisible || isGeneratedName m.name || o.settings.excludedMethods.contains m.name ||
    (o.kind == .enum &&
      [constructorName, "values", "valueOf", "next", "previous"].contains m.name)

/-- Whether a method is shown. -/
def showsMethod (o : Owner) (m : MethodInfo) : Except SketchError Bool :=
  if o.hidesMethod m then .ok false
  else do return !(← o.concerning m.name (hasInternalMark o.settings m.annotations))

/-- A method or constructor without its final documentation, and what that depends on. -/
structure BuiltExecutable where
  decl : ExecutableDecl
  /-- Whether the class file records the names of the parameters. -/
  namesRecovered : Bool
  /-- The types of the parameters after erasure. -/
  erasedParameters : List TypeRef
  inlineDocumentation : Option String

/-- As many types as there are erased ones: the generic ones, and erased ones for those missing. -/
def reconcile (generic erased : List TypeRef) : List TypeRef :=
  generic.take erased.length ++ erased.drop generic.length

/-- A name for the parameter at a place. -/
def placeholderName (index : Nat) : String := "arg" ++ toString index

/-- The names of the parameters of a method, if the class file records them. -/
def recoveredNames? (m : MethodInfo) (d : MethodDescriptor) : Option (List String) :=
  if d.parameters.isEmpty then some [] else m.parameterNames? d

/-- Parameters with the annotations of a table. A table shorter than the list of parameters belongs
to the last ones. -/
def annotate (o : Owner) (member : String) (parameters : List Parameter)
    (table : List (List RawAnnotation)) : Except SketchError (List Parameter) :=
  let rows := List.replicate (parameters.length - table.length) [] ++ table
  (parameters.zip rows).mapM fun (parameter, row) => do
    let converted ← o.concerning member (convertAnnotations o.settings row)
    return { parameter with annotations := converted.annotations }

/-- The modifiers of a method. An interface method with a body is a default method. -/
def executableModifiers (kind : TypeKind) (access : AccessFlags) (isTraitMethod : Bool) :
    Modifiers :=
  let isDefault := (kind == .interface || kind == .annotationType) && !access.isAbstract &&
    !access.isStatic
  let modifiers := (modifiersOf access).insertIf isDefault .isDefault
  if isTraitMethod then (modifiers.erase .isAbstract).insert .isDefault else modifiers

/-- The default value of an element of an annotation type. -/
def defaultValue (o : Owner) (m : MethodInfo) (parameters : List Parameter) :
    Except SketchError (Option AnnotationValue) :=
  match m.defaultValue with
  | none => .ok none
  | some value =>
    if o.kind ≠ .annotationType then
      .error (.rule ⟨memberLabel o.name m.name, .misplacedDefault⟩)
    else if !parameters.isEmpty then
      .error (.rule ⟨memberLabel o.name m.name, .defaultWithParameters⟩)
    else (o.concerning m.name (AnnotationValue.ofElement value)).map some

/-- The types of a method without a signature. -/
def erasedSignature (d : MethodDescriptor) : MethodSignature := ⟨[], d.parameters, d.result, []⟩

/-- The method or constructor, unless it is not shown. -/
def executable (o : Owner) (m : MethodInfo) : Except SketchError (Option BuiltExecutable) := do
  if !(← o.showsMethod m) then return none
  let descriptor ← o.concerning m.name (MethodDescriptor.ofText m.descriptor)
  let generic := match m.signature with
    | some signature => (MethodSignature.ofText signature).toOption
    | none => some (erasedSignature descriptor)
  match generic with
  | none => return none
  | some signature =>
    let types := reconcile signature.parameters descriptor.parameters
    let thrown := if signature.thrown.isEmpty then
      m.exceptions.map fun name => .ofClass (.ofInternal name) else signature.thrown
    let recovered := recoveredNames? m descriptor
    let names := recovered.getD ((List.range descriptor.parameters.length).map placeholderName)
    let bare := (names.zip types).map fun (name, type) => { name := name, type := type : Parameter }
    let parameters ← o.annotate m.name bare m.parameterAnnotations
    let converted ← o.concerning m.name (convertAnnotations o.settings m.annotations)
    let default ← o.defaultValue m parameters
    return some {
      decl := {
        name := m.name
        modifiers := executableModifiers o.kind m.access converted.isTraitMethod
        annotations := converted.annotations
        typeParameters := signature.typeParameters
        returnType := if m.name = constructorName then none else some signature.result
        parameters := parameters
        thrown := thrown
        defaultValue := default }
      namesRecovered := recovered.isSome
      erasedParameters := descriptor.parameters
      inlineDocumentation := converted.documentation }

end Owner

end ClassSketch
