import ClassSketch.Sketch.Documentation

/-!
# A type without the types nested in it

## Main definitions

* `TypeKind.ofAccess`, `typeModifiers`: kind and modifiers of a type
* `isElided`: which supertypes are not shown
* `skeleton`: the declaration of a class file
-/

namespace ClassSketch

/-- The kind of type that access flags describe. -/
def TypeKind.ofAccess (access : AccessFlags) : TypeKind :=
  if access.isAnnotationType then .annotationType
  else if access.isInterface then .interface
  else if access.isEnum then .enum
  else .classType

/-- The modifiers of a type. What the kind of the type implies is not among them. -/
def typeModifiers (kind : TypeKind) (access : AccessFlags) : Modifiers :=
  let modifiers := (((Modifiers.empty.insertIf access.isPublic .isPublic).insertIf
    access.isProtected .isProtected).insertIf
    access.isPrivate .isPrivate).insertIf
    access.isStatic .isStatic
  if kind = .classType then
    (modifiers.insertIf access.isFinal .isFinal).insertIf access.isAbstract .isAbstract
  else modifiers

/-- The interface that every annotation type has. -/
def annotationInterface : String := "java.lang.annotation.Annotation"

/-- Whether a supertype of a type of the given kind is not shown. -/
def isElided (kind : TypeKind) (supertype : ClassName) (markers : List String) : Bool :=
  (kind == .annotationType && supertype.canonical == annotationInterface) ||
    markers.contains supertype.canonical

/-- The generic supertypes of a class file. -/
structure Supertypes where
  typeParameters : List TypeParameter
  superclass : Option TypeRef
  interfaces : List TypeRef

namespace Supertypes

/-- The supertypes of a class file, from its signature if it has one. -/
def ofClassFile (c : ClassFile) : Except SketchError Supertypes :=
  match c.signature with
  | some text =>
    match ClassSignature.ofText text with
    | .ok s => .ok ⟨s.typeParameters, some s.superclass, s.interfaces⟩
    | .error e => .error (.signature c.className.canonical e)
  | none =>
    .ok ⟨[], c.superClass.map fun name => .ofClass (.ofInternal name),
      c.interfaces.map fun name => .ofClass (.ofInternal name)⟩

/-- Whether a supertype is shown. -/
def shows (settings : Settings) (kind : TypeKind) (type : TypeRef) : Bool :=
  match type.className? with
  | some name => !isElided kind name settings.markerInterfaces
  | none => true

/-- The superclass that is shown: only that of a class, and not the root of all classes. -/
def shownSuperclass (s : Supertypes) (settings : Settings) (kind : TypeKind) : Option TypeRef :=
  if kind = .classType then
    s.superclass.filter fun type =>
      type.className? != some ClassName.object && shows settings kind type
  else none

/-- The superinterfaces that are shown. -/
def shownInterfaces (s : Supertypes) (settings : Settings) (kind : TypeKind) : List TypeRef :=
  s.interfaces.filter (shows settings kind)

end Supertypes

/-- The results for the items that have one, in order, up to the first error. -/
def collect {α β ε : Type} (f : α → Except ε (Option β)) : List α → Except ε (List β)
  | [] => .ok []
  | x :: xs => do
    match ← f x with
    | some y => return y :: (← collect f xs)
    | none => collect f xs

/-- The fields of a class file that are shown. -/
def shownFields (o : Owner) (d : Documenter) (fields : List FieldInfo) :
    Except SketchError (List Member) := do
  let built ← collect o.field fields
  return built.map fun b =>
    .field { b.decl with documentation := d.ofField b.decl.name b.inlineDocumentation }

/-- The methods and constructors of a class file that are shown. -/
def shownExecutables (o : Owner) (d : Documenter) (methods : List MethodInfo) :
    Except SketchError (List Member) := do
  let built ← collect o.executable methods
  return built.map fun b => .executable { b.decl with documentation := d.ofExecutable b }

/-- The declaration of a class file without nested types. The access flags recorded by the type
around it come before those of its own entry, and these before its own. -/
def skeleton (settings : Settings) (lookup : Lookup) (c : ClassFile)
    (recorded : Option AccessFlags) : Except SketchError TypeDecl := do
  let kind := TypeKind.ofAccess c.access
  let name := c.className
  let access := (recorded.or (c.ownInner?.map InnerClass.access)).getD c.access
  let supertypes ← Supertypes.ofClassFile c
  let converted ← (convertAnnotations settings c.annotations).mapError (.classFile name.canonical)
  let documenter : Documenter := ⟨settings, lookup, c.binaryName⟩
  let owner : Owner := ⟨settings, kind, name.canonical⟩
  let fields ← shownFields owner documenter c.fields
  let executables ← shownExecutables owner documenter c.methods
  let decl : TypeDecl := {
    kind := kind
    name := name
    modifiers := typeModifiers kind access
    superclass := supertypes.shownSuperclass settings kind
    superinterfaces := supertypes.shownInterfaces settings kind
    typeParameters := supertypes.typeParameters
    members := fields ++ executables
    documentation := documenter.ofType converted.documentation
    annotations := converted.annotations }
  decl.check.mapError .rule
  return decl

end ClassSketch
