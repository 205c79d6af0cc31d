import ClassSketch.Proofs.Entries
import ClassSketch.Proofs.Json.Forms
import Mathlib.Data.UInt

/-!
# Reading declarations back from JSON

A declaration without floating point constants is determined by its JSON form: reading the form
gives the declaration again, whatever types, annotations and nested types it is made of. Floating
point constants are left out because their form is a decimal, and because some have none.

A type, an annotation value and a declaration with nested types are read back by induction on the
depth that reading is allowed. It is enough for the whole form, and each part is less deep.

## Main definitions

* `AnnotationValue.Exact`, `Annotation.Exact`, `Member.Exact`, `TypeDecl.Exact` — no floating point
  constant occurs, and the entries of every annotation are a table

## Main results

* `TypeRef.ofJson?_toJson`, `AnnotationValue.ofJson?_toJson`, `Member.ofJson?_toJson` and
  companions — parts are read back
* `TypeDecl.toJson_lossless` — declarations are read back, and different ones have different forms
-/

namespace ClassSketch

open Json

/-! ### Words -/

theorem Primitive.ofKeyword?_keyword (p : Primitive) : ofKeyword? p.keyword = some p := by
  cases p <;> rfl

theorem Variance.ofKeyword?_keyword (v : Variance) : ofKeyword? v.keyword = some v := by
  cases v <;> rfl

theorem Modifier.ofKeyword?_keyword (m : Modifier) : ofKeyword? m.keyword = some m := by
  cases m <;> rfl

theorem TypeKind.ofTag?_tag (k : TypeKind) : ofTag? k.tag = some k := by
  cases k <;> rfl

/-! ### Texts -/

theorem listOf?_texts (texts : List String) : (ofList str texts).listOf? asString? = some texts :=
  listOf?_ofList fun _ _ => rfl

theorem asOption?_text (text : Option String) :
    (ofOption str text).asOption? asString? = some text :=
  asOption?_ofOption (fun _ _ => Json.noConfusion) fun _ _ => rfl

/-! ### Modifiers -/

theorem Modifier.mem_all (m : Modifier) : m ∈ all := by
  cases m <;> simp [all]

instance : LawfulBEq Modifier where
  eq_of_beq {m n} h := by cases m <;> cases n <;> first | rfl | cases h
  rfl {m} := by cases m <;> rfl

/-- A set of modifiers is made of those that it lists. -/
theorem Modifiers.ofList_toList (s : Modifiers) : ofList s.toList = s := by
  have hHas : (ofList s.toList).has = s.has := by
    funext m
    rw [ofList, toList, Bool.eq_iff_iff, List.contains_iff_mem, List.mem_filter]
    exact and_iff_right m.mem_all
  cases s
  exact congrArg Modifiers.mk hHas

theorem Modifiers.ofJson?_toJson (s : Modifiers) : ofJson? s.toJson = some s := by
  have hWords : s.toJson.listOf? (fun word => word.asString?.bind Modifier.ofKeyword?) =
      some s.toList :=
    listOf?_ofList fun m _ => Modifier.ofKeyword?_keyword m
  rw [ofJson?, hWords, Option.map_some, ofList_toList]

/-! ### Names and types -/

/-- Names of classes are read back. -/
theorem ClassName.ofJson?_toJson (c : ClassName) : ofJson? c.toJson = some c := by
  simp [ofJson?, toJson, asString?, listOf?_texts]

namespace TypeRef

theorem toJsonAll_eq_map (types : List TypeRef) : toJsonAll types = types.map toJson := by
  induction types with
  | nil => rfl
  | cons type types ih => rw [toJsonAll, ih, List.map_cons]

theorem toJsonBound_eq (bound : Option TypeRef) : toJsonBound bound = .ofOption toJson bound := by
  cases bound <;> rfl

/-- A type is never written as null, so that a missing type can be told from it. -/
theorem toJson_ne_null (type : TypeRef) : type.toJson ≠ .null := by
  cases type <;> exact Json.noConfusion

/-- A type is read back at every depth that is enough for it. -/
theorem ofJsonWithin_toJson {depth : ℕ} :
    ∀ {type : TypeRef}, type.toJson.depth ≤ depth → ofJsonWithin depth type.toJson = some type := by
  induction depth with
  | zero =>
    intro type h
    exact absurd h (not_depth_le_zero _)
  | succ depth ih =>
    intro type h
    cases type with
    | primitive p => simp [toJson, ofJsonWithin, asString?, Primitive.ofKeyword?_keyword]
    | array element =>
      have hElement : element.toJson.depth < depth + 1 := (depth_lt_ofChoice _ _).trans_le h
      simp [toJson, ofJsonWithin, ih (Nat.le_of_lt_succ hElement)]
    | classType name arguments =>
      rw [toJson, toJsonAll_eq_map] at h ⊢
      have hArguments : (Json.arr (arguments.map toJson)).listOf? (ofJsonWithin depth) =
          some arguments := by
        refine listOf?_ofList fun argument hArgument => ih (Nat.le_of_lt_succ ?_)
        calc argument.toJson.depth
            < _ := depth_lt_arr (List.mem_map_of_mem hArgument)
          _ < _ := depth_lt_obj (by simp)
          _ < _ := depth_lt_ofChoice _ _
          _ ≤ depth + 1 := h
      simp [ofJsonWithin, ClassName.ofJson?_toJson, hArguments]
    | typeVariable name => simp [toJson, ofJsonWithin, asString?]
    | wildcard variance bound =>
      rw [toJson, toJsonBound_eq] at h ⊢
      have hBound : (Json.ofOption toJson bound).asOption? (ofJsonWithin depth) = some bound := by
        refine asOption?_ofOption (fun _ _ => toJson_ne_null _) fun type hType =>
          ih (Nat.le_of_lt_succ ?_)
        cases hType
        calc type.toJson.depth
            < _ := depth_lt_obj (by simp [ofOption])
          _ < _ := depth_lt_ofChoice _ _
          _ ≤ depth + 1 := h
      simp [ofJsonWithin, asString?, Variance.ofKeyword?_keyword, hBound]

/-- Types are read back, however deeply they are nested. -/
theorem ofJson?_toJson (type : TypeRef) : ofJson? type.toJson = some type :=
  ofJsonWithin_toJson (Nat.le_refl _)

theorem listOf?_types (types : List TypeRef) :
    (ofList toJson types).listOf? ofJson? = some types :=
  listOf?_ofList fun type _ => ofJson?_toJson type

theorem asOption?_type (type : Option TypeRef) :
    (ofOption toJson type).asOption? ofJson? = some type :=
  asOption?_ofOption (fun type _ => toJson_ne_null type) fun type _ => ofJson?_toJson type

end TypeRef

/-- Type parameters are read back. -/
theorem TypeParameter.ofJson?_toJson (p : TypeParameter) : ofJson? p.toJson = some p := by
  simp [ofJson?, toJson, asString?, TypeRef.listOf?_types]

theorem TypeParameter.listOf?_parameters (ps : List TypeParameter) :
    (ofList toJson ps).listOf? ofJson? = some ps :=
  listOf?_ofList fun p _ => p.ofJson?_toJson

/-! ### Literals -/

namespace Literal

/-- Whether a literal is a floating point constant. -/
def isFloating : Literal → Bool
  | float _ | double _ => true
  | _ => false

theorem toJson_ne_null (l : Literal) : l.toJson ≠ .null := by
  cases l <;> exact Json.noConfusion

/-- Every literal but a floating point constant is read back. -/
theorem ofJson?_toJson {l : Literal} (h : l.isFloating = false) : ofJson? l.toJson = some l := by
  cases l with
  | string s => simp [ofJson?, toJson, asString?]
  | boolean b => simp [ofJson?, toJson, asBool?]
  | byte n =>
    have hRange : (Json.int n.toInt).intWithin? (-0x80) 0x7F = some n.toInt :=
      intWithin?_of_le (Int8.le_toInt n) (Int.le_sub_one_of_lt (Int8.toInt_lt n))
    simp [ofJson?, toJson, hRange]
  | char c escaped => simp [ofJson?, toJson, asString?, oneChar?]
  | short n =>
    have hRange : (Json.int n.toInt).intWithin? (-0x8000) 0x7FFF = some n.toInt :=
      intWithin?_of_le (Int16.le_toInt n) (Int.le_sub_one_of_lt (Int16.toInt_lt n))
    simp [ofJson?, toJson, hRange]
  | int n =>
    have hRange : (Json.int n.toInt).intWithin? (-0x80000000) 0x7FFFFFFF = some n.toInt :=
      intWithin?_of_le (Int32.le_toInt n) (Int.le_sub_one_of_lt (Int32.toInt_lt n))
    simp [ofJson?, toJson, hRange]
  | long n =>
    have hRange : (Json.int n.toInt).intWithin? (-0x8000000000000000) 0x7FFFFFFFFFFFFFFF =
        some n.toInt :=
      intWithin?_of_le (Int64.le_toInt n) (Int.le_sub_one_of_lt (Int64.toInt_lt n))
    simp [ofJson?, toJson, hRange]
  | float x => cases h
  | double x => cases h

/-- An infinite constant has the form of one that is no number. -/
example : (float ⟨0x7F800000⟩).toJson = (float ⟨0x7FC00000⟩).toJson := rfl

end Literal

/-! ### Annotations -/

/-- Neither a floating point constant nor an annotation with two entries of one name occurs in the
value. -/
inductive AnnotationValue.Exact : AnnotationValue → Prop where
  | literal {value : Literal} (notFloating : value.isFloating = false) : Exact (.literal value)
  | enumConstant (type : ClassName) (constant : String) : Exact (.enumConstant type constant)
  | classRef (type : TypeRef) : Exact (.classRef type)
  | nested {type : ClassName} {entries : List (String × AnnotationValue)}
      (names : (entries.map Prod.fst).Nodup) (values : ∀ e ∈ entries, Exact e.2) :
      Exact (.nested type entries)
  | array {items : List AnnotationValue} (values : ∀ v ∈ items, Exact v) : Exact (.array items)

/-- The entries of the annotation have different names, and no floating point constant occurs in
them. -/
structure Annotation.Exact (a : Annotation) : Prop where
  names : (a.entries.map Prod.fst).Nodup
  values : ∀ e ∈ a.entries, e.2.Exact

/-- An annotation is read back if its values are and if no name is there twice. -/
theorem annotationParts?_annotationJson {read : Json → Option AnnotationValue} {type : ClassName}
    {entries : List (String × AnnotationValue)} (hNames : (entries.map Prod.fst).Nodup)
    (hValues : ∀ e ∈ entries, read e.2.toJson = some e.2) :
    annotationParts? read
        (annotationJson type (entries.map fun e => (e.1, e.2.toJson))) = some (type, entries) := by
  have hEntries : (entries.map fun e => (e.1, e.2.toJson)).mapM
      (fun e => (read e.2).map fun v => (e.1, v)) = some entries :=
    mapM_map_of_forall fun e he => congrArg (Option.map fun v => (e.1, v)) (hValues e he)
  have hTable : entries.foldl (fun done e => putEntry e.1 e.2 done) [] = entries :=
    foldl_putEntry hNames
  rw [annotationParts?, annotationJson, get?_cons_self, ClassName.ofJson?_toJson,
    field?_cons_of_ne (by simp), field?_cons_self]
  -- the reader takes the pairs apart
  change ((entries.map fun e => (e.1, e.2.toJson)).mapM
    (fun e => (read e.2).map fun v => (e.1, v))).bind (fun values => some
      (type, values.foldl (fun done e => putEntry e.1 e.2 done) [])) = some (type, entries)
  rw [hEntries, Option.bind_some, hTable]

namespace AnnotationValue

theorem toJsonAll_eq_map (values : List AnnotationValue) :
    toJsonAll values = values.map toJson := by
  induction values with
  | nil => rfl
  | cons value values ih => rw [toJsonAll, ih, List.map_cons]

theorem toJsonEntries_eq_map (entries : List (String × AnnotationValue)) :
    toJsonEntries entries = entries.map fun e => (e.1, e.2.toJson) := by
  induction entries with
  | nil => rfl
  | cons entry entries ih => rw [toJsonEntries, ih, List.map_cons]

theorem toJson_ne_null (value : AnnotationValue) : value.toJson ≠ .null := by
  cases value <;> exact Json.noConfusion

/-- The value of an entry is less deep than the annotation. -/
theorem depth_lt_annotationJson {type : ClassName} {entries : List (String × AnnotationValue)}
    {e : String × AnnotationValue} (he : e ∈ entries) :
    e.2.toJson.depth < (annotationJson type (entries.map fun e => (e.1, e.2.toJson))).depth := by
  calc e.2.toJson.depth
      < (Json.obj (entries.map fun e => (e.1, e.2.toJson))).depth :=
        depth_lt_obj (List.mem_map_of_mem (List.mem_map_of_mem he))
    _ < _ := depth_lt_obj (by simp)

/-- A value is read back at every depth that is enough for it. -/
theorem ofJsonWithin_toJson {depth : ℕ} : ∀ {value : AnnotationValue}, value.Exact →
    value.toJson.depth ≤ depth → ofJsonWithin depth value.toJson = some value := by
  induction depth with
  | zero =>
    intro value _ h
    exact absurd h (not_depth_le_zero _)
  | succ depth ih =>
    intro value hExact h
    cases hExact with
    | literal hLiteral => simp [toJson, ofJsonWithin, Literal.ofJson?_toJson hLiteral]
    | enumConstant type constant =>
      simp [toJson, ofJsonWithin, Json.asString?, ClassName.ofJson?_toJson]
    | classRef type => simp [toJson, ofJsonWithin, TypeRef.ofJson?_toJson]
    | @nested type entries hNames hValues =>
      rw [toJson, toJsonEntries_eq_map] at h ⊢
      have hParts : annotationParts? (ofJsonWithin depth)
          (annotationJson type (entries.map fun e => (e.1, e.2.toJson))) =
            some (type, entries) := by
        refine annotationParts?_annotationJson hNames fun e he =>
          ih (hValues e he) (Nat.le_of_lt_succ ?_)
        calc e.2.toJson.depth
            < _ := depth_lt_annotationJson he
          _ < _ := depth_lt_ofChoice _ _
          _ ≤ depth + 1 := h
      simp [ofJsonWithin, hParts]
    | @array items hValues =>
      rw [toJson, toJsonAll_eq_map] at h ⊢
      have hItems : (Json.arr (items.map toJson)).listOf? (ofJsonWithin depth) = some items := by
        refine listOf?_ofList fun item hItem => ih (hValues item hItem) (Nat.le_of_lt_succ ?_)
        calc item.toJson.depth
            < _ := depth_lt_arr (List.mem_map_of_mem hItem)
          _ < _ := depth_lt_ofChoice _ _
          _ ≤ depth + 1 := h
      simp [ofJsonWithin, hItems]

theorem ofJson?_toJson {value : AnnotationValue} (h : value.Exact) :
    ofJson? value.toJson = some value :=
  ofJsonWithin_toJson h (Nat.le_refl _)

end AnnotationValue

namespace Annotation

theorem ofJson?_toJson {a : Annotation} (h : a.Exact) : ofJson? a.toJson = some a := by
  have hParts : annotationParts? AnnotationValue.ofJson?
      (annotationJson a.type (a.entries.map fun e => (e.1, e.2.toJson))) =
        some (a.type, a.entries) :=
    annotationParts?_annotationJson h.names fun e he =>
      AnnotationValue.ofJson?_toJson (h.values e he)
  simp [ofJson?, toJson, AnnotationValue.toJsonEntries_eq_map, hParts]

theorem listOf?_annotations {as : List Annotation} (h : ∀ a ∈ as, a.Exact) :
    (ofList toJson as).listOf? ofJson? = some as :=
  listOf?_ofList fun a ha => ofJson?_toJson (h a ha)

end Annotation

/-! ### Members -/

/-- No floating point constant occurs in the field, and its annotations are tables. -/
structure FieldDecl.Exact (f : FieldDecl) : Prop where
  annotations : ∀ a ∈ f.annotations, a.Exact
  constant : ∀ l ∈ f.constant, l.isFloating = false

/-- No floating point constant occurs in the parameter's annotations, and they are tables. -/
def Parameter.Exact (p : Parameter) : Prop := ∀ a ∈ p.annotations, a.Exact

/-- No floating point constant occurs in the method or constructor, and all annotations in it are
tables. -/
structure ExecutableDecl.Exact (e : ExecutableDecl) : Prop where
  annotations : ∀ a ∈ e.annotations, a.Exact
  parameters : ∀ p ∈ e.parameters, p.Exact
  defaultValue : ∀ v ∈ e.defaultValue, v.Exact

/-- No floating point constant occurs in the member, and all annotations in it are tables. -/
def Member.Exact : Member → Prop
  | .field f => f.Exact
  | .executable e => e.Exact

/-- Fields are read back. -/
theorem FieldDecl.ofJson?_toJson {f : FieldDecl} (h : f.Exact) : ofJson? f.toJson = some f := by
  have hConstant : (Json.ofOption Literal.toJson f.constant).asOption? Literal.ofJson? =
      some f.constant :=
    asOption?_ofOption (fun l _ => l.toJson_ne_null) fun l hl =>
      Literal.ofJson?_toJson (h.constant l hl)
  simp [ofJson?, toJson, asString?, asBool?, Modifiers.ofJson?_toJson,
    Annotation.listOf?_annotations h.annotations, asOption?_text, TypeRef.ofJson?_toJson, hConstant]

theorem Parameter.ofJson?_toJson {p : Parameter} (h : p.Exact) : ofJson? p.toJson = some p := by
  simp [ofJson?, toJson, asString?, TypeRef.ofJson?_toJson, Annotation.listOf?_annotations h]

/-- Methods and constructors are read back. -/
theorem ExecutableDecl.ofJson?_toJson {e : ExecutableDecl} (h : e.Exact) :
    ofJson? e.toJson = some e := by
  have hParameters : (Json.ofList Parameter.toJson e.parameters).listOf? Parameter.ofJson? =
      some e.parameters :=
    listOf?_ofList fun p hp => Parameter.ofJson?_toJson (h.parameters p hp)
  have hDefault : (Json.ofOption AnnotationValue.toJson e.defaultValue).asOption?
      AnnotationValue.ofJson? = some e.defaultValue :=
    asOption?_ofOption (fun v _ => v.toJson_ne_null) fun v hv =>
      AnnotationValue.ofJson?_toJson (h.defaultValue v hv)
  simp [ofJson?, toJson, asString?, Modifiers.ofJson?_toJson,
    Annotation.listOf?_annotations h.annotations, asOption?_text,
    TypeParameter.listOf?_parameters, TypeRef.asOption?_type, hParameters, TypeRef.listOf?_types,
    hDefault]

/-- Members are read back, and fields are told from methods. -/
theorem Member.ofJson?_toJson {m : Member} (h : m.Exact) : ofJson? m.toJson = some m := by
  cases m with
  | field f => simp [ofJson?, toJson, FieldDecl.ofJson?_toJson h]
  | executable e => simp [ofJson?, toJson, ExecutableDecl.ofJson?_toJson h]

/-! ### Declarations -/

namespace TypeDecl

/-- No floating point constant occurs in the type or a type nested in it, and all annotations there
are tables. -/
inductive Exact : TypeDecl → Prop where
  | intro {t : TypeDecl} (members : ∀ m ∈ t.members, m.Exact)
      (annotations : ∀ a ∈ t.annotations, a.Exact)
      (nestedTypes : ∀ inner ∈ t.nestedTypes, Exact inner) : Exact t

theorem toJsonAll_eq_map (ts : List TypeDecl) : toJsonAll ts = ts.map toJson := by
  induction ts with
  | nil => rfl
  | cons t ts ih => rw [toJsonAll, ih, List.map_cons]

/-- A declaration may contain declarations, and so is not made of its parts by definition. -/
theorem eta (t : TypeDecl) :
    ⟨t.kind, t.name, t.modifiers, t.superclass, t.superinterfaces, t.typeParameters, t.members,
      t.nestedTypes, t.documentation, t.annotations⟩ = t := by
  cases t
  rfl

/-- A type is written as an object with its parts in the order in which they are declared. -/
theorem toJson_eq (t : TypeDecl) : t.toJson =
    .obj [("kind", .str t.kind.tag), ("name", t.name.toJson), ("modifiers", t.modifiers.toJson),
      ("superclass", .ofOption TypeRef.toJson t.superclass),
      ("superinterfaces", .ofList TypeRef.toJson t.superinterfaces),
      ("type_parameters", .ofList TypeParameter.toJson t.typeParameters),
      ("members", .ofList Member.toJson t.members),
      ("nested_types", .ofList toJson t.nestedTypes),
      ("documentation", .ofOption .str t.documentation),
      ("annotations", .ofList Annotation.toJson t.annotations)] := by
  cases t
  rw [toJson, toJsonAll_eq_map]
  rfl

/-- A declaration is read back at every depth that is enough for it. -/
theorem ofJsonWithin_toJson {depth : ℕ} : ∀ {t : TypeDecl}, t.Exact → t.toJson.depth ≤ depth →
    ofJsonWithin depth t.toJson = some t := by
  induction depth with
  | zero =>
    intro t _ h
    exact absurd h (not_depth_le_zero _)
  | succ depth ih =>
    rintro t ⟨hMembers, hAnnotations, hNested⟩ h
    rw [toJson_eq] at h ⊢
    have hMembers : (Json.ofList Member.toJson t.members).listOf? Member.ofJson? =
        some t.members :=
      listOf?_ofList fun m hm => Member.ofJson?_toJson (hMembers m hm)
    have hInner : (Json.ofList toJson t.nestedTypes).listOf? (ofJsonWithin depth) =
        some t.nestedTypes := by
      refine listOf?_ofList fun inner hMem => ih (hNested inner hMem) (Nat.le_of_lt_succ ?_)
      calc inner.toJson.depth
          < (Json.ofList toJson t.nestedTypes).depth := depth_lt_arr (List.mem_map_of_mem hMem)
        _ < _ := depth_lt_obj (by simp)
        _ ≤ depth + 1 := h
    simp [ofJsonWithin, asString?, TypeKind.ofTag?_tag, ClassName.ofJson?_toJson,
      Modifiers.ofJson?_toJson, TypeRef.asOption?_type, TypeRef.listOf?_types,
      TypeParameter.listOf?_parameters, hMembers, hInner, asOption?_text,
      Annotation.listOf?_annotations hAnnotations, eta]

/-- A declaration without floating point constants is read back from its JSON form, so that
different declarations have different forms. -/
theorem toJson_lossless {t : TypeDecl} (h : t.Exact) :
    ofJson? t.toJson = some t ∧ ∀ u : TypeDecl, u.Exact → u.toJson = t.toJson → u = t := by
  have hRead : ∀ {u : TypeDecl}, u.Exact → ofJson? u.toJson = some u :=
    fun hu => ofJsonWithin_toJson hu (Nat.le_refl _)
  refine ⟨hRead h, fun u hu hSame => Option.some_injective _ ?_⟩
  rw [← hRead hu, hSame, hRead h]

/-- An annotation type whose default is an array of annotations. -/
def tagged : TypeDecl where
  kind := .annotationType
  name := ⟨"p", ["Ledger", "Tagged"]⟩
  members := [.executable {
    name := "tags"
    returnType := some (.array (.ofClass ⟨"p", ["Tag"]⟩))
    defaultValue := some (.array [.nested ⟨"p", ["Tag"]⟩
      [("text", .literal (.string "é")), ("of", .classRef (.primitive .void))]]) }]

/-- A generic class with constants and a nested type. -/
def ledger : TypeDecl where
  kind := .classType
  name := ⟨"p", ["Ledger"]⟩
  modifiers := .ofList [.isFinal, .isPublic]
  superinterfaces := [.classType ⟨"java.util", ["Map"]⟩
    [.wildcard .unbounded none, .wildcard .upper (some (.typeVariable "T"))]]
  typeParameters := [⟨"T", [.ofClass .object]⟩]
  members := [
    .field { name := "mark", type := .primitive .char, constant := some (.char '\t' "\\t") },
    .field { name := "least", type := .primitive .long, constant := some (.long Int64.minValue) }]
  nestedTypes := [tagged]
  documentation := some "Entries."
  annotations := [⟨⟨"p", ["Kept"]⟩, [("policy", .enumConstant ⟨"p", ["Policy"]⟩ "CLASS")]⟩]

theorem toJson_lossless_ledger :
    ledger.Exact ∧ ofJson? ledger.toJson = some ledger ∧ tagged.toJson ≠ ledger.toJson := by
  have hTags : (AnnotationValue.array [.nested ⟨"p", ["Tag"]⟩
      [("text", .literal (.string "é")), ("of", .classRef (.primitive .void))]]).Exact := by
    refine .array fun v hv => ?_
    rw [List.mem_singleton] at hv
    subst hv
    refine .nested (by decide) ?_
    simp only [List.forall_mem_cons]
    exact ⟨.literal rfl, .classRef _, by simp⟩
  have hTagged : tagged.Exact := by
    refine .intro ?_ (by simp [tagged]) (by simp [tagged])
    simp only [tagged, List.forall_mem_cons]
    exact ⟨⟨by simp, by simp, fun v hv => by cases hv; exact hTags⟩, by simp⟩
  have hLedger : ledger.Exact := by
    refine .intro ?_ ?_ ?_
    · simp only [ledger, List.forall_mem_cons]
      exact ⟨⟨by simp, by simp [Literal.isFloating]⟩, ⟨by simp, by simp [Literal.isFloating]⟩,
        by simp⟩
    · simp only [ledger, List.forall_mem_cons]
      refine ⟨⟨by decide, ?_⟩, by simp⟩
      simp only [List.forall_mem_cons]
      exact ⟨.enumConstant _ _, by simp⟩
    · simp only [ledger, List.forall_mem_cons]
      exact ⟨hTagged, by simp⟩
  obtain ⟨hRead, hDiffers⟩ := toJson_lossless hLedger
  refine ⟨hLedger, hRead, fun hSame => ?_⟩
  have hKinds : TypeKind.annotationType = TypeKind.classType :=
    congrArg TypeDecl.kind (hDiffers tagged hTagged hSame)
  cases hKinds

end TypeDecl

end ClassSketch
