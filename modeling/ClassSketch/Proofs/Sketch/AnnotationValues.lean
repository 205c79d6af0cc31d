import ClassSketch.Proofs.Entries
import ClassSketch.Proofs.Signature.Faults
import ClassSketch.Sketch.Values

/-!
# Decoding annotations

The values of an annotation are nested to any depth, and whatever is in them has to be sound: a
single descriptor that names nothing, or a constant that is stored as another kind of constant, and
the whole annotation is refused. The parts that can be refused are listed in the order in which they
are stored, and the error is that of the first one that is not sound. An element that is given again
replaces the value of the earlier one, but not its faults.

## Composition

`Stops` says of a computation that it fails with the error of the first unsound part of a list. It
composes along the list, so that each constructor of an element needs one line.

## Main definitions

* `AnnotationPart`, `RawAnnotation.parts` — what of an annotation can be refused, in order
* `AnnotationPart.Sound`, `AnnotationPart.Refuses` — when a part is sound, and its error otherwise
* `FirstRefused` — the error of the first part that is not sound
* `Decodes`, `RawAnnotation.Decodes` — what an element and an annotation stand for

## Main results

* `AnnotationValue.ofElement_stops` — an element is decoded unless a part of it is refused
* `AnnotationValue.ofElement_eq_ok_iff` — what an element is decoded to
* `Annotation.ofRaw_faithful` — both for annotations, with the entries that come of it
-/

namespace ClassSketch

open Signature

/-! ### Constants -/

/-- The literal of a constant with the tag of an annotation element. Five tags share the storage of
integers, and every other one has its own. -/
inductive Literal.OfConstant : Char → Constant → Literal → Prop
  | string (text : String) : OfConstant 's' (.string text) (.string text)
  | boolean (n : Int32) : OfConstant 'Z' (.int n) (.boolean (n != 0))
  | byte (n : Int32) : OfConstant 'B' (.int n) (.byte n.toInt8)
  | short (n : Int32) : OfConstant 'S' (.int n) (.short n.toInt16)
  | char (n : Int32) : OfConstant 'C' (.int n) (.ofCode n)
  | int (n : Int32) : OfConstant 'I' (.int n) (.int n)
  | long (n : Int64) : OfConstant 'J' (.long n) (.long n)
  | float (x : Binary32) : OfConstant 'F' (.float x) (.float x)
  | double (x : Binary64) : OfConstant 'D' (.double x) (.double x)

/-- A constant is accepted as the literal that its letter makes of it. -/
theorem Literal.ofElement_eq_ok_iff {tag : UInt8} {value : Constant} {l : Literal} :
    Literal.ofElement tag value = .ok l ↔ OfConstant (Text.byteChar tag) value l := by
  rw [Literal.ofElement.eq_def]
  generalize Text.byteChar tag = letter
  constructor
  · intro h
    split at h <;> cases h <;> constructor
  · intro h
    cases h <;> rfl

theorem Literal.ofElement_eq_error_iff {tag : UInt8} {value : Constant} {e : ClassFile.Error} :
    Literal.ofElement tag value = .error e ↔
      (∀ l, ¬OfConstant (Text.byteChar tag) value l) ∧
        e = .constantMismatch (Text.byteChar tag) := by
  have hMismatch : ∀ e', Literal.ofElement tag value = .error e' →
      e' = .constantMismatch (Text.byteChar tag) := by
    intro e' h
    rw [Literal.ofElement.eq_def] at h
    split at h <;> cases h
    rfl
  simp only [← Literal.ofElement_eq_ok_iff]
  constructor
  · intro h
    refine ⟨fun l hl => ?_, hMismatch e h⟩
    rw [h] at hl
    cases hl
  · rintro ⟨hNone, rfl⟩
    cases h : Literal.ofElement tag value with
    | ok l => exact absurd h (hNone l)
    | error e' => rw [hMismatch e' h]

/-! ### Parts -/

/-- What of an annotation can be refused: the descriptor of its class, or of that of an enum
constant; the descriptor of a class literal; a constant with its tag. -/
inductive AnnotationPart where
  | className (descriptor : String)
  | classLiteral (descriptor : String)
  | constant (tag : UInt8) (value : Constant)

namespace AnnotationPart

/-- When a part is sound. -/
def Sound : AnnotationPart → Prop
  | className descriptor => ∃ c, NamesClass descriptor c
  | classLiteral descriptor => ∃ t, NamesType descriptor t
  | constant tag value => ∃ l, Literal.OfConstant (Text.byteChar tag) value l

/-- The error of a part that is not sound. -/
inductive Refuses : AnnotationPart → ClassFile.Error → Prop
  | className {descriptor : String} {f : DescriptorFault} (h : ClassFault descriptor.toList f) :
      Refuses (.className descriptor) (.invalidDescriptor descriptor f)
  | classLiteral {descriptor : String} {f : DescriptorFault} (hVoid : descriptor ≠ "V")
      (h : FieldFault descriptor.toList f) :
      Refuses (.classLiteral descriptor) (.invalidDescriptor descriptor f)
  | constant {tag : UInt8} {value : Constant}
      (h : ∀ l, ¬Literal.OfConstant (Text.byteChar tag) value l) :
      Refuses (.constant tag value) (.constantMismatch (Text.byteChar tag))

end AnnotationPart

namespace Element

mutual

/-- The parts of an element, in the order in which they are stored. -/
def parts : Element → List AnnotationPart
  | constant tag value => [.constant tag value]
  | enumConstant type _ => [.className type]
  | classLiteral descriptor => [.classLiteral descriptor]
  | nested type elements => .className type :: partsOfEntries elements
  | array items => partsOfItems items

/-- The parts of the items of an array. -/
def partsOfItems : List Element → List AnnotationPart
  | [] => []
  | item :: items => item.parts ++ partsOfItems items

/-- The parts of the elements of an annotation. -/
def partsOfEntries : List (String × Element) → List AnnotationPart
  | [] => []
  | (_, element) :: elements => element.parts ++ partsOfEntries elements

end

end Element

/-- The parts of an annotation: its class, and the parts of its elements. -/
def RawAnnotation.parts (a : RawAnnotation) : List AnnotationPart :=
  .className a.type :: Element.partsOfEntries a.elements

/-! ### The first part that is refused -/

/-- The error of the first part that is not sound. -/
def FirstRefused (ps : List AnnotationPart) (e : ClassFile.Error) : Prop :=
  ∃ front p back, ps = front ++ p :: back ∧ (∀ q ∈ front, q.Sound) ∧ p.Refuses e

variable {α β : Type} {p : AnnotationPart} {ps qs : List AnnotationPart} {e : ClassFile.Error}

theorem not_firstRefused_nil : ¬FirstRefused [] e := by
  rintro ⟨front, p, back, h, -⟩
  simp at h

theorem firstRefused_cons :
    FirstRefused (p :: ps) e ↔ p.Refuses e ∨ p.Sound ∧ FirstRefused ps e := by
  constructor
  · rintro ⟨front, q, back, h, hFront, hRefuses⟩
    cases front with
    | nil =>
      cases h
      exact .inl hRefuses
    | cons r front =>
      cases h
      obtain ⟨hSound, hFront⟩ := List.forall_mem_cons.mp hFront
      exact .inr ⟨hSound, front, q, back, rfl, hFront, hRefuses⟩
  · rintro (hRefuses | ⟨hSound, front, q, back, rfl, hFront, hRefuses⟩)
    · exact ⟨[], p, ps, rfl, List.forall_mem_nil _, hRefuses⟩
    · exact ⟨p :: front, q, back, rfl, List.forall_mem_cons.mpr ⟨hSound, hFront⟩, hRefuses⟩

/-- The first part that is refused is among the first parts, or they are all sound. -/
theorem firstRefused_append :
    FirstRefused (ps ++ qs) e ↔ FirstRefused ps e ∨ (∀ p ∈ ps, p.Sound) ∧ FirstRefused qs e := by
  induction ps with
  | nil => simp [not_firstRefused_nil]
  | cons p ps ih =>
    rw [List.cons_append, firstRefused_cons, firstRefused_cons, ih, List.forall_mem_cons]
    tauto

/-! ### Computations that stop at the first part that is refused -/

/-- A computation checks parts one after the other and fails with the error of the first that is not
sound. -/
structure Stops (x : Except ClassFile.Error α) (ps : List AnnotationPart) : Prop where
  isOk_iff : (∃ a, x = .ok a) ↔ ∀ p ∈ ps, p.Sound
  eq_error_iff : ∀ e, x = .error e ↔ FirstRefused ps e

namespace Stops

theorem pure (a : α) : Stops (.ok a) [] :=
  ⟨by simp, fun e => by simp [not_firstRefused_nil]⟩

theorem single {x : Except ClassFile.Error α} (hOk : (∃ a, x = .ok a) ↔ p.Sound)
    (hError : ∀ e, x = .error e ↔ p.Refuses e) : Stops x [p] :=
  ⟨by simpa using hOk, fun e => by simp [firstRefused_cons, not_firstRefused_nil, hError]⟩

/-- A second computation stops at the parts that come after those of the first. -/
theorem bind {x : Except ClassFile.Error α} {f : α → Except ClassFile.Error β} (hx : Stops x ps)
    (hf : ∀ a, x = .ok a → Stops (f a) qs) : Stops (x >>= f) (ps ++ qs) where
  isOk_iff := by
    rw [List.forall_mem_append, ← hx.isOk_iff]
    constructor
    · rintro ⟨b, hb⟩
      obtain ⟨a, ha, hb⟩ := Except.bind_eq_ok.mp hb
      exact ⟨⟨a, ha⟩, (hf a ha).isOk_iff.mp ⟨b, hb⟩⟩
    · rintro ⟨⟨a, ha⟩, hSound⟩
      obtain ⟨b, hb⟩ := (hf a ha).isOk_iff.mpr hSound
      exact ⟨b, Except.bind_eq_ok.mpr ⟨a, ha, hb⟩⟩
  eq_error_iff e := by
    rw [Except.bind_eq_error, firstRefused_append, hx.eq_error_iff, ← hx.isOk_iff]
    refine or_congr_right ⟨?_, ?_⟩
    · rintro ⟨a, ha, h⟩
      exact ⟨⟨a, ha⟩, ((hf a ha).eq_error_iff e).mp h⟩
    · rintro ⟨⟨a, ha⟩, h⟩
      exact ⟨a, ha, ((hf a ha).eq_error_iff e).mpr h⟩

/-- What is made of the result does not matter. -/
theorem map {x : Except ClassFile.Error α} (hx : Stops x ps) (g : α → β) :
    Stops (x >>= fun a => .ok (g a)) ps := by
  have h : Stops (x >>= fun a => .ok (g a)) (ps ++ []) := hx.bind fun a _ => Stops.pure (g a)
  rwa [List.append_nil] at h

end Stops

theorem className_stops (descriptor : String) :
    Stops (Descriptor.className descriptor) [.className descriptor] := by
  refine Stops.single (exists_congr fun _ => className_eq_ok_iff) fun e => ?_
  rw [className_eq_error_iff]
  constructor
  · rintro ⟨f, h, rfl⟩
    exact .className h
  · intro h
    cases h with
    | className h => exact ⟨_, h, rfl⟩

theorem classLiteral_stops (descriptor : String) :
    Stops (Descriptor.returnType descriptor) [.classLiteral descriptor] := by
  refine Stops.single (exists_congr fun _ => returnType_eq_ok_iff) fun e => ?_
  rw [returnType_eq_error_iff]
  constructor
  · rintro ⟨hVoid, f, h, rfl⟩
    exact .classLiteral hVoid h
  · intro h
    cases h with
    | classLiteral hVoid h => exact ⟨hVoid, _, h, rfl⟩

theorem constant_stops (tag : UInt8) (value : Constant) :
    Stops (Literal.ofElement tag value) [.constant tag value] := by
  refine Stops.single (exists_congr fun _ => Literal.ofElement_eq_ok_iff) fun e => ?_
  rw [Literal.ofElement_eq_error_iff]
  constructor
  · rintro ⟨h, rfl⟩
    exact .constant h
  · intro h
    cases h with
    | constant h => exact ⟨h, rfl⟩

namespace AnnotationValue

mutual

/-- An element is decoded unless a part of it is refused. -/
theorem ofElement_stops : ∀ element : Element, Stops (ofElement element) element.parts
  | .constant tag value => (constant_stops tag value).map literal
  | .enumConstant type name => (className_stops type).map fun c => enumConstant c name
  | .classLiteral descriptor => (classLiteral_stops descriptor).map classRef
  | .nested type elements =>
    (className_stops type).bind fun c _ =>
      (ofElements_stops elements).map fun values => nested c (writeEntries values)
  | .array items => (ofItems_stops items).map array

/-- Items stop at the first part of one of them, in order. -/
theorem ofItems_stops : ∀ items : List Element, Stops (ofItems items) (Element.partsOfItems items)
  | [] => Stops.pure []
  | item :: items =>
    (ofElement_stops item).bind fun value _ => (ofItems_stops items).map fun values =>
      value :: values

theorem ofElements_stops : ∀ elements : List (String × Element),
    Stops (ofElements elements) (Element.partsOfEntries elements)
  | [] => Stops.pure []
  | (name, element) :: elements =>
    (ofElement_stops element).bind fun value _ => (ofElements_stops elements).map fun values =>
      (name, value) :: values

end

end AnnotationValue

/-! ### What an element stands for -/

/-- The table that entries make when they are written one after the other: a name comes where it is
first given, with the value that is given last. -/
def Collects {α : Type} (given entries : List (String × α)) : Prop :=
  entries.map Prod.fst = (given.map Prod.fst).eraseDups ∧
    ∀ name, valueOf? name entries = valueOf? name given.reverse

/-- What an element stands for. An array keeps its items in their order. -/
inductive Decodes : Element → AnnotationValue → Prop
  | constant {tag : UInt8} {value : Constant} {l : Literal}
      (h : Literal.OfConstant (Text.byteChar tag) value l) :
      Decodes (.constant tag value) (.literal l)
  | enumConstant {type name : String} {c : ClassName} (h : NamesClass type c) :
      Decodes (.enumConstant type name) (.enumConstant c name)
  | classLiteral {descriptor : String} {t : TypeRef} (h : NamesType descriptor t) :
      Decodes (.classLiteral descriptor) (.classRef t)
  | nested {type : String} {c : ClassName} {elements : List (String × Element)}
      {given entries : List (String × AnnotationValue)} (hType : NamesClass type c)
      (hNames : given.map Prod.fst = elements.map Prod.fst)
      (hValues : List.Forall₂ Decodes (elements.map Prod.snd) (given.map Prod.snd))
      (hEntries : Collects given entries) :
      Decodes (.nested type elements) (.nested c entries)
  | array {items : List Element} {values : List AnnotationValue}
      (h : List.Forall₂ Decodes items values) : Decodes (.array items) (.array values)

/-- An annotation stands for what it stands for as the value of an element. -/
def RawAnnotation.Decodes (a : RawAnnotation) (v : Annotation) : Prop :=
  ClassSketch.Decodes (.nested a.type a.elements) (.nested v.type v.entries)

/-- Of entries with one name the last value counts, in the place of the first. -/
theorem collects_iff {α : Type} {given entries : List (String × α)} :
    Collects given entries ↔ entries = writeEntries given := by
  have hWritten : Collects given (writeEntries given) :=
    ⟨map_fst_foldl_putEntry Prod.fst (fun _ => Prod.snd) given,
      fun name => valueOf?_foldl_putEntry name given⟩
  constructor
  · rintro ⟨hKeys, hFound⟩
    have hSame := hKeys.trans hWritten.1.symm
    refine eq_of_valueOf?_eq hSame ?_ fun name => ?_
    · rw [hSame]
      exact nodup_keys_foldl_putEntry given
    · rw [hFound, hWritten.2]
  · rintro rfl
    exact hWritten

namespace AnnotationValue

mutual

/-- An element is decoded to what it stands for, and to nothing else. -/
theorem ofElement_eq_ok_iff : ∀ {element : Element} {v : AnnotationValue},
    ofElement element = .ok v ↔ Decodes element v
  | .constant tag value, v => by
    rw [ofElement, Except.bind_eq_ok]
    constructor
    · rintro ⟨l, hl, h⟩
      cases h
      exact .constant (Literal.ofElement_eq_ok_iff.mp hl)
    · intro h
      cases h with
      | constant h => exact ⟨_, Literal.ofElement_eq_ok_iff.mpr h, rfl⟩
  | .enumConstant type name, v => by
    rw [ofElement, Except.bind_eq_ok]
    constructor
    · rintro ⟨c, hc, h⟩
      cases h
      exact .enumConstant (className_eq_ok_iff.mp hc)
    · intro h
      cases h with
      | enumConstant h => exact ⟨_, className_eq_ok_iff.mpr h, rfl⟩
  | .classLiteral descriptor, v => by
    rw [ofElement, Except.bind_eq_ok]
    constructor
    · rintro ⟨t, ht, h⟩
      cases h
      exact .classLiteral (returnType_eq_ok_iff.mp ht)
    · intro h
      cases h with
      | classLiteral h => exact ⟨_, returnType_eq_ok_iff.mpr h, rfl⟩
  | .nested type elements, v => by
    rw [ofElement, Except.bind_eq_ok]
    constructor
    · rintro ⟨c, hc, h⟩
      obtain ⟨given, hGiven, h⟩ := Except.bind_eq_ok.mp h
      cases h
      obtain ⟨hNames, hValues⟩ := ofElements_eq_ok_iff.mp hGiven
      exact .nested (className_eq_ok_iff.mp hc) hNames hValues (collects_iff.mpr rfl)
    · intro h
      cases h with
      | @nested _ c _ given entries hType hNames hValues hEntries =>
        obtain rfl := collects_iff.mp hEntries
        exact ⟨c, className_eq_ok_iff.mpr hType, Except.bind_eq_ok.mpr
          ⟨given, ofElements_eq_ok_iff.mpr ⟨hNames, hValues⟩, rfl⟩⟩
  | .array items, v => by
    rw [ofElement, Except.bind_eq_ok]
    constructor
    · rintro ⟨values, hValues, h⟩
      cases h
      exact .array (ofItems_eq_ok_iff.mp hValues)
    · intro h
      cases h with
      | array h => exact ⟨_, ofItems_eq_ok_iff.mpr h, rfl⟩

/-- A list of items stands for the list of what they stand for. -/
theorem ofItems_eq_ok_iff : ∀ {items : List Element} {values : List AnnotationValue},
    ofItems items = .ok values ↔ List.Forall₂ Decodes items values
  | [], values => by
    rw [ofItems, List.forall₂_nil_left_iff, Except.ok.injEq]
    exact eq_comm
  | item :: items, values => by
    rw [ofItems, Except.bind_eq_ok, List.forall₂_cons_left_iff]
    constructor
    · rintro ⟨value, hValue, h⟩
      obtain ⟨others, hOthers, h⟩ := Except.bind_eq_ok.mp h
      cases h
      exact ⟨value, others, ofElement_eq_ok_iff.mp hValue, ofItems_eq_ok_iff.mp hOthers, rfl⟩
    · rintro ⟨value, others, hValue, hOthers, rfl⟩
      exact ⟨value, ofElement_eq_ok_iff.mpr hValue, Except.bind_eq_ok.mpr
        ⟨others, ofItems_eq_ok_iff.mpr hOthers, rfl⟩⟩

theorem ofElements_eq_ok_iff : ∀ {elements : List (String × Element)}
    {given : List (String × AnnotationValue)}, ofElements elements = .ok given ↔
      given.map Prod.fst = elements.map Prod.fst ∧
        List.Forall₂ Decodes (elements.map Prod.snd) (given.map Prod.snd)
  | [], given => by
    rw [ofElements, Except.ok.injEq]
    constructor
    · rintro rfl
      exact ⟨rfl, .nil⟩
    · rintro ⟨hNames, -⟩
      exact (List.map_eq_nil_iff.mp hNames).symm
  | (name, element) :: elements, given => by
    rw [ofElements, Except.bind_eq_ok]
    constructor
    · rintro ⟨value, hValue, h⟩
      obtain ⟨others, hOthers, h⟩ := Except.bind_eq_ok.mp h
      cases h
      obtain ⟨hNames, hValues⟩ := ofElements_eq_ok_iff.mp hOthers
      exact ⟨congrArg (name :: ·) hNames, .cons (ofElement_eq_ok_iff.mp hValue) hValues⟩
    · rintro ⟨hNames, hValues⟩
      cases given with
      | nil => cases hNames
      | cons entry others =>
        obtain ⟨rfl, hOtherNames⟩ := List.cons.inj hNames
        obtain ⟨hValue, hOtherValues⟩ := List.forall₂_cons.mp hValues
        exact ⟨entry.2, ofElement_eq_ok_iff.mpr hValue, Except.bind_eq_ok.mpr
          ⟨others, ofElements_eq_ok_iff.mpr ⟨hOtherNames, hOtherValues⟩, rfl⟩⟩

end

/-- Each element is decoded on its own. -/
theorem map_ofElements {elements : List (String × Element)}
    {given : List (String × AnnotationValue)} (h : ofElements elements = .ok given) :
    given.map (fun e => (e.1, Except.ok e.2)) = elements.map fun e => (e.1, ofElement e.2) := by
  induction elements generalizing given with
  | nil =>
    cases h
    rfl
  | cons e elements ih =>
    obtain ⟨name, element⟩ := e
    rw [ofElements] at h
    obtain ⟨value, hValue, h⟩ := Except.bind_eq_ok.mp h
    obtain ⟨others, hOthers, h⟩ := Except.bind_eq_ok.mp h
    cases h
    rw [List.map_cons, List.map_cons, ih hOthers, hValue]

end AnnotationValue

/-! ### Annotations -/

namespace Annotation

variable {a : RawAnnotation} {v : Annotation}

/-- An annotation is refused for its type or for one of its values, whichever comes first. -/
theorem ofRaw_stops (a : RawAnnotation) : Stops (ofRaw a) a.parts :=
  (className_stops a.type).bind fun c _ =>
    (AnnotationValue.ofElements_stops a.elements).map fun values =>
      Annotation.mk c (writeEntries values)

/-- An annotation is its class and its values by their names. -/
theorem ofRaw_eq_ok : ofRaw a = .ok v ↔ ∃ c, Descriptor.className a.type = .ok c ∧
    ∃ given, AnnotationValue.ofElements a.elements = .ok given ∧ v = ⟨c, writeEntries given⟩ := by
  rw [ofRaw, Except.bind_eq_ok]
  refine exists_congr fun c => and_congr_right fun _ => ?_
  rw [Except.bind_eq_ok]
  refine exists_congr fun given => and_congr_right fun _ => ?_
  constructor
  · intro h
    cases h
    rfl
  · rintro rfl
    rfl

/-- An annotation is decoded to what it stands for, and to nothing else. -/
theorem ofRaw_eq_ok_iff : ofRaw a = .ok v ↔ a.Decodes v := by
  unfold RawAnnotation.Decodes
  rw [← AnnotationValue.ofElement_eq_ok_iff, AnnotationValue.ofElement, Except.bind_eq_ok,
    ofRaw_eq_ok]
  refine exists_congr fun c => and_congr_right fun _ => ?_
  rw [Except.bind_eq_ok]
  refine exists_congr fun given => and_congr_right fun _ => ?_
  constructor
  · rintro rfl
    rfl
  · intro h
    cases v
    cases h
    rfl

/-- The entries have the names of the elements, in the order in which they are first given, and what
the last element of a name is decoded to. -/
theorem entries_of_ofRaw (h : ofRaw a = .ok v) :
    v.entries.map Prod.fst = (a.elements.map Prod.fst).eraseDups ∧
      ∀ name, (v.get? name).map Except.ok =
        (valueOf? name a.elements.reverse).map AnnotationValue.ofElement := by
  obtain ⟨c, -, given, hGiven, rfl⟩ := ofRaw_eq_ok.mp h
  obtain ⟨hNames, -⟩ := AnnotationValue.ofElements_eq_ok_iff.mp hGiven
  refine ⟨?_, fun name => ?_⟩
  · rw [← hNames]
    exact map_fst_foldl_putEntry Prod.fst (fun _ => Prod.snd) given
  · rw [← valueOf?_map, List.map_reverse, ← AnnotationValue.map_ofElements hGiven,
      ← List.map_reverse, valueOf?_map, Annotation.get?]
    exact congrArg _ (valueOf?_foldl_putEntry name given)

/-- An annotation is decoded if all of it is sound, and otherwise the error is that of the first
part that is not. What it is decoded to is what it stands for: the names of the elements, each where
it is first given, with what its last element is decoded to. -/
theorem ofRaw_faithful (a : RawAnnotation) :
    ((∃ v, ofRaw a = .ok v) ↔ ∀ p ∈ a.parts, p.Sound) ∧
    (∀ e, ofRaw a = .error e ↔ FirstRefused a.parts e) ∧
    (∀ v, ofRaw a = .ok v ↔ a.Decodes v) ∧
    ∀ v, ofRaw a = .ok v →
      v.entries.map Prod.fst = (a.elements.map Prod.fst).eraseDups ∧
      (∀ name, (v.get? name).map Except.ok =
        (valueOf? name a.elements.reverse).map AnnotationValue.ofElement) ∧
      ((a.elements.map Prod.fst).Nodup → ∀ name, (v.get? name).map Except.ok =
        (a.element? name).map AnnotationValue.ofElement) := by
  refine ⟨(ofRaw_stops a).isOk_iff, (ofRaw_stops a).eq_error_iff, fun v => ofRaw_eq_ok_iff,
    fun v h => ?_⟩
  obtain ⟨hNames, hFound⟩ := entries_of_ofRaw h
  refine ⟨hNames, hFound, fun hNodup name => ?_⟩
  rw [hFound, valueOf?_reverse name hNodup]
  rfl

/-- An annotation with an array, and with an annotation that gives an element twice. -/
def labelled : RawAnnotation :=
  ⟨"Lp/Labelled;",
    [("names", .array [.constant 115 (.string "a"), .constant 115 (.string "b")]),
     ("mark", .nested "Lp/Mark;"
       [("level", .constant 73 (.int 1)), ("level", .constant 73 (.int 2))])]⟩

theorem ofRaw_faithful_labelled :
    ∃ v, ofRaw labelled = .ok v ∧ v.entries.map Prod.fst = ["names", "mark"] ∧
      ∀ name, (v.get? name).map Except.ok =
        (labelled.element? name).map AnnotationValue.ofElement := by
  obtain ⟨-, -, -, hEntries⟩ := ofRaw_faithful labelled
  have hDecoded : ∃ v, ofRaw labelled = .ok v := ⟨_, rfl⟩
  obtain ⟨v, hv⟩ := hDecoded
  obtain ⟨hNames, -, hFound⟩ := hEntries v hv
  exact ⟨v, hv, hNames.trans (by decide), hFound (by decide)⟩

end Annotation

end ClassSketch
