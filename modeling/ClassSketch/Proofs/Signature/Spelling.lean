import ClassSketch.Proofs.Locate.Filing
import ClassSketch.Proofs.Signature.Erased

/-!
# Generic and erased spellings of a class

A signature may write a nested class in several ways: some of its simple names are joined with
dollar signs after the package, and the others follow after points, each with type arguments of its
own. A descriptor joins all of them with dollar signs. All these spellings stand for one class name,
as long as no segment of the package and no simple name has a character that means something in a
spelling.

## Main definitions

* `PlainName` — a segment of a package or a simple name without such a character
* `SpelledClass` — a class, and how a signature spells it
* `SpelledType` — a type made of letters, spelled classes and arrays

## Main results

* `ofInternal_path` — the class of a package and simple names that are joined
* `SpelledClass.generic_value`, `SpelledClass.erased_value` — both spellings are of one class
* `SpelledType.documentationKey_eq` — documentation refers to both types by the same key
-/

namespace ClassSketch

namespace Signature

open Text

/-! ### Names -/

/-- The characters that mean something in a spelling of a class. -/
abbrev nameEnds : List Char := ['/', '.', ';', '<', '$']

/-- A segment of a package or a simple name. -/
abbrev PlainName := Identifier nameEnds

namespace Identifier

variable {ends others : List Char}

/-- The identifier among those that may have more characters. -/
def weaken (i : Identifier ends) (h : others ⊆ ends) : Identifier others :=
  ⟨i.chars, i.chars_ne_nil, fun c hc hEnd => i.not_mem_ends c hc (h hEnd)⟩

/-- The identifier as a text. -/
def string (i : Identifier ends) : String := String.ofList i.chars

theorem not_mem (i : Identifier ends) {c : Char} (hc : c ∈ ends) : c ∉ i.chars :=
  fun h => i.not_mem_ends c h hc

end Identifier

/-- The simple names of a class, joined with dollar signs. -/
def nesting (names : List PlainName) : List Char := ['$'].intercalate (names.map Identifier.chars)

/-- The class-file name of a class: the segments of the package and the simple names. -/
def path (package names : List PlainName) : List Char :=
  ['/'].intercalate (package.map Identifier.chars ++ [nesting names])

/-- The class with a package and simple names. -/
def classNamed (package names : List PlainName) : ClassName :=
  ⟨String.ofList (['.'].intercalate (package.map Identifier.chars)), names.map Identifier.string⟩

/-- Between the simple names of a class there are dollar signs only. -/
theorem not_mem_nesting {names : List PlainName} {c : Char} (hc : c ∈ nameEnds)
    (hDollar : c ≠ '$') : c ∉ nesting names := by
  intro h
  rcases mem_of_mem_intercalate h with hSep | ⟨chars, hChars, hName⟩
  · exact hDollar (List.mem_singleton.mp hSep)
  · obtain ⟨name, -, rfl⟩ := List.mem_map.mp hChars
    exact name.not_mem hc hName

theorem nesting_ne_nil {names : List PlainName} (h : names ≠ []) : nesting names ≠ [] := by
  cases names with
  | nil => exact absurd rfl h
  | cons name names =>
    intro hNil
    obtain ⟨c, s, hc⟩ := List.exists_cons_of_ne_nil name.chars_ne_nil
    cases names with
    | nil => simp [nesting, hc] at hNil
    | cons next names => simp [nesting, hc] at hNil

theorem not_mem_path {package names : List PlainName} {c : Char} (hc : c ∈ ['.', ';', '<']) :
    c ∉ path package names := by
  have hEnds : c ∈ nameEnds := by
    simp only [List.mem_cons, List.not_mem_nil, or_false] at hc ⊢
    tauto
  intro h
  rcases mem_of_mem_intercalate h with hSep | ⟨chars, hChars, hName⟩
  · obtain rfl := List.mem_singleton.mp hSep
    exact absurd hc (by decide)
  · rcases List.mem_append.mp hChars with hPackage | hNesting
    · obtain ⟨name, -, rfl⟩ := List.mem_map.mp hPackage
      exact name.not_mem hEnds hName
    · obtain rfl := List.mem_singleton.mp hNesting
      refine not_mem_nesting hEnds ?_ hName
      rintro rfl
      exact absurd hc (by decide)

/-- The path of a class is its package, with slashes, and the chain of its simple names. -/
theorem path_eq (package names : List PlainName) :
    path package names = package.flatMap (fun name => name.chars ++ ['/']) ++ nesting names := by
  rw [path, intercalate_concat, List.flatMap_map]

theorem path_ne_nil {package names : List PlainName} (h : names ≠ []) :
    path package names ≠ [] := by
  rw [path_eq]
  simp [nesting_ne_nil h]

/-! ### The class of a path -/

/-- Simple names without dollar signs are found again in their chain. -/
theorem nestingChain_nesting {names : List PlainName} (h : names ≠ []) :
    ClassName.nestingChain (nesting names) = names.map Identifier.chars := by
  have hSplit : splitOn '$' (nesting names) = names.map Identifier.chars := by
    refine splitOn_intercalate (by simpa using h) fun chars hChars => ?_
    obtain ⟨name, -, rfl⟩ := List.mem_map.mp hChars
    exact name.not_mem (by simp)
  have hNonempty : ∀ chars ∈ names.map Identifier.chars, (!chars.isEmpty) = true := by
    intro chars hChars
    obtain ⟨name, -, rfl⟩ := List.mem_map.mp hChars
    simpa using name.chars_ne_nil
  simp only [ClassName.nestingChain, hSplit, List.all_eq_true.mpr hNonempty, if_true]

/-- Points take the place of the slashes between the segments of a package. -/
theorem dotted_segments (package : List PlainName) (last : PlainName) :
    replaceChar '/' '.'
        (String.ofList (package.flatMap (fun name => name.chars ++ ['/']) ++ last.chars)) =
      String.ofList (package.flatMap (fun name => name.chars ++ ['.']) ++ last.chars) := by
  have hSlash : ∀ name : PlainName, '/' ∉ name.chars := fun name => name.not_mem (by simp)
  rw [← String.toList_inj, toList_replaceChar, String.toList_ofList, String.toList_ofList,
    List.map_append, map_replace_flatMap fun name _ => hSlash name,
    map_replace_eq_self (hSlash last)]

/-- A path is the name of the class with its package and its simple names. -/
theorem ofInternal_path (package : List PlainName) {names : List PlainName} (h : names ≠ []) :
    ClassName.ofInternal (String.ofList (path package names)) = classNamed package names := by
  have hSlash : '/' ∉ nesting names := not_mem_nesting (by simp) (by decide)
  have hNames : (names.map Identifier.chars).map String.ofList = names.map Identifier.string := by
    rw [List.map_map]
    rfl
  rw [ClassName.ofInternal, String.toList_ofList, path_eq]
  cases package using List.reverseRecOn with
  | nil =>
    rw [List.flatMap_nil, List.nil_append, cutLast_of_not_mem hSlash]
    simp only [nestingChain_nesting h, hNames]
    rfl
  | append_singleton package last =>
    have hFront : (package ++ [last]).flatMap (fun name => name.chars ++ ['/']) ++ nesting names =
        (package.flatMap (fun name => name.chars ++ ['/']) ++ last.chars) ++
          '/' :: nesting names := by
      simp
    rw [hFront, cutLast_append hSlash]
    simp only [nestingChain_nesting h, hNames, dotted_segments, classNamed]
    rw [List.map_append, List.map_singleton, intercalate_concat, List.flatMap_map]

/-- Inner classes are appended to the simple names. -/
theorem foldl_nested (c : ClassName) (names : List String) :
    names.foldl ClassName.nested c = ⟨c.package, c.simpleNames ++ names⟩ := by
  induction names generalizing c with
  | nil => simp
  | cons name names ih => rw [List.foldl_cons, ih, ClassName.nested, List.append_assoc]; rfl

/-! ### Spelled classes -/

/-- A class, and how a signature spells it: the first simple names are joined with dollar signs and
have type arguments after them, and the others follow with type arguments of their own. -/
structure SpelledClass where
  package : List PlainName
  outermost : PlainName
  joined : List PlainName
  arguments : List ArgumentTree
  inner : List (PlainName × List ArgumentTree)

namespace SpelledClass

/-- The simple names that are joined with dollar signs in a signature. -/
def leading (c : SpelledClass) : List PlainName := c.outermost :: c.joined

/-- All simple names. -/
def names (c : SpelledClass) : List PlainName := c.leading ++ c.inner.map Prod.fst

/-- The name of the class. -/
def className (c : SpelledClass) : ClassName := classNamed c.package c.names

/-- The type arguments of the last simple name. -/
def typeArguments (c : SpelledClass) : List TypeRef :=
  ArgumentTree.values ((c.inner.map Prod.snd).getLastD c.arguments)

theorem leading_ne_nil (c : SpelledClass) : c.leading ≠ [] := List.cons_ne_nil _ _

theorem names_ne_nil (c : SpelledClass) : c.names ≠ [] := List.cons_ne_nil _ _

/-- A path as an identifier. -/
def pathIdentifier {ends : List Char} (package : List PlainName) {names : List PlainName}
    (h : names ≠ []) (hEnds : ends ⊆ ['.', ';', '<']) : Identifier ends :=
  ⟨path package names, path_ne_nil h, fun _ hc hEnd => not_mem_path (hEnds hEnd) hc⟩

/-- An inner class of a signature. -/
def innerTree (i : PlainName × List ArgumentTree) : InnerTree := .mk (i.1.weaken (by decide)) i.2

/-- The derivation of the spelling in a signature. -/
def generic (c : SpelledClass) : ClassTree :=
  .mk (pathIdentifier c.package c.leading_ne_nil (by decide)) c.arguments (c.inner.map innerTree)

/-- The derivation of the spelling in a descriptor. -/
def erased (c : SpelledClass) : ErasedTree :=
  .classType (pathIdentifier c.package c.names_ne_nil (by decide))

theorem erased_value (c : SpelledClass) : c.erased.value = .ofClass c.className := by
  rw [erased, ErasedTree.value, pathIdentifier, ofInternal_path c.package c.names_ne_nil, className]

theorem generic_value (c : SpelledClass) :
    c.generic.value = .classType c.className c.typeArguments := by
  have hSteps : InnerTree.values (c.inner.map innerTree) =
      c.inner.map fun i => (i.1.string, ArgumentTree.values i.2) := by
    rw [InnerTree.values_eq_map, List.map_map]
    rfl
  have hArguments : (c.inner.map fun i => ArgumentTree.values i.2).getLastD
      (ArgumentTree.values c.arguments) = c.typeArguments := by
    rw [typeArguments, ← List.getLastD_map (f := ArgumentTree.values), List.map_map]
    rfl
  have hName : (c.inner.map fun i => i.1.string).foldl ClassName.nested
      (classNamed c.package c.leading) = c.className := by
    rw [foldl_nested, className, classNamed, classNamed, names, List.map_append, List.map_map]
    rfl
  rw [generic, ClassTree.value, hSteps]
  simp only [pathIdentifier, ofInternal_path c.package c.leading_ne_nil, List.map_map]
  rw [← hName, ← hArguments]
  rfl

end SpelledClass

/-! ### Spelled types -/

/-- A type made of letters, spelled classes and arrays: no type variable occurs in it but in type
arguments. -/
inductive SpelledType where
  | base (type : {p : Primitive // p ≠ .void})
  | classType (type : SpelledClass)
  | array (element : SpelledType)

namespace SpelledType

/-- The derivation of the spelling in a signature. -/
def generic : SpelledType → JavaTree
  | base type => .base type
  | classType type => .reference (.classType type.generic)
  | array element => .reference (.array element.generic)

/-- The derivation of the spelling in a descriptor. -/
def erased : SpelledType → ErasedTree
  | base type => .base type
  | classType type => type.erased
  | array element => .array element.erased

/-- Documentation refers to both types by the same key. -/
theorem documentationKey_eq (t : SpelledType) :
    t.generic.value.documentationKey = t.erased.value.documentationKey := by
  induction t with
  | base type => rfl
  | classType type =>
    change type.generic.value.documentationKey = type.erased.value.documentationKey
    rw [type.generic_value, type.erased_value]
    rfl
  | array element ih => exact congrArg (· ++ "[]") ih

end SpelledType

/-! ### Arrays -/

/-- Brackets before the text of a derivation are arrays of its type, in either grammar. -/
theorem exists_arrays {δ : Type} {text : δ → List Char} {value : δ → TypeRef} (wrap : δ → δ)
    (hText : ∀ e, text (wrap e) = '[' :: text e) (hValue : ∀ e, value (wrap e) = .array (value e))
    (e : δ) (depth : ℕ) : ∃ d, text d = List.replicate depth '[' ++ text e ∧
      value d = TypeRef.array^[depth] (value e) := by
  induction depth with
  | zero => exact ⟨e, rfl, rfl⟩
  | succ depth ih =>
    obtain ⟨d, hd, hdValue⟩ := ih
    exact ⟨wrap d, by rw [hText, hd]; rfl,
      by rw [hValue, hdValue, Function.iterate_succ_apply']⟩

/-- Every reference type has arrays of every depth. -/
theorem RefTree.exists_arrays (e : RefTree) (depth : ℕ) :
    ∃ d : RefTree, d.text = List.replicate depth '[' ++ e.text ∧
      d.value = TypeRef.array^[depth] e.value :=
  Signature.exists_arrays (fun d => .array (.reference d)) (fun _ => rfl) (fun _ => rfl) e depth

theorem ErasedTree.exists_arrays (e : ErasedTree) (depth : ℕ) :
    ∃ d : ErasedTree, d.text = List.replicate depth '[' ++ e.text ∧
      d.value = TypeRef.array^[depth] e.value :=
  Signature.exists_arrays .array (fun _ => rfl) (fun _ => rfl) e depth

/-- Arrays of types with the same key have the same key. -/
theorem documentationKey_arrays {t t' : TypeRef}
    (h : t.documentationKey = t'.documentationKey) (depth : ℕ) :
    (TypeRef.array^[depth] t).documentationKey = (TypeRef.array^[depth] t').documentationKey := by
  induction depth with
  | zero => exact h
  | succ depth ih =>
    rw [Function.iterate_succ_apply', Function.iterate_succ_apply']
    exact congrArg (· ++ "[]") ih

namespace SpelledClass

/-- The signature of an array of a class. -/
def genericText (c : SpelledClass) (depth : ℕ) : String :=
  String.ofList (List.replicate depth '[' ++ c.generic.text)

/-- The descriptor of an array of a class. -/
def erasedText (c : SpelledClass) (depth : ℕ) : String :=
  String.ofList (List.replicate depth '[' ++ c.erased.text)

/-- The generic spelling is read as the class with its arguments. -/
theorem field_genericText (c : SpelledClass) (depth : ℕ) :
    field (c.genericText depth) =
      .ok (TypeRef.array^[depth] (.classType c.className c.typeArguments)) := by
  obtain ⟨d, hText, hValue⟩ := RefTree.exists_arrays (.classType c.generic) depth
  refine field_eq_ok_iff.mpr ⟨d, ?_, ?_⟩
  · rw [hText, genericText, String.toList_ofList]
    rfl
  · rw [hValue, ← c.generic_value]
    rfl

/-- The erased spelling is read as the class alone. -/
theorem fieldType_erasedText (c : SpelledClass) (depth : ℕ) :
    Descriptor.fieldType (c.erasedText depth) =
      .ok (TypeRef.array^[depth] (.ofClass c.className)) := by
  obtain ⟨d, hText, hValue⟩ := c.erased.exists_arrays depth
  refine fieldType_eq_ok_iff.mpr ⟨d, ?_, ?_⟩
  · rw [hText, erasedText, String.toList_ofList]
  · rw [hValue, c.erased_value]

end SpelledClass

/-! ### Methods -/

/-- A method with spelled parameters. Its type parameters, its two results and what it throws are
spelled in any way. -/
structure SpelledMethod where
  formals : FormalsTree
  parameters : List SpelledType
  result : Option JavaTree
  erasedResult : Option ErasedTree
  thrown : List ThrownTree

namespace SpelledMethod

/-- The derivation of the signature. -/
def generic (m : SpelledMethod) : MethodForm :=
  ⟨m.formals, m.parameters.map SpelledType.generic, m.result, m.thrown⟩

/-- The derivation of the descriptor. -/
def erased (m : SpelledMethod) : ErasedForm :=
  ⟨m.parameters.map SpelledType.erased, m.erasedResult⟩

theorem ofText_generic (m : SpelledMethod) :
    MethodSignature.ofText (String.ofList m.generic.text) = .ok m.generic.value :=
  method_eq_ok_iff.mpr ⟨m.generic, String.toList_ofList.symm, rfl⟩

theorem ofText_erased (m : SpelledMethod) :
    MethodDescriptor.ofText (String.ofList m.erased.text) = .ok m.erased.value :=
  methodDescriptor_eq_ok_iff.mpr ⟨m.erased, String.toList_ofList.symm, rfl⟩

/-- Documentation refers to the parameters by the same keys, generic or erased. -/
theorem documentationKeys_eq (m : SpelledMethod) :
    m.generic.value.parameters.map TypeRef.documentationKey =
      m.erased.value.parameters.map TypeRef.documentationKey := by
  simp only [generic, erased, MethodForm.value, ErasedForm.value, List.map_map]
  exact List.map_congr_left fun t _ => t.documentationKey_eq

end SpelledMethod

end Signature

end ClassSketch
