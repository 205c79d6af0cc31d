import ClassSketch.Command.Run
import ClassSketch.Proofs.Files.Following
import ClassSketch.Proofs.Files.Texts
import ClassSketch.Proofs.Locate.Filing

/-!
# Class names and their spellings

A class-file name is cut at its last slash into a package and a nesting chain, and the chain at its
dollar signs. Nothing is lost in this: joined again, the parts are the name, and the parts of a
joined name are those it was made of.

## Where the spellings agree

A spelling with points and one with slashes differ in one character throughout, so points in a
class-file name would be taken for slashes. An empty package is spelled without a separator, so that
a slash before a single simple name would be lost. A dollar sign separates only if all it separates
is not empty, so a simple name may have one only where that leaves an empty part. `IsInternal` and
`Separable` say this of a class-file name and of a class name, and each of the two conditions is
what the other becomes on the way over.

## Main definitions

* `ClassName.IsInternal` — class-file names that are spelled again from the class they name
* `ClassName.SeparableChain`, `ClassName.Separable` — class names that are read off their spellings
* `ClassName.documentPath` — the file for a type in a directory of reports

## Main results

* `ClassName.chainText_nestingChain`, `ClassName.nestingChain_chainText` — chains
* `ClassName.internal_ofInternal`, `ClassName.ofInternal_internal` — names
* `ClassName.spellings_inverse` — both, with what they mean for files and for nested classes
-/

namespace ClassSketch

namespace ClassName

open Text

/-! ### Chains of simple names -/

/-- A simple name that is alone may have a dollar sign where that leaves an empty part. Several
simple names are not empty and have none. -/
inductive SeparableChain : List String → Prop where
  | plain {name : String} (h : '$' ∉ name.toList) : SeparableChain [name]
  | hollow {name : String} (h : [] ∈ splitOn '$' name.toList) : SeparableChain [name]
  | nested {names : List String} (hLength : 2 ≤ names.length)
      (h : ∀ name ∈ names, name ≠ "" ∧ '$' ∉ name.toList) : SeparableChain names

/-- The simple names of a chain, joined. -/
def chainText (names : List String) : List Char := ['$'].intercalate (names.map String.toList)

/-- The parts of a simple name, joined again, are that name. -/
theorem intercalate_nestingChain (simple : List Char) :
    ['$'].intercalate (nestingChain simple) = simple := by
  rw [nestingChain]
  split
  · exact intercalate_splitOn '$' simple
  · exact List.intercalate_singleton

/-- Names that can be told apart are found again in their chain. -/
theorem nestingChain_chainText {names : List String} (h : SeparableChain names) :
    nestingChain (chainText names) = names.map String.toList := by
  cases h with
  | plain h =>
    rw [chainText, List.map_singleton, List.intercalate_singleton, nestingChain,
      splitOn_of_not_mem h]
    exact ite_self _
  | hollow h =>
    rw [chainText, List.map_singleton, List.intercalate_singleton, nestingChain]
    refine if_neg fun hAll => ?_
    have hPart := List.all_eq_true.mp hAll [] h
    cases hPart
  | nested hLength h =>
    have hne : names.map String.toList ≠ [] := by
      rintro hNil
      simp [List.map_eq_nil_iff.mp hNil] at hLength
    have hSplit : splitOn '$' (chainText names) = names.map String.toList := by
      refine splitOn_intercalate hne fun chars hChars => ?_
      obtain ⟨name, hName, rfl⟩ := List.mem_map.mp hChars
      exact (h name hName).2
    have hParts : (names.map String.toList).all (fun part => !part.isEmpty) = true := by
      rw [List.all_eq_true]
      intro chars hChars
      obtain ⟨name, hName, rfl⟩ := List.mem_map.mp hChars
      simpa using (h name hName).1
    rw [nestingChain, hSplit]
    exact if_pos hParts

theorem chainText_nestingChain (simple : List Char) :
    chainText ((nestingChain simple).map String.ofList) = simple := by
  have hSame : String.toList ∘ String.ofList = id := funext fun _ => String.toList_ofList
  rw [chainText, List.map_map, hSame, List.map_id, intercalate_nestingChain]

/-- The parts of a simple name can be told apart. -/
theorem separableChain_nestingChain (simple : List Char) :
    SeparableChain ((nestingChain simple).map String.ofList) := by
  rw [nestingChain]
  split
  · next hAll =>
    rw [List.all_eq_true] at hAll
    by_cases hLength : 2 ≤ (splitOn '$' simple).length
    · refine .nested (by simpa using hLength) fun name hName => ?_
      obtain ⟨part, hPart, rfl⟩ := List.mem_map.mp hName
      have hne : part ≠ [] := by simpa using hAll part hPart
      exact ⟨by simpa using hne, by simpa using not_mem_of_mem_splitOn hPart⟩
    · obtain ⟨part, others, hParts⟩ := List.exists_cons_of_ne_nil (splitOn_ne_nil '$' simple)
      obtain rfl : others = [] := by
        rw [hParts, List.length_cons] at hLength
        exact List.eq_nil_of_length_eq_zero (by omega)
      have hPart : '$' ∉ part := not_mem_of_mem_splitOn (hParts ▸ List.mem_singleton_self part)
      rw [hParts]
      exact .plain (by simpa using hPart)
  · next hSome =>
    refine .hollow ?_
    simp only [List.all_eq_true, Bool.not_eq_true', List.isEmpty_eq_false_iff, not_forall,
      not_not] at hSome
    obtain ⟨part, hPart, rfl⟩ := hSome
    rwa [String.toList_ofList]

theorem SeparableChain.ne_nil {names : List String} (h : SeparableChain names) : names ≠ [] := by
  cases h with
  | plain => simp
  | hollow => simp
  | nested hLength =>
    rintro rfl
    cases hLength

theorem not_mem_chainText {names : List String} {c : Char} (hDollar : c ≠ '$')
    (h : ∀ name ∈ names, c ∉ name.toList) : c ∉ chainText names := by
  intro hc
  rcases mem_of_mem_intercalate hc with hSep | ⟨chars, hChars, hc⟩
  · exact hDollar (List.mem_singleton.mp hSep)
  · obtain ⟨name, hName, rfl⟩ := List.mem_map.mp hChars
    exact h name hName hc

theorem mem_chainText {names : List String} {c : Char} (hName : name ∈ names)
    (hc : c ∈ name.toList) : c ∈ chainText names :=
  mem_intercalate_of_mem _ (List.mem_map_of_mem hName) hc

/-! ### Names -/

/-- A class-file name without points that is not just a slash before a simple name. -/
structure IsInternal (name : String) : Prop where
  no_point : '.' ∉ name.toList
  packaged : ∀ simple, '/' ∉ simple → name.toList ≠ '/' :: simple

/-- A class name that is read off its spellings. -/
structure Separable (c : ClassName) : Prop where
  package : '/' ∉ c.package.toList
  names : ∀ name ∈ c.simpleNames, '.' ∉ name.toList ∧ '/' ∉ name.toList
  chain : SeparableChain c.simpleNames

variable {c : ClassName} {name other : String}

/-- A binary name is its package, with a point behind it, and the chain of its simple names. -/
theorem toList_binary (c : ClassName) : c.binary.toList =
    (if c.package = "" then [] else c.package.toList ++ ['.']) ++ chainText c.simpleNames := by
  rw [binary, spelled, chainText]
  by_cases h : c.package = "" <;> simp [h]

/-- The spelling of a class-file name in a running machine. -/
theorem binary_ofInternal (h : ∀ simple, '/' ∉ simple → name.toList ≠ '/' :: simple) :
    (ofInternal name).binary = replaceChar '/' '.' name := by
  rw [← String.toList_inj, toList_binary, ofInternal]
  rcases cutLast_cases '/' name.toList with ⟨hSlash, hCut⟩ | ⟨package, simple, hName, hSlash, hCut⟩
  · simp only [hCut, chainText_nestingChain]
    rw [dotted_eq_self hSlash]
    rfl
  · have hPackage : package ≠ [] := by
      rintro rfl
      exact h simple hSlash hName
    have hne : replaceChar '/' '.' (String.ofList package) ≠ "" := by
      rw [ne_eq, ← String.toList_inj, toList_replaceChar]
      simpa using hPackage
    simp only [hCut, chainText_nestingChain]
    rw [if_neg hne, toList_replaceChar, toList_replaceChar, hName, String.toList_ofList,
      List.map_append, List.map_cons, map_replace_eq_self hSlash, if_pos rfl, List.append_assoc]
    rfl

/-- An internal name is found again. -/
theorem internal_ofInternal (h : IsInternal name) : (ofInternal name).internal = name := by
  rw [internal, binary_ofInternal h.packaged, slashed_dotted, replaceChar_eq_self h.no_point]

theorem Separable.not_mem_chainText (h : c.Separable) :
    '.' ∉ chainText c.simpleNames ∧ '/' ∉ chainText c.simpleNames :=
  ⟨ClassName.not_mem_chainText (by decide) fun name hName => (h.names name hName).1,
    ClassName.not_mem_chainText (by decide) fun name hName => (h.names name hName).2⟩

theorem Separable.toList_internal (h : c.Separable) : c.internal.toList =
    (if c.package = "" then [] else (replaceChar '.' '/' c.package).toList ++ ['/']) ++
      chainText c.simpleNames := by
  rw [internal, toList_replaceChar, toList_binary, List.map_append,
    map_replace_eq_self h.not_mem_chainText.1, toList_replaceChar]
  split
  · rfl
  · rw [List.map_append, List.map_singleton, if_pos rfl]

/-- A name that can be told apart is found again. -/
theorem ofInternal_internal (h : c.Separable) : ofInternal c.internal = c := by
  have hChain : (nestingChain (chainText c.simpleNames)).map String.ofList = c.simpleNames := by
    have hSame : String.ofList ∘ String.toList = id := funext fun _ => String.ofList_toList
    rw [nestingChain_chainText h.chain, List.map_map, hSame, List.map_id]
  rw [ofInternal, h.toList_internal]
  by_cases hPackage : c.package = ""
  · rw [if_pos hPackage, List.nil_append, cutLast_of_not_mem h.not_mem_chainText.2]
    simp only [hChain, ← hPackage]
  · rw [if_neg hPackage, List.append_assoc, List.singleton_append,
      cutLast_append h.not_mem_chainText.2]
    simp only [hChain, String.ofList_toList, dotted_slashed, dotted_eq_self h.package]

theorem separable_ofInternal (h : '.' ∉ name.toList) : (ofInternal name).Separable := by
  have hNames : ∀ simple : List Char, '.' ∉ simple → '/' ∉ simple →
      ∀ name ∈ (nestingChain simple).map String.ofList, '.' ∉ name.toList ∧ '/' ∉ name.toList := by
    intro simple hPoint hSlash name hName
    have hText := chainText_nestingChain simple
    exact ⟨fun hc => hPoint (hText ▸ mem_chainText hName hc),
      fun hc => hSlash (hText ▸ mem_chainText hName hc)⟩
  rw [ofInternal]
  rcases cutLast_cases '/' name.toList with ⟨hSlash, hCut⟩ | ⟨package, simple, hName, hSlash, hCut⟩
  · rw [hCut]
    exact ⟨List.not_mem_nil, hNames _ h hSlash, separableChain_nestingChain _⟩
  · rw [hCut]
    have hPoint : '.' ∉ simple := by
      rw [hName] at h
      simp_all
    exact ⟨slash_not_mem_dotted _, hNames _ hPoint hSlash, separableChain_nestingChain _⟩

theorem Separable.isInternal (h : c.Separable) : IsInternal c.internal := by
  refine ⟨not_mem_replaceChar (by decide) _, fun simple hSlash hName => ?_⟩
  rw [h.toList_internal] at hName
  by_cases hPackage : c.package = ""
  · rw [if_pos hPackage, List.nil_append] at hName
    exact h.not_mem_chainText.2 (hName ▸ List.mem_cons_self)
  · have hne : (replaceChar '.' '/' c.package).toList ≠ [] := by
      rw [toList_replaceChar]
      simpa using hPackage
    obtain ⟨first, package, hFirst⟩ := List.exists_cons_of_ne_nil hne
    rw [if_neg hPackage, hFirst, List.append_assoc, List.cons_append, List.cons.injEq] at hName
    exact hSlash (hName.2 ▸ by simp)

/-- The class around a nested class is that class. -/
theorem enclosing_nested (h : c.simpleNames ≠ []) (simple : String) :
    (c.nested simple).enclosing = some c := by
  have hNested : (c.nested simple).isNested = true := by
    have := List.length_pos_iff.mpr h
    simp [isNested, nested]
    omega
  rw [enclosing, if_pos hNested, nested, List.dropLast_concat]

/-! ### Files of reports -/

/-- The name of the file for a type. -/
def documentName (c : ClassName) : Path := .ofText (c.binary ++ ".json")

/-- The file for a type in a directory of reports. -/
def documentPath (directory : Path) (c : ClassName) : Path := Path.join directory c.documentName

theorem documents_eq (r : Report) (directory : Path) : r.documents directory =
    r.types.map fun decl => (documentPath directory decl.name, decl.toJson.pretty) :=
  rfl

theorem slash_not_mem_documentName (h : '/' ∉ c.binary.toList) :
    Path.slash ∉ c.documentName := by
  rw [documentName, Path.slash_mem_ofText, String.toList_append, List.mem_append]
  exact not_or.mpr ⟨h, by decide⟩

/-- The ending keeps the name of a file from being one of those that lead nowhere new. -/
theorem documentName_ne {name : Path} (h : name.length < 5) : c.documentName ≠ name := by
  rintro rfl
  rw [documentName, Path.ofText_append, List.length_append] at h
  exact absurd h (Nat.not_lt.mpr (Nat.le_add_left 5 _))

/-- Documents of one name are those of one class. -/
theorem binary_eq_of_documentName {d : ClassName} (h : c.documentName = d.documentName) :
    c.binary = d.binary := by
  rw [documentName, documentName, Path.ofText_append, Path.ofText_append] at h
  exact Path.ofText_inj.mp (List.append_cancel_right h)

/-- Types of different names have files of different paths. -/
theorem binary_eq_of_documentPath {d : ClassName} {directory : Path} (hc : '/' ∉ c.binary.toList)
    (hd : '/' ∉ d.binary.toList) (h : documentPath directory c = documentPath directory d) :
    c.binary = d.binary := by
  rw [documentPath, documentPath,
    Path.join_eq (Path.isAbsolute_of_no_slash (slash_not_mem_documentName hc)),
    Path.join_eq (Path.isAbsolute_of_no_slash (slash_not_mem_documentName hd))] at h
  exact binary_eq_of_documentName (List.append_cancel_left h)

/-- Types of different names have files in different places. -/
theorem binary_eq_of_locate {d : ClassName} {t : FileTree} {directory : Path}
    {location : List Path} (hc : '/' ∉ c.binary.toList) (hd : '/' ∉ d.binary.toList)
    (h : t.locate (documentPath directory c) = .ok location)
    (h' : t.locate (documentPath directory d) = .ok location) : c.binary = d.binary := by
  have hLast := FileTree.getLast?_of_locate_join (slash_not_mem_documentName hc)
    (documentName_ne (by decide)) (documentName_ne (by decide)) (documentName_ne (by decide)) h
  rw [FileTree.getLast?_of_locate_join (slash_not_mem_documentName hd)
    (documentName_ne (by decide)) (documentName_ne (by decide)) (documentName_ne (by decide)) h',
    Option.some.injEq] at hLast
  exact (binary_eq_of_documentName hLast).symm

theorem binary_ofInternal_inj (h : IsInternal name) (h' : IsInternal other)
    (hBinary : (ofInternal name).binary = (ofInternal other).binary) : name = other := by
  rw [← internal_ofInternal h, ← internal_ofInternal h', internal, internal, hBinary]

/-- **Class names and their spellings.** A class-file name is spelled again from the class it names,
and a class name is read again from its spellings. So different class-file names are spelled
differently in a running machine, and their files have different paths and places. -/
theorem spellings_inverse :
    (∀ name, IsInternal name →
      (ofInternal name).internal = name ∧ (ofInternal name).binary = replaceChar '/' '.' name ∧
        (ofInternal name).Separable) ∧
      (∀ name other, IsInternal name → IsInternal other → name ≠ other →
        (ofInternal name).binary ≠ (ofInternal other).binary ∧
          (∀ directory, documentPath directory (ofInternal name) ≠
            documentPath directory (ofInternal other)) ∧
          ∀ (t : FileTree) directory location,
            t.locate (documentPath directory (ofInternal name)) = .ok location →
              t.locate (documentPath directory (ofInternal other)) ≠ .ok location) ∧
      ∀ c : ClassName, c.Separable →
        ofInternal c.internal = c ∧ ofBinary c.binary = c ∧ IsInternal c.internal ∧
          ∀ simple, (c.nested simple).enclosing = some c := by
  have hSlash : ∀ {name}, IsInternal name → '/' ∉ (ofInternal name).binary.toList := by
    intro name h
    rw [binary_ofInternal h.packaged]
    exact slash_not_mem_dotted name
  refine ⟨fun name h => ?_, fun name other h h' hne => ?_, fun c h => ?_⟩
  · exact ⟨internal_ofInternal h, binary_ofInternal h.packaged, separable_ofInternal h.no_point⟩
  · refine ⟨fun hSame => hne (binary_ofInternal_inj h h' hSame), fun directory hSame => ?_,
      fun t directory location hPlace hSame => ?_⟩
    · exact hne (binary_ofInternal_inj h h'
        (binary_eq_of_documentPath (hSlash h) (hSlash h') hSame))
    · exact hne (binary_ofInternal_inj h h'
        (binary_eq_of_locate (hSlash h) (hSlash h') hPlace hSame))
  · exact ⟨ofInternal_internal h, ofInternal_internal h, h.isInternal,
      enclosing_nested h.chain.ne_nil⟩

/-- A doubled slash before a name that starts with a dollar sign, and a class nested in another. -/
theorem spellings_inverse_sample :
    IsInternal "//$a" ∧ IsInternal "p//a" ∧ "//$a" ≠ "p//a" ∧
      (ofInternal "//$a").internal = "//$a" ∧ (ofInternal "//$a").binary = "..$a" ∧
      (ofInternal "//$a").binary ≠ (ofInternal "p//a").binary ∧
      Separable ⟨".p", ["A", "B"]⟩ ∧ ofBinary ".p.A$B" = ⟨".p", ["A", "B"]⟩ := by
  have hFirst : IsInternal "//$a" := by
    refine ⟨by decide, fun simple hSlash hName => hSlash ?_⟩
    cases hName
    decide
  have hSecond : IsInternal "p//a" := by
    refine ⟨by decide, fun simple hSlash hName => ?_⟩
    cases hName
  have hDifferent : "//$a" ≠ "p//a" := by decide
  have hNested : Separable ⟨".p", ["A", "B"]⟩ :=
    ⟨by decide, by decide, .nested (by decide) (by decide)⟩
  obtain ⟨hNames, hDistinct, hClasses⟩ := spellings_inverse
  obtain ⟨hInternal, hBinary, -⟩ := hNames "//$a" hFirst
  exact ⟨hFirst, hSecond, hDifferent, hInternal, hBinary.trans (by decide +kernel),
    (hDistinct "//$a" "p//a" hFirst hSecond hDifferent).1, hNested, (hClasses _ hNested).2.1⟩

end ClassName

end ClassSketch
