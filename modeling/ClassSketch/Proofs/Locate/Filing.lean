import ClassSketch.Locate.Locator
import ClassSketch.Proofs.Entries
import ClassSketch.Proofs.Parsing
import Mathlib.Data.Set.Card
import Mathlib.Data.List.Basic

/-!
# Class files under the names they claim

A locator holds finitely many resources, so that only finitely many classes can be found in class
files that are stored under the names they claim.

A name may be spelled with dots or with slashes. Both spellings lead to the same class file, and
only the one with dots is a name that a class file claims.

## Main definitions

* `Locator.contents` — the bytes that a locator holds
* `Locator.Filed` — every class file is stored under the name it claims
* `Locator.resolvable` — the names of the classes that can be found

## Main results

* `Locator.exists_mem_contents_of_resolve` — classes come from the bytes that the locator holds
* `Locator.Filed.finite_resolvable` — only finitely many of them can be found
* `Locator.filed_memory` — when the class files in memory are stored under the names they claim
-/

namespace ClassSketch

/-! ### Spellings of names -/

theorem toList_replaceChar (old new : Char) (s : String) :
    (replaceChar old new s).toList = s.toList.map fun c => if c = old then new else c := by
  rw [replaceChar, String.toList_map]

theorem not_mem_replaceChar {old new : Char} (h : old ≠ new) (s : String) :
    old ∉ (replaceChar old new s).toList := by
  rw [toList_replaceChar, List.mem_map]
  rintro ⟨c, -, hc⟩
  split at hc
  · exact h hc.symm
  · next hne => exact hne hc

theorem slash_not_mem_dotted (name : String) : '/' ∉ (replaceChar '/' '.' name).toList :=
  not_mem_replaceChar (by decide) name

theorem map_replace_eq_self {old new : Char} {chars : List Char} (h : old ∉ chars) :
    chars.map (fun c => if c = old then new else c) = chars := by
  conv_rhs => rw [← List.map_id chars]
  refine List.map_congr_left fun c hc => ?_
  have hne : c ≠ old := fun heq => h (heq ▸ hc)
  rw [if_neg hne, id]

theorem map_replace_flatMap {α : Type} {old new : Char} {parts : List α} {chars : α → List Char}
    (h : ∀ part ∈ parts, old ∉ chars part) :
    (parts.flatMap fun part => chars part ++ [old]).map (fun c => if c = old then new else c) =
      parts.flatMap fun part => chars part ++ [new] := by
  rw [List.map_flatMap]
  refine List.flatMap_congr fun part hPart => ?_
  rw [List.map_append, map_replace_eq_self (h part hPart), List.map_singleton, if_pos rfl]

theorem replaceChar_eq_self {old new : Char} {s : String} (h : old ∉ s.toList) :
    replaceChar old new s = s := by
  rw [← String.toList_inj, toList_replaceChar, map_replace_eq_self h]

theorem dotted_eq_self {name : String} (h : '/' ∉ name.toList) :
    replaceChar '/' '.' name = name :=
  replaceChar_eq_self h

theorem dotted_slashed (name : String) :
    replaceChar '/' '.' (replaceChar '.' '/' name) = replaceChar '/' '.' name := by
  rw [← String.toList_inj, toList_replaceChar, toList_replaceChar, toList_replaceChar,
    List.map_map]
  refine List.map_congr_left fun c _ => ?_
  rw [Function.comp]
  split <;> simp_all

theorem slashed_dotted (name : String) :
    replaceChar '.' '/' (replaceChar '/' '.' name) = replaceChar '.' '/' name := by
  rw [← String.toList_inj, toList_replaceChar, toList_replaceChar, toList_replaceChar,
    List.map_map]
  refine List.map_congr_left fun c _ => ?_
  rw [Function.comp]
  split <;> simp_all

/-- Slashes and points in a name lead to the same path. -/
theorem classFilePath_dotted (name : String) :
    classFilePath (replaceChar '/' '.' name) = classFilePath name := by
  rw [classFilePath, slashed_dotted, classFilePath]

/-- Names with the same path are spellings of one name. -/
theorem dotted_eq_of_classFilePath_eq {m n : String} (h : classFilePath m = classFilePath n) :
    replaceChar '/' '.' m = replaceChar '/' '.' n := by
  have hSlashed : replaceChar '.' '/' m = replaceChar '.' '/' n := by
    rw [classFilePath, classFilePath, ← String.toList_inj, String.toList_append,
      String.toList_append] at h
    exact String.toList_inj.mp (List.append_cancel_right h)
  rw [← dotted_slashed m, hSlashed, dotted_slashed]

/-! ### What a locator holds -/

namespace Place

/-- The bytes that an archive entry gives. -/
def storedBytes? : ArchiveEntry → Option (List UInt8)
  | ⟨_, .stored bytes⟩ => some bytes
  | _ => none

/-- The bytes that a file gives. -/
def fileBytes? : List Path × FileNode → Option (List UInt8)
  | (_, .file bytes _) => some bytes
  | _ => none

/-- The bytes that a place holds. -/
def contents : Place → List (List UInt8)
  | memory resources => resources.map Prod.snd
  | directory files _ => files.nodes.filterMap fileBytes?
  | archive _ entries => entries.filterMap storedBytes?

theorem mem_fileBytes_of_readBelow {files : FileTree} {root : Path} {path : String}
    {bytes : List UInt8} (h : readBelow files root path = .ok (some bytes)) :
    bytes ∈ files.nodes.filterMap fileBytes? := by
  rw [readBelow] at h
  split at h
  · next hRead =>
    cases h
    obtain ⟨node, hNode, hBytes⟩ := Except.bind_eq_ok.mp hRead
    obtain ⟨location, -, hAt⟩ := Except.bind_eq_ok.mp hNode
    cases node with
    | directory => cases hBytes
    | file _ _ =>
      cases hBytes
      split at hAt
      · next hSome =>
        cases hAt
        rw [FileTree.at?] at hSome
        split at hSome
        · cases hSome
        · obtain ⟨entry, hFind, hNode⟩ := Option.map_eq_some_iff.mp hSome
          refine List.mem_filterMap.mpr ⟨entry, List.mem_of_find?_eq_some hFind, ?_⟩
          cases entry
          cases hNode
          rfl
      · cases hAt
  · cases h
  · cases h

theorem mem_storedBytes_of_readEntry {name : Path} {path : String} {entries : List ArchiveEntry}
    {bytes : List UInt8} (h : readEntry name entries path = .ok (some bytes)) :
    bytes ∈ entries.filterMap storedBytes? := by
  rw [readEntry] at h
  split at h
  · cases h
  · next stored hFind =>
    cases h
    obtain ⟨entry, hEntry, hContent⟩ := Option.map_eq_some_iff.mp hFind
    have hMem : entry ∈ entries := List.mem_reverse.mp (List.mem_of_find?_eq_some hEntry)
    refine List.mem_filterMap.mpr ⟨entry, hMem, ?_⟩
    cases entry
    cases hContent
    rfl
  · cases h
  · cases h

/-- A resource is among the bytes that the place holds. -/
theorem mem_contents_of_resource {place : Place} {path : String} {bytes : List UInt8}
    (h : place.resource path = .ok (some bytes)) : bytes ∈ place.contents := by
  cases place with
  | memory resources =>
    have hEntry := mem_of_valueOf? (Except.ok.inj h)
    exact List.mem_map.mpr ⟨_, hEntry, rfl⟩
  | directory files root => exact mem_fileBytes_of_readBelow h
  | archive name entries => exact mem_storedBytes_of_readEntry h

end Place

namespace Locator

mutual

/-- The bytes that a locator holds. -/
def contents : Locator → List (List UInt8)
  | .single place => place.contents
  | .searchPath parts => totalContents parts
  | .fallback primary alternate => contents primary ++ contents alternate

/-- The bytes that several locators hold. -/
def totalContents : List Locator → List (List UInt8)
  | [] => []
  | part :: parts => contents part ++ totalContents parts

end

mutual

/-- A resource is among the bytes that the locator holds. -/
theorem mem_contents_of_resource {path : String} {bytes : List UInt8} :
    ∀ {l : Locator}, l.resource path = .ok (some bytes) → bytes ∈ l.contents
  | .single _, h => Place.mem_contents_of_resource h
  | .searchPath parts, h => mem_totalContents_of_firstResource h
  | .fallback primary alternate, h => by
    rw [Composition.resource] at h
    obtain ⟨found, hFound, h⟩ := Except.bind_eq_ok.mp h
    rw [contents, List.mem_append]
    cases found with
    | some _ =>
      cases h
      exact .inl (mem_contents_of_resource hFound)
    | none => exact .inr (mem_contents_of_resource h)

theorem mem_totalContents_of_firstResource {path : String} {bytes : List UInt8} :
    ∀ {parts : List Locator}, Composition.firstResource parts path = .ok (some bytes) →
      bytes ∈ totalContents parts
  | [], h => by cases h
  | part :: parts, h => by
    rw [Composition.firstResource] at h
    obtain ⟨found, hFound, h⟩ := Except.bind_eq_ok.mp h
    rw [totalContents, List.mem_append]
    cases found with
    | some _ =>
      cases h
      exact .inl (mem_contents_of_resource hFound)
    | none => exact .inr (mem_totalContents_of_firstResource h)

end

open ClassSketch.Composition (resolveIn)

/-- A class that is found is read from bytes that some place holds. -/
theorem exists_mem_contents_of_resolveIn {l : Locator} {name : String} {c : ClassFile}
    (h : resolveIn l.resource name = .ok c) :
    ∃ bytes ∈ l.contents, ClassFile.parse bytes = .ok c := by
  obtain ⟨found, hFound, h⟩ := Except.bind_eq_ok.mp h
  cases found with
  | none => cases h
  | some bytes => exact ⟨bytes, mem_contents_of_resource hFound, Except.mapError_eq_ok.mp h⟩

/-- A class that can be found is read from bytes that the locator holds. -/
theorem exists_mem_contents_of_resolve {name : String} {c : ClassFile} :
    ∀ {l : Locator}, l.resolve name = .ok c → ∃ bytes ∈ l.contents, ClassFile.parse bytes = .ok c
  | .single _, h => exists_mem_contents_of_resolveIn h
  | .searchPath _, h => exists_mem_contents_of_resolveIn h
  | .fallback primary alternate, h => by
    rw [Composition.resolve] at h
    rw [contents]
    simp only [List.mem_append]
    split at h
    · obtain ⟨bytes, hBytes, hParse⟩ := exists_mem_contents_of_resolve h
      exact ⟨bytes, .inr hBytes, hParse⟩
    · obtain ⟨bytes, hBytes, hParse⟩ := exists_mem_contents_of_resolve h
      exact ⟨bytes, .inl hBytes, hParse⟩

/-! ### Names of classes -/

/-- Another spelling finds the same class, or finds that there is none. -/
structure Spells (find : String → Except LocateError ClassFile) (m n : String) : Prop where
  ok : ∀ c, find m = .ok c → find n = .ok c
  notFound : ∀ x, find m = .error (.notFound x) → ∃ y, find n = .error (.notFound y)

theorem resolveIn_spells {resource : String → Except LocateError (Option (List UInt8))}
    {m n : String} (hPath : classFilePath m = classFilePath n) :
    Spells (resolveIn resource) m n := by
  constructor
  · intro c h
    obtain ⟨found, hFound, h⟩ := Except.bind_eq_ok.mp h
    rw [hPath] at hFound
    refine Except.bind_eq_ok.mpr ⟨found, hFound, ?_⟩
    cases found with
    | none => cases h
    | some bytes => exact Except.mapError_eq_ok.mpr (Except.mapError_eq_ok.mp h)
  · intro x h
    rw [resolveIn, hPath] at h
    rw [resolveIn]
    cases hFound : resource (classFilePath n) with
    | error e =>
      rw [hFound] at h
      exact ⟨x, h⟩
    | ok found =>
      rw [hFound] at h
      cases found with
      | none => exact ⟨n, rfl⟩
      | some bytes =>
        change (ClassFile.parse bytes).mapError _ = _ at h
        cases hParse : ClassFile.parse bytes with
        | ok c =>
          rw [hParse] at h
          cases h
        | error e =>
          rw [hParse] at h
          cases h

/-- Of names with one path, one finds what the other one finds, or that there is no class. -/
theorem spells_of_path_eq {m n : String} (hPath : classFilePath m = classFilePath n) :
    ∀ l : Locator, Spells l.resolve m n
  | .single _ => resolveIn_spells hPath
  | .searchPath _ => resolveIn_spells hPath
  | .fallback primary alternate => by
    have hPrimary := spells_of_path_eq hPath primary
    have hAlternate := spells_of_path_eq hPath alternate
    constructor
    · intro c h
      rw [Composition.resolve] at h ⊢
      split at h
      · next hNone =>
        obtain ⟨y, hNone⟩ := hPrimary.notFound _ hNone
        rw [hNone]
        exact hAlternate.ok c h
      · rw [hPrimary.ok c h]
    · intro x h
      rw [Composition.resolve] at h ⊢
      split at h
      · next hNone =>
        obtain ⟨y, hNone⟩ := hPrimary.notFound _ hNone
        rw [hNone]
        exact hAlternate.notFound x h
      · next hOther => exact absurd h (hOther x)

/-- The spelling with dots finds the same class. -/
theorem resolve_dotted {l : Locator} {name : String} {c : ClassFile} (h : l.resolve name = .ok c) :
    l.resolve (replaceChar '/' '.' name) = .ok c :=
  (spells_of_path_eq (classFilePath_dotted name).symm l).ok c h

/-- Every class file is stored under the name it claims. -/
def Filed (l : Locator) : Prop :=
  ∀ name c, '/' ∉ name.toList → l.resolve name = .ok c → c.binaryName = name

/-- The names, spelled with dots, of the classes that can be found. -/
def resolvable (l : Locator) : Set String :=
  {name | '/' ∉ name.toList ∧ ∃ c, l.resolve name = .ok c}

/-- The names that the class files in a locator claim. -/
def claimedNames (l : Locator) : List String :=
  l.contents.filterMap fun bytes => (ClassFile.parse bytes).toOption.map ClassFile.binaryName

/-- A class that can be found claims the name it is found under, spelled with dots. -/
theorem Filed.binaryName_eq {l : Locator} (h : l.Filed) {name : String} {c : ClassFile}
    (hResolve : l.resolve name = .ok c) : c.binaryName = replaceChar '/' '.' name :=
  h _ c (slash_not_mem_dotted name) (resolve_dotted hResolve)

/-- If class files are stored under their names, a class that is found is found by its own name. -/
theorem Filed.mem_resolvable {l : Locator} (h : l.Filed) {name : String} {c : ClassFile}
    (hResolve : l.resolve name = .ok c) : c.binaryName ∈ l.resolvable := by
  rw [h.binaryName_eq hResolve]
  exact ⟨slash_not_mem_dotted name, c, resolve_dotted hResolve⟩

theorem mem_claimedNames {l : Locator} {name : String} {c : ClassFile}
    (h : l.resolve name = .ok c) : c.binaryName ∈ l.claimedNames := by
  obtain ⟨bytes, hBytes, hParse⟩ := exists_mem_contents_of_resolve h
  refine List.mem_filterMap.mpr ⟨bytes, hBytes, ?_⟩
  rw [hParse]
  rfl

/-- The names that lead to classes are names that class files claim. -/
theorem Filed.resolvable_subset {l : Locator} (h : l.Filed) :
    l.resolvable ⊆ {name | name ∈ l.claimedNames} := by
  rintro name ⟨hSlash, c, hResolve⟩
  rw [← h name c hSlash hResolve]
  exact mem_claimedNames hResolve

/-- **Finitely many names lead to classes.** -/
theorem Filed.finite_resolvable {l : Locator} (h : l.Filed) : l.resolvable.Finite :=
  (List.finite_toSet l.claimedNames).subset h.resolvable_subset

/-- What holds of all class files in a locator holds of those that can be found. -/
theorem of_forall_contents {l : Locator} {P : ClassFile → Prop} [DecidablePred P]
    (h : ∀ bytes ∈ l.contents, (ClassFile.parse bytes).toOption.all fun c => P c) {name : String}
    {c : ClassFile} (hResolve : l.resolve name = .ok c) : P c := by
  obtain ⟨bytes, hBytes, hParse⟩ := exists_mem_contents_of_resolve hResolve
  have hClass := h bytes hBytes
  rw [hParse] at hClass
  exact of_decide_eq_true hClass

/-- Class files in memory are stored under the names they claim if each has the path of its name. -/
theorem filed_memory {resources : List (String × List UInt8)}
    (h : ∀ e ∈ resources, ∀ c, ClassFile.parse e.2 = .ok c → classFilePath c.binaryName = e.1) :
    (memory resources).Filed := by
  intro name c hSlash hResolve
  obtain ⟨found, hFound, hParse⟩ := Except.bind_eq_ok.mp hResolve
  cases found with
  | none => cases hParse
  | some bytes =>
    have hEntry := mem_of_valueOf? (Except.ok.inj hFound)
    have hPath := h _ hEntry c (Except.mapError_eq_ok.mp hParse)
    have hNames := dotted_eq_of_classFilePath_eq hPath
    rw [dotted_eq_self hSlash] at hNames
    exact (dotted_eq_self (slash_not_mem_dotted c.thisClass)).symm.trans hNames

/-- The same, in a form that can be decided. -/
theorem filed_memory_of_all {resources : List (String × List UInt8)}
    (h : ∀ e ∈ resources,
      (ClassFile.parse e.2).toOption.all fun c => classFilePath c.binaryName = e.1) :
    (memory resources).Filed := by
  refine filed_memory fun e he c hParse => ?_
  have hEntry := h e he
  rw [hParse] at hEntry
  exact of_decide_eq_true hEntry

end Locator

end ClassSketch
