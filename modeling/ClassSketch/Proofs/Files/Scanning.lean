import ClassSketch.Command.Scan
import ClassSketch.Proofs.Files.Following
import ClassSketch.Proofs.Files.Texts
import ClassSketch.Proofs.Locate.Filing
import Mathlib.Data.List.Forall2
import Mathlib.Data.List.Nodup
import Mathlib.Data.List.Perm.Basic
import Mathlib.Data.String.Basic

/-!
# The types of a directory, found again

A class file below a directory gives its type a name: the names on the way to it, joined with
points. The name leads back to the file if the points in it are those that were put there, that is,
if no name on the way has a point of its own and the name of the file has none but the one before
its ending. Then the scan of a directory and the search for classes in it are inverse to each other.

## What files may be called

The names of files are bytes, while those of types are texts. A name that is no text is shown with
replacements, so that different files may give one name, and this name leads to none of them. What
is said of a file from its name on is said of those files only whose names are texts.

A path may also be too long for the system although the directory that holds the file can be walked.
Such a file is listed, and reading it is refused by the system.

## Main definitions

* `Scan.Undotted` — places in which no name has a point of its own
* `Scan.CalledByTexts` — places whose names are texts
* `Scan.TypeAt`, `Scan.IsTypeFile` — the class files of types that are nested in no other
* `Scan.Names` — the name of the type in such a file
* `Scan.namesBelow` — the names that the files below a directory give
* `Scan.Lists` — what a list of names says about the files below a directory

## Main results

* `Scan.typeName?_eq_some_iff` — the name that a class file gives
* `Scan.ofText_classFilePath` — the path that belongs to the name
* `Scan.readBelow_place` — reading a file below a directory
* `Scan.typeNames_lists` — every type is listed once, and found again if its file is called by texts
* `Scan.typeNames_not_found` — types that are not found again
-/

namespace ClassSketch

namespace Scan

variable {t : FileTree} {directory : Path} {location place packages : List Path}
  {simple stem : Path} {name : String}

/-! ### The name of a file -/

/-- The ending of class files. -/
def ending : Path := .ofText ".class"

/-- The byte of the dollar sign. -/
def dollar : UInt8 := 0x24

/-- No name on the way has a point, and the last has none but the one before the ending of a class
file. -/
structure Undotted (place : List Path) : Prop where
  above : ∀ name ∈ place.dropLast, Path.point ∉ name
  last : ∀ name ∈ place.getLast?,
    Path.point ∉ name ∨ ∃ stem, name = stem ++ ending ∧ Path.point ∉ stem

/-- All names on the way are texts, and so is the last. -/
def CalledByTexts (place : List Path) : Prop := ∀ name ∈ place, Path.IsText name

/-- The class file of a type that is nested in no other, by its packages and its simple name. A name
that is nothing but the ending has no ending. -/
structure TypeAt (place packages : List Path) (simple : Path) : Prop where
  place_eq : place = packages ++ [simple ++ ending]
  ne_nil : simple ≠ []
  no_dollar : dollar ∉ simple
  ne_package : simple ≠ .ofText "package-info"
  ne_module : simple ≠ .ofText "module-info"

/-- The class file of a type that is nested in no other. -/
def IsTypeFile (place : List Path) : Prop := ∃ packages simple, TypeAt place packages simple

/-- The name of a type, as its packages and its simple name are shown. -/
def shownName (packages : List Path) (simple : Path) : String :=
  ".".intercalate ((packages ++ [simple]).map Path.display)

/-- The file in a place is the class file of a type of the given name. -/
def Names (place : List Path) (name : String) : Prop :=
  ∃ packages simple, TypeAt place packages simple ∧ name = shownName packages simple

theorem undotted_of_no_point (h : ∀ name ∈ place, Path.point ∉ name) : Undotted place where
  above name hName := h name (List.mem_of_mem_dropLast hName)
  last name hName := .inl (h name (List.mem_of_getLast? hName))

theorem undotted_append_class (hAbove : ∀ name ∈ packages, Path.point ∉ name)
    (hStem : Path.point ∉ stem) : Undotted (packages ++ [stem ++ ending]) where
  above := by simpa using hAbove
  last := by simp [hStem]

theorem isTypeFile_iff : IsTypeFile place ↔ ∃ name, Names place name := by
  constructor
  · rintro ⟨packages, simple, hType⟩
    exact ⟨_, packages, simple, hType, rfl⟩
  · rintro ⟨name, packages, simple, hType, -⟩
    exact ⟨packages, simple, hType⟩

theorem isTypeName_display_iff : isTypeName simple.display = true ↔
    dollar ∉ simple ∧ simple ≠ .ofText "package-info" ∧ simple ≠ .ofText "module-info" := by
  have hDollar : '$' ∈ simple.display.toList ↔ dollar ∈ simple :=
    Path.mem_display_iff (b := dollar) (by decide)
  have hPackage : simple.display = "package-info" ↔ simple = .ofText "package-info" :=
    Path.display_eq_iff (by simp)
  have hModule : simple.display = "module-info" ↔ simple = .ofText "module-info" :=
    Path.display_eq_iff (by simp)
  simp [isTypeName, hDollar, hPackage, hModule, and_assoc]

theorem ending_eq : ending = Path.point :: Path.ofText "class" := by decide

theorem splitExtension_of_no_point {name : Path} (h : Path.point ∉ name) :
    Path.splitExtension name = (name, none) := by
  rw [Path.splitExtension, Text.cutLast_of_not_mem h]

theorem splitExtension_class (hEmpty : stem ≠ []) :
    Path.splitExtension (stem ++ ending) = (stem, some (Path.ofText "class")) := by
  have hCut : Text.cutLast Path.point (stem ++ ending) = some (stem, Path.ofText "class") := by
    rw [ending_eq]
    exact Text.cutLast_append (by decide) stem
  have hUp : (stem ++ ending == Path.up) = false := by
    rw [beq_eq_false_iff_ne]
    intro h
    have hLength := congrArg List.length h
    rw [List.length_append] at hLength
    exact absurd hLength (Nat.ne_of_gt (Nat.lt_of_lt_of_le (by decide) (Nat.le_add_left _ _)))
  rw [Path.splitExtension, hCut]
  simp [hEmpty, hUp]

theorem stems?_append_class (hEmpty : stem ≠ []) (hPoint : Path.point ∉ stem) :
    stems? (packages ++ [stem ++ ending]) = some (packages ++ [stem]) := by
  have hStay : stem ≠ Path.stay := by
    rintro rfl
    exact hPoint (by decide)
  simp [stems?, splitExtension_class hEmpty, hStay]

theorem stems?_append_other {last : Path} (h : (Path.splitExtension last).2 = none) :
    stems? (packages ++ [last]) = none := by
  simp [stems?, h]

theorem typeName?_append_class (hEmpty : stem ≠ []) (hPoint : Path.point ∉ stem) :
    typeName? (packages ++ [stem ++ ending]) =
      if isTypeName stem.display then some (shownName packages stem) else none := by
  simp [typeName?, stems?_append_class hEmpty hPoint, shownName]

/-- A file gives a name if it is the class file of a type that is nested in no other. -/
theorem typeName?_eq_some_iff (h : Undotted place) :
    typeName? place = some name ↔ Names place name := by
  cases place using List.reverseRecOn with
  | nil =>
    constructor
    · intro hNone
      cases hNone
    · rintro ⟨packages, simple, hType, -⟩
      exact absurd hType.place_eq (by simp)
  | append_singleton packages last =>
    -- The file has no ending, or nothing but the ending, or it is a class file.
    have hOther : (Path.splitExtension last).2 = none →
        (typeName? (packages ++ [last]) = some name ↔ Names (packages ++ [last]) name) := by
      intro hNone
      rw [typeName?, stems?_append_other hNone]
      constructor
      · intro h
        cases h
      · rintro ⟨above, simple, hType, -⟩
        obtain ⟨-, hLast⟩ := List.append_inj' hType.place_eq rfl
        rw [List.singleton_inj] at hLast
        rw [hLast, splitExtension_class hType.ne_nil] at hNone
        cases hNone
    rcases h.last last (by simp) with hPoint | ⟨stem, rfl, hPoint⟩
    · exact hOther (by rw [splitExtension_of_no_point hPoint])
    · by_cases hEmpty : stem = []
      · subst hEmpty
        exact hOther (by decide)
      · rw [typeName?_append_class hEmpty hPoint]
        constructor
        · intro hName
          split at hName
          · next hSimple =>
            obtain ⟨hDollar, hPackage, hModule⟩ := isTypeName_display_iff.mp hSimple
            cases hName
            exact ⟨packages, stem, ⟨rfl, hEmpty, hDollar, hPackage, hModule⟩, rfl⟩
          · cases hName
        · rintro ⟨above, simple, hType, rfl⟩
          obtain ⟨rfl, hLast⟩ := List.append_inj' hType.place_eq rfl
          obtain rfl : stem = simple := List.append_cancel_right (List.singleton_inj.mp hLast)
          rw [if_pos (isTypeName_display_iff.mpr
            ⟨hType.no_dollar, hType.ne_package, hType.ne_module⟩)]

/-! ### The path of a name -/

theorem TypeAt.no_point (hType : TypeAt place packages simple) (h : Undotted place) :
    (∀ name ∈ packages, Path.point ∉ name) ∧ Path.point ∉ simple := by
  obtain rfl := hType.place_eq
  refine ⟨by simpa using h.above, ?_⟩
  rcases h.last (simple ++ ending) (by simp) with hPoint | ⟨stem, hStem, hPoint⟩
  · exact absurd (by simp [ending_eq]) hPoint
  · rwa [List.append_cancel_right hStem]

/-- The path that belongs to a name joined of texts without points. -/
theorem classFilePath_intercalate {texts : List String} {text : String}
    (hTexts : ∀ text ∈ texts, '.' ∉ text.toList) (hText : '.' ∉ text.toList) :
    classFilePath (".".intercalate (texts ++ [text])) =
      "/".intercalate (texts ++ [text ++ ".class"]) := by
  have hTexts : ∀ chars ∈ texts.map String.toList, '.' ∉ chars := by simpa using hTexts
  have hName : (".".intercalate (texts ++ [text])).toList =
      (texts.map String.toList).flatMap (· ++ ['.']) ++ text.toList := by
    simp [← Text.intercalate_concat]
  have hPath : ("/".intercalate (texts ++ [text ++ ".class"])).toList =
      (texts.map String.toList).flatMap (· ++ ['/']) ++ (text ++ ".class").toList := by
    simp [← Text.intercalate_concat]
  rw [classFilePath, ← String.toList_inj, String.toList_append, toList_replaceChar, hName, hPath,
    List.map_append, map_replace_flatMap hTexts, map_replace_eq_self hText,
    String.toList_append, List.append_assoc]

/-- The path that belongs to the name of a type leads to its class file, if that is called by
texts. -/
theorem ofText_classFilePath (h : Undotted place) (hText : CalledByTexts place)
    (hName : Names place name) : Path.ofText (classFilePath name) = Path.ofNames place := by
  obtain ⟨packages, simple, hType, rfl⟩ := hName
  obtain ⟨hPackages, hSimple⟩ := hType.no_point h
  obtain rfl := hType.place_eq
  obtain ⟨hAbove, hLast⟩ := List.forall_mem_append.mp hText
  obtain ⟨texts, rfl⟩ := Path.exists_texts hAbove
  obtain ⟨text, rfl⟩ : Path.IsText simple :=
    Path.isText_of_append (by simp) (hLast _ List.mem_cons_self)
  have hTexts : ∀ text ∈ texts, '.' ∉ text.toList := fun text hMem hPoint =>
    hPackages _ (List.mem_map_of_mem hMem) (Path.point_mem_ofText.mpr hPoint)
  have hShown : shownName (texts.map Path.ofText) (.ofText text) =
      ".".intercalate (texts ++ [text]) := by
    simp [shownName, Function.comp_def]
  rw [hShown, classFilePath_intercalate hTexts fun hPoint =>
    hSimple (Path.point_mem_ofText.mpr hPoint), Path.ofText_intercalate, List.map_append,
    List.map_singleton, Path.ofText_append]
  rfl

/-- A path is made of its names. -/
theorem pieces_path (hNames : ∀ name ∈ place, FileTree.IsName name) (hPlace : place ≠ []) :
    Path.pieces (Path.ofNames place) = place :=
  Text.splitOn_intercalate hPlace fun name hName => (hNames name hName).no_slash

/-- A path that is made of names starts at none. -/
theorem isAbsolute_path (hNames : ∀ name ∈ place, FileTree.IsName name) (hPlace : place ≠ []) :
    Path.isAbsolute (Path.ofNames place) = false := by
  rw [Path.isAbsolute, beq_eq_false_iff_ne]
  intro hFirst
  obtain ⟨rest, hRest⟩ := List.head?_eq_some_iff.mp hFirst
  have hPieces := pieces_path hNames hPlace
  rw [Path.pieces, hRest, Text.splitOn_cons_self] at hPieces
  exact (hNames [] (hPieces ▸ List.mem_cons_self)).ne_nil rfl

theorem nul_not_mem_path (hNames : ∀ name ∈ place, FileTree.IsName name) :
    0 ∉ Path.ofNames place := by
  intro hNul
  rcases Text.mem_of_mem_intercalate hNul with hSlash | ⟨name, hName, hNul⟩
  · exact absurd (List.mem_singleton.mp hSlash) (by decide)
  · exact (hNames name hName).no_nul hNul

/-- Different places have different paths. -/
theorem path_inj {other : List Path} (hNames : ∀ name ∈ place, FileTree.IsName name)
    (hOther : ∀ name ∈ other, FileTree.IsName name) (hPlace : place ≠ []) (hOtherPlace : other ≠ [])
    (h : Path.ofNames place = Path.ofNames other) : place = other := by
  rw [← pieces_path hNames hPlace, h, pieces_path hOther hOtherPlace]

/-! ### Files below a directory -/

theorem mem_placesBelow {kind : FileNode → Bool} : place ∈ t.placesBelow location kind ↔
    place ≠ [] ∧ ∃ node, kind node = true ∧ (location ++ place, node) ∈ t.nodes := by
  rw [FileTree.placesBelow, List.mem_filterMap]
  constructor
  · rintro ⟨⟨whole, node⟩, hNode, hPlace⟩
    simp only [Option.ite_none_right_eq_some, Bool.and_eq_true, List.isPrefixOf_iff_prefix,
      decide_eq_true_eq, Option.some.injEq] at hPlace
    obtain ⟨⟨⟨hKind, rest, rfl⟩, hLength⟩, rfl⟩ := hPlace
    rw [List.drop_left]
    refine ⟨?_, node, hKind, hNode⟩
    rintro rfl
    simp at hLength
  · rintro ⟨hPlace, node, hKind, hNode⟩
    refine ⟨_, hNode, ?_⟩
    have := List.length_pos_iff.mpr hPlace
    simp [hKind, this]

theorem mem_filesBelow : place ∈ t.filesBelow location ↔
    place ≠ [] ∧ ∃ bytes archive, (location ++ place, .file bytes archive) ∈ t.nodes := by
  rw [FileTree.filesBelow, mem_placesBelow]
  refine and_congr_right fun _ => ⟨?_, ?_⟩
  · rintro ⟨_ | ⟨bytes, archive⟩, hKind, hNode⟩
    · cases hKind
    · exact ⟨bytes, archive, hNode⟩
  · rintro ⟨bytes, archive, hNode⟩
    exact ⟨.file bytes archive, rfl, hNode⟩

theorem nodup_filesBelow (h : t.Proper) : (t.filesBelow location).Nodup := by
  have hOnce := List.pairwise_map.mp h.once
  refine List.Pairwise.filterMap _ ?_ hOnce
  rintro ⟨whole, node⟩ ⟨whole', node'⟩ hne place hPlace place' hPlace' rfl
  refine hne ?_
  simp only [Option.ite_none_right_eq_some, Bool.and_eq_true, List.isPrefixOf_iff_prefix,
    Option.some.injEq] at hPlace hPlace'
  obtain ⟨⟨⟨-, rest, rfl⟩, -⟩, hRest⟩ := hPlace
  obtain ⟨⟨⟨-, rest', rfl⟩, -⟩, hRest'⟩ := hPlace'
  rw [List.drop_left] at hRest hRest'
  rw [hRest, hRest']

theorem isName_of_mem_filesBelow (h : t.Proper) (hPlace : place ∈ t.filesBelow location) :
    ∀ name ∈ place, FileTree.IsName name := by
  obtain ⟨-, bytes, archive, hNode⟩ := mem_filesBelow.mp hPlace
  exact fun name hName => h.named _ hNode name (List.mem_append_right location hName)

/-- A file below a directory is read by its path, if that is not too long. -/
theorem readBelow_place {bytes : List UInt8} {archive : Option (List ArchiveEntry)} {path : String}
    (h : t.Proper) (hLocate : t.locate directory = .ok location)
    (hDirectory : t.at? location = some .directory) (hPlace : place ≠ [])
    (hFile : (location ++ place, .file bytes archive) ∈ t.nodes)
    (hPath : Path.ofText path = Path.ofNames place) :
    Place.readBelow t directory path =
      if FileTree.pathLimit < (Path.join directory (.ofText path)).length then
        .error (.file (Path.join directory (.ofText path)) .nameTooLong)
      else .ok (some bytes) := by
  have hNames : ∀ name ∈ place, FileTree.IsName name :=
    fun name hName => h.named _ hFile name (List.mem_append_right location hName)
  have hNode := h.at?_eq_some hFile (by simp [hPlace])
  have hFull := FileTree.locate_join hLocate hDirectory (isAbsolute_path hNames hPlace)
    (nul_not_mem_path hNames)
  rw [pieces_path hNames hPlace, h.follow hFile hPlace, ← hPath] at hFull
  rw [Place.readBelow]
  split at hFull
  · next hLong => rw [FileTree.read_eq_error hFull, if_pos hLong]
  · next hFits => rw [FileTree.read_eq_ok hFull hNode, if_neg hFits]

/-! ### Names of the types -/

/-- The names that the files below a directory give, in order. -/
def namesBelow (t : FileTree) (location : List Path) : List String :=
  ((t.filesBelow location).filterMap typeName?).mergeSort fun a b => decide (a ≤ b)

theorem typeNames_eq (hLocate : t.locate directory = .ok location)
    (hDirectory : t.at? location = some .directory)
    (hWalk : ∀ place ∈ t.directoriesBelow location,
      (Path.join directory (Path.ofNames place)).length ≤ FileTree.pathLimit) :
    typeNames t directory = .ok (namesBelow t location) := by
  have hCan : canWalk t directory location = true := by
    rw [canWalk, List.all_eq_true]
    exact fun place hPlace => decide_eq_true (hWalk place hPlace)
  rw [typeNames]
  refine Except.bind_eq_ok.mpr ⟨location, hLocate, ?_⟩
  simp only [hDirectory, hCan, if_true]
  rfl

theorem pairwise_namesBelow : (namesBelow t location).Pairwise (· ≤ ·) := by
  have hPairs : (namesBelow t location).Pairwise fun a b => decide (a ≤ b) = true :=
    List.pairwise_mergeSort
      (fun a b c hab hbc => by simpa using le_trans (by simpa using hab) (by simpa using hbc))
      (fun a b => by simpa using le_total a b) _
  exact hPairs.imp of_decide_eq_true

/-- Names that are in order as they are found stay so. -/
theorem namesBelow_eq {names : List String}
    (h : (t.filesBelow location).filterMap typeName? = names) (hSorted : names.Pairwise (· ≤ ·)) :
    namesBelow t location = names := by
  rw [namesBelow, h]
  exact List.mergeSort_of_pairwise (hSorted.imp decide_eq_true)

/-- Of the items of a list, those that give something, with what they give. -/
theorem forall₂_filterMap {α β : Type} (f : α → Option β) (xs : List α) :
    List.Forall₂ (fun y x => f x = some y) (xs.filterMap f) (xs.filter fun x => (f x).isSome) := by
  induction xs with
  | nil => exact .nil
  | cons x xs ih =>
    cases hx : f x with
    | none => simpa [hx] using ih
    | some y => simpa [hx] using ih

section Directory

variable (h : t.Proper) (hUndotted : ∀ place ∈ t.filesBelow location, Undotted place)
include h hUndotted

/-- The names are those of the class files of types that are nested in no other, one for each. -/
theorem exists_places : ∃ places : List (List Path), places.Nodup ∧
    (∀ place, place ∈ places ↔ place ∈ t.filesBelow location ∧ IsTypeFile place) ∧
    List.Forall₂ Names places (namesBelow t location) := by
  have hPerm : (namesBelow t location).Perm ((t.filesBelow location).filterMap typeName?) :=
    List.mergeSort_perm _ _
  obtain ⟨places, hAll, hPlaces⟩ := List.perm_comp_forall₂ hPerm (forall₂_filterMap typeName? _)
  have hMem : ∀ place, place ∈ places ↔ place ∈ t.filesBelow location ∧ IsTypeFile place := by
    intro place
    rw [hPlaces.mem_iff, List.mem_filter, Option.isSome_iff_exists]
    refine and_congr_right fun hPlace => ?_
    simp only [isTypeFile_iff, typeName?_eq_some_iff (hUndotted place hPlace)]
  refine ⟨places, hPlaces.nodup_iff.mpr ((nodup_filesBelow h).filter _), hMem, ?_⟩
  have hBelow : ∀ place ∈ places, Undotted place :=
    fun place hPlace => hUndotted place ((hMem place).mp hPlace).1
  clear hPerm hPlaces hMem
  generalize namesBelow t location = names at hAll
  induction hAll with
  | nil => exact .nil
  | cons hName _ ih =>
    obtain ⟨hFirst, hRest⟩ := List.forall_mem_cons.mp hBelow
    exact .cons ((typeName?_eq_some_iff hFirst).mp hName) (ih hRest)

/-- Two files that are called by texts never share a name. -/
theorem place_eq_of_names {other : List Path} (hPlace : place ∈ t.filesBelow location)
    (hOther : other ∈ t.filesBelow location) (hText : CalledByTexts place)
    (hOtherText : CalledByTexts other) (hName : Names place name)
    (hOtherName : Names other name) : place = other := by
  refine path_inj (isName_of_mem_filesBelow h hPlace) (isName_of_mem_filesBelow h hOther)
    (mem_filesBelow.mp hPlace).1 (mem_filesBelow.mp hOther).1 ?_
  rw [← ofText_classFilePath (hUndotted place hPlace) hText hName,
    ofText_classFilePath (hUndotted other hOther) hOtherText hOtherName]

/-- If all class files of such types are called by texts, no name is there twice. -/
theorem pairwise_lt_namesBelow
    (hText : ∀ place ∈ t.filesBelow location, IsTypeFile place → CalledByTexts place) :
    (namesBelow t location).Pairwise (· < ·) := by
  have hOnce : ((t.filesBelow location).filterMap typeName?).Nodup := by
    refine List.Pairwise.filterMap (R := fun place other => place ∈ t.filesBelow location ∧
      other ∈ t.filesBelow location ∧ place ≠ other) typeName? ?_ ?_
    · rintro place other ⟨hPlace, hOther, hne⟩ name hName _ hOtherName rfl
      have hName := (typeName?_eq_some_iff (hUndotted place hPlace)).mp hName
      have hOtherName := (typeName?_eq_some_iff (hUndotted other hOther)).mp hOtherName
      exact hne (place_eq_of_names h hUndotted hPlace hOther
        (hText place hPlace (isTypeFile_iff.mpr ⟨name, hName⟩))
        (hText other hOther (isTypeFile_iff.mpr ⟨name, hOtherName⟩)) hName hOtherName)
    · exact (nodup_filesBelow h).imp_of_mem fun hPlace hOther hne => ⟨hPlace, hOther, hne⟩
  have hNames : (namesBelow t location).Nodup := (List.mergeSort_perm _ _).nodup_iff.mpr hOnce
  exact pairwise_namesBelow.imp₂ (fun a b hLe hne => lt_of_le_of_ne hLe hne) hNames

end Directory

/-! ### What the list says -/

/-- What a list of names says about the files below a directory, where the names belong to the given
places one by one. -/
structure Lists (t : FileTree) (directory : Path) (location : List Path)
    (places : List (List Path)) (names : List String) : Prop where
  /-- The names are in order. -/
  sorted : names.Pairwise (· ≤ ·)
  /-- The places are the class files of the types that are nested in no other. -/
  places_iff : ∀ place, place ∈ places ↔ place ∈ t.filesBelow location ∧ IsTypeFile place
  /-- Each place is there once. -/
  places_once : places.Nodup
  /-- Each place has the name that its own names give. -/
  named : List.Forall₂ Names places names
  /-- If all places are called by texts, no name is there twice. -/
  strict : (∀ place ∈ places, CalledByTexts place) → names.Pairwise (· < ·)
  /-- Two places that are called by texts never share a name. -/
  apart : ∀ place ∈ places, ∀ other ∈ places, CalledByTexts place → CalledByTexts other →
    ∀ name, Names place name → Names other name → place = other
  /-- The name of a place that is called by texts has the path of the place. -/
  path : ∀ place ∈ places, CalledByTexts place → ∀ name, Names place name →
    Path.ofText (classFilePath name) = Path.ofNames place
  /-- Such a name leads to the bytes of its file. -/
  found : ∀ place ∈ places, CalledByTexts place → ∀ name, Names place name →
    ∀ bytes archive, (location ++ place, .file bytes archive) ∈ t.nodes →
    (Path.join directory (Path.ofNames place)).length ≤ FileTree.pathLimit →
    (Locator.directory t directory).resource (classFilePath name) = .ok (some bytes) ∧
      (Locator.directory t directory).resolve name =
        (ClassFile.parse bytes).mapError (.classFile name)
  /-- If its path is too long, it is refused by the system, with that path. -/
  refused : ∀ place ∈ places, CalledByTexts place → ∀ name, Names place name →
    FileTree.pathLimit < (Path.join directory (Path.ofNames place)).length →
    (Locator.directory t directory).resource (classFilePath name) =
      .error (.file (Path.join directory (Path.ofNames place)) .nameTooLong)

/-- **The types of a directory are listed, and found again by their names.** -/
theorem typeNames_lists (h : t.Proper) (hLocate : t.locate directory = .ok location)
    (hDirectory : t.at? location = some .directory)
    (hWalk : ∀ place ∈ t.directoriesBelow location,
      (Path.join directory (Path.ofNames place)).length ≤ FileTree.pathLimit)
    (hUndotted : ∀ place ∈ t.filesBelow location, Undotted place) :
    ∃ places names, typeNames t directory = .ok names ∧
      Lists t directory location places names := by
  obtain ⟨places, hOnce, hPlaces, hNamed⟩ := exists_places h hUndotted
  have hBelow : ∀ place ∈ places, place ∈ t.filesBelow location :=
    fun place hPlace => ((hPlaces place).mp hPlace).1
  have hPath : ∀ place ∈ places, CalledByTexts place → ∀ name, Names place name →
      Path.ofText (classFilePath name) = Path.ofNames place :=
    fun place hPlace hText name hName =>
      ofText_classFilePath (hUndotted place (hBelow place hPlace)) hText hName
  refine ⟨places, namesBelow t location, typeNames_eq hLocate hDirectory hWalk, ?_⟩
  constructor
  case sorted => exact pairwise_namesBelow
  case places_iff => exact hPlaces
  case places_once => exact hOnce
  case named => exact hNamed
  case strict =>
    intro hText
    exact pairwise_lt_namesBelow h hUndotted fun place hPlace hType =>
      hText place ((hPlaces place).mpr ⟨hPlace, hType⟩)
  case apart =>
    intro place hPlace other hOther hText hOtherText name hName hOtherName
    exact place_eq_of_names h hUndotted (hBelow place hPlace) (hBelow other hOther) hText
      hOtherText hName hOtherName
  case path => exact hPath
  case found =>
    intro place hPlace hText name hName bytes archive hNode hFits
    have hOfText := hPath place hPlace hText name hName
    have hne := (mem_filesBelow.mp (hBelow place hPlace)).1
    have hRead := readBelow_place h hLocate hDirectory hne hNode hOfText
    rw [hOfText, if_neg (Nat.not_lt.mpr hFits)] at hRead
    refine ⟨hRead, ?_⟩
    show Composition.resolveIn (Place.readBelow t directory) name = _
    rw [Composition.resolveIn, hRead]
    rfl
  case refused =>
    intro place hPlace hText name hName hLong
    have hOfText := hPath place hPlace hText name hName
    obtain ⟨hne, bytes, archive, hNode⟩ := mem_filesBelow.mp (hBelow place hPlace)
    have hRead := readBelow_place h hLocate hDirectory hne hNode hOfText
    rw [hOfText, if_pos hLong] at hRead
    exact hRead

/-- Two types, a nested one, a type whose name is no text, and a file that is no class file. -/
def sampleTree : FileTree where
  start := [.ofText "w"]
  nodes := [([.ofText "w"], .directory), ([.ofText "w", .ofText "p"], .directory),
    ([.ofText "w", .ofText "B.class"], .file [1] none),
    ([.ofText "w", .ofText "p", .ofText "A.class"], .file [2] none),
    ([.ofText "w", .ofText "p", .ofText "A$B.class"], .file [3] none),
    ([.ofText "w", 0xFF :: ending], .file [4] none),
    ([.ofText "w", .ofText "notes"], .file [5] none)]

theorem typeNames_lists_sample :
    sampleTree.Proper ∧ sampleTree.locate (.ofText "./") = .ok [.ofText "w"] ∧
      sampleTree.at? [.ofText "w"] = some .directory ∧
      (∀ place ∈ sampleTree.directoriesBelow [.ofText "w"],
        (Path.join (.ofText "./") (Path.ofNames place)).length ≤ FileTree.pathLimit) ∧
      (∀ place ∈ sampleTree.filesBelow [.ofText "w"], Undotted place) ∧
      ∃ places names, typeNames sampleTree (.ofText "./") = .ok names ∧
        Lists sampleTree (.ofText "./") [.ofText "w"] places names := by
  have hProper : sampleTree.Proper := by decide +kernel
  have hLocate : sampleTree.locate (.ofText "./") = .ok [.ofText "w"] := by decide +kernel
  have hDirectory : sampleTree.at? [.ofText "w"] = some .directory := by decide +kernel
  have hWalk : ∀ place ∈ sampleTree.directoriesBelow [.ofText "w"],
      (Path.join (.ofText "./") (Path.ofNames place)).length ≤ FileTree.pathLimit := by
    decide +kernel
  have hUndotted : ∀ place ∈ sampleTree.filesBelow [.ofText "w"], Undotted place := by
    have hFiles : sampleTree.filesBelow [.ofText "w"] =
        [[] ++ [.ofText "B" ++ ending], [.ofText "p"] ++ [.ofText "A" ++ ending],
          [.ofText "p"] ++ [.ofText "A$B" ++ ending], [] ++ [[0xFF] ++ ending],
          [.ofText "notes"]] := by
      decide +kernel
    rw [hFiles]
    simp only [List.forall_mem_cons, List.not_mem_nil, false_implies, implies_true, and_true]
    exact ⟨undotted_append_class (by decide) (by decide),
      undotted_append_class (by decide) (by decide), undotted_append_class (by decide) (by decide),
      undotted_append_class (by decide) (by decide), undotted_of_no_point (by decide)⟩
  exact ⟨hProper, hLocate, hDirectory, hWalk, hUndotted,
    typeNames_lists hProper hLocate hDirectory hWalk hUndotted⟩

/-- Two files whose names are no texts. -/
def lossyTree : FileTree where
  start := [.ofText "w"]
  nodes := [([.ofText "w"], .directory), ([.ofText "w", 0xFF :: ending], .file [1] none),
    ([.ofText "w", 0xFE :: ending], .file [2] none)]

/-- A directory whose path leaves no room for the names of files. -/
def longPath : Path := (List.replicate 2045 (Path.ofText "./")).flatten

/-- A name that is there twice and leads to no file, and one whose file the system refuses. -/
theorem typeNames_not_found :
    (lossyTree.Proper ∧ (∀ place ∈ lossyTree.filesBelow [.ofText "w"], Undotted place) ∧
      typeNames lossyTree (.ofText "./") = .ok ["\uFFFD", "\uFFFD"] ∧
      (Locator.directory lossyTree (.ofText "./")).resource (classFilePath "\uFFFD") = .ok none) ∧
    typeNames sampleTree longPath = .ok ["B", "p.A", "\uFFFD"] ∧
      (Locator.directory sampleTree longPath).resource (classFilePath "B") =
        .error (.file (Path.join longPath (.ofText "B.class")) .nameTooLong) := by
  refine ⟨⟨by decide +kernel, ?_, ?_, by decide +kernel⟩, ?_⟩
  · have hFiles : lossyTree.filesBelow [.ofText "w"] =
        [[] ++ [[0xFF] ++ ending], [] ++ [[0xFE] ++ ending]] := by decide +kernel
    rw [hFiles]
    simp only [List.forall_mem_cons, List.not_mem_nil, false_implies, implies_true, and_true]
    exact ⟨undotted_append_class (by decide) (by decide),
      undotted_append_class (by decide) (by decide)⟩
  · have hNames : namesBelow lossyTree [.ofText "w"] = ["\uFFFD", "\uFFFD"] :=
      namesBelow_eq (by decide +kernel) (by decide +kernel)
    rw [← hNames]
    exact typeNames_eq (by decide +kernel) (by decide +kernel) (by decide +kernel)
  · have hLocate : sampleTree.locate longPath = .ok [.ofText "w"] := by decide +kernel
    have hDirectory : sampleTree.at? [.ofText "w"] = some .directory := by decide +kernel
    have hNames : namesBelow sampleTree [.ofText "w"] = ["B", "p.A", "\uFFFD"] :=
      namesBelow_eq (by decide +kernel) (by decide +kernel)
    have hFile : ([.ofText "w"] ++ [.ofText "B.class"], .file [1] none) ∈ sampleTree.nodes :=
      List.mem_of_getElem? (i := 2) rfl
    have hRead := readBelow_place (by decide +kernel) hLocate hDirectory (by simp) hFile
      (by decide +kernel : Path.ofText "B.class" = Path.ofNames [.ofText "B.class"])
    rw [if_pos (by decide +kernel)] at hRead
    constructor
    · rw [← hNames]
      exact typeNames_eq hLocate hDirectory (by decide +kernel)
    · have hPath : classFilePath "B" = "B.class" := by decide +kernel
      show Place.readBelow sampleTree longPath (classFilePath "B") = _
      rw [hPath, hRead]

end Scan

end ClassSketch
