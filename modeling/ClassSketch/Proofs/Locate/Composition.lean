import ClassSketch.Locate.Locator
import ClassSketch.Proofs.Parsing

/-!
# Compositions of locators

Search paths and fallbacks put places together. What a composition finds depends only on the
places at its leaves and on their order from left to right: the first answer among them counts,
where an answer is a resource or a failure. How the leaves are grouped makes no difference.

A fallback looks for a class in its own way: it asks its second part after the first one has said
that it does not know the class. That agrees with looking for the class file among its resources
because a place that does not have a resource says so with an answer of its own, and never by the
failure that stands for an unknown class. Nothing else is asked of places; in memory, in directories
and in archives they keep to it.

## Main definitions

* `NeverUnknown` — a place that does not answer for an unknown class
* `Composition.leaves` — the places of a composition, from left to right
* `Composition.firstAnswer` — the first resource or failure among answers

## Main results

* `Place.neverUnknown` — places do not answer for unknown classes
* `Composition.resource_eq_firstAnswer` — resources are those of the leaves
* `Composition.resource_ne_notFound` — nor do compositions of such places
* `Composition.resolve_eq_resolveIn` — classes are found in the class files among the resources
* `composition_first_match` — compositions are searched from left to right
-/

namespace ClassSketch

/-- Asked for a resource, a place never fails like a locator that does not know a class. -/
def NeverUnknown {α : Type} [Resourceful α] (place : α) : Prop :=
  ∀ path name, Resourceful.resource place path ≠ .error (.notFound name)

namespace Place

theorem readBelow_ne_notFound (files : FileTree) (root : Path) (path name : String) :
    readBelow files root path ≠ .error (.notFound name) := by
  rw [readBelow]
  split <;> simp

theorem readEntry_ne_notFound (file : Path) (entries : List ArchiveEntry) (path name : String) :
    readEntry file entries path ≠ .error (.notFound name) := by
  rw [readEntry]
  split <;> simp

/-- What a place lacks it answers with nothing. -/
theorem neverUnknown (place : Place) : NeverUnknown place := by
  intro path name
  cases place with
  | memory resources => exact fun h => by cases h
  | directory files root => exact readBelow_ne_notFound files root path name
  | archive file entries => exact readEntry_ne_notFound file entries path name

end Place

namespace Composition

section Leaves

variable {α : Type}

mutual

/-- The places of a composition, from left to right. -/
def leaves : Composition α → List α
  | single place => [place]
  | searchPath parts => leavesOfAll parts
  | fallback primary alternate => primary.leaves ++ alternate.leaves

/-- The places of several compositions, from left to right. -/
def leavesOfAll : List (Composition α) → List α
  | [] => []
  | part :: parts => part.leaves ++ leavesOfAll parts

end

end Leaves

/-- Whether a place has a resource or fails to say so. -/
def isAnswer {ε α : Type} : Except ε (Option α) → Bool
  | .ok none => false
  | _ => true

/-- The first resource or failure among answers. -/
def firstAnswer (answers : List (Except LocateError (Option (List UInt8)))) :
    Except LocateError (Option (List UInt8)) :=
  (answers.find? isAnswer).getD (.ok none)

/-! ### Resources -/

section Answers

variable {answer : Except LocateError (Option (List UInt8))}
  {answers others : List (Except LocateError (Option (List UInt8)))}

theorem firstAnswer_of_isAnswer (h : isAnswer answer = true) :
    firstAnswer (answer :: answers) = answer := by
  rw [firstAnswer, List.find?_cons_of_pos h, Option.getD_some]

theorem firstAnswer_none_cons : firstAnswer (.ok none :: answers) = firstAnswer answers := by
  rw [firstAnswer, List.find?_cons_of_neg (by simp [isAnswer]), firstAnswer]

theorem firstAnswer_singleton : firstAnswer [answer] = answer := by
  rcases answer with e | _ | bytes <;> rfl

/-- The answers after the first ones count only if these have nothing. -/
theorem firstAnswer_append : firstAnswer (answers ++ others) =
    firstAnswer answers >>= fun
      | some bytes => .ok (some bytes)
      | none => firstAnswer others := by
  induction answers with
  | nil => rfl
  | cons answer answers ih =>
    rcases answer with e | _ | bytes
    · rfl
    · rw [List.cons_append, firstAnswer_none_cons, ih, firstAnswer_none_cons]
    · rfl

theorem firstAnswer_of_all_none (h : ∀ answer ∈ answers, answer = .ok none) :
    firstAnswer (answers ++ others) = firstAnswer others := by
  induction answers with
  | nil => rfl
  | cons answer answers ih =>
    rw [List.forall_mem_cons] at h
    rw [h.1, List.cons_append, firstAnswer_none_cons, ih h.2]

end Answers

section Resources

variable {α : Type} [Resourceful α]

mutual

/-- The resources of a composition are those of its leaves. -/
theorem resource_eq_firstAnswer (path : String) : ∀ l : Composition α,
    l.resource path = firstAnswer (l.leaves.map (Resourceful.resource · path))
  | single _ => firstAnswer_singleton.symm
  | searchPath parts => firstResource_eq_firstAnswer path parts
  | fallback primary alternate => by
    rw [leaves, List.map_append, firstAnswer_append, ← resource_eq_firstAnswer path primary,
      ← resource_eq_firstAnswer path alternate, resource]
    rfl

theorem firstResource_eq_firstAnswer (path : String) : ∀ parts : List (Composition α),
    firstResource parts path =
      firstAnswer ((leavesOfAll parts).map (Resourceful.resource · path))
  | [] => rfl
  | part :: parts => by
    rw [leavesOfAll, List.map_append, firstAnswer_append, ← resource_eq_firstAnswer path part,
      ← firstResource_eq_firstAnswer path parts, firstResource]
    rfl

end

/-- The first answer is one of the answers, unless all of them are nothing. -/
theorem firstAnswer_eq_error {answers : List (Except LocateError (Option (List UInt8)))}
    {e : LocateError} (h : firstAnswer answers = .error e) : .error e ∈ answers := by
  rw [firstAnswer] at h
  cases hFind : answers.find? isAnswer with
  | none =>
    rw [hFind] at h
    cases h
  | some answer =>
    rw [hFind] at h
    cases h
    exact List.mem_of_find?_eq_some hFind

/-- A composition that lacks a resource does not fail like one that does not know a class, if this
holds of its places. -/
theorem resource_ne_notFound {l : Composition α} (h : ∀ place ∈ l.leaves, NeverUnknown place)
    (path name : String) : l.resource path ≠ .error (.notFound name) := by
  rw [resource_eq_firstAnswer]
  intro hError
  obtain ⟨place, hPlace, hAnswer⟩ := List.mem_map.mp (firstAnswer_eq_error hError)
  exact h place hPlace path name hAnswer

end Resources

/-! ### Classes -/

section Classes

variable {find : String → Except LocateError (Option (List UInt8))} {name : String}

theorem resolveIn_of_none (h : find (classFilePath name) = .ok none) :
    resolveIn find name = .error (.notFound name) := by
  rw [resolveIn, h]
  rfl

theorem resolveIn_of_some {bytes : List UInt8} (h : find (classFilePath name) = .ok (some bytes)) :
    resolveIn find name = (ClassFile.parse bytes).mapError (.classFile name) := by
  rw [resolveIn, h]
  rfl

theorem resolveIn_of_error {e : LocateError} (h : find (classFilePath name) = .error e) :
    resolveIn find name = .error e := by
  rw [resolveIn, h]
  rfl

theorem resolveIn_congr {find' : String → Except LocateError (Option (List UInt8))}
    (h : find (classFilePath name) = find' (classFilePath name)) :
    resolveIn find name = resolveIn find' name := by
  rw [resolveIn, h, resolveIn]

end Classes

/-- A class is found in its class file among the resources, also behind a fallback. -/
theorem resolve_eq_resolveIn {α : Type} [Resourceful α] (name : String) : ∀ l : Composition α,
    (∀ place ∈ l.leaves, NeverUnknown place) → l.resolve name = resolveIn l.resource name
  | single _, _ => rfl
  | searchPath _, _ => rfl
  | fallback primary alternate, h => by
    obtain ⟨hPrimaryLeaves, hAlternateLeaves⟩ := List.forall_mem_append.mp h
    rw [resolve, resolve_eq_resolveIn name primary hPrimaryLeaves,
      resolve_eq_resolveIn name alternate hAlternateLeaves]
    have hResource : (fallback primary alternate).resource (classFilePath name) =
        primary.resource (classFilePath name) >>= fun
          | some bytes => .ok (some bytes)
          | none => alternate.resource (classFilePath name) := rfl
    cases hPrimary : primary.resource (classFilePath name) with
    | error e =>
      rw [hPrimary] at hResource
      rw [resolveIn_of_error hPrimary, resolveIn_of_error hResource]
      -- the fallback would ask its second part if this were the failure of an unknown class
      cases e with
      | notFound n => exact absurd hPrimary (resource_ne_notFound hPrimaryLeaves _ _)
      | file | archive | classFile => rfl
    | ok found =>
      rw [hPrimary] at hResource
      cases found with
      | none =>
        rw [resolveIn_of_none hPrimary]
        exact resolveIn_congr hResource.symm
      | some bytes =>
        rw [resolveIn_of_some hPrimary, resolveIn_of_some hResource]
        cases ClassFile.parse bytes <;> rfl

end Composition

open ClassSketch.Composition

/-- **Compositions of locators.** A composition has the resource, or the failure, that comes first
among its leaves from left to right, and a class is found in its class file among these resources.
A class file that is there but cannot be read ends the search, whatever comes after it. Compositions
with the same leaves find the same, however these are grouped. The leaves are places of any kind
that do not answer for unknown classes. -/
theorem composition_first_match {α : Type} [Resourceful α] (l : Composition α)
    (hLeaves : ∀ place ∈ l.leaves, NeverUnknown place) :
    (∀ path, l.resource path = firstAnswer (l.leaves.map (Resourceful.resource · path))) ∧
    (∀ name, l.resolve name =
      resolveIn (fun path => firstAnswer (l.leaves.map (Resourceful.resource · path))) name) ∧
    (∀ name before place after bytes e, l.leaves = before ++ place :: after →
      (∀ p ∈ before, Resourceful.resource p (classFilePath name) = .ok none) →
      Resourceful.resource place (classFilePath name) = .ok (some bytes) →
      ClassFile.parse bytes = .error e → l.resolve name = .error (.classFile name e)) ∧
    (∀ l' : Composition α, l'.leaves = l.leaves →
      (∀ path, l'.resource path = l.resource path) ∧ ∀ name, l'.resolve name = l.resolve name) := by
  have hResource : ∀ path, l.resource path =
      firstAnswer (l.leaves.map (Resourceful.resource · path)) :=
    fun path => resource_eq_firstAnswer path l
  refine ⟨hResource, ?_, ?_, ?_⟩
  · intro name
    rw [resolve_eq_resolveIn name l hLeaves]
    exact resolveIn_congr (hResource _)
  · intro name before place after bytes e hSplit hBefore hBytes hParse
    have hFound : l.resource (classFilePath name) = .ok (some bytes) := by
      have hNone : ∀ answer ∈ before.map (Resourceful.resource · (classFilePath name)),
          answer = .ok none := by
        intro answer hAnswer
        obtain ⟨p, hp, rfl⟩ := List.mem_map.mp hAnswer
        exact hBefore p hp
      rw [hResource, hSplit, List.map_append, firstAnswer_of_all_none hNone, List.map_cons, hBytes]
      exact firstAnswer_of_isAnswer rfl
    rw [resolve_eq_resolveIn name l hLeaves, resolveIn_of_some hFound, hParse]
    rfl
  · intro l' hSame
    have hResources : ∀ path, l'.resource path = l.resource path := by
      intro path
      rw [resource_eq_firstAnswer, hSame, hResource]
    refine ⟨hResources, fun name => ?_⟩
    rw [resolve_eq_resolveIn name l' (hSame ▸ hLeaves), resolve_eq_resolveIn name l hLeaves]
    exact resolveIn_congr (hResources _)

/-- A class without members. -/
def bareClass : List UInt8 :=
  [0xCA, 0xFE, 0xBA, 0xBE, 0, 0, 0, 0x34, 0, 3, 1, 0, 1, 0x41, 7, 0, 1, 0, 0x21, 0, 2, 0, 0,
    0, 0, 0, 0, 0, 0, 0, 0]

/-- A search path whose second place has half of a class file, before a place with all of it. -/
def halved : Locator :=
  .fallback
    (.searchPath [.single (.memory []), .single (.memory [("A.class", bareClass.take 16)])])
    (.single (.memory [("A.class", bareClass)]))

/-- The same places, grouped from the right. -/
def halvedRight : Locator :=
  .searchPath [.single (.memory []),
    .fallback (.single (.memory [("A.class", bareClass.take 16)]))
      (.searchPath [.single (.memory [("A.class", bareClass)])])]

/-- The second place has the class file, so that the whole one behind it is never found. -/
theorem composition_first_match_halved :
    (∀ place ∈ halved.leaves, NeverUnknown place) ∧
      (ClassFile.parse bareClass).isOk = true ∧ halvedRight.leaves = halved.leaves ∧
      halved.resolve "A" = .error (.classFile "A" .unexpectedEnd) ∧
      halvedRight.resolve "A" = .error (.classFile "A" .unexpectedEnd) := by
  have hLeaves : ∀ place ∈ halved.leaves, NeverUnknown place := fun place _ => place.neverUnknown
  have hPath : classFilePath "A" = "A.class" := by decide +kernel
  have hHalf : ClassFile.parse (bareClass.take 16) = .error .unexpectedEnd :=
    Except.error?_eq_some.mp (by decide +kernel)
  have hFound : Place.resource (.memory [("A.class", bareClass.take 16)]) (classFilePath "A") =
      .ok (some (bareClass.take 16)) := by
    rw [hPath]
    rfl
  have hHalved : halved.resolve "A" = .error (.classFile "A" .unexpectedEnd) := by
    refine (composition_first_match halved hLeaves).2.2.1 "A" [.memory []] _ [_] _ _ rfl ?_ hFound
      hHalf
    intro p hp
    rw [List.mem_singleton] at hp
    rw [hp]
    rfl
  refine ⟨hLeaves, by decide +kernel, rfl, hHalved, ?_⟩
  rw [((composition_first_match halved hLeaves).2.2.2 halvedRight rfl).2 "A", hHalved]

end ClassSketch
