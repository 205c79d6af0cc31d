import ClassSketch.Locate.Locator
import ClassSketch.Proofs.Doc.Asking
import ClassSketch.Proofs.Text.Utf8
import Mathlib.Data.List.TakeWhile

/-!
# A store whose places change

A store that remembers reads the property file of a type once, when the type is looked up for the
first time. The places it reads from may change all the time: a history is any sequence of writes
and lookups. What a lookup answers depends on the history only up to the first lookup of its type.

The invariant says what is remembered of each type: nothing as long as it was not looked up, and
from then on what its file held when it was, also if that was nothing.

The places are in a state of any kind and are changed by writes of any kind, so that nothing here
depends on what a locator consists of.

## Main definitions

* `StoreEvent`, `StoreRun` — a write or a lookup, and a store with its places
* `StoreRun.placesWhenAsked` — the places at the first lookup of a type
* `StandsFor`, `Documents` — the text of bytes, and the entries that stand at a path

## Main results

* `ColocatedStore.load_eq_some_iff` — what is loaded are the entries that stand at the path
* `StoreRun.Frozen.step`, `StoreRun.frozen_run` — the invariant
* `StoreRun.lookup_frozen` — what a lookup answers after any history
-/

namespace ClassSketch

variable {σ ω ε : Type}

/-! ### Property files -/

/-- The text that the bytes of a property file stand for: the text that they encode in UTF-8, and
if they encode none, the text in which every byte is the character of its number. -/
inductive StandsFor : List UInt8 → List Char → Prop where
  | utf8 (text : List Char) : StandsFor (Text.encodeUtf8 text) text
  | latin1 (bytes : List UInt8) (h : ∀ text, bytes ≠ Text.encodeUtf8 text) :
    StandsFor bytes (bytes.map Text.byteChar)

/-- The entries that stand at a path. -/
def Documents (resource : String → Except ε (Option (List UInt8))) (path : String)
    (p : Properties) : Prop :=
  ∃ bytes text, resource path = .ok (some bytes) ∧ StandsFor bytes text ∧
    Properties.parse (String.ofList text) = .ok p

namespace ColocatedStore

theorem path_eq (suffix type : String) : path suffix type = replaceChar '.' '/' type ++ suffix := by
  rw [path, replaceChar, ← String.toList_inj]
  simp

theorem standsFor_iff {bytes : List UInt8} {text : List Char} :
    StandsFor bytes text ↔ textOf bytes = String.ofList text := by
  rw [textOf, String.ofList_inj]
  constructor
  · rintro (⟨text⟩ | ⟨bytes, h⟩)
    · rw [Text.decodeUtf8_encodeUtf8, Option.getD_some]
    · cases hDecoded : Text.decodeUtf8 bytes with
      | some text => exact absurd (Text.decodeUtf8_eq_some_iff.mp hDecoded) (h text)
      | none => rfl
  · rintro rfl
    cases hDecoded : Text.decodeUtf8 bytes with
    | some text =>
      rw [Text.decodeUtf8_eq_some_iff.mp hDecoded]
      exact .utf8 text
    | none =>
      refine .latin1 bytes fun text hBytes => ?_
      rw [Text.decodeUtf8_eq_some_iff.mpr hBytes] at hDecoded
      cases hDecoded

/-- What is loaded of a type are the entries that stand at its path. -/
theorem load_eq_some_iff {resource : String → Except ε (Option (List UInt8))}
    {suffix type : String} {p : Properties} : load resource suffix type = some p ↔
      Documents resource (replaceChar '.' '/' type ++ suffix) p := by
  rw [load, path_eq, Documents]
  constructor
  · intro h
    split at h
    · next bytes hFound =>
      refine ⟨bytes, (textOf bytes).toList, hFound, ?_, ?_⟩
      · rw [standsFor_iff, String.ofList_toList]
      · rw [String.ofList_toList]
        cases hParse : Properties.parse (textOf bytes) with
        | ok q =>
          rw [hParse] at h
          cases h
          rfl
        | error e =>
          rw [hParse] at h
          cases h
    · cases h
  · rintro ⟨bytes, text, hFound, hText, hParse⟩
    simp only [hFound, standsFor_iff.mp hText, hParse]
    rfl

/-! ### What a lookup remembers -/

theorem cached?_lookup (resource : String → Except ε (Option (List UInt8))) (s : ColocatedStore)
    (type : String) (key : MemberKey) (other : String) :
    (s.lookup resource type key).2.cached? other =
      if type = other then some (s.documentation resource type).1 else s.cached? other := by
  rw [lookup, documentation]
  cases hCached : s.cached? type with
  | some found =>
    simp only
    split
    · next hSame => rw [← hSame, hCached]
    · rfl
  | none => exact cached?_remember

theorem suffix_lookup (resource : String → Except ε (Option (List UInt8))) (s : ColocatedStore)
    (type : String) (key : MemberKey) : (s.lookup resource type key).2.suffix = s.suffix := by
  rw [lookup, documentation]
  cases s.cached? type <;> rfl

end ColocatedStore

/-! ### Histories -/

/-- What happens to a store and to the places it reads from. -/
inductive StoreEvent (ω : Type) where
  /-- The places are changed. -/
  | write (change : ω)
  | lookup (type : String) (key : MemberKey)

/-- Whether an event is a lookup of a type. -/
def StoreEvent.asks (type : String) : StoreEvent ω → Bool
  | write _ => false
  | lookup other _ => other = type

/-- A store and the places it reads from. -/
structure StoreRun (σ : Type) where
  places : σ
  store : ColocatedStore

namespace StoreRun

/-- A new store. -/
def start (suffix : String) (places : σ) : StoreRun σ := ⟨places, ⟨suffix, []⟩⟩

section Steps

variable (resource : σ → String → Except ε (Option (List UInt8))) (write : ω → σ → σ)

/-- What a lookup answers. -/
def answer (r : StoreRun σ) (type : String) (key : MemberKey) : Option String :=
  (r.store.lookup (resource r.places) type key).1

/-- Store and places after an event. -/
def step (r : StoreRun σ) : StoreEvent ω → StoreRun σ
  | .write change => { r with places := write change r.places }
  | .lookup type key => { r with store := (r.store.lookup (resource r.places) type key).2 }

/-- Store and places after a history. -/
def run (r : StoreRun σ) (history : List (StoreEvent ω)) : StoreRun σ :=
  history.foldl (step resource write) r

/-- The places after an event. -/
def changed (places : σ) : StoreEvent ω → σ
  | .write change => write change places
  | .lookup _ _ => places

/-- The places after a history. -/
def written (places : σ) (history : List (StoreEvent ω)) : σ :=
  history.foldl (changed write) places

/-- The places as they were when a type was looked up first, or as they are if it was not. -/
def placesWhenAsked (places : σ) (history : List (StoreEvent ω)) (type : String) : σ :=
  written write places (history.takeWhile fun event => !event.asks type)

end Steps

variable {resource : σ → String → Except ε (Option (List UInt8))} {write : ω → σ → σ} {places : σ}
  {history : List (StoreEvent ω)} {suffix type : String} {r : StoreRun σ} {event : StoreEvent ω}

theorem written_concat (history : List (StoreEvent ω)) (event : StoreEvent ω) :
    written write places (history ++ [event]) =
      changed write (written write places history) event :=
  List.foldl_append

/-- After the first lookup of a type, it makes no difference what happens. -/
theorem placesWhenAsked_append (h : history.any (·.asks type) = true)
    (later : List (StoreEvent ω)) : placesWhenAsked write places (history ++ later) type =
      placesWhenAsked write places history type := by
  rw [placesWhenAsked, placesWhenAsked, List.takeWhile_append, if_neg]
  intro hLength
  have hSame := (List.takeWhile_sublist fun event => !StoreEvent.asks type event).eq_of_length
    hLength
  obtain ⟨event, hEvent, hAsks⟩ := List.any_eq_true.mp h
  have hNot := List.takeWhile_eq_self_iff.mp hSame event hEvent
  rw [hAsks] at hNot
  cases hNot

/-- A lookup of a type finds the places as they are, if it is the first one. -/
theorem placesWhenAsked_lookup (history : List (StoreEvent ω)) (type : String) (key : MemberKey) :
    placesWhenAsked write places (history ++ [.lookup type key]) type =
      placesWhenAsked write places history type := by
  have hLast : ([.lookup type key] : List (StoreEvent ω)).takeWhile (fun e => !e.asks type) =
      [] := by
    simp [StoreEvent.asks]
  rw [placesWhenAsked, List.takeWhile_append, hLast, List.append_nil]
  split
  · next hLength => rw [placesWhenAsked, (List.takeWhile_sublist _).eq_of_length hLength]
  · rfl

theorem placesWhenAsked_eq_written (h : history.any (·.asks type) = false) :
    placesWhenAsked write places history type = written write places history := by
  rw [placesWhenAsked, List.takeWhile_eq_self_iff.mpr]
  intro event hEvent
  rw [Bool.not_eq_true', ← Bool.not_eq_true]
  exact List.any_eq_false.mp h event hEvent

/-! ### The invariant -/

/-- What a store remembers after a history: of every type that was looked up, what its file held at
the first lookup. -/
structure Frozen (resource : σ → String → Except ε (Option (List UInt8))) (write : ω → σ → σ)
    (suffix : String) (places : σ) (history : List (StoreEvent ω)) (r : StoreRun σ) : Prop where
  places_eq : r.places = written write places history
  suffix_eq : r.store.suffix = suffix
  cached : ∀ type, r.store.cached? type =
    if history.any (·.asks type) then
      some (ColocatedStore.load (resource (placesWhenAsked write places history type)) suffix type)
    else none

/-- A lookup finds what the file held when its type was looked up first. -/
theorem Frozen.documentation_eq (h : r.Frozen resource write suffix places history)
    (type : String) : (r.store.documentation (resource r.places) type).1 =
      ColocatedStore.load (resource (placesWhenAsked write places history type)) suffix type := by
  rw [ColocatedStore.documentation, h.cached]
  cases hAny : history.any (·.asks type) with
  | true => rfl
  | false =>
    -- this lookup is the first one
    rw [placesWhenAsked_eq_written hAny, ← h.places_eq, ← h.suffix_eq]
    rfl

/-- What has been asked for once stays as it was, whatever is written or asked for then. -/
theorem Frozen.step (h : r.Frozen resource write suffix places history) (event : StoreEvent ω) :
    (r.step resource write event).Frozen resource write suffix places (history ++ [event]) := by
  cases event with
  | write change =>
    refine ⟨?_, h.suffix_eq, fun type => ?_⟩
    · rw [written_concat, ← h.places_eq]
      rfl
    · have hAny : (history ++ [StoreEvent.write change]).any (·.asks type) =
          history.any (·.asks type) := by
        rw [List.any_append]
        exact Bool.or_false _
      rw [StoreRun.step, h.cached, hAny]
      split
      · next hAsked => rw [placesWhenAsked_append hAsked]
      · rfl
  | lookup asked key =>
    refine ⟨?_, ?_, fun type => ?_⟩
    · rw [written_concat, ← h.places_eq]
      rfl
    · rw [StoreRun.step, ColocatedStore.suffix_lookup, h.suffix_eq]
    · have hAny : (history ++ [StoreEvent.lookup asked key]).any (·.asks type) =
          (history.any (·.asks type) || decide (asked = type)) := by
        rw [List.any_append]
        exact congrArg _ (Bool.or_false _)
      rw [StoreRun.step, ColocatedStore.cached?_lookup, h.documentation_eq, h.cached, hAny]
      by_cases hSame : asked = type
      · subst hSame
        simp [placesWhenAsked_lookup]
      · cases hAsked : history.any (·.asks type) with
        | true => simp [hSame, placesWhenAsked_append hAsked]
        | false => simp [hSame]

/-- A run keeps what it has asked for, from its start. -/
theorem frozen_run (history : List (StoreEvent ω)) :
    ((start suffix places).run resource write history).Frozen resource write suffix places
      history := by
  induction history using List.reverseRecOn with
  | nil => exact ⟨rfl, rfl, fun _ => rfl⟩
  | append_singleton history event ih =>
    rw [run, List.foldl_append]
    exact ih.step event

/-! ### Lookups -/

/-- **First lookups.** Whatever was written and looked up before, a lookup of a type answers from
the entries that stood at the path of its property file when the type was looked up first, and
answers nothing if there were none: no file, no way to read it, or no well-formed one. Nothing that
happens after the first lookup of a type changes what lookups of it answer. -/
theorem lookup_frozen (resource : σ → String → Except ε (Option (List UInt8))) (write : ω → σ → σ)
    (suffix : String) (places : σ) (history : List (StoreEvent ω)) (type : String)
    (key : MemberKey) :
    (∀ p, Documents (resource (placesWhenAsked write places history type))
        (replaceChar '.' '/' type ++ suffix) p →
      ((start suffix places).run resource write history).answer resource type key = p.get? key) ∧
    ((∀ p, ¬Documents (resource (placesWhenAsked write places history type))
        (replaceChar '.' '/' type ++ suffix) p) →
      ((start suffix places).run resource write history).answer resource type key = none) ∧
    ∀ later, (∃ event ∈ history, event.asks type = true) →
      ((start suffix places).run resource write (history ++ later)).answer resource type key =
        ((start suffix places).run resource write history).answer resource type key := by
  have hAnswer : ∀ history : List (StoreEvent ω),
      ((start suffix places).run resource write history).answer resource type key =
        (ColocatedStore.load (resource (placesWhenAsked write places history type)) suffix
          type).bind (·.get? key) := by
    intro history
    rw [← (frozen_run history).documentation_eq]
    rfl
  refine ⟨fun p hp => ?_, fun hNone => ?_, fun later hAsked => ?_⟩
  · rw [hAnswer, ColocatedStore.load_eq_some_iff.mpr hp, Option.bind_some]
  · cases hLoad : ColocatedStore.load (resource (placesWhenAsked write places history type)) suffix
        type with
    | some p => exact absurd (ColocatedStore.load_eq_some_iff.mp hLoad) (hNone p)
    | none => rw [hAnswer, hLoad, Option.bind_none]
  · rw [hAnswer, hAnswer, placesWhenAsked_append (List.any_eq_true.mpr hAsked)]

/-- Memory with a resource written. -/
def writeMemory (change : String × List UInt8) : Place → Place
  | .memory resources => .memory (Locator.putResource resources change.1 change.2)
  | place => place

/-- A class that is looked up before its file is there, and one whose file, which is no UTF-8, is
overwritten after it was looked up. -/
def overwritten : List (StoreEvent (String × List UInt8)) :=
  [.lookup "p.B" .type,
    .write ("p/A.doc", Text.encodeUtf8 "classDoc=Caf".toList ++ [0xE9]),
    .write ("p/B.doc", Text.encodeUtf8 "classDoc=Late".toList),
    .lookup "p.A" (.field "x"),
    .write ("p/A.doc", Text.encodeUtf8 "classDoc=Tea".toList)]

theorem lookup_frozen_overwritten :
    Documents (placesWhenAsked writeMemory (.memory []) overwritten "p.A").resource "p/A.doc"
        ⟨[("classDoc", "Café")]⟩ ∧
      (∀ p, ¬Documents (placesWhenAsked writeMemory (.memory []) overwritten "p.B").resource
        "p/B.doc" p) ∧
      ((start ".doc" (.memory [])).run Place.resource writeMemory overwritten).answer
        Place.resource "p.A" .type = some "Café" ∧
      ((start ".doc" (.memory [])).run Place.resource writeMemory overwritten).answer
        Place.resource "p.B" .type = none ∧
      ((start ".doc" (.memory [])).run Place.resource writeMemory
        (overwritten ++ [.write ("p/A.doc", [])])).answer Place.resource "p.A" .type =
          some "Café" := by
  have hPathA : replaceChar '.' '/' "p.A" ++ ".doc" = "p/A.doc" := by decide +kernel
  have hPathB : replaceChar '.' '/' "p.B" ++ ".doc" = "p/B.doc" := by decide +kernel
  have hFound : Documents
      (placesWhenAsked writeMemory (.memory []) overwritten "p.A").resource "p/A.doc"
      ⟨[("classDoc", "Café")]⟩ := by
    rw [← hPathA, ← ColocatedStore.load_eq_some_iff]
    decide +kernel
  have hMissing : ∀ p, ¬Documents
      (placesWhenAsked writeMemory (.memory []) overwritten "p.B").resource "p/B.doc" p := by
    have hLoad : ColocatedStore.load
        (placesWhenAsked writeMemory (.memory []) overwritten "p.B").resource ".doc" "p.B" =
          none := by
      decide +kernel
    intro p hp
    rw [← hPathB, ← ColocatedStore.load_eq_some_iff, hLoad] at hp
    cases hp
  obtain ⟨hGiven, -, hLater⟩ := lookup_frozen Place.resource writeMemory ".doc" (.memory [])
    overwritten "p.A" .type
  obtain ⟨-, hNothing, -⟩ := lookup_frozen Place.resource writeMemory ".doc" (.memory [])
    overwritten "p.B" .type
  rw [hPathA] at hGiven
  rw [hPathB] at hNothing
  have hCafe := hGiven _ hFound
  refine ⟨hFound, hMissing, hCafe, hNothing hMissing, ?_⟩
  have hAsked : ∃ event ∈ overwritten, event.asks "p.A" = true :=
    ⟨.lookup "p.A" (.field "x"), by simp [overwritten], by simp [StoreEvent.asks]⟩
  rw [hLater _ hAsked, hCafe]
  rfl

end StoreRun

end ClassSketch
