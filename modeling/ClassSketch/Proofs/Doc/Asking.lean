import ClassSketch.Doc.Store
import ClassSketch.Proofs.Entries

/-!
# Computations that ask for documentation

What is asked of a store, and in which order, depends on what was answered before. A computation
that asks is a tree: it is done, or it asks for the documentation of a declaration and goes on with
what is found. The same tree can be given the answers of a lookup, of a store that remembers, or of
a store that others use at the same time.

## Main definitions

* `Asking` — a computation that asks
* `Asking.answer` — its result if a lookup answers
* `Asking.count` — how often it asks
* `Asking.alone` — its result if it has a store that remembers to itself
* `ColocatedStore.Truthful` — everything remembered is what loading gives

## Main results

* `Asking.answer_run_bind` — steps are answered one after the other
* `ColocatedStore.lookup_eq` — a truthful store answers as if it read every file anew
* `Asking.alone_eq` — so does it for a computation that has it to itself
-/

namespace ClassSketch

/-- A computation that asks for the documentation of declarations. -/
inductive Asking (α : Type) where
  | done (result : α)
  | ask (type : String) (key : MemberKey) (next : Option String → Asking α)

namespace Asking

variable {α β ε : Type} {lookup : Lookup}

/-- One computation after the other. -/
def bind : Asking α → (α → Asking β) → Asking β
  | done result, f => f result
  | ask type key next, f => ask type key fun text => (next text).bind f

instance : Monad Asking where
  pure := done
  bind := bind

/-- The result if a lookup answers. -/
def answer (lookup : Lookup) : Asking α → α
  | done result => result
  | ask type key next => (next (lookup type key)).answer lookup

/-- The number of questions if a lookup answers. -/
def count (lookup : Lookup) : Asking α → ℕ
  | done _ => 0
  | ask type key next => (next (lookup type key)).count lookup + 1

@[simp] theorem answer_pure (result : α) : (pure result : Asking α).answer lookup = result := rfl

/-- Questions in a row are answered one after the other. -/
@[simp] theorem answer_bind (p : Asking α) (f : α → Asking β) :
    (p >>= f).answer lookup = (f (p.answer lookup)).answer lookup := by
  induction p with
  | done result => rfl
  | ask type key next ih => exact ih (lookup type key)

/-! ### Computations that fail -/

@[simp] theorem answer_run_pure (result : α) :
    (pure result : ExceptT ε Asking α).run.answer lookup = .ok result := rfl

@[simp] theorem answer_run_bind (p : ExceptT ε Asking α) (f : α → ExceptT ε Asking β) :
    (p >>= f).run.answer lookup =
      p.run.answer lookup >>= fun result => (f result).run.answer lookup := by
  rw [ExceptT.run_bind, answer_bind]
  cases p.run.answer lookup <;> rfl

@[simp] theorem answer_run_except (result : Except ε α) :
    (liftM result : ExceptT ε Asking α).run.answer lookup = result := rfl

@[simp] theorem answer_run_lift (p : Asking α) :
    (liftM p : ExceptT ε Asking α).run.answer lookup = .ok (p.answer lookup) :=
  answer_bind p _

end Asking

/-! ### Stores that remember -/

namespace ColocatedStore

variable {ε : Type} {resource : String → Except ε (Option (List UInt8))} {s : ColocatedStore}
  {type : String} {found : Option Properties}

/-- Everything remembered is what loading gives. -/
def Truthful (resource : String → Except ε (Option (List UInt8))) (s : ColocatedStore) : Prop :=
  ∀ type found, s.cached? type = some found → found = load resource s.suffix type

/-- A store that has looked for nothing remembers nothing wrong. -/
theorem truthful_new (suffix : String) : (mk suffix []).Truthful resource := by
  intro type found h
  cases h

theorem cached?_remember {other : String} : (s.remember type found).cached? other =
    if type = other then some found else s.cached? other :=
  valueOf?_putEntry

/-- A store that remembers what was loaded stays truthful, whatever it remembered of the type. -/
theorem Truthful.remember (h : s.Truthful resource) (type : String) :
    (s.remember type (load resource s.suffix type)).Truthful resource := by
  intro other found hCached
  rw [cached?_remember] at hCached
  split at hCached
  · next hSame =>
    cases hCached
    rw [hSame]
    rfl
  · exact h other found hCached

/-- A truthful store answers as if it read every file anew, and stays truthful. -/
theorem lookup_eq (h : s.Truthful resource) (type : String) (key : MemberKey) :
    (s.lookup resource type key).1 = fresh resource s.suffix type key ∧
      (s.lookup resource type key).2.Truthful resource ∧
      (s.lookup resource type key).2.suffix = s.suffix := by
  rw [lookup, documentation]
  cases hCached : s.cached? type with
  | some found =>
    refine ⟨?_, h, rfl⟩
    rw [fresh, h type found hCached]
  | none => exact ⟨rfl, h.remember type, rfl⟩

end ColocatedStore

/-- The result of a computation that has a store that remembers to itself, and the store after
it. -/
def Asking.alone {α ε : Type} (resource : String → Except ε (Option (List UInt8))) :
    Asking α → ColocatedStore → α × ColocatedStore
  | done result, s => (result, s)
  | ask type key next, s =>
    let (text, s) := s.lookup resource type key
    (next text).alone resource s

/-- A computation that has a truthful store to itself gets the answers of the files. -/
theorem Asking.alone_eq {α ε : Type} {resource : String → Except ε (Option (List UInt8))}
    {s : ColocatedStore} (h : s.Truthful resource) (p : Asking α) :
    (p.alone resource s).1 = p.answer (ColocatedStore.fresh resource s.suffix) := by
  induction p generalizing s with
  | done result => rfl
  | ask type key next ih =>
    obtain ⟨hText, hTruthful, hSuffix⟩ := ColocatedStore.lookup_eq h type key
    rw [alone, answer]
    simp only
    rw [ih _ hTruthful, hSuffix, hText]

end ClassSketch
