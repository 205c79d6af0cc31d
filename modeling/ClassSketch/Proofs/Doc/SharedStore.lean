import ClassSketch.Proofs.Doc.Asking
import ClassSketch.Proofs.Parsing
import Mathlib.Algebra.Ring.Nat

/-!
# A store that several computations ask at the same time

A store that remembers is shared by workers. What a worker does with a question takes up to three
steps: it looks into the memory; if it finds nothing, it reads the file, and then it remembers what
it has read. Between these steps other workers take theirs, so that several of them may read one
file and remember it one after the other. All orders of steps are the schedules: lists that say
which worker takes the next step.

No order makes a difference, as long as the files stay as they are. The invariant is that everything
remembered, and everything that a worker is about to remember, is what loading gives.

## Main definitions

* `Worker`, `Worker.step?` — a worker and its next step
* `SharedRun`, `SharedRun.step?`, `SharedRun.run?` — workers, their store, and a schedule
* `SharedRun.Sound` — the invariant

## Main results

* `SharedRun.run?_lookup` — the steps of a question, taken one after the other, are the lookup of
  the store
* `SharedRun.Sound.step`, `SharedRun.Sound.run` — the invariant, and how many steps are left
* `SharedRun.Sound.exists_finish` — every run can be finished
-/

namespace ClassSketch

variable {α ε : Type}

/-- A question that was answered. -/
structure Answer where
  type : String
  key : MemberKey
  text : Option String

/-- A computation that asks, at some step of a question. -/
inductive Worker (α : Type) where
  /-- It looks into the memory next, unless it is done. -/
  | ready (rest : Asking α)
  /-- It has found nothing in the memory and reads the file next. -/
  | missed (type : String) (key : MemberKey) (next : Option String → Asking α)
  /-- It has read the file and remembers the entries next. -/
  | loaded (type : String) (key : MemberKey) (found : Option Properties)
    (next : Option String → Asking α)

namespace Worker

section Steps

variable (resource : String → Except ε (Option (List UInt8)))

/-- The store and the worker after its next step, with the answer that it got in it. A worker that
is done takes no step. -/
def step? (s : ColocatedStore) : Worker α → Option (ColocatedStore × Worker α × Option Answer)
  | ready (.done _) => none
  | ready (.ask type key next) =>
    match s.cached? type with
    | some found =>
      let text := found.bind (·.get? key)
      some (s, ready (next text), some ⟨type, key, text⟩)
    | none => some (s, missed type key next, none)
  | missed type key next =>
    some (s, loaded type key (ColocatedStore.load resource s.suffix type) next, none)
  | loaded type key found next =>
    let text := found.bind (·.get? key)
    some (s.remember type found, ready (next text), some ⟨type, key, text⟩)

end Steps

/-- The result of a worker that is done. -/
def result? : Worker α → Option α
  | ready (.done result) => some result
  | _ => none

/-- The result that a worker will have if a lookup answers. -/
def outcome (lookup : Lookup) : Worker α → α
  | ready rest => rest.answer lookup
  | missed type key next => (next (lookup type key)).answer lookup
  | loaded type key _ next => (next (lookup type key)).answer lookup

/-- At most how many steps a worker has left if a lookup answers. -/
def remaining (lookup : Lookup) : Worker α → ℕ
  | ready rest => 3 * rest.count lookup
  | missed type key next => 3 * (next (lookup type key)).count lookup + 2
  | loaded type key _ next => 3 * (next (lookup type key)).count lookup + 1

/-- What a worker is about to remember is what loading gives. -/
def Truthful (resource : String → Except ε (Option (List UInt8))) (suffix : String) :
    Worker α → Prop
  | loaded type _ found _ => found = ColocatedStore.load resource suffix type
  | _ => True

theorem outcome_of_result? {w : Worker α} {result : α} (h : w.result? = some result)
    (lookup : Lookup) : w.outcome lookup = result := by
  rcases w with (_ | _) | _ | _ <;> cases h
  rfl

/-- A worker that is not done can take a step, whatever the store remembers. -/
theorem exists_step? {w : Worker α} (h : w.result? = none)
    (resource : String → Except ε (Option (List UInt8))) (s : ColocatedStore) :
    ∃ stepped, w.step? resource s = some stepped := by
  rcases w with (_ | _) | _ | _
  · cases h
  · rw [step?]
    cases s.cached? _ <;> exact ⟨_, rfl⟩
  · exact ⟨_, rfl⟩
  · exact ⟨_, rfl⟩

variable {resource : String → Except ε (Option (List UInt8))} {s s' : ColocatedStore}
  {w w' : Worker α} {answered : Option Answer}

/-- What a step of a worker means for the store and for its own outcome. -/
structure Stepped (resource : String → Except ε (Option (List UInt8))) (s s' : ColocatedStore)
    (w w' : Worker α) (answered : Option Answer) : Prop where
  suffix : s'.suffix = s.suffix
  store : s'.Truthful resource
  worker : w'.Truthful resource s.suffix
  outcome : w'.outcome (ColocatedStore.fresh resource s.suffix) =
    w.outcome (ColocatedStore.fresh resource s.suffix)
  remaining : w'.remaining (ColocatedStore.fresh resource s.suffix) <
    w.remaining (ColocatedStore.fresh resource s.suffix)
  answers : ∀ a ∈ answered, a.text = ColocatedStore.fresh resource s.suffix a.type a.key

/-- A step keeps the store and the worker truthful, whichever steps were taken in between. -/
theorem stepped_of_step? (hStore : s.Truthful resource) (hWorker : w.Truthful resource s.suffix)
    (h : w.step? resource s = some (s', w', answered)) : Stepped resource s s' w w' answered := by
  rcases w with (result | ⟨type, key, next⟩) | ⟨type, key, next⟩ | ⟨type, key, found, next⟩
  · cases h
  · rw [step?] at h
    cases hCached : s.cached? type with
    | some found =>
      -- the answer comes from the memory, which may have been written by another worker
      have hText : found.bind (·.get? key) = ColocatedStore.fresh resource s.suffix type key := by
        rw [ColocatedStore.fresh, hStore type found hCached]
      simp only [hCached, hText] at h
      cases h
      exact {
        suffix := rfl
        store := hStore
        worker := trivial
        outcome := rfl
        remaining := by simp only [remaining, Asking.count]; omega
        answers := by rintro _ ⟨⟩; rfl }
    | none =>
      simp only [hCached] at h
      cases h
      exact {
        suffix := rfl
        store := hStore
        worker := trivial
        outcome := rfl
        remaining := by simp only [remaining, Asking.count]; omega
        answers := by rintro _ ⟨⟩ }
  · cases h
    exact {
      suffix := rfl
      store := hStore
      worker := rfl
      outcome := rfl
      remaining := by simp only [remaining]; omega
      answers := by rintro _ ⟨⟩ }
  · cases h
    -- what was read before may be remembered by now: the memory is overwritten with the same
    cases hWorker
    exact {
      suffix := rfl
      store := hStore.remember type
      worker := trivial
      outcome := rfl
      remaining := by simp only [remaining, ColocatedStore.fresh]; omega
      answers := by rintro _ ⟨⟩; rfl }

end Worker

/-- Workers with the store they share, and the answers given so far, in order. -/
structure SharedRun (α : Type) where
  store : ColocatedStore
  workers : List (Worker α)
  answers : List Answer

namespace SharedRun

/-- The run in which nothing has happened. -/
def start (s : ColocatedStore) (computations : List (Asking α)) : SharedRun α :=
  ⟨s, computations.map .ready, []⟩

section Steps

variable (resource : String → Except ε (Option (List UInt8)))

/-- The run after the next step of a worker. -/
def step? (r : SharedRun α) (i : ℕ) : Option (SharedRun α) := do
  let worker ← r.workers[i]?
  let (store, worker, answered) ← worker.step? resource r.store
  return ⟨store, r.workers.set i worker, r.answers ++ answered.toList⟩

/-- The run after the steps of a schedule. -/
def run? (r : SharedRun α) (schedule : List ℕ) : Option (SharedRun α) :=
  schedule.foldlM (step? resource) r

end Steps

/-- The results of the workers, once all are done. -/
def results? (r : SharedRun α) : Option (List α) := r.workers.mapM Worker.result?

variable {resource : String → Except ε (Option (List UInt8))} {r r' : SharedRun α} {i : ℕ}

/-- What a step changes: one worker, the store and the answers. -/
theorem step?_eq_some (h : r.step? resource i = some r') :
    ∃ before worker after store worker' answered, r.workers = before ++ worker :: after ∧
      worker.step? resource r.store = some (store, worker', answered) ∧
      r' = ⟨store, before ++ worker' :: after, r.answers ++ answered.toList⟩ := by
  obtain ⟨worker, hWorker, h⟩ := Option.bind_eq_some_iff.mp h
  obtain ⟨⟨store, worker', answered⟩, hStep, heq⟩ := Option.bind_eq_some_iff.mp h
  cases heq
  obtain ⟨hLength, rfl⟩ := List.getElem?_eq_some_iff.mp hWorker
  obtain ⟨before, after, hWorkers, -, hSet⟩ : ∃ before after,
      r.workers = before ++ r.workers[i] :: after ∧ before.length = i ∧
        r.workers.set i worker' = before ++ worker' :: after :=
    List.exists_of_set hLength
  exact ⟨before, _, after, store, worker', answered, hWorkers, hStep, by rw [hSet]⟩

/-! ### The invariant -/

/-- The files have the given results: the memory and what is about to be remembered is what loading
gives, every answer is that of a store that reads the file anew, and the workers are on their way to
the results. -/
structure Sound (resource : String → Except ε (Option (List UInt8))) (suffix : String)
    (results : List α) (r : SharedRun α) : Prop where
  suffix_eq : r.store.suffix = suffix
  store : r.store.Truthful resource
  workers : ∀ w ∈ r.workers, w.Truthful resource suffix
  outcomes : r.workers.map (·.outcome (ColocatedStore.fresh resource suffix)) = results
  answers : ∀ a ∈ r.answers, a.text = ColocatedStore.fresh resource suffix a.type a.key

/-- At most how many steps are left. -/
def remaining (lookup : Lookup) (r : SharedRun α) : ℕ :=
  (r.workers.map (·.remaining lookup)).sum

variable {suffix : String} {results : List α}

theorem sound_start {s : ColocatedStore} (h : s.Truthful resource)
    (computations : List (Asking α)) : (start s computations).Sound resource s.suffix
      (computations.map (·.answer (ColocatedStore.fresh resource s.suffix))) where
  suffix_eq := rfl
  store := h
  workers := by
    intro w hw
    obtain ⟨computation, -, rfl⟩ := List.mem_map.mp hw
    trivial
  outcomes := by
    rw [start, List.map_map]
    rfl
  answers := by
    intro a ha
    cases ha

/-- Every step keeps the invariant and leaves fewer steps. -/
theorem Sound.step (h : r.Sound resource suffix results) (hStep : r.step? resource i = some r') :
    r'.Sound resource suffix results ∧
      r'.remaining (ColocatedStore.fresh resource suffix) <
        r.remaining (ColocatedStore.fresh resource suffix) := by
  obtain ⟨before, worker, after, store, worker', answered, hWorkers, hWorkerStep, rfl⟩ :=
    step?_eq_some hStep
  obtain ⟨rfl, hStore, hTruthful, rfl, hAnswers⟩ := h
  rw [hWorkers] at hTruthful
  have hWorker : worker ∈ before ++ worker :: after := by simp
  have hStepped := Worker.stepped_of_step? hStore (hTruthful worker hWorker) hWorkerStep
  refine ⟨⟨hStepped.suffix, hStepped.store, ?_, ?_, ?_⟩, ?_⟩
  · intro w hw
    rcases List.mem_append.mp hw with hBefore | hRest
    · exact hTruthful w (List.mem_append_left _ hBefore)
    rcases List.mem_cons.mp hRest with rfl | hAfter
    · exact hStepped.worker
    · exact hTruthful w (List.mem_append_right _ (List.mem_cons_of_mem _ hAfter))
  · simp only [hWorkers, List.map_append, List.map_cons, hStepped.outcome]
  · intro a ha
    rcases List.mem_append.mp ha with hOld | hNew
    · exact hAnswers a hOld
    · exact hStepped.answers a (by simpa using hNew)
  · have hLess := hStepped.remaining
    simp only [remaining, hWorkers, List.map_append, List.map_cons, List.sum_append,
      List.sum_cons]
    omega

/-- Every schedule keeps the invariant, and its steps are no longer left. -/
theorem Sound.run {schedule : List ℕ} (h : r.Sound resource suffix results)
    (hRun : r.run? resource schedule = some r') :
    r'.Sound resource suffix results ∧
      schedule.length + r'.remaining (ColocatedStore.fresh resource suffix) ≤
        r.remaining (ColocatedStore.fresh resource suffix) := by
  induction schedule generalizing r with
  | nil =>
    cases hRun
    exact ⟨h, by simp⟩
  | cons i schedule ih =>
    obtain ⟨r₁, hStep, hRest⟩ := Option.bind_eq_some_iff.mp hRun
    obtain ⟨hSound, hLess⟩ := h.step hStep
    obtain ⟨hEnd, hSteps⟩ := ih hSound hRest
    refine ⟨hEnd, ?_⟩
    rw [List.length_cons]
    omega

/-! ### Steps without interruption -/

section Uninterrupted

variable {s s' : ColocatedStore} {workers : List (Worker α)} {answers : List Answer}

theorem step?_set {w w' : Worker α} {answered : Option Answer} (hLength : i < workers.length)
    (h : w.step? resource s = some (s', w', answered)) :
    step? resource ⟨s, workers.set i w, answers⟩ i =
      some ⟨s', workers.set i w', answers ++ answered.toList⟩ := by
  rw [step?, List.getElem?_set_self hLength, Option.bind_eq_bind, Option.bind_some, h]
  simp only [Option.bind_eq_bind, Option.bind_some, List.set_set]
  rfl

/-- The steps of a question, taken one after the other, are the lookup of the store. -/
theorem run?_lookup (resource : String → Except ε (Option (List UInt8))) (s : ColocatedStore)
    (answers : List Answer) (hLength : i < workers.length) (type : String) (key : MemberKey)
    (next : Option String → Asking α) :
    ∃ n, run? resource ⟨s, workers.set i (.ready (.ask type key next)), answers⟩
        (List.replicate n i) =
      some ⟨(s.lookup resource type key).2,
        workers.set i (.ready (next (s.lookup resource type key).1)),
        answers ++ [⟨type, key, (s.lookup resource type key).1⟩]⟩ := by
  rw [ColocatedStore.lookup, ColocatedStore.documentation]
  cases hCached : s.cached? type with
  | some found =>
    have hLook : Worker.step? resource s (.ready (.ask type key next)) =
        some (s, .ready (next (found.bind (·.get? key))),
          some ⟨type, key, found.bind (·.get? key)⟩) := by
      rw [Worker.step?, hCached]
    refine ⟨1, ?_⟩
    rw [run?, List.replicate_one, List.foldlM_cons, step?_set hLength hLook]
    rfl
  | none =>
    have hLook : Worker.step? resource s (.ready (.ask type key next)) =
        some (s, .missed type key next, none) := by
      rw [Worker.step?, hCached]
    have hSteps : List.replicate 3 i = [i, i, i] := rfl
    refine ⟨3, ?_⟩
    rw [run?, hSteps, List.foldlM_cons, step?_set hLength hLook, Option.bind_eq_bind,
      Option.bind_some, List.foldlM_cons, step?_set hLength rfl, Option.bind_eq_bind,
      Option.bind_some, List.foldlM_cons, step?_set hLength rfl]
    simp only [Option.toList_none, Option.toList_some, List.append_nil]
    rfl

/-- A worker that is never interrupted has the store to itself. -/
theorem run?_alone (resource : String → Except ε (Option (List UInt8))) (s : ColocatedStore)
    (answers : List Answer) (hLength : i < workers.length) (p : Asking α) :
    ∃ n r, run? resource ⟨s, workers.set i (.ready p), answers⟩ (List.replicate n i) = some r ∧
      r.store = (p.alone resource s).2 ∧
      r.workers = workers.set i (.ready (.done (p.alone resource s).1)) := by
  induction p generalizing s answers with
  | done result => exact ⟨0, _, rfl, rfl, rfl⟩
  | ask type key next ih =>
    obtain ⟨m, hLookup⟩ := run?_lookup resource s answers hLength type key next
    obtain ⟨n, r, hRest, hStore, hWorkers⟩ := ih _ _ _
    refine ⟨m + n, r, ?_, hStore, hWorkers⟩
    rw [← List.replicate_append_replicate, run?, List.foldlM_append, ← run?, hLookup]
    exact hRest

end Uninterrupted

/-! ### The end of a run -/

/-- Once all workers are done, their results are those of the files. -/
theorem Sound.results_eq (h : r.Sound resource suffix results) {found : List α}
    (hFound : r.results? = some found) : found = results := by
  have hOutcomes : List.Forall₂
      (fun w result => Worker.outcome (ColocatedStore.fresh resource suffix) w = result)
      r.workers found :=
    (forall₂_of_mapM_eq_some hFound).imp fun w result hw => w.outcome_of_result? hw _
  rw [← List.forall₂_map_left_iff, List.forall₂_eq_eq_eq] at hOutcomes
  rw [← h.outcomes, hOutcomes]

/-- As long as some worker is not done, a step can be taken. -/
theorem exists_step (h : r.results? = none)
    (resource : String → Except ε (Option (List UInt8))) :
    ∃ i r', r.step? resource i = some r' := by
  obtain ⟨worker, hMem, hNone⟩ := exists_of_mapM_eq_none h
  obtain ⟨i, hLength, rfl⟩ := List.getElem_of_mem hMem
  obtain ⟨stepped, hStep⟩ := Worker.exists_step? hNone resource r.store
  refine ⟨i, ⟨stepped.1, r.workers.set i stepped.2.1, r.answers ++ stepped.2.2.toList⟩, ?_⟩
  rw [step?, List.getElem?_eq_getElem hLength, Option.bind_eq_bind, Option.bind_some, hStep]
  rfl

/-- Every run can be finished. -/
theorem Sound.exists_finish (h : r.Sound resource suffix results) :
    ∃ schedule r', r.run? resource schedule = some r' ∧ r'.results? = some results := by
  induction hSteps : r.remaining (ColocatedStore.fresh resource suffix)
    using Nat.strongRecOn generalizing r with
  | _ steps ih =>
    cases hResults : r.results? with
    | some found => exact ⟨[], r, rfl, by rw [hResults, h.results_eq hResults]⟩
    | none =>
      obtain ⟨i, r₁, hStep⟩ := exists_step hResults resource
      obtain ⟨hSound, hLess⟩ := h.step hStep
      obtain ⟨schedule, r₂, hRun, hEnd⟩ := ih _ (hSteps ▸ hLess) hSound rfl
      refine ⟨i :: schedule, r₂, ?_, hEnd⟩
      rw [run?, List.foldlM_cons, hStep]
      exact hRun

end SharedRun

end ClassSketch
