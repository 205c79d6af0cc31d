import Mathlib.Data.List.Forall2
import Mathlib.Data.List.Perm.Basic

/-!
# Runs of parsers and readers

Parsers of text and readers of bytes are computations in `StateT σ (Except ε)`: they take the front
of an input and give a value and what is left, or stop with an error. The lemmas here say what a
run of such a computation is made of, so that no proof about a parser unfolds the monad. Those about
`Except` do the same for computations without an input.

## Main results

* `Except.bind_eq_ok`, `Except.bind_eq_error` and their companions — a result, taken apart
* `Except.forall₂_of_mapM_eq_ok`, `Except.foldlM_invariant` — a result for the items of a list
* `Except.mapM_eq_error_iff` — the first item without a result
* `Except.isOk_bind_iff`, `Except.isOk_mapM_iff` — computations that give a result
* `Except.foldlM_perm` — items in another order
* `mapM_eq_some_iff`, `isSome_mapM_iff`, `exists_of_mapM_eq_none` — results that may be missing
* `bind_eq_ok` and its companions — a successful run, taken apart
* `bind_of_ok`, `bind_of_map`, `lift_of_ok` — a run, put together
-/

namespace ClassSketch

namespace Except

variable {ε δ α β : Type}

/-- A computation in two steps gives a result if both steps do. -/
theorem bind_eq_ok {x : Except ε α} {f : α → Except ε β} {y : β} :
    (x >>= f) = .ok y ↔ ∃ a, x = .ok a ∧ f a = .ok y := by
  cases x <;> simp [bind, Except.bind]

/-- A computation in two steps fails in the first one, or in the second one after it. -/
theorem bind_eq_error {x : Except ε α} {f : α → Except ε β} {e : ε} :
    (x >>= f) = .error e ↔ x = .error e ∨ ∃ a, x = .ok a ∧ f a = .error e := by
  cases x <;> simp [bind, Except.bind]

/-- To name an error differently changes no result. -/
theorem mapError_eq_ok {x : Except ε α} {f : ε → δ} {y : α} :
    x.mapError f = .ok y ↔ x = .ok y := by
  cases x <;> simp [Except.mapError]

theorem mapError_eq_error {x : Except ε α} {f : ε → δ} {e : δ} :
    x.mapError f = .error e ↔ ∃ e', x = .error e' ∧ f e' = e := by
  cases x <;> simp [Except.mapError]

theorem map_eq_error {g : α → β} {x : Except ε α} {e : ε} :
    x.map g = .error e ↔ x = .error e := by
  cases x <;> simp [Except.map]

/-- What follows a computation matters only up to what is made of its results. -/
theorem map_bind_congr {γ : Type} {x : Except ε α} {f f' : α → Except ε β} {g : β → γ}
    (h : ∀ a, (f a).map g = (f' a).map g) : (x >>= f).map g = (x >>= f').map g := by
  cases x with
  | error e => rfl
  | ok a => exact h a

theorem map_bind {γ : Type} {x : Except ε α} {f : α → Except ε β} {g : β → γ} :
    (x >>= f).map g = x >>= fun a => (f a).map g := by
  cases x <;> rfl

/-- Two computations are the same up to what is made of their results if they fail with the same
error, or give results of which the same is made. -/
theorem map_eq_map_iff {x x' : Except ε α} {g : α → β} : x.map g = x'.map g ↔
    (∃ e, x = .error e ∧ x' = .error e) ∨ ∃ a a', x = .ok a ∧ x' = .ok a' ∧ g a = g a' := by
  cases x <;> cases x' <;> simp [Except.map, eq_comm]

theorem isOk_iff {x : Except ε α} : x.isOk = true ↔ ∃ y, x = .ok y := by
  cases x <;> simp [Except.isOk, Except.toBool]

theorem isOk_eq_false_iff {x : Except ε α} : x.isOk = false ↔ ∃ e, x = .error e := by
  cases x <;> simp [Except.isOk, Except.toBool]

theorem isOk_bind_iff {x : Except ε α} {f : α → Except ε β} :
    (x >>= f).isOk = true ↔ ∃ a, x = .ok a ∧ (f a).isOk = true := by
  cases x <;> simp [bind, Except.bind, Except.isOk, Except.toBool]

theorem isOk_mapError {x : Except ε α} {f : ε → δ} : (x.mapError f).isOk = x.isOk := by
  cases x <;> rfl

theorem isOk_map {x : Except ε α} {f : α → β} : (x.map f).isOk = x.isOk := by
  cases x <;> rfl

/-- The error that ends a computation, if there is one. -/
def error? : Except ε α → Option ε
  | .ok _ => none
  | .error e => some e

theorem error?_eq_some {x : Except ε α} {e : ε} : error? x = some e ↔ x = .error e := by
  cases x <;> simp [error?]

theorem exists_of_any_toOption {x : Except ε α} {p : α → Bool} (h : x.toOption.any p = true) :
    ∃ y, x = .ok y ∧ p y = true := by
  cases x with
  | error e => cases h
  | ok y => exact ⟨y, rfl, h⟩

/-- Where all items give results, these are the results, one for each item. -/
theorem forall₂_of_mapM_eq_ok {f : α → Except ε β} {xs : List α} {ys : List β}
    (h : xs.mapM f = .ok ys) : List.Forall₂ (fun x y => f x = .ok y) xs ys := by
  induction xs generalizing ys with
  | nil =>
    cases h
    exact .nil
  | cons x xs ih =>
    rw [List.mapM_cons] at h
    obtain ⟨y, hy, h⟩ := bind_eq_ok.mp h
    obtain ⟨zs, hzs, heq⟩ := bind_eq_ok.mp h
    cases heq
    exact .cons hy (ih hzs)

/-- If each item gives a result, so do all of them together. -/
theorem mapM_eq_ok_of_forall₂ {f : α → Except ε β} {xs : List α} {ys : List β}
    (h : List.Forall₂ (fun x y => f x = .ok y) xs ys) : xs.mapM f = .ok ys := by
  induction h with
  | nil => rfl
  | cons hFirst _ ih =>
    rw [List.mapM_cons, hFirst, ih]
    rfl

theorem length_of_mapM_eq_ok {f : α → Except ε β} {xs : List α} {ys : List β}
    (h : xs.mapM f = .ok ys) : ys.length = xs.length :=
  (forall₂_of_mapM_eq_ok h).length_eq.symm

/-- Every result comes from the item in its place. -/
theorem getElem?_of_mapM_eq_ok {f : α → Except ε β} {xs : List α} {ys : List β}
    (h : xs.mapM f = .ok ys) {i : ℕ} {y : β} (hy : ys[i]? = some y) :
    ∃ x, xs[i]? = some x ∧ f x = .ok y := by
  have hAll := forall₂_of_mapM_eq_ok h
  clear h
  induction hAll generalizing i with
  | nil => cases hy
  | cons hFirst _ ih =>
    cases i with
    | zero =>
      cases hy
      exact ⟨_, rfl, hFirst⟩
    | succ i => exact ih hy

/-- All items together give results if each of them does. -/
theorem isOk_mapM_iff {f : α → Except ε β} {xs : List α} :
    (xs.mapM f).isOk = true ↔ ∀ x ∈ xs, (f x).isOk = true := by
  induction xs with
  | nil => simp [Except.isOk, Except.toBool, pure, Except.pure]
  | cons x xs ih =>
    rw [List.mapM_cons, List.forall_mem_cons, ← ih, isOk_bind_iff, isOk_iff, isOk_iff]
    constructor
    · rintro ⟨y, hy, h⟩
      obtain ⟨ys, hys, -⟩ := isOk_bind_iff.mp h
      exact ⟨⟨y, hy⟩, ys, hys⟩
    · rintro ⟨⟨y, hy⟩, ys, hys⟩
      exact ⟨y, hy, isOk_bind_iff.mpr ⟨ys, hys, rfl⟩⟩

theorem exists_of_mem_mapM {f : α → Except ε β} {xs : List α} {ys : List β}
    (h : xs.mapM f = .ok ys) {y : β} (hy : y ∈ ys) : ∃ x ∈ xs, f x = .ok y := by
  have hAll := forall₂_of_mapM_eq_ok h
  clear h
  induction hAll with
  | nil => cases hy
  | cons hFirst _ ih =>
    rcases List.mem_cons.mp hy with rfl | hy
    · exact ⟨_, List.mem_cons_self, hFirst⟩
    · obtain ⟨x, hx, hRead⟩ := ih hy
      exact ⟨x, List.mem_cons_of_mem _ hx, hRead⟩

/-- What is made of each result is made of its item, if each step says so. -/
theorem map_of_mapM_eq_ok {γ : Type} {f : α → Except ε β} {g : β → γ} {k : α → γ}
    (hStep : ∀ x y, f x = .ok y → g y = k x) {xs : List α} {ys : List β}
    (h : xs.mapM f = .ok ys) : ys.map g = xs.map k := by
  have hAll := forall₂_of_mapM_eq_ok h
  clear h
  induction hAll with
  | nil => rfl
  | cons hFirst _ ih => rw [List.map_cons, List.map_cons, hStep _ _ hFirst, ih]

/-- What every step of a fold preserves holds at its end. -/
theorem foldlM_invariant {f : β → α → Except ε β} {P : β → Prop} {xs : List α} {init result : β}
    (hInit : P init) (hStep : ∀ y x z, P y → f y x = .ok z → P z)
    (h : xs.foldlM f init = .ok result) : P result := by
  induction xs generalizing init with
  | nil =>
    cases h
    exact hInit
  | cons x xs ih =>
    rw [List.foldlM_cons] at h
    obtain ⟨next, hNext, h⟩ := bind_eq_ok.mp h
    exact ih (hStep init x next hInit hNext) h

theorem exists_of_mem_of_mapM {f : α → Except ε β} {xs : List α} {ys : List β}
    (h : xs.mapM f = .ok ys) {x : α} (hx : x ∈ xs) : ∃ y, f x = .ok y := by
  have hAll := forall₂_of_mapM_eq_ok h
  clear h
  induction hAll with
  | nil => cases hx
  | cons hFirst _ ih =>
    rcases List.mem_cons.mp hx with rfl | hx
    · exact ⟨_, hFirst⟩
    · exact ih hx

/-- The error of a list is that of the first item without a result. -/
theorem mapM_eq_error_iff {f : α → Except ε β} {xs : List α} {e : ε} :
    xs.mapM f = .error e ↔ ∃ front x back, xs = front ++ x :: back ∧
      (∀ y ∈ front, ∃ z, f y = .ok z) ∧ f x = .error e := by
  induction xs with
  | nil =>
    refine ⟨fun h => (nomatch h), ?_⟩
    rintro ⟨front, x, back, h, -⟩
    simp at h
  | cons x xs ih =>
    rw [List.mapM_cons, bind_eq_error]
    constructor
    · rintro (hFirst | ⟨z, hFirst, h⟩)
      · exact ⟨[], x, xs, rfl, List.forall_mem_nil _, hFirst⟩
      · rcases bind_eq_error.mp h with hRest | ⟨zs, -, h⟩
        · obtain ⟨front, y, back, rfl, hFront, hError⟩ := ih.mp hRest
          exact ⟨x :: front, y, back, rfl, List.forall_mem_cons.mpr ⟨⟨z, hFirst⟩, hFront⟩, hError⟩
        · cases h
    · rintro ⟨front, y, back, hList, hFront, hError⟩
      cases front with
      | nil =>
        cases hList
        exact .inl hError
      | cons x' front =>
        cases hList
        obtain ⟨⟨z, hFirst⟩, hFront⟩ := List.forall_mem_cons.mp hFront
        exact .inr ⟨z, hFirst, bind_eq_error.mpr
          (.inl (ih.mpr ⟨front, y, back, rfl, hFront, hError⟩))⟩

/-- Where the items fail, one of them does. -/
theorem exists_of_mapM_eq_error {f : α → Except ε β} {xs : List α} {e : ε}
    (h : xs.mapM f = .error e) : ∃ x ∈ xs, f x = .error e := by
  obtain ⟨front, x, back, rfl, -, hError⟩ := mapM_eq_error_iff.mp h
  exact ⟨x, List.mem_append_right front List.mem_cons_self, hError⟩

/-- A fold gives the same for other items if each of its steps does. -/
theorem foldlM_of_forall₂ {R : α → α → Prop} {as bs : List α} {f : β → α → Except ε β}
    (hAll : List.Forall₂ R as bs)
    (hStep : ∀ a b x y, R a b → f x a = .ok y → f x b = .ok y) : ∀ {x z : β},
      as.foldlM f x = .ok z → bs.foldlM f x = .ok z := by
  induction hAll with
  | nil => exact id
  | cons hFirst _ ih =>
    intro x z h
    rw [List.foldlM_cons] at h ⊢
    obtain ⟨y, hy, hOthers⟩ := bind_eq_ok.mp h
    exact bind_eq_ok.mpr ⟨y, hStep _ _ x y hFirst hy, ih hOthers⟩

/-- Items may be replaced by others that give the same results. -/
theorem mapM_of_forall₂ {R : α → α → Prop} {as bs : List α} {f : α → Except ε β}
    (hAll : List.Forall₂ R as bs)
    (hStep : ∀ a b y, R a b → f a = .ok y → f b = .ok y) : ∀ {ys : List β},
      as.mapM f = .ok ys → bs.mapM f = .ok ys := by
  induction hAll with
  | nil => exact id
  | cons hFirst _ ih =>
    intro ys h
    rw [List.mapM_cons] at h ⊢
    obtain ⟨y, hy, h⟩ := bind_eq_ok.mp h
    obtain ⟨zs, hzs, heq⟩ := bind_eq_ok.mp h
    exact bind_eq_ok.mpr ⟨y, hStep _ _ y hFirst hy, bind_eq_ok.mpr ⟨zs, ih hzs, heq⟩⟩

/-- Two items of a fold can change places. -/
def Swaps (f : β → α → Except ε β) (a b : α) : Prop :=
  ∀ x z, (f x a >>= fun y => f y b) = .ok z ↔ (f x b >>= fun y => f y a) = .ok z

/-- The order of the items of a fold does not matter if any two of them can change places. -/
theorem foldlM_perm {f : β → α → Except ε β} {as bs : List α} (hPerm : as.Perm bs)
    (hSwaps : as.Pairwise (Swaps f)) : ∀ {x z : β}, as.foldlM f x = .ok z →
      bs.foldlM f x = .ok z := by
  induction hPerm with
  | nil => exact id
  | cons a _ ih =>
    intro x z h
    rw [List.foldlM_cons] at h ⊢
    obtain ⟨y, hFirst, hOthers⟩ := bind_eq_ok.mp h
    exact bind_eq_ok.mpr ⟨y, hFirst, ih hSwaps.of_cons hOthers⟩
  | swap a b as =>
    intro x z h
    simp only [List.foldlM_cons, ← bind_assoc] at h ⊢
    obtain ⟨y, hFirst, hOthers⟩ := bind_eq_ok.mp h
    have hSwap := (List.pairwise_cons.mp hSwaps).1 a List.mem_cons_self
    exact bind_eq_ok.mpr ⟨y, (hSwap x y).mp hFirst, hOthers⟩
  | trans hFirst _ ih ih' =>
    intro x z h
    have hSymm : ∀ {a b : α}, Swaps f a b → Swaps f b a := fun h x z => (h x z).symm
    exact ih' ((hFirst.pairwise_iff hSymm).mp hSwaps) (ih hSwaps h)

end Except

/-! ### Results that may be missing -/

theorem mapM_congr {α β : Type} {m : Type → Type} [Monad m] [LawfulMonad m] {f g : α → m β}
    {xs : List α} (h : ∀ x ∈ xs, f x = g x) : xs.mapM f = xs.mapM g := by
  induction xs with
  | nil => rfl
  | cons x xs ih =>
    rw [List.forall_mem_cons] at h
    rw [List.mapM_cons, List.mapM_cons, h.1, ih h.2]

/-- Where no result is missing, the results are those of the items. -/
theorem mapM_eq_some_iff {α β : Type} {f : α → Option β} {xs : List α} {ys : List β} :
    xs.mapM f = some ys ↔ xs.map f = ys.map some := by
  induction xs generalizing ys with
  | nil =>
    rw [List.mapM_nil, List.map_nil]
    cases ys <;> simp
  | cons x xs ih =>
    rw [List.mapM_cons, List.map_cons]
    cases hx : f x with
    | none => cases ys <;> simp
    | some z =>
      cases ys with
      | nil => cases xs.mapM f <;> simp
      | cons y ys =>
        rw [List.map_cons, List.cons.injEq, ← ih]
        cases xs.mapM f <;> simp

theorem isSome_mapM_iff {α β : Type} {f : α → Option β} {xs : List α} :
    (xs.mapM f).isSome = true ↔ ∀ x ∈ xs, (f x).isSome = true := by
  induction xs with
  | nil => simp
  | cons x xs ih =>
    rw [List.mapM_cons, List.forall_mem_cons, ← ih]
    cases f x <;> cases xs.mapM f <;> simp

theorem forall₂_of_mapM_eq_some {α β : Type} {f : α → Option β} {xs : List α} {ys : List β}
    (h : xs.mapM f = some ys) : List.Forall₂ (fun x y => f x = some y) xs ys := by
  rw [← List.forall₂_map_left_iff (f := f) (R := fun o y => o = some y),
    mapM_eq_some_iff.mp h, List.forall₂_map_left_iff]
  exact List.forall₂_same.mpr fun _ _ => rfl

/-- Where something is missing, it is missing for one of the items. -/
theorem exists_of_mapM_eq_none {α β : Type} {f : α → Option β} {xs : List α}
    (h : xs.mapM f = none) : ∃ x ∈ xs, f x = none := by
  by_contra hAll
  have hSome : (xs.mapM f).isSome = true := by
    refine isSome_mapM_iff.mpr fun x hx => Option.isSome_iff_ne_none.mpr fun hNone => ?_
    exact hAll ⟨x, hx, hNone⟩
  rw [h] at hSome
  cases hSome

namespace Parsing

variable {σ ε α β : Type} {p : StateT σ (Except ε) α} {f : α → StateT σ (Except ε) β}

/-! ### Taking a run apart -/

theorem bind_eq_ok {s t : σ} {y : β} :
    (p >>= f) s = .ok (y, t) ↔ ∃ x u, p s = .ok (x, u) ∧ f x u = .ok (y, t) := by
  change (p s >>= fun v => f v.1 v.2) = _ ↔ _
  cases h : p s with
  | error e => simp [bind, Except.bind]
  | ok v => obtain ⟨x, u⟩ := v; simp [bind, Except.bind]

theorem bind_eq_error {s : σ} {e : ε} :
    (p >>= f) s = .error e ↔ p s = .error e ∨ ∃ x u, p s = .ok (x, u) ∧ f x u = .error e := by
  change (p s >>= fun v => f v.1 v.2) = _ ↔ _
  cases h : p s with
  | error e => simp [bind, Except.bind]
  | ok v => obtain ⟨x, u⟩ := v; simp [bind, Except.bind]

theorem pure_eq_ok {x y : α} {s t : σ} :
    (pure x : StateT σ (Except ε) α) s = .ok (y, t) ↔ x = y ∧ s = t := by
  change Except.ok (x, s) = _ ↔ _
  simp

theorem get_eq_ok {s t u : σ} :
    (get : StateT σ (Except ε) σ) s = .ok (t, u) ↔ s = t ∧ s = u := by
  change Except.ok (s, s) = _ ↔ _
  simp

theorem map_eq_ok {g : α → β} {x : Except ε α} {y : β} :
    x.map g = .ok y ↔ ∃ z, x = .ok z ∧ g z = y := by
  cases x <;> simp [Except.map]

/-! ### Putting a run together -/

theorem bind_of_ok {s u : σ} {x : α} (h : p s = .ok (x, u)) : (p >>= f) s = f x u := by
  change (p s >>= fun v => f v.1 v.2) = _
  rw [h]
  rfl

/-- After an error nothing follows. -/
theorem bind_of_error {s : σ} {e : ε} (h : p s = .error e) : (p >>= f) s = .error e := by
  change (p s >>= fun v => f v.1 v.2) = _
  rw [h]
  rfl

/-- A run whose end is known before its result is. -/
theorem bind_of_map {s t : σ} {x : Except ε α} (h : p s = x.map fun a => (a, t)) :
    (p >>= f) s = x >>= fun a => f a t := by
  cases x with
  | error e => exact bind_of_error h
  | ok a => exact bind_of_ok h

theorem lift_of_ok {e : Except ε α} {x : α} (h : e = .ok x) (s : σ) :
    (liftM e : StateT σ (Except ε) α) s = .ok (x, s) := by
  subst h
  rfl

theorem pure_run (x : α) (s : σ) : (pure x : StateT σ (Except ε) α) s = .ok (x, s) := rfl

theorem get_run (s : σ) : (get : StateT σ (Except ε) σ) s = .ok (s, s) := rfl

end Parsing

end ClassSketch
