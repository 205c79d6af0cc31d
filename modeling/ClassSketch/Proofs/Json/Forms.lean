import ClassSketch.Decl.Codec

/-!
# Reading back parts of JSON values

The JSON form of a declaration is put together from choices, objects, arrays and optional values.
The lemmas here read each of these back, given that its parts are read back, so that no proof about
a declaration looks into a JSON value.

Reading goes down one level at a time. That it ends in time follows from the depth: every item of an
array and every entry of an object is less deep than the whole.

## Main results

* `Json.get?_cons_self`, `Json.get?_cons_of_ne` — entries of objects, and their companions for
  optional ones
* `Json.listOf?_ofList`, `Json.asOption?_ofOption` — arrays and optional values
* `Json.depth_lt_arr`, `Json.depth_lt_obj` — depth of items and entries
-/

namespace ClassSketch

namespace Json

variable {α : Type} {read : Json → Option α} {write : α → Json} {name other : String}
  {value : Json} {entries : List (String × Json)}

/-! ### Objects -/

/-- The first entry of a name is the field of that name. -/
theorem field?_cons_self : (obj ((name, value) :: entries)).field? name = some value := by
  rw [field?, lookup?, List.find?_cons_of_pos (by simp), Option.map_some]

/-- An entry of another name is passed over. -/
theorem field?_cons_of_ne (h : other ≠ name) :
    (obj ((other, value) :: entries)).field? name = (obj entries).field? name := by
  rw [field?, lookup?, List.find?_cons_of_neg (by simpa using h), field?, lookup?]

@[simp] theorem get?_cons_self : (obj ((name, value) :: entries)).get? name read = read value := by
  rw [get?, field?_cons_self, Option.bind_some]

@[simp] theorem get?_cons_of_ne (h : other ≠ name) :
    (obj ((other, value) :: entries)).get? name read = (obj entries).get? name read := by
  rw [get?, field?_cons_of_ne h, get?]

@[simp] theorem getOption?_cons_self :
    (obj ((name, value) :: entries)).getOption? name read = value.asOption? read := by
  rw [getOption?, fieldD, field?_cons_self, Option.getD_some]

@[simp] theorem getOption?_cons_of_ne (h : other ≠ name) :
    (obj ((other, value) :: entries)).getOption? name read =
      (obj entries).getOption? name read := by
  rw [getOption?, fieldD, field?_cons_of_ne h, getOption?, fieldD]

@[simp] theorem choice?_ofChoice (shape : String) (content : Json) :
    (ofChoice shape content).choice? = some (shape, content) := rfl

/-! ### Integers, arrays and optional values -/

/-- A number within bounds is accepted. -/
theorem intWithin?_of_le {least greatest n : Int} (h : least ≤ n) (h' : n ≤ greatest) :
    (int n).intWithin? least greatest = some n := by
  rw [intWithin?, asInt?, Option.bind_some, if_pos ⟨h, h'⟩]

theorem mapM_map_of_forall {β : Type} {read : β → Option α} {write : α → β} {xs : List α}
    (h : ∀ x ∈ xs, read (write x) = some x) : (xs.map write).mapM read = some xs := by
  induction xs with
  | nil => rfl
  | cons x xs ih =>
    rw [List.forall_mem_cons] at h
    rw [List.map_cons, List.mapM_cons, h.1, ih h.2]
    rfl

/-- A list is read back if each of its items is. -/
theorem listOf?_ofList {xs : List α} (h : ∀ x ∈ xs, read (write x) = some x) :
    (ofList write xs).listOf? read = some xs := by
  rw [listOf?, ofList, asList?, Option.bind_some]
  exact mapM_map_of_forall h

/-- Only what is absent is written as `null`. -/
theorem asOption?_ofOption {o : Option α} (hNull : ∀ x ∈ o, write x ≠ null)
    (h : ∀ x ∈ o, read (write x) = some x) : (ofOption write o).asOption? read = some o := by
  cases o with
  | none => rfl
  | some x =>
    rw [ofOption, asOption?, h x rfl, Option.map_some]
    exact hNull x rfl

/-! ### Depth -/

theorem depth_le_depthItems {item : Json} {items : List Json} (h : item ∈ items) :
    item.depth ≤ depthItems items := by
  induction items with
  | nil => cases h
  | cons first items ih =>
    rw [depthItems]
    rcases List.mem_cons.mp h with rfl | hRest
    · exact Nat.le_max_left _ _
    · exact Nat.le_trans (ih hRest) (Nat.le_max_right _ _)

theorem depth_le_depthEntries (h : value ∈ entries.map Prod.snd) :
    value.depth ≤ depthEntries entries := by
  induction entries with
  | nil => cases h
  | cons first entries ih =>
    rw [depthEntries]
    rcases List.mem_cons.mp h with rfl | hRest
    · exact Nat.le_max_left _ _
    · exact Nat.le_trans (ih hRest) (Nat.le_max_right _ _)

/-- The items of an array are less deep than the array. -/
theorem depth_lt_arr {item : Json} {items : List Json} (h : item ∈ items) :
    item.depth < (arr items).depth := by
  rw [depth]
  exact Nat.lt_succ_of_le (depth_le_depthItems h)

/-- The values of an object are less deep than the object. -/
theorem depth_lt_obj (h : value ∈ entries.map Prod.snd) :
    value.depth < (obj entries).depth := by
  rw [depth]
  exact Nat.lt_succ_of_le (depth_le_depthEntries h)

theorem not_depth_le_zero (j : Json) : ¬j.depth ≤ 0 := by
  cases j <;> simp [depth]

/-- What is chosen is less deep than the choice. -/
theorem depth_lt_ofChoice (shape : String) (content : Json) :
    content.depth < (ofChoice shape content).depth :=
  depth_lt_obj List.mem_cons_self

end Json

end ClassSketch
