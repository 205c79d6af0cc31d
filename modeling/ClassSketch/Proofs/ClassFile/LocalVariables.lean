import ClassSketch.ClassFile.ParameterNames
import ClassSketch.Proofs.Parsing
import ClassSketch.Proofs.Signature.Erased
import Mathlib.Algebra.Ring.Nat

/-!
# Names recovered from local variables

The parameters of a method take the first slots for local variables, one after the other, behind the
instance if there is one. A method that does not declare the names of its parameters still has them
if its table of local variables has an entry for each of these slots. A slot may be reused later on,
so that the name of a parameter is that of the variable that is the first to live in its slot.

Walking through the slots stops where one of them has no variable, or where the next one would be
out of range. That is the same as looking up all slots at once, under one condition on their number,
and it is in this form that the results below use it.

## Main definitions

* `IsEarliest` — the variable that is the first to live in a slot
* `offsets`, `MethodInfo.slotOf` — the slots in which the parameters begin
* `MethodInfo.LacksNames` — methods that do not declare the names of their parameters
* `MethodInfo.Spares` — variables that do not matter to the names

## Main results

* `earliestIn?_eq_some_iff` — the variable that is found is the earliest one
* `MethodInfo.namesFrom?_eq` — walking through the slots is looking all of them up
* `MethodInfo.parameterNames?_recovers` — which names are recovered, and what does not change them
-/

namespace ClassSketch

/-! ### The earliest variable in a slot -/

/-- The variable is the first to live in a slot: no other variable of the table lives there from an
earlier place on, nor from the same place on if it comes before in the table. -/
def IsEarliest (table : List LocalVariable) (slot : ℕ) (v : LocalVariable) : Prop :=
  ∃ front rest : List LocalVariable, table = front ++ v :: rest ∧ v.slot.toNat = slot ∧
    (∀ u ∈ front, u.slot.toNat = slot → v.start < u.start) ∧
    ∀ u ∈ rest, u.slot.toNat = slot → v.start ≤ u.start

namespace IsEarliest

variable {table : List LocalVariable} {slot : ℕ} {v w : LocalVariable}

theorem mem (h : IsEarliest table slot v) : v ∈ table := by
  obtain ⟨front, rest, rfl, -⟩ := h
  simp

theorem slot_eq (h : IsEarliest table slot v) : v.slot.toNat = slot := by
  obtain ⟨_, _, -, hSlot, -⟩ := h
  exact hSlot

theorem start_le (h : IsEarliest table slot v) {u : LocalVariable} (hu : u ∈ table)
    (hSlot : u.slot.toNat = slot) : v.start ≤ u.start := by
  obtain ⟨front, rest, rfl, -, hFront, hRest⟩ := h
  rcases List.mem_append.mp hu with hu | hu
  · exact UInt16.le_of_lt (hFront u hu hSlot)
  · rcases List.mem_cons.mp hu with rfl | hu
    · exact UInt16.le_refl _
    · exact hRest u hu hSlot

/-- The variable is the earliest one still if a later one is put anywhere into the table. -/
theorem insert {front rest : List LocalVariable} (h : IsEarliest (front ++ rest) slot v)
    (hw : w.slot.toNat = slot → v.start < w.start) : IsEarliest (front ++ w :: rest) slot v := by
  obtain ⟨before, after, hTable, hSlot, hBefore, hAfter⟩ := h
  rcases List.append_eq_append_iff.mp hTable with ⟨mid, rfl, rfl⟩ | ⟨mid, rfl, hMid⟩
  · refine ⟨front ++ w :: mid, after, by simp, hSlot, fun u hu => ?_, hAfter⟩
    rcases List.mem_append.mp hu with hu | hu
    · exact hBefore u (List.mem_append_left _ hu)
    · rcases List.mem_cons.mp hu with rfl | hu
      · exact hw
      · exact hBefore u (List.mem_append_right _ hu)
  · cases mid with
    | nil =>
      rw [List.nil_append] at hMid
      refine ⟨before ++ [w], after, by simp [← hMid], hSlot, fun u hu => ?_, hAfter⟩
      rcases List.mem_append.mp hu with hu | hu
      · exact hBefore u hu
      · obtain rfl := List.mem_singleton.mp hu
        exact hw
    | cons _ mid =>
      obtain ⟨rfl, rfl⟩ := List.cons.inj hMid
      refine ⟨before, mid ++ w :: rest, by simp, hSlot, hBefore, fun u hu => ?_⟩
      rcases List.mem_append.mp hu with hu | hu
      · exact hAfter u (List.mem_append_left _ hu)
      · rcases List.mem_cons.mp hu with rfl | hu
        · exact fun hSame => UInt16.le_of_lt (hw hSame)
        · exact hAfter u (List.mem_append_right _ hu)

/-- At the end of the table, a variable that is as early does not come before either. -/
theorem concat (h : IsEarliest table slot v) (hw : w.slot.toNat = slot → v.start ≤ w.start) :
    IsEarliest (table ++ [w]) slot v := by
  obtain ⟨front, rest, rfl, hSlot, hFront, hRest⟩ := h
  refine ⟨front, rest ++ [w], by simp, hSlot, hFront, fun u hu => ?_⟩
  rcases List.mem_append.mp hu with hu | hu
  · exact hRest u hu
  · obtain rfl := List.mem_singleton.mp hu
    exact hw

theorem concat_self (hSlot : w.slot.toNat = slot)
    (h : ∀ u ∈ table, u.slot.toNat = slot → w.start < u.start) :
    IsEarliest (table ++ [w]) slot w :=
  ⟨table, [], rfl, hSlot, h, by simp⟩

theorem not_before {front rest : List LocalVariable} (h : IsEarliest (front ++ w :: rest) slot v)
    (hFront : ∀ u ∈ front, u.slot.toNat = slot → w.start < u.start) (hw : w.slot.toNat = slot) :
    v ∉ front :=
  fun hv => absurd (h.start_le (by simp) hw) (UInt16.not_le.mpr (hFront v hv h.slot_eq))

theorem unique (hv : IsEarliest table slot v) (hw : IsEarliest table slot w) : v = w := by
  obtain ⟨front, rest, rfl, hvSlot, hvFront, -⟩ := id hv
  obtain ⟨front', rest', hTable, hwSlot, hwFront, -⟩ := id hw
  have hvBefore : v ∉ front' := (hTable ▸ hv).not_before hwFront hwSlot
  have hwBefore : w ∉ front := hw.not_before hvFront hvSlot
  rcases List.append_eq_append_iff.mp hTable with ⟨mid, rfl, hMid⟩ | ⟨mid, rfl, hMid⟩
  · cases mid with
    | nil => exact (List.cons.inj hMid).1
    | cons _ mid => exact absurd (by simp [(List.cons.inj hMid).1]) hvBefore
  · cases mid with
    | nil => exact (List.cons.inj hMid).1.symm
    | cons _ mid => exact absurd (by simp [(List.cons.inj hMid).1]) hwBefore

/-- Where no two entries share slot and start, the order of the table does not matter. -/
theorem perm {other : List LocalVariable} (h : IsEarliest table slot v) (hPerm : table.Perm other)
    (hNodup : (other.map fun v => (v.slot, v.start)).Nodup) : IsEarliest other slot v := by
  obtain ⟨front, rest, rfl⟩ := List.append_of_mem (hPerm.mem_iff.mp h.mem)
  have hLe : ∀ u ∈ front ++ v :: rest, u.slot.toNat = slot → v.start ≤ u.start :=
    fun u hu => h.start_le (hPerm.mem_iff.mpr hu)
  refine ⟨front, rest, rfl, h.slot_eq, fun u hu hSlot => ?_, fun u hu => hLe u (by simp [hu])⟩
  rcases UInt16.lt_or_eq_of_le (hLe u (by simp [hu]) hSlot) with hLess | hEqual
  · exact hLess
  have hSame : u.slot = v.slot := UInt16.toNat_inj.mp (hSlot.trans h.slot_eq.symm)
  rw [List.map_append, List.map_cons, List.nodup_append] at hNodup
  refine absurd ?_ (hNodup.2.2 (u.slot, u.start) (List.mem_map_of_mem hu) (v.slot, v.start)
    List.mem_cons_self)
  rw [hSame, hEqual]

end IsEarliest

section Table

variable {table : List LocalVariable} {slot : ℕ} {v : LocalVariable}

theorem earliestIn?_concat :
    earliestIn? slot (table ++ [v]) =
      if v.slot.toNat = slot then
        match earliestIn? slot table with
        | some b => if v.start < b.start then some v else some b
        | none => some v
      else earliestIn? slot table := by
  rw [earliestIn?, List.filter_append, List.foldl_append, earliestIn?]
  split
  · next h => rw [List.filter_cons_of_pos (by simpa using h)]; rfl
  · next h => rw [List.filter_cons_of_neg (by simpa using h)]; rfl

theorem earliestIn?_eq_none_iff :
    earliestIn? slot table = none ↔ ∀ u ∈ table, u.slot.toNat ≠ slot := by
  induction table using List.reverseRecOn with
  | nil => simp [earliestIn?]
  | append_singleton table v ih =>
    rw [earliestIn?_concat, List.forall_mem_append, ← ih, List.forall_mem_singleton]
    split
    · next h =>
      cases earliestIn? slot table with
      | none => simp [h]
      | some b =>
        simp only
        split <;> simp
    · next h => simp [h]

theorem isEarliest_of_earliestIn? (h : earliestIn? slot table = some v) :
    IsEarliest table slot v := by
  induction table using List.reverseRecOn generalizing v with
  | nil => cases h
  | append_singleton table w ih =>
    rw [earliestIn?_concat] at h
    split at h
    · next hSlot =>
      cases hFound : earliestIn? slot table with
      | none =>
        rw [hFound] at h
        cases h
        have hNone := earliestIn?_eq_none_iff.mp hFound
        exact .concat_self hSlot fun u hu hSame => absurd hSame (hNone u hu)
      | some b =>
        rw [hFound] at h
        simp only at h
        have hb := ih hFound
        split at h
        · next hEarlier =>
          cases h
          exact .concat_self hSlot fun u hu hSame =>
            UInt16.lt_of_lt_of_le hEarlier (hb.start_le hu hSame)
        · next hLater =>
          cases h
          exact hb.concat fun _ => UInt16.not_lt.mp hLater
    · next hSlot => exact (ih h).concat fun hSame => absurd hSame hSlot

/-- The variable that is found in a slot is the earliest one. -/
theorem earliestIn?_eq_some_iff : earliestIn? slot table = some v ↔ IsEarliest table slot v := by
  constructor
  · exact isEarliest_of_earliestIn?
  · intro h
    cases hFound : earliestIn? slot table with
    | none => exact absurd h.slot_eq (earliestIn?_eq_none_iff.mp hFound v h.mem)
    | some w => rw [h.unique (isEarliest_of_earliestIn? hFound)]

theorem earliestIn?_isSome_iff :
    (earliestIn? slot table).isSome = true ↔ ∃ v ∈ table, v.slot.toNat = slot := by
  constructor
  · intro h
    obtain ⟨v, hv⟩ := Option.isSome_iff_exists.mp h
    rw [earliestIn?_eq_some_iff] at hv
    exact ⟨v, hv.mem, hv.slot_eq⟩
  · rintro ⟨v, hv, hSlot⟩
    by_contra hNone
    rw [Option.not_isSome_iff_eq_none, earliestIn?_eq_none_iff] at hNone
    exact hNone v hv hSlot

theorem earliestIn?_perm {other : List LocalVariable} (hPerm : table.Perm other)
    (hNodup : (other.map fun v => (v.slot, v.start)).Nodup) (slot : ℕ) :
    earliestIn? slot other = earliestIn? slot table := by
  refine Option.ext fun v => ?_
  rw [earliestIn?_eq_some_iff, earliestIn?_eq_some_iff]
  constructor
  · exact fun h => h.perm hPerm.symm ((hPerm.map _).nodup_iff.mpr hNodup)
  · exact fun h => h.perm hPerm hNodup

/-- A variable in another slot, or one that reuses the slot later, does not change what is found. -/
theorem earliestIn?_insert {front rest : List LocalVariable} {w : LocalVariable}
    (hw : w.slot.toNat = slot →
      ∃ u ∈ front ++ rest, u.slot.toNat = slot ∧ u.start < w.start) :
    earliestIn? slot (front ++ w :: rest) = earliestIn? slot (front ++ rest) := by
  cases hFound : earliestIn? slot (front ++ rest) with
  | none =>
    rw [earliestIn?_eq_none_iff] at hFound ⊢
    intro u hu
    rcases List.mem_append.mp hu with hu | hu
    · exact hFound u (List.mem_append_left _ hu)
    · rcases List.mem_cons.mp hu with rfl | hu
      · intro hSlot
        obtain ⟨u, hu, hSame, -⟩ := hw hSlot
        exact hFound u hu hSame
      · exact hFound u (List.mem_append_right _ hu)
  | some v =>
    rw [earliestIn?_eq_some_iff] at hFound ⊢
    refine hFound.insert fun hSlot => ?_
    obtain ⟨u, hu, hSame, hLess⟩ := hw hSlot
    exact UInt16.lt_of_le_of_lt (hFound.start_le hu hSame) hLess

end Table

/-! ### Slot after slot -/

/-- The slots in which values of the given sizes begin that lie one after the other from a slot
on. -/
def offsets : ℕ → List ℕ → List ℕ
  | _, [] => []
  | slot, size :: sizes => slot :: offsets (slot + size) sizes

theorem length_offsets (sizes : List ℕ) : ∀ slot : ℕ,
    (offsets slot sizes).length = sizes.length := by
  induction sizes with
  | nil => exact fun _ => rfl
  | cons size sizes ih => exact fun slot => congrArg Nat.succ (ih (slot + size))

/-- A value begins behind the sizes of all those before it. -/
theorem getElem?_offsets {sizes : List ℕ} : ∀ {slot i : ℕ}, i < sizes.length →
    (offsets slot sizes)[i]? = some (slot + (sizes.take i).sum) := by
  induction sizes with
  | nil =>
    intro slot i hi
    cases hi
  | cons size sizes ih =>
    intro slot i hi
    cases i with
    | zero => rfl
    | succ i =>
      rw [offsets, List.getElem?_cons_succ, ih (Nat.lt_of_succ_lt_succ hi), List.take_succ_cons,
        List.sum_cons, Nat.add_assoc]

theorem mem_offsets {slot o : ℕ} {sizes : List ℕ} :
    o ∈ offsets slot sizes ↔ ∃ i < sizes.length, slot + (sizes.take i).sum = o := by
  rw [List.mem_iff_getElem?]
  constructor
  · rintro ⟨i, hi⟩
    have hBound : i < sizes.length := by
      rw [← length_offsets sizes slot]
      exact (List.getElem?_eq_some_iff.mp hi).1
    exact ⟨i, hBound, Option.some.inj ((getElem?_offsets hBound).symm.trans hi)⟩
  · rintro ⟨i, hBound, rfl⟩
    exact ⟨i, getElem?_offsets hBound⟩

namespace MethodInfo

/-- Walking from slot to slot is the same as looking all slots up, if all of them are in range. -/
theorem namesFrom?_eq (table : List LocalVariable) (sizes : List ℕ) : ∀ slot : ℕ,
    slot < slotLimit → namesFrom? table slot sizes =
      if slot + sizes.sum < slotLimit then
        (offsets slot sizes).mapM fun o => (earliestIn? o table).map LocalVariable.name
      else none := by
  induction sizes with
  | nil =>
    intro slot hSlot
    rw [List.sum_nil, Nat.add_zero, if_pos hSlot]
    rfl
  | cons size sizes ih =>
    intro slot hSlot
    rw [namesFrom?, offsets, List.mapM_cons, List.sum_cons, ← Nat.add_assoc]
    cases earliestIn? slot table with
    | none => simp
    | some v =>
      by_cases hNext : slot + size < slotLimit
      · simp only [Option.map_some, if_pos hNext, ih _ hNext]
        split
        · rfl
        · rfl
      · have hEnd : ¬slot + size + sizes.sum < slotLimit := by omega
        simp only [if_neg hNext, if_neg hEnd]
        rfl

end MethodInfo

/-! ### The names of a method -/

/-- Whether values of the type take two slots. -/
def TypeRef.isWide : TypeRef → Bool
  | primitive p => p == .long || p == .double
  | _ => false

/-- What a descriptor names as the type of a parameter takes two slots or one. -/
theorem slots_of_ofText {text : String} {d : MethodDescriptor}
    (h : MethodDescriptor.ofText text = .ok d) {t : TypeRef} (ht : t ∈ d.parameters) :
    t.slots = if t.isWide then 2 else 1 := by
  obtain ⟨form, -, rfl⟩ := Signature.methodDescriptor_eq_ok_iff.mp h
  obtain ⟨tree, -, rfl⟩ := List.mem_map.mp ht
  cases tree with
  | base type =>
    obtain ⟨p, hp⟩ := type
    cases p with
    | void => exact absurd rfl hp
    | _ => rfl
  | classType name => rfl
  | array element => rfl

namespace MethodInfo

variable {m : MethodInfo} {d : MethodDescriptor}

/-- The first slot of the parameters. The instance takes the one before, if there is one. -/
def firstSlot (m : MethodInfo) : ℕ := if m.access.isStatic then 0 else 1

/-- The slot in which the parameter at a place begins, or, behind the last of them, the number of
slots taken by the instance and all parameters. -/
def slotOf (m : MethodInfo) (d : MethodDescriptor) (i : ℕ) : ℕ :=
  m.firstSlot + (d.slots.take i).sum

/-- The method has no table of parameters, or one that does not name as many as there are. -/
def LacksNames (m : MethodInfo) (d : MethodDescriptor) : Prop :=
  ∀ ps ∈ m.parameters, ps.length ≠ d.parameters.length ∨ ∃ p ∈ ps, p.name = none

/-- A variable that does not matter to the names of the parameters: it lives in none of their slots,
or in one that holds another variable from an earlier place on. -/
def Spares (m : MethodInfo) (d : MethodDescriptor) (v : LocalVariable) : Prop :=
  (∀ i < d.parameters.length, v.slot.toNat ≠ m.slotOf d i) ∨
    ∃ u ∈ m.localVariables, u.slot = v.slot ∧ u.start < v.start

theorem firstSlot_lt (m : MethodInfo) : m.firstSlot < slotLimit := by
  rw [firstSlot]
  split <;> decide

theorem length_slots (d : MethodDescriptor) : d.slots.length = d.parameters.length :=
  List.length_map ..

theorem slotOf_length (m : MethodInfo) (d : MethodDescriptor) :
    m.slotOf d d.parameters.length = m.firstSlot + d.slots.sum := by
  rw [slotOf, ← length_slots, List.take_length]

theorem declaredNames?_of_lacks (h : m.LacksNames d) :
    m.declaredNames? d.parameters.length = none := by
  refine Option.bind_eq_none_iff.mpr fun ps hps => ?_
  split
  · next hLength =>
    obtain ⟨p, hp, hNone⟩ := (h ps hps).resolve_left (not_not.mpr hLength)
    cases hNames : ps.mapM MethodParameter.name with
    | none => rfl
    | some names =>
      have hName : p.name ∈ names.map some := by
        rw [← mapM_eq_some_iff.mp hNames]
        exact List.mem_map_of_mem hp
      simp [hNone] at hName
  · rfl

/-- A table of parameters that names all of them comes first. -/
theorem parameterNames?_of_declared {ps : List MethodParameter} {names : List String}
    (hps : ps ∈ m.parameters) (hNames : ps.map MethodParameter.name = names.map some)
    (hLength : names.length = d.parameters.length) : m.parameterNames? d = some names := by
  have hSame : ps.length = d.parameters.length := by
    simpa [hLength] using congrArg List.length hNames
  have hDeclared : m.declaredNames? d.parameters.length = some names := by
    rw [declaredNames?, Option.mem_def.mp hps, Option.bind_eq_bind, Option.bind_some, if_pos hSame]
    exact mapM_eq_some_iff.mpr hNames
  rw [parameterNames?, hDeclared, Option.some_or]

theorem parameterNames?_of_lacks (h : m.LacksNames d) :
    m.parameterNames? d = m.localNames? d := by
  rw [parameterNames?, declaredNames?_of_lacks h, Option.none_or]

/-- The names are those of the earliest variables in the slots of the parameters. -/
theorem localNames?_eq (hTable : m.localVariables ≠ []) :
    m.localNames? d = if m.slotOf d d.parameters.length < slotLimit then
      (offsets m.firstSlot d.slots).mapM fun o =>
        (earliestIn? o m.localVariables).map LocalVariable.name
      else none := by
  rw [localNames?, if_neg (by simpa using hTable), slotOf_length, ← firstSlot]
  exact namesFrom?_eq _ _ _ m.firstSlot_lt

theorem mem_offsets_slots {o : ℕ} :
    o ∈ offsets m.firstSlot d.slots ↔ ∃ i < d.parameters.length, m.slotOf d i = o := by
  rw [mem_offsets, length_slots]
  rfl

theorem localNames?_isSome_iff (hTable : m.localVariables ≠ []) :
    (m.localNames? d).isSome = true ↔ m.slotOf d d.parameters.length < slotLimit ∧
      ∀ i < d.parameters.length, ∃ v ∈ m.localVariables, v.slot.toNat = m.slotOf d i := by
  rw [localNames?_eq hTable]
  split
  · next hLimit =>
    rw [isSome_mapM_iff]
    simp only [Option.isSome_map, earliestIn?_isSome_iff, mem_offsets_slots, hLimit, true_and]
    constructor
    · exact fun h i hi => h _ ⟨i, hi, rfl⟩
    · rintro h _ ⟨i, hi, rfl⟩
      exact h i hi
  · next hLimit => simp [hLimit]

theorem of_localNames?_eq_some (hTable : m.localVariables ≠ []) {names : List String}
    (h : m.localNames? d = some names) : names.length = d.parameters.length ∧
      ∀ i < d.parameters.length, ∃ v, IsEarliest m.localVariables (m.slotOf d i) v ∧
        names[i]? = some v.name := by
  rw [localNames?_eq hTable] at h
  split at h
  · have hNames := mapM_eq_some_iff.mp h
    have hLength : names.length = d.parameters.length := by
      rw [← length_slots, ← length_offsets d.slots m.firstSlot]
      simpa using (congrArg List.length hNames).symm
    refine ⟨hLength, fun i hi => ?_⟩
    have hAt := congrArg (fun xs : List (Option String) => xs[i]?) hNames
    rw [← length_slots] at hi
    simp only [List.getElem?_map, getElem?_offsets hi, Option.map_some] at hAt
    obtain ⟨name, hName, hSome⟩ := Option.map_eq_some_iff.mp hAt.symm
    obtain ⟨v, hv, rfl⟩ := Option.map_eq_some_iff.mp hSome.symm
    exact ⟨v, earliestIn?_eq_some_iff.mp hv, hName⟩
  · cases h

/-- Recovered names are one for each parameter. -/
theorem length_parameterNames? {names : List String} (h : m.parameterNames? d = some names) :
    names.length = d.parameters.length := by
  rcases Option.or_eq_some_iff.mp h with hDeclared | ⟨-, hLocal⟩
  · obtain ⟨ps, -, hDeclared⟩ := Option.bind_eq_some_iff.mp hDeclared
    split at hDeclared
    · next hLength =>
      rw [← hLength]
      simpa using (congrArg List.length (mapM_eq_some_iff.mp hDeclared)).symm
    · cases hDeclared
  · have hTable : m.localVariables ≠ [] := by
      intro hNone
      rw [localNames?, hNone] at hLocal
      cases hLocal
    exact (of_localNames?_eq_some hTable hLocal).1

/-- Only the earliest variables in the slots of the parameters matter to their names. -/
theorem parameterNames?_congr {table : List LocalVariable}
    (hEmpty : table = [] ↔ m.localVariables = [])
    (h : ∀ i < d.parameters.length,
      earliestIn? (m.slotOf d i) table = earliestIn? (m.slotOf d i) m.localVariables) :
    { m with localVariables := table }.parameterNames? d = m.parameterNames? d := by
  have hLocal : { m with localVariables := table }.localNames? d = m.localNames? d := by
    by_cases hTable : m.localVariables = []
    · rw [localNames?, localNames?, hTable, hEmpty.mpr hTable]
    · rw [localNames?_eq hTable, localNames?_eq (mt hEmpty.mp hTable)]
      refine if_congr Iff.rfl ?_ rfl
      refine mapM_congr fun o ho => ?_
      obtain ⟨i, hi, rfl⟩ := mem_offsets_slots.mp ho
      exact congrArg (Option.map LocalVariable.name) (h i hi)
  exact congrArg (Option.or (m.declaredNames? d.parameters.length)) hLocal

/-- **Recovering the names of parameters.** A table of parameters that names all of them comes
first. Otherwise the names are recovered from a table of local variables exactly if the slots of the
instance and the parameters are in range and each parameter has a variable in its slot; its name is
that of the earliest one. So neither the order of the table matters, if no two entries share slot
and start, nor variables that reuse a slot later or live in other slots. -/
theorem parameterNames?_recovers (m : MethodInfo) (d : MethodDescriptor) :
    (∀ text, MethodDescriptor.ofText text = .ok d →
      ∀ t ∈ d.parameters, t.slots = if t.isWide then 2 else 1) ∧
    (∀ ps ∈ m.parameters, ∀ names : List String, ps.map MethodParameter.name = names.map some →
      names.length = d.parameters.length → m.parameterNames? d = some names) ∧
    (m.LacksNames d → m.localVariables ≠ [] →
      ((m.parameterNames? d).isSome = true ↔ m.slotOf d d.parameters.length ≤ 65535 ∧
        ∀ i < d.parameters.length, ∃ v ∈ m.localVariables, v.slot.toNat = m.slotOf d i) ∧
      ∀ names, m.parameterNames? d = some names → names.length = d.parameters.length ∧
        ∀ i < d.parameters.length, ∃ v, IsEarliest m.localVariables (m.slotOf d i) v ∧
          names[i]? = some v.name) ∧
    (∀ table, m.localVariables.Perm table → (table.map fun v => (v.slot, v.start)).Nodup →
      { m with localVariables := table }.parameterNames? d = m.parameterNames? d) ∧
    ∀ front v rest, m.localVariables = front ++ rest → m.localVariables ≠ [] → m.Spares d v →
      { m with localVariables := front ++ v :: rest }.parameterNames? d = m.parameterNames? d := by
  refine ⟨fun text h t => slots_of_ofText h, fun ps hps names => parameterNames?_of_declared hps,
    fun hLacks hTable => ?_, fun table hPerm hNodup => ?_,
    fun front v rest hSplit hTable hSpares => ?_⟩
  · rw [parameterNames?_of_lacks hLacks, localNames?_isSome_iff hTable, slotLimit, Nat.lt_succ_iff]
    exact ⟨Iff.rfl, fun names => of_localNames?_eq_some hTable⟩
  · refine parameterNames?_congr ?_ fun i _ => earliestIn?_perm hPerm hNodup _
    rw [← List.length_eq_zero_iff, ← List.length_eq_zero_iff, hPerm.length_eq]
  · refine parameterNames?_congr (by simp [hTable]) fun i hi => ?_
    rw [hSplit]
    refine earliestIn?_insert fun hSlot => ?_
    rcases hSpares with hElsewhere | ⟨u, hu, hSame, hLess⟩
    · exact absurd hSlot (hElsewhere i hi)
    · exact ⟨u, hSplit ▸ hu, by rw [hSame, hSlot], hLess⟩

/-- A method with a parameter of two slots and one of one slot, which declares only the name of the
first and has local variables for both. -/
def packing : MethodInfo :=
  ⟨⟨0x1⟩, "pack", "(JI)V", none, [], some [⟨some "total", ⟨0⟩⟩, ⟨none, ⟨0⟩⟩],
    [⟨0, "this", "Lp/A;", 0⟩, ⟨0, "count", "I", 3⟩, ⟨0, "sum", "J", 1⟩], [], [], none⟩

/-- The names are recovered, and a variable that reuses a slot later does not change them. -/
theorem parameterNames?_recovers_packing :
    let d : MethodDescriptor := ⟨[.primitive .long, .primitive .int], .void⟩
    let item : LocalVariable := ⟨4, "item", "I", 1⟩
    MethodDescriptor.ofText packing.descriptor = .ok d ∧ packing.LacksNames d ∧
      packing.localVariables ≠ [] ∧ packing.slotOf d 1 = 3 ∧
      packing.parameterNames? d = some ["sum", "count"] ∧
      (∃ v, IsEarliest packing.localVariables 3 v ∧ v.name = "count") ∧
      packing.Spares d item ∧
      { packing with localVariables := item :: packing.localVariables }.parameterNames? d =
        some ["sum", "count"] := by
  intro d item
  have hLacks : packing.LacksNames d := by
    rintro ps ⟨⟩
    exact .inr ⟨⟨none, ⟨0⟩⟩, by simp, rfl⟩
  have hTable : packing.localVariables ≠ [] := List.cons_ne_nil _ _
  have hSlot : packing.slotOf d 1 = 3 := rfl
  have hSpares : packing.Spares d item :=
    .inr ⟨⟨0, "sum", "J", 1⟩, by simp [packing], rfl, by decide⟩
  have hNames : packing.parameterNames? d = some ["sum", "count"] := by decide +kernel
  obtain ⟨-, -, hRecovers, -, hInsert⟩ := parameterNames?_recovers packing d
  obtain ⟨v, hv, hName⟩ := ((hRecovers hLacks hTable).2 _ hNames).2 1 (by decide)
  refine ⟨rfl, hLacks, hTable, hSlot, hNames, ⟨v, hSlot ▸ hv, (Option.some.inj hName).symm⟩,
    hSpares, ?_⟩
  exact (hInsert [] item _ rfl hTable hSpares).trans hNames

end MethodInfo

end ClassSketch
