import ClassSketch.Entries
import Mathlib.Data.List.Basic
import Mathlib.Data.List.Induction

/-!
# Tables of entries

## Main results

* `valueOf?_putEntry` — looking up after writing
* `valueOf?_map` — looking up after changing all values
* `mem_keys_putEntry` — the keys after writing
* `mem_of_valueOf?` — what is looked up is an entry
* `foldl_putEntry` — entries with different keys are written one after the other
* `map_fst_foldl_putEntry`, `valueOf?_foldl_putEntry` — the keys of entries that are written one
  after the other, and their values
* `eq_of_valueOf?_eq` — a table is its keys and what is found under them
-/

namespace ClassSketch

variable {α : Type} {key other : String} {value : α} {entries : List (String × α)}

theorem valueOf?_cons (e : String × α) :
    valueOf? key (e :: entries) = if e.1 = key then some e.2 else valueOf? key entries := by
  rw [valueOf?, List.find?_cons]
  split
  · next h => rw [if_pos (by simpa using h), Option.map_some]
  · next h => rw [if_neg (by simpa using h), valueOf?]

theorem valueOf?_map {β : Type} (f : α → β) :
    valueOf? key (entries.map fun e => (e.1, f e.2)) = (valueOf? key entries).map f := by
  rw [valueOf?, valueOf?, List.find?_map, Option.map_map, Option.map_map]
  rfl

/-- Writing an entry changes what is found under its key, and nothing else. -/
theorem valueOf?_putEntry :
    valueOf? other (putEntry key value entries) =
      if key = other then some value else valueOf? other entries := by
  induction entries with
  | nil => rw [putEntry, valueOf?_cons]
  | cons e entries ih =>
    rw [putEntry]
    split
    · next h =>
      rw [valueOf?_cons, valueOf?_cons, h]
      split <;> rfl
    · next h =>
      rw [valueOf?_cons, valueOf?_cons, ih]
      split
      · next he => rw [if_neg (fun hk => h (he.trans hk.symm))]
      · rfl

theorem mem_keys_putEntry :
    other ∈ (putEntry key value entries).map Prod.fst ↔
      other = key ∨ other ∈ entries.map Prod.fst := by
  induction entries with
  | nil => simp [putEntry]
  | cons e entries ih =>
    rw [putEntry]
    split
    · next h => simp [h]
    · rw [List.map_cons, List.mem_cons, ih, List.map_cons, List.mem_cons]
      tauto

theorem mem_of_valueOf? (h : valueOf? key entries = some value) : (key, value) ∈ entries := by
  induction entries with
  | nil => cases h
  | cons e entries ih =>
    rw [valueOf?_cons] at h
    split at h
    · next he =>
      obtain ⟨k, v⟩ := e
      cases h
      cases he
      exact List.mem_cons_self
    · exact List.mem_cons_of_mem e (ih h)

theorem not_mem_keys_of_valueOf?_eq_none (h : valueOf? key entries = none) :
    key ∉ entries.map Prod.fst := by
  induction entries with
  | nil => simp
  | cons e entries ih =>
    rw [valueOf?_cons] at h
    split at h
    · cases h
    · next hne =>
      rw [List.map_cons, List.mem_cons, not_or]
      exact ⟨fun heq => hne heq.symm, ih h⟩

theorem valueOf?_eq_none_of_not_mem (h : key ∉ entries.map Prod.fst) :
    valueOf? key entries = none :=
  Option.eq_none_iff_forall_ne_some.mpr fun _ hValue =>
    h (List.mem_map_of_mem (mem_of_valueOf? hValue))

theorem isSome_valueOf? :
    (valueOf? key entries).isSome = true ↔ key ∈ entries.map Prod.fst := by
  constructor
  · intro h
    obtain ⟨value, hValue⟩ := Option.isSome_iff_exists.mp h
    exact List.mem_map_of_mem (mem_of_valueOf? hValue)
  · intro h
    by_contra hNone
    exact not_mem_keys_of_valueOf?_eq_none (Option.not_isSome_iff_eq_none.mp hNone) h

theorem putEntry_of_not_mem (h : key ∉ entries.map Prod.fst) :
    putEntry key value entries = entries ++ [(key, value)] := by
  induction entries with
  | nil => rfl
  | cons e entries ih =>
    rw [List.map_cons, List.mem_cons, not_or] at h
    rw [putEntry, if_neg (Ne.symm h.1), ih h.2, List.cons_append]

/-- Entries whose keys are all different are kept as they are written. -/
theorem foldl_putEntry {done : List (String × α)} (h : ((done ++ entries).map Prod.fst).Nodup) :
    entries.foldl (fun done (key, value) => putEntry key value done) done = done ++ entries := by
  induction entries generalizing done with
  | nil => rw [List.foldl_nil, List.append_nil]
  | cons e entries ih =>
    have hKey : e.1 ∉ done.map Prod.fst := by
      rw [List.map_append, List.map_cons, List.nodup_append] at h
      exact fun hMem => h.2.2 _ hMem _ List.mem_cons_self rfl
    have hCons : done ++ e :: entries = done ++ [e] ++ entries := by simp
    rw [List.foldl_cons]
    change List.foldl _ (putEntry e.1 e.2 done) entries = _
    rw [putEntry_of_not_mem hKey, hCons]
    exact ih (hCons ▸ h)

/-- A key that is written again keeps its place. -/
theorem map_fst_putEntry :
    (putEntry key value entries).map Prod.fst =
      if key ∈ entries.map Prod.fst then entries.map Prod.fst
      else entries.map Prod.fst ++ [key] := by
  induction entries with
  | nil => rfl
  | cons e entries ih =>
    rw [putEntry]
    by_cases h : e.1 = key
    · simp [h]
    · rw [if_neg h, List.map_cons, ih]
      by_cases hMem : key ∈ entries.map Prod.fst
      · rw [if_pos hMem, if_pos (by rw [List.map_cons]; exact List.mem_cons_of_mem _ hMem),
          List.map_cons]
      · have hCons : key ∉ (e :: entries).map Prod.fst := by
          rw [List.map_cons, List.mem_cons, not_or]
          exact ⟨Ne.symm h, hMem⟩
        rw [if_neg hMem, if_neg hCons, List.map_cons, List.cons_append]

/-- Keys come in the order in which they are first written, whatever is written under them. -/
theorem map_fst_foldl_putEntry {β : Type} (key : β → String)
    (value : List (String × α) → β → α) (xs : List β) :
    (xs.foldl (fun done x => putEntry (key x) (value done x) done) []).map Prod.fst =
      (xs.map key).eraseDups := by
  induction xs using List.reverseRecOn with
  | nil => rfl
  | append_singleton xs x ih =>
    rw [List.foldl_append, List.foldl_cons, List.foldl_nil, List.map_append, List.map_singleton,
      List.eraseDups_append, map_fst_putEntry, ih, List.removeAll]
    by_cases h : key x ∈ xs.map key
    · rw [if_pos (List.mem_eraseDups.mpr h), List.filter_cons_of_neg (by simpa using h),
        List.filter_nil]
      exact (List.append_nil _).symm
    · rw [if_neg (mt List.mem_eraseDups.mp h), List.filter_cons_of_pos (by simpa using h),
        List.filter_nil]
      rfl

theorem nodup_keys_putEntry (h : (entries.map Prod.fst).Nodup) :
    ((putEntry key value entries).map Prod.fst).Nodup := by
  rw [map_fst_putEntry]
  split
  · exact h
  · next hFresh => exact List.nodup_append.mpr ⟨h, by simp, by
      rintro other hOther _ hLast rfl
      exact hFresh (List.mem_singleton.mp hLast ▸ hOther)⟩

theorem nodup_keys_foldl_putEntry (entries : List (String × α)) :
    ((entries.foldl (fun done (key, value) => putEntry key value done) []).map Prod.fst).Nodup := by
  induction entries using List.reverseRecOn with
  | nil => exact List.nodup_nil
  | append_singleton entries e ih =>
    rw [List.foldl_append, List.foldl_cons, List.foldl_nil]
    exact nodup_keys_putEntry ih

/-- What is found under a key is what was written last. -/
theorem valueOf?_foldl_putEntry (key : String) (entries : List (String × α)) :
    valueOf? key (entries.foldl (fun done (key, value) => putEntry key value done) []) =
      valueOf? key entries.reverse := by
  induction entries using List.reverseRecOn with
  | nil => rfl
  | append_singleton entries e ih =>
    rw [List.foldl_append, List.foldl_cons, List.foldl_nil, List.reverse_concat, valueOf?_cons]
    change valueOf? key (putEntry e.1 e.2 _) = _
    rw [valueOf?_putEntry, ih]

/-- Where the keys are all different, the first value of a key is the last one. -/
theorem valueOf?_reverse (key : String) (h : (entries.map Prod.fst).Nodup) :
    valueOf? key entries.reverse = valueOf? key entries := by
  rw [← valueOf?_foldl_putEntry, foldl_putEntry (by rwa [List.nil_append]), List.nil_append]

/-- A table is its keys and what is found under them. -/
theorem eq_of_valueOf?_eq {others : List (String × α)}
    (hKeys : entries.map Prod.fst = others.map Prod.fst) (hNodup : (entries.map Prod.fst).Nodup)
    (h : ∀ key, valueOf? key entries = valueOf? key others) : entries = others := by
  induction entries generalizing others with
  | nil => exact (List.map_eq_nil_iff.mp hKeys.symm).symm
  | cons e entries ih =>
    cases others with
    | nil => cases hKeys
    | cons f others =>
      obtain ⟨hFirst, hOthers⟩ := List.cons.inj hKeys
      obtain ⟨hFresh, hNodup⟩ := List.nodup_cons.mp hNodup
      have hValue : e.2 = f.2 := by
        have hFound := h e.1
        rw [valueOf?_cons, valueOf?_cons, if_pos rfl, if_pos hFirst.symm] at hFound
        exact Option.some.inj hFound
      have hRest : ∀ key, valueOf? key entries = valueOf? key others := by
        intro key
        by_cases hKey : e.1 = key
        · subst hKey
          rw [valueOf?_eq_none_of_not_mem hFresh, valueOf?_eq_none_of_not_mem (hOthers ▸ hFresh)]
        · have hFound := h key
          rwa [valueOf?_cons, valueOf?_cons, if_neg hKey, if_neg fun hf => hKey (hFirst.trans hf)]
            at hFound
      rw [ih hOthers hNodup hRest, Prod.ext hFirst hValue]

end ClassSketch
