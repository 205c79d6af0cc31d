import ClassSketch.Doc.Store
import ClassSketch.Proofs.Entries
import ClassSketch.Proofs.Text.Words

/-!
# Documentation under the right declaration

Stores keep documentation under the texts of keys, so that fields, methods and all overloads of a
method share the texts. Two keys never share one if it can be taken apart: the name of a method ends
at the first parenthesis, and the types of its parameters are what is between the commas. An empty
list of parameters and a list with one empty type would look alike, so no type is empty.

## Main definitions

* `MemberKey.Plain` — keys whose texts can be taken apart
* `lastWritten?` — what was written last under a key

## Main results

* `MemberKey.eq_of_text_eq` — different plain keys have different texts
* `read_foldl_write` — a table that keeps to single writes keeps to all of them
* `documentation_never_mixed_up` — stores and property files give what was written last
-/

namespace ClassSketch

namespace MemberKey

/-- The name of a method has no parenthesis, and the types of its parameters are not empty and have
no comma. -/
def Plain : MemberKey → Prop
  | type => True
  | field _ => True
  | method name parameters =>
    '(' ∉ name.toList ∧ ∀ parameter ∈ parameters, parameter ≠ "" ∧ ',' ∉ parameter.toList

/-! ### Texts that are taken apart -/

/-- The types of parameters are read off the text between the parentheses. -/
theorem parameters_eq_of_intercalate_eq {ps qs : List (List Char)}
    (hps : ∀ p ∈ ps, p ≠ [] ∧ ',' ∉ p) (hqs : ∀ q ∈ qs, q ≠ [] ∧ ',' ∉ q)
    (h : [','].intercalate ps = [','].intercalate qs) : ps = qs := by
  have hSplit : ∀ {rs : List (List Char)}, rs ≠ [] → (∀ r ∈ rs, r ≠ [] ∧ ',' ∉ r) →
      Text.splitOn ',' ([','].intercalate rs) = rs :=
    fun hne hrs => Text.splitOn_intercalate hne fun r hr => (hrs r hr).2
  -- an empty list is the text of none but an empty list, since no type is empty
  have hEmpty : ∀ {rs : List (List Char)}, (∀ r ∈ rs, r ≠ [] ∧ ',' ∉ r) →
      [','].intercalate rs = [] → rs = [] := by
    intro rs hrs hNil
    by_contra hne
    have hOnly := hSplit hne hrs
    rw [hNil] at hOnly
    exact (hrs [] (hOnly ▸ List.mem_cons_self)).1 rfl
  by_cases hNil : [','].intercalate ps = []
  · rw [hEmpty hps hNil, hEmpty hqs (h ▸ hNil)]
  · have hp : ps ≠ [] := by
      rintro rfl
      exact hNil rfl
    have hq : qs ≠ [] := by
      rintro rfl
      exact hNil h
    rw [← hSplit hp hps, h, hSplit hq hqs]

/-- The name of a method is what stands before the first parenthesis. -/
theorem name_eq_of_append_eq {m n s t : List Char} (hm : '(' ∉ m) (hn : '(' ∉ n)
    (h : m ++ '(' :: s = n ++ '(' :: t) : m = n ∧ s = t := by
  have hCut : ∀ {front rest : List Char}, '(' ∉ front →
      Text.cutFirst (· == '(') (front ++ '(' :: rest) = some (front, rest) := by
    intro front rest hFront
    refine Text.cutFirst_eq_some_iff.mpr ⟨'(', by simp, ?_, rfl⟩
    intro c hc
    rw [beq_eq_false_iff_ne]
    rintro rfl
    exact hFront hc
  have hBoth : Text.cutFirst (· == '(') (m ++ '(' :: s) = some (m, s) := hCut hm
  rw [h, hCut hn] at hBoth
  cases hBoth
  exact ⟨rfl, rfl⟩

theorem toList_text_method (name : String) (parameters : List String) :
    (method name parameters).text.toList = "method.".toList ++
      (name.toList ++ '(' :: ([','].intercalate (parameters.map String.toList) ++ [')'])) := by
  simp [text]

theorem toList_text_field (name : String) :
    (field name).text.toList = "field.".toList ++ name.toList := by
  simp [text]

theorem plain_toList {ps : List String} (h : ∀ p ∈ ps, p ≠ "" ∧ ',' ∉ p.toList) :
    ∀ p ∈ ps.map String.toList, p ≠ [] ∧ ',' ∉ p := by
  intro p hp
  obtain ⟨q, hq, rfl⟩ := List.mem_map.mp hp
  exact ⟨by simpa using (h q hq).1, (h q hq).2⟩

/-- Name and parameters of a method are read off its text. -/
theorem method_eq_of_text_eq {m n : String} {ps qs : List String} (hm : (method m ps).Plain)
    (hn : (method n qs).Plain) (h : (method m ps).text = (method n qs).text) :
    method m ps = method n qs := by
  rw [← String.toList_inj, toList_text_method, toList_text_method] at h
  obtain ⟨hName, hRest⟩ := name_eq_of_append_eq hm.1 hn.1 (List.append_cancel_left h)
  have hParameters : ps.map String.toList = qs.map String.toList :=
    parameters_eq_of_intercalate_eq (plain_toList hm.2) (plain_toList hn.2)
      (List.append_cancel_right hRest)
  have hInjective : Function.Injective String.toList := fun _ _ => String.toList_inj.mp
  rw [hInjective hName, List.map_injective_iff.mpr hInjective hParameters]

/-- Different plain keys have different texts. -/
theorem eq_of_text_eq {k k' : MemberKey} (hk : k.Plain) (hk' : k'.Plain) (h : k.text = k'.text) :
    k = k' := by
  have hList : k.text.toList = k'.text.toList := congrArg String.toList h
  -- texts of different kinds differ in their first letters
  cases k with
  | type =>
    cases k' with
    | type => rfl
    | field | method => simp [text] at hList
  | field name =>
    cases k' with
    | field name' =>
      rw [toList_text_field, toList_text_field] at hList
      rw [String.toList_inj.mp (List.append_cancel_left hList)]
    | type | method => simp [text] at hList
  | method name parameters =>
    cases k' with
    | method name' parameters' => exact method_eq_of_text_eq hk hk' h
    | type | field => simp [text] at hList

end MemberKey

/-! ### Runs of writes -/

section Tables

variable {σ κ : Type} [DecidableEq κ] {key : κ}

/-- What was written last under a key. -/
def lastWritten? (key : κ) (writes : List (κ × String)) : Option String :=
  (writes.reverse.find? fun write => write.1 = key).map Prod.snd

theorem lastWritten?_cons (write : κ × String) (writes : List (κ × String)) :
    lastWritten? key (write :: writes) =
      (lastWritten? key writes).or (if write.1 = key then some write.2 else none) := by
  rw [lastWritten?, List.reverse_cons, List.find?_append, lastWritten?, List.find?_singleton]
  cases writes.reverse.find? fun write => write.1 = key with
  | some last => rfl
  | none => by_cases hKey : write.1 = key <;> simp [hKey]

/-- What holds of single writes to a table holds of all of them: what is read under an admitted key
is what was written last under that key, or was there before. -/
theorem read_foldl_write (read : σ → κ → Option String) (write : σ → κ → String → σ)
    (Admitted : κ → Prop)
    (hWrite : ∀ s k text k', Admitted k → Admitted k' →
      read (write s k text) k' = if k = k' then some text else read s k')
    {writes : List (κ × String)} (hWrites : ∀ w ∈ writes, Admitted w.1) (hKey : Admitted key)
    (s : σ) :
    read (writes.foldl (fun s w => write s w.1 w.2) s) key =
      (lastWritten? key writes).or (read s key) := by
  induction writes generalizing s with
  | nil => rfl
  | cons w writes ih =>
    rw [List.forall_mem_cons] at hWrites
    rw [List.foldl_cons, ih hWrites.2, hWrite s w.1 w.2 key hWrites.1 hKey, lastWritten?_cons,
      Option.or_assoc]
    split <;> rfl

end Tables

/-! ### Stores and property files -/

theorem DocStore.lookup_insert {type type' : String} {key key' : MemberKey} (hKey : key.Plain)
    (hKey' : key'.Plain) (s : DocStore) (text : String) :
    (s.insert type key text).lookup type' key' =
      if (type, key) = (type', key') then some text else s.lookup type' key' := by
  have hSame : (type, key.text) = (type', key'.text) ↔ (type, key) = (type', key') := by
    rw [Prod.mk.injEq, Prod.mk.injEq]
    refine and_congr_right fun _ => ⟨MemberKey.eq_of_text_eq hKey hKey', ?_⟩
    rintro rfl
    rfl
  rw [insert, lookup, List.find?_cons]
  split
  · next hFound => rw [if_pos (hSame.mp (beq_iff_eq.mp hFound)), Option.map_some]
  · next hOther => rw [if_neg fun h => beq_eq_false_iff_ne.mp hOther (hSame.mpr h), lookup]

theorem Properties.get?_insert {key key' : MemberKey} (hKey : key.Plain) (hKey' : key'.Plain)
    (p : Properties) (text : String) :
    (p.insert key text).get? key' = if key = key' then some text else p.get? key' := by
  have hSame : key.text = key'.text ↔ key = key' := by
    refine ⟨MemberKey.eq_of_text_eq hKey hKey', ?_⟩
    rintro rfl
    rfl
  rw [get?, getText?, insert, valueOf?_putEntry, get?, getText?]
  simp only [hSame]

/-- **Documentation is never mixed up.** Plain keys with the same text are the same. A store, and
likewise a property file, gives for a declaration the text that was written last for just that
declaration, whatever was written for others, and otherwise what it gave before; without entries it
gives nothing. -/
theorem documentation_never_mixed_up :
    (∀ k k' : MemberKey, k.Plain → k'.Plain → k.text = k'.text → k = k') ∧
    (∀ (s : DocStore) (writes : List ((String × MemberKey) × String)) (type : String)
      (key : MemberKey), (∀ w ∈ writes, w.1.2.Plain) → key.Plain →
      (writes.foldl (fun s w => s.insert w.1.1 w.1.2 w.2) s).lookup type key =
        (lastWritten? (type, key) writes).or (s.lookup type key)) ∧
    (∀ (p : Properties) (writes : List (MemberKey × String)) (key : MemberKey),
      (∀ w ∈ writes, w.1.Plain) → key.Plain →
      (writes.foldl (fun p w => p.insert w.1 w.2) p).get? key =
        (lastWritten? key writes).or (p.get? key)) ∧
    ∀ (type : String) (key : MemberKey),
      DocStore.empty.lookup type key = none ∧ Properties.empty.get? key = none := by
  refine ⟨fun _ _ => MemberKey.eq_of_text_eq, ?_, ?_, fun _ _ => ⟨rfl, rfl⟩⟩
  · intro s writes type key hWrites hKey
    have hPlain : (type, key).2.Plain := hKey
    exact read_foldl_write (fun s (k : String × MemberKey) => s.lookup k.1 k.2)
      (fun s k text => s.insert k.1 k.2 text) (fun k => k.2.Plain)
      (fun s _ text _ hk hk' => s.lookup_insert hk hk' text) hWrites hPlain s
  · intro p writes key hWrites hKey
    exact read_foldl_write Properties.get? Properties.insert MemberKey.Plain
      (fun p _ text _ hk hk' => p.get?_insert hk hk' text) hWrites hKey p

/-- A field, a constructor and three methods whose names and types have the same letters. -/
def lookalikes : List (MemberKey × String) :=
  [(.field "run", "field"), (.method "run" [], "none"), (.method "run" ["int"], "first"),
    (.method "run" ["int", "int"], "two"), (.method "<init>" ["int"], "constructor"),
    (.method "run" ["int"], "second")]

theorem documentation_never_mixed_up_lookalikes :
    (∀ w ∈ lookalikes, w.1.Plain) ∧ (MemberKey.method "run" ["int"]).Plain ∧
      (lookalikes.foldl (fun p w => p.insert w.1 w.2) Properties.empty).get?
        (.method "run" ["int"]) = some "second" ∧
      (lookalikes.foldl (fun s w => s.insert "p.A" w.1 w.2) DocStore.empty).lookup "p.B"
        (.method "run" ["int"]) = none := by
  have hPlain : ∀ w ∈ lookalikes, w.1.Plain := by
    simp [lookalikes, MemberKey.Plain]
  have hKey : (MemberKey.method "run" ["int"]).Plain := by
    simp [MemberKey.Plain]
  have hStored : ∀ w ∈ lookalikes.map fun w => (("p.A", w.1), w.2), w.1.2.Plain := by
    intro w hw
    obtain ⟨v, hv, rfl⟩ := List.mem_map.mp hw
    exact hPlain v hv
  refine ⟨hPlain, hKey, ?_, ?_⟩
  · exact documentation_never_mixed_up.2.2.1 .empty lookalikes _ hPlain hKey
  · have hLookup := documentation_never_mixed_up.2.1 .empty _ "p.B" _ hStored hKey
    rw [List.foldl_map] at hLookup
    exact hLookup

end ClassSketch
