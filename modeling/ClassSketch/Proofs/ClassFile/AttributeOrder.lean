import ClassSketch.Proofs.ClassFile.Stored
import Mathlib.Data.List.Pairwise

/-!
# The order of attributes

Attributes are read one after another, and each adds to what is known of their owner. An attribute
that is understood writes one thing there, and which thing that is depends on its name alone. So
attributes with different names can change places; and an attribute that is not understood can be
left out.

What an attribute writes is not in the form of the definition, which goes from names to functions of
what is known. `Write` gives it that form, and for each owner the writes are listed beside the
names.

## Main definitions

* `Write` — what is read from the body of an attribute, and where that is kept
* `Attributes.Meaning.Independent` — attributes with different names write different things
* `Stored.Table.Rearranges` — tables that differ in the order of their attributes and in attributes
  that are not understood
* `Stored.Table.Holds` — what a table holds under a name

## Main results

* `CommonAttributes.independent` and its companions — the attributes of all owners are independent
* `Stored.Table.value_rearranges` — a rearranged table says the same
* `Stored.Table.holds_of_value` — what is known in the end is what the table holds
-/

namespace ClassSketch

open RawAnnotation renaming readAll → readAnnotations,
  readParameters → readParameterAnnotations

/-! ### Writes -/

/-- What is read from the body of an attribute, and where that is kept. -/
structure Write (α : Type) where
  {β : Type}
  read : Reader β
  put : β → α → α

/-- A part of what is known, which can be replaced. -/
structure Part (α κ : Type) where
  get : α → κ
  set : κ → α → α
  get_set : ∀ k x, get (set k x) = k
  set_set : ∀ k k' x, set k (set k' x) = set k x

namespace Write

variable {α κ : Type}

/-- An attribute that makes this write. -/
def step (w : Write α) (x : α) : Reader α := do return w.put (← w.read) x

/-- The order of two writes does not matter. -/
def Commutes (w w' : Write α) : Prop := ∀ v v' x, w.put v (w'.put v' x) = w'.put v' (w.put v x)

/-- A write outside of a part. -/
def Spares (w : Write α) (p : Part α κ) : Prop :=
  ∀ v k x, p.get (w.put v x) = p.get x ∧ w.put v (p.set k x) = p.set k (w.put v x)

/-- The write on a part, made on the whole. -/
def lift (p : Part α κ) (w : Write κ) : Write α := ⟨w.read, fun v x => p.set (w.put v (p.get x)) x⟩

theorem step_lift (p : Part α κ) (w : Write κ) :
    (w.lift p).step = fun x => do return p.set (← w.step (p.get x)) x := by
  funext x
  simp only [step, lift, bind_assoc, pure_bind]

theorem Commutes.symm {w w' : Write α} (h : w.Commutes w') : w'.Commutes w :=
  fun v v' x => (h v' v x).symm

/-- Writes to a part commute if they do within the part. -/
theorem Commutes.lift {w w' : Write κ} (h : w.Commutes w') (p : Part α κ) :
    (w.lift p).Commutes (w'.lift p) := by
  intro v v' x
  change p.set (w.put v (p.get (p.set (w'.put v' (p.get x)) x))) (p.set _ x) =
    p.set (w'.put v' (p.get (p.set (w.put v (p.get x)) x))) (p.set _ x)
  rw [p.get_set, p.get_set, p.set_set, p.set_set, h v v' (p.get x)]

/-- A write that spares a part commutes with every write to the part. -/
theorem Spares.commutes {w : Write α} {p : Part α κ} (h : w.Spares p) (w' : Write κ) :
    w.Commutes (w'.lift p) := by
  intro v v' x
  change w.put v (p.set (w'.put v' (p.get x)) x) = p.set (w'.put v' (p.get (w.put v x))) (w.put v x)
  rw [(h v _ x).2, (h v (p.get x) x).1]

end Write

namespace Attributes.Meaning

variable {α κ : Type}

/-- Each name that is understood stands for one of the listed writes, and the order of the writes
does not matter. -/
structure Independent (meaning : Meaning α) (writes : List (String × Write α)) : Prop where
  listed : ∀ {name step}, meaning name = some step → ∃ w, (name, w) ∈ writes ∧ step = w.step
  commutes : writes.Pairwise fun e e' => e.2.Commutes e'.2

/-- A meaning with writes of its own and those on a part. -/
theorem Independent.extend {own : List (String × Write α)} {writes : List (String × Write κ)}
    {base : Meaning κ} {meaning : Meaning α} {p : Part α κ} (h : base.Independent writes)
    (hOwn : own.Pairwise fun e e' => e.2.Commutes e'.2) (hSpares : ∀ e ∈ own, e.2.Spares p)
    (hMeaning : ∀ {name step}, meaning name = some step → (∃ w, (name, w) ∈ own ∧ step = w.step) ∨
      ∃ step', base name = some step' ∧ step = fun x => do return p.set (← step' (p.get x)) x) :
    meaning.Independent (own ++ writes.map fun e => (e.1, e.2.lift p)) where
  listed := by
    intro name step hStep
    rcases hMeaning hStep with ⟨w, hw, rfl⟩ | ⟨step', hBase, rfl⟩
    · exact ⟨w, List.mem_append_left _ hw, rfl⟩
    · obtain ⟨w, hw, rfl⟩ := h.listed hBase
      exact ⟨w.lift p, List.mem_append_right _ (List.mem_map.mpr ⟨_, hw, rfl⟩),
        (w.step_lift p).symm⟩
  commutes := by
    refine List.pairwise_append.mpr ⟨hOwn, List.pairwise_map.mpr ?_, ?_⟩
    · exact h.commutes.imp fun hComm => hComm.lift p
    · intro e he e' he'
      obtain ⟨e', -, rfl⟩ := List.mem_map.mp he'
      exact (hSpares e he).commutes e'.2

end Attributes.Meaning

/-! ### The attributes of all owners -/

section

variable (pool : ConstantPool)

/-- What the attributes that any declaration may have write. -/
def CommonAttributes.writes : List (String × Write CommonAttributes) :=
  [("Signature", ⟨readUtf8 pool, fun v a => { a with signature := some v }⟩),
    ("Synthetic", ⟨pure (), fun _ a => { a with isSynthetic := true }⟩),
    ("RuntimeVisibleAnnotations",
      ⟨readAnnotations pool, fun v a => { a with visible := v }⟩),
    ("RuntimeInvisibleAnnotations",
      ⟨readAnnotations pool, fun v a => { a with invisible := v }⟩)]

/-- No attribute that all owners may have touches what another one of them writes. -/
theorem CommonAttributes.independent :
    (CommonAttributes.meaning pool).Independent (CommonAttributes.writes pool) where
  listed := by
    intro name step h
    unfold CommonAttributes.meaning at h
    split at h <;> cases h
    · exact ⟨_, .head _, rfl⟩
    · exact ⟨_, .tail _ (.head _), rfl⟩
    · exact ⟨_, .tail _ (.tail _ (.head _)), rfl⟩
    · exact ⟨_, .tail _ (.tail _ (.tail _ (.head _))), rfl⟩
  commutes := by
    simp [CommonAttributes.writes, Write.Commutes]

/-- What the attributes that only a field may have write. -/
def FieldAttributes.ownWrites : List (String × Write FieldAttributes) :=
  [("ConstantValue", ⟨do pool.constant (← Reader.u2), fun v a => { a with constant := some v }⟩)]

/-- The part of what is known of a field that any declaration has. -/
def FieldAttributes.common : Part FieldAttributes CommonAttributes where
  get a := a.toCommonAttributes
  set c a := { a with toCommonAttributes := c }
  get_set _ _ := rfl
  set_set _ _ _ := rfl

/-- What the attributes of a field write. -/
def FieldAttributes.writes : List (String × Write FieldAttributes) :=
  ownWrites pool ++ (CommonAttributes.writes pool).map fun e => (e.1, e.2.lift common)

theorem FieldAttributes.ownWrites_spare : ∀ e ∈ ownWrites pool, e.2.Spares common := by
  simp [ownWrites, Write.Spares, common]

theorem FieldAttributes.independent :
    (FieldAttributes.meaning pool).Independent (FieldAttributes.writes pool) := by
  refine (CommonAttributes.independent pool).extend (List.pairwise_singleton ..)
    (ownWrites_spare pool) ?_
  · intro name step h
    unfold FieldAttributes.meaning at h
    split at h
    · cases h
      refine .inl ⟨_, .head _, funext fun a => ?_⟩
      simp only [Write.step, bind_assoc]
    · obtain ⟨step', hBase, rfl⟩ := Option.map_eq_some_iff.mp h
      exact .inr ⟨step', hBase, rfl⟩

/-- What the attributes that only a method may have write. -/
def MethodAttributes.ownWrites : List (String × Write MethodAttributes) :=
  [("Exceptions", ⟨readCounted (readClassName pool), fun v a =>
      { a with exceptions := a.exceptions ++ v }⟩),
    ("MethodParameters", ⟨readParameters pool, fun v a => { a with parameters := some v }⟩),
    ("Code", ⟨readCode pool, fun v a => { a with localVariables := a.localVariables ++ v }⟩),
    ("RuntimeVisibleParameterAnnotations", ⟨readParameterAnnotations pool, fun v a =>
      { a with visibleOfParameters := v }⟩),
    ("RuntimeInvisibleParameterAnnotations", ⟨readParameterAnnotations pool, fun v a =>
      { a with invisibleOfParameters := v }⟩),
    ("AnnotationDefault", ⟨Element.read pool, fun v a => { a with defaultValue := some v }⟩)]

/-- The part of what is known of a method that any declaration has. -/
def MethodAttributes.common : Part MethodAttributes CommonAttributes where
  get a := a.toCommonAttributes
  set c a := { a with toCommonAttributes := c }
  get_set _ _ := rfl
  set_set _ _ _ := rfl

/-- What the attributes of a method write. -/
def MethodAttributes.writes : List (String × Write MethodAttributes) :=
  ownWrites pool ++ (CommonAttributes.writes pool).map fun e => (e.1, e.2.lift common)

theorem MethodAttributes.ownWrites_spare : ∀ e ∈ ownWrites pool, e.2.Spares common := by
  simp [ownWrites, Write.Spares, common]

/-- No attribute of a method touches what another one writes. Code adds to the local variables, but
no other attribute does. -/
theorem MethodAttributes.independent :
    (MethodAttributes.meaning pool).Independent (MethodAttributes.writes pool) := by
  refine (CommonAttributes.independent pool).extend ?_ (ownWrites_spare pool) ?_
  · simp [ownWrites, Write.Commutes]
  · intro name step h
    unfold MethodAttributes.meaning at h
    split at h
    · cases h
      exact .inl ⟨_, .head _, rfl⟩
    · cases h
      exact .inl ⟨_, .tail _ (.head _), rfl⟩
    · cases h
      exact .inl ⟨_, .tail _ (.tail _ (.head _)), rfl⟩
    · cases h
      exact .inl ⟨_, .tail _ (.tail _ (.tail _ (.head _))), rfl⟩
    · cases h
      exact .inl ⟨_, .tail _ (.tail _ (.tail _ (.tail _ (.head _)))), rfl⟩
    · cases h
      exact .inl ⟨_, .tail _ (.tail _ (.tail _ (.tail _ (.tail _ (.head _))))), rfl⟩
    · obtain ⟨step', hBase, rfl⟩ := Option.map_eq_some_iff.mp h
      exact .inr ⟨step', hBase, rfl⟩

/-- What the attributes that only a class may have write. -/
def ClassAttributes.ownWrites : List (String × Write ClassAttributes) :=
  [("InnerClasses", ⟨readCounted (InnerClass.read pool), fun v a => { a with innerClasses := v }⟩)]

/-- The part of what is known of a class that any declaration has. -/
def ClassAttributes.common : Part ClassAttributes CommonAttributes where
  get a := a.toCommonAttributes
  set c a := { a with toCommonAttributes := c }
  get_set _ _ := rfl
  set_set _ _ _ := rfl

/-- What the attributes of a class write. -/
def ClassAttributes.writes : List (String × Write ClassAttributes) :=
  ownWrites pool ++ (CommonAttributes.writes pool).map fun e => (e.1, e.2.lift common)

theorem ClassAttributes.ownWrites_spare : ∀ e ∈ ownWrites pool, e.2.Spares common := by
  simp [ownWrites, Write.Spares, common]

/-- No attribute of a class file touches what another one writes. -/
theorem ClassAttributes.independent :
    (ClassAttributes.meaning pool).Independent (ClassAttributes.writes pool) := by
  refine (CommonAttributes.independent pool).extend (List.pairwise_singleton ..)
    (ownWrites_spare pool) ?_
  · intro name step h
    unfold ClassAttributes.meaning at h
    split at h
    · cases h
      exact .inl ⟨_, .head _, rfl⟩
    · obtain ⟨step', hBase, rfl⟩ := Option.map_eq_some_iff.mp h
      exact .inr ⟨step', hBase, rfl⟩

/-- What the attributes of code write. -/
def codeWrites : List (String × Write (List LocalVariable)) :=
  [("LocalVariableTable", ⟨readCounted (LocalVariable.read pool), fun v known => known ++ v⟩)]

/-- In code, local variables are the only attribute that is understood. -/
theorem code_independent : (codeMeaning pool).Independent (codeWrites pool) where
  listed := by
    intro name step h
    unfold codeMeaning at h
    split at h <;> cases h
    exact ⟨_, .head _, rfl⟩
  commutes := List.pairwise_singleton ..

end

/-! ### Tables that differ in their order -/

namespace Stored

variable {α : Type} {pool : ConstantPool} {meaning : Attributes.Meaning α}
  {writes : List (String × Write α)}

/-- The name of an attribute, if it is understood. -/
def Attribute.known? (pool : ConstantPool) (meaning : Attributes.Meaning α) (a : Attribute) :
    Option String :=
  (pool.utf8 a.name).toOption.filter fun name => (meaning name).isSome

/-- The attributes of a table that are understood, in order. -/
def Table.known (pool : ConstantPool) (meaning : Attributes.Meaning α) (t : Table) :
    List Attribute :=
  t.items.filter fun a => (a.known? pool meaning).isSome

/-- No two attributes that are understood have the same name. -/
def Table.Distinct (pool : ConstantPool) (meaning : Attributes.Meaning α) (t : Table) : Prop :=
  ((known pool meaning t).map (Attribute.known? pool meaning)).Nodup

/-- All attributes of a table have names. -/
def Table.Named (pool : ConstantPool) (t : Table) : Prop :=
  ∀ a ∈ t.items, ∃ name, pool.utf8 a.name = .ok name

instance (t : Table) : Decidable (Table.Distinct pool meaning t) :=
  inferInstanceAs (Decidable (List.Nodup _))

instance (t : Table) : Decidable (Table.Named pool t) :=
  decidable_of_iff (∀ a ∈ t.items, (pool.utf8 a.name).isOk = true)
    (forall₂_congr fun _ _ => Except.isOk_iff)

/-- The second table comes from the first one by putting in and taking out attributes that are not
understood and, if no two of the others have the same name, by changing their order. -/
structure Table.Rearranges (pool : ConstantPool) (meaning : Attributes.Meaning α)
    (t t' : Table) : Prop where
  named : Named pool t'
  known : known pool meaning t = known pool meaning t' ∨
    Distinct pool meaning t ∧ (known pool meaning t).Perm (known pool meaning t')

theorem Attribute.known?_eq_some {a : Attribute} {name : String} :
    a.known? pool meaning = some name ↔
      pool.utf8 a.name = .ok name ∧ ∃ step, meaning name = some step := by
  rw [known?]
  cases pool.utf8 a.name <;> simp [Except.toOption, Option.isSome_iff_exists]

/-- An attribute that is not understood changes nothing. -/
theorem Attribute.value_of_known?_eq_none {a : Attribute} {name : String}
    (hName : pool.utf8 a.name = .ok name) (h : a.known? pool meaning = none) (x : α) :
    a.value pool meaning x = .ok x := by
  have hMeaning : meaning name = none := by
    by_contra hSome
    obtain ⟨step, hStep⟩ := Option.ne_none_iff_exists'.mp hSome
    rw [known?_eq_some.mpr ⟨hName, step, hStep⟩] at h
    cases h
  rw [value, hName]
  change act meaning name a.body x = .ok x
  rw [act, hMeaning]

/-- An attribute that is understood makes its write. -/
theorem Attribute.value_eq_ok {a : Attribute} {name : String} {w : Write α} {x y : α}
    (hName : pool.utf8 a.name = .ok name) (hStep : meaning name = some w.step) :
    a.value pool meaning x = .ok y ↔ ∃ v, w.read a.body = .ok (v, []) ∧ y = w.put v x := by
  rw [value, hName]
  change act meaning name a.body x = .ok y ↔ _
  rw [act, hStep]
  simp only [Except.bind_eq_ok, Prod.exists]
  constructor
  · rintro ⟨x', rest, hRun, hRest⟩
    obtain ⟨v, _, hRead, hPure⟩ := Parsing.bind_eq_ok.mp hRun
    cases hPure
    cases rest with
    | nil =>
      cases hRest
      exact ⟨v, hRead, rfl⟩
    | cons b rest => cases hRest
  · rintro ⟨v, hRead, rfl⟩
    exact ⟨w.put v x, [], Parsing.bind_eq_ok.mpr ⟨v, [], hRead, rfl⟩, rfl⟩

/-- Attributes that are understood under different names can change places. -/
theorem Attribute.swaps (h : meaning.Independent writes) {a a' : Attribute} {name name' : String}
    (ha : a.known? pool meaning = some name) (ha' : a'.known? pool meaning = some name')
    (hne : name ≠ name') : Except.Swaps (Attribute.value pool meaning) a a' := by
  obtain ⟨hName, step, hStep⟩ := known?_eq_some.mp ha
  obtain ⟨hName', step', hStep'⟩ := known?_eq_some.mp ha'
  obtain ⟨w, hw, rfl⟩ := h.listed hStep
  obtain ⟨w', hw', rfl⟩ := h.listed hStep'
  have hSymm : Std.Symm fun e e' : String × Write α => e.2.Commutes e'.2 := ⟨fun _ _ h => h.symm⟩
  have hCommutes : w.Commutes w' :=
    h.commutes.forall hw hw' fun heq => hne (congrArg Prod.fst heq)
  intro x z
  simp only [Except.bind_eq_ok, value_eq_ok hName hStep, value_eq_ok hName' hStep']
  constructor
  · rintro ⟨_, ⟨v, hv, rfl⟩, v', hv', rfl⟩
    exact ⟨_, ⟨v', hv', rfl⟩, v, hv, (hCommutes v v' x).symm⟩
  · rintro ⟨_, ⟨v', hv', rfl⟩, v, hv, rfl⟩
    exact ⟨_, ⟨v, hv, rfl⟩, v', hv', hCommutes v v' x⟩

/-- Attributes that are not understood do not matter as long as they have names. -/
theorem foldlM_known {as : List Attribute}
    (hNamed : ∀ a ∈ as, ∃ name, pool.utf8 a.name = .ok name) : ∀ x,
      as.foldlM (Attribute.value pool meaning) x =
        (as.filter fun a => (a.known? pool meaning).isSome).foldlM
          (Attribute.value pool meaning) x := by
  induction as with
  | nil => exact fun _ => rfl
  | cons a as ih =>
    intro x
    obtain ⟨⟨name, hName⟩, hOthers⟩ := List.forall_mem_cons.mp hNamed
    rw [List.foldlM_cons, List.filter_cons]
    cases hKnown : a.known? pool meaning with
    | none =>
      rw [Attribute.value_of_known?_eq_none hName hKnown, if_neg (by simp)]
      exact ih hOthers x
    | some known =>
      rw [if_pos (by simp), List.foldlM_cons]
      exact congrArg _ (funext (ih hOthers))

/-- Every attribute of a table that was read was read at some point. -/
theorem Table.exists_value_of_mem {t : Table} {x y : α} (h : value pool meaning x t = .ok y)
    {a : Attribute} (ha : a ∈ t.items) : ∃ x' y', a.value pool meaning x' = .ok y' := by
  rw [value] at h
  generalize t.items = as at h ha
  induction as generalizing x with
  | nil => cases ha
  | cons a' as ih =>
    rw [List.foldlM_cons] at h
    obtain ⟨x', hFirst, hOthers⟩ := Except.bind_eq_ok.mp h
    rcases List.mem_cons.mp ha with rfl | ha
    · exact ⟨x, x', hFirst⟩
    · exact ih hOthers ha

/-- In a table that is read, every attribute has a name. -/
theorem Table.named_of_value {t : Table} {x y : α} (h : value pool meaning x t = .ok y) :
    Named pool t := by
  intro a ha
  obtain ⟨x', y', hValue⟩ := exists_value_of_mem h ha
  obtain ⟨name, hName, -⟩ := Except.bind_eq_ok.mp hValue
  exact ⟨name, hName⟩

/-- A rearranged table says the same. -/
theorem Table.value_rearranges (hIndependent : meaning.Independent writes) {t t' : Table} {x y : α}
    (hRearranges : Rearranges pool meaning t t') (h : value pool meaning x t = .ok y) :
    value pool meaning x t' = .ok y := by
  have hKnown : (known pool meaning t).foldlM (Attribute.value pool meaning) x = .ok y :=
    (foldlM_known (named_of_value h) x).symm.trans h
  rw [value, foldlM_known hRearranges.named]
  change (known pool meaning t').foldlM (Attribute.value pool meaning) x = .ok y
  rcases hRearranges.known with hSame | ⟨hDistinct, hPerm⟩
  · exact hSame ▸ hKnown
  · refine Except.foldlM_perm hPerm ?_ hKnown
    refine (List.pairwise_map.mp hDistinct).imp_of_mem fun {a a'} ha ha' hne => ?_
    obtain ⟨name, hName⟩ := Option.isSome_iff_exists.mp (List.mem_filter.mp ha).2
    obtain ⟨name', hName'⟩ := Option.isSome_iff_exists.mp (List.mem_filter.mp ha').2
    refine Attribute.swaps hIndependent hName hName' fun heq => hne ?_
    rw [hName, hName', heq]

/-- A table whose understood attributes have different names may be put in any order. -/
theorem Table.Rearranges.of_perm {t t' : Table} (hNamed : Named pool t)
    (hDistinct : Distinct pool meaning t) (hPerm : t.items.Perm t'.items) :
    Rearranges pool meaning t t' where
  named a ha := hNamed a (hPerm.mem_iff.mpr ha)
  known := .inr ⟨hDistinct, hPerm.filter _⟩

theorem Table.Rearranges.trans {t t' t'' : Table} (h : Rearranges pool meaning t t')
    (h' : Rearranges pool meaning t' t'') : Rearranges pool meaning t t'' where
  named := h'.named
  known := by
    rcases h.known with hSame | ⟨hDistinct, hPerm⟩
    · rw [Distinct, hSame]
      exact h'.known
    · refine .inr ⟨hDistinct, hPerm.trans ?_⟩
      rcases h'.known with hSame | ⟨-, hPerm'⟩
      · rw [hSame]
      · exact hPerm'

section

variable {t t' : Table} {front back : List Attribute} {a : Attribute} {name : String}

theorem Table.known_insert (hName : pool.utf8 a.name = .ok name) (hMeaning : meaning name = none)
    (ht : t.items = front ++ back) (ht' : t'.items = front ++ a :: back) :
    known pool meaning t' = known pool meaning t := by
  have hKnown : ¬(a.known? pool meaning).isSome = true := by
    intro hSome
    obtain ⟨name', h⟩ := Option.isSome_iff_exists.mp hSome
    obtain ⟨hName', step, hStep⟩ := Attribute.known?_eq_some.mp h
    cases hName.symm.trans hName'
    cases hMeaning.symm.trans hStep
  rw [known, known, ht, ht', List.filter_append, List.filter_append, List.filter_cons,
    if_neg hKnown]

/-- An attribute that is not understood may be put in anywhere. -/
theorem Table.Rearranges.insert (hNamed : Named pool t) (hName : pool.utf8 a.name = .ok name)
    (hMeaning : meaning name = none) (ht : t.items = front ++ back)
    (ht' : t'.items = front ++ a :: back) : Rearranges pool meaning t t' where
  named := by
    rw [Named, ht] at hNamed
    rw [Named, ht']
    intro a' ha'
    rcases List.mem_append.mp ha' with ha' | ha'
    · exact hNamed a' (List.mem_append_left _ ha')
    · rcases List.mem_cons.mp ha' with rfl | ha'
      · exact ⟨name, hName⟩
      · exact hNamed a' (List.mem_append_right _ ha')
  known := .inl (known_insert hName hMeaning ht ht').symm

/-- An attribute that is not understood may be taken out. -/
theorem Table.Rearranges.delete (hNamed : Named pool t) (hName : pool.utf8 a.name = .ok name)
    (hMeaning : meaning name = none) (ht : t.items = front ++ a :: back)
    (ht' : t'.items = front ++ back) : Rearranges pool meaning t t' where
  named := by
    rw [Named, ht] at hNamed
    rw [Named, ht']
    intro a' ha'
    rcases List.mem_append.mp ha' with ha' | ha'
    · exact hNamed a' (List.mem_append_left _ ha')
    · exact hNamed a' (List.mem_append_right _ (List.mem_cons_of_mem a ha'))
  known := .inl (known_insert hName hMeaning ht' ht)

end

/-! ### What a table holds -/

/-- What a table holds under a name: nothing if it has no such attribute, and else what is read from
the body of such an attribute. -/
def Table.Holds {γ : Type} (pool : ConstantPool) (t : Table) (name : String)
    (r : Reader (List γ)) (xs : List γ) : Prop :=
  (∀ a ∈ t.items, pool.utf8 a.name ≠ .ok name) ∧ xs = [] ∨
    ∃ a ∈ t.items, pool.utf8 a.name = .ok name ∧ r a.body = .ok (xs, [])

end Stored

namespace Attributes.Meaning

variable {α κ γ : Type}

/-- What is read under a name is kept in a place where nothing else is. -/
structure Fills (meaning : Meaning α) (writes : List (String × Write α)) (name : String)
    (r : Reader γ) (get : α → γ) : Prop where
  own : ∃ put : γ → α → α, meaning name = some (Write.mk r put).step ∧ ∀ v x, get (put v x) = v
  other : ∀ e ∈ writes, e.1 ≠ name → ∀ v x, get (e.2.put v x) = get x

/-- What fills a place of the common part fills it in the whole, if the attributes of its own spare
that part. -/
theorem Fills.extend {own : List (String × Write α)} {writes : List (String × Write κ)}
    {base : Meaning κ} {meaning : Meaning α} {p : Part α κ} {name : String} {r : Reader γ}
    {get : κ → γ} (h : base.Fills writes name r get) (hSpares : ∀ e ∈ own, e.2.Spares p)
    (hMeaning : meaning name =
      (base name).map fun step x => do return p.set (← step (p.get x)) x) :
    meaning.Fills (own ++ writes.map fun e => (e.1, e.2.lift p)) name r (get ∘ p.get) where
  own := by
    obtain ⟨put, hBase, hPut⟩ := h.own
    refine ⟨((Write.mk r put).lift p).put, ?_, fun v x => ?_⟩
    · rw [hMeaning, hBase]
      exact congrArg some (Write.step_lift p _).symm
    · change get (p.get (p.set (put v (p.get x)) x)) = v
      rw [p.get_set, hPut]
  other := by
    intro e he hne v x
    rcases List.mem_append.mp he with he | he
    · exact congrArg get (hSpares e he v (p.get x) x).1
    · obtain ⟨e', he', rfl⟩ := List.mem_map.mp he
      change get (p.get (p.set (e'.2.put v (p.get x)) x)) = get (p.get x)
      rw [p.get_set, h.other e' he' hne v]

end Attributes.Meaning

namespace Stored

variable {α γ : Type} {pool : ConstantPool} {meaning : Attributes.Meaning α}
  {writes : List (String × Write α)}

/-- An attribute fills its place, or leaves it as it is. -/
theorem Attribute.get_of_value (hIndependent : meaning.Independent writes) {name : String}
    {r : Reader γ} {get : α → γ} (hFills : meaning.Fills writes name r get) {a : Attribute}
    {x y : α} (h : a.value pool meaning x = .ok y) :
    (pool.utf8 a.name = .ok name ∧ r a.body = .ok (get y, [])) ∨
      (pool.utf8 a.name ≠ .ok name ∧ get y = get x) := by
  obtain ⟨name', hName, hAct⟩ := Except.bind_eq_ok.mp h
  by_cases hOwn : name' = name
  · subst hOwn
    obtain ⟨put, hStep, hPut⟩ := hFills.own
    obtain ⟨v, hRead, rfl⟩ := (value_eq_ok hName hStep).mp h
    exact .inl ⟨hName, by rw [hPut]; exact hRead⟩
  · refine .inr ⟨fun hName' => hOwn ?_, ?_⟩
    · cases hName.symm.trans hName'
      rfl
    · cases hStep : meaning name' with
      | none =>
        rw [act, hStep] at hAct
        cases hAct
        rfl
      | some step =>
        obtain ⟨w, hw, rfl⟩ := hIndependent.listed hStep
        obtain ⟨v, -, rfl⟩ := (value_eq_ok hName hStep).mp h
        exact hFills.other _ hw hOwn v x

/-- What is known in the end is what the table holds. -/
theorem Table.holds_of_value (hIndependent : meaning.Independent writes) {name : String}
    {r : Reader (List γ)} {get : α → List γ} (hFills : meaning.Fills writes name r get) {t : Table}
    {x y : α} (hEmpty : get x = []) (h : value pool meaning x t = .ok y) :
    Holds pool t name r (get y) := by
  rw [value] at h
  rw [Holds, ← hEmpty]
  clear hEmpty
  generalize t.items = as at h
  induction as generalizing x with
  | nil =>
    cases h
    exact .inl ⟨fun a ha => absurd ha List.not_mem_nil, rfl⟩
  | cons a as ih =>
    rw [List.foldlM_cons] at h
    obtain ⟨x', hFirst, hOthers⟩ := Except.bind_eq_ok.mp h
    rcases ih hOthers with ⟨hNone, hSame⟩ | ⟨a', ha', hHolds⟩
    · -- the last attribute of that name is the first one, or there is none
      rcases Attribute.get_of_value hIndependent hFills hFirst with ⟨hName, hRead⟩ | ⟨hName, hKeep⟩
      · exact .inr ⟨a, List.mem_cons_self, hName, hSame ▸ hRead⟩
      · exact .inl ⟨List.forall_mem_cons.mpr ⟨hName, hNone⟩, hSame.trans hKeep⟩
    · exact .inr ⟨a', List.mem_cons_of_mem a ha', hHolds⟩

end Stored

/-! ### Annotations -/

section

variable (pool : ConstantPool)

theorem CommonAttributes.fills_visible : (meaning pool).Fills (writes pool)
    "RuntimeVisibleAnnotations" (readAnnotations pool) CommonAttributes.visible where
  own := ⟨fun v a => { a with visible := v }, rfl, fun _ _ => rfl⟩
  other := by simp [writes]

theorem CommonAttributes.fills_invisible : (meaning pool).Fills (writes pool)
    "RuntimeInvisibleAnnotations" (readAnnotations pool) CommonAttributes.invisible where
  own := ⟨fun v a => { a with invisible := v }, rfl, fun _ _ => rfl⟩
  other := by simp [writes]

theorem MethodAttributes.fills_visibleOfParameters : (meaning pool).Fills (writes pool)
    "RuntimeVisibleParameterAnnotations" (readParameterAnnotations pool)
    MethodAttributes.visibleOfParameters where
  own := ⟨fun v a => { a with visibleOfParameters := v }, rfl, fun _ _ => rfl⟩
  other := by simp [writes, ownWrites, CommonAttributes.writes, Write.lift, common]

theorem MethodAttributes.fills_invisibleOfParameters : (meaning pool).Fills (writes pool)
    "RuntimeInvisibleParameterAnnotations" (readParameterAnnotations pool)
    MethodAttributes.invisibleOfParameters where
  own := ⟨fun v a => { a with invisibleOfParameters := v }, rfl, fun _ _ => rfl⟩
  other := by simp [writes, ownWrites, CommonAttributes.writes, Write.lift, common]

end

end ClassSketch
