import ClassSketch.Proofs.ClassFile.Parts
import ClassSketch.Proofs.ClassFile.RoundTrip

/-!
# Class files cut short and continued

A class file takes as many bytes as its tables say, and nothing after them is looked at. With fewer
bytes it ends unexpectedly, whatever is missing, and nothing else is reported before that: what is
looked up or checked in the bytes that are there does not depend on those that are missing.

This is a property of readers that sequencing preserves. It fails for a reader that looks at how
many bytes are left, as that of the value of an annotation does; but such readers run only on the
body of an attribute, which is cut out first.

## Main definitions

* `Reader.Incremental` — a reader that looks at nothing but the bytes it takes

## Main results

* `Reader.Incremental.bind`, `Reader.Incremental.within` — incremental readers in sequence, and any
  reader on bytes of its own
* `ClassFile.read_incremental` — the reader of class files
* `ClassFile.parse_truncated` — class files cut short and continued
-/

namespace ClassSketch

namespace Reader

variable {α β : Type}

/-- What is read from bytes of its own takes none of the others. -/
theorem within_eq_monadLift (body : List UInt8) (r : Reader α) :
    Reader.within body r = MonadLiftT.monadLift (r.run body) := by
  funext bytes
  rw [Reader.within]
  cases r.run body <;> rfl

/-- A reader that looks at nothing but the bytes it takes. What comes after these does not matter,
the end of the input is reported if one of them is missing, and any other error is reported whatever
comes after the input. -/
structure Incremental (r : Reader α) : Prop where
  takes : ∀ {bytes x rest}, r bytes = .ok (x, rest) → ∃ front, bytes = front ++ rest ∧
    (∀ more, r (front ++ more) = .ok (x, more)) ∧
    ∀ k < front.length, r (front.take k) = .error .unexpectedEnd
  refuses : ∀ {bytes e}, r bytes = .error e → e ≠ .unexpectedEnd →
    ∀ more, r (bytes ++ more) = .error e

namespace Incremental

variable {r : Reader α} {f : α → Reader β}

/-- What comes from no bytes at all does not depend on any. -/
theorem liftM (x : Except ClassFile.Error α) : Incremental (liftM x : Reader α) where
  takes := by
    intro bytes y rest h
    cases x with
    | error e => cases h
    | ok x =>
      cases h
      exact ⟨[], rfl, fun _ => rfl, fun k hk => absurd hk (Nat.not_lt_zero k)⟩
  refuses := by
    intro bytes e h _ more
    cases x with
    | error e' => cases h; rfl
    | ok x => cases h

theorem pure (x : α) : Incremental (Pure.pure x : Reader α) := liftM (.ok x)

/-- To fail needs no bytes. -/
theorem throw (e : ClassFile.Error) : Incremental (MonadExcept.throw e : Reader α) :=
  liftM (.error e)

/-- A reader that is run on bytes of its own needs none of the others. -/
theorem within (body : List UInt8) (r : Reader α) : Incremental (Reader.within body r) :=
  within_eq_monadLift body r ▸ liftM _

/-- What needs no more than it has read goes on to need no more than both have read. -/
theorem bind (hr : Incremental r) (hf : ∀ x, Incremental (f x)) : Incremental (r >>= f) where
  takes := by
    intro bytes y rest h
    obtain ⟨x, middle, hFirst, hSecond⟩ := Parsing.bind_eq_ok.mp h
    obtain ⟨front, rfl, hTakes, hCut⟩ := hr.takes hFirst
    obtain ⟨back, rfl, hTakes', hCut'⟩ := (hf x).takes hSecond
    refine ⟨front ++ back, (List.append_assoc ..).symm, fun more => ?_, fun k hk => ?_⟩
    · rw [List.append_assoc, Parsing.bind_of_ok (hTakes _)]
      exact hTakes' more
    · -- the cut is in the bytes of the first reader or in those of the second one
      by_cases hFront : k < front.length
      · rw [List.take_append_of_le_length hFront.le]
        exact Parsing.bind_of_error (hCut k hFront)
      · obtain ⟨j, rfl⟩ := Nat.exists_eq_add_of_le (Nat.not_lt.mp hFront)
        rw [List.take_length_add_append, Parsing.bind_of_ok (hTakes _)]
        rw [List.length_append] at hk
        exact hCut' j (Nat.lt_of_add_lt_add_left hk)
  refuses := by
    intro bytes e h hne more
    rcases Parsing.bind_eq_error.mp h with hFirst | ⟨x, middle, hFirst, hSecond⟩
    · exact Parsing.bind_of_error (hr.refuses hFirst hne more)
    · obtain ⟨front, rfl, hTakes, -⟩ := hr.takes hFirst
      rw [List.append_assoc, Parsing.bind_of_ok (hTakes _)]
      exact (hf x).refuses hSecond hne more

end Incremental

/-! ### Numbers and tables -/

theorem split?_eq_some {n : ℕ} : ∀ {bytes front rest : List UInt8},
    split? n bytes = some (front, rest) → front.length = n ∧ bytes = front ++ rest := by
  induction n with
  | zero =>
    intro bytes front rest h
    cases h
    exact ⟨rfl, rfl⟩
  | succ n ih =>
    intro bytes front rest h
    cases bytes with
    | nil => cases h
    | cons b bytes =>
      obtain ⟨⟨front', rest'⟩, hSplit, heq⟩ := Option.map_eq_some_iff.mp h
      cases heq
      obtain ⟨hLength, rfl⟩ := ih hSplit
      exact ⟨congrArg Nat.succ hLength, rfl⟩

/-- Bytes are read exactly where there are as many. -/
theorem bytes_eq_ok {n : ℕ} {bytes front rest : List UInt8} :
    Reader.bytes n bytes = .ok (front, rest) ↔ front.length = n ∧ bytes = front ++ rest := by
  constructor
  · intro h
    rw [Reader.bytes] at h
    split at h
    · next hSplit =>
      cases h
      exact split?_eq_some hSplit
    · cases h
  · rintro ⟨rfl, rfl⟩
    exact bytes_append front rest

/-- A number of bytes: with fewer of them the end is reported, and more do not matter. -/
theorem bytes_incremental (n : ℕ) : Incremental (bytes n) where
  takes := by
    intro bytes front rest h
    obtain ⟨rfl, rfl⟩ := bytes_eq_ok.mp h
    refine ⟨front, rfl, bytes_append front, fun k hk => ?_⟩
    cases hCut : Reader.bytes front.length (front.take k) with
    | error e =>
      rw [Reader.bytes] at hCut
      split at hCut <;> cases hCut
      rfl
    | ok result =>
      have hLength := congrArg List.length (bytes_eq_ok.mp hCut).2
      rw [List.length_take, List.length_append, (bytes_eq_ok.mp hCut).1] at hLength
      omega
  refuses := by
    intro bytes e h hne
    rw [Reader.bytes] at h
    split at h <;> cases h
    exact absurd rfl hne

theorem u1_incremental : Incremental u1 := (bytes_incremental 1).bind fun _ => .pure _

theorem u2_incremental : Incremental u2 := (bytes_incremental 2).bind fun _ => .pure _

theorem u4_incremental : Incremental u4 := (bytes_incremental 4).bind fun _ => .pure _

theorem u8_incremental : Incremental u8 := (bytes_incremental 8).bind fun _ => .pure _

/-- A table of incremental rows is incremental. -/
theorem Incremental.times {r : Reader α} (h : Incremental r) (n : ℕ) :
    Incremental (times r n) := by
  induction n with
  | zero => exact .pure []
  | succ n ih => exact h.bind fun x => ih.bind fun xs => .pure (x :: xs)

theorem Incremental.readCounted {r : Reader α} (h : Incremental r) :
    Incremental (readCounted r) :=
  u2_incremental.bind fun count => h.times count.toNat

/-- A number that comes next, and what is looked up under it. -/
theorem Incremental.index (look : UInt16 → Except ClassFile.Error α) :
    Incremental (u2 >>= fun i => MonadLiftT.monadLift (look i) : Reader α) :=
  u2_incremental.bind fun i => .liftM (look i)

end Reader

open Reader

/-! ### The constant pool -/

namespace ConstantPool

theorem readUtf8_incremental : Incremental readUtf8 := by
  refine u2_incremental.bind fun length => (bytes_incremental _).bind fun text => ?_
  split
  · exact .pure _
  · exact .throw _

theorem skipOther_incremental (n : ℕ) : Incremental (skipOther n) :=
  (bytes_incremental n).bind fun _ => .pure _

/-- Every kind of constant is read from as many bytes as its tag asks for. -/
theorem readConstant_incremental : Incremental readConstant := by
  refine u1_incremental.bind fun tag => ?_
  split
  · exact readUtf8_incremental
  · exact u4_incremental.bind fun _ => .pure _
  · exact u4_incremental.bind fun _ => .pure _
  · exact u8_incremental.bind fun _ => .pure _
  · exact u8_incremental.bind fun _ => .pure _
  · exact u2_incremental.bind fun _ => .pure _
  · exact u2_incremental.bind fun _ => .pure _
  -- the constants that are passed over differ in their size only
  iterate 10 exact skipOther_incremental _
  · exact .throw _

/-- The slots are read one after the other, where a constant may take two. -/
theorem readSlots_incremental (n : ℕ) : Incremental (readSlots n) := by
  induction n using Nat.strong_induction_on with
  | _ n ih =>
    match n with
    | 0 => exact .pure []
    | 1 =>
      refine readConstant_incremental.bind fun constant => ?_
      split
      · exact .pure _
      · exact (ih 0 (by omega)).bind fun _ => .pure _
    | n + 2 =>
      refine readConstant_incremental.bind fun constant => ?_
      split
      · exact (ih n (by omega)).bind fun _ => .pure _
      · exact (ih (n + 1) (by omega)).bind fun _ => .pure _

theorem read_incremental : Incremental read :=
  u2_incremental.bind fun _ => (readSlots_incremental _).bind fun _ => .pure _

end ConstantPool

/-! ### Declarations -/

section

variable (pool : ConstantPool)

theorem readUtf8_incremental : Incremental (readUtf8 pool) := .index pool.utf8

theorem readClassName_incremental : Incremental (readClassName pool) := .index pool.className

theorem readClassName?_incremental : Incremental (readClassName? pool) := .index pool.className?

theorem readAccess_incremental : Incremental readAccess := u2_incremental.bind fun _ => .pure _

/-- A table of attributes is incremental whatever the attributes mean, as their bodies are cut out
before they are read. -/
theorem Attributes.read_incremental {α : Type} (meaning : Attributes.Meaning α) (initial : α) :
    Incremental (Attributes.read pool meaning initial) := by
  have hOne : ∀ known, Incremental (Attributes.readOne pool meaning known) := by
    intro known
    refine u2_incremental.bind fun index => (Incremental.liftM _).bind fun name => ?_
    refine u4_incremental.bind fun length => (bytes_incremental _).bind fun body => ?_
    cases meaning name with
    | none => exact .pure known
    | some step =>
      refine (Incremental.within body _).bind fun result => ?_
      simp only
      split
      · exact .pure _
      · exact .throw _
  have hMany : ∀ n known, Incremental (Attributes.readMany pool meaning n known) := by
    intro n
    induction n with
    | zero => exact fun known => .pure known
    | succ n ih => exact fun known => (hOne known).bind ih
  exact u2_incremental.bind fun count => hMany count.toNat initial

theorem readMember_incremental {α β : Type} (meaning : Attributes.Meaning α) (initial : α)
    (make : AccessFlags → String → String → α → β) :
    Incremental (readMember pool meaning initial make) := by
  refine readAccess_incremental.bind fun access => ?_
  refine (readUtf8_incremental pool).bind fun name => ?_
  refine (readUtf8_incremental pool).bind fun descriptor => ?_
  exact (Attributes.read_incremental pool _ _).bind fun a => .pure _

theorem FieldInfo.read_incremental : Incremental (FieldInfo.read pool) :=
  readMember_incremental pool ..

theorem MethodInfo.read_incremental : Incremental (MethodInfo.read pool) :=
  readMember_incremental pool ..

end

theorem ClassHead.read_incremental : Incremental ClassHead.read := by
  refine u4_incremental.bind fun number => ?_
  split
  · exact .throw _
  refine u2_incremental.bind fun minor => u2_incremental.bind fun major => ?_
  refine ConstantPool.read_incremental.bind fun pool => ?_
  refine readAccess_incremental.bind fun access => ?_
  refine (readClassName_incremental pool).bind fun thisClass => ?_
  refine (readClassName?_incremental pool).bind fun superClass => ?_
  exact (readClassName_incremental pool).readCounted.bind fun interfaces => .pure _

namespace ClassFile

theorem read_incremental : Incremental read := by
  rw [read_eq]
  refine ClassHead.read_incremental.bind fun h => ?_
  refine (FieldInfo.read_incremental h.pool).readCounted.bind fun fields => ?_
  refine (MethodInfo.read_incremental h.pool).readCounted.bind fun methods => ?_
  exact (Attributes.read_incremental h.pool _ _).bind fun a => .pure _

/-- A class file that can be read ends somewhere. Cut before its end it ends unexpectedly, and
whatever comes after its end does not matter. Any error but an unexpected end is there to stay,
whatever comes after the bytes that have it. -/
theorem parse_truncated (bytes : List UInt8) :
    (∀ c, parse bytes = .ok c → ∃ n ≤ bytes.length,
      (∀ k < n, parse (bytes.take k) = .error .unexpectedEnd) ∧
      ∀ more, parse (bytes.take n ++ more) = .ok c) ∧
    ∀ e, parse bytes = .error e → e ≠ .unexpectedEnd →
      ∀ more, parse (bytes ++ more) = .error e := by
  constructor
  · intro c h
    obtain ⟨⟨c', rest⟩, hRead, rfl⟩ := Parsing.map_eq_ok.mp h
    obtain ⟨front, rfl, hTakes, hCut⟩ := read_incremental.takes hRead
    refine ⟨front.length, by simp, fun k hk => ?_, fun more => ?_⟩
    · rw [List.take_append_of_le_length hk.le, parse, StateT.run, hCut k hk]
      rfl
    · rw [List.take_left, parse, StateT.run, hTakes more]
      rfl
  · intro e h hne more
    have hRead : read bytes = .error e := Except.map_eq_error.mp h
    rw [parse, StateT.run, read_incremental.refuses hRead hne more]
    rfl

/-- The sample with two more bytes after its end, and bytes that do not start as class files do. -/
theorem parse_truncated_sample : ∃ c, parse (sample.encode ++ [0, 0]) = .ok c ∧
    c.fields.length = 1 ∧
    (∃ n ≤ (sample.encode ++ [0, 0]).length,
      (∀ k < n, parse ((sample.encode ++ [0, 0]).take k) = .error .unexpectedEnd) ∧
      ∀ more, parse ((sample.encode ++ [0, 0]).take n ++ more) = .ok c) ∧
    parse [0xCA, 0xFE, 0xBA, 0xBF] = .error .invalidMagic ∧
    Error.invalidMagic ≠ .unexpectedEnd ∧
    ∀ more, parse ([0xCA, 0xFE, 0xBA, 0xBF] ++ more) = .error .invalidMagic := by
  have hSample : (parse (sample.encode ++ [0, 0])).toOption.any (fun c => c.fields.length == 1) =
      true := by
    decide +kernel
  obtain ⟨c, hOk, hFields⟩ := Except.exists_of_any_toOption hSample
  have hMagic : parse [0xCA, 0xFE, 0xBA, 0xBF] = .error .invalidMagic :=
    Except.error?_eq_some.mp (by decide +kernel)
  have hOther : Error.invalidMagic ≠ .unexpectedEnd := by decide
  exact ⟨c, hOk, beq_iff_eq.mp hFields, (parse_truncated _).1 c hOk, hMagic, hOther,
    (parse_truncated _).2 _ hMagic hOther⟩

end ClassFile

end ClassSketch
