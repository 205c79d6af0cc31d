import ClassSketch.Proofs.Signature.Forms
import ClassSketch.Proofs.Text.Utf8

/-!
# Parsers that look one byte ahead

What a parser of signatures does depends on the text that it reads and on the first byte after that.
If it stops, then at the character with that byte, so whatever else is put there, it stops at the
same place with the same message.

The property is told of two parsers at once. A reference type is read with as much depth as there
are characters in the text, and another text with the same beginning may be longer or shorter. So
the parsers are those for two depths, and the texts are short enough for these.

## Main definitions

* `outcome` — the value or the message of a run, and what is left unread
* `SameStart` — texts whose first bytes are the same
* `LooksAhead` — parsers that do the same on texts that agree up to one byte after what is read

## Main results

* `LooksAhead.bind`, `LooksAhead.test` — parsers one after the other, and a choice by the first byte
* `typeWithin_looksAhead`, `formals_looksAhead` — the parsers of types and of type parameters
-/

namespace ClassSketch

namespace Signature

open Text Parsing

variable {α β : Type} {n m : ℕ} {c : Char} {s t u : List Char}

/-! ### Texts with the same first byte -/

/-- Two texts start with the same byte, or both are empty. -/
def SameStart (s t : List Char) : Prop := s.head?.map leadChar = t.head?.map leadChar

theorem SameStart.eq_nil (h : SameStart [] t) : t = [] := by
  simpa [SameStart] using h.symm

/-- Texts with the same start both have a first character, and their first bytes agree. -/
theorem SameStart.exists_cons (h : SameStart (c :: s) t) :
    ∃ d t', t = d :: t' ∧ leadChar c = leadChar d := by
  cases t with
  | nil => simp [SameStart] at h
  | cons d t' => exact ⟨d, t', rfl, by simpa [SameStart] using h⟩

theorem SameStart.append (h : SameStart s t) (front : List Char) :
    SameStart (front ++ s) (front ++ t) := by
  cases front with
  | nil => exact h
  | cons c front => rfl

/-- A condition that can be told from the first byte of a text. -/
def Tells (more : List Char → Bool) : Prop := ∀ s t : List Char, SameStart s t → more s = more t

theorem starts_eq_false (h : ∀ rest, s = c :: rest → False) : starts c s = false := by
  rw [starts, beq_eq_false_iff_ne]
  intro hHead
  obtain ⟨rest, hRest⟩ := List.head?_eq_some_iff.mp hHead
  exact h rest hRest

/-- Whether a text starts with an ASCII character is told by its first byte. -/
theorem tells_starts (hc : c.toNat < 0x80) : Tells (starts c) := by
  intro s t h
  cases s with
  | nil => rw [h.eq_nil]
  | cons d s =>
    obtain ⟨e, t, rfl, hLead⟩ := h.exists_cons
    have hEq : d = c ↔ e = c := by
      constructor
      · rintro rfl
        exact eq_of_leadChar_eq hc hLead
      · rintro rfl
        exact eq_of_leadChar_eq hc hLead.symm
    rw [starts_cons, starts_cons, Bool.eq_iff_iff, beq_iff_eq, beq_iff_eq, hEq]

theorem tells_isEmpty : Tells List.isEmpty := by
  intro s t h
  cases s with
  | nil => rw [h.eq_nil]
  | cons d s =>
    obtain ⟨e, t', rfl, -⟩ := h.exists_cons
    rfl

theorem Tells.not {more : List Char → Bool} (h : Tells more) : Tells fun s => !more s :=
  fun s t hStart => congrArg (!·) (h s t hStart)

theorem Tells.or {more others : List Char → Bool} (h : Tells more) (h' : Tells others) :
    Tells fun s => more s || others s :=
  fun s t hStart => congrArg₂ (· || ·) (h s t hStart) (h' s t hStart)

/-- Whether a text starts with one of some ASCII characters is told by its first byte. -/
theorem SameStart.headIn {ends : List Char} (hEnds : ∀ c ∈ ends, c.toNat < 0x80)
    (h : SameStart s t) (hs : HeadIn ends s) : HeadIn ends t := by
  obtain ⟨c, hc, rest, rfl⟩ := hs
  obtain ⟨d, t', rfl, hLead⟩ := h.exists_cons
  obtain rfl := eq_of_leadChar_eq (hEnds c hc) hLead
  exact .cons hc t'

/-- Of what was found, a message names the first byte only. -/
theorem foundText_congr {d : Char} (h : leadChar c = leadChar d) :
    SignatureFault.foundText (some c) = SignatureFault.foundText (some d) :=
  congrArg (fun lead => "'" ++ String.singleton lead ++ "'") h

theorem message_expected_congr {d : Char} (wanted : Char) (h : leadChar c = leadChar d) :
    (SignatureFault.expected wanted (some c)).message =
      (SignatureFault.expected wanted (some d)).message :=
  congrArg (fun found => "expected '" ++ String.singleton wanted ++ "', found " ++ found)
    (foundText_congr h)

theorem message_expectedType_congr {d : Char} (h : leadChar c = leadChar d) :
    (SignatureFault.expectedType (some c)).message =
      (SignatureFault.expectedType (some d)).message :=
  congrArg (fun found => "expected reference type, found " ++ found) (foundText_congr h)

/-- An identifier is missing if the text starts with one of its ends, and has no end if none of
these follows. -/
theorem identifier_eq_error {ends : List Char} {e : Stop} :
    identifier ends s = .error e ↔
      (s = [] ∨ HeadIn ends s) ∧ e = ⟨.expectedIdentifier, s⟩ ∨
      (s ≠ [] ∧ ∀ c ∈ s, c ∉ ends) ∧ e = ⟨.unterminatedIdentifier, []⟩ := by
  cases s with
  | nil => simp [identifier, eq_comm]
  | cons c s =>
    rw [identifier]
    by_cases hc : c ∈ ends
    · have hHead : HeadIn ends (c :: s) := .cons hc s
      simp [hc, hHead, eq_comm]
    · have hHead : ¬HeadIn ends (c :: s) := by
        rintro ⟨d, hd, _, heq⟩
        cases heq
        exact hc hd
      have hTake : ((c :: s).takeWhile fun d => !ends.contains d).isEmpty = false := by
        rw [List.takeWhile_cons_of_pos (by simpa using hc), List.isEmpty_cons]
      rw [hTake, if_neg Bool.false_ne_true]
      cases hRest : (c :: s).dropWhile fun d => !ends.contains d with
      | nil =>
        have hFree : ∀ d ∈ c :: s, d ∉ ends := by simpa using List.dropWhile_eq_nil_iff.mp hRest
        simp only [hHead, reduceCtorEq, or_self, false_and, false_or, ne_eq, not_false_eq_true,
          true_and, List.isEmpty_nil, if_true, Except.error.injEq, eq_comm]
        exact (and_iff_right hFree).symm
      | cons d rest =>
        have hFound : ¬∀ d ∈ c :: s, d ∉ ends := fun hFree => by
          rw [List.dropWhile_eq_nil_iff.mpr (by simpa using hFree)] at hRest
          cases hRest
        simp only [hHead, reduceCtorEq, or_self, false_and, hFound, and_false, List.isEmpty_cons,
          Bool.false_eq_true, if_false]

/-! ### Repetition -/

section Repetition

variable {more : List Char → Bool} {item : Parser α}

/-- With enough fuel, it does not matter how much there is. -/
theorem repeatWithin_congr (hItem : Consumes item) {fuel fuel' : ℕ} (h : s.length < fuel)
    (h' : s.length < fuel') : repeatWithin more item fuel s = repeatWithin more item fuel' s := by
  induction fuel generalizing s fuel' with
  | zero => exact absurd h (Nat.not_lt_zero _)
  | succ fuel ih =>
    cases fuel' with
    | zero => exact absurd h' (Nat.not_lt_zero _)
    | succ fuel' =>
      rw [repeatWithin, repeatWithin, bind_of_ok (get_run s), bind_of_ok (get_run s)]
      split
      · cases hRun : item s with
        | error e => rw [bind_of_error hRun, bind_of_error hRun]
        | ok r =>
          obtain ⟨x, u⟩ := r
          have hu := hItem hRun
          have hRest : repeatWithin more item fuel u = repeatWithin more item fuel' u :=
            ih (by omega) (by omega)
          rw [bind_of_ok hRun, bind_of_ok hRun]
          change (repeatWithin more item fuel u >>= _) = (repeatWithin more item fuel' u >>= _)
          rw [hRest]
      · rfl

/-- Items are read one after the other as long as there are more. -/
theorem repeatWhile_eq (hItem : Consumes item) :
    repeatWhile more item = get >>= fun s =>
      if more s then item >>= fun x => repeatWhile more item >>= fun xs => pure (x :: xs)
      else pure [] := by
  funext s
  rw [repeatWhile, repeatWithin, bind_of_ok (get_run s), bind_of_ok (get_run s)]
  split
  · cases hRun : item s with
    | error e => rw [bind_of_error hRun, bind_of_error hRun]
    | ok r =>
      obtain ⟨x, u⟩ := r
      have hRest : repeatWithin more item s.length u = repeatWithin more item (u.length + 1) u :=
        repeatWithin_congr hItem (hItem hRun) (Nat.lt_succ_self _)
      rw [bind_of_ok hRun, bind_of_ok hRun]
      change (repeatWithin more item s.length u >>= _) = (repeatWithin more item _ u >>= _)
      rw [hRest]
  · rfl

end Repetition

/-! ### One text -/

/-- The value or the message of a run, and what is left unread. -/
def outcome : Except Stop (α × List Char) → Except String α × List Char
  | .ok (x, u) => (.ok x, u)
  | .error e => (.error e.fault.message, e.rest)

theorem eq_ok_of_outcome {r : Except Stop (α × List Char)} {x : α}
    (h : outcome r = (.ok x, t)) : r = .ok (x, t) := by
  cases r with
  | error e => cases h
  | ok r =>
    cases h
    rfl

theorem exists_of_outcome_error {r : Except Stop (α × List Char)} {message : String}
    (h : outcome r = (.error message, t)) :
    ∃ f : SignatureFault, f.message = message ∧ r = .error ⟨f, t⟩ := by
  cases r with
  | error e =>
    cases h
    exact ⟨e.fault, rfl, rfl⟩
  | ok r => cases h

/-- What `p` leaves unread is the end of the text. If it is replaced by another text that starts
with the same byte, such that there are at most `m` characters, `q` has the same value or message
and leaves that other text. -/
def LooksAheadAt (s : List Char) (m : ℕ) (p q : Parser α) : Prop :=
  ∃ front, s = front ++ (outcome (p s)).2 ∧
    ∀ t, SameStart (outcome (p s)).2 t → (front ++ t).length ≤ m →
      outcome (q (front ++ t)) = ((outcome (p s)).1, t)

variable {p q p' q' : Parser α} {f g : α → Parser β}

namespace LooksAheadAt

/-- A parser that gives the same result with every rest of the same start looks ahead one byte. -/
theorem of_ok (front : List Char) {x : α} (hp : p (front ++ u) = .ok (x, u))
    (hq : ∀ t, SameStart u t → q (front ++ t) = .ok (x, t)) :
    LooksAheadAt (front ++ u) m p q := by
  rw [LooksAheadAt, hp]
  exact ⟨front, rfl, fun t ht _ => congrArg outcome (hq t ht)⟩

/-- A parser that stops with the same message at every rest of the same start looks ahead one byte.
-/
theorem of_error (front : List Char) {fault : SignatureFault}
    (hp : p (front ++ u) = .error ⟨fault, u⟩)
    (hq : ∀ t, SameStart u t → ∃ other : SignatureFault, other.message = fault.message ∧
      q (front ++ t) = .error ⟨other, t⟩) :
    LooksAheadAt (front ++ u) m p q := by
  rw [LooksAheadAt, hp]
  refine ⟨front, rfl, fun t ht _ => ?_⟩
  obtain ⟨other, hMessage, hStop⟩ := hq t ht
  rw [hStop]
  exact congrArg (Except.error ·, t) hMessage

/-- Two parsers do what others do on texts with the first byte of a given one. -/
theorem of_start (h : LooksAheadAt s m p' q') (hp : p s = p' s)
    (hq : ∀ t, SameStart s t → q t = q' t) : LooksAheadAt s m p q := by
  rw [LooksAheadAt, hp]
  obtain ⟨front, hFront, hSame⟩ := h
  refine ⟨front, hFront, fun t ht hm => ?_⟩
  rw [hq (front ++ t) (hFront ▸ ht.append front), hSame t ht hm]

theorem test {more : List Char → Bool} (hMore : Tells more)
    (h : more s = true → LooksAheadAt s m p q) (h' : more s = false → LooksAheadAt s m p' q') :
    LooksAheadAt s m (get >>= fun s => if more s then p else p')
      (get >>= fun s => if more s then q else q') := by
  have hRun : ∀ (a b : Parser α) {t : List Char}, SameStart s t →
      (get >>= fun s => if more s then a else b) t = (if more s then a else b) t := by
    intro a b t ht
    rw [bind_of_ok (get_run t), hMore s t ht]
  cases hs : more s with
  | true =>
    rw [hs] at hRun
    exact of_start (h hs) (hRun p p' rfl) fun t ht => hRun q q' ht
  | false =>
    rw [hs] at hRun
    exact of_start (h' hs) (hRun p p' rfl) fun t ht => hRun q q' ht

/-- After a parser that takes at least `k` characters, there are `k` characters less. -/
theorem bind {k : ℕ} (hp : LooksAheadAt s (m + k) p q)
    (hf : ∀ x u, p s = .ok (x, u) → u.length + k ≤ s.length ∧ LooksAheadAt u m (f x) (g x)) :
    LooksAheadAt s (m + k) (p >>= f) (q >>= g) := by
  obtain ⟨front, hFront, hSame⟩ := hp
  rw [LooksAheadAt]
  cases hRun : p s with
  | error e =>
    rw [hRun] at hFront hSame
    rw [bind_of_error hRun]
    refine ⟨front, hFront, fun t ht hm => ?_⟩
    obtain ⟨fault, hMessage, hStop⟩ := exists_of_outcome_error (hSame t ht hm)
    rw [bind_of_error hStop]
    exact congrArg (Except.error ·, t) hMessage
  | ok r =>
    obtain ⟨x, u⟩ := r
    obtain ⟨hu, middle, hMiddle, hSame'⟩ := hf x u hRun
    rw [hRun] at hFront hSame
    change s = front ++ u at hFront
    rw [bind_of_ok hRun]
    refine ⟨front ++ middle, ?_, fun t ht hm => ?_⟩
    · rw [List.append_assoc, ← hMiddle, hFront]
    · rw [List.append_assoc] at hm ⊢
      have hStart : SameStart u (middle ++ t) := hMiddle ▸ ht.append middle
      rw [bind_of_ok (eq_ok_of_outcome (hSame (middle ++ t) hStart hm))]
      rw [hFront] at hu
      simp only [List.length_append] at hm hu
      exact hSame' t ht (by rw [List.length_append]; omega)

theorem length_le {x : α} (h : LooksAheadAt s m p q) (hRun : p s = .ok (x, u)) :
    u.length ≤ s.length := by
  obtain ⟨front, hFront, -⟩ := h
  rw [hRun] at hFront
  change s = front ++ u at hFront
  rw [hFront, List.length_append]
  exact Nat.le_add_left ..

end LooksAheadAt

/-! ### All texts -/

/-- What `p` does on texts of at most `n` characters, `q` does on texts of at most `m` characters
with the same beginning, up to the first byte of what `p` leaves unread. -/
def LooksAhead (n m : ℕ) (p q : Parser α) : Prop :=
  ∀ s : List Char, s.length ≤ n → LooksAheadAt s m p q

namespace LooksAhead

/-- What looks ahead in longer texts does in shorter ones. -/
theorem mono {n' m' : ℕ} (h : LooksAhead n' m' p q) (hn : n ≤ n') (hm : m ≤ m') :
    LooksAhead n m p q := by
  intro s hs
  obtain ⟨front, hFront, hSame⟩ := h s (le_trans hs hn)
  exact ⟨front, hFront, fun t ht hLength => hSame t ht (le_trans hLength hm)⟩

theorem pure (x : α) : LooksAhead n m (Pure.pure x : Parser α) (Pure.pure x) :=
  fun s _ => .of_ok [] (pure_run x s) fun t _ => pure_run x t

/-- A parser that takes the next character, whatever it is. -/
theorem skip (x : α) :
    LooksAhead n m (fun s => .ok (x, s.tail) : Parser α) (fun s => .ok (x, s.tail)) := by
  intro s _
  cases s with
  | nil => exact .of_ok [] rfl fun t ht => by rw [ht.eq_nil]; rfl
  | cons c s => exact .of_ok [c] rfl fun t _ => rfl

/-- A parser that stops at once, with a fault that tells no more than the first byte. -/
theorem stopsHere (fault : Option Char → SignatureFault)
    (h : ∀ {c d}, leadChar c = leadChar d →
      (fault (some c)).message = (fault (some d)).message) :
    LooksAhead n m (fun s => .error ⟨fault s.head?, s⟩ : Parser α)
      (fun s => .error ⟨fault s.head?, s⟩) := by
  refine fun s _ => .of_error [] rfl fun t ht => ⟨_, ?_, rfl⟩
  cases s with
  | nil => rw [ht.eq_nil]
  | cons c s =>
    obtain ⟨d, t', rfl, hLead⟩ := ht.exists_cons
    exact (h hLead).symm

/-- To stop with a fault of its own needs no look at the text. -/
theorem stop (fault : SignatureFault) :
    LooksAhead n m (Signature.stop fault : Parser α) (Signature.stop fault) :=
  stopsHere (fun _ => fault) fun _ => rfl

theorem bind (hp : LooksAhead n m p q) (hf : ∀ x, LooksAhead n m (f x) (g x)) :
    LooksAhead n m (p >>= f) (q >>= g) := by
  refine fun s hs => LooksAheadAt.bind (k := 0) (hp s hs) fun x u hRun => ?_
  have hu := (hp s hs).length_le hRun
  exact ⟨hu, hf x u (le_trans hu hs)⟩

theorem test {more : List Char → Bool} (hMore : Tells more) (h : LooksAhead n m p q)
    (h' : LooksAhead n m p' q') :
    LooksAhead n m (get >>= fun s => if more s then p else p')
      (get >>= fun s => if more s then q else q') :=
  fun s hs => .test hMore (fun _ => h s hs) fun _ => h' s hs

/-- A repetition looks ahead one byte, if its item and its test do. The induction is on the length
of the text, of which every item takes something. -/
theorem repeatWhile {more : List Char → Bool} (hMore : Tells more) (h : LooksAhead n m p q)
    (hp : Consumes p) (hq : Consumes q) :
    LooksAhead n m (Signature.repeatWhile more p) (Signature.repeatWhile more q) := by
  intro s hs
  induction hLength : s.length using Nat.strong_induction_on generalizing s with
  | _ k ih =>
    rw [repeatWhile_eq hp, repeatWhile_eq hq]
    refine .test hMore (fun _ => .bind (k := 0) (h s hs) fun x u hRun => ?_) fun _ => pure [] s hs
    have hu : u.length < s.length := hp hRun
    have hLoop := ih u.length (hLength ▸ hu) u (le_trans hu.le hs) rfl
    exact ⟨hu.le, .bind (k := 0) hLoop fun xs v hRest =>
      ⟨hLoop.length_le hRest, pure (x :: xs) v le_rfl⟩⟩

/-! ### Characters and identifiers -/

/-- Whether an ASCII character stands there is told by the first byte. -/
theorem expect (hc : c.toNat < 0x80) :
    LooksAhead n m (Signature.expect c) (Signature.expect c) := by
  have hTake : ∀ t, starts c t = true → Signature.expect c t = .ok ((), t.tail) := by
    intro t ht
    obtain ⟨rest, rfl⟩ := List.head?_eq_some_iff.mp (beq_iff_eq.mp ht)
    exact expect_cons c rest
  have hStop : ∀ t, starts c t = false →
      Signature.expect c t = .error ⟨.expected c t.head?, t⟩ := by
    intro t ht
    cases t with
    | nil => rfl
    | cons d t => rw [Signature.expect, if_neg (by simpa using ht), List.head?_cons]
  intro s hn
  cases hs : starts c s with
  | true =>
    exact .of_start (skip () s hn) (hTake s hs) fun t ht => hTake t (tells_starts hc s t ht ▸ hs)
  | false =>
    exact .of_start (stopsHere (.expected c) (message_expected_congr c) s hn) (hStop s hs)
      fun t ht => hStop t (tells_starts hc s t ht ▸ hs)

/-- A character that is read shortens the text, so that what follows may be nested less deeply. -/
theorem after {f g : Unit → Parser β} (hc : c.toNat < 0x80)
    (h : ∀ x, LooksAhead n m (f x) (g x)) :
    LooksAhead (n + 1) (m + 1) (Signature.expect c >>= f) (Signature.expect c >>= g) := by
  refine fun s hs => .bind (expect hc s hs) fun x u hRun => ?_
  obtain rfl := expect_eq_ok.mp hRun
  exact ⟨le_rfl, h x u (Nat.le_of_succ_le_succ hs)⟩

/-- Identifiers end at ASCII characters, and so they look ahead one byte. -/
theorem identifier {ends : List Char} (hEnds : ∀ c ∈ ends, c.toNat < 0x80) :
    LooksAhead n m (Signature.identifier ends) (Signature.identifier ends) := by
  intro s _
  cases hRun : Signature.identifier ends s with
  | ok r =>
    obtain ⟨x, u⟩ := r
    obtain ⟨i, rfl, rfl, hHead⟩ := identifier_eq_ok.mp hRun
    exact .of_ok _ hRun fun t ht => identifier_append i (ht.headIn hEnds hHead)
  | error e =>
    rcases identifier_eq_error.mp hRun with ⟨hHead, rfl⟩ | ⟨⟨hne, hFree⟩, rfl⟩
    · refine .of_error [] hRun fun t ht => ⟨_, rfl, ?_⟩
      refine identifier_eq_error.mpr (.inl ⟨?_, rfl⟩)
      rcases hHead with rfl | hHead
      · exact .inl ht.eq_nil
      · exact .inr (ht.headIn hEnds hHead)
    · rw [← List.append_nil s] at hRun ⊢
      refine .of_error s hRun fun t ht => ⟨_, rfl, ?_⟩
      rw [ht.eq_nil]
      exact hRun

end LooksAhead

/-! ### Types -/

section Types

variable {type type' : Parser TypeRef}

theorem variableType_looksAhead : LooksAhead n m variableType variableType :=
  (LooksAhead.expect (by decide)).bind fun _ =>
    (LooksAhead.identifier (by simp)).bind fun _ =>
      (LooksAhead.expect (by decide)).bind fun _ => .pure _

theorem letter_ascii (p : Primitive) : p.letter.toNat < 0x80 := by
  cases p <;> decide

theorem baseType?_congr {d : Char} (h : leadChar c = leadChar d) : baseType? c = baseType? d := by
  refine Option.ext fun p => ?_
  rw [baseType?_eq_some, baseType?_eq_some]
  refine and_congr_right fun _ => ⟨?_, ?_⟩
  · rintro rfl
    exact (eq_of_leadChar_eq (letter_ascii p) h).symm
  · rintro rfl
    exact (eq_of_leadChar_eq (letter_ascii p) h.symm).symm

/-- The letters of primitive types are ASCII characters. -/
theorem javaType_looksAhead (h : LooksAhead n m type type') :
    LooksAhead n m (javaType type) (javaType type') := by
  intro s hs
  cases s with
  | nil =>
    refine .of_start (h [] hs) rfl fun t ht => ?_
    rw [ht.eq_nil]
    rfl
  | cons c s =>
    cases hBase : baseType? c with
    | some p =>
      refine .of_ok [c] (x := .primitive p) ?_ fun t _ => ?_ <;>
        simp only [List.singleton_append, javaType, hBase]
    | none =>
      refine .of_start (h (c :: s) hs) ?_ fun t ht => ?_
      · simp only [javaType, hBase]
      · obtain ⟨d, t', rfl, hLead⟩ := ht.exists_cons
        simp only [javaType, ← baseType?_congr hLead, hBase]

/-- What is read is changed after it is read. -/
theorem map_run (p : Parser α) (f : α → β) (s : List Char) :
    ((p s).map fun (x, u) => (f x, u)) = (p >>= fun x => pure (f x)) s := by
  cases hRun : p s with
  | error e => rw [bind_of_error hRun, Except.map]
  | ok r =>
    rw [bind_of_ok hRun, Except.map]
    rfl

/-- A type argument as a sequence of tests on its first character. -/
theorem argument_eq (type : Parser TypeRef) :
    argument type = get >>= fun s =>
      if starts '*' s then expect '*' >>= fun _ => pure (TypeRef.wildcard .unbounded none)
      else get >>= fun s =>
        if starts '+' s then
          expect '+' >>= fun _ => type >>= fun b => pure (TypeRef.wildcard .upper (some b))
        else get >>= fun s =>
          if starts '-' s then
            expect '-' >>= fun _ => type >>= fun b => pure (TypeRef.wildcard .lower (some b))
          else get >>= fun s => if s.isEmpty then stop .unterminatedArguments else type := by
  funext s
  rw [argument.eq_def, bind_of_ok (get_run s)]
  split
  · rfl
  · next rest =>
    rw [if_neg (by simp), bind_of_ok (get_run _), if_pos (by simp), bind_of_ok (expect_cons ..)]
    exact map_run type (fun b => TypeRef.wildcard .upper (some b)) rest
  · next rest =>
    rw [if_neg (by simp), bind_of_ok (get_run _), if_neg (by simp), bind_of_ok (get_run _),
      if_pos (by simp), bind_of_ok (expect_cons ..)]
    exact map_run type (fun b => TypeRef.wildcard .lower (some b)) rest
  · rfl
  · next hUnbounded hUpper hLower hEnd =>
    simp only [bind_of_ok (get_run s), starts_eq_false hUnbounded, starts_eq_false hUpper,
      starts_eq_false hLower, List.isEmpty_eq_false_iff.mpr hEnd, Bool.false_eq_true, if_false]

theorem argument_looksAhead (h : LooksAhead n m type type') :
    LooksAhead n m (argument type) (argument type') := by
  have hBound : ∀ (v : Variance) {c : Char}, c.toNat < 0x80 → LooksAhead n m
      (expect c >>= fun _ => type >>= fun b => pure (TypeRef.wildcard v (some b)))
      (expect c >>= fun _ => type' >>= fun b => pure (TypeRef.wildcard v (some b))) :=
    fun v _ hc => (LooksAhead.expect hc).bind fun _ => h.bind fun b => .pure _
  rw [argument_eq, argument_eq]
  refine .test (tells_starts (by decide)) ((LooksAhead.expect (by decide)).bind fun _ => .pure _) ?_
  refine .test (tells_starts (by decide)) (hBound .upper (by decide)) ?_
  refine .test (tells_starts (by decide)) (hBound .lower (by decide)) ?_
  exact .test tells_isEmpty (.stop _) h

theorem arguments_looksAhead (h : LooksAhead n m type type') (hItem : Consumes (argument type))
    (hItem' : Consumes (argument type')) :
    LooksAhead n m (arguments type) (arguments type') := by
  have hMore : Tells fun s => !starts '>' s := (tells_starts (by decide)).not
  refine .test (tells_starts (by decide)) ?_ (.pure [])
  refine (LooksAhead.expect (by decide)).bind fun _ => ?_
  refine ((argument_looksAhead h).repeatWhile hMore hItem hItem').bind fun items => ?_
  refine (LooksAhead.expect (by decide)).bind fun _ => ?_
  split
  · exact (LooksAhead.stop _).bind fun _ => .pure _
  · exact .pure _

theorem consumes_innerClass {k : ℕ} (h : ReadsTypes k type) : Consumes (innerClass type) :=
  consumes_of_sound (fun d => d.text_head.ne_nil) fun hs => innerClass_sound h hs

theorem innerClass_looksAhead (h : LooksAhead n m type type') (hItem : Consumes (argument type))
    (hItem' : Consumes (argument type')) :
    LooksAhead n m (innerClass type) (innerClass type') :=
  (LooksAhead.expect (by decide)).bind fun _ =>
    (LooksAhead.identifier (by simp)).bind fun _ =>
      (arguments_looksAhead h hItem hItem').bind fun _ => .pure _

/-- A class type takes a character before the types within it, which are nested less deeply. -/
theorem classType_looksAhead (h : LooksAhead n m type type') (hItem : Consumes (argument type))
    (hItem' : Consumes (argument type')) (hInner : Consumes (innerClass type))
    (hInner' : Consumes (innerClass type')) :
    LooksAhead (n + 1) (m + 1) (classType type) (classType type') := by
  refine .after (by decide) fun _ => ?_
  refine (LooksAhead.identifier (by simp)).bind fun _ => ?_
  refine (arguments_looksAhead h hItem hItem').bind fun _ => ?_
  refine ((innerClass_looksAhead h hItem hItem').repeatWhile (tells_starts (by decide)) hInner
    hInner').bind fun _ => ?_
  exact (LooksAhead.expect (by decide)).bind fun _ => .pure _

end Types

/-- A type as a sequence of tests on its first character. -/
theorem typeWithin_succ (depth : ℕ) :
    typeWithin (depth + 1) = get >>= fun s =>
      if starts 'L' s then classType (typeWithin depth)
      else get >>= fun s =>
        if starts 'T' s then variableType
        else get >>= fun s =>
          if starts '[' s then
            expect '[' >>= fun _ => javaType (typeWithin depth) >>= fun e => pure (TypeRef.array e)
          else fun s => .error ⟨.expectedType s.head?, s⟩ := by
  funext s
  rw [typeWithin.eq_def, bind_of_ok (get_run s)]
  dsimp only
  split
  · rfl
  · rfl
  · next rest =>
    rw [if_neg (by simp), bind_of_ok (get_run _), if_neg (by simp), bind_of_ok (get_run _),
      if_pos (by simp), bind_of_ok (expect_cons ..)]
    exact map_run (javaType (typeWithin depth)) TypeRef.array rest
  · next hClass hVariable hArray =>
    rw [if_neg (by simpa using hClass), bind_of_ok (get_run _), if_neg (by simpa using hVariable),
      bind_of_ok (get_run _), if_neg (by simpa using hArray), List.head?_cons]
  · rfl

theorem typeWithin_nil (depth : ℕ) :
    typeWithin depth [] = .error ⟨.expectedType none, []⟩ := by
  cases depth <;> rfl

/-- The parsers of reference types for two depths, on texts that are no longer than these. -/
theorem typeWithin_looksAhead (n : ℕ) :
    ∀ m, LooksAhead n m (typeWithin n) (typeWithin m) := by
  induction n with
  | zero =>
    intro m s hs
    obtain rfl := List.eq_nil_of_length_eq_zero (Nat.le_zero.mp hs)
    refine .of_error [] (typeWithin_nil 0) fun t ht => ⟨_, rfl, ?_⟩
    rw [ht.eq_nil, List.append_nil, typeWithin_nil]
  | succ n ih =>
    have hReads := fun k => typeWithin_reads k
    have hSucc : ∀ m, LooksAhead (n + 1) (m + 1) (typeWithin (n + 1)) (typeWithin (m + 1)) := by
      intro m
      rw [typeWithin_succ, typeWithin_succ]
      refine .test (tells_starts (by decide)) ?_ (.test (tells_starts (by decide)) ?_
        (.test (tells_starts (by decide)) ?_ ?_))
      · exact classType_looksAhead (ih m) (consumes_argument (hReads n))
          (consumes_argument (hReads m)) (consumes_innerClass (hReads n))
          (consumes_innerClass (hReads m))
      · exact variableType_looksAhead
      · exact .after (by decide) fun _ => (javaType_looksAhead (ih m)).bind fun _ => .pure _
      · exact .stopsHere .expectedType message_expectedType_congr
    intro m
    cases m with
    | succ m => exact hSucc m
    | zero =>
      -- only the empty text is short enough, and on it all depths are alike
      intro s hs
      obtain ⟨front, hFront, hSame⟩ := hSucc 0 s hs
      refine ⟨front, hFront, fun t ht hm => ?_⟩
      have hNil := List.eq_nil_of_length_eq_zero (Nat.le_zero.mp hm)
      rw [← hSame t ht (le_trans hm (Nat.zero_le _)), hNil, typeWithin_nil, typeWithin_nil]

/-- The parser of reference types looks one byte ahead, whatever follows. -/
theorem referenceType_looksAhead : LooksAhead n m referenceType referenceType := by
  intro s _
  obtain ⟨front, hFront, -⟩ := typeWithin_looksAhead s.length 0 s le_rfl
  refine ⟨front, hFront, fun t ht _ => ?_⟩
  obtain ⟨front', hFront', hSame⟩ :=
    typeWithin_looksAhead s.length (front ++ t).length s le_rfl
  obtain rfl := List.append_cancel_right (hFront.symm.trans hFront')
  exact hSame t ht le_rfl

theorem classReference_looksAhead :
    LooksAhead n m (classType referenceType) (classType referenceType) := by
  have hReads := referenceType_reads 0
  have hClass := classType_looksAhead (n := n) (m := m) referenceType_looksAhead
    (consumes_argument hReads) (consumes_argument hReads) (consumes_innerClass hReads)
    (consumes_innerClass hReads)
  exact hClass.mono (Nat.le_succ n) (Nat.le_succ m)

/-! ### Type parameters -/

theorem classBound_looksAhead : LooksAhead n m classBound classBound :=
  .test ((tells_starts (by decide)).or (tells_starts (by decide))) (.pure [])
    (referenceType_looksAhead.bind fun _ => .pure _)

theorem formal_looksAhead : LooksAhead n m formal formal := by
  have hOther : Consumes (do expect ':'; referenceType : Parser TypeRef) :=
    consumes_of_sound (fun _ => List.cons_ne_nil _ _) otherBound_sound
  refine (LooksAhead.identifier (by simp)).bind fun _ => ?_
  refine (LooksAhead.expect (by decide)).bind fun _ => classBound_looksAhead.bind fun _ => ?_
  refine (((LooksAhead.expect (by decide)).bind fun _ => referenceType_looksAhead).repeatWhile
    (tells_starts (by decide)) hOther hOther).bind fun _ => ?_
  exact .test tells_isEmpty ((LooksAhead.stop _).bind fun _ => .pure _) (.pure _)

theorem formals_looksAhead : LooksAhead n m formals formals := by
  have hMore : Tells fun s => !starts '>' s := (tells_starts (by decide)).not
  refine .test (tells_starts (by decide)) ?_ (.pure [])
  refine (LooksAhead.expect (by decide)).bind fun _ => ?_
  refine (formal_looksAhead.repeatWhile hMore consumes_formal consumes_formal).bind fun _ => ?_
  refine (LooksAhead.expect (by decide)).bind fun _ => ?_
  split
  · exact (LooksAhead.stop _).bind fun _ => .pure _
  · exact .pure _

/-! ### Whole signatures -/

theorem finish_looksAhead : LooksAhead n m finish finish :=
  .test tells_isEmpty.not (.stop _) (.pure _)

theorem field_looksAhead :
    LooksAhead n m (do let type ← referenceType; finish; return type)
      (do let type ← referenceType; finish; return type) :=
  referenceType_looksAhead.bind fun _ => finish_looksAhead.bind fun _ => .pure _

/-- Signatures of classes look ahead one byte. -/
theorem class_looksAhead : LooksAhead n m ClassSignature.parser ClassSignature.parser := by
  have hClass : Consumes (classType referenceType) :=
    consumes_of_sound (fun d : ClassTree => d.text_head.ne_nil) classReference_sound
  refine formals_looksAhead.bind fun _ => classReference_looksAhead.bind fun _ => ?_
  exact (classReference_looksAhead.repeatWhile tells_isEmpty.not hClass hClass).bind
    fun _ => .pure _

theorem thrownType_looksAhead : LooksAhead n m thrownType thrownType :=
  (LooksAhead.expect (by decide)).bind fun _ =>
    .test (tells_starts (by decide)) variableType_looksAhead classReference_looksAhead

theorem resultType_looksAhead :
    LooksAhead n m MethodSignature.resultType MethodSignature.resultType :=
  .test (tells_starts (by decide)) ((LooksAhead.expect (by decide)).bind fun _ => .pure _)
    (javaType_looksAhead referenceType_looksAhead)

/-- Signatures of methods look ahead one byte. -/
theorem method_looksAhead : LooksAhead n m MethodSignature.parser MethodSignature.parser := by
  have hParameter : Consumes (javaType referenceType) :=
    consumes_of_sound (fun d : JavaTree => d.text_head.ne_nil) parameterType_sound
  have hThrown : Consumes thrownType :=
    consumes_of_sound (fun d : ThrownTree => by simp [ThrownTree.text]) thrownType_sound
  have hMore : Tells fun s => !starts ')' s := (tells_starts (by decide)).not
  refine formals_looksAhead.bind fun _ => (LooksAhead.expect (by decide)).bind fun _ => ?_
  refine ((javaType_looksAhead referenceType_looksAhead).repeatWhile hMore hParameter
    hParameter).bind fun _ => ?_
  refine (LooksAhead.expect (by decide)).bind fun _ => resultType_looksAhead.bind fun _ => ?_
  refine (thrownType_looksAhead.repeatWhile (tells_starts (by decide)) hThrown hThrown).bind
    fun _ => ?_
  exact finish_looksAhead.bind fun _ => .pure _

end Signature

end ClassSketch
