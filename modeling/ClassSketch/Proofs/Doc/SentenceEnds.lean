import ClassSketch.Doc.Sentence
import ClassSketch.Proofs.Text.Utf8
import ClassSketch.Proofs.Text.Words
import Mathlib.Order.Bounds.Basic

/-!
# Where a sentence ends

The first sentence of a text is looked for in a copy in which template placeholders are hidden
behind underscores, and then cut from the text itself. The cut does not split a character or a
placeholder, and in a copy in which every hidden character is as long as in the text it is the
first place where a sentence can end.

The copy of `Sentence.mask` has one underscore for each character. The place is told in bytes, so
it has to be compared with that in the copy with one underscore for each byte. All that the search
does is to look for characters other than underscores, which both copies have in common.

## Main definitions

* `Sentence.IsPlaceholder` — template placeholders
* `Sentence.maskBytes` — the copy with one underscore for each byte
* `Sentence.EndsBetween`, `Sentence.EndsAt` — where a sentence can end
* `Sentence.Cut` — cuts after the first sentence

## Main results

* `Sentence.maskBytes_append`, `Sentence.maskBytes_cons` — what is hidden, and what is not
* `Sentence.length_spec` — the place that the search finds is the first one
* `Sentence.first_cut` — the first sentence is cut off there
-/

namespace ClassSketch

namespace Sentence

open Text

/-! ### Definitions -/

/-- A template placeholder: braces around at least one character, none of which closes them. -/
def IsPlaceholder (p : List Char) : Prop :=
  ∃ inner, inner ≠ [] ∧ '\x7d' ∉ inner ∧ p = '\x7b' :: '\x7b' :: (inner ++ ['\x7d', '\x7d'])

/-- The text with an underscore for each byte of the next `n` characters and of a placeholder after
them. -/
def maskBytesFrom : ℕ → List Char → List Char
  | _, [] => []
  | n + 1, c :: s => List.replicate c.utf8Size '_' ++ maskBytesFrom n s
  | 0, c :: s =>
    match placeholderLength? (c :: s) with
    | some n => List.replicate c.utf8Size '_' ++ maskBytesFrom (n - 1) s
    | none => c :: maskBytesFrom 0 s

/-- The text with an underscore for each byte of a template placeholder. -/
def maskBytes (s : List Char) : List Char := maskBytesFrom 0 s

/-- What may follow a sentence with the given terminator: nothing, blanks only, or blanks and a
character that is not in lower case, which does not matter unless the terminator is a full stop. -/
def MayFollow (terminator : Char) (rest : List Char) : Prop :=
  rest = [] ∨ ∃ blanks after, rest = blanks ++ after ∧ blanks ≠ [] ∧
    (∀ c ∈ blanks, isBlank c = true) ∧
    ∀ c ∈ after.head?, isBlank c = false ∧ (terminator = '.' → isLowercase c = false)

/-- A sentence can end between two texts: the first one ends with a terminator and closing brackets
and quotes, of which there are no more in the second one, and this may follow. -/
def EndsBetween (front rest : List Char) : Prop :=
  ∃ before terminator closers, front = before ++ terminator :: closers ∧
    isTerminator terminator = true ∧ (∀ c ∈ closers, isCloser c = true) ∧
    (∀ c ∈ rest.head?, isCloser c = false) ∧ MayFollow terminator rest

/-- A sentence can end after the first `n` bytes of a text. -/
def EndsAt (s : List Char) (n : ℕ) : Prop :=
  ∃ front rest, s = front ++ rest ∧ utf8Length front = n ∧ EndsBetween front rest

/-- The first `n` bytes of a text are its first sentence. -/
structure Cut (s : List Char) (n : ℕ) : Prop where
  /-- There are as many bytes. -/
  le_length : n ≤ utf8Length s
  /-- No character is split. -/
  boundary : ∃ front rest, s = front ++ rest ∧ utf8Length front = n
  /-- No placeholder is split. -/
  outside : ∀ {before p after : List Char}, IsPlaceholder p → s = before ++ p ++ after →
    n ≤ utf8Length before ∨ utf8Length (before ++ p) ≤ n
  /-- With placeholders hidden, the sentence ends there and not before, or does not end. -/
  first : IsLeast {k | EndsAt (maskBytes s) k} n ∨
    (∀ k, ¬EndsAt (maskBytes s) k) ∧ n = utf8Length s

/-! ### The end of a sentence -/

theorem endsBefore_cons {t c : Char} {s : List Char} :
    endsBefore t (c :: s) = true ↔ isBlank c = true ∧
      ∀ d ∈ (trimStart (c :: s)).head?, t = '.' → isLowercase d = false := by
  rw [endsBefore, Bool.and_eq_true_iff]
  refine and_congr_right fun _ => ?_
  cases trimStart (c :: s) <;> simp [← imp_iff_not_or]

theorem endsBefore_eq_true {t : Char} {s : List Char} :
    endsBefore t s = true ↔ MayFollow t s := by
  cases s with
  | nil => simp [endsBefore, MayFollow]
  | cons c s =>
    rw [endsBefore_cons]
    constructor
    · rintro ⟨hc, hLower⟩
      refine .inr ⟨(c :: s).takeWhile isBlank, trimStart (c :: s), ?_, ?_, ?_, fun d hd => ?_⟩
      · exact List.takeWhile_append_dropWhile.symm
      · rw [List.takeWhile_cons_of_pos hc]
        exact List.cons_ne_nil _ _
      · exact fun d hd => List.mem_takeWhile_imp hd
      · exact ⟨head?_dropWhile isBlank (c :: s) d hd, hLower d hd⟩
    · rintro (h | ⟨blanks, after, h, hne, hBlanks, hHead⟩)
      · cases h
      obtain ⟨d, blanks, rfl⟩ := List.exists_cons_of_ne_nil hne
      obtain ⟨rfl, -⟩ := List.cons.inj h
      refine ⟨hBlanks c List.mem_cons_self, ?_⟩
      rw [h, trimStart, (split_of_run _ hBlanks fun d hd => (hHead d hd).1).2]
      exact fun d hd => (hHead d hd).2

theorem not_isCloser_of_isTerminator {c : Char} (h : isTerminator c = true) :
    isCloser c = false := by
  simp only [isTerminator, Bool.or_eq_true, beq_iff_eq] at h
  rcases h with (rfl | rfl) | rfl <;> decide

/-- A sentence ends in the rest of a text, or with the first character and closers after it. -/
theorem endsBetween_cons {c : Char} {front rest : List Char} :
    EndsBetween (c :: front) rest ↔
      (isTerminator c = true ∧ endsBefore c ((front ++ rest).dropWhile isCloser) = true ∧
        front = (front ++ rest).takeWhile isCloser) ∨ EndsBetween front rest := by
  constructor
  · rintro ⟨before, t, closers, h, ht, hClosers, hRest, hFollow⟩
    cases before with
    | nil =>
      obtain ⟨rfl, rfl⟩ := List.cons.inj h
      obtain ⟨hTake, hDrop⟩ := split_of_run _ hClosers hRest
      exact .inl ⟨ht, by rwa [hDrop, endsBefore_eq_true], hTake.symm⟩
    | cons d before =>
      obtain ⟨rfl, rfl⟩ := List.cons.inj h
      exact .inr ⟨before, t, closers, rfl, ht, hClosers, hRest, hFollow⟩
  · rintro (⟨ht, hEnds, hFront⟩ | ⟨before, t, closers, rfl, h⟩)
    · have hRest : rest = (front ++ rest).dropWhile isCloser := by
        have hSplit := List.takeWhile_append_dropWhile (p := isCloser) (l := front ++ rest)
        rw [← hFront] at hSplit
        exact (List.append_cancel_left hSplit).symm
      refine ⟨[], c, front, rfl, ht, ?_, ?_, ?_⟩
      · rw [hFront]
        exact fun d hd => List.mem_takeWhile_imp hd
      · rw [hRest]
        exact head?_dropWhile isCloser _
      · rw [hRest, ← endsBefore_eq_true]
        exact hEnds
    · exact ⟨c :: before, t, closers, rfl, h⟩

theorem not_endsBetween_nil {rest : List Char} : ¬EndsBetween [] rest := by
  rintro ⟨before, t, closers, h, -⟩
  simp at h

theorem length_takeWhile_append_le {q : Char → Bool} {t : Char} (ht : q t = false)
    (before rest : List Char) :
    ((before ++ t :: rest).takeWhile q).length ≤ before.length := by
  induction before with
  | nil => rw [List.nil_append, List.takeWhile_cons_of_neg (by simp [ht])]
  | cons c before ih =>
    rw [List.cons_append, List.takeWhile_cons]
    split
    · exact Nat.succ_le_succ ih
    · exact Nat.zero_le _

/-- A place where a sentence ends is not before the closers at the start. -/
theorem length_takeWhile_le {front rest : List Char} (h : EndsBetween front rest) :
    ((front ++ rest).takeWhile isCloser).length ≤ front.length := by
  obtain ⟨before, t, closers, rfl, ht, -⟩ := h
  rw [List.append_assoc, List.cons_append]
  refine le_trans (length_takeWhile_append_le (not_isCloser_of_isTerminator ht) _ _) ?_
  rw [List.length_append]
  exact Nat.le_add_right ..

/-- A sentence that ends in a text takes the first character of it. -/
theorem EndsBetween.exists_cons {c : Char} {front rest s : List Char}
    (h : EndsBetween front rest) (hEq : c :: s = front ++ rest) :
    ∃ others, front = c :: others ∧ s = others ++ rest := by
  cases front with
  | nil => exact absurd h not_endsBetween_nil
  | cons d others =>
    obtain ⟨rfl, hRest⟩ : c = d ∧ s = others ++ rest := List.cons.inj hEq
    exact ⟨others, rfl, hRest⟩

/-- The search finds the first place where a sentence ends, or else the end of the text. -/
theorem length_spec (s : List Char) :
    (∃ front rest, s = front ++ rest ∧ length s = front.length ∧ EndsBetween front rest ∧
      ∀ front' rest', s = front' ++ rest' → EndsBetween front' rest' →
        front.length ≤ front'.length) ∨
    length s = s.length ∧ ∀ front rest, s = front ++ rest → ¬EndsBetween front rest := by
  induction s with
  | nil =>
    refine .inr ⟨rfl, fun front rest h => ?_⟩
    obtain ⟨rfl, rfl⟩ := List.append_eq_nil_iff.mp h.symm
    exact not_endsBetween_nil
  | cons c s ih =>
    rw [length]
    split
    · next h =>
      obtain ⟨ht, hEnds⟩ := Bool.and_eq_true_iff.mp h
      have hSplit := List.takeWhile_append_dropWhile (p := isCloser) (l := s)
      refine .inl ⟨c :: s.takeWhile isCloser, s.dropWhile isCloser, ?_, rfl, ?_, ?_⟩
      · rw [List.cons_append, hSplit]
      · exact endsBetween_cons.mpr (.inl ⟨ht, by rwa [hSplit], by rw [hSplit]⟩)
      · intro front' rest' hEq hOther
        obtain ⟨others, rfl, rfl⟩ := hOther.exists_cons hEq
        refine Nat.succ_le_succ ?_
        rcases endsBetween_cons.mp hOther with ⟨-, -, hFront⟩ | hOther
        · rw [← hFront]
        · exact length_takeWhile_le hOther
    · next h =>
      -- a sentence that ends in `c :: s` ends in `s`
      have hTail : ∀ {front rest}, s = front ++ rest → EndsBetween (c :: front) rest →
          EndsBetween front rest := by
        rintro front rest rfl hHere
        rcases endsBetween_cons.mp hHere with ⟨ht, hEnds, -⟩ | hHere
        · exact absurd (Bool.and_eq_true_iff.mpr ⟨ht, hEnds⟩) h
        · exact hHere
      rcases ih with ⟨front, rest, hEq, hLength, hHere, hLeast⟩ | ⟨hLength, hNone⟩
      · refine .inl ⟨c :: front, rest, by rw [hEq, List.cons_append], by rw [hLength]; rfl,
          endsBetween_cons.mpr (.inr hHere), fun front' rest' hEq' hOther => ?_⟩
        obtain ⟨others, rfl, hRest⟩ := hOther.exists_cons hEq'
        exact Nat.succ_le_succ (hLeast others rest' hRest (hTail hRest hOther))
      · refine .inr ⟨by rw [hLength]; rfl, fun front rest hEq hHere => ?_⟩
        obtain ⟨others, rfl, hRest⟩ := hHere.exists_cons hEq
        exact hNone others rest hRest (hTail hRest hHere)

/-! ### Two copies of a text -/

/-- A text and two copies, in which some characters are hidden behind one underscore, or behind one
for each byte. -/
inductive Copies : List Char → List Char → List Char → Prop
  | nil : Copies [] [] []
  | hidden {s m w : List Char} (c : Char) (h : Copies s m w) :
      Copies (c :: s) ('_' :: m) (List.replicate c.utf8Size '_' ++ w)
  | shown {s m w : List Char} (c : Char) (h : Copies s m w) : Copies (c :: s) (c :: m) (c :: w)

theorem copies_from (s : List Char) (n : ℕ) : Copies s (maskFrom n s) (maskBytesFrom n s) := by
  induction s generalizing n with
  | nil => cases n <;> exact .nil
  | cons c s ih =>
    cases n with
    | succ n => exact .hidden c (ih n)
    | zero =>
      rw [maskFrom, maskBytesFrom]
      cases placeholderLength? (c :: s) with
      | some n => exact .hidden c (ih (n - 1))
      | none => exact .shown c (ih 0)

theorem exists_replicate_utf8Size (c : Char) (s : List Char) :
    ∃ t, List.replicate c.utf8Size '_' ++ s = '_' :: t := by
  obtain ⟨n, hn⟩ := Nat.exists_eq_succ_of_ne_zero c.utf8Size_pos.ne'
  rw [hn, List.replicate_succ, List.cons_append]
  exact ⟨_, rfl⟩

theorem utf8Length_replicate (n : ℕ) : utf8Length (List.replicate n '_') = n := by
  rw [← length_encodeUtf8, encodeUtf8]
  induction n with
  | zero => rfl
  | succ n ih =>
    rw [List.replicate_succ, List.flatMap_cons, List.length_append, ih, Nat.add_comm]
    rfl

namespace Copies

variable {s m w : List Char} {q : Char → Bool}

theorem utf8Length_eq (h : Copies s m w) : utf8Length w = utf8Length s := by
  induction h with
  | nil => rfl
  | hidden c _ ih => rw [utf8Length_append, utf8Length_replicate, ih, utf8Length]
  | shown c _ ih => rw [utf8Length, utf8Length, ih]

theorem head?_eq (h : Copies s m w) : m.head? = w.head? := by
  cases h with
  | nil => rfl
  | @hidden _ _ w c h =>
    obtain ⟨t, ht⟩ := exists_replicate_utf8Size c w
    rw [ht, List.head?_cons, List.head?_cons]
  | shown c h => rfl

/-- A run of characters none of which is an underscore is the same in the text and the copies. -/
theorem takeWhile_eq (h : Copies s m w) (hq : q '_' = false) :
    m.takeWhile q = w.takeWhile q ∧ s.take (m.takeWhile q).length = m.takeWhile q := by
  induction h with
  | nil => exact ⟨rfl, rfl⟩
  | @hidden _ m w c h ih =>
    obtain ⟨t, ht⟩ := exists_replicate_utf8Size c w
    have hStop : ¬q '_' = true := by simp [hq]
    rw [ht, List.takeWhile_cons_of_neg hStop, List.takeWhile_cons_of_neg hStop]
    exact ⟨rfl, rfl⟩
  | shown c h ih =>
    rw [List.takeWhile_cons, List.takeWhile_cons]
    split
    · exact ⟨congrArg (c :: ·) ih.1, congrArg (c :: ·) ih.2⟩
    · exact ⟨rfl, rfl⟩

theorem dropWhile (h : Copies s m w) (hq : q '_' = false) :
    ∃ t, Copies t (m.dropWhile q) (w.dropWhile q) := by
  induction h with
  | nil => exact ⟨[], .nil⟩
  | @hidden _ m w c h ih =>
    obtain ⟨t, ht⟩ := exists_replicate_utf8Size c w
    have hStop : ¬q '_' = true := by simp [hq]
    have hCopies := hidden c h
    rw [ht] at hCopies ⊢
    rw [List.dropWhile_cons_of_neg hStop, List.dropWhile_cons_of_neg hStop]
    exact ⟨_, hCopies⟩
  | shown c h ih =>
    rw [List.dropWhile_cons, List.dropWhile_cons]
    split
    · exact ih
    · exact ⟨_, .shown c h⟩

theorem endsBefore_eq (h : Copies s m w) (t : Char) : endsBefore t m = endsBefore t w := by
  have hUnderscore : ∀ u, endsBefore t ('_' :: u) = false := fun u => by
    rw [endsBefore, show isBlank '_' = false by decide, Bool.false_and]
  have hTrim : (trimStart m).head? = (trimStart w).head? := by
    obtain ⟨_, hRest⟩ := h.dropWhile (by decide : isBlank '_' = false)
    exact hRest.head?_eq
  cases h with
  | nil => rfl
  | @hidden _ m w c h =>
    obtain ⟨u, hu⟩ := exists_replicate_utf8Size c w
    rw [hu, hUnderscore, hUnderscore]
  | shown c h => rw [Bool.eq_iff_iff, endsBefore_cons, endsBefore_cons, hTrim]

/-- The search in either copy finds the same place of the text. -/
theorem utf8Length_take (h : Copies s m w) :
    utf8Length (s.take (length m)) = utf8Length (w.take (length w)) := by
  have hUnderscores : ∀ (n : ℕ) (u : List Char),
      length (List.replicate n '_' ++ u) = n + length u := by
    intro n u
    induction n with
    | zero => simp
    | succ n ih =>
      rw [List.replicate_succ, List.cons_append, length, if_neg (by simp [isTerminator]), ih]
      omega
  induction h with
  | nil => rfl
  | @hidden s m w c h ih =>
    have hFirst : length ('_' :: m) = length m + 1 :=
      (hUnderscores 1 m).trans (Nat.add_comm ..)
    have hTake : (List.replicate c.utf8Size '_' ++ w).take
        ((List.replicate c.utf8Size '_').length + length w) =
          List.replicate c.utf8Size '_' ++ w.take (length w) :=
      List.take_length_add_append _
    rw [List.length_replicate] at hTake
    rw [hFirst, hUnderscores, hTake, List.take_succ_cons, utf8Length, ih, utf8Length_append,
      utf8Length_replicate]
  | @shown s m w c h ih =>
    obtain ⟨_, hRest⟩ := h.dropWhile (by decide : isCloser '_' = false)
    obtain ⟨hClosers, hTake⟩ := h.takeWhile_eq (by decide : isCloser '_' = false)
    rw [length, length, hRest.endsBefore_eq c]
    split
    · have hTake' := List.prefix_iff_eq_take.mp (List.takeWhile_prefix isCloser (l := w))
      rw [List.take_succ_cons, List.take_succ_cons, utf8Length, utf8Length, hTake, ← hTake',
        hClosers]
    · rw [List.take_succ_cons, List.take_succ_cons, utf8Length, utf8Length, ih]

end Copies

/-! ### Placeholders -/

theorem placeholderLength?_append {p : List Char} (hp : IsPlaceholder p) (s : List Char) :
    placeholderLength? (p ++ s) = some p.length := by
  obtain ⟨inner, hne, hFree, rfl⟩ := hp
  obtain ⟨c, inner, rfl⟩ := List.exists_cons_of_ne_nil hne
  have hRun : ∀ d ∈ c :: inner, (d != '\x7d') = true := by
    intro d hd
    rw [bne_iff_ne]
    rintro rfl
    exact hFree hd
  obtain ⟨hTake, hDrop⟩ := split_of_run ('\x7d' :: '\x7d' :: s) hRun (by simp)
  have hText : ('\x7b' :: '\x7b' :: (c :: inner ++ ['\x7d', '\x7d'])) ++ s =
      '\x7b' :: '\x7b' :: (c :: inner ++ '\x7d' :: '\x7d' :: s) := by simp
  rw [hText, placeholderLength?, hTake, hDrop]
  simp

theorem exists_of_placeholderLength? {s : List Char} {n : ℕ} (h : placeholderLength? s = some n) :
    ∃ p t, IsPlaceholder p ∧ s = p ++ t ∧ p.length = n := by
  rw [placeholderLength?.eq_def] at h
  split at h
  · next s =>
    dsimp only at h
    split at h
    · next c inner t hTake hDrop =>
      have hSplit := List.takeWhile_append_dropWhile (p := (· != '\x7d')) (l := s)
      have hFree : '\x7d' ∉ s.takeWhile (· != '\x7d') := fun hMem =>
        absurd (List.mem_takeWhile_imp hMem) (by decide)
      rw [hTake, hDrop] at hSplit
      rw [hTake] at h hFree
      refine ⟨_, t, ⟨c :: inner, List.cons_ne_nil _ _, hFree, rfl⟩, ?_, ?_⟩
      · rw [← hSplit]
        simp
      · simpa using h
    · cases h
  · cases h

/-- Where the first closing brace of a text is. -/
theorem eq_of_append_brace {a a' b b' : List Char} (ha : '\x7d' ∉ a) (ha' : '\x7d' ∉ a')
    (h : a ++ '\x7d' :: b = a' ++ '\x7d' :: b') : a = a' ∧ b = b' := by
  have hRun : ∀ {x : List Char}, '\x7d' ∉ x → ∀ c ∈ x, (c != '\x7d') = true := by
    intro x hx c hc
    rw [bne_iff_ne]
    rintro rfl
    exact hx hc
  have hLeft := split_of_run ('\x7d' :: b) (hRun ha) (by simp)
  have hRight := split_of_run ('\x7d' :: b') (hRun ha') (by simp)
  rw [h] at hLeft
  exact ⟨hLeft.1.symm.trans hRight.1, (List.cons.inj (hLeft.2.symm.trans hRight.2)).2⟩

/-- Two placeholders in a text are apart, or end together. -/
theorem IsPlaceholder.overlap {p q before after rest : List Char} (hp : IsPlaceholder p)
    (hq : IsPlaceholder q) (h : q ++ rest = before ++ p ++ after) :
    q.length ≤ before.length ∨ q.length = before.length + p.length := by
  obtain ⟨i, -, hi, rfl⟩ := hp
  obtain ⟨j, -, hj, rfl⟩ := hq
  have hq' : '\x7d' ∉ '\x7b' :: '\x7b' :: j := by simpa using hj
  by_cases hBefore : '\x7d' ∈ before
  · -- the brace that closes `q` is in `before`, and so is the next one
    left
    obtain ⟨a, b, rfl, ha⟩ := List.eq_append_cons_of_mem hBefore
    have hBraces : ('\x7b' :: '\x7b' :: j) ++ '\x7d' :: '\x7d' :: rest =
        a ++ '\x7d' :: (b ++ ('\x7b' :: '\x7b' :: (i ++ '\x7d' :: '\x7d' :: after))) := by
      simpa using h
    obtain ⟨rfl, hRest⟩ := eq_of_append_brace hq' ha hBraces
    cases b with
    | nil => simp at hRest
    | cons d b =>
      simp only [List.length_cons, List.length_append, List.length_nil]
      omega
  · right
    have hp' : '\x7d' ∉ before ++ '\x7b' :: '\x7b' :: i := by simpa using ⟨hBefore, hi⟩
    have hBraces : ('\x7b' :: '\x7b' :: j) ++ '\x7d' :: '\x7d' :: rest =
        (before ++ '\x7b' :: '\x7b' :: i) ++ '\x7d' :: '\x7d' :: after := by
      simpa using h
    have hLength := congrArg List.length (eq_of_append_brace hq' hp' hBraces).1
    simp only [List.length_cons, List.length_append] at hLength ⊢
    simp only [List.length_nil]
    omega

theorem maskFrom_length (s t : List Char) :
    maskFrom s.length (s ++ t) = List.replicate s.length '_' ++ mask t := by
  induction s with
  | nil => rfl
  | cons c s ih =>
    rw [List.length_cons, List.cons_append, maskFrom, ih, List.replicate_succ, List.cons_append]

/-- A placeholder is hidden wherever it is, unless only a part of it is to be hidden before. -/
theorem exists_maskFrom {p : List Char} (hp : IsPlaceholder p) (after before : List Char) (n : ℕ)
    (hn : n ≤ before.length ∨ n = before.length + p.length) :
    ∃ u v, u.length = before.length ∧
      maskFrom n (before ++ p ++ after) = u ++ List.replicate p.length '_' ++ v := by
  induction before generalizing n with
  | nil =>
    have hHere : maskFrom p.length (p ++ after) = maskFrom 0 (p ++ after) := by
      have hLength := placeholderLength?_append hp after
      obtain ⟨inner, -, -, rfl⟩ := hp
      rw [List.cons_append] at hLength ⊢
      rw [List.length_cons, maskFrom, maskFrom, hLength]
      rfl
    refine ⟨[], mask after, rfl, ?_⟩
    rw [List.nil_append, List.nil_append, ← maskFrom_length]
    rcases hn with hn | hn
    · rw [Nat.le_zero.mp hn, hHere]
    · rw [hn, List.length_nil, Nat.zero_add]
  | cons c before ih =>
    cases n with
    | succ n =>
      obtain ⟨u, v, hu, hMask⟩ := ih n (by simp only [List.length_cons] at hn; omega)
      exact ⟨'_' :: u, v, congrArg Nat.succ hu, congrArg ('_' :: ·) hMask⟩
    | zero =>
      cases hHead : placeholderLength? (c :: before ++ p ++ after) with
      | none =>
        obtain ⟨u, v, hu, hMask⟩ := ih 0 (.inl (Nat.zero_le _))
        refine ⟨c :: u, v, congrArg Nat.succ hu, ?_⟩
        rw [List.cons_append, List.cons_append] at hHead ⊢
        rw [maskFrom, hHead, hMask]
        rfl
      | some k =>
        obtain ⟨q, rest, hq, hEq, rfl⟩ := exists_of_placeholderLength? hHead
        have hOverlap := hp.overlap hq hEq.symm
        obtain ⟨u, v, hu, hMask⟩ := ih (q.length - 1) (by
          simp only [List.length_cons] at hOverlap
          omega)
        refine ⟨'_' :: u, v, congrArg Nat.succ hu, ?_⟩
        rw [List.cons_append, List.cons_append] at hHead ⊢
        rw [maskFrom, hHead]
        exact congrArg ('_' :: ·) hMask

/-- A character is not hidden if it starts no placeholder, and is in none before. -/
theorem maskBytes_cons {c : Char} {s : List Char}
    (h : ∀ p t, IsPlaceholder p → c :: s ≠ p ++ t) : maskBytes (c :: s) = c :: maskBytes s := by
  rw [maskBytes, maskBytesFrom]
  cases hHead : placeholderLength? (c :: s) with
  | none => rfl
  | some n =>
    obtain ⟨p, t, hp, hEq, -⟩ := exists_of_placeholderLength? hHead
    exact absurd hEq (h p t hp)

theorem maskBytesFrom_length (s t : List Char) :
    maskBytesFrom s.length (s ++ t) = List.replicate (utf8Length s) '_' ++ maskBytes t := by
  induction s with
  | nil => rfl
  | cons c s ih =>
    rw [List.length_cons, List.cons_append, maskBytesFrom, ih, utf8Length, List.replicate_add,
      List.append_assoc]

theorem maskBytes_append {p : List Char} (hp : IsPlaceholder p) (s : List Char) :
    maskBytes (p ++ s) = List.replicate (utf8Length p) '_' ++ maskBytes s := by
  rw [← maskBytesFrom_length, maskBytes]
  have hLength := placeholderLength?_append hp s
  obtain ⟨inner, -, -, rfl⟩ := hp
  rw [List.cons_append] at hLength ⊢
  rw [List.length_cons, maskBytesFrom, maskBytesFrom, hLength]
  rfl

/-! ### The first sentence -/

theorem getLast?_of_endsBetween {front rest : List Char} (h : EndsBetween front rest) :
    ∀ c ∈ front.getLast?, isTerminator c = true ∨ isCloser c = true := by
  obtain ⟨before, t, closers, rfl, ht, hClosers, -⟩ := h
  intro c hc
  rw [List.getLast?_append_of_ne_nil _ (List.cons_ne_nil _ _)] at hc
  rcases List.mem_cons.mp (List.mem_of_mem_getLast? hc) with rfl | hc
  · exact .inl ht
  · exact .inr (hClosers c hc)

/-- No sentence ends within a run of underscores. -/
theorem length_outside (u v : List Char) (n : ℕ) :
    length (u ++ List.replicate n '_' ++ v) ≤ u.length ∨
      u.length + n ≤ length (u ++ List.replicate n '_' ++ v) := by
  rcases length_spec (u ++ List.replicate n '_' ++ v) with
    ⟨front, rest, hEq, hLength, hEnds, -⟩ | ⟨hLength, -⟩
  · rw [hLength]
    by_contra! hWithin
    have hInside : (front ++ rest)[front.length - 1]? = front[front.length - 1]? :=
      List.getElem?_append_left (by omega)
    have hLast : front.getLast? = some '_' := by
      rw [List.getLast?_eq_getElem?, ← hInside, ← hEq,
        List.append_assoc, List.getElem?_append_right (by omega),
        List.getElem?_append_left (by rw [List.length_replicate]; omega),
        List.getElem?_replicate_of_lt (by omega)]
    rcases getLast?_of_endsBetween hEnds '_' hLast with h | h <;> cases h
  · right
    rw [hLength, List.length_append, List.length_append, List.length_replicate]
    exact Nat.le_add_right ..

/-- The first sentence of a text is cut off at the first place where a sentence can end. -/
theorem first_cut (s : List Char) : Cut s (utf8Length (first s)) := by
  have hCopies : Copies s (mask s) (maskBytes s) := copies_from s 0
  have hPrefix : first s <+: s := List.take_prefix _ _
  refine ⟨utf8Length_le_of_isPrefix hPrefix, ?_, ?_, ?_⟩
  · obtain ⟨rest, hRest⟩ := hPrefix
    exact ⟨first s, rest, hRest.symm, rfl⟩
  · intro before p after hp hEq
    obtain ⟨u, v, hu, hMask⟩ := exists_maskFrom hp after before 0 (.inl (Nat.zero_le _))
    rw [← hEq] at hMask
    have hFront : before ++ p <+: s := ⟨after, hEq.symm⟩
    have hOutside := length_outside u v p.length
    rw [← hMask, hu] at hOutside
    rcases hOutside with hOutside | hOutside
    · refine .inl (utf8Length_le_of_isPrefix (List.prefix_of_prefix_length_le hPrefix
        ((List.prefix_append before p).trans hFront) ?_))
      exact le_trans (List.length_take_le _ _) hOutside
    · refine .inr (utf8Length_le_of_isPrefix (List.prefix_of_prefix_length_le hFront hPrefix ?_))
      rw [first, List.length_take]
      exact le_min (by rwa [List.length_append]) hFront.length_le
  · rw [first, hCopies.utf8Length_take]
    rcases length_spec (maskBytes s) with
      ⟨front, rest, hEq, hLength, hEnds, hLeast⟩ | ⟨hLength, hNone⟩
    · have hTake : (maskBytes s).take (length (maskBytes s)) = front := by
        rw [hLength, hEq, List.take_left]
      refine .inl ⟨⟨front, rest, hEq, by rw [hTake], hEnds⟩, ?_⟩
      rintro k ⟨front', rest', hEq', rfl, hEnds'⟩
      rw [hTake]
      refine utf8Length_le_of_isPrefix
        (List.prefix_of_prefix_length_le ⟨rest, hEq.symm⟩ ⟨rest', hEq'.symm⟩ ?_)
      exact hLeast front' rest' hEq' hEnds'
    · refine .inr ⟨?_, ?_⟩
      · rintro k ⟨front, rest, hEq, -, hEnds⟩
        exact hNone front rest hEq hEnds
      · rw [hLength, List.take_length, hCopies.utf8Length_eq]

end Sentence

end ClassSketch
