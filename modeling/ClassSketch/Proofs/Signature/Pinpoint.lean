import ClassSketch.Proofs.Signature.Completion

/-!
# Where signatures go wrong

An error of a signature points at the first byte that cannot be there. What comes before is fine,
and what comes after does not matter: any text with the same bytes up to and including this one has
the same error. If the position is the end of the text, something is missing there, and the text
can be continued to a signature. Only the errors about empty lists are different in that, since they
are found behind the bracket that closes the list.

## Main definitions

* `Pinpoints` — readers of signatures whose errors are such

## Main results

* `pinpoints_run` — a parser that looks one byte ahead, and whose unfinished texts can be completed
* `signatures_pinpoint` — the readers of the three forms of signatures
-/

namespace ClassSketch

namespace Signature

open Text

variable {α δ : Type}

/-- A text that has the bytes of another one up to the first byte after a place between two
characters has the same characters before this place, and starts the same after it. -/
theorem exists_of_take_encodeUtf8 {s front u : List Char}
    (h : (encodeUtf8 s).take (utf8Length front + 1) =
      (encodeUtf8 (front ++ u)).take (utf8Length front + 1)) :
    ∃ t, s = front ++ t ∧ SameStart u t := by
  have hSplit : ∀ v, encodeUtf8 (front ++ v) = encodeUtf8 front ++ encodeUtf8 v :=
    fun v => List.flatMap_append
  have hTake : ∀ bytes, (encodeUtf8 front ++ bytes).take (utf8Length front + 1) =
      encodeUtf8 front ++ bytes.take 1 := by
    intro bytes
    rw [← length_encodeUtf8, List.take_length_add_append]
  rw [hSplit, hTake] at h
  -- the bytes of `front` come first, so that the characters do
  have hFront : encodeUtf8 front <+: encodeUtf8 s :=
    ((List.prefix_append _ _).trans (h ▸ List.take_prefix _ _))
  obtain ⟨bytes, hBytes⟩ := hFront
  have hDecode := decodeUtf8_encodeUtf8 s
  rw [← hBytes, decodeUtf8_encodeUtf8_append] at hDecode
  obtain ⟨t, ht, rfl⟩ := Option.map_eq_some_iff.mp hDecode
  obtain rfl := decodeUtf8_eq_some_iff.mp ht
  rw [← hBytes, hTake] at h
  have hHead := congrArg List.head? (List.append_cancel_left h)
  rw [List.head?_take, List.head?_take] at hHead
  refine ⟨t, rfl, ?_⟩
  rw [SameStart, ← head?_encodeUtf8, ← head?_encodeUtf8]
  exact congrArg (Option.map byteChar) (by simpa using hHead.symm)

/-- Errors that point at the first offending byte. -/
structure Pinpoints (read : String → Except SignatureError α) : Prop where
  /-- The error names the text, and its position is a place between two characters of it. -/
  placed : ∀ {text : String} {e : SignatureError}, read text = .error e →
    e.text = text ∧ e.position ≤ utf8Length text.toList ∧
      ∃ front rest, text.toList = front ++ rest ∧ utf8Length front = e.position
  /-- A text with the same bytes up to and including the one at the position has the same error. -/
  first : ∀ {text : String} {e : SignatureError}, read text = .error e →
    e.position < utf8Length text.toList → ∀ other : String,
      (encodeUtf8 other.toList).take (e.position + 1) =
        (encodeUtf8 text.toList).take (e.position + 1) →
      ∃ e', read other = .error e' ∧ e'.position = e.position ∧
        e'.fault.message = e.fault.message
  /-- A text in which nothing but an end is wrong can be continued. -/
  viable : ∀ {text : String} {e : SignatureError}, read text = .error e →
    e.position = utf8Length text.toList →
      e.fault.message ≠ SignatureFault.emptyParameters.message →
      e.fault.message ≠ SignatureFault.emptyArguments.message →
      ∃ more v, read (text ++ more) = .ok v

theorem run_eq_error {p : Parser α} {text : String} {e : SignatureError} :
    run p text = .error e ↔ ∃ stop, p text.toList = .error stop ∧
      e = ⟨text, utf8Length text.toList - utf8Length stop.rest, stop.fault⟩ := by
  rw [run]
  cases p text.toList with
  | ok r => simp
  | error stop => simp [eq_comm]

/-- What is left unread after an error is the end of the text. -/
theorem LooksAheadAt.exists_of_error {n : ℕ} {p q : Parser α} {s : List Char} {stop : Stop}
    (h : LooksAheadAt s n p q) (hp : p s = .error stop) :
    ∃ front, s = front ++ stop.rest ∧ ∀ t, SameStart stop.rest t → (front ++ t).length ≤ n →
      ∃ f : SignatureFault, f.message = stop.fault.message ∧ q (front ++ t) = .error ⟨f, t⟩ := by
  rw [LooksAheadAt, hp] at h
  obtain ⟨front, hFront, hSame⟩ := h
  exact ⟨front, hFront, fun t ht hn => exists_of_outcome_error (hSame t ht hn)⟩

/-- Where an error is, and that it does not depend on what comes after. -/
theorem exists_of_run_eq_error {p : Parser α} (hLook : ∀ n m, LooksAhead n m p p) {s : String}
    {e : SignatureError} (h : run p s = .error e) :
    ∃ front stop, s.toList = front ++ stop.rest ∧ p s.toList = .error stop ∧
      e = ⟨s, utf8Length front, stop.fault⟩ ∧
      ∀ t : String, ∀ rest, t.toList = front ++ rest → SameStart stop.rest rest →
        ∃ e', run p t = .error e' ∧ e'.position = utf8Length front ∧
          e'.fault.message = stop.fault.message := by
  obtain ⟨stop, hStop, rfl⟩ := run_eq_error.mp h
  obtain ⟨front, hFront, -⟩ := (hLook _ 0 _ le_rfl).exists_of_error hStop
  have hPosition : utf8Length s.toList - utf8Length stop.rest = utf8Length front := by
    rw [hFront, utf8Length_append, Nat.add_sub_cancel]
  refine ⟨front, stop, hFront, hStop, by rw [hPosition], fun t rest ht hStart => ?_⟩
  -- the other text may be longer, so that the bound is taken from it
  obtain ⟨front', hFront', hSame⟩ :=
    (hLook _ (front ++ rest).length _ le_rfl).exists_of_error hStop
  obtain rfl := List.append_cancel_right (hFront.symm.trans hFront')
  obtain ⟨f, hMessage, hError⟩ := hSame rest hStart le_rfl
  refine ⟨_, run_eq_error.mpr ⟨_, ht ▸ hError, rfl⟩, ?_, hMessage⟩
  rw [ht, utf8Length_append]
  exact Nat.add_sub_cancel ..

/-- A parser whose runs depend on one byte more than they read, and all of whose unfinished texts
can be completed, has errors that point at the first offending byte. -/
theorem pinpoints_run {p : Parser α} {text : δ → List Char} (hLook : ∀ n m, LooksAhead n m p p)
    (hCompletable : Completable p text)
    (hReads : ∀ (d : δ) {s : String}, text d = s.toList → ∃ v, run p s = .ok v) :
    Pinpoints (run p) := by
  constructor
  · intro s e h
    obtain ⟨front, stop, hFront, -, rfl, -⟩ := exists_of_run_eq_error hLook h
    refine ⟨rfl, ?_, front, stop.rest, hFront, rfl⟩
    rw [hFront, utf8Length_append]
    exact Nat.le_add_right ..
  · intro s e h _ t hBytes
    obtain ⟨front, stop, hFront, -, rfl, hSame⟩ := exists_of_run_eq_error hLook h
    rw [hFront] at hBytes
    obtain ⟨rest, hRest, hStart⟩ := exists_of_take_encodeUtf8 hBytes
    exact hSame t rest hRest hStart
  · intro s e h hEnd hParameters hArguments
    obtain ⟨front, ⟨fault, rest⟩, hFront, hStop, rfl, -⟩ := exists_of_run_eq_error hLook h
    obtain rfl : rest = [] := by
      rw [hFront, utf8Length_append] at hEnd
      exact eq_nil_of_utf8Length (Nat.left_eq_add.mp hEnd)
    obtain ⟨d, more, hMore⟩ := hCompletable ⟨fault, hStop, fun h => hParameters (by rw [h]),
      fun h => hArguments (by rw [h])⟩
    obtain ⟨v, hv⟩ := hReads d (s := s ++ String.ofList more) (by simp [← hMore])
    exact ⟨String.ofList more, v, hv⟩

/-- The errors of the signatures of fields, classes and methods. -/
theorem signatures_pinpoint :
    Pinpoints field ∧ Pinpoints ClassSignature.ofText ∧ Pinpoints MethodSignature.ofText := by
  refine ⟨?_, ?_, ?_⟩
  · exact pinpoints_run (fun _ _ => field_looksAhead) field_completable
      fun d _ hd => ⟨d.value, field_eq_ok_iff.mpr ⟨d, hd, rfl⟩⟩
  · exact pinpoints_run (fun _ _ => class_looksAhead) class_completable
      fun d _ hd => ⟨d.value, class_eq_ok_iff.mpr ⟨d, hd, rfl⟩⟩
  · exact pinpoints_run (fun _ _ => method_looksAhead) method_completable
      fun d _ hd => ⟨d.value, method_eq_ok_iff.mpr ⟨d, hd, rfl⟩⟩

end Signature

end ClassSketch
