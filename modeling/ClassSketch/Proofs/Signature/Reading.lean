import ClassSketch.Proofs.Parsing
import ClassSketch.Proofs.Signature.Derivation
import Mathlib.Data.List.TakeWhile

/-!
# Reading derivations

Every parser of the signature grammar reads exactly the texts of the derivations of its
nonterminal, and gives their values. Soundness says that what a parser takes off the front of a
text is the text of a derivation; completeness says that it takes the whole text of a derivation,
whatever follows.

## Main results

* `typeWithin_reads` — the parser of reference types, with as much depth as there are characters
* `referenceType_reads` — the parser of reference types
-/

namespace ClassSketch

namespace Signature

open Parsing

/-! ### Characters and identifiers -/

/-- A text starts with one of the given characters. -/
def HeadIn (heads s : List Char) : Prop := ∃ c ∈ heads, ∃ t, s = c :: t

namespace HeadIn

variable {heads others s : List Char}

theorem cons {c : Char} (hc : c ∈ heads) (s : List Char) : HeadIn heads (c :: s) := ⟨c, hc, s, rfl⟩

theorem mono (h : HeadIn heads s) (hsub : heads ⊆ others) : HeadIn others s := by
  obtain ⟨c, hc, t, rfl⟩ := h
  exact cons (hsub hc) t

theorem append (h : HeadIn heads s) (t : List Char) : HeadIn heads (s ++ t) := by
  obtain ⟨c, hc, u, rfl⟩ := h
  exact cons hc _

theorem ne_nil (h : HeadIn heads s) : s ≠ [] := by
  obtain ⟨c, -, t, rfl⟩ := h
  simp

/-- A text that starts with one of some characters starts with no other. -/
theorem starts_eq_false (h : HeadIn heads s) {c : Char} (hc : c ∉ heads) : starts c s = false := by
  obtain ⟨d, hd, t, rfl⟩ := h
  have hne : d ≠ c := fun h => hc (h ▸ hd)
  simpa [starts] using hne

end HeadIn

@[simp] theorem starts_cons {c d : Char} {s : List Char} : starts c (d :: s) = (d == c) := by
  simp [starts]

/-- A character is read exactly where it stands. -/
theorem expect_eq_ok {c : Char} {s t : List Char} {x : Unit} :
    expect c s = .ok (x, t) ↔ s = c :: t := by
  cases s with
  | nil => simp [expect]
  | cons d s =>
    simp only [expect, List.cons.injEq]
    split <;> simp_all

theorem expect_cons (c : Char) (s : List Char) : expect c (c :: s) = .ok ((), s) :=
  expect_eq_ok.mpr rfl

theorem stop_ne_ok {α : Type} {f : SignatureFault} {s : List Char} {r : α × List Char} :
    (stop f : Parser α) s ≠ .ok r := by
  simp [stop]

/-- An identifier is read up to the first of its ends, which must be there. -/
theorem identifier_eq_ok {ends s t : List Char} {x : String} :
    identifier ends s = .ok (x, t) ↔
      ∃ i : Identifier ends, s = i.chars ++ t ∧ String.ofList i.chars = x ∧ HeadIn ends t := by
  constructor
  · intro h
    simp only [identifier] at h
    split at h
    · simp at h
    · next hne =>
      split at h
      · simp at h
      · next hrest =>
        simp only [Except.ok.injEq, Prod.mk.injEq] at h
        obtain ⟨hx, ht⟩ := h
        have hfree : ∀ c ∈ s.takeWhile fun c => !ends.contains c, c ∉ ends := by
          intro c hc
          simpa using List.mem_takeWhile_imp hc
        refine ⟨⟨_, by simpa using hne, hfree⟩, ?_, hx, ?_⟩
        · rw [← ht, List.takeWhile_append_dropWhile]
        · have hhead := List.head?_dropWhile_not (fun c => !ends.contains c) s
          rw [ht] at hrest hhead
          cases t with
          | nil => simp at hrest
          | cons c u => exact ⟨c, by simpa using hhead, u, rfl⟩
  · rintro ⟨i, rfl, rfl, c, hc, u, rfl⟩
    have hfree : ∀ d ∈ i.chars, (!ends.contains d) = true := fun d hd => by
      simpa using i.not_mem_ends d hd
    have hend : (!ends.contains c) = false := by simpa using hc
    simp only [identifier, List.takeWhile_append_of_pos hfree, List.dropWhile_append_of_pos hfree,
      List.takeWhile_cons, List.dropWhile_cons, hend]
    simp [i.chars_ne_nil]

/-- An identifier is read up to the first character that ends it. -/
theorem identifier_append {ends s : List Char} (i : Identifier ends) (hs : HeadIn ends s) :
    identifier ends (i.chars ++ s) = .ok (String.ofList i.chars, s) :=
  identifier_eq_ok.mpr ⟨i, rfl, rfl, hs⟩

/-! ### Repetition -/

/-- A repetition of `item` as long as `more` holds takes the values off a text and leaves the
rest. -/
inductive Repeats {α : Type} (more : List Char → Bool) (item : Parser α) :
    List Char → List α → List Char → Prop
  | stop {s : List Char} : more s = false → Repeats more item s [] s
  | step {s t u : List Char} {x : α} {xs : List α} :
      more s = true → item s = .ok (x, t) → Repeats more item t xs u →
        Repeats more item s (x :: xs) u

section Repetition

variable {α : Type} {more : List Char → Bool} {item : Parser α}

/-- Each item leaves less text than it was given. -/
def Consumes (item : Parser α) : Prop :=
  ∀ {s t : List Char} {x : α}, item s = .ok (x, t) → t.length < s.length

/-- With enough fuel, items are repeated as the relation says. -/
theorem repeatWithin_eq_ok (hitem : Consumes item) {fuel : ℕ} {s t : List Char} {xs : List α}
    (hfuel : s.length < fuel) :
    repeatWithin more item fuel s = .ok (xs, t) ↔ Repeats more item s xs t := by
  induction fuel generalizing s xs with
  | zero => omega
  | succ fuel ih =>
    simp only [repeatWithin, bind_eq_ok, get_eq_ok]
    constructor
    · rintro ⟨_, _, ⟨rfl, rfl⟩, h⟩
      split at h
      · next hmore =>
        simp only [bind_eq_ok, pure_eq_ok] at h
        obtain ⟨x, u, hx, ys, v, hys, rfl, rfl⟩ := h
        exact .step hmore hx ((ih (by have := hitem hx; omega)).mp hys)
      · next hmore =>
        obtain ⟨rfl, rfl⟩ := pure_eq_ok.mp h
        exact .stop (by simpa using hmore)
    · intro h
      refine ⟨s, s, ⟨rfl, rfl⟩, ?_⟩
      cases h with
      | stop hmore => simp [hmore, pure_eq_ok]
      | step hmore hx hys =>
        rw [if_pos hmore, bind_of_ok hx, bind_of_ok ((ih (by have := hitem hx; omega)).mpr hys)]
        rfl

theorem repeatWhile_eq_ok (hitem : Consumes item) {s t : List Char} {xs : List α} :
    repeatWhile more item s = .ok (xs, t) ↔ Repeats more item s xs t :=
  repeatWithin_eq_ok hitem (Nat.lt_succ_self _)

variable {δ : Type} {text : δ → List Char} {value : δ → α}

/-- Items that are texts of trees make a list of trees. -/
theorem Repeats.sound
    (hitem : ∀ {s t : List Char} {x : α}, item s = .ok (x, t) →
      ∃ d, s = text d ++ t ∧ value d = x)
    {s t : List Char} {xs : List α} (h : Repeats more item s xs t) :
    ∃ ds : List δ, s = ds.flatMap text ++ t ∧ ds.map value = xs ∧ more t = false := by
  induction h with
  | stop hmore => exact ⟨[], rfl, rfl, hmore⟩
  | step _ hx _ ih =>
    obtain ⟨d, rfl, rfl⟩ := hitem hx
    obtain ⟨ds, rfl, rfl, hmore⟩ := ih
    exact ⟨d :: ds, by simp, rfl, hmore⟩

/-- The texts of derivations one after the other are read back, if each is read before any text of
which `Follows` holds. -/
theorem Repeats.complete (Follows : List Char → Prop) {ds : List δ} {t : List Char}
    (hitem : ∀ d ∈ ds, ∀ u, Follows u → item (text d ++ u) = .ok (value d, u))
    (hfollows : ∀ d ∈ ds, ∀ u, Follows (text d ++ u))
    (hmore : ∀ d ∈ ds, ∀ u, more (text d ++ u) = true) (ht : Follows t) (hstop : more t = false) :
    Repeats more item (ds.flatMap text ++ t) (ds.map value) t := by
  induction ds with
  | nil => exact .stop hstop
  | cons d ds ih =>
    have hrest : Follows (ds.flatMap text ++ t) := by
      cases ds with
      | nil => exact ht
      | cons e es =>
        rw [List.flatMap_cons, List.append_assoc]
        exact hfollows e (by simp) _
    rw [List.flatMap_cons, List.append_assoc]
    refine .step (hmore d (by simp) _) (hitem d (by simp) _ hrest) (ih ?_ ?_ ?_)
    · exact fun e he => hitem e (by simp [he])
    · exact fun e he => hfollows e (by simp [he])
    · exact fun e he => hmore e (by simp [he])

/-- Items that are texts of trees take something from the text, if no tree has an empty text. -/
theorem consumes_of_sound (hne : ∀ d : δ, text d ≠ [])
    (hitem : ∀ {s t : List Char} {x : α}, item s = .ok (x, t) →
      ∃ d, s = text d ++ t ∧ value d = x) : Consumes item := by
  intro s t x h
  obtain ⟨d, rfl, -⟩ := hitem h
  have := List.length_pos_of_ne_nil (hne d)
  simp only [List.length_append]
  omega

end Repetition

/-! ### Heads of texts

A parser looks at one character to choose between productions, so that completeness needs to know
how the text of a derivation starts. -/

theorem RefTree.text_head (t : RefTree) : HeadIn ['L', 'T', '['] t.text := by
  cases t with
  | classType type => cases type; exact .cons (by simp) _
  | typeVariable name => exact .cons (by simp) _
  | array element => exact .cons (by simp) _

theorem JavaTree.text_head (t : JavaTree) :
    HeadIn ['B', 'C', 'D', 'F', 'I', 'J', 'S', 'Z', 'L', 'T', '['] t.text := by
  cases t with
  | base type =>
    obtain ⟨p, hp⟩ := type
    cases p with
    | void => exact absurd rfl hp
    | _ => exact .cons (by simp [Primitive.letter]) _
  | reference type => exact type.text_head.mono (by decide)

theorem ClassTree.text_head (t : ClassTree) : HeadIn ['L'] t.text := by
  cases t
  exact .cons (by simp) _

theorem InnerTree.text_head (t : InnerTree) : HeadIn ['.'] t.text := by
  cases t
  exact .cons (by simp) _

theorem ArgumentTree.text_head (t : ArgumentTree) :
    HeadIn ['*', '+', '-', 'L', 'T', '['] t.text := by
  cases t with
  | exactly type => exact type.text_head.mono (by decide)
  | _ => exact .cons (by simp) _

theorem bracketed_eq {s : List Char} (hs : s ≠ []) : bracketed s = '<' :: s ++ ['>'] := by
  cases s with
  | nil => exact absurd rfl hs
  | cons c s => rfl

theorem length_le_bracketed (s : List Char) : s.length ≤ (bracketed s).length := by
  cases s <;> simp [bracketed]

theorem length_le_flatMap {δ : Type} {text : δ → List Char} {d : δ} {ds : List δ} (hd : d ∈ ds) :
    (text d).length ≤ (ds.flatMap text).length :=
  (List.sublist_flatten_of_mem (List.mem_map_of_mem hd)).length_le

/-- After a bracketed list that may be left out comes its bracket or what follows it. -/
theorem bracketed_append_head {ends t : List Char} (hends : '<' ∈ ends) (ht : HeadIn ends t)
    (s : List Char) : HeadIn ends (bracketed s ++ t) := by
  cases s with
  | nil => exact ht
  | cons c s => exact .cons hends _

/-! ### Types

The parsers of composite types get the parser of reference types as an argument. It is assumed to
read derivations of at most a given length, which is how the depth of nesting enters. -/

/-- The letters of the base types, of which `void` is none. -/
theorem baseType?_eq_some {c : Char} {p : Primitive} :
    baseType? c = some p ↔ p ≠ .void ∧ p.letter = c := by
  constructor
  · intro h
    obtain ⟨hp, hv⟩ := Option.filter_eq_some_iff.mp h
    have hl := List.find?_some hp
    exact ⟨by rintro rfl; exact absurd hv (by decide), by simpa using hl⟩
  · rintro ⟨hp, rfl⟩
    cases p with
    | void => exact absurd rfl hp
    | _ => rfl

/-- `type` reads derivations of reference types, and all those of at most `n` characters. -/
structure ReadsTypes (n : ℕ) (type : Parser TypeRef) : Prop where
  sound : ∀ {s t : List Char} {v : TypeRef}, type s = .ok (v, t) →
    ∃ d : RefTree, s = d.text ++ t ∧ d.value = v
  complete : ∀ d : RefTree, d.text.length ≤ n → ∀ t, type (d.text ++ t) = .ok (d.value, t)

section Types

variable {n : ℕ} {type : Parser TypeRef}

/-- A type that may be primitive: what is read is the text of one. -/
theorem javaType_sound (h : ReadsTypes n type) {s t : List Char} {v : TypeRef}
    (hs : javaType type s = .ok (v, t)) : ∃ d : JavaTree, s = d.text ++ t ∧ d.value = v := by
  have href : ∀ {s : List Char}, type s = .ok (v, t) →
      ∃ d : JavaTree, s = d.text ++ t ∧ d.value = v := by
    intro s hs
    obtain ⟨d, hd, hv⟩ := h.sound hs
    exact ⟨.reference d, hd, hv⟩
  cases s with
  | nil => exact href hs
  | cons c s =>
    simp only [javaType] at hs
    split at hs
    · next p hp =>
      obtain ⟨hv, rfl⟩ := baseType?_eq_some.mp hp
      simp only [Except.ok.injEq, Prod.mk.injEq] at hs
      obtain ⟨rfl, rfl⟩ := hs
      exact ⟨.base ⟨p, hv⟩, rfl, rfl⟩
    · exact href hs

/-- The text of a type that may be primitive is read as it. -/
theorem javaType_complete (h : ReadsTypes n type) (d : JavaTree) (hd : d.text.length ≤ n)
    (t : List Char) : javaType type (d.text ++ t) = .ok (d.value, t) := by
  cases d with
  | base p => simp [JavaTree.text, javaType, baseType?_eq_some.mpr ⟨p.property, rfl⟩,
      JavaTree.value]
  | reference r =>
    have hr := h.complete r hd t
    obtain ⟨c, hc, s, hs⟩ := r.text_head
    have hbase : baseType? c = none := by
      simp only [List.mem_cons, List.not_mem_nil, or_false] at hc
      rcases hc with rfl | rfl | rfl <;> rfl
    simp only [JavaTree.text, JavaTree.value, hs, List.cons_append] at hr ⊢
    simp only [javaType, hbase]
    exact hr

theorem variableType_sound {s t : List Char} {v : TypeRef} (hs : variableType s = .ok (v, t)) :
    ∃ i : Identifier variableEnds,
      s = (RefTree.typeVariable i).text ++ t ∧ (RefTree.typeVariable i).value = v := by
  simp only [variableType, bind_eq_ok, expect_eq_ok, pure_eq_ok] at hs
  obtain ⟨_, u, rfl, x, w, hx, _, z, rfl, rfl, rfl⟩ := hs
  obtain ⟨i, rfl, rfl, -⟩ := identifier_eq_ok.mp hx
  exact ⟨i, by simp [RefTree.text], rfl⟩

theorem variableType_complete (i : Identifier variableEnds) (t : List Char) :
    variableType ((RefTree.typeVariable i).text ++ t) =
      .ok ((RefTree.typeVariable i).value, t) := by
  have hname := identifier_append i (.cons (by simp : ';' ∈ variableEnds) t)
  simp only [RefTree.text, List.cons_append, List.append_assoc, List.nil_append]
  rw [variableType, bind_of_ok (expect_cons ..), bind_of_ok hname, bind_of_ok (expect_cons ..)]
  rfl

/-- What is read as a type argument is the text of one. -/
theorem argument_sound (h : ReadsTypes n type) {s t : List Char} {v : TypeRef}
    (hs : argument type s = .ok (v, t)) : ∃ d : ArgumentTree, s = d.text ++ t ∧ d.value = v := by
  simp only [argument] at hs
  split at hs
  · simp only [Except.ok.injEq, Prod.mk.injEq] at hs
    obtain ⟨rfl, rfl⟩ := hs
    exact ⟨.unbounded, rfl, rfl⟩
  · obtain ⟨⟨b, u⟩, hb, hv⟩ := map_eq_ok.mp hs
    simp only [Prod.mk.injEq] at hv
    obtain ⟨rfl, rfl⟩ := hv
    obtain ⟨d, rfl, rfl⟩ := h.sound hb
    exact ⟨.upper d, rfl, rfl⟩
  · obtain ⟨⟨b, u⟩, hb, hv⟩ := map_eq_ok.mp hs
    simp only [Prod.mk.injEq] at hv
    obtain ⟨rfl, rfl⟩ := hv
    obtain ⟨d, rfl, rfl⟩ := h.sound hb
    exact ⟨.lower d, rfl, rfl⟩
  · simp at hs
  · obtain ⟨d, rfl, rfl⟩ := h.sound hs
    exact ⟨.exactly d, rfl, rfl⟩

/-- The text of a type argument is read as it. -/
theorem argument_complete (h : ReadsTypes n type) (d : ArgumentTree) (hd : d.text.length ≤ n)
    (t : List Char) : argument type (d.text ++ t) = .ok (d.value, t) := by
  cases d with
  | unbounded => rfl
  | upper b =>
    have hb := h.complete b (by simp [ArgumentTree.text] at hd; omega) t
    simp [ArgumentTree.text, ArgumentTree.value, argument, hb, Except.map]
  | lower b =>
    have hb := h.complete b (by simp [ArgumentTree.text] at hd; omega) t
    simp [ArgumentTree.text, ArgumentTree.value, argument, hb, Except.map]
  | exactly r =>
    have hr := h.complete r hd t
    obtain ⟨c, hc, s, hs⟩ := r.text_head
    simp only [ArgumentTree.text, ArgumentTree.value, hs, List.cons_append] at hr ⊢
    simp only [List.mem_cons, List.not_mem_nil, or_false] at hc
    rcases hc with rfl | rfl | rfl <;> exact hr

theorem consumes_argument (h : ReadsTypes n type) : Consumes (argument type) :=
  consumes_of_sound (fun d => d.text_head.ne_nil) fun hs => argument_sound h hs

/-- Type arguments are the bracketed texts of some, or nothing. -/
theorem arguments_sound (h : ReadsTypes n type) {s t : List Char} {vs : List TypeRef}
    (hs : arguments type s = .ok (vs, t)) :
    ∃ ds : List ArgumentTree,
      s = bracketed (ArgumentTree.texts ds) ++ t ∧ ArgumentTree.values ds = vs := by
  simp only [arguments, bind_eq_ok, get_eq_ok] at hs
  obtain ⟨_, _, ⟨rfl, rfl⟩, hs⟩ := hs
  split at hs
  · simp only [bind_eq_ok, expect_eq_ok] at hs
    obtain ⟨_, u, rfl, items, v, hitems, _, w, rfl, hs⟩ := hs
    split at hs
    · obtain ⟨_, _, hstop, -⟩ := bind_eq_ok.mp hs
      exact absurd hstop stop_ne_ok
    · next hne =>
      obtain ⟨rfl, rfl⟩ := pure_eq_ok.mp hs
      rw [repeatWhile_eq_ok (consumes_argument h)] at hitems
      obtain ⟨ds, rfl, rfl, -⟩ := hitems.sound fun hs => argument_sound h hs
      have htext : ds.flatMap ArgumentTree.text ≠ [] := by
        cases ds with
        | nil => simp at hne
        | cons d ds => simp [d.text_head.ne_nil]
      refine ⟨ds, ?_, ArgumentTree.values_eq_map ds⟩
      simp [ArgumentTree.texts_eq_flatMap, bracketed_eq htext]
  · obtain ⟨rfl, rfl⟩ := pure_eq_ok.mp hs
    exact ⟨[], rfl, rfl⟩

/-- The bracketed texts of type arguments are read as them, and nothing is read as none. -/
theorem arguments_complete (h : ReadsTypes n type) (ds : List ArgumentTree)
    (hds : (ArgumentTree.texts ds).length ≤ n) {t : List Char} (ht : starts '<' t = false) :
    arguments type (bracketed (ArgumentTree.texts ds) ++ t) = .ok (ArgumentTree.values ds, t) := by
  rw [ArgumentTree.texts_eq_flatMap] at hds ⊢
  rw [ArgumentTree.values_eq_map]
  cases ds with
  | nil =>
    rw [arguments, bind_of_ok (get_run _), if_neg (by simp [bracketed, ht])]
    rfl
  | cons a as =>
    have htext : (a :: as).flatMap ArgumentTree.text ≠ [] := by
      simp [a.text_head.ne_nil]
    have hitems : repeatWhile (fun s => !starts '>' s) (argument type)
        ((a :: as).flatMap ArgumentTree.text ++ '>' :: t) =
          .ok ((a :: as).map ArgumentTree.value, '>' :: t) := by
      refine (repeatWhile_eq_ok (consumes_argument h)).mpr
        (.complete (fun _ => True) ?_ (by simp) ?_ trivial (by simp))
      · intro d hd u _
        exact argument_complete h d (le_trans (length_le_flatMap hd) hds) u
      · intro d _ u
        simp [(d.text_head.append u).starts_eq_false (by decide : '>' ∉ _)]
    rw [bracketed_eq htext, List.append_assoc, List.cons_append, List.singleton_append]
    rw [arguments, bind_of_ok (get_run _), if_pos (by simp), bind_of_ok (expect_cons ..),
      bind_of_ok hitems, bind_of_ok (expect_cons ..)]
    rfl

/-- What is read as an inner class is its name with its own arguments. -/
theorem innerClass_sound (h : ReadsTypes n type) {s t : List Char} {v : String × List TypeRef}
    (hs : innerClass type s = .ok (v, t)) : ∃ d : InnerTree, s = d.text ++ t ∧ d.value = v := by
  simp only [innerClass, bind_eq_ok, expect_eq_ok, pure_eq_ok] at hs
  obtain ⟨_, u, rfl, name, w, hname, as, z, has, rfl, rfl⟩ := hs
  obtain ⟨i, rfl, rfl, -⟩ := identifier_eq_ok.mp hname
  obtain ⟨ds, rfl, rfl⟩ := arguments_sound h has
  exact ⟨.mk i ds, by simp [InnerTree.text], rfl⟩

theorem innerClass_complete (h : ReadsTypes n type) (d : InnerTree) (hd : d.text.length ≤ n)
    {t : List Char} (ht : HeadIn ['.', ';'] t) :
    innerClass type (d.text ++ t) = .ok (d.value, t) := by
  obtain ⟨i, as⟩ := d
  have hlen : (ArgumentTree.texts as).length ≤ n := by
    have := length_le_bracketed (ArgumentTree.texts as)
    simp only [InnerTree.text, List.length_cons, List.length_append] at hd
    omega
  have has := arguments_complete h as hlen (ht.starts_eq_false (by decide))
  have hname := identifier_append i
    (bracketed_append_head (by decide) (ht.mono (by decide)) (ArgumentTree.texts as))
  simp only [InnerTree.text, List.cons_append, List.append_assoc]
  rw [innerClass, bind_of_ok (expect_cons ..), bind_of_ok hname, bind_of_ok has]
  rfl

/-- The arguments of the innermost class are the last ones that are given. -/
theorem foldl_snd_eq_getLastD {α β : Type} (steps : List (α × β)) (x : β) :
    steps.foldl (fun _ step => step.2) x = (steps.map Prod.snd).getLastD x := by
  induction steps generalizing x with
  | nil => rfl
  | cons step steps ih => rw [List.foldl_cons, ih, List.map_cons, List.getLastD_cons]

/-- A class type has the names of all its classes, but the arguments of the last one only. -/
theorem classValue_eq (i : Identifier pathEnds) (as : List ArgumentTree) (ds : List InnerTree) :
    (ClassTree.mk i as ds).value =
      .classType
        ((ds.map InnerTree.value).foldl (fun name (step : String × List TypeRef) =>
          name.nested step.1) (.ofInternal (String.ofList i.chars)))
        ((ds.map InnerTree.value).foldl (fun _ step => step.2) (ArgumentTree.values as)) := by
  rw [ClassTree.value, foldl_snd_eq_getLastD, InnerTree.values_eq_map, List.foldl_map]

/-- What is read as a class type is the text of one. -/
theorem classType_sound (h : ReadsTypes n type) {s t : List Char} {v : TypeRef}
    (hs : classType type s = .ok (v, t)) : ∃ d : ClassTree, s = d.text ++ t ∧ d.value = v := by
  simp only [classType, bind_eq_ok, expect_eq_ok, pure_eq_ok] at hs
  obtain ⟨_, u, rfl, path, w, hpath, outer, z, houter, inner, y, hinner, _, x, rfl, rfl, rfl⟩ := hs
  obtain ⟨i, rfl, rfl, -⟩ := identifier_eq_ok.mp hpath
  obtain ⟨as, rfl, rfl⟩ := arguments_sound h houter
  have hsound : ∀ {s t : List Char} {v : String × List TypeRef},
      innerClass type s = .ok (v, t) → ∃ d : InnerTree, s = d.text ++ t ∧ d.value = v :=
    fun hs => innerClass_sound h hs
  rw [repeatWhile_eq_ok (consumes_of_sound (fun d => d.text_head.ne_nil) hsound)] at hinner
  obtain ⟨ds, rfl, rfl, -⟩ := hinner.sound hsound
  exact ⟨.mk i as ds, by simp [ClassTree.text, InnerTree.texts_eq_flatMap], classValue_eq ..⟩

/-- The text of a class type is read as it. -/
theorem classType_complete (h : ReadsTypes n type) (d : ClassTree) (hd : d.text.length ≤ n + 1)
    (t : List Char) : classType type (d.text ++ t) = .ok (d.value, t) := by
  obtain ⟨i, as, ds⟩ := d
  have hlen : (ArgumentTree.texts as).length ≤ n ∧ (ds.flatMap InnerTree.text).length ≤ n := by
    have := length_le_bracketed (ArgumentTree.texts as)
    simp only [ClassTree.text, InnerTree.texts_eq_flatMap, List.length_cons,
      List.length_append] at hd
    omega
  have hhead : HeadIn ['.', ';'] (ds.flatMap InnerTree.text ++ ';' :: t) := by
    cases ds with
    | nil => exact .cons (by simp) t
    | cons e es =>
      rw [List.flatMap_cons, List.append_assoc]
      exact (e.text_head.append _).mono (by decide)
  have hinner : repeatWhile (starts '.') (innerClass type) (ds.flatMap InnerTree.text ++ ';' :: t) =
      .ok (ds.map InnerTree.value, ';' :: t) := by
    refine (repeatWhile_eq_ok (consumes_of_sound (fun d => d.text_head.ne_nil)
      fun hs => innerClass_sound h hs)).mpr
      (.complete (HeadIn ['.', ';']) ?_ ?_ ?_ (.cons (by simp) t) (by simp))
    · exact fun e he u hu => innerClass_complete h e (le_trans (length_le_flatMap he) hlen.2) hu
    · exact fun e _ u => (e.text_head.append u).mono (by decide)
    · intro e _ u
      obtain ⟨c, hc, v, hv⟩ := e.text_head.append u
      rw [hv, starts_cons]
      simpa using hc
  have has := arguments_complete h as hlen.1 (hhead.starts_eq_false (by decide))
  have hpath := identifier_append i
    (bracketed_append_head (by decide) (hhead.mono (by decide)) (ArgumentTree.texts as))
  simp only [ClassTree.text, InnerTree.texts_eq_flatMap, List.cons_append, List.append_assoc,
    List.nil_append]
  rw [classType, bind_of_ok (expect_cons ..), bind_of_ok hpath, bind_of_ok has, bind_of_ok hinner,
    bind_of_ok (expect_cons ..), classValue_eq]
  rfl

end Types

/-- A parser that goes `n` levels deep reads all derivations of at most `n` characters: a type
inside another one is at least one character shorter. -/
theorem typeWithin_reads (n : ℕ) : ReadsTypes n (typeWithin n) := by
  induction n with
  | zero =>
    refine ⟨fun h => absurd h stop_ne_ok, fun d hd => ?_⟩
    have := List.length_pos_of_ne_nil d.text_head.ne_nil
    omega
  | succ n ih =>
    constructor
    · intro s t v hs
      simp only [typeWithin] at hs
      split at hs
      · obtain ⟨d, hd, hv⟩ := classType_sound ih hs
        exact ⟨.classType d, hd, hv⟩
      · obtain ⟨i, hi, hv⟩ := variableType_sound hs
        exact ⟨.typeVariable i, hi, hv⟩
      · obtain ⟨⟨e, u⟩, he, hv⟩ := map_eq_ok.mp hs
        simp only [Prod.mk.injEq] at hv
        obtain ⟨rfl, rfl⟩ := hv
        obtain ⟨d, rfl, rfl⟩ := javaType_sound ih he
        exact ⟨.array d, rfl, rfl⟩
      · simp at hs
      · simp at hs
    · intro d hd t
      cases d with
      | classType c =>
        have hc := classType_complete ih c hd t
        obtain ⟨i, as, ds⟩ := c
        exact hc
      | typeVariable i => exact variableType_complete i t
      | array e =>
        have he := javaType_complete ih e (by simpa [RefTree.text] using hd) t
        simp [RefTree.text, RefTree.value, typeWithin, he, Except.map]

/-- The parser of reference types reads every derivation. -/
theorem referenceType_reads (n : ℕ) : ReadsTypes n referenceType where
  sound := fun {s} _ _ h => (typeWithin_reads s.length).sound h
  complete := fun d _ t => (typeWithin_reads _).complete d (by simp) t

end Signature

end ClassSketch
