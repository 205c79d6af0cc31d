import ClassSketch.Proofs.Signature.Forms

/-!
# Signatures have one derivation

No text has two derivations. The parsers are what shows it: two derivations at the head of one text
are read by the same parser, which leaves the same rest, so that their texts are equal and the
argument goes on with their parts.

## Main results

* `RefTree.text_injective`, `ClassForm.text_injective`, `MethodForm.text_injective`
* `ofText_eq_ok_iff_derivation` — a signature is read if and only if it has a derivation, which is
  then the only one and gives the value
-/

namespace ClassSketch

namespace Signature

open Parsing

/-! ### Splitting a text in one way -/

/-- Two texts that a parser takes off the front of one text are equal. -/
theorem append_unique {α : Type} {p : Parser α} {s s' t t' : List Char} {x x' : α}
    (hs : p (s ++ t) = .ok (x, t)) (hs' : p (s' ++ t') = .ok (x', t'))
    (h : s ++ t = s' ++ t') : s = s' ∧ t = t' := by
  rw [h, hs'] at hs
  obtain ⟨-, rfl⟩ := Prod.mk.inj (Except.ok.inj hs)
  exact ⟨List.append_cancel_right h, rfl⟩

theorem Identifier.ext {ends : List Char} {i j : Identifier ends} (h : i.chars = j.chars) :
    i = j := by
  obtain ⟨chars, _, _⟩ := i
  obtain ⟨chars', _, _⟩ := j
  obtain rfl : chars = chars' := h
  rfl

/-- An identifier ends where the first character stands that ends it. -/
theorem Identifier.append_unique {ends t t' : List Char} {i j : Identifier ends}
    (ht : HeadIn ends t) (ht' : HeadIn ends t') (h : i.chars ++ t = j.chars ++ t') :
    i = j ∧ t = t' := by
  obtain ⟨hi, rfl⟩ := Signature.append_unique (identifier_append i ht) (identifier_append j ht') h
  exact ⟨Identifier.ext hi, rfl⟩

theorem bracketed_injective : Function.Injective bracketed := by
  intro s t h
  cases s <;> cases t <;> simp_all [bracketed]

/-- Where a reference type ends is determined by the text. -/
theorem RefTree.append_unique {d e : RefTree} {t t' : List Char}
    (h : d.text ++ t = e.text ++ t') : d.text = e.text ∧ t = t' :=
  Signature.append_unique (referenceType_complete d t) (referenceType_complete e t') h

theorem JavaTree.append_unique {d e : JavaTree} {t t' : List Char}
    (h : d.text ++ t = e.text ++ t') : d.text = e.text ∧ t = t' :=
  Signature.append_unique (parameterType_complete d t) (parameterType_complete e t') h

theorem ClassTree.append_unique {d e : ClassTree} {t t' : List Char}
    (h : d.text ++ t = e.text ++ t') : d.text = e.text ∧ t = t' :=
  Signature.append_unique (classReference_complete d t) (classReference_complete e t') h

theorem ArgumentTree.append_unique {d e : ArgumentTree} {t t' : List Char}
    (h : d.text ++ t = e.text ++ t') : d.text = e.text ∧ t = t' :=
  Signature.append_unique (argument_complete (referenceType_reads _) d le_rfl t)
    (argument_complete (referenceType_reads _) e le_rfl t') h

/-- Bracketed arguments are one text only, unless another bracket opens behind them. -/
theorem bracketed_arguments_unique {as bs : List ArgumentTree} {t t' : List Char}
    (ht : starts '<' t = false) (ht' : starts '<' t' = false)
    (h : bracketed (ArgumentTree.texts as) ++ t = bracketed (ArgumentTree.texts bs) ++ t') :
    ArgumentTree.texts as = ArgumentTree.texts bs ∧ t = t' := by
  obtain ⟨htexts, rfl⟩ := append_unique
    (arguments_complete (referenceType_reads _) as le_rfl ht)
    (arguments_complete (referenceType_reads _) bs le_rfl ht') h
  exact ⟨bracketed_injective htexts, rfl⟩

/-! ### Types -/

theorem InnerTree.texts_append_head (ds : List InnerTree) (t : List Char) :
    HeadIn ['.', ';'] (InnerTree.texts ds ++ ';' :: t) := by
  cases ds with
  | nil => exact .cons (by simp) t
  | cons e es =>
    rw [InnerTree.texts, List.append_assoc]
    exact (e.text_head.append _).mono (by decide)

theorem letter_injective {p q : Primitive} (h : p.letter = q.letter) : p = q := by
  revert h
  cases p <;> cases q <;> decide

/-- The text of a reference type starts with none but its three letters. -/
theorem RefTree.text_ne_cons (d : RefTree) {c : Char} (hc : c ∉ ['L', 'T', '[']) (s : List Char) :
    d.text ≠ c :: s := by
  intro h
  obtain ⟨e, he, t, ht⟩ := d.text_head
  rw [h, List.cons.injEq] at ht
  exact hc (ht.1 ▸ he)

theorem RefTree.text_ne_letter (d : RefTree) (p : {p : Primitive // p ≠ .void}) :
    d.text ≠ [p.val.letter] := by
  obtain ⟨p, hp⟩ := p
  refine d.text_ne_cons ?_ []
  cases p with
  | void => exact absurd rfl hp
  | _ => simp [Primitive.letter]

mutual

/-- **A reference type is determined by its text.** The trees of all kinds are compared at once,
along with their parts. -/
theorem RefTree.text_inj : ∀ {d e : RefTree}, d.text = e.text → d = e
  | .classType c, .classType c', h => by rw [ClassTree.text_inj (d := c) (e := c') h]
  | .typeVariable i, .typeVariable j, h => by
    rw [Identifier.ext (List.append_cancel_right (List.cons.inj h).2)]
  | .array d, .array e, h => by rw [JavaTree.text_inj (List.cons.inj h).2]
  | .classType (.mk _ _ _), .typeVariable _, h => by simp [RefTree.text, ClassTree.text] at h
  | .classType (.mk _ _ _), .array _, h => by simp [RefTree.text, ClassTree.text] at h
  | .typeVariable _, .classType (.mk _ _ _), h => by simp [RefTree.text, ClassTree.text] at h
  | .typeVariable _, .array _, h => by simp [RefTree.text] at h
  | .array _, .classType (.mk _ _ _), h => by simp [RefTree.text, ClassTree.text] at h
  | .array _, .typeVariable _, h => by simp [RefTree.text] at h

theorem JavaTree.text_inj : ∀ {d e : JavaTree}, d.text = e.text → d = e
  | .base p, .base q, h => by rw [Subtype.ext (letter_injective (List.cons.inj h).1)]
  | .reference d, .reference e, h => by rw [RefTree.text_inj (d := d) (e := e) h]
  | .base p, .reference e, h => absurd h.symm (e.text_ne_letter p)
  | .reference d, .base q, h => absurd h (d.text_ne_letter q)

theorem ClassTree.text_inj : ∀ {d e : ClassTree}, d.text = e.text → d = e
  | .mk i as ds, .mk j bs es, h => by
    simp only [ClassTree.text, List.cons_append, List.append_assoc, List.cons.injEq, true_and] at h
    have hds := InnerTree.texts_append_head ds []
    have hes := InnerTree.texts_append_head es []
    obtain ⟨rfl, hafter⟩ := Identifier.append_unique
      (bracketed_append_head (by decide) (hds.mono (by decide)) _)
      (bracketed_append_head (by decide) (hes.mono (by decide)) _) h
    obtain ⟨has, hrest⟩ := bracketed_arguments_unique (hds.starts_eq_false (by decide))
      (hes.starts_eq_false (by decide)) hafter
    rw [ArgumentTree.texts_inj has, InnerTree.texts_inj hrest]

/-- Inner classes are told apart by the points between them and by the end of the type. -/
theorem InnerTree.texts_inj : ∀ {ds es : List InnerTree} {t t' : List Char},
    InnerTree.texts ds ++ ';' :: t = InnerTree.texts es ++ ';' :: t' → ds = es
  | [], [], _, _, _ => rfl
  | [], .mk _ _ :: _, _, _, h => by simp [InnerTree.texts, InnerTree.text] at h
  | .mk _ _ :: _, [], _, _, h => by simp [InnerTree.texts, InnerTree.text] at h
  | .mk i as :: ds, .mk j bs :: es, t, t', h => by
    simp only [InnerTree.texts, InnerTree.text, List.cons_append, List.append_assoc,
      List.cons.injEq, true_and] at h
    have hds := InnerTree.texts_append_head ds t
    have hes := InnerTree.texts_append_head es t'
    obtain ⟨rfl, hafter⟩ := Identifier.append_unique
      (bracketed_append_head (by decide) (hds.mono (by decide)) _)
      (bracketed_append_head (by decide) (hes.mono (by decide)) _) h
    obtain ⟨has, hrest⟩ := bracketed_arguments_unique (hds.starts_eq_false (by decide))
      (hes.starts_eq_false (by decide)) hafter
    rw [ArgumentTree.texts_inj has, InnerTree.texts_inj hrest]

theorem ArgumentTree.text_inj : ∀ {a b : ArgumentTree}, a.text = b.text → a = b
  | .unbounded, .unbounded, _ => rfl
  | .upper d, .upper e, h => by rw [RefTree.text_inj (List.cons.inj h).2]
  | .lower d, .lower e, h => by rw [RefTree.text_inj (List.cons.inj h).2]
  | .exactly d, .exactly e, h => by rw [RefTree.text_inj (d := d) (e := e) h]
  | .unbounded, .upper _, h => by simp [ArgumentTree.text] at h
  | .unbounded, .lower _, h => by simp [ArgumentTree.text] at h
  | .upper _, .unbounded, h => by simp [ArgumentTree.text] at h
  | .upper _, .lower _, h => by simp [ArgumentTree.text] at h
  | .lower _, .unbounded, h => by simp [ArgumentTree.text] at h
  | .lower _, .upper _, h => by simp [ArgumentTree.text] at h
  | .unbounded, .exactly e, h => absurd h.symm (e.text_ne_cons (by decide) _)
  | .upper _, .exactly e, h => absurd h.symm (e.text_ne_cons (by decide) _)
  | .lower _, .exactly e, h => absurd h.symm (e.text_ne_cons (by decide) _)
  | .exactly d, .unbounded, h => absurd h (d.text_ne_cons (by decide) _)
  | .exactly d, .upper _, h => absurd h (d.text_ne_cons (by decide) _)
  | .exactly d, .lower _, h => absurd h (d.text_ne_cons (by decide) _)

theorem ArgumentTree.texts_inj : ∀ {as bs : List ArgumentTree},
    ArgumentTree.texts as = ArgumentTree.texts bs → as = bs
  | [], [], _ => rfl
  | [], b :: _, h => by simp [ArgumentTree.texts, b.text_head.ne_nil] at h
  | a :: _, [], h => by simp [ArgumentTree.texts, a.text_head.ne_nil] at h
  | a :: as, b :: bs, h => by
    obtain ⟨ha, has⟩ := ArgumentTree.append_unique h
    rw [ArgumentTree.text_inj ha, ArgumentTree.texts_inj has]

end

theorem RefTree.text_injective : Function.Injective RefTree.text := fun _ _ h => RefTree.text_inj h

/-! ### Lists -/

/-- Texts one after the other are cut in one way, if each of them is. -/
theorem flatMap_text_injective {δ : Type} {text : δ → List Char} (hne : ∀ d, text d ≠ [])
    (hunique : ∀ {d e : δ} {t t' : List Char}, text d ++ t = text e ++ t' → d = e ∧ t = t') :
    Function.Injective fun ds : List δ => ds.flatMap text := by
  intro ds
  induction ds with
  | nil =>
    intro es h
    cases es with
    | nil => rfl
    | cons e es => simp [hne e] at h
  | cons d ds ih =>
    intro es h
    cases es with
    | nil => simp [hne d] at h
    | cons e es =>
      obtain ⟨rfl, hrest⟩ :=
        hunique (show text d ++ ds.flatMap text = text e ++ es.flatMap text from h)
      rw [ih hrest]

/-- Bounds are told apart by the colons before them. -/
theorem otherBounds_injective :
    Function.Injective fun ds : List RefTree => ds.flatMap FormalTree.boundText := by
  refine flatMap_text_injective (fun _ => List.cons_ne_nil _ _) fun h => ?_
  obtain ⟨htext, rfl⟩ := RefTree.append_unique (List.cons.inj h).2
  exact ⟨RefTree.text_inj htext, rfl⟩

theorem interfaces_injective :
    Function.Injective fun ds : List ClassTree => ds.flatMap ClassTree.text := by
  refine flatMap_text_injective (fun d => d.text_head.ne_nil) fun h => ?_
  obtain ⟨htext, rfl⟩ := ClassTree.append_unique h
  exact ⟨ClassTree.text_inj htext, rfl⟩

theorem ThrownTree.text_inj {d e : ThrownTree} (h : d.text = e.text) : d = e := by
  have htype := RefTree.text_inj (List.cons.inj h).2
  cases d <;> cases e <;> simp_all [ThrownTree.type]

theorem thrown_injective :
    Function.Injective fun ds : List ThrownTree => ds.flatMap ThrownTree.text := by
  refine flatMap_text_injective (by simp [ThrownTree.text]) fun {d e t t'} h => ?_
  obtain ⟨htext, rfl⟩ := append_unique (thrownType_complete d t) (thrownType_complete e t') h
  exact ⟨ThrownTree.text_inj htext, rfl⟩

/-- Parameters are told apart up to the bracket behind them. -/
theorem parameters_injective {ds es : List JavaTree} {t t' : List Char}
    (h : ds.flatMap JavaTree.text ++ ')' :: t = es.flatMap JavaTree.text ++ ')' :: t') :
    ds = es ∧ t = t' := by
  have hread := fun (ds : List JavaTree) (t : List Char) => parameters_eq_ok.mpr
    ⟨(rfl : starts ')' (')' :: t) = true), ds, rfl, rfl⟩
  obtain ⟨htext, ht⟩ := append_unique (hread ds t) (hread es t') h
  refine ⟨flatMap_text_injective (fun d => d.text_head.ne_nil) (fun h => ?_) htext,
    (List.cons.inj ht).2⟩
  obtain ⟨hd, rfl⟩ := JavaTree.append_unique h
  exact ⟨JavaTree.text_inj hd, rfl⟩

/-! ### Type parameters -/

/-- Where a type parameter ends is determined by the text, if no further bound follows. -/
theorem FormalTree.append_unique {f g : FormalTree} {t t' : List Char} (hf : f.Precedes t)
    (hg : g.Precedes t') (ht : starts ':' t = false) (ht' : starts ':' t' = false)
    (h : f.text ++ t = g.text ++ t') : f = g ∧ t = t' := by
  obtain ⟨i, b, ds⟩ := f
  obtain ⟨j, c, es⟩ := g
  simp only [FormalTree.text, FormalTree.otherText, List.append_assoc, List.cons_append] at h
  obtain ⟨rfl, hbound⟩ := Identifier.append_unique (.cons (by simp) _) (.cons (by simp) _) h
  obtain ⟨hb, hothers⟩ := Signature.append_unique
    (classBound_complete b (t := ds.flatMap FormalTree.boundText ++ t) hf)
    (classBound_complete c (t := es.flatMap FormalTree.boundText ++ t') hg)
    (List.cons.inj hbound).2
  obtain ⟨hds, rfl⟩ := Signature.append_unique (otherBounds_complete ds ht)
    (otherBounds_complete es ht') hothers
  obtain rfl : b = c := by
    cases b with
    | none =>
      cases c with
      | none => rfl
      | some c => exact absurd hb.symm c.text_head.ne_nil
    | some b =>
      cases c with
      | none => exact absurd hb b.text_head.ne_nil
      | some c => rw [RefTree.text_inj (d := b) (e := c) hb]
  rw [otherBounds_injective hds]
  exact ⟨rfl, rfl⟩

/-- No parameter and no closing bracket starts with the colon of a bound. -/
theorem formals_not_colon (fs : List FormalTree) :
    starts ':' (fs.flatMap FormalTree.text ++ ['>']) = false := by
  cases fs with
  | nil => rfl
  | cons f fs =>
    obtain ⟨c, hc, s, hs⟩ := f.text_head
    have hne : c ≠ ':' := fun h => hc (by simp [h])
    simp [hs, hne]

/-- Type parameters in a row are told apart up to the bracket behind them. -/
theorem FormalTree.chained_unique : ∀ {fs gs : List FormalTree}, FormalTree.Chained fs →
    FormalTree.Chained gs →
    fs.flatMap FormalTree.text ++ ['>'] = gs.flatMap FormalTree.text ++ ['>'] → fs = gs := by
  intro fs
  induction fs with
  | nil =>
    intro gs _ _ h
    cases gs with
    | nil => rfl
    | cons g gs =>
      obtain ⟨c, hc, s, hs⟩ := g.text_head
      simp only [List.flatMap_nil, List.flatMap_cons, hs, List.nil_append, List.cons_append,
        List.cons.injEq] at h
      exact absurd (by simp [← h.1]) hc
  | cons f fs ih =>
    intro gs hfs hgs h
    cases gs with
    | nil =>
      obtain ⟨c, hc, s, hs⟩ := f.text_head
      simp only [List.flatMap_nil, List.flatMap_cons, hs, List.nil_append, List.cons_append,
        List.cons.injEq] at h
      exact absurd (by simp [h.1]) hc
    | cons g gs =>
      simp only [List.flatMap_cons, List.append_assoc] at h
      obtain ⟨rfl, hrest⟩ := FormalTree.append_unique hfs.1 hgs.1 (formals_not_colon fs)
        (formals_not_colon gs) h
      rw [ih hfs.2 hgs.2 hrest]

theorem FormalsTree.text_injective : Function.Injective FormalsTree.text := by
  intro d e h
  obtain ⟨fs, hfs⟩ := d
  obtain ⟨gs, hgs⟩ := e
  have htext := bracketed_injective h
  obtain rfl : fs = gs := FormalTree.chained_unique hfs hgs (by rw [htext])
  rfl

theorem FormalsTree.append_unique {d e : FormalsTree} {t t' : List Char}
    (ht : starts '<' t = false) (ht' : starts '<' t' = false) (h : d.text ++ t = e.text ++ t') :
    d = e ∧ t = t' := by
  obtain ⟨htext, rfl⟩ :=
    Signature.append_unique (formals_complete d ht) (formals_complete e ht') h
  exact ⟨FormalsTree.text_injective htext, rfl⟩

/-! ### Whole signatures -/

/-- **The derivation of a class signature is determined by its text.** -/
theorem ClassForm.text_injective : Function.Injective ClassForm.text := by
  intro d e h
  obtain ⟨f, c, ds⟩ := d
  obtain ⟨g, c', es⟩ := e
  simp only [ClassForm.text, List.append_assoc] at h
  obtain ⟨rfl, hclass⟩ := FormalsTree.append_unique
    ((c.text_head.append _).starts_eq_false (by decide))
    ((c'.text_head.append _).starts_eq_false (by decide)) h
  obtain ⟨hc, hinterfaces⟩ := ClassTree.append_unique hclass
  rw [ClassTree.text_inj hc, interfaces_injective hinterfaces]

/-- The letter of `void` starts no type, so that a result is told from it. -/
theorem result_unique {d e : Option JavaTree} {t t' : List Char}
    (h : d.elim ['V'] JavaTree.text ++ t = e.elim ['V'] JavaTree.text ++ t') :
    d = e ∧ t = t' := by
  obtain ⟨htext, rfl⟩ := append_unique (resultType_complete d t) (resultType_complete e t') h
  refine ⟨?_, rfl⟩
  cases d with
  | none =>
    cases e with
    | none => rfl
    | some e =>
      have hstart := e.text_head.starts_eq_false (by decide : 'V' ∉ _)
      rw [← show ['V'] = e.text from htext] at hstart
      simp at hstart
  | some d =>
    cases e with
    | none =>
      have hstart := d.text_head.starts_eq_false (by decide : 'V' ∉ _)
      rw [show d.text = ['V'] from htext] at hstart
      simp at hstart
    | some e => rw [JavaTree.text_inj (d := d) (e := e) htext]

/-- **The derivation of a method signature is determined by its text.** -/
theorem MethodForm.text_injective : Function.Injective MethodForm.text := by
  intro d e h
  obtain ⟨f, ps, r, ts⟩ := d
  obtain ⟨g, ps', r', ts'⟩ := e
  simp only [MethodForm.text, List.append_assoc, List.cons_append] at h
  obtain ⟨rfl, hafter⟩ := FormalsTree.append_unique rfl rfl h
  obtain ⟨rfl, hresult⟩ := parameters_injective (List.cons.inj hafter).2
  obtain ⟨rfl, hthrown⟩ := result_unique hresult
  rw [thrown_injective hthrown]

/-- **The grammar of signatures.** A signature is read if and only if its text has a derivation,
and its value is the value of that derivation. No text has two derivations. -/
theorem ofText_eq_ok_iff_derivation :
    (∀ (text : String) (v : TypeRef),
      field text = .ok v ↔ ∃ d : RefTree, d.text = text.toList ∧ d.value = v) ∧
    (∀ (text : String) (v : ClassSignature),
      ClassSignature.ofText text = .ok v ↔
        ∃ d : ClassForm, d.text = text.toList ∧ d.value = v) ∧
    (∀ (text : String) (v : MethodSignature),
      MethodSignature.ofText text = .ok v ↔
        ∃ d : MethodForm, d.text = text.toList ∧ d.value = v) ∧
    Function.Injective RefTree.text ∧ Function.Injective ClassForm.text ∧
    Function.Injective MethodForm.text :=
  ⟨fun _ _ => field_eq_ok_iff, fun _ _ => class_eq_ok_iff, fun _ _ => method_eq_ok_iff,
    RefTree.text_injective, ClassForm.text_injective, MethodForm.text_injective⟩

end Signature

end ClassSketch
