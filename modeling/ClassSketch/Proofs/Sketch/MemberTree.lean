import ClassSketch.Proofs.Sketch.Recursion
import Mathlib.Data.List.Nodup

/-!
# Trees of member classes

Where the tables of inner classes make a tree of the class files below a class file, every type in a
sketch occurs in it once. A sketch only ever attaches what the tables list, whatever they look like;
that no two of its types have one name is then a fact about the tables alone.

## Main definitions

* `Locator.Below` — the names that a class file and those below it list
* `Locator.Tree` — the class files below a class file are a tree
* `Origin.Fits` — a type is nested as the tables of inner classes have it
* `Run.Grown` — the invariant: what is complete fits, and is found under its name

## Main results

* `Locator.Tree.disjoint` — two members of a class file have nothing below them in common
* `Sketcher.trace_grows` — what a trace builds fits
* `Origin.Fits.nodup_names` — in a tree, no two nested types have one name
-/

namespace ClassSketch

/-! ### The names below a class file -/

namespace Locator

/-- A class file, or one below it, lists a member of the given name. -/
def Below (l : Locator) (c : ClassFile) (name : String) : Prop :=
  ∃ d, l.Reaches c d ∧ ∃ e ∈ d.memberClasses, e.binaryName = name

/-- The class files below a class file are a tree. -/
structure Tree (l : Locator) (root : ClassFile) : Prop where
  /-- No class file is below itself. -/
  acyclic : l.Acyclic root
  /-- No class file lists two members of one name. -/
  distinct : ∀ c, l.Reaches root c → (c.memberClasses.map InnerClass.binaryName).Nodup
  /-- No two class files list members of one name. -/
  parent : ∀ c d, l.Reaches root c → l.Reaches root d → ∀ e ∈ c.memberClasses,
    ∀ e' ∈ d.memberClasses, e.binaryName = e'.binaryName → c = d

variable {l : Locator} {root c d d' : ClassFile} {e : InnerClass} {name : String}

theorem Below.of_mem (he : e ∈ c.memberClasses) : l.Below c e.binaryName :=
  ⟨c, .refl, e, he, rfl⟩

theorem Below.of_member (hMember : l.Member c d) (h : l.Below d name) : l.Below c name := by
  obtain ⟨f, hReaches, hListed⟩ := h
  exact ⟨f, .head hMember hReaches, hListed⟩

/-- A member of a class file claims the name that the class file lists it under. -/
theorem Filed.binaryName_member (hFiled : l.Filed) (hResolve : l.resolve e.binaryName = .ok d) :
    d.binaryName = e.binaryName :=
  hFiled _ d (slash_not_mem_dotted e.inner) hResolve

theorem Filed.below_binaryName (hFiled : l.Filed) (hReaches : l.Reaches root c)
    (hMember : l.Member c d) : l.Below root d.binaryName := by
  obtain ⟨e, he, hResolve⟩ := hMember
  exact ⟨c, hReaches, e, he, (hFiled.binaryName_member hResolve).symm⟩

/-- The name of the root is not among those below it. -/
theorem Acyclic.not_below_self (hAcyclic : l.Acyclic root)
    (hRoot : l.resolve root.binaryName = .ok root) : ¬l.Below root root.binaryName := by
  rintro ⟨d, hReaches, e, he, hName⟩
  exact hAcyclic root .refl (Relation.TransGen.tail' hReaches ⟨e, he, hName ▸ hRoot⟩)

namespace Tree

/-- No member of a class file is around another member of it. -/
theorem not_below_of_member (hTree : l.Tree root) (hReaches : l.Reaches root c)
    (hMember : l.Member c d) (he : e ∈ c.memberClasses) : ¬l.Below d e.binaryName := by
  rintro ⟨f, hBelow, e', he', hName⟩
  have hRoot : l.Reaches root f := (hReaches.member hMember).trans hBelow
  obtain rfl : c = f := hTree.parent c f hReaches hRoot e he e' he' hName.symm
  exact hTree.acyclic c hReaches (Relation.TransGen.head' hMember hBelow)

theorem eq_of_reaches (hFiled : l.Filed) (hTree : l.Tree root) (hReaches : l.Reaches root c)
    (hMember : l.Member c d) (hMember' : l.Member c d') (h : l.Reaches d d') : d = d' := by
  rcases Relation.ReflTransGen.cases_tail h with rfl | ⟨f, hBelow, hLast⟩
  · rfl
  · obtain ⟨e, he, hResolve⟩ := hMember'
    have hName := hFiled.below_binaryName hBelow hLast
    rw [hFiled.binaryName_member hResolve] at hName
    exact absurd hName (hTree.not_below_of_member hReaches hMember he)

/-- Of two class files around a third one, one is around the other. -/
theorem comparable (hFiled : l.Filed) (hTree : l.Tree root) {f : ClassFile}
    (hd : l.Reaches root d) (hd' : l.Reaches root d') (h : l.Reaches d f) (h' : l.Reaches d' f) :
    l.Reaches d d' ∨ l.Reaches d' d := by
  -- on the way up there is only one step to take
  let up : ClassFile → ClassFile → Prop := fun a b => l.Reaches root b ∧ l.Member b a
  have hUnique : Relator.RightUnique up := by
    rintro a b b' ⟨hb, e, he, hResolve⟩ ⟨hb', e', he', hResolve'⟩
    exact hTree.parent b b' hb hb' e he e' he'
      ((hFiled.binaryName_member hResolve).symm.trans (hFiled.binaryName_member hResolve'))
  have hUp : ∀ {a}, l.Reaches root a → l.Reaches a f → Relation.ReflTransGen up f a := by
    intro a ha hBelow
    induction hBelow using Relation.ReflTransGen.head_induction_on with
    | refl => exact .refl
    | head hStep _ ih => exact (ih (ha.member hStep)).tail ⟨ha, hStep⟩
  have hDown : ∀ {a b}, Relation.ReflTransGen up a b → l.Reaches b a := by
    intro a b hPath
    induction hPath with
    | refl => exact .refl
    | tail _ hStep ih => exact .head hStep.2 ih
  rcases Relation.ReflTransGen.total_of_right_unique hUnique (hUp hd h) (hUp hd' h') with
    hPath | hPath
  · exact .inr (hDown hPath)
  · exact .inl (hDown hPath)

/-- Two members of a class file have nothing below them in common. -/
theorem disjoint (hFiled : l.Filed) (hTree : l.Tree root) (hReaches : l.Reaches root c)
    (hMember : l.Member c d) (hMember' : l.Member c d') (hne : d ≠ d') (h : l.Below d name) :
    ¬l.Below d' name := by
  rintro ⟨f', hBelow', e', he', hName'⟩
  obtain ⟨f, hBelow, e, he, hName⟩ := h
  have hd := hReaches.member hMember
  have hd' := hReaches.member hMember'
  obtain rfl : f = f' := hTree.parent f f' (hd.trans hBelow) (hd'.trans hBelow') e he e' he'
    (hName.trans hName'.symm)
  rcases hTree.comparable hFiled hd hd' hBelow hBelow' with hPath | hPath
  · exact hne (hTree.eq_of_reaches hFiled hReaches hMember hMember' hPath)
  · exact hne (hTree.eq_of_reaches hFiled hReaches hMember' hMember hPath).symm

end Tree

/-- The names of the members that a class file lists, none if it cannot be read. -/
def memberNames (bytes : List UInt8) : List String :=
  match ClassFile.parse bytes with
  | .ok c => c.memberClasses.map InnerClass.binaryName
  | .error _ => []

theorem memberNames_of_parse {bytes : List UInt8} (h : ClassFile.parse bytes = .ok c) :
    memberNames bytes = c.memberClasses.map InnerClass.binaryName := by
  rw [memberNames, h]

/-- The class files below one that is found are a tree if none of them is below itself and no name
is listed twice in the whole locator. -/
theorem Acyclic.tree (hAcyclic : l.Acyclic root) (hRoot : ∃ name, l.resolve name = .ok root)
    (hNodup : (l.contents.flatMap memberNames).Nodup) : l.Tree root := by
  obtain ⟨hEach, hPairwise⟩ := List.nodup_flatMap.mp hNodup
  have hStored : ∀ c, l.Reaches root c → ∃ bytes ∈ l.contents, ClassFile.parse bytes = .ok c := by
    intro c hReaches
    obtain ⟨name, hResolve⟩ := hReaches.found hRoot
    exact exists_mem_contents_of_resolve hResolve
  refine ⟨hAcyclic, fun c hReaches => ?_, fun c d hc hd e he e' he' hName => ?_⟩
  · obtain ⟨bytes, hBytes, hParse⟩ := hStored c hReaches
    exact memberNames_of_parse hParse ▸ hEach bytes hBytes
  · obtain ⟨bytes, hBytes, hParse⟩ := hStored c hc
    obtain ⟨bytes', hBytes', hParse'⟩ := hStored d hd
    by_cases hSame : bytes = bytes'
    · rw [← hSame, hParse] at hParse'
      exact Except.ok.inj hParse'
    · have : Std.Symm (Function.onFun List.Disjoint memberNames) := ⟨fun _ _ h => h.symm⟩
      have hApart : (memberNames bytes).Disjoint (memberNames bytes') :=
        hPairwise.forall hBytes hBytes' hSame
      rw [memberNames_of_parse hParse, memberNames_of_parse hParse'] at hApart
      exact absurd (List.mem_map_of_mem he') (hApart (hName ▸ List.mem_map_of_mem he))

end Locator

/-! ### Types that are nested as the tables have it -/

namespace Origin

/-- The class file that a type is built from. -/
def source : Origin → ClassFile
  | node source _ _ => source

mutual

/-- The binary names of the types nested in a type at any depth. -/
def names : Origin → List String
  | node _ _ nested => allNames nested

/-- The binary names of types and of the types nested in them at any depth. -/
def allNames : List Origin → List String
  | [] => []
  | o :: origins => o.source.binaryName :: (o.names ++ allNames origins)

end

theorem allNames_eq_flatMap (origins : List Origin) :
    allNames origins = origins.flatMap fun o => o.source.binaryName :: o.names := by
  induction origins with
  | nil => rfl
  | cons o origins ih => rw [allNames, ih, List.flatMap_cons, List.cons_append]

/-- A type is nested as the tables of inner classes have it: the types nested in it are built from
members of its class file, in the order in which it lists them. -/
inductive Fits (l : Locator) : Origin → Prop
  | node {c : ClassFile} {t : TypeDecl} {nested : List Origin} {entries : List InnerClass} :
      entries.Sublist c.memberClasses →
      entries.map (fun e => l.resolve e.binaryName) = nested.map (fun o => .ok o.source) →
      (∀ o ∈ nested, Fits l o) → Fits l (.node c t nested)

variable {l : Locator}

/-- The class file of a nested type is a member of that of the type around it. -/
theorem exists_entry {entries : List InnerClass} {nested : List Origin}
    (h : entries.map (fun e => l.resolve e.binaryName) = nested.map fun o => .ok o.source)
    {o : Origin} (ho : o ∈ nested) : ∃ e ∈ entries, l.resolve e.binaryName = .ok o.source := by
  refine List.mem_map.mp ?_
  rw [h]
  exact List.mem_map_of_mem ho

theorem map_binaryName (hFiled : l.Filed) {entries : List InnerClass} {nested : List Origin}
    (h : entries.map (fun e => l.resolve e.binaryName) = nested.map fun o => .ok o.source) :
    nested.map (fun o => o.source.binaryName) = entries.map InnerClass.binaryName := by
  induction entries generalizing nested with
  | nil => rw [List.map_eq_nil_iff.mp h.symm, List.map_nil, List.map_nil]
  | cons e entries ih =>
    obtain ⟨o, rest, rfl, hFirst, hRest⟩ := List.map_eq_cons_iff.mp h.symm
    rw [List.map_cons, List.map_cons, ih hRest.symm, hFiled.binaryName_member hFirst.symm]

/-- The types nested in a type have the names that the tables list below its class file. -/
theorem Fits.names_below {o : Origin} (hFiled : l.Filed) (h : o.Fits l) :
    ∀ name ∈ o.names, l.Below o.source name := by
  induction h with
  | node hSublist hEntries _ ih =>
    intro name hName
    rw [names, allNames_eq_flatMap] at hName
    obtain ⟨o, ho, hName⟩ := List.mem_flatMap.mp hName
    obtain ⟨e, he, hResolve⟩ := exists_entry hEntries ho
    have hListed := hSublist.subset he
    rcases List.mem_cons.mp hName with rfl | hName
    · rw [hFiled.binaryName_member hResolve]
      exact .of_mem hListed
    · exact .of_member ⟨e, hListed, hResolve⟩ (ih o ho name hName)

/-- In a tree, no two nested types have one name. -/
theorem Fits.nodup_names {root : ClassFile} (hFiled : l.Filed) (hTree : l.Tree root) {o : Origin}
    (h : o.Fits l) (hReaches : l.Reaches root o.source) : o.names.Nodup := by
  induction h with
  | @node c t nested entries hSublist hEntries hFits ih =>
    change l.Reaches root c at hReaches
    have hMember : ∀ o ∈ nested, ∃ e ∈ c.memberClasses, l.resolve e.binaryName = .ok o.source :=
      fun o ho => (exists_entry hEntries ho).imp fun e he => ⟨hSublist.subset he.1, he.2⟩
    -- a member has a name that is not below any member, and what is below it is not below another
    have hApart : ∀ o ∈ nested, ∀ o' ∈ nested, o.source.binaryName ∉ o'.names := by
      intro o ho o' ho' hName
      obtain ⟨e, he, hResolve⟩ := hMember o ho
      rw [hFiled.binaryName_member hResolve] at hName
      exact hTree.not_below_of_member hReaches (hMember o' ho') he
        ((hFits o' ho').names_below hFiled _ hName)
    rw [names, allNames_eq_flatMap, List.nodup_flatMap]
    constructor
    · intro o ho
      exact List.nodup_cons.mpr ⟨hApart o ho o ho, ih o ho (hReaches.member (hMember o ho))⟩
    · have hNames : (nested.map fun o => o.source.binaryName).Nodup := by
        rw [map_binaryName hFiled hEntries]
        exact (hTree.distinct c hReaches).sublist (hSublist.map _)
      refine (List.pairwise_map.mp hNames).imp_of_mem fun {o o'} ho ho' hne => ?_
      intro name hName hName'
      rcases List.mem_cons.mp hName with rfl | hName <;>
        rcases List.mem_cons.mp hName' with heq | hName'
      · exact hne heq
      · exact hApart o ho o' ho' hName'
      · exact hApart o' ho' o ho (heq ▸ hName)
      · exact hTree.disjoint hFiled hReaches (hMember o ho) (hMember o' ho')
          (fun heq => hne (by rw [heq])) ((hFits o ho).names_below hFiled name hName)
          ((hFits o' ho').names_below hFiled name hName')

end Origin

/-! ### What traces build -/

/-- What is complete is nested as the tables have it, and found under its name. -/
def Run.Grown (l : Locator) (r : Run) : Prop :=
  ∀ done ∈ r.complete, l.resolve done.1 = .ok done.2.source ∧ done.2.Fits l

theorem Run.grown_empty (l : Locator) : Run.empty.Grown l := by
  simp [Run.Grown, Run.empty]

theorem Run.Grown.start {l : Locator} {r : Run} (h : r.Grown l) (name : String) :
    (r.start name).Grown l := by
  rwa [Run.Grown, Run.complete_start]

namespace Sketcher

variable {s : Sketcher} {trace : Tracer}

/-- The tracer builds what fits, and preserves the invariant. -/
def Tracer.Grows (l : Locator) (trace : Tracer) : Prop :=
  ∀ c access r result r', r.Grown l → trace c access r = some (result, r') →
    r'.Grown l ∧ ∀ o, result = .ok o → o.source = c ∧ o.Fits l

theorem traceEntry_grows (hTrace : trace.Grows s.locator) {e : InnerClass} {r r' : Run}
    {o : Option Origin} (hGrown : r.Grown s.locator) (h : s.traceEntry trace e r = some (o, r')) :
    r'.Grown s.locator ∧
      ∀ t ∈ o, s.locator.resolve e.binaryName = .ok t.source ∧ t.Fits s.locator := by
  cases traceEntry_eq_some.mp h with
  | skipped _ => exact ⟨hGrown, by simp⟩
  | missing => exact ⟨hGrown, by simp⟩
  | reused _ _ hComplete =>
    refine ⟨hGrown, ?_⟩
    rintro _ ⟨⟩
    exact hGrown _ (mem_of_valueOf? hComplete)
  | failed _ _ _ _ hFailed => exact ⟨(hTrace _ _ _ _ _ hGrown hFailed).1, by simp⟩
  | built _ _ _ hResolve hBuilt =>
    obtain ⟨hAfter, hOrigin⟩ := hTrace _ _ _ _ _ hGrown hBuilt
    obtain ⟨hSource, hFits⟩ := hOrigin _ rfl
    rw [← hSource] at hResolve
    refine ⟨List.forall_mem_cons.mpr ⟨⟨hResolve, hFits⟩, hAfter⟩, ?_⟩
    rintro _ ⟨⟩
    exact ⟨hResolve, hFits⟩

theorem traceEntries_grows (hTrace : trace.Grows s.locator) {entries : List InnerClass} :
    ∀ {r r' : Run} {origins : List Origin}, r.Grown s.locator →
      s.traceEntries trace entries r = some (origins, r') →
      r'.Grown s.locator ∧ (∃ chosen : List InnerClass, chosen.Sublist entries ∧
        chosen.map (fun e => s.locator.resolve e.binaryName) = origins.map fun o => .ok o.source) ∧
      ∀ o ∈ origins, o.Fits s.locator := by
  induction entries with
  | nil =>
    intro r r' origins hGrown h
    cases h
    exact ⟨hGrown, ⟨[], .refl _, rfl⟩, by simp⟩
  | cons e entries ih =>
    intro r r' origins hGrown h
    obtain ⟨o, between, rest, hEntry, hRest, rfl⟩ := traceEntries_cons_eq_some.mp h
    obtain ⟨hBetween, hFirst⟩ := traceEntry_grows hTrace hGrown hEntry
    obtain ⟨hLast, ⟨chosen, hSublist, hChosen⟩, hFits⟩ := ih hBetween hRest
    refine ⟨hLast, ?_, ?_⟩
    · cases o with
      | none => exact ⟨chosen, hSublist.cons e, hChosen⟩
      | some t =>
        refine ⟨e :: chosen, hSublist.cons_cons e, ?_⟩
        rw [List.map_cons, hChosen, (hFirst t rfl).1]
        rfl
    · intro t ht
      rcases List.mem_append.mp ht with ht | ht
      · exact (hFirst t (Option.mem_toList.mp ht)).2
      · exact hFits t ht

/-- What a trace builds is nested as the tables have it. -/
theorem trace_grows (s : Sketcher) (levels : ℕ) : Tracer.Grows s.locator (s.trace levels) := by
  induction levels with
  | zero =>
    intro c access r result r' _ h
    cases h
  | succ levels ih =>
    intro c access r result r' hGrown h
    cases trace_succ_eq_some.mp h with
    | failed _ =>
      refine ⟨hGrown.start _, ?_⟩
      rintro o ⟨⟩
    | built _ hNested =>
      obtain ⟨hInner, ⟨chosen, hSublist, hChosen⟩, hFits⟩ :=
        traceEntries_grows ih (hGrown.start _) hNested
      refine ⟨hInner, ?_⟩
      rintro o ⟨⟩
      exact ⟨rfl, .node hSublist hChosen hFits⟩

end Sketcher

end ClassSketch
