import ClassSketch.Proofs.Signature.Spelling
import ClassSketch.Proofs.Sketch.Parameters
import ClassSketch.Sketch.Documentation

/-!
# The keys of methods with generic parameters

Documentation of a method is looked up under a key that is made of its generic parameter types, and
then under one that is made of the erased ones. The two keys are the same wherever signature and
descriptor spell the same classes, whichever of the spellings the signature uses.

## Main results

* `Owner.executable_types` — the parameter types of a built method
* `spellings_agree` — the spellings of a class and the keys of a method agree
-/

namespace ClassSketch

namespace Owner

/-- The parameters have the types of the signature, and the erased ones where there are none. -/
theorem executable_types {o : Owner} {m : MethodInfo} {b : BuiltExecutable}
    (h : o.executable m = .ok (some b)) :
    ∃ d s, MethodDescriptor.ofText m.descriptor = .ok d ∧
      (m.signature = none → s = erasedSignature d) ∧
      (∀ text ∈ m.signature, MethodSignature.ofText text = .ok s) ∧
      b.erasedParameters = d.parameters ∧
      b.decl.parameters.map Parameter.type = reconcile s.parameters d.parameters := by
  obtain ⟨d, s, hDescriptor, hNone, hSome, hParameters, -, hErased⟩ := exists_of_executable h
  refine ⟨d, s, hDescriptor, hNone, hSome, hErased, ?_⟩
  rw [types_annotate hParameters, types_bareParameters]

/-- The generic and the erased key of a method are the same if its signature and its descriptor
spell the same parameters. -/
theorem keyOf_spelled {o : Owner} {info : MethodInfo} {b : BuiltExecutable}
    {m : Signature.SpelledMethod}
    (hSignature : info.signature = some (String.ofList m.generic.text))
    (hDescriptor : info.descriptor = String.ofList m.erased.text)
    (h : o.executable info = .ok (some b)) :
    Documenter.keyOf b.decl.name (b.decl.parameters.map Parameter.type) =
      Documenter.keyOf b.decl.name b.erasedParameters := by
  obtain ⟨d, s, hErased, -, hGeneric, hParameters, hTypes⟩ := executable_types h
  rw [hDescriptor, m.ofText_erased] at hErased
  have hSame := hGeneric _ hSignature
  rw [m.ofText_generic] at hSame
  cases hErased
  cases hSame
  have hLength : m.generic.value.parameters.length = m.erased.value.parameters.length := by
    simpa using congrArg List.length m.documentationKeys_eq
  have hReconcile : reconcile m.generic.value.parameters m.erased.value.parameters =
      m.generic.value.parameters := by
    rw [reconcile, ← hLength, List.take_length, hLength, List.drop_length, List.append_nil]
  rw [hTypes, hReconcile, hParameters, Documenter.keyOf, Documenter.keyOf, m.documentationKeys_eq]

end Owner

namespace Signature

/-- **Spellings of a class.** A signature and a descriptor that spell one class, in an array of any
depth, are read as types of the same class, and the signature keeps the type arguments of the last
simple name; documentation refers to both by one key. So the generic and the erased key of a method
whose parameters are spelled so are the same, be it read or built. -/
theorem spellings_agree :
    (∀ (c : SpelledClass) (depth : ℕ),
      field (c.genericText depth) =
        .ok (TypeRef.array^[depth] (.classType c.className c.typeArguments)) ∧
      Descriptor.fieldType (c.erasedText depth) =
        .ok (TypeRef.array^[depth] (.ofClass c.className)) ∧
      (TypeRef.array^[depth] (.classType c.className c.typeArguments)).documentationKey =
        (TypeRef.array^[depth] (.ofClass c.className)).documentationKey) ∧
    (∀ (m : SpelledMethod) (name : String), ∃ s d,
      MethodSignature.ofText (String.ofList m.generic.text) = .ok s ∧
      MethodDescriptor.ofText (String.ofList m.erased.text) = .ok d ∧
      Documenter.keyOf name s.parameters = Documenter.keyOf name d.parameters) ∧
    ∀ (m : SpelledMethod) (o : Owner) (info : MethodInfo) (b : Owner.BuiltExecutable),
      info.signature = some (String.ofList m.generic.text) →
      info.descriptor = String.ofList m.erased.text →
      o.executable info = .ok (some b) →
      Documenter.keyOf b.decl.name (b.decl.parameters.map Parameter.type) =
        Documenter.keyOf b.decl.name b.erasedParameters := by
  refine ⟨fun c depth => ?_, fun m name => ?_, fun m o info b => Owner.keyOf_spelled⟩
  · have hClass : (TypeRef.classType c.className c.typeArguments).documentationKey =
        (TypeRef.ofClass c.className).documentationKey := rfl
    exact ⟨c.field_genericText depth, c.fieldType_erasedText depth,
      documentationKey_arrays hClass depth⟩
  · refine ⟨_, _, m.ofText_generic, m.ofText_erased, ?_⟩
    rw [Documenter.keyOf, Documenter.keyOf, m.documentationKeys_eq]

/-- The type variable of a name. -/
def variableArgument (name : Identifier variableEnds) : ArgumentTree :=
  .exactly (.typeVariable name)

/-- The class `java.util.Map.Entry`, spelled with type arguments of both classes. -/
def entryClass : SpelledClass where
  package := [⟨['j', 'a', 'v', 'a'], by simp, by simp⟩,
    ⟨['u', 't', 'i', 'l'], by simp, by simp⟩]
  outermost := ⟨['M', 'a', 'p'], by simp, by simp⟩
  joined := []
  arguments := [variableArgument ⟨['K'], by simp, by simp⟩]
  inner := [(⟨['E', 'n', 't', 'r', 'y'], by simp, by simp⟩,
    [variableArgument ⟨['K'], by simp, by simp⟩, .unbounded])]

/-- A method with an array of entries and a number as its parameters. -/
def entryMethod : SpelledMethod where
  formals := ⟨[], trivial⟩
  parameters := [.array (.classType entryClass), .base ⟨.int, by decide⟩]
  result := none
  erasedResult := none
  thrown := []

/-- The method as a class file holds it. -/
def entryInfo : MethodInfo :=
  ⟨⟨0x1⟩, "put", "([Ljava/util/Map$Entry;I)V", some "([Ljava/util/Map<TK;>.Entry<TK;*>;I)V", [],
    none, [], [], [], none⟩

theorem spellings_agree_entry :
    entryInfo.signature = some (String.ofList entryMethod.generic.text) ∧
      entryInfo.descriptor = String.ofList entryMethod.erased.text ∧
      ∃ b, (Owner.mk {} .classType "p.A").executable entryInfo = .ok (some b) ∧
        Documenter.keyOf b.decl.name (b.decl.parameters.map Parameter.type) =
          .method "put" ["java.util.Map.Entry[]", "int"] ∧
        Documenter.keyOf b.decl.name b.erasedParameters =
          .method "put" ["java.util.Map.Entry[]", "int"] := by
  have hSignature : entryInfo.signature = some (String.ofList entryMethod.generic.text) := by
    decide +kernel
  have hDescriptor : entryInfo.descriptor = String.ofList entryMethod.erased.text := by
    decide +kernel
  have hBuilt : ((Owner.mk {} .classType "p.A").executable entryInfo).toOption.any (fun r =>
      r.any fun b => Documenter.keyOf b.decl.name b.erasedParameters =
        .method "put" ["java.util.Map.Entry[]", "int"]) = true := by
    decide +kernel
  obtain ⟨r, hExecutable, hAny⟩ := Except.exists_of_any_toOption hBuilt
  obtain _ | b := r
  · cases hAny
  have hErased := of_decide_eq_true hAny
  refine ⟨hSignature, hDescriptor, b, hExecutable, ?_, hErased⟩
  rw [spellings_agree.2.2 entryMethod _ entryInfo b hSignature hDescriptor hExecutable, hErased]

end Signature

end ClassSketch
