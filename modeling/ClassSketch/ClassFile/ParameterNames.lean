import ClassSketch.ClassFile.Basic
import ClassSketch.ClassFile.Descriptor

/-!
# Parameter names

A method may record the names of its parameters in a table of their own or through the local
variables that hold them. Either names all parameters or counts for nothing.

## Main definitions

* `MethodInfo.declaredNames?`: the names in the table of parameters
* `MethodInfo.localNames?`: the names of the local variables that hold the parameters
* `MethodInfo.parameterNames?`: the first of these
-/

namespace ClassSketch

/-- The variable that lives in a slot from the earliest place on. -/
def earliestIn? (slot : Nat) (table : List LocalVariable) : Option LocalVariable :=
  (table.filter fun v => v.slot.toNat == slot).foldl (fun best v =>
    match best with
    | some b => if v.start < b.start then some v else some b
    | none => some v) none

/-- How many local variable slots a method can have. -/
def slotLimit : Nat := 65536

namespace MethodInfo

/-- The names in the table of parameters, if it names the given number of them. -/
def declaredNames? (m : MethodInfo) (arity : Nat) : Option (List String) := do
  let parameters ← m.parameters
  if parameters.length = arity then parameters.mapM MethodParameter.name else none

/-- The names of the variables that hold values of the given sizes from a slot on. -/
def namesFrom? (table : List LocalVariable) : Nat → List Nat → Option (List String)
  | _, [] => some []
  | slot, size :: sizes => do
    let v ← earliestIn? slot table
    if slot + size < slotLimit then
      return v.name :: (← namesFrom? table (slot + size) sizes)
    else none

/-- The names of the local variables that hold the parameters. -/
def localNames? (m : MethodInfo) (d : MethodDescriptor) : Option (List String) :=
  if m.localVariables.isEmpty then none
  else namesFrom? m.localVariables (if m.access.isStatic then 0 else 1) d.slots

/-- The names of the parameters, if the method records them. -/
def parameterNames? (m : MethodInfo) (d : MethodDescriptor) : Option (List String) :=
  (m.declaredNames? d.parameters.length).or (m.localNames? d)

end MethodInfo

end ClassSketch
