import ClassSketch.Doc.Properties
import ClassSketch.Text.Utf8

/-!
# Stores of documentation

A store answers what is documented of a declaration of a type. One kind holds the texts itself; the
other finds them in property files next to the class files, and remembers for each type the first
thing it found there, also that it found nothing.

## Main definitions

* `Lookup`: the answers of a store
* `DocStore`: texts held directly
* `ColocatedStore.path`, `ColocatedStore.load`: the property file of a type
* `ColocatedStore.cached?`, `ColocatedStore.remember`, `ColocatedStore.lookup`: the memory
* `ColocatedStore.fresh`: the answers without memory
-/

namespace ClassSketch

/-- The answers of a store: what is documented of a declaration of the type with a binary name. -/
abbrev Lookup := String → MemberKey → Option String

/-- Documentation held directly, the latest entry first. -/
structure DocStore where
  entries : List ((String × String) × String)

namespace DocStore

/-- The store without entries. -/
def empty : DocStore := ⟨[]⟩

/-- The store with the documentation of a declaration written. -/
def insert (s : DocStore) (type : String) (key : MemberKey) (text : String) : DocStore :=
  ⟨((type, key.text), text) :: s.entries⟩

/-- The documentation of a declaration. -/
def lookup (s : DocStore) : Lookup := fun type key =>
  (s.entries.find? fun entry => entry.1 == (type, key.text)).map Prod.snd

end DocStore

/-- A store of property files next to class files, with what it remembers of each type. -/
structure ColocatedStore where
  suffix : String
  memory : List (String × Option Properties) := []

namespace ColocatedStore

/-- The path of the property file of a type. -/
def path (suffix type : String) : String :=
  String.ofList (type.toList.map fun c => if c = '.' then '/' else c) ++ suffix

/-- The text of bytes: UTF-8 if they are that, else one character for each byte. -/
def textOf (bytes : List UInt8) : String :=
  String.ofList ((Text.decodeUtf8 bytes).getD (Text.latin1 bytes))

section Resources

variable {ε : Type} (resource : String → Except ε (Option (List UInt8)))

/-- The entries of the property file of a type, if it is there and well formed. -/
def load (suffix type : String) : Option Properties :=
  match resource (path suffix type) with
  | .ok (some bytes) => (Properties.parse (textOf bytes)).toOption
  | _ => none

/-- What is remembered of a type. -/
def cached? (s : ColocatedStore) (type : String) : Option (Option Properties) :=
  valueOf? type s.memory

/-- The store that remembers the given entries of a type. -/
def remember (s : ColocatedStore) (type : String) (found : Option Properties) : ColocatedStore :=
  { s with memory := putEntry type found s.memory }

/-- The entries of the property file of a type as first found, and the store that remembers them. -/
def documentation (s : ColocatedStore) (type : String) : Option Properties × ColocatedStore :=
  match s.cached? type with
  | some found => (found, s)
  | none =>
    let found := load resource s.suffix type
    (found, s.remember type found)

/-- The documentation of a declaration, and the store that remembers the file it is in. -/
def lookup (s : ColocatedStore) (type : String) (key : MemberKey) :
    Option String × ColocatedStore :=
  let (found, s) := s.documentation resource type
  (found.bind (·.get? key), s)

/-- The answers of a store that reads every property file anew. -/
def fresh (suffix : String) : Lookup := fun type key =>
  (load resource suffix type).bind (·.get? key)

end Resources

end ColocatedStore

end ClassSketch
