/-!
# Access flags

## Main definitions

* `AccessFlags`: the flags of a class, field, method or inner class entry
* `AccessFlags.isPublic`, `AccessFlags.isStatic`, …: the flags one by one
-/

namespace ClassSketch

/-- The flags of a class, field, method, parameter or inner class entry. -/
structure AccessFlags where
  bits : UInt16
  deriving Repr, DecidableEq, BEq, Inhabited

namespace AccessFlags

/-- Whether one of the flags in a mask is set. -/
def has (f : AccessFlags) (mask : UInt16) : Bool := f.bits &&& mask != 0

/-- The flag of what every type may use. -/
def isPublic (f : AccessFlags) : Bool := f.has 0x0001

/-- The flag of what only the declaring class may use. -/
def isPrivate (f : AccessFlags) : Bool := f.has 0x0002

/-- The flag of what subclasses may use. -/
def isProtected (f : AccessFlags) : Bool := f.has 0x0004

/-- The flag of a static member. -/
def isStatic (f : AccessFlags) : Bool := f.has 0x0008

/-- The flag of a final declaration. -/
def isFinal (f : AccessFlags) : Bool := f.has 0x0010

/-- The flag of a method that bridges to another one. -/
def isBridge (f : AccessFlags) : Bool := f.has 0x0040

/-- The flag of an interface. -/
def isInterface (f : AccessFlags) : Bool := f.has 0x0200

/-- The flag of an abstract declaration. -/
def isAbstract (f : AccessFlags) : Bool := f.has 0x0400

/-- The flag of what the compiler added. -/
def isSynthetic (f : AccessFlags) : Bool := f.has 0x1000

/-- The flag of an annotation type. -/
def isAnnotationType (f : AccessFlags) : Bool := f.has 0x2000

/-- The flag of an enum and of its constants. -/
def isEnum (f : AccessFlags) : Bool := f.has 0x4000

/-- Whether a member is seen outside its package. -/
def isVisible (f : AccessFlags) : Bool := f.isPublic || f.isProtected

/-- The flags with the mark of what the compiler added. -/
def synthetic (f : AccessFlags) : AccessFlags := ⟨f.bits ||| 0x1000⟩

end AccessFlags

end ClassSketch
