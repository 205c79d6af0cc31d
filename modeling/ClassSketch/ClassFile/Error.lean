import ClassSketch.Text.Utf8

/-!
# What can be wrong with a class file

## Main definitions

* `DescriptorFault`: what is wrong with a descriptor
* `ClassFile.Error`: what is wrong with a class file
* `ClassFile.Error.message`: the wording
-/

namespace ClassSketch

/-- What is wrong with a descriptor. -/
inductive DescriptorFault where
  | unexpectedEnd
  | expected (wanted : Char)
  | misplacedVoid
  | unexpectedTag (found : Char)
  | unterminatedReference
  | emptyClassName
  | leftover
  | notAClass
  deriving Repr, DecidableEq, BEq

/-- The description of a fault in the given descriptor. -/
def DescriptorFault.detail (text : String) : DescriptorFault → String
  | unexpectedEnd => "unexpected end in `" ++ text ++ "`"
  | expected wanted => "expected '" ++ String.singleton wanted ++ "' in `" ++ text ++ "`"
  | misplacedVoid => "void outside return position in `" ++ text ++ "`"
  | unexpectedTag found =>
    "unexpected tag '" ++ String.singleton (Text.leadChar found) ++ "' in `" ++ text ++ "`"
  | unterminatedReference => "unterminated reference in `" ++ text ++ "`"
  | emptyClassName => "empty class name in `" ++ text ++ "`"
  | leftover => text
  | notAClass => text

namespace ClassFile

/-- What is wrong with a class file. -/
inductive Error where
  | unexpectedEnd
  | invalidMagic
  | unsupportedConstant (tag : UInt8)
  | invalidIndex (index : UInt16)
  | invalidUtf8
  | invalidDescriptor (text : String) (fault : DescriptorFault)
  | invalidElementTag (tag : UInt8)
  | constantMismatch (tag : Char)
  | attributeLength (name : String)
  deriving Repr, DecidableEq, BEq

/-- The description of an error. -/
def Error.message : Error → String
  | unexpectedEnd => "unexpected end of class file"
  | invalidMagic => "invalid class file magic header"
  | unsupportedConstant tag => "unsupported constant pool tag " ++ toString tag.toNat
  | invalidIndex index => "invalid constant pool index " ++ toString index.toNat
  | invalidUtf8 => "invalid modified UTF-8 string in constant pool"
  | invalidDescriptor text fault => "malformed descriptor: " ++ fault.detail text
  | invalidElementTag tag =>
    "unknown annotation element tag '" ++ String.singleton (Text.byteChar tag) ++ "'"
  | constantMismatch tag =>
    "element value tag '" ++ String.singleton tag ++ "' does not match its constant"
  | attributeLength name => "attribute " ++ name ++ " has trailing bytes"

end ClassFile

end ClassSketch
