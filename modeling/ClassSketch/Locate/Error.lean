import ClassSketch.ClassFile.Error
import ClassSketch.Files.Tree

/-!
# Why a class cannot be found

## Main definitions

* `LocateError`: the reasons
* `LocateError.message`: the wording
-/

namespace ClassSketch

/-- Why an archive cannot be used. -/
inductive ArchiveFault where
  | notAnArchive
  | unsupportedMethod
  deriving Repr, DecidableEq, BEq

/-- The description of the fault. -/
def ArchiveFault.message : ArchiveFault → String
  | notAnArchive => "invalid Zip archive: Could not find EOCD"
  | unsupportedMethod => "unsupported Zip archive: Compression method not supported"

/-- Why a class or a resource cannot be found. -/
inductive LocateError where
  | notFound (name : String)
  | file (path : Path) (fault : FileFault)
  | archive (path : Path) (fault : ArchiveFault)
  | classFile (name : String) (error : ClassFile.Error)
  deriving Repr, DecidableEq, BEq

/-- The description of the error. -/
def LocateError.message : LocateError → String
  | notFound name => "type " ++ name ++ " not found on the search path"
  | file path fault => "IO error while reading " ++ path.display ++ ": " ++ fault.message
  | archive path fault => "ZIP error while reading " ++ path.display ++ ": " ++ fault.message
  | classFile name error => "class parse error in " ++ name ++ ": " ++ error.message

end ClassSketch
