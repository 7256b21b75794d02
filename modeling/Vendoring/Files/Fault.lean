import Vendoring.Path

/-!
Why a file operation fails.
-/

namespace Vendoring.Files

inductive Fault
  | notFound
  | busy
  | alreadyExists
  | notDirectory
  | isDirectory
  | invalid
  | nameTooLong
  | notEmpty
  | tooManyLinks
  /-- A path holds the character that ends texts for the system. -/
  | nulInPath
  | notText
  /-- A walk through a tree failed at `path`. -/
  | walking (path : Path) (cause : Fault)
  /-- A walk through a tree came to a link to a directory that it is inside of. -/
  | loop (link ancestor : Path)
  /-- A fault that none of the others describes. -/
  | other (text : String)
  deriving DecidableEq, Repr

namespace Fault

def systemText (text : String) (code : Nat) : String := s!"{text} (os error {code})"

def message : Fault → String
  | notFound => systemText "No such file or directory" 2
  | busy => systemText "Device or resource busy" 16
  | alreadyExists => systemText "File exists" 17
  | notDirectory => systemText "Not a directory" 20
  | isDirectory => systemText "Is a directory" 21
  | invalid => systemText "Invalid argument" 22
  | nameTooLong => systemText "File name too long" 36
  | notEmpty => systemText "Directory not empty" 39
  | tooManyLinks => systemText "Too many levels of symbolic links" 40
  | nulInPath => "file name contained an unexpected NUL byte"
  | notText => "stream did not contain valid UTF-8"
  | walking path cause => s!"IO error for operation on {path.text}: {cause.message}"
  | loop link ancestor =>
    s!"File system loop found: {link.text} points to an ancestor {ancestor.text}"
  | other text => text

end Fault

end Vendoring.Files
