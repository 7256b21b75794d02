import Vendoring.Files.Access

/-!
The file system of the machine that a program runs on.
-/

namespace Vendoring.Files.Machine

/-- The number of a failure, and the system's text for it. -/
def codeOf? : IO.Error → Option (UInt32 × String)
  | .alreadyExists _ code text | .invalidArgument _ code text | .permissionDenied _ code text
  | .resourceExhausted _ code text | .inappropriateType _ code text | .noSuchThing _ code text
  | .interrupted _ code text | .noFileOrDirectory _ code text
  | .otherError code text | .resourceBusy code text | .resourceVanished code text
  | .unsupportedOperation code text | .hardwareFault code text
  | .unsatisfiedConstraints code text | .illegalOperation code text
  | .protocolError code text | .timeExpired code text => some (code, text)
  | .unexpectedEof | .userError _ => none

/-- Some numbers come with a minus sign, as words that wrap. -/
def plainCode (code : UInt32) : UInt32 := if code < 0x80000000 then code else 0 - code

def faultOfCode (code : UInt32) (text : String) : Fault :=
  match plainCode code with
  | 2 => .notFound
  | 16 => .busy
  | 17 => .alreadyExists
  | 20 => .notDirectory
  | 21 => .isDirectory
  | 22 => .invalid
  | 36 => .nameTooLong
  | 39 => .notEmpty
  | 40 => .tooManyLinks
  | n => .other (Fault.systemText text n.toNat)

def faultOf (e : IO.Error) : Fault :=
  match codeOf? e with
  | some (code, text) => faultOfCode code text
  | none => .other (toString e)

/-- Does something with paths, if they are paths for the system. -/
def onPaths {α : Type} (paths : List Path) (work : IO α) : ExceptT Fault BaseIO α :=
  if paths.any fun p => p.text.toList.contains '\x00' then throw .nulInPath
  else ExceptT.mk do return (← work.toBaseIO).mapError faultOf

/-- What is no directory and no link counts as a file. -/
def kindOf : IO.FS.FileType → Kind
  | .dir => .directory
  | .symlink => .link
  | _ => .file

/-- A path as the system takes it. -/
def place (p : Path) := (IO.FS.DirEntry.mk p.text "").root

/-- A link to a directory is removed, and not what it leads to. -/
def removeTree (p : Path) : IO Unit := do
  match (← (place p).symlinkMetadata).type with
  | .symlink => IO.FS.removeFile p.text
  | _ => IO.FS.removeDirAll p.text

/-- Tells places apart too, as far as the system gives it. -/
def canonical (p : Path) : ExceptT Fault BaseIO Path :=
  onPaths [p] do return ⟨(← IO.FS.realPath p.text).toString⟩

end Machine

instance : FileStore BaseIO where
  kind p := Machine.onPaths [p] do return Machine.kindOf (← (Machine.place p).metadata).type
  contents p := Machine.onPaths [p] (IO.FS.readBinFile p.text)
  place := Machine.canonical
  canonical := Machine.canonical
  listing p := Machine.onPaths [p] do
    let entries ← (Machine.place p).readDir
    entries.toList.mapM fun e => do
      return (e.fileName, Machine.kindOf (← e.path.symlinkMetadata).type)
  makeDirectory p := Machine.onPaths [p] (IO.FS.createDir p.text)
  write p bytes := Machine.onPaths [p] (IO.FS.writeBinFile p.text bytes)
  rename source target := Machine.onPaths [source, target] (IO.FS.rename source.text target.text)
  removeFile p := Machine.onPaths [p] (IO.FS.removeFile p.text)
  removeTree p := Machine.onPaths [p] (Machine.removeTree p)

end Vendoring.Files
