import Vendoring.Files.Access
import Vendoring.Files.Tree

/-!
A disk as a value: a tree, and the directory that relative paths start from. Paths are walked name
by name, and links are followed on the way.
-/

namespace Vendoring.Files

structure Disk where
  root : Tree
  here : Trail

/-- Where a walk ends: at a tree, or in a directory that has room for a name. -/
inductive Spot
  | held (trail : Trail) (tree : Tree)
  | free (parent : Trail) (name : String)

/-- Where an entry of a directory is or would be. -/
structure Slot where
  parent : Trail
  name : String
  /-- Whether the path says with a slash at its end that it means a directory. -/
  slashed : Bool

def Slot.trail (s : Slot) : Trail := s.parent ++ [s.name]

namespace Disk

/-- The bytes of the longest name. -/
def nameLimit : Nat := 255

/-- The number of links that one walk may follow. -/
def linkLimit : Nat := 40

def isTooLong (name : String) : Bool := nameLimit < name.utf8ByteSize

def get? (d : Disk) (trail : Trail) : Option Tree := d.root.get? trail

/-- The steps of a path; a slash at the end asks for a directory, as a last dot does. -/
def stepsOf (p : Path) : List String := p.steps ++ if p.endsInSlash then ["."] else []

/-- The place that a path starts from. -/
def startOf (p : Path) (here : Trail) : Trail := if p.isAbsolute then [] else here

/-- Takes the steps from `place`. A link at the end is followed if `follow` says so; `onward` goes
on behind a link, with the steps of its target before those that are left. -/
def walkOn (d : Disk) (follow : Bool) (onward : Trail → List String → Except Fault Spot)
    (place : Trail) : List String → Except Fault Spot
  | [] => match d.get? place with
    | some t => .ok (.held place t)
    | none => .error .notFound
  | s :: rest => match d.get? place with
    | none => .error .notFound
    | some (.directory entries) =>
      if s = "." then d.walkOn follow onward place rest
      else if s = ".." then d.walkOn follow onward place.dropLast rest
      else if isTooLong s then .error .nameTooLong
      else match Keyed.get? entries s with
        | none => if rest = [] then .ok (.free place s) else .error .notFound
        | some (.link target) =>
          if rest = [] ∧ ¬follow then .ok (.held (place ++ [s]) (.link target))
          else onward (startOf ⟨target⟩ place) (stepsOf ⟨target⟩ ++ rest)
        | some _ => d.walkOn follow onward (place ++ [s]) rest
    | some _ => .error .notDirectory

/-- A walk that may follow `links` links. -/
def walk (d : Disk) (follow : Bool) : (links : Nat) → Trail → List String → Except Fault Spot
  | 0 => d.walkOn follow fun _ _ => .error .tooManyLinks
  | links + 1 => d.walkOn follow (d.walk follow links)

/-- Refuses texts that are no paths for the system. -/
def check (p : Path) : Except Fault Unit :=
  if p.text.toList.contains '\x00' then .error .nulInPath
  else if p.text = "" then .error .notFound
  else if pathLimit < p.text.utf8ByteSize then .error .nameTooLong
  else .ok ()

def find (d : Disk) (follow : Bool) (p : Path) : Except Fault Spot := do
  check p
  d.walk follow linkLimit (startOf p d.here) (stepsOf p)

/-- The tree that a path leads to. -/
def held (d : Disk) (follow : Bool) (p : Path) : Except Fault (Trail × Tree) := do
  match ← d.find follow p with
  | .held trail t => return (trail, t)
  | .free _ _ => throw .notFound

/-- The entry that a path names; none if its last step is a dot, two dots or missing. -/
def slot? (d : Disk) (p : Path) : Except Fault (Option Slot) := do
  check p
  match p.steps.reverse with
  | [] => return none
  | last :: before =>
    match ← d.walk true linkLimit (startOf p d.here) before.reverse with
    | .held trail (.directory _) =>
      if last = "." ∨ last = ".." then return none
      else return some ⟨trail, last, p.endsInSlash⟩
    | .held _ _ => throw .notDirectory
    | .free _ _ => throw .notFound

def kindOf : Tree → Kind
  | .file _ => .file
  | .link _ => .link
  | .directory _ => .directory

def kind (d : Disk) (p : Path) : Except Fault Kind := do
  return kindOf (← d.held true p).2

def contents (d : Disk) (p : Path) : Except Fault ByteArray := do
  match (← d.held true p).2 with
  | .file bytes => return bytes
  | _ => throw .isDirectory

/-- The absolute path of a place. -/
def pathOf (trail : Trail) : Path := ⟨"/" ++ String.intercalate "/" trail⟩

def place (d : Disk) (p : Path) : Except Fault Path := do
  return pathOf (← d.held true p).1

/-- Takes the steps from `place` by absolute paths: each name is asked for behind the names that
have been reached, with a slash behind it if steps are left, and all of that together may be too
long. -/
def canonicalOn (d : Disk) (onward : Trail → List String → Except Fault Trail) (place : Trail) :
    List String → Except Fault Trail
  | [] => match d.get? place with
    | some _ => .ok place
    | none => .error .notFound
  | s :: rest => match d.get? place with
    | none => .error .notFound
    | some (.directory entries) =>
      if s = "." then d.canonicalOn onward place rest
      else if s = ".." then d.canonicalOn onward place.dropLast rest
      else if isTooLong s ∨ pathLimit < (pathOf (place ++ [s])).text.utf8ByteSize then
        .error .nameTooLong
      else match Keyed.get? entries s with
        | none => .error .notFound
        | some (.link target) => onward (startOf ⟨target⟩ place) (stepsOf ⟨target⟩ ++ rest)
        | some _ =>
          if rest ≠ [] ∧ pathLimit ≤ (pathOf (place ++ [s])).text.utf8ByteSize then
            .error .nameTooLong
          else d.canonicalOn onward (place ++ [s]) rest
    | some _ => .error .notDirectory

/-- A walk by absolute paths that may follow `links` links. -/
def canonicalWalk (d : Disk) : (links : Nat) → Trail → List String → Except Fault Trail
  | 0 => d.canonicalOn fun _ _ => .error .tooManyLinks
  | links + 1 => d.canonicalOn (d.canonicalWalk links)

def canonical (d : Disk) (p : Path) : Except Fault Path := do
  check p
  return pathOf (← d.canonicalWalk linkLimit (startOf p d.here) (stepsOf p))

def listing (d : Disk) (p : Path) : Except Fault (List (String × Kind)) := do
  match (← d.held true p).2 with
  | .directory entries => return entries.map fun e => (e.1, kindOf e.2)
  | _ => throw .notDirectory

def put (d : Disk) (trail : Trail) (t : Tree) : Disk := { d with root := d.root.put trail t }

def erase (d : Disk) (trail : Trail) : Disk := { d with root := d.root.erase trail }

/-- Puts a tree where nothing is yet. A slash at the end of the path asks for a directory. -/
def add (d : Disk) (p : Path) (t : Tree) : Except Fault Disk := do
  match ← d.slot? p with
  | none => throw .alreadyExists
  | some s =>
    if isTooLong s.name then throw .nameTooLong
    else if (d.get? s.trail).isSome then throw .alreadyExists
    else if s.slashed ∧ !t.isDirectory then throw .notFound
    else return d.put s.trail t

def makeDirectory (d : Disk) (p : Path) : Except Fault Disk := d.add p (.directory [])

def makeLink (d : Disk) (p : Path) (target : String) : Except Fault Disk := d.add p (.link target)

/-- Writes a file, a new one if there is none. A path with a slash at its end is none of a file,
whatever it leads to. -/
def write (d : Disk) (p : Path) (bytes : ByteArray) : Except Fault Disk := do
  if p.endsInSlash then
    let _ ← d.slot? p
    throw .isDirectory
  match ← d.find true p with
  | .held trail (.file _) => return d.put trail (.file bytes)
  | .held _ _ => throw .isDirectory
  | .free parent name => return d.put (parent ++ [name]) (.file bytes)

/-- Whether a tree may take the place of what is there. -/
def checkReplace (new : Tree) (old? : Option Tree) : Except Fault Unit :=
  match old? with
  | none => .ok ()
  | some (.directory entries) =>
    if !new.isDirectory then .error .isDirectory
    else if entries.isEmpty then .ok () else .error .notEmpty
  | some _ => if new.isDirectory then .error .notDirectory else .ok ()

def move (d : Disk) (source target : Slot) : Except Fault Disk := do
  if isTooLong source.name then throw .nameTooLong
  match d.get? source.trail with
  | none => throw .notFound
  | some t =>
    if isTooLong target.name then throw .nameTooLong
    else if !t.isDirectory ∧ (source.slashed ∨ target.slashed) then throw .notDirectory
    else if source.trail.isPrefixOf target.parent then throw .invalid
    else if target.trail.isPrefixOf source.parent then throw .notEmpty
    else if source.trail = target.trail then return d
    else
      checkReplace t (d.get? target.trail)
      return (d.erase source.trail).put target.trail t

def rename (d : Disk) (source target : Path) : Except Fault Disk := do
  match ← d.slot? source, ← d.slot? target with
  | some a, some b => d.move a b
  | _, _ => throw .busy

def removeFile (d : Disk) (p : Path) : Except Fault Disk := do
  match ← d.slot? p with
  | none => throw .isDirectory
  | some s =>
    if isTooLong s.name then throw .nameTooLong
    match d.get? s.trail with
    | none => throw .notFound
    | some (.directory _) => throw .isDirectory
    | some _ => if s.slashed then throw .notDirectory else return d.erase s.trail

/-- Takes an empty directory out of its slot. -/
def removeEmpty (d : Disk) (p : Path) : Except Fault Disk := do
  match ← d.slot? p with
  | none =>
    throw (match p.steps.getLast? with
      | none => .busy
      | some last => if last = "." then .invalid else .notEmpty)
  | some s =>
    match d.get? s.trail with
    | some (.directory _) => return d.erase s.trail
    | some _ => throw .notDirectory
    | none => throw .notFound

/-- Removes a directory with all that it holds, or a link to one. The contents of a directory are
gone also when the directory itself cannot be removed. -/
def removeTree (d : Disk) (p : Path) : Except Fault Unit × Disk :=
  let settle (d : Disk) : Except Fault Disk → Except Fault Unit × Disk
    | .ok d' => (.ok (), d')
    | .error e => (.error e, d)
  match d.held false p with
  | .error e => (.error e, d)
  | .ok (_, .link _) => settle d (d.removeFile p)
  | .ok (_, .file _) => (.error .notDirectory, d)
  | .ok (trail, .directory _) =>
    let emptied := d.put trail (.directory [])
    settle emptied (emptied.removeEmpty p)

end Disk

/-- Asks a disk. -/
def ask {α : Type} (f : Disk → Except Fault α) : ExceptT Fault (StateM Disk) α :=
  ExceptT.mk fun d => (f d, d)

/-- Changes a disk; a change that fails leaves it as it was. -/
def change (f : Disk → Except Fault Disk) : ExceptT Fault (StateM Disk) Unit :=
  ExceptT.mk fun d => match f d with
    | .ok d' => (.ok (), d')
    | .error e => (.error e, d)

instance : FileView (ReaderM Disk) where
  kind p := ExceptT.mk fun d => d.kind p
  contents p := ExceptT.mk fun d => d.contents p
  place p := ExceptT.mk fun d => d.place p
  canonical p := ExceptT.mk fun d => d.canonical p
  listing p := ExceptT.mk fun d => d.listing p

instance : FileStore (StateM Disk) where
  kind p := ask (·.kind p)
  contents p := ask (·.contents p)
  place p := ask (·.place p)
  canonical p := ask (·.canonical p)
  listing p := ask (·.listing p)
  makeDirectory p := change (·.makeDirectory p)
  write p bytes := change (·.write p bytes)
  rename source target := change (·.rename source target)
  removeFile p := change (·.removeFile p)
  removeTree p := ExceptT.mk (·.removeTree p)

end Vendoring.Files
