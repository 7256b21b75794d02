import Vendoring.Keyed

/-!
File trees as values: files, symbolic links and directories of named trees. A place in a tree is
given by the names that lead to it from the top.
-/

namespace Vendoring.Files

inductive Tree
  | file (bytes : ByteArray)
  | link (target : String)
  | directory (entries : List (String × Tree))

/-- The names that lead to a place. -/
abbrev Trail := List String

namespace Tree

def isDirectory : Tree → Bool
  | directory _ => true
  | _ => false

/-- The tree at a place. Links are not followed. -/
def get? : Tree → Trail → Option Tree
  | t, [] => some t
  | directory entries, name :: rest => (Keyed.get? entries name).bind (get? · rest)
  | _, _ :: _ => none

/-- Puts a tree at a place. Nothing changes where there is no directory to hold it. -/
def put : Tree → Trail → Tree → Tree
  | _, [], new => new
  | directory entries, [name], new => directory (Keyed.insert entries name new)
  | directory entries, name :: rest, new =>
    match Keyed.get? entries name with
    | some t => directory (Keyed.insert entries name (t.put rest new))
    | none => directory entries
  | t, _ :: _, _ => t

/-- Takes away the tree at a place below the top. -/
def erase : Tree → Trail → Tree
  | directory entries, [name] => directory (Keyed.erase entries name)
  | directory entries, name :: rest =>
    match Keyed.get? entries name with
    | some t => directory (Keyed.insert entries name (t.erase rest))
    | none => directory entries
  | t, _ => t

end Tree

end Vendoring.Files
