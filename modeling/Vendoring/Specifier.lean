/-!
Import specifiers: the name of a package, and the path of a module inside it.
-/

namespace Vendoring

/-- `identity` is `name` or `@scope/name`; `subpath` is empty for the package itself and starts with
a slash otherwise. -/
structure Specifier where
  identity : String
  subpath : String
  deriving DecidableEq, Repr

namespace Specifier

/-- The text before the first slash, and the text from it on. -/
def cut (s : List Char) : List Char × List Char := (s.takeWhile (· ≠ '/'), s.dropWhile (· ≠ '/'))

/-- The subpath starts at the first slash, or at the second one behind an `@`. -/
def split (s : List Char) : List Char × List Char :=
  match s with
  | '@' :: _ =>
    match cut s with
    | (scope, slash :: r) => (scope ++ slash :: (cut r).1, (cut r).2)
    | (scope, []) => (scope, [])
  | _ => cut s

def parse (raw : String) : Specifier :=
  ⟨String.ofList (split raw.toList).1, String.ofList (split raw.toList).2⟩

def text (s : Specifier) : String := s.identity ++ s.subpath

def isRoot (s : Specifier) : Bool := s.subpath = ""

/-- The key of an export map that stands for a subpath. -/
def exportKeyOf (subpath : String) : String := "." ++ subpath

def exportKey (s : Specifier) : String := exportKeyOf s.subpath

/-- Whether a specifier names a place relative to its importer. -/
def isRelative (spec : String) : Bool :=
  ['.', '/'].isPrefixOf spec.toList || ['.', '.', '/'].isPrefixOf spec.toList ||
    spec = "." || spec = ".."

end Specifier

end Vendoring
