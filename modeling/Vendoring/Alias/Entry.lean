import Vendoring.ExportMap.Basic
import Vendoring.Path
import Vendoring.Specifier

/-!
Alias entries: where the imports of one package go.
-/

namespace Vendoring

/-- How an entry redirects. -/
inductive AliasKind
  /-- Through an export map; what it does not export goes to the vendored root. -/
  | exports
  /-- To the vendored root. -/
  | path
  /-- Not at all. -/
  | passThrough
  deriving DecidableEq, Repr

def AliasKind.name : AliasKind → String
  | exports => "exports"
  | path => "path"
  | passThrough => "pass_through"

structure AliasEntry where
  identity : String
  /-- The directory of the vendored copy. -/
  root? : Option String
  /-- The export map of the copy. -/
  exports? : Option ExportMap
  /-- The directory that relative roots and targets start from. -/
  anchor? : Option Path

namespace AliasEntry

def kind (e : AliasEntry) : AliasKind :=
  match e.exports?, e.root? with
  | some _, _ => .exports
  | none, some _ => .path
  | none, none => .passThrough

/-- A relative specifier as seen from the anchor; others stay as they are. -/
def anchored (e : AliasEntry) (spec : String) : String :=
  match e.anchor? with
  | some anchor =>
    if Specifier.isRelative spec then
      let rest := (Text.after? ['.', '/'] spec.toList).getD spec.toList
      (anchor.join (String.ofList rest)).text
    else spec
  | none => spec

/-- The path of a subpath in the vendored copy. -/
def vendoredPath? (e : AliasEntry) (subpath : String) : Option String :=
  e.root?.map fun root =>
    e.anchored (String.ofList (Text.dropTrailing '/' root.toList) ++ subpath)

end AliasEntry

end Vendoring
