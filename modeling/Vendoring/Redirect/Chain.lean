import Vendoring.Alias.Registry
import Vendoring.ExportMap.Lookup

/-!
Redirection. A specifier is looked up in the registry; an export target that is no relative path is
a specifier again and is looked up in turn. The visits of such a chain are listed one by one, and
the cap on their number decides no more than where the list is cut off.
-/

namespace Vendoring

/-- Where a specifier goes after one visit to the registry. -/
inductive Next
  /-- To the lookup of files. -/
  | delegate (spec : String)
  /-- Back to the registry. -/
  | reenter (spec : String)
  deriving DecidableEq, Repr

/-- One visit to the registry. -/
structure Visit where
  raw : String
  specifier : Specifier
  entry? : Option AliasEntry
  /-- What the export map of the entry gives, if it has one. -/
  hit? : Option ExportMap.Hit
  next : Next

/-- Relative targets are paths of the vendored copy, all others specifiers of their own. -/
def AliasEntry.followTarget (e : AliasEntry) (target : String) : Next :=
  if Specifier.isRelative target then .delegate (e.anchored target) else .reenter target

/-- Where a specifier goes that the export map of the entry says nothing about. -/
def AliasEntry.fallback (e : AliasEntry) (raw subpath : String) : Next :=
  .delegate ((e.vendoredPath? subpath).getD raw)

namespace AliasRegistry

def visit (r : AliasRegistry) (active : List String) (raw : String) : Visit :=
  let s := Specifier.parse raw
  match r.lookup? s.identity with
  | none => ⟨raw, s, none, none, .delegate raw⟩
  | some e =>
    match e.exports?.bind (·.find? s.subpath active) with
    | some hit => ⟨raw, s, some e, some hit, e.followTarget hit.target⟩
    | none => ⟨raw, s, some e, none, e.fallback raw s.subpath⟩

/-- At most `count` visits, up to the first that delegates. -/
def visits (r : AliasRegistry) (active : List String) : (count : Nat) → String → List Visit
  | 0, _ => []
  | count + 1, raw =>
    let v := r.visit active raw
    match v.next with
    | .delegate _ => [v]
    | .reenter spec => v :: r.visits active count spec

end AliasRegistry

/-- What is handed to the lookup of files. -/
structure Redirect where
  specifier : String
  /-- Whether that is not the specifier that was asked for. -/
  redirected : Bool
  /-- How often the registry was entered again. -/
  hops : Nat
  deriving DecidableEq, Repr

/-- The chain of a specifier was longer than the cap. -/
structure Overflow where
  specifier : String
  maxDepth : Nat
  deriving DecidableEq, Repr

/-- The number of times that the registry may be entered again, unless a program says otherwise. -/
def defaultMaxDepth : Nat := 32

namespace AliasRegistry

/-- The visits that a cap allows. -/
def chain (r : AliasRegistry) (active : List String) (maxDepth : Nat) (raw : String) :
    List Visit :=
  r.visits active (maxDepth + 1) raw

/-- Follows the chain of a specifier to its end. -/
def redirect (r : AliasRegistry) (active : List String) (maxDepth : Nat) (raw : String) :
    Except Overflow Redirect :=
  let chain := r.chain active maxDepth raw
  match chain.getLast?.map Visit.next with
  | some (.delegate spec) => .ok ⟨spec, spec ≠ raw, chain.length - 1⟩
  | _ => .error ⟨raw, maxDepth⟩

end AliasRegistry

end Vendoring
