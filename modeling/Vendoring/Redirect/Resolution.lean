import Vendoring.Lookup
import Vendoring.Redirect.Trace

/-!
Resolution: redirection first, then the lookup of the file.
-/

namespace Vendoring

inductive ResolveFault
  | overflow (o : Overflow)
  | lookup (f : Lookup.Fault)
  deriving DecidableEq, Repr

namespace ResolveFault

def code : ResolveFault → String
  | overflow _ => "SELF_REFERENCE_OVERFLOW"
  | lookup f => f.reason.code

def message : ResolveFault → String
  | overflow o =>
    s!"'{o.specifier}' exceeded {o.maxDepth} chained redirections (self-reference loop?)"
  | lookup f => f.message

end ResolveFault

structure Resolution where
  redirect : Redirect
  path : Path
  deriving DecidableEq, Repr

namespace AliasRegistry
variable {m : Type → Type} [Monad m]

/-- Redirects a specifier and has `lookup` find its file. -/
def resolve (r : AliasRegistry) (lookup : String → m (Except Lookup.Fault Path))
    (active : List String) (maxDepth : Nat) (raw : String) :
    ExceptT ResolveFault m Resolution := do
  match r.redirect active maxDepth raw with
  | .error o => throw (.overflow o)
  | .ok redirect =>
    match ← (lookup redirect.specifier : m _) with
    | .ok path => return ⟨redirect, path⟩
    | .error f => throw (.lookup f)

/-- Like `resolve`, with the steps on the way. -/
def resolveTraced (r : AliasRegistry) (lookup : String → m (Except Lookup.Fault Path))
    (active : List String) (maxDepth : Nat) (raw : String) :
    m (Except ResolveFault Resolution × List TraceStep) := do
  match r.redirectTraced active maxDepth raw with
  | (.error o, steps) => return (.error (.overflow o), steps)
  | (.ok redirect, steps) =>
    match ← lookup redirect.specifier with
    | .ok path => return (.ok ⟨redirect, path⟩, steps)
    | .error f => return (.error (.lookup f), steps)

end AliasRegistry

end Vendoring
