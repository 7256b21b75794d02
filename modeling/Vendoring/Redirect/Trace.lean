import Vendoring.Json.Printer
import Vendoring.Redirect.Chain

/-!
Traces: what was decided for a specifier, step by step, told from the visits of its chain.
-/

namespace Vendoring

inductive TraceStep.Name
  | parseSpecifier
  | lookupAlias
  | resolveExports
  | vendoredPath
  | reenter
  | passThrough
  deriving DecidableEq, Repr

def TraceStep.Name.text : TraceStep.Name → String
  | parseSpecifier => "parse_specifier"
  | lookupAlias => "lookup_alias"
  | resolveExports => "resolve_exports"
  | vendoredPath => "vendored_path"
  | reenter => "reenter"
  | passThrough => "pass_through"

structure TraceStep where
  name : TraceStep.Name
  /-- Whether the step gave a result. -/
  ok : Bool
  detail : String
  depth : Nat
  key? : Option String := none
  conditions : List String := []
  target? : Option String := none
  deriving DecidableEq, Repr

def TraceStep.toJson (s : TraceStep) : Json :=
  let key := s.key?.map fun key => ("key", Json.string key)
  let conditions := if s.conditions = [] then [] else [("conditions", Json.strings s.conditions)]
  let target := s.target?.map fun target => ("target", Json.string target)
  .object ([("step", .string s.name.text), ("ok", .bool s.ok), ("detail", .string s.detail),
    ("depth", .int s.depth)] ++ key.toList ++ conditions ++ target.toList)

namespace Visit

/-- The step that hands a specifier on, other than by an export. -/
def fallbackStep (v : Visit) (e : AliasEntry) (depth : Nat) : TraceStep :=
  match e.vendoredPath? v.specifier.subpath with
  | some path =>
    { name := .vendoredPath, ok := true, detail := "vendored root + subpath", depth
      target? := some path }
  | none =>
    { name := .passThrough, ok := true, detail := "alias has no redirection", depth
      target? := some v.raw }

/-- The steps that ask the export map of the entry and go on from its answer. -/
def exportSteps (v : Visit) (e : AliasEntry) (depth : Nat) : List TraceStep :=
  match v.hit? with
  | some hit =>
    [{ name := .resolveExports, ok := true, detail := "export matched", depth
       key? := some hit.key, conditions := hit.conditions, target? := some hit.target }]
  | none =>
    let miss : TraceStep :=
      { name := .resolveExports, ok := false, depth
        detail := s!"no export for '{v.specifier.exportKey}'" }
    (if e.exports?.isSome then [miss] else []) ++ [v.fallbackStep e depth]

def reenterSteps (v : Visit) (depth : Nat) : List TraceStep :=
  match v.next with
  | .reenter spec =>
    [{ name := .reenter, ok := true, detail := "bare target", depth, target? := some spec }]
  | .delegate _ => []

/-- The steps of one visit, at its place in the chain. -/
def steps (v : Visit) (depth : Nat) : List TraceStep :=
  let parsed : TraceStep :=
    { name := .parseSpecifier, ok := true, depth
      detail := s!"identity '{v.specifier.identity}', subpath '{v.specifier.subpath}'" }
  match v.entry? with
  | none =>
    [parsed,
      { name := .lookupAlias, ok := false, depth
        detail := s!"no alias for '{v.specifier.identity}'" },
      { name := .passThrough, ok := true, detail := "unmodified", depth, target? := some v.raw }]
  | some e =>
    parsed ::
      { name := .lookupAlias, ok := true, depth
        detail := s!"'{e.identity}' is a {e.kind.name} alias" } ::
      (v.exportSteps e depth ++ v.reenterSteps depth)

/-- The steps of the visits of a chain, the first of which is at `depth`. -/
def stepsFrom (depth : Nat) : List Visit → List TraceStep
  | [] => []
  | v :: r => v.steps depth ++ stepsFrom (depth + 1) r

end Visit

namespace AliasRegistry

/-- All that was decided for a specifier. -/
def trace (r : AliasRegistry) (active : List String) (maxDepth : Nat) (raw : String) :
    List TraceStep :=
  Visit.stepsFrom 0 (r.chain active maxDepth raw)

/-- Follows the chain of `asked` for at most `count` visits more, the next one at `depth`, and adds
their steps to the record. -/
def follow (r : AliasRegistry) (active : List String) (maxDepth : Nat) (asked : String) :
    (count depth : Nat) → String → List TraceStep → Except Overflow Redirect × List TraceStep
  | 0, _, _, record => (.error ⟨asked, maxDepth⟩, record)
  | count + 1, depth, raw, record =>
    let v := r.visit active raw
    let record := record ++ v.steps depth
    match v.next with
    | .delegate spec => (.ok ⟨spec, spec ≠ asked, depth⟩, record)
    | .reenter spec => r.follow active maxDepth asked count (depth + 1) spec record

/-- Like `redirect`, with the steps on the way. -/
def redirectTraced (r : AliasRegistry) (active : List String) (maxDepth : Nat) (raw : String) :
    Except Overflow Redirect × List TraceStep :=
  r.follow active maxDepth raw (maxDepth + 1) 0 raw []

end AliasRegistry

/-- The version of the document that holds a trace. -/
def traceSchema : Nat := 1

end Vendoring
