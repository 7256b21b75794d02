import Vendoring.Keyed

/-!
Export maps: what a package lets others import. A key stands for the package or for one of its
subpaths, and may hold one `*`. Its node is a target, or a choice between nodes by the conditions
of the importer.
-/

namespace Vendoring

inductive ExportMap.Node
  | target (text : String)
  | choice (branches : List (String × ExportMap.Node))

structure ExportMap where
  entries : Keyed ExportMap.Node

namespace ExportMap

def empty : ExportMap := ⟨[]⟩

def get? (m : ExportMap) (key : String) : Option Node := m.entries.get? key

def insert (m : ExportMap) (key : String) (node : Node) : ExportMap :=
  ⟨m.entries.insert key node⟩

mutual

/-- The targets of a node, depth first. -/
def Node.targets : Node → List String
  | .target t => [t]
  | .choice branches => targetsOf branches

def targetsOf : List (String × Node) → List String
  | [] => []
  | (_, n) :: r => n.targets ++ targetsOf r

end

/-- All targets, depth first. -/
def targets (m : ExportMap) : List String := targetsOf m.entries

mutual

/-- Maps the targets of a node, depth first, and stops at the first that cannot be mapped. -/
def Node.mapTargets {ε : Type} (f : String → Except ε String) : Node → Except ε Node
  | .target t => return .target (← f t)
  | .choice branches => return .choice (← mapTargetsOf f branches)

def mapTargetsOf {ε : Type} (f : String → Except ε String) :
    List (String × Node) → Except ε (List (String × Node))
  | [] => return []
  | (key, n) :: r => do
    let n ← n.mapTargets f
    let r ← mapTargetsOf f r
    return (key, n) :: r

end

def mapTargets {ε : Type} (f : String → Except ε String) (m : ExportMap) : Except ε ExportMap :=
  return ⟨← mapTargetsOf f m.entries⟩

mutual

/-- No two branches of a choice belong to one condition. -/
def Node.Distinct : Node → Prop
  | .target _ => True
  | .choice branches => (branches.map (·.1)).Nodup ∧ DistinctIn branches

def DistinctIn : List (String × Node) → Prop
  | [] => True
  | (_, n) :: r => n.Distinct ∧ DistinctIn r

end

/-- No key is given twice, and neither is a condition of one choice. -/
def Distinct (m : ExportMap) : Prop := m.entries.keys.Nodup ∧ DistinctIn m.entries

end ExportMap

end Vendoring
