import Vendoring.Proofs.Build.Plan
import Vendoring.Proofs.ExportMap.Relocation

/-! What the copies of a build export. -/
namespace Vendoring

variable {config : Config} {inputs : BuildInputs} {plan : BuildPlan} {version base : String}
  {s : SourcePackage} {p : PlannedPackage}

/-- A lookup in the copy finds what it finds in the package, exactly unless it comes to a template
that gains or loses its being one by the stars in the place of the copy. -/
def PlannedPackage.ExportsLike (p : PlannedPackage) (s : SourcePackage) : Prop :=
  ∀ m', p.exports? = some m' → ∃ v m, s.manifest.exports? = some v ∧
    ExportMap.ofPackage v = .ok m ∧ ∀ subpath active,
      (Option.Rel (ExportMap.Hit.Moved p.vendoredRoot)
          (m.find? subpath active) (m'.find? subpath active) ↔
        ∀ t, m.template? subpath active = some t →
          (ExportMap.stars t = 1 ↔
            ExportMap.stars p.vendoredRoot + ExportMap.stars t = 1))

namespace BuildPlan

theorem Planned.exportsLike (h : Planned config version base s p) : p.ExportsLike s := by
  intro m' hm'
  obtain ⟨v, m, hv, declared, moved⟩ := h.exists_relocated hm'
  exact ⟨v, m, hv, declared, fun _ _ => ExportMap.find?_relocate_iff h.root_trimmed moved⟩

/-- Each package of a plan exports what its source exports, from where its copy is. -/
theorem plan_exportsLike (h : inputs.plan config = .ok plan) :
    List.Forall₂ (fun s p => PlannedPackage.ExportsLike p s) inputs.sources plan.packages := by
  obtain ⟨_, made⟩ := made_of_plan h
  exact made.packages.imp fun _ _ hp => hp.exportsLike

/-- A plan whose copies lie below a directory with a star in its name. -/
def starredConfig : Config :=
  { packages := ["pkg"], vendoredDir := ⟨"v*"⟩, marker? := none, sourceGlobs := [] }

def starredInputs : BuildInputs where
  host := ⟨[("version", .string "1.0.0")]⟩
  sources := [⟨"pkg", ⟨"src/pkg"⟩, ⟨[("exports", .object [("./*", .string "./*.js")])]⟩⟩]

theorem plan_exportsLike_starred : ∃ plan, starredInputs.plan starredConfig = .ok plan ∧
    List.Forall₂ (fun s p => PlannedPackage.ExportsLike p s) starredInputs.sources
      plan.packages := by
  have h : (starredInputs.plan starredConfig).toOption.isSome = true := by decide +kernel
  cases hp : starredInputs.plan starredConfig with
  | error _ => rw [hp] at h; cases h
  | ok plan => exact ⟨plan, rfl, plan_exportsLike hp⟩

end BuildPlan

end Vendoring
