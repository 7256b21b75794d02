import Vendoring.Proofs.Alias.Manifest
import Vendoring.Proofs.Build.Plan

/-! The alias manifest of a plan. Its maps stand deeper in the document than in the manifests they
were declared in, so a map can be too deep to be read back. -/
namespace Vendoring.BuildPlan
open Outcome

variable {config : Config} {inputs : BuildInputs} {plan : BuildPlan} {version base : String}
  {s : SourcePackage} {p : PlannedPackage}

theorem Planned.distinct (h : Planned config version base s p) : p.record.Distinct := by
  intro m' hm'
  obtain ⟨_, m, -, declared, moved⟩ := h.exists_relocated hm'
  exact ExportMap.map_distinct_mapped moved (ExportMap.distinct_ofPackage declared)

theorem Made.distinct_aliases (h : Made inputs config plan base) : plan.aliases.Distinct := by
  rw [h.aliases, aliasesOf_eq]
  refine ⟨Keyed.nodup_ofList _, fun e he => ?_⟩
  rcases List.mem_append.1 (Keyed.mem_ofList he) with hm | hm
  · obtain ⟨p, hp, rfl⟩ := List.mem_map.1 hm
    obtain ⟨s, -, planned⟩ := h.exists_source hp
    exact planned.distinct
  · obtain ⟨_, -, rfl⟩ := List.mem_map.1 hm
    exact nofun

theorem Made.schemaVersion_aliases (h : Made inputs config plan base) :
    plan.aliases.schemaVersion = AliasManifest.currentSchema := by
  rw [h.aliases, aliasesOf_eq]

/-- The document that a build writes is taken, and says what the plan says, exactly if no map of it
is nested too deeply; all others are refused. -/
theorem accept_plan_aliases (h : inputs.plan config = .ok plan) (path : Path) :
    (AliasManifest.accept path plan.aliases.text = .ok plan.aliases ↔ plan.aliases.Fits) ∧
      (¬ plan.aliases.Fits →
        ∃ cause, AliasManifest.accept path plan.aliases.text = .error (.malformed path cause)) := by
  obtain ⟨base, made⟩ := made_of_plan h
  have hd := made.distinct_aliases
  have hv := made.schemaVersion_aliases
  have hsmall : plan.aliases.schemaVersion < twoTo 32 := by
    rw [hv]
    decide
  have hrefused := AliasManifest.accept_text_of_not_fits hd hsmall
  refine ⟨⟨fun ha => ?_, fun hf => AliasManifest.accept_text_of_fits hd hv hf path⟩,
    fun hf => hrefused hf path⟩
  by_cases hf : plan.aliases.Fits
  · exact hf
  · obtain ⟨cause, he⟩ := hrefused hf path
    rw [he] at ha
    cases ha

theorem accept_plan_aliases_nested : ∃ plan, nestedInputs.plan nestedConfig = .ok plan ∧
    (AliasManifest.accept ⟨"names.json"⟩ plan.aliases.text = .ok plan.aliases ↔
      plan.aliases.Fits) := by
  obtain ⟨plan, hp⟩ := nested_plan
  exact ⟨plan, hp, (accept_plan_aliases hp _).1⟩

end Vendoring.BuildPlan
