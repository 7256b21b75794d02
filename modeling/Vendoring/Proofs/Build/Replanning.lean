import Vendoring.Build.Plan
import Vendoring.Proofs.Outcome
import Vendoring.Proofs.PackageManifest
import Vendoring.Proofs.Version

/-! Builds of what a build wrote. A plan that is made again with the host manifest of the first one
is the same plan. -/
namespace Vendoring.BuildPlan
open Outcome

variable {config : Config} {inputs : BuildInputs} {plan : BuildPlan} {host : PackageManifest}
  {version : String} {merged : Dependencies}

/-- The version of the build is the text that was asked for. -/
theorem syncVersion_eq_ok : syncVersion config host = .ok version ↔
    config.version?.or host.version? = some version ∧ ∃ v, Version.parse version = .ok v := by
  rw [syncVersion, Option.orElse_eq_or]
  constructor
  · intro h
    split at h
    · cases h
    · next raw hraw =>
      split at h
      · next v hv =>
        cases h
        rw [Version.text_of_parse hv]
        exact ⟨hraw, v, hv⟩
      · cases h
  · rintro ⟨hraw, v, hv⟩
    simp only [hraw, hv, Version.text_of_parse hv]

theorem syncVersion_again (h : syncVersion config host = .ok version)
    {host' : PackageManifest} (hv : host'.version? = some version) :
    syncVersion config host' = .ok version := by
  obtain ⟨hasked, hparsed⟩ := syncVersion_eq_ok.1 h
  refine syncVersion_eq_ok.2 ⟨?_, hparsed⟩
  cases hc : config.version? with
  | none => exact hv
  | some raw => rwa [hc] at hasked

/-- The host manifest that a plan writes. -/
def pinnedHost (config : Config) (host : PackageManifest) (version : String)
    (merged : Dependencies) : PackageManifest :=
  (mergedHost host version merged).pin config.internalScope version

theorem version?_pinnedHost (config : Config) (host : PackageManifest) (version : String)
    (merged : Dependencies) : (pinnedHost config host version merged).version? = some version := by
  rw [pinnedHost, PackageManifest.version?_pin]
  exact (PackageManifest.version?_setDependencies ..).trans
    (PackageManifest.version?_setVersion host version)

theorem mergedHost_pinnedHost (config : Config) (host : PackageManifest) (version : String)
    (merged : Dependencies) :
    mergedHost (pinnedHost config host version merged) version merged =
      (pinnedHost config host version merged).setDependencies merged.ranges := by
  rw [mergedHost, PackageManifest.setVersion_of_version? (version?_pinnedHost ..)]
  rfl

theorem pinnedHost_again (config : Config) (host : PackageManifest) (version : String)
    (merged : Dependencies) :
    pinnedHost config (pinnedHost config host version merged) version merged =
      pinnedHost config host version merged := by
  rw [pinnedHost, mergedHost_pinnedHost]
  exact PackageManifest.pin_setDependencies_again ..

theorem pinnable_again (config : Config) (host : PackageManifest) (version : String)
    (merged : Dependencies) :
    (mergedHost (pinnedHost config host version merged) version merged).pinnable
        config.internalScope =
      (mergedHost host version merged).pinnable config.internalScope := by
  calc (mergedHost (pinnedHost config host version merged) version merged).pinnable
        config.internalScope
      = (pinnedHost config (pinnedHost config host version merged) version merged).pinnable
          config.internalScope := (PackageManifest.pinnable_pin ..).symm
    _ = (pinnedHost config host version merged).pinnable config.internalScope := by
        rw [pinnedHost_again]
    _ = (mergedHost host version merged).pinnable config.internalScope :=
        PackageManifest.pinnable_pin ..

/-- Planning again, with the host manifest that was planned, gives the plan again. -/
theorem plan_again (h : inputs.plan config = .ok plan) :
    { inputs with host := plan.host : BuildInputs }.plan config = .ok plan := by
  simp only [BuildInputs.plan, bind_eq_ok, pure_eq_ok, Prod.exists] at h
  obtain ⟨version, hversion, base, hbase, globs, hglobs, _, hids, merged, packages, hpackages,
    rfl⟩ := h
  simp only [BuildInputs.plan, bind_eq_ok, pure_eq_ok, Prod.exists]
  have hsame := syncVersion_again hversion (version?_pinnedHost config inputs.host version merged)
  refine ⟨version, hsame, base, hbase, globs, hglobs, (), hids, merged, packages, hpackages, ?_⟩
  simp only [BuildPlan.mk.injEq, true_and, and_true]
  constructor
  · exact pinnedHost_again config inputs.host version merged
  · exact pinnable_again config inputs.host version merged

/-- A host that has its own dependencies of the scope that gets pinned. -/
def scopedInputs : BuildInputs where
  host := ⟨[("dependencies", .object [("@my/util", .string "^0.1.0"), ("left", .string "^1.0.0")]),
    ("version", .string "2.0.0-rc.1")]⟩
  sources := [⟨"pkg", ⟨"src/pkg"⟩, ⟨[("dependencies",
    .object [("@my/core", .string "^1.0.0"), ("left", .string "^2.0.0")])]⟩⟩]

def scopedConfig : Config := { packages := ["pkg"] }

theorem plan_again_scoped : ∃ plan, scopedInputs.plan scopedConfig = .ok plan ∧
    plan.pinned = ["@my/util", "@my/core"] ∧
    { scopedInputs with host := plan.host : BuildInputs }.plan scopedConfig = .ok plan := by
  have hpinned : (scopedInputs.plan scopedConfig).toOption.map BuildPlan.pinned =
      some ["@my/util", "@my/core"] := by decide +kernel
  cases hp : scopedInputs.plan scopedConfig with
  | error fault =>
    rw [hp] at hpinned
    cases hpinned
  | ok plan =>
    rw [hp] at hpinned
    exact ⟨plan, rfl, Option.some.inj hpinned, plan_again hp⟩

end Vendoring.BuildPlan
