import Vendoring.Proofs.Build.Replanning
import Vendoring.Proofs.Build.Plan
import Vendoring.Proofs.Dependencies.History

/-! What a build makes of the manifest of the host. The version and the dependencies are set where
they stand, or at the end; all else stays. -/
namespace Vendoring.BuildPlan
open Outcome PackageManifest

variable {config : Config} {inputs : BuildInputs} {plan : BuildPlan} {host : PackageManifest}
  {version : String} {merged : Dependencies}

/-- The dependencies that a build sets in those that a host has. -/
def mergedFields (config : Config) (version : String) (merged : Dependencies)
    (own : List (String × Json)) : List (String × Json) :=
  pinFields config.internalScope version (setRanges own merged.ranges)

/-- The manifest has its version and the merged dependencies, and is the host's besides. A
dependency has the version of the build if its name is of the scope, or else the merged range, or
else what it had. -/
structure HostUpdate (config : Config) (host : PackageManifest) (plan : BuildPlan) : Prop where
  version : plan.host.fields.get? "version" = some (.string plan.version)
  others : ∀ key, key ≠ "version" → key ≠ "dependencies" →
    plan.host.fields.get? key = host.fields.get? key
  /-- Where there is nothing to merge and no object to pin, the dependencies stay as they are. -/
  left : host.section? = none → plan.dependencies.entries = [] →
    plan.host.fields.keys = host.fields.keys ++ ["version"].filter (· ∉ host.fields.keys) ∧
      plan.host.fields.get? "dependencies" = host.fields.get? "dependencies"
  set : host.section? ≠ none ∨ plan.dependencies.entries ≠ [] →
    plan.host.fields.keys =
      host.fields.keys ++ ["version", "dependencies"].filter (· ∉ host.fields.keys) ∧
    ∃ deps : Keyed Json, plan.host.fields.get? "dependencies" = some (.object deps) ∧
      deps.keys = Keyed.keys (host.section?.getD []) ++
        plan.dependencies.entries.keys.filter (· ∉ Keyed.keys (host.section?.getD [])) ∧
      ∀ name, deps.get? name =
        (((plan.dependencies.range? name).map Json.string).or
          (Keyed.get? (host.section?.getD []) name)).map
            fun v => if startsWith config.internalScope name then .string plan.version else v
  pinned : plan.pinned =
    (Keyed.keys (plan.host.section?.getD [])).filter (startsWith config.internalScope)

/-- A build that has something to set sets the version first, and then all dependencies at once. -/
theorem pinnedHost_eq (h : host.section? ≠ none ∨ merged.entries ≠ []) :
    pinnedHost config host version merged = (host.setVersion version).withSection
      (mergedFields config version merged (host.section?.getD [])) := by
  have hmerged : mergedHost host version merged =
      (host.setVersion version).setDependencies merged.ranges := rfl
  rw [pinnedHost, hmerged]
  cases hr : merged.ranges with
  | nil =>
    have hempty : merged.entries = [] := by simpa [Dependencies.ranges] using hr
    obtain ⟨own, hown⟩ : ∃ own, host.section? = some own :=
      Option.ne_none_iff_exists'.1 (h.resolve_right (by simp [hempty]))
    have hnone : (host.setVersion version).setDependencies [] = host.setVersion version := rfl
    rw [mergedFields, hr, hown, hnone]
    exact pin_of_section? (by rw [section?_setVersion, hown]; rfl) _ _
  | cons d r =>
    rw [setDependencies_cons, section?_setVersion, pin_of_section? (section?_withSection ..),
      withSection_withSection, ← hr]
    rfl

theorem pinnedHost_left (h : host.section? = none) (hm : merged.entries = []) :
    pinnedHost config host version merged = host.setVersion version := by
  have hmerged : mergedHost host version merged = host.setVersion version := by
    rw [mergedHost, Dependencies.ranges, hm]
    rfl
  rw [pinnedHost, hmerged]
  exact pin_of_section?_eq_none (by rw [section?_setVersion, h]) _ _

theorem keys_withSection_setVersion (fields : List (String × Json)) :
    ((host.setVersion version).withSection fields).fields.keys =
      host.fields.keys ++ ["version", "dependencies"].filter (· ∉ host.fields.keys) := by
  have hne : "dependencies" ≠ "version" := by decide
  rw [withSection, keys_setField, setVersion, keys_setField]
  by_cases hv : "version" ∈ host.fields.keys <;>
    by_cases hd : "dependencies" ∈ host.fields.keys <;> simp [hv, hd, hne]

theorem get?_pinnedHost {key : String} (hk : key ≠ "dependencies") :
    (pinnedHost config host version merged).fields.get? key =
      (host.setVersion version).fields.get? key := by
  by_cases h : host.section? ≠ none ∨ merged.entries ≠ []
  · rw [pinnedHost_eq h, withSection, get?_setField_of_ne (Ne.symm hk)]
  · obtain ⟨hs, hm⟩ := not_or.1 h
    rw [pinnedHost_left (not_not.1 hs) (not_not.1 hm)]

theorem get?_mergedFields (hn : merged.entries.keys.Nodup) (own : List (String × Json))
    (name : String) : Keyed.get? (mergedFields config version merged own) name =
      (((merged.range? name).map Json.string).or (Keyed.get? own name)).map
        (pinnedField config.internalScope version name) := by
  have hranges : (Keyed.keys merged.ranges).Nodup := by rwa [Dependencies.keys_ranges]
  rw [mergedFields, get?_pinFields, get?_setRanges hranges, Dependencies.get?_ranges]

theorem keys_mergedFields (hn : merged.entries.keys.Nodup) (own : List (String × Json)) :
    Keyed.keys (mergedFields config version merged own) =
      Keyed.keys own ++ merged.entries.keys.filter (· ∉ Keyed.keys own) := by
  have hranges : (Keyed.keys merged.ranges).Nodup := by rwa [Dependencies.keys_ranges]
  rw [mergedFields, keys_pinFields, keys_setRanges hranges, Dependencies.keys_ranges]

theorem hostUpdate_of_eq (hn : plan.dependencies.entries.keys.Nodup)
    (hhost : plan.host = pinnedHost config host plan.version plan.dependencies)
    (hpinned : plan.pinned =
      (mergedHost host plan.version plan.dependencies).pinnable config.internalScope) :
    HostUpdate config host plan := by
  refine ⟨?version, ?others, ?left, ?set, ?pinned⟩
  case version =>
    rw [hhost, get?_pinnedHost (by decide), setVersion, get?_setField]
  case others =>
    intro key hv hd
    rw [hhost, get?_pinnedHost hd, setVersion, get?_setField_of_ne (Ne.symm hv)]
  case left =>
    intro hs hm
    rw [hhost, pinnedHost_left hs hm, setVersion, keys_setField]
    exact ⟨rfl, get?_setField_of_ne (by decide) _ _⟩
  case set =>
    intro h
    rw [hhost, pinnedHost_eq h]
    refine ⟨keys_withSection_setVersion _, _, get?_setField .., keys_mergedFields hn _, ?_⟩
    intro name
    rw [get?_mergedFields hn]
    rfl
  case pinned =>
    rw [hpinned, hhost, pinnedHost, ← pinnable_pin _ _ plan.version]
    rfl

/-- The manifest of the host after a build differs from the one before in its version and its
dependencies. What is merged is what the sources declare, in the order of the first declarations. -/
theorem plan_updates_host (h : inputs.plan config = .ok plan) :
    syncVersion config inputs.host = .ok plan.version ∧
    (∀ s ∈ inputs.sources, s.manifest.dependencies = .ok (declared s)) ∧
    plan.dependencies.Records (Dependencies.declarations
      (inputs.sources.map fun s => (s.identity, declared s))) ∧
    HostUpdate config inputs.host plan := by
  simp only [BuildInputs.plan, bind_eq_ok, pure_eq_ok, Prod.exists] at h
  obtain ⟨version, hversion, _, -, _, -, _, -, merged, _, hpackages, rfl⟩ := h
  obtain ⟨hall, hmerge⟩ := planPackages_merges hpackages
  have hrecords := Dependencies.records_empty.mergeAll hmerge
  exact ⟨hversion, hall, hrecords, hostUpdate_of_eq hrecords.nodup rfl rfl⟩

/-- A host that gets a version, a dependency of the scope and a range of another package. -/
def growingInputs : BuildInputs where
  host := ⟨[("name", .string "host"), ("dependencies",
    .object [("@my/util", .string "^0.1.0"), ("left", .string "^1.0.0"), ("right", .null)]),
    ("private", .bool true)]⟩
  sources := [⟨"pkg", ⟨"src/pkg"⟩, ⟨[("dependencies",
    .object [("@my/core", .string "^1.0.0"), ("left", .string "^2.0.0")])]⟩⟩]

def growingConfig : Config := { packages := ["pkg"], version? := some "2.0.0" }

theorem plan_updates_host_growing : ∃ plan, growingInputs.plan growingConfig = .ok plan ∧
    HostUpdate growingConfig growingInputs.host plan ∧
    plan.host.fields.keys = ["name", "dependencies", "private", "version"] ∧
    plan.pinned = ["@my/util", "@my/core"] := by
  have hpinned : (growingInputs.plan growingConfig).toOption.map BuildPlan.pinned =
      some ["@my/util", "@my/core"] := by decide +kernel
  cases hp : growingInputs.plan growingConfig with
  | error fault =>
    rw [hp] at hpinned
    cases hpinned
  | ok plan =>
    rw [hp] at hpinned
    obtain ⟨-, -, -, hupdate⟩ := plan_updates_host hp
    have hkeys := (hupdate.set (Or.inl nofun)).1
    exact ⟨plan, rfl, hupdate, hkeys.trans (by decide), Option.some.inj hpinned⟩

end Vendoring.BuildPlan
