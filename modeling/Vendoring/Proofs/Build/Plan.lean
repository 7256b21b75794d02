import Vendoring.Build.Plan
import Vendoring.Proofs.Alias.Registry
import Vendoring.Proofs.Build.Identity
import Vendoring.Proofs.Dependencies
import Vendoring.Proofs.PackageManifest

/-! What a plan is made of: the packages stand in the order of their sources, each one below the
base that the vendored directory has as seen from the alias manifest. -/
namespace Vendoring.BuildPlan
open Outcome

variable {config : Config} {inputs : BuildInputs} {plan : BuildPlan}
  {version base : String} {merged merged' : Dependencies}
  {s : SourcePackage} {p : PlannedPackage} {ss : List SourcePackage} {ps : List PlannedPackage}

/-- The export map that a package of the plan has for what its source exports. -/
inductive Relocated (root : String) : Option Json → Option ExportMap → Prop
  | none : Relocated root none none
  | some {v : Json} {m m' : ExportMap} (declared : ExportMap.ofPackage v = .ok m)
      (moved : m.relocate root = .ok m') : Relocated root (some v) (some m')

/-- What the plan of one package takes from its source. -/
structure Planned (config : Config) (version base : String) (s : SourcePackage)
    (p : PlannedPackage) : Prop where
  valid : Identity.isValid s.identity = true
  identity : p.identity = s.identity
  source : p.source = s.directory
  root : p.vendoredRoot = base ++ "/" ++ s.identity
  exports : Relocated p.vendoredRoot s.manifest.exports? p.exports?
  renamed : p.renamed? = if config.renameVendored then some (renamed version s) else none

/-- Nothing is cut off the place of a copy. -/
theorem Planned.root_trimmed (h : Planned config version base s p) :
    Text.dropTrailing '/' p.vendoredRoot.toList = p.vendoredRoot.toList := by
  rw [h.root]
  exact Identity.dropTrailing_of_isValid h.valid _

theorem Planned.exists_relocated {m' : ExportMap} (h : Planned config version base s p)
    (hm : p.exports? = some m') :
    ∃ v m, s.manifest.exports? = some v ∧ ExportMap.ofPackage v = .ok m ∧
      m.relocate p.vendoredRoot = .ok m' := by
  have hx := h.exports
  rw [hm] at hx
  generalize hv : s.manifest.exports? = v? at hx
  cases hx with
  | some declared moved => exact ⟨_, _, rfl, declared, moved⟩

theorem checkIdentity_eq_ok {identity : String} {u : Unit} :
    checkIdentity identity = .ok u ↔ Identity.isValid identity = true := by
  cases h : Identity.isValid identity <;> simp [checkIdentity, h]

theorem relocatedExports_eq_ok {identity root : String} {v : Json} {m' : ExportMap} :
    relocatedExports identity root v = .ok m' ↔
      ∃ m, ExportMap.ofPackage v = .ok m ∧ m.relocate root = .ok m' := by
  cases hm : ExportMap.ofPackage v with
  | error _ => simp [relocatedExports, hm]
  | ok m => cases hr : m.relocate root <;> simp [relocatedExports, hm, hr]

theorem planPackage_eq_ok (h : planPackage config version base merged s = .ok (merged', p)) :
    Planned config version base s p ∧ ∃ declared,
      s.manifest.dependencies = .ok declared ∧ merged.merge s.identity declared = .ok merged' := by
  simp only [planPackage, bind_eq_ok, mapError_eq_ok] at h
  obtain ⟨_, hid, declared, hd, _, hm, h⟩ := h
  have hv := checkIdentity_eq_ok.1 hid
  split at h
  · next v hx =>
    obtain ⟨exports?, hmap, h⟩ := bind_eq_ok.1 h
    obtain ⟨m', hm', rfl⟩ := map_eq_ok.1 hmap
    obtain ⟨m, hm₀, moved⟩ := relocatedExports_eq_ok.1 hm'
    cases h
    exact ⟨⟨hv, rfl, rfl, rfl, hx ▸ .some hm₀ moved, rfl⟩, declared, hd, hm⟩
  · next hx =>
    cases h
    exact ⟨⟨hv, rfl, rfl, rfl, hx ▸ .none, rfl⟩, declared, hd, hm⟩

theorem planPackages_eq_ok (h : planPackages config version base merged ss = .ok (merged', ps)) :
    List.Forall₂ (Planned config version base) ss ps := by
  induction ss generalizing merged merged' ps with
  | nil =>
    cases h
    exact .nil
  | cons s r ih =>
    simp only [planPackages, bind_eq_ok, pure_eq_ok, Prod.exists, Prod.mk.injEq] at h
    obtain ⟨_, _, hp, _, _, hps, _, rfl⟩ := h
    exact .cons (planPackage_eq_ok hp).1 (ih hps)

/-- The dependencies of a source, none if its manifest is wrong about them. -/
def declared (s : SourcePackage) : List (String × String) :=
  s.manifest.dependencies.toOption.getD []

/-- Where packages can be planned, all they declare is merged in their order. -/
theorem planPackages_merges (h : planPackages config version base merged ss = .ok (merged', ps)) :
    (∀ s ∈ ss, s.manifest.dependencies = .ok (declared s)) ∧
      merged.mergeAll (ss.map fun s => (s.identity, declared s)) = .ok merged' := by
  induction ss generalizing merged merged' ps with
  | nil =>
    cases h
    exact ⟨fun _ hs => absurd hs List.not_mem_nil, rfl⟩
  | cons s r ih =>
    simp only [planPackages, bind_eq_ok, pure_eq_ok, Prod.exists, Prod.mk.injEq] at h
    obtain ⟨_, _, hp, _, _, hps, rfl, -⟩ := h
    obtain ⟨-, ds, hd, hm⟩ := planPackage_eq_ok hp
    obtain ⟨hall, hrest⟩ := ih hps
    have hds : declared s = ds := by rw [declared, hd]; rfl
    rw [List.forall_mem_cons, List.map_cons, hds]
    exact ⟨⟨hd, hall⟩, bind_eq_ok.2 ⟨_, hm, hrest⟩⟩

/-- All that a plan owes to the configuration and the manifests. -/
structure Made (inputs : BuildInputs) (config : Config) (plan : BuildPlan)
    (base : String) : Prop where
  below : vendoredBase config = .ok base
  version : syncVersion config inputs.host = .ok plan.version
  identities : checkIdentities [] (config.packages ++ config.passThrough) = .ok ()
  packages : List.Forall₂ (Planned config plan.version base) inputs.sources plan.packages
  aliases : plan.aliases = aliasesOf plan.packages config.passThrough
  vendoredDir : plan.vendoredDir = config.vendoredDir
  aliasManifest : plan.aliasManifest = config.aliasManifest

theorem made_of_plan (h : inputs.plan config = .ok plan) :
    ∃ base, Made inputs config plan base := by
  simp only [BuildInputs.plan, bind_eq_ok, pure_eq_ok, Prod.exists] at h
  obtain ⟨version, hv, base, hb, _, -, _, hi, merged, packages, hp, rfl⟩ := h
  exact ⟨base, hb, hv, hi, planPackages_eq_ok hp, rfl, rfl, rfl⟩

theorem Made.exists_source {base : String} (h : Made inputs config plan base)
    (hp : p ∈ plan.packages) :
    ∃ s, (s, p) ∈ inputs.sources.zip plan.packages ∧
      Planned config plan.version base s p := by
  obtain ⟨hl, hz⟩ := List.forall₂_iff_zip.1 h.packages
  obtain ⟨i, hi, rfl⟩ := List.getElem_of_mem hp
  have hs : i < inputs.sources.length := hl ▸ hi
  have hm : (inputs.sources[i], plan.packages[i]) ∈ inputs.sources.zip plan.packages := by
    rw [List.mem_iff_getElem]
    exact ⟨i, by simp only [List.length_zip]; omega, by simp⟩
  exact ⟨_, hm, hz hm⟩

theorem Made.valid {base : String} (h : Made inputs config plan base) :
    ∀ p ∈ plan.packages, Identity.isValid p.identity = true := by
  intro p hp
  obtain ⟨s, -, hplanned⟩ := h.exists_source hp
  rw [hplanned.identity]
  exact hplanned.valid

/-- What the alias manifest is made of, in its order. -/
def aliasEntries (packages : List PlannedPackage) (passThrough : List String) :
    List (String × AliasRecord) :=
  packages.map (fun p => (p.identity, p.record)) ++ passThrough.map (·, .passThrough)

theorem aliasesOf_eq (packages : List PlannedPackage) (passThrough : List String) :
    aliasesOf packages passThrough =
      ⟨AliasManifest.currentSchema, Keyed.ofList (aliasEntries packages passThrough)⟩ := by
  rw [Keyed.ofList, aliasEntries, List.foldl_append, ← AliasManifest.foldl_insert_eq,
    ← AliasManifest.foldl_insert_eq]
  rfl

/-- The records with a root are those of the packages. -/
theorem mem_aliasesOf {packages : List PlannedPackage} {passThrough : List String}
    {identity root : String} {record : AliasRecord}
    (h : (identity, record) ∈ (aliasesOf packages passThrough).aliases)
    (hr : record.root? = some root) :
    ∃ p ∈ packages, p.identity = identity ∧ record = p.record := by
  rw [aliasesOf_eq] at h
  rcases List.mem_append.1 (Keyed.mem_ofList h) with h | h
  · obtain ⟨p, hp, he⟩ := List.mem_map.1 h
    cases he
    exact ⟨p, hp, rfl, rfl⟩
  · obtain ⟨_, -, he⟩ := List.mem_map.1 h
    cases he
    cases hr

/-- A plan with an alias manifest two directories below the host. -/
def nestedConfig : Config :=
  { packages := ["pkg"], vendoredDir := ⟨"./out//./copies"⟩, aliasManifest := ⟨"a/./b/names.json"⟩,
    marker? := none, sourceGlobs := [] }

def nestedInputs : BuildInputs where
  host := ⟨[("version", .string "1.0.0")]⟩
  sources := [⟨"pkg", ⟨"src/pkg"⟩, ⟨[("exports", .object [(".", .string "./lib/./x.js")])]⟩⟩]

theorem nested_plan : ∃ plan, nestedInputs.plan nestedConfig = .ok plan := by
  have h : (nestedInputs.plan nestedConfig).toOption.isSome = true := by decide +kernel
  cases hp : nestedInputs.plan nestedConfig with
  | error _ => rw [hp] at h; cases h
  | ok plan => exact ⟨plan, rfl⟩

end Vendoring.BuildPlan
