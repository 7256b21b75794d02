import Vendoring.Proofs.Alias.Anchor
import Vendoring.Proofs.Alias.Registry
import Vendoring.Proofs.Build.Aliases
import Vendoring.Proofs.Build.Places
import Vendoring.Proofs.ExportMap.Targets
import Vendoring.Proofs.Lookup

/-! Redirection by what a build recorded. All roots and targets start with a way up from the alias
manifest, so nothing is looked up a second time. -/
namespace Vendoring.BuildPlan
open Outcome

variable {config : Config} {inputs : BuildInputs} {plan : BuildPlan} {version base identity : String}
  {s : SourcePackage} {p : PlannedPackage} {anchor : Path} {raw x : String}
  {seen identities : List String}

/-- What stands first on a way up. -/
def IsUpward (lead : String) : Prop := lead = "./" ∨ lead = "../"

theorem exists_upward (n : Nat) : ∃ lead y, IsUpward lead ∧ upward n = lead ++ y := by
  cases n with
  | zero => exact ⟨"./", "", Or.inl rfl, rfl⟩
  | succ n =>
    refine ⟨"../", String.join (List.replicate n "../"), Or.inr rfl, ?_⟩
    rw [upward, if_neg n.succ_ne_zero, List.replicate_succ, String.join_cons]

theorem IsUpward.isRelative {lead : String} (h : IsUpward lead) (rest : String) :
    Specifier.isRelative (lead ++ rest) = true := by
  rcases h with rfl | rfl <;> simp [Specifier.isRelative]

theorem IsUpward.stars {lead : String} (h : IsUpward lead) : ExportMap.stars lead = 0 := by
  rcases h with rfl | rfl <;> decide

theorem Made.exists_lead (h : Made inputs config plan base) :
    ∃ lead y, IsUpward lead ∧ base = lead ++ y := by
  obtain ⟨ss, ds, -, -, -, rfl⟩ := vendoredBase_eq_ok h.below
  obtain ⟨lead, y, hl, hy⟩ := exists_upward ds.length
  exact ⟨lead, _, hl, by rw [hy, String.append_assoc]⟩

/-- What is recorded for a package leads nowhere but to paths from the anchor. -/
theorem Made.confined (h : Made inputs config plan base)
    (hp : Planned config version base s p) (anchor? : Option Path) :
    (p.record.toEntry identity anchor?).Confined := by
  obtain ⟨lead, y, hl, rfl⟩ := h.exists_lead
  have hroot : p.vendoredRoot = lead ++ (y ++ "/" ++ s.identity) := by
    simp [hp.root, String.append_assoc]
  refine ⟨⟨p.vendoredRoot, rfl, fun subpath => ?_⟩, fun m' hm' subpath active hit hf => ?_⟩
  · rw [hp.root_trimmed, String.ofList_toList, hroot, String.append_assoc]
    exact hl.isRelative _
  · obtain ⟨v, m, -, -, moved⟩ := hp.exists_relocated hm'
    have hlead : ∀ t ∈ m'.targets, ∃ rest, t = lead ++ rest := by
      intro t ht
      obtain ⟨rest, rfl⟩ := ExportMap.targets_relocate hp.root_trimmed moved ht
      exact ⟨_, by rw [hroot, String.append_assoc, String.append_assoc]⟩
    obtain ⟨rest, hrest⟩ := ExportMap.find?_lead hl.stars hlead hf
    exact hrest ▸ hl.isRelative rest

theorem nodup_of_checkIdentities (h : checkIdentities seen identities = .ok ()) :
    identities.Nodup ∧ ∀ i ∈ identities, i ∉ seen := by
  induction identities generalizing seen with
  | nil => exact ⟨List.nodup_nil, nofun⟩
  | cons identity r ih =>
    simp only [checkIdentities, bind_eq_ok] at h
    obtain ⟨_, -, h⟩ := h
    split at h
    · cases h
    · next hseen =>
      obtain ⟨hn, hr⟩ := ih h
      refine ⟨List.nodup_cons.2 ⟨fun hm => hr _ hm (List.mem_cons_self ..), hn⟩, fun i hi => ?_⟩
      rcases List.mem_cons.1 hi with rfl | hi
      · exact hseen
      · exact fun hm => hr i hi (List.mem_cons_of_mem _ hm)

theorem Made.identities_eq (h : Made inputs config plan base) :
    plan.packages.map (·.identity) = inputs.sources.map (·.identity) := by
  have hf := h.packages
  generalize inputs.sources = ss, plan.packages = ps at hf ⊢
  induction hf with
  | nil => rfl
  | cons hp _ ih => rw [List.map_cons, List.map_cons, hp.identity, ih]

theorem keys_aliasEntries (packages : List PlannedPackage) (passThrough : List String) :
    Keyed.keys (aliasEntries packages passThrough) = packages.map (·.identity) ++ passThrough := by
  simp [Keyed.keys, aliasEntries, Function.comp_def]

section Listed
variable (made : Made inputs config plan base)
  (hs : inputs.sources.map (·.identity) = config.packages)
include made hs

theorem Made.nodup_aliasEntries :
    (Keyed.keys (aliasEntries plan.packages config.passThrough)).Nodup := by
  rw [keys_aliasEntries, made.identities_eq, hs]
  exact (nodup_of_checkIdentities made.identities).1

theorem Made.nodup_identities : (plan.packages.map (·.identity)).Nodup := by
  have hn := made.nodup_aliasEntries hs
  rw [keys_aliasEntries] at hn
  exact (List.nodup_append.1 hn).1

/-- No record takes the place of another. -/
theorem Made.aliases_eq :
    plan.aliases.aliases = aliasEntries plan.packages config.passThrough := by
  rw [made.aliases, aliasesOf_eq]
  exact Keyed.ofList_of_nodup (made.nodup_aliasEntries hs)

theorem Made.get?_listed (hi : identity ∈ config.packages) :
    ∃ p ∈ plan.packages, plan.aliases.aliases.get? identity = some p.record := by
  have hk : identity ∈ Keyed.keys (plan.packages.map fun p => (p.identity, p.record)) := by
    simpa [Keyed.keys, Function.comp_def, made.identities_eq, hs] using hi
  obtain ⟨record, hr⟩ := Option.isSome_iff_exists.1 (Keyed.mem_keys_iff.1 hk)
  obtain ⟨p, hp, he⟩ := List.mem_map.1 (Keyed.mem_of_get? hr)
  cases he
  refine ⟨p, hp, ?_⟩
  rw [made.aliases_eq hs, aliasEntries, Keyed.get?_append, hr, Option.some_or]

theorem Made.get?_unlisted (hi : identity ∉ config.packages) :
    plan.aliases.aliases.get? identity = none ∨
      plan.aliases.aliases.get? identity = some .passThrough := by
  have hk : identity ∉ Keyed.keys (plan.packages.map fun p => (p.identity, p.record)) := by
    simpa [Keyed.keys, Function.comp_def, made.identities_eq, hs] using hi
  rw [made.aliases_eq hs, aliasEntries, Keyed.get?_append, Keyed.get?_eq_none_iff.2 hk,
    Option.none_or]
  cases hg : Keyed.get? (config.passThrough.map (·, AliasRecord.passThrough)) identity with
  | none => exact Or.inl rfl
  | some record =>
    obtain ⟨_, -, he⟩ := List.mem_map.1 (Keyed.mem_of_get? hg)
    cases he
    exact Or.inr rfl

theorem Made.next_listed (hi : (Specifier.parse raw).identity ∈ config.packages)
    (ha : anchor.isAbsolute = true) (active : List String) :
    ∃ spec, ((AliasRegistry.ofManifest plan.aliases (some anchor)).visit active raw).next =
      .delegate spec ∧ (⟨spec⟩ : Path).isAbsolute = true := by
  obtain ⟨p, hp, hg⟩ := made.get?_listed hs hi
  obtain ⟨s, -, planned⟩ := made.exists_source hp
  have hl := AliasRegistry.lookup?_ofManifest made.distinct_aliases.1 (some anchor)
    (Specifier.parse raw).identity
  rw [hg, Option.map_some] at hl
  obtain ⟨rel, hrel, hnext⟩ := AliasRegistry.next_of_confined hl (made.confined planned _) active
  exact ⟨_, hnext, AliasEntry.isAbsolute_anchored rfl ha hrel⟩

theorem Made.next_unlisted (hi : (Specifier.parse raw).identity ∉ config.packages)
    (anchor? : Option Path) (active : List String) :
    ((AliasRegistry.ofManifest plan.aliases anchor?).visit active raw).next = .delegate raw := by
  have hl := AliasRegistry.lookup?_ofManifest made.distinct_aliases.1 anchor?
    (Specifier.parse raw).identity
  rcases made.get?_unlisted hs hi with hg | hg
  · exact AliasRegistry.next_of_unlisted (by rw [hl, hg, Option.map_none])
  · exact AliasRegistry.next_of_passThrough (by rw [hl, hg, Option.map_some])

end Listed

/-- Whatever is imported of a package that was built goes to a path from the top, wherever the
importer stands; all other specifiers stay as they are. The registry is entered once. -/
theorem redirect_plan (h : inputs.plan config = .ok plan)
    (hs : inputs.sources.map (·.identity) = config.packages) (ha : anchor.isAbsolute = true)
    (active : List String) (maxDepth : Nat) (raw : String) :
    ((Specifier.parse raw).identity ∈ config.packages →
      ∃ spec, (AliasRegistry.ofManifest plan.aliases (some anchor)).redirect active maxDepth raw =
          .ok ⟨spec, spec ≠ raw, 0⟩ ∧
        (⟨spec⟩ : Path).isAbsolute = true ∧
        ∀ (m : Type → Type) [Monad m] [Files.FileView m] (extensions conditions : List String)
          (directory directory' : Path),
          (Lookup.resolve extensions ⟨directory, conditions⟩ spec : m _) =
            Lookup.resolve extensions ⟨directory', conditions⟩ spec) ∧
    ((Specifier.parse raw).identity ∉ config.packages →
      (AliasRegistry.ofManifest plan.aliases (some anchor)).redirect active maxDepth raw =
        .ok ⟨raw, false, 0⟩) := by
  obtain ⟨base, made⟩ := made_of_plan h
  constructor
  · intro hi
    obtain ⟨spec, hnext, habs⟩ := made.next_listed hs hi ha active
    exact ⟨spec, AliasRegistry.redirect_of_delegate hnext maxDepth, habs,
      fun m _ _ _ _ _ _ => Lookup.resolve_of_absolute habs⟩
  · intro hi
    have hnext := made.next_unlisted hs hi (some anchor) active
    simpa using AliasRegistry.redirect_of_delegate hnext maxDepth

theorem redirect_plan_nested : ∃ plan, nestedInputs.plan nestedConfig = .ok plan ∧
    (AliasRegistry.ofManifest plan.aliases (some ⟨"/host/a/b"⟩)).redirect ["import"] 0 "other/x" =
      .ok ⟨"other/x", false, 0⟩ ∧
    ∃ spec, (AliasRegistry.ofManifest plan.aliases (some ⟨"/host/a/b"⟩)).redirect ["import"] 0
      "pkg/x" = .ok ⟨spec, spec ≠ "pkg/x", 0⟩ ∧ (⟨spec⟩ : Path).isAbsolute = true := by
  obtain ⟨plan, hp⟩ := nested_plan
  have ha : (⟨"/host/a/b"⟩ : Path).isAbsolute = true := by decide
  obtain ⟨spec, hspec, habs, -⟩ :=
    (redirect_plan hp rfl ha ["import"] 0 "pkg/x").1 (by decide +kernel)
  exact ⟨plan, hp, (redirect_plan hp rfl ha ["import"] 0 "other/x").2 (by decide +kernel),
    spec, hspec, habs⟩

end Vendoring.BuildPlan
