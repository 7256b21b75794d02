import Mathlib.Data.List.Nodup
import Vendoring.Proofs.Build.Redirects

/-! Packages keep apart: each one has a directory, a record and imports of its own. -/
namespace Vendoring
open Vendoring.Path

variable {config : Config} {inputs : BuildInputs} {plan : BuildPlan} {version base : String}
  {s : SourcePackage} {p : PlannedPackage} {host : Path} {identity other : String}

namespace AliasRegistry

/-- A visit asks for the entry of the package that the specifier names. -/
theorem visit_entry (r : AliasRegistry) (active : List String) (raw : String) :
    Visit.entry? (r.visit active raw) = r.lookup? (Specifier.parse raw).identity := by
  rcases r.visit_cases active raw with ⟨he, hv⟩ | ⟨e, hit, he, -, hv⟩ | ⟨e, he, -, hv⟩
  all_goals rw [hv, he]

end AliasRegistry

namespace BuildPlan

/-! ## Directories -/

/-- The copies of a build stand below its vendored directory, and none stands in another. -/
structure Apart (plan : BuildPlan) (host : Path) : Prop where
  below : ∀ p ∈ plan.packages, (plan.copyPath host p.identity).LiesIn (plan.vendoredPath host) ∧
    normal (plan.copyPath host p.identity) ≠ normal (plan.vendoredPath host)
  apart : plan.packages.Pairwise fun p q =>
    ¬ (plan.copyPath host p.identity).LiesIn (plan.copyPath host q.identity) ∧
      ¬ (plan.copyPath host q.identity).LiesIn (plan.copyPath host p.identity)

theorem copyPath_below (h : Identity.isValid identity = true) :
    (plan.copyPath host identity).LiesIn (plan.vendoredPath host) ∧
      normal (plan.copyPath host identity) ≠ normal (plan.vendoredPath host) := by
  have hhead := Identity.head?_of_isValid h
  have hup := Identity.not_up_of_isValid h
  refine ⟨join_liesIn hhead hup, normal_join_ne hhead hup ?_⟩
  rw [Identity.names_of_isValid h]
  exact Identity.stepNames_ne_nil h

theorem copyPath_apart (h : Identity.isValid identity = true) (h' : Identity.isValid other = true)
    (hne : identity ≠ other) : ¬ (plan.copyPath host other).LiesIn (plan.copyPath host identity) := by
  intro hl
  have hp := LiesIn.names_prefix (Identity.head?_of_isValid h) (Identity.not_up_of_isValid h)
    (Identity.head?_of_isValid h') (Identity.not_up_of_isValid h') hl
  rw [Identity.names_of_isValid h, Identity.names_of_isValid h'] at hp
  exact Identity.not_prefix_of_isValid h h' hne hp

theorem Made.apart (made : Made inputs config plan base)
    (hn : (plan.packages.map (·.identity)).Nodup) (host : Path) : plan.Apart host := by
  constructor
  · intro p hp
    exact copyPath_below (made.valid p hp)
  · have hne : plan.packages.Pairwise fun p q => p.identity ≠ q.identity := List.pairwise_map.1 hn
    apply hne.imp_of_mem
    intro p q hp hq hne
    have hvp := made.valid p hp
    have hvq := made.valid q hq
    exact ⟨copyPath_apart hvq hvp hne.symm, copyPath_apart hvp hvq hne⟩

/-! ## Records -/

/-- Each package that is configured has a record of its own, and those that are passed through have
empty ones behind them. -/
structure Recorded (inputs : BuildInputs) (config : Config) (plan : BuildPlan) : Prop where
  listed : plan.aliases.aliases.keys = config.packages ++ config.passThrough
  distinct : plan.aliases.aliases.keys.Nodup
  records : plan.aliases.aliases =
    plan.packages.map (fun p => (p.identity, ⟨some p.vendoredRoot, p.exports?⟩)) ++
      config.passThrough.map (·, ⟨none, none⟩)
  roots : (plan.packages.map (·.vendoredRoot)).Nodup
  sources : ∃ base, vendoredBase config = .ok base ∧ List.Forall₂ (fun s p =>
    p.identity = s.identity ∧ p.vendoredRoot = base ++ "/" ++ s.identity ∧
      Relocated p.vendoredRoot s.manifest.exports? p.exports?) inputs.sources plan.packages

theorem Made.roots_eq (made : Made inputs config plan base) :
    plan.packages.map (·.vendoredRoot) =
      (plan.packages.map (·.identity)).map (base ++ "/" ++ ·) := by
  rw [List.map_map]
  apply List.map_congr_left
  intro p hp
  obtain ⟨s, -, planned⟩ := made.exists_source hp
  rw [planned.root, Function.comp_apply, planned.identity]

section Listed
variable (made : Made inputs config plan base)
  (hs : inputs.sources.map (·.identity) = config.packages)
include made hs

theorem Made.recorded : Recorded inputs config plan where
  listed := by
    rw [made.aliases_eq hs, keys_aliasEntries, made.identities_eq, hs]
  distinct := by
    rw [made.aliases_eq hs]
    exact made.nodup_aliasEntries hs
  records := made.aliases_eq hs
  roots := by
    have hinj : Function.Injective (base ++ "/" ++ · : String → String) := by
      intro a b hab
      exact String.append_right_inj _ |>.1 hab
    rw [made.roots_eq]
    exact List.Nodup.map hinj (made.nodup_identities hs)
  sources := by
    refine ⟨base, made.below, made.packages.imp ?_⟩
    intro s p planned
    exact ⟨planned.identity, planned.root, planned.exports⟩

theorem Made.get?_package (hp : p ∈ plan.packages) :
    plan.aliases.aliases.get? p.identity = some p.record := by
  apply Keyed.get?_of_mem (made.recorded hs).distinct
  rw [made.aliases_eq hs]
  exact List.mem_append_left _ (List.mem_map_of_mem hp)

end Listed

/-- The copies of a build have places and records of their own: no copy lies in another one or
leaves the vendored directory, and no record takes the place of another. -/
theorem plan_separates (h : inputs.plan config = .ok plan)
    (hs : inputs.sources.map (·.identity) = config.packages) :
    (∀ host, plan.Apart host) ∧ Recorded inputs config plan := by
  obtain ⟨base, made⟩ := made_of_plan h
  exact ⟨made.apart (made.nodup_identities hs), made.recorded hs⟩

/-- Two packages of one scope, one without a scope, and one that is passed through. -/
def siblingConfig : Config :=
  { packages := ["@my/a", "@my/b", "a"], passThrough := ["@my/c"], vendoredDir := ⟨"out/./v"⟩ }

def siblingInputs : BuildInputs where
  host := ⟨[("version", .string "1.0.0")]⟩
  sources := [⟨"@my/a", ⟨"src/a"⟩, ⟨[("exports", .string "./a.js")]⟩⟩,
    ⟨"@my/b", ⟨"src/b"⟩, ⟨[]⟩⟩, ⟨"a", ⟨"src/c"⟩, ⟨[]⟩⟩]

theorem sibling_plan : ∃ plan, siblingInputs.plan siblingConfig = .ok plan ∧
    plan.packages.map (·.identity) = ["@my/a", "@my/b", "a"] := by
  have h : (siblingInputs.plan siblingConfig).toOption.map (·.packages.map (·.identity)) =
      some ["@my/a", "@my/b", "a"] := by decide +kernel
  cases hp : siblingInputs.plan siblingConfig with
  | error _ =>
    rw [hp] at h
    cases h
  | ok plan =>
    rw [hp] at h
    exact ⟨plan, rfl, Option.some.inj h⟩

theorem plan_separates_siblings : ∃ plan, siblingInputs.plan siblingConfig = .ok plan ∧
    plan.packages.map (·.identity) = ["@my/a", "@my/b", "a"] ∧ plan.Apart ⟨"/host"⟩ ∧
    plan.aliases.aliases.keys = ["@my/a", "@my/b", "a", "@my/c"] := by
  obtain ⟨plan, hp, hids⟩ := sibling_plan
  obtain ⟨hapart, hrecorded⟩ := plan_separates hp rfl
  exact ⟨plan, hp, hids, hapart ⟨"/host"⟩, hrecorded.listed⟩

/-! ## Imports -/

/-- A specifier has one split and no other. Identities that can be vendored are told apart by it:
an import of a package that was built asks for the entry of that package. -/
theorem parse_splits_uniquely (raw : String) :
    (Specifier.parse raw).SplitOf raw ∧
    (∀ s : Specifier, s.SplitOf raw → s = Specifier.parse raw) ∧
    (∀ identity subpath : String, Identity.isValid identity = true →
      Specifier.IsSubpath subpath.toList →
        Specifier.parse (identity ++ subpath) = ⟨identity, subpath⟩ ∧
        ∀ other rest : String, Identity.isValid other = true → Specifier.IsSubpath rest.toList →
          other ++ rest = identity ++ subpath → other = identity ∧ rest = subpath) ∧
    ∀ (inputs : BuildInputs) (config : Config) (plan : BuildPlan),
      inputs.plan config = .ok plan → inputs.sources.map (·.identity) = config.packages →
        ∀ p ∈ plan.packages, ∀ subpath : String, Specifier.IsSubpath subpath.toList →
          ∀ (anchor? : Option Path) (active : List String),
            Visit.entry? ((AliasRegistry.ofManifest plan.aliases anchor?).visit active
              (p.identity ++ subpath)) = some (p.record.toEntry p.identity anchor?) := by
  refine ⟨Specifier.parse_eq_iff.1 rfl, ?_, ?_, ?_⟩
  · intro s h
    exact (Specifier.parse_eq_iff.2 h).symm
  · intro identity subpath hv hsub
    have hparse := Identity.parse_of_isValid hv hsub
    refine ⟨hparse, ?_⟩
    intro other rest hv' hrest he
    rw [← he, Identity.parse_of_isValid hv' hrest] at hparse
    exact Specifier.mk.inj hparse
  · intro inputs config plan h hs p hp subpath hsub anchor? active
    obtain ⟨base, made⟩ := made_of_plan h
    have hdistinct := made.distinct_aliases.1
    rw [AliasRegistry.visit_entry, Identity.parse_of_isValid (made.valid p hp) hsub,
      AliasRegistry.lookup?_ofManifest hdistinct, made.get?_package hs hp, Option.map_some]

theorem parse_splits_uniquely_siblings :
    Specifier.parse "@my/b/x.js" = ⟨"@my/b", "/x.js"⟩ ∧
    ∃ plan, siblingInputs.plan siblingConfig = .ok plan ∧ ∃ p ∈ plan.packages,
      p.identity = "@my/b" ∧
        Visit.entry? ((AliasRegistry.ofManifest plan.aliases none).visit [] "@my/b/x.js") =
          some (p.record.toEntry "@my/b" none) := by
  obtain ⟨-, -, hsplit, hentry⟩ := parse_splits_uniquely "@my/b/x.js"
  have hsub : Specifier.IsSubpath "/x.js".toList := Or.inr rfl
  obtain ⟨plan, hp, hids⟩ := sibling_plan
  have hb : "@my/b" ∈ plan.packages.map (·.identity) := by
    rw [hids]
    decide
  obtain ⟨p, hm, hi⟩ := List.mem_map.1 hb
  have hfound := hentry _ _ _ hp rfl p hm "/x.js" hsub none []
  rw [hi] at hfound
  exact ⟨(hsplit "@my/b" "/x.js" (by decide) hsub).1, plan, hp, p, hm, hi, hfound⟩

end BuildPlan

end Vendoring
