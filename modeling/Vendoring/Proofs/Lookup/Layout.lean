import Vendoring.Proofs.Build.Inputs
import Vendoring.Proofs.Build.Plan
import Vendoring.Proofs.Lookup.Packages

/-! Packages that declare no exports. Those without the field answer by their files; those whose
exports are null are vendored like them, but refuse all imports. -/
namespace Vendoring
open Files

variable {d d' : Disk} {extensions : List String} {package : Path} {m : PackageManifest}
  {inputs : BuildInputs} {config : Config} {plan : BuildPlan}

namespace PackageManifest

def main? (m : PackageManifest) : Option String := (m.fields.get? "main").bind Json.string?

end PackageManifest

namespace SourcePackage

/-- The manifest that the copy of a package has by the plan. -/
def copied (s : SourcePackage) (p : PlannedPackage) : PackageManifest :=
  p.renamed?.getD s.manifest

end SourcePackage

namespace Lookup

/-- A manifest that is loaded is what lookups read. -/
theorem packageAt_of_load
    (h : on (PackageManifest.load package : Program BuildFault PackageManifest) d = (.ok m, d')) :
    packageAt d package = some (.object m.fields) := by
  obtain ⟨-, bytes, text, hread, htext, hparse⟩ := PackageManifest.load_eq_ok h
  have hcontents : d.contents (package.join "package.json") = .ok bytes := hread
  rw [packageAt_eq, hcontents]
  dsimp only [Except.toOption, Option.bind_some]
  rw [htext, Option.bind_some, PackageManifest.fields_of_parse hparse]

/-- What lookups of a package answer: `own` is the answer of its directory, and `below` are those
for its subpaths. -/
structure Answering (d : Disk) (extensions : List String) (package : Path) (own : Outcome)
    (below : List String → String → Outcome) : Prop where
  directory : ∀ conditions, answer d (directory extensions conditions package) = own
  root : ∀ conditions, answer d (inPackage extensions conditions package "") =
    fileOr d (siblings extensions package) own
  subpath : ∀ conditions subpath, subpath ≠ "" →
    answer d (inPackage extensions conditions package subpath) = below conditions subpath
  /-- The answer to a path that leads to the directory. -/
  named : ∀ importer spec, named? importer spec = some package → hasScheme spec = false →
    verdict d extensions importer spec = fileOr d (siblings extensions package) own
  /-- The answer to a bare specifier, the directory's among those of the others that it may mean. -/
  bare : ∀ importer spec before after, IsBare spec →
    packagesFor d importer spec = before ++ package :: after →
    verdict d extensions importer spec =
      settled true none (before.map (answerWithin d extensions importer spec) ++
        (if (Specifier.parse spec).subpath = "" then fileOr d (siblings extensions package) own
          else below importer.conditions (Specifier.parse spec).subpath) ::
        after.map (answerWithin d extensions importer spec))

theorem answering_of {own : Outcome} {below : List String → String → Outcome}
    (hk : d.kind package = .ok .directory)
    (hown : ∀ conditions, answer d (directory extensions conditions package) = own)
    (hbelow : ∀ conditions subpath, subpath ≠ "" →
      answer d (inPackage extensions conditions package subpath) = below conditions subpath) :
    Answering d extensions package own below := by
  have hroot (conditions : List String) :
      answer d (inPackage extensions conditions package "") =
        fileOr d (siblings extensions package) own := by
    rw [answer_root hk, hown]
  refine ⟨hown, hroot, hbelow, ?_, ?_⟩
  · intro importer spec hnamed hscheme
    have hfile : d.kind package ≠ .ok .file := by simp [hk]
    rw [verdict_of_named hnamed, hscheme, outcome_path hfile, if_pos hk, hown]
    rfl
  · intro importer spec before after hb hall
    have hwithin : answerWithin d extensions importer spec package =
        if (Specifier.parse spec).subpath = "" then fileOr d (siblings extensions package) own
        else below importer.conditions (Specifier.parse spec).subpath := by
      rw [answerWithin]
      split
      · next hwhole => rw [hwhole, hroot]
      · next hsub => exact hbelow _ _ hsub
    have hmem : package ∈ packagesFor d importer spec :=
      hall ▸ List.mem_append_right _ (List.mem_cons_self ..)
    rw [verdict_of_bare hb, any_hasModules_of_mem hmem, hall, List.map_append, List.map_cons,
      hwithin]

/-- What becomes of a package that declares no exports: without the field all goes by its files,
and with null for exports nothing can be imported. -/
def Unexported (d : Disk) (extensions : List String) (package : Path) (m : PackageManifest) :
    Prop :=
  (m.fields.get? "exports" = none ∧ Answering d extensions package
    (fileOr d (layoutFiles d extensions package m.main?) (.error .isDirectory))
    fun conditions subpath => answer d (path extensions conditions (plainPath package subpath))) ∨
  (m.fields.get? "exports" = some .null ∧ Answering d extensions package
    (.error .packageJsonInvalid) fun _ _ => .error .packageJsonInvalid)

theorem unexported_of_load
    (h : on (PackageManifest.load package : Program BuildFault PackageManifest) d = (.ok m, d'))
    (hx : m.exports? = none) (hk : d.kind package = .ok .directory) :
    Unexported d extensions package m := by
  have hv := packageAt_of_load h
  have hexports : (Json.object m.fields).field? "exports" = m.fields.get? "exports" := rfl
  rcases PackageManifest.exports?_eq_none.1 hx with hnone | hnull
  · refine Or.inl ⟨hnone, answering_of hk (fun conditions => ?_) fun conditions subpath hs => ?_⟩
    · rw [answer_directory hv, hexports, hnone]
      rfl
    · rw [answer_subpath hv hs, hexports, hnone]
  · have hrefused (conditions : List String) (subpath : String) :
        answer d (exported extensions conditions package .null subpath) =
          .error .packageJsonInvalid := rfl
    refine Or.inr ⟨hnull, answering_of hk (fun conditions => ?_) fun conditions subpath hs => ?_⟩
    · rw [answer_directory hv, hexports, hnull]
      exact hrefused _ _
    · rw [answer_subpath hv hs, hexports, hnull]
      exact hrefused _ _

/-- Where a package without the field has a file of its own to give, it is resolved as a whole. -/
theorem Unexported.resolves {importer : Importer} {spec : String} {f : Path}
    (h : Unexported d extensions package m) (hx : m.fields.get? "exports" = none)
    (hf : fileAmong? d (layoutFiles d extensions package m.main?) = some f)
    (hn : named? importer spec = some package) (hs : hasScheme spec = false) :
    ∃ q, resolveOn d extensions importer spec = .ok q := by
  rcases h with ⟨-, hanswer⟩ | ⟨hnull, -⟩
  · have hown : ∃ q, fileOr d (layoutFiles d extensions package m.main?) (.error .isDirectory) =
        .ok q := ⟨_, fileOr_eq_ok.2 (Or.inl ⟨f, hf, rfl⟩)⟩
    obtain ⟨q, hq⟩ := exists_fileOr_eq_ok hown (siblings extensions package)
    exact ⟨q, verdict_eq_ok.1 ((hanswer.named importer spec hn hs).trans hq)⟩
  · rw [hx] at hnull
    cases hnull

end Lookup

namespace BuildPlan
open Lookup

theorem get?_copied {version base : String} {s : SourcePackage} {p : PlannedPackage}
    (h : Planned config version base s p) {key : String} (hn : key ≠ "name")
    (hv : key ≠ "version") : (s.copied p).fields.get? key = s.manifest.fields.get? key := by
  rw [SourcePackage.copied, h.renamed]
  split
  · exact (PackageManifest.get?_setField_of_ne hv.symm _ _).trans
      (PackageManifest.get?_setField_of_ne hn.symm _ _)
  · rfl

theorem exports?_copied {version base : String} {s : SourcePackage} {p : PlannedPackage}
    (h : Planned config version base s p) (hk : p.kind = .path) :
    (s.copied p).exports? = none := by
  have hsame : (s.copied p).exports? = s.manifest.exports? := by
    rw [PackageManifest.exports?, get?_copied h (by decide) (by decide), PackageManifest.exports?]
  have hnone : p.exports? = none := by
    rw [PlannedPackage.kind] at hk
    cases hx : p.exports? with
    | none => rfl
    | some map =>
      rw [hx] at hk
      cases hk
  have hmoved := h.exports
  rw [hnone] at hmoved
  rw [hsame]
  generalize s.manifest.exports? = declared at hmoved
  cases hmoved
  rfl

/-- Packages without declared exports. For a lookup they are of two kinds: without the field all
goes by their files, and with null all imports are refused. A build makes plain aliases of both, and
what it copies is of the kind that the source is. A copy without the field is resolved as a whole as
soon as it has a file to give. -/
theorem resolve_unexported (extensions : List String)
    (h : on (PackageManifest.load package : Program BuildFault PackageManifest) d = (.ok m, d'))
    (hx : m.exports? = none) (hdir : d.kind package = .ok .directory) :
    Unexported d extensions package m ∧
    ∀ (inputs : BuildInputs) (config : Config) (plan : BuildPlan),
      inputs.plan config = .ok plan →
      List.Forall₂ (fun s p => p.kind = .path →
        (s.copied p).exports? = none ∧
        (s.copied p).fields.get? "exports" = s.manifest.fields.get? "exports" ∧
        (m = s.copied p → s.manifest.fields.get? "exports" = none →
          ∀ f, fileAmong? d (layoutFiles d extensions package m.main?) = some f →
            ∀ importer spec, named? importer spec = some package → hasScheme spec = false →
              ∃ q, resolveOn d extensions importer spec = .ok q))
        inputs.sources plan.packages := by
  have hpackage : Unexported d extensions package m := unexported_of_load h hx hdir
  refine ⟨hpackage, fun inputs config plan hplan => ?_⟩
  obtain ⟨base, hmade⟩ := made_of_plan hplan
  refine hmade.packages.imp fun s p hplanned hk => ?_
  have hsame : (s.copied p).fields.get? "exports" = s.manifest.fields.get? "exports" :=
    get?_copied hplanned (by decide) (by decide)
  refine ⟨exports?_copied hplanned hk, hsame, ?_⟩
  rintro rfl hnone f hf importer spec hn hs
  exact hpackage.resolves (hsame.trans hnone) hf hn hs

/-- Two packages with an index, one without exports and one whose exports are null. -/
def layoutDisk : Disk where
  root := .directory [
    ("pkg", .directory [("package.json", .file "\x7b\x7d".toUTF8), ("index.js", .file ⟨#[1]⟩)]),
    ("closed", .directory [("package.json", .file "\x7b\"exports\":null\x7d".toUTF8),
      ("index.js", .file ⟨#[2]⟩)])]
  here := []

def plainInputs : BuildInputs :=
  { nestedInputs with sources := [⟨"pkg", ⟨"/pkg"⟩, ⟨[]⟩⟩] }

theorem exists_load (d : Disk) (package : Path) (test : PackageManifest → Bool)
    (h : (on (PackageManifest.load package : Program BuildFault PackageManifest) d).1.toOption.any
      test = true) :
    ∃ m d', on (PackageManifest.load package : Program BuildFault PackageManifest) d =
      (.ok m, d') ∧ test m = true := by
  obtain ⟨m, hm, ht⟩ := (Option.any_eq_true _ _).1 h
  exact ⟨m, _, Prod.ext (Outcome.toOption_eq_some.1 hm) rfl, ht⟩

theorem resolve_unexported_both :
    (∃ m, m.exports? = none ∧ Unexported layoutDisk defaultExtensions ⟨"/closed"⟩ m ∧
      verdict layoutDisk defaultExtensions ⟨⟨"/"⟩, []⟩ "/closed" = .error .packageJsonInvalid) ∧
    ∃ plan p q, plainInputs.plan nestedConfig = .ok plan ∧ plan.packages = [p] ∧ p.kind = .path ∧
      resolveOn layoutDisk defaultExtensions ⟨⟨"/"⟩, []⟩ "/pkg" = .ok q := by
  constructor
  · obtain ⟨m, d₁, hload, hm⟩ := exists_load layoutDisk ⟨"/closed"⟩ (·.exports?.isNone)
      (by decide +kernel)
    have hx : m.exports? = none := Option.isNone_iff_eq_none.1 hm
    exact ⟨m, hx, (resolve_unexported _ hload hx (by decide +kernel)).1, by decide +kernel⟩
  · obtain ⟨⟨fields⟩, d₁, hload, hm⟩ := exists_load layoutDisk ⟨"/pkg"⟩ (·.fields.isEmpty)
      (by decide +kernel)
    obtain rfl : fields = [] := List.isEmpty_iff.1 hm
    have hplanned : (plainInputs.plan nestedConfig).toOption.map (·.packages.map fun p =>
        (p.kind, p.renamed?.isNone)) = some [(.path, true)] := by decide +kernel
    obtain ⟨plan, hplan, hpackages⟩ := Option.map_eq_some_iff.1 hplanned
    have hplan := Outcome.toOption_eq_some.1 hplan
    have hall := (resolve_unexported defaultExtensions hload rfl (by decide +kernel)).2 _ _ _ hplan
    obtain ⟨p, rest, hp, hrest, heq⟩ := List.forall₂_cons_left_iff.1 hall
    obtain rfl := List.forall₂_nil_left_iff.1 hrest
    rw [heq, List.map_singleton, List.singleton_inj, Prod.mk.injEq] at hpackages
    obtain ⟨hkind, hrenamed⟩ := hpackages
    have hcopied : SourcePackage.copied ⟨"pkg", ⟨"/pkg"⟩, ⟨[]⟩⟩ p = ⟨[]⟩ := by
      rw [SourcePackage.copied, Option.isNone_iff_eq_none.1 hrenamed]
      rfl
    obtain ⟨-, -, hresolves⟩ := hp hkind
    obtain ⟨q, hq⟩ := hresolves hcopied.symm rfl ⟨"/pkg/index.js"⟩ (by decide +kernel)
      ⟨⟨"/"⟩, []⟩ "/pkg" (by decide) (by decide)
    exact ⟨plan, p, q, hplan, heq, hkind, hq⟩

end BuildPlan

end Vendoring
