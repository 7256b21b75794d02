import Vendoring.Proofs.Files.Canonical
import Vendoring.Proofs.Lookup.Search

/-! Bare specifiers: the packages above the importer are asked one after the other, and a package
with exports answers by its export map. Only a file beside it that bears its name and an extension
comes before the map of a package that is imported as a whole. -/
namespace Vendoring.Lookup
open Files

variable {d : Disk} {extensions conditions : List String} {importer : Importer} {spec : String}
  {package p : Path} {v : Json} {map : ExportMap} {subpath identity : String} {dirs : List Path}
  {seen : Bool} {refusal? : Option Reason} {answers : List Outcome} {withPackage : Json → Search}
  {without : Search}

/-! ## The manifest of a package -/

theorem packageAt_eq (d : Disk) (directory : Path) : packageAt d directory =
    (d.contents (directory.join "package.json")).toOption.bind fun bytes =>
      (String.fromUTF8? bytes).bind fun text => (Json.parse text).toOption := by
  have hcontents : (FileView.contents (directory.join "package.json") :
      ExceptT Files.Fault (ReaderM Disk) ByteArray).run.run d =
        d.contents (directory.join "package.json") := rfl
  rw [packageAt, readPackage, run_ask, readText, ExceptT.run_bind, run_ask, hcontents]
  cases d.contents (directory.join "package.json") with
  | error _ => rfl
  | ok bytes =>
    dsimp only [Except.toOption, Option.bind_some]
    cases String.fromUTF8? bytes <;> rfl

theorem kind_of_packageAt (h : packageAt d package = some v) :
    d.kind (package.join "package.json") = .ok .file := by
  rw [packageAt_eq] at h
  cases hread : d.contents (package.join "package.json") with
  | error _ =>
    rw [hread] at h
    cases h
  | ok bytes =>
    obtain ⟨t, hheld⟩ := Disk.held_of_contents hread
    exact Disk.kind_eq_file.2 ⟨t, bytes, hheld⟩

theorem outcome_package (h : packageAt d package = some v) :
    (packageSearch d package withPackage without).outcome d = (withPackage v).outcome d := by
  rw [packageSearch, if_pos (kind_of_packageAt h), h, Search.outcome_behind]
  rfl

/-- The files that a directory may stand for if it has no exports: that of its main field, and its
index. -/
def layoutFiles (d : Disk) (extensions : List String) (directory : Path) (main? : Option String) :
    List Path :=
  mainFiles d extensions directory main? ++ indexFiles extensions directory

theorem answer_directory (h : packageAt d package = some v) :
    answer d (directory extensions conditions package) = match v.field? "exports" with
      | some exports => answer d (exported extensions conditions package exports "")
      | none => fileOr d (layoutFiles d extensions package ((v.field? "main").bind Json.string?))
          (.error .isDirectory) := by
  rw [(follows_directory package).answer_eq, directorySearch, outcome_package h]
  cases v.field? "exports" with
  | some exports => exact (follows_exported _ _ _).answer_eq.symm
  | none =>
    rw [layoutFiles, fileOr_append, ← Search.outcome_candidates]
    exact Search.outcome_behind_candidates _ _

/-- A package that is imported as a whole is looked for as a path is. -/
theorem answer_root (hk : d.kind package = .ok .directory) :
    answer d (inPackage extensions conditions package "") =
      fileOr d (siblings extensions package)
        (answer d (directory extensions conditions package)) := by
  have hfile : d.kind package ≠ .ok .file := by simp [hk]
  rw [(follows_inPackage package "").answer_eq, inPackageSearch, if_pos rfl, outcome_path hfile,
    if_pos hk]

theorem answer_subpath (h : packageAt d package = some v) (hs : subpath ≠ "") :
    answer d (inPackage extensions conditions package subpath) = match v.field? "exports" with
      | some exports => answer d (exported extensions conditions package exports subpath)
      | none => answer d (path extensions conditions (plainPath package subpath)) := by
  rw [(follows_inPackage package subpath).answer_eq, inPackageSearch, if_neg hs, outcome_package h]
  cases v.field? "exports" with
  | some exports => exact (follows_exported _ _ _).answer_eq.symm
  | none => exact (follows_path _).answer_eq.symm

/-! ## Asking one package after the other -/

/-- Whether a directory has a `node_modules`. -/
def hasModules (d : Disk) (dir : Path) : Bool := d.kind (dir.join "node_modules") = .ok .directory

/-- The directories that a package may be in: those of its name in the `node_modules` of some
directories. -/
def packagesAbove (d : Disk) (identity : String) (dirs : List Path) : List Path :=
  ((dirs.filter (hasModules d)).map (packagePath · identity)).filter
    fun package => d.kind package = .ok .directory

/-- The refusal that an answer is. -/
def refusalOf : Outcome → Option Reason
  | .ok _ => none
  | .error e => if e.isRefusal then some e else none

/-- What comes of the answers of packages: the first file that is given, or else the last
refusal. -/
def settled (seen : Bool) (refusal? : Option Reason) (answers : List Outcome) : Outcome :=
  match answers.findSome? Except.toOption with
  | some p => .ok p
  | none => .error (bareFailure seen ((answers.filterMap refusalOf).getLast?.or refusal?))

theorem settled_ok : settled seen refusal? (.ok p :: answers) = .ok p := rfl

theorem settled_error (e : Reason) : settled seen refusal? (.error e :: answers) =
    settled seen (if e.isRefusal then some e else refusal?) answers := by
  have hfirst : (Except.error e :: answers).findSome? Except.toOption =
      answers.findSome? Except.toOption := rfl
  rw [settled, hfirst, settled, List.filterMap_cons, refusalOf]
  split
  · rfl
  · by_cases he : e.isRefusal = true
    · rw [if_pos he, if_pos he]
      dsimp only
      rw [List.getLast?_cons]
      cases (answers.filterMap refusalOf).getLast? <;> rfl
    · rw [if_neg he, if_neg he]

theorem settled_eq_ok : settled seen refusal? answers = .ok p ↔
    answers.findSome? Except.toOption = some p := by
  rw [settled]
  cases answers.findSome? Except.toOption <;> simp

theorem packagesAbove_skip {dir : Path} (h : hasModules d dir = false) :
    packagesAbove d identity (dir :: dirs) = packagesAbove d identity dirs := by
  rw [packagesAbove, List.filter_cons_of_neg (by simp [h]), packagesAbove]

theorem packagesAbove_cons {dir : Path} (h : hasModules d dir = true) :
    packagesAbove d identity (dir :: dirs) =
      if d.kind (packagePath dir identity) = .ok .directory then
        packagePath dir identity :: packagesAbove d identity dirs
      else packagesAbove d identity dirs := by
  rw [packagesAbove, List.filter_cons_of_pos h, List.map_cons, List.filter_cons, packagesAbove]
  simp only [decide_eq_true_eq]

/-- What the packages above answer decides a bare specifier. -/
theorem outcome_bare (s : Specifier) (seen : Bool) (refusal? : Option Reason) (dirs : List Path) :
    (bareSearch d extensions conditions s seen refusal? dirs).outcome d =
      settled (seen || dirs.any (hasModules d)) refusal?
        ((packagesAbove d s.identity dirs).map fun package =>
          answer d (inPackage extensions conditions package s.subpath)) := by
  induction dirs generalizing seen refusal? with
  | nil => cases seen <;> rfl
  | cons dir above ih =>
    rw [bareSearch, List.any_cons]
    by_cases hm : d.kind (dir.join "node_modules") = .ok .directory
    · have hmodules : hasModules d dir = true := decide_eq_true hm
      have hunseen : hit? d [.package (packagePath dir s.identity)] = none := rfl
      rw [if_pos hm, packagesAbove_cons hmodules, hmodules, Bool.true_or, Bool.or_true,
        Search.outcome_behind, hunseen]
      dsimp only
      split
      · -- Either the package answers, or what it refuses is kept and the search goes on above.
        have hhere : answer d (inPackage extensions conditions (packagePath dir s.identity)
            s.subpath) = _ := (follows_inPackage _ _).answer_eq
        rw [Search.outcome] at hhere
        rw [List.map_cons, Search.outcome_behind]
        cases hhit : hit? d (inPackageSearch d extensions conditions (packagePath dir s.identity)
            s.subpath).sights with
        | some p =>
          rw [hhit] at hhere
          rw [hhere]
          exact settled_ok.symm
        | none =>
          rw [hhit] at hhere
          rw [hhere, settled_error, ih, Bool.true_or]
      · rw [ih, Bool.true_or]
    · have hmodules : hasModules d dir = false := decide_eq_false hm
      rw [if_neg hm, packagesAbove_skip hmodules, hmodules, Bool.false_or, ih]

/-- A specifier that is looked for in the packages above the importer. -/
structure IsBare (spec : String) : Prop where
  nonempty : spec ≠ ""
  schemeless : hasScheme spec = false
  notRelative : Specifier.isRelative spec = false
  notAbsolute : isAbsolute spec = false

/-- The packages above an importer that a bare specifier may mean, the nearest first. -/
def packagesFor (d : Disk) (importer : Importer) (spec : String) : List Path :=
  packagesAbove d (Specifier.parse spec).identity importer.directory.ancestors

/-- What a package answers to a bare specifier. -/
def answerWithin (d : Disk) (extensions : List String) (importer : Importer) (spec : String)
    (package : Path) : Outcome :=
  answer d (inPackage extensions importer.conditions package (Specifier.parse spec).subpath)

theorem verdict_of_bare (h : IsBare spec) : verdict d extensions importer spec =
    settled (importer.directory.ancestors.any (hasModules d)) none
      ((packagesFor d importer spec).map (answerWithin d extensions importer spec)) := by
  have hnamed : named? importer spec = none := by
    rw [named?, h.notRelative, h.notAbsolute]
    rfl
  rw [verdict_eq, search, if_neg h.nonempty, h.schemeless, hnamed]
  exact outcome_bare _ _ _ _

theorem kind_of_mem_packagesFor (h : package ∈ packagesFor d importer spec) :
    d.kind package = .ok .directory := by
  simpa using (List.mem_filter.1 h).2

theorem any_hasModules_of_mem (h : package ∈ packagesFor d importer spec) :
    importer.directory.ancestors.any (hasModules d) = true := by
  obtain ⟨dir, hdir, -⟩ := List.mem_map.1 (List.mem_filter.1 h).1
  obtain ⟨hmem, hmodules⟩ := List.mem_filter.1 hdir
  exact List.any_eq_true.2 ⟨dir, hmem, hmodules⟩

/-- A bare specifier is resolved by the nearest package that answers with a file. -/
theorem resolve_bare_iff (h : IsBare spec) :
    resolveOn d extensions importer spec = .ok p ↔ ∃ before package after,
      packagesFor d importer spec = before ++ package :: after ∧
      (∀ other ∈ before, ∀ q, answerWithin d extensions importer spec other ≠ .ok q) ∧
      answerWithin d extensions importer spec package = .ok p := by
  rw [← verdict_eq_ok, verdict_of_bare h, settled_eq_ok, List.findSome?_map,
    List.findSome?_eq_some_iff]
  simp only [Function.comp_apply, Outcome.toOption_eq_some, Outcome.toOption_eq_none]
  constructor
  · rintro ⟨before, package, after, hall, hp, hbefore⟩
    exact ⟨before, package, after, hall, hbefore, hp⟩
  · rintro ⟨before, package, after, hall, hbefore, hp⟩
    exact ⟨before, package, after, hall, hp, hbefore⟩

/-! ## Packages with exports -/

/-- The export map that a package declares in its manifest. -/
def declaredExports? (d : Disk) (package : Path) : Option ExportMap :=
  ((packageAt d package).bind (·.field? "exports")).bind fun exports =>
    (ExportMap.ofPackage exports).toOption

/-- What an export map gives for a subpath of a package: the file at its target, which may have an
extension behind its name. -/
def exportedFile (d : Disk) (extensions conditions : List String) (package : Path)
    (map : ExportMap) (subpath : String) : Outcome :=
  match map.resolve? subpath conditions with
  | none => .error .exportsNotFound
  | some target =>
    fileOr d (spellings extensions (targetPath package target)) (.error .exportsTargetNotFound)

theorem declaredExports?_eq_some : declaredExports? d package = some map ↔
    ∃ v exports, packageAt d package = some v ∧ v.field? "exports" = some exports ∧
      ExportMap.ofPackage exports = .ok map := by
  simp only [declaredExports?, Option.bind_eq_some_iff, Outcome.toOption_eq_some]
  constructor
  · rintro ⟨exports, ⟨v, hv, hx⟩, hm⟩
    exact ⟨v, exports, hv, hx, hm⟩
  · rintro ⟨v, exports, hv, hx, hm⟩
    exact ⟨exports, ⟨v, hv, hx⟩, hm⟩

theorem answer_exported (h : ExportMap.ofPackage v = .ok map) :
    answer d (exported extensions conditions package v subpath) =
      exportedFile d extensions conditions package map subpath := by
  rw [(follows_exported package v subpath).answer_eq, exportedSearch, h, exportedFile]
  dsimp only
  cases map.resolve? subpath conditions with
  | none => rfl
  | some target => exact Search.outcome_candidates _ _

theorem exportedFile_eq_ok : exportedFile d extensions conditions package map subpath = .ok p ↔
    ∃ target f, map.resolve? subpath conditions = some target ∧
      fileAmong? d (spellings extensions (targetPath package target)) = some f ∧
      settledPath d f = p := by
  rw [exportedFile]
  cases map.resolve? subpath conditions with
  | none => simp
  | some target => simp [fileOr_eq_ok]

/-- The export map decides, as soon as the package is entered. -/
theorem answer_inPackage (hk : d.kind package = .ok .directory)
    (h : declaredExports? d package = some map) :
    answer d (inPackage extensions conditions package subpath) =
      fileOr d (if subpath = "" then siblings extensions package else [])
        (exportedFile d extensions conditions package map subpath) := by
  obtain ⟨v, exports, hv, hx, hm⟩ := declaredExports?_eq_some.1 h
  split
  · next hroot =>
    rw [hroot, answer_root hk, answer_directory hv, hx]
    exact congrArg _ (answer_exported hm)
  · next hsub =>
    rw [answer_subpath hv hsub, hx]
    exact answer_exported hm

/-- A bare specifier that is resolved is resolved by the nearest package that answers. If that
package has exports, the file is the one that its map gives for the subpath, unless a file beside
the package, with the name of the package and an extension, comes before it. -/
theorem resolve_bare_exports (hb : IsBare spec) (h : resolveOn d extensions importer spec = .ok p) :
    ∃ before package after, packagesFor d importer spec = before ++ package :: after ∧
      (∀ other ∈ before, ∀ q, answerWithin d extensions importer spec other ≠ .ok q) ∧
      answerWithin d extensions importer spec package = .ok p ∧
      ∀ map, declaredExports? d package = some map →
        ((Specifier.parse spec).subpath = "" ∧
          ∃ f, fileAmong? d (siblings extensions package) = some f ∧ settledPath d f = p) ∨
        ((Specifier.parse spec).subpath = "" → fileAmong? d (siblings extensions package) = none) ∧
          ∃ target f,
            map.resolve? (Specifier.parse spec).subpath importer.conditions = some target ∧
            fileAmong? d (spellings extensions (targetPath package target)) = some f ∧
            settledPath d f = p := by
  obtain ⟨before, package, after, hall, hbefore, hanswer⟩ := (resolve_bare_iff hb).1 h
  refine ⟨before, package, after, hall, hbefore, hanswer, fun map hm => ?_⟩
  have hk : d.kind package = .ok .directory :=
    kind_of_mem_packagesFor (hall ▸ List.mem_append_right _ (List.mem_cons_self ..))
  rw [answerWithin, answer_inPackage hk hm, fileOr_eq_ok, exportedFile_eq_ok] at hanswer
  split at hanswer
  · next hroot =>
    rcases hanswer with hbeside | ⟨hnone, hexported⟩
    · exact Or.inl ⟨hroot, hbeside⟩
    · exact Or.inr ⟨fun _ => hnone, hexported⟩
  · next hsub =>
    rcases hanswer with ⟨f, hf, -⟩ | ⟨-, hexported⟩
    · cases hf
    · exact Or.inr ⟨fun hroot => absurd hroot hsub, hexported⟩

/-- A package with exports, and a file beside it that bears its name. -/
def namesakeDisk : Disk where
  root := .directory [("node_modules", .directory [
    ("pkg", .directory [("package.json", .file "\x7b\"exports\":\"./a.js\"\x7d".toUTF8),
      ("a.js", .file ⟨#[1]⟩)]),
    ("pkg.js", .file ⟨#[2]⟩)])]
  here := []

/-- The export map has a file to give, and the file beside the package is given. -/
theorem resolve_bare_exports_namesake :
    IsBare "pkg" ∧
    (declaredExports? namesakeDisk ⟨"/node_modules/pkg"⟩).map (fun map =>
      exportedFile namesakeDisk defaultExtensions [] ⟨"/node_modules/pkg"⟩ map "") =
        some (.ok ⟨"/node_modules/pkg/a.js"⟩) ∧
    resolveOn namesakeDisk defaultExtensions ⟨⟨"/"⟩, []⟩ "pkg" = .ok ⟨"/node_modules/pkg.js"⟩ ∧
    ∃ package ∈ packagesFor namesakeDisk ⟨⟨"/"⟩, []⟩ "pkg",
      answerWithin namesakeDisk defaultExtensions ⟨⟨"/"⟩, []⟩ "pkg" package =
        .ok ⟨"/node_modules/pkg.js"⟩ := by
  have hb : IsBare "pkg" := ⟨by decide, by decide, by decide, by decide⟩
  have h : resolveOn namesakeDisk defaultExtensions ⟨⟨"/"⟩, []⟩ "pkg" =
      .ok ⟨"/node_modules/pkg.js"⟩ := by
    decide +kernel
  obtain ⟨before, package, after, hall, -, hanswer, -⟩ := resolve_bare_exports hb h
  refine ⟨hb, by decide +kernel, h, package, ?_, hanswer⟩
  have hmem : package ∈ before ++ package :: after := by simp
  rwa [← hall] at hmem

end Vendoring.Lookup
