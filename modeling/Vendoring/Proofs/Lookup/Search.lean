import Mathlib.Data.List.Basic
import Vendoring.Files.Disk
import Vendoring.Lookup
import Vendoring.Proofs.Outcome

/-!
Lookups on a disk as searches: the places that are looked at, one after the other, and why the
search failed if the file is at none of them. The first candidate that is a file ends the search,
and the first places of it are noted.
-/
namespace Vendoring.Lookup
open Files

/-! ## Places -/

/-- A place that a lookup notes. -/
inductive Sight
  /-- The file that is wanted may be here. -/
  | candidate (p : Path)
  /-- A directory whose `package.json` was read. -/
  | manifest (directory : Path)
  /-- A package may be here, in a `node_modules`. -/
  | package (p : Path)

def Sight.place : Sight → Path
  | candidate p => p
  | manifest directory => directory.join "package.json"
  | package p => p

def candidates (ps : List Path) : List Sight := ps.map .candidate

/-- Whether the search ends at a place. -/
def Sight.ends (d : Disk) : Sight → Bool
  | candidate p => d.kind p = .ok .file
  | _ => false

/-- The path that is given for a file. -/
def settledPath (d : Disk) (p : Path) : Path := (canonicalOrSame p : ReaderM Disk Path).run d

/-- The first of some places that is a file. -/
def fileAmong? (d : Disk) (ps : List Path) : Option Path :=
  ps.find? fun p => d.kind p = .ok .file

/-- The first of some places that is a file, or else what it comes to otherwise. -/
def fileOr (d : Disk) (ps : List Path) (otherwise : Outcome) : Outcome :=
  match fileAmong? d ps with
  | some p => .ok (settledPath d p)
  | none => otherwise

/-- The candidate that a search ends at. -/
def hit? (d : Disk) : List Sight → Option Path
  | [] => none
  | s :: r => if s.ends d then some s.place else hit? d r

/-- The places that are looked at until the search ends. -/
def visited (d : Disk) : List Sight → List Path
  | [] => []
  | s :: r => s.place :: if s.ends d then [] else visited d r

/-- Notes one more place, as long as there is room. -/
def jot (tried : List Path) (p : Path) : List Path :=
  if tried.length < triedLimit then tried ++ [p] else tried

variable {d : Disk} {extensions conditions : List String} {ss ss' : List Sight}
  {ps tried : List Path} {p : Path}

theorem length_jot (h : tried.length ≤ triedLimit) (p : Path) :
    (jot tried p).length ≤ triedLimit := by
  unfold jot
  split
  · rw [List.length_append, List.length_singleton]
    omega
  · exact h

/-- The first places are noted, in the order in which they are looked at. -/
theorem foldl_jot (h : tried.length ≤ triedLimit) (ps : List Path) :
    ps.foldl jot tried = (tried ++ ps).take triedLimit := by
  induction ps generalizing tried with
  | nil => rw [List.foldl_nil, List.append_nil, List.take_of_length_le h]
  | cons p r ih =>
    rw [List.foldl_cons, ih (length_jot h p), jot]
    split
    · rw [List.append_assoc, List.singleton_append]
    · next hfull =>
      have hlen : tried.length = triedLimit := by omega
      rw [List.take_append_of_le_length (Nat.le_of_eq hlen.symm),
        List.take_append_of_le_length (Nat.le_of_eq hlen.symm)]

theorem hit?_append (ss ss' : List Sight) : hit? d (ss ++ ss') = (hit? d ss).or (hit? d ss') := by
  induction ss with
  | nil => rfl
  | cons s r ih =>
    rw [List.cons_append, hit?, hit?]
    split
    · rfl
    · exact ih

theorem visited_append (ss ss' : List Sight) : visited d (ss ++ ss') =
    visited d ss ++ if (hit? d ss).isSome then [] else visited d ss' := by
  induction ss with
  | nil => rfl
  | cons s r ih =>
    rw [List.cons_append, visited, visited, hit?]
    split
    · simp
    · rw [ih, List.cons_append]

/-- Where nothing is found all places are looked at. -/
theorem visited_of_hit?_eq_none (h : hit? d ss = none) : visited d ss = ss.map Sight.place := by
  induction ss with
  | nil => rfl
  | cons s r ih =>
    rw [hit?] at h
    rw [visited, List.map_cons]
    split at h
    · cases h
    · next hs => rw [if_neg hs, ih h]

theorem hit?_eq_none_iff : hit? d ss = none ↔ ∀ s ∈ ss, s.ends d = false := by
  induction ss with
  | nil => simp [hit?]
  | cons s r ih =>
    rw [hit?, List.forall_mem_cons]
    split
    · next hs => simp [hs]
    · next hs => simp [hs, ih]

theorem hit?_candidates (ps : List Path) : hit? d (candidates ps) = fileAmong? d ps := by
  induction ps with
  | nil => rfl
  | cons p r ih =>
    rw [candidates, List.map_cons, hit?, fileAmong?, List.find?_cons, ← candidates, ih]
    by_cases hp : d.kind p = .ok .file <;> simp [Sight.ends, Sight.place, hp, fileAmong?]

theorem fileAmong?_append (ps qs : List Path) :
    fileAmong? d (ps ++ qs) = (fileAmong? d ps).or (fileAmong? d qs) := List.find?_append

theorem fileOr_cons (h : d.kind p ≠ .ok .file) (ps : List Path) (otherwise : Outcome) :
    fileOr d (p :: ps) otherwise = fileOr d ps otherwise := by
  rw [fileOr, fileAmong?, List.find?_cons_of_neg (by simpa using h)]
  rfl

theorem fileOr_append (ps qs : List Path) (otherwise : Outcome) :
    fileOr d (ps ++ qs) otherwise = fileOr d ps (fileOr d qs otherwise) := by
  rw [fileOr, fileAmong?_append, fileOr]
  cases fileAmong? d ps <;> rfl

theorem exists_fileOr_eq_ok {otherwise : Outcome} (h : ∃ q, otherwise = .ok q) (ps : List Path) :
    ∃ q, fileOr d ps otherwise = .ok q := by
  rw [fileOr]
  cases fileAmong? d ps with
  | some f => exact ⟨_, rfl⟩
  | none => exact h

theorem fileOr_eq_ok {otherwise : Outcome} : fileOr d ps otherwise = .ok p ↔
    (∃ f, fileAmong? d ps = some f ∧ settledPath d f = p) ∨
      fileAmong? d ps = none ∧ otherwise = .ok p := by
  rw [fileOr]
  cases fileAmong? d ps <;> simp

/-! ## Searches -/

/-- The places to look at, and why the search fails if the file is at none of them. -/
structure Search where
  sights : List Sight
  reason : Reason

namespace Search

/-- Looks at some other places first. -/
def behind (before : List Sight) (s : Search) : Search := ⟨before ++ s.sights, s.reason⟩

/-- What a search comes to. -/
def outcome (d : Disk) (s : Search) : Outcome :=
  match hit? d s.sights with
  | some p => .ok (settledPath d p)
  | none => .error s.reason

theorem outcome_behind (before : List Sight) (s : Search) :
    (s.behind before).outcome d = match hit? d before with
      | some p => .ok (settledPath d p)
      | none => s.outcome d := by
  rw [outcome, behind, hit?_append]
  cases hit? d before <;> rfl

theorem outcome_candidates (ps : List Path) (reason : Reason) :
    outcome d ⟨candidates ps, reason⟩ = fileOr d ps (.error reason) := by
  rw [outcome, hit?_candidates, fileOr]

theorem outcome_behind_candidates (ps : List Path) (s : Search) :
    (s.behind (candidates ps)).outcome d = fileOr d ps (s.outcome d) := by
  rw [outcome_behind, hit?_candidates, fileOr]

theorem outcome_eq_error {s : Search} {e : Reason} :
    s.outcome d = .error e ↔ hit? d s.sights = none ∧ s.reason = e := by
  rw [outcome]
  cases hit? d s.sights <;> simp

end Search

/-- The other places that a path may stand for: its last name with an extension behind it. -/
def siblings (extensions : List String) (base : Path) : List Path :=
  (spellings extensions base).tail

theorem spellings_eq (extensions : List String) (base : Path) :
    spellings extensions base = base :: siblings extensions base := rfl

variable (d extensions conditions)

/-- The value of the `package.json` of a directory, if it can be read. -/
def packageAt (directory : Path) : Option Json :=
  (readPackage (directory.join "package.json") : ReaderM Disk (Option Json)).run d

/-- The place that a target of a package names. -/
def targetPath (package : Path) (target : String) : Path :=
  package.join (String.ofList (Text.dropDotSlashes target.toList))

/-- The place that a subpath of a package names without regard to exports. -/
def plainPath (package : Path) (subpath : String) : Path :=
  package.join (String.ofList (subpath.toList.dropWhile (· = '/')))

def exportedSearch (package : Path) (v : Json) (subpath : String) : Search :=
  match ExportMap.ofPackage v with
  | .error _ => ⟨[], .packageJsonInvalid⟩
  | .ok map =>
    match map.resolve? subpath conditions with
    | none => ⟨[], .exportsNotFound⟩
    | some target =>
      ⟨candidates (spellings extensions (targetPath package target)), .exportsTargetNotFound⟩

/-- The places that the main field of a package stands for. -/
def mainFiles (directory : Path) (main? : Option String) : List Path :=
  match main? with
  | none => []
  | some main =>
    spellings extensions (directory.join main) ++
      if d.kind (directory.join main) = .ok .directory then
        indexFiles extensions (directory.join main)
      else []

/-- Reads the `package.json` of a directory if there is one, and goes on as its value says. -/
def packageSearch (directory : Path) (withPackage : Json → Search) (without : Search) : Search :=
  if d.kind (directory.join "package.json") = .ok .file then
    Search.behind [.manifest directory] <| match packageAt d directory with
      | none => ⟨[], .packageJsonInvalid⟩
      | some v => withPackage v
  else without

def indexSearch (directory : Path) : Search :=
  ⟨candidates (indexFiles extensions directory), .isDirectory⟩

def directorySearch (directory : Path) : Search :=
  packageSearch d directory
    (fun v => match v.field? "exports" with
      | some exports => exportedSearch extensions conditions directory exports ""
      | none => (indexSearch extensions directory).behind
          (candidates (mainFiles d extensions directory ((v.field? "main").bind Json.string?))))
    (indexSearch extensions directory)

def pathSearch (base : Path) : Search :=
  Search.behind (candidates (spellings extensions base)) <|
    if d.kind base = .ok .directory then directorySearch d extensions conditions base
    else ⟨[], .notFound⟩

def inPackageSearch (package : Path) (subpath : String) : Search :=
  if subpath = "" then pathSearch d extensions conditions package
  else packageSearch d package
    (fun v => match v.field? "exports" with
      | some exports => exportedSearch extensions conditions package exports subpath
      | none => pathSearch d extensions conditions (plainPath package subpath))
    (pathSearch d extensions conditions (plainPath package subpath))

/-- The directory of a package in the `node_modules` of a directory. -/
def packagePath (directory : Path) (identity : String) : Path :=
  (directory.join "node_modules").join identity

def bareSearch (s : Specifier) (seen : Bool) (refusal? : Option Reason) : List Path → Search
  | [] => ⟨[], bareFailure seen refusal?⟩
  | dir :: above =>
    if d.kind (dir.join "node_modules") = .ok .directory then
      let package := packagePath dir s.identity
      Search.behind [.package package] <|
        if d.kind package = .ok .directory then
          let here := inPackageSearch d extensions conditions package s.subpath
          Search.behind here.sights
            (bareSearch s true (if here.reason.isRefusal then some here.reason else refusal?) above)
        else bareSearch s true refusal? above
    else bareSearch s seen refusal? above

/-- The path that a specifier names, if it is relative or absolute. -/
def named? (importer : Importer) (spec : String) : Option Path :=
  if Specifier.isRelative spec then some (importer.directory.join spec)
  else if isAbsolute spec then some ⟨spec⟩
  else none

def search (importer : Importer) (spec : String) : Search :=
  if spec = "" then ⟨[], .specifierInvalid⟩
  else if hasScheme spec then ⟨[], .unsupportedScheme⟩
  else match named? importer spec with
    | some base => pathSearch d extensions importer.conditions base
    | none => bareSearch d extensions importer.conditions (Specifier.parse spec) false none
        importer.directory.ancestors

/-! ## What the programs do -/

variable {d extensions conditions}

/-- What a lookup on a disk gives, and the places that are noted then. -/
def seek {α : Type} (d : Disk) (x : Probe (ReaderM Disk) α) (tried : List Path) : α × List Path :=
  (x.run tried).run d

theorem seek_bind {α β : Type} (x : Probe (ReaderM Disk) α) (f : α → Probe (ReaderM Disk) β) :
    seek d (x >>= f) tried = seek d (f (seek d x tried).1) (seek d x tried).2 := rfl

/-- What is asked of the disk is noted nowhere. -/
theorem seek_ask {α β : Type} (x : ReaderM Disk α) (f : α → Probe (ReaderM Disk) β) :
    seek d (liftM x >>= f) tried = seek d (f (x.run d)) tried := rfl

theorem seek_note (p : Path) : seek d (note p) tried = ((), jot tried p) := rfl

/-- What is asked first is asked of the same disk. -/
theorem run_ask {α β : Type} (x : ReaderM Disk α) (f : α → ReaderM Disk β) :
    (x >>= f).run d = (f (x.run d)).run d := rfl

theorem run_kind (p : Path) :
    (FileView.kind p : ExceptT Files.Fault (ReaderM Disk) Kind).run.run d = d.kind p := rfl

theorem run_isFile (p : Path) :
    (isFile p : ReaderM Disk Bool).run d = decide (d.kind p = .ok .file) := by
  rw [isFile, run_ask, run_kind]
  cases d.kind p with
  | error _ => rfl
  | ok k => cases k <;> rfl

theorem run_isDirectory (p : Path) :
    (isDirectory p : ReaderM Disk Bool).run d = decide (d.kind p = .ok .directory) := by
  rw [isDirectory, run_ask, run_kind]
  cases d.kind p with
  | error _ => rfl
  | ok k => cases k <;> rfl

/-- A program that looks for a file at some places. -/
def Finds (d : Disk) (x : Probe (ReaderM Disk) (Option Path)) (ss : List Sight) : Prop :=
  ∀ tried, seek d x tried = ((hit? d ss).map (settledPath d), (visited d ss).foldl jot tried)

/-- A program that carries out a search. -/
def Follows (d : Disk) (x : Probe (ReaderM Disk) Outcome) (s : Search) : Prop :=
  ∀ tried, seek d x tried = (s.outcome d, (visited d s.sights).foldl jot tried)

/-- What a program answers. -/
def answer (d : Disk) (x : Probe (ReaderM Disk) Outcome) : Outcome := (seek d x []).1

variable {s : Search} {α : Type}

theorem Follows.answer_eq {x : Probe (ReaderM Disk) Outcome} (h : Follows d x s) :
    answer d x = s.outcome d := congrArg Prod.fst (h [])

theorem follows_error (e : Reason) : Follows d (pure (.error e)) ⟨[], e⟩ := fun _ => rfl

theorem follows_ask {x : ReaderM Disk α} {f : α → Probe (ReaderM Disk) Outcome}
    (h : Follows d (f (x.run d)) s) : Follows d (liftM x >>= f) s := fun tried => h tried

/-- A place at which the search cannot end. -/
theorem follows_note {x : Unit → Probe (ReaderM Disk) Outcome} {t : Sight}
    (ht : t.ends d = false) (h : Follows d (x ()) s) :
    Follows d (note t.place >>= x) (s.behind [t]) := by
  intro tried
  have hhit : hit? d [t] = none := hit?_eq_none_iff.2 fun u hu => List.mem_singleton.1 hu ▸ ht
  rw [seek_bind, seek_note, h, Search.outcome_behind, hhit, Search.behind, visited_append, hhit,
    visited_of_hit?_eq_none hhit]
  rfl

theorem finds_ask {x : ReaderM Disk α} {f : α → Probe (ReaderM Disk) (Option Path)}
    (h : Finds d (f (x.run d)) ss) : Finds d (liftM x >>= f) ss := fun tried => h tried

/-- A search that goes on where another program has found nothing. -/
theorem Finds.follows {x : Probe (ReaderM Disk) (Option Path)}
    {f : Option Path → Probe (ReaderM Disk) Outcome} (hx : Finds d x ss)
    (hf : ∀ p, f (some p) = pure (.ok p)) (hn : Follows d (f none) s) :
    Follows d (x >>= f) (s.behind ss) := by
  intro tried
  rw [seek_bind, hx tried, Search.outcome_behind, Search.behind, visited_append, List.foldl_append]
  cases hit? d ss with
  | none => exact hn _
  | some p =>
    dsimp only [Option.map_some]
    rw [hf]
    rfl

/-- A search that fails where another program has found nothing. -/
theorem Finds.orError {x : Probe (ReaderM Disk) (Option Path)} {e : Reason}
    {f : Option Path → Probe (ReaderM Disk) Outcome} (hx : Finds d x ss)
    (hf : ∀ p, f (some p) = pure (.ok p)) (hn : f none = pure (.error e)) :
    Follows d (x >>= f) ⟨ss, e⟩ := by
  have h := hx.follows hf (hn ▸ follows_error e)
  rwa [Search.behind, List.append_nil] at h

theorem Finds.append {x : Probe (ReaderM Disk) (Option Path)}
    {f : Option Path → Probe (ReaderM Disk) (Option Path)} (hx : Finds d x ss)
    (hf : ∀ p, f (some p) = pure (some p)) (hn : Finds d (f none) ss') :
    Finds d (x >>= f) (ss ++ ss') := by
  intro tried
  rw [seek_bind, hx tried, hit?_append, visited_append, List.foldl_append]
  cases hit? d ss with
  | none => exact hn _
  | some p =>
    dsimp only [Option.map_some]
    rw [hf]
    rfl

/-- A search that goes on where another one has failed. -/
theorem Follows.onward {x : Probe (ReaderM Disk) Outcome} {s' : Search}
    {f : Outcome → Probe (ReaderM Disk) Outcome} (hx : Follows d x s)
    (hf : ∀ p, f (.ok p) = pure (.ok p)) (he : Follows d (f (.error s.reason)) s') :
    Follows d (x >>= f) (s'.behind s.sights) := by
  intro tried
  rw [seek_bind, hx tried, Search.outcome_behind, Search.behind, visited_append, List.foldl_append,
    Search.outcome]
  cases hit? d s.sights with
  | none => exact he _
  | some p =>
    dsimp only
    rw [hf]
    rfl

theorem finds_nothing : Finds d (pure none) [] := fun _ => rfl

theorem finds_firstFile (ps : List Path) : Finds d (firstFile ps) (candidates ps) := by
  induction ps with
  | nil => exact finds_nothing
  | cons p r ih =>
    intro tried
    have hends : (Sight.candidate p).ends d = decide (d.kind p = .ok .file) := rfl
    rw [firstFile, seek_bind, seek_note, seek_ask, run_isFile, candidates, List.map_cons,
      ← candidates, hit?, visited, hends, List.foldl_cons]
    by_cases hp : d.kind p = .ok .file
    · rw [decide_eq_true hp]
      rfl
    · rw [decide_eq_false hp]
      exact ih _

theorem finds_file (base : Path) :
    Finds d (file extensions base) (candidates (spellings extensions base)) := finds_firstFile _

theorem finds_index (directory : Path) :
    Finds d (index extensions directory) (candidates (indexFiles extensions directory)) :=
  finds_firstFile _

theorem follows_exported (package : Path) (v : Json) (subpath : String) :
    Follows d (exported extensions conditions package v subpath)
      (exportedSearch extensions conditions package v subpath) := by
  rw [exported, exportedSearch]
  cases ExportMap.ofPackage v with
  | error _ => exact follows_error _
  | ok map =>
    dsimp only
    cases map.resolve? subpath conditions with
    | none => exact follows_error _
    | some target =>
      exact (finds_file _).orError (fun _ => rfl) rfl

theorem finds_mainFile (directory : Path) (v : Json) :
    Finds d (mainFile extensions directory v)
      (candidates (mainFiles d extensions directory ((v.field? "main").bind Json.string?))) := by
  rw [mainFile]
  cases (v.field? "main").bind Json.string? with
  | none => exact finds_nothing
  | some main =>
    rw [mainFiles, candidates, List.map_append, ← candidates, ← candidates]
    refine (finds_file _).append (fun _ => rfl) (finds_ask ?_)
    rw [run_isDirectory]
    by_cases hp : d.kind (directory.join main) = .ok .directory
    · rw [decide_eq_true hp, if_pos hp]
      exact finds_index _
    · rw [decide_eq_false hp, if_neg hp]
      exact finds_nothing

theorem follows_index (directory : Path) :
    Follows d (indexOrFail extensions directory) (indexSearch extensions directory) :=
  (finds_index _).orError (fun _ => rfl) rfl

theorem seek_packageOf (directory : Path) : seek d (packageOf directory) tried =
    if d.kind (directory.join "package.json") = .ok .file then
      (some (match packageAt d directory with
        | some v => .ok v
        | none => .error .packageJsonInvalid), jot tried (directory.join "package.json"))
    else (none, tried) := by
  rw [packageOf, seek_ask, run_isFile]
  by_cases hp : d.kind (directory.join "package.json") = .ok .file
  · rw [decide_eq_true hp, if_pos hp, if_pos rfl, seek_bind, seek_note, seek_ask, ← packageAt]
    cases packageAt d directory <;> rfl
  · rw [decide_eq_false hp, if_neg hp]
    rfl

theorem follows_package {directory : Path} {withPackage : Json → Search} {without : Search}
    {f : Option (Except Reason Json) → Probe (ReaderM Disk) Outcome}
    (he : ∀ e, f (some (.error e)) = pure (.error e))
    (hv : ∀ v, Follows d (f (some (.ok v))) (withPackage v)) (hn : Follows d (f none) without) :
    Follows d (packageOf directory >>= f) (packageSearch d directory withPackage without) := by
  intro tried
  rw [seek_bind, seek_packageOf, packageSearch]
  split
  · cases packageAt d directory with
    | none =>
      dsimp only
      rw [he]
      rfl
    | some v => exact hv v _
  · exact hn tried

theorem follows_directory (dir : Path) : Follows d (directory extensions conditions dir)
    (directorySearch d extensions conditions dir) := by
  refine follows_package (fun _ => rfl) (fun v => ?_) (follows_index dir)
  dsimp only
  cases v.field? "exports" with
  | some exports => exact follows_exported _ _ _
  | none => exact (finds_mainFile dir v).follows (fun _ => rfl) (follows_index dir)

theorem follows_path (base : Path) : Follows d (path extensions conditions base)
    (pathSearch d extensions conditions base) := by
  refine (finds_file base).follows (fun _ => rfl) (follows_ask ?_)
  rw [run_isDirectory]
  by_cases hp : d.kind base = .ok .directory
  · rw [decide_eq_true hp, if_pos hp]
    exact follows_directory base
  · rw [decide_eq_false hp, if_neg hp]
    exact follows_error _

theorem follows_inPackage (package : Path) (subpath : String) :
    Follows d (inPackage extensions conditions package subpath)
      (inPackageSearch d extensions conditions package subpath) := by
  rw [inPackage, inPackageSearch]
  split
  · exact follows_path package
  · refine follows_package (fun _ => rfl) (fun v => ?_) (follows_path _)
    dsimp only
    cases v.field? "exports" with
    | some exports => exact follows_exported _ _ _
    | none => exact follows_path _

/-- The search goes on above where a package has failed. -/
theorem follows_bare (s : Specifier) (seen : Bool) (refusal? : Option Reason) (dirs : List Path) :
    Follows d (bare extensions conditions s seen refusal? dirs)
      (bareSearch d extensions conditions s seen refusal? dirs) := by
  induction dirs generalizing seen refusal? with
  | nil => exact follows_error _
  | cons dir above ih =>
    rw [bareSearch, bare]
    refine follows_ask ?_
    rw [run_isDirectory]
    by_cases hm : d.kind (dir.join "node_modules") = .ok .directory
    · rw [decide_eq_true hm, if_pos hm]
      refine follows_note (t := .package _) rfl (follows_ask ?_)
      rw [run_isDirectory, ← packagePath]
      by_cases hp : d.kind (packagePath dir s.identity) = .ok .directory
      · rw [decide_eq_true hp, if_pos hp]
        exact (follows_inPackage _ _).onward (fun _ => rfl) (ih _ _)
      · rw [decide_eq_false hp, if_neg hp]
        exact ih _ _
    · rw [decide_eq_false hm, if_neg hm]
      exact ih _ _

theorem follows_outcome (importer : Importer) (spec : String) :
    Follows d (outcome extensions importer spec) (search d extensions importer spec) := by
  rw [outcome, search]
  split
  · exact follows_error _
  split
  · exact follows_error _
  rw [named?]
  split
  · exact follows_path _
  split
  · exact follows_path _
  · exact follows_bare _ _ _ _

/-- The lookup of a specifier on a disk. -/
def resolveOn (d : Disk) (extensions : List String) (importer : Importer) (spec : String) :
    Except Fault Path :=
  (resolve extensions importer spec : ReaderM Disk (Except Fault Path)).run d

/-- A lookup finds what its search comes to. If it fails it tells the first places it has looked
at. -/
theorem resolveOn_eq (importer : Importer) (spec : String) :
    resolveOn d extensions importer spec =
      ((search d extensions importer spec).outcome d).mapError fun reason =>
        ⟨spec, reason, ((search d extensions importer spec).sights.map Sight.place).take
          triedLimit⟩ := by
  have hseek : seek d (outcome extensions importer spec) [] = _ := follows_outcome importer spec []
  rw [resolveOn, resolve, run_ask, ← seek, hseek]
  cases hs : (search d extensions importer spec).outcome d with
  | ok p => rfl
  | error reason =>
    obtain ⟨hnone, -⟩ := Search.outcome_eq_error.1 hs
    rw [visited_of_hit?_eq_none hnone, foldl_jot (Nat.zero_le _), List.nil_append]
    rfl

/-- What a lookup comes to, without the places that are told. -/
def verdict (d : Disk) (extensions : List String) (importer : Importer) (spec : String) : Outcome :=
  (resolveOn d extensions importer spec).mapError (·.reason)

theorem verdict_eq (importer : Importer) (spec : String) :
    verdict d extensions importer spec = (search d extensions importer spec).outcome d := by
  rw [verdict, resolveOn_eq]
  cases (search d extensions importer spec).outcome d <;> rfl

theorem ne_empty_of_named {importer : Importer} {spec : String} {base : Path}
    (h : named? importer spec = some base) : spec ≠ "" := by
  rintro rfl
  cases h

/-- A path is not looked for anywhere else than where it leads. -/
theorem verdict_of_named {importer : Importer} {spec : String} {base : Path}
    (h : named? importer spec = some base) : verdict d extensions importer spec =
      if hasScheme spec then .error .unsupportedScheme
      else (pathSearch d extensions importer.conditions base).outcome d := by
  rw [verdict_eq, search, if_neg (ne_empty_of_named h), h]
  split <;> rfl

/-- The names beside a path come before what it holds. -/
theorem outcome_path {base : Path} (h : d.kind base ≠ .ok .file) :
    (pathSearch d extensions conditions base).outcome d =
      fileOr d (siblings extensions base)
        (if d.kind base = .ok .directory then
          answer d (directory extensions conditions base)
        else .error .notFound) := by
  rw [pathSearch, Search.outcome_behind_candidates, spellings_eq, fileOr_cons h,
    (follows_directory base).answer_eq]
  split <;> rfl

theorem verdict_eq_ok {importer : Importer} {spec : String} :
    verdict d extensions importer spec = .ok p ↔
      resolveOn d extensions importer spec = .ok p := Outcome.mapError_eq_ok

end Vendoring.Lookup
