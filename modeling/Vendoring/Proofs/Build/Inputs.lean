import Vendoring.Build.Apply
import Vendoring.Proofs.Files.Copying

/-! Reading what a build is planned from: it leaves the disk as it is, and what was planned was
read. -/
namespace Vendoring
open Files Files.Disk

variable {d d' : Disk} {scratch : Scratch} {host directory : Path} {config : Config}
  {manifest : PackageManifest} {inputs : BuildInputs}

theorem on_readText (p : Path) (d : Disk) : on (readText p : Program Files.Fault String) d =
    ((d.contents p).bind fun bytes => match String.fromUTF8? bytes with
      | some s => .ok s
      | none => .error .notText, d) := by
  have hread : on (FileView.contents p : Program Files.Fault ByteArray) d = (d.contents p, d) := rfl
  rw [readText, on_bind, hread]
  cases d.contents p with
  | error e => rfl
  | ok bytes =>
    dsimp only [Except.bind]
    cases String.fromUTF8? bytes <;> rfl

/-- What is loaded as a manifest was read from the file of that name. -/
theorem PackageManifest.load_eq_ok
    (h : on (PackageManifest.load directory : Program BuildFault PackageManifest) d =
      (.ok manifest, d')) :
    d' = d ∧ ∃ bytes text, d.contents (directory.join fileName) = .ok bytes ∧
      String.fromUTF8? bytes = some text ∧ PackageManifest.parse text = .ok manifest := by
  rw [PackageManifest.load, on_bind, on_attempt, on_readText] at h
  cases hread : d.contents (directory.join fileName) with
  | error e =>
    rw [hread] at h
    cases e <;> cases h
  | ok bytes =>
    rw [hread] at h
    dsimp only [Except.bind] at h
    cases htext : String.fromUTF8? bytes with
    | none =>
      rw [htext] at h
      cases h
    | some text =>
      rw [htext] at h
      dsimp only at h
      cases hparse : PackageManifest.parse text with
      | error cause =>
        rw [hparse] at h
        cases h
      | ok m =>
        rw [hparse] at h
        cases h
        exact ⟨rfl, bytes, text, rfl, htext, hparse⟩

theorem PackageManifest.keeps_load {I : Disk → Prop} (directory : Path) :
    Keeps I Any (PackageManifest.load directory : Program BuildFault PackageManifest) := by
  have hread : Keeps I Any (readText (directory.join fileName) : Program Files.Fault String) := by
    intro d hd
    rw [on_readText]
    exact ⟨hd, fun _ _ => trivial, List.suffix_refl _⟩
  refine keeps_bind (keeps_attempt hread) fun r _ => ?_
  split
  · exact keeps_throw _
  · exact keeps_throw _
  · split
    · exact keeps_pure trivial
    · exact keeps_throw _

namespace BuildInputs

theorem keeps_loadSources {I : Disk → Prop} (root : Path) (identities : List String) :
    Keeps I Any (loadSources root identities : Program BuildFault (List SourcePackage)) := by
  induction identities with
  | nil => exact keeps_pure trivial
  | cons identity rest ih =>
    have hsource : Keeps I Any (loadSource root identity : Program BuildFault SourcePackage) := by
      refine keeps_bind (R := Any) (keeps_settled fun _ _ => trivial) fun _ _ => ?_
      exact keeps_bind (PackageManifest.keeps_load _) fun _ _ => keeps_pure trivial
    exact keeps_bind hsource fun _ _ => keeps_bind ih fun _ _ => keeps_pure trivial

theorem keeps_load {I : Disk → Prop} (host : Path) (config : Config) :
    Keeps I Any (BuildInputs.load host config : Program BuildFault BuildInputs) :=
  keeps_bind (PackageManifest.keeps_load host) fun _ _ =>
    keeps_bind (keeps_loadSources _ _) fun _ _ => keeps_pure trivial

theorem load_same {r : Except BuildFault BuildInputs}
    (h : on (BuildInputs.load host config : Program BuildFault BuildInputs) d = (r, d')) :
    d' = d := by
  have hkeeps := (keeps_load (I := (· = d)) host config d rfl).1
  rwa [h] at hkeeps

/-- A source of its identity stands below the directory of all sources, and has a manifest. -/
structure Sourced (d : Disk) (root : Path) (s : SourcePackage) : Prop where
  directory : s.directory = root.join s.identity
  manifest : ∃ bytes, d.contents (s.directory.join PackageManifest.fileName) = .ok bytes

theorem loadSource_eq_ok {root : Path} {identity : String} {s : SourcePackage}
    (h : on (loadSource root identity : Program BuildFault SourcePackage) d = (.ok s, d')) :
    d' = d ∧ s.identity = identity ∧ Sourced d root s := by
  obtain ⟨_, d₀, hcheck, h₁⟩ := on_bind_eq_ok.1 h
  rw [on_settled] at hcheck
  obtain ⟨-, rfl⟩ := Prod.mk.inj hcheck
  obtain ⟨manifest, d₁, hload, h₂⟩ := on_bind_eq_ok.1 h₁
  cases h₂
  obtain ⟨rfl, bytes, -, hread, -⟩ := PackageManifest.load_eq_ok hload
  exact ⟨rfl, rfl, rfl, bytes, hread⟩

theorem loadSources_eq_ok {root : Path} {identities : List String} {sources : List SourcePackage}
    (h : on (loadSources root identities : Program BuildFault (List SourcePackage)) d =
      (.ok sources, d')) :
    sources.map (·.identity) = identities ∧ ∀ s ∈ sources, Sourced d root s := by
  induction identities generalizing sources with
  | nil =>
    cases h
    exact ⟨rfl, fun s hs => absurd hs List.not_mem_nil⟩
  | cons identity rest ih =>
    obtain ⟨s, d₁, hone, h₁⟩ := on_bind_eq_ok.1 h
    obtain ⟨rfl, hid, hsourced⟩ := loadSource_eq_ok hone
    obtain ⟨others, d₂, hrest, h₂⟩ := on_bind_eq_ok.1 h₁
    cases h₂
    obtain ⟨hids, hall⟩ := ih hrest
    refine ⟨by rw [List.map_cons, hid, hids], fun s' hs => ?_⟩
    rcases List.mem_cons.1 hs with rfl | hs
    · exact hsourced
    · exact hall s' hs

/-- The sources are those that are configured. -/
theorem sources_of_load
    (h : on (BuildInputs.load host config : Program BuildFault BuildInputs) d = (.ok inputs, d')) :
    inputs.sources.map (·.identity) = config.packages ∧
      ∀ s ∈ inputs.sources, Sourced d (host.join config.sourceRoot.text) s := by
  obtain ⟨m, d₁, hload, h₁⟩ := on_bind_eq_ok.1 h
  obtain ⟨rfl, -⟩ := PackageManifest.load_eq_ok hload
  obtain ⟨sources, d₂, hsources, h₂⟩ := on_bind_eq_ok.1 h₁
  cases h₂
  exact loadSources_eq_ok hsources

/-- Inputs that were loaded hold the manifest of the host. -/
theorem contents_of_load
    (h : on (BuildInputs.load host config : Program BuildFault BuildInputs) d = (.ok inputs, d')) :
    ∃ bytes, d.contents (BuildPlan.manifestPath host) = .ok bytes := by
  obtain ⟨m, d₁, hload, -⟩ := on_bind_eq_ok.1 h
  obtain ⟨-, bytes, -, hread, -⟩ := PackageManifest.load_eq_ok hload
  exact ⟨bytes, hread⟩

end BuildInputs

/-- A build leaves the disk as it is, or it carries out a plan. -/
theorem build_cases {r : Except BuildFault BuildReport}
    (h : on (build scratch host config : Program BuildFault BuildReport) d = (r, d')) :
    (∃ e, r = .error e ∧ d' = d) ∨ ∃ inputs plan,
      on (BuildInputs.load host config : Program BuildFault BuildInputs) d = (.ok inputs, d) ∧
      inputs.plan config = .ok plan ∧
      on (plan.apply scratch host : Program BuildFault BuildReport) d = (r, d') := by
  rw [build, on_bind] at h
  cases hload : on (BuildInputs.load host config : Program BuildFault BuildInputs) d with
  | mk loaded d₁ =>
  obtain rfl := BuildInputs.load_same hload
  rw [hload] at h
  cases loaded with
  | error e =>
    cases h
    exact Or.inl ⟨e, rfl, rfl⟩
  | ok inputs =>
    dsimp only at h
    cases hplan : inputs.plan config with
    | error e =>
      rw [hplan] at h
      cases h
      exact Or.inl ⟨e, rfl, rfl⟩
    | ok plan =>
      rw [hplan] at h
      exact Or.inr ⟨inputs, plan, rfl, hplan, h⟩

end Vendoring
