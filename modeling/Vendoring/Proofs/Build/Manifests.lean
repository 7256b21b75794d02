import Vendoring.Proofs.Build.Course
import Vendoring.Proofs.Build.Inputs

/-! What a build that works leaves at the paths of the two manifests. That of the host holds what
was planned. So does the alias manifest if its path still names an entry, unless that entry is taken
for the manifest of the host. -/
namespace Vendoring.BuildPlan
open Files Files.Disk

variable {plan : BuildPlan} {scratch : Scratch} {host : Path} {d b d' : Disk} {c : Course}
  {reports : List PackageReport} {t : Trail} {s : Slot} {name : String} {config : Config}
  {report : BuildReport}

theorem contents_eq_ok {p : Path} {bytes : ByteArray}
    (h : (d.contents p).toOption = some bytes) : d.contents p = .ok bytes := by
  cases hc : d.contents p with
  | error e =>
    rw [hc] at h
    cases h
  | ok bytes' =>
    rw [hc] at h
    cases h
    rfl

theorem Completed.agree_end (hc : Completed plan scratch host b d' reports c) :
    Agree (below (c.holding scratch) ∪ below (c.staging scratch)) c.published d' := by
  refine hc.cleared.agree.trans_union ?_
  rcases hc.ended with rfl | ⟨-, hset⟩
  · exact .refl _ _
  · exact hset.agree

/-- Behind the making of directories a build only takes away what can be passed. -/
theorem Completed.narrows (hc : Completed plan scratch host b d' reports c) :
    Narrows c.opened d' := by
  have hgone {x x' : Disk} {t : Trail} (h : Sets x x' t nothing) : Narrows x x' :=
    narrows_of_sets h fun r k hk => by cases hk
  refine (hc.published.aliases.narrows.trans hc.published.manifest.narrows).trans ?_
  refine (hgone hc.cleared).trans ?_
  rcases hc.ended with rfl | ⟨-, hset⟩
  · exact .refl _
  · exact hgone hset

theorem Completed.leads_end (hc : Completed plan scratch host b d' reports c) :
    Leads d' (c.swapped scratch ∪ below c.manifest) host c.host := by
  refine (hc.published.leads_host Set.subset_union_right).agree (hc.agree_end.mono ?_)
  rintro t (ht | ht)
  · exact Or.inl (Or.inl (Or.inr ht))
  · exact Or.inl (Or.inr ht)

theorem Course.manifest_not_removed (c : Course) (scratch : Scratch) :
    c.manifest ∉ below (c.holding scratch) ∪ below (c.staging scratch) := by
  rintro (hm | hm)
  · exact not_below_sibling (ne_of_dot (head?_holdingName scratch) (by decide)) hm
  · exact not_below_sibling (ne_of_dot (head?_stagingName scratch) (by decide)) hm

/-- The manifest of the host stands in the host and holds what was planned. -/
theorem Completed.contents_manifest (hc : Completed plan scratch host b d' reports c) :
    Stands d' ∅ (manifestPath host) ⟨c.host, PackageManifest.fileName, false⟩ ∧
      d'.contents (manifestPath host) = .ok plan.host.text.toUTF8 := by
  obtain ⟨s, hs, -, -, -⟩ := hc.published.manifest.names
  have hn := PackageManifest.proper_fileName
  have hfits : isTooLong PackageManifest.fileName = false := by decide
  have hstands := hc.leads_end.child hn hs.proper
  have hfile : d'.node? c.manifest = some (.file plan.host.text.toUTF8) :=
    (hc.agree_end.node _ (c.manifest_not_removed scratch)).trans hc.published.manifest.file
  have hread : (d'.contents (manifestPath host)).toOption = some plan.host.text.toUTF8 :=
    Names.contents ⟨_, hstands, rfl, rfl, hfits⟩ hfile
  exact ⟨hstands.mono (Set.empty_subset _), contents_eq_ok hread⟩

/-- What is left of a directory in the end was not removed with the directories of the build. -/
theorem Completed.not_below_removed (hc : Completed plan scratch host b d' reports c)
    (hd : d'.node? t = some .directory) :
    t ∉ below (c.holding scratch) ∧ (t ∈ below (c.staging scratch) → d' = c.cleared) := by
  have hnarrow : c.cleared.node? t = some .directory := by
    rcases hc.ended with rfl | ⟨-, hset⟩
    · exact hd
    · rw [← hset.agree.node t, hd]
      rintro ⟨r, rfl⟩
      rw [show d'.node? _ = none from congrFun hset.subtree r] at hd
      cases hd
  constructor
  · rintro ⟨r, rfl⟩
    rw [show c.cleared.node? _ = none from congrFun hc.cleared.subtree r] at hnarrow
    cases hnarrow
  · rintro ⟨r, rfl⟩
    refine hc.ended.resolve_right ?_
    rintro ⟨-, hset⟩
    rw [show d'.node? _ = none from congrFun hset.subtree r] at hd
    cases hd

theorem Applied.holding_opened (hc : Applied plan scratch host b reports c) :
    c.opened.node? (c.holding scratch) = some .directory := by
  refine (gains_of_makeDirectories hc.published.opened).grow (hc.inPlace.holding ?_)
  rw [← subtree_nil, ← Course.holding, hc.held.subtree]
  rfl

/-- The alias manifest is still there, if the directory in which it was written is. -/
theorem Completed.node_aliases (hc : Completed plan scratch host b d' reports c)
    (hd : d'.node? c.folder = some .directory) (hm : c.aliases ≠ c.manifest)
    (ht : c.aliases ≠ tempPlace scratch (manifestPath host) c.host) :
    d'.node? c.aliases = some (.file plan.aliases.text.toUTF8) := by
  have hfile : c.recorded.node? c.aliases = some (.file plan.aliases.text.toUTF8) :=
    hc.published.aliases.file
  have hfolder : c.recorded.node? c.folder = some .directory := node?_of_append hfile
  have hpublished : c.published.node? c.aliases = some (.file plan.aliases.text.toUTF8) := by
    rw [hc.published.manifest.agree.node, hfile]
    have hin : c.folder ∉ rewritten scratch (manifestPath host) c.host PackageManifest.fileName :=
      fun hin => hc.published.manifest.not_dir hin hfolder
    rintro (hbelow | hbelow)
    · rcases List.prefix_concat_iff.1 hbelow with he | hbelow
      · exact ht he.symm
      · exact hin (Or.inl hbelow)
    · rcases List.prefix_concat_iff.1 hbelow with he | hbelow
      · exact hm he.symm
      · exact hin (Or.inr hbelow)
  obtain ⟨hholding, hstaging⟩ := hc.not_below_removed hd
  have hcleared : c.cleared.node? c.aliases = some (.file plan.aliases.text.toUTF8) := by
    rw [hc.cleared.agree.node, hpublished]
    intro hbelow
    rcases List.prefix_concat_iff.1 hbelow with he | hbelow
    · exact hc.published.aliases.free (he ▸ hc.holding_opened)
    · exact hholding hbelow
  rcases hc.ended with rfl | ⟨hnot, hset⟩
  · exact hcleared
  · rw [hset.agree.node, hcleared]
    intro hbelow
    rcases List.prefix_concat_iff.1 hbelow with he | hbelow
    · exact hnot _ ((congrArg c.cleared.node? he).trans hcleared)
    · obtain rfl := hstaging hbelow
      obtain ⟨r, hr⟩ := hbelow
      rw [← hr, show c.cleared.node? _ = none from congrFun hset.subtree r] at hd
      cases hd

/-- The entry that the path of the alias manifest names in the end is the one it was written to. -/
theorem Completed.slot_aliases (hc : Completed plan scratch host b d' reports c)
    (hs : d'.slot? (plan.aliasPath host) = .ok (some s)) :
    s.trail = c.aliases ∧ s.slashed = false ∧ isTooLong s.name = false := by
  obtain ⟨s', hs', htrail, hslash, hfits⟩ := hc.published.aliases.names
  obtain ⟨rfl, -⟩ := ((stands_of_slot? hs).back hc.narrows).twin (.refl _) rfl hs'
  exact ⟨htrail, hslash, hfits⟩

/-- The alias manifest holds what was planned, if its path names an entry of its own. -/
theorem Completed.contents_aliases (hc : Completed plan scratch host b d' reports c)
    (hs : d'.slot? (plan.aliasPath host) = .ok (some s)) (hm : s.trail ≠ c.manifest)
    (ht : s.trail ≠ tempPlace scratch (manifestPath host) c.host) :
    d'.contents (plan.aliasPath host) = .ok plan.aliases.text.toUTF8 := by
  have hstands := stands_of_slot? hs
  obtain ⟨htrail, hslash, hfits⟩ := hc.slot_aliases hs
  have hfolder : s.parent = c.folder := (List.append_inj' htrail rfl).1
  have hdir : d'.node? c.folder = some .directory := hfolder ▸ hstands.dir
  rw [htrail] at hm ht
  have hread : (d'.contents (plan.aliasPath host)).toOption = some plan.aliases.text.toUTF8 :=
    Names.contents ⟨s, hstands, htrail, hslash, hfits⟩ (hc.node_aliases hdir hm ht)
  exact contents_eq_ok hread

/-- A build that works was planned, and went its course once the parents were made. -/
theorem completed_of_build (hp : Plain scratch) (hd : d.Proper) (hu : Unplanted scratch d)
    (hrun : on (build scratch host config : Program BuildFault BuildReport) d = (.ok report, d')) :
    ∃ inputs plan b c,
      on (BuildInputs.load host config : Program BuildFault BuildInputs) d = (.ok inputs, d) ∧
      inputs.plan config = .ok plan ∧ Gains (plan.parents host) d b ∧
      Completed plan scratch host b d' report.packages c ∧
      report.aliasManifest = plan.aliasPath host := by
  rcases build_cases hrun with ⟨e, he, -⟩ | ⟨inputs, plan, hload, hplan, hrun⟩
  · cases he
  obtain ⟨bytes, hread⟩ := BuildInputs.contents_of_load hload
  obtain ⟨base, hmade⟩ := made_of_plan hplan
  obtain ⟨name, hname⟩ := hmade.fileName?_aliasPath host
  obtain ⟨b, c, -, hgains, -, hcompleted, hreport⟩ := completed_of_apply hp hd hu
    (closed_of_contents PackageManifest.proper_fileName hread) hname hmade.valid hrun
  exact ⟨inputs, plan, b, c, hload, hplan, hgains, hcompleted, hreport⟩

/-- After a build that works the manifest of the host holds what was planned, and so does the alias
manifest. There are two exceptions to that: its directory is gone, since its path led through what
the build removes, or its entry is one that the manifest of the host was written in. -/
theorem build_publishes (hp : Plain scratch) (hd : d.Proper) (hu : Unplanted scratch d)
    (hrun : on (build scratch host config : Program BuildFault BuildReport) d = (.ok report, d')) :
    ∃ inputs plan m,
      on (BuildInputs.load host config : Program BuildFault BuildInputs) d = (.ok inputs, d) ∧
      inputs.plan config = .ok plan ∧ report.aliasManifest = plan.aliasPath host ∧
      d'.slot? (manifestPath host) = .ok (some m) ∧
      d'.contents (manifestPath host) = .ok plan.host.text.toUTF8 ∧
      ∀ a, d'.slot? report.aliasManifest = .ok (some a) → a.trail ≠ m.trail →
        a.trail ≠ tempPlace scratch (manifestPath host) m.parent →
        d'.contents report.aliasManifest = .ok plan.aliases.text.toUTF8 := by
  obtain ⟨inputs, plan, b, c, hload, hplan, -, hc, hreport⟩ := completed_of_build hp hd hu hrun
  obtain ⟨hstands, hcontents⟩ := hc.contents_manifest
  refine ⟨inputs, plan, _, hload, hplan, hreport, hstands.slot?, hcontents, fun a ha hm ht => ?_⟩
  rw [hreport] at ha ⊢
  exact hc.contents_aliases ha hm ht

/-- A host with a tree from an earlier build. -/
def rebuiltDisk : Disk where
  root := .directory [("host", .directory [("package.json", .file ⟨#[0x7b, 0x7d]⟩),
    ("v", .directory [("old.js", .file ⟨#[1]⟩)])])]
  here := []

/-- The alias manifest is written into the vendored tree. -/
def withinConfig : Config :=
  { bareConfig "v" with passThrough := ["dep"], aliasManifest := ⟨"v/m/aliases.json"⟩ }

/-- Whether a build worked and both manifests have places of their own after it. -/
def keptApart (scratch : Scratch) (host : Path) : Except BuildFault BuildReport × Disk → Bool
  | (.ok report, d') =>
    match d'.slot? report.aliasManifest, d'.slot? (manifestPath host) with
    | .ok (some a), .ok (some m) => decide (a.trail ≠ m.trail ∧
        a.trail ≠ tempPlace scratch (manifestPath host) m.parent)
    | _, _ => false
  | _ => false

theorem build_publishes_within : ∃ (report : BuildReport) (d' : Disk) (plan : BuildPlan),
    on (build ⟨"1", "a"⟩ ⟨"/host"⟩ withinConfig : Program BuildFault BuildReport) rebuiltDisk =
      (.ok report, d') ∧
    d'.contents (manifestPath ⟨"/host"⟩) = .ok plan.host.text.toUTF8 ∧
    d'.contents report.aliasManifest = .ok plan.aliases.text.toUTF8 := by
  have heval : keptApart ⟨"1", "a"⟩ ⟨"/host"⟩ (on (build ⟨"1", "a"⟩ ⟨"/host"⟩ withinConfig :
      Program BuildFault BuildReport) rebuiltDisk) = true := by decide +kernel
  cases hrun : on (build ⟨"1", "a"⟩ ⟨"/host"⟩ withinConfig : Program BuildFault BuildReport)
      rebuiltDisk with
  | mk r d' =>
  rw [hrun] at heval
  cases r with
  | error e => cases heval
  | ok report =>
  obtain ⟨_, plan, m, -, -, -, hm, hhost, haliases⟩ := build_publishes ⟨by decide, by decide⟩
    (proper_of_nodes (by decide)) (unplanted_of_nodes (by decide) _) hrun
  dsimp only [keptApart] at heval
  cases ha : d'.slot? report.aliasManifest with
  | error e =>
    rw [ha] at heval
    cases heval
  | ok a? =>
  cases a? with
  | none =>
    rw [ha] at heval
    cases heval
  | some a =>
    rw [ha, hm] at heval
    obtain ⟨hapart, htemp⟩ := of_decide_eq_true heval
    exact ⟨report, d', plan, rfl, hhost, haliases a ha hapart htemp⟩

end Vendoring.BuildPlan
