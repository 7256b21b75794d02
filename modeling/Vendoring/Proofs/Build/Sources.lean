import Vendoring.Proofs.Build.Inputs
import Vendoring.Proofs.Build.Touching

/-! What a build leaves alone, whether it works or fails: the packages that it copies, if they stand
apart from all that it replaces and keeps for itself. -/
namespace Vendoring

open Files Files.Disk Files.Carrier

namespace Config

/-- Where the package of an identity is copied from. -/
def sourcePath (config : Config) (host : Path) (identity : String) : Path :=
  (host.join config.sourceRoot.text).join identity

/-- The directories that a build makes first: those that its two places stand in. -/
def parents (config : Config) (host : Path) : List Path :=
  [host.join config.aliasManifest.text, host.join config.vendoredDir.text].flatMap fun p =>
    p.parent?.toList.flatMap Path.ancestors

end Config

namespace BuildPlan

variable {plan : BuildPlan} {scratch : Scratch} {host : Path} {places : Places} {d b d' : Disk}
  {config : Config} {inputs : BuildInputs} {base : String} {r : Except BuildFault BuildReport}

theorem Made.parents (h : Made inputs config plan base) (host : Path) :
    plan.parents host = config.parents host := by
  rw [BuildPlan.parents, aliasPath, vendoredPath, h.aliasManifest, h.vendoredDir]
  rfl

/-- All places that a build may change if its ways are clear. -/
def reach (plan : BuildPlan) (scratch : Scratch) (host : Path) (places : Places) (d : Disk) :
    Set Trail :=
  touched plan scratch host places d ∪ below places.manifest

/-- A path leads to a directory past all places of `S`, and none of them is in that directory. -/
structure Spared (S : Set Trail) (d : Disk) (p : Path) (q : Trail) : Prop where
  leads : Leads d S p q
  apart : ∀ r, q ++ r ∉ S

theorem Spared.same {S : Set Trail} {p : Path} {q : Trail} (h : Spared S b p q)
    (ha : Agree S b d') : Leads d' ∅ p q ∧ d'.subtree q = b.subtree q :=
  ⟨(h.leads.agree ha).mono (Set.empty_subset S), ha.subtree h.apart⟩

theorem Spared.mono {S S' : Set Trail} {p : Path} {q : Trail} (h : Spared S b p q) (hs : S' ⊆ S) :
    Spared S' b p q :=
  ⟨h.leads.mono hs, fun r hr => h.apart r (hs hr)⟩

/-- A build of two entries of the host reaches nothing out of the host. -/
theorem reach_subset_inside (plan : BuildPlan) (scratch : Scratch) (host : Path) (h : Trail)
    (v a : String) (d : Disk) : reach plan scratch host (entriesOf h v a) d ⊆ inside h := by
  refine Set.union_subset (touched_subset_inside plan scratch host h v a d) ?_
  exact below_subset_inside (s := ⟨h, PackageManifest.fileName, false⟩) (List.prefix_refl h)

/-- A build that failed changed nothing but what it may touch, if nothing was refused. -/
theorem Undone.agree {f a t : Disk} (h : Undone plan scratch host places b f a t d') :
    Agree (touched plan scratch host places b) b d' := by
  refine ⟨h.here, fun u hu => (h.node u).resolve_right fun hres => ?_⟩
  cases hres with
  | freed hg => exact hu (leftover_subset hg.1)
  | unlinked halias hun =>
    obtain ⟨⟨q, name⟩, hsome, rfl⟩ := Option.map_eq_some_iff.1 halias
    obtain ⟨target, hlink⟩ := hun.link
    have hndir : b.node? (q ++ [name]) ≠ some .directory := by
      intro hd
      cases hd.symm.trans hlink
    exact hu (below_aliases_subset hsome hndir (List.prefix_refl _))
  | draft _ _ hs => exact not_struck _ _ hs
  | published hs => exact not_struck _ _ hs
  | swapped hs => exact not_struck _ _ hs
  | staged hs => exact not_struck _ _ hs

/-- Once the parents are there, a build changes nothing out of its reach, however it ends. -/
theorem agree_of_build (hp : Plain scratch) (hd : d.Proper) (hu : Unplanted scratch d)
    (hload : on (BuildInputs.load host config : Program BuildFault BuildInputs) d = (.ok inputs, d))
    (hplan : inputs.plan config = .ok plan)
    (hprepare : on (plan.prepareParents host : Program BuildFault Unit) d = (.ok (), b))
    (hc : Clear plan scratch host places b)
    (hrun : on (plan.apply scratch host : Program BuildFault BuildReport) d = (r, d')) :
    Agree (reach plan scratch host places b) b d' := by
  obtain ⟨base, hmade⟩ := made_of_plan hplan
  cases r with
  | error e =>
    have hclear : ∀ b', on (plan.prepareParents host : Program BuildFault Unit) d = (.ok (), b') →
        Clear plan scratch host places b' := by
      intro b' hb'
      rw [hprepare] at hb'
      cases hb'
      exact hc
    obtain ⟨r, b', hb', -, ⟨rfl, -⟩ | ⟨-, f, a, t, -, hundone⟩⟩ :=
      undone_of_apply (not_refused _ _) hplan hp hd hclear hrun
    · rw [hprepare] at hb'
      cases hb'
    · rw [hprepare] at hb'
      cases hb'
      exact hundone.agree.mono Set.subset_union_left
  | ok report =>
    obtain ⟨name, hname⟩ := hmade.fileName?_aliasPath host
    obtain ⟨bytes, hread⟩ := BuildInputs.contents_of_load hload
    obtain ⟨b', c, hb', -, -, hcompleted, -⟩ := completed_of_apply hp hd hu
      (closed_of_contents PackageManifest.proper_fileName hread) hname hmade.valid hrun
    rw [hprepare] at hb'
    cases hb'
    exact hcompleted.agree hc hp

/-- A build leaves every package that it copies as it was, if the package stands out of its reach;
at most, parents of the vendored directory or of the alias manifest are made in it. -/
theorem build_spares (hp : Plain scratch) (hd : d.Proper) (hu : Unplanted scratch d)
    (hspared : ∀ inputs plan b,
      on (BuildInputs.load host config : Program BuildFault BuildInputs) d = (.ok inputs, d) →
      inputs.plan config = .ok plan →
      on (plan.prepareParents host : Program BuildFault Unit) d = (.ok (), b) →
      ∃ places, Clear plan scratch host places b ∧ ∀ identity ∈ config.packages, ∀ q,
        Leads b ∅ (config.sourcePath host identity) q →
        Spared (reach plan scratch host places b) b (config.sourcePath host identity) q)
    (hrun : on (build scratch host config : Program BuildFault BuildReport) d = (r, d')) :
    ∃ b, Gains (config.parents host) d b ∧ ∀ identity ∈ config.packages, ∀ q,
      Leads d ∅ (config.sourcePath host identity) q →
      Leads d' ∅ (config.sourcePath host identity) q ∧ d'.subtree q = b.subtree q := by
  rcases build_cases hrun with ⟨e, -, rfl⟩ | ⟨inputs, plan, hload, hplan, happly⟩
  · exact ⟨d', .refl _ _, fun identity _ q hl => ⟨hl, rfl⟩⟩
  obtain ⟨base, hmade⟩ := made_of_plan hplan
  have hkeeps := keeps_prepareParents d plan host d ⟨.refl _ _, hd⟩
  cases hprepare : on (plan.prepareParents host : Program BuildFault Unit) d with
  | mk prepared b =>
  rw [hprepare] at hkeeps
  obtain ⟨⟨hgains, -⟩, -⟩ := hkeeps
  have hgrow : ∀ t k, d.node? t = some k → b.node? t = some k := fun _ _ => hgains.grow
  refine ⟨b, hmade.parents host ▸ hgains, fun identity hm q hl => ?_⟩
  have hl' := hl.grow hgains.here hgrow
  cases prepared with
  | error e =>
    have hfails : on (plan.apply scratch host : Program BuildFault BuildReport) d = (.error e, b) :=
      on_bind_error hprepare
    rw [hfails] at happly
    cases happly
    exact ⟨hl', rfl⟩
  | ok u =>
    obtain ⟨places, hc, hsources⟩ := hspared inputs plan b hload hplan hprepare
    exact (hsources identity hm q hl').same
      (agree_of_build hp hd hu hload hplan hprepare hc happly)

/-- A package beside the host, and a tree from an earlier build in the host. -/
def besideDisk : Disk where
  root := .directory [
    ("host", .directory [("package.json", .file ⟨#[0x7b, 0x7d]⟩),
      ("v", .directory [("old.js", .file ⟨#[1]⟩)])]),
    ("src", .directory [("pkg", .directory [("package.json", .file ⟨#[0x7b, 0x7d]⟩)])])]
  here := []

def besideConfig : Config :=
  { bareConfig "v" with packages := ["pkg"], sourceRoot := ⟨"/src"⟩ }

theorem beside_linkless : ∀ t target, besideDisk.node? t ≠ some (.link target) :=
  linkless_of_nodes (by decide)

theorem beside_leads : Leads besideDisk (inside ["host"]) ⟨"/host"⟩ ["host"] :=
  leads_down (by decide) (by decide +kernel) (by decide) beside_linkless rfl fun _ ht hin =>
    hin.2 (ht.eq_of_length_le hin.1.length_le)

/-- The package is apart from the host. -/
theorem beside_spared : Spared (inside ["host"]) besideDisk
    (besideConfig.sourcePath ⟨"/host"⟩ "pkg") ["src", "pkg"] := by
  have hnot (r : Trail) : ¬ ["host"] <+: "src" :: r := fun hp =>
    absurd (List.cons_prefix_cons.1 hp).1 (by decide)
  refine ⟨leads_down (by decide) (by decide +kernel) (by decide) beside_linkless rfl ?_, ?_⟩
  · exact fun t ht hin => hnot ["pkg"] (hin.1.trans ht)
  · exact fun r hin => hnot ("pkg" :: r) hin.1

/-- The parents of both locations are there already. -/
theorem beside_settled {r : Except BuildFault Unit} (hplan : inputs.plan besideConfig = .ok plan)
    (hb : on (plan.prepareParents ⟨"/host"⟩ : Program BuildFault Unit) besideDisk = (r, b)) :
    b = besideDisk := by
  obtain ⟨base, hmade⟩ := made_of_plan hplan
  have hparent : (plan.vendoredPath ⟨"/host"⟩).parent? = some ⟨"/host"⟩ ∧
      (plan.aliasPath ⟨"/host"⟩).parent? = some ⟨"/host"⟩ := by
    rw [vendoredPath, aliasPath, hmade.vendoredDir, hmade.aliasManifest]
    decide +kernel
  exact prepareParents_settled (not_refused _ _) beside_leads hparent.2 hparent.1 hb

theorem beside_clear (hplan : inputs.plan besideConfig = .ok plan)
    (hb : on (plan.prepareParents ⟨"/host"⟩ : Program BuildFault Unit) besideDisk = (.ok (), b)) :
    ∃ places, Clear plan ⟨"1", "a"⟩ ⟨"/host"⟩ places b ∧ ∀ identity ∈ besideConfig.packages, ∀ q,
      Leads b ∅ (besideConfig.sourcePath ⟨"/host"⟩ identity) q →
      Spared (reach plan ⟨"1", "a"⟩ ⟨"/host"⟩ places b) b
        (besideConfig.sourcePath ⟨"/host"⟩ identity) q := by
  obtain ⟨base, hmade⟩ := made_of_plan hplan
  obtain rfl := beside_settled hplan hb
  refine ⟨entriesOf ["host"] "v" "vend-aliases.json", ?_, fun identity hm q hl => ?_⟩
  · exact clear_of_entries beside_leads beside_linkless
      ⟨by decide, by decide +kernel, by decide, by decide⟩
      ⟨by decide, by decide +kernel, by decide, by decide⟩ hmade.vendoredDir hmade.aliasManifest
  · obtain rfl := List.mem_singleton.1 hm
    obtain rfl := beside_spared.leads.unique hl
    exact beside_spared.mono (reach_subset_inside _ _ _ _ _ _ _)

theorem beside_builds : ∃ (report : BuildReport) (d' : Disk),
    on (build ⟨"1", "a"⟩ ⟨"/host"⟩ besideConfig : Program BuildFault BuildReport) besideDisk =
      (.ok report, d') := by
  have heval : (on (build ⟨"1", "a"⟩ ⟨"/host"⟩ besideConfig :
      Program BuildFault BuildReport) besideDisk).1.isOk = true := by decide +kernel
  cases hrun : on (build ⟨"1", "a"⟩ ⟨"/host"⟩ besideConfig : Program BuildFault BuildReport)
      besideDisk with
  | mk r d' =>
  rw [hrun] at heval
  cases r with
  | error e => cases heval
  | ok report => exact ⟨report, d', rfl⟩

theorem build_spares_beside : ∃ (report : BuildReport) (d' b : Disk),
    on (build ⟨"1", "a"⟩ ⟨"/host"⟩ besideConfig : Program BuildFault BuildReport) besideDisk =
      (.ok report, d') ∧
    Gains (besideConfig.parents ⟨"/host"⟩) besideDisk b ∧
    Leads d' ∅ (besideConfig.sourcePath ⟨"/host"⟩ "pkg") ["src", "pkg"] ∧
    d'.subtree ["src", "pkg"] = b.subtree ["src", "pkg"] := by
  obtain ⟨report, d', hrun⟩ := beside_builds
  obtain ⟨b, hgains, hsame⟩ := build_spares ⟨by decide, by decide⟩ (proper_of_nodes (by decide))
    (unplanted_of_nodes (by decide) _) (fun _ _ _ _ hplan hb => beside_clear hplan hb) hrun
  have hsource := beside_spared.leads.mono (Set.empty_subset _)
  exact ⟨report, d', b, hrun, hgains, hsame "pkg" (by decide) _ hsource⟩

end BuildPlan

end Vendoring
