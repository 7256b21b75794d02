import Vendoring.Proofs.Build.Completing

/-! The course of a build that works, from the staging directory that is made to the one that is
removed, and what the disk is like at its end. -/
namespace Vendoring.BuildPlan
open Files Files.Disk

/-- Where a build that works is done, and the disks that its steps lead to. -/
structure Course where
  host : Trail
  /-- The entry of the vendored directory. -/
  slot : Slot
  /-- The directory of the alias manifest. -/
  folder : Trail
  /-- The name of the alias manifest. -/
  name : String
  /-- The staging directory is made. -/
  made : Disk
  /-- The packages are in the staging directory. -/
  filled : Disk
  /-- The holding directory is made. -/
  held : Disk
  /-- The staged tree is in its place. -/
  placed : Disk
  /-- The directories of the alias manifest are made. -/
  opened : Disk
  /-- The alias manifest is written. -/
  recorded : Disk
  /-- The manifest of the host is written. -/
  published : Disk
  /-- The holding directory is removed. -/
  cleared : Disk

namespace Course

def staging (c : Course) (scratch : Scratch) : Trail := c.host ++ [stagingName scratch]

def holding (c : Course) (scratch : Scratch) : Trail := c.host ++ [holdingName scratch]

def manifest (c : Course) : Trail := c.host ++ [PackageManifest.fileName]

def aliases (c : Course) : Trail := c.folder ++ [c.name]

/-- What is swapped. -/
def swapped (c : Course) (scratch : Scratch) : Set Trail :=
  below c.slot.trail ∪ below (c.holding scratch) ∪ below (c.staging scratch)

end Course

variable {plan : BuildPlan} {scratch : Scratch} {host : Path} {b d' : Disk} {c : Course}
  {reports : List PackageReport} {name : String} {S : Set Trail} {t : Trail}

/-- The packages are staged and swapped in, and both manifests are written. -/
structure Applied (plan : BuildPlan) (scratch : Scratch) (host : Path) (b : Disk)
    (reports : List PackageReport) (c : Course) : Prop where
  toHost : Leads b (below (c.staging scratch) ∪ below c.manifest) host c.host
  named : (plan.aliasPath host).fileName? = some c.name
  staged : Staged scratch host c.host b c.made
  fills : on (plan.stageAll scratch (stagingPath scratch host) plan.packages :
    Program BuildFault (List PackageReport)) c.made = (.ok reports, c.filled)
  region : Region c.made (c.staging scratch) c.filled
  held : Sets c.filled c.held (c.holding scratch) (Tree.directory []).node?
  inPlace : InPlace scratch host (plan.vendoredPath host) c.host c.slot c.held c.placed
  published : Published plan scratch host (c.swapped scratch ∪ below c.manifest) c.host c.folder
    c.name c.placed c.opened c.recorded c.published
  cleared : Sets c.published c.cleared (c.holding scratch) nothing

/-- What is left at the staging place is removed too, unless it is a file. -/
structure Completed (plan : BuildPlan) (scratch : Scratch) (host : Path) (b d' : Disk)
    (reports : List PackageReport) (c : Course) : Prop
    extends Applied plan scratch host b reports c where
  makes : b.makeDirectory (stagingPath scratch host) = .ok c.made
  ended : d' = c.cleared ∨ (∀ bytes, c.cleared.node? (c.staging scratch) ≠ some (.file bytes)) ∧
    Sets c.cleared d' (c.staging scratch) nothing

theorem Published.agree {h q : Trail} {d x x' : Disk}
    (hp : Published plan scratch host S h q name d x x' d') :
    Agree (rewritten scratch (plan.aliasPath host) q name ∪
      rewritten scratch (manifestPath host) h PackageManifest.fileName) x d' :=
  hp.aliases.agree.trans_union hp.manifest.agree

/-- A directory that was there before a publication is there after it. -/
theorem Published.dir {h q : Trail} {d x x' : Disk}
    (hp : Published plan scratch host S h q name d x x' d')
    (hd : d.node? t = some .directory) : d'.node? t = some .directory :=
  hp.manifest.dir (hp.aliases.dir ((gains_of_makeDirectories hp.opened).grow hd))

/-- The way to the host is left as it was by a publication, and so is what it avoids. -/
theorem Published.leads_host {h q : Trail} {d x x' : Disk}
    (hp : Published plan scratch host S h q name d x x' d')
    (hm : below (h ++ [PackageManifest.fileName]) ⊆ S) : Leads d' S host h := by
  refine (hp.toHost.agree (hp.agree.mono ?_)).mono fun t ht => Or.inl (Or.inl ht)
  rintro t (ht | (ht | ht))
  · exact Or.inl (Or.inr ht)
  · exact Or.inr ht
  · exact Or.inl (Or.inl (hm ht))

/-- The way to the host is left as it was by a swap, and it avoids all that was swapped. -/
theorem InPlace.leads_host {h : Trail} {vendored : Path} {s : Slot} {d : Disk}
    (hin : InPlace scratch host vendored h s d d')
    (hl : Leads d (below (h ++ [stagingName scratch]) ∪ S ∪ below (h ++ [holdingName scratch]) ∪
      below s.trail) host h) :
    Leads d' (below s.trail ∪ below (h ++ [holdingName scratch]) ∪
      below (h ++ [stagingName scratch]) ∪ S) host h := by
  refine (hl.agree (hin.agree.mono ?_)).mono ?_
  · rintro t ((ht | ht) | ht)
    · exact Or.inr ht
    · exact Or.inl (Or.inr ht)
    · exact Or.inl (Or.inl (Or.inl ht))
  · rintro t (((ht | ht) | ht) | ht)
    · exact Or.inr ht
    · exact Or.inl (Or.inr ht)
    · exact Or.inl (Or.inl (Or.inl ht))
    · exact Or.inl (Or.inl (Or.inr ht))

/-- The work in the staging directory, done. -/
theorem applied_of_applyStaged {h : Trail} {b₁ : Disk} (hp : Plain scratch) (hd : b₁.Proper)
    (hu : Unplanted scratch b₁) (hname : (plan.aliasPath host).fileName? = some name)
    (hv : ∀ p ∈ plan.packages, Identity.isValid p.identity = true)
    (hl : Leads b (below (h ++ [stagingName scratch]) ∪ below (h ++ [PackageManifest.fileName]))
      host h)
    (hs : Staged scratch host h b b₁)
    (hrun : on (plan.applyStaged scratch host (stagingPath scratch host) :
      Program BuildFault (List PackageReport)) b₁ = (.ok reports, d')) :
    ∃ c, Applied plan scratch host b reports c ∧ c.host = h ∧ c.made = b₁ ∧ c.cleared = d' := by
  obtain ⟨reports', b₂, hstage, hrun₁⟩ := on_bind_eq_ok.1 hrun
  obtain ⟨hreg, hagree, hdir, -⟩ := filled_of_stageAll hp hs hd hv hstage
  have hl₂ := hl.agree (hagree.mono Set.subset_union_left)
  obtain ⟨previous, b₃, hhold, hrun₂⟩ := on_bind_eq_ok.1 hrun₁
  obtain ⟨hpast, hheld⟩ := hold_ok hp hl₂ hhold
  have hprevious : previous.holding = holdingPath scratch host := by rw [hheld.previous]
  have hl₃ := hpast.agree (hheld.sets.agree.mono Set.subset_union_right)
  have hempty : b₃.node? (keptPlace scratch h) = none :=
    congrFun hheld.sets.subtree ["vendored"]
  obtain ⟨previous', b₄, hswap, hrun₃⟩ := on_bind_eq_ok.1 hrun₂
  obtain ⟨hprevious', s, hl₃', hin⟩ := swapIn_ok hp hl₃ hheld.holding hempty hprevious hswap
  obtain ⟨published, b₅, hpub, hrun₄⟩ := on_bind_attempt_eq.1 hrun₃
  cases published with
  | error e =>
    obtain ⟨_, _, -, hthrow⟩ := on_bind_eq_ok.1 hrun₄
    cases hthrow
  | ok u =>
  have hl₄ := hin.leads_host hl₃'
  have hu₃ : Unplanted scratch b₃ := by
    refine (hu.region hreg).set hheld.sets fun r target hr => ?_
    cases r <;> cases hr
  have hstaging : b₃.node? (h ++ [stagingName scratch]) = some .directory := by
    rw [hheld.sets.agree.node _ (not_below_sibling (holdingName_ne_stagingName scratch))]
    exact hdir
  obtain ⟨q, x, x', hpublished⟩ :=
    published_of_ok hp hl₄ (hin.unplanted hu₃ hstaging) hname hpub
  have hl₅ := hpublished.leads_host Set.subset_union_right
  have hh₅ : b₅.node? (h ++ [holdingName scratch]) = some .directory :=
    hpublished.dir (hin.holding hheld.holding.dir)
  have hstands : Stands b₅ (below (h ++ [holdingName scratch])) (holdingPath scratch host)
      ⟨h, holdingName scratch, false⟩ := by
    have hn := hp.holding
    refine (hl₅.child hn hheld.check).mono fun t ht => ?_
    exact Or.inl (Or.inl (Or.inr ht))
  dsimp only at hrun₄
  rw [on_bind_ok (discard_run previous' b₅), hprevious'] at hrun₄
  cases hremove : on (removeTreeIfThere (holdingPath scratch host) : Program Fault Unit) b₅ with
  | mk r b₆ =>
  have hset : Sets b₅ b₆ (h ++ [holdingName scratch]) nothing := by
    rcases removeTreeIfThere_cases (not_refused _ _) hstands subset_rfl (Or.inl rfl) hremove with
      ⟨e, -, -, hstruck⟩ | ⟨-, hset⟩
    · exact absurd (hstruck hheld.fits hh₅) (not_struck b₅ b₆)
    · exact hset
  rw [hremove] at hrun₄
  cases hrun₄
  exact ⟨⟨h, s, q, name, b₁, b₂, b₃, b₄, x, x', b₅, b₆⟩,
    ⟨hl, hname, hs, hstage, hreg, hheld.sets, hin, hpublished, hset⟩, rfl, rfl, rfl⟩

/-- The way to the host avoids all that a build changes, when it has worked. -/
theorem Applied.leads_cleared (ha : Applied plan scratch host b reports c) :
    Leads c.cleared (c.swapped scratch ∪ below c.manifest) host c.host := by
  refine (ha.published.leads_host Set.subset_union_right).agree (ha.cleared.agree.mono ?_)
  exact fun t ht => Or.inl (Or.inl (Or.inr ht))

theorem completed_of_withStaging (hp : Plain scratch) (hd : b.Proper) (hu : Unplanted scratch b)
    (hclosed : ∀ h, Leads b ∅ host h → Closed b h PackageManifest.fileName)
    (hname : (plan.aliasPath host).fileName? = some name)
    (hv : ∀ p ∈ plan.packages, Identity.isValid p.identity = true)
    (hrun : on (withStaging scratch host (plan.applyStaged scratch host) :
      Program BuildFault (List PackageReport)) b = (.ok reports, d')) :
    ∃ c, Completed plan scratch host b d' reports c := by
  obtain ⟨_, _, he, -⟩ | ⟨b₁, b₂, hmake, hwork, rfl⟩ := withStaging_cases hrun
  · cases he
  rw [on_makeDirectory, settled_eq_ok] at hmake
  obtain ⟨h, hl, hs⟩ := staged_of_new hp hmake
  have hpast := hl.past (hclosed h (hl.mono (Set.empty_subset _)))
  have hu₁ : Unplanted scratch b₁ := hu.set hs.sets fun r target hr => by
    cases r <;> cases hr
  obtain ⟨c, ha, rfl, rfl, rfl⟩ :=
    applied_of_applyStaged hp (proper_makeDirectory hd hmake) hu₁ hname hv hpast hs hwork
  refine ⟨c, ha, hmake, ?_⟩
  rw [on_removeTree]
  have hn := hp.staging
  have hstands : Stands c.cleared (below (c.staging scratch)) (stagingPath scratch host)
      ⟨c.host, stagingName scratch, false⟩ := by
    refine (ha.leads_cleared.child hn hs.check).mono fun t ht => ?_
    exact Or.inl (Or.inr ht)
  rcases removeTree_sets hstands subset_rfl rfl with ⟨e, hr, -⟩ | ⟨hfile, x, hr, hset⟩
  · rw [hr]
    exact Or.inl rfl
  · rw [hr]
    exact Or.inr ⟨hfile, hset⟩

/-- An apply that works goes through such a course once the parents are made. -/
theorem completed_of_apply {d : Disk} {report : BuildReport} (hp : Plain scratch) (hd : d.Proper)
    (hu : Unplanted scratch d)
    (hclosed : ∃ h, Leads d ∅ host h ∧ Closed d h PackageManifest.fileName)
    (hname : (plan.aliasPath host).fileName? = some name)
    (hv : ∀ p ∈ plan.packages, Identity.isValid p.identity = true)
    (hrun : on (plan.apply scratch host : Program BuildFault BuildReport) d = (.ok report, d')) :
    ∃ b c, on (plan.prepareParents host : Program BuildFault Unit) d = (.ok (), b) ∧
      Gains (plan.parents host) d b ∧ b.Proper ∧
      Completed plan scratch host b d' report.packages c ∧
      report.aliasManifest = plan.aliasPath host := by
  obtain ⟨_, b, hprepare, hrun⟩ := on_bind_eq_ok.1 hrun
  obtain ⟨reports, d₁, hwork, hrun⟩ := on_bind_eq_ok.1 hrun
  cases hrun
  have hkeeps := keeps_prepareParents d plan host d ⟨.refl _ _, hd⟩
  rw [hprepare] at hkeeps
  obtain ⟨⟨hgains, hproper⟩, -⟩ := hkeeps
  obtain ⟨h, hl, hc⟩ := hclosed
  have hgrow : ∀ t k, d.node? t = some k → b.node? t = some k := fun _ _ => hgains.grow
  have hclosed' : ∀ h', Leads b ∅ host h' → Closed b h' PackageManifest.fileName := by
    intro h' hl'
    obtain rfl := (hl.grow hgains.here hgrow).unique hl'
    exact hc.grow hgrow
  obtain ⟨c, hcompleted⟩ :=
    completed_of_withStaging hp hproper (hu.gain hgains) hclosed' hname hv hwork
  exact ⟨b, c, hprepare, hgains, hproper, hcompleted, rfl⟩

end Vendoring.BuildPlan
