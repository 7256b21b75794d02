import Vendoring.Proofs.Build.Copies
import Vendoring.Proofs.Build.Manifests
import Vendoring.Proofs.Build.Redirects
import Vendoring.Proofs.Build.Sources

/-! What the vendored directory holds after a build that works: the copies of the packages and
nothing else, but for the alias manifest if it is written there. -/
namespace Vendoring

open Files Files.Disk

/-- A file that is replaced is apart from a directory that its own directory does not stand in. -/
theorem Files.Disk.Rewritten.apart {scratch : Scratch} {d d' : Disk} {p : Path} {q t : Trail}
    {name : String} {bytes : ByteArray} (h : Rewritten scratch d d' p q name bytes)
    (hd : d.node? t = some .directory) (ht : ¬ t <+: q) (r : Trail) :
    t ++ r ∉ rewritten scratch p q name := by
  have hapart {n : String} (hn : t ∉ below (q ++ [n])) : ¬ q ++ [n] <+: t ++ r := by
    refine not_below_of_apart ⟨fun hp => ?_, hn⟩
    rcases List.prefix_concat_iff.1 hp with rfl | hp
    · exact hn (List.prefix_refl _)
    · exact ht hp
  rintro (hm | hm)
  · exact hapart (fun ht => h.not_dir (Or.inl ht) hd) hm
  · exact hapart (fun ht => h.not_dir (Or.inr ht) hd) hm

namespace BuildPlan

variable {plan : BuildPlan} {scratch : Scratch} {host : Path} {d b d' : Disk} {c : Course}
  {reports : List PackageReport} {ps : List PlannedPackage} {p : PlannedPackage}
  {f : Trail → Option Node} {config : Config} {inputs : BuildInputs} {base : String}
  {report : BuildReport} {v a s : Slot} {r : Trail}

/-- A package that was loaded is seen as a directory. -/
theorem Made.seen_source (h : Made inputs config plan base)
    (hload : on (BuildInputs.load host config : Program BuildFault BuildInputs) d = (.ok inputs, d))
    (hg : Gains (plan.parents host) d b) (hp : p ∈ plan.packages) :
    b.seen? skippedDirectories p.source [] = some .directory := by
  obtain ⟨s, hs, hplanned⟩ := h.exists_source hp
  obtain ⟨hdir, bytes, hread⟩ :=
    (BuildInputs.sources_of_load hload).2 s (List.of_mem_zip hs).1
  rw [← hplanned.source] at hdir hread
  have hn := PackageManifest.proper_fileName
  obtain ⟨q, hl, -⟩ := closed_of_contents hn hread
  have hne : p.source.text ≠ "" := by
    rw [hdir]
    refine join_ne_empty fun he => Identity.stepNames_ne_nil hplanned.valid ?_
    rw [he]
    rfl
  have hc : Disk.check p.source = .ok () := by
    obtain ⟨_, hheld⟩ := held_of_contents hread
    exact check_of_join (head?_of_proper hn) hne (check_of_held hheld)
  exact seen_of_kind ((hl.grow hg.here fun _ _ => hg.grow).kind hc)

theorem Made.nodup_packages (h : Made inputs config plan base)
    (hload : on (BuildInputs.load host config : Program BuildFault BuildInputs) d =
      (.ok inputs, d)) : (plan.packages.map (·.identity)).Nodup :=
  h.nodup_identities (BuildInputs.sources_of_load hload).1

/-- The packages are staged as they are seen before, and their files are counted. -/
theorem Completed.vendored (hc : Completed plan scratch host b d' reports c) (hp : Plain scratch)
    (hb : b.Proper) (hd : b.Distinct) (hu : ∀ p ∈ plan.packages, Renamable scratch b p)
    (hv : ∀ p ∈ plan.packages, Identity.isValid p.identity = true)
    (hnodup : (plan.packages.map (·.identity)).Nodup)
    (hs : ∀ p ∈ plan.packages, Shows (below (c.staging scratch)) b skippedDirectories p.source
      (b.seen? skippedDirectories p.source))
    (hdir : ∀ p ∈ plan.packages, b.seen? skippedDirectories p.source [] = some .directory) :
    Vendored plan b plan.packages (c.placed.subtree c.slot.trail) ∧
      List.Forall₂ (fun p report =>
        (filesOf (b.seen? skippedDirectories p.source)).encard = report.filesCopied)
          plan.packages reports := by
  have hset := hc.staged.sets
  have hin := hc.staged.inside
  have htarget : Target c.made (c.staging scratch) (stagingPath scratch host) (c.staging scratch)
      c.made := by
    refine ⟨⟨[], hin⟩, List.prefix_refl _, region_of_empty (congrFun hset.subtree),
      distinct_makeDirectory hd hc.makes, ?_, hin.dir⟩
    obtain ⟨before, links, hsteps, hw⟩ := hin.way
    rw [List.append_nil] at hsteps
    exact ⟨links, hsteps ▸ hw⟩
  have hempty : Vendored plan b [] (c.made.subtree (c.staging scratch)) :=
    hset.subtree ▸ .empty plan b
  have hshows : ∀ p ∈ plan.packages, Shows (inside (c.staging scratch)) c.made skippedDirectories
      p.source (b.seen? skippedDirectories p.source) :=
    fun p hm => ((hs p hm).agree hset.agree).mono (inside_subset_below _)
  have hall : [] ++ plan.packages = plan.packages := rfl
  rw [hc.tree_placed, ← hall]
  exact stageAll_ok (proper_makeDirectory hb hc.makes) hp.tag hu htarget hv hnodup hshows hdir
    hempty hc.fills

/-- If no copy in which a place stands has anything there, there is at most a directory above the
copies, or one of them. -/
theorem Vendored.free (hv : Vendored plan b ps f) {r : Trail} {name : String}
    (hcopy : ∀ p ∈ ps, ∀ more, p.place ++ more = r → plan.copy? b p (more ++ [name]) = none)
    (hdir : ∀ p ∈ ps, b.seen? skippedDirectories p.source [] = some .directory) :
    f (r ++ [name]) = none ∨ f (r ++ [name]) = some .directory := by
  by_cases hin : ∃ p ∈ ps, p.place <+: r ++ [name]
  · obtain ⟨p, hp, hpre⟩ := hin
    rcases List.prefix_concat_iff.1 hpre with he | ⟨more, hmore⟩
    · have htop := hv.copies p hp []
      rw [List.append_nil, he, plan.copy?_nil, hdir p hp] at htop
      exact Or.inr htop
    · rw [← hmore, List.append_assoc, hv.copies p hp]
      exact Or.inl (hcopy p hp more hmore)
  · by_cases habove : ∃ p ∈ ps, r ++ [name] <+: p.place
    · obtain ⟨p, hp, hpre⟩ := habove
      exact Or.inr (hv.above p hp _ hpre fun he => hin ⟨p, hp, he ▸ List.prefix_refl _⟩)
    · exact Or.inl (hv.only _ (by simp) fun p hp => ⟨fun h => hin ⟨p, hp, h⟩,
        fun h => habove ⟨p, hp, h⟩⟩)

/-- The vendored directory is not what the holding directory stands in. -/
theorem Applied.not_above_holding (ha : Applied plan scratch host b reports c) :
    ¬ c.slot.trail <+: c.holding scratch := by
  refine ha.inPlace.not_above_holding ?_
  rw [← Course.holding, ← subtree_nil, ha.held.subtree]
  simp [Tree.node?, Tree.get?]

theorem Applied.not_above_host (ha : Applied plan scratch host b reports c) :
    ¬ c.slot.trail <+: c.host :=
  fun hp => ha.not_above_holding (hp.trans (List.prefix_append _ _))

theorem Applied.dir_opened (ha : Applied plan scratch host b reports c)
    (hv : Vendored plan b ps (c.placed.subtree c.slot.trail)) :
    c.opened.node? c.slot.trail = some .directory :=
  (gains_of_makeDirectories ha.published.opened).grow ((subtree_nil _ _).symm.trans hv.top)

/-- The path of the vendored directory names the place of the new tree, if it still names one. -/
theorem Completed.slot_vendored (hc : Completed plan scratch host b d' reports c)
    (hs : d'.slot? (plan.vendoredPath host) = .ok (some s)) : s = c.slot := by
  obtain ⟨x, hx, hplaced⟩ := hc.inPlace.aside
  have hgains := gains_of_makeDirectories hc.published.opened
  -- Between the two moves of the swap nothing stands at the place.
  obtain ⟨hstands, hnone⟩ : Stands x ∅ (plan.vendoredPath host) c.slot ∧
      ∀ r, x.node? (c.slot.trail ++ r) = none := by
    rcases hx with ⟨rfl, hnone⟩ | hmoved
    · exact ⟨hc.inPlace.stands.mono (Set.empty_subset _), node?_append_of_none hnone⟩
    · have hkept : c.held.node? (keptPlace scratch c.host) = none :=
        congrFun hc.held.subtree ["vendored"]
      have havoid := hc.inPlace.stands.avoid
        (not_passable_below (t := keptPlace scratch c.host) (by simp [hkept]) (by simp [hkept]))
      exact ⟨(havoid.agree hmoved.agree).mono (Set.empty_subset _), congrFun hmoved.gone⟩
  have halike : Alike x d' := by
    intro t hpass hpass'
    have hopened := hc.narrows.node t hpass'
    rw [hopened]
    have hslot : ¬ c.slot.trail <+: t := by
      rintro ⟨r, rfl⟩
      exact not_passable_of_none (hnone r) hpass
    by_cases hstaging : c.staging scratch <+: t
    · -- A directory was staged there, and another one is made.
      obtain ⟨r, rfl⟩ := hstaging
      have hgone : c.placed.node? (c.staging scratch ++ r) = none := congrFun hplaced.gone r
      have hmade : c.opened.node? (c.staging scratch ++ r) = some .directory := by
        rcases hgains.node (c.staging scratch ++ r) with hsame | ⟨-, hdir, -⟩
        · exact absurd (hpass'.of_eq hopened.symm) (not_passable_of_none (hsame.trans hgone))
        · exact hdir
      rcases hpass with hdir | ⟨target, hlink⟩
      · rw [hmade, hdir]
      · exact absurd ((congrFun hplaced.moved r).trans hlink)
          (hc.region_placed.linkless r target)
    · have hsame := hplaced.agree.node t (not_or.2 ⟨hstaging, hslot⟩)
      rw [← hsame]
      rcases hgains.node t with he | ⟨hnone', -⟩
      · exact he
      · rw [hsame] at hnone'
        exact absurd hpass (not_passable_of_none hnone')
  have hhere : d'.here = x.here :=
    hc.narrows.here.trans (hgains.here.trans hplaced.agree.here)
  exact (hstands.twin halike hhere (stands_of_slot? hs)).1

/-- What is removed in the end is apart from the vendored directory, if that is still there. -/
theorem Completed.kept_published (hc : Completed plan scratch host b d' reports c)
    (hd : d'.node? c.slot.parent = some .directory) (r : Trail) :
    d'.node? (c.slot.trail ++ r) = c.published.node? (c.slot.trail ++ r) := by
  refine hc.agree_end.node _ (not_or.2 ⟨?_, ?_⟩)
  · have habove := hc.not_above_holding
    refine not_below_of_apart ⟨habove, fun hp => ?_⟩
    rcases List.prefix_concat_iff.1 hp with he | hp
    · exact habove (he ▸ List.prefix_refl _)
    · exact (hc.not_below_removed hd).1 hp
  · obtain ⟨x, -, hplaced⟩ := hc.inPlace.aside
    exact not_below_of_apart ⟨hplaced.apart.2, hplaced.apart.1⟩

/-- The path of the alias manifest names an entry. -/
theorem Made.exists_step (h : Made inputs config plan base) :
    ∃ step ∈ [] ++ Path.stepNames plan.aliasManifest.text, step ≠ "." := by
  obtain ⟨name, hname⟩ := fileName?_of_vendoredBase h.below
  obtain ⟨way, hway⟩ := Path.standing_of_fileName? hname
  obtain ⟨m, n, hsteps⟩ := hway.steps
  refine ⟨name, ?_, hway.plain.1⟩
  rw [List.nil_append, h.aliasManifest, ← Path.steps_eq_stepNames, hsteps]
  simp

/-- Directories are made in the vendored directory on the way to the alias manifest only. -/
theorem Made.opens_aliases (h : Made inputs config plan base)
    (hc : Completed plan scratch host b d' reports c) : Opens c.folder c.placed c.opened := by
  obtain ⟨hrel, hdown⟩ := h.aliases_below
  obtain ⟨way, hway⟩ := Path.standing_of_fileName? hc.named
  have hcomes := hc.published.hosted.comes.join hrel hdown
  obtain ⟨rest, hdirectory⟩ := hcomes.directory hway h.exists_step
  exact opens_of_makeDirectories hdirectory hc.published.opened
    (hc.published.leads.mono (Set.empty_subset _))

/-- Nothing that is seen of a package has the name under which the alias manifest is written
first. -/
def Unmixed (plan : BuildPlan) (scratch : Scratch) (host : Path) (b : Disk) (p : PlannedPackage) :
    Prop :=
  ∀ r, b.seen? skippedDirectories p.source (r ++ [scratch.tempName (plan.aliasPath host)]) = none

/-- Where the alias manifest is written first nothing stood before, if that is in the vendored
directory. -/
theorem Completed.free_temp (hc : Completed plan scratch host b d' reports c)
    (hu : ∀ p ∈ ps, ¬ c.slot.trail ++ p.place <+: c.aliases ∨ Unmixed plan scratch host b p)
    (ho : Opens c.folder c.placed c.opened)
    (hv : Vendored plan b ps (c.placed.subtree c.slot.trail))
    (hdir : ∀ p ∈ ps, b.seen? skippedDirectories p.source [] = some .directory)
    (hin : tempPlace scratch (plan.aliasPath host) c.folder <+: c.slot.trail ++ r) :
    c.opened.node? (tempPlace scratch (plan.aliasPath host) c.folder) = none := by
  have halias := hc.published.aliases
  have hbar := halias.bars _ (List.prefix_refl _)
  have hslot : ¬ tempPlace scratch (plan.aliasPath host) c.folder <+: c.slot.trail :=
    fun hpre => halias.bars _ hpre (Or.inl (hc.dir_opened hv))
  have habove := (List.prefix_or_prefix_of_prefix hin (List.prefix_append _ _)).resolve_left hslot
  obtain ⟨q, hq⟩ := (List.prefix_concat_iff.1 habove).resolve_left fun he =>
    hslot (he ▸ List.prefix_refl _)
  rw [tempPlace, ← hq, List.append_assoc] at hbar ⊢
  have hcopy : ∀ p ∈ ps, ∀ more, p.place ++ more = q →
      plan.copy? b p (more ++ [scratch.tempName (plan.aliasPath host)]) = none := by
    rintro p hp more rfl
    refine copy_of_unseen ((hu p hp).resolve_left (fun hout => hout ?_) more) fun he => ?_
    · rw [Course.aliases, ← hq, ← List.append_assoc, List.append_assoc]
      exact List.prefix_append _ _
    · have hname : scratch.tempName (plan.aliasPath host) = PackageManifest.fileName := by
        simpa using congrArg List.getLast? he
      exact ne_of_dot (scratch.head?_tempName _) (by decide) hname
  rcases ho.node (c.slot.trail ++ (q ++ [scratch.tempName (plan.aliasPath host)])) with
    hsame | ⟨-, hmade, -⟩
  · rcases hv.free hcopy hdir with hnone | hold
    · exact hsame.trans hnone
    · exact absurd (Or.inl (hsame.trans hold)) hbar
  · exact absurd (Or.inl hmade) hbar

/-- Writing the alias manifest changes nothing in the vendored directory but the alias manifest. -/
theorem Completed.kept_recorded (hc : Completed plan scratch host b d' reports c)
    (hu : ∀ p ∈ ps, ¬ c.slot.trail ++ p.place <+: c.aliases ∨ Unmixed plan scratch host b p)
    (ho : Opens c.folder c.placed c.opened)
    (hv : Vendored plan b ps (c.placed.subtree c.slot.trail))
    (hdir : ∀ p ∈ ps, b.seen? skippedDirectories p.source [] = some .directory)
    (hr : ¬ c.slot.trail ++ r <+: c.aliases) :
    c.recorded.node? (c.slot.trail ++ r) = c.opened.node? (c.slot.trail ++ r) := by
  have halias := hc.published.aliases
  by_cases hin : c.slot.trail ++ r ∈ rewritten scratch (plan.aliasPath host) c.folder c.name
  swap
  · exact halias.agree.node _ hin
  rcases hin with htemp | ⟨more, hmore⟩
  · have hbefore := hc.free_temp hu ho hv hdir htemp
    obtain ⟨more, hmore⟩ := htemp
    rw [← hmore, node?_append_of_none hbefore]
    exact congrFun halias.temp more
  · cases more with
    | nil => exact absurd (by rw [← hmore, List.append_nil]; exact List.prefix_refl _) hr
    | cons name more =>
      have hafter : c.recorded.node? (c.slot.trail ++ r) = none := by
        rw [← hmore]
        exact congrFun halias.contents (name :: more)
      rw [hafter, ← hmore]
      cases hk : c.opened.node? (c.folder ++ [c.name] ++ name :: more) with
      | none => rfl
      | some k => exact absurd (node?_of_append hk) halias.free

/-- The vendored directory is left as it was when the alias manifest was written. -/
theorem Completed.kept_end (hc : Completed plan scratch host b d' reports c)
    (hv : Vendored plan b ps (c.placed.subtree c.slot.trail))
    (hd : d'.node? c.slot.parent = some .directory) (r : Trail) :
    d'.node? (c.slot.trail ++ r) = c.recorded.node? (c.slot.trail ++ r) := by
  have hrecorded : c.recorded.node? c.slot.trail = some .directory :=
    hc.published.aliases.dir (hc.dir_opened hv)
  have hapart := hc.published.manifest.apart hrecorded hc.not_above_host r
  exact (hc.kept_published hd r).trans (hc.published.manifest.agree.node _ hapart)

/-- The copies of the packages and nothing else stand at `v`, but for the alias manifest and the
directories that it stands in. Its place is `t`. -/
structure VendoredAt (plan : BuildPlan) (b : Disk) (v t : Trail) (d : Disk) : Prop where
  top : d.node? v = some .directory
  aliases : v <+: t → d.node? t = some (.file plan.aliases.text.toUTF8)
  tree : ∃ f, Vendored plan b plan.packages f ∧ ∀ r, ¬ v ++ r <+: t → d.node? (v ++ r) = f r

theorem Completed.vendored_end (hc : Completed plan scratch host b d' reports c)
    (hu : ∀ p ∈ plan.packages, ¬ c.slot.trail ++ p.place <+: c.aliases ∨
      Unmixed plan scratch host b p) (ho : Opens c.folder c.placed c.opened)
    (hv : Vendored plan b plan.packages (c.placed.subtree c.slot.trail))
    (hdir : ∀ p ∈ plan.packages, b.seen? skippedDirectories p.source [] = some .directory)
    (hd : d'.node? c.slot.parent = some .directory) :
    VendoredAt plan b c.slot.trail c.aliases d' := by
  have hkept := hc.kept_end hv hd
  refine ⟨?_, ?_, _, hv, fun r hr => ?_⟩
  · have htop := hkept []
    rw [List.append_nil] at htop
    exact htop.trans (hc.published.aliases.dir (hc.dir_opened hv))
  · rintro ⟨r, hr⟩
    rw [← hr, hkept, hr]
    exact hc.published.aliases.file
  · calc d'.node? (c.slot.trail ++ r) = c.recorded.node? (c.slot.trail ++ r) := hkept r
      _ = c.opened.node? (c.slot.trail ++ r) := hc.kept_recorded hu ho hv hdir hr
      _ = c.placed.node? (c.slot.trail ++ r) := (ho.node _).resolve_right fun hm =>
        hr (hm.2.2.trans (List.prefix_append _ _))

/-- What a way to the vendored directory may not pass: the directories that a build keeps for itself
in the host, and links with the name of the alias manifest. -/
def hazards (plan : BuildPlan) (scratch : Scratch) (host : Path) (h : Trail) (d : Disk) :
    Set Trail :=
  below (h ++ [stagingName scratch]) ∪ below (h ++ [holdingName scratch]) ∪
    {t | t.getLast? = (plan.aliasPath host).fileName? ∧ ∃ target, d.node? t = some (.link target)}

/-- The path of the vendored directory names the same entry before a build and after it. -/
theorem Completed.slot_end (hc : Completed plan scratch host b d' reports c)
    (hclosed : Closed b c.host PackageManifest.fileName)
    (hs : Stands b (hazards plan scratch host c.host b) (plan.vendoredPath host) s) :
    d'.slot? (plan.vendoredPath host) = .ok (some s) := by
  have hkept : below (c.staging scratch) ∪ below (c.holding scratch) ⊆
      hazards plan scratch host c.host b := Set.subset_union_left
  obtain ⟨rfl, hheld⟩ := hc.inPlace.stands.twin (.refl _) rfl
    (hs.agree (hc.agree_held.mono hkept))
  have hb : Stands b (below c.slot.trail ∪ hazards plan scratch host c.host b)
      (plan.vendoredPath host) c.slot :=
    (hheld.mono Set.subset_union_left).agree
      (hc.agree_held.symm.mono (hkept.trans Set.subset_union_right))
  have hpast := hb.past hclosed
  have halias := hc.published.aliases
  have hgains := gains_of_makeDirectories hc.published.opened
  have hhere : d'.here = b.here := hc.narrows.here.trans
    (hgains.here.trans (hc.inPlace.agree.here.trans hc.agree_held.here))
  refine (hpast.carry hhere fun t ht hpass => ?_).slot?
  obtain ⟨hbefore, hmanifest⟩ := not_or.1 ht
  obtain ⟨hslot, hhazard⟩ := not_or.1 hbefore
  obtain ⟨hkeeps, hlink⟩ := not_or.1 hhazard
  obtain ⟨hstaging, hholding⟩ := not_or.1 hkeeps
  obtain ⟨k, hk⟩ : ∃ k, b.node? t = some k := by
    rcases hpass with h | ⟨target, h⟩
    · exact ⟨_, h⟩
    · exact ⟨_, h⟩
  have hheld' : c.held.node? t = b.node? t :=
    hc.agree_held.node t (not_or.2 ⟨hstaging, hholding⟩)
  have hplaced : c.placed.node? t = b.node? t :=
    (hc.inPlace.agree.node t (not_or.2 ⟨not_or.2 ⟨hslot, hholding⟩, hstaging⟩)).trans hheld'
  have hopened : c.opened.node? t = b.node? t := (hgains.grow (hplaced.trans hk)).trans hk.symm
  have hout : t ∉ rewritten scratch (plan.aliasPath host) c.folder c.name := by
    intro hin
    obtain ⟨ht, target, htarget⟩ := halias.link_of_passable hin (hpass.of_eq hopened)
    refine hlink ⟨?_, target, hopened.symm.trans htarget⟩
    rw [ht, hc.named, List.getLast?_concat]
  have hrecorded : c.recorded.node? t = b.node? t := (halias.agree.node t hout).trans hopened
  have hout' : t ∉ rewritten scratch (manifestPath host) c.host PackageManifest.fileName := by
    rintro (hin | hin)
    · exact hc.published.manifest.bars t hin (hpass.of_eq hrecorded)
    · exact hmanifest hin
  have hpublished : c.published.node? t = b.node? t :=
    (hc.published.manifest.agree.node t hout').trans hrecorded
  exact (hc.agree_end.node t (not_or.2 ⟨hholding, hstaging⟩)).trans hpublished

theorem distinct_prepareParents (hd : d.Distinct)
    (h : on (plan.prepareParents host : Program BuildFault Unit) d = (.ok (), b)) :
    b.Distinct := by
  have hdistinct := (keeps_prepareParents_of plan host
    (fun _ _ _ _ hd hm => distinct_makeDirectory hd hm) d hd).1
  rwa [h] at hdistinct

/-- The alias manifest is found on the disk `d`, and not in the copy of a package. -/
def Outside (plan : BuildPlan) (host : Path) (d : Disk) (p : PlannedPackage) : Prop :=
  ∃ a, d.slot? (plan.aliasPath host) = .ok (some a) ∧
    ∀ v, d.slot? (plan.vendoredPath host) = .ok (some v) → ¬ v.trail ++ p.place <+: a.trail

/-- After a build that works the vendored directory holds the copies of the packages and nothing
else, but for the alias manifest and its directories if it is written there. The copies are made of
what is seen of the packages once the parents of both places are there; nothing of them may be seen
in the staging directory, or have the name under which a manifest is written first in its copy. As
many files are reported as are copied. -/
theorem apply_vendors {h : Trail} (hp : Plain scratch) (hd : d.Proper) (hdd : d.Distinct)
    (hlinks : Unplanted scratch d)
    (hload : on (BuildInputs.load host config : Program BuildFault BuildInputs) d = (.ok inputs, d))
    (hplan : inputs.plan config = .ok plan)
    (hb : on (plan.prepareParents host : Program BuildFault Unit) d = (.ok (), b))
    (hh : Leads b ∅ host h)
    (hs : ∀ p ∈ plan.packages, Shows (below (h ++ [stagingName scratch])) b skippedDirectories
      p.source (b.seen? skippedDirectories p.source))
    (hu : ∀ p ∈ plan.packages, Renamable scratch b p ∧
      (Outside plan host d' p ∨ Unmixed plan scratch host b p))
    (hrun : on (plan.apply scratch host : Program BuildFault BuildReport) d = (.ok report, d')) :
    Gains (plan.parents host) d b ∧
      List.Forall₂ (fun p report =>
        (filesOf (b.seen? skippedDirectories p.source)).encard = report.filesCopied)
          plan.packages report.packages ∧
      (∀ v, Stands b (hazards plan scratch host h b) (plan.vendoredPath host) v →
        d'.slot? (plan.vendoredPath host) = .ok (some v)) ∧
      ∃ t, (∀ a, d'.slot? (plan.aliasPath host) = .ok (some a) → a.trail = t) ∧
        ∀ v, d'.slot? (plan.vendoredPath host) = .ok (some v) →
          VendoredAt plan b v.trail t d' := by
  obtain ⟨base, hmade⟩ := made_of_plan hplan
  obtain ⟨name, hname⟩ := hmade.fileName?_aliasPath host
  obtain ⟨bytes, hread⟩ := BuildInputs.contents_of_load hload
  have hclosed := closed_of_contents PackageManifest.proper_fileName hread
  obtain ⟨b', c, hb', hgains, hproper, hc, -⟩ :=
    completed_of_apply hp hd hlinks hclosed hname hmade.valid hrun
  rw [hb] at hb'
  cases hb'
  have hgrow : ∀ t k, d.node? t = some k → b.node? t = some k := fun _ _ => hgains.grow
  obtain rfl := hh.unique (hc.toHost.mono (Set.empty_subset _))
  have hsource : ∀ p ∈ plan.packages, b.seen? skippedDirectories p.source [] = some .directory :=
    fun p hm => hmade.seen_source hload hgains hm
  obtain ⟨hvendored, hcounts⟩ := hc.vendored hp hproper (distinct_prepareParents hdd hb)
    (fun p hm => (hu p hm).1) hmade.valid (hmade.nodup_packages hload) hs hsource
  refine ⟨hgains, hcounts, fun v hv => ?_, c.aliases, fun a ha => (hc.slot_aliases ha).1,
    fun v hv => ?_⟩
  · obtain ⟨h, hl, hclosed⟩ := hclosed
    obtain rfl := (hl.grow hgains.here hgrow).unique hh
    exact hc.slot_end (hclosed.grow hgrow) hv
  · obtain rfl := hc.slot_vendored hv
    refine hc.vendored_end (fun p hm => (hu p hm).2.imp_left ?_) (hmade.opens_aliases hc) hvendored
      hsource (stands_of_slot? hv).dir
    rintro ⟨a, ha, hout⟩
    rw [← (hc.slot_aliases ha).1]
    exact hout _ hv

/-- A package stands where the configuration says. -/
theorem Made.source_eq (h : Made inputs config plan base)
    (hload : on (BuildInputs.load host config : Program BuildFault BuildInputs) d = (.ok inputs, d))
    (hp : p ∈ plan.packages) :
    p.identity ∈ config.packages ∧ p.source = config.sourcePath host p.identity := by
  obtain ⟨s, hs, hplanned⟩ := h.exists_source hp
  obtain ⟨hidentities, hsourced⟩ := BuildInputs.sources_of_load hload
  have hm := (List.of_mem_zip hs).1
  rw [hplanned.identity, hplanned.source, (hsourced s hm).directory]
  exact ⟨hidentities ▸ List.mem_map_of_mem hm, rfl⟩

theorem unborne_of_nodes {name : String} (h : ∀ e ∈ d.root.nodes, e.1.getLast? ≠ some name)
    (t : Trail) : d.node? (t ++ [name]) = none := by
  cases hk : d.node? (t ++ [name]) with
  | none => rfl
  | some k => exact absurd List.getLast?_concat (h _ (Tree.mem_nodes hk))

theorem unseen_of_nodes (h : ∀ e ∈ d.root.nodes, e.1.getLast?.bind (·.toList.head?) ≠ some '.')
    (scratch : Scratch) (p : PlannedPackage) (r : Trail) (q : Path) :
    d.seen? skippedDirectories p.source (r ++ [scratch.tempName q]) = none := by
  refine seen_of_unborne (unborne_of_nodes fun e he hlast => h e he ?_) r
  rw [hlast]
  exact scratch.head?_tempName q

/-- What is seen of the package beside the host does not hang on what stands in the host. -/
theorem beside_shows : Shows (inside ["host"]) besideDisk skippedDirectories
    (besideConfig.sourcePath ⟨"/host"⟩ "pkg")
    (besideDisk.seen? skippedDirectories (besideConfig.sourcePath ⟨"/host"⟩ "pkg")) :=
  shows_of_linkless beside_spared.leads (fun _ => beside_linkless _) beside_spared.apart

theorem beside_stands : Stands besideDisk (hazards plan scratch ⟨"/host"⟩ ["host"] besideDisk)
    ((⟨"/host"⟩ : Path).join "v") ⟨["host"], "v", false⟩ := by
  refine (beside_leads.mono ?_).child (by decide) (by decide +kernel)
  have hkept (name : String) : below (["host"] ++ [name]) ⊆ inside ["host"] :=
    below_subset_inside (s := ⟨["host"], name, false⟩) (List.prefix_refl _)
  refine Set.union_subset (Set.union_subset (hkept _) (hkept _)) ?_
  rintro t ⟨-, target, hlink⟩
  exact absurd hlink (beside_linkless t target)

/-- A build that works has nothing to make first. -/
theorem beside_prepared (hplan : inputs.plan besideConfig = .ok plan)
    (happly : on (plan.apply ⟨"1", "a"⟩ ⟨"/host"⟩ : Program BuildFault BuildReport) besideDisk =
      (.ok report, d')) :
    on (plan.prepareParents ⟨"/host"⟩ : Program BuildFault Unit) besideDisk =
      (.ok (), besideDisk) := by
  cases hb : on (plan.prepareParents ⟨"/host"⟩ : Program BuildFault Unit) besideDisk with
  | mk r b =>
  obtain rfl := beside_settled hplan hb
  cases r with
  | ok u => rfl
  | error e =>
    have hfails : on (plan.apply ⟨"1", "a"⟩ ⟨"/host"⟩ : Program BuildFault BuildReport)
        besideDisk = (.error e, besideDisk) := on_bind_error hb
    rw [hfails] at happly
    cases happly

theorem apply_vendors_beside : ∃ inputs plan report d',
    on (BuildInputs.load ⟨"/host"⟩ besideConfig : Program BuildFault BuildInputs) besideDisk =
      (.ok inputs, besideDisk) ∧
    inputs.plan besideConfig = .ok plan ∧
    on (plan.apply ⟨"1", "a"⟩ ⟨"/host"⟩ : Program BuildFault BuildReport) besideDisk =
      (.ok report, d') ∧
    ∃ t, VendoredAt plan besideDisk ["host", "v"] t d' := by
  obtain ⟨report, d', hrun⟩ := beside_builds
  rcases build_cases hrun with ⟨e, he, -⟩ | ⟨inputs, plan, hload, hplan, happly⟩
  · cases he
  obtain ⟨base, hmade⟩ := made_of_plan hplan
  have hunseen := unseen_of_nodes (d := besideDisk) (by decide) ⟨"1", "a"⟩
  have hseen : ∀ p ∈ plan.packages, Shows (below (["host"] ++ [stagingName ⟨"1", "a"⟩])) besideDisk
      skippedDirectories p.source (besideDisk.seen? skippedDirectories p.source) := by
    intro p hp
    obtain ⟨hid, hsource⟩ := hmade.source_eq hload hp
    rw [hsource, List.mem_singleton.1 hid]
    exact beside_shows.mono
      (below_subset_inside (s := ⟨["host"], _, false⟩) (List.prefix_refl _))
  obtain ⟨-, -, hstands, t, -, hvendored⟩ := apply_vendors ⟨by decide, by decide⟩
    (proper_of_nodes (by decide)) (Tree.distinct_of_holdings (by decide))
    (unplanted_of_nodes (by decide) _) hload hplan (beside_prepared hplan happly)
    (beside_leads.mono (Set.empty_subset _)) hseen
    (fun p _ => ⟨fun _ => hunseen p [] _, Or.inr fun r => hunseen p r _⟩) happly
  have hplace : plan.vendoredPath ⟨"/host"⟩ = (⟨"/host"⟩ : Path).join "v" := by
    rw [vendoredPath, hmade.vendoredDir]
    rfl
  have hslot := hstands ⟨["host"], "v", false⟩ (hplace ▸ beside_stands)
  exact ⟨inputs, plan, report, d', hload, hplan, happly, t, hvendored _ hslot⟩

/-- A package that the vendored directory is configured below. -/
def enclosingDisk : Disk where
  root := .directory [("host", .directory [("package.json", .file ⟨#[0x7b, 0x7d]⟩),
    ("src", .directory [("package.json", .file ⟨#[0x7b, 0x7d]⟩)])])]
  here := []

def enclosingConfig : Config :=
  { bareConfig "src/deep/v" with packages := ["src"], sourceRoot := ⟨"."⟩ }

/-- The parents of the vendored directory are made before anything is copied. -/
theorem apply_copies_parents : ∃ inputs plan report d',
    on (BuildInputs.load ⟨"/host"⟩ enclosingConfig : Program BuildFault BuildInputs)
      enclosingDisk = (.ok inputs, enclosingDisk) ∧
    inputs.plan enclosingConfig = .ok plan ∧
    on (plan.apply ⟨"1", "a"⟩ ⟨"/host"⟩ : Program BuildFault BuildReport) enclosingDisk =
      (.ok report, d') ∧
    enclosingDisk.seen? skippedDirectories (enclosingConfig.sourcePath ⟨"/host"⟩ "src") ["deep"] =
      none ∧
    d'.kind ((plan.vendoredPath ⟨"/host"⟩).join "src/deep") = .ok .directory := by
  have heval : (on (build ⟨"1", "a"⟩ ⟨"/host"⟩ enclosingConfig :
      Program BuildFault BuildReport) enclosingDisk).1.isOk = true ∧
      (on (build ⟨"1", "a"⟩ ⟨"/host"⟩ enclosingConfig :
      Program BuildFault BuildReport) enclosingDisk).2.kind ⟨"/host/src/deep/v/src/deep"⟩ =
        .ok .directory := by decide +kernel
  cases hrun : on (build ⟨"1", "a"⟩ ⟨"/host"⟩ enclosingConfig : Program BuildFault BuildReport)
      enclosingDisk with
  | mk r d' =>
  rw [hrun] at heval
  obtain ⟨hok, hkind⟩ := heval
  cases r with
  | error e => cases hok
  | ok report =>
    rcases build_cases hrun with ⟨e, he, -⟩ | ⟨inputs, plan, hload, hplan, happly⟩
    · cases he
    obtain ⟨base, hmade⟩ := made_of_plan hplan
    refine ⟨inputs, plan, report, d', hload, hplan, happly, ?_, ?_⟩
    · exact seen_of_unborne (unborne_of_nodes (by decide)) []
    · have hplace : (plan.vendoredPath ⟨"/host"⟩).join "src/deep" =
          ⟨"/host/src/deep/v/src/deep"⟩ := by
        rw [vendoredPath, hmade.vendoredDir]
        decide +kernel
      rw [hplace]
      exact hkind
end BuildPlan

end Vendoring
