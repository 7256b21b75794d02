import Vendoring.Proofs.Build.Undoing
import Vendoring.Proofs.Files.Worked

/-! A build that works: what each of its steps did, wherever its paths led. That the steps worked
shows that the way to the host passes nothing that they took away. -/
namespace Vendoring.BuildPlan
open Files Files.Disk Files.Carrier

variable {plan : BuildPlan} {scratch : Scratch} {host vendored aliasPath : Path} {S : Set Trail}
  {h q : Trail} {name : String} {d d' b : Disk} {previous previous' : Previous} {s : Slot}
  {reports : List PackageReport}

/-- A staging directory that could be made is new, and no path passes it. -/
theorem staged_of_new (hp : Plain scratch) (hm : d.makeDirectory (stagingPath scratch host) = .ok b) :
    ∃ h, Leads d (below (h ++ [stagingName scratch])) host h ∧ Staged scratch host h d b := by
  obtain ⟨s, hslot⟩ := makeDirectory_slot hm
  have hs := stands_of_slot? hslot
  obtain ⟨he, hl⟩ := hs.of_child hp.staging
  have hname : s.name = stagingName scratch := congrArg Slot.name he
  have htrail : s.trail = s.parent ++ [stagingName scratch] := by rw [Slot.trail, hname]
  obtain ⟨hfree, hfits, hset⟩ := add_sets hslot hm
  rw [htrail] at hfree hset
  rw [hname] at hfits
  have hlead : Leads d (below (s.parent ++ [stagingName scratch])) host s.parent := by
    have havoid := hl.avoid (not_passable_below (t := s.parent ++ [stagingName scratch])
      (by simp [hfree]) (by simp [hfree]))
    rwa [Set.empty_union] at havoid
  have hdir : b.node? (s.parent ++ [stagingName scratch]) = some .directory := by
    have hsub : b.subtree (s.parent ++ [stagingName scratch]) = (Tree.directory []).node? :=
      hset.subtree
    rw [← subtree_nil, hsub]
    rfl
  have hn := hp.staging
  obtain ⟨links, hway⟩ := ((hlead.agree hset.agree).enter hn hfits hdir).way
  exact ⟨s.parent, hlead, hfree, hset, hfits, hs.proper,
    ⟨⟨_, links, (List.append_nil _).symm, hway⟩, hdir, by simp⟩⟩

theorem hold_ok (hp : Plain scratch) (hl : Leads d S host h)
    (hr : on (hold scratch host aliasPath : Program BuildFault Previous) d =
      (.ok previous, d')) :
    Leads d (S ∪ below (h ++ [holdingName scratch])) host h ∧
      Held scratch host aliasPath h d d' previous := by
  obtain ⟨_, d₂, hnew, hr₁⟩ := on_bind_eq_ok.1 hr
  obtain ⟨_, d₁, hremove, hmake⟩ := on_bind_eq_ok.1 (on_adapt_eq_ok.1 hnew)
  rw [on_makeDirectory, settled_eq_ok] at hmake
  cases hr₁
  obtain ⟨hpast, hfits, hc, hset⟩ := remade hl hp.holding hremove hmake
  exact ⟨hpast, hset, hfits, hc, rfl⟩

/-- The staged tree of the disk `d` is in place on the disk `d'`. What stood there is kept aside, if
there was anything. -/
structure InPlace (scratch : Scratch) (host vendored : Path) (h : Trail) (s : Slot)
    (d d' : Disk) : Prop where
  stands : Stands d (below s.trail) vendored s
  fits : isTooLong s.name = false
  aside : ∃ x, (x = d ∧ d.node? s.trail = none ∨ Moved d x s.trail (keptPlace scratch h)) ∧
    Moved x d' (h ++ [stagingName scratch]) s.trail

theorem stands_kept (hp : Plain scratch) (hl : Leads d S host h) (hh : Holding scratch host h d)
    (hc : check (keptPath scratch host) = .ok ()) :
    Stands d ∅ (keptPath scratch host) ⟨h ++ [holdingName scratch], "vendored", false⟩ := by
  have hn := hp.holding
  have henter := hl.enter hn hh.fits hh.dir
  exact (henter.child (by decide) hc).mono (Set.empty_subset _)

/-- How the first half of a swap works. -/
theorem setAside_ok {d₁ : Disk} (hp : Plain scratch) (hl : Leads d S host h)
    (hh : Holding scratch host h d) (hempty : d.node? (keptPlace scratch h) = none)
    (hholding : previous.holding = holdingPath scratch host)
    (hr : on (setAside previous vendored : Program BuildFault Previous) d =
      (.ok previous', d₁)) :
    previous'.holding = holdingPath scratch host ∧
      ((d₁ = d ∧ d.rename vendored (keptPath scratch host) = .error .notFound) ∨
        ∃ s, Stands d ∅ vendored s ∧ Moved d d₁ s.trail (keptPlace scratch h)) := by
  rcases setAside_runs hholding hr with ⟨e, _, he, -⟩ | ⟨hprevious, hnone⟩ | ⟨hprevious, hm⟩
  · cases he
  · cases hprevious
    rw [on_rename, settled_eq_error] at hnone
    exact ⟨hholding, Or.inl hnone.symm⟩
  · cases hprevious
    refine ⟨hholding, Or.inr ?_⟩
    rw [on_rename, settled_eq_ok] at hm
    obtain ⟨s, k, hslot, hkept, hmove⟩ := rename_slots hm
    have hstands := stands_kept hp hl hh (stands_of_slot? hkept).proper
    rw [hstands.slot?] at hkept
    cases hkept
    have hne : s.trail ≠ keptPlace scratch h := by
      intro he
      exact there_of_move hmove (he ▸ hempty)
    obtain ⟨hmoved, -, -⟩ := move_moved hmove hne hstands.dir
    exact ⟨s, stands_of_slot? hslot, hmoved⟩

/-- Between the two moves of a swap nothing stands where the old tree stood, and no way has changed
but through it. -/
theorem free_of_setAside {d₁ : Disk} (hp : Plain scratch) (hl : Leads d S host h)
    (hh : Holding scratch host h d) (hempty : d.node? (keptPlace scratch h) = none)
    (hslot : d₁.slot? vendored = .ok (some s))
    (hcases : (d₁ = d ∧ d.rename vendored (keptPath scratch host) = .error .notFound) ∨
      ∃ s, Stands d ∅ vendored s ∧ Moved d d₁ s.trail (keptPlace scratch h)) :
    Alike d d₁ ∧ d₁.here = d.here ∧ Stands d ∅ vendored s ∧ d₁.node? s.trail = none := by
  have hs₁ := stands_of_slot? hslot
  rcases hcases with ⟨rfl, hnot⟩ | ⟨t, ht, hmoved⟩
  · exact ⟨.refl _, rfl, hs₁, none_of_rename_notFound hslot (join_ne_empty (by decide))
      (fun hc => (stands_kept hp hl hh hc).slot?) hnot⟩
  · have halike : Alike d d₁ := fun u hu hu' => hmoved.agree.node u fun hm => by
      rcases hm with ⟨r, rfl⟩ | ⟨r, rfl⟩
      · exact not_passable_of_none (congrFun hmoved.gone r) hu'
      · exact not_passable_of_none (node?_append_of_none hempty r) hu
    obtain ⟨rfl, -⟩ := ht.twin halike hmoved.agree.here hs₁
    refine ⟨halike, hmoved.agree.here, ht, ?_⟩
    rw [← subtree_nil, hmoved.gone]
    rfl

theorem not_staging_below_kept (scratch : Scratch) (h r : Trail) :
    ¬ keptPlace scratch h <+: h ++ [stagingName scratch] ++ r := by
  intro hp
  have hhold : h ++ [holdingName scratch] <+: h ++ [stagingName scratch] ++ r :=
    (List.prefix_append _ _).trans hp
  have hne := holdingName_ne_stagingName scratch
  exact not_below_of_apart ⟨not_below_sibling hne.symm, not_below_sibling hne⟩ hhold

/-- How a swap works: wherever the path of the vendored tree leads, no way to it or to the host
passes the old tree or the holding directory. -/
theorem swapIn_ok (hp : Plain scratch) (hl : Leads d S host h) (hh : Holding scratch host h d)
    (hempty : d.node? (keptPlace scratch h) = none)
    (hholding : previous.holding = holdingPath scratch host)
    (hr : on (swapIn (stagingPath scratch host) vendored previous : Program BuildFault Previous)
      d = (.ok previous', d')) :
    previous'.holding = holdingPath scratch host ∧
      ∃ s, Leads d (S ∪ below s.trail) host h ∧ InPlace scratch host vendored h s d d' := by
  obtain ⟨previous₁, d₁, haside, hr₁⟩ := on_bind_eq_ok.1 hr
  obtain ⟨placed, d₂, hattempt, hr₂⟩ := on_bind_eq_ok.1 hr₁
  have hm := on_attempt_eq_ok.1 hattempt
  cases placed with
  | error e =>
    obtain ⟨back, d₃, -, hr₃⟩ := on_bind_eq_ok.1 hr₂
    cases back with
    | error e => cases hr₃
    | ok u =>
      obtain ⟨_, _, -, hthrow⟩ := on_bind_eq_ok.1 hr₃
      cases hthrow
  | ok u =>
  cases hr₂
  rw [on_rename, settled_eq_ok] at hm
  obtain ⟨hholding', hcases⟩ := setAside_ok hp hl hh hempty hholding haside
  refine ⟨hholding', ?_⟩
  obtain ⟨k, s, hk, hslot, hmove⟩ := rename_slots hm
  have hs₁ := stands_of_slot? hslot
  obtain ⟨he, hl₁⟩ := (stands_of_slot? hk).of_child hp.staging
  obtain ⟨halike, hhere, hold, hnone⟩ := free_of_setAside hp hl hh hempty hslot hcases
  have hbarred : below s.trail ⊆ barred d d₁ := by
    rintro t ⟨r, rfl⟩ hpass
    exact not_passable_of_none (node?_append_of_none hnone r) hpass.2
  obtain ⟨hq, hpast⟩ := hl.twin halike hhere hl₁
  have htrail : k.trail = h ++ [stagingName scratch] := by
    rw [he, Slot.trail, hq]
    rfl
  have hne : k.trail ≠ s.trail := by
    intro hks
    exact there_of_move hmove (hks ▸ hnone)
  obtain ⟨hmoved, hmovable, -⟩ := move_moved hmove hne hs₁.dir
  rw [htrail] at hmoved
  refine ⟨s, hpast.mono fun t ht => ht.imp Or.inl fun hm => hbarred hm,
    (hold.twin halike hhere hs₁).2.mono fun t ht => Or.inr (hbarred ht), hmovable.fits.2, d₁, ?_,
    hmoved⟩
  rcases hcases with ⟨rfl, -⟩ | ⟨t, ht, hset⟩
  · exact Or.inl ⟨rfl, hnone⟩
  · obtain ⟨rfl, -⟩ := ht.twin (.refl d) rfl hold
    exact Or.inr hset

theorem InPlace.agree (hi : InPlace scratch host vendored h s d d') :
    Agree (below s.trail ∪ below (h ++ [holdingName scratch]) ∪
      below (h ++ [stagingName scratch])) d d' := by
  obtain ⟨x, hx, hplaced⟩ := hi.aside
  have hx' : Agree (below s.trail ∪ below (h ++ [holdingName scratch])) d x := by
    rcases hx with ⟨rfl, -⟩ | hmoved
    · exact .refl _ _
    · exact hmoved.agree.mono (Set.union_subset_union_right _ (kept_below_holding scratch h))
  refine (hx'.mono Set.subset_union_left).trans (hplaced.agree.mono ?_)
  exact Set.union_subset Set.subset_union_right
    (Set.subset_union_left.trans Set.subset_union_left)

theorem InPlace.staging (hi : InPlace scratch host vendored h s d d') :
    d'.subtree (h ++ [stagingName scratch]) = nothing := by
  obtain ⟨x, -, hplaced⟩ := hi.aside
  exact hplaced.gone

theorem InPlace.tree (hi : InPlace scratch host vendored h s d d') :
    d'.subtree s.trail = d.subtree (h ++ [stagingName scratch]) := by
  obtain ⟨x, hx, hplaced⟩ := hi.aside
  rw [hplaced.moved]
  rcases hx with ⟨rfl, -⟩ | hmoved
  · rfl
  · refine hmoved.agree.subtree fun r => not_or.2 ⟨?_, not_staging_below_kept scratch h r⟩
    exact not_below_of_apart hplaced.apart

/-- The vendored tree is not what the holding directory stands in. -/
theorem InPlace.not_above_holding (hi : InPlace scratch host vendored h s d d')
    (hd : d.node? (h ++ [holdingName scratch]) ≠ none) :
    ¬ s.trail <+: h ++ [holdingName scratch] := by
  obtain ⟨x, hx, -⟩ := hi.aside
  intro hp
  rcases hx with ⟨rfl, hnone⟩ | hmoved
  · obtain ⟨r, hr⟩ := hp
    exact hd (hr ▸ node?_append_of_none hnone r)
  · exact hmoved.apart.1 (hp.trans (List.prefix_append _ _))

theorem InPlace.holding (hi : InPlace scratch host vendored h s d d')
    (hd : d.node? (h ++ [holdingName scratch]) = some .directory) :
    d'.node? (h ++ [holdingName scratch]) = some .directory := by
  obtain ⟨x, hx, hplaced⟩ := hi.aside
  have habove : ¬ s.trail <+: h ++ [holdingName scratch] := hi.not_above_holding (by simp [hd])
  have hstaging := not_below_sibling (q := h) (holdingName_ne_stagingName scratch).symm
  rw [hplaced.agree.node _ (not_or.2 ⟨hstaging, habove⟩)]
  rcases hx with ⟨rfl, -⟩ | hmoved
  · exact hd
  · rw [hmoved.agree.node _ (not_or.2 ⟨habove, ?_⟩)]
    · exact hd
    · intro hk
      have hlength := hk.length_le
      simp [keptPlace] at hlength

theorem publish_ok
    (hr : on (plan.publish scratch host : Program BuildFault Unit) d = (.ok (), d')) :
    ∃ d₁, on (replaceFile scratch (plan.aliasPath host) plan.aliases.text.toUTF8 :
        Program Fault Unit) d = (.ok (), d₁) ∧
      on (replaceFile scratch (manifestPath host) plan.host.text.toUTF8 :
        Program Fault Unit) d₁ = (.ok (), d') := by
  obtain ⟨_, d₁, haliases, hmanifest⟩ := on_bind_eq_ok.1 hr
  exact ⟨d₁, on_adapt_eq_ok.1 haliases, on_adapt_eq_ok.1 hmanifest⟩

/-- No link bears a name under which files are written first. -/
def Unplanted (scratch : Scratch) (d : Disk) : Prop :=
  ∀ t p target, t.getLast? = some (scratch.tempName p) → d.node? t ≠ some (.link target)

/-- Both manifests are written: the directories of the alias manifest are there on the disk `c`, and
it is on the disk `c'`. -/
structure Published (plan : BuildPlan) (scratch : Scratch) (host : Path) (S : Set Trail)
    (h q : Trail) (name : String) (d c c' d' : Disk) : Prop where
  hosted : Leads d S host h
  wrote : on (replaceFile scratch (plan.aliasPath host) plan.aliases.text.toUTF8 :
    Program Fault Unit) d = (.ok (), c')
  opened : on (makeDirectories (plan.aliasPath host).directory : Program Fault Unit) d = (.ok (), c)
  leads : Leads c (below (tempPlace scratch (plan.aliasPath host) q))
    (plan.aliasPath host).directory q
  aliases : Rewritten scratch c c' (plan.aliasPath host) q name plan.aliases.text.toUTF8
  manifest : Rewritten scratch c' d' (manifestPath host) h PackageManifest.fileName
    plan.host.text.toUTF8
  toHost : Leads c (S ∪ rewritten scratch (plan.aliasPath host) q name ∪
    below (tempPlace scratch (manifestPath host) h)) host h

/-- The names of files that are written first start with a dot. -/
theorem unplanted_of_nodes (h : ∀ e ∈ d.root.nodes, e.2.isLink = true →
    e.1.getLast?.bind (·.toList.head?) ≠ some '.') (scratch : Scratch) : Unplanted scratch d := by
  intro t p target hlast ht
  refine h _ (Tree.mem_nodes ht) rfl ?_
  rw [hlast]
  exact scratch.head?_tempName p

theorem Unplanted.temp (hu : Unplanted scratch d) (p : Path) (q : Trail) (target : String) :
    d.node? (tempPlace scratch p q) ≠ some (.link target) :=
  hu _ p target (by rw [tempPlace, List.getLast?_concat])

theorem Unplanted.of_links (hu : Unplanted scratch d)
    (hd : ∀ t target, d'.node? t = some (.link target) → d.node? t = some (.link target)) :
    Unplanted scratch d' := fun t p target hlast ht => hu t p target hlast (hd t target ht)

theorem Unplanted.narrow (hu : Unplanted scratch d) (hn : Narrows d d') : Unplanted scratch d' :=
  hu.of_links fun t target ht => (hn.node t (Or.inr ⟨target, ht⟩)).symm.trans ht

theorem Unplanted.gain {ps : List Path} (hu : Unplanted scratch d) (hg : Gains ps d d') :
    Unplanted scratch d' := hu.of_links fun _ _ => hg.link_of_link

theorem Unplanted.set {t : Trail} {f : Trail → Option Node} (hu : Unplanted scratch d)
    (hs : Sets d d' t f) (hf : ∀ r target, f r ≠ some (.link target)) : Unplanted scratch d' := by
  refine hu.of_links fun x target hx => ?_
  by_cases htx : t <+: x
  · obtain ⟨r, rfl⟩ := htx
    exact absurd ((congrFun hs.subtree r).symm.trans hx) (hf r target)
  · exact (hs.agree.node x htx).symm.trans hx

theorem Unplanted.region (hu : Unplanted scratch d) (hr : Region d q d') : Unplanted scratch d' := by
  refine hu.of_links fun x target hx => ?_
  by_cases hq : q <+: x
  · obtain ⟨r, rfl⟩ := hq
    exact absurd hx (hr.linkless r target)
  · exact (hr.agree.node x fun hm => hq hm.1).symm.trans hx

/-- A tree takes its links along. -/
theorem Unplanted.move {t u : Trail} (hu : Unplanted scratch d) (hm : Moved d d' t u)
    (htop : ∀ p target, d.node? t = some (.link target) →
      u.getLast? ≠ some (scratch.tempName p)) : Unplanted scratch d' := by
  intro x p target hlast hx
  by_cases hux : u <+: x
  · obtain ⟨r, rfl⟩ := hux
    have hold : d.node? (t ++ r) = some (.link target) := (congrFun hm.moved r).symm.trans hx
    rcases List.eq_nil_or_concat r with rfl | ⟨r, name, rfl⟩
    · rw [List.append_nil] at hold hlast
      exact htop p target hold hlast
    · rw [List.concat_eq_append] at hold hlast
      refine hu _ p target ?_ hold
      rw [← hlast]
      simp
  · by_cases htx : t <+: x
    · obtain ⟨r, rfl⟩ := htx
      rw [show d'.node? (t ++ r) = none from congrFun hm.gone r] at hx
      cases hx
    · rw [hm.agree.node x (not_or.2 ⟨htx, hux⟩)] at hx
      exact hu x p target hlast hx

theorem InPlace.unplanted (hi : InPlace scratch host vendored h s d d') (hu : Unplanted scratch d)
    (hd : d.node? (h ++ [stagingName scratch]) = some .directory) : Unplanted scratch d' := by
  obtain ⟨x, hx, hplaced⟩ := hi.aside
  have hstaging : x.node? (h ++ [stagingName scratch]) = some .directory := by
    rw [← subtree_nil, ← hplaced.moved, hi.tree, subtree_nil, hd]
  have hux : Unplanted scratch x := by
    rcases hx with ⟨rfl, -⟩ | hmoved
    · exact hu
    · refine hu.move hmoved fun p _ _ hlast => ?_
      rw [keptPlace, List.getLast?_concat, Option.some.injEq] at hlast
      exact ne_of_dot (scratch.head?_tempName p) (by decide) hlast.symm
  refine hux.move hplaced fun p target hlink => ?_
  rw [hstaging] at hlink
  cases hlink

/-- A file that was replaced, and what is made after it, bars its two places to all ways. -/
theorem alike_of_rewritten {p : Path} {bytes : ByteArray} {c c' e : Disk} {ps : List Path}
    (hr : Rewritten scratch c c' p q name bytes) (hg : Gains ps c' e) :
    Alike c e ∧ rewritten scratch p q name ⊆ barred c e := by
  have hfile : e.node? (q ++ [name]) = some (.file bytes) := hg.grow hr.file
  have hbelow : ∀ u ∈ below (q ++ [name]), ¬ e.Passable u :=
    not_passable_below (by simp [hfile]) (by simp [hfile])
  have hsub : rewritten scratch p q name ⊆ barred c e := by
    rintro t (ht | ht) ⟨hpass, hpass'⟩
    · exact hr.bars t ht hpass
    · exact hbelow t ht hpass'
  refine ⟨fun t hpass hpass' => ?_, hsub⟩
  have hout : t ∉ rewritten scratch p q name := fun ht => hsub ht ⟨hpass, hpass'⟩
  have hsame : c'.node? t = c.node? t := hr.agree.node t hout
  rw [← hsame]
  rcases hg.node t with he | ⟨hnone, -⟩
  · exact he
  · rw [hsame] at hnone
    exact absurd hpass (not_passable_of_none hnone)

theorem published_of_ok (hp : Plain scratch) (hl : Leads d S host h) (hu : Unplanted scratch d)
    (hname : (plan.aliasPath host).fileName? = some name)
    (hr : on (plan.publish scratch host : Program BuildFault Unit) d = (.ok (), d')) :
    ∃ q c c', Published plan scratch host S h q name d c c' d' := by
  obtain ⟨c', ha, hm⟩ := publish_ok hr
  obtain ⟨c, q, hopen, hleads, halias⟩ :=
    replaceFile_ok hname hp.tag (hu.temp _) ha
  have hgains := gains_of_makeDirectories hopen
  have hlc : Leads c S host h := hl.grow hgains.here fun _ _ => hgains.grow
  have hu' : Unplanted scratch c' := (hu.gain hgains).narrow halias.narrows
  have hnamed := PackageManifest.fileName?_join host
  obtain ⟨e, q', hmake, -, hmanifest⟩ :=
    replaceFile_ok hnamed hp.tag (hu'.temp _) hm
  have hgains' := gains_of_makeDirectories hmake
  obtain ⟨halike, hbarred⟩ := alike_of_rewritten halias hgains'
  have hle := hmanifest.leads PackageManifest.proper_fileName
  have hhere : e.here = c.here := hgains'.here.trans halias.agree.here
  obtain ⟨rfl, hpast⟩ := hlc.twin halike hhere hle
  have htoHost : Leads c (S ∪ rewritten scratch (plan.aliasPath host) q name ∪
      below (tempPlace scratch (manifestPath host) q')) host q' := by
    refine hpast.mono ?_
    rintro t ((ht | ht) | ht)
    · exact Or.inl (Or.inl ht)
    · exact Or.inr (hbarred ht)
    · exact Or.inl (Or.inr ht)
  -- The way to the host is still there, so that no directory was made for its manifest.
  have hlc' : Leads c' (S ∪ rewritten scratch (plan.aliasPath host) q name ∪
      below (tempPlace scratch (manifestPath host) q')) host q' :=
    htoHost.agree (halias.agree.mono fun t ht => Or.inl (Or.inr ht))
  have hn := PackageManifest.proper_fileName
  obtain ⟨hsame, -⟩ :=
    makeDirectories_there (not_refused _ _) (hlc'.directory hn hnamed) hmake
  obtain rfl : e = c' := hsame
  exact ⟨q, c, e, hl, ha, hopen, hleads, halias, hmanifest, htoHost⟩

end Vendoring.BuildPlan
