import Vendoring.Proofs.Build.Clearing

/-! Wherever the work in the staging directory fails, all but that directory is put back, as far as
the system does not refuse that. -/
namespace Vendoring.BuildPlan
open Files Files.Disk Files.Carrier

variable {σ : Type} [FileStore (StateM σ)] [Carrier σ] [LawfulCarrier σ]
  {b x y v f a t w w' : σ} {plan : BuildPlan} {scratch : Scratch} {host vendored p : Path}
  {places : Places} {S : Set Trail} {h pv u : Trail} {vname : String} {d d' : Disk}
  {k : Option Node} {previous : Previous} {e : BuildFault}

/-- The place of an alias manifest that is not in the vendored directory. -/
def Places.alias? (places : Places) : Option Trail := places.aliases?.map fun a => a.1 ++ [a.2]

/-- What is written first at the place `u`: a manifest, or the previous contents of the alias
manifest. -/
def Draft (plan : BuildPlan) (scratch : Scratch) (host : Path) (places : Places)
    (old? : Option ByteArray) (u : Trail) (bytes : ByteArray) : Prop :=
  u = places.manifestTemp scratch host ∧ bytes = plan.host.text.toUTF8 ∨
    (∃ q name, places.aliases? = some (q, name) ∧ u = tempPlace scratch (plan.aliasPath host) q) ∧
      (bytes = plan.aliases.text.toUTF8 ∨ old? = some bytes)

/-- What a build that failed may leave at a place `u` that held something else on the disk of `b`.
Once `f` is reached the build takes back what it did: the alias manifest up to `a`, the tree up to
`t` and its staging directory up to `w`. Each case but the first two takes a change that the system
refused on that part of the way. -/
inductive Residue (plan : BuildPlan) (scratch : Scratch) (host : Path) (places : Places)
    (b f a t w : σ) (u : Trail) (k : Option Node) : Prop
  | freed (h : Gone (leftover plan scratch host places) u k)
  | unlinked (hu : places.alias? = some u)
      (h : Unlinks (touched plan scratch host places (disk b)) (plan.aliasPath host)
        ((disk b).contents (plan.aliasPath host)).toOption (disk b) u k)
  | draft (bytes : ByteArray) (n : ℕ) (hs : Struck b t)
      (hu : Draft plan scratch host places ((disk b).contents (plan.aliasPath host)).toOption u
        bytes)
      (hk : k = some (.file (bytes.extract 0 n)))
  | published (hs : Struck f a) (hu : places.alias? = some u)
      (hk : k = some (.file plan.aliases.text.toUTF8))
  | swapped (hs : Struck a t) (hu : u ∈ below places.tree ∪ below (places.holding scratch))
      (hk : k = (disk a).node? u ∨ k = none)
  | staged (hs : Struck t w) (hu : u ∈ below (places.staging scratch))
      (hk : k = (disk t).node? u ∨ k = none)

omit [FileStore (StateM σ)] [LawfulCarrier σ] in
theorem Residue.of_aliased (h : Residue plan scratch host places b f a a a u k)
    (hl : refusals t <:+ refusals a) (w : σ) : Residue plan scratch host places b f a t w u k := by
  cases h with
  | freed h => exact .freed h
  | unlinked hu h => exact .unlinked hu h
  | draft bytes n hs hu hk => exact .draft bytes n (hs.until hl) hu hk
  | published hs hu hk => exact .published hs hu hk
  | swapped hs => exact absurd hs (Nat.lt_irrefl _)
  | staged hs => exact absurd hs (Nat.lt_irrefl _)

omit [FileStore (StateM σ)] [LawfulCarrier σ] in
theorem Residue.of_treed (h : Residue plan scratch host places b f a t t u k) (w : σ) :
    Residue plan scratch host places b f a t w u k := by
  cases h with
  | freed h => exact .freed h
  | unlinked hu h => exact .unlinked hu h
  | draft bytes n hs hu hk => exact .draft bytes n hs hu hk
  | published hs hu hk => exact .published hs hu hk
  | swapped hs hu hk => exact .swapped hs hu hk
  | staged hs => exact absurd hs (Nat.lt_irrefl _)

/-- Undone, but for what stands at the staging place. -/
structure Settled (plan : BuildPlan) (scratch : Scratch) (host : Path) (places : Places)
    (b f a t : σ) : Prop where
  agree : Agree (touched plan scratch host places (disk b)) (disk b) (disk t)
  tree : (disk t).subtree places.tree = (disk b).subtree places.tree ∨
    Struck a t ∧
      (disk t).subtree (keptPlace scratch places.host) = (disk b).subtree places.tree
  node : ∀ u ∉ below (places.staging scratch), (disk t).node? u = (disk b).node? u ∨
    Residue plan scratch host places b f a t t u ((disk t).node? u)
  staged : (disk t).node? (places.staging scratch) = some .directory ∨
    ∀ u ∈ below (places.staging scratch), (disk t).node? u = none ∨
      Residue plan scratch host places b f a t t u ((disk t).node? u)

omit [FileStore (StateM σ)] [LawfulCarrier σ] in
/-- All but the tree and the holding directory is put back on the disk of `a`, and then these are:
that settles it. -/
theorem settled_of_taken (hc : Clear plan scratch host places (disk b)) (hp : Plain scratch)
    (hx : Agree (below (places.staging scratch) ∪ below (places.holding scratch)) (disk b)
      (disk x))
    (ht : TakenBack scratch places.host places.parent places.name (disk x) a t)
    (ha : Agree (touched plan scratch host places (disk b)) (disk b) (disk a))
    (hnode : ∀ u ∉ below places.tree ∪ below (places.holding scratch) ∪
      below (places.staging scratch), (disk a).node? u = (disk b).node? u ∨
        Residue plan scratch host places b f a a a u ((disk a).node? u))
    (hstaged : (disk a).node? (places.staging scratch) = some .directory ∨
      ∀ u ∈ below (places.staging scratch), (disk a).node? u = none ∨
        Residue plan scratch host places b f a a a u ((disk a).node? u)) :
    Settled plan scratch host places b f a t := by
  have hs := hc.site hp
  have hsame (u : Trail) (hu : u ∈ below (places.staging scratch)) :
      (disk t).node? u = (disk a).node? u := by
    obtain ⟨r, rfl⟩ := hu
    exact ht.agree.node _ (not_or.2 ⟨not_below_of_apart hs.apart_staging.symm,
      not_below_of_apart hs.apart_reserved.symm⟩)
  have hwhole : (disk x).subtree places.tree = (disk b).subtree places.tree :=
    hx.subtree fun r => not_or.2
      ⟨not_below_of_apart hs.apart_staging, not_below_of_apart hs.apart_holding⟩
  have htree := hwhole ▸ ht.tree
  refine ⟨ha.trans (ht.agree.mono ?_), ?_, fun u hu => ?_, ?_⟩
  · exact Set.union_subset below_tree_subset (below_holding_subset.trans leftover_subset)
  · exact htree.imp_right fun h => ⟨h.1, h.2.1⟩
  · by_cases hv : places.tree <+: u
    · rcases htree with hsub | ⟨hst, -, hthin⟩
      · obtain ⟨r, rfl⟩ := hv
        exact Or.inl (congrFun hsub r)
      · exact Or.inr (.swapped hst (Or.inl hv) (hthin u hv))
    by_cases hh : places.holding scratch <+: u
    · rcases ht.holding with hgone | hst
      · obtain ⟨r, rfl⟩ := hh
        exact Or.inr (.freed ⟨below_holding_subset (List.prefix_append _ r), congrFun hgone r⟩)
      · exact Or.inr (.swapped hst (Or.inr hh) (ht.thinned u hh))
    · rw [ht.agree.node u (not_or.2 ⟨hv, hh⟩)]
      exact (hnode u (not_or.2 ⟨not_or.2 ⟨hv, hh⟩, hu⟩)).imp_right fun hr => hr.of_aliased ht.later t
  · rw [hsame _ (List.prefix_refl _)]
    refine hstaged.imp_right fun hr u hu => ?_
    rw [hsame u hu]
    exact (hr u hu).imp_right fun hr => hr.of_aliased ht.later t

omit [FileStore (StateM σ)] [LawfulCarrier σ] in
/-- What failed while the previous tree was in its place is settled: no more than an old holding
directory is lost. -/
theorem settled_of_leaves (hc : Clear plan scratch host places (disk b)) (hp : Plain scratch)
    (hx : Agree (below (places.staging scratch)) (disk b) (disk x))
    (hdir : (disk x).node? (places.staging scratch) = some .directory)
    (hl : Leaves (Gone (below (places.holding scratch))) (disk x) (disk t)) :
    Settled plan scratch host places b t t t := by
  have hs := hc.site hp
  have hagree := hl.agree fun u k hk => hk.1
  refine ⟨(hx.mono hs.staging).trans (hagree.mono hs.holding), Or.inl ?_, fun u hu => ?_,
    Or.inl ?_⟩
  · exact (hagree.subtree fun r => not_below_of_apart hs.apart_holding).trans
      (hx.subtree fun r => not_below_of_apart hs.apart_staging)
  · rw [← hx.node u hu]
    exact (hl.node u).imp_right fun hg => .freed ⟨below_holding_subset hg.1, hg.2⟩
  · exact (hagree.node _ hs.apart_reserved.1).trans hdir

/-- What is lost on the way is not in the holding directory. -/
theorem Clear.not_held (hc : Clear plan scratch host places d) (hp : Plain scratch) :
    ∀ t ∈ below (places.holding scratch),
      t ∉ temps plan scratch host places ∧ places.alias? ≠ some t := by
  intro t ht
  have htemp (q : Trail) (p : Path) (hq : q ∉ touched plan scratch host places d)
      (hsub : below (tempPlace scratch p q) ⊆ temps plan scratch host places)
      (hne : places.tree ≠ tempPlace scratch p q) : ¬ tempPlace scratch p q <+: t := by
    obtain ⟨r, rfl⟩ := ht
    exact not_below_of_apart (hc.apart_temp hp hq (hsub.trans temps_subset) hne).2
  refine ⟨?_, ?_⟩
  · rintro (hm | ⟨q, name, hsome, hm⟩)
    · exact htemp _ _ hc.toHost.off below_manifestTemp_subset hc.apart.2.2 hm
    · rcases hc.aliases with ⟨q', name', hsome', ha⟩ | ⟨hnone, -⟩
      · cases hsome.symm.trans hsome'
        exact htemp _ _ ha.leads.off (below_aliasTemp_subset hsome) ha.temp hm
      · cases hsome.symm.trans hnone
  · intro he
    rcases hc.aliases with ⟨q, name, hsome, ha⟩ | ⟨hnone, -⟩
    · obtain rfl : q ++ [name] = t := by simpa [Places.alias?, hsome] using he
      by_cases hne : places.tree = q ++ [name]
      · rw [← hne] at ht
        exact (hc.site hp).apart_holding.2 ht
      · exact ha.not_swapped hne (Or.inl (Or.inr ht))
    · rw [Places.alias?, hnone] at he
      cases he

omit [FileStore (StateM σ)] [LawfulCarrier σ] in
/-- What is left in the places where the manifests are written first is a residue. -/
theorem Unfinished.residue {q : Trail} {name : String}
    (h : Unfinished plan scratch host places.host q v f u k)
    (ha : places.aliases? = some (q, name)) (hv : refusals v <:+ refusals b)
    (hf : refusals a <:+ refusals f) : Residue plan scratch host places b f a a a u k := by
  rcases h with (⟨hu, hk⟩ | ⟨hs, rfl, n, hk⟩) | (⟨hu, hk⟩ | ⟨hs, rfl, n, hk⟩)
  · exact .freed ⟨Or.inl (below_aliasTemp_subset ha hu), hk⟩
  · exact .draft _ n ((hs.since hv).until hf) (Or.inr ⟨⟨q, name, ha, rfl⟩, Or.inl rfl⟩) hk
  · exact .freed ⟨Or.inl (below_manifestTemp_subset hu), hk⟩
  · exact .draft _ n ((hs.since hv).until hf) (Or.inl ⟨rfl, rfl⟩) hk

omit [FileStore (StateM σ)] [LawfulCarrier σ] in
theorem Unfinished.temps {q : Trail} {name : String}
    (h : Unfinished plan scratch host places.host q v f u k)
    (ha : places.aliases? = some (q, name)) : u ∈ temps plan scratch host places := by
  rcases h with h | h
  · exact below_aliasTemp_subset ha h.below
  · exact below_manifestTemp_subset h.below

omit [FileStore (StateM σ)] [LawfulCarrier σ] in
/-- What remains of an alias manifest that is not in the tree is a residue, and it is not in the
holding directory. -/
theorem residue_of_remains {q : Trail} {name : String}
    (h : Remains (Unfinished plan scratch host places.host q v f)
      (touched plan scratch host places (disk b)) (plan.aliasPath host)
      (tempPlace scratch (plan.aliasPath host) q) (q ++ [name]) plan.aliases.text.toUTF8
      previous.aliases? (disk v) f a u k)
    (hc : Clear plan scratch host places (disk b)) (hp : Plain scratch)
    (hsome : places.aliases? = some (q, name))
    (hbeside : AliasesBeside plan scratch host places (disk b) q name)
    (hplaced : Placed scratch places (disk b) (disk v))
    (hread : previous.aliases? = ((disk b).contents (plan.aliasPath host)).toOption)
    (hl : refusals v <:+ refusals b) (hf : refusals f <:+ refusals v)
    (ha : refusals a <:+ refusals f) (hu : u ∉ below places.tree) :
    Residue plan scratch host places b f a a a u k ∧ u ∉ below (places.holding scratch) := by
  have hentry : places.alias? = some (q ++ [name]) := by rw [Places.alias?, hsome]; rfl
  have hout (hm : u ∈ temps plan scratch host places ∨ places.alias? = some u) :
      u ∉ below (places.holding scratch) := fun hh =>
    hm.elim (hc.not_held hp u hh).1 (hc.not_held hp u hh).2
  cases h with
  | other h => exact ⟨h.residue hsome hl ha, hout (Or.inl (h.temps hsome))⟩
  | draft old hb h =>
    refine ⟨?_, hout (Or.inl (below_aliasTemp_subset hsome h.below))⟩
    rcases h with ⟨hu, hk⟩ | ⟨hst, rfl, n, hk⟩
    · exact .freed ⟨Or.inl (below_aliasTemp_subset hsome hu), hk⟩
    · refine .draft old n (hst.since (hf.trans hl)) (Or.inr ⟨⟨q, name, hsome, rfl⟩, ?_⟩) hk
      exact Or.inr (hread ▸ hb)
  | stays hst hu _ hk =>
    subst hu
    exact ⟨.published hst hentry hk, hout (Or.inr hentry)⟩
  | unlinked hu' h =>
    subst hu'
    have hne : places.tree ≠ q ++ [name] := fun he => hu (he ▸ List.prefix_refl _)
    refine ⟨.unlinked hentry ⟨h.names.agree hplaced.agree_touched.symm, ?_, hread ▸ h.node⟩,
      hout (Or.inr hentry)⟩
    rw [← hplaced.agree.node _ (hbeside.not_swapped hne)]
    exact h.link

/-- Once the staged tree is in place, a publication that fails is reverted wherever the alias
manifest is, and the holding directory is not touched. -/
theorem reverted_of_clear {r : Except Fault Unit} {name : String} (hn : .notFound ∉ refusals v)
    (hl : refusals v <:+ refusals b) (hc : Clear plan scratch host places (disk b))
    (hp : Plain scratch) (hplaced : Placed scratch places (disk b) (disk v))
    (hreg : Region (disk v) places.tree (disk v))
    (hfits : (places.name ≠ "." ∧ places.name ≠ "..") ∧ isTooLong places.name = false)
    (hx : Agree (touched plan scratch host places (disk b)) (disk b) (disk x))
    (hs : Agree (below places.tree ∪ below (places.holding scratch) ∪
      below (places.staging scratch)) (disk x) (disk v))
    (halias : previous.aliases? = ((disk x).contents (plan.aliasPath host)).toOption)
    (hreads : ((disk x).contents (plan.aliasPath host)).toOption =
      ((disk b).contents (plan.aliasPath host)).toOption)
    (hname : (plan.aliasPath host).fileName? = some name)
    (hpub : on (plan.publish scratch host : Work σ BuildFault Unit) v = (.error e, f))
    (hr : on (restoringAliases scratch previous (plan.aliasPath host) : Work σ Fault Unit) f =
      (r, a)) :
    Reverted (touched plan scratch host places (disk b)) (fun u k =>
        Residue plan scratch host places b f a a a u k ∧ u ∉ below (places.holding scratch))
      places.tree (disk v) (disk a) := by
  have hleads := hc.toHost.agree hplaced.agree_touched
  have htemps : below (places.manifestTemp scratch host) ⊆ temps plan scratch host places :=
    below_manifestTemp_subset
  have hsub := htemps.trans (temps_subset (d := disk b))
  have hlink := hplaced.linkless hc hp hc.toHost.off hsub hc.apart.2.2 hc.linkless
  obtain ⟨hapart, -⟩ := hc.apart_temp hp hc.toHost.off hsub hc.apart.2.2
  have hf := ((wanes_publish plan scratch host).run trivial hpub).2.2
  have ha := ((wanes_restoringAliases scratch previous _).run trivial hr).2.2
  rcases hc.aliases with ⟨q, name, hsome, hbeside⟩ | ⟨hnone, hwithin⟩
  · have hb := hbeside.beside hc hp hsome hplaced
    have hm := halias ▸ hbeside.remembered hplaced hx hs
    obtain ⟨hleaves, hagree⟩ := restoringAliases_beside hn hb hp.tag hm hleads hsub hlink
      hbeside.apart.2.2 hpub hr
    have hv : places.tree ∉ below (tempPlace scratch (plan.aliasPath host) q) := fun hin =>
      (hc.apart_temp hp hbeside.leads.off hb.temp hbeside.temp).1.2 hin
    refine (reverted_of_leaves hleaves hagree hplaced.dir fun k hk => ?_).mono fun u hu k hk =>
      residue_of_remains hk hc hp hsome hbeside hplaced (halias.trans hreads) hl hf ha hu
    cases hk with
    | other h => exact absurd h (not_or.2 ⟨fun h => hv h.below, fun h => hapart.2 h.below⟩)
    | draft old _ h => exact absurd h.below hv
    | stays _ _ hd => exact hd
    | unlinked _ h =>
      obtain ⟨target, ht⟩ := h.link
      simp [ht]
  · obtain ⟨rest, henters⟩ := hwithin.enters hc hplaced hfits
    obtain ⟨way, hway⟩ := Path.standing_of_fileName? hname
    refine (restoringAliases_within hn henters below_tree_subset hway hreg hp.tag hleads hsub hlink
      hapart hpub hr).mono fun u _ k hk => ?_
    refine ⟨?_, fun hh => (hc.not_held hp u hh).1 (htemps hk.below)⟩
    rcases hk with ⟨hu, hk⟩ | ⟨hst, rfl, n, hk⟩
    · exact .freed ⟨Or.inl (htemps hu), hk⟩
    · exact .draft _ n ((hst.since hl).until ha) (Or.inl ⟨rfl, rfl⟩) hk

/-- After the swap, a publication that fails is settled by what restores. -/
theorem settled_of_publish {name : String} {r : Except Fault Unit} {r' : Except BuildFault Unit}
    (hn : .notFound ∉ refusals v) (hl : refusals v <:+ refusals b)
    (hc : Clear plan scratch host places (disk b)) (hp : Plain scratch)
    (hname : (plan.aliasPath host).fileName? = some name)
    (hx : Agree (below (places.staging scratch) ∪ below (places.holding scratch)) (disk b)
      (disk x))
    (hreg : Region (disk x) (places.staging scratch) (disk x))
    (hdir : (disk x).node? (places.staging scratch) = some .directory)
    (hsw : Swapped scratch host (plan.vendoredPath host) (touched plan scratch host places (disk b))
      places.host places.parent places.name (disk x) (disk v) previous)
    (halias : previous.aliases? = ((disk x).contents (plan.aliasPath host)).toOption)
    (hpub : on (plan.publish scratch host : Work σ BuildFault Unit) v = (.error e, f))
    (halias' : on (restoringAliases scratch previous (plan.aliasPath host) : Work σ Fault Unit) f =
      (r, a))
    (hr : on (restoringTree previous (plan.vendoredPath host) : Work σ BuildFault Unit) a =
      (r', t)) : Settled plan scratch host places b f a t := by
  have hb : Agree (touched plan scratch host places (disk b)) (disk b) (disk x) := hx.mono
    (Set.union_subset below_staging_subset (below_holding_subset.trans leftover_subset))
  have hs := (hc.site hp).agree hb
  have htree : (disk v).subtree places.tree = (disk x).subtree (places.staging scratch) := hsw.tree
  have hplaced : Placed scratch places (disk b) (disk v) := by
    refine ⟨(hx.mono ?_).trans hsw.agree, ?_, hsw.staging⟩
    · exact Set.union_subset Set.subset_union_right
        (Set.subset_union_right.trans Set.subset_union_left)
    · rw [← subtree_nil, htree, subtree_nil, hdir]
  have hfits : (places.name ≠ "." ∧ places.name ≠ "..") ∧ isTooLong places.name = false := by
    obtain ⟨s, hstands, htrail, hlong⟩ := hsw.slot
    have he : s.name = places.name := List.head_eq_of_cons_eq (List.append_inj_right' htrail rfl)
    exact he ▸ ⟨hstands.plain, hlong⟩
  have hreads := hc.reads _ (hx.mono (Set.union_subset_union_right _ below_holding_subset))
  have hrev := reverted_of_clear hn hl hc hp hplaced (hreg.rebase (congrFun htree)) hfits hb
    hsw.agree halias hreads hname hpub halias'
  have hlater := ((wanes_restoringAliases scratch previous _).run trivial halias').2.2.trans
    ((wanes_publish plan scratch host).run trivial hpub).2.2
  have hagree : Agree (touched plan scratch host places (disk b)) (disk b) (disk a) :=
    hplaced.agree_touched.trans hrev.agree
  have hsame : ∀ u ∈ below (places.holding scratch), (disk a).node? u = (disk v).node? u := by
    rintro u ⟨r, rfl⟩
    refine (hrev.node _ (not_below_of_apart hs.apart_holding.symm)).resolve_right fun hres => ?_
    exact hres.2 (List.prefix_append _ r)
  have hkept : Kept scratch host (plan.vendoredPath host)
      (touched plan scratch host places (disk b)) places.host places.parent places.name (disk x)
      (disk a) previous := by
    refine ⟨hsw.kept.holding, ?_, hsw.kept.tree⟩
    rw [← hsw.kept.whole]
    exact funext fun r => hsame _ (kept_below_holding scratch _ (List.prefix_append _ _))
  have hholding : Holding scratch host places.host (disk a) :=
    ⟨hsw.holding.fits, hsw.holding.check, (hsame _ (List.prefix_refl _)).trans hsw.holding.dir⟩
  obtain ⟨s, hstands, hslot⟩ := hsw.slot
  obtain ⟨-, htaken⟩ := takenBack_of_restoring (fun he => hn (hlater.subset he)) hs
    (hb.symm.trans hagree) hkept hholding ⟨s, hstands.agree hrev.agree, hslot⟩ hrev.dir hr
  refine settled_of_taken hc hp hx htaken hagree (fun u hu => ?_) (Or.inr fun u hu => ?_)
  · rw [← hplaced.agree.node u hu]
    exact (hrev.node u fun hv => hu (Or.inl (Or.inl hv))).imp_right And.left
  · obtain ⟨r, rfl⟩ := hu
    rw [← show (disk v).node? (places.staging scratch ++ r) = none from congrFun hsw.staging r]
    exact (hrev.node _ (not_below_of_apart hs.apart_staging.symm)).imp_right And.left

/-- The staging directory is new and empty. -/
structure Staged (scratch : Scratch) (host : Path) (h : Trail) (d d' : Disk) : Prop where
  free : d.node? (h ++ [stagingName scratch]) = none
  sets : Sets d d' (h ++ [stagingName scratch]) (Tree.directory []).node?
  fits : isTooLong (stagingName scratch) = false
  check : Disk.check (stagingPath scratch host) = .ok ()
  inside : Inside d' (h ++ [stagingName scratch]) (stagingPath scratch host) []

theorem staged_of_makeDirectory {d₁ : Disk} (hs : Site scratch host vendored S h pv vname d)
    (hm : d.makeDirectory (stagingPath scratch host) = .ok d₁) : Staged scratch host h d d₁ := by
  obtain ⟨s, hslot⟩ := makeDirectory_slot hm
  have hc := (stands_of_slot? hslot).proper
  have hstands := hs.stands_staging hc
  rw [hstands.slot?] at hslot
  cases hslot
  obtain ⟨hfree, hfits, hset⟩ := add_sets hstands.slot? hm
  have hdir : d₁.node? (h ++ [stagingName scratch]) = some .directory := by
    have hsub : d₁.subtree (h ++ [stagingName scratch]) = (Tree.directory []).node? := hset.subtree
    rw [← subtree_nil, hsub]
    rfl
  have hn := hs.plain.staging
  obtain ⟨links, hway⟩ :=
    ((hs.agree (hset.agree.mono hs.staging)).host.enter hn hfits hdir).way
  refine ⟨hfree, hset, hfits, hc, ⟨⟨_, links, (List.append_nil _).symm, ?_⟩, hdir, by simp⟩⟩
  exact hway.mono fun t ht => ⟨hs.staging ht.1, ht.2⟩

/-- Whatever becomes of the packages, only the staging directory is changed. -/
theorem filled_of_stageAll {r : Except BuildFault (List PackageReport)} (hp : Plain scratch)
    (hs : Staged scratch host h d (disk w)) (hd : (disk w).Proper)
    (hv : ∀ p ∈ plan.packages, Identity.isValid p.identity = true)
    (hr : on (plan.stageAll scratch (stagingPath scratch host) plan.packages :
      Work σ BuildFault (List PackageReport)) w = (r, w')) :
    Region (disk w) (h ++ [stagingName scratch]) (disk w') ∧
      Agree (below (h ++ [stagingName scratch])) d (disk w') ∧
      (disk w').node? (h ++ [stagingName scratch]) = some .directory ∧
      refusals w' <:+ refusals w := by
  have hkeeps : Keeps (Region (disk w) (h ++ [stagingName scratch])) Any
      (plan.stageAll scratch (stagingPath scratch host) plan.packages :
        Work σ BuildFault (List PackageReport)) := plan.keeps_stageAll hd hp.tag hs.inside hv
  obtain ⟨hreg, -, hlater⟩ := hkeeps.run (region_of_empty (congrFun hs.sets.subtree)) hr
  exact ⟨hreg, hs.sets.agree.trans (hreg.agree.mono (inside_subset_below _)),
    hreg.dir hs.inside.dir, hlater⟩

theorem wanes_hold (scratch : Scratch) (host aliasPath : Path) :
    Wanes (hold scratch host aliasPath : Work σ BuildFault Previous) := by
  refine keeps_bind (keeps_adapt (keeps_bind (wanes_removeTreeIfThere _) fun _ _ =>
    keeps_makeDirectory_of fun _ _ _ _ => trivial)) fun _ _ => ?_
  exact keeps_bind (keeps_attempt (keeps_contents _)) fun _ _ => keeps_pure trivial

/-- Fills the staging directory and makes the holding directory. -/
def readying (plan : BuildPlan) (scratch : Scratch) (host : Path) : Work σ BuildFault Previous := do
  let _ ← plan.stageAll scratch (stagingPath scratch host) plan.packages
  hold scratch host (plan.aliasPath host)

/-- The work in the staging directory fails, at `f`. What is done then takes back the alias manifest
up to `a` and the tree up to `t`. -/
inductive StagedFails (plan : BuildPlan) (scratch : Scratch) (host : Path) (x : σ) :
    (f a t : σ) → Prop
  | unready {f : σ} {e : BuildFault}
      (hr : on (readying plan scratch host : Work σ BuildFault Previous) x = (.error e, f)) :
      StagedFails plan scratch host x f f f
  | unswapped {y f t : σ} {previous : Previous}
      (hr : on (readying plan scratch host : Work σ BuildFault Previous) x = (.ok previous, y))
      (hs : SwapFails scratch host (plan.vendoredPath host) previous y f t) :
      StagedFails plan scratch host x f f t
  | unpublished {y v f a t : σ} {previous kept : Previous} {e : BuildFault} {r : Except Fault Unit}
      (hr : on (readying plan scratch host : Work σ BuildFault Previous) x = (.ok previous, y))
      (hs : on (swapIn (stagingPath scratch host) (plan.vendoredPath host) previous :
        Work σ BuildFault Previous) y = (.ok kept, v))
      (hp : on (plan.publish scratch host : Work σ BuildFault Unit) v = (.error e, f))
      (ha : on (restoringAliases scratch kept (plan.aliasPath host) : Work σ Fault Unit) f =
        (r, a))
      (ht : on (restoringTree kept (plan.vendoredPath host) : Work σ BuildFault Unit) a =
        (.ok (), t)) :
      StagedFails plan scratch host x f a t

theorem StagedFails.later (h : StagedFails plan scratch host x f a t) :
    refusals a <:+ refusals f ∧ refusals t <:+ refusals a := by
  cases h with
  | unready hr => exact ⟨List.suffix_refl _, List.suffix_refl _⟩
  | unswapped hr hs => exact ⟨List.suffix_refl _, hs.later⟩
  | unpublished hr hs hp ha ht =>
    exact ⟨((wanes_restoringAliases _ _ _).run trivial ha).2.2,
      ((wanes_restoringTree _ _).run trivial ht).2.2⟩

omit [Carrier σ] [LawfulCarrier σ] in
theorem readying_previous (h : on (readying plan scratch host : Work σ BuildFault Previous) x =
    (.ok previous, y)) : previous.holding = holdingPath scratch host := by
  obtain ⟨_, _, -, h⟩ := on_bind_eq_ok.1 h
  obtain ⟨_, _, -, h⟩ := on_bind_eq_ok.1 h
  obtain ⟨_, _, -, h⟩ := on_bind_eq_ok.1 h
  cases h
  rfl

omit [Carrier σ] [LawfulCarrier σ] in
theorem stagedFails_of_applyStaged
    (hrun : on (plan.applyStaged scratch host (stagingPath scratch host) :
      Work σ BuildFault (List PackageReport)) x = (.error e, t)) :
    ∃ f a, StagedFails plan scratch host x f a t := by
  rcases on_bind_eq_error.1 hrun with hstage | ⟨reports, x₁, hstage, hrun⟩
  · exact ⟨t, t, .unready (on_bind_error hstage)⟩
  rcases on_bind_eq_error.1 hrun with hhold | ⟨previous, y, hhold, hrun⟩
  · exact ⟨t, t, .unready ((on_bind_ok hstage).trans hhold)⟩
  have hready : on (readying plan scratch host : Work σ BuildFault Previous) x =
      (.ok previous, y) := (on_bind_ok hstage).trans hhold
  rcases on_bind_eq_error.1 hrun with hswap | ⟨kept, v, hswap, hrun⟩
  · rcases swapIn_runs (readying_previous hready) hswap with ⟨_, f, -, hfails⟩ | ⟨_, _, he, -⟩
    · exact ⟨f, f, .unswapped hready hfails⟩
    · cases he
  obtain ⟨published, f, hpub, hrun⟩ := on_bind_attempt_eq.1 hrun
  cases published with
  | ok u =>
    rw [on_bind_ok (discard_run kept f)] at hrun
    cases hrun
  | error e' =>
    obtain ⟨t', hrestore⟩ := restoringTree_run kept (plan.vendoredPath host)
      (on (restoringAliases scratch kept (plan.aliasPath host) : Work σ Fault Unit) f).2
    have hboth : on (restore scratch kept (plan.vendoredPath host) (plan.aliasPath host) :
        Work σ BuildFault Unit) f = (.ok (), t') := by
      rw [restore_eq, on_bind_attempt_eq]
      exact ⟨_, _, rfl, hrestore⟩
    rw [on_bind_ok hboth] at hrun
    cases hrun
    exact ⟨f, _, .unpublished hready hswap hpub rfl hrestore⟩

/-- Only the reserved directories are changed until the swap, and both are there then. -/
structure Ready (plan : BuildPlan) (scratch : Scratch) (host : Path) (places : Places) (b y : σ)
    (previous : Previous) : Prop where
  later : refusals y <:+ refusals b
  agree : Agree (below (places.staging scratch) ∪ below (places.holding scratch)) (disk b) (disk y)
  region : Region (disk y) (places.staging scratch) (disk y)
  staging : (disk y).node? (places.staging scratch) = some .directory
  holding : Holding scratch host places.host (disk y)
  empty : (disk y).subtree (keptPlace scratch places.host) = nothing
  previous : previous =
    ⟨holdingPath scratch host, none, ((disk y).contents (plan.aliasPath host)).toOption⟩

/-- Before the swap nothing but the staging directory is to be settled. -/
theorem readying_cases {r : Except BuildFault Previous} (hn : .notFound ∉ refusals b)
    (hc : Clear plan scratch host places (disk b)) (hp : Plain scratch) (hd : (disk x).Proper)
    (hl : refusals x <:+ refusals b)
    (hv : ∀ p ∈ plan.packages, Identity.isValid p.identity = true)
    (hm : (disk b).makeDirectory (stagingPath scratch host) = .ok (disk x))
    (hr : on (readying plan scratch host : Work σ BuildFault Previous) x = (r, y)) :
    (∃ e, r = .error e) ∧ Settled plan scratch host places b y y y ∨
      ∃ previous, r = .ok previous ∧ Ready plan scratch host places b y previous := by
  have hs := hc.site hp
  have hstaged := staged_of_makeDirectory hs hm
  cases hstage : on (plan.stageAll scratch (stagingPath scratch host) plan.packages :
      Work σ BuildFault (List PackageReport)) x with
  | mk staged x₁ =>
  obtain ⟨hreg, ha, hdir, hlater⟩ := filled_of_stageAll hp hstaged hd hv hstage
  have hl₁ := hlater.trans hl
  cases staged with
  | error e =>
    rw [readying, on_bind_error hstage] at hr
    cases hr
    exact Or.inl ⟨⟨e, rfl⟩, settled_of_leaves hc hp ha hdir (.refl _ _)⟩
  | ok reports =>
    rw [readying, on_bind_ok hstage] at hr
    rcases hold_cases (fun he => hn (hl₁.subset he)) (hs.agree (ha.mono hs.staging)) hr with
      ⟨e, rfl, hleaves⟩ | ⟨previous, rfl, hheld⟩
    · exact Or.inl ⟨⟨e, rfl⟩, settled_of_leaves hc hp ha hdir hleaves⟩
    · have hsame (r : Trail) : (disk y).node? (places.staging scratch ++ r) =
          (disk x₁).node? (places.staging scratch ++ r) :=
        hheld.sets.agree.node _ (not_below_of_apart hs.apart_reserved.symm)
      refine Or.inr ⟨previous, rfl, ((wanes_hold scratch host _).run trivial hr).2.2.trans hl₁,
        ha.trans_union hheld.sets.agree, hreg.rebase hsame, ?_, hheld.holding, hheld.empty,
        hheld.previous⟩
      have htop := hsame []
      rw [List.append_nil] at htop
      exact htop.trans hdir

/-- Whatever fails once the staging directory is made, all but that directory is settled. -/
theorem StagedFails.settled {name : String} (hf : StagedFails plan scratch host x f a t)
    (hn : .notFound ∉ refusals b) (hc : Clear plan scratch host places (disk b)) (hp : Plain scratch)
    (hname : (plan.aliasPath host).fileName? = some name) (hd : (disk x).Proper)
    (hl : refusals x <:+ refusals b)
    (hv : ∀ p ∈ plan.packages, Identity.isValid p.identity = true)
    (hm : (disk b).makeDirectory (stagingPath scratch host) = .ok (disk x)) :
    Settled plan scratch host places b f a t := by
  have hready {y : σ} {previous : Previous}
      (hr : on (readying plan scratch host : Work σ BuildFault Previous) x = (.ok previous, y)) :
      Ready plan scratch host places b y previous := by
    rcases readying_cases hn hc hp hd hl hv hm hr with ⟨⟨_, he⟩, -⟩ | ⟨_, he, hready⟩
    · cases he
    · cases he
      exact hready
  have hheld : below (places.holding scratch) ⊆ touched plan scratch host places (disk b) :=
    below_holding_subset.trans leftover_subset
  have hboth := Set.union_subset below_staging_subset hheld
  cases hf with
  | unready hr =>
    rcases readying_cases hn hc hp hd hl hv hm hr with ⟨-, hsettled⟩ | ⟨_, he, -⟩
    · exact hsettled
    · cases he
  | @unswapped y _ _ previous hr hswap =>
    have hy := hready hr
    have hs := (hc.site hp).agree (hy.agree.mono hboth)
    obtain ⟨-, hagree, htaken⟩ := hswap.takenBack (fun he => hn (hy.later.subset he)) hs hy.holding
      (congrArg Previous.holding hy.previous) (congrArg Previous.tree? hy.previous)
    refine settled_of_taken hc hp hy.agree htaken ?_ (fun u hu => Or.inl ?_) (Or.inl ?_)
    · exact (hy.agree.mono hboth).trans (hagree.mono (Set.union_subset below_tree_subset hheld))
    · obtain ⟨htree, hstaging⟩ := not_or.1 hu
      rw [hagree.node u htree]
      exact hy.agree.node u (not_or.2 ⟨hstaging, fun hh => htree (Or.inr hh)⟩)
    · exact (hagree.node _ (not_or.2 ⟨hs.apart_staging.1, hs.apart_reserved.1⟩)).trans hy.staging
  | @unpublished y v _ _ _ previous kept _ _ hr hswap hpub ha ht =>
    have hy := hready hr
    have hs := (hc.site hp).agree (hy.agree.mono hboth)
    have hholding := congrArg Previous.holding hy.previous
    obtain ⟨_, _, he, -⟩ | ⟨_, z, ⟨⟩, haside, hplace⟩ := swapIn_runs hholding hswap
    · cases he
    obtain ⟨hlater, halias, haside⟩ := setAside_ok_of_site (fun he => hn (hy.later.subset he)) hs
      hy.holding hholding (congrArg Previous.tree? hy.previous) haside
    obtain ⟨hlater', ⟨-, hmove⟩ | ⟨_, he, -⟩⟩ := rename_run hplace
    swap
    · cases he
    have hlast := (hlater'.trans hlater).trans hy.later
    have hsw := swapped_of_setAside haside hs hy.holding hy.empty hmove
    rw [hy.previous] at halias
    exact settled_of_publish (fun he => hn (hlast.subset he)) hlast hc hp hname hy.agree hy.region
      hy.staging hsw halias hpub ha ht

end Vendoring.BuildPlan
