import Vendoring.Proofs.Build.Places
import Vendoring.Proofs.Build.Rollback
import Vendoring.Proofs.Files.Gaining
import Vendoring.Proofs.Files.Refusals

/-! A build that fails leaves the disk as it was, but for what it keeps for itself and for what the
system refuses to take back. -/
namespace Vendoring.BuildPlan
open Files Files.Disk Files.Carrier

variable {σ : Type} [FileStore (StateM σ)] [Carrier σ] [LawfulCarrier σ] {b f a t w w' : σ}
  {plan : BuildPlan} {scratch : Scratch} {host vendored aliasPath : Path} {places : Places}
  {S : Set Trail} {h pv : Trail} {vname : String} {d d' : Disk} {e : BuildFault}

/-- A build that failed at `f`, put back the alias manifest up to `a`, the tree up to `t` and removed
its staging directory up to `w`. The vendored tree is as on the disk of `b`, or it is whole in the
holding directory since some change was refused while it was put back. Both manifests read as
before, unless a change was refused while they were put back or what they stand in was. -/
structure Undone (plan : BuildPlan) (scratch : Scratch) (host : Path) (places : Places)
    (b f a t w : σ) : Prop where
  here : (disk w).here = (disk b).here
  tree : (disk w).subtree places.tree = (disk b).subtree places.tree ∨
    Struck a t ∧
      (disk w).subtree (keptPlace scratch places.host) = (disk b).subtree places.tree
  aliases : ((disk w).contents (plan.aliasPath host)).toOption =
    ((disk b).contents (plan.aliasPath host)).toOption ∨ Struck f t
  manifest : (∀ target, (disk b).node? places.manifest ≠ some (.link target)) →
    ((disk w).contents (manifestPath host)).toOption =
        ((disk b).contents (manifestPath host)).toOption ∨
      Struck f t ∧ (places.alias? = some places.manifest ∨ places.tree = places.manifest)
  node : ∀ u, (disk w).node? u = (disk b).node? u ∨
    Residue plan scratch host places b f a t w u ((disk w).node? u)

omit [FileStore (StateM σ)] [LawfulCarrier σ] in
theorem undone_of_same (plan : BuildPlan) (scratch : Scratch) (host : Path) (places : Places)
    (f a t : σ) (h : disk w = disk b) : Undone plan scratch host places b f a t w :=
  ⟨by rw [h], Or.inl (by rw [h]), Or.inl (by rw [h]), fun _ => Or.inl (by rw [h]),
    fun u => Or.inl (by rw [h])⟩

/-- The names that a build keeps for itself start with a dot. -/
theorem manifest_not_leftover (hc : Clear plan scratch host places d) :
    places.manifest ∉ leftover plan scratch host places := by
  have hdot (q : Trail) (name : String)
      (hsub : below (q ++ [name]) ⊆ leftover plan scratch host places)
      (hname : name.toList.head? = some '.') : ¬ q ++ [name] <+: places.manifest := by
    intro hp
    rcases List.prefix_concat_iff.1 hp with he | hp
    · exact ne_of_dot hname (by decide) (List.head_eq_of_cons_eq (List.append_inj_right' he rfl))
    · exact hc.toHost.off (leftover_subset (hsub hp))
  rintro ((hm | ⟨q, name, hsome, hm⟩) | hm)
  · exact hdot _ _ (fun _ ht => Or.inl (below_manifestTemp_subset ht)) (scratch.head?_tempName _) hm
  · exact hdot _ _ (fun _ ht => Or.inl (below_aliasTemp_subset hsome ht)) (scratch.head?_tempName _)
      hm
  · exact hdot _ _ below_holding_subset (head?_holdingName scratch) hm

/-- The manifest of the host is touched only where another place of the build is. -/
theorem manifest_not_swapped (hc : Clear plan scratch host places d)
    (hne : places.tree ≠ places.manifest) :
    places.manifest ∉ below places.tree ∪ below (places.holding scratch) := by
  rintro (hp | hp)
  · rcases List.prefix_concat_iff.1 hp with he | hp
    · exact hne he
    · exact hc.toHost.off (below_tree_subset hp)
  · exact manifest_not_leftover hc (below_holding_subset hp)

theorem manifest_not_staged (hc : Clear plan scratch host places d) :
    places.manifest ∉ below (places.staging scratch) := by
  intro hp
  rcases List.prefix_concat_iff.1 hp with he | hp
  · exact ne_of_dot (head?_stagingName scratch) (by decide)
      (List.head_eq_of_cons_eq (List.append_inj_right' he rfl))
  · exact hc.toHost.off (below_staging_subset hp)

/-- What is written first stands in places that a build keeps for itself. -/
theorem Draft.leftover {old? : Option ByteArray} {u : Trail} {bytes : ByteArray}
    (h : Draft plan scratch host places old? u bytes) : u ∈ leftover plan scratch host places := by
  rcases h with ⟨rfl, -⟩ | ⟨⟨q, name, hsome, rfl⟩, -⟩
  · exact Or.inl (below_manifestTemp_subset (List.prefix_refl _))
  · exact Or.inl (below_aliasTemp_subset hsome (List.prefix_refl _))

omit [FileStore (StateM σ)] [LawfulCarrier σ] in
/-- Each place holds what it held once the staging directory is removed, or a residue. -/
theorem Settled.residue (h : Settled plan scratch host places b f a t)
    (hfree : (disk b).node? (places.staging scratch) = none)
    (hl : Leaves (Gone (below (places.staging scratch))) (disk t) (disk w))
    (hgone : (disk t).node? (places.staging scratch) = some .directory →
      (disk w).subtree (places.staging scratch) = nothing ∨ Struck t w) (u : Trail) :
    (disk w).node? u = (disk b).node? u ∨
      Residue plan scratch host places b f a t w u ((disk w).node? u) := by
  by_cases hu : places.staging scratch <+: u
  · have hnone : (disk b).node? u = none := by
      obtain ⟨r, rfl⟩ := hu
      exact node?_append_of_none hfree r
    rw [hnone]
    rcases h.staged with hdir | hleft
    · rcases hgone hdir with hempty | hst
      · obtain ⟨r, rfl⟩ := hu
        exact Or.inl (congrFun hempty r)
      · exact Or.inr (.staged hst hu ((hl.node u).imp_right And.right))
    · rcases hl.node u with he | ⟨-, he⟩
      · rw [he]
        exact (hleft u hu).imp_right fun hr => hr.of_treed w
      · exact Or.inl he
  · rw [(hl.agree fun u k hk => hk.1).node u hu]
    exact (h.node u hu).imp_right fun hr => hr.of_treed w

omit [FileStore (StateM σ)] [LawfulCarrier σ] in
/-- No residue is seen at the path of the alias manifest, but for what a refusal leaves while that or
the tree is put back. -/
theorem aliases_of_residue (hc : Clear plan scratch host places (disk b))
    (ha : refusals a <:+ refusals f) (ht : refusals t <:+ refusals a)
    (hagree : Agree (touched plan scratch host places (disk b)) (disk b) (disk w))
    (hnode : ∀ u, (disk w).node? u = (disk b).node? u ∨
      Residue plan scratch host places b f a t w u ((disk w).node? u)) :
    ((disk w).contents (plan.aliasPath host)).toOption =
      ((disk b).contents (plan.aliasPath host)).toOption ∨ Struck f t := by
  by_cases hst : Struck f t
  · exact Or.inr hst
  refine Or.inl ?_
  by_cases hu : ∃ u, Unlinks (touched plan scratch host places (disk b)) (plan.aliasPath host)
      ((disk b).contents (plan.aliasPath host)).toOption (disk b) u ((disk w).node? u)
  · obtain ⟨u, hu⟩ := hu
    exact (hu.names.agree hagree).contents hu.node
  · refine hc.reads (disk w) ⟨hagree.here, fun u hout => ?_⟩
    refine (hnode u).resolve_right fun hres => ?_
    cases hres with
    | freed hg => exact hout (Or.inr hg.1)
    | unlinked _ hun => exact hu ⟨u, hun⟩
    | draft _ _ _ hd => exact hout (Or.inr hd.leftover)
    | published hfa => exact hst (hfa.until ht)
    | swapped hat => exact hst (hat.since ha)
    | staged _ hin => exact hout (Or.inl hin)

omit [FileStore (StateM σ)] [LawfulCarrier σ] in
/-- No residue takes the place of the manifest of the host, unless that is another place of the build
where a refusal leaves one. -/
theorem manifest_of_residue (hc : Clear plan scratch host places (disk b))
    (ha : refusals a <:+ refusals f) (ht : refusals t <:+ refusals a)
    (hlink : ∀ target, (disk b).node? places.manifest ≠ some (.link target))
    (hnode : (disk w).node? places.manifest = (disk b).node? places.manifest ∨
      Residue plan scratch host places b f a t w places.manifest
        ((disk w).node? places.manifest)) :
    (disk w).node? places.manifest = (disk b).node? places.manifest ∨
      Struck f t ∧ (places.alias? = some places.manifest ∨ places.tree = places.manifest) := by
  refine hnode.elim Or.inl fun hres => ?_
  cases hres with
  | freed hg => exact absurd hg.1 (manifest_not_leftover hc)
  | unlinked _ hun =>
    obtain ⟨target, hl⟩ := hun.link
    exact absurd hl (hlink target)
  | draft _ _ _ hd => exact absurd hd.leftover (manifest_not_leftover hc)
  | published hfa hu => exact Or.inr ⟨hfa.until ht, Or.inl hu⟩
  | swapped hat hu =>
    by_cases hne : places.tree = places.manifest
    · exact Or.inr ⟨hat.since ha, Or.inr hne⟩
    · exact absurd hu (manifest_not_swapped hc hne)
  | staged _ hin => exact absurd hin (manifest_not_staged hc)

omit [FileStore (StateM σ)] [LawfulCarrier σ] in
/-- What is settled is undone once the staging directory is removed. -/
theorem Settled.undone (h : Settled plan scratch host places b f a t)
    (hc : Clear plan scratch host places (disk b)) (hp : Plain scratch)
    (hfree : (disk b).node? (places.staging scratch) = none)
    (ha : refusals a <:+ refusals f) (ht : refusals t <:+ refusals a)
    (hl : Leaves (Gone (below (places.staging scratch))) (disk t) (disk w))
    (hgone : (disk t).node? (places.staging scratch) = some .directory →
      (disk w).subtree (places.staging scratch) = nothing ∨ Struck t w) :
    Undone plan scratch host places b f a t w := by
  have hs := hc.site hp
  have hlast : Agree (below (places.staging scratch)) (disk t) (disk w) :=
    hl.agree fun u k hk => hk.1
  have hagree : Agree (touched plan scratch host places (disk b)) (disk b) (disk w) :=
    h.agree.trans (hlast.mono below_staging_subset)
  have hnode := h.residue hfree hl hgone
  refine ⟨hagree.here, ?_, aliases_of_residue hc ha ht hagree hnode, fun hlink => ?_, hnode⟩
  · have hkept : (disk w).subtree (keptPlace scratch places.host) =
        (disk t).subtree (keptPlace scratch places.host) := by
      refine hlast.subtree fun r => ?_
      rw [keptPlace, List.append_assoc]
      exact not_below_of_apart hs.apart_reserved
    have htree : (disk w).subtree places.tree = (disk t).subtree places.tree :=
      hlast.subtree fun r => not_below_of_apart hs.apart_staging
    rw [hkept, htree]
    exact h.tree
  · refine (manifest_of_residue hc ha ht hlink (hnode _)).imp_left fun hsame => ?_
    exact hc.toHost.contents_child PackageManifest.proper_fileName (by decide) hagree hsame hlink

/-- What is left at the staging place is taken away in the end, unless that is refused. -/
theorem removeTree_staging {r : Except Fault Unit}
    (hs : Site scratch host vendored S h pv vname (disk w))
    (hc : Disk.check (stagingPath scratch host) = .ok ())
    (hfits : isTooLong (stagingName scratch) = false)
    (hr : on (FileStore.removeTree (stagingPath scratch host) : Work σ Fault Unit) w = (r, w')) :
    Leaves (Gone (below (h ++ [stagingName scratch]))) (disk w) (disk w') ∧
      ((disk w).node? (h ++ [stagingName scratch]) = some .directory →
        (disk w').subtree (h ++ [stagingName scratch]) = nothing ∨ Struck w w') := by
  rcases removeTree_cases (hs.stands_staging hc) hs.staging (Or.inl rfl) hr with
    ⟨e, -, hleaves, hstruck, -⟩ | ⟨-, hset⟩
  · exact ⟨hleaves, fun hdir => Or.inr (hstruck hfits hdir)⟩
  · exact ⟨leaves_of_gone hset.agree hset.subtree fun u hu => ⟨hu, rfl⟩,
      fun _ => Or.inl hset.subtree⟩

/-- A build fails once the parents are there, on the disk of `b`: it makes no staging directory, or
what it works there fails at `f`. What is done then takes back the alias manifest up to `a` and the
tree up to `t`, and removes the staging directory up to `w`. -/
inductive Fails (plan : BuildPlan) (scratch : Scratch) (host : Path) (b : σ) :
    (f a t w : σ) → Prop
  | unmade {f : σ} {e : Fault}
      (hm : on (FileStore.makeDirectory (stagingPath scratch host) : Work σ Fault Unit) b =
        (.error e, f)) :
      Fails plan scratch host b f f f f
  | staged {x f a t w : σ} {r : Except Fault Unit}
      (hm : on (FileStore.makeDirectory (stagingPath scratch host) : Work σ Fault Unit) b =
        (.ok (), x))
      (hs : StagedFails plan scratch host x f a t)
      (hr : on (FileStore.removeTree (stagingPath scratch host) : Work σ Fault Unit) t = (r, w)) :
      Fails plan scratch host b f a t w

omit [Carrier σ] [LawfulCarrier σ] in
theorem fails_of_withStaging
    (hrun : on (withStaging scratch host (plan.applyStaged scratch host) :
      Work σ BuildFault (List PackageReport)) b = (.error e, w)) :
    ∃ f a t, Fails plan scratch host b f a t w := by
  rcases withStaging_cases hrun with ⟨_, _, -, hm⟩ | ⟨x, t, hm, hwork, hlast⟩
  · exact ⟨w, w, w, .unmade hm⟩
  · obtain ⟨f, a, hf⟩ := stagedFails_of_applyStaged hwork
    exact ⟨f, a, t, .staged hm hf (Prod.ext rfl hlast.symm)⟩

/-- However a build fails once the parents are there, it takes back what it did. -/
theorem Fails.undone {name : String} (hf : Fails plan scratch host b f a t w)
    (hn : .notFound ∉ refusals b) (hc : Clear plan scratch host places (disk b)) (hp : Plain scratch)
    (hname : (plan.aliasPath host).fileName? = some name) (hd : (disk b).Proper)
    (hv : ∀ p ∈ plan.packages, Identity.isValid p.identity = true) :
    Undone plan scratch host places b f a t w := by
  cases hf with
  | unmade hm =>
    obtain ⟨-, ⟨he, -⟩ | ⟨_, -, hsame, -⟩⟩ := makeDirectory_run hm
    · cases he
    exact undone_of_same _ _ _ _ _ _ _ hsame
  | staged hm hs hr =>
    obtain ⟨hlater, ⟨-, hmade⟩ | ⟨_, he, -⟩⟩ := makeDirectory_run hm
    swap
    · cases he
    have hsite := hc.site hp
    have hstaged := staged_of_makeDirectory hsite hmade
    have hsettled := hs.settled hn hc hp hname (proper_makeDirectory hd hmade) hlater hv hmade
    obtain ⟨ha, ht⟩ := hs.later
    obtain ⟨hleaves, hgone⟩ :=
      removeTree_staging (hsite.agree hsettled.agree) hstaged.check hstaged.fits hr
    exact hsettled.undone hc hp hstaged.free ha ht hleaves hgone

/-- The parents of the vendored directory and of the alias manifest. -/
def parents (plan : BuildPlan) (host : Path) : List Path :=
  [plan.aliasPath host, plan.vendoredPath host].flatMap fun p =>
    p.parent?.toList.flatMap Path.ancestors

/-- Makes the parents of a path. -/
def makingParents (p : Path) : Work σ BuildFault Unit :=
  match p.parent? with
  | some q => ExceptT.adapt (BuildFault.writeFailed q) (makeDirectories q)
  | none => pure ()

omit [Carrier σ] [LawfulCarrier σ] in
theorem prepareParents_eq (plan : BuildPlan) (host : Path) :
    (plan.prepareParents host : Work σ BuildFault Unit) = (do
      makingParents (plan.aliasPath host)
      makingParents (plan.vendoredPath host)) := by
  unfold prepareParents makingParents
  simp only [List.forIn_cons, List.forIn_nil]
  cases (plan.aliasPath host).parent? <;> cases (plan.vendoredPath host).parent? <;> simp

theorem keeps_prepareParents_of (plan : BuildPlan) (host : Path) {I : Disk → Prop}
    (h : ∀ a ∈ plan.parents host, ∀ d d', I d → d.makeDirectory a = .ok d' → I d') :
    Keeps I Any (plan.prepareParents host : Work σ BuildFault Unit) := by
  have hmaking (p : Path) (hp : p ∈ [plan.aliasPath host, plan.vendoredPath host]) :
      Keeps I Any (makingParents p : Work σ BuildFault Unit) := by
    rw [makingParents]
    cases hq : p.parent? with
    | none => exact keeps_pure trivial
    | some q =>
      refine keeps_adapt (keeps_makeDirectories_of fun a ha => h a ?_)
      exact List.mem_flatMap.2 ⟨p, hp, List.mem_flatMap.2 ⟨q, by simp [hq], ha⟩⟩
  rw [prepareParents_eq]
  exact keeps_bind (hmaking _ (by simp)) fun _ _ => hmaking _ (by simp)

/-- Making the parents adds directories that their paths lead to. -/
theorem keeps_prepareParents (d : Disk) (plan : BuildPlan) (host : Path) :
    Keeps (fun d' => Gains (plan.parents host) d d' ∧ d'.Proper) Any
      (plan.prepareParents host : Work σ BuildFault Unit) :=
  keeps_prepareParents_of plan host fun _ ha _ _ hd hm =>
    ⟨gains_makeDirectory hd.1 ha hm, proper_makeDirectory hd.2 hm⟩

/-- Where both parents are there none is made. -/
theorem prepareParents_settled {r : Except BuildFault Unit} {p : Path} {q : Trail}
    (hn : .notFound ∉ refusals w) (hl : Leads (disk w) S p q)
    (ha : (plan.aliasPath host).parent? = some p) (hv : (plan.vendoredPath host).parent? = some p)
    (h : on (plan.prepareParents host : Work σ BuildFault Unit) w = (r, w')) :
    disk w' = disk w := by
  have hmaking {p' : Path} {r : Except BuildFault Unit} {w w' : σ} (hp' : p'.parent? = some p)
      (hn : .notFound ∉ refusals w) (hl : Leads (disk w) S p q)
      (h : on (makingParents p' : Work σ BuildFault Unit) w = (r, w')) :
      disk w' = disk w ∧ refusals w' <:+ refusals w := by
    rw [makingParents, hp', on_adapt] at h
    cases hmake : on (makeDirectories p : Work σ Fault Unit) w with
    | mk r₁ w₁ =>
    rw [hmake] at h
    cases h
    obtain ⟨hsame, hlater, -⟩ := makeDirectories_there hn hl hmake
    exact ⟨hsame, hlater⟩
  rw [prepareParents_eq, on_bind] at h
  cases hfirst : on (makingParents (plan.aliasPath host) : Work σ BuildFault Unit) w with
  | mk r₁ w₁ =>
  rw [hfirst] at h
  obtain ⟨hsame, hlater⟩ := hmaking ha hn hl hfirst
  cases r₁ with
  | error e =>
    cases h
    exact hsame
  | ok u =>
    exact (hmaking hv (fun he => hn (hlater.subset he)) (hsame ▸ hl) h).1.trans hsame

variable {inputs : BuildInputs} {config : Config} {base : String}

/-- The path of the alias manifest starts at the host and never goes up. -/
theorem Made.aliases_below (h : Made inputs config plan base) :
    plan.aliasManifest.text.toList.head? ≠ some '/' ∧
      ".." ∉ Path.stepNames plan.aliasManifest.text := by
  obtain ⟨_, ds, -, -, hds, -⟩ := vendoredBase_eq_ok h.below
  obtain ⟨name, hname⟩ := fileName?_of_vendoredBase h.below
  obtain ⟨habs, hup, -⟩ := Path.plainSegments?_eq_some hds
  obtain ⟨way, hway⟩ := Path.standing_of_fileName? hname
  have hdir : config.aliasManifest.directory.isAbsolute = false ∧
      ".." ∉ config.aliasManifest.directory.steps := by
    rw [Path.directory]
    cases hq : config.aliasManifest.parent? with
    | none => exact ⟨by decide, by decide +kernel⟩
    | some q =>
      rw [hq] at habs hup
      dsimp only
      split
      · exact ⟨by decide, by decide +kernel⟩
      · exact ⟨habs, fun hm => hup (Path.up_mem_segments hm)⟩
  have hrel : config.aliasManifest.isAbsolute = false := by
    rcases hway.directory with ⟨-, he⟩ | ⟨-, -, he⟩
    · exact he ▸ hdir.1
    · exact he
  rw [h.aliasManifest]
  refine ⟨by simpa [Path.isAbsolute] using hrel, ?_⟩
  obtain ⟨m, n, hsteps⟩ := hway.steps
  rw [← Path.steps_eq_stepNames, hsteps]
  have hnot : ".." ∉ way := by
    rcases hway.directory with ⟨he, -⟩ | ⟨-, he, -⟩
    · exact he ▸ hdir.2
    · simp [he]
  simp [hnot, hway.plain.2.symm]

theorem Made.fileName?_aliasPath (h : Made inputs config plan base) (host : Path) :
    ∃ name, (plan.aliasPath host).fileName? = some name := by
  obtain ⟨name, hname⟩ := fileName?_of_vendoredBase h.below
  exact ⟨name, Path.fileName?_join h.aliases_below.1 (h.aliasManifest ▸ hname)⟩

/-- A failed build has made some parents of its two places. It made no change but these, or it has
taken back all else that the system does not refuse to take back. -/
theorem undone_of_apply (hn : .notFound ∉ refusals w) (hplan : inputs.plan config = .ok plan)
    (hp : Plain scratch) (hd : (disk w).Proper)
    (hc : ∀ b, on (plan.prepareParents host : Work σ BuildFault Unit) w = (.ok (), b) →
      Clear plan scratch host places (disk b))
    (hrun : on (plan.apply scratch host : Work σ BuildFault BuildReport) w = (.error e, w')) :
    ∃ r b, on (plan.prepareParents host : Work σ BuildFault Unit) w = (r, b) ∧
      Gains (plan.parents host) (disk w) (disk b) ∧
      (r = .error e ∧ w' = b ∨
        r = .ok () ∧ ∃ f a t, Fails plan scratch host b f a t w' ∧
          Undone plan scratch host places b f a t w') := by
  obtain ⟨base, hmade⟩ := made_of_plan hplan
  obtain ⟨name, hname⟩ := hmade.fileName?_aliasPath host
  have hkeeps : Keeps (fun d => Gains (plan.parents host) (disk w) d ∧ d.Proper) Any
      (plan.prepareParents host : Work σ BuildFault Unit) := keeps_prepareParents _ plan host
  rcases on_bind_eq_error.1 hrun with hprepare | ⟨_, b, hprepare, hrun⟩
  · obtain ⟨⟨hgains, -⟩, -⟩ := hkeeps.run ⟨.refl _ _, hd⟩ hprepare
    exact ⟨_, w', hprepare, hgains, Or.inl ⟨rfl, rfl⟩⟩
  · obtain ⟨⟨hgains, hproper⟩, -, hlater⟩ := hkeeps.run ⟨.refl _ _, hd⟩ hprepare
    refine ⟨_, b, hprepare, hgains, Or.inr ⟨rfl, ?_⟩⟩
    rcases on_bind_eq_error.1 hrun with hwork | ⟨_, _, -, he⟩
    · obtain ⟨f, a, t, hf⟩ := fails_of_withStaging hwork
      exact ⟨f, a, t, hf, hf.undone (fun he => hn (hlater.subset he)) (hc b hprepare) hp hname
        hproper hmade.valid⟩
    · cases he

/-- Whatever changes the system refuses, a failed build has made some parents of its two places. It
made no change but these, or it has taken back all else that the system does not refuse to take
back. No change is refused as if what it is about were not there. -/
theorem apply_undone {w w' : Watch} (hplan : inputs.plan config = .ok plan) (hp : Plain scratch)
    (hd : w.disk.Proper) (hn : some .notFound ∉ w.mishaps)
    (hc : ∀ b, watched (plan.prepareParents host : Observed BuildFault Unit) w = (.ok (), b) →
      Clear plan scratch host places b.disk)
    (hrun : watched (plan.apply scratch host : Observed BuildFault BuildReport) w =
      (.error e, w')) :
    ∃ r b, watched (plan.prepareParents host : Observed BuildFault Unit) w = (r, b) ∧
      Gains (plan.parents host) w.disk b.disk ∧
      (r = .error e ∧ w' = b ∨
        r = .ok () ∧ ∃ f a t, Fails plan scratch host b f a t w' ∧
          Undone plan scratch host places b f a t w') :=
  undone_of_apply (not_refused_of_mishaps hn) hplan hp hd hc hrun

def bareConfig (vendoredDir : String) : Config :=
  { packages := [], vendoredDir := ⟨vendoredDir⟩, marker? := none, sourceGlobs := [],
    version? := some "1.0.0" }

def bareInputs : BuildInputs := ⟨⟨[]⟩, []⟩

theorem exists_plan {c : Config} {f : BuildPlan → Bool}
    (h : (bareInputs.plan c).toOption.any f = true) :
    ∃ plan, bareInputs.plan c = .ok plan ∧ f plan = true := by
  cases hp : bareInputs.plan c with
  | error _ => rw [hp] at h; cases h
  | ok plan => rw [hp] at h; exact ⟨plan, rfl, h⟩

/-- The path of the vendored directory leads through that directory. -/
def loopedDisk : Disk where
  root := .directory [("host", .directory [("link", .link "v/.."),
    ("v", .directory [("keep.js", .file ⟨#[1]⟩)])])]
  here := []

theorem apply_loses_looped : ∃ plan, bareInputs.plan (bareConfig "link/v") = .ok plan ∧
    ∃ e d', on (plan.apply ⟨"1", "a"⟩ ⟨"/host"⟩ : Program BuildFault BuildReport) loopedDisk =
        (.error e, d') ∧
      loopedDisk.kind (plan.vendoredPath ⟨"/host"⟩) = .ok .directory ∧
      d'.kind (plan.vendoredPath ⟨"/host"⟩) = .error .notFound := by
  obtain ⟨plan, hplan, hrun⟩ := exists_plan (c := bareConfig "link/v") (f := fun plan =>
    let r := on (plan.apply ⟨"1", "a"⟩ ⟨"/host"⟩ : Program BuildFault BuildReport) loopedDisk
    !r.1.isOk && decide (loopedDisk.kind (plan.vendoredPath ⟨"/host"⟩) = .ok .directory) &&
      decide (r.2.kind (plan.vendoredPath ⟨"/host"⟩) = .error .notFound)) (by decide +kernel)
  simp only [Bool.and_eq_true, decide_eq_true_eq] at hrun
  obtain ⟨⟨herror, hbefore⟩, hafter⟩ := hrun
  refine ⟨plan, hplan, ?_⟩
  cases h : on (plan.apply ⟨"1", "a"⟩ ⟨"/host"⟩ : Program BuildFault BuildReport) loopedDisk with
  | mk r d' =>
    rw [h] at herror hafter
    cases r with
    | ok _ => cases herror
    | error e => exact ⟨e, d', rfl, hbefore, hafter⟩

/-- A host with a tree and an alias manifest from an earlier build. -/
def vendoredDisk : Disk where
  root := .directory [("host", .directory [("package.json", .file ⟨#[0x7b, 0x7d]⟩),
    ("vend-aliases.json", .file ⟨#[1]⟩), ("v", .directory [("keep.js", .file ⟨#[2]⟩)])])]
  here := []

/-- The parents of both places are found, both reserved directories are made and the previous tree
is moved aside. The staged tree is not moved into its place. -/
def struckWatch : Watch := .start vendoredDisk [none, none, none, none, none, some .busy]

theorem vendored_linkless : ∀ t target, vendoredDisk.node? t ≠ some (.link target) :=
  linkless_of_nodes (by decide)

theorem vendored_leads : Leads vendoredDisk (inside ["host"]) ⟨"/host"⟩ ["host"] :=
  leads_down (by decide) (by decide +kernel) (by decide) vendored_linkless rfl fun _ ht hin =>
    hin.2 (ht.eq_of_length_le hin.1.length_le)

theorem vendored_clear (hv : plan.vendoredDir = ⟨"v"⟩)
    (ha : plan.aliasManifest = ⟨"vend-aliases.json"⟩) :
    Clear plan ⟨"1", "a"⟩ ⟨"/host"⟩ (entriesOf ["host"] "v" "vend-aliases.json") vendoredDisk :=
  clear_of_entries vendored_leads vendored_linkless
    ⟨by decide, by decide +kernel, by decide, by decide⟩
    ⟨by decide, by decide +kernel, by decide, by decide⟩ hv ha

theorem apply_undone_struck : ∃ plan cause m', bareInputs.plan (bareConfig "v") = .ok plan ∧
    watched (plan.apply ⟨"1", "a"⟩ ⟨"/host"⟩ : Observed BuildFault BuildReport) struckWatch =
      (.error (.placeFailed cause), m') ∧
    ∃ r b, watched (plan.prepareParents ⟨"/host"⟩ : Observed BuildFault Unit) struckWatch = (r, b) ∧
      Gains (plan.parents ⟨"/host"⟩) vendoredDisk b.disk ∧
      (r = .error (.placeFailed cause) ∧ m' = b ∨
        r = .ok () ∧ ∃ f a t, Fails plan ⟨"1", "a"⟩ ⟨"/host"⟩ b f a t m' ∧
          Undone plan ⟨"1", "a"⟩ ⟨"/host"⟩ (entriesOf ["host"] "v" "vend-aliases.json") b f a t
            m') := by
  obtain ⟨plan, hplan, hfails⟩ := exists_plan (c := bareConfig "v") (f := fun plan =>
    match (watched (plan.apply ⟨"1", "a"⟩ ⟨"/host"⟩ : Observed BuildFault BuildReport)
      struckWatch).1 with
    | .error (.placeFailed _) => true
    | _ => false) (by decide +kernel)
  obtain ⟨base, hmade⟩ := made_of_plan hplan
  cases hrun : watched (plan.apply ⟨"1", "a"⟩ ⟨"/host"⟩ : Observed BuildFault BuildReport)
      struckWatch with
  | mk r m' =>
  rw [hrun] at hfails
  split at hfails
  case h_2 => cases hfails
  next cause he =>
  obtain rfl : r = .error (.placeFailed cause) := he
  refine ⟨plan, cause, m', hplan, hrun, ?_⟩
  refine apply_undone hplan ⟨by decide, by decide⟩ (proper_of_nodes (by decide)) (by decide)
    (fun b hb => ?_) hrun
  have hparent : (plan.vendoredPath ⟨"/host"⟩).parent? = some ⟨"/host"⟩ ∧
      (plan.aliasPath ⟨"/host"⟩).parent? = some ⟨"/host"⟩ := by
    rw [vendoredPath, aliasPath, hmade.vendoredDir, hmade.aliasManifest]
    decide +kernel
  have hsame : b.disk = vendoredDisk := prepareParents_settled
    (not_refused_of_mishaps (by decide)) vendored_leads hparent.2 hparent.1 hb
  rw [hsame]
  exact vendored_clear hmade.vendoredDir hmade.aliasManifest

end Vendoring.BuildPlan
