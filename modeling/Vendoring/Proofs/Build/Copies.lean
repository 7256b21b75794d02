import Vendoring.Proofs.Build.Plan
import Vendoring.Proofs.Build.Staging

/-! What the packages become in the staging directory: each copy is what was seen of its source,
with its marker replaced and with a manifest of its own if it has one. -/
namespace Vendoring

open Files Files.Disk Outcome

/-- Where the copy of a package stands in the vendored directory. -/
def PlannedPackage.place (p : PlannedPackage) : Trail := Path.stepNames p.identity

namespace BuildPlan

/-- What is seen of a package on the disk `b`, with its marker replaced. -/
def marked? (plan : BuildPlan) (b : Disk) (p : PlannedPackage) : Trail → Option Node :=
  match plan.marker? with
  | some marker => marker.marked plan.globs (b.seen? skippedDirectories p.source)
  | none => b.seen? skippedDirectories p.source

/-- What the copy of a package holds that is made from the disk `b`. -/
def copy? (plan : BuildPlan) (b : Disk) (p : PlannedPackage) (r : Trail) : Option Node :=
  match p.renamed? with
  | some manifest =>
    if r = [PackageManifest.fileName] then some (.file manifest.text.toUTF8)
    else plan.marked? b p r
  | none => plan.marked? b p r

theorem copy?_nil (plan : BuildPlan) (b : Disk) (p : PlannedPackage) :
    plan.copy? b p [] = b.seen? skippedDirectories p.source [] := by
  have hmarked : plan.marked? b p [] = b.seen? skippedDirectories p.source [] := by
    rw [marked?]
    cases plan.marker? <;> rfl
  rw [copy?]
  split
  · rw [if_neg (by simp), hmarked]
  · exact hmarked

/-- A directory holds the copies of some packages and nothing else. -/
structure Vendored (plan : BuildPlan) (b : Disk) (ps : List PlannedPackage)
    (f : Trail → Option Node) : Prop where
  top : f [] = some .directory
  copies : ∀ p ∈ ps, ∀ r, f (p.place ++ r) = plan.copy? b p r
  above : ∀ p ∈ ps, ∀ r, r <+: p.place → r ≠ p.place → f r = some .directory
  only : ∀ r ≠ [], (∀ p ∈ ps, ¬ p.place <+: r ∧ ¬ r <+: p.place) → f r = none

/-- If a package gets a manifest of its own, nothing that is seen of it beside the manifest has the
name under which that is written first. -/
def Renamable (scratch : Scratch) (d : Disk) (p : PlannedPackage) : Prop :=
  p.renamed? ≠ none →
    d.seen? skippedDirectories p.source [scratch.tempName ⟨PackageManifest.fileName⟩] = none

end BuildPlan

variable {b b₀ d d' : Disk} {H t : Trail} {target staging : Path} {scratch : Scratch}
  {marker : Marker} {globs : List Glob} {f : Trail → Option Node} {plan : BuildPlan}
  {p : PlannedPackage} {done ps : List PlannedPackage}

theorem Files.keeps_distinct_replaceFile (scratch : Scratch) (p : Path) (bytes : ByteArray) :
    Keeps Disk.Distinct Any (replaceFile scratch p bytes : Program Fault Unit) :=
  keeps_replaceFile_of
    (keeps_makeDirectories_of fun _ _ _ _ hd hm => distinct_makeDirectory hd hm)
    (keeps_write_of (fun _ _ _ hd hm => distinct_write hd hm) bytes)
    (keeps_rename_of fun _ _ hd hm => distinct_rename hd hm)
    (keeps_removeFile_of fun _ _ hd hm => distinct_removeFile hd hm)

/-- What is not seen of a package is not in its copy. -/
theorem BuildPlan.marked_of_unseen {r : Trail} (h : b.seen? skippedDirectories p.source r = none) :
    plan.marked? b p r = none := by
  rw [marked?]
  cases plan.marker? with
  | none => exact h
  | some marker =>
    dsimp only
    rw [Marker.marked.eq_def]
    split
    · rw [h]
      simp
    · exact h

theorem BuildPlan.copy_of_unseen {r : Trail} (h : b.seen? skippedDirectories p.source r = none)
    (hr : r ≠ [PackageManifest.fileName]) : plan.copy? b p r = none := by
  have hmarked : plan.marked? b p r = none := marked_of_unseen h
  rw [copy?]
  split
  · rw [if_neg hr, hmarked]
  · exact hmarked

namespace Marker

theorem keeps_distinct_updateFiles (marker : Marker) (globs : List Glob) (p : Path) :
    Keeps Disk.Distinct Any (marker.updateFiles globs p : Program Fault (List Path)) := by
  have hlist : Keeps Disk.Distinct (fun es => ∀ e ∈ es, Any e.1)
      (FileView.listing p : Program Fault (List (String × Kind))) :=
    keeps_listing_of fun _ _ _ _ _ _ => trivial
  exact marker.keeps_updateFiles_of globs hlist fun _ _ bytes =>
    keeps_write_of (fun _ _ _ hd hw => distinct_write hd hw) bytes

/-- The files of a directory that the globs ask for are updated. -/
theorem updateFiles_ok {paths : List Path} (hb : b.Proper) (ht : Target b H target t d)
    (h : on (marker.updateFiles globs target : Program Fault (List Path)) d = (.ok paths, d')) :
    Target b H target t d' ∧ Agree (inside t) d d' ∧
      d'.subtree t = marker.marked globs (d.subtree t) := by
  obtain ⟨rest, hin⟩ := ht.into
  have hregion := (marker.keeps_updateFiles hb globs hin d ht.region).1
  have hdistinct := (marker.keeps_distinct_updateFiles globs target d ht.distinct).1
  rw [h] at hregion hdistinct
  obtain ⟨t', hl, -, -, hrewrites⟩ := rewrites_of_updateFiles (ht.region.proper hb) ht.distinct h
  obtain rfl := ht.leads.unique hl
  obtain ⟨hagree, hmarked⟩ := hrewrites.marked
  exact ⟨ht.change hagree hregion hdistinct, hagree, hmarked⟩

end Marker

/-- The manifest of a copy takes the place of what stood under its name. -/
theorem PackageManifest.save_ok {manifest : PackageManifest} (htag : '/' ∉ scratch.tag.toList)
    (ht : Target b H target t d)
    (hfree : d.node? (t ++ [scratch.tempName (target.join fileName)]) = none)
    (h : on (manifest.save scratch target : Program Files.Fault Unit) d = (.ok (), d')) :
    Target b H target t d' ∧ Agree (inside t) d d' ∧ d'.subtree t = fun r =>
      if r = [fileName] then some (.file manifest.text.toUTF8) else d.subtree t r := by
  have hn := proper_fileName
  have hnamed := fileName?_join target
  obtain ⟨rest, hin⟩ := ht.into
  have hregion := (keeps_save htag hin manifest d ht.region).1
  have hdistinct := (keeps_distinct_replaceFile scratch (target.join fileName)
    manifest.text.toUTF8 d ht.distinct).1
  rw [save, replaceText] at h
  rw [save, replaceText, h] at hregion
  rw [h] at hdistinct
  have hdir : Leads d (inside t) (target.join fileName).directory t :=
    ht.leads.directory hn hnamed
  have hrep : Replaced (inside t) d d' (target.join fileName)
      (tempPlace scratch (target.join fileName) t) (t ++ [fileName]) manifest.text.toUTF8 :=
    replaced_of_ok (not_refused _ d) hdir hnamed htag (below_child_subset t _) (ht.linkless _) h
  have hagree : Agree (inside t) d d' := hrep.agree.mono
    (Set.union_subset (below_child_subset t _) (below_child_subset t _))
  refine ⟨ht.change hagree hregion hdistinct, hagree, funext fun r => ?_⟩
  have hsplit (z : Disk) (other : String) (r : Trail) :
      z.subtree t ([other] ++ r) = z.subtree (t ++ [other]) r := by
    rw [subtree, subtree, List.append_assoc]
  by_cases htemp : [scratch.tempName (target.join fileName)] <+: r
  · obtain ⟨r, rfl⟩ := htemp
    have hne : scratch.tempName (target.join fileName) ≠ fileName := tempName_ne hnamed
    have hnone : d.subtree (tempPlace scratch (target.join fileName) t) = nothing :=
      subtree_of_none hfree
    rw [if_neg (by simp [hne]), hsplit, hsplit, ← tempPlace, hrep.temp, hnone]
  by_cases hfile : [fileName] <+: r
  · obtain ⟨r, rfl⟩ := hfile
    rw [hsplit, hrep.contents]
    cases r with
    | nil => rfl
    | cons other r =>
      rw [if_neg (by simp), hsplit, subtree]
      cases hk : d.node? (t ++ [fileName] ++ other :: r) with
      | none => rfl
      | some k => exact absurd (node?_of_append hk) hrep.free
  · rw [if_neg (by rintro rfl; exact hfile (List.prefix_refl _))]
    refine hrep.agree.node _ ?_
    rintro (hpre | hpre)
    · exact htemp ((List.prefix_append_right_inj t).1 hpre)
    · exact hfile ((List.prefix_append_right_inj t).1 hpre)

theorem Identity.proper_of_isValid {identity : String} (h : isValid identity = true) :
    ∀ name ∈ Path.stepNames identity, ProperName name := by
  intro name hm
  have hstep : name ∈ (⟨identity⟩ : Path).steps := hm
  rw [stepNames_of_isValid h] at hm
  obtain ⟨segment, hs, rfl⟩ := List.mem_map.1 hm
  obtain ⟨-, hdot, hup⟩ := name_of_isPlain (isPlain_of_isValid h hs)
  refine proper_of_mem_steps hstep ⟨fun he => hdot ?_, fun he => hup ?_⟩
  · simpa using congrArg String.toList he
  · simpa using congrArg String.toList he

namespace BuildPlan

/-- Replaces the marker in a copy, if there is one to replace. -/
def marking (plan : BuildPlan) (identity : String) (target : Path) : Program BuildFault Nat :=
  match plan.marker? with
  | some marker => List.length <$> ExceptT.adapt (BuildFault.markersFailed identity)
      (marker.updateFiles plan.globs target)
  | none => pure 0

/-- Writes the manifest of a copy, if it gets one of its own. -/
def naming (scratch : Scratch) (p : PlannedPackage) (target : Path) : Program BuildFault Unit :=
  match p.renamed? with
  | some manifest =>
    ExceptT.adapt (BuildFault.writeFailed (manifestPath target)) (manifest.save scratch target)
  | none => pure ()

theorem stage_eq (plan : BuildPlan) (scratch : Scratch) (staging : Path) (p : PlannedPackage) :
    plan.stage scratch staging p = (do
      let copied ← ExceptT.adapt (BuildFault.copyFailed p.identity p.source)
        (copyTree skippedDirectories p.source (staging.join p.identity))
      let replaced ← plan.marking p.identity (staging.join p.identity)
      naming scratch p (staging.join p.identity)
      return ⟨p.identity, p.kind, p.vendoredRoot, copied, replaced⟩ :
        Program BuildFault PackageReport) := by
  rw [stage]
  unfold marking naming
  cases plan.marker? <;> cases p.renamed? <;> rfl

theorem marking_ok {identity : String} {n : Nat} (hb : b.Proper) (ht : Target b H target t d)
    (hd : d.subtree t = b₀.seen? skippedDirectories p.source)
    (h : on (plan.marking identity target) d = (.ok n, d')) :
    Target b H target t d' ∧ Agree (inside t) d d' ∧ d'.subtree t = plan.marked? b₀ p := by
  rw [marked?]
  rw [marking] at h
  cases hm : plan.marker? with
  | none =>
    rw [hm] at h
    cases h
    exact ⟨ht, .refl _ _, hd⟩
  | some marker =>
    rw [hm] at h
    obtain ⟨paths, hrun, -⟩ := on_map_eq_ok.1 h
    obtain ⟨ht', hagree, hmarked⟩ := Marker.updateFiles_ok hb ht (on_adapt_eq_ok.1 hrun)
    exact ⟨ht', hagree, hmarked.trans (by rw [hd])⟩

theorem tempName_manifest (scratch : Scratch) (target : Path) :
    scratch.tempName (target.join PackageManifest.fileName) =
      scratch.tempName ⟨PackageManifest.fileName⟩ := by
  have hname : (⟨PackageManifest.fileName⟩ : Path).fileName? = some PackageManifest.fileName := by
    decide +kernel
  rw [Scratch.tempName, Scratch.tempName, PackageManifest.fileName?_join, hname]

theorem naming_ok (htag : '/' ∉ scratch.tag.toList) (hu : Renamable scratch b₀ p)
    (ht : Target b H target t d) (hd : d.subtree t = plan.marked? b₀ p)
    (h : on (naming scratch p target) d = (.ok (), d')) :
    Target b H target t d' ∧ Agree (inside t) d d' ∧ d'.subtree t = plan.copy? b₀ p := by
  rw [naming] at h
  cases hm : p.renamed? with
  | none =>
    rw [hm] at h
    cases h
    refine ⟨ht, .refl _ _, hd.trans (funext fun r => ?_)⟩
    rw [copy?, hm]
  | some manifest =>
    rw [hm] at h
    have hfree : d.node? (t ++ [scratch.tempName (target.join PackageManifest.fileName)]) = none := by
      rw [tempName_manifest]
      exact (congrFun hd _).trans (marked_of_unseen (hu (by simp [hm])))
    obtain ⟨ht', hagree, hsaved⟩ := PackageManifest.save_ok htag ht hfree (on_adapt_eq_ok.1 h)
    refine ⟨ht', hagree, hsaved.trans (funext fun r => ?_)⟩
    rw [copy?, hm, hd]

/-- Where the copy of one package is staged. -/
structure StagedCopy (plan : BuildPlan) (b₀ b : Disk) (H : Trail) (staging : Path)
    (p : PlannedPackage) (report : PackageReport) (d d' : Disk) : Prop where
  target : Target b H staging H d'
  dir : d'.node? (H ++ p.place) = some .directory
  opens : ∃ x, Opens (H ++ p.place) d x ∧ Agree (below (H ++ p.place)) x d'
  tree : d'.subtree (H ++ p.place) = plan.copy? b₀ p
  count : (filesOf (b₀.seen? skippedDirectories p.source)).encard = report.filesCopied

theorem stage_ok {report : PackageReport} (hb : b.Proper) (htag : '/' ∉ scratch.tag.toList)
    (hu : Renamable scratch b₀ p) (ht : Target b H staging H d)
    (hv : Identity.isValid p.identity = true)
    (hs : Shows (inside H) b skippedDirectories p.source (b₀.seen? skippedDirectories p.source))
    (hdir : b₀.seen? skippedDirectories p.source [] = some .directory)
    (hfree : d.node? (H ++ p.place) = none)
    (h : on (plan.stage scratch staging p : Program BuildFault PackageReport) d =
      (.ok report, d')) : StagedCopy plan b₀ b H staging p report d d' := by
  rw [stage_eq] at h
  obtain ⟨copied, d₁, hcopy, h₁⟩ := on_bind_eq_ok.1 h
  obtain ⟨x, hopens, hcopied⟩ := copyTree_ok hb ht hs hdir (Identity.head?_of_isValid hv)
    (Identity.proper_of_isValid hv) (Identity.stepNames_ne_nil hv) hfree (on_adapt_eq_ok.1 hcopy)
  obtain ⟨replaced, d₂, hmark, h₂⟩ := on_bind_eq_ok.1 h₁
  obtain ⟨ht₂, hagree₂, hmarked⟩ := marking_ok hb hcopied.target hcopied.sets.subtree hmark
  obtain ⟨_, d₃, hname, h₃⟩ := on_bind_eq_ok.1 h₂
  cases h₃
  obtain ⟨ht₃, hagree₃, hnamed⟩ := naming_ok htag hu ht₂ hmarked hname
  refine ⟨ht.change (ht.region.agree.symm.trans ht₃.region.agree) ht₃.region ht₃.distinct,
    ht₃.leads.dir, ⟨x, hopens, ?_⟩, hnamed, hcopied.count⟩
  refine hcopied.sets.agree.trans ((hagree₂.trans hagree₃).mono ?_)
  exact inside_subset_below _

theorem Vendored.empty (plan : BuildPlan) (b : Disk) :
    Vendored plan b [] (Tree.directory []).node? where
  top := rfl
  copies p hp := absurd hp List.not_mem_nil
  above p hp := absurd hp List.not_mem_nil
  only r hr _ := by
    obtain ⟨name, r, rfl⟩ := List.exists_cons_of_ne_nil hr
    rfl

/-- One more copy stands beside the others. -/
theorem Vendored.add {report : PackageReport} (hv : Vendored plan b₀ done (d.subtree H))
    (hapart : ∀ q ∈ done, ¬ p.place <+: q.place ∧ ¬ q.place <+: p.place) (hne : p.place ≠ [])
    (hs : StagedCopy plan b₀ b H staging p report d d') :
    Vendored plan b₀ (done ++ [p]) (d'.subtree H) := by
  obtain ⟨x, hopens, hagree⟩ := hs.opens
  have hcopy (r : Trail) : d'.subtree H (p.place ++ r) = plan.copy? b₀ p r := by
    rw [← hs.tree, subtree, subtree, List.append_assoc]
  have habove (r : Trail) (hr : r <+: p.place) (hrne : r ≠ p.place) :
      d'.subtree H r = some .directory := by
    obtain ⟨more, hmore⟩ := hr
    cases more with
    | nil => exact absurd (by rw [← hmore, List.append_nil]) hrne
    | cons name more =>
      have hdir := hs.dir
      rw [← hmore, ← List.append_assoc] at hdir
      exact node?_of_append hdir
  have hkept (r : Trail) (hr : ¬ p.place <+: r) (hr' : ¬ r <+: p.place) :
      d'.subtree H r = d.subtree H r := by
    rw [subtree, hagree.node _ fun hm => hr ((List.prefix_append_right_inj H).1 hm)]
    refine (hopens.node _).resolve_right ?_
    rintro ⟨-, -, hpre⟩
    exact hr' ((List.prefix_append_right_inj H).1 hpre)
  have hcases (q : PlannedPackage) (hq : q ∈ done ++ [p]) : q ∈ done ∨ q = p :=
    (List.mem_append.1 hq).imp_right List.mem_singleton.1
  refine ⟨habove [] List.nil_prefix hne.symm, fun q hq r => ?_, fun q hq r hr hrne => ?_,
    fun r hrne hr => ?_⟩
  · rcases hcases q hq with hq | rfl
    · obtain ⟨hpq, hqp⟩ := hapart q hq
      rw [hkept, hv.copies q hq]
      · exact not_below_of_apart ⟨hqp, hpq⟩
      · exact fun hpre => hqp ((List.prefix_append _ _).trans hpre)
    · exact hcopy r
  · rcases hcases q hq with hq | rfl
    · obtain ⟨hpq, -⟩ := hapart q hq
      by_cases hp : r <+: p.place
      · exact habove r hp fun he => hpq (he ▸ hr)
      · rw [hkept r (fun hpre => hpq (hpre.trans hr)) hp]
        exact hv.above q hq r hr hrne
    · exact habove r hr hrne
  · obtain ⟨hp, hp'⟩ := hr p (by simp)
    rw [hkept r hp hp']
    exact hv.only r hrne fun q hq => hr q (List.mem_append_left _ hq)

/-- All packages are staged, each beside those before it. -/
theorem stageAll_ok {reports : List PackageReport} (hb : b.Proper)
    (htag : '/' ∉ scratch.tag.toList) (hu : ∀ p ∈ ps, Renamable scratch b₀ p)
    (ht : Target b H staging H d)
    (hv : ∀ p ∈ done ++ ps, Identity.isValid p.identity = true)
    (hnodup : ((done ++ ps).map (·.identity)).Nodup)
    (hs : ∀ p ∈ ps, Shows (inside H) b skippedDirectories p.source
      (b₀.seen? skippedDirectories p.source))
    (hdir : ∀ p ∈ ps, b₀.seen? skippedDirectories p.source [] = some .directory)
    (hd : Vendored plan b₀ done (d.subtree H))
    (h : on (plan.stageAll scratch staging ps : Program BuildFault (List PackageReport)) d =
      (.ok reports, d')) :
    Vendored plan b₀ (done ++ ps) (d'.subtree H) ∧ List.Forall₂ (fun p report =>
      (filesOf (b₀.seen? skippedDirectories p.source)).encard = report.filesCopied) ps reports := by
  induction ps generalizing d done reports with
  | nil =>
    cases h
    exact ⟨(List.append_nil done).symm ▸ hd, .nil⟩
  | cons p ps ih =>
    obtain ⟨report, d₁, hone, h₁⟩ := on_bind_eq_ok.1 h
    obtain ⟨others, d₂, hrest, h₂⟩ := on_bind_eq_ok.1 h₁
    cases h₂
    have hvp := hv p (by simp)
    have hapart : ∀ q ∈ done, ¬ p.place <+: q.place ∧ ¬ q.place <+: p.place := by
      intro q hq
      have hvq := hv q (List.mem_append_left _ hq)
      have hne : q.identity ≠ p.identity := by
        rw [List.map_append] at hnodup
        exact (List.nodup_append.1 hnodup).2.2 _ (List.mem_map_of_mem hq) _
          (List.mem_map_of_mem (List.mem_cons_self ..))
      exact ⟨Identity.not_prefix_of_isValid hvp hvq hne.symm,
        Identity.not_prefix_of_isValid hvq hvp hne⟩
    have hne : p.place ≠ [] := Identity.stepNames_ne_nil hvp
    have hfree : d.node? (H ++ p.place) = none := hd.only _ hne fun q hq => (hapart q hq).symm
    have hstaged := stage_ok hb htag (hu p (List.mem_cons_self ..)) ht hvp
      (hs p (List.mem_cons_self ..)) (hdir p (List.mem_cons_self ..)) hfree hone
    have hassoc : done ++ p :: ps = done ++ [p] ++ ps := by simp
    rw [hassoc] at hv hnodup ⊢
    obtain ⟨hvendored, hcounts⟩ := ih (fun q hq => hu q (List.mem_cons_of_mem _ hq)) hstaged.target
      hv hnodup
      (fun q hq => hs q (List.mem_cons_of_mem _ hq))
      (fun q hq => hdir q (List.mem_cons_of_mem _ hq)) (hd.add hapart hne hstaged) hrest
    exact ⟨hvendored, .cons hstaged.count hcounts⟩

end BuildPlan

end Vendoring
