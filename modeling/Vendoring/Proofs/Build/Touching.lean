import Vendoring.Proofs.Build.Course

/-! What a build that works changes, if its ways are clear: the places that it may touch, and the
manifest of the host. -/
namespace Vendoring.BuildPlan
open Files Files.Disk

variable {plan : BuildPlan} {scratch : Scratch} {host : Path} {places : Places} {b d' : Disk}
  {c : Course} {reports : List PackageReport}

/-- The course works where the paths lead. -/
structure Aligned (scratch : Scratch) (places : Places) (c : Course) : Prop where
  host : c.host = places.host
  tree : c.slot.trail = places.tree

theorem Aligned.staging (h : Aligned scratch places c) :
    c.staging scratch = places.staging scratch := by
  rw [Course.staging, Places.staging, h.host]

theorem Aligned.holding (h : Aligned scratch places c) :
    c.holding scratch = places.holding scratch := by
  rw [Course.holding, Places.holding, h.host]

theorem Applied.agree_held (ha : Applied plan scratch host b reports c) :
    Agree (below (c.staging scratch) ∪ below (c.holding scratch)) b c.held := by
  have hfilled : Agree (below (c.staging scratch)) b c.filled :=
    ha.staged.sets.agree.trans (ha.region.agree.mono (inside_subset_below _))
  exact hfilled.trans_union ha.held.agree

theorem Applied.aligned (ha : Applied plan scratch host b reports c)
    (hc : Clear plan scratch host places b) : Aligned scratch places c := by
  have hhost : c.host = places.host := hc.toHost.unique ha.toHost
  have hagree : Agree (touched plan scratch host places b) b c.held := by
    refine ha.agree_held.mono (Set.union_subset ?_ ?_)
    · rw [Course.staging, hhost]
      exact below_staging_subset
    · rw [Course.holding, hhost]
      exact below_holding_subset.trans leftover_subset
  obtain ⟨way, hway⟩ := Path.standing_of_fileName? hc.named
  obtain ⟨-, hparent, hname⟩ :=
    (hc.toParent.agree hagree).stands hway ha.inPlace.stands.slot?
  exact ⟨hhost, by rw [Slot.trail, hparent, hname, Places.tree]⟩

theorem Applied.placed (ha : Applied plan scratch host b reports c)
    (h : Aligned scratch places c) : Placed scratch places b c.placed := by
  have hdir : c.held.node? (c.staging scratch) = some .directory := by
    have hsibling := not_below_sibling (q := c.host) (holdingName_ne_stagingName scratch)
    exact (ha.held.agree.node _ hsibling).trans (ha.region.dir ha.staged.inside.dir)
  have hagree := (ha.agree_held.mono ?_).trans ha.inPlace.agree
  · refine ⟨?_, ?_, ?_⟩
    · rw [← h.tree, ← h.holding, ← h.staging]
      exact hagree
    · rw [← h.tree, ← subtree_nil, ha.inPlace.tree, subtree_nil]
      exact hdir
    · rw [← h.staging]
      exact ha.inPlace.staging
  · exact Set.union_subset Set.subset_union_right
      (Set.subset_union_right.trans Set.subset_union_left)

/-- What was staged is what is put into place. -/
theorem Applied.tree_placed (ha : Applied plan scratch host b reports c) :
    c.placed.subtree c.slot.trail = c.filled.subtree (c.staging scratch) := by
  refine ha.inPlace.tree.trans (ha.held.agree.subtree fun r => not_below_of_apart ⟨?_, ?_⟩)
  · exact not_below_sibling (holdingName_ne_stagingName scratch).symm
  · exact not_below_sibling (holdingName_ne_stagingName scratch)

/-- The staged tree has no links, where it was made and where it is put. -/
theorem Applied.region_placed (ha : Applied plan scratch host b reports c) :
    Region c.placed c.slot.trail c.placed :=
  ha.region.rebase (congrFun ha.tree_placed)

/-- Writing the alias manifest touches nothing but what it may. -/
theorem Applied.agree_recorded (ha : Applied plan scratch host b reports c)
    (hc : Clear plan scratch host places b) (hp : Plain scratch) :
    Agree (touched plan scratch host places b) b c.recorded := by
  have h := ha.aligned hc
  have hplaced := ha.placed h
  refine hplaced.agree_touched.trans ?_
  rcases hc.aliases with ⟨q, name, hsome, hbeside⟩ | ⟨-, hwithin⟩
  · -- The directory of the alias manifest was there, so that none was made for it.
    have hleads := hbeside.leads.agree hplaced.agree_touched
    have hopened : c.opened = c.placed :=
      (makeDirectories_there (not_refused _ _) hleads ha.published.opened).1
    have hwrites := ha.published.aliases
    have hfolder : c.folder = q := by
      have hl := ha.published.leads
      rw [hopened] at hl
      exact hleads.unique hl
    have hname : c.name = name := Option.some.inj (ha.named.symm.trans hbeside.named)
    rw [hopened, hfolder, hname] at hwrites
    refine hwrites.agree.mono (Set.union_subset ?_ ?_)
    · exact (below_aliasTemp_subset hsome).trans temps_subset
    · by_cases hne : places.tree = q ++ [name]
      · rw [← hne]
        exact below_tree_subset
      · refine below_aliases_subset hsome ?_
        rw [← hplaced.agree.node _ (hbeside.not_swapped hne)]
        exact hwrites.free
  · have hslot : c.slot.name = places.name :=
      List.head_eq_of_cons_eq (List.append_inj_right' h.tree rfl)
    obtain ⟨rest, henters⟩ :=
      hwithin.enters hc hplaced (hslot ▸ ⟨ha.inPlace.stands.plain, ha.inPlace.fits⟩)
    obtain ⟨way, hway⟩ := Path.standing_of_fileName? ha.named
    have hkeeps := keeps_replaceFile hp.tag (henters.inside_of_agree below_tree_subset (.refl _ _))
      hway henters.named plan.aliases.text.toUTF8 c.placed (h.tree ▸ ha.region_placed)
    rw [ha.published.wrote] at hkeeps
    exact hkeeps.1.agree.mono ((inside_subset_below _).trans below_tree_subset)

/-- A build that works changes what it may touch and the manifest of the host. -/
theorem Completed.agree (ha : Completed plan scratch host b d' reports c)
    (hc : Clear plan scratch host places b) (hp : Plain scratch) :
    Agree (touched plan scratch host places b ∪ below places.manifest) b d' := by
  have h := ha.aligned hc
  have hmanifest := ha.published.manifest.agree
  rw [h.host] at hmanifest
  have hcleared := ha.cleared.agree
  rw [h.holding] at hcleared
  have hpublished : Agree (touched plan scratch host places b ∪ below places.manifest) b
      c.published := by
    refine ((ha.agree_recorded hc hp).mono Set.subset_union_left).trans (hmanifest.mono ?_)
    exact Set.union_subset_union_left _ (below_manifestTemp_subset.trans temps_subset)
  refine (hpublished.trans (hcleared.mono ?_)).trans ?_
  · exact (below_holding_subset.trans leftover_subset).trans Set.subset_union_left
  · rcases ha.ended with rfl | ⟨-, hset⟩
    · exact .refl _ _
    · have hended := hset.agree
      rw [h.staging] at hended
      exact hended.mono (below_staging_subset.trans Set.subset_union_left)

end Vendoring.BuildPlan
