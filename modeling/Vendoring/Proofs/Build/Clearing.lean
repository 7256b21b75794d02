import Vendoring.Proofs.Build.Publishing

/-! Where a build works, and what it asks of the disk so that it can be undone: that the ways to its
places do not pass what it moves, replaces or keeps for itself. -/
namespace Vendoring.BuildPlan
open Files Files.Disk

/-- The places that the paths of a build lead to. -/
structure Places where
  host : Trail
  /-- The directory that the vendored directory stands in. -/
  parent : Trail
  /-- The name of the vendored directory. -/
  name : String
  /-- The directory and the name of the alias manifest; none if it is in the vendored directory. -/
  aliases? : Option (Trail × String)

namespace Places

def tree (places : Places) : Trail := places.parent ++ [places.name]

def staging (places : Places) (scratch : Scratch) : Trail := places.host ++ [stagingName scratch]

def holding (places : Places) (scratch : Scratch) : Trail := places.host ++ [holdingName scratch]

def manifest (places : Places) : Trail := places.host ++ [PackageManifest.fileName]

/-- Where the new manifest of the host is written first. -/
def manifestTemp (places : Places) (scratch : Scratch) (host : Path) : Trail :=
  tempPlace scratch (manifestPath host) places.host

end Places

variable {plan : BuildPlan} {scratch : Scratch} {host : Path} {places : Places}
  {d d' b : Disk} {q : Trail} {name : String}

/-- Where both manifests are written first. -/
def temps (plan : BuildPlan) (scratch : Scratch) (host : Path) (places : Places) : Set Trail :=
  below (places.manifestTemp scratch host) ∪
    {t | ∃ q name, places.aliases? = some (q, name) ∧
      tempPlace scratch (plan.aliasPath host) q <+: t}

/-- The names that a build keeps for itself and that may be free after it. -/
def leftover (plan : BuildPlan) (scratch : Scratch) (host : Path) (places : Places) : Set Trail :=
  temps plan scratch host places ∪ below (places.holding scratch)

/-- All places that a build may change on the way. An alias manifest is replaced unless it is a
directory. -/
def touched (plan : BuildPlan) (scratch : Scratch) (host : Path) (places : Places) (d : Disk) :
    Set Trail :=
  below places.tree ∪ below (places.staging scratch) ∪ leftover plan scratch host places ∪
    {t | ∃ q name, places.aliases? = some (q, name) ∧
      d.node? (q ++ [name]) ≠ some .directory ∧ q ++ [name] <+: t}

/-- The alias manifest stands outside of the vendored directory, or in its place. -/
structure AliasesBeside (plan : BuildPlan) (scratch : Scratch) (host : Path) (places : Places)
    (d : Disk) (q : Trail) (name : String) : Prop where
  leads : Leads d (touched plan scratch host places d) (plan.aliasPath host).directory q
  named : (plan.aliasPath host).fileName? = some name
  apart : q ++ [name] ≠ places.staging scratch ∧ q ++ [name] ≠ places.holding scratch ∧
    q ++ [name] ≠ places.manifestTemp scratch host
  temp : places.tree ≠ tempPlace scratch (plan.aliasPath host) q
  linkless : ∀ target, d.node? (tempPlace scratch (plan.aliasPath host) q) ≠ some (.link target)

/-- The path of the alias manifest comes to the vendored directory and goes on down from there. -/
structure AliasesWithin (plan : BuildPlan) (scratch : Scratch) (host : Path) (places : Places)
    (d : Disk) : Prop where
  way : ∃ before rest links, (plan.aliasPath host).steps = before ++ rest ∧
    Way d (touched plan scratch host places d) linkLimit (startOf (plan.aliasPath host) d.here)
      before links places.parent [places.name] ∧
    ".." ∉ rest ∧ ∃ x ∈ rest, x ≠ "."

/-- The paths of a build lead to their places past all that the build may change, and the names that
it keeps for itself are in nobody's way. -/
structure Clear (plan : BuildPlan) (scratch : Scratch) (host : Path) (places : Places)
    (d : Disk) : Prop where
  toHost : Leads d (touched plan scratch host places d) host places.host
  toParent : Leads d (touched plan scratch host places d) (plan.vendoredPath host).directory
    places.parent
  named : (plan.vendoredPath host).fileName? = some places.name
  apart : places.tree ≠ places.staging scratch ∧ places.tree ≠ places.holding scratch ∧
    places.tree ≠ places.manifestTemp scratch host
  linkless : ∀ target, d.node? (places.manifestTemp scratch host) ≠ some (.link target)
  reads : ∀ d', Agree (below (places.staging scratch) ∪ leftover plan scratch host places) d d' →
    (d'.contents (plan.aliasPath host)).toOption = (d.contents (plan.aliasPath host)).toOption
  aliases : (∃ q name, places.aliases? = some (q, name) ∧
      AliasesBeside plan scratch host places d q name) ∨
    places.aliases? = none ∧ AliasesWithin plan scratch host places d

theorem below_tree_subset : below places.tree ⊆ touched plan scratch host places d :=
  fun _ ht => Or.inl (Or.inl (Or.inl ht))

theorem below_staging_subset :
    below (places.staging scratch) ⊆ touched plan scratch host places d :=
  fun _ ht => Or.inl (Or.inl (Or.inr ht))

theorem leftover_subset : leftover plan scratch host places ⊆ touched plan scratch host places d :=
  fun _ ht => Or.inl (Or.inr ht)

theorem below_holding_subset : below (places.holding scratch) ⊆ leftover plan scratch host places :=
  fun _ ht => Or.inr ht

theorem temps_subset : temps plan scratch host places ⊆ touched plan scratch host places d :=
  fun _ ht => leftover_subset (Or.inl ht)

theorem below_manifestTemp_subset :
    below (places.manifestTemp scratch host) ⊆ temps plan scratch host places :=
  fun _ ht => Or.inl ht

theorem below_aliasTemp_subset (ha : places.aliases? = some (q, name)) :
    below (tempPlace scratch (plan.aliasPath host) q) ⊆ temps plan scratch host places :=
  fun _ ht => Or.inr ⟨q, name, ha, ht⟩

theorem below_aliases_subset (ha : places.aliases? = some (q, name))
    (hd : d.node? (q ++ [name]) ≠ some .directory) :
    below (q ++ [name]) ⊆ touched plan scratch host places d :=
  fun _ ht => Or.inr ⟨q, name, ha, hd, ht⟩

theorem Clear.site (hc : Clear plan scratch host places d) (hp : Plain scratch) :
    Site scratch host (plan.vendoredPath host) (touched plan scratch host places d) places.host
      places.parent places.name d where
  plain := hp
  host := hc.toHost
  parent := hc.toParent
  name := hc.named
  staging := below_staging_subset
  holding := below_holding_subset.trans leftover_subset
  tree := below_tree_subset
  apart := ⟨hc.apart.1, hc.apart.2.1⟩

/-- The name of a file that is written first is none of a holding directory. -/
theorem tempName_ne_holdingName (scratch : Scratch) (p : Path) :
    scratch.tempName p ≠ holdingName scratch := by
  intro he
  have hl := congrArg String.toList he
  have hdot : (".tmp.").toList = (".tmp").toList ++ ['.'] := rfl
  have hdash : (".vend-previous-").toList = (".vend-previous").toList ++ ['-'] := rfl
  simp only [Scratch.tempName, holdingName, String.toList_append, hdot, hdash,
    ← List.append_assoc, List.append_cancel_right_eq] at hl
  exact absurd (List.append_inj_right' hl rfl) (by decide)

/-- Where a file is written first is apart from what is swapped. -/
theorem Clear.apart_temp {p : Path} (hc : Clear plan scratch host places d)
    (hp : Plain scratch) (hq : q ∉ touched plan scratch host places d)
    (ht : below (tempPlace scratch p q) ⊆ touched plan scratch host places d)
    (hne : places.tree ≠ tempPlace scratch p q) :
    (¬ places.tree <+: tempPlace scratch p q ∧ ¬ tempPlace scratch p q <+: places.tree) ∧
      ¬ places.holding scratch <+: tempPlace scratch p q ∧
      ¬ tempPlace scratch p q <+: places.holding scratch := by
  have hs := hc.site hp
  refine ⟨apart_of_entries hs.parent.off hq hs.tree ht hne, ?_⟩
  refine apart_of_entries hs.host.off hq hs.holding ht fun he => ?_
  exact tempName_ne_holdingName scratch p
    (List.head_eq_of_cons_eq (List.append_inj_right' he rfl)).symm

/-- The staged tree is in place. -/
structure Placed (scratch : Scratch) (places : Places) (d d' : Disk) : Prop where
  agree : Agree (below places.tree ∪ below (places.holding scratch) ∪
    below (places.staging scratch)) d d'
  dir : d'.node? places.tree = some .directory
  staging : d'.subtree (places.staging scratch) = nothing

theorem Placed.agree_touched (h : Placed scratch places d d') :
    Agree (touched plan scratch host places d) d d' :=
  h.agree.mono (Set.union_subset (Set.union_subset below_tree_subset
    (below_holding_subset.trans leftover_subset)) below_staging_subset)

theorem Placed.linkless {p : Path} (h : Placed scratch places d d')
    (hc : Clear plan scratch host places d) (hp : Plain scratch)
    (hq : q ∉ touched plan scratch host places d)
    (ht : below (tempPlace scratch p q) ⊆ touched plan scratch host places d)
    (hne : places.tree ≠ tempPlace scratch p q)
    (hl : ∀ target, d.node? (tempPlace scratch p q) ≠ some (.link target)) :
    ∀ target, d'.node? (tempPlace scratch p q) ≠ some (.link target) := by
  intro target hn
  obtain ⟨hv, hh⟩ := hc.apart_temp hp hq ht hne
  by_cases hin : places.staging scratch <+: tempPlace scratch p q
  · obtain ⟨r, hr⟩ := hin
    rw [← hr, show d'.node? _ = none from congrFun h.staging r] at hn
    cases hn
  · rw [h.agree.node _ (not_or.2 ⟨not_or.2 ⟨hv.1, hh.1⟩, hin⟩)] at hn
    exact hl target hn

/-- The entry of the alias manifest is not swapped unless it is the place of the tree. -/
theorem AliasesBeside.not_swapped (ha : AliasesBeside plan scratch host places d q name)
    (hne : places.tree ≠ q ++ [name]) :
    q ++ [name] ∉ below places.tree ∪ below (places.holding scratch) ∪
      below (places.staging scratch) := by
  have hoff := ha.leads.off
  rintro ((hin | hin) | hin)
  · exact (List.prefix_concat_iff.1 hin).elim hne fun hp => hoff (below_tree_subset hp)
  · exact (List.prefix_concat_iff.1 hin).elim (fun he => ha.apart.2.1 he.symm) fun hp =>
      hoff (leftover_subset (below_holding_subset hp))
  · exact (List.prefix_concat_iff.1 hin).elim (fun he => ha.apart.1 he.symm) fun hp =>
      hoff (below_staging_subset hp)

theorem AliasesBeside.beside (ha : AliasesBeside plan scratch host places d q name)
    (hc : Clear plan scratch host places d) (hp : Plain scratch)
    (hsome : places.aliases? = some (q, name)) (h : Placed scratch places d d') :
    Beside scratch (plan.aliasPath host) (touched plan scratch host places d) q name d' where
  leads := ha.leads.agree h.agree_touched
  named := ha.named
  temp := (below_aliasTemp_subset hsome).trans temps_subset
  entry := by
    by_cases hd : d.node? (q ++ [name]) = some .directory
    · by_cases hne : places.tree = q ++ [name]
      · rw [← hne]
        exact Or.inr below_tree_subset
      · rw [h.agree.node _ (ha.not_swapped hne)]
        exact Or.inl hd
    · exact Or.inr (below_aliases_subset hsome hd)
  linkless := h.linkless hc hp ha.leads.off ((below_aliasTemp_subset hsome).trans temps_subset)
    ha.temp ha.linkless

/-- What was read before the swap is what may have to be written back. -/
theorem AliasesBeside.remembered (ha : AliasesBeside plan scratch host places d q name)
    (h : Placed scratch places d d') (hb : Agree (touched plan scratch host places d) d b)
    (hs : Agree (below places.tree ∪ below (places.holding scratch) ∪
      below (places.staging scratch)) b d') :
    Remembered (touched plan scratch host places d) (plan.aliasPath host) (q ++ [name]) d'
      (b.contents (plan.aliasPath host)).toOption := by
  intro old? hnames hn
  have hnames' := hnames.agree (h.agree_touched.symm.trans hb)
  by_cases hne : places.tree = q ++ [name]
  · rw [← hne, h.dir] at hn
    cases old? <;> cases hn
  · rw [hs.node _ (ha.not_swapped hne)] at hn
    exact hnames'.contents hn

/-- The path of an alias manifest in the vendored directory goes down into the staged tree. -/
theorem AliasesWithin.enters (ha : AliasesWithin plan scratch host places d)
    (hc : Clear plan scratch host places d) (h : Placed scratch places d d')
    (hname : (places.name ≠ "." ∧ places.name ≠ "..") ∧ isTooLong places.name = false) :
    ∃ rest, Enters d' (touched plan scratch host places d) (plan.aliasPath host) places.tree
      rest := by
  obtain ⟨before, rest, links, hsteps, hway, hdown, hnamed⟩ := ha.way
  have hparent := hc.toParent.agree h.agree_touched
  refine ⟨rest, ⟨before, links, hsteps, ?_⟩, h.dir, hdown, hnamed⟩
  rw [h.agree.here]
  refine ((hway.agree h.agree_touched).mono fun _ hm => hm.1).trans ?_
  exact .down (fun hm => hparent.off hm.1) hparent.dir hname.1 hname.2 h.dir (fun _ => by simp)
    (.stop fun hm => hm.2 rfl)

/-- A name in the host that a build does not keep for itself. -/
structure Bare (name : String) : Prop where
  proper : ProperName name
  named : (⟨name⟩ : Path).fileName? = some name
  fits : isTooLong name = false
  dotless : name.toList.head? ≠ some '.'

/-- Both places of a build are entries of the host. -/
def entriesOf (h : Trail) (v a : String) : Places := ⟨h, h, v, some (h, a)⟩

theorem touched_subset_inside (plan : BuildPlan) (scratch : Scratch) (host : Path) (h : Trail)
    (v a : String) (d : Disk) : touched plan scratch host (entriesOf h v a) d ⊆ inside h := by
  have hbelow (name : String) : below (h ++ [name]) ⊆ inside h :=
    below_subset_inside (s := ⟨h, name, false⟩) (List.prefix_refl h)
  rintro t (((ht | ht) | ((ht | ⟨q, name, hsome, ht⟩) | ht)) | ⟨q, name, hsome, -, ht⟩)
  · exact hbelow _ ht
  · exact hbelow _ ht
  · exact hbelow _ ht
  · cases hsome
    exact hbelow _ ht
  · exact hbelow _ ht
  · cases hsome
    exact hbelow _ ht

/-- On a disk without links the ways to two entries of the host are clear, if the way to the host
does not go through it. -/
theorem clear_of_entries {h : Trail} {v a : String} (hl : Leads d (inside h) host h)
    (hd : ∀ t target, d.node? t ≠ some (.link target)) (hv : Bare v) (ha : Bare a)
    (hvendored : plan.vendoredDir = ⟨v⟩) (haliases : plan.aliasManifest = ⟨a⟩) :
    Clear plan scratch host (entriesOf h v a) d := by
  have hoff := touched_subset_inside plan scratch host h v a d
  have hleads := hl.mono hoff
  have hdirectory {name : String} (hn : Bare name) :
      (host.join name).fileName? = some name ∧
        Leads d (touched plan scratch host (entriesOf h v a) d) (host.join name).directory h := by
    have hnamed : (host.join name).fileName? = some name :=
      Path.fileName?_join (head?_of_proper hn.proper) hn.named
    exact ⟨hnamed, hleads.directory hn.proper hnamed⟩
  obtain ⟨hvnamed, hvleads⟩ := hdirectory hv
  obtain ⟨hanamed, haleads⟩ := hdirectory ha
  have hplace {name other : String} (hn : Bare name) (ho : other.toList.head? = some '.') :
      h ++ [name] ≠ h ++ [other] := by
    intro he
    exact ne_of_dot ho hn.dotless (List.head_eq_of_cons_eq (List.append_inj_right' he rfl)).symm
  have hstaging := head?_stagingName scratch
  have hholding := head?_holdingName scratch
  have htemp := scratch.head?_tempName
  have hpath : plan.aliasPath host = host.join a := by rw [aliasPath, haliases]
  refine ⟨hleads, ?_, ?_, ?_, hd _, fun d' hagree => ?_, Or.inl ⟨h, a, rfl, ?_⟩⟩
  · rw [vendoredPath, hvendored]
    exact hvleads
  · rw [vendoredPath, hvendored]
    exact hvnamed
  · exact ⟨hplace hv hstaging, hplace hv hholding, hplace hv (htemp _)⟩
  · rw [hpath]
    have hkept : h ++ [a] ∉ below ((entriesOf h v a).staging scratch) ∪
        leftover plan scratch host (entriesOf h v a) := by
      have hnot {other : String} (ho : other.toList.head? = some '.') :
          ¬ h ++ [other] <+: h ++ [a] := by
        intro hp
        exact hplace ha ho (hp.eq_of_length (by simp)).symm
      rintro (hm | ((hm | ⟨q, name, hsome, hm⟩) | hm))
      · exact hnot hstaging hm
      · exact hnot (htemp _) hm
      · cases hsome
        exact hnot (htemp _) hm
      · exact hnot hholding hm
    refine hleads.contents_child ha.proper ha.fits (hagree.mono ?_) (hagree.node _ hkept) (hd _)
    exact Set.union_subset below_staging_subset leftover_subset
  · refine ⟨?_, ?_, ⟨hplace ha hstaging, hplace ha hholding, hplace ha (htemp _)⟩,
      hplace hv (htemp _), hd _⟩
    · rw [hpath]
      exact haleads
    · rw [hpath]
      exact hanamed

end Vendoring.BuildPlan
