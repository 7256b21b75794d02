import Vendoring.Build.Apply
import Vendoring.Proofs.Files.Replacing

/-! Moving the staged tree into place, whatever the system refuses: a swap that fails takes back what
it did, and if that is refused too, the previous tree is whole in the holding directory. -/
namespace Vendoring.BuildPlan
open Files Files.Disk Files.Carrier

variable {σ : Type} [FileStore (StateM σ)] [Carrier σ] [LawfulCarrier σ] {w w' w₁ : σ}
  {scratch : Scratch} {host vendored aliasPath : Path} {S : Set Trail} {h pv : Trail}
  {vname : String} {d d' d₁ : Disk} {previous previous' : Previous} {t : Trail} {s : Slot}

omit [Carrier σ] [LawfulCarrier σ] in
/-- Work in a staging directory: if that cannot be made nothing is done, and otherwise the work
starts there, and what is left of the directory is removed behind it. -/
theorem withStaging_cases {α : Type} {work : Path → Work σ BuildFault α} {r : Except BuildFault α}
    (h : on (withStaging scratch host work) w = (r, w')) :
    (∃ e e', r = .error e ∧ on (FileStore.makeDirectory (stagingPath scratch host) :
        Work σ Fault Unit) w = (.error e', w')) ∨
      ∃ v v', on (FileStore.makeDirectory (stagingPath scratch host) : Work σ Fault Unit) w =
          (.ok (), v) ∧
        on (work (stagingPath scratch host)) v = (r, v') ∧
        w' = (on (FileStore.removeTree (stagingPath scratch host) : Work σ Fault Unit) v').2 := by
  rw [withStaging, on_bind, on_adapt] at h
  cases hm : on (FileStore.makeDirectory (stagingPath scratch host) : Work σ Fault Unit) w with
  | mk made v =>
  rw [hm] at h
  cases made with
  | error e =>
    cases h
    exact Or.inl ⟨_, e, rfl, rfl⟩
  | ok u =>
    obtain ⟨_, v', hwork, h⟩ := on_bind_attempt_eq.1 h
    obtain ⟨_, _, hremove, h⟩ := on_bind_attempt_eq.1 h
    cases h
    exact Or.inr ⟨v, v', rfl, hwork, (congrArg Prod.snd hremove).symm⟩

def stagingName (scratch : Scratch) : String := ".vend-staging-" ++ scratch.fresh

def holdingName (scratch : Scratch) : String := ".vend-previous-" ++ scratch.tag

theorem head?_stagingName (scratch : Scratch) :
    (stagingName scratch).toList.head? = some '.' := by simp [stagingName]

theorem head?_holdingName (scratch : Scratch) :
    (holdingName scratch).toList.head? = some '.' := by simp [holdingName]

/-- Parts of names that are no paths. -/
structure Plain (scratch : Scratch) : Prop where
  tag : '/' ∉ scratch.tag.toList
  fresh : '/' ∉ scratch.fresh.toList

theorem proper_of_append {lead part : String} (hl : 3 ≤ lead.toList.length)
    (hs : '/' ∉ lead.toList) (hp : '/' ∉ part.toList) : ProperName (lead ++ part) := by
  have hlong : 3 ≤ (lead ++ part).toList.length := by
    rw [String.toList_append, List.length_append]
    omega
  refine ⟨?_, by simp [hs, hp], ?_, ?_⟩ <;>
  · rintro he
    simp [he] at hlong

theorem Plain.staging (hp : Plain scratch) : ProperName (stagingName scratch) :=
  proper_of_append (by decide) (by decide) hp.fresh

theorem Plain.holding (hp : Plain scratch) : ProperName (holdingName scratch) :=
  proper_of_append (by decide) (by decide) hp.tag

/-- Where a build works: the places that its paths lead to, whatever stands inside of `S`. -/
structure Site (scratch : Scratch) (host vendored : Path) (S : Set Trail) (h pv : Trail)
    (vname : String) (d : Disk) : Prop where
  plain : Plain scratch
  host : Leads d S host h
  parent : Leads d S vendored.directory pv
  name : vendored.fileName? = some vname
  staging : below (h ++ [stagingName scratch]) ⊆ S
  holding : below (h ++ [holdingName scratch]) ⊆ S
  tree : below (pv ++ [vname]) ⊆ S
  apart : pv ++ [vname] ≠ h ++ [stagingName scratch] ∧ pv ++ [vname] ≠ h ++ [holdingName scratch]

theorem Site.agree (hs : Site scratch host vendored S h pv vname d) (ha : Agree S d d') :
    Site scratch host vendored S h pv vname d' :=
  { hs with host := hs.host.agree ha, parent := hs.parent.agree ha }

/-- Entries of directories outside of `S` are apart if what stands below them is in `S`. -/
theorem apart_of_entries {q q' : Trail} {name name' : String} (hq : q ∉ S) (hq' : q' ∉ S)
    (hb : below (q ++ [name]) ⊆ S) (hb' : below (q' ++ [name']) ⊆ S)
    (hne : q ++ [name] ≠ q' ++ [name']) :
    ¬ q ++ [name] <+: q' ++ [name'] ∧ ¬ q' ++ [name'] <+: q ++ [name] := by
  constructor
  · intro hp
    rcases List.prefix_concat_iff.1 hp with he | hp
    · exact hne he
    · exact hq' (hb hp)
  · intro hp
    rcases List.prefix_concat_iff.1 hp with he | hp
    · exact hne he.symm
    · exact hq (hb' hp)

theorem holdingName_ne_stagingName (scratch : Scratch) :
    holdingName scratch ≠ stagingName scratch := by
  intro he
  have ht : (".vend-previous-" ++ scratch.tag).toList.take 7 =
      (".vend-staging-" ++ scratch.fresh).toList.take 7 := congrArg (·.toList.take 7) he
  simp at ht

theorem Site.apart_holding (hs : Site scratch host vendored S h pv vname d) :
    ¬ pv ++ [vname] <+: h ++ [holdingName scratch] ∧
      ¬ h ++ [holdingName scratch] <+: pv ++ [vname] :=
  apart_of_entries hs.parent.off hs.host.off hs.tree hs.holding hs.apart.2

theorem Site.apart_staging (hs : Site scratch host vendored S h pv vname d) :
    ¬ pv ++ [vname] <+: h ++ [stagingName scratch] ∧
      ¬ h ++ [stagingName scratch] <+: pv ++ [vname] :=
  apart_of_entries hs.parent.off hs.host.off hs.tree hs.staging hs.apart.1

theorem Site.apart_reserved (_ : Site scratch host vendored S h pv vname d) :
    ¬ h ++ [holdingName scratch] <+: h ++ [stagingName scratch] ∧
      ¬ h ++ [stagingName scratch] <+: h ++ [holdingName scratch] :=
  ⟨not_below_sibling (holdingName_ne_stagingName scratch),
    not_below_sibling (holdingName_ne_stagingName scratch).symm⟩

theorem Site.stands_holding (hs : Site scratch host vendored S h pv vname d)
    (hc : check (holdingPath scratch host) = .ok ()) :
    Stands d S (holdingPath scratch host) ⟨h, holdingName scratch, false⟩ := by
  have hn := hs.plain.holding
  exact hs.host.child hn hc

theorem Site.stands_staging (hs : Site scratch host vendored S h pv vname d)
    (hc : check (stagingPath scratch host) = .ok ()) :
    Stands d S (stagingPath scratch host) ⟨h, stagingName scratch, false⟩ := by
  have hn := hs.plain.staging
  exact hs.host.child hn hc

/-- The holding directory is new, and the alias manifest was read. -/
structure Held (scratch : Scratch) (host aliasPath : Path) (h : Trail) (d d' : Disk)
    (previous : Previous) : Prop where
  sets : Sets d d' (h ++ [holdingName scratch]) (Tree.directory []).node?
  fits : isTooLong (holdingName scratch) = false
  check : check (holdingPath scratch host) = .ok ()
  previous : previous = ⟨holdingPath scratch host, none, (d'.contents aliasPath).toOption⟩

theorem hold_cases {r : Except BuildFault Previous} (hn : .notFound ∉ refusals w)
    (hs : Site scratch host vendored S h pv vname (disk w))
    (hr : on (hold scratch host aliasPath : Work σ BuildFault Previous) w = (r, w')) :
    (∃ e, r = .error e ∧
        Leaves (Gone (below (h ++ [holdingName scratch]))) (disk w) (disk w')) ∨
      ∃ previous, r = .ok previous ∧
        Held scratch host aliasPath h (disk w) (disk w') previous := by
  rw [hold, on_bind, on_adapt] at hr
  cases hrenew : on (do
      removeTreeIfThere (holdingPath scratch host)
      FileStore.makeDirectory (holdingPath scratch host) : Work σ Fault Unit) w with
  | mk made w₁ =>
  rw [hrenew] at hr
  rcases renewed_cases hn hs.stands_holding hs.holding rfl hrenew with
    ⟨⟨e, rfl⟩, hleaves⟩ | ⟨rfl, hc, hfits, hset⟩
  · cases hr
    exact Or.inl ⟨_, rfl, hleaves⟩
  · dsimp only [Except.mapError] at hr
    rw [on_bind, on_attempt, LawfulCarrier.contents] at hr
    cases hr
    exact Or.inr ⟨_, rfl, hset, hfits, hc, rfl⟩

/-- Where the previous tree is kept. -/
def keptPath (scratch : Scratch) (host : Path) : Path := (holdingPath scratch host).join "vendored"

def keptPlace (scratch : Scratch) (h : Trail) : Trail := h ++ [holdingName scratch] ++ ["vendored"]

/-- The holding directory is there. -/
structure Holding (scratch : Scratch) (host : Path) (h : Trail) (d : Disk) : Prop where
  fits : isTooLong (holdingName scratch) = false
  check : check (holdingPath scratch host) = .ok ()
  dir : d.node? (h ++ [holdingName scratch]) = some .directory

theorem Held.holding (hh : Held scratch host aliasPath h d d' previous) :
    Holding scratch host h d' := by
  refine ⟨hh.fits, hh.check, ?_⟩
  rw [← subtree_nil, hh.sets.subtree]
  rfl

theorem Held.empty (hh : Held scratch host aliasPath h d d' previous) :
    d'.subtree (keptPlace scratch h) = nothing :=
  subtree_of_none (congrFun hh.sets.subtree ["vendored"])

theorem Site.stands_kept (hs : Site scratch host vendored S h pv vname d)
    (hh : Holding scratch host h d) (hc : Disk.check (keptPath scratch host) = .ok ()) :
    Stands d (S \ {h ++ [holdingName scratch]}) (keptPath scratch host)
      ⟨h ++ [holdingName scratch], "vendored", false⟩ := by
  have hn := hs.plain.holding
  have hl := hs.host.enter hn hh.fits hh.dir
  exact hl.child (by decide) hc

theorem Site.apart_kept (hs : Site scratch host vendored S h pv vname d) :
    ¬ keptPlace scratch h <+: pv ++ [vname] ∧ ¬ pv ++ [vname] <+: keptPlace scratch h := by
  have hp : h ++ [holdingName scratch] <+: keptPlace scratch h := List.prefix_append _ _
  constructor
  · exact fun hk => hs.apart_holding.2 (hp.trans hk)
  · intro hk
    rcases List.prefix_concat_iff.1 hk with he | hk
    · exact hs.apart_holding.2 (he ▸ hp)
    · exact hs.apart_holding.1 hk

/-- An entry that can be moved away and back again. -/
structure Portable (S : Set Trail) (d : Disk) (p : Path) (t : Trail) (s : Slot) : Prop where
  stands : Stands d S p s
  trail : s.trail = t
  fits : isTooLong s.name = false
  there : d.node? t ≠ none
  kind : d.node? t = some .directory ∨ s.slashed = false

/-! ## What is done to take back what was done -/

/-- Removes the holding directory if the previous tree was moved out of it. -/
def discardIf (previous : Previous) (moved : Except Fault Unit) : Work σ BuildFault Unit := do
  if let .ok () := moved then discard previous

/-- Moves the previous tree back. -/
def takingBack (previous : Previous) (vendored : Path) : Work σ BuildFault Unit := do
  discardIf previous (← attempt (moveBack previous vendored))

/-- Puts the previous tree back in place of the staged one. -/
def restoringTree (previous : Previous) (vendored : Path) : Work σ BuildFault Unit := do
  let moved ← attempt do
    removeTreeIfThere vendored
    moveBack previous vendored
  discardIf previous moved

/-- Puts the previous contents of the alias manifest back. -/
def restoringAliases (scratch : Scratch) (previous : Previous) (aliasPath : Path) :
    Work σ Fault Unit :=
  match previous.aliases? with
  | some bytes => replaceFile scratch aliasPath bytes
  | none => FileStore.removeFile aliasPath

theorem wanes_discard (previous : Previous) :
    Wanes (discard previous : Work σ BuildFault Unit) :=
  keeps_bind (keeps_attempt (wanes_removeTreeIfThere _)) fun _ _ => keeps_pure trivial

theorem wanes_discardIf (previous : Previous) (moved : Except Fault Unit) :
    Wanes (discardIf previous moved : Work σ BuildFault Unit) := by
  cases moved with
  | ok u => exact wanes_discard previous
  | error e => exact keeps_pure trivial

theorem wanes_moveBack (previous : Previous) (vendored : Path) :
    Wanes (moveBack previous vendored : Work σ Fault Unit) := by
  rw [moveBack]
  split
  · exact wanes_rename _ _
  · exact keeps_pure trivial

theorem wanes_takingBack (previous : Previous) (vendored : Path) :
    Wanes (takingBack previous vendored : Work σ BuildFault Unit) :=
  keeps_bind (keeps_attempt (wanes_moveBack _ _)) fun _ _ => wanes_discardIf _ _

theorem wanes_restoringTree (previous : Previous) (vendored : Path) :
    Wanes (restoringTree previous vendored : Work σ BuildFault Unit) :=
  keeps_bind (keeps_attempt (keeps_bind (wanes_removeTreeIfThere _) fun _ _ => wanes_moveBack _ _))
    fun _ _ => wanes_discardIf _ _

theorem wanes_restoringAliases (scratch : Scratch) (previous : Previous) (p : Path) :
    Wanes (restoringAliases scratch previous p : Work σ Fault Unit) := by
  rw [restoringAliases]
  split
  · exact wanes_replaceFile _ _ _
  · exact wanes_removeFile _

/-- What stands in `S` was there before. -/
def Thinned (S : Set Trail) (d d' : Disk) : Prop :=
  ∀ t ∈ S, d'.node? t = d.node? t ∨ d'.node? t = none

theorem Thinned.refl (S : Set Trail) (d : Disk) : Thinned S d d := fun _ _ => Or.inl rfl

theorem Thinned.trans {d₂ : Disk} (h : Thinned S d d') (h' : Thinned S d' d₂) :
    Thinned S d d₂ := by
  intro t ht
  rcases h' t ht with he | he
  · rw [he]
    exact h t ht
  · exact Or.inr he

theorem thinned_of_leaves {S' : Set Trail} (h : Leaves (Gone S') d d') : Thinned S d d' :=
  fun t _ => (h.node t).imp_right And.right

/-- The tree that stood in the place of the vendored one on the disk `d` is there again, or it is
kept since something was refused. -/
structure TakenBack (scratch : Scratch) (h pv : Trail) (vname : String) (d : Disk) (w w' : σ) :
    Prop where
  later : refusals w' <:+ refusals w
  agree : Agree (below (pv ++ [vname]) ∪ below (h ++ [holdingName scratch])) (disk w) (disk w')
  tree : (disk w').subtree (pv ++ [vname]) = d.subtree (pv ++ [vname]) ∨
    Struck w w' ∧ (disk w').subtree (keptPlace scratch h) = d.subtree (pv ++ [vname]) ∧
      Thinned (below (pv ++ [vname])) (disk w) (disk w')
  holding : (disk w').subtree (h ++ [holdingName scratch]) = nothing ∨ Struck w w'
  thinned : Thinned (below (h ++ [holdingName scratch])) (disk w) (disk w')

omit [Carrier σ] [LawfulCarrier σ] in
theorem discard_run (previous : Previous) (w : σ) :
    on (discard previous : Work σ BuildFault Unit) w =
      (.ok (), (on (removeTreeIfThere previous.holding : Work σ Fault Unit) w).2) := by
  rw [discard, on_bind, on_attempt]
  rfl

omit [Carrier σ] [LawfulCarrier σ] in
theorem discardIf_run (previous : Previous) (moved : Except Fault Unit) (w : σ) :
    ∃ w', on (discardIf previous moved : Work σ BuildFault Unit) w = (.ok (), w') := by
  cases moved with
  | ok u => exact ⟨_, discard_run previous w⟩
  | error e => exact ⟨w, rfl⟩

omit [Carrier σ] [LawfulCarrier σ] in
theorem takingBack_run (previous : Previous) (vendored : Path) (w : σ) :
    ∃ w', on (takingBack previous vendored : Work σ BuildFault Unit) w = (.ok (), w') :=
  discardIf_run previous _ _

omit [Carrier σ] [LawfulCarrier σ] in
theorem restoringTree_run (previous : Previous) (vendored : Path) (w : σ) :
    ∃ w', on (restoringTree previous vendored : Work σ BuildFault Unit) w = (.ok (), w') :=
  discardIf_run previous _ _

/-- The holding directory is removed, or some of it is left since that was refused. -/
theorem discard_cases {r : Except BuildFault Unit} (hn : .notFound ∉ refusals w)
    (hs : Site scratch host vendored S h pv vname (disk w))
    (hh : Holding scratch host h (disk w)) (hp : previous.holding = holdingPath scratch host)
    (hr : on (discard previous : Work σ BuildFault Unit) w = (r, w')) :
    r = .ok () ∧ refusals w' <:+ refusals w ∧
      Leaves (Gone (below (h ++ [holdingName scratch]))) (disk w) (disk w') ∧
      ((disk w').subtree (h ++ [holdingName scratch]) = nothing ∨ Struck w w') := by
  rw [discard_run, hp] at hr
  obtain ⟨rfl, rfl⟩ := Prod.mk.inj hr
  cases hrm : on (removeTreeIfThere (holdingPath scratch host) : Work σ Fault Unit) w with
  | mk removed w₁ =>
  have hlater := ((wanes_removeTreeIfThere _).run trivial hrm).2.2
  refine ⟨rfl, hlater, ?_⟩
  rcases removeTreeIfThere_cases hn (hs.stands_holding hh.check) hs.holding
      (Or.inl rfl) hrm with
    ⟨e, -, hleaves, hstruck⟩ | ⟨-, hset⟩
  · exact ⟨hleaves, Or.inr (hstruck hh.fits hh.dir)⟩
  · exact ⟨leaves_of_gone hset.agree hset.subtree fun u hu => ⟨hu, rfl⟩, Or.inl hset.subtree⟩

/-- If nothing but the holding directory was changed, removing that takes all back. -/
theorem takenBack_of_discard {r : Except BuildFault Unit} (hn : .notFound ∉ refusals w)
    (hs : Site scratch host vendored S h pv vname (disk w))
    (hh : Holding scratch host h (disk w)) (hp : previous.holding = holdingPath scratch host)
    (hsame : (disk w).subtree (pv ++ [vname]) = d.subtree (pv ++ [vname]))
    (hr : on (discard previous : Work σ BuildFault Unit) w = (r, w')) :
    r = .ok () ∧ TakenBack scratch h pv vname d w w' := by
  obtain ⟨rfl, hlater, hleaves, hgone⟩ := discard_cases hn hs hh hp hr
  have hagree := hleaves.agree fun t k hk => hk.1
  refine ⟨rfl, hlater, hagree.mono Set.subset_union_right, Or.inl ?_, hgone,
    thinned_of_leaves hleaves⟩
  rw [← hsame]
  exact hagree.subtree fun r => not_below_of_apart hs.apart_holding

/-- The previous tree of the disk `d`, if there was one, is kept on the disk `d'`. -/
structure Kept (scratch : Scratch) (host vendored : Path) (S : Set Trail) (h pv : Trail)
    (vname : String) (d d' : Disk) (previous : Previous) : Prop where
  holding : previous.holding = holdingPath scratch host
  whole : d'.subtree (keptPlace scratch h) = d.subtree (pv ++ [vname])
  tree : previous.tree? = none ∧ d.node? (pv ++ [vname]) = none ∨
    previous.tree? = some (keptPath scratch host) ∧ Disk.check (keptPath scratch host) = .ok () ∧
      ∃ s, Portable S d vendored (pv ++ [vname]) s

theorem kept_below_holding (scratch : Scratch) (h : Trail) :
    below (keptPlace scratch h) ⊆ below (h ++ [holdingName scratch]) :=
  fun _ ht => (List.prefix_append _ _).trans ht

/-- What is kept can be moved back once its place is free. -/
theorem Portable.moved_back (hport : Portable S d vendored (pv ++ [vname]) s)
    (hs : Site scratch host vendored S h pv vname d) (ha : Agree S d d')
    (hh : Holding scratch host h d') (hc : Disk.check (keptPath scratch host) = .ok ())
    (hwhole : d'.subtree (keptPlace scratch h) = d.subtree (pv ++ [vname]))
    (hfree : d'.subtree (pv ++ [vname]) = nothing) :
    ∃ d₁, d'.rename (keptPath scratch host) vendored = .ok d₁ ∧
      Moved d' d₁ (keptPlace scratch h) (pv ++ [vname]) := by
  have hstands := hport.stands.agree ha
  have hkeptStands := (hs.agree ha).stands_kept hh hc
  have hkeptTrail : Slot.trail ⟨h ++ [holdingName scratch], "vendored", false⟩ =
      keptPlace scratch h := rfl
  have hnode : d'.node? (keptPlace scratch h) = d.node? (pv ++ [vname]) := by
    rw [← subtree_nil, hwhole, subtree_nil]
  have hnone : d'.node? (pv ++ [vname]) = none := by
    rw [← subtree_nil, hfree]
    rfl
  have hmovable : Movable d' ⟨h ++ [holdingName scratch], "vendored", false⟩ s := by
    refine ⟨⟨(by decide : isTooLong "vendored" = false), hport.fits⟩, ?_, ?_, ?_⟩
    · rw [hkeptTrail, hnode]
      exact hport.there
    · rw [hkeptTrail, hport.trail]
      exact hs.apart_kept
    · rw [hkeptTrail, hnode]
      exact hport.kind.imp_right fun hu => ⟨rfl, hu⟩
  obtain ⟨d₁, hm⟩ := move_eq_ok hmovable (Or.inl (by rw [hport.trail, hnone]))
  have hne : Slot.trail ⟨h ++ [holdingName scratch], "vendored", false⟩ ≠ s.trail :=
    fun he => hmovable.apart.1 (he ▸ List.prefix_refl _)
  obtain ⟨hmoved, -, -⟩ := move_moved hm hne hstands.dir
  rw [hkeptTrail, hport.trail] at hmoved
  refine ⟨d₁, ?_, hmoved⟩
  rw [Disk.rename, hkeptStands.slot?, hstands.slot?]
  simp only [bind, Except.bind, hm]

/-- What is kept is moved back to its free place, unless that is refused. -/
theorem moveBack_cases {r : Except Fault Unit}
    (hs : Site scratch host vendored S h pv vname d) (ha : Agree S d (disk w))
    (hk : Kept scratch host vendored S h pv vname d (disk w) previous)
    (hh : Holding scratch host h (disk w))
    (hfree : (disk w).subtree (pv ++ [vname]) = nothing)
    (hr : on (moveBack previous vendored : Work σ Fault Unit) w = (r, w')) :
    refusals w' <:+ refusals w ∧
      (r = .ok () ∧ (disk w').subtree (pv ++ [vname]) = d.subtree (pv ++ [vname]) ∧
          (disk w').subtree (keptPlace scratch h) = nothing ∧
          Agree (below (pv ++ [vname]) ∪ below (keptPlace scratch h)) (disk w) (disk w') ∨
        (∃ e, r = .error e) ∧ Struck w w' ∧ disk w' = disk w) := by
  rcases hk.tree with ⟨htree, hnone⟩ | ⟨htree, hc, s, hport⟩
  · rw [moveBack, htree] at hr
    cases hr
    have hnothing := subtree_of_none hnone
    exact ⟨List.suffix_refl _, Or.inl ⟨rfl, hfree.trans hnothing.symm, hk.whole.trans hnothing,
      .refl _ _⟩⟩
  · rw [moveBack, htree] at hr
    obtain ⟨d₁, hrename, hmoved⟩ := hport.moved_back hs ha hh hc hk.whole hfree
    obtain ⟨hlater, ⟨rfl, hok⟩ | ⟨e, rfl, hdisk, hcause⟩⟩ := rename_run hr
    · rw [hrename] at hok
      cases hok
      refine ⟨hlater, Or.inl ⟨rfl, hmoved.moved.trans hk.whole, hmoved.gone, ?_⟩⟩
      rw [Set.union_comm]
      exact hmoved.agree
    · rw [hrename] at hcause
      obtain ⟨hstruck, -⟩ := hcause.resolve_left (by simp)
      exact ⟨hlater, Or.inr ⟨⟨e, rfl⟩, hstruck, hdisk⟩⟩

theorem holding_dir_of_agree (hs : Site scratch host vendored S h pv vname d)
    (ha : Agree (below (pv ++ [vname]) ∪ below (keptPlace scratch h)) d d')
    (hh : Holding scratch host h d) : Holding scratch host h d' := by
  refine ⟨hh.fits, hh.check, ?_⟩
  rw [ha.node _ (not_or.2 ⟨hs.apart_holding.1, fun hk => ?_⟩)]
  · exact hh.dir
  · have hl := List.IsPrefix.length_le hk
    simp [keptPlace] at hl

/-- Once the place is free the previous tree is moved back, or it stays whole where it is kept. -/
theorem takenBack_of_moveBack {r : Except Fault Unit} {r' : Except BuildFault Unit}
    (hn : .notFound ∉ refusals w) (hs : Site scratch host vendored S h pv vname d)
    (ha : Agree S d (disk w)) (hk : Kept scratch host vendored S h pv vname d (disk w) previous)
    (hh : Holding scratch host h (disk w)) (hfree : (disk w).subtree (pv ++ [vname]) = nothing)
    (hmove : on (moveBack previous vendored : Work σ Fault Unit) w = (r, w₁))
    (hr : on (discardIf previous r : Work σ BuildFault Unit) w₁ = (r', w')) :
    r' = .ok () ∧ TakenBack scratch h pv vname d w w' := by
  obtain ⟨hlater, ⟨rfl, htree, hempty, hback⟩ | ⟨⟨e, rfl⟩, hstruck, hsame⟩⟩ :=
    moveBack_cases hs ha hk hh hfree hmove
  · have hwide : Agree (below (pv ++ [vname]) ∪ below (h ++ [holdingName scratch])) (disk w)
        (disk w₁) := hback.mono (Set.union_subset_union_right _ (kept_below_holding scratch h))
    have hs₁ := (hs.agree ha).agree (hwide.mono (Set.union_subset hs.tree hs.holding))
    obtain ⟨rfl, hlater', hleaves, hgone⟩ := discard_cases (fun he => hn (hlater.subset he)) hs₁
      (holding_dir_of_agree (hs.agree ha) hback hh) hk.holding hr
    have hagree := hleaves.agree fun t k hk => hk.1
    have hthin : Thinned (below (h ++ [holdingName scratch])) (disk w) (disk w₁) := by
      rintro t ⟨r, rfl⟩
      by_cases hkept : keptPlace scratch h <+: h ++ [holdingName scratch] ++ r
      · obtain ⟨r', hr'⟩ := hkept
        rw [← hr']
        exact Or.inr (congrFun hempty r')
      · have hv : ¬ pv ++ [vname] <+: h ++ [holdingName scratch] ++ r :=
          not_below_of_apart hs.apart_holding.symm
        exact Or.inl (hback.node _ (not_or.2 ⟨hv, hkept⟩))
    refine ⟨rfl, hlater'.trans hlater, hwide.trans (hagree.mono Set.subset_union_right), ?_, ?_,
      hthin.trans (thinned_of_leaves hleaves)⟩
    · rw [← htree]
      exact Or.inl (hagree.subtree fun r => not_below_of_apart hs.apart_holding)
    · exact hgone.imp_right fun hst => hst.since hlater
  · cases hr
    refine ⟨rfl, hlater, hsame ▸ .refl _ _, Or.inr ⟨hstruck, hsame ▸ hk.whole, ?_⟩,
      Or.inr hstruck, ?_⟩ <;>
    · rw [hsame]
      exact .refl _ _

/-- The staged tree that was in place is removed and the previous one put back. Whatever is refused
on the way, that one is whole in its place or in the holding directory. -/
theorem takenBack_of_restoring {r : Except BuildFault Unit} (hn : .notFound ∉ refusals w)
    (hs : Site scratch host vendored S h pv vname d) (ha : Agree S d (disk w))
    (hk : Kept scratch host vendored S h pv vname d (disk w) previous)
    (hh : Holding scratch host h (disk w))
    (hslot : ∃ s, Stands (disk w) S vendored s ∧ s.trail = pv ++ [vname] ∧
      isTooLong s.name = false)
    (hdir : (disk w).node? (pv ++ [vname]) = some .directory)
    (hr : on (restoringTree previous vendored : Work σ BuildFault Unit) w = (r, w')) :
    r = .ok () ∧ TakenBack scratch h pv vname d w w' := by
  obtain ⟨s, hstands, htrail, hfits⟩ := hslot
  have hv : below s.trail ⊆ S := by
    rw [htrail]
    exact hs.tree
  obtain ⟨moved, w₂, hboth, hr⟩ := on_bind_attempt_eq.1 hr
  rw [on_bind] at hboth
  cases hrm : on (removeTreeIfThere vendored : Work σ Fault Unit) w with
  | mk removed w₁ =>
  rw [hrm] at hboth
  have hlater := ((wanes_removeTreeIfThere _).run trivial hrm).2.2
  have hkeep {d₂ : Disk} (hagree : Agree (below s.trail) (disk w) d₂) :
      d₂.subtree (keptPlace scratch h) = d.subtree (pv ++ [vname]) := by
    rw [← hk.whole]
    exact hagree.subtree fun r => htrail ▸ not_below_of_apart hs.apart_kept
  rcases removeTreeIfThere_cases hn hstands hv (Or.inr ⟨hfits, htrail ▸ hdir⟩) hrm with
    ⟨e, rfl, hleaves, hstruck⟩ | ⟨rfl, hset⟩
  · cases hboth
    cases hr
    have hagree := hleaves.agree fun t k hk => hk.1
    have hst := hstruck hfits (htrail ▸ hdir)
    exact ⟨rfl, hlater, htrail ▸ hagree.mono Set.subset_union_left,
      Or.inr ⟨hst, hkeep hagree, thinned_of_leaves hleaves⟩, Or.inr hst, thinned_of_leaves hleaves⟩
  · dsimp only at hboth
    have hagree₁ := hset.agree
    have hthin {S' : Set Trail} : Thinned S' (disk w) (disk w₁) :=
      thinned_of_leaves (leaves_of_gone hset.agree hset.subtree fun u hu => ⟨hu, rfl⟩)
    rw [htrail] at hset
    have ha₁ : Agree S d (disk w₁) := ha.trans (hset.agree.mono hs.tree)
    have hh₁ : Holding scratch host h (disk w₁) := by
      refine ⟨hh.fits, hh.check, ?_⟩
      rw [hset.agree.node _ hs.apart_holding.1]
      exact hh.dir
    obtain ⟨rfl, htaken⟩ := takenBack_of_moveBack (fun he => hn (hlater.subset he)) hs ha₁
      ⟨hk.holding, hkeep hagree₁, hk.tree⟩ hh₁ hset.subtree hboth hr
    refine ⟨rfl, htaken.later.trans hlater,
      (hset.agree.mono Set.subset_union_left).trans htaken.agree, ?_, ?_, ?_⟩
    · refine htaken.tree.imp_right fun hkept => ⟨hkept.1.since hlater, hkept.2.1, ?_⟩
      exact hthin.trans hkept.2.2
    · exact htaken.holding.imp_right fun hst => hst.since hlater
    · exact hthin.trans htaken.thinned

/-! ## The swap -/

omit [Carrier σ] [LawfulCarrier σ] in
/-- The vendored tree is moved into the holding directory, or there is none, or it cannot be moved
and the holding directory is given up. -/
theorem setAside_runs {r : Except BuildFault Previous}
    (hp : previous.holding = holdingPath scratch host)
    (hr : on (setAside previous vendored : Work σ BuildFault Previous) w = (r, w')) :
    (∃ e w₁, r = .error (.asideFailed vendored e) ∧ e ≠ .notFound ∧
        on (FileStore.rename vendored (keptPath scratch host) : Work σ Fault Unit) w =
          (.error e, w₁) ∧ on (discard previous : Work σ BuildFault Unit) w₁ = (.ok (), w')) ∨
      (r = .ok previous ∧ on (FileStore.rename vendored (keptPath scratch host) :
        Work σ Fault Unit) w = (.error .notFound, w')) ∨
      r = .ok { previous with tree? := some (keptPath scratch host) } ∧
        on (FileStore.rename vendored (keptPath scratch host) : Work σ Fault Unit) w =
          (.ok (), w') := by
  rw [setAside, hp, on_bind, on_attempt, ← keptPath] at hr
  cases hm : on (FileStore.rename vendored (keptPath scratch host) : Work σ Fault Unit) w with
  | mk moved w₁ =>
  rw [hm] at hr
  cases moved with
  | ok u =>
    cases hr
    exact Or.inr (Or.inr ⟨by rw [hp], rfl⟩)
  | error e =>
    by_cases he : e = .notFound
    · subst he
      cases hr
      exact Or.inr (Or.inl ⟨rfl, rfl⟩)
    · have hthrow : on (do
          discard previous
          throw (BuildFault.asideFailed vendored e) : Work σ BuildFault Previous) w₁ = (r, w') := by
        rw [← hr]
        cases e <;> first | exact absurd rfl he | rfl
      rw [on_bind_ok (discard_run previous w₁)] at hthrow
      cases hthrow
      exact Or.inl ⟨e, w₁, rfl, he, rfl, discard_run previous w₁⟩

/-- What a tree that was set aside says: its path led to it, and it can be moved back. -/
theorem kept_of_rename (hs : Site scratch host vendored S h pv vname d)
    (hh : Holding scratch host h d)
    (hm : d.rename vendored (keptPath scratch host) = .ok d₁)
    (hp : previous.holding = holdingPath scratch host) :
    Moved d d₁ (pv ++ [vname]) (keptPlace scratch h) ∧
      Kept scratch host vendored S h pv vname d d₁
        { previous with tree? := some (keptPath scratch host) } := by
  obtain ⟨s, k, hslot, hkept, hmove⟩ := rename_slots hm
  obtain ⟨way, hway⟩ := Path.standing_of_fileName? hs.name
  obtain ⟨hstands, hq, hn⟩ := hs.parent.stands hway hslot
  have htrail : s.trail = pv ++ [vname] := by rw [Slot.trail, hq, hn]
  have hc := (stands_of_slot? hkept).proper
  have hkeptStands := hs.stands_kept hh hc
  rw [hkeptStands.slot?] at hkept
  cases hkept
  have hne : s.trail ≠ Slot.trail ⟨h ++ [holdingName scratch], "vendored", false⟩ := by
    rw [htrail]
    exact fun he => hs.apart_kept.2 (he ▸ List.prefix_refl _)
  obtain ⟨hmoved, hmovable, -⟩ := move_moved hmove hne hkeptStands.dir
  rw [htrail] at hmoved
  refine ⟨hmoved, hp, hmoved.moved, Or.inr ⟨rfl, hc, s, hstands, htrail, hmovable.fits.1, ?_, ?_⟩⟩
  · rw [← htrail]
    exact hmovable.there
  · rw [← htrail]
    exact hmovable.kind.imp_right And.left

/-- The staged tree of the disk `d` is in place on the disk `d'`, and the previous one is kept. -/
structure Swapped (scratch : Scratch) (host vendored : Path) (S : Set Trail) (h pv : Trail)
    (vname : String) (d d' : Disk) (previous : Previous) : Prop where
  agree : Agree (below (pv ++ [vname]) ∪ below (h ++ [holdingName scratch]) ∪
    below (h ++ [stagingName scratch])) d d'
  tree : d'.subtree (pv ++ [vname]) = d.subtree (h ++ [stagingName scratch])
  staging : d'.subtree (h ++ [stagingName scratch]) = nothing
  holding : Holding scratch host h d'
  kept : Kept scratch host vendored S h pv vname d d' previous
  slot : ∃ s, Stands d' S vendored s ∧ s.trail = pv ++ [vname] ∧ isTooLong s.name = false

/-- The staged tree moves into a free place while the previous one is kept. -/
theorem place_spec {d₂ : Disk} (hs : Site scratch host vendored S h pv vname d)
    (ha : Agree (below (pv ++ [vname]) ∪ below (h ++ [holdingName scratch])) d d₁)
    (hk : Kept scratch host vendored S h pv vname d d₁ previous)
    (hh : Holding scratch host h d₁)
    (hm : d₁.rename (stagingPath scratch host) vendored = .ok d₂) :
    Swapped scratch host vendored S h pv vname d d₂ previous := by
  have hsub : below (pv ++ [vname]) ∪ below (h ++ [holdingName scratch]) ⊆ S :=
    Set.union_subset hs.tree hs.holding
  have hs₁ := hs.agree (ha.mono hsub)
  obtain ⟨k, s, hk', hslot, hmove⟩ := rename_slots hm
  obtain ⟨way, hway⟩ := Path.standing_of_fileName? hs.name
  obtain ⟨hstands, hq, hn⟩ := hs₁.parent.stands hway hslot
  have htrail : s.trail = pv ++ [vname] := by rw [Slot.trail, hq, hn]
  have hstaging := hs₁.stands_staging (stands_of_slot? hk').proper
  rw [hstaging.slot?] at hk'
  cases hk'
  have hne : Slot.trail ⟨h, stagingName scratch, false⟩ ≠ s.trail := by
    rw [htrail]
    exact hs.apart.1.symm
  obtain ⟨hmoved, hmovable, -⟩ := move_moved hmove hne hstands.dir
  rw [htrail] at hmoved
  have hq : Slot.trail ⟨h, stagingName scratch, false⟩ = h ++ [stagingName scratch] := rfl
  rw [hq] at hmoved
  have hagree : Agree S d₁ d₂ := hmoved.agree.mono (Set.union_subset hs.staging hs.tree)
  refine ⟨?_, ?_, hmoved.gone, ⟨hh.fits, hh.check, ?_⟩, ⟨hk.holding, ?_, hk.tree⟩,
    s, hstands.agree hagree, htrail, hmovable.fits.2⟩
  · refine (ha.mono Set.subset_union_left).trans (hmoved.agree.mono ?_)
    exact Set.union_subset Set.subset_union_right
      (Set.subset_union_left.trans Set.subset_union_left)
  · rw [hmoved.moved]
    refine ha.subtree fun r => not_or.2 ⟨?_, ?_⟩
    · exact not_below_of_apart hs.apart_staging.symm
    · exact not_below_of_apart hs.apart_reserved.symm
  · rw [hmoved.agree.node _ (not_or.2 ⟨hs.apart_reserved.2, hs.apart_holding.1⟩)]
    exact hh.dir
  · rw [← hk.whole]
    refine hmoved.agree.subtree fun r => not_or.2 ⟨?_, ?_⟩
    · intro hp
      have hk : h ++ [holdingName scratch] <+: keptPlace scratch h ++ r :=
        kept_below_holding scratch h (List.prefix_append _ _)
      rcases List.prefix_or_prefix_of_prefix hp hk with hp | hp
      · exact hs.apart_reserved.2 hp
      · exact hs.apart_reserved.1 hp
    · exact not_below_of_apart hs.apart_kept

/-- The second half of a swap. -/
def placing (staged vendored : Path) (previous : Previous) : Work σ BuildFault Previous := do
  match ← attempt (FileStore.rename staged vendored) with
  | .ok () => return previous
  | .error cause =>
    takingBack previous vendored
    throw (.placeFailed cause)

theorem join_ne_empty {p : Path} {rel : String} (h : rel ≠ "") : (p.join rel).text ≠ "" := by
  unfold Path.join
  split
  · exact h
  · split <;> simp [h]

/-- What is not found when it is to be moved to a place that is there, is not there itself. -/
theorem none_of_rename_notFound {p q : Path} {k : Slot} (hs : d.slot? p = .ok s)
    (hne : q.text ≠ "") (hk : Disk.check q = .ok () → d.slot? q = .ok k)
    (hnot : d.rename p q = .error .notFound) : d.node? s.trail = none := by
  rw [Disk.rename, hs] at hnot
  cases hc : Disk.check q with
  | error e =>
    have hq : d.slot? q = .error e := by
      rw [Disk.slot?, hc]
      rfl
    rw [hq] at hnot
    cases hnot
    exact absurd hc (check_ne_notFound hne)
  | ok u =>
    rw [hk hc] at hnot
    exact none_of_move_notFound hnot

/-- If there was nothing to set aside, and yet the staged tree moves into place, the place was
free. -/
theorem free_of_notFound (hs : Site scratch host vendored S h pv vname d)
    (hh : Holding scratch host h d)
    (hnot : d.rename vendored (keptPath scratch host) = .error .notFound)
    (hm : d.rename (stagingPath scratch host) vendored = .ok d') :
    d.node? (pv ++ [vname]) = none := by
  obtain ⟨_, s, -, hslot, -⟩ := rename_slots hm
  obtain ⟨way, hway⟩ := Path.standing_of_fileName? hs.name
  obtain ⟨-, hq, hn⟩ := hs.parent.stands hway hslot
  have htrail : s.trail = pv ++ [vname] := by rw [Slot.trail, hq, hn]
  rw [← htrail]
  exact none_of_rename_notFound hslot (join_ne_empty (by decide))
    (fun hc => (hs.stands_kept hh hc).slot?) hnot


omit [Carrier σ] [LawfulCarrier σ] in
theorem swapIn_eq (staged vendored : Path) (previous : Previous) :
    (swapIn staged vendored previous : Work σ BuildFault Previous) =
      setAside previous vendored >>= placing staged vendored := by
  unfold swapIn
  congr 1
  funext previous
  unfold placing
  congr 1
  funext r
  cases r with
  | ok u => rfl
  | error cause =>
    simp only [takingBack, bind_assoc]
    congr 1
    funext moved
    cases moved <;> simp [discardIf]

omit [Carrier σ] [LawfulCarrier σ] in
/-- The staged tree is moved into place, or what was set aside is moved back. -/
theorem placing_runs {staged : Path} {r : Except BuildFault Previous}
    (hr : on (placing staged vendored previous : Work σ BuildFault Previous) w = (r, w')) :
    (r = .ok previous ∧
        on (FileStore.rename staged vendored : Work σ Fault Unit) w = (.ok (), w')) ∨
      ∃ e w₁, r = .error (.placeFailed e) ∧
        on (FileStore.rename staged vendored : Work σ Fault Unit) w = (.error e, w₁) ∧
        on (takingBack previous vendored : Work σ BuildFault Unit) w₁ = (.ok (), w') := by
  obtain ⟨moved, w₁, hmove, hr⟩ := on_bind_attempt_eq.1 hr
  cases moved with
  | ok u =>
    cases hr
    exact Or.inl ⟨rfl, hmove⟩
  | error e =>
    obtain ⟨w₂, hback⟩ := takingBack_run previous vendored w₁
    rw [on_bind_ok hback] at hr
    cases hr
    exact Or.inr ⟨e, w₁, rfl, hmove, hback⟩

/-- A swap that fails, at `f`, and what it takes back then, up to `t`. -/
inductive SwapFails (scratch : Scratch) (host vendored : Path) (previous : Previous) (w : σ) :
    (f t : σ) → Prop
  | aside {f t : σ} {e : Fault} (he : e ≠ .notFound)
      (hm : on (FileStore.rename vendored (keptPath scratch host) : Work σ Fault Unit) w =
        (.error e, f))
      (hd : on (discard previous : Work σ BuildFault Unit) f = (.ok (), t)) :
      SwapFails scratch host vendored previous w f t
  | placing {w₁ f t : σ} {e : Fault} {kept : Previous}
      (ha : on (setAside previous vendored : Work σ BuildFault Previous) w = (.ok kept, w₁))
      (hm : on (FileStore.rename (stagingPath scratch host) vendored : Work σ Fault Unit) w₁ =
        (.error e, f))
      (hb : on (takingBack kept vendored : Work σ BuildFault Unit) f = (.ok (), t)) :
      SwapFails scratch host vendored previous w f t

theorem SwapFails.later {f t : σ} (h : SwapFails scratch host vendored previous w f t) :
    refusals t <:+ refusals f := by
  cases h with
  | aside _ hm hd => exact ((wanes_discard _).run trivial hd).2.2
  | placing ha hm hb => exact ((wanes_takingBack _ _).run trivial hb).2.2

omit [Carrier σ] [LawfulCarrier σ] in
/-- A swap fails, or it moves the previous tree aside and the staged one into its place. -/
theorem swapIn_runs {r : Except BuildFault Previous}
    (hp : previous.holding = holdingPath scratch host)
    (hr : on (swapIn (stagingPath scratch host) vendored previous : Work σ BuildFault Previous)
      w = (r, w')) :
    (∃ e f, r = .error e ∧ SwapFails scratch host vendored previous w f w') ∨
      ∃ kept w₁, r = .ok kept ∧
        on (setAside previous vendored : Work σ BuildFault Previous) w = (.ok kept, w₁) ∧
        on (FileStore.rename (stagingPath scratch host) vendored : Work σ Fault Unit) w₁ =
          (.ok (), w') := by
  rw [swapIn_eq] at hr
  cases haside : on (setAside previous vendored : Work σ BuildFault Previous) w with
  | mk aside w₁ =>
  cases aside with
  | error e =>
    rw [on_bind_error haside] at hr
    cases hr
    rcases setAside_runs hp haside with ⟨_, f, -, hnot, hmove, hdiscard⟩ | ⟨he, -⟩ | ⟨he, -⟩
    · exact Or.inl ⟨e, f, rfl, .aside hnot hmove hdiscard⟩
    · cases he
    · cases he
  | ok kept =>
    rw [on_bind_ok haside] at hr
    rcases placing_runs hr with ⟨rfl, hplace⟩ | ⟨e, f, rfl, hplace, hback⟩
    · exact Or.inr ⟨kept, w₁, rfl, rfl, hplace⟩
    · exact Or.inl ⟨_, f, rfl, .placing haside hplace hback⟩

/-- The previous tree is kept and its place is free, or there was nothing to set aside. -/
structure SetAside (scratch : Scratch) (host vendored : Path) (S : Set Trail) (h pv : Trail)
    (vname : String) (d d' : Disk) (kept : Previous) : Prop where
  agree : Agree (below (pv ++ [vname]) ∪ below (h ++ [holdingName scratch])) d d'
  dir : Holding scratch host h d'
  holding : kept.holding = holdingPath scratch host
  tree : kept.tree? = none ∧ d' = d ∧
      d.rename vendored (keptPath scratch host) = .error .notFound ∨
    d'.subtree (pv ++ [vname]) = nothing ∧ Kept scratch host vendored S h pv vname d d' kept

theorem setAside_ok_of_site {kept : Previous} (hn : .notFound ∉ refusals w)
    (hs : Site scratch host vendored S h pv vname (disk w)) (hh : Holding scratch host h (disk w))
    (hp : previous.holding = holdingPath scratch host) (hnone : previous.tree? = none)
    (hr : on (setAside previous vendored : Work σ BuildFault Previous) w = (.ok kept, w₁)) :
    refusals w₁ <:+ refusals w ∧ kept.aliases? = previous.aliases? ∧
      SetAside scratch host vendored S h pv vname (disk w) (disk w₁) kept := by
  rcases setAside_runs hp hr with ⟨_, _, he, -⟩ | ⟨he, hmove⟩ | ⟨he, hmove⟩
  · cases he
  · cases he
    obtain ⟨hlater, ⟨he, -⟩ | ⟨_, he, hsame, hcause⟩⟩ := rename_run hmove
    · cases he
    cases he
    have hnot := hcause.resolve_right fun hm => hn hm.2
    exact ⟨hlater, rfl, hsame ▸ .refl _ _, hsame ▸ hh, hp, Or.inl ⟨hnone, hsame, hnot⟩⟩
  · cases he
    obtain ⟨hlater, ⟨-, hok⟩ | ⟨_, he, -⟩⟩ := rename_run hmove
    swap
    · cases he
    obtain ⟨hmoved, hk⟩ := kept_of_rename hs hh hok hp
    have hwide := Set.union_subset_union_right (below (pv ++ [vname])) (kept_below_holding scratch h)
    exact ⟨hlater, rfl, hmoved.agree.mono hwide, holding_dir_of_agree hs hmoved.agree hh, hp,
      Or.inr ⟨hmoved.gone, hk⟩⟩

/-- A swap that fails takes back what it did. -/
theorem SwapFails.takenBack {f t : σ} (hf : SwapFails scratch host vendored previous w f t)
    (hn : .notFound ∉ refusals w) (hs : Site scratch host vendored S h pv vname (disk w))
    (hh : Holding scratch host h (disk w)) (hp : previous.holding = holdingPath scratch host)
    (hnone : previous.tree? = none) :
    refusals f <:+ refusals w ∧
      Agree (below (pv ++ [vname]) ∪ below (h ++ [holdingName scratch])) (disk w) (disk f) ∧
      TakenBack scratch h pv vname (disk w) f t := by
  cases hf with
  | aside _ hm hd =>
    obtain ⟨hlater, ⟨he, -⟩ | ⟨_, -, hsame, -⟩⟩ := rename_run hm
    · cases he
    have hn' : .notFound ∉ refusals f := fun he => hn (hlater.subset he)
    exact ⟨hlater, hsame ▸ .refl _ _,
      (takenBack_of_discard hn' (hsame ▸ hs) (hsame ▸ hh) hp (by rw [hsame]) hd).2⟩
  | placing ha hm hb =>
    obtain ⟨hlater₁, -, haside⟩ := setAside_ok_of_site hn hs hh hp hnone ha
    obtain ⟨hlater, ⟨he, -⟩ | ⟨_, -, hsame, -⟩⟩ := rename_run hm
    · cases he
    have hn' : .notFound ∉ refusals f := fun he => hn ((hlater.trans hlater₁).subset he)
    have hagree := haside.agree
    have hdir := haside.dir
    rw [← hsame] at hagree hdir
    refine ⟨hlater.trans hlater₁, hagree, ?_⟩
    obtain ⟨moved, w₂, hmoveBack, hif⟩ := on_bind_attempt_eq.1 hb
    rcases haside.tree with ⟨hempty, hd, -⟩ | ⟨hgone, hk⟩
    · rw [moveBack, hempty] at hmoveBack
      cases hmoveBack
      have hf := hsame.trans hd
      exact (takenBack_of_discard hn' (hf ▸ hs) hdir haside.holding (by rw [hf]) hif).2
    · have hsub : below (pv ++ [vname]) ∪ below (h ++ [holdingName scratch]) ⊆ S :=
        Set.union_subset hs.tree hs.holding
      exact (takenBack_of_moveBack hn' hs (hagree.mono hsub) (hsame ▸ hk) hdir (hsame ▸ hgone)
        hmoveBack hif).2

/-- A swap that works puts the staged tree into place. -/
theorem swapped_of_setAside {kept : Previous} {d₂ : Disk}
    (ha : SetAside scratch host vendored S h pv vname d d₁ kept)
    (hs : Site scratch host vendored S h pv vname d) (hh : Holding scratch host h d)
    (hempty : d.subtree (keptPlace scratch h) = nothing)
    (hm : d₁.rename (stagingPath scratch host) vendored = .ok d₂) :
    Swapped scratch host vendored S h pv vname d d₂ kept := by
  rcases ha.tree with ⟨hnone, rfl, hnot⟩ | ⟨-, hk⟩
  · have hfree := free_of_notFound hs hh hnot hm
    refine place_spec hs (.refl _ _) ⟨ha.holding, ?_, Or.inl ⟨hnone, hfree⟩⟩ hh hm
    rw [hempty, subtree_of_none hfree]
  · exact place_spec hs ha.agree hk ha.dir hm

end Vendoring.BuildPlan
