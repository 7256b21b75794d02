import Vendoring.Proofs.Files.Canonical

/-! What a reader finds at a path. It comes through the directory of the path or finds nothing, and
it goes on finding the same while a disk grows, unless its path leads to the very file that is
new. -/
namespace Vendoring.Files
namespace Disk
open Outcome

/-- What a reader finds at a path, behind all links: a file with what it holds, or a directory. -/
def shown (d : Disk) (p : Path) : Option Node := (d.held true p).toOption.map (·.2.node)

/-- There is nothing at a path, not even a link. -/
def Vacant (d : Disk) (p : Path) : Prop := ∀ x, d.held false p ≠ .ok x

/-- Two paths lead to one place, where nothing is yet. -/
def Aims (d : Disk) (p p' : Path) : Prop :=
  ∃ q name, d.find true p = .ok (.free q name) ∧ d.find true p' = .ok (.free q name)

variable {d d' : Disk} {S : Set Trail} {p : Path} {q t place : Trail} {name : String}
  {steps way : List String} {links links' : Nat} {follow : Bool} {spot : Spot} {k : Node}
  {bytes : ByteArray}

theorem shown_eq_some : d.shown p = some k ↔ ∃ t x, d.held true p = .ok (t, x) ∧ x.node = k := by
  simp [shown, toOption_eq_some]

theorem shown_of_contents (h : d.contents p = .ok bytes) : d.shown p = some (.file bytes) := by
  obtain ⟨t, hheld⟩ := held_of_contents h
  exact shown_eq_some.2 ⟨t, _, hheld, rfl⟩

/-! ## The way to the directory of a path -/

/-- A walk that has steps left is in a directory. -/
theorem dir_of_walk (hm : steps ≠ []) (h : d.walk follow links place steps = .ok spot) :
    d.node? place = some .directory := by
  obtain ⟨s, rest, rfl⟩ := List.exists_cons_of_ne_nil hm
  have hon : ∃ onward, d.walk follow links = d.walkOn follow onward := by
    cases links <;> exact ⟨_, rfl⟩
  obtain ⟨onward, hw⟩ := hon
  rw [hw, walkOn] at h
  split at h
  · cases h
  · next es he => exact node?_eq_directory.2 ⟨es, he⟩
  · cases h

/-- What stands before the name of a path leads to its directory. -/
theorem leads_of_standing (hs : Path.Standing p way name)
    (hw : Way d S linkLimit (startOf p d.here) way links q [])
    (hd : d.node? q = some .directory) : Leads d S p.directory q := by
  rcases hs.directory with ⟨hsteps, ha⟩ | ⟨hdir, rfl, ha⟩
  · refine ⟨⟨links, ?_⟩, hd⟩
    rwa [hsteps, startOf, ha]
  · obtain ⟨-, rfl, -⟩ := hw.eq_of_nil
    have hoff := hw.off_end
    rw [startOf, ha] at hoff hd
    rw [startOf, ha, hdir]
    exact ⟨⟨linkLimit, way_dots hoff hd 1⟩, hd⟩

/-- What is found at a path is behind an entry of the directory of the path. -/
theorem entry_of_shown (hp : p.fileName? = some name) (h : d.shown p = some k) :
    ∃ q, Leads d ∅ p.directory q ∧ d.node? (q ++ [name]) ≠ none := by
  obtain ⟨way, hs⟩ := Path.standing_of_fileName? hp
  obtain ⟨t, x, hheld, -⟩ := shown_eq_some.1 h
  obtain ⟨⟨l, hw⟩, -⟩ := way_of_held hheld
  obtain ⟨m, n, hsteps⟩ := hs.steps
  rw [stepsOf, hsteps, List.append_assoc, List.append_assoc, List.cons_append] at hw
  obtain ⟨l₁, q, hfront, hrest⟩ := hw.split
  obtain ⟨l₂, q', hdots, hname⟩ := hrest.split
  obtain ⟨rfl, rfl⟩ := hdots.dots
  obtain ⟨-, hdir, hnext⟩ := hname.next
  refine ⟨q', leads_of_standing hs hfront hdir, ?_⟩
  rcases hnext with ⟨is, _⟩ | ⟨is, _⟩ | ⟨-, -, next, -, -⟩ | ⟨-, -, -, -, next, -⟩
  · exact absurd is hs.plain.1
  · exact absurd is hs.plain.2
  · simp [next]
  · simp [next]

theorem shown_eq_none (hp : p.fileName? = some name) (h : ∀ q, ¬ Leads d ∅ p.directory q) :
    d.shown p = none := by
  refine Option.eq_none_iff_forall_ne_some.2 fun k hk => ?_
  obtain ⟨q, hl, -⟩ := entry_of_shown hp hk
  exact h q hl

/-- A path behind a plain name is found through the path before it. -/
theorem leads_of_find (hn : ProperName name) (h : d.find follow (p.join name) = .ok spot) :
    ∃ q, Leads d ∅ p q := by
  obtain ⟨⟨⟩, -, hw⟩ := bind_eq_ok.1 h
  rw [stepsOf, steps_child hn, start_child hn, List.append_assoc] at hw
  obtain ⟨l, q, hway, hend⟩ := walk_front (Or.inl (by simp)) hw
  exact ⟨q, ⟨l, hway⟩, dir_of_walk (by simp) hend⟩

/-- Nothing is at a plain name if the directory before it holds no such entry, or cannot be reached,
or if the system does not take the name. -/
theorem vacant_iff (hn : ProperName name) : d.Vacant (p.join name) ↔ ∀ q, Leads d ∅ p q →
    check (p.join name) = .ok () → isTooLong name = false → d.node? (q ++ [name]) = none := by
  constructor
  · intro h q hl hc hfits
    have hs := hl.child hn hc
    cases hx : d.get? (q ++ [name]) with
    | none => exact node?_eq_none.2 hx
    | some x =>
      have hfind : d.find false (p.join name) = .ok (.held (q ++ [name]) x) := by
        cases x with
        | file bytes => exact hs.find_file hfits hx
        | link target => exact hs.find_link hfits hx rfl
        | directory es => exact hs.find_directory hfits hx
      exact absurd (by rw [held, hfind]; rfl) (h (q ++ [name], x))
  · intro h x hheld
    obtain ⟨spot, hfind, -⟩ := bind_eq_ok.1 hheld
    obtain ⟨q, hl⟩ := leads_of_find hn hfind
    have hc := check_of_held hheld
    have hs := hl.child hn hc
    have hfits : isTooLong name = false := by
      rw [← Bool.not_eq_true]
      intro hlong
      rw [hs.find_long hlong] at hfind
      cases hfind
    rw [hs.held_none hfits (h q hl hc hfits)] at hheld
    cases hheld

/-! ## Disks that grow -/

/-- What is found at a path is found there when more comes to be on the disk. -/
theorem shown_grow (hh : d'.here = d.here)
    (hd : ∀ t k, d.node? t = some k → d'.node? t = some k) (h : d.shown p = some k) :
    d'.shown p = some k := by
  obtain ⟨t, x, hheld, rfl⟩ := shown_eq_some.1 h
  obtain ⟨⟨l, hw⟩, hx⟩ := way_of_held hheld
  obtain ⟨x', hx', hnode⟩ := node?_eq_some.1 (hd t _ (node?_of_get? hx))
  have hw' : Way d' ∅ linkLimit (startOf p d'.here) (stepsOf p) l t [] := hh ▸ hw.grow hd
  exact shown_eq_some.2 ⟨t, x', held_of_way hw' hx' (check_of_held hheld), hnode⟩

/-- A reader sees nothing of two disks but what stands at their places. -/
theorem shown_congr (h : Agree ∅ d d') : d'.shown p = d.shown p := by
  have hsame (t : Trail) : d'.node? t = d.node? t := h.node t id
  refine Option.ext fun k => ⟨fun hk => ?_, fun hk => ?_⟩
  · exact shown_grow h.here.symm (fun t k ht => (hsame t).symm.trans ht) hk
  · exact shown_grow h.here (fun t k ht => (hsame t).trans ht) hk

section Fresh
variable {u : Trail} (hfile : d'.node? u = some (.file bytes))
  (hold : ∀ t k, d'.node? t = some k → t = u ∨ d.node? t = some k)
include hfile hold

theorem old_of_directory (h : d'.node? t = some .directory) :
    t ≠ u ∧ d.node? t = some .directory := by
  have hne : t ≠ u := by
    rintro rfl
    rw [hfile] at h
    cases h
  exact ⟨hne, (hold t _ h).resolve_left hne⟩

/-- A way that does not end at the new file was there before. -/
theorem Way.before (h : Way d' ∅ links place steps links' t []) (ht : t ≠ u) :
    Way d ∅ links place steps links' t [] := by
  generalize hn : ([] : List String) = left at h
  induction h with
  | stop off => exact .stop off
  | stay off dir on ih => exact .stay off (old_of_directory hfile hold dir).2 (ih ht hn)
  | up off dir on ih => exact .up off (old_of_directory hfile hold dir).2 (ih ht hn)
  | @down _ place name k rest _ _ _ off dir plain fits next tree on ih =>
    subst hn
    refine .down off (old_of_directory hfile hold dir).2 plain fits
      ((hold _ _ next).resolve_left fun he => ht ?_) tree (ih ht rfl)
    -- From the new file a way does not go on.
    rw [he] at on
    cases rest with
    | nil => exact on.eq_of_nil.2.1
    | cons s r => exact absurd rfl (old_of_directory hfile hold (on.next.2.1)).1
  | link off dir plain fits offLink next on ih =>
    refine .link off (old_of_directory hfile hold dir).2 plain fits offLink
      ((hold _ _ next).resolve_left ?_) (ih ht hn)
    rintro rfl
    rw [hfile] at next
    cases next

/-- A walk that ends at the new file ended before where there was room for it. -/
theorem Way.room (hu : u = q ++ [name]) (hfree : d.node? u = none)
    (h : Way d' ∅ links place steps links' u []) (hne : place ≠ u) :
    d.walk true links place steps = .ok (.free q name) := by
  generalize hn : ([] : List String) = left at h
  generalize ht : u = t at h
  induction h with
  | stop off => exact absurd ht.symm hne
  | stay off dir on ih =>
    rw [walk_stay (old_of_directory hfile hold dir).2]
    exact ih hne hn ht
  | @up l place rest _ _ _ off dir on ih =>
    have hup : place.dropLast ≠ u := by
      rcases List.eq_nil_or_concat place with rfl | ⟨v, s, rfl⟩
      · simp [hu]
      · rw [List.concat_eq_append] at dir ⊢
        rw [List.dropLast_concat]
        exact (old_of_directory hfile hold (node?_of_append dir)).1
    rw [walk_up (old_of_directory hfile hold dir).2]
    exact ih hup hn ht
  | @down l place s k rest _ _ _ off dir plain fits next tree on ih =>
    subst hn
    obtain ⟨-, hold'⟩ := old_of_directory hfile hold dir
    by_cases he : place ++ [s] = u
    · obtain ⟨rfl, hs⟩ := List.append_inj' (he.trans hu) rfl
      obtain rfl := List.head_eq_of_cons_eq hs
      have hrest : rest = [] := by
        rw [he] at on
        cases rest with
        | nil => rfl
        | cons s r => exact absurd rfl (old_of_directory hfile hold (on.next.2.1)).1
      rw [hrest]
      exact walk_free hold' plain fits (he ▸ hfree)
    · rw [walk_down hold' plain fits ((hold _ _ next).resolve_left he) tree]
      exact ih he rfl ht
  | @link l place s target rest _ _ _ off dir plain fits offLink next on ih =>
    obtain ⟨hplace, hold'⟩ := old_of_directory hfile hold dir
    have hnext : d.node? (place ++ [s]) = some (.link target) := by
      refine (hold _ _ next).resolve_left ?_
      rintro he
      rw [he, hfile] at next
      cases next
    have hstart : startOf ⟨target⟩ place ≠ u := by
      rw [startOf]
      split
      · simp [hu]
      · exact hplace
    obtain ⟨es, hd⟩ := node?_eq_directory.1 hold'
    rw [← ih hstart hn ht, walk, walkOn_name hd plain fits, node?_eq_link.1 hnext]
    exact if_neg fun hc => hc.2 rfl

end Fresh

/-- A new file changes what a reader finds only if the path of the reader leads to where it is. -/
theorem shown_fresh (hset : Sets d d' (q ++ [name]) (Tree.file bytes).node?)
    (hfree : d.node? (q ++ [name]) = none) :
    d'.shown p = d.shown p ∨ d.find true p = .ok (.free q name) := by
  have hfile : d'.node? (q ++ [name]) = some (.file bytes) := by
    rw [← subtree_nil, hset.subtree]
    rfl
  have hold (t : Trail) (k : Node) (ht : d'.node? t = some k) :
      t = q ++ [name] ∨ d.node? t = some k := by
    by_cases hu : q ++ [name] <+: t
    · obtain ⟨r, rfl⟩ := hu
      refine Or.inl ?_
      obtain ⟨rfl, -⟩ := node?_file bytes ((congrFun hset.subtree r).symm.trans ht)
      exact List.append_nil _
    · exact Or.inr ((hset.agree.node t hu).symm.trans ht)
  have hgrow (t : Trail) (k : Node) (ht : d.node? t = some k) : d'.node? t = some k := by
    refine (hset.agree.node t ?_).trans ht
    rintro ⟨r, rfl⟩
    rw [node?_append_of_none hfree] at ht
    cases ht
  cases hs : d'.shown p with
  | none =>
    refine Or.inl (Option.eq_none_iff_forall_ne_some.2 fun k hk => ?_).symm
    rw [shown_grow hset.agree.here hgrow hk] at hs
    cases hs
  | some k =>
    obtain ⟨t, x, hheld, rfl⟩ := shown_eq_some.1 hs
    obtain ⟨⟨l, hw⟩, hx⟩ := way_of_held hheld
    have hc := check_of_held hheld
    rw [hset.agree.here] at hw
    by_cases ht : t = q ++ [name]
    · subst ht
      have htext : p.text ≠ "" := by
        intro he
        rw [check, he] at hc
        cases hc
      have hstart := (old_of_directory hfile hold (hw.dir_of_steps (stepsOf_ne_nil htext))).1
      refine Or.inr ?_
      rw [find, hc]
      exact hw.room hfile hold rfl hfree hstart
    · obtain ⟨x', hx', hnode⟩ := node?_eq_some.1 ((hold t _ (node?_of_get? hx)).resolve_left ht)
      have hheld' := held_of_way (hw.before hfile hold ht) hx' hc
      exact Or.inl (shown_eq_some.2 ⟨t, x', hheld', hnode⟩).symm

end Disk
end Vendoring.Files
