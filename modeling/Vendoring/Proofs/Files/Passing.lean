import Vendoring.Proofs.Files.Region

/-! Where walks pass. A way to a directory goes on existing wherever its places can still be passed
as before, and where two disks both let a path pass they lead it to the same place. -/
namespace Vendoring.Files

namespace Disk
open Outcome

/-- A walk may go on from a place: it is a directory or a link. -/
def Passable (d : Disk) (t : Trail) : Prop :=
  d.node? t = some .directory ∨ ∃ target, d.node? t = some (.link target)

variable {d d' d'' : Disk} {S S' : Set Trail} {p : Path} {place q q' t : Trail}
  {name step : String} {steps rest : List String} {links n l l' : Nat} {s s' : Slot}
  {bytes : ByteArray}

theorem not_passable_of_none (h : d.node? t = none) : ¬ d.Passable t := by
  rintro (hd | ⟨_, hd⟩) <;> rw [h] at hd <;> cases hd

theorem not_passable_of_file (h : d.node? t = some (.file bytes)) : ¬ d.Passable t := by
  rintro (hd | ⟨_, hd⟩) <;> rw [h] at hd <;> cases hd

theorem Passable.of_eq (h : d.Passable t) (hn : d'.node? t = d.node? t) : d'.Passable t := by
  rw [Passable, hn]
  exact h

/-- What a way does with its next step. -/
inductive Next (d : Disk) (S : Set Trail) (links : Nat) (place : Trail) (step : String)
    (rest : List String) (l : Nat) (q : Trail) : Prop
  | stay (is : step = ".") (on : Way d S links place rest l q [])
  | up (is : step = "..") (on : Way d S links place.dropLast rest l q [])
  | down {k : Node} (plain : step ≠ "." ∧ step ≠ "..") (fits : isTooLong step = false)
      (next : d.node? (place ++ [step]) = some k) (tree : ∀ target, k ≠ .link target)
      (on : Way d S links (place ++ [step]) rest l q [])
  | link {n : Nat} {target : String} (plain : step ≠ "." ∧ step ≠ "..")
      (fits : isTooLong step = false) (more : links = n + 1) (off : place ++ [step] ∉ S)
      (next : d.node? (place ++ [step]) = some (.link target))
      (on : Way d S n (startOf ⟨target⟩ place) (stepsOf ⟨target⟩ ++ rest) l q [])

theorem Way.next (h : Way d S links place (step :: rest) l q []) :
    place ∉ S ∧ d.node? place = some .directory ∧ Next d S links place step rest l q := by
  generalize hs : step :: rest = steps at h
  generalize hn : ([] : List String) = left at h
  cases h with
  | stop _ =>
    subst hn
    cases hs
  | stay off dir on =>
    subst hn
    obtain ⟨rfl, rfl⟩ := List.cons.inj hs
    exact ⟨off, dir, .stay rfl on⟩
  | up off dir on =>
    subst hn
    obtain ⟨rfl, rfl⟩ := List.cons.inj hs
    exact ⟨off, dir, .up rfl on⟩
  | down off dir plain fits next tree on =>
    subst hn
    obtain ⟨rfl, rfl⟩ := List.cons.inj hs
    exact ⟨off, dir, .down plain fits next tree on⟩
  | link off dir plain fits offLink next on =>
    subst hn
    obtain ⟨rfl, rfl⟩ := List.cons.inj hs
    exact ⟨off, dir, .link plain fits rfl offLink next on⟩

/-- The steps decide where a way ends, whatever it avoids and however many links it may follow. -/
theorem Way.unique (h : Way d S links place steps l q []) (h' : Way d S' n place steps l' q' []) :
    q' = q := by
  generalize hn : ([] : List String) = left at h
  induction h generalizing n with
  | stop off =>
    subst hn
    exact h'.eq_of_nil.2.1
  | stay off dir on ih =>
    obtain ⟨-, -, ⟨_, on'⟩ | ⟨is, _⟩ | ⟨plain, -⟩ | ⟨plain, -⟩⟩ := h'.next
    · exact ih on' hn
    · exact absurd is (by decide)
    · exact absurd rfl plain.1
    · exact absurd rfl plain.1
  | up off dir on ih =>
    obtain ⟨-, -, ⟨is, _⟩ | ⟨_, on'⟩ | ⟨plain, -⟩ | ⟨plain, -⟩⟩ := h'.next
    · exact absurd is (by decide)
    · exact ih on' hn
    · exact absurd rfl plain.2
    · exact absurd rfl plain.2
  | down off dir plain fits next tree on ih =>
    obtain ⟨-, -, ⟨is, _⟩ | ⟨is, _⟩ | ⟨-, -, -, -, on'⟩ | ⟨-, -, -, -, next', -⟩⟩ := h'.next
    · exact absurd is plain.1
    · exact absurd is plain.2
    · exact ih on' hn
    · rw [next] at next'
      cases next'
      exact absurd rfl (tree _)
  | link off dir plain fits offLink next on ih =>
    obtain ⟨-, -, ⟨is, _⟩ | ⟨is, _⟩ | ⟨-, -, next', tree, -⟩ | ⟨-, -, -, -, next', on'⟩⟩ := h'.next
    · exact absurd is plain.1
    · exact absurd is plain.2
    · rw [next] at next'
      cases next'
      exact absurd rfl (tree _)
    · rw [next] at next'
      cases next'
      exact ih on' hn

/-- A way to a directory passes on each disk on which its places are as they were. -/
theorem Way.carry (h : Way d S links place steps l q []) (hq : d.node? q = some .directory)
    (hd : ∀ t ∉ S, d.Passable t → d'.node? t = d.node? t ∧ t ∉ S') :
    Way d' S' links place steps l q [] := by
  generalize hn : ([] : List String) = left at h
  induction h with
  | stop off =>
    subst hn
    exact .stop (hd _ off (Or.inl hq)).2
  | stay off dir on ih =>
    obtain ⟨hsame, hoff⟩ := hd _ off (Or.inl dir)
    exact .stay hoff (hsame.trans dir) (ih hq hn)
  | up off dir on ih =>
    obtain ⟨hsame, hoff⟩ := hd _ off (Or.inl dir)
    exact .up hoff (hsame.trans dir) (ih hq hn)
  | down off dir plain fits next tree on ih =>
    obtain ⟨hsame, hoff⟩ := hd _ off (Or.inl dir)
    subst hn
    obtain ⟨hsame', -⟩ := hd _ on.off_start (Or.inl (on.dir_of_end hq))
    exact .down hoff (hsame.trans dir) plain fits (hsame'.trans next) tree (ih hq rfl)
  | link off dir plain fits offLink next on ih =>
    obtain ⟨hsame, hoff⟩ := hd _ off (Or.inl dir)
    obtain ⟨hsame', hoff'⟩ := hd _ offLink (Or.inr ⟨_, next⟩)
    exact .link hoff (hsame.trans dir) plain fits hoff' (hsame'.trans next) (ih hq hn)

/-- The places that two disks both let pass hold the same on both. -/
def Alike (d d' : Disk) : Prop := ∀ t, d.Passable t → d'.Passable t → d'.node? t = d.node? t

/-- The places that one of two disks does not let pass. -/
def barred (d d' : Disk) : Set Trail := {t | ¬ (d.Passable t ∧ d'.Passable t)}

theorem Way.twin (ha : Alike d d') (h : Way d S links place steps l q [])
    (hq : d.node? q = some .directory) (h' : Way d' S' n place steps l' q' [])
    (hq' : d'.node? q' = some .directory) :
    q' = q ∧ Way d (S ∪ S' ∪ barred d d') links place steps l q [] := by
  have hoff {t : Trail} (hs : t ∉ S) (hs' : t ∉ S') (hd : d.Passable t) (hd' : d'.Passable t) :
      t ∉ S ∪ S' ∪ barred d d' := by
    rintro ((hm | hm) | hm)
    · exact hs hm
    · exact hs' hm
    · exact hm ⟨hd, hd'⟩
  generalize hn : ([] : List String) = left at h
  induction h generalizing n with
  | stop off =>
    subst hn
    obtain ⟨-, rfl, -⟩ := h'.eq_of_nil
    exact ⟨rfl, .stop (hoff off h'.off_start (Or.inl hq) (Or.inl hq'))⟩
  | stay off dir on ih =>
    obtain ⟨off', dir', ⟨_, on'⟩ | ⟨is, _⟩ | ⟨plain, -⟩ | ⟨plain, -⟩⟩ := h'.next
    · obtain ⟨he, hway⟩ := ih hq on' hn
      exact ⟨he, .stay (hoff off off' (Or.inl dir) (Or.inl dir')) dir hway⟩
    · exact absurd is (by decide)
    · exact absurd rfl plain.1
    · exact absurd rfl plain.1
  | up off dir on ih =>
    obtain ⟨off', dir', ⟨is, _⟩ | ⟨_, on'⟩ | ⟨plain, -⟩ | ⟨plain, -⟩⟩ := h'.next
    · exact absurd is (by decide)
    · obtain ⟨he, hway⟩ := ih hq on' hn
      exact ⟨he, .up (hoff off off' (Or.inl dir) (Or.inl dir')) dir hway⟩
    · exact absurd rfl plain.2
    · exact absurd rfl plain.2
  | down off dir plain fits next tree on ih =>
    subst hn
    have hdir := on.dir_of_end hq
    obtain ⟨off', dir', ⟨is, _⟩ | ⟨is, _⟩ | ⟨-, -, -, -, on'⟩ | ⟨-, -, -, -, next', -⟩⟩ := h'.next
    · exact absurd is plain.1
    · exact absurd is plain.2
    · obtain ⟨he, hway⟩ := ih hq on' rfl
      exact ⟨he, .down (hoff off off' (Or.inl dir) (Or.inl dir')) dir plain fits next tree hway⟩
    · rw [ha _ (Or.inl hdir) (Or.inr ⟨_, next'⟩), hdir] at next'
      cases next'
  | link off dir plain fits offLink next on ih =>
    obtain ⟨off', dir', ⟨is, _⟩ | ⟨is, _⟩ | ⟨-, -, next', -, on'⟩ |
      ⟨-, -, -, offLink', next', on'⟩⟩ := h'.next
    · exact absurd is plain.1
    · exact absurd is plain.2
    · have hdir' := on'.dir_of_end hq'
      rw [ha _ (Or.inr ⟨_, next⟩) (Or.inl hdir'), next] at hdir'
      cases hdir'
    · have hsame := ha _ (Or.inr ⟨_, next⟩) (Or.inr ⟨_, next'⟩)
      rw [next, next'] at hsame
      cases hsame
      obtain ⟨he, hway⟩ := ih hq on' hn
      exact ⟨he, .link (hoff off off' (Or.inl dir) (Or.inl dir')) dir plain fits
        (hoff offLink offLink' (Or.inr ⟨_, next⟩) (Or.inr ⟨_, next'⟩)) next hway⟩

theorem Alike.refl (d : Disk) : Alike d d := fun _ _ _ => rfl

/-- A path leads to the same place on both disks, past all that one of them bars. -/
theorem Leads.twin (hl : Leads d S p q) (ha : Alike d d') (hh : d'.here = d.here)
    (hl' : Leads d' S' p q') : q' = q ∧ Leads d (S ∪ S' ∪ barred d d') p q := by
  obtain ⟨links, hw⟩ := hl.way
  obtain ⟨links', hw'⟩ := hl'.way
  rw [hh] at hw'
  obtain ⟨he, hway⟩ := hw.twin ha hl.dir hw' hl'.dir
  exact ⟨he, ⟨links, hway⟩, hl.dir⟩

theorem Leads.unique (hl : Leads d S p q) (hl' : Leads d S' p q') : q' = q :=
  (hl.twin (.refl d) rfl hl').1

/-- No way passes a place that is not passable. -/
theorem Leads.avoid (hl : Leads d S p q) (hs : ∀ t ∈ S', ¬ d.Passable t) :
    Leads d (S ∪ S') p q := by
  refine (hl.twin (.refl d) rfl hl).2.mono fun t hm => ?_
  exact hm.imp Or.inl fun hm hp => hs t hm hp.1

theorem Leads.carry (hl : Leads d S p q) (hh : d'.here = d.here)
    (hd : ∀ t ∉ S, d.Passable t → d'.node? t = d.node? t) : Leads d' S p q := by
  obtain ⟨links, hw⟩ := hl.way
  refine ⟨⟨links, ?_⟩, (hd q hl.off (Or.inl hl.dir)).trans hl.dir⟩
  rw [hh]
  exact hw.carry hl.dir fun t ht hp => ⟨hd t ht hp, ht⟩

/-- A path names the same entry on both disks. -/
theorem Stands.twin (hs : Stands d S p s) (ha : Alike d d') (hh : d'.here = d.here)
    (hs' : Stands d' S' p s') : s' = s ∧ Stands d (S ∪ S' ∪ barred d d') p s := by
  obtain ⟨before, links, hb, hw⟩ := hs.steps
  obtain ⟨before', links', hb', hw'⟩ := hs'.steps
  obtain ⟨rfl, hn⟩ := List.append_inj' (hb.symm.trans hb') rfl
  rw [hh] at hw'
  obtain ⟨he, hway⟩ := hw.twin ha hs.dir hw' hs'.dir
  refine ⟨?_, ⟨⟨before, links, hb, hway⟩, hs.plain, hs.slashed, hs.proper, hs.dir⟩⟩
  cases s
  cases s'
  simp only [Slot.mk.injEq] at he hn ⊢
  exact ⟨he, (List.head_eq_of_cons_eq hn).symm, hs'.slashed.trans hs.slashed.symm⟩

theorem Stands.mono (hs : Stands d S p s) (h : S' ⊆ S) : Stands d S' p s := by
  obtain ⟨before, links, hb, hw⟩ := hs.steps
  exact ⟨⟨before, links, hb, hw.mono h⟩, hs.plain, hs.slashed, hs.proper, hs.dir⟩

theorem Stands.avoid (hs : Stands d S p s) (h : ∀ t ∈ S', ¬ d.Passable t) :
    Stands d (S ∪ S') p s := by
  refine (hs.twin (.refl d) rfl hs).2.mono fun t hm => ?_
  exact hm.imp Or.inl fun hm hp => h t hm hp.1

theorem Stands.carry (hs : Stands d S p s) (hh : d'.here = d.here)
    (hd : ∀ t ∉ S, d.Passable t → d'.node? t = d.node? t) : Stands d' S p s := by
  obtain ⟨before, links, hb, hw⟩ := hs.steps
  refine ⟨⟨before, links, hb, ?_⟩, hs.plain, hs.slashed, hs.proper,
    (hd _ hs.off (Or.inl hs.dir)).trans hs.dir⟩
  rw [hh]
  exact hw.carry hs.dir fun t ht hp => ⟨hd t ht hp, ht⟩

/-- All that can be passed on the second disk was there on the first one. -/
structure Narrows (d d' : Disk) : Prop where
  here : d'.here = d.here
  node : ∀ t, d'.Passable t → d'.node? t = d.node? t

theorem Narrows.refl (d : Disk) : Narrows d d := ⟨rfl, fun _ _ => rfl⟩

theorem Narrows.trans (h : Narrows d d') (h' : Narrows d' d'') : Narrows d d'' := by
  refine ⟨h'.here.trans h.here, fun t hp => ?_⟩
  have hsame := h'.node t hp
  exact hsame.trans (h.node t (hp.of_eq hsame.symm))

theorem Narrows.alike (h : Narrows d d') : Alike d d' := fun t _ hp => h.node t hp

theorem Leads.back (hl : Leads d' S p q) (h : Narrows d d') : Leads d S p q :=
  hl.carry h.here.symm fun t _ hp => (h.node t hp).symm

theorem Stands.back (hs : Stands d' S p s) (h : Narrows d d') : Stands d S p s :=
  hs.carry h.here.symm fun t _ hp => (h.node t hp).symm

/-- A disk on which one place holds nothing that can be passed. -/
theorem narrows_of_sets {f : Trail → Option Node} (h : Sets d d' t f)
    (hf : ∀ r k, f r = some k → ∃ bytes, k = .file bytes) : Narrows d d' := by
  refine ⟨h.agree.here, fun u hp => h.agree.node u ?_⟩
  rintro ⟨r, rfl⟩
  have hsub : d'.node? (t ++ r) = f r := congrFun h.subtree r
  cases hk : f r with
  | none => exact not_passable_of_none (hsub.trans hk) hp
  | some k =>
    obtain ⟨bytes, rfl⟩ := hf r k hk
    exact not_passable_of_file (hsub.trans hk) hp

/-- An entry behind which there is no directory: it is none, and if it is a link it leads to a
file. -/
structure Closed (d : Disk) (r : Trail) (name : String) : Prop where
  there : d.node? (r ++ [name]) ≠ none
  not_dir : d.node? (r ++ [name]) ≠ some .directory
  link : ∀ target, d.node? (r ++ [name]) = some (.link target) → ∃ n l t bytes,
    Way d ∅ n (startOf ⟨target⟩ r) (stepsOf ⟨target⟩) l t [] ∧ d.node? t = some (.file bytes)

theorem Way.past {r m : Trail} (h : Way d S links place steps l q [])
    (hq : d.node? q = some .directory) (hc : Closed d r name) (hm : m = r ++ [name]) :
    Way d (S ∪ {m}) links place steps l q [] := by
  have hoff {t : Trail} (hs : t ∉ S) (hd : d.node? t = some .directory) : t ∉ S ∪ {m} := by
    rintro (ht | rfl)
    · exact hs ht
    · exact hc.not_dir (hm ▸ hd)
  generalize hn : ([] : List String) = left at h
  induction h with
  | stop off =>
    subst hn
    exact .stop (hoff off hq)
  | stay off dir on ih => exact .stay (hoff off dir) dir (ih hq hn)
  | up off dir on ih => exact .up (hoff off dir) dir (ih hq hn)
  | down off dir plain fits next tree on ih =>
    exact .down (hoff off dir) dir plain fits next tree (ih hq hn)
  | link off dir plain fits offLink next on ih =>
    subst hn
    refine .link (hoff off dir) dir plain fits ?_ next (ih hq rfl)
    rintro (ht | ht)
    · exact offLink ht
    · -- Behind the link the way would go on from a file.
      obtain ⟨rfl, hname⟩ := List.append_inj' (ht.trans hm) rfl
      rw [hname] at next
      obtain ⟨n', l', t, bytes, hfile, ht⟩ := hc.link _ next
      obtain ⟨l'', t', hfront, hrest⟩ := on.split
      obtain rfl := hfile.unique hfront
      have hdir := hrest.dir_of_end hq
      rw [ht] at hdir
      cases hdir

/-- Nothing stands below an entry that leads to a file. -/
theorem Closed.not_passable {r : Trail} (hc : Closed d r name) :
    ∀ t ∈ inside (r ++ [name]), ¬ d.Passable t := by
  rintro t ⟨⟨u, rfl⟩, hne⟩
  have hu : u ≠ [] := fun hu => hne (by rw [hu, List.append_nil])
  obtain ⟨n, u, rfl⟩ := List.exists_cons_of_ne_nil hu
  refine not_passable_of_none ?_
  cases hx : d.node? (r ++ [name] ++ n :: u) with
  | none => rfl
  | some k => exact absurd (node?_of_append hx) hc.not_dir

theorem below_subset_closed (S : Set Trail) (t : Trail) : S ∪ below t ⊆ S ∪ {t} ∪ inside t := by
  rintro u (hu | hu)
  · exact Or.inl (Or.inl hu)
  · by_cases he : u = t
    · exact Or.inl (Or.inr he)
    · exact Or.inr ⟨hu, he⟩

/-- A way to a directory passes no entry that leads to a file, nor anything below it. -/
theorem Leads.past {r : Trail} (hl : Leads d S p q) (hc : Closed d r name) :
    Leads d (S ∪ below (r ++ [name])) p q := by
  obtain ⟨links, hw⟩ := hl.way
  have hl' : Leads d (S ∪ {r ++ [name]}) p q := ⟨⟨links, hw.past hl.dir hc rfl⟩, hl.dir⟩
  exact (hl'.avoid hc.not_passable).mono (below_subset_closed S _)

theorem Stands.past {r : Trail} (hs : Stands d S p s) (hc : Closed d r name) :
    Stands d (S ∪ below (r ++ [name])) p s := by
  obtain ⟨before, links, hb, hw⟩ := hs.steps
  have hs' : Stands d (S ∪ {r ++ [name]}) p s :=
    ⟨⟨before, links, hb, hw.past hs.dir hc rfl⟩, hs.plain, hs.slashed, hs.proper, hs.dir⟩
  exact (hs'.avoid hc.not_passable).mono (below_subset_closed S _)

theorem check_of_held {follow : Bool} {r : Trail × Tree} (h : d.held follow p = .ok r) :
    check p = .ok () := by
  obtain ⟨_, hfind, -⟩ := bind_eq_ok.1 h
  obtain ⟨⟨⟩, hcheck, -⟩ := bind_eq_ok.1 hfind
  exact hcheck

theorem way_of_held {x : Tree} (h : d.held true p = .ok (t, x)) :
    (∃ l, Way d ∅ linkLimit (startOf p d.here) (stepsOf p) l t []) ∧ d.get? t = some x := by
  obtain ⟨spot, hf, h⟩ := bind_eq_ok.1 h
  obtain ⟨⟨⟩, -, hw⟩ := bind_eq_ok.1 hf
  cases spot with
  | free _ _ => cases h
  | held t' x' =>
    cases h
    exact ⟨way_of_walk hw, walk_ends hw⟩

theorem held_of_contents (h : d.contents p = .ok bytes) :
    ∃ t, d.held true p = .ok (t, .file bytes) := by
  obtain ⟨⟨t, x⟩, hheld, h⟩ := bind_eq_ok.1 h
  cases x with
  | file _ => cases h; exact ⟨t, hheld⟩
  | link _ => cases h
  | directory _ => cases h

/-- A slash at the end of a path is a dot or nothing. -/
theorem slash_dots (p : Path) :
    ∃ m, (if p.endsInSlash then ["."] else []) = List.replicate m "." := by
  cases p.endsInSlash with
  | true => exact ⟨1, rfl⟩
  | false => exact ⟨0, rfl⟩

theorem leads_of_held {es : List (String × Tree)} (h : d.held true p = .ok (t, .directory es)) :
    Leads d ∅ p t ∧ d.get? t = some (.directory es) := by
  obtain ⟨⟨l, hw⟩, hx⟩ := way_of_held h
  have hdir := node?_eq_directory.2 ⟨es, hx⟩
  obtain ⟨l', t', hfront, hrest⟩ := hw.split
  obtain ⟨m, hm⟩ := slash_dots p
  rw [hm] at hrest
  exact ⟨⟨⟨l', hrest.dots.2 ▸ hfront⟩, hdir⟩, hx⟩

theorem leads_of_kind (h : d.kind p = .ok .directory) : ∃ q, Leads d ∅ p q := by
  obtain ⟨⟨t, x⟩, hheld, h⟩ := bind_eq_ok.1 h
  cases x with
  | file _ => cases h
  | link _ => cases h
  | directory es => exact ⟨t, (leads_of_held hheld).1⟩

/-- What names the entry of a plain name leads to its directory. -/
theorem Stands.of_child (hs : Stands d S (p.join name) s) (hn : ProperName name) :
    s = ⟨s.parent, name, false⟩ ∧ Leads d S p s.parent := by
  obtain ⟨before, links, hb, hw⟩ := hs.steps
  rw [steps_child hn] at hb
  obtain ⟨rfl, hname⟩ := List.append_inj' hb rfl
  have hslash := hs.slashed
  rw [endsInSlash_join hn] at hslash
  rw [start_child hn] at hw
  refine ⟨?_, ⟨links, hw⟩, hs.dir⟩
  cases s
  simp only [Slot.mk.injEq, true_and] at hname hslash ⊢
  exact ⟨(List.head_eq_of_cons_eq hname).symm, hslash⟩

/-- An entry stays closed where nothing is taken away. -/
theorem Closed.grow {r : Trail} (h : Closed d r name)
    (hd : ∀ t k, d.node? t = some k → d'.node? t = some k) : Closed d' r name := by
  obtain ⟨k, hk⟩ := Option.ne_none_iff_exists'.1 h.there
  have hk' := hd _ _ hk
  refine ⟨by simp [hk'], fun hdir => h.not_dir ?_, fun target ht => ?_⟩
  · rw [hk]
    exact hk'.symm.trans hdir
  · have hlink : d.node? (r ++ [name]) = some (.link target) := hk.trans (hk'.symm.trans ht)
    obtain ⟨n, l, t, bytes, hw, hfile⟩ := h.link target hlink
    exact ⟨n, l, t, bytes, hw.grow hd, hd _ _ hfile⟩

/-- What is found behind a plain name stands in the directory that the path before it leads to, or
behind a link there. -/
theorem entry_of_held {x : Tree} (hn : ProperName name)
    (hr : d.held true (p.join name) = .ok (t, x)) :
    d.get? t = some x ∧ ∃ q, Leads d ∅ p q ∧ (t = q ++ [name] ∨ ∃ target n l,
      d.node? (q ++ [name]) = some (.link target) ∧
        Way d ∅ n (startOf ⟨target⟩ q) (stepsOf ⟨target⟩) l t []) := by
  obtain ⟨⟨l, hw⟩, hx⟩ := way_of_held hr
  obtain ⟨m, hm⟩ := slash_dots (p.join name)
  rw [stepsOf, steps_child hn, start_child hn, hm, List.append_assoc, List.singleton_append] at hw
  obtain ⟨l', q, hfront, hrest⟩ := hw.split
  obtain ⟨-, hdir, hnext⟩ := hrest.next
  refine ⟨hx, q, ⟨⟨l', hfront⟩, hdir⟩, ?_⟩
  rcases hnext with ⟨is, _⟩ | ⟨is, _⟩ | ⟨-, -, -, -, on⟩ | ⟨-, -, -, -, next, on⟩
  · exact absurd is hn.2.2.1
  · exact absurd is hn.2.2.2
  · exact Or.inl on.dots.2
  · obtain ⟨l'', t', hlink, hdots⟩ := on.split
    obtain ⟨-, rfl⟩ := hdots.dots
    exact Or.inr ⟨_, _, _, next, hlink⟩

/-- A file is read from an entry that is closed. -/
theorem closed_of_contents (hn : ProperName name) (hr : d.contents (p.join name) = .ok bytes) :
    ∃ q, Leads d ∅ p q ∧ Closed d q name := by
  obtain ⟨t, hheld⟩ := held_of_contents hr
  obtain ⟨hx, q, hl, hcases⟩ := entry_of_held hn hheld
  have hfile := node?_eq_file.2 hx
  refine ⟨q, hl, ?_⟩
  rcases hcases with rfl | ⟨target, n, l, hlink, hway⟩
  · exact ⟨by simp [hfile], by simp [hfile], fun target ht => by rw [hfile] at ht; cases ht⟩
  · refine ⟨by simp [hlink], by simp [hlink], fun target' ht => ?_⟩
    rw [hlink] at ht
    cases ht
    exact ⟨_, _, _, _, hway, hfile⟩

end Disk

end Vendoring.Files
