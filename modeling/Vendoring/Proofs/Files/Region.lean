import Vendoring.Proofs.Files.Change

/-! A region of a disk: a directory that holds no links. What is done at paths into it stays in
it. -/
namespace Vendoring.Files

/-- The places below a place. -/
def inside (q : Trail) : Set Trail := {t | q <+: t ∧ t ≠ q}

theorem inside_subset_below (q : Trail) : inside q ⊆ below q := fun _ h => h.1

theorem not_mem_inside (q : Trail) : q ∉ inside q := fun h => h.2 rfl

mutual

/-- All places of a tree, and what stands there. -/
def Tree.nodes : Tree → List (Trail × Node)
  | .file bytes => [([], .file bytes)]
  | .link target => [([], .link target)]
  | .directory entries => ([], .directory) :: nodesIn entries

def nodesIn : List (String × Tree) → List (Trail × Node)
  | [] => []
  | (name, t) :: rest => t.nodes.map (fun e => (name :: e.1, e.2)) ++ nodesIn rest

end

theorem mem_nodesIn {es : List (String × Tree)} {name : String} {t : Tree} {q : Trail} {k : Node}
    (h : (name, t) ∈ es) (hq : (q, k) ∈ t.nodes) : (name :: q, k) ∈ nodesIn es := by
  induction es with
  | nil => cases h
  | cons e rest ih =>
    rw [nodesIn, List.mem_append]
    rcases List.mem_cons.1 h with rfl | h
    · exact Or.inl (List.mem_map.2 ⟨(q, k), hq, rfl⟩)
    · exact Or.inr (ih h)

theorem Tree.mem_nodes {t : Tree} {q : Trail} {k : Node} (h : t.node? q = some k) :
    (q, k) ∈ t.nodes := by
  induction q generalizing t with
  | nil =>
    obtain rfl : t.node = k := by simpa [node?, get?] using h
    cases t <;> simp [nodes, node]
  | cons name q ih =>
    cases t with
    | file _ => cases h
    | link _ => cases h
    | directory es =>
      cases hx : Keyed.get? es name with
      | none => simp [node?, get?, hx] at h
      | some x =>
        have hk : x.node? q = some k := by simpa [node?, get?, hx] using h
        rw [nodes]
        exact List.mem_cons_of_mem _ (mem_nodesIn (Keyed.mem_of_get? hx) (ih hk))

namespace Disk
open Outcome

/-- All entries of a disk have names. -/
def Proper (d : Disk) : Prop := ∀ t, d.node? t ≠ none → ∀ name ∈ t, ProperName name

theorem proper_of_nodes {d : Disk} (h : ∀ e ∈ d.root.nodes, ∀ name ∈ e.1, ProperName name) :
    d.Proper := by
  intro t ht
  obtain ⟨k, hk⟩ := Option.ne_none_iff_exists'.1 ht
  exact h _ (Tree.mem_nodes hk)

theorem linkless_of_nodes {d : Disk} (h : ∀ e ∈ d.root.nodes, e.2.isLink = false) :
    ∀ t target, d.node? t ≠ some (.link target) := by
  intro t target ht
  have hnot := h _ (Tree.mem_nodes ht)
  cases hnot

/-- The disks that differ from `b` inside of the directory `q` at most, and hold no links there. -/
structure Region (b : Disk) (q : Trail) (d : Disk) : Prop where
  agree : Agree (inside q) b d
  linkless : ∀ r target, d.node? (q ++ r) ≠ some (.link target)
  tidy : ∀ r, d.node? (q ++ r) ≠ none → ∀ name ∈ r, ProperName name

/-- A path that comes to the directory `q` past all places of `S` and goes on from there, never
up. -/
structure Comes (d : Disk) (S : Set Trail) (p : Path) (q : Trail) (rest : List String) :
    Prop where
  way : ∃ before links, p.steps = before ++ rest ∧
    Way d S linkLimit (startOf p d.here) before links q []
  dir : d.node? q = some .directory
  down : ".." ∉ rest

/-- A path that leads to the directory `q` and goes on from there, never up. -/
structure Inside (b : Disk) (q : Trail) (p : Path) (rest : List String) : Prop where
  way : ∃ before links, p.steps = before ++ rest ∧
    Way b (inside q) linkLimit (startOf p b.here) before links q []
  dir : b.node? q = some .directory
  down : ".." ∉ rest

variable {b d d' : Disk} {S : Set Trail} {q place u : Trail} {p : Path} {s : Slot}
  {name rel : String} {rest steps : List String} {links : Nat} {f : Trail → Option Node}

theorem Region.dir (h : Region b q d) (hb : b.node? q = some .directory) :
    d.node? q = some .directory := (h.agree.node _ (not_mem_inside q)).trans hb

theorem Region.proper (h : Region b q d) (hb : b.Proper) : d.Proper := by
  intro t ht name hm
  by_cases hq : t ∈ inside q
  · obtain ⟨r, rfl⟩ := hq.1
    rcases List.mem_append.1 hm with hmq | hmr
    · obtain ⟨k, hk⟩ := Option.ne_none_iff_exists'.1 ht
      have hr : r ≠ [] := fun hr => hq.2 (by rw [hr, List.append_nil])
      obtain ⟨n, r, rfl⟩ := List.exists_cons_of_ne_nil hr
      have hdir := (h.agree.node q (not_mem_inside q)).symm.trans (node?_of_append hk)
      exact hb q (by rw [hdir]; simp) name hmq
    · exact h.tidy r ht name hmr
  · rw [h.agree.node t hq] at ht
    exact hb t ht name hm

/-- What a step adds to a region must be fit for it. -/
theorem Region.step (h : Region b q d) (ha : Agree (inside q) d d')
    (hn : ∀ r k, d'.node? (q ++ r) = some k → d.node? (q ++ r) = some k ∨
      (∀ target, k ≠ .link target) ∧ ∀ name ∈ r, ProperName name) : Region b q d' := by
  refine ⟨h.agree.trans ha, fun r target hl => ?_, fun r hr => ?_⟩
  · rcases hn _ _ hl with hd | ⟨hd, -⟩
    · exact h.linkless r target hd
    · exact hd target rfl
  · obtain ⟨k, hk⟩ := Option.ne_none_iff_exists'.1 hr
    rcases hn r k hk with hd | ⟨-, hd⟩
    · exact h.tidy r (by rw [hd]; simp)
    · exact hd

/-- A tree as in a region is a region wherever it stands. -/
theorem Region.rebase {u : Trail} (h : Region b q d)
    (hs : ∀ r, d'.node? (u ++ r) = d.node? (q ++ r)) : Region d' u d' :=
  ⟨.refl _ _, fun r => hs r ▸ h.linkless r, fun r => hs r ▸ h.tidy r⟩

/-- An empty directory is a region. -/
theorem region_of_empty (h : ∀ r, d.node? (q ++ r) = (Tree.directory []).node? r) :
    Region d q d := by
  have hk : ∀ r k, d.node? (q ++ r) = some k → r = [] ∧ k = .directory := by
    intro r k hk
    rw [h] at hk
    cases r with
    | nil => cases hk; exact ⟨rfl, rfl⟩
    | cons _ _ => cases hk
  refine ⟨.refl _ _, fun r target hl => ?_, fun r hr => ?_⟩
  · cases (hk r _ hl).2
  · obtain ⟨k, hr⟩ := Option.ne_none_iff_exists'.1 hr
    rw [(hk r k hr).1]
    simp

theorem below_subset_inside (hs : q <+: s.parent) : below s.trail ⊆ inside q := by
  intro t ht
  refine ⟨hs.trans ((List.prefix_append _ _).trans ht), ?_⟩
  rintro rfl
  have hl : (s.parent ++ [s.name]).length ≤ s.parent.length := (ht.trans hs).length_le
  rw [List.length_append, List.length_singleton] at hl
  omega

/-- An entry that may be put into a region. -/
structure Entry (q : Trail) (d : Disk) (s : Slot) (u : Trail) : Prop where
  parent : s.parent = q ++ u
  dir : d.node? s.parent = some .directory
  proper : ProperName s.name

theorem Entry.trail (he : Entry q d s u) (r : Trail) : s.trail ++ r = q ++ (u ++ s.name :: r) := by
  rw [Slot.trail, he.parent]
  simp

theorem Entry.names (he : Entry q d s u) (h : Region b q d) {r : Trail}
    (hr : ∀ name ∈ r, ProperName name) : ∀ name ∈ u ++ s.name :: r, ProperName name := by
  intro name hm
  rcases List.mem_append.1 hm with hm | hm
  · exact h.tidy u (by rw [← he.parent, he.dir]; simp) name hm
  · rcases List.mem_cons.1 hm with rfl | hm
    · exact he.proper
    · exact hr name hm

theorem Region.sets (h : Region b q d) (he : Entry q d s u) (hset : Sets d d' s.trail f)
    (hf : ∀ r k, f r = some k →
      (∀ target, k ≠ .link target) ∧ ∀ name ∈ r, ProperName name) : Region b q d' := by
  have hq : q <+: s.parent := he.parent ▸ List.prefix_append q u
  refine h.step (hset.agree.mono (below_subset_inside hq)) fun r k hk => ?_
  by_cases ht : s.trail <+: q ++ r
  · obtain ⟨r', hr'⟩ := ht
    rw [← hr'] at hk
    obtain ⟨hlink, hnames⟩ := hf r' k ((congrFun hset.subtree r').symm.trans hk)
    rw [he.trail, List.append_cancel_left_eq] at hr'
    exact Or.inr ⟨hlink, hr' ▸ he.names h hnames⟩
  · exact Or.inl ((hset.agree.node _ ht).symm.trans hk)

theorem Region.removed (h : Region b q d) (hs : q <+: s.parent)
    (hset : Sets d d' s.trail nothing) : Region b q d' := by
  refine h.step (hset.agree.mono (below_subset_inside hs)) fun r k hk => ?_
  by_cases ht : s.trail <+: q ++ r
  · obtain ⟨r', hr'⟩ := ht
    rw [← hr', show d'.node? (s.trail ++ r') = none from congrFun hset.subtree r'] at hk
    cases hk
  · exact Or.inl ((hset.agree.node _ ht).symm.trans hk)

theorem Region.moved {a c : Slot} {v : Trail} (h : Region b q d) (ha : a.parent = q ++ v)
    (hc : Entry q d c u) (hm : Moved d d' a.trail c.trail) : Region b q d' := by
  have hsub : below a.trail ∪ below c.trail ⊆ inside q :=
    Set.union_subset (below_subset_inside (ha ▸ List.prefix_append q v))
      (below_subset_inside (hc.parent ▸ List.prefix_append q u))
  refine h.step (hm.agree.mono hsub) fun r k hk => ?_
  by_cases hct : c.trail <+: q ++ r
  · obtain ⟨r', hr'⟩ := hct
    rw [← hr'] at hk
    have hold : d.node? (q ++ (v ++ a.name :: r')) = some k := by
      rw [← (congrFun hm.moved r').symm.trans hk]
      simp [Disk.subtree, Slot.trail, ha]
    rw [hc.trail, List.append_cancel_left_eq] at hr'
    refine Or.inr ⟨?_, hr' ▸ hc.names h fun name hmem => ?_⟩
    · rintro target rfl
      exact h.linkless _ target hold
    · exact h.tidy _ (by rw [hold]; simp) name (by simp [hmem])
  · by_cases hat : a.trail <+: q ++ r
    · obtain ⟨r', hr'⟩ := hat
      rw [← hr', show d'.node? (a.trail ++ r') = none from congrFun hm.gone r'] at hk
      cases hk
    · exact Or.inl ((hm.agree.node _ (not_or.2 ⟨hat, hct⟩)).symm.trans hk)

/-- Where a walk down into a region ends. -/
def Within (q : Trail) (steps : List String) : Spot → Prop
  | .held t _ => q <+: t
  | .free t name => q <+: t ∧ name ∈ steps ∧ name ≠ "." ∧ name ≠ ".."

theorem Within.cons {spot : Spot} {s : String} (h : Within q steps spot) :
    Within q (s :: steps) spot := by
  cases spot with
  | held _ _ => exact h
  | free _ _ => exact ⟨h.1, List.mem_cons_of_mem _ h.2.1, h.2.2⟩

theorem walkOn_within {follow : Bool} {onward : Trail → List String → Except Fault Spot}
    {spot : Spot} (hd : ∀ r target, d.node? (q ++ r) ≠ some (.link target)) (hp : q <+: place)
    (hs : ".." ∉ steps) (h : d.walkOn follow onward place steps = .ok spot) :
    Within q steps spot := by
  induction steps generalizing place with
  | nil =>
    cases goes_of_walkOn h with
    | arrive _ => exact hp
  | cons s rest ih =>
    obtain ⟨hup, hrest⟩ := not_or.1 fun h => hs (List.mem_cons.2 h)
    have hlinkless (target : String) : d.node? (place ++ [s]) ≠ some (.link target) := by
      obtain ⟨r, rfl⟩ := hp
      rw [List.append_assoc]
      exact hd (r ++ [s]) target
    cases goes_of_walkOn h with
    | stay _ on => exact (ih hp hrest on).cons
    | up => exact absurd rfl hup
    | free _ plain => exact ⟨hp, List.mem_cons_self .., plain⟩
    | halt => exact hp.trans (List.prefix_append _ _)
    | link _ _ _ next => exact absurd next (hlinkless _)
    | down _ _ _ _ _ on => exact (ih (hp.trans (List.prefix_append _ _)) hrest on).cons

theorem walk_within {follow : Bool} {spot : Spot}
    (hd : ∀ r target, d.node? (q ++ r) ≠ some (.link target)) (hp : q <+: place)
    (hs : ".." ∉ steps) (h : d.walk follow links place steps = .ok spot) :
    Within q steps spot := by
  cases links with
  | zero => exact walkOn_within hd hp hs h
  | succ links => exact walkOn_within hd hp hs h

theorem Inside.way_of_region (hp : Inside b q p rest) (h : Region b q d) :
    ∃ before links, p.steps = before ++ rest ∧
      Way d (inside q) linkLimit (startOf p d.here) before links q [] := by
  obtain ⟨before, links, hs, hw⟩ := hp.way
  exact ⟨before, links, hs, h.agree.here ▸ hw.agree h.agree⟩

/-- What a path into a region leads to stands in it. -/
theorem Inside.find_within (hp : Inside b q p rest) (h : Region b q d) {spot : Spot}
    (hf : d.find true p = .ok spot) : Within q p.steps spot := by
  obtain ⟨before, links, hs, hw⟩ := hp.way_of_region h
  obtain ⟨⟨⟩, -, hf⟩ := bind_eq_ok.1 hf
  have hdown : ".." ∉ rest ++ if p.endsInSlash then ["."] else [] := by
    have hd := hp.down
    split <;> simp [hd]
  rw [stepsOf, hs, List.append_assoc, walk_way hw (Or.inl rfl), List.nil_append] at hf
  have hin := walk_within h.linkless (List.prefix_refl q) hdown hf
  cases spot with
  | held _ _ => exact hin
  | free t name =>
    obtain ⟨ht, hm, hn, hn'⟩ := hin
    refine ⟨ht, ?_, hn, hn'⟩
    rw [hs]
    refine List.mem_append_right _ ((List.mem_append.1 hm).resolve_right fun he => ?_)
    split at he
    · exact hn (List.mem_singleton.1 he)
    · cases he

/-- The entry that a path below a region's top names stands in the region. -/
theorem Inside.slot_within (hp : Inside b q p rest) (hr : rest ≠ []) (h : Region b q d)
    (hs : d.slot? p = .ok (some s)) : ∃ u, Entry q d s u := by
  obtain ⟨⟨before', -, hb, -⟩, plain, -, hc, hd⟩ := stands_of_slot? hs
  obtain ⟨before, links, hsteps, hw⟩ := hp.way_of_region h
  rcases List.eq_nil_or_concat rest with rfl | ⟨front, last, rfl⟩
  · exact absurd rfl hr
  · rw [List.concat_eq_append] at hsteps
    have hproper : ProperName s.name := proper_of_mem_steps (p := p) (by simp [hb]) plain
    suffices hq : q <+: s.parent by
      obtain ⟨u, hu⟩ := hq
      exact ⟨u, hu.symm, hd, hproper⟩
    have hrev : p.steps.reverse = last :: (before ++ front).reverse := by simp [hsteps]
    rw [slot?, hc] at hs
    obtain ⟨⟨⟩, -, hs⟩ := bind_eq_ok.1 hs
    simp only [hrev, List.reverse_reverse, walk_way hw (Or.inl rfl), List.nil_append] at hs
    obtain ⟨spot, hwalk, hs⟩ := bind_eq_ok.1 hs
    have hdown : ".." ∉ front := by
      have hd := hp.down
      simp only [List.concat_eq_append, List.mem_append, not_or] at hd
      exact hd.1
    have hin := walk_within h.linkless (List.prefix_refl q) hdown hwalk
    split at hs
    · split at hs
      · cases hs
      · cases hs
        exact hin
    · cases hs
    · cases hs

theorem Comes.join (hp : Comes b S p q rest) (hr : rel.toList.head? ≠ some '/')
    (hd : ".." ∉ Path.stepNames rel) : Comes b S (p.join rel) q (rest ++ Path.stepNames rel) := by
  obtain ⟨before, links, hs, hw⟩ := hp.way
  refine ⟨⟨before, links, ?_, ?_⟩, hp.dir, ?_⟩
  · rw [Path.steps_join hr, hs, List.append_assoc]
  · rw [startOf, Path.isAbsolute_join hr]
    exact hw
  · exact fun hm => (List.mem_append.1 hm).elim hp.down hd

theorem Inside.comes (hp : Inside b q p rest) : Comes b (inside q) p q rest :=
  ⟨hp.way, hp.dir, hp.down⟩

theorem Comes.inside (hp : Comes b (inside q) p q rest) : Inside b q p rest :=
  ⟨hp.way, hp.dir, hp.down⟩

theorem Inside.join (hp : Inside b q p rest) (hr : rel.toList.head? ≠ some '/')
    (hd : ".." ∉ Path.stepNames rel) : Inside b q (p.join rel) (rest ++ Path.stepNames rel) :=
  (hp.comes.join hr hd).inside

theorem Inside.child (hp : Inside b q p rest) (hn : ProperName name) :
    Inside b q (p.join name) (rest ++ [name]) := by
  have hsteps := Path.stepNames_name hn.1 hn.2.1
  have hj := hp.join (head?_of_proper hn)
    (by rw [hsteps]; exact fun hm => hn.2.2.2 (List.mem_singleton.1 hm).symm)
  rwa [hsteps] at hj

theorem startOf_ancestor {a : Path} (h : a ∈ p.ancestors) (here : Trail) :
    startOf a here = startOf p here := by
  rw [startOf, startOf, (Path.steps_prefix_of_mem_ancestors h).2]

/-- Each parent of a path that comes to a directory leads somewhere, or it comes there too. -/
theorem Comes.ancestor (hp : Comes b S p q rest) {a : Path} (ha : a ∈ p.ancestors) :
    (∃ t, Leads b S a t) ∨ ∃ rest' more, rest' ≠ [] ∧ rest = rest' ++ more ∧
      p.steps = a.steps ++ more ∧ a.isAbsolute = p.isAbsolute ∧ Comes b S a q rest' := by
  obtain ⟨before, links, hs, hw⟩ := hp.way
  obtain ⟨hpre, habs⟩ := Path.steps_prefix_of_mem_ancestors ha
  have hstart := startOf_ancestor ha b.here
  obtain ⟨more, hmore⟩ := hpre
  rw [hs] at hmore
  rcases List.append_eq_append_iff.1 hmore with ⟨front, rfl, -⟩ | ⟨rest', ha', rfl⟩
  · obtain ⟨l, t, ht, hfront⟩ := hw.split
    exact Or.inl ⟨t, ⟨l, hstart ▸ ht⟩, hfront.dir_of_end hp.dir⟩
  · by_cases hnil : rest' = []
    · rw [hnil, List.append_nil] at ha'
      exact Or.inl ⟨q, ⟨links, by rw [hstart, ha']; exact hw⟩, hp.dir⟩
    · refine Or.inr ⟨rest', more, hnil, rfl, by rw [hs, hmore], habs,
        ⟨before, links, ha', hstart ▸ hw⟩, hp.dir, fun hm => ?_⟩
      exact hp.down (List.mem_append_left _ hm)

theorem Inside.ancestor (hp : Inside b q p rest) {a : Path} (ha : a ∈ p.ancestors) :
    (∃ t, Leads b (inside q) a t) ∨ ∃ rest', rest' ≠ [] ∧ Inside b q a rest' := by
  refine (hp.comes.ancestor ha).imp_right ?_
  rintro ⟨rest', -, hne, -, -, -, hc⟩
  exact ⟨rest', hne, hc.inside⟩

/-- The steps of a path that ends in a name, cut before some of them that are not all dots. -/
theorem cut_of_standing {p : Path} {way before rest : List String}
    (h : Path.Standing p way name) (hs : p.steps = before ++ rest) (hx : ∃ x ∈ rest, x ≠ ".") :
    (∃ n, before = way ++ List.replicate n ".") ∨
      ∃ rest', way = before ++ rest' ∧ rest' ⊆ rest := by
  obtain ⟨m, n, he⟩ := h.steps
  obtain ⟨x, hx, hxd⟩ := hx
  rw [he, List.append_assoc] at hs
  rcases List.append_eq_append_iff.1 hs with ⟨a, rfl, ha⟩ | ⟨a, rfl, rfl⟩
  · refine Or.inl ?_
    rcases List.append_eq_append_iff.1 ha with ⟨c, rfl, hc⟩ | ⟨c, hc, -⟩
    · cases c with
      | nil => exact ⟨m, by rw [List.append_nil]⟩
      | cons y c =>
        obtain ⟨-, hc⟩ := List.cons.inj hc
        have hm : x ∈ List.replicate n "." := hc ▸ List.mem_append_right c hx
        exact absurd (List.eq_of_mem_replicate hm) hxd
    · have hsub : ∀ y ∈ a, y = "." := fun y hy =>
        List.eq_of_mem_replicate (hc ▸ List.mem_append_left c hy)
      exact ⟨a.length, by rw [← List.eq_replicate_of_mem hsub]⟩
  · exact Or.inr ⟨a, rfl, List.subset_append_left _ _⟩

/-- The directory of a path that goes on below a directory comes there too. -/
theorem Comes.directory {way : List String} (hp : Comes b S p q rest)
    (hs : Path.Standing p way name) (hx : ∃ x ∈ rest, x ≠ ".") :
    ∃ rest', Comes b S p.directory q rest' := by
  obtain ⟨before, links, hsteps, hw⟩ := hp.way
  have hway : ∃ front links rest', way = front ++ rest' ∧ ".." ∉ rest' ∧
      Way b S linkLimit (startOf p b.here) front links q [] := by
    rcases cut_of_standing hs hsteps hx with ⟨n, rfl⟩ | ⟨rest', rfl, hsub⟩
    · obtain ⟨l, t, ht, hdots⟩ := hw.split
      obtain ⟨-, rfl⟩ := hdots.dots
      exact ⟨way, l, [], by simp, by simp, ht⟩
    · exact ⟨before, links, rest', rfl, fun hm => hp.down (hsub hm), hw⟩
  obtain ⟨front, links, rest', rfl, hdown, hw⟩ := hway
  rcases hs.directory with ⟨hdsteps, habs⟩ | ⟨hdot, hnil, habs⟩
  · refine ⟨rest', ⟨front, links, hdsteps, ?_⟩, hp.dir, hdown⟩
    rw [startOf, habs]
    exact hw
  · obtain ⟨rfl, rfl⟩ := List.append_eq_nil_iff.1 hnil
    have hoff := hw.off_end
    have hq : q = b.here := by
      rw [startOf, habs] at hw
      exact hw.eq_of_nil.2.1
    refine ⟨[], ⟨["."], linkLimit, by rw [hdot]; rfl, ?_⟩, hp.dir, by simp⟩
    rw [hdot]
    have hdots : Way b S linkLimit q (List.replicate 1 ".") linkLimit q [] :=
      way_dots hoff hp.dir 1
    rw [hq] at hdots ⊢
    exact hdots

/-- The directory of a path below a region's top is in the region. -/
theorem Inside.directory {way : List String} (hp : Inside b q p rest)
    (hs : Path.Standing p way name) (hx : ∃ x ∈ rest, x ≠ ".") :
    ∃ rest', Inside b q p.directory rest' := by
  obtain ⟨rest', hc⟩ := hp.comes.directory hs hx
  exact ⟨rest', hc.inside⟩

end Disk

end Vendoring.Files
