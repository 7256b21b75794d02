import Vendoring.Proofs.Files.Walk
import Vendoring.Proofs.Path.Steps

/-! Where a path leads, and the entry of a directory that it names. -/
namespace Vendoring.Files

/-- What the name of an entry is like. -/
def ProperName (name : String) : Prop :=
  name ≠ "" ∧ '/' ∉ name.toList ∧ name ≠ "." ∧ name ≠ ".."

instance (name : String) : Decidable (ProperName name) := inferInstanceAs (Decidable (_ ∧ _))

theorem proper_of_mem_steps {p : Path} {name : String} (h : name ∈ p.steps)
    (plain : name ≠ "." ∧ name ≠ "..") : ProperName name := by
  obtain ⟨cs, hc, rfl⟩ := List.mem_map.1 h
  obtain ⟨hm, hn⟩ := List.mem_filter.1 hc
  refine ⟨?_, ?_, plain⟩
  · intro he
    have hnil : cs = [] := by simpa using congrArg String.toList he
    simp [hnil] at hn
  · simpa using Text.not_mem_of_mem_splitOn hm

namespace Disk
open Outcome

variable {d d' : Disk} {S S' : Set Trail} {p : Path} {q : Trail} {s : Slot} {name target : String}
  {links : Nat} {follow : Bool} {es : List (String × Tree)} {bytes : ByteArray}

/-- A path leads to a directory, on a way through places outside of `S`. -/
structure Leads (d : Disk) (S : Set Trail) (p : Path) (q : Trail) : Prop where
  way : ∃ links, Way d S linkLimit (startOf p d.here) p.steps links q []
  dir : d.node? q = some .directory

theorem Leads.off (h : Leads d S p q) : q ∉ S := by
  obtain ⟨_, hw⟩ := h.way
  exact hw.off_end

theorem Leads.agree (h : Leads d S p q) (ha : Agree S d d') : Leads d' S p q := by
  obtain ⟨links, hw⟩ := h.way
  exact ⟨⟨links, ha.here ▸ hw.agree ha⟩, (ha.node _ h.off).trans h.dir⟩

theorem Leads.mono (hl : Leads d S p q) (hs : S' ⊆ S) : Leads d S' p q := by
  obtain ⟨links, hw⟩ := hl.way
  exact ⟨⟨links, hw.mono hs⟩, hl.dir⟩

/-- On a disk without links an absolute path leads down from the top. -/
theorem leads_down (ha : p.isAbsolute = true) (hs : p.steps = q)
    (hn : ∀ name ∈ q, (name ≠ "." ∧ name ≠ "..") ∧ isTooLong name = false)
    (hd : ∀ t target, d.node? t ≠ some (.link target)) (hq : d.node? q = some .directory)
    (off : ∀ t, t <+: q → t ∉ S) : Leads d S p q := by
  refine ⟨⟨linkLimit, ?_⟩, hq⟩
  rw [startOf, ha, hs]
  exact way_down hn (fun r => hd _) hq off

/-- A path names an entry of a directory, which it leads to through places outside of `S`. -/
structure Stands (d : Disk) (S : Set Trail) (p : Path) (s : Slot) : Prop where
  steps : ∃ before links, p.steps = before ++ [s.name] ∧
    Way d S linkLimit (startOf p d.here) before links s.parent []
  plain : s.name ≠ "." ∧ s.name ≠ ".."
  slashed : s.slashed = p.endsInSlash
  proper : check p = .ok ()
  dir : d.node? s.parent = some .directory

theorem Stands.off (h : Stands d S p s) : s.parent ∉ S := by
  obtain ⟨_, _, _, hw⟩ := h.steps
  exact hw.off_end

theorem Stands.agree (h : Stands d S p s) (ha : Agree S d d') : Stands d' S p s := by
  obtain ⟨before, links, hs, hw⟩ := h.steps
  exact ⟨⟨before, links, hs, ha.here ▸ hw.agree ha⟩, h.plain, h.slashed, h.proper,
    (ha.node _ h.off).trans h.dir⟩

theorem slot?_of_way {before : List String}
    (hw : Way d S linkLimit (startOf p d.here) before links q [])
    (hd : d.node? q = some .directory) (hs : p.steps = before ++ [name]) (hc : check p = .ok ()) :
    d.slot? p = .ok (if name = "." ∨ name = ".." then none else some ⟨q, name, p.endsInSlash⟩) := by
  obtain ⟨es, he⟩ := node?_eq_directory.1 hd
  have hwalk : d.walk true linkLimit (startOf p d.here) before = .ok (.held q (.directory es)) := by
    have h : d.walk true linkLimit (startOf p d.here) (before ++ []) =
        d.walk true links q ([] ++ []) := walk_way hw (Or.inl rfl)
    simp only [List.append_nil] at h
    rw [h]
    cases links <;> simp [walk, walkOn, he]
  have hr : p.steps.reverse = name :: before.reverse := by simp [hs]
  rw [slot?, hc]
  simp only [hr, List.reverse_reverse, hwalk]
  split <;> rfl

theorem Stands.slot? (h : Stands d S p s) : d.slot? p = .ok (some s) := by
  obtain ⟨before, links, hs, hw⟩ := h.steps
  rw [slot?_of_way hw h.dir hs h.proper, if_neg (not_or.2 h.plain), ← h.slashed]

/-- The entry of a path is where a walk comes to. -/
theorem stands_of_slot? (h : d.slot? p = .ok (some s)) : Stands d ∅ p s := by
  rw [Disk.slot?] at h
  obtain ⟨⟨⟩, hc, h⟩ := bind_eq_ok.1 h
  split at h
  · cases h
  · next last before hr =>
    have hs : p.steps = before.reverse ++ [last] := by
      rw [← List.reverse_reverse p.steps, hr, List.reverse_cons]
    obtain ⟨spot, hw, h⟩ := bind_eq_ok.1 h
    split at h
    · split at h
      · cases h
      · next q es hn =>
        cases h
        obtain ⟨links, hway⟩ := way_of_walk hw
        exact ⟨⟨_, links, hs, hway⟩, not_or.1 hn, rfl, hc, node?_eq_directory.2 ⟨es, walk_ends hw⟩⟩
    · cases h
    · cases h

/-- The steps of a path that names an entry end in its name, without dots behind it. -/
theorem steps_of_standing {way before : List String} (h : Path.Standing p way name)
    (hs : p.steps = before ++ [s.name]) (hn : s.name ≠ ".") :
    s.name = name ∧ ∃ m, before = way ++ List.replicate m "." := by
  obtain ⟨m, n, he⟩ := h.steps
  rw [hs] at he
  cases n with
  | zero =>
    obtain ⟨hb, hname⟩ := List.append_inj' he rfl
    exact ⟨List.head_eq_of_cons_eq hname, m, hb⟩
  | succ n =>
    rw [List.replicate_succ', ← List.cons_append, ← List.append_assoc] at he
    obtain ⟨-, hdot⟩ := List.append_inj' he rfl
    exact absurd (List.head_eq_of_cons_eq hdot) hn

/-- The entry that a path names stands in the directory of the path. -/
theorem Leads.stands {way : List String} (hl : Leads d S p.directory q)
    (hp : Path.Standing p way name) (h : d.slot? p = .ok (some s)) :
    Stands d S p s ∧ s.parent = q ∧ s.name = name := by
  obtain ⟨⟨before, -, hs, -⟩, ⟨hn, hn'⟩, hslash, hc, hd⟩ := stands_of_slot? h
  obtain ⟨hname, m, hb⟩ := steps_of_standing hp hs hn
  obtain ⟨links, hw⟩ := hl.way
  have hway : ∃ links, Way d S linkLimit (startOf p d.here) way links q [] := by
    rcases hp.directory with ⟨hsteps, ha⟩ | ⟨hdir, hnil, ha⟩
    · refine ⟨links, ?_⟩
      rwa [hsteps, startOf, ha] at hw
    · have hdots : Way d S linkLimit d.here (List.replicate 1 ".") links q [] := by
        rw [hdir] at hw
        exact hw
      obtain ⟨-, rfl⟩ := hdots.dots
      refine ⟨linkLimit, ?_⟩
      rw [hnil, startOf, ha]
      exact .stop hl.off
  obtain ⟨links, hw⟩ := hway
  have hbefore : Way d S linkLimit (startOf p d.here) before links q [] := by
    rw [hb]
    exact (hw.append _).trans (way_dots hl.off hl.dir m)
  have hslot := slot?_of_way hbefore hl.dir hs hc
  rw [h, if_neg (not_or.2 ⟨hn, hn'⟩)] at hslot
  injection hslot with hslot
  injection hslot with hslot
  have hq : s.parent = q := congrArg Slot.parent hslot
  exact ⟨⟨⟨before, links, hs, hq ▸ hbefore⟩, ⟨hn, hn'⟩, hslash, hc, hd⟩, hq, hname⟩

theorem head?_of_proper (h : ProperName name) : name.toList.head? ≠ some '/' :=
  fun he => h.2.1 (List.mem_of_head? he)

/-- A name at the end of a path leaves no slash there. -/
theorem endsInSlash_join (hn : ProperName name) : (p.join name).endsInSlash = false := by
  have ht : name.toList ≠ [] := by simpa using hn.1
  have hlast : (p.join name).text.toList.getLast? = name.toList.getLast? := by
    rw [Path.join, if_neg (head?_of_proper hn)]
    split <;> simp [List.getLast?_append, List.getLast?_cons, List.getLast?_eq_some_getLast ht]
  rw [Path.endsInSlash, hlast, decide_eq_false_iff_not]
  exact fun he => hn.2.1 (List.mem_of_getLast? he)

/-- A name below a path is its last step. -/
theorem steps_child (hn : ProperName name) : (p.join name).steps = p.steps ++ [name] := by
  rw [Path.steps_join (head?_of_proper hn), Path.stepNames_name hn.1 hn.2.1]

theorem start_child (hn : ProperName name) (here : Trail) :
    startOf (p.join name) here = startOf p here := by
  rw [startOf, startOf, Path.isAbsolute_join (head?_of_proper hn)]

/-- A name below a directory names its entry. -/
theorem Leads.child (hl : Leads d S p q) (hn : ProperName name)
    (hc : check (p.join name) = .ok ()) : Stands d S (p.join name) ⟨q, name, false⟩ := by
  obtain ⟨links, hw⟩ := hl.way
  refine ⟨⟨p.steps, links, steps_child hn, ?_⟩, hn.2.2, (endsInSlash_join hn).symm, hc, hl.dir⟩
  rw [start_child hn]
  exact hw

/-- The directory of a name below a directory is that directory. -/
theorem Leads.directory (hl : Leads d S p q) (hn : ProperName name)
    (hf : (p.join name).fileName? = some name) : Leads d S (p.join name).directory q := by
  obtain ⟨way, hway⟩ := Path.standing_of_fileName? hf
  obtain ⟨links, hw⟩ := hl.way
  obtain ⟨-, m, hm⟩ :=
    steps_of_standing (s := ⟨q, name, false⟩) hway (steps_child hn) hway.plain.1
  rw [hm] at hw
  obtain ⟨l, q', hfront, hdots⟩ := hw.split
  obtain ⟨-, rfl⟩ := hdots.dots
  have habs : (p.join name).isAbsolute = p.isAbsolute := Path.isAbsolute_join (head?_of_proper hn)
  rcases hway.directory with ⟨hd, ha⟩ | ⟨hd, hnil, ha⟩
  · refine ⟨⟨l, ?_⟩, hl.dir⟩
    rw [hd, startOf, ha, habs]
    exact hfront
  · rw [hnil] at hfront
    rw [startOf, ← habs, ha] at hfront
    obtain ⟨-, rfl, -⟩ := hfront.eq_of_nil
    rw [hd]
    exact ⟨⟨linkLimit, way_dots hl.off hl.dir 1⟩, hl.dir⟩

/-- A path leads on into a directory, also if the places below that are in `S`. -/
theorem Leads.enter (hl : Leads d S p q) (hn : ProperName name) (fits : isTooLong name = false)
    (hd : d.node? (q ++ [name]) = some .directory) :
    Leads d (S \ {q ++ [name]}) (p.join name) (q ++ [name]) := by
  obtain ⟨links, hw⟩ := hl.way
  refine ⟨⟨links, ?_⟩, hd⟩
  rw [steps_child hn, start_child hn]
  refine ((hw.mono fun _ hm => hm.1).append [name]).trans ?_
  exact .down (fun hm => hl.off hm.1) hl.dir hn.2.2 fits hd (fun _ => by simp)
    (.stop fun hm => hm.2 rfl)

/-- What stands before a name is a path for the system if the whole is one. -/
theorem check_of_join {rel : String} (hr : rel.toList.head? ≠ some '/') (hp : p.text ≠ "")
    (h : check (p.join rel) = .ok ()) : check p = .ok () := by
  obtain ⟨x, hx⟩ : ∃ x, (p.join rel).text = p.text ++ x := by
    rw [Path.join, if_neg hr]
    split
    · exact ⟨_, rfl⟩
    · exact ⟨"/" ++ rel, String.append_assoc ..⟩
  unfold check at h ⊢
  rw [hx] at h
  split at h
  · cases h
  next hnul =>
  split at h
  · cases h
  split at h
  · cases h
  next hlong =>
  rw [if_neg, if_neg hp, if_neg]
  · rw [String.utf8ByteSize_append] at hlong
    omega
  · intro hm
    refine hnul ?_
    rw [List.contains_iff_mem] at hm ⊢
    rw [String.toList_append]
    exact List.mem_append_left _ hm

theorem Leads.kind (hl : Leads d S p q) (hc : check p = .ok ()) : d.kind p = .ok .directory := by
  obtain ⟨links, hw⟩ := hl.way
  obtain ⟨es, hd⟩ := node?_eq_directory.1 hl.dir
  have hwalk : d.walk true linkLimit (startOf p d.here) (stepsOf p) =
      .ok (.held q (.directory es)) := by
    rw [stepsOf, walk_way hw (Or.inl rfl)]
    cases links <;> cases p.endsInSlash <;> simp [walk, walkOn, hd]
  rw [Disk.kind, held, Disk.find, hc]
  simp only [bind, Except.bind, hwalk]
  rfl

/-- A look at an entry goes on from its directory. -/
theorem Stands.find (h : Stands d S p s) : ∃ links, ∀ follow, d.find follow p =
    d.walk follow links s.parent (s.name :: if s.slashed then ["."] else []) := by
  obtain ⟨before, links, hs, hw⟩ := h.steps
  refine ⟨links, fun follow => ?_⟩
  have hsteps : stepsOf p = before ++ s.name :: if s.slashed then ["."] else [] := by
    rw [stepsOf, hs, List.append_assoc, h.slashed]
    rfl
  rw [Disk.find, h.proper, hsteps]
  exact walk_way hw (Or.inr (List.cons_ne_nil _ _))

theorem find_of_check {e : Fault} (h : check p = .error e) : d.find follow p = .error e := by
  rw [Disk.find, h]
  rfl

theorem Stands.find_long (h : Stands d S p s) (hl : isTooLong s.name = true) :
    d.find follow p = .error .nameTooLong := by
  obtain ⟨links, hf⟩ := h.find
  obtain ⟨es, hd⟩ := node?_eq_directory.1 h.dir
  rw [hf]
  cases links <;> simp [walk, walkOn, hd, h.plain, hl]

theorem Stands.held_none (h : Stands d S p s) (hl : isTooLong s.name = false)
    (hn : d.node? s.trail = none) : d.held follow p = .error .notFound := by
  obtain ⟨links, hf⟩ := h.find
  obtain ⟨es, hd⟩ := node?_eq_directory.1 h.dir
  have hg : d.get? (s.parent ++ [s.name]) = none := node?_eq_none.1 hn
  rw [held, hf]
  cases links <;> rw [walk, walkOn_name hd h.plain hl, hg] <;> cases s.slashed <;> rfl

theorem Stands.find_directory (h : Stands d S p s) (hl : isTooLong s.name = false)
    (hd : d.get? s.trail = some (.directory es)) :
    d.find follow p = .ok (.held s.trail (.directory es)) := by
  obtain ⟨links, hf⟩ := h.find
  obtain ⟨es', hd'⟩ := node?_eq_directory.1 h.dir
  have hg : d.get? (s.parent ++ [s.name]) = some (.directory es) := hd
  rw [hf]
  cases links <;> rw [walk, walkOn_name hd' h.plain hl, hg] <;> cases s.slashed <;>
    simp [walkOn, hg, Slot.trail]

theorem Stands.find_file (h : Stands d S p s) (hl : isTooLong s.name = false)
    (hn : d.get? s.trail = some (.file bytes)) :
    d.find follow p =
      if s.slashed then .error .notDirectory else .ok (.held s.trail (.file bytes)) := by
  obtain ⟨links, hf⟩ := h.find
  obtain ⟨es', hd'⟩ := node?_eq_directory.1 h.dir
  have hg : d.get? (s.parent ++ [s.name]) = some (.file bytes) := hn
  rw [hf]
  cases links <;> rw [walk, walkOn_name hd' h.plain hl, hg] <;> cases s.slashed <;>
    simp [walkOn, hg, Slot.trail]

theorem Stands.find_link (h : Stands d S p s) (hl : isTooLong s.name = false)
    (hn : d.get? s.trail = some (.link target)) (hs : s.slashed = false) :
    d.find false p = .ok (.held s.trail (.link target)) := by
  obtain ⟨links, hf⟩ := h.find
  obtain ⟨es', hd'⟩ := node?_eq_directory.1 h.dir
  have hg : d.get? (s.parent ++ [s.name]) = some (.link target) := hn
  rw [hf, hs]
  cases links <;> rw [walk, walkOn_name hd' h.plain hl, hg] <;> simp [Slot.trail]

theorem Stands.find_free (h : Stands d S p s) (hl : isTooLong s.name = false)
    (hn : d.node? s.trail = none) (hs : s.slashed = false) :
    d.find follow p = .ok (.free s.parent s.name) := by
  obtain ⟨links, hf⟩ := h.find
  rw [hf, hs]
  exact walk_free h.dir h.plain hl hn

/-- A path names a place, and may name a file there. -/
def Names (d : Disk) (S : Set Trail) (p : Path) (a : Trail) : Prop :=
  ∃ s, Stands d S p s ∧ s.trail = a ∧ s.slashed = false ∧ isTooLong s.name = false

theorem Names.agree {a : Trail} (h : Names d S p a) (ha : Agree S d d') : Names d' S p a := by
  obtain ⟨s, hs, hrest⟩ := h
  exact ⟨s, hs.agree ha, hrest⟩

/-- What is read at a place that holds a file or nothing. -/
theorem Names.contents {a : Trail} {old? : Option ByteArray} (h : Names d S p a)
    (hn : d.node? a = old?.map .file) : (d.contents p).toOption = old? := by
  obtain ⟨s, hs, rfl, hslash, hfits⟩ := h
  cases old? with
  | none =>
    rw [Disk.contents, hs.held_none hfits hn]
    rfl
  | some old =>
    rw [Disk.contents, held, hs.find_file hfits (node?_eq_file.1 hn), hslash]
    rfl

theorem Names.contents_directory {a : Trail} (h : Names d S p a)
    (hn : d.node? a = some .directory) : (d.contents p).toOption = none := by
  obtain ⟨s, hs, rfl, -, hfits⟩ := h
  obtain ⟨es, hd⟩ := node?_eq_directory.1 hn
  rw [Disk.contents, held, hs.find_directory hfits hd]
  rfl

/-- What is read at a place that holds no link is read there on every disk that agrees on the way
and on the place. -/
theorem Names.contents_eq {a : Trail} (h : Names d S p a) (ha : Agree S d d')
    (hn : d'.node? a = d.node? a) (hl : ∀ target, d.node? a ≠ some (.link target)) :
    (d'.contents p).toOption = (d.contents p).toOption := by
  have h' := h.agree ha
  cases hk : d.node? a with
  | none =>
    have hread : (d.contents p).toOption = none := h.contents hk
    rw [hread]
    exact h'.contents (hn.trans hk)
  | some k =>
    cases k with
    | file old =>
      have hread : (d.contents p).toOption = some old := h.contents hk
      rw [hread]
      exact h'.contents (hn.trans hk)
    | link target => exact absurd hk (hl target)
    | directory => rw [h.contents_directory hk, h'.contents_directory (hn.trans hk)]

/-- What is read at an entry of a directory is told by the entry, if that is no link. -/
theorem Leads.contents_child (hl : Leads d S p q) (hname : ProperName name)
    (hfits : isTooLong name = false) (ha : Agree S d d')
    (hn : d'.node? (q ++ [name]) = d.node? (q ++ [name]))
    (hlink : ∀ target, d.node? (q ++ [name]) ≠ some (.link target)) :
    (d'.contents (p.join name)).toOption = (d.contents (p.join name)).toOption := by
  cases hc : check (p.join name) with
  | error e =>
    rw [Disk.contents, Disk.contents, held, held, find_of_check hc, find_of_check hc]
  | ok u => exact Names.contents_eq ⟨_, hl.child hname hc, rfl, rfl, hfits⟩ ha hn hlink

end Disk

end Vendoring.Files
