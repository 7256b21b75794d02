import Vendoring.Proofs.Files.Copying

/-! Replacing a file and removing a tree where a path leads to its entry: what is left if they fail,
whatever the system refuses, and that what worked once works again. -/
namespace Vendoring.Files
namespace Disk
open Outcome Carrier

variable {σ : Type} [FileStore (StateM σ)] [Carrier σ] [LawfulCarrier σ] {w w' w₀ w₀' : σ}
  {d d' d'' : Disk} {S S' : Set Trail} {p : Path} {q t u : Trail} {s : Slot}
  {way : List String} {name : String} {bytes bytes₀ : ByteArray} {scratch : Scratch}
  {r : Except Fault Unit} {L L' : Trail → Option Node → Prop}

/-- Nothing is changed but that places hold what `L` allows there. -/
structure Leaves (L : Trail → Option Node → Prop) (d d' : Disk) : Prop where
  here : d'.here = d.here
  node : ∀ t, d'.node? t = d.node? t ∨ L t (d'.node? t)

theorem Leaves.refl (L : Trail → Option Node → Prop) (d : Disk) : Leaves L d d :=
  ⟨rfl, fun _ => Or.inl rfl⟩

theorem Leaves.trans (h : Leaves L d d') (h' : Leaves L d' d'') : Leaves L d d'' := by
  refine ⟨h'.here.trans h.here, fun t => ?_⟩
  rcases h'.node t with he | he
  · rw [he]
    exact h.node t
  · exact Or.inr he

theorem Leaves.mono (h : Leaves L d d') (hL : ∀ t k, L t k → L' t k) : Leaves L' d d' :=
  ⟨h.here, fun t => (h.node t).imp_right (hL t _)⟩

theorem Leaves.agree (h : Leaves L d d') (hL : ∀ t k, L t k → t ∈ S) : Agree S d d' :=
  ⟨h.here, fun t ht => (h.node t).resolve_right fun hn => ht (hL t _ hn)⟩

theorem leaves_of_gone (h : Agree (below t) d d') (hg : d'.subtree t = nothing)
    (hL : ∀ u ∈ below t, L u none) : Leaves L d d' := by
  refine ⟨h.here, fun u => ?_⟩
  by_cases hu : t <+: u
  · obtain ⟨r, rfl⟩ := hu
    have hnone : d'.node? (t ++ r) = none := congrFun hg r
    rw [hnone]
    exact Or.inr (hL _ (List.prefix_append t r))
  · exact Or.inl (h.node u hu)

/-- Some places of `S` are empty. -/
def Gone (S : Set Trail) (t : Trail) (k : Option Node) : Prop := t ∈ S ∧ k = none

/-- What is left of a file that could not be written at `u`: nothing, or a first part of it if the
system refused a change. -/
def Scraps (w w' : σ) (u : Trail) (bytes : ByteArray) (t : Trail) (k : Option Node) : Prop :=
  Gone (below u) t k ∨ Struck w w' ∧ t = u ∧ ∃ n, k = some (.file (bytes.extract 0 n))

omit [FileStore (StateM σ)] [LawfulCarrier σ] in
theorem Scraps.since {w'' : σ} {k : Option Node} (h : Scraps w' w'' u bytes t k)
    (hl : refusals w' <:+ refusals w) : Scraps w w'' u bytes t k :=
  h.imp_right fun hs => ⟨hs.1.since hl, hs.2⟩

omit [FileStore (StateM σ)] [LawfulCarrier σ] in
theorem Scraps.below {k : Option Node} (h : Scraps w w' u bytes t k) : t ∈ below u := by
  rcases h with ⟨ht, -⟩ | ⟨-, rfl, -⟩
  · exact ht
  · exact List.prefix_refl t

omit [FileStore (StateM σ)] [LawfulCarrier σ] in
theorem Scraps.file {k : Node} (h : Scraps w w' u bytes t (some k)) : ∃ old, k = .file old := by
  rcases h with ⟨-, he⟩ | ⟨-, -, n, he⟩
  · cases he
  · exact ⟨_, Option.some.inj he⟩

omit [FileStore (StateM σ)] [LawfulCarrier σ] in
theorem Scraps.not_link {target : String} : ¬ Scraps w w' u bytes t (some (.link target)) := by
  intro h
  obtain ⟨_, he⟩ := h.file
  cases he

theorem subtree_of_none (h : d.node? t = none) : d.subtree t = nothing :=
  funext fun r => node?_append_of_none h r

/-! ## Making directories that are there -/

/-- A path that directories can be made for. -/
def Makeable (p : Path) : Prop := (p.text = "" ∨ p.parents = []) ∨ check p = .ok ()

theorem check_ne_notFound {p : Path} (h : p.text ≠ "") : check p ≠ .error .notFound := by
  unfold check
  rw [if_neg h]
  split
  · simp
  · split <;> simp

/-- Making directories where the path leads already changes nothing. -/
theorem makeDirectories_there (hn : .notFound ∉ refusals w) (hl : Leads (disk w) S p q)
    (h : on (makeDirectories p : Work σ Fault Unit) w = (r, w')) :
    disk w' = disk w ∧ refusals w' <:+ refusals w ∧ (r = .ok () ↔ Makeable p) := by
  rw [makeDirectories, Path.ancestors, makeFirst] at h
  by_cases hp : p.text = "" ∨ p.parents = []
  · rw [if_pos hp] at h
    cases h
    exact ⟨rfl, List.suffix_refl _, fun _ => Or.inl hp, fun _ => rfl⟩
  rw [if_neg hp] at h
  obtain ⟨made, w₁, hmake, h⟩ := on_bind_attempt_eq.1 h
  obtain ⟨hlater, ⟨-, hok⟩ | ⟨e, rfl, hdisk, hcause⟩⟩ := makeDirectory_run hmake
  · exact absurd hok (makeDirectory_of_leads_ne hl)
  -- The directory could not be made, so that it is looked at.
  have hfound : e ≠ .notFound := by
    rintro rfl
    rcases hcause with he | ⟨-, hm⟩
    · cases hc : check p with
      | ok u =>
        rw [makeDirectory_of_leads hl hc] at he
        cases he
      | error e =>
        rw [makeDirectory_of_check hc] at he
        cases he
        exact check_ne_notFound (fun ht => hp (Or.inl ht)) hc
    · exact hn hm
  have hlook : on (do unless ← (isDirectory p : StateM σ Bool) do throw e : Work σ Fault Unit) w₁ =
      (r, w') := by
    rw [← h]
    cases e <;> first | exact absurd rfl hfound | rfl
  rw [on_bind, on_isDirectory, hdisk] at hlook
  dsimp only at hlook
  cases hc : check p with
  | ok u =>
    rw [if_pos (decide_eq_true (hl.kind hc))] at hlook
    cases hlook
    exact ⟨hdisk, hlater, fun _ => Or.inr hc, fun _ => rfl⟩
  | error e' =>
    have hkind : (disk w).kind p = .error e' := by
      rw [kind, held, find_of_check hc]
      rfl
    rw [if_neg (by simp [hkind])] at hlook
    cases hlook
    refine ⟨hdisk, hlater, fun hr => (by cases hr), fun hm => ?_⟩
    rcases hm with hm | hm
    · exact absurd hm hp
    · rw [hc] at hm
      cases hm

/-! ## The file that is written first -/

theorem check_of_write (h : d.write p bytes = .ok d') : check p = .ok () := by
  rcases write_place h with ⟨_, _, hf, -⟩ | ⟨_, _, hf, -⟩ <;>
  · obtain ⟨⟨⟩, hc, -⟩ := bind_eq_ok.1 hf
    exact hc

/-- Where the new contents of a file are written first, seen from the directory `q` of the file. -/
def tempPlace (scratch : Scratch) (p : Path) (q : Trail) : Trail := q ++ [scratch.tempName p]

theorem tempName_ne (h : p.fileName? = some name) : scratch.tempName p ≠ name := by
  intro he
  have hl := congrArg (·.toList.length) he
  simp only [Scratch.tempName, h, Option.getD_some, String.toList_append, List.length_append] at hl
  have hdot : (".").toList.length = 1 := rfl
  omega

/-- Two entries of a directory are apart. -/
theorem not_below_sibling {name' : String} (h : name ≠ name') : ¬ q ++ [name] <+: q ++ [name'] := by
  intro hp
  have he := (List.prefix_append_right_inj q).1 hp
  exact h (List.cons_prefix_cons.1 he).1

/-- A file has new contents, and those that were written first are gone. -/
structure Replaced (S : Set Trail) (d d' : Disk) (p : Path) (t a : Trail)
    (bytes : ByteArray) : Prop where
  names : Names d S p a
  free : d.node? a ≠ some .directory
  agree : Agree (below t ∪ below a) d d'
  temp : d'.subtree t = nothing
  contents : d'.subtree a = (Tree.file bytes).node?

/-- The place of the contents that are written first, seen as an entry. -/
theorem stands_beside (hl : Leads d S p.directory q) (htag : '/' ∉ scratch.tag.toList)
    (hc : check (scratch.beside p) = .ok ()) :
    Stands d S (scratch.beside p) ⟨q, scratch.tempName p, false⟩ := by
  have hname := scratch.proper_tempName htag p
  exact hl.child hname hc

theorem node?_temp (hd : d.subtree (tempPlace scratch p q) = (Tree.file bytes).node?) :
    d.node? (tempPlace scratch p q) = some (.file bytes) := by
  rw [← subtree_nil, hd]
  rfl

/-- Written contents that are moved into place. -/
theorem replaced_of_rename (hl : Leads d S p.directory q) (hp : p.fileName? = some name)
    (htag : '/' ∉ scratch.tag.toList) (hc : check (scratch.beside p) = .ok ())
    (hd : d.subtree (tempPlace scratch p q) = (Tree.file bytes).node?)
    (h : d.rename (scratch.beside p) p = .ok d') :
    Replaced S d d' p (tempPlace scratch p q) (q ++ [name]) bytes := by
  obtain ⟨way, hway⟩ := Path.standing_of_fileName? hp
  have htemp := stands_beside hl htag hc
  obtain ⟨a, s, ha, hs, hmove⟩ := rename_slots h
  rw [htemp.slot?] at ha
  cases ha
  obtain ⟨hstands, hq, hn⟩ := hl.stands hway hs
  have hs' : s.trail = q ++ [name] := by rw [Slot.trail, hq, hn]
  have hne : Slot.trail ⟨q, scratch.tempName p, false⟩ ≠ s.trail := by
    rw [hs']
    intro he
    exact tempName_ne hp (List.head_eq_of_cons_eq (List.append_cancel_left he))
  obtain ⟨hmoved, hmovable, hfree⟩ := move_moved hmove hne hstands.dir
  have hndir : d.node? (Slot.trail ⟨q, scratch.tempName p, false⟩) ≠ some .directory := by
    rw [Slot.trail, ← tempPlace, node?_temp hd]
    simp
  refine ⟨⟨s, hstands, hs', ?_, hmovable.fits.2⟩, ?_, ?_, hmoved.gone, ?_⟩
  · exact (hmovable.kind.resolve_left hndir).2
  · rw [← hs']
    exact hfree hndir
  · rw [← hs']
    exact hmoved.agree
  · rw [← hs', hmoved.moved]
    exact hd

/-- Written contents can be taken away again. -/
theorem removeFile_beside (hl : Leads d S p.directory q) (htag : '/' ∉ scratch.tag.toList)
    (hc : check (scratch.beside p) = .ok ()) (hlong : isTooLong (scratch.tempName p) = false)
    (hd : d.subtree (tempPlace scratch p q) = (Tree.file bytes).node?) :
    d.removeFile (scratch.beside p) = .ok (d.erase (tempPlace scratch p q)) := by
  have hnode : d.node? (Slot.trail ⟨q, scratch.tempName p, false⟩) = some (.file bytes) :=
    node?_temp hd
  exact removeFile_eq_ok (stands_beside hl htag hc).slot? hlong rfl (by simp [hnode])
    (by simp [hnode])

/-- Written contents can be moved into place if a file may stand there. -/
theorem rename_beside (hl : Leads d S p.directory q) (hp : p.fileName? = some name)
    (htag : '/' ∉ scratch.tag.toList) (hc : check (scratch.beside p) = .ok ())
    (hlong : isTooLong (scratch.tempName p) = false) (hnames : Names d S p (q ++ [name]))
    (hfree : d.node? (q ++ [name]) ≠ some .directory)
    (hd : d.subtree (tempPlace scratch p q) = (Tree.file bytes).node?) :
    ∃ d', d.rename (scratch.beside p) p = .ok d' := by
  obtain ⟨s, hs, hs', hslash, hfits⟩ := hnames
  have hnode : d.node? (Slot.trail ⟨q, scratch.tempName p, false⟩) = some (.file bytes) :=
    node?_temp hd
  have hmovable : Movable d ⟨q, scratch.tempName p, false⟩ s := by
    refine ⟨⟨hlong, hfits⟩, by simp [hnode], ?_, Or.inr ⟨rfl, hslash⟩⟩
    rw [hs']
    exact ⟨not_below_sibling (tempName_ne hp), not_below_sibling (tempName_ne hp).symm⟩
  obtain ⟨d', hm⟩ := move_eq_ok hmovable (Or.inr ⟨by simp [hnode], hs' ▸ hfree⟩)
  refine ⟨d', ?_⟩
  rw [rename, (stands_beside hl htag hc).slot?, hs.slot?]
  simp only [bind, Except.bind, hm]

/-- Written contents are moved into place, or else they are taken away again, unless that is
refused. -/
theorem publish_cases (hl : Leads (disk w) S p.directory q) (hp : p.fileName? = some name)
    (htag : '/' ∉ scratch.tag.toList) (hc : check (scratch.beside p) = .ok ())
    (hlong : isTooLong (scratch.tempName p) = false)
    (hd : (disk w).subtree (tempPlace scratch p q) = (Tree.file bytes).node?)
    (h : on (publish (scratch.beside p) p : Work σ Fault Unit) w = (r, w')) :
    (∃ e, r = .error e ∧ (Sets (disk w) (disk w') (tempPlace scratch p q) nothing ∨
        Struck w w' ∧ disk w' = disk w)) ∨
      r = .ok () ∧ Replaced S (disk w) (disk w') p (tempPlace scratch p q) (q ++ [name]) bytes := by
  obtain ⟨moved, w₁, hmove, h⟩ := on_bind_attempt_eq.1 h
  obtain ⟨hlater, ⟨rfl, hm⟩ | ⟨e, rfl, hdisk, -⟩⟩ := rename_run hmove
  · cases h
    exact Or.inr ⟨rfl, replaced_of_rename hl hp htag hc hd hm⟩
  · obtain ⟨removed, w₂, hremove, h⟩ := on_bind_attempt_eq.1 h
    cases h
    refine Or.inl ⟨e, rfl, ?_⟩
    have heq := removeFile_beside hl htag hc hlong hd
    obtain ⟨-, ⟨-, hok⟩ | ⟨e', -, hdisk', hcause⟩⟩ := removeFile_run hremove
    · rw [hdisk, heq] at hok
      rw [← Except.ok.inj hok]
      exact Or.inl (sets_erase _ q _)
    · rw [hdisk, heq] at hcause
      obtain ⟨hstruck, -⟩ := hcause.resolve_left (by simp)
      exact Or.inr ⟨hstruck.since hlater, hdisk'.trans hdisk⟩

omit [FileStore (StateM σ)] [LawfulCarrier σ] in
/-- The contents that are written first hold as many of the bytes as were written. -/
theorem scraps_of_sets {n : Nat} (hs : Struck w w')
    (h : Sets d d' u (Tree.file (bytes.extract 0 n)).node?) :
    Leaves (Scraps w w' u bytes) d d' := by
  refine ⟨h.agree.here, fun t => ?_⟩
  by_cases ht : u <+: t
  · obtain ⟨r, rfl⟩ := ht
    refine Or.inr ?_
    have hnode : d'.node? (u ++ r) = (Tree.file (bytes.extract 0 n)).node? r :=
      congrFun h.subtree r
    cases hk : d'.node? (u ++ r) with
    | none => exact Or.inl ⟨List.prefix_append u r, rfl⟩
    | some k =>
      rw [hk] at hnode
      obtain ⟨rfl, rfl⟩ := node?_file _ hnode.symm
      exact Or.inr ⟨hs, List.append_nil u, n, rfl⟩
  · exact Or.inl (h.agree.node t ht)

/-- New contents that were written first are moved into place, or else all is as it was, but for
them. -/
theorem written_cases (hl : Leads d S p.directory q) (hp : p.fileName? = some name)
    (htag : '/' ∉ scratch.tag.toList) (ht : below (tempPlace scratch p q) ⊆ S)
    (hlink : ∀ target, d.node? (tempPlace scratch p q) ≠ some (.link target))
    (hw : d.write (scratch.beside p) bytes = .ok (disk w))
    (h : on (publish (scratch.beside p) p : Work σ Fault Unit) w = (r, w')) :
    (∃ e, r = .error e ∧ Leaves (Scraps w w' (tempPlace scratch p q) bytes) d (disk w')) ∨
      r = .ok () ∧ Replaced S d (disk w') p (tempPlace scratch p q) (q ++ [name]) bytes := by
  have hc := check_of_write hw
  obtain ⟨-, hlong, hset⟩ := write_sets (stands_beside hl htag hc) rfl hlink hw
  have hagree : Agree S d (disk w) := hset.agree.mono ht
  rcases publish_cases (hl.agree hagree) hp htag hc hlong hset.subtree h with
    ⟨e, rfl, hgone | ⟨hstruck, hsame⟩⟩ | ⟨rfl, hrep⟩
  · exact Or.inl ⟨e, rfl, leaves_of_gone (hset.agree.trans hgone.agree) hgone.subtree
      fun u hu => Or.inl ⟨hu, rfl⟩⟩
  · have hall : bytes.extract 0 bytes.size = bytes := by simp
    rw [← hsame] at hset
    exact Or.inl ⟨e, rfl, scraps_of_sets (n := bytes.size) hstruck (hall.symm ▸ hset)⟩
  · refine Or.inr ⟨rfl, ?_⟩
    refine ⟨hrep.names.agree hagree.symm, ?_, ?_, hrep.temp, hrep.contents⟩
    · rw [← hset.agree.node _ (not_below_sibling (tempName_ne hp))]
      exact hrep.free
    · exact (hset.agree.mono Set.subset_union_left).trans hrep.agree

theorem wanes_makeDirectories (p : Path) : Wanes (makeDirectories p : Work σ Fault Unit) :=
  keeps_makeFirst fun _ _ _ => keeps_makeDirectory_of fun _ _ _ _ => trivial

theorem wanes_write (p : Path) (bytes : ByteArray) :
    Wanes (FileStore.write p bytes : Work σ Fault Unit) :=
  keeps_write_of (fun _ _ _ _ _ => trivial) bytes

theorem wanes_rename (source target : Path) :
    Wanes (FileStore.rename source target : Work σ Fault Unit) :=
  keeps_rename_of fun _ _ _ _ => trivial

theorem wanes_removeFile (p : Path) : Wanes (FileStore.removeFile p : Work σ Fault Unit) :=
  keeps_removeFile_of fun _ _ _ _ => trivial

theorem wanes_replaceFile (scratch : Scratch) (p : Path) (bytes : ByteArray) :
    Wanes (replaceFile scratch p bytes : Work σ Fault Unit) :=
  keeps_replaceFile_of (wanes_makeDirectories _) (wanes_write _ _) (wanes_rename _ _)
    (wanes_removeFile _)

/-- A file is replaced, or all is as it was, but for what was written first. -/
theorem replaceFile_cases (hn : .notFound ∉ refusals w) (hl : Leads (disk w) S p.directory q)
    (hp : p.fileName? = some name) (htag : '/' ∉ scratch.tag.toList)
    (ht : below (tempPlace scratch p q) ⊆ S)
    (hlink : ∀ target, (disk w).node? (tempPlace scratch p q) ≠ some (.link target))
    (h : on (replaceFile scratch p bytes : Work σ Fault Unit) w = (r, w')) :
    (∃ e, r = .error e ∧
        Leaves (Scraps w w' (tempPlace scratch p q) bytes) (disk w) (disk w')) ∨
      r = .ok () ∧ Replaced S (disk w) (disk w') p (tempPlace scratch p q) (q ++ [name]) bytes := by
  rw [replaceFile, on_bind] at h
  cases hmake : on (makeDirectories p.directory : Work σ Fault Unit) w with
  | mk made w₁ =>
  obtain ⟨hdisk, hlater, -⟩ := makeDirectories_there hn hl hmake
  rw [hmake] at h
  cases made with
  | error e =>
    cases h
    exact Or.inl ⟨e, rfl, hdisk ▸ .refl _ _⟩
  | ok u =>
  dsimp only at h
  rw [on_bind] at h
  cases hwrite : on (FileStore.write (scratch.beside p) bytes : Work σ Fault Unit) w₁ with
  | mk written w₂ =>
  rw [hwrite] at h
  rcases write_run hwrite with ⟨rfl, hw⟩ | ⟨e, rfl, hfails⟩
  · rw [hdisk] at hw
    have hlater' := ((wanes_write (scratch.beside p) bytes).run trivial hwrite).2.2.trans hlater
    refine (written_cases hl hp htag ht hlink hw h).imp_left ?_
    rintro ⟨e, rfl, hleaves⟩
    exact ⟨e, rfl, hleaves.mono fun t k hk => hk.since hlater'⟩
  · cases h
    refine Or.inl ⟨e, rfl, ?_⟩
    rw [hdisk] at hfails
    rcases hfails with ⟨-, hsame⟩ | ⟨hstruck, hsame | ⟨n, hw⟩⟩
    · exact hsame ▸ .refl _ _
    · exact hsame ▸ .refl _ _
    · have hc := check_of_write hw
      obtain ⟨-, -, hset⟩ := write_sets (stands_beside hl htag hc) rfl hlink hw
      exact scraps_of_sets (hstruck.since hlater) hset

theorem replaced_of_ok (hn : .notFound ∉ refusals w) (hl : Leads (disk w) S p.directory q)
    (hp : p.fileName? = some name) (htag : '/' ∉ scratch.tag.toList)
    (ht : below (tempPlace scratch p q) ⊆ S)
    (hlink : ∀ target, (disk w).node? (tempPlace scratch p q) ≠ some (.link target))
    (h : on (replaceFile scratch p bytes : Work σ Fault Unit) w = (.ok (), w')) :
    Replaced S (disk w) (disk w') p (tempPlace scratch p q) (q ++ [name]) bytes := by
  rcases replaceFile_cases hn hl hp htag ht hlink h with ⟨e, he, -⟩ | ⟨-, hrep⟩
  · cases he
  · exact hrep

theorem scraps_of_error {e : Fault} (hn : .notFound ∉ refusals w)
    (hl : Leads (disk w) S p.directory q) (hp : p.fileName? = some name)
    (htag : '/' ∉ scratch.tag.toList) (ht : below (tempPlace scratch p q) ⊆ S)
    (hlink : ∀ target, (disk w).node? (tempPlace scratch p q) ≠ some (.link target))
    (h : on (replaceFile scratch p bytes : Work σ Fault Unit) w = (.error e, w')) :
    Leaves (Scraps w w' (tempPlace scratch p q) bytes) (disk w) (disk w') := by
  rcases replaceFile_cases hn hl hp htag ht hlink h with ⟨_, -, hleaves⟩ | ⟨he, -⟩
  · exact hleaves
  · cases he

/-- A file can be replaced if both names beside each other can be given to files, and nothing is
refused. -/
theorem replaceFile_works (hn : .notFound ∉ refusals w) (hl : Leads (disk w) S p.directory q)
    (hp : p.fileName? = some name) (htag : '/' ∉ scratch.tag.toList)
    (ht : below (tempPlace scratch p q) ⊆ S) (hmade : Makeable p.directory)
    (hc : check (scratch.beside p) = .ok ()) (hlong : isTooLong (scratch.tempName p) = false)
    (hnames : Names (disk w) S p (q ++ [name]))
    (hfree : (disk w).node? (q ++ [name]) ≠ some .directory)
    (htemp : ∀ k, (disk w).node? (tempPlace scratch p q) = some k → ∃ old, k = .file old)
    (h : on (replaceFile scratch p bytes : Work σ Fault Unit) w = (r, w')) :
    r = .ok () ∨ Struck w w' := by
  obtain ⟨s, hs, hs', hslash, hfits⟩ := hnames
  have hbeside := stands_beside hl htag hc
  have hw₁ : (disk w).write (scratch.beside p) bytes = .ok _ :=
    write_eq_put hbeside rfl hlong htemp bytes
  have hlink (target : String) : (disk w).node? (tempPlace scratch p q) ≠ some (.link target) := by
    intro hn
    obtain ⟨old, ho⟩ := htemp _ hn
    cases ho
  rw [replaceFile, on_bind] at h
  cases hmake : on (makeDirectories p.directory : Work σ Fault Unit) w with
  | mk made w₁ =>
  obtain ⟨hdisk, hlater, hok⟩ := makeDirectories_there hn hl hmake
  rw [hmake, hok.2 hmade] at h
  dsimp only at h
  rw [on_bind] at h
  cases hwrite : on (FileStore.write (scratch.beside p) bytes : Work σ Fault Unit) w₁ with
  | mk written w₂ =>
  rw [hwrite] at h
  have hlater₂ := ((wanes_write (scratch.beside p) bytes).run trivial hwrite).2.2
  rcases write_run hwrite with ⟨rfl, hw₂⟩ | ⟨e, rfl, ⟨hfails, -⟩ | ⟨hstruck, -⟩⟩
  · rw [hdisk] at hw₂
    obtain ⟨-, -, hset⟩ := write_sets hbeside rfl hlink hw₂
    have hagree : Agree S (disk w) (disk w₂) := hset.agree.mono ht
    obtain ⟨d, hrename⟩ := rename_beside (hl.agree hagree) hp htag hc hlong
      ⟨s, hs.agree hagree, hs', hslash, hfits⟩
      (by rwa [hset.agree.node _ (not_below_sibling (tempName_ne hp))]) hset.subtree
    obtain ⟨moved, w₃, hmove, h⟩ := on_bind_attempt_eq.1 h
    obtain ⟨-, ⟨rfl, -⟩ | ⟨e, rfl, -, hcause⟩⟩ := rename_run hmove
    · cases h
      exact Or.inl rfl
    · rw [hrename] at hcause
      obtain ⟨hstruck, -⟩ := hcause.resolve_left (by simp)
      obtain ⟨_, w₄, hremove, h⟩ := on_bind_attempt_eq.1 h
      cases h
      exact Or.inr ((hstruck.until (removeFile_run hremove).1).since (hlater₂.trans hlater))
  · rw [hdisk, hw₁] at hfails
    cases hfails
  · cases h
    exact Or.inr (hstruck.since hlater)

/-- What was replaced once can be replaced again, if the disk differs where that changed it. -/
theorem replaceFile_again (hn₀ : .notFound ∉ refusals w₀) (hn : .notFound ∉ refusals w)
    (hl : Leads (disk w₀) S p.directory q) (hp : p.fileName? = some name)
    (htag : '/' ∉ scratch.tag.toList) (ht : below (tempPlace scratch p q) ⊆ S)
    (hlink : ∀ target, (disk w₀).node? (tempPlace scratch p q) ≠ some (.link target))
    (h₀ : on (replaceFile scratch p bytes₀ : Work σ Fault Unit) w₀ = (.ok (), w₀'))
    (ha : Agree S (disk w₀) (disk w)) (hfree : (disk w).node? (q ++ [name]) ≠ some .directory)
    (htemp : ∀ k, (disk w).node? (tempPlace scratch p q) = some k → ∃ old, k = .file old)
    (h : on (replaceFile scratch p bytes : Work σ Fault Unit) w = (r, w')) :
    r = .ok () ∨ Struck w w' := by
  have hnames := (replaced_of_ok hn₀ hl hp htag ht hlink h₀).names
  obtain ⟨_, w₁, hmake, hwrite⟩ := on_bind_eq_ok.1 h₀
  obtain ⟨hdisk, -, hok⟩ := makeDirectories_there hn₀ hl hmake
  obtain ⟨_, _, hwrite, -⟩ := on_bind_eq_ok.1 hwrite
  rcases write_run hwrite with ⟨-, hw⟩ | ⟨e, he, -⟩
  · rw [hdisk] at hw
    have hc := check_of_write hw
    obtain ⟨-, hlong, -⟩ := write_sets (stands_beside hl htag hc) rfl hlink hw
    exact replaceFile_works hn (hl.agree ha) hp htag ht (hok.1 rfl) hc hlong (hnames.agree ha)
      hfree htemp h
  · cases he

/-! ## Removing a tree -/

/-- The entry that a path names, and not what a link there leads to. -/
def Plainly (d : Disk) (s : Slot) : Prop :=
  s.slashed = false ∨ isTooLong s.name = false ∧ d.node? s.trail = some .directory

/-- What a directory has lost is gone, and nothing else. -/
theorem leaves_of_thins (hs : Stands d S p s) (hu : Plainly d s) (h : Thins p d d') :
    Leaves (Gone (below s.trail)) d d' := by
  rcases h with rfl | ⟨t, es, es', hheld, rfl, hless⟩
  · exact .refl _ _
  have hx : d.get? s.trail = some (.directory es) ∧ t = s.trail := by
    cases hlong : isTooLong s.name with
    | true =>
      rw [held, hs.find_long hlong] at hheld
      cases hheld
    | false =>
      cases hx : d.get? s.trail with
      | none =>
        rw [hs.held_none hlong (node?_eq_none.2 hx)] at hheld
        cases hheld
      | some x =>
        have hslash (hd : x.node ≠ .directory) : s.slashed = false := hu.resolve_right fun hu => by
          rw [node?_of_get? hx] at hu
          exact hd (Option.some.inj hu.2)
        cases x with
        | directory _ =>
          rw [held, hs.find_directory hlong hx] at hheld
          cases hheld
          exact ⟨rfl, rfl⟩
        | file _ =>
          rw [held, hs.find_file hlong hx, hslash (by simp [Tree.node])] at hheld
          cases hheld
        | link _ =>
          rw [held, hs.find_link hlong hx (hslash (by simp [Tree.node]))] at hheld
          cases hheld
  obtain ⟨hx, rfl⟩ := hx
  refine ⟨rfl, fun u => ?_⟩
  by_cases hb : s.trail <+: u
  · obtain ⟨r, rfl⟩ := hb
    have hnode : d.node? (s.trail ++ r) = (Tree.directory es).node? r :=
      congrFun (subtree_of_get? hx) r
    rw [node?_put_of_get? hx, hnode]
    exact (hless r).imp_right fun hnone => ⟨List.prefix_append _ r, hnone⟩
  · exact Or.inl ((agree_put d s.trail (.directory es')).node u hb)

theorem removeTree_plainly (hs : Stands d S p s) (hb : below s.trail ⊆ S) (hu : Plainly d s) :
    (∃ e, d.removeTree p = (.error e, d) ∧ (e = .notFound → d.node? s.trail = none)) ∨
      ∃ d', d.removeTree p = (.ok (), d') ∧ Sets d d' s.trail nothing := by
  rcases hu with hu | ⟨hlong, hdir⟩
  · exact (removeTree_sets hs hb hu).imp_right And.right
  · exact Or.inr (removeTree_directory hs hb hlong hdir)

/-- A tree is taken away, or some of it is left. A directory is taken away unless that is refused. -/
theorem removeTree_cases (hs : Stands (disk w) S p s) (hb : below s.trail ⊆ S)
    (hu : Plainly (disk w) s)
    (h : on (FileStore.removeTree p : Work σ Fault Unit) w = (r, w')) :
    (∃ e, r = .error e ∧ Leaves (Gone (below s.trail)) (disk w) (disk w') ∧
        (isTooLong s.name = false → (disk w).node? s.trail = some .directory → Struck w w') ∧
        (e = .notFound → .notFound ∈ refusals w ∨ Sets (disk w) (disk w') s.trail nothing)) ∨
      r = .ok () ∧ Sets (disk w) (disk w') s.trail nothing := by
  rcases removeTree_run h with hrun | ⟨e, hm, rfl, hstruck, hthin⟩
  · rcases removeTree_plainly hs hb hu with ⟨e, he, hnone⟩ | ⟨d₁, hr, hset⟩
    · rw [he] at hrun
      obtain ⟨rfl, hdisk⟩ := Prod.mk.inj hrun
      refine Or.inl ⟨e, rfl, hdisk ▸ .refl _ _, fun hlong hdir => ?_, fun hfound => Or.inr ?_⟩
      · obtain ⟨d₁, hr, -⟩ := removeTree_directory hs hb hlong hdir
        rw [he] at hr
        cases hr
      · rw [← hdisk]
        exact ⟨.refl _ _, subtree_of_none (hnone hfound)⟩
    · rw [hr] at hrun
      obtain ⟨rfl, rfl⟩ := Prod.mk.inj hrun
      exact Or.inr ⟨rfl, hset⟩
  · exact Or.inl ⟨e, rfl, leaves_of_thins hs hu hthin, fun _ _ => hstruck,
      fun he => Or.inl (he ▸ hm)⟩

/-- A tree is taken away, or it is not there, or some of it is left. -/
theorem removeTreeIfThere_cases (hn : .notFound ∉ refusals w) (hs : Stands (disk w) S p s)
    (hb : below s.trail ⊆ S) (hu : Plainly (disk w) s)
    (h : on (removeTreeIfThere p : Work σ Fault Unit) w = (r, w')) :
    (∃ e, r = .error e ∧ Leaves (Gone (below s.trail)) (disk w) (disk w') ∧
        (isTooLong s.name = false → (disk w).node? s.trail = some .directory → Struck w w')) ∨
      r = .ok () ∧ Sets (disk w) (disk w') s.trail nothing := by
  obtain ⟨removed, w₁, hremove, h⟩ := on_bind_attempt_eq.1 h
  rcases removeTree_cases hs hb hu hremove with
    ⟨e, rfl, hleaves, hstruck, hfound⟩ | ⟨rfl, hset⟩
  · by_cases hnot : e = .notFound
    · subst hnot
      cases h
      exact Or.inr ⟨rfl, (hfound rfl).resolve_left hn⟩
    · have hthrow : r = .error e ∧ w' = w₁ := by
        cases e <;> first | exact absurd rfl hnot | (cases h; exact ⟨rfl, rfl⟩)
      obtain ⟨rfl, rfl⟩ := hthrow
      exact Or.inl ⟨e, rfl, hleaves, hstruck⟩
  · cases h
    exact Or.inr ⟨rfl, hset⟩

/-- Nothing is removed at a path that the system refuses. -/
theorem removeTreeIfThere_of_check {e : Fault} (hc : check p = .error e)
    (h : on (removeTreeIfThere p : Work σ Fault Unit) w = (r, w')) : disk w' = disk w := by
  obtain ⟨_, w₁, hremove, h⟩ := on_bind_attempt_eq.1 h
  have hsame : disk w₁ = disk w := by
    rcases removeTree_run hremove with hrun | ⟨_, -, -, -, hsame | ⟨t, es, -, hheld, -⟩⟩
    · rw [removeTree_of_check hc] at hrun
      exact (Prod.mk.inj hrun).2.symm
    · exact hsame
    · rw [held, find_of_check hc] at hheld
      cases hheld
  split at h <;>
  · cases h
    exact hsame

/-- No directory is made at a path that the system refuses. -/
theorem makeDirectory_fails_of_check {e : Fault} (hc : check p = .error e)
    (h : on (FileStore.makeDirectory p : Work σ Fault Unit) w = (r, w')) :
    (∃ e, r = .error e) ∧ disk w' = disk w := by
  obtain ⟨-, ⟨-, hok⟩ | ⟨e, rfl, hsame, -⟩⟩ := makeDirectory_run h
  · rw [makeDirectory_of_check hc] at hok
    cases hok
  · exact ⟨⟨e, rfl⟩, hsame⟩

/-- An empty directory takes the place of what stands at a path, or no more than that is lost. -/
theorem renewed_cases (hn : .notFound ∉ refusals w)
    (hs : check p = .ok () → Stands (disk w) S p s) (hb : below s.trail ⊆ S)
    (hu : s.slashed = false)
    (h : on (do
      removeTreeIfThere p
      FileStore.makeDirectory p : Work σ Fault Unit) w = (r, w')) :
    (∃ e, r = .error e) ∧ Leaves (Gone (below s.trail)) (disk w) (disk w') ∨
      r = .ok () ∧ check p = .ok () ∧ isTooLong s.name = false ∧
        Sets (disk w) (disk w') s.trail (Tree.directory []).node? := by
  rw [on_bind] at h
  cases hremove : on (removeTreeIfThere p : Work σ Fault Unit) w with
  | mk removed w₁ =>
  rw [hremove] at h
  cases hc : check p with
  | error e =>
    have hsame := removeTreeIfThere_of_check hc hremove
    cases removed with
    | error e =>
      cases h
      exact Or.inl ⟨⟨e, rfl⟩, hsame ▸ .refl _ _⟩
    | ok u =>
      obtain ⟨herror, hdisk⟩ := makeDirectory_fails_of_check hc h
      exact Or.inl ⟨herror, (hdisk.trans hsame) ▸ .refl _ _⟩
  | ok u =>
    have hstands := hs hc
    rcases removeTreeIfThere_cases hn hstands hb (Or.inl hu) hremove with
      ⟨e, rfl, hleaves, -⟩ | ⟨rfl, hset⟩
    · cases h
      exact Or.inl ⟨⟨e, rfl⟩, hleaves⟩
    · obtain ⟨-, ⟨rfl, hok⟩ | ⟨e, rfl, hsame, -⟩⟩ := makeDirectory_run h
      · obtain ⟨-, hfits, hmade⟩ := add_sets (hstands.agree (hset.agree.mono hb)).slot? hok
        exact Or.inr ⟨rfl, rfl, hfits, hset.trans hmade⟩
      · refine Or.inl ⟨⟨e, rfl⟩, hsame ▸ leaves_of_gone hset.agree hset.subtree fun u hu => ?_⟩
        exact ⟨hu, rfl⟩

theorem wanes_removeTree (p : Path) : Wanes (FileStore.removeTree p : Work σ Fault Unit) :=
  keeps_removeTree_of (fun _ _ => trivial) fun _ _ _ _ => trivial

theorem wanes_removeTreeIfThere (p : Path) : Wanes (removeTreeIfThere p : Work σ Fault Unit) := by
  refine keeps_bind (keeps_attempt (wanes_removeTree p)) fun r _ => ?_
  split
  · exact keeps_pure trivial
  · exact keeps_throw _
  · exact keeps_pure trivial

end Disk
end Vendoring.Files
