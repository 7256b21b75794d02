import Vendoring.Proofs.Files.Finding
import Vendoring.Proofs.Files.Watching
import Vendoring.Proofs.Files.Worked

/-! A new file that is filled bit by bit beside the one it is for, and then moved into place or
taken away again, while the disk is watched. -/
namespace Vendoring.Files

/-- Between two watches there were only moments with disks that have `P`. -/
structure Since (P : Disk → Prop) (w w' : Watch) : Prop where
  mishaps : w'.mishaps <:+ w.mishaps
  past : ∀ m ∈ w'.past, m ∈ w.past ∨ P m.disk

namespace Since

variable {P : Disk → Prop} {w w' w'' : Watch} {stage : Stage} {g : Disk → Except Fault Disk}
  {r : Except Fault Unit}

theorem refl (P : Disk → Prop) (w : Watch) : Since P w w :=
  ⟨List.suffix_refl _, fun _ hm => Or.inl hm⟩

theorem trans (h : Since P w w') (h' : Since P w' w'') : Since P w w'' := by
  refine ⟨h'.mishaps.trans h.mishaps, fun m hm => ?_⟩
  rcases h'.past m hm with hm' | hp
  · exact h.past m hm'
  · exact Or.inr hp

theorem undergo (h : watched (undergo stage g) w = (r, w')) (hp : P w'.disk) : Since P w w' := by
  obtain ⟨hpast, hmishaps, -⟩ := undergo_cases h
  refine ⟨hmishaps, fun m hm => ?_⟩
  rw [hpast] at hm
  rcases List.mem_cons.1 hm with rfl | hm
  · exact Or.inr hp
  · exact Or.inl hm

end Since

namespace Disk
open Outcome

variable {d d' : Disk} {S : Set Trail} {p : Path} {q t : Trail} {s : Slot} {name : String}
  {bytes b : ByteArray} {k : Node} {scratch : Scratch} {w w' : Watch} {P : Disk → Prop}
  {r : Except Fault Unit} {e : Fault}

/-- One place holds `k`, and nothing else is changed. -/
structure Puts (d d' : Disk) (t : Trail) (k : Node) : Prop where
  agree : Agree {t} d d'
  there : d'.node? t = some k

theorem puts_of_sets (h : Sets d d' t (Tree.file bytes).node?)
    (hd : d.node? t ≠ some .directory) : Puts d d' t (.file bytes) := by
  refine ⟨⟨h.agree.here, fun u hu => ?_⟩, ?_⟩
  · by_cases hb : t <+: u
    · obtain ⟨r, rfl⟩ := hb
      have hr : r ≠ [] := by
        rintro rfl
        exact hu (List.append_nil t)
      obtain ⟨n, r, rfl⟩ := List.exists_cons_of_ne_nil hr
      rw [show d'.node? (t ++ n :: r) = none from congrFun h.subtree (n :: r)]
      cases hx : d.node? (t ++ n :: r) with
      | none => rfl
      | some k => exact absurd (node?_of_append hx) hd
    · exact h.agree.node u hb
  · rw [← subtree_nil, h.subtree]
    rfl

/-! ## A path whose directory is reached through the path itself -/

/-- The directory of a path is not reached past the entry of the path. -/
def Crosses (d : Disk) (p : Path) : Prop := ∃ q name, p.fileName? = some name ∧
  Leads d ∅ p.directory q ∧ ¬ Leads d (below (q ++ [name])) p.directory q

theorem leads_of_not_crosses (h : ¬ d.Crosses p) (hp : p.fileName? = some name)
    (hl : Leads d ∅ p.directory q) : Leads d (below (q ++ [name])) p.directory q := by
  by_contra hn
  exact h ⟨q, name, hp, hl, hn⟩

theorem not_crosses_of_leads (hp : p.fileName? = some name)
    (hl : Leads d (below (q ++ [name])) p.directory q) : ¬ d.Crosses p := by
  rintro ⟨q', name', hp', hl', hn⟩
  obtain rfl := hl.unique hl'
  obtain rfl := Option.some.inj (hp.symm.trans hp')
  exact hn hl

/-! ## A file that is written first -/

/-- A path leads to its directory, and there is room for the file that is written first. -/
structure Room (scratch : Scratch) (d : Disk) (p : Path) (q : Trail) : Prop where
  leads : Leads d (below (tempPlace scratch p q)) p.directory q
  proper : check (scratch.beside p) = .ok ()
  fits : isTooLong (scratch.tempName p) = false
  free : d.node? (tempPlace scratch p q) = none

/-- The disk on which the file that is written first holds `b`. -/
def drafted (scratch : Scratch) (d : Disk) (p : Path) (q : Trail) (b : ByteArray) : Disk :=
  d.put (tempPlace scratch p q) (.file b)

/-- Where a file could be written under a name that nothing had, there was room for it. -/
theorem room_of_write (htag : '/' ∉ scratch.tag.toList) (hfree : d.Vacant (scratch.beside p))
    (h : d.write (scratch.beside p) b = .ok d') : ∃ q, Room scratch d p q := by
  have hname := scratch.proper_tempName htag p
  have hc := check_of_write h
  obtain ⟨spot, hfind⟩ : ∃ spot, d.find true (scratch.beside p) = .ok spot := by
    rcases write_place h with ⟨_, _, hf, -⟩ | ⟨_, _, hf, -⟩ <;> exact ⟨_, hf⟩
  obtain ⟨q, hl⟩ := leads_of_find (p := p.directory) hname hfind
  have hs := stands_beside hl htag hc
  have hfits : isTooLong (scratch.tempName p) = false := by
    rw [← Bool.not_eq_true]
    intro hlong
    rw [hs.find_long hlong] at hfind
    cases hfind
  have hnone : d.node? (tempPlace scratch p q) = none := (vacant_iff hname).1 hfree q hl hc hfits
  refine ⟨q, ?_, hc, hfits, hnone⟩
  have hbar : ∀ u ∈ below (tempPlace scratch p q), ¬ d.Passable u := by
    rintro u ⟨r, rfl⟩
    exact not_passable_of_none (node?_append_of_none hnone r)
  have havoid := hl.avoid hbar
  exact havoid.mono Set.subset_union_right

namespace Room

variable (hr : Room scratch d p q)
include hr

theorem stands (htag : '/' ∉ scratch.tag.toList) :
    Stands d (below (tempPlace scratch p q)) (scratch.beside p) ⟨q, scratch.tempName p, false⟩ :=
  stands_beside hr.leads htag hr.proper

theorem sets (b : ByteArray) : Sets d (drafted scratch d p q b) (tempPlace scratch p q)
    (Tree.file b).node? := sets_put hr.leads.dir _ _

theorem puts (b : ByteArray) :
    Puts d (drafted scratch d p q b) (tempPlace scratch p q) (.file b) :=
  puts_of_sets (hr.sets b) (by simp [hr.free])

theorem write (htag : '/' ∉ scratch.tag.toList) (b : ByteArray) :
    d.write (scratch.beside p) b = .ok (drafted scratch d p q b) :=
  write_eq_put (hr.stands htag) rfl hr.fits (fun k hk => by
    rw [Slot.trail, ← tempPlace, hr.free] at hk
    cases hk) b

/-- The file is written again and again. -/
theorem rewrite (htag : '/' ∉ scratch.tag.toList) (old b : ByteArray) :
    (drafted scratch d p q old).write (scratch.beside p) b = .ok (drafted scratch d p q b) := by
  have hs := (hr.stands htag).agree (hr.sets old).agree
  rw [write_eq_put hs rfl hr.fits _ b, drafted, Slot.trail, ← tempPlace, put_put, drafted]
  intro k hk
  rw [Slot.trail, ← tempPlace, (hr.puts old).there] at hk
  exact ⟨old, (Option.some.inj hk).symm⟩

/-- Whoever does not read the new file itself does not see it. -/
theorem shown (htag : '/' ∉ scratch.tag.toList) (ha : ¬ d.Aims p (scratch.beside p))
    (b : ByteArray) : (drafted scratch d p q b).shown p = d.shown p := by
  refine (shown_fresh (hr.sets b) hr.free).resolve_right fun hfind => ha ⟨q, _, hfind, ?_⟩
  exact (hr.stands htag).find_free hr.fits hr.free rfl

/-- The new file is taken away again. -/
theorem removed (b : ByteArray) :
    Agree ∅ d ((drafted scratch d p q b).erase (tempPlace scratch p q)) := by
  have hgone := sets_erase (drafted scratch d p q b) q (scratch.tempName p)
  refine ⟨rfl, fun u _ => ?_⟩
  by_cases hu : tempPlace scratch p q <+: u
  · obtain ⟨u, rfl⟩ := hu
    exact (congrFun hgone.subtree u).trans (node?_append_of_none hr.free u).symm
  · exact (hgone.agree.node u hu).trans ((hr.sets b).agree.node u hu)

theorem removeFile (htag : '/' ∉ scratch.tag.toList) (b : ByteArray) :
    (drafted scratch d p q b).removeFile (scratch.beside p) =
      .ok ((drafted scratch d p q b).erase (tempPlace scratch p q)) :=
  removeFile_beside (hr.leads.agree (hr.sets b).agree) htag hr.proper hr.fits (hr.sets b).subtree

end Room

theorem getLast_drafts (b bytes : ByteArray) :
    (b :: drafts bytes).getLast (List.cons_ne_nil _ _) = bytes := by
  simp [drafts]

/-- A file that is not yet full holds the first of its bytes. -/
theorem extract_of_mem_drafts (h : b ∈ ByteArray.empty :: drafts bytes) :
    ∃ n, b = bytes.extract 0 n := by
  simp only [drafts, List.mem_cons, List.mem_append, List.mem_map, List.not_mem_nil, or_false] at h
  rcases h with rfl | ⟨n, -, rfl⟩ | rfl
  · exact ⟨0, by simp⟩
  · exact ⟨n + 1, rfl⟩
  · exact ⟨b.size, by simp⟩

/-- The system refused a byte of the file that is written first, and those before it stay there. -/
structure Torn (scratch : Scratch) (p : Path) (bytes : ByteArray) (mishaps : List (Option Fault))
    (d : Disk) (q : Trail) (e : Fault) (w : Watch) : Prop where
  strike : some e ∈ mishaps
  last : w.past.head? = some ⟨.filling, .error e, w.disk⟩
  draft : ∃ n, w.disk = drafted scratch d p q (bytes.extract 0 n)

theorem Torn.mono {mishaps mishaps' : List (Option Fault)}
    (h : Torn scratch p bytes mishaps d q e w) (hm : mishaps ⊆ mishaps') :
    Torn scratch p bytes mishaps' d q e w := ⟨hm h.strike, h.last, h.draft⟩

/-- A file that was begun is filled, or a mishap leaves it as far as it was filled. -/
theorem Room.fill_cases (hr : Room scratch d p q) (htag : '/' ∉ scratch.tag.toList)
    (hP : ∀ b, P (drafted scratch d p q b)) {rest : List ByteArray}
    (hdrafts : ∀ b' ∈ b :: rest, ∃ n, b' = bytes.extract 0 n)
    (hw : w.disk = drafted scratch d p q b)
    (h : watched (fill (scratch.beside p) rest) w = (r, w')) : Since P w w' ∧
      ((∃ e, r = .error e ∧ Torn scratch p bytes w.mishaps d q e w') ∨ r = .ok () ∧
        w'.disk = drafted scratch d p q ((b :: rest).getLast (List.cons_ne_nil _ _))) := by
  induction rest generalizing w b with
  | nil =>
    cases h
    exact ⟨.refl _ _, Or.inr ⟨rfl, hw⟩⟩
  | cons draft rest ih =>
    rw [fill] at h
    cases hu : watched (undergo .filling (·.write (scratch.beside p) draft)) w with
    | mk r₁ w₁ =>
    obtain ⟨hpast, -, ⟨e, rfl, hdisk, hcause⟩ | ⟨rfl, hok⟩⟩ := undergo_cases hu
    · rw [watched_bind_error hu] at h
      cases h
      rw [hw] at hdisk hcause
      rw [hr.rewrite htag] at hcause
      obtain ⟨n, rfl⟩ := hdrafts b (List.mem_cons_self ..)
      refine ⟨.undergo hu (hdisk ▸ hP _), Or.inl ⟨e, rfl, ?_, ?_, n, hdisk⟩⟩
      · exact hcause.resolve_left (by simp)
      · rw [hpast]
        rfl
    · rw [watched_bind_ok hu] at h
      rw [hw, hr.rewrite htag] at hok
      have hdisk : w₁.disk = drafted scratch d p q draft := (Except.ok.inj hok).symm
      have hsince : Since P w w₁ := .undergo hu (hdisk ▸ hP draft)
      obtain ⟨hmore, hends⟩ := ih (fun b' hb' => hdrafts b' (List.mem_cons_of_mem _ hb')) hdisk h
      refine ⟨hsince.trans hmore, hends.imp_left ?_⟩
      exact fun ⟨e, he, htorn⟩ => ⟨e, he, htorn.mono hsince.mishaps.subset⟩

/-- A file that is written where nothing was cannot be begun, or is begun and stays unfinished by a
mishap, or holds all of its bytes. -/
theorem write_cases (htag : '/' ∉ scratch.tag.toList) (hfree : w.disk.Vacant (scratch.beside p))
    (hsame : P w.disk) (hP : ∀ q b, Room scratch w.disk p q → P (drafted scratch w.disk p q b))
    (h : watched (FileStore.write (scratch.beside p) bytes : Observed Fault Unit) w = (r, w')) :
    Since P w w' ∧
      ((∃ e, r = .error e ∧ w'.disk = w.disk ∧
          (w.disk.write (scratch.beside p) bytes = .error e ∨ some e ∈ w.mishaps)) ∨
        ∃ q, Room scratch w.disk p q ∧
          ((∃ e, r = .error e ∧ Torn scratch p bytes w.mishaps w.disk q e w') ∨
            r = .ok () ∧ w'.disk = drafted scratch w.disk p q bytes)) := by
  have hrun : watched (do
      undergo .creating (·.write (scratch.beside p) ByteArray.empty)
      fill (scratch.beside p) (drafts bytes)) w = (r, w') := h
  cases hu : watched (undergo .creating (·.write (scratch.beside p) ByteArray.empty)) w with
  | mk r₁ w₁ =>
  obtain ⟨-, -, ⟨e, rfl, hdisk, hcause⟩ | ⟨rfl, hok⟩⟩ := undergo_cases hu
  · rw [watched_bind_error hu] at hrun
    cases hrun
    exact ⟨.undergo hu (hdisk ▸ hsame),
      Or.inl ⟨e, rfl, hdisk, hcause.imp_left fun he => write_eq_error he bytes⟩⟩
  · rw [watched_bind_ok hu] at hrun
    obtain ⟨q, hr⟩ := room_of_write htag hfree hok
    rw [hr.write htag] at hok
    have hdisk : w₁.disk = drafted scratch w.disk p q ByteArray.empty := (Except.ok.inj hok).symm
    have hsince : Since P w w₁ := .undergo hu (hdisk ▸ hP q _ hr)
    obtain ⟨hmore, hends⟩ := hr.fill_cases htag (fun b => hP q b hr)
      (fun b' => extract_of_mem_drafts) hdisk hrun
    rw [getLast_drafts] at hends
    refine ⟨hsince.trans hmore, Or.inr ⟨q, hr, hends.imp_left ?_⟩⟩
    exact fun ⟨e, he, htorn⟩ => ⟨e, he, htorn.mono hsince.mishaps.subset⟩

theorem calm_write (htag : '/' ∉ scratch.tag.toList)
    (hfree : w.disk.Vacant (scratch.beside p)) : Calm (FileStore.write (scratch.beside p) bytes)
      (FileStore.write (scratch.beside p) bytes) w := by
  intro hm r w' h
  obtain ⟨hsince, hends⟩ := write_cases (P := fun _ => True) htag hfree trivial
    (fun _ _ _ => trivial) h
  have hno (e : Fault) : some e ∉ w.mishaps := by simp [hm]
  refine ⟨?_, List.suffix_nil.1 (hm ▸ hsince.mishaps)⟩
  rw [on_write]
  rcases hends with ⟨e, rfl, hdisk, hcause⟩ | ⟨q, hr, ⟨e, -, htorn⟩ | ⟨rfl, hdisk⟩⟩
  · rw [hcause.resolve_right (hno e), hdisk]
    rfl
  · exact absurd htorn.strike (hno e)
  · rw [hr.write htag, hdisk]
    rfl

/-! ## Moving the file into place -/

/-- What a file is moved to holds its bytes, and a reader of the path finds them there, unless the
directory of the path was reached through what the file replaced. -/
structure Published (scratch : Scratch) (d d' : Disk) (p : Path) (q : Trail) (name : String)
    (bytes : ByteArray) : Prop where
  puts : Puts d d' (q ++ [name]) (.file bytes)
  temp : d'.node? (tempPlace scratch p q) = none
  found : ¬ d.Crosses p → d'.contents p = .ok bytes
  lost : d.Crosses p → d'.shown p = none

theorem Room.published (hr : Room scratch d p q) (hp : p.fileName? = some name)
    (htag : '/' ∉ scratch.tag.toList)
    (h : (drafted scratch d p q bytes).rename (scratch.beside p) p = .ok d') :
    Published scratch d d' p q name bytes := by
  have hset := hr.sets bytes
  have hrep := replaced_of_rename (hr.leads.agree hset.agree) hp htag hr.proper hset.subtree h
  have hagree : Agree (below (tempPlace scratch p q) ∪ below (q ++ [name])) d d' :=
    (hset.agree.mono Set.subset_union_left).trans hrep.agree
  have htemp : d'.node? (tempPlace scratch p q) = none := by
    rw [← subtree_nil, hrep.temp]
    rfl
  have hfree : d.node? (q ++ [name]) ≠ some .directory := by
    rw [← hset.agree.node _ (not_below_sibling (tempName_ne hp))]
    exact hrep.free
  refine ⟨puts_of_sets ⟨⟨hagree.here, fun u hu => ?_⟩, hrep.contents⟩ hfree, htemp, fun hc => ?_,
    fun hc => ?_⟩
  · by_cases ht : u ∈ below (tempPlace scratch p q)
    · obtain ⟨u, rfl⟩ := ht
      rw [node?_append_of_none htemp, node?_append_of_none hr.free]
    · exact hagree.node u (not_or.2 ⟨ht, hu⟩)
  · obtain ⟨way, hway⟩ := Path.standing_of_fileName? hp
    obtain ⟨s, hs, htrail, hslash, hfits⟩ := hrep.names
    have hpast : Leads d (below (tempPlace scratch p q) ∪ below (q ++ [name])) p.directory q :=
      (hr.leads.twin (.refl d) rfl (leads_of_not_crosses hc hp (hr.leads.mono (by simp)))).2.mono
        Set.subset_union_left
    have hstands := ((hpast.agree (hset.agree.mono Set.subset_union_left)).stands hway hs.slot?).1
    have hnames : Names d' _ p (q ++ [name]) :=
      ⟨s, hstands.agree hrep.agree, htrail, hslash, hfits⟩
    have hread : (d'.contents p).toOption = some bytes := by
      refine hnames.contents ?_
      rw [← subtree_nil, hrep.contents]
      rfl
    exact toOption_eq_some.1 hread
  · -- What led to the directory then still leads there, past all that was changed.
    refine shown_eq_none hp fun q' hl' => ?_
    obtain ⟨-, hpast⟩ := (hr.leads.agree hset.agree).twin hrep.narrows.alike hrep.narrows.here hl'
    have hsub : below (tempPlace scratch p q) ∪ below (q ++ [name]) ⊆
        below (tempPlace scratch p q) ∪ ∅ ∪ barred (drafted scratch d p q bytes) d' :=
      fun u hu => Or.inr fun hpass => hrep.not_passable hu hpass.2
    have hold := (hpast.mono hsub).agree (hset.agree.symm.mono Set.subset_union_left)
    exact not_crosses_of_leads hp (hold.mono Set.subset_union_right) hc

end Disk
end Vendoring.Files
