import Vendoring.Proofs.Files.Gaining
import Vendoring.Proofs.Files.Passing
import Vendoring.Proofs.Files.Replacing

/-! What an operation that worked says about its paths: they led to the places that were changed,
past all that was taken away. -/
namespace Vendoring.Files
namespace Disk
open Outcome

variable {d d' d₁ d₂ : Disk} {S : Set Trail} {p : Path} {q t : Trail} {s : Slot} {name : String}
  {bytes : ByteArray} {scratch : Scratch} {ps : List Path} {k : Node} {r : Except Fault Unit}

theorem Gains.grow (h : Gains ps d d') (hd : d.node? t = some k) : d'.node? t = some k := by
  rcases h.node t with he | ⟨hn, -⟩
  · exact he.trans hd
  · rw [hd] at hn
    cases hn

theorem Gains.link_of_link {target : String} (h : Gains ps d d')
    (hd : d'.node? t = some (.link target)) : d.node? t = some (.link target) := by
  rcases h.node t with he | ⟨-, hn, -⟩
  · exact he ▸ hd
  · rw [hd] at hn
    cases hn

theorem gains_of_makeDirectories (h : on (makeDirectories p : Program Fault Unit) d = (r, d')) :
    Gains p.ancestors d d' := by
  have hkeeps : Keeps (Gains p.ancestors d) Any (makeDirectories p : Program Fault Unit) :=
    keeps_makeDirectories_of fun _ ha _ _ hg hm => gains_makeDirectory hg ha hm
  have hgains := (hkeeps d (.refl _ _)).1
  rwa [h] at hgains

theorem narrows_of_write (h : d.write p bytes = .ok d') : Narrows d d' := by
  have hfile (r : Trail) (k : Node) (hk : (Tree.file bytes).node? r = some k) :
      ∃ bytes, k = .file bytes := ⟨bytes, (node?_file bytes hk).2⟩
  rcases write_place h with ⟨t, -, -, hset⟩ | ⟨q, name, -, hset⟩
  · exact narrows_of_sets hset hfile
  · exact narrows_of_sets hset hfile

/-- Nothing at or below a place can be passed that holds no directory and no link. -/
theorem not_passable_below (hd : d.node? t ≠ some .directory)
    (hl : ∀ target, d.node? t ≠ some (.link target)) : ∀ u ∈ below t, ¬ d.Passable u := by
  rintro u ⟨r, rfl⟩
  cases r with
  | nil =>
    rw [List.append_nil]
    rintro (hp | ⟨target, hp⟩)
    · exact hd hp
    · exact hl target hp
  | cons n r =>
    refine not_passable_of_none ?_
    cases hx : d.node? (t ++ n :: r) with
    | none => rfl
    | some k => exact absurd (node?_of_append hx) hd

/-- No way passes the place of a file that was replaced, nor the one that it was written in. -/
theorem Replaced.not_passable {a u : Trail} (h : Replaced S d d' p t a bytes)
    (hu : u ∈ below t ∪ below a) : ¬ d'.Passable u := by
  rcases hu with ⟨r, rfl⟩ | ⟨r, rfl⟩
  · exact not_passable_of_none (congrFun h.temp r)
  · have hsub : d'.node? (a ++ r) = (Tree.file bytes).node? r := congrFun h.contents r
    cases r with
    | nil => exact not_passable_of_file hsub
    | cons _ _ => exact not_passable_of_none hsub

theorem Replaced.narrows {a : Trail} (h : Replaced S d d' p t a bytes) : Narrows d d' :=
  ⟨h.agree.here, fun u hp => h.agree.node u fun hu => h.not_passable hu hp⟩

/-- A file of a plain name that was replaced stands in the directory of its path. -/
theorem Replaced.leads {T : Set Trail} (h : Replaced T d d' (p.join name) t (q ++ [name]) bytes)
    (hn : ProperName name) : Leads d T p q := by
  obtain ⟨s, hs, htrail, -, -⟩ := h.names
  obtain ⟨-, hl⟩ := hs.of_child hn
  have hq : s.parent = q := (List.append_inj' htrail rfl).1
  exact hq ▸ hl

/-- The place that a file is written in first, and the place that it is moved to. -/
def rewritten (scratch : Scratch) (p : Path) (q : Trail) (name : String) : Set Trail :=
  below (tempPlace scratch p q) ∪ below (q ++ [name])

/-- A file is replaced, and no way passed the place that it was written in first. -/
structure Rewritten (scratch : Scratch) (d d' : Disk) (p : Path) (q : Trail) (name : String)
    (bytes : ByteArray) : Prop extends
    Replaced (below (tempPlace scratch p q)) d d' p (tempPlace scratch p q) (q ++ [name]) bytes where
  bars : ∀ u ∈ below (tempPlace scratch p q), ¬ d.Passable u

theorem Rewritten.file (h : Rewritten scratch d d' p q name bytes) :
    d'.node? (q ++ [name]) = some (.file bytes) := by
  rw [← subtree_nil, h.contents]
  rfl

/-- Of what a file replaces only a link could be passed. -/
theorem Rewritten.link_of_passable (h : Rewritten scratch d d' p q name bytes)
    (ht : t ∈ rewritten scratch p q name) (hp : d.Passable t) :
    t = q ++ [name] ∧ ∃ target, d.node? t = some (.link target) := by
  rcases ht with ht | ⟨r, rfl⟩
  · exact absurd hp (h.bars t ht)
  · cases r with
    | nil =>
      rw [List.append_nil] at hp ⊢
      exact ⟨rfl, hp.resolve_left h.free⟩
    | cons n r =>
      rcases hp with hd | ⟨target, hd⟩
      · exact absurd (node?_of_append hd) h.free
      · exact absurd (node?_of_append hd) h.free

/-- No directory is replaced by a file, nor anything in one. -/
theorem Rewritten.not_dir (h : Rewritten scratch d d' p q name bytes)
    (ht : t ∈ rewritten scratch p q name) : d.node? t ≠ some .directory := by
  intro hd
  obtain ⟨-, target, hlink⟩ := h.link_of_passable ht (Or.inl hd)
  rw [hd] at hlink
  cases hlink

theorem Rewritten.dir (h : Rewritten scratch d d' p q name bytes)
    (hd : d.node? t = some .directory) : d'.node? t = some .directory :=
  (h.agree.node t fun ht => h.not_dir ht hd).trans hd

/-- A file that was replaced stands where its path led once its directories were there. -/
theorem replaceFile_ok (hp : p.fileName? = some name) (htag : '/' ∉ scratch.tag.toList)
    (hlink : ∀ q target, d.node? (tempPlace scratch p q) ≠ some (.link target))
    (h : on (replaceFile scratch p bytes : Program Fault Unit) d = (.ok (), d')) :
    ∃ d₁ q, on (makeDirectories p.directory : Program Fault Unit) d = (.ok (), d₁) ∧
      Leads d₁ (below (tempPlace scratch p q)) p.directory q ∧
      Rewritten scratch d₁ d' p q name bytes := by
  obtain ⟨_, d₁, hmake, h₁⟩ := on_bind_eq_ok.1 h
  obtain ⟨_, d₂, hwrite, h₂⟩ := on_bind_eq_ok.1 h₁
  rw [on_write, settled_eq_ok] at hwrite
  have hslot : ∃ a, d₂.slot? (scratch.beside p) = .ok (some a) := by
    obtain ⟨moved, d₃, hattempt, h₃⟩ := on_bind_eq_ok.1 h₂
    have hmove := on_attempt_eq_ok.1 hattempt
    cases moved with
    | ok _ =>
      rw [on_rename, settled_eq_ok] at hmove
      obtain ⟨a, -, ha, -⟩ := rename_slots hmove
      exact ⟨a, ha⟩
    | error e =>
      obtain ⟨_, _, -, hthrow⟩ := on_bind_eq_ok.1 h₃
      cases hthrow
  obtain ⟨a, ha⟩ := hslot
  have hname := scratch.proper_tempName htag p
  have hl₂ : Leads d₂ ∅ p.directory a.parent := ((stands_of_slot? ha).of_child hname).2
  have hl₁ : Leads d₁ ∅ p.directory a.parent := hl₂.back (narrows_of_write hwrite)
  have hlink₁ : ∀ target, d₁.node? (tempPlace scratch p a.parent) ≠ some (.link target) :=
    fun target ht => hlink _ target ((gains_of_makeDirectories hmake).link_of_link ht)
  obtain ⟨hfree, -, -⟩ :=
    write_sets (stands_beside hl₁ htag (check_of_write hwrite)) rfl hlink₁ hwrite
  have hbar := not_passable_below hfree hlink₁
  have hl : Leads d₁ (below (tempPlace scratch p a.parent)) p.directory a.parent := by
    have havoid := hl₁.avoid hbar
    rwa [Set.empty_union] at havoid
  refine ⟨d₁, a.parent, hmake, hl, ?_⟩
  rcases written_cases hl hp htag subset_rfl hlink₁ hwrite h₂ with ⟨e, he, -⟩ | ⟨-, hrep⟩
  · cases he
  · exact ⟨hrep, hbar⟩

/-- What a directory holds is gone also where the directory itself cannot be removed. -/
theorem removeTree_emptied (hs : Stands d S p s) (hl : isTooLong s.name = false)
    (hd : d.node? s.trail = some .directory) :
    (∃ d', d.removeTree p = (.ok (), d') ∧ Sets d d' s.trail nothing) ∨
      ∃ e d', d.removeTree p = (.error e, d') ∧ Narrows d d' ∧
        d'.node? s.trail = some .directory := by
  obtain ⟨d₁, hput, hd₁, hok, herror⟩ := removeTree_empties hs hl hd
  have hnarrow : Narrows d d₁ := by
    refine ⟨hput.agree.here, fun u hp => ?_⟩
    by_cases hu : s.trail <+: u
    · obtain ⟨r, rfl⟩ := hu
      have hsub : d₁.node? (s.trail ++ r) = (Tree.directory []).node? r := congrFun hput.subtree r
      cases r with
      | nil => rw [List.append_nil, hd₁, hd]
      | cons _ _ => exact absurd hp (not_passable_of_none hsub)
    · exact hput.agree.node u hu
  cases hempty : d₁.removeEmpty p with
  | error e => exact Or.inr ⟨e, d₁, herror e hempty, hnarrow, hd₁⟩
  | ok d' =>
    obtain ⟨s', hs', herase⟩ := removeEmpty_sets hempty
    obtain ⟨rfl, -⟩ := hs.twin hnarrow.alike hnarrow.here (stands_of_slot? hs')
    exact Or.inl ⟨d', hok d' hempty, hput.trans herase⟩

/-- A directory that was removed and made again stands past all that the old one held. -/
theorem remade {h : Trail} (hl : Leads d S p h) (hn : ProperName name)
    (hr : on (removeTreeIfThere (p.join name) : Program Fault Unit) d = (.ok (), d₁))
    (hm : d₁.makeDirectory (p.join name) = .ok d₂) :
    Leads d (S ∪ below (h ++ [name])) p h ∧ isTooLong name = false ∧
      check (p.join name) = .ok () ∧ Sets d d₂ (h ++ [name]) (Tree.directory []).node? := by
  obtain ⟨s₁, hslot⟩ := makeDirectory_slot hm
  have hs₁ := stands_of_slot? hslot
  obtain ⟨hfree, hfits, hmade⟩ := add_sets hslot hm
  obtain ⟨he, hl₁⟩ := hs₁.of_child hn
  have hname : s₁.name = name := congrArg Slot.name he
  have hs : Stands d S (p.join name) ⟨h, name, false⟩ := hl.child hn hs₁.proper
  rw [hname] at hfits
  have hgone : Sets d d₁ (h ++ [name]) nothing := by
    rw [removeTreeIfThere, on_bind, on_attempt, on_removeTree] at hr
    by_cases hd : d.node? (h ++ [name]) = some .directory
    · rcases removeTree_emptied hs hfits hd with ⟨d', hrun, hset⟩ | ⟨e, d', hrun, hnarrow, hdir⟩
      · rw [hrun] at hr
        cases hr
        exact hset
      · rw [hrun] at hr
        have hd' : d₁ = d' := by
          cases e <;> · cases hr; try rfl
        rw [hd'] at hs₁ hfree
        obtain ⟨rfl, -⟩ := hs.twin hnarrow.alike hnarrow.here hs₁
        rw [hdir] at hfree
        cases hfree
    · rcases removeTree_of_not_directory hs rfl fun _ => hd with ⟨e, hrun, hnone⟩ |
        ⟨-, d', hrun, hset⟩
      · rw [hrun] at hr
        have hd' : e = .notFound ∧ d₁ = d := by
          cases e <;> · cases hr; try exact ⟨rfl, rfl⟩
        obtain ⟨rfl, rfl⟩ := hd'
        exact ⟨.refl _ _, subtree_of_none (hnone rfl)⟩
      · rw [hrun] at hr
        cases hr
        exact hset
  have hnarrow : Narrows d d₁ := narrows_of_sets hgone fun r k hk => by cases hk
  obtain ⟨hq, hpast⟩ := hl.twin hnarrow.alike hnarrow.here hl₁
  have htrail : s₁.trail = h ++ [name] := by rw [Slot.trail, hq, hname]
  rw [htrail] at hmade
  refine ⟨hpast.mono ?_, hfits, hs₁.proper, hgone.trans hmade⟩
  rintro t (ht | ⟨r, rfl⟩)
  · exact Or.inl (Or.inl ht)
  · exact Or.inr fun hp => not_passable_of_none (congrFun hgone.subtree r) hp.2

end Disk
end Vendoring.Files
