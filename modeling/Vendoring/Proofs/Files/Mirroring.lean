import Mathlib.Data.Set.Card
import Vendoring.Proofs.Files.Making
import Vendoring.Proofs.Files.Seeing

/-! What a copy holds: all that a reader sees of its source. It may be made in a directory that is
seen from nowhere in the source. -/
namespace Vendoring.Files
open Disk Outcome

/-- What is seen at a path and below it, whatever stands in `S`. -/
def Shows (S : Set Trail) (b : Disk) (skipped : List String) (p : Path)
    (f : Trail → Option Node) : Prop := ∀ d, Agree S b d → d.seen? skipped p = f

/-- The places of the files. -/
def filesOf (f : Trail → Option Node) : Set Trail := {r | ∃ bytes, f r = some (.file bytes)}

/-- The places below one of some names. -/
def under (names : List String) : Set Trail := {r | ∃ name ∈ names, [name] <+: r}

variable {b d d' : Disk} {S S' : Set Trail} {H t u : Trail} {p source target : Path}
  {skipped names : List String} {name rel : String} {f : Trail → Option Node} {bytes : ByteArray}
  {entry : String × Kind} {entries es : List (String × Kind)} {above : List Above} {n : Nat}
  {kind : Kind} {rest : List String}
  {descend : List Above → Path → Path → List (String × Kind) → Program Fault Nat}

namespace Disk

theorem contents_of_seen (h : d.seen? skipped p [] = some (.file bytes)) :
    d.contents p = .ok bytes := by
  rw [seen?] at h
  split at h
  · cases h
  · obtain ⟨bytes', hc, hb⟩ := Option.map_eq_some_iff.1 h
    cases hb
    cases hr : d.contents p with
    | error e =>
      rw [hr] at hc
      cases hc
    | ok bytes' =>
      rw [hr] at hc
      cases hc
      rfl
  · cases h

/-- What is seen below an entry is seen below the path of the entry. -/
theorem seen_join (h : d.seen? skipped p [name] ≠ none) (r : Trail) :
    d.seen? skipped p (name :: r) = d.seen? skipped (p.join name) r := by
  rw [seen?] at h ⊢
  split
  · rfl
  · next hc => exact absurd (if_neg hc) h

theorem seen_file (hk : d.kind p = .ok .directory) (hn : ProperName name)
    (hr : d.contents (p.join name) = .ok bytes) :
    d.seen? skipped p [name] = some (.file bytes) := by
  rw [seen_child hk hn (by simp [kind_of_contents hr]), seen_of_contents hr]
  rfl

theorem seen_directory (hk : d.kind p = .ok .directory) (hn : ProperName name)
    (hs : name ∉ skipped) (hd : d.kind (p.join name) = .ok .directory) :
    d.seen? skipped p [name] = some .directory := by
  rw [seen_child hk hn fun hc => hs hc.1]
  exact seen_of_kind hd

theorem seen_skipped (hs : name ∈ skipped) (hd : d.kind (p.join name) = .ok .directory)
    (r : Trail) : d.seen? skipped p (name :: r) = none := by
  rw [seen?, if_neg fun hc => hc.2.2 ⟨hs, hd⟩]

theorem held_of_find {e : Fault} {follow : Bool} (h : d.find follow p = .error e) :
    d.held follow p = .error e := by
  rw [held, h]
  rfl

theorem kind_of_held {e : Fault} (h : d.held true p = .error e) (k : Kind) :
    d.kind p ≠ .ok k := by
  rw [Disk.kind, h]
  intro hk
  cases hk

theorem seen_of_check {e : Fault} (h : check p = .error e) (r : Trail) :
    d.seen? skipped p r = none :=
  seen_of_missing (kind_of_held (held_of_find (find_of_check h))) r

/-- What can neither be read nor listed is not seen. -/
theorem seen_of_held {e : Fault} (hk : d.kind p = .ok .directory) (hn : ProperName name)
    (h : d.held true (p.join name) = .error e) (r : Trail) :
    d.seen? skipped p (name :: r) = none := by
  have hnot := kind_of_held h
  rw [seen_child hk hn fun hs => hnot _ hs.2, seen_of_missing hnot]

end Disk

/-- An entry that is neither a directory nor a link is seen the same from disks that agree on it. -/
theorem seen_leaf {d : Disk} (hl : Leads b S p t) (hd : Agree S b d) (hn : ProperName name)
    (hk : b.kind p = .ok .directory) (hk' : d.kind p = .ok .directory)
    (hc : check (p.join name) = .ok ()) (ht : t ++ [name] ∉ S)
    (hdir : isTooLong name = false → b.node? (t ++ [name]) ≠ some .directory)
    (hlink : ∀ target, b.node? (t ++ [name]) ≠ some (.link target)) (r : Trail) :
    d.seen? skipped p (name :: r) = b.seen? skipped p (name :: r) := by
  have hs := hl.child hn hc
  have hmissing (h : ∀ z, Agree S b z → ∃ e, z.held true (p.join name) = .error e) :
      d.seen? skipped p (name :: r) = b.seen? skipped p (name :: r) := by
    obtain ⟨e, he⟩ := h d hd
    obtain ⟨e', he'⟩ := h b (.refl _ _)
    rw [seen_of_held hk' hn he, seen_of_held hk hn he']
  by_cases hfits : isTooLong name = true
  · exact hmissing fun z hz => ⟨_, held_of_find ((hs.agree hz).find_long hfits)⟩
  rw [Bool.not_eq_true] at hfits
  cases hnode : b.node? (t ++ [name]) with
  | none =>
    exact hmissing fun z hz => ⟨_, (hs.agree hz).held_none hfits ((hz.node _ ht).trans hnode)⟩
  | some k =>
  cases k with
  | link target => exact absurd hnode (hlink target)
  | directory => exact absurd hnode (hdir hfits)
  | file bytes =>
    have hseen (z : Disk) (hz : Agree S b z) (hk : z.kind p = .ok .directory) :
        z.seen? skipped p (name :: r) = (Tree.file bytes).node? r := by
      have hfile : z.get? (t ++ [name]) = some (.file bytes) :=
        node?_eq_file.1 ((hz.node _ ht).trans hnode)
      have hread : z.contents (p.join name) = .ok bytes := by
        rw [Disk.contents, held, (hs.agree hz).find_file hfits hfile]
        rfl
      rw [seen_child hk hn (by simp [kind_of_contents hread]), seen_of_contents hread]
    rw [hseen d hd hk', hseen b (.refl _ _) hk]

/-- What has no links and stands apart from `S` is seen the same whatever stands there. -/
theorem shows_of_linkless (hl : Leads b S p t)
    (hlink : ∀ r target, b.node? (t ++ r) ≠ some (.link target)) (ht : ∀ r, t ++ r ∉ S) :
    Shows S b skipped p (b.seen? skipped p) := by
  intro d hd
  funext r
  induction r generalizing p t with
  | nil =>
    cases hc : check p with
    | error e => rw [seen_of_check hc, seen_of_check hc]
    | ok u => rw [seen_of_kind (hl.kind hc), seen_of_kind ((hl.agree hd).kind hc)]
  | cons name r ih =>
    cases hc : check p with
    | error e => rw [seen_of_check hc, seen_of_check hc]
    | ok u =>
    have hk := hl.kind hc
    have hk' := (hl.agree hd).kind hc
    by_cases hn : ProperName name
    swap
    · rw [seen?, if_neg fun h => hn h.2.1, seen?, if_neg fun h => hn h.2.1]
    cases hc' : check (p.join name) with
    | error e =>
      have he (z : Disk) : z.held true (p.join name) = .error e := held_of_find (find_of_check hc')
      rw [seen_of_held hk' hn (he d), seen_of_held hk hn (he b)]
    | ok u =>
    by_cases hdir : isTooLong name = false ∧ b.node? (t ++ [name]) = some .directory
    swap
    · exact seen_leaf hl hd hn hk hk' hc' (ht [name]) (fun hfits h => hdir ⟨hfits, h⟩)
        (hlink [name]) r
    have hin := (hl.enter hn hdir.1 hdir.2).mono
      (Set.subset_sdiff_singleton subset_rfl (ht [name]))
    have hkind := hin.kind hc'
    have hkind' := (hin.agree hd).kind hc'
    by_cases hskip : name ∈ skipped
    · rw [seen_skipped hskip hkind', seen_skipped hskip hkind]
    · rw [seen_child hk' hn fun h => hskip h.1, seen_child hk hn fun h => hskip h.1]
      refine ih hin (fun r => ?_) fun r => ?_
      · rw [List.append_assoc]
        exact hlink _
      · rw [List.append_assoc]
        exact ht _

theorem Shows.child (h : Shows S b skipped p f) (hn : f [name] ≠ none) :
    Shows S b skipped (p.join name) fun r => f (name :: r) := by
  intro d hd
  obtain rfl := h d hd
  exact funext fun r => (seen_join hn r).symm

theorem Shows.agree (h : Shows S b skipped p f) (ha : Agree S b d) : Shows S d skipped p f :=
  fun d' hd => h d' (ha.trans hd)

theorem Shows.mono (h : Shows S b skipped p f) (hs : S' ⊆ S) : Shows S' b skipped p f :=
  fun d hd => h d (hd.mono hs)

theorem on_kind (p : Path) (d : Disk) :
    on (FileView.kind p : Program Fault Kind) d = (d.kind p, d) := rfl

theorem on_contents (p : Path) (d : Disk) :
    on (FileView.contents p : Program Fault ByteArray) d = (d.contents p, d) := rfl

theorem on_listing (p : Path) (d : Disk) :
    on (FileView.listing p : Program Fault (List (String × Kind))) d = (d.listing p, d) := rfl

theorem follow_ok (h : on (follow above p : Program Fault Kind) d = (.ok kind, d')) :
    d' = d ∧ d.kind p = .ok kind := by
  have hsame := (keeps_follow (I := (· = d)) above p d rfl).1
  rw [h] at hsame
  refine ⟨hsame, ?_⟩
  rw [follow, on_bind, visiting, on_adapt, on_kind] at h
  cases hk : d.kind p with
  | error e =>
    rw [hk] at h
    cases h
  | ok k =>
    rw [hk] at h
    dsimp only [Except.mapError] at h
    split at h
    · rw [on_bind] at h
      split at h
      · split at h
        · cases h
        · cases h
          rfl
      · cases h
    · cases h
      rfl

theorem enter_same {r : Except Fault (List Above)}
    (h : on (enter above p : Program Fault (List Above)) d = (r, d')) : d' = d := by
  have hsame := (keeps_enter (I := (· = d)) above p d rfl).1
  rwa [h] at hsame

theorem sortedListing_cases {r : Except Fault (List (String × Kind))}
    (h : on (sortedListing p : Program Fault (List (String × Kind))) d = (r, d')) :
    d' = d ∧ ∀ es, r = .ok es → ∃ es', d.listing p = .ok es' ∧ es.Perm es' := by
  rw [sortedListing, on_bind, visiting, on_adapt, on_listing] at h
  cases hl : d.listing p with
  | error e =>
    rw [hl] at h
    cases h
    exact ⟨rfl, fun es he => by cases he⟩
  | ok es' =>
    rw [hl] at h
    cases h
    refine ⟨rfl, fun es he => ?_⟩
    cases he
    exact ⟨es', rfl, Text.sortByName_perm _ _⟩

theorem Listed.perm (h : Listed skipped f entries) (hp : es.Perm entries) :
    Listed skipped f es where
  proper e he := h.proper e (hp.mem_iff.1 he)
  nodup := (hp.map _).nodup_iff.2 h.nodup
  skips e he := h.skips e (hp.mem_iff.1 he)
  only name hm := h.only name fun hm' => hm ((hp.map _).mem_iff.2 hm')

theorem distinct_makeDirectories {r : Except Fault Unit} (hd : d.Distinct)
    (h : on (makeDirectories p : Program Fault Unit) d = (r, d')) : d'.Distinct := by
  have hkeeps : Keeps Disk.Distinct Any (makeDirectories p : Program Fault Unit) :=
    keeps_makeDirectories_of fun _ _ _ _ hd hm => distinct_makeDirectory hd hm
  have hdistinct := (hkeeps d hd).1
  rwa [h] at hdistinct

/-- A path into the region `H` leads to the directory `t` there, past all that this holds. -/
structure Target (b : Disk) (H : Trail) (target : Path) (t : Trail) (d : Disk) : Prop where
  into : ∃ rest, Inside b H target rest
  within : H <+: t
  region : Region b H d
  distinct : d.Distinct
  leads : Leads d (inside t) target t

theorem Target.linkless (h : Target b H target t d) (r : Trail) (link : String) :
    d.node? (t ++ r) ≠ some (.link link) := by
  obtain ⟨v, rfl⟩ := h.within
  rw [List.append_assoc]
  exact h.region.linkless _ link

theorem Target.change (h : Target b H target t d) (ha : Agree (inside t) d d')
    (hr : Region b H d') (hd : d'.Distinct) : Target b H target t d' :=
  { h with region := hr, distinct := hd, leads := h.leads.agree ha }

theorem below_child_subset (t : Trail) (name : String) : below (t ++ [name]) ⊆ inside t :=
  below_subset_inside (s := ⟨t, name, false⟩) (List.prefix_refl t)

/-- Directories that are made sure of below a target are targets. -/
theorem Target.makeDirectories (h : Target b H target t d) (hr : rel.toList.head? ≠ some '/')
    (hn : ∀ name ∈ Path.stepNames rel, ProperName name) (hne : Path.stepNames rel ≠ [])
    (hrun : on (Files.makeDirectories (target.join rel) : Program Fault Unit) d = (.ok (), d')) :
    Target b H (target.join rel) (t ++ Path.stepNames rel) d' ∧
      Opens (t ++ Path.stepNames rel) d d' := by
  have hdown : ".." ∉ Path.stepNames rel := fun hm => (hn _ hm).2.2.2 rfl
  obtain ⟨rest, hin⟩ := h.into
  have hin' := hin.join hr hdown
  have hcomes := h.leads.comes.join hr hdown
  rw [List.nil_append] at hcomes
  obtain ⟨hleads, hopens⟩ := opened_below hcomes h.linkless hn hne hrun
  have hregion := (keeps_makeDirectories hin' d h.region).1
  rw [hrun] at hregion
  exact ⟨⟨⟨_, hin'⟩, h.within.trans (List.prefix_append _ _), hregion,
    distinct_makeDirectories h.distinct hrun, hleads⟩, hopens⟩

/-- A directory that was missing is made empty. -/
theorem Disk.Opens.sets (h : Opens (t ++ [name]) d d') (hdir : d.node? t = some .directory)
    (hfree : d.node? (t ++ [name]) = none) (hmade : d'.node? (t ++ [name]) = some .directory) :
    Sets d d' (t ++ [name]) (Tree.directory []).node? := by
  refine ⟨⟨h.here, fun v hv => (h.node v).resolve_right ?_⟩, funext fun r => ?_⟩
  · rintro ⟨hnone, -, hpre⟩
    rcases List.prefix_concat_iff.1 hpre with rfl | ⟨r, rfl⟩
    · exact hv (List.prefix_refl _)
    · rw [node?_append_of_none hnone] at hdir
      cases hdir
  · cases r with
    | nil => exact (subtree_nil d' _).trans hmade
    | cons other r =>
      rcases h.node (t ++ [name] ++ other :: r) with hsame | ⟨-, -, hpre⟩
      · exact hsame.trans (node?_append_of_none hfree _)
      · have hle := hpre.length_le
        simp at hle

theorem Target.makeDirectory (h : Target b H target t d) (hn : ProperName name)
    (hfree : d.node? (t ++ [name]) = none)
    (hrun : on (Files.makeDirectories (target.join name) : Program Fault Unit) d = (.ok (), d')) :
    Target b H (target.join name) (t ++ [name]) d' ∧
      Sets d d' (t ++ [name]) (Tree.directory []).node? := by
  have hstep := Path.stepNames_name hn.1 hn.2.1
  have hmade := h.makeDirectories (head?_of_proper hn) (by simpa [hstep] using hn)
    (by simp [hstep]) hrun
  rw [hstep] at hmade
  exact ⟨hmade.1, hmade.2.sets h.leads.dir hfree hmade.1.leads.dir⟩

theorem Target.write (h : Target b H target t d) (hn : ProperName name)
    (hw : d.write (target.join name) bytes = .ok d') :
    Target b H target t d' ∧ Sets d d' (t ++ [name]) (Tree.file bytes).node? := by
  have hstands := h.leads.child hn (check_of_write hw)
  obtain ⟨-, -, hset⟩ := write_sets hstands rfl (h.linkless [name]) hw
  obtain ⟨rest, hin⟩ := h.into
  have hregion := (keeps_write (hin.child hn) bytes d h.region).1
  rw [on_write, hw, settled] at hregion
  exact ⟨h.change (hset.agree.mono (below_child_subset t name)) hregion
    (distinct_write h.distinct hw), hset⟩

theorem contents_of_copyFile
    (h : on (copyFile source target : Program Fault Unit) d = (.ok (), d')) :
    ∃ bytes, d.contents source = .ok bytes := by
  obtain ⟨bytes, d₁, hread, -⟩ := on_bind_eq_ok.1 h
  rw [on_contents] at hread
  exact ⟨bytes, (Prod.mk.inj hread).1⟩

/-- A file that can be read whatever stands in the region is copied into it. -/
theorem copyFile_ok (ht : Target b H target t d) (hn : ProperName name)
    (hr : ∀ z, Agree (inside H) b z → z.contents source = .ok bytes)
    (h : on (copyFile source (target.join name) : Program Fault Unit) d = (.ok (), d')) :
    Target b H target t d' ∧ Sets d d' (t ++ [name]) (Tree.file bytes).node? := by
  obtain ⟨_, _, hread, h₁⟩ := on_bind_eq_ok.1 h
  rw [on_contents, hr d ht.region.agree] at hread
  cases hread
  obtain ⟨_, d₁, hempty, h₂⟩ := on_bind_eq_ok.1 h₁
  rw [on_write, settled_eq_ok] at hempty
  obtain ⟨ht₁, hset₁⟩ := ht.write hn hempty
  obtain ⟨_, _, hreread, h₃⟩ := on_bind_eq_ok.1 h₂
  rw [on_contents, hr d₁ ht₁.region.agree] at hreread
  cases hreread
  rw [on_write, settled_eq_ok] at h₃
  obtain ⟨ht₂, hset₂⟩ := ht₁.write hn h₃
  exact ⟨ht₂, hset₁.trans hset₂⟩

theorem encard_filesOf_under (f : Trail → Option Node) (name : String) :
    (filesOf f ∩ under [name]).encard = (filesOf fun r => f (name :: r)).encard := by
  have himage : filesOf f ∩ under [name] = (name :: ·) '' filesOf fun r => f (name :: r) := by
    ext r
    constructor
    · rintro ⟨⟨bytes, hf⟩, other, hm, ⟨r', rfl⟩⟩
      obtain rfl := List.mem_singleton.1 hm
      exact ⟨r', ⟨bytes, hf⟩, rfl⟩
    · rintro ⟨r', ⟨bytes, hf⟩, rfl⟩
      exact ⟨⟨bytes, hf⟩, name, List.mem_singleton.2 rfl, List.prefix_append [name] r'⟩
  rw [himage, List.cons_injective.encard_image]

theorem encard_under_cons (f : Trail → Option Node) (hn : name ∉ names) :
    (filesOf f ∩ under (name :: names)).encard =
      (filesOf fun r => f (name :: r)).encard + (filesOf f ∩ under names).encard := by
  have hunion : under (name :: names) = under [name] ∪ under names := by
    ext r
    simp [under]
  have hdisjoint : Disjoint (filesOf f ∩ under [name]) (filesOf f ∩ under names) := by
    rw [Set.disjoint_left]
    rintro r ⟨-, first, hfirst, ⟨r', rfl⟩⟩ ⟨-, other, hother, hpre⟩
    obtain rfl := List.mem_singleton.1 hfirst
    obtain rfl := (List.cons_prefix_cons.1 hpre).1
    exact hn hother
  rw [hunion, Set.inter_union_distrib_left, Set.encard_union_eq hdisjoint, encard_filesOf_under]

theorem encard_filesOf_file (bytes : ByteArray) : (filesOf (Tree.file bytes).node?).encard = 1 := by
  have hsingle : filesOf (Tree.file bytes).node? = {[]} := by
    ext r
    constructor
    · rintro ⟨_, hr⟩
      exact (node?_file bytes hr).1
    · rintro rfl
      exact ⟨bytes, rfl⟩
  rw [hsingle, Set.encard_singleton]

theorem encard_filesOf_nothing : (filesOf nothing).encard = 0 := by
  have hempty : filesOf nothing = ∅ := by
    ext r
    constructor
    · rintro ⟨_, hr⟩
      cases hr
    · exact False.elim
  rw [hempty, Set.encard_empty]

/-- A copy of what `f` shows stands at `t`; it has `n` files. -/
structure Copied (b : Disk) (H : Trail) (target : Path) (t u : Trail) (f : Trail → Option Node)
    (n : Nat) (d d' : Disk) : Prop where
  target : Target b H target t d'
  sets : Sets d d' u f
  count : (filesOf f).encard = n

/-- A program that copies entries into an empty directory makes it show what the source shows. -/
def Copies (b : Disk) (H : Trail) (skipped : List String)
    (descend : List Above → Path → Path → List (String × Kind) → Program Fault Nat) : Prop :=
  ∀ {above source target entries t f d d' n}, Target b H target t d →
    Shows (inside H) b skipped source f → f [] = some .directory → Listed skipped f entries →
    (∀ name, d.node? (t ++ [name]) = none) →
    on (descend above source target entries) d = (.ok n, d') → Copied b H target t t f n d d'

/-- Copies an entry whose kind is known. -/
def copyKnown (skipped : List String)
    (descend : List Above → Path → Path → List (String × Kind) → Program Fault Nat)
    (above : List Above) (source target : Path) (name : String) (kind : Kind) :
    Program Fault Nat := do
  if kind = .directory then
    if name ∈ skipped then return 0
    let entries ← attempt (sortedListing (source.join name))
    makeDirectories (target.join name)
    let entries ← ExceptT.mk (pure entries)
    descend (← enter above (source.join name)) (source.join name) (target.join name) entries
  else
    copyFile (source.join name) (target.join name)
    return 1

theorem copyEntry_eq : copyEntry skipped descend above source target entry =
    (if entry.2 = .link then follow above (source.join entry.1) else pure entry.2) >>=
      copyKnown skipped descend above source target entry.1 := by
  rw [copyEntry]
  split <;> rfl

/-- A directory that was listed is copied: it is made, and what it holds is copied into it. -/
theorem copied_directory {es es' : List (String × Kind)} {d₁ : Disk} (above : List Above)
    (hd : Copies b H skipped descend) (hb : b.Proper) (ht : Target b H target t d)
    (hs : Shows (inside H) b skipped source f) (hf : f [] = some .directory)
    (hn : ProperName name) (hfree : d.node? (t ++ [name]) = none) (hout : name ∉ skipped)
    (hlisting : d.listing (source.join name) = .ok es') (hperm : es.Perm es')
    (hmake : on (makeDirectories (target.join name) : Program Fault Unit) d = (.ok (), d₁))
    (h : on (descend above (source.join name) (target.join name) es) d₁ = (.ok n, d')) :
    Copied b H target t (t ++ [name]) (fun r => f (name :: r)) n d d' := by
  have hsource : d.kind source = .ok .directory :=
    kind_of_seen ((congrFun (hs d ht.region.agree) []).trans hf)
  have hdir : d.kind (source.join name) = .ok .directory := by
    obtain ⟨_, _, _, _, _, hk⟩ := listing_eq_ok hlisting
    exact hk
  have hseen : f [name] = some .directory := by
    rw [← hs d ht.region.agree]
    exact seen_directory hsource hn hout hdir
  have hchild : Shows (inside H) b skipped (source.join name) fun r => f (name :: r) :=
    hs.child (by simp [hseen])
  have hes : Listed skipped (fun r => f (name :: r)) es := by
    rw [← hchild d ht.region.agree]
    exact (listed_of_listing (ht.region.proper hb) ht.distinct hlisting).perm hperm
  obtain ⟨ht₁, hset₁⟩ := ht.makeDirectory hn hfree hmake
  have hcopied := hd ht₁ hchild hseen hes (fun other => congrFun hset₁.subtree [other]) h
  have hagree := hset₁.agree.trans hcopied.sets.agree
  exact ⟨ht.change (hagree.mono (below_child_subset t name)) hcopied.target.region
    hcopied.target.distinct, ⟨hagree, hcopied.sets.subtree⟩, hcopied.count⟩

theorem copied_file (ht : Target b H target t d) (hs : Shows (inside H) b skipped source f)
    (hf : f [] = some .directory) (hn : ProperName name)
    (h : on (copyFile (source.join name) (target.join name) : Program Fault Unit) d =
      (.ok (), d')) :
    Copied b H target t (t ++ [name]) (fun r => f (name :: r)) 1 d d' := by
  have hsource : d.kind source = .ok .directory :=
    kind_of_seen ((congrFun (hs d ht.region.agree) []).trans hf)
  obtain ⟨bytes, hread⟩ := contents_of_copyFile h
  have hseen : f [name] = some (.file bytes) := by
    rw [← hs d ht.region.agree]
    exact seen_file hsource hn hread
  have hchild : Shows (inside H) b skipped (source.join name) fun r => f (name :: r) :=
    hs.child (by simp [hseen])
  have hfile : (fun r => f (name :: r)) = (Tree.file bytes).node? := by
    rw [← hchild d ht.region.agree]
    exact seen_of_contents hread
  have hreads : ∀ z, Agree (inside H) b z → z.contents (source.join name) = .ok bytes := by
    intro z hz
    exact contents_of_seen (congrFun ((hchild z hz).trans hfile) [])
  obtain ⟨ht₁, hset₁⟩ := copyFile_ok ht hn hreads h
  rw [hfile]
  exact ⟨ht₁, hset₁, encard_filesOf_file bytes⟩

theorem copyKnown_ok (hd : Copies b H skipped descend) (hb : b.Proper)
    (ht : Target b H target t d) (hs : Shows (inside H) b skipped source f)
    (hf : f [] = some .directory) (hn : ProperName name) (hfree : d.node? (t ++ [name]) = none)
    (hskip : kind = .directory → name ∈ skipped → ∀ r, f (name :: r) = none)
    (h : on (copyKnown skipped descend above source target name kind) d = (.ok n, d')) :
    Copied b H target t (t ++ [name]) (fun r => f (name :: r)) n d d' := by
  rw [copyKnown] at h
  split at h
  · next hkind =>
    split at h
    · next hin =>
      cases h
      have hnone : (fun r => f (name :: r)) = nothing := funext (hskip hkind hin)
      rw [hnone]
      exact ⟨ht, ⟨.refl _ _, subtree_of_none hfree⟩, encard_filesOf_nothing⟩
    · next hout =>
      obtain ⟨listed, d₀, hattempt, h₁⟩ := on_bind_eq_ok.1 h
      obtain ⟨rfl, hlisted⟩ := sortedListing_cases (on_attempt_eq_ok.1 hattempt)
      obtain ⟨_, d₁, hmake, h₂⟩ := on_bind_eq_ok.1 h₁
      obtain ⟨es, d₂, hsettled, h₃⟩ := on_bind_eq_ok.1 h₂
      cases hsettled
      obtain ⟨es', hlisting, hperm⟩ := hlisted es rfl
      obtain ⟨above', d₃, henter, h₄⟩ := on_bind_eq_ok.1 h₃
      obtain rfl := enter_same henter
      exact copied_directory above' hd hb ht hs hf hn hfree hout hlisting hperm hmake h₄
  · obtain ⟨_, _, hcopy, h₁⟩ := on_bind_eq_ok.1 h
    cases h₁
    exact copied_file ht hs hf hn hcopy

theorem copyEntry_ok (hd : Copies b H skipped descend) (hb : b.Proper)
    (ht : Target b H target t d) (hs : Shows (inside H) b skipped source f)
    (hf : f [] = some .directory) (hn : ProperName entry.1)
    (hfree : d.node? (t ++ [entry.1]) = none)
    (hskip : entry.2 = .directory → entry.1 ∈ skipped → ∀ r, f (entry.1 :: r) = none)
    (h : on (copyEntry skipped descend above source target entry) d = (.ok n, d')) :
    Copied b H target t (t ++ [entry.1]) (fun r => f (entry.1 :: r)) n d d' := by
  rw [copyEntry_eq] at h
  split at h
  · obtain ⟨kind, d₁, hfollow, h₁⟩ := on_bind_eq_ok.1 h
    obtain ⟨rfl, hkind⟩ := follow_ok hfollow
    refine copyKnown_ok hd hb ht hs hf hn hfree (fun hdir hin r => ?_) h₁
    rw [← hs d₁ ht.region.agree]
    exact seen_skipped hin (hdir ▸ hkind) r
  · exact copyKnown_ok hd hb ht hs hf hn hfree hskip h

/-- Entries were copied one after the other. -/
structure CopiedEach (b : Disk) (H : Trail) (target : Path) (t : Trail) (f : Trail → Option Node)
    (names : List String) (n : Nat) (d d' : Disk) : Prop where
  target : Target b H target t d'
  agree : Agree {v | ∃ name ∈ names, t ++ [name] <+: v} d d'
  node : ∀ name ∈ names, ∀ r, d'.node? (t ++ name :: r) = f (name :: r)
  count : (filesOf f ∩ under names).encard = n

theorem copyEach_ok (hd : Copies b H skipped descend) (hb : b.Proper)
    (ht : Target b H target t d) (hs : Shows (inside H) b skipped source f)
    (hf : f [] = some .directory) (hn : ∀ e ∈ entries, ProperName e.1)
    (hnodup : (entries.map (·.1)).Nodup)
    (hskip : ∀ e ∈ entries, e.2 = .directory → e.1 ∈ skipped → ∀ r, f (e.1 :: r) = none)
    (hfree : ∀ e ∈ entries, d.node? (t ++ [e.1]) = none)
    (h : on (copyEach skipped descend above source target entries) d = (.ok n, d')) :
    CopiedEach b H target t f (entries.map (·.1)) n d d' := by
  induction entries generalizing d n with
  | nil =>
    cases h
    refine ⟨ht, .refl _ _, fun name hm => absurd hm List.not_mem_nil, ?_⟩
    have hempty : filesOf f ∩ under [] = ∅ := by
      ext r
      simp [under]
    rw [List.map_nil, hempty, Set.encard_empty]
    rfl
  | cons e entries ih =>
    obtain ⟨hnew, hnodup⟩ := List.nodup_cons.1 hnodup
    obtain ⟨first, d₁, hone, h₁⟩ := on_bind_eq_ok.1 h
    obtain ⟨others, d₂, hrest, h₂⟩ := on_bind_eq_ok.1 h₁
    cases h₂
    have hcopied := copyEntry_ok hd hb ht hs hf (hn e (List.mem_cons_self ..))
      (hfree e (List.mem_cons_self ..)) (hskip e (List.mem_cons_self ..)) hone
    have hapart {name : String} (hm : name ∈ entries.map (·.1)) : e.1 ≠ name := by
      rintro rfl
      exact hnew hm
    have heach := ih hcopied.target (fun e' he' => hn e' (List.mem_cons_of_mem _ he')) hnodup
      (fun e' he' => hskip e' (List.mem_cons_of_mem _ he'))
      (fun e' he' => by
        rw [hcopied.sets.agree.node _ (not_below_sibling (hapart (List.mem_map_of_mem he')))]
        exact hfree e' (List.mem_cons_of_mem _ he')) hrest
    refine ⟨heach.target, ?_, fun name hm r => ?_, ?_⟩
    · refine (hcopied.sets.agree.mono fun v hv => ?_).trans (heach.agree.mono fun v hv => ?_)
      · exact ⟨e.1, List.mem_cons_self .., hv⟩
      · obtain ⟨name, hm, hv⟩ := hv
        exact ⟨name, List.mem_cons_of_mem _ hm, hv⟩
    · rcases List.mem_cons.1 hm with rfl | hm
      · have hfirst : d₁.node? (t ++ e.1 :: r) = f (e.1 :: r) := by
          rw [← congrFun hcopied.sets.subtree r, subtree, List.append_assoc]
          rfl
        rw [← hfirst]
        refine heach.agree.node _ ?_
        rintro ⟨name, hm, hpre⟩
        rw [List.prefix_append_right_inj] at hpre
        exact hapart hm (List.cons_prefix_cons.1 hpre).1.symm
      · exact heach.node name hm r
    · rw [List.map_cons, encard_under_cons f hnew, hcopied.count, heach.count]
      rfl

theorem copies_copyEach (hb : b.Proper) (hd : Copies b H skipped descend) :
    Copies b H skipped (copyEach skipped descend) := by
  intro above source target entries t f d d' n ht hs hf hl hfree h
  have heach := copyEach_ok hd hb ht hs hf hl.proper hl.nodup hl.skips (fun e _ => hfree e.1) h
  refine ⟨heach.target, ⟨heach.agree.mono ?_, funext fun r => ?_⟩, ?_⟩
  · rintro v ⟨name, -, hv⟩
    exact (List.prefix_append _ _).trans hv
  · cases r with
    | nil =>
      rw [subtree_nil, hf]
      exact heach.target.leads.dir
    | cons name r =>
      by_cases hm : name ∈ entries.map (·.1)
      · exact heach.node name hm r
      · rw [hl.only name hm r, subtree, heach.agree.node]
        · rw [List.append_cons]
          exact node?_append_of_none (hfree name) r
        · rintro ⟨other, hother, hpre⟩
          rw [List.prefix_append_right_inj] at hpre
          exact hm ((List.cons_prefix_cons.1 hpre).1 ▸ hother)
  · rw [← heach.count]
    congr 1
    refine (Set.inter_eq_left.2 ?_).symm
    rintro r ⟨bytes, hr⟩
    cases r with
    | nil =>
      rw [hf] at hr
      cases hr
    | cons name r =>
      refine ⟨name, ?_, List.prefix_append [name] r⟩
      by_contra hm
      rw [hl.only name hm r] at hr
      cases hr

theorem copies_copyEntries (hb : b.Proper) (depth : Nat) :
    Copies b H skipped (copyEntries skipped depth) := by
  induction depth with
  | zero =>
    refine copies_copyEach hb ?_
    intro above source target entries t f d d' n _ _ _ _ _ h
    cases h
  | succ depth ih => exact copies_copyEach hb ih

/-- A tree is copied to a place that is free: there the disk shows what was seen of the source. The
directories on the way are made. -/
theorem copyTree_ok (hb : b.Proper) (ht : Target b H target t d)
    (hs : Shows (inside H) b skipped source f) (hf : f [] = some .directory)
    (hr : rel.toList.head? ≠ some '/') (hn : ∀ name ∈ Path.stepNames rel, ProperName name)
    (hne : Path.stepNames rel ≠ []) (hfree : d.node? (t ++ Path.stepNames rel) = none)
    (h : on (copyTree skipped source (target.join rel) : Program Fault Nat) d = (.ok n, d')) :
    ∃ d₁, Opens (t ++ Path.stepNames rel) d d₁ ∧
      Copied b H (target.join rel) (t ++ Path.stepNames rel) (t ++ Path.stepNames rel) f n d₁ d' := by
  obtain ⟨_, d₁, hmake, h₁⟩ := on_bind_eq_ok.1 h
  obtain ⟨ht₁, hopens⟩ := ht.makeDirectories hr hn hne hmake
  have hkind : d₁.kind source = .ok .directory :=
    kind_of_seen ((congrFun (hs d₁ ht₁.region.agree) []).trans hf)
  obtain ⟨_, _, hvisit, h₂⟩ := on_bind_eq_ok.1 h₁
  rw [visiting, on_adapt, on_kind, hkind] at hvisit
  cases hvisit
  rw [if_pos rfl] at h₂
  obtain ⟨above, d₂, henter, h₃⟩ := on_bind_eq_ok.1 h₂
  obtain rfl := enter_same henter
  obtain ⟨es, d₃, hl, h₄⟩ := on_bind_eq_ok.1 h₃
  obtain ⟨rfl, hlisted⟩ := sortedListing_cases hl
  obtain ⟨es', hes', hperm⟩ := hlisted es rfl
  have hes : Listed skipped f es := by
    rw [← hs d₃ ht₁.region.agree]
    exact (listed_of_listing (ht₁.region.proper hb) ht₁.distinct hes').perm hperm
  refine ⟨d₃, hopens, copies_copyEntries hb _ ht₁ hs hf hes (fun name => ?_) h₄⟩
  rcases hopens.node (t ++ Path.stepNames rel ++ [name]) with hsame | ⟨-, -, hpre⟩
  · exact hsame.trans (node?_append_of_none hfree _)
  · have hle := hpre.length_le
    simp at hle

end Vendoring.Files
