import Vendoring.Proofs.Files.Worked

/-! Making directories that were missing: the new ones stand on the way to the last of them. -/
namespace Vendoring.Files
namespace Disk
open Outcome

variable {d d' : Disk} {S : Set Trail} {p : Path} {q t : Trail} {rest : List String}

/-- A path leads to a directory once that was made sure of. -/
theorem leads_of_makeDirectories (hne : p.text ≠ "") (hparents : p.parents ≠ [])
    (h : on (makeDirectories p : Program Fault Unit) d = (.ok (), d')) :
    ∃ q, Leads d' ∅ p q := by
  have hmade {d₁ d₂ : Disk} (hm : d₁.makeDirectory p = .ok d₂) : ∃ q, Leads d₂ ∅ p q := by
    obtain ⟨s, hs⟩ := makeDirectory_slot hm
    exact ⟨_, (leads_of_makeDirectory hs hm).1⟩
  have hcheck (d₁ : Disk) (e : Fault) (hr : on (do
      unless ← (isDirectory p : StateM Disk Bool) do throw e : Program Fault Unit) d₁ =
        (.ok (), d')) : ∃ q, Leads d' ∅ p q := by
    rw [on_bind, on_isDirectory] at hr
    dsimp only at hr
    split at hr
    · next hdir =>
      cases hr
      exact leads_of_kind (of_decide_eq_true hdir)
    · cases hr
  rw [makeDirectories, Path.ancestors, makeFirst, if_neg (not_or.2 ⟨hne, hparents⟩), on_bind,
    on_attempt, on_makeDirectory] at h
  cases hm : d.makeDirectory p with
  | ok d₁ =>
    rw [hm] at h
    cases h
    exact hmade hm
  | error e =>
    rw [hm, settled] at h
    by_cases hmissing : e = .notFound
    · subst hmissing
      dsimp only at h
      rw [on_bind] at h
      cases hp : on (makeFirst p.parents : Program Fault Unit) d with
      | mk r d₁ =>
      rw [hp] at h
      cases r with
      | error e => cases h
      | ok u =>
      dsimp only at h
      rw [on_bind, on_attempt, on_makeDirectory] at h
      cases hm' : d₁.makeDirectory p with
      | ok d₂ =>
        rw [hm'] at h
        cases h
        exact hmade hm'
      | error e =>
        rw [hm', settled] at h
        exact hcheck _ _ h
    · refine hcheck d e ?_
      rw [← h]
      cases e <;> first | exact absurd rfl hmissing | rfl

/-- The directories that were made are those of the path and of its parents. -/
theorem gains_of_ancestors {r : Except Fault Unit}
    (h : on (makeDirectories p : Program Fault Unit) d = (r, d')) :
    Gains (p.ancestors.filter (·.text ≠ "")) d d' := by
  have hkeeps : Keeps (Gains (p.ancestors.filter (·.text ≠ "")) d) Any
      (makeDirectories p : Program Fault Unit) := by
    refine keeps_makeFirst fun a ha hne => keeps_makeDirectory_of fun _ _ hg hm => ?_
    exact gains_makeDirectory hg (List.mem_filter.2 ⟨ha, by simpa using hne⟩) hm
  have hgains := (hkeeps d (.refl _ _)).1
  rwa [h] at hgains

/-- A disk that has more directories, all of them on the way to `t`. -/
structure Opens (t : Trail) (d d' : Disk) : Prop where
  here : d'.here = d.here
  node : ∀ u, d'.node? u = d.node? u ∨
    d.node? u = none ∧ d'.node? u = some .directory ∧ u <+: t

theorem Leads.comes (hl : Leads d S p q) : Comes d S p q [] := by
  obtain ⟨links, hw⟩ := hl.way
  exact ⟨⟨p.steps, links, (List.append_nil _).symm, hw⟩, hl.dir, by simp⟩

/-- Directories that are missing below an existing one are made on the way straight down. -/
theorem opens_of_gains (hc : Comes d S p q rest)
    (hgains : Gains (p.ancestors.filter (·.text ≠ "")) d d') (hl : Leads d' ∅ p t) :
    Opens t d d' := by
  refine ⟨hgains.here, fun u => (hgains.node u).imp_right ?_⟩
  rintro ⟨hnone, hdir, a, ham, hla⟩
  refine ⟨hnone, hdir, ?_⟩
  rcases hc.ancestor (List.mem_of_mem_filter ham) with ⟨v, hla'⟩ |
    ⟨rest', more, -, rfl, hsteps, habs, -⟩
  · -- A parent of the existing directory was there before.
    obtain rfl := hla.unique (hla'.grow hgains.here fun _ _ => hgains.grow)
    rw [hla'.dir] at hnone
    cases hnone
  · obtain ⟨links, hw⟩ := hl.way
    rw [hsteps] at hw
    obtain ⟨l, v, hv, hmore⟩ := hw.split
    have hla' : Leads d' ∅ a v := by
      refine ⟨⟨l, ?_⟩, hmore.dir_of_end hl.dir⟩
      rw [startOf, habs]
      exact hv
    obtain rfl := hla.unique hla'
    have hlinkless : ∀ r target, d'.node? (v ++ r) ≠ some (.link target) := by
      intro r target hlink
      have hold := hgains.link_of_link hlink
      rw [node?_append_of_none hnone] at hold
      cases hold
    obtain ⟨ht, -⟩ := hmore.down_end hlinkless fun hm =>
      hc.down (List.mem_append_right _ hm)
    rw [ht]
    exact List.prefix_append _ _

theorem opens_of_makeDirectories {r : Except Fault Unit} (hc : Comes d S p q rest)
    (h : on (makeDirectories p : Program Fault Unit) d = (r, d')) (hl : Leads d' ∅ p t) :
    Opens t d d' := opens_of_gains hc (gains_of_ancestors h) hl

/-- A directory that is made sure of below another one, where there are no links, stands under its
names. What it holds is left as it is. -/
theorem opened_below (hc : Comes d (inside q) p q rest)
    (hlinkless : ∀ r target, d.node? (q ++ r) ≠ some (.link target))
    (hn : ∀ name ∈ rest, ProperName name) (hr : rest ≠ [])
    (h : on (makeDirectories p : Program Fault Unit) d = (.ok (), d')) :
    Leads d' (inside (q ++ rest)) p (q ++ rest) ∧ Opens (q ++ rest) d d' := by
  have hgains := gains_of_ancestors h
  have hgrow : ∀ t k, d.node? t = some k → d'.node? t = some k := fun _ _ => hgains.grow
  have hlinkless' : ∀ r target, d'.node? (q ++ r) ≠ some (.link target) :=
    fun r target hlink => hlinkless r target (hgains.link_of_link hlink)
  obtain ⟨before, links, hs, hw⟩ := hc.way
  obtain ⟨t, hl⟩ : ∃ t, Leads d' ∅ p t := by
    obtain ⟨name, hm⟩ := List.exists_mem_of_ne_nil _ hr
    have hstep : name ∈ p.steps := hs ▸ List.mem_append_right _ hm
    have hparents := Path.parents_ne_nil hstep (hn name hm).2.2.1
    refine leads_of_makeDirectories (fun hnil => ?_) hparents h
    rw [Path.steps, hnil] at hstep
    cases hstep
  have hw' := hw.grow hgrow
  have hnames : rest.filter (· ≠ ".") = rest :=
    List.filter_eq_self.2 fun name hm => by simpa using (hn name hm).2.2.1
  obtain ⟨ht, hfits⟩ : t = q ++ rest ∧ ∀ name ∈ rest, isTooLong name = false := by
    obtain ⟨links', hend⟩ := hl.way
    rw [hs, hgains.here] at hend
    obtain ⟨l, v, hv, hrest⟩ := hend.split
    obtain rfl := hw'.unique hv
    obtain ⟨ht, hfits⟩ := hrest.down_end hlinkless' hc.down
    exact ⟨hnames ▸ ht, fun name hm => hfits name hm (hn name hm).2.2.1⟩
  subst ht
  refine ⟨⟨⟨links, ?_⟩, hl.dir⟩, opens_of_makeDirectories hc h hl⟩
  have hsub : inside (q ++ rest) ⊆ inside q := by
    rintro u ⟨hu, hne⟩
    refine ⟨(List.prefix_append _ _).trans hu, ?_⟩
    rintro rfl
    exact hne (List.IsPrefix.eq_of_length_le hu (by simp)).symm
  rw [hs, hgains.here]
  refine ((hw'.mono hsub).append rest).trans ?_
  refine way_down (fun name hm => ⟨(hn name hm).2.2, hfits name hm⟩) hlinkless' hl.dir ?_
  rintro r hr ⟨hu, hne⟩
  refine hne (hu.eq_of_length_le ?_).symm
  have hle := hr.length_le
  simp only [List.nil_append, List.length_append] at hle ⊢
  omega

end Disk
end Vendoring.Files
