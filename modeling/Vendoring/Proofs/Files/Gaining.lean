import Vendoring.Proofs.Files.Copying

/-! Making directories: the disk gains those that the paths to them lead to, and nothing else. -/
namespace Vendoring.Files
namespace Disk

variable {b d d' : Disk} {S : Set Trail} {p : Path} {q t : Trail} {ps : List Path} {k : Node}

/-- Nothing is changed but that there are new directories, each where a path of `ps` leads. -/
structure Gains (ps : List Path) (d d' : Disk) : Prop where
  here : d'.here = d.here
  node : ∀ t, d'.node? t = d.node? t ∨
    d.node? t = none ∧ d'.node? t = some .directory ∧ ∃ p ∈ ps, Leads d' ∅ p t

theorem Gains.refl (ps : List Path) (d : Disk) : Gains ps d d := ⟨rfl, fun _ => Or.inl rfl⟩

theorem Gains.none_of_none (h : Gains ps b d) (hd : d.node? t = none) : b.node? t = none := by
  rcases h.node t with he | ⟨hb, -⟩
  · rw [← he, hd]
  · exact hb

theorem Leads.grow (h : Leads d S p q) (hh : d'.here = d.here)
    (hd : ∀ t k, d.node? t = some k → d'.node? t = some k) : Leads d' S p q := by
  obtain ⟨links, hw⟩ := h.way
  exact ⟨⟨links, hh ▸ hw.grow hd⟩, hd _ _ h.dir⟩

/-- A new directory is where the path to it leads. -/
theorem leads_of_makeDirectory {s : Slot} (hs : d.slot? p = .ok (some s))
    (h : d.makeDirectory p = .ok d') :
    Leads d' ∅ p s.trail ∧ (∀ t k, d.node? t = some k → d'.node? t = some k) ∧
      ∀ r, r ≠ [] → d'.node? (s.trail ++ r) = none := by
  obtain ⟨hfree, hfits, hset⟩ := add_sets hs h
  have hgrow : ∀ t k, d.node? t = some k → d'.node? t = some k := by
    intro t k hk
    rw [hset.agree.node t]
    · exact hk
    · rintro ⟨r, rfl⟩
      rw [node?_append_of_none hfree] at hk
      cases hk
  have hnew : d'.node? s.trail = some .directory := by
    rw [← subtree_nil, hset.subtree]
    rfl
  obtain ⟨⟨before, links, hb, hw⟩, plain, -, -, dir⟩ := stands_of_slot? hs
  refine ⟨⟨⟨links, ?_⟩, hnew⟩, hgrow, fun r hr => ?_⟩
  · rw [hb, hset.agree.here]
    refine ((hw.grow hgrow).append [s.name]).trans ?_
    exact .down id (hgrow _ _ dir) plain hfits hnew (fun _ => by simp) (.stop id)
  · obtain ⟨name, r, rfl⟩ := List.exists_cons_of_ne_nil hr
    exact congrFun hset.subtree (name :: r)

theorem gains_makeDirectory (hg : Gains ps b d) (hp : p ∈ ps)
    (h : d.makeDirectory p = .ok d') : Gains ps b d' := by
  obtain ⟨s, hs⟩ := makeDirectory_slot h
  obtain ⟨hfree, -, hset⟩ := add_sets hs h
  obtain ⟨hleads, hgrow, hbelow⟩ := leads_of_makeDirectory hs h
  refine ⟨hset.agree.here.trans hg.here, fun t => ?_⟩
  by_cases ht : s.trail <+: t
  · obtain ⟨r, rfl⟩ := ht
    have hnone := hg.none_of_none (node?_append_of_none hfree r)
    by_cases hr : r = []
    · subst hr
      rw [List.append_nil] at hnone ⊢
      exact Or.inr ⟨hnone, hleads.dir, p, hp, hleads⟩
    · exact Or.inl (by rw [hbelow r hr, hnone])
  · rw [hset.agree.node t ht]
    exact (hg.node t).imp_right fun ⟨hb, hd, p', hp', hl⟩ =>
      ⟨hb, hd, p', hp', hl.grow hset.agree.here hgrow⟩

theorem proper_makeDirectory (hd : d.Proper) (h : d.makeDirectory p = .ok d') : d'.Proper := by
  obtain ⟨s, hs⟩ := makeDirectory_slot h
  obtain ⟨-, -, hset⟩ := add_sets hs h
  obtain ⟨-, -, hbelow⟩ := leads_of_makeDirectory hs h
  obtain ⟨⟨before, -, hb, -⟩, plain, -, -, dir⟩ := stands_of_slot? hs
  intro t ht name hm
  by_cases hst : s.trail <+: t
  · obtain ⟨r, rfl⟩ := hst
    by_cases hr : r = []
    · rw [hr, List.append_nil, Slot.trail, List.mem_append, List.mem_singleton] at hm
      rcases hm with hm | rfl
      · exact hd _ (by rw [dir]; simp) name hm
      · exact proper_of_mem_steps (p := p) (by simp [hb]) plain
    · exact absurd (hbelow r hr) ht
  · rw [hset.agree.node t hst] at ht
    exact hd t ht name hm

end Disk

open Disk

variable {σ : Type} [FileStore (StateM σ)] [Carrier σ] [LawfulCarrier σ]

/-- What the making of each directory keeps is kept by the making of a path. -/
theorem keeps_makeDirectories_of {I : Disk → Prop} {p : Path}
    (h : ∀ a ∈ p.ancestors, ∀ d d', I d → d.makeDirectory a = .ok d' → I d') :
    Keeps I Any (makeDirectories p : Work σ Fault Unit) :=
  keeps_makeFirst fun a ha _ => keeps_makeDirectory_of (h a ha)

end Vendoring.Files
