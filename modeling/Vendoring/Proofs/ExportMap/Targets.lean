import Vendoring.Proofs.ExportMap.Relocation
import Vendoring.Proofs.Keyed

/-! Where a lookup can lead: to a target of the map, with its star filled in. What all targets start
with stands before any star, and no hit loses it. -/
namespace Vendoring.ExportMap

variable {active : List String} {subpath wanted lead root key t : String} {n : Node}
  {bs : List (String × Node)} {m m' : ExportMap} {c c' : Candidate} {cs : List Candidate}
  {hit : Hit}

theorem mem_targetsOf (h : (key, n) ∈ bs) (ht : t ∈ n.targets) : t ∈ targetsOf bs := by
  induction bs with
  | nil => cases h
  | cons b r ih =>
    rw [targetsOf, List.mem_append]
    rcases List.mem_cons.1 h with rfl | h
    · exact Or.inl ht
    · exact Or.inr (ih h)

mutual

theorem target_mem_of_select? :
    ∀ {n : Node} {s : Selection}, n.select? active = some s → s.target ∈ n.targets
  | .target _, _, h => by
    cases h
    exact List.mem_singleton_self _
  | .choice bs, s, h => by
    rw [Node.select?] at h
    split at h
    · next condition _ =>
      obtain ⟨s', hs, rfl⟩ := Option.map_eq_some_iff.1 h
      have ht : s'.target ∈ targetsOf bs := target_mem_of_selectAt? condition hs
      exact ht
    · cases h

theorem target_mem_of_selectAt? (condition : String) :
    ∀ {bs : List (String × Node)} {s : Selection}, selectAt? active condition bs = some s →
      s.target ∈ targetsOf bs
  | [], _, h => by cases h
  | (_, _) :: _, _, h => by
    rw [selectAt?] at h
    rw [targetsOf, List.mem_append]
    split at h
    · exact Or.inl (target_mem_of_select? h)
    · exact Or.inr (target_mem_of_selectAt? condition h)

end

theorem foldl_better_mem : cs.foldl Candidate.better c ∈ c :: cs := by
  induction cs generalizing c with
  | nil => exact List.mem_singleton_self _
  | cons d r ih =>
    rcases List.mem_cons.1 (ih (c := c.better d)) with h | h
    · rw [List.foldl_cons, h, Candidate.better]
      split <;> simp
    · exact List.mem_cons_of_mem _ (List.mem_cons_of_mem _ h)

theorem mem_of_best? (h : best? cs = some c) : c ∈ cs := by
  cases cs with
  | nil => cases h
  | cons d r =>
    cases h
    exact foldl_better_mem

theorem mem_of_candidate? {entry : String × Node} (h : candidate? wanted entry = some c) :
    entry = (c.key, c.node) := by
  simp only [candidate?, Option.bind_eq_bind, Option.bind_eq_some_iff] at h
  obtain ⟨_, -, _, -, he⟩ := h
  cases he
  rfl

theorem patternChoice?_mem {s : Selection} (h : m.patternChoice? wanted active = some (c, s)) :
    s.target ∈ m.targets := by
  simp only [patternChoice?, Option.bind_eq_bind, Option.bind_eq_some_iff] at h
  obtain ⟨c', hc, s', hs, he⟩ := h
  cases he
  obtain ⟨entry, he, hcand⟩ := List.mem_filterMap.1 (mem_of_best? hc)
  exact mem_targetsOf (mem_of_candidate? hcand ▸ he) (target_mem_of_select? hs)

/-- A hit starts with what all targets of the map start with, as long as that has no star. -/
theorem find?_lead (hl : stars lead = 0) (hm : ∀ t ∈ m.targets, ∃ rest, t = lead ++ rest)
    (h : m.find? subpath active = some hit) : ∃ rest, hit.target = lead ++ rest := by
  rw [find?] at h
  split at h
  · next node hn =>
    obtain ⟨s, hs, rfl⟩ := Option.map_eq_some_iff.1 h
    exact hm _ (mem_targetsOf (Keyed.mem_of_get? hn) (target_mem_of_select? hs))
  · rw [findPattern?_eq_bind] at h
    obtain ⟨⟨c, s⟩, hc, h⟩ := Option.bind_eq_some_iff.1 h
    obtain ⟨rest, hrest⟩ := hm _ (patternChoice?_mem hc)
    dsimp only at h
    rw [hrest, Pattern.ofText?_append hl] at h
    obtain ⟨p, hp, rfl⟩ := Option.map_eq_some_iff.1 h
    obtain ⟨p', -, rfl⟩ := Option.map_eq_some_iff.1 hp
    exact ⟨_, Pattern.fill_behindLead _⟩

/-- All targets of a copy are below its root. -/
theorem targets_relocate (hr : Text.dropTrailing '/' root.toList = root.toList)
    (h : m.relocate root = .ok m') (ht : t ∈ m'.targets) : ∃ rest, t = root ++ "/" ++ rest := by
  obtain ⟨_, hmapped⟩ := exists_of_mapped h ht
  obtain ⟨rest, -, -, he⟩ := relocateTarget_eq_ok hr hmapped
  exact ⟨rest, he⟩

end Vendoring.ExportMap
