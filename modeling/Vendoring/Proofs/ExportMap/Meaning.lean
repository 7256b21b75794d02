import Vendoring.Proofs.ExportMap.Best
import Vendoring.Proofs.ExportMap.Choice

/-! What a map answers for a subpath, said without the steps of a lookup. -/
namespace Vendoring.ExportMap

variable {active active' : List String} {subpath wanted key star : String} {m m' : ExportMap}
  {hit : Hit}

/-- What a map answers for a subpath. -/
inductive Answers (m : ExportMap) (subpath : String) (active : List String) : Hit → Prop
  | exact {node : Node} {conditions : List String} {target : String}
      (declared : m.get? ("." ++ subpath) = some node)
      (way : node.Yields active conditions target) :
      Answers m subpath active ⟨"." ++ subpath, conditions, target⟩
  | pattern {key star template target : String} {node : Node} {conditions : List String}
      (undeclared : m.get? ("." ++ subpath) = none)
      (best : m.Best ("." ++ subpath) key star)
      (declared : m.get? key = some node)
      (way : node.Yields active conditions template)
      (filled : Fills template star target) :
      Answers m subpath active ⟨key, conditions, target⟩

theorem selectAt?_eq_some_iff {key : String} {s : Selection} :
    selectAt? active key m.entries = some s ↔
      ∃ n, m.get? key = some n ∧ n.select? active = some s := by
  rw [selectAt?_eq_bind, Option.bind_eq_some_iff]
  rfl

/-- The best pattern decides alone: if its node leads to no template, nothing is found. -/
theorem findPattern?_eq_some_iff : m.findPattern? wanted active = some hit ↔
    ∃ star template, m.Best wanted hit.key star ∧
      selectAt? active hit.key m.entries = some ⟨hit.conditions, template⟩ ∧
      Fills template star hit.target := by
  simp only [findPattern?, Option.bind_eq_bind, Option.bind_eq_some_iff]
  constructor
  · rintro ⟨c, hc, s, hs, p, hp, hhit⟩
    obtain ⟨hbest, hget⟩ := best?_eq_some_iff.1 hc
    cases hhit
    exact ⟨c.star, s.target, hbest, selectAt?_eq_some_iff.2 ⟨_, hget, hs⟩, fills_iff.2 ⟨p, hp, rfl⟩⟩
  · rintro ⟨star, template, hbest, hs, hfills⟩
    obtain ⟨node, hget, hs⟩ := selectAt?_eq_some_iff.1 hs
    obtain ⟨p, hp, htarget⟩ := fills_iff.1 hfills
    refine ⟨⟨hit.key, node, star⟩, best?_eq_some_iff.2 ⟨hbest, hget⟩, _, hs, p, hp, ?_⟩
    rw [htarget]
    rfl

theorem Best.congr (hk : ∀ key, key ∈ m.entries.keys ↔ key ∈ m'.entries.keys)
    (h : m.Best wanted key star) : m'.Best wanted key star := by
  refine ⟨(hk key).1 h.declared, h.fits, ?_⟩
  intro other star' ho
  exact h.first other star' ((hk other).2 ho)

/-- What is found depends on which keys a map has and on where their nodes lead, and on nothing
else. -/
theorem find?_congr (hk : ∀ key, key ∈ m.entries.keys ↔ key ∈ m'.entries.keys)
    (hs : ∀ key, selectAt? active key m.entries = selectAt? active' key m'.entries) :
    m.find? subpath active = m'.find? subpath active' := by
  have hpattern : m.findPattern? (Specifier.exportKeyOf subpath) active =
      m'.findPattern? (Specifier.exportKeyOf subpath) active' := by
    apply Option.ext
    intro hit
    rw [findPattern?_eq_some_iff, findPattern?_eq_some_iff, hs]
    constructor
    · rintro ⟨star, template, best, rest⟩
      exact ⟨star, template, best.congr hk, rest⟩
    · rintro ⟨star, template, best, rest⟩
      exact ⟨star, template, best.congr fun key => (hk key).symm, rest⟩
  have hkey := hk (Specifier.exportKeyOf subpath)
  have hnode := hs (Specifier.exportKeyOf subpath)
  rw [Keyed.mem_keys_iff, Keyed.mem_keys_iff] at hkey
  rw [selectAt?_eq_bind, selectAt?_eq_bind] at hnode
  simp only [find?, get?]
  cases hg : m.entries.get? (Specifier.exportKeyOf subpath) <;>
    cases hg' : m'.entries.get? (Specifier.exportKeyOf subpath) <;>
    simp only [hg, hg', Option.isSome_some, Option.isSome_none, Option.bind_some] at hkey hnode ⊢
  · exact hpattern
  · simp at hkey
  · simp at hkey
  · rw [hnode]

/-- The key itself decides alone if it is declared, and no pattern is looked at; otherwise the best
pattern does. -/
theorem find?_eq_some_iff_answers : m.find? subpath active = some hit ↔
    m.Answers subpath active hit := by
  unfold find? Specifier.exportKeyOf
  dsimp only
  cases hget : m.get? ("." ++ subpath) with
  | some node =>
    constructor
    · intro h
      obtain ⟨s, hs, rfl⟩ := Option.map_eq_some_iff.1 h
      exact .exact hget (yields_of_select? hs)
    · intro h
      cases h with
      | exact declared way =>
        cases hget.symm.trans declared
        exact Option.map_eq_some_iff.2 ⟨_, select?_of_yields way, rfl⟩
      | pattern undeclared => cases hget.symm.trans undeclared
  | none =>
    constructor
    · intro h
      obtain ⟨star, template, best, hs, filled⟩ := findPattern?_eq_some_iff.1 h
      obtain ⟨node, declared, hs⟩ := selectAt?_eq_some_iff.1 hs
      exact .pattern hget best declared (yields_of_select? hs) filled
    · intro h
      cases h with
      | exact declared => cases hget.symm.trans declared
      | pattern _ best declared way filled =>
        refine findPattern?_eq_some_iff.2 ⟨_, _, best, ?_, filled⟩
        exact selectAt?_eq_some_iff.2 ⟨_, declared, select?_of_yields way⟩

end Vendoring.ExportMap
