import Vendoring.ExportMap.Lookup
import Vendoring.Proofs.Keyed

/-! The way that the active conditions lead through the choices of a node. -/
namespace Vendoring.ExportMap

variable {active conditions : List String} {condition target : String} {n : Node}
  {bs : List (String × Node)}

/-- The condition that is taken among branches: the first active one that has a branch, or the
default if none has. -/
inductive Taken (active : List String) (branches : List (String × Node)) : String → Prop
  | first {before behind : List String} {condition : String}
      (split : active = before ++ condition :: behind)
      (present : condition ∈ Keyed.keys branches)
      (absent : ∀ c ∈ before, c ∉ Keyed.keys branches) : Taken active branches condition
  | last (present : defaultCondition ∈ Keyed.keys branches)
      (absent : ∀ c ∈ active, c ∉ Keyed.keys branches) : Taken active branches defaultCondition

/-- The way that the conditions lead through a node, and the target at its end. -/
inductive Node.Yields (active : List String) : Node → List String → String → Prop
  | target (t : String) : Node.Yields active (.target t) [] t
  | choice {branches : List (String × Node)} {condition : String} {n : Node}
      {conditions : List String} {t : String} (taken : Taken active branches condition)
      (branch : Keyed.get? branches condition = some n)
      (way : Node.Yields active n conditions t) :
      Node.Yields active (.choice branches) (condition :: conditions) t

theorem contains_iff : Keyed.contains bs condition = true ↔ condition ∈ Keyed.keys bs :=
  Keyed.mem_keys_iff.symm

theorem chosen?_eq_some_iff : chosen? active bs = some condition ↔ Taken active bs condition := by
  rw [chosen?, List.find?_append, Option.or_eq_some_iff]
  constructor
  · rintro (h | ⟨hnone, h⟩)
    · obtain ⟨hc, before, behind, hsplit, habsent⟩ := List.find?_eq_some_iff_append.1 h
      refine .first hsplit (contains_iff.1 hc) ?_
      intro c hm hk
      simpa [contains_iff.2 hk] using habsent c hm
    · obtain rfl := List.mem_singleton.1 (List.mem_of_find?_eq_some h)
      refine .last (contains_iff.1 (List.find?_some h)) ?_
      intro c hm hk
      exact List.find?_eq_none.1 hnone c hm (contains_iff.2 hk)
  · rintro (⟨hsplit, hpresent, habsent⟩ | ⟨hpresent, habsent⟩)
    · left
      refine List.find?_eq_some_iff_append.2 ⟨contains_iff.2 hpresent, _, _, hsplit, ?_⟩
      intro c hm
      simpa [← Bool.not_eq_true, contains_iff] using habsent c hm
    · right
      constructor
      · refine List.find?_eq_none.2 ?_
        intro c hm hk
        exact habsent c hm (contains_iff.1 hk)
      · rw [List.find?_cons_of_pos (contains_iff.2 hpresent)]

theorem selectAt?_eq_bind :
    selectAt? active condition bs = (Keyed.get? bs condition).bind (Node.select? active) := by
  induction bs with
  | nil => rfl
  | cons b r ih =>
    obtain ⟨key, n⟩ := b
    rw [selectAt?, Keyed.get?]
    split
    · rfl
    · exact ih

theorem select?_choice : (Node.choice bs).select? active = (chosen? active bs).bind fun condition =>
    ((Keyed.get? bs condition).bind (Node.select? active)).map (Selection.behind condition) := by
  rw [Node.select?]
  cases chosen? active bs with
  | none => rfl
  | some condition => simp only [Option.bind_some, selectAt?_eq_bind]

mutual

theorem yields_of_select? :
    ∀ {n : Node} {s : Selection}, n.select? active = some s →
      n.Yields active s.conditions s.target
  | .target t, _, h => by
    cases h
    exact .target t
  | .choice bs, s, h => by
    rw [Node.select?] at h
    split at h
    · next condition hc =>
      obtain ⟨s', hs, rfl⟩ := Option.map_eq_some_iff.1 h
      obtain ⟨n, branch, way⟩ := yields_of_selectAt? condition hs
      exact .choice (chosen?_eq_some_iff.1 hc) branch way
    · cases h

theorem yields_of_selectAt? (condition : String) :
    ∀ {bs : List (String × Node)} {s : Selection}, selectAt? active condition bs = some s →
      ∃ n, Keyed.get? bs condition = some n ∧ n.Yields active s.conditions s.target
  | [], _, h => by cases h
  | (key, n) :: _, _, h => by
    rw [selectAt?] at h
    rw [Keyed.get?]
    split at h
    · next hk =>
      rw [if_pos hk]
      exact ⟨n, rfl, yields_of_select? h⟩
    · next hk =>
      rw [if_neg hk]
      exact yields_of_selectAt? condition h

end

theorem select?_of_yields (h : n.Yields active conditions target) :
    n.select? active = some ⟨conditions, target⟩ := by
  induction h with
  | target t => rfl
  | choice taken branch _ ih =>
    rw [select?_choice, chosen?_eq_some_iff.2 taken, Option.bind_some, branch, Option.bind_some, ih]
    rfl

end Vendoring.ExportMap
