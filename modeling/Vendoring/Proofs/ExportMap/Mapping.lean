import Vendoring.ExportMap.Lookup
import Vendoring.Proofs.Outcome

/-! A map with other targets is looked up in the same way: the same key decides, and the same
conditions are taken. -/
namespace Vendoring.ExportMap
open Outcome

variable {ε : Type} {f : String → Except ε String} {active : List String}
  {n n' : Node} {bs bs' : List (String × Node)} {m m' : ExportMap}

/-- An entry whose node is mapped, and what becomes of it. -/
def EntryMapped (f : String → Except ε String) (e e' : String × Node) : Prop :=
  e'.1 = e.1 ∧ e.2.mapTargets f = .ok e'.2

/-- Two selections on the same way, the second with the target that `f` makes of the first. -/
def SelectionMapped (f : String → Except ε String) (s s' : Selection) : Prop :=
  s'.conditions = s.conditions ∧ f s.target = .ok s'.target

/-- Two candidates with the same key, the node of the second mapped. -/
def CandidateMapped (f : String → Except ε String) (c c' : Candidate) : Prop :=
  c'.key = c.key ∧ c'.star = c.star ∧ c.node.mapTargets f = .ok c'.node

theorem mapTargets_target_eq_ok {t : String} (h : (Node.target t).mapTargets f = .ok n') :
    ∃ t', f t = .ok t' ∧ n' = .target t' := by
  simp only [Node.mapTargets, bind_eq_ok, pure_eq_ok] at h
  obtain ⟨t', ht, rfl⟩ := h
  exact ⟨t', ht, rfl⟩

theorem mapTargets_choice_eq_ok (h : (Node.choice bs).mapTargets f = .ok n') :
    ∃ bs', mapTargetsOf f bs = .ok bs' ∧ n' = .choice bs' := by
  simp only [Node.mapTargets, bind_eq_ok, pure_eq_ok] at h
  obtain ⟨bs', hb, rfl⟩ := h
  exact ⟨bs', hb, rfl⟩

theorem mapTargetsOf_eq_ok (h : mapTargetsOf f bs = .ok bs') :
    List.Forall₂ (EntryMapped f) bs bs' := by
  induction bs generalizing bs' with
  | nil =>
    simp only [mapTargetsOf, pure_eq_ok] at h
    subst h
    exact .nil
  | cons e r ih =>
    simp only [mapTargetsOf, bind_eq_ok, pure_eq_ok] at h
    obtain ⟨n', hn, r', hr, rfl⟩ := h
    exact .cons ⟨rfl, hn⟩ (ih hr)

theorem mapTargets_eq_ok (h : m.mapTargets f = .ok m') :
    List.Forall₂ (EntryMapped f) m.entries m'.entries := by
  simp only [mapTargets, bind_eq_ok, pure_eq_ok] at h
  obtain ⟨es, he, rfl⟩ := h
  exact mapTargetsOf_eq_ok he

mutual

/-- A run over a node is a run over its targets. -/
theorem targets_mapNode :
    ∀ n : Node, Node.targets <$> n.mapTargets f = n.targets.mapM f
  | .target t => by simp [Node.mapTargets, Node.targets]
  | .choice bs => by
    rw [Node.targets, ← targetsOf_map bs]
    simp [Node.mapTargets, Node.targets]

theorem targetsOf_map :
    ∀ bs : List (String × Node), targetsOf <$> mapTargetsOf f bs = (targetsOf bs).mapM f
  | [] => rfl
  | (key, n) :: r => by
    rw [targetsOf, List.mapM_append, ← targets_mapNode n, ← targetsOf_map r, mapTargetsOf]
    cases n.mapTargets f <;> cases mapTargetsOf f r <;> rfl

end

/-- The targets are mapped in the order in which they are listed, each on its own. -/
theorem targets_mapTargets : targets <$> m.mapTargets f = m.targets.mapM f := by
  rw [targets, ← targetsOf_map m.entries, mapTargets]
  cases mapTargetsOf f m.entries <;> rfl

/-- Each target stands where the target stood that it was made of. -/
theorem targets_mapped (h : m.mapTargets f = .ok m') :
    List.Forall₂ (fun t t' => f t = .ok t') m.targets m'.targets := by
  apply mapM_eq_ok
  rw [← targets_mapTargets, h]
  rfl

theorem exists_mapped {t : String} (h : m.mapTargets f = .ok m') (ht : t ∈ m.targets) :
    ∃ t', f t = .ok t' := by
  obtain ⟨i, hi, rfl⟩ := List.getElem_of_mem ht
  have htargets := targets_mapped h
  exact ⟨_, htargets.get hi (htargets.length_eq ▸ hi)⟩

theorem exists_of_mapped {t' : String} (h : m.mapTargets f = .ok m') (ht : t' ∈ m'.targets) :
    ∃ t, f t = .ok t' := by
  obtain ⟨i, hi, rfl⟩ := List.getElem_of_mem ht
  have htargets := targets_mapped h
  exact ⟨_, htargets.get (htargets.length_eq ▸ hi) hi⟩

theorem keys_mapped (h : List.Forall₂ (EntryMapped f) bs bs') : Keyed.keys bs' = Keyed.keys bs := by
  induction h with
  | nil => rfl
  | cons he _ ih =>
    simp only [Keyed.keys, List.map_cons] at ih ⊢
    rw [he.1, ih]

mutual

theorem distinct_mapped :
    ∀ {n n' : Node}, n.mapTargets f = .ok n' → n.Distinct → n'.Distinct
  | .target _, _, h, _ => by
    obtain ⟨t', -, rfl⟩ := mapTargets_target_eq_ok h
    trivial
  | .choice bs, _, h, hd => by
    obtain ⟨bs', hb, rfl⟩ := mapTargets_choice_eq_ok h
    have hk : bs'.map (·.1) = bs.map (·.1) := keys_mapped (mapTargetsOf_eq_ok hb)
    rw [Node.Distinct] at hd ⊢
    exact ⟨hk ▸ hd.1, distinctIn_mapped hb hd.2⟩

theorem distinctIn_mapped :
    ∀ {bs bs' : List (String × Node)}, mapTargetsOf f bs = .ok bs' → DistinctIn bs → DistinctIn bs'
  | [], _, h, _ => by
    cases mapTargetsOf_eq_ok h
    trivial
  | (k, n) :: r, _, h, hd => by
    simp only [mapTargetsOf, bind_eq_ok, pure_eq_ok] at h
    obtain ⟨n', hn, r', hr, rfl⟩ := h
    exact ⟨distinct_mapped hn hd.1, distinctIn_mapped hr hd.2⟩

end

theorem map_distinct_mapped (h : m.mapTargets f = .ok m') (hd : m.Distinct) : m'.Distinct := by
  simp only [mapTargets, bind_eq_ok, pure_eq_ok] at h
  obtain ⟨es, he, rfl⟩ := h
  exact ⟨(keys_mapped (mapTargetsOf_eq_ok he)).symm ▸ hd.1, distinctIn_mapped he hd.2⟩

theorem get?_mapped (h : List.Forall₂ (EntryMapped f) bs bs') (key : String) :
    Option.Rel (fun n n' => n.mapTargets f = .ok n') (Keyed.get? bs key) (Keyed.get? bs' key) := by
  induction h with
  | nil => exact .none
  | @cons e e' _ _ he _ ih =>
    obtain ⟨hk, hn⟩ := he
    simp only [Keyed.get?, hk]
    split
    · exact .some hn
    · exact ih

theorem contains_mapped (h : List.Forall₂ (EntryMapped f) bs bs') (key : String) :
    Keyed.contains bs' key = Keyed.contains bs key := by
  have hg := get?_mapped h key
  unfold Keyed.contains
  cases hx : Keyed.get? bs key <;> cases hy : Keyed.get? bs' key <;> simp_all

theorem chosen?_mapped (h : List.Forall₂ (EntryMapped f) bs bs') :
    chosen? active bs' = chosen? active bs := by
  rw [chosen?, funext (contains_mapped h), chosen?]

mutual

theorem select?_mapped :
    ∀ {n n' : Node}, n.mapTargets f = .ok n' →
      Option.Rel (SelectionMapped f) (n.select? active) (n'.select? active)
  | .target _, _, h => by
    obtain ⟨t', ht, rfl⟩ := mapTargets_target_eq_ok h
    exact .some ⟨rfl, ht⟩
  | .choice bs, _, h => by
    obtain ⟨bs', hb, rfl⟩ := mapTargets_choice_eq_ok h
    simp only [Node.select?, chosen?_mapped (mapTargetsOf_eq_ok hb)]
    cases chosen? active bs with
    | none => exact .none
    | some c =>
      refine rel_map (selectAt?_mapped c hb) fun _ _ hs => ?_
      exact ⟨congrArg (c :: ·) hs.1, hs.2⟩

theorem selectAt?_mapped (c : String) :
    ∀ {bs bs' : List (String × Node)}, mapTargetsOf f bs = .ok bs' →
      Option.Rel (SelectionMapped f) (selectAt? active c bs) (selectAt? active c bs')
  | [], _, h => by
    cases mapTargetsOf_eq_ok h
    exact .none
  | (k, n) :: r, _, h => by
    simp only [mapTargetsOf, bind_eq_ok, pure_eq_ok] at h
    obtain ⟨n', hn, r', hr, rfl⟩ := h
    simp only [selectAt?]
    split
    · exact select?_mapped hn
    · exact selectAt?_mapped c hr

end

theorem candidate?_mapped (wanted : String) {e e' : String × Node} (h : EntryMapped f e e') :
    Option.Rel (CandidateMapped f) (candidate? wanted e) (candidate? wanted e') := by
  obtain ⟨hk, hn⟩ := h
  simp only [candidate?, hk]
  refine rel_bind (rel_eq_refl _) fun p _ hp => ?_
  subst hp
  refine rel_bind (rel_eq_refl _) fun star _ hs => ?_
  subst hs
  exact .some ⟨rfl, rfl, hn⟩

theorem candidates_mapped (wanted : String) (h : List.Forall₂ (EntryMapped f) bs bs') :
    List.Forall₂ (CandidateMapped f) (bs.filterMap (candidate? wanted))
      (bs'.filterMap (candidate? wanted)) := by
  induction h with
  | nil => exact .nil
  | @cons e e' _ _ he _ ih =>
    have hc := candidate?_mapped wanted he
    simp only [List.filterMap_cons]
    cases hx : candidate? wanted e <;> cases hy : candidate? wanted e' <;> simp only [hx, hy] at hc ⊢
    · exact ih
    · cases hc
    · cases hc
    · cases hc with
      | some hc => exact .cons hc ih

theorem better_mapped {a a' b b' : Candidate} (ha : CandidateMapped f a a')
    (hb : CandidateMapped f b b') : CandidateMapped f (a.better b) (a'.better b') := by
  have hp : b'.precedes a' = b.precedes a := by simp only [Candidate.precedes, ha.1, hb.1]
  simp only [Candidate.better, hp]
  split
  · exact hb
  · exact ha

theorem foldl_better_mapped {c c' : Candidate} {cs cs' : List Candidate}
    (hc : CandidateMapped f c c') (h : List.Forall₂ (CandidateMapped f) cs cs') :
    CandidateMapped f (cs.foldl Candidate.better c) (cs'.foldl Candidate.better c') := by
  induction h generalizing c c' with
  | nil => exact hc
  | cons hd _ ih => exact ih (better_mapped hc hd)

/-- The choice of a candidate looks at its key alone. -/
theorem best?_mapped {cs cs' : List Candidate} (h : List.Forall₂ (CandidateMapped f) cs cs') :
    Option.Rel (CandidateMapped f) (best? cs) (best? cs') := by
  cases h with
  | nil => exact .none
  | cons hc hr => exact .some (foldl_better_mapped hc hr)

end Vendoring.ExportMap
