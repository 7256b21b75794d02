import Vendoring.Proofs.ExportMap.Targets
import Vendoring.Proofs.Text.Bytes

/-! The pattern that decides: of all keys that fit, the one that goes before the others. The order
in which the keys are declared does not count. -/
namespace Vendoring.ExportMap

variable {wanted key other star template target : String} {m : ExportMap} {c d : Candidate}
  {cs : List Candidate} {entry : String × Node}

/-- What the `*` of a key stands for in `wanted`. -/
def Fits (key wanted star : String) : Prop :=
  stars key = 1 ∧ star ≠ "" ∧ Text.climbs star = false ∧
    ∃ before behind, key = before ++ "*" ++ behind ∧ wanted = before ++ star ++ behind

/-- What a template with one `*` becomes with `star` in its place. -/
def Fills (template star target : String) : Prop :=
  stars template = 1 ∧
    ∃ before behind, template = before ++ "*" ++ behind ∧ target = before ++ star ++ behind

/-- A key with more bytes goes before one with fewer; of two with as many, the one with the smaller
bytes goes first. -/
def Outranks (a b : String) : Prop :=
  (Text.bytes b).length < (Text.bytes a).length ∨
    (Text.bytes a).length = (Text.bytes b).length ∧ Text.bytes a < Text.bytes b

/-- `key` fits and goes before all others that do. -/
structure Best (m : ExportMap) (wanted key star : String) : Prop where
  declared : key ∈ m.entries.keys
  fits : Fits key wanted star
  first : ∀ other star', other ∈ m.entries.keys → Fits other wanted star' → other ≠ key →
    Outranks key other

theorem Outranks.irrefl (key : String) : ¬ Outranks key key := by
  rintro (h | ⟨-, h⟩)
  · exact Nat.lt_irrefl _ h
  · exact List.lt_irrefl _ h

theorem Outranks.trans {a b c : String} (h : Outranks a b) (h' : Outranks b c) : Outranks a c := by
  rcases h with h | ⟨hl, h⟩ <;> rcases h' with h' | ⟨hl', h'⟩
  · exact .inl (by omega)
  · exact .inl (by omega)
  · exact .inl (by omega)
  · exact .inr ⟨by omega, List.lt_trans h h'⟩

theorem Outranks.total {a b : String} (h : a ≠ b) : Outranks a b ∨ Outranks b a := by
  simp only [Outranks, Text.bytes_lt_iff]
  have hlt := lt_or_gt_of_ne h
  rcases Nat.lt_trichotomy (Text.bytes a).length (Text.bytes b).length with hl | hl | hl
  · exact .inr (.inl hl)
  · exact hlt.imp (fun h => .inr ⟨hl, h⟩) fun h => .inr ⟨hl.symm, h⟩
  · exact .inl (.inl hl)

/-- What does not go before a key does not go before what that key goes behind. -/
theorem Outranks.trans_not {a b c : String} (h : Outranks a b) (h' : ¬ Outranks c b) :
    Outranks a c := by
  by_cases hc : b = c
  · exact hc ▸ h
  · exact h.trans ((Outranks.total hc).resolve_right h')

theorem precedes_iff : c.precedes d = true ↔ Outranks c.key d.key := by
  simp [Candidate.precedes, Outranks, Text.bytes_lt_iff]

theorem fits_iff : Fits key wanted star ↔
    ∃ p, Pattern.ofText? key = some p ∧ p.star? wanted = some star := by
  constructor
  · rintro ⟨hone, hne, hclimbs, before, behind, rfl, rfl⟩
    refine ⟨⟨before.toList, behind.toList⟩, Pattern.ofText?_eq_some_iff.2 ⟨by simp, hone⟩, ?_⟩
    exact Pattern.star?_eq_some_iff.2 ⟨hne, hclimbs, by simp⟩
  · rintro ⟨p, hp, hs⟩
    obtain ⟨hkey, hone⟩ := Pattern.ofText?_eq_some_iff.1 hp
    obtain ⟨hne, hclimbs, hwanted⟩ := Pattern.star?_eq_some_iff.1 hs
    refine ⟨hone, hne, hclimbs, String.ofList p.before, String.ofList p.behind, ?_, ?_⟩
    · apply String.toList_injective
      simp [hkey]
    · apply String.toList_injective
      simp [hwanted]

theorem fills_iff : Fills template star target ↔
    ∃ p, Pattern.ofText? template = some p ∧ p.fill star = target := by
  constructor
  · rintro ⟨hone, before, behind, rfl, rfl⟩
    refine ⟨⟨before.toList, behind.toList⟩, Pattern.ofText?_eq_some_iff.2 ⟨by simp, hone⟩, ?_⟩
    apply String.toList_injective
    simp [Pattern.fill]
  · rintro ⟨p, hp, rfl⟩
    obtain ⟨htemplate, hone⟩ := Pattern.ofText?_eq_some_iff.1 hp
    refine ⟨hone, String.ofList p.before, String.ofList p.behind, ?_, ?_⟩
    · apply String.toList_injective
      simp [htemplate]
    · apply String.toList_injective
      simp [Pattern.fill]

theorem candidate?_eq_some_iff : candidate? wanted entry = some c ↔
    entry = (c.key, c.node) ∧ Fits c.key wanted c.star := by
  rw [fits_iff]
  simp only [candidate?, Option.bind_eq_bind, Option.bind_eq_some_iff]
  constructor
  · rintro ⟨p, hp, star, hs, hc⟩
    cases hc
    exact ⟨rfl, p, hp, hs⟩
  · rintro ⟨rfl, p, hp, hs⟩
    exact ⟨p, hp, c.star, hs, rfl⟩

theorem best?_concat (cs : List Candidate) (d : Candidate) :
    best? (cs ++ [d]) = some ((best? cs).elim d (·.better d)) := by
  cases cs with
  | nil => rfl
  | cons c r => simp [best?, List.foldl_append]

theorem best?_eq_none_iff : best? cs = none ↔ cs = [] := by
  cases cs <;> simp [best?]

/-- The best candidate goes before all that are declared before it, and none behind it goes before
it. -/
theorem best?_split (h : best? cs = some c) : ∃ before behind, cs = before ++ c :: behind ∧
    (∀ d ∈ before, Outranks c.key d.key) ∧ ∀ d ∈ behind, ¬ Outranks d.key c.key := by
  induction cs using List.reverseRecOn generalizing c with
  | nil => cases h
  | append_singleton front d ih =>
    rw [best?_concat] at h
    cases hf : best? front with
    | none =>
      rw [hf] at h
      cases h
      obtain rfl := best?_eq_none_iff.1 hf
      exact ⟨[], [], rfl, by simp, by simp⟩
    | some b =>
      obtain ⟨before, behind, hsplit, hbefore, hbehind⟩ := ih hf
      rw [hf] at h
      cases h
      simp only [Option.elim_some, Candidate.better]
      split
      · next hd =>
        have hdb := precedes_iff.1 hd
        refine ⟨front, [], rfl, ?_, by simp⟩
        intro e he
        rw [hsplit] at he
        rcases List.mem_append.1 he with he | he
        · exact hdb.trans (hbefore e he)
        · rcases List.mem_cons.1 he with rfl | he
          · exact hdb
          · exact hdb.trans_not (hbehind e he)
      · next hd =>
        refine ⟨before, behind ++ [d], by simp [hsplit], hbefore, ?_⟩
        intro e he
        rcases List.mem_append.1 he with he | he
        · exact hbehind e he
        · rw [List.mem_singleton.1 he, ← precedes_iff]
          exact hd

theorem mem_candidates (hm : entry ∈ m.entries) (hf : Fits entry.1 wanted star) :
    (⟨entry.1, entry.2, star⟩ : Candidate) ∈ m.entries.filterMap (candidate? wanted) :=
  List.mem_filterMap.2 ⟨entry, hm, candidate?_eq_some_iff.2 ⟨rfl, hf⟩⟩

/-- The first entry with a key is the one that is looked up. -/
theorem get?_of_best? (h : best? (m.entries.filterMap (candidate? wanted)) = some c) :
    m.get? c.key = some c.node := by
  obtain ⟨before, behind, hsplit, hbefore, -⟩ := best?_split h
  obtain ⟨l, r, hentries, hl, hr⟩ := List.filterMap_eq_append_iff.1 hsplit
  obtain ⟨l', e, r', rfl, hl', he, -⟩ := List.filterMap_eq_cons_iff.1 hr
  obtain ⟨rfl, hfits⟩ := candidate?_eq_some_iff.1 he
  have hcand (n : Node) : candidate? wanted (c.key, n) = some ⟨c.key, n, c.star⟩ :=
    candidate?_eq_some_iff.2 ⟨rfl, hfits⟩
  -- An entry with this key before this one would be a candidate that the best goes before.
  have hnew : c.key ∉ Keyed.keys (l ++ l') := by
    intro hm
    obtain ⟨⟨key, n⟩, hm, rfl⟩ := List.mem_map.1 hm
    rcases List.mem_append.1 hm with hm | hm
    · have hc : (⟨c.key, n, c.star⟩ : Candidate) ∈ before :=
        hl ▸ List.mem_filterMap.2 ⟨_, hm, hcand n⟩
      have hself : Outranks c.key c.key := hbefore ⟨c.key, n, c.star⟩ hc
      exact Outranks.irrefl _ hself
    · have hnone := hl' _ hm
      rw [hcand n] at hnone
      cases hnone
  rw [get?, hentries, ← List.append_assoc, Keyed.get?_append, Keyed.get?_eq_none_iff.2 hnew,
    Option.none_or, Keyed.get?, if_pos rfl]

theorem best_of_best? (h : best? (m.entries.filterMap (candidate? wanted)) = some c) :
    m.Best wanted c.key c.star := by
  obtain ⟨before, behind, hsplit, hbefore, hbehind⟩ := best?_split h
  obtain ⟨entry, hm, hc⟩ := List.mem_filterMap.1 (mem_of_best? h)
  obtain ⟨rfl, hfits⟩ := candidate?_eq_some_iff.1 hc
  refine ⟨List.mem_map_of_mem hm, hfits, ?_⟩
  intro other star' ho hf hne
  obtain ⟨e, he, rfl⟩ := List.mem_map.1 ho
  have hmem := mem_candidates he hf
  rw [hsplit, List.mem_append, List.mem_cons] at hmem
  rcases hmem with hmem | heq | hmem
  · exact hbefore _ hmem
  · exact absurd (congrArg Candidate.key heq) hne
  · exact (Outranks.total hne.symm).resolve_right (hbehind _ hmem)

theorem Best.unique {star' : String} (h : m.Best wanted key star) (h' : m.Best wanted other star') :
    key = other ∧ star = star' := by
  have hkey : key = other := by
    by_contra hne
    have hko := h.first other star' h'.declared h'.fits (Ne.symm hne)
    have hok := h'.first key star h.declared h.fits hne
    exact Outranks.irrefl _ (hko.trans hok)
  subst hkey
  obtain ⟨p, hp, hs⟩ := fits_iff.1 h.fits
  obtain ⟨p', hp', hs'⟩ := fits_iff.1 h'.fits
  rw [hp] at hp'
  cases hp'
  rw [hs] at hs'
  cases hs'
  exact ⟨rfl, rfl⟩

theorem best?_eq_some_iff : best? (m.entries.filterMap (candidate? wanted)) = some c ↔
    m.Best wanted c.key c.star ∧ m.get? c.key = some c.node := by
  refine ⟨fun h => ⟨best_of_best? h, get?_of_best? h⟩, ?_⟩
  rintro ⟨hbest, hget⟩
  have hmem := mem_candidates (Keyed.mem_of_get? hget) hbest.fits
  cases h : best? (m.entries.filterMap (candidate? wanted)) with
  | none =>
    rw [best?_eq_none_iff.1 h] at hmem
    cases hmem
  | some d =>
    obtain ⟨hkey, hstar⟩ := (best_of_best? h).unique hbest
    have hnode := get?_of_best? h
    rw [hkey, hget] at hnode
    cases c
    cases d
    cases hnode
    cases hkey
    cases hstar
    rfl

end Vendoring.ExportMap
