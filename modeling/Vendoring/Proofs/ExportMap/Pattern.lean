import Vendoring.ExportMap.Pattern
import Vendoring.Proofs.Text

/-! Texts with one star: where the star stands, and what a lead without stars changes. -/
namespace Vendoring.ExportMap

/-- The number of stars in a text. -/
def stars (text : String) : Nat := text.toList.count '*'

@[simp] theorem stars_append (a b : String) : stars (a ++ b) = stars a + stars b := by
  simp [stars]

namespace Pattern
variable {text lead : String} {p : Pattern}

/-- The pattern of a text that has `lead` in front. -/
def behindLead (lead : String) (p : Pattern) : Pattern := ⟨lead.toList ++ p.before, p.behind⟩

@[simp] theorem fill_behindLead (star : String) :
    (p.behindLead lead).fill star = lead ++ p.fill star := by
  apply String.toList_injective
  simp [fill, behindLead]

theorem ofText?_eq_some_iff :
    ofText? text = some p ↔ text.toList = p.before ++ '*' :: p.behind ∧ stars text = 1 := by
  rw [stars, ← Text.splitOn_eq_pair_iff, ofText?]
  split
  · next a b h =>
    rw [h]
    cases p
    simp
  · next h =>
    simp only [reduceCtorEq, false_iff]
    exact h _ _

theorem ofText?_isSome_iff : (ofText? text).isSome ↔ stars text = 1 := by
  constructor
  · intro h
    obtain ⟨p, hp⟩ := Option.isSome_iff_exists.1 h
    exact (ofText?_eq_some_iff.1 hp).2
  · intro h
    have hm : '*' ∈ text.toList := List.count_pos_iff.1 (by rw [← stars, h]; omega)
    obtain ⟨a, b, hab⟩ := List.append_of_mem hm
    exact Option.isSome_iff_exists.2 ⟨⟨a, b⟩, ofText?_eq_some_iff.2 ⟨hab, h⟩⟩

theorem ofText?_eq_none_iff : ofText? text = none ↔ stars text ≠ 1 := by
  rw [← Option.not_isSome_iff_eq_none, ofText?_isSome_iff]

/-- The star stands where it stood, behind the lead. -/
theorem ofText?_append (h : stars lead = 0) :
    ofText? (lead ++ text) = (ofText? text).map (behindLead lead) := by
  cases ht : ofText? text with
  | none =>
    rw [ofText?_eq_none_iff] at ht
    rw [Option.map_none, ofText?_eq_none_iff, stars_append, h]
    omega
  | some p =>
    obtain ⟨hp, hs⟩ := ofText?_eq_some_iff.1 ht
    refine ofText?_eq_some_iff.2 ⟨?_, ?_⟩
    · simp [behindLead, hp]
    · rw [stars_append, h, hs]

theorem take_between (a x b : List Char) :
    ((a ++ x ++ b).drop a.length).take ((a ++ x ++ b).length - a.length - b.length) = x := by
  rw [List.append_assoc, List.drop_left, List.length_append, List.length_append,
    Nat.add_sub_cancel_left, Nat.add_sub_cancel, List.take_left]

/-- The star of a key stands for what is left of a text between the two ends of the key. -/
theorem star?_eq_some_iff {key star : String} : p.star? key = some star ↔
    star ≠ "" ∧ Text.climbs star = false ∧ key.toList = p.before ++ star.toList ++ p.behind := by
  constructor
  · intro h
    simp only [star?] at h
    split at h
    · next hends =>
      obtain ⟨hbefore, hbehind, hlength⟩ := hends
      obtain ⟨r, hr⟩ := List.isPrefixOf_iff_prefix.1 hbefore
      have hsuffix : p.behind <:+ r := by
        apply List.suffix_of_suffix_length_le (List.isSuffixOf_iff_suffix.1 hbehind) ⟨_, hr⟩
        rw [← hr, List.length_append] at hlength
        omega
      obtain ⟨x, rfl⟩ := hsuffix
      rw [← List.append_assoc] at hr
      rw [← hr, take_between] at h
      split at h
      · cases h
      · next hclimbs =>
        cases h
        refine ⟨?_, by simpa using hclimbs, by simp [← hr]⟩
        intro he
        have hx : x = [] := by simpa using congrArg String.toList he
        simp [← hr, hx] at hlength
    · cases h
  · rintro ⟨hne, hclimbs, hkey⟩
    have hpos : 0 < star.toList.length := List.length_pos_iff.2 (by simpa using hne)
    have hends : p.before.isPrefixOf key.toList ∧ p.behind.isSuffixOf key.toList ∧
        p.before.length + p.behind.length < key.toList.length := by
      rw [hkey]
      refine ⟨List.isPrefixOf_iff_prefix.2 ?_, List.isSuffixOf_iff_suffix.2 ?_, ?_⟩
      · rw [List.append_assoc]
        exact List.prefix_append _ _
      · exact List.suffix_append _ _
      · rw [List.length_append, List.length_append]
        omega
    simp only [star?]
    rw [if_pos hends, hkey, take_between, String.ofList_toList, if_neg (by simp [hclimbs])]

end Pattern

end Vendoring.ExportMap
