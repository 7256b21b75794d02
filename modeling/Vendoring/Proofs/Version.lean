import Vendoring.Proofs.Decimal
import Vendoring.Proofs.Outcome
import Vendoring.Version

/-! Versions have one text each: a version that was read is written as it was read. -/
namespace Vendoring.Version
open Outcome

variable {p : Position} {mark : Char} {n : Nat} {s rest : List Char} {parts : List String}
  {raw : String} {v : Version}

theorem eq_of_number (h : number p s = .ok (n, rest)) : decimalDigits n ++ rest = s := by
  have hdigits : ∀ c ∈ s.takeWhile Char.isDigit, c.isDigit = true := by
    intro c hc
    exact List.all_eq_true.1 List.all_takeWhile c hc
  have hs : s.takeWhile Char.isDigit ++ s.dropWhile Char.isDigit = s :=
    List.takeWhile_append_dropWhile
  unfold number at h
  generalize s.takeWhile Char.isDigit = ds at h hdigits hs
  generalize s.dropWhile Char.isDigit = after at h hs
  dsimp only at h
  split at h
  · cases h
  · cases h
  · cases h
  · next hzero hend hchar =>
    split at h
    · cases h
      have hne : ds ≠ [] := by
        rintro rfl
        cases rest with
        | nil => exact hend rfl rfl
        | cons c r => exact hchar c r rfl rfl
      have hlead : ds.head? = some '0' → ds.length = 1 := by
        intro hhead
        match ds, hhead, hzero with
        | [_], _, _ => rfl
        | _ :: d :: r, hhead, hzero =>
          cases hhead
          exact absurd rfl (hzero d r)
      rw [decimalDigits_decimalValue hdigits hne hlead, hs]
    · cases h

theorem eq_of_dot (h : dot p s = .ok rest) : '.' :: rest = s := by
  unfold dot at h
  split at h <;> cases h
  rfl

theorem eq_of_segments (h : segments p s = .ok (parts, rest)) :
    parts ≠ [] ∧ (String.intercalate "." parts).toList ++ rest = s := by
  simp only [segments, bind_eq_ok, pure_eq_ok, Prod.mk.injEq] at h
  obtain ⟨-, -, rfl, rfl⟩ := h
  constructor
  · intro hnil
    exact List.splitOn_ne_nil _ _ (List.map_eq_nil_iff.1 hnil)
  · have hparts : ∀ l : List (List Char), (l.map String.ofList).map String.toList = l := by
      intro l
      simp
    rw [String.toList_intercalate, hparts]
    change ['.'].intercalate _ ++ _ = s
    rw [List.intercalate_splitOn, List.takeWhile_append_dropWhile]

theorem eq_of_marked (h : marked mark p s = .ok (parts, rest)) :
    (suffix (String.singleton mark) parts).toList ++ rest = s := by
  unfold marked at h
  split at h
  · split at h
    · next hmark =>
      obtain ⟨hne, hr⟩ := eq_of_segments h
      cases parts with
      | nil => exact absurd rfl hne
      | cons part parts =>
        subst hmark
        change (String.singleton _ ++ _).toList ++ rest = _
        rw [String.toList_append, List.append_assoc, hr, String.toList_singleton]
        rfl
    · cases h
      rfl
  · cases h
    rfl

/-- A version that was read is written as it was read. -/
theorem text_of_parse (h : parse raw = .ok v) : v.text = raw := by
  unfold parse at h
  split at h
  · cases h
  simp only [bind_eq_ok, Prod.exists] at h
  obtain ⟨major, s₁, hmajor, s₂, hdot, minor, s₃, hminor, s₄, hdot', patch, s₅, hpatch,
    preRelease, s₆, hpre, build, s₇, hbuild, h⟩ := h
  split at h
  · cases h
    apply String.toList_inj.1
    rw [← eq_of_number hmajor, ← eq_of_dot hdot, ← eq_of_number hminor, ← eq_of_dot hdot',
      ← eq_of_number hpatch, ← eq_of_marked hpre, ← eq_of_marked hbuild]
    simp only [text, numberText, String.toList_append, String.toList_ofList, List.append_assoc,
      List.append_nil]
    rfl
  · cases h

end Vendoring.Version
