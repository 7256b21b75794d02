import Vendoring.Marker
import Vendoring.Proofs.Text.Occurrences

/-! What a marker makes of a text: each occurrence is replaced, from left to right. -/
namespace Vendoring.Marker
open Text

variable {marker : Marker} {source : String} {before : List (List Char)} {last : List Char}

/-- The text with what a marker puts for each of its occurrences. -/
def rewritten (marker : Marker) (before : List (List Char)) (last : List Char) : String :=
  String.ofList (stitched marker.replace.toList before last)

theorem replaced?_of_empty (h : marker.find = "") (source : String) :
    marker.replaced? source = none := by
  rw [replaced?, if_pos (Or.inl h)]

theorem replaced?_of_cut (hf : marker.find ≠ "")
    (h : Cut marker.find.toList source.toList before last) :
    marker.replaced? source =
      if before = [] then none else some (marker.rewritten before last) := by
  have hold : marker.find.toList ≠ [] := by simpa using hf
  have hoccurs : occursIn marker.find.toList source.toList = true ↔ before ≠ [] :=
    occursIn_iff.trans h.infix_iff
  rw [replaced?, rewritten, ← h.replaceAll_eq hold]
  by_cases hb : before = []
  · have hnot : occursIn marker.find.toList source.toList = false := by
      rw [Bool.eq_false_iff]
      exact fun ho => hoccurs.1 ho hb
    rw [if_pos hb, if_pos (Or.inr (by simp [hnot]))]
  · rw [if_neg hb, if_neg]
    rintro (he | hn)
    · exact hf he
    · simp [hoccurs.2 hb] at hn

theorem rewritten_eq_iff (h : Cut marker.find.toList source.toList before last) :
    marker.rewritten before last = source ↔ before = [] ∨ marker.find = marker.replace := by
  have hsource : source = String.ofList (stitched marker.find.toList before last) := by
    rw [← h.text_eq, String.ofList_toList]
  have htext : marker.rewritten before last = source ↔
      stitched marker.replace.toList before last = stitched marker.find.toList before last := by
    rw [rewritten, hsource, ← String.toList_inj, String.toList_ofList, String.toList_ofList]
  rw [htext, stitched_eq_iff, String.toList_inj, eq_comm (a := marker.replace)]

/-- A marker to find is replaced at each of its occurrences, from left to right, and none is told
where it does not occur. What is told is another text, unless the marker is put for itself. A marker
that finds nothing changes nothing. -/
theorem replaces_each_occurrence (marker : Marker) (source : String) :
    (marker.find = "" → marker.replaced? source = none) ∧
    (marker.find ≠ "" →
      (∃ before last, Cut marker.find.toList source.toList before last) ∧
      ∀ before last, Cut marker.find.toList source.toList before last →
        marker.replaced? source =
          (if before = [] then none else some (marker.rewritten before last)) ∧
        (marker.find ≠ marker.replace →
          (marker.replaced? source = none ↔ marker.rewritten before last = source))) ∧
    ∀ text, marker.replaced? source = some text →
      (text = source ↔ marker.find = marker.replace) := by
  refine ⟨fun hf => replaced?_of_empty hf source, fun hf => ⟨?cuts, ?cut⟩, ?changed⟩
  case cuts => exact exists_cut (by simpa using hf) _
  case cut =>
    intro before last hcut
    have hresult := replaced?_of_cut hf hcut
    refine ⟨hresult, fun hne => ?_⟩
    rw [hresult, rewritten_eq_iff hcut]
    by_cases hb : before = [] <;> simp [hb, hne]
  case changed =>
    intro text ht
    have hf : marker.find ≠ "" := by
      intro he
      rw [replaced?_of_empty he] at ht
      cases ht
    have hold : marker.find.toList ≠ [] := by simpa using hf
    obtain ⟨before, last, hcut⟩ := exists_cut hold source.toList
    rw [replaced?_of_cut hf hcut] at ht
    split at ht
    · cases ht
    · next hb =>
      cases ht
      rw [rewritten_eq_iff hcut]
      exact or_iff_right hb

/-- The find overlaps itself, and what is put for it contains it again. -/
theorem replaces_each_occurrence_overlapping :
    Cut "aa".toList "xaaay".toList ["x".toList] "ay".toList ∧
    replaced? ⟨"aa", "aab"⟩ "xaaay" = some "xaabay" ∧
    replaced? ⟨"aa", "aa"⟩ "xaaay" = some "xaaay" := by
  have hcut : Cut "aa".toList "xaaay".toList ["x".toList] "ay".toList := by
    refine ⟨by decide, ?_, by decide⟩
    intro a ha front back he
    obtain rfl := List.mem_singleton.1 ha
    have hlen := congrArg List.length he
    cases front with
    | nil => simp at he
    | cons c front =>
      simp at hlen
      exact List.length_eq_zero_iff.1 (by omega)
  obtain ⟨-, hother, -⟩ := replaces_each_occurrence ⟨"aa", "aab"⟩ "xaaay"
  obtain ⟨-, hsame, -⟩ := replaces_each_occurrence ⟨"aa", "aa"⟩ "xaaay"
  refine ⟨hcut, ?_, ?_⟩
  · exact ((hother (by decide)).2 _ _ hcut).1
  · exact ((hsame (by decide)).2 _ _ hcut).1

end Vendoring.Marker
