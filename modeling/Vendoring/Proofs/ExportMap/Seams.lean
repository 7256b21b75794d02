import Vendoring.Proofs.ExportMap.Meaning

/-! When a filled template climbs. Neither the template nor what its `*` stands for has a segment
`..`, but two of their texts can make one where they meet. -/
namespace Vendoring.ExportMap

variable {active : List String} {subpath star : String} {m : ExportMap} {hit : Hit} {node : Node}
  {s : Selection} {p : Pattern} {segment a b : List Char}

namespace Pattern

/-- What the segment with the `*` has before it. -/
def lead (p : Pattern) : List Char := Text.lastPiece '/' p.before

/-- What the segment with the `*` has behind it. -/
def rear (p : Pattern) : List Char := Text.firstPiece '/' p.behind

/-- The segments of a filled template in which the text of the template meets that of `star`. -/
def seams (p : Pattern) (star : String) : List (List Char) :=
  match Text.segments star with
  | [] => []
  | [s] => [p.lead ++ s ++ p.rear]
  | s :: r => [p.lead ++ s, r.getLastD [] ++ p.rear]

/-- No text of the template meets that of the `*` as a segment of dots. -/
def Sealed (p : Pattern) : Prop :=
  p.lead ∉ [['.'], ['.', '.']] ∧ p.rear ∉ [['.'], ['.', '.']]

theorem fill_star {text : String} (h : ofText? text = some p) : p.fill "*" = text := by
  apply String.toList_injective
  simp [fill, (ofText?_eq_some_iff.1 h).1]

theorem mem_segments_fill : segment ∈ Text.segments (p.fill star) ↔
    segment ∈ (p.before.splitOn '/').dropLast ∨ segment ∈ p.seams star ∨
      segment ∈ (Text.segments star).tail.dropLast ∨ segment ∈ (p.behind.splitOn '/').tail := by
  have hfill : Text.segments (p.fill star) =
      (p.before ++ star.toList ++ p.behind).splitOn '/' := by
    simp [Text.segments, fill]
  obtain ⟨s, r, hs⟩ := List.exists_cons_of_ne_nil (List.splitOn_ne_nil '/' star.toList)
  have hfront : (p.before ++ star.toList).splitOn '/' =
      (p.before.splitOn '/').dropLast ++ (p.lead ++ s) :: r := by
    rw [Text.splitOn_append, Text.firstPiece, hs]
    rfl
  rw [hfill, Text.splitOn_append, Text.lastPiece, hfront]
  cases r with
  | nil => simp [seams, Text.segments, hs, rear]
  | cons t r =>
    have hdrop : ((p.before.splitOn '/').dropLast ++ (p.lead ++ s) :: t :: r).dropLast =
        (p.before.splitOn '/').dropLast ++ (p.lead ++ s) :: (t :: r).dropLast := by
      rw [List.dropLast_append_of_ne_nil (List.cons_ne_nil _ _)]
      rfl
    have hlast : ((p.before.splitOn '/').dropLast ++ (p.lead ++ s) :: t :: r).getLastD [] =
        (t :: r).getLastD [] := by
      simp [List.getLastD_eq_getLast?, List.getLast?_cons]
    rw [hdrop, hlast]
    simp only [seams, Text.segments, hs, rear, List.mem_append, List.mem_cons, List.tail_cons,
      List.not_mem_nil, or_false]
    tauto

/-- A filled template climbs at its seams or not at all. -/
theorem climbs_fill_iff (ht : Text.climbs (p.fill "*") = false) (hs : Text.climbs star = false) :
    Text.climbs (p.fill star) = true ↔ ['.', '.'] ∈ p.seams star := by
  rw [← Bool.not_eq_true, Text.climbs_iff, mem_segments_fill] at ht
  rw [← Bool.not_eq_true, Text.climbs_iff] at hs
  rw [Text.climbs_iff, mem_segments_fill]
  have hmiddle : ['.', '.'] ∉ (Text.segments star).tail.dropLast := fun h =>
    hs (List.mem_of_mem_tail (List.dropLast_subset _ h))
  tauto

theorem append_eq_dots : a ++ b = ['.', '.'] ↔
    a = [] ∧ b = ['.', '.'] ∨ a = ['.'] ∧ b = ['.'] ∨ a = ['.', '.'] ∧ b = [] := by
  rcases a with _ | ⟨c, _ | ⟨d, r⟩⟩ <;> simp [and_assoc]

/-- What is put behind a sealed lead makes no `..` of it. -/
theorem Sealed.lead_append (hp : p.Sealed) (ha : a ≠ ['.', '.']) : p.lead ++ a ≠ ['.', '.'] := by
  intro h
  rcases append_eq_dots.1 h with ⟨-, h⟩ | ⟨h, -⟩ | ⟨h, -⟩
  · exact ha h
  · exact hp.1 (by simp [h])
  · exact hp.1 (by simp [h])

/-- What is put before a sealed rear makes no `..` of it. -/
theorem Sealed.append_rear (hp : p.Sealed) (ha : a ≠ ['.', '.']) : a ++ p.rear ≠ ['.', '.'] := by
  intro h
  rcases append_eq_dots.1 h with ⟨-, h⟩ | ⟨-, h⟩ | ⟨h, -⟩
  · exact hp.2 (by simp [h])
  · exact hp.2 (by simp [h])
  · exact ha h

theorem Sealed.not_mem_seams (hp : p.Sealed) (hs : Text.climbs star = false) :
    ['.', '.'] ∉ p.seams star := by
  rw [← Bool.not_eq_true, Text.climbs_iff] at hs
  unfold seams
  split
  · exact List.not_mem_nil
  · next t ht =>
    rw [ht, List.mem_singleton] at hs
    rw [List.mem_singleton]
    exact Ne.symm (hp.append_rear (hp.lead_append (Ne.symm hs)))
  · next t r hr ht =>
    rw [ht, List.mem_cons, not_or] at hs
    have hlast : r.getLastD [] ≠ ['.', '.'] := by
      intro he
      rw [List.getLastD_eq_getLast?, List.getLast?_eq_some_getLast hr, Option.getD_some] at he
      exact hs.2 (he ▸ List.getLast_mem hr)
    have hlead := hp.lead_append (Ne.symm hs.1)
    have hrear := hp.append_rear hlast
    simp only [List.mem_cons, List.not_mem_nil, or_false, not_or]
    exact ⟨Ne.symm hlead, Ne.symm hrear⟩

theorem Sealed.climbs_fill (hp : p.Sealed) (ht : Text.climbs (p.fill "*") = false)
    (hs : Text.climbs star = false) : Text.climbs (p.fill star) = false := by
  rw [← Bool.not_eq_true, climbs_fill_iff ht hs]
  exact hp.not_mem_seams hs

/-- A template that is not sealed climbs for some text, though the text does not. -/
theorem exists_climbs_fill (ht : Text.climbs (p.fill "*") = false) (hp : ¬ p.Sealed) :
    ∃ star, star ≠ "" ∧ Text.climbs star = false ∧ Text.climbs (p.fill star) = true := by
  have hdot : Text.segments "./a" = [['.'], ['a']] := by decide
  have hslash : Text.segments "/a" = [[], ['a']] := by decide
  have hdot' : Text.segments "a/." = [['a'], ['.']] := by decide
  have hslash' : Text.segments "a/" = [['a'], []] := by decide
  -- A dot of the template lacks one more; its two dots only need a segment of their own.
  obtain ⟨star, hne, hs, hseam⟩ :
      ∃ star, star ≠ "" ∧ Text.climbs star = false ∧ ['.', '.'] ∈ p.seams star := by
    rw [Sealed, not_and_or, not_not, not_not, List.mem_pair, List.mem_pair] at hp
    rcases hp with (hm | hm) | (hm | hm)
    · exact ⟨"./a", by decide, by decide, by simp [seams, hdot, hm]⟩
    · exact ⟨"/a", by decide, by decide, by simp [seams, hslash, hm]⟩
    · exact ⟨"a/.", by decide, by decide, by simp [seams, hdot', hm]⟩
    · exact ⟨"a/", by decide, by decide, by simp [seams, hslash', hm]⟩
  exact ⟨star, hne, hs, (climbs_fill_iff ht hs).2 hseam⟩

end Pattern

/-- What a pattern answers climbs exactly where the text of its `*` and that of the template make a
segment `..` together. A sealed template never climbs, and any other one does for some text. -/
theorem climbs_hit_iff (hnone : m.get? (Specifier.exportKeyOf subpath) = none)
    (hfind : m.find? subpath active = some hit) (hnode : m.get? hit.key = some node)
    (hs : node.select? active = some s) (hc : Text.climbs s.target = false) :
    ∃ p star, Pattern.ofText? s.target = some p ∧
      Fits hit.key (Specifier.exportKeyOf subpath) star ∧ hit.target = p.fill star ∧
      (Text.climbs hit.target = true ↔ ['.', '.'] ∈ p.seams star) ∧
      (p.Sealed → Text.climbs hit.target = false) ∧
      (¬ p.Sealed → ∃ other, other ≠ "" ∧ Text.climbs other = false ∧
        Text.climbs (p.fill other) = true) := by
  rw [find?] at hfind
  simp only [hnone] at hfind
  obtain ⟨star, template, best, hs', filled⟩ := findPattern?_eq_some_iff.1 hfind
  obtain ⟨node', hnode', hs'⟩ := selectAt?_eq_some_iff.1 hs'
  rw [hnode] at hnode'
  cases hnode'
  rw [hs] at hs'
  cases hs'
  obtain ⟨p, hp, htarget⟩ := fills_iff.1 filled
  have ht : Text.climbs (p.fill "*") = false := by
    rwa [Pattern.fill_star hp]
  have hstar : Text.climbs star = false := best.fits.2.2.1
  refine ⟨p, star, hp, best.fits, htarget.symm, ?_, ?_, Pattern.exists_climbs_fill ht⟩
  · rw [← htarget]
    exact Pattern.climbs_fill_iff ht hstar
  · intro sealed
    rw [← htarget]
    exact sealed.climbs_fill ht hstar

/-- The dot before the `*` and the one that it stands for make `..`. -/
theorem climbs_hit_iff_dotted :
    let m : ExportMap := ⟨[("./*", .target "./dist/.*")]⟩
    let hit : Hit := ⟨"./*", [], "./dist/../secret.js"⟩
    m.find? "/./secret.js" [] = some hit ∧ Text.climbs "./dist/.*" = false ∧
      Text.climbs hit.target = true ∧
      ∃ p star, Pattern.ofText? "./dist/.*" = some p ∧ Fits "./*" "././secret.js" star ∧
        (Text.climbs hit.target = true ↔ ['.', '.'] ∈ p.seams star) := by
  have hfind : (⟨[("./*", .target "./dist/.*")]⟩ : ExportMap).find? "/./secret.js" [] =
      some ⟨"./*", [], "./dist/../secret.js"⟩ := by decide +kernel
  have hkey : Specifier.exportKeyOf "/./secret.js" = "././secret.js" := by decide +kernel
  obtain ⟨p, star, hp, fits, -, hseams, -⟩ :=
    climbs_hit_iff (s := ⟨[], "./dist/.*"⟩) rfl hfind rfl rfl (by decide +kernel)
  exact ⟨hfind, by decide +kernel, by decide +kernel, p, star, hp, hkey ▸ fits, hseams⟩

end Vendoring.ExportMap
