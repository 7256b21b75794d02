import Vendoring.Text

/-! Splitting text and joining it again. -/
namespace Vendoring.Text

variable {c : Char} {l a b : List Char} {segment : List Char}

theorem length_splitOn (c : Char) (l : List Char) : (l.splitOn c).length = l.count c + 1 := by
  induction l with
  | nil => simp [List.splitOn_nil]
  | cons d r ih =>
    rw [List.splitOn_cons_eq_if_modifyHead, List.count_cons]
    split <;> simp_all

theorem splitOn_eq_pair_iff : l.splitOn c = [a, b] ↔ l = a ++ c :: b ∧ l.count c = 1 := by
  constructor
  · intro h
    have hl := length_splitOn c l
    have hj : [c].intercalate (l.splitOn c) = l := List.intercalate_splitOn c
    rw [h] at hl hj
    refine ⟨?_, ?_⟩
    · simpa [List.intercalate] using hj.symm
    · simpa using hl.symm
  · rintro ⟨rfl, h⟩
    simp only [List.count_append, List.count_cons_self] at h
    have ha : c ∉ a := List.count_eq_zero.1 (by omega)
    have hb : c ∉ b := List.count_eq_zero.1 (by omega)
    rw [List.splitOn_append_cons_self_of_not_mem ha, List.splitOn_eq_singleton hb]

theorem not_mem_of_mem_splitOn (h : segment ∈ l.splitOn c) : c ∉ segment := by
  induction l generalizing segment with
  | nil => simp_all [List.splitOn_nil]
  | cons d r ih =>
    rw [List.splitOn_cons_eq_if_modifyHead] at h
    split at h
    · rcases List.mem_cons.1 h with rfl | h
      · simp
      · exact ih h
    · next hd =>
      cases hs : r.splitOn c with
      | nil => exact absurd hs (List.splitOn_ne_nil _ _)
      | cons s ss =>
        rw [hs, List.modifyHead_cons] at h
        rw [hs] at ih
        rcases List.mem_cons.1 h with rfl | h
        · have hdc : c ≠ d := fun he => hd (by simp [he])
          simpa [hdc] using ih (List.mem_cons_self ..)
        · exact ih (List.mem_cons_of_mem _ h)

/-- The piece of a text before its first separator. -/
def firstPiece (c : Char) (l : List Char) : List Char := (l.splitOn c).headD []

/-- The piece of a text behind its last separator. -/
def lastPiece (c : Char) (l : List Char) : List Char := (l.splitOn c).getLastD []

/-- Where two texts are put together, the last piece of the one and the first of the other become
one. -/
theorem splitOn_append (c : Char) (a b : List Char) : (a ++ b).splitOn c =
    (a.splitOn c).dropLast ++ (lastPiece c a ++ firstPiece c b) :: (b.splitOn c).tail := by
  induction a with
  | nil =>
    obtain ⟨s, r, hb⟩ := List.exists_cons_of_ne_nil (List.splitOn_ne_nil c b)
    simp [lastPiece, firstPiece, List.splitOn_nil, hb]
  | cons d r ih =>
    obtain ⟨s, ss, hr⟩ := List.exists_cons_of_ne_nil (List.splitOn_ne_nil c r)
    rw [List.cons_append, List.splitOn_cons_eq_if_modifyHead, ih]
    simp only [lastPiece, List.splitOn_cons_eq_if_modifyHead, hr]
    split
    · rfl
    · cases ss <;> rfl

theorem lastPiece_append_cons (c : Char) (a b : List Char) :
    lastPiece c (a ++ c :: b) = lastPiece c b := by
  have hlast := List.getLast?_eq_some_getLast (List.splitOn_ne_nil c b)
  rw [lastPiece, List.splitOn_append_cons_self, lastPiece, List.getLastD_eq_getLast?,
    List.getLastD_eq_getLast?, List.getLast?_append, hlast]
  rfl

theorem lastPiece_of_not_mem (h : c ∉ l) : lastPiece c l = l := by
  rw [lastPiece, List.splitOn_eq_singleton h]
  rfl

/-- The last piece is the whole text, or there is a separator in front of it. -/
theorem eq_lastPiece_or (c : Char) (l : List Char) :
    l = lastPiece c l ∨ ∃ front, l = front ++ c :: lastPiece c l := by
  by_cases h : c ∈ l
  · obtain ⟨back, front, hl, hback⟩ := List.eq_append_cons_of_mem (List.mem_reverse.2 h)
    have hsplit : l = front.reverse ++ c :: back.reverse := by
      simpa using congrArg List.reverse hl
    refine Or.inr ⟨front.reverse, ?_⟩
    rw [hsplit, lastPiece_append_cons, lastPiece_of_not_mem (by simpa using hback)]
  · exact Or.inl (lastPiece_of_not_mem h).symm

theorem climbs_iff {text : String} : climbs text = true ↔ ['.', '.'] ∈ segments text := by
  simp [climbs]

theorem dropTrailing_concat (c d : Char) (l : List Char) :
    dropTrailing c (l ++ [d]) = if d = c then dropTrailing c l else l ++ [d] := by
  simp only [dropTrailing, List.reverse_append, List.reverse_singleton, List.singleton_append,
    List.dropWhile_cons, decide_eq_true_eq]
  split <;> simp

theorem dropTrailing_eq_self (h : l.getLast? ≠ some c) : dropTrailing c l = l := by
  rcases List.eq_nil_or_concat l with rfl | ⟨front, d, rfl⟩
  · rfl
  · have hd : d ≠ c := by simpa using h
    rw [List.concat_eq_append, dropTrailing_concat, if_neg hd]

theorem dropTrailing_append (h : a.getLast? ≠ some c) (b : List Char) :
    dropTrailing c (a ++ b) = a ++ dropTrailing c b := by
  rw [dropTrailing, dropTrailing, List.reverse_append, List.dropWhile_append]
  split
  · next hb =>
    rw [List.isEmpty_iff.1 hb, List.reverse_nil, List.append_nil]
    exact dropTrailing_eq_self h
  · rw [List.reverse_append, List.reverse_reverse]

theorem dropTrailing_prefix (c : Char) (l : List Char) : dropTrailing c l <+: l := by
  rw [← List.reverse_suffix, dropTrailing, List.reverse_reverse]
  exact List.dropWhile_suffix _

theorem segments_append_slash (a b : String) :
    segments (a ++ "/" ++ b) = segments a ++ segments b := by
  simp only [segments, String.toList_append]
  rw [List.append_assoc]
  exact List.splitOn_append_cons_self _ _

theorem insertByName_perm {α : Type} (name : α → String) (x : α) (xs : List α) :
    (insertByName name x xs).Perm (x :: xs) := by
  induction xs with
  | nil => exact .refl _
  | cons y r ih =>
    rw [insertByName]
    split
    · exact (ih.cons y).trans (.swap x y r)
    · exact .refl _

theorem sortByName_perm {α : Type} (name : α → String) (xs : List α) :
    (sortByName name xs).Perm xs := by
  induction xs with
  | nil => exact .refl _
  | cons x r ih => exact (insertByName_perm name x _).trans (ih.cons x)

theorem insertByName_sorted {α : Type} {name : α → String} {x : α} {xs : List α}
    (h : xs.Pairwise fun y z => name y ≤ name z) :
    (insertByName name x xs).Pairwise fun y z => name y ≤ name z := by
  induction xs with
  | nil => exact List.pairwise_singleton _ _
  | cons y r ih =>
    obtain ⟨hy, hr⟩ := List.pairwise_cons.1 h
    rw [insertByName]
    split
    · next hlt =>
      refine List.pairwise_cons.2 ⟨fun z hz => ?_, ih hr⟩
      rcases List.mem_cons.1 ((insertByName_perm name x r).mem_iff.1 hz) with rfl | hz
      · exact String.not_lt.1 (String.lt_asymm hlt)
      · exact hy z hz
    · next hnot =>
      have hle : name x ≤ name y := String.not_lt.1 hnot
      refine List.pairwise_cons.2 ⟨fun z hz => ?_, h⟩
      rcases List.mem_cons.1 hz with rfl | hz
      · exact hle
      · exact String.le_trans hle (hy z hz)

theorem sortByName_sorted {α : Type} (name : α → String) (xs : List α) :
    (sortByName name xs).Pairwise fun y z => name y ≤ name z := by
  induction xs with
  | nil => exact List.Pairwise.nil
  | cons x r ih => exact insertByName_sorted ih

theorem sortByName_strict {names : List String} (h : names.Nodup) :
    (sortByName id names).Pairwise (· < ·) := by
  have hnodup := (sortByName_perm id names).nodup_iff.2 h
  refine (hnodup.and (sortByName_sorted id names)).imp ?_
  rintro a b ⟨hne, hle⟩
  exact Decidable.by_contra fun hnot => hne (String.le_antisymm hle (String.not_lt.1 hnot))

/-- Names have one order. -/
theorem eq_of_strict {names names' : List String} (h : names.Pairwise (· < ·))
    (h' : names'.Pairwise (· < ·)) (hm : ∀ name, name ∈ names ↔ name ∈ names') :
    names = names' := by
  have hne {a b : String} (hlt : a < b) : a ≠ b := by
    rintro rfl
    exact String.lt_irrefl a hlt
  have hperm : names.Perm names' := (List.perm_ext_iff_of_nodup (h.imp hne) (h'.imp hne)).2 hm
  exact hperm.eq_of_pairwise (fun a b _ _ hab hba => absurd hba (String.lt_asymm hab)) h h'

end Vendoring.Text
