import Vendoring.Proofs.Text
import Vendoring.Specifier

/-! Where a specifier is split. The two parts are told by what they look like, whatever way they
were found. -/
namespace Vendoring.Specifier

variable {l a b : List Char} {raw : String} {s : Specifier}

/-- A subpath is empty or starts with a slash. -/
def IsSubpath (b : List Char) : Prop := b = [] ∨ b.head? = some '/'

/-- The parts of a specifier by their looks. A name has no slash; behind an `@` it has one at most,
and one for sure if something follows it. -/
structure Parts (l identity subpath : List Char) : Prop where
  joined : identity ++ subpath = l
  behind : IsSubpath subpath
  plain : l.head? ≠ some '@' → '/' ∉ identity
  scope : l.head? = some '@' →
    identity.count '/' ≤ 1 ∧ (subpath ≠ [] → identity.count '/' = 1)

def SplitOf (s : Specifier) (raw : String) : Prop :=
  Parts raw.toList s.identity.toList s.subpath.toList

theorem isSubpath_dropWhile (l : List Char) : IsSubpath (l.dropWhile (· ≠ '/')) := by
  have hd := List.head?_dropWhile_not (· ≠ '/') l
  cases hl : (l.dropWhile (· ≠ '/')).head? with
  | none => exact Or.inl (List.head?_eq_none_iff.1 hl)
  | some c =>
    rw [hl] at hd
    exact Or.inr (hl.trans (by simpa using hd))

theorem IsSubpath.of_prefix (h : IsSubpath b) (ha : a <+: b) : IsSubpath a := by
  cases a with
  | nil => exact Or.inl rfl
  | cons c r =>
    obtain ⟨rest, rfl⟩ := ha
    exact Or.inr (by simpa [IsSubpath] using h)

theorem IsSubpath.append (ha : IsSubpath a) (hb : IsSubpath b) : IsSubpath (a ++ b) := by
  rcases ha with rfl | ha
  · exact hb
  · obtain ⟨r, rfl⟩ := List.head?_eq_some_iff.1 ha
    exact Or.inr rfl

/-- A relative specifier is one or two dots with a subpath behind. -/
theorem isRelative_iff : isRelative raw = true ↔ ∃ lead rest, (lead = "." ∨ lead = "..") ∧
    IsSubpath rest ∧ raw = lead ++ String.ofList rest := by
  simp only [isRelative, Bool.or_eq_true, List.isPrefixOf_iff_prefix, decide_eq_true_eq]
  constructor
  · rintro (((⟨r, hr⟩ | ⟨r, hr⟩) | rfl) | rfl)
    · refine ⟨".", '/' :: r, Or.inl rfl, Or.inr rfl, String.toList_injective ?_⟩
      simp [← hr]
    · refine ⟨"..", '/' :: r, Or.inr rfl, Or.inr rfl, String.toList_injective ?_⟩
      simp [← hr]
    · exact ⟨".", [], Or.inl rfl, Or.inl rfl, rfl⟩
    · exact ⟨"..", [], Or.inr rfl, Or.inl rfl, rfl⟩
  · rintro ⟨lead, rest, hlead, hrest, rfl⟩
    rcases hrest with rfl | hrest
    · rcases hlead with rfl | rfl <;> simp
    · obtain ⟨r, rfl⟩ := List.head?_eq_some_iff.1 hrest
      rcases hlead with rfl | rfl <;> simp

theorem head?_of_isRelative (h : isRelative raw = true) : raw.toList.head? ≠ some '/' := by
  obtain ⟨lead, rest, hlead, -, rfl⟩ := isRelative_iff.1 h
  rcases hlead with rfl | rfl <;> simp

/-- A text is cut at its first slash. -/
theorem cut_eq_iff : cut l = (a, b) ↔ a ++ b = l ∧ '/' ∉ a ∧ IsSubpath b := by
  rw [cut, Prod.mk.injEq]
  constructor
  · rintro ⟨rfl, rfl⟩
    refine ⟨List.takeWhile_append_dropWhile, ?_, isSubpath_dropWhile l⟩
    intro hm
    simpa using List.all_eq_true.1 List.all_takeWhile _ hm
  · rintro ⟨rfl, ha, hb⟩
    have hall : ∀ c ∈ a, decide (c ≠ '/') = true := by
      intro c hc
      apply decide_eq_true
      rintro rfl
      exact ha hc
    rw [List.takeWhile_append_of_pos hall, List.dropWhile_append_of_pos hall]
    rcases hb with rfl | hb
    · simp
    · obtain ⟨r, rfl⟩ := List.head?_eq_some_iff.1 hb
      simp

theorem cut_spec (l : List Char) :
    (cut l).1 ++ (cut l).2 = l ∧ '/' ∉ (cut l).1 ∧ IsSubpath (cut l).2 :=
  cut_eq_iff.1 rfl

theorem split_plain (h : l.head? ≠ some '@') : split l = cut l := by
  unfold split
  split
  · exact absurd rfl h
  · rfl

/-- Behind an `@`, a text without a slash is all name. -/
theorem split_scope (h : l.head? = some '@') (hl : '/' ∉ l) : split l = (l, []) := by
  obtain ⟨r, rfl⟩ := List.head?_eq_some_iff.1 h
  have hc : cut ('@' :: r) = ('@' :: r, []) := cut_eq_iff.2 ⟨List.append_nil _, hl, Or.inl rfl⟩
  simp only [split, hc]

/-- Behind an `@`, a text is cut at its second slash. -/
theorem split_scoped (h : (a ++ '/' :: b).head? = some '@') (ha : '/' ∉ a) :
    split (a ++ '/' :: b) = (a ++ '/' :: (cut b).1, (cut b).2) := by
  have hc : cut (a ++ '/' :: b) = (a, '/' :: b) := cut_eq_iff.2 ⟨rfl, ha, Or.inr rfl⟩
  generalize a ++ '/' :: b = l at h hc
  obtain ⟨r, rfl⟩ := List.head?_eq_some_iff.1 h
  simp only [split, hc]

theorem parts_split (l : List Char) : Parts l (split l).1 (split l).2 := by
  by_cases h : l.head? = some '@'
  · by_cases hl : '/' ∈ l
    · obtain ⟨a, b, rfl, ha⟩ := List.eq_append_cons_of_mem hl
      obtain ⟨hjoined, hb, hbehind⟩ := cut_spec b
      have hcount : (a ++ '/' :: (cut b).1).count '/' = 1 := by
        rw [List.count_append, List.count_cons_self, List.count_eq_zero.2 ha,
          List.count_eq_zero.2 hb]
      rw [split_scoped h ha]
      refine ⟨?_, hbehind, fun hn => absurd h hn, fun _ => ⟨Nat.le_of_eq hcount, fun _ => hcount⟩⟩
      rw [List.append_assoc, List.cons_append, hjoined]
    · rw [split_scope h hl]
      refine ⟨List.append_nil l, Or.inl rfl, fun hn => absurd h hn, fun _ => ⟨?_, ?_⟩⟩
      · rw [List.count_eq_zero.2 hl]
        exact Nat.zero_le 1
      · exact absurd rfl
  · rw [split_plain h]
    obtain ⟨hjoined, ha, hbehind⟩ := cut_spec l
    exact ⟨hjoined, hbehind, fun _ => ha, fun hs => absurd hs h⟩

/-- No other two parts look like those of a specifier. -/
theorem Parts.split_eq (h : Parts l a b) : split l = (a, b) := by
  by_cases hl : l.head? = some '@'
  · obtain ⟨hle, hone⟩ := h.scope hl
    by_cases ha : '/' ∈ a
    · -- The name takes the first slash; the second one, if there is one, starts the subpath.
      obtain ⟨x, y, rfl, hx⟩ := List.eq_append_cons_of_mem ha
      have hy : '/' ∉ y := by
        rw [List.count_append, List.count_cons_self] at hle
        exact List.count_eq_zero.1 (by omega)
      have hjoined : x ++ '/' :: (y ++ b) = l := by
        rw [← h.joined, List.append_assoc, List.cons_append]
      have hcut : cut (y ++ b) = (y, b) := cut_eq_iff.2 ⟨rfl, hy, h.behind⟩
      rw [← hjoined] at hl ⊢
      rw [split_scoped hl hx, hcut]
    · have hb : b = [] := by
        cases b with
        | nil => rfl
        | cons c r =>
          have hcount := hone (List.cons_ne_nil c r)
          rw [List.count_eq_zero.2 ha] at hcount
          cases hcount
      obtain rfl : a = l := by rw [← h.joined, hb, List.append_nil]
      rw [hb]
      exact split_scope hl ha
  · rw [split_plain hl]
    exact cut_eq_iff.2 ⟨h.joined, h.plain hl, h.behind⟩

theorem parse_eq_iff : parse raw = s ↔ s.SplitOf raw := by
  constructor
  · rintro rfl
    simpa only [SplitOf, parse, String.toList_ofList] using parts_split raw.toList
  · intro h
    obtain ⟨identity, subpath⟩ := s
    rw [parse, Parts.split_eq h, String.ofList_toList, String.ofList_toList]

end Vendoring.Specifier
