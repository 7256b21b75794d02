import Mathlib.Data.List.Basic
import Vendoring.Text

/-! The occurrences of one text in another, from left to right, and what stands between them. -/
namespace Vendoring.Text

variable {old new text last : List Char} {before : List (List Char)} {c : Char} {a r : List Char}

/-- The pieces of a text with `new` behind each of them, and `last` at the end. -/
def stitched (new : List Char) (before : List (List Char)) (last : List Char) : List Char :=
  before.flatMap (· ++ new) ++ last

/-- A text cut at occurrences of `old`. Each one is the first behind the one before it, and there is
none behind the last. -/
structure Cut (old text : List Char) (before : List (List Char)) (last : List Char) : Prop where
  text_eq : text = stitched old before last
  first : ∀ a ∈ before, ∀ front back, a ++ old = front ++ old ++ back → back = []
  rest : ¬ old <:+: last

theorem stitched_cons (new a : List Char) (before : List (List Char)) (last : List Char) :
    stitched new (a :: before) last = a ++ (new ++ stitched new before last) := by
  simp [stitched]

theorem occursIn_iff : occursIn old text = true ↔ old <:+: text := by
  induction text with
  | nil => simp [occursIn]
  | cons c r ih =>
    rw [occursIn, Bool.or_eq_true, List.isPrefixOf_iff_prefix, ih, List.infix_cons_iff]

/-! ## One occurrence after the other -/

theorem replaceFrom_append (skipped : List Char) (r : List Char) :
    replaceFrom old new skipped.length (skipped ++ r) = replaceAll old new r := by
  induction skipped with
  | nil => rfl
  | cons c skipped ih => exact ih

theorem replaceAll_append (h : old ≠ []) (r : List Char) :
    replaceAll old new (old ++ r) = new ++ replaceAll old new r := by
  obtain ⟨c, l, rfl⟩ := List.exists_cons_of_ne_nil h
  have hfirst : (c :: l).isPrefixOf (c :: (l ++ r)) = true :=
    List.isPrefixOf_iff_prefix.2 (List.prefix_append (c :: l) r)
  change replaceFrom (c :: l) new 0 (c :: (l ++ r)) = _
  rw [replaceFrom, if_pos hfirst]
  exact congrArg (new ++ ·) (replaceFrom_append l r)

theorem replaceAll_cons (h : ¬ old <+: c :: r) :
    replaceAll old new (c :: r) = c :: replaceAll old new r := by
  have hfirst : ¬ old.isPrefixOf (c :: r) = true := fun hp => h (List.isPrefixOf_iff_prefix.1 hp)
  rw [replaceAll, replaceFrom, if_neg hfirst, replaceAll]

theorem replaceAll_of_not_infix (h : ¬ old <:+: text) : replaceAll old new text = text := by
  induction text with
  | nil => rfl
  | cons c r ih =>
    have hfirst : ¬ old <+: c :: r := fun hp => h hp.isInfix
    have hrest : ¬ old <:+: r := fun hi => h (List.infix_cons hi)
    rw [replaceAll_cons hfirst, ih hrest]

/-- Before the first occurrence everything is kept. -/
theorem replaceAll_behind (hold : old ≠ [])
    (h : ∀ front back, a ++ old = front ++ old ++ back → back = []) (r : List Char) :
    replaceAll old new (a ++ (old ++ r)) = a ++ (new ++ replaceAll old new r) := by
  induction a with
  | nil => exact replaceAll_append hold r
  | cons c a ih =>
    have hnot : ¬ old <+: c :: (a ++ (old ++ r)) := by
      intro hp
      have hshort : old <+: c :: a ++ old := by
        refine List.prefix_of_prefix_length_le hp ?_ (by simp; omega)
        exact ⟨r, by simp⟩
      obtain ⟨back, hback⟩ := hshort
      have hnil : back = [] := h [] back (by simpa using hback.symm)
      have hlen := congrArg List.length hback
      simp [hnil] at hlen
      omega
    have hlater : ∀ front back, a ++ old = front ++ old ++ back → back = [] := by
      intro front back he
      exact h (c :: front) back (by simp [he])
    rw [List.cons_append, replaceAll_cons hnot, ih hlater]
    rfl

/-! ## Cutting -/

/-- A replacement takes the place of each occurrence that a text is cut at. -/
theorem Cut.replaceAll_eq (hold : old ≠ []) (h : Cut old text before last) (new : List Char) :
    replaceAll old new text = stitched new before last := by
  obtain ⟨rfl, hfirst, hrest⟩ := h
  induction before with
  | nil => exact replaceAll_of_not_infix hrest
  | cons a before ih =>
    obtain ⟨ha, hbefore⟩ := List.forall_mem_cons.1 hfirst
    rw [stitched_cons, stitched_cons, replaceAll_behind hold ha, ih hbefore]

/-- What is in front of a cut text belongs to its first piece, if no occurrence begins there. -/
theorem Cut.cons (h : Cut old r before last) (hc : ¬ old <+: c :: r) :
    ∃ before' last', Cut old (c :: r) before' last' := by
  obtain ⟨rfl, hfirst, hrest⟩ := h
  cases before with
  | nil =>
    refine ⟨[], c :: last, rfl, by simp, ?_⟩
    intro hi
    rcases List.infix_cons_iff.1 hi with hp | hi
    · exact hc hp
    · exact hrest hi
  | cons a before =>
    obtain ⟨ha, hbefore⟩ := List.forall_mem_cons.1 hfirst
    refine ⟨(c :: a) :: before, last, ?_, List.forall_mem_cons.2 ⟨?_, hbefore⟩, hrest⟩
    · simp [stitched_cons]
    · intro front back he
      cases front with
      | nil =>
        have hp : old <+: c :: a ++ old := ⟨back, he.symm⟩
        refine absurd (hp.trans ?_) hc
        exact ⟨stitched old before last, by simp [stitched_cons]⟩
      | cons d front =>
        have htail : a ++ old = front ++ old ++ back := by simpa using (List.cons.inj he).2
        exact ha front back htail

theorem exists_cut (hold : old ≠ []) (text : List Char) :
    ∃ before last, Cut old text before last := by
  induction hn : text.length using Nat.strongRecOn generalizing text with
  | ind n ih =>
    by_cases hp : old <+: text
    · obtain ⟨r, rfl⟩ := hp
      have hpos := List.length_pos_iff.2 hold
      rw [List.length_append] at hn
      obtain ⟨before, last, htext, hfirst, hrest⟩ := ih r.length (by omega) r rfl
      refine ⟨[] :: before, last, ?_, List.forall_mem_cons.2 ⟨?_, hfirst⟩, hrest⟩
      · simp [stitched_cons, ← htext]
      · intro front back he
        have hlen := congrArg List.length he
        simp only [List.length_append, List.length_nil] at hlen
        exact List.length_eq_zero_iff.1 (by omega)
    · cases text with
      | nil => exact ⟨[], [], rfl, by simp, fun hi => hold (List.infix_nil.1 hi)⟩
      | cons c r =>
        rw [List.length_cons] at hn
        obtain ⟨before, last, hcut⟩ := ih r.length (by omega) r rfl
        exact hcut.cons hp

/-- A text has an occurrence if it is cut at one. -/
theorem Cut.infix_iff (h : Cut old text before last) : old <:+: text ↔ before ≠ [] := by
  obtain ⟨rfl, -, hrest⟩ := h
  cases before with
  | nil => simpa [stitched] using hrest
  | cons a before =>
    have hin : old <:+: stitched old (a :: before) last :=
      ⟨a, stitched old before last, by simp [stitched_cons]⟩
    simpa using hin

theorem length_stitched (new : List Char) (before : List (List Char)) (last : List Char) :
    (stitched new before last).length =
      before.length * new.length + (before.flatten.length + last.length) := by
  induction before with
  | nil => simp [stitched]
  | cons a before ih =>
    rw [stitched_cons, List.length_append, List.length_append, ih, List.length_cons,
      List.flatten_cons, List.length_append, Nat.succ_mul]
    omega

/-- Putting one text for another changes the whole, if there is a place for it at all. -/
theorem stitched_eq_iff : stitched new before last = stitched old before last ↔
    before = [] ∨ new = old := by
  constructor
  · intro he
    cases before with
    | nil => exact Or.inl rfl
    | cons a before =>
      have hlen := congrArg List.length he
      rw [length_stitched, length_stitched, Nat.add_right_cancel_iff] at hlen
      have hsame : new.length = old.length := Nat.eq_of_mul_eq_mul_left (by simp) hlen
      rw [stitched_cons, stitched_cons, List.append_cancel_left_eq] at he
      exact Or.inr (List.append_inj he hsame).1
  · rintro (rfl | rfl)
    · rfl
    · rfl

end Vendoring.Text
