import Vendoring.Build.Identity
import Vendoring.Proofs.Path
import Vendoring.Proofs.Specifier

/-! The segments of a valid identity are names of directories, and specifiers that start with it are
split behind it. -/
namespace Vendoring.Identity

variable {identity other : String} {segment : List Char}

theorem isPlain_of_isValid (h : isValid identity = true) (hs : segment ∈ Text.segments identity) :
    isPlain segment = true := by
  simp only [isValid, Bool.and_eq_true, List.all_eq_true] at h
  exact h.2 _ hs

theorem name_of_isPlain (h : isPlain segment = true) :
    segment ≠ [] ∧ segment ≠ ['.'] ∧ segment ≠ ['.', '.'] := by
  simp only [isPlain, Bool.and_eq_true, decide_eq_true_eq] at h
  exact ⟨h.1.1.1.1, h.1.1.1.2, h.1.1.2⟩

theorem getLast?_of_isValid (h : isValid identity = true) :
    ∃ c, identity.toList.getLast? = some c ∧ c ≠ '/' := by
  rcases List.eq_nil_or_concat identity.toList with hn | ⟨l, c, hc⟩
  · have hs : ([] : List Char) ∈ Text.segments identity := by
      simp [Text.segments, hn, List.splitOn_nil]
    exact absurd rfl (name_of_isPlain (isPlain_of_isValid h hs)).1
  · refine ⟨c, by simp [hc], ?_⟩
    rintro rfl
    have hs : ([] : List Char) ∈ Text.segments identity := by
      rw [Text.segments, hc, List.concat_eq_append, List.splitOn_append_cons_self]
      simp [List.splitOn_nil]
    exact absurd rfl (name_of_isPlain (isPlain_of_isValid h hs)).1

theorem head?_of_isValid (h : isValid identity = true) : identity.toList.head? ≠ some '/' := by
  intro hc
  obtain ⟨l, hl⟩ := List.head?_eq_some_iff.1 hc
  have hs : ([] : List Char) ∈ Text.segments identity := by
    simp [Text.segments, hl, List.splitOn_cons_eq_if_modifyHead]
  exact absurd rfl (name_of_isPlain (isPlain_of_isValid h hs)).1

theorem dropTrailing_of_isValid (h : isValid identity = true) (base : String) :
    Text.dropTrailing '/' (base ++ identity).toList = (base ++ identity).toList := by
  obtain ⟨c, hc, hne⟩ := getLast?_of_isValid h
  apply Text.dropTrailing_eq_self
  rw [String.toList_append, List.getLast?_append, hc]
  simpa using hne

theorem stepNames_of_isValid (h : isValid identity = true) :
    Path.stepNames identity = (Text.segments identity).map String.ofList := by
  rw [Path.stepNames, Path.picked, List.filter_eq_self.2]
  intro segment hs
  simpa using (name_of_isPlain (isPlain_of_isValid h hs)).1

theorem stepNames_ne_nil (h : isValid identity = true) : Path.stepNames identity ≠ [] := by
  rw [stepNames_of_isValid h]
  exact fun hnil => List.splitOn_ne_nil _ _ (List.map_eq_nil_iff.1 hnil)

theorem names_of_isValid (h : isValid identity = true) :
    Path.names identity = Path.stepNames identity := by
  rw [stepNames_of_isValid h, Path.names, Path.picked, List.filter_eq_self.2]
  intro segment hs
  obtain ⟨hempty, hdot, -⟩ := name_of_isPlain (isPlain_of_isValid h hs)
  simp [Path.isIdle, hempty, hdot]

theorem not_up_of_isValid (h : isValid identity = true) : ".." ∉ Path.names identity := by
  rw [names_of_isValid h, stepNames_of_isValid h]
  intro hm
  obtain ⟨segment, hs, he⟩ := List.mem_map.1 hm
  have hup : segment = ['.', '.'] := by simpa using congrArg String.toList he
  exact (name_of_isPlain (isPlain_of_isValid h hs)).2.2 hup

/-- A scope is no name, so that no identity stands below another one. -/
theorem not_prefix_of_isValid (h : isValid identity = true) (h' : isValid other = true)
    (hne : identity ≠ other) : ¬ Path.stepNames identity <+: Path.stepNames other := by
  have hjoined (text : String) : ['/'].intercalate (Text.segments text) = text.toList :=
    List.intercalate_splitOn '/'
  have hsegments : Text.segments identity ≠ Text.segments other := by
    intro he
    refine hne (String.toList_injective ?_)
    rw [← hjoined identity, ← hjoined other, he]
  rw [stepNames_of_isValid h, stepNames_of_isValid h']
  have hpre : (Text.segments identity).map String.ofList <+:
      (Text.segments other).map String.ofList → Text.segments identity <+: Text.segments other := by
    intro hp
    have hmap := hp.map String.toList
    simpa [Function.comp_def] using hmap
  intro hp
  have hprefix := hpre hp
  simp only [isValid, Bool.and_eq_true] at h h'
  have hshape := h.1
  have hshape' := h'.1
  generalize Text.segments identity = xs at hsegments hprefix hshape
  generalize Text.segments other = ys at hsegments hprefix hshape'
  obtain ⟨zs, rfl⟩ := hprefix
  cases zs with
  | nil => exact hsegments (List.append_nil xs).symm
  | cons z zs =>
    unfold hasShape at hshape hshape'
    split at hshape
    · -- One name: the other one would have it for its scope.
      split at hshape'
      · next he => simp at he
      · next scope last he =>
        obtain ⟨rfl, -⟩ := List.cons.inj he
        simp only [Bool.and_eq_true, decide_eq_true_eq] at hshape hshape'
        exact hshape hshape'.2
      · cases hshape'
    · split at hshape'
      · next he => simp at he
      · next he => simp at he
      · cases hshape'
    · cases hshape

/-- An identity has a slash exactly if it starts with an `@`. -/
theorem slashes_of_isValid (h : isValid identity = true) :
    (identity.toList.head? ≠ some '@' ∧ '/' ∉ identity.toList) ∨
      identity.toList.head? = some '@' ∧ identity.toList.count '/' = 1 := by
  simp only [isValid, Bool.and_eq_true] at h
  have hshape := h.1
  unfold hasShape at hshape
  split at hshape
  · next name hs =>
    have hlength := Text.length_splitOn '/' identity.toList
    have hname : ['/'].intercalate (Text.segments identity) = identity.toList :=
      List.intercalate_splitOn '/'
    rw [hs] at hname
    obtain rfl : name = identity.toList := by simpa [List.intercalate] using hname
    refine Or.inl ⟨of_decide_eq_true hshape, List.count_eq_zero.1 ?_⟩
    rw [Text.segments] at hs
    rw [hs, List.length_singleton] at hlength
    omega
  · next scope name hs =>
    obtain ⟨hjoined, hcount⟩ := Text.splitOn_eq_pair_iff.1 hs
    simp only [Bool.and_eq_true, decide_eq_true_eq] at hshape
    refine Or.inr ⟨?_, hcount⟩
    rw [hjoined, List.head?_append, hshape.2, Option.some_or]
  · cases hshape

/-- What follows an identity is the subpath. -/
theorem parse_of_isValid {subpath : String} (h : isValid identity = true)
    (hs : Specifier.IsSubpath subpath.toList) :
    Specifier.parse (identity ++ subpath) = ⟨identity, subpath⟩ := by
  have hne : identity.toList ≠ [] := by
    intro hn
    obtain ⟨c, hc, -⟩ := getLast?_of_isValid h
    rw [hn] at hc
    cases hc
  have hhead : (identity ++ subpath).toList.head? = identity.toList.head? := by
    obtain ⟨c, r, hc⟩ := List.exists_cons_of_ne_nil hne
    rw [String.toList_append, hc]
    rfl
  rw [Specifier.parse_eq_iff]
  refine ⟨(String.toList_append ..).symm, hs, ?_, ?_⟩
  · intro hplain
    rw [hhead] at hplain
    rcases slashes_of_isValid h with ⟨-, hslash⟩ | ⟨hscope, -⟩
    · exact hslash
    · exact absurd hscope hplain
  · intro hscope
    rw [hhead] at hscope
    rcases slashes_of_isValid h with ⟨hplain, -⟩ | ⟨-, hcount⟩
    · exact absurd hscope hplain
    · exact ⟨Nat.le_of_eq hcount, fun _ => hcount⟩

end Vendoring.Identity
