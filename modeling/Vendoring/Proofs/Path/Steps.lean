import Vendoring.Proofs.Path

/-! The steps that a walk takes for a path, for what stands below it and for its parents. -/
namespace Vendoring.Path

variable {p q base : Path} {rel name : String} {lead : List Char} {xs ys : List (List Char)}

/-- A single name is a single step. -/
theorem stepNames_name (hn : name ≠ "") (hs : '/' ∉ name.toList) : stepNames name = [name] := by
  have hl : name.toList ≠ [] := by simpa using hn
  simp [stepNames, picked, Text.segments, List.splitOn_eq_singleton hs, hl]

/-- The path with some segments behind a lead. -/
def ofSegments (lead : List Char) (xs : List (List Char)) : Path :=
  ofChars (lead ++ ['/'].intercalate xs)

/-- The steps that a lead asks for. -/
def leadSteps (lead : List Char) : List String := if lead = ['.'] then ["."] else []

/-- The segments that are steps. -/
def taken (xs : List (List Char)) : List String := (xs.filter (· ≠ [])).map String.ofList

theorem ofSegments_self (p : Path) : ofSegments p.lead p.backward.reverse = p := by
  have hcut (cs : List Char) : (cutLead cs).1 ++ (cutLead cs).2 = cs := by
    unfold cutLead
    split <;> rfl
  rw [ofSegments, lead, backward, List.reverse_reverse, List.intercalate_splitOn, hcut, ofChars,
    String.ofList_toList]

theorem taken_splitOn_intercalate (h : ∀ y ∈ ys, '/' ∉ y) :
    taken ((['/'].intercalate ys).splitOn '/') = taken ys := by
  by_cases hy : ys = []
  · simp [hy, taken]
  · rw [List.splitOn_intercalate '/' h hy]

theorem not_slash_mem_backward {s : List Char} (h : s ∈ p.backward.reverse) : '/' ∉ s := by
  rw [backward, List.reverse_reverse] at h
  exact Text.not_mem_of_mem_splitOn h

/-- The steps of a path that keeps the lead and some first segments of another. -/
theorem steps_ofSegments (h : ys <+: p.backward.reverse) :
    (ofSegments p.lead ys).steps = leadSteps p.lead ++ taken ys := by
  have hslash : ∀ y ∈ ys, '/' ∉ y := fun y hy => not_slash_mem_backward (h.subset hy)
  have hsteps (cs : List Char) : (ofChars cs).steps = taken (cs.splitOn '/') := by
    simp [steps, ofChars, taken]
  have hcons (cs : List Char) : ('/' :: cs).splitOn '/' = [] :: cs.splitOn '/' := by
    simp [List.splitOn_cons_eq_if_modifyHead]
  have hdot (cs : List Char) : ('.' :: '/' :: cs).splitOn '/' = ['.'] :: cs.splitOn '/' := by
    simp [List.splitOn_cons_eq_if_modifyHead]
  rw [ofSegments, hsteps]
  rw [backward, List.reverse_reverse] at h
  unfold lead cutLead at *
  split at h
  · simp only [List.cons_append, List.nil_append, hcons]
    exact taken_splitOn_intercalate hslash
  · rcases List.prefix_cons_iff.1 h with rfl | ⟨zs, rfl, hz⟩
    · decide
    · rw [List.prefix_nil.1 hz]
      decide
  · rw [hcons] at h
    rcases List.prefix_cons_iff.1 h with rfl | ⟨zs, rfl, hz⟩
    · dsimp only
      decide
    · by_cases hzs : zs = []
      · rw [hzs]
        dsimp only
        decide
      · have hi : ['/'].intercalate ([] :: zs) = '/' :: ['/'].intercalate zs := by
          simp [List.intercalate_cons_of_ne_nil hzs]
        have ht := taken_splitOn_intercalate fun z hz => hslash z (List.mem_cons_of_mem _ hz)
        rw [hi, List.singleton_append, hdot]
        simp only [taken, leadSteps] at ht ⊢
        simpa using ht
  · exact taken_splitOn_intercalate hslash

theorem steps_eq_taken (p : Path) : p.steps = leadSteps p.lead ++ taken p.backward.reverse := by
  have h := steps_ofSegments (p := p) (List.prefix_refl _)
  rwa [ofSegments_self] at h

theorem isAbsolute_iff_lead : p.isAbsolute = true ↔ p.lead = ['/'] := by
  unfold isAbsolute lead cutLead
  split
  · next h => simp [h]
  · next h => simp [h]
  · next h => simp [h]
  · next h _ _ =>
    simp only [decide_eq_true_eq, List.nil_eq, List.cons_ne_self, iff_false]
    intro hc
    obtain ⟨r, hr⟩ := List.head?_eq_some_iff.1 hc
    exact h r hr

theorem intercalate_mono {c : Char} (h : ys <+: xs) :
    [c].intercalate ys <+: [c].intercalate xs := by
  induction ys generalizing xs with
  | nil => exact List.nil_prefix
  | cons y ys ih =>
    obtain ⟨zs, rfl⟩ := h
    have hp : ys <+: ys ++ zs := List.prefix_append ys zs
    by_cases hy : ys = []
    · subst hy
      cases zs with
      | nil => exact List.prefix_refl _
      | cons z zs =>
        rw [List.cons_append, List.nil_append,
          List.intercalate_cons_of_ne_nil (List.cons_ne_nil z zs), List.append_assoc]
        simp
    · rw [List.cons_append, List.intercalate_cons_of_ne_nil hy,
        List.intercalate_cons_of_ne_nil (by simp [hy]), List.append_assoc, List.append_assoc]
      exact (List.prefix_append_right_inj _).2 ((List.prefix_append_right_inj _).2 (ih hp))

/-- A path that keeps the lead and some first segments of another is the beginning of its text. -/
theorem prefix_text_ofSegments (h : ys <+: p.backward.reverse) :
    (ofSegments p.lead ys).text.toList <+: p.text.toList := by
  have ht : p.text.toList = p.lead ++ ['/'].intercalate p.backward.reverse := by
    have he := congrArg (·.text.toList) (ofSegments_self p)
    simpa [ofSegments, ofChars] using he.symm
  rw [ht, ofSegments, ofChars, String.toList_ofList]
  exact (List.prefix_append_right_inj _).2 (intercalate_mono h)

/-- A path that keeps the lead and some first segments of another starts from the same place. -/
theorem isAbsolute_ofSegments (h : ys <+: p.backward.reverse)
    (hne : (ofSegments p.lead ys).text ≠ "") :
    (ofSegments p.lead ys).isAbsolute = p.isAbsolute := by
  have hl : (ofSegments p.lead ys).text.toList ≠ [] := by simpa using hne
  obtain ⟨c, l, hc⟩ := List.exists_cons_of_ne_nil hl
  obtain ⟨r, hr⟩ := prefix_text_ofSegments h
  simp [isAbsolute, ← hr, hc]

theorem mem_parentsFrom {bs : List (List Char)} (h : q ∈ parentsFrom lead bs) :
    (∃ r, r <:+ bs ∧ q = endingIn lead r) ∨ lead = ['.'] ∧ q.text = "" := by
  induction bs with
  | nil =>
    rw [parentsFrom] at h
    split at h
    · next hdot => exact Or.inr ⟨hdot, by simp [List.mem_singleton.1 h]⟩
    · cases h
  | cons s r ih =>
    have hs : r <:+ s :: r := List.suffix_cons s r
    rw [parentsFrom] at h
    split at h
    · exact (ih h).imp_left fun ⟨t, ht, hq⟩ => ⟨t, ht.trans hs, hq⟩
    · rcases List.mem_cons.1 h with rfl | h
      · exact Or.inl ⟨r, hs, rfl⟩
      · exact (ih h).imp_left fun ⟨t, ht, hq⟩ => ⟨t, ht.trans hs, hq⟩

theorem endingIn_eq (r : List (List Char)) :
    endingIn lead r = ofSegments lead (r.dropWhile isIdle).reverse := rfl

theorem prefix_dropWhile_reverse {r bs : List (List Char)} (h : r <:+ bs) :
    (r.dropWhile isIdle).reverse <+: bs.reverse :=
  List.reverse_prefix.2 ((List.dropWhile_suffix _).trans h)

/-- A path of first segments of another starts from the same place, also if none are left. -/
theorem isAbsolute_endingIn {r : List (List Char)} (h : r <:+ p.backward) :
    (endingIn p.lead r).isAbsolute = p.isAbsolute := by
  rw [endingIn_eq]
  by_cases hne : (ofSegments p.lead (r.dropWhile isIdle).reverse).text = ""
  · -- What starts at the root has its slash.
    have hrelative : p.isAbsolute = false := by
      rw [Bool.eq_false_iff]
      intro ha
      rw [ofSegments, isAbsolute_iff_lead.1 ha] at hne
      simp [ofChars] at hne
    rw [hrelative, isAbsolute, hne]
    rfl
  · exact isAbsolute_ofSegments (prefix_dropWhile_reverse h) hne

theorem not_isAbsolute_of_lead (h : p.lead = ['.']) : p.isAbsolute = false := by
  rw [Bool.eq_false_iff]
  intro ha
  rw [isAbsolute_iff_lead.1 ha] at h
  cases h

/-- A parent takes some first steps of the path, from the same place. -/
theorem steps_prefix_of_mem_ancestors (h : q ∈ p.ancestors) :
    q.steps <+: p.steps ∧ q.isAbsolute = p.isAbsolute := by
  rcases List.mem_cons.1 h with rfl | h
  · exact ⟨List.prefix_refl _, rfl⟩
  · rcases mem_parentsFrom h with ⟨r, hr, rfl⟩ | ⟨hdot, hq⟩
    · have hp := prefix_dropWhile_reverse hr
      refine ⟨?_, isAbsolute_endingIn hr⟩
      rw [endingIn_eq, steps_ofSegments hp, steps_eq_taken p]
      exact (List.prefix_append_right_inj _).2 ((hp.filter _).map _)
    · rw [not_isAbsolute_of_lead hdot, isAbsolute, steps_eq_stepNames, hq]
      exact ⟨List.nil_prefix, rfl⟩

/-- A parent is the beginning of the text of the path. -/
theorem text_prefix_of_mem_ancestors (h : q ∈ p.ancestors) : q.text.toList <+: p.text.toList := by
  rcases List.mem_cons.1 h with rfl | h
  · exact List.prefix_refl _
  · rcases mem_parentsFrom h with ⟨r, hr, rfl⟩ | ⟨-, hq⟩
    · exact prefix_text_ofSegments (prefix_dropWhile_reverse hr)
    · rw [hq]
      exact List.nil_prefix

theorem size_join (h : rel.toList.head? ≠ some '/') (base : Path) :
    base.text.utf8ByteSize + rel.utf8ByteSize ≤ (base.join rel).text.utf8ByteSize ∧
      (base.join rel).text.utf8ByteSize ≤ base.text.utf8ByteSize + 1 + rel.utf8ByteSize := by
  have hslash : "/".utf8ByteSize = 1 := rfl
  rw [join, if_neg h]
  split <;> simp only [String.utf8ByteSize_append, hslash] <;> omega

/-- A name gets no longer path from a parent than from the path itself. -/
theorem size_join_ancestor (h : q ∈ p.ancestors) (hr : rel.toList.head? ≠ some '/') :
    (q.join rel).text.utf8ByteSize ≤ (p.join rel).text.utf8ByteSize := by
  obtain ⟨more, hmore⟩ := text_prefix_of_mem_ancestors h
  have htext : p.text = q.text ++ String.ofList more := by
    apply String.toList_injective
    rw [String.toList_append, String.toList_ofList, hmore]
  cases more with
  | nil =>
    have hq : p = q := congrArg Path.mk (by simpa using htext)
    exact Nat.le_of_eq (by rw [hq])
  | cons c more =>
    have hpos : 0 < (String.ofList (c :: more)).utf8ByteSize := by
      rw [Nat.pos_iff_ne_zero, Ne, String.utf8ByteSize_eq_zero_iff]
      simp
    have hsize : p.text.utf8ByteSize =
        q.text.utf8ByteSize + (String.ofList (c :: more)).utf8ByteSize := by
      rw [htext, String.utf8ByteSize_append]
    have hq := (size_join hr q).2
    have hp := (size_join hr p).1
    omega

theorem taken_append (xs ys : List (List Char)) : taken (xs ++ ys) = taken xs ++ taken ys := by
  simp [taken]

/-- Idle segments at the end are dots. -/
theorem taken_reverse (bs : List (List Char)) :
    ∃ n, taken bs.reverse = taken (bs.dropWhile isIdle).reverse ++ List.replicate n "." := by
  refine ⟨(taken (bs.takeWhile isIdle).reverse).length, ?_⟩
  have hdots : ∀ s ∈ taken (bs.takeWhile isIdle).reverse, s = "." := by
    intro s hs
    obtain ⟨b, hb, rfl⟩ := List.mem_map.1 hs
    obtain ⟨hm, hne⟩ := List.mem_filter.1 hb
    have hi := List.all_eq_true.1 List.all_takeWhile b (List.mem_reverse.1 hm)
    simp only [isIdle, Bool.or_eq_true, decide_eq_true_eq] at hi hne
    rw [hi.resolve_left hne]
  rw [← List.eq_replicate_of_mem hdots, ← taken_append, ← List.reverse_append,
    List.takeWhile_append_dropWhile]

theorem parentsFrom_of_dropWhile {bs r : List (List Char)} {s : List Char}
    (h : bs.dropWhile isIdle = s :: r) :
    parentsFrom lead bs = endingIn lead r :: parentsFrom lead r := by
  induction bs with
  | nil => cases h
  | cons b bs ih =>
    rw [List.dropWhile_cons] at h
    rw [parentsFrom]
    split at h
    · next hb => rw [if_pos hb, ih h]
    · next hb =>
      cases h
      rw [if_neg hb]

/-- A path with a step that is no dot has a parent. -/
theorem parents_ne_nil (h : name ∈ p.steps) (hn : name ≠ ".") : p.parents ≠ [] := by
  rw [steps_eq_taken, List.mem_append] at h
  rcases h with h | h
  · rw [leadSteps] at h
    split at h
    · exact absurd (List.mem_singleton.1 h) hn
    · cases h
  · obtain ⟨s, hs, rfl⟩ := List.mem_map.1 h
    obtain ⟨hm, hne⟩ := List.mem_filter.1 hs
    have hidle : isIdle s = false := by
      simp only [isIdle, Bool.or_eq_false_iff, decide_eq_false_iff_not]
      refine ⟨by simpa using hne, ?_⟩
      rintro rfl
      exact hn rfl
    cases hd : p.backward.dropWhile isIdle with
    | nil =>
      have hall : p.backward.takeWhile isIdle = p.backward := by
        simpa [hd] using List.takeWhile_append_dropWhile (p := isIdle) (l := p.backward)
      have hs := List.all_eq_true.1 List.all_takeWhile s (hall.symm ▸ List.mem_reverse.1 hm)
      rw [hidle] at hs
      cases hs
    | cons b bs =>
      rw [parents, parentsFrom_of_dropWhile hd]
      exact List.cons_ne_nil _ _

/-- What a path is made of that ends in a name: the steps to the directory it stands in, and the
name, each with some dots behind it. -/
structure Standing (p : Path) (way : List String) (name : String) : Prop where
  steps : ∃ m n, p.steps = way ++ List.replicate m "." ++ name :: List.replicate n "."
  plain : name ≠ "." ∧ name ≠ ".."
  directory : p.directory.steps = way ∧ p.directory.isAbsolute = p.isAbsolute ∨
    p.directory = ⟨"."⟩ ∧ way = [] ∧ p.isAbsolute = false

theorem standing_of_fileName? (h : p.fileName? = some name) : ∃ way, Standing p way name := by
  unfold fileName? at h
  split at h
  · cases h
  · next s r hd =>
    split at h
    · cases h
    · next hs =>
      cases h
      have hsi : isIdle s = false := by
        have hne : p.backward.dropWhile isIdle ≠ [] := by simp [hd]
        have hh := List.head_dropWhile_not isIdle hne
        simpa [hd] using hh
      have hss : taken [s] = [String.ofList s] := by
        have hne : s ≠ [] := by
          rintro rfl
          cases hsi
        simp [taken, hne]
      have hq : endingIn p.lead r = ofSegments p.lead (r.dropWhile isIdle).reverse :=
        endingIn_eq r
      have hpre : (r.dropWhile isIdle).reverse <+: p.backward.reverse :=
        prefix_dropWhile_reverse ((List.suffix_cons s r).trans (hd ▸ List.dropWhile_suffix _))
      have hparent : p.parent? = some (endingIn p.lead r) := by
        rw [parent?, parents, parentsFrom_of_dropWhile hd, List.head?_cons]
      obtain ⟨n, hn⟩ := taken_reverse p.backward
      obtain ⟨m, hm⟩ := taken_reverse r
      refine ⟨(endingIn p.lead r).steps, ⟨m, n, ?_⟩, ?_, ?_⟩
      · rw [steps_eq_taken, hn, hd, List.reverse_cons, taken_append, hss, hm, hq,
          steps_ofSegments hpre]
        simp
      · constructor
        · intro he
          have hc : s = ['.'] := by simpa using congrArg String.toList he
          rw [hc] at hsi
          cases hsi
        · intro he
          exact hs (by simpa using congrArg String.toList he)
      · by_cases he : (endingIn p.lead r).text = ""
        · refine Or.inr ⟨by simp [directory, hparent, he], by rw [steps_eq_stepNames, he]; rfl, ?_⟩
          rw [Bool.eq_false_iff]
          intro ha
          rw [hq, ofSegments, isAbsolute_iff_lead.1 ha] at he
          simp [ofChars] at he
        · refine Or.inl ?_
          have hdir : p.directory = endingIn p.lead r := by simp [directory, hparent, he]
          rw [hdir]
          rw [hq] at he ⊢
          exact ⟨rfl, isAbsolute_ofSegments hpre he⟩

theorem getLast?_segments (p : Path) :
    p.segments.getLast? = (p.backward.dropWhile isIdle).head?.map String.ofList := by
  have hhead (bs : List (List Char)) :
      (bs.filter (!isIdle ·)).head? = (bs.dropWhile isIdle).head? := by
    induction bs with
    | nil => rfl
    | cons b bs ih => cases hb : isIdle b <;> simp [hb, ih]
  rw [segments, List.getLast?_map, List.filter_reverse, List.getLast?_reverse, hhead]

theorem fileName?_eq_some_iff :
    p.fileName? = some name ↔ p.segments.getLast? = some name ∧ name ≠ ".." := by
  rw [getLast?_segments, fileName?]
  cases hd : p.backward.dropWhile isIdle with
  | nil => simp
  | cons s r =>
    have hback : String.ofList s = ".." ↔ s = ['.', '.'] := by
      rw [← String.toList_inj, String.toList_ofList]
      rfl
    dsimp only [List.head?_cons, Option.map_some]
    by_cases hs : s = ['.', '.']
    · rw [if_pos hs, hback.2 hs]
      constructor
      · intro h
        cases h
      · rintro ⟨h, hn⟩
        cases h
        exact absurd rfl hn
    · rw [if_neg hs]
      simp only [Option.some.injEq, iff_self_and]
      rintro rfl he
      exact hs (hback.1 he)

/-- A name below a path is where the path of both stands. -/
theorem fileName?_join (hr : rel.toList.head? ≠ some '/')
    (h : (⟨rel⟩ : Path).fileName? = some name) : (base.join rel).fileName? = some name := by
  rw [fileName?_eq_some_iff, segments_eq_names] at h
  rw [fileName?_eq_some_iff, segments_join hr, List.getLast?_append, h.1]
  exact ⟨rfl, h.2⟩

/-- What stands behind a slash does not change the lead. -/
theorem cutLead_append {l : List Char} (h : l ≠ []) (r : List Char) :
    cutLead (l ++ '/' :: r) = ((cutLead l).1, (cutLead l).2 ++ '/' :: r) := by
  obtain ⟨c, l, rfl⟩ := List.exists_cons_of_ne_nil h
  by_cases hslash : c = '/'
  · rw [hslash]
    rfl
  by_cases hdot : c = '.'
  · rw [hdot]
    cases l with
    | nil => rfl
    | cons e l =>
      by_cases he : e = '/'
      · rw [he]
        rfl
      · simp [cutLead, he]
  · simp [cutLead, hslash, hdot]

theorem isIdle_iff {l : List Char} : isIdle l = true ↔ l = [] ∨ l = ['.'] := by
  rw [isIdle, Bool.or_eq_true, decide_eq_true_eq, decide_eq_true_eq]

/-- A slash or a dot at the end of a path counts neither for its name nor for its parents. -/
theorem tail_idle {tail : String} (h : p.text ≠ "") (ht : isIdle tail.toList = true) :
    fileName? ⟨p.text ++ "/" ++ tail⟩ = p.fileName? ∧
      parents ⟨p.text ++ "/" ++ tail⟩ = p.parents := by
  have hl : p.text.toList ≠ [] := by simpa using h
  have htext : (p.text ++ "/" ++ tail).toList = p.text.toList ++ '/' :: tail.toList := by simp
  have hlead : lead ⟨p.text ++ "/" ++ tail⟩ = p.lead := by
    rw [lead, htext, cutLead_append hl, lead]
  have hslash : '/' ∉ tail.toList := by
    rcases isIdle_iff.1 ht with ht | ht <;> simp [ht]
  have hback : backward ⟨p.text ++ "/" ++ tail⟩ = tail.toList :: p.backward := by
    rw [backward, htext, cutLead_append hl, List.splitOn_append_cons_self,
      List.splitOn_eq_singleton hslash, List.reverse_append, backward]
    rfl
  constructor
  · rw [fileName?, hback, List.dropWhile_cons_of_pos ht, fileName?]
  · rw [parents, hlead, hback, parentsFrom, if_pos ht, parents]

end Vendoring.Path
