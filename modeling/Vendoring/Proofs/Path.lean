import Vendoring.Path
import Vendoring.Proofs.Text

/-! Where a path leads by its text alone. -/
namespace Vendoring.Path

variable {p q base : Path} {a b rel : String} {done ss rest : List String} {absolute : Bool}

/-- Some of the names between slashes. -/
def picked (keep : List Char → Bool) (text : String) : List String :=
  ((Text.segments text).filter keep).map String.ofList

/-- The names between slashes that count. -/
def names : String → List String := picked (!isIdle ·)

/-- The steps of a text: its dots count too. -/
def stepNames : String → List String := picked (· ≠ [])

/-- Goes one name on from the names in `done`, the last first: `..` takes back the name before it,
stays where there is none to take back, and is nothing at the root. -/
def follow (absolute : Bool) (done : List String) (name : String) : List String :=
  if name = ".." then
    match done with
    | [] => if absolute then [] else [".."]
    | d :: r => if d = ".." then ".." :: d :: r else r
  else name :: done

/-- The names that are left of a path without `.` and `..`, the last first. -/
def normal (p : Path) : Bool × List String :=
  (p.isAbsolute, p.segments.foldl (follow p.isAbsolute) [])

theorem mk_text (p : Path) : (⟨p.text⟩ : Path) = p := rfl

theorem segments_eq_names (p : Path) : p.segments = names p.text := by
  have hidle : isIdle [] = true := rfl
  have hdot : isIdle ['.'] = true := rfl
  have hs : ['.'].splitOn '/' = [['.']] := by decide
  have hslash (r : List Char) : ('/' :: r).splitOn '/' = [] :: r.splitOn '/' := by
    simp [List.splitOn_cons_eq_if_modifyHead]
  unfold segments backward names picked Text.segments cutLead
  rw [List.reverse_reverse]
  split
  · next r h => simp [h, hslash, hidle]
  · next h => simp [h, hs, List.splitOn_nil, hidle, hdot]
  · next r h =>
    have hlead : ('.' :: '/' :: r).splitOn '/' = ['.'] :: r.splitOn '/' :=
      (List.splitOn_append_cons_self ['.'] r).trans (by rw [hs]; rfl)
    simp [h, hlead, hslash, hidle, hdot]
  · rfl

theorem steps_eq_stepNames (p : Path) : p.steps = stepNames p.text := rfl

theorem up_mem_picked_iff {keep : List Char → Bool} {text : String} : ".." ∈ picked keep text ↔
    ['.', '.'] ∈ Text.segments text ∧ keep ['.', '.'] = true := by
  have hup (cs : List Char) : String.ofList cs = ".." ↔ cs = ['.', '.'] := by
    simp [← String.toList_inj]
  simp [picked, hup]

/-- A step up counts as a segment. -/
theorem up_mem_segments (h : ".." ∈ p.steps) : ".." ∈ p.segments := by
  rw [segments_eq_names]
  exact up_mem_picked_iff.2 ⟨(up_mem_picked_iff.1 h).1, by decide⟩

@[simp] theorem names_empty : names "" = [] := by decide

theorem picked_append_slash (keep : List Char → Bool) (a b : String) :
    picked keep (a ++ "/" ++ b) = picked keep a ++ picked keep b := by
  simp [picked, Text.segments_append_slash]

theorem names_append_slash (a b : String) : names (a ++ "/" ++ b) = names a ++ names b :=
  picked_append_slash _ a b

theorem names_slash (a : String) : names (a ++ "/") = names a := by
  have h := names_append_slash a ""
  rwa [String.append_empty, names_empty, List.append_nil] at h

theorem names_slash_append (a : String) : names ("/" ++ a) = names a := by
  have h := names_append_slash "" a
  rwa [String.empty_append, names_empty, List.nil_append] at h

/-- A dot in front of a slash leads nowhere. -/
theorem names_dotSlash_append (a : String) : names ("./" ++ a) = names a :=
  names_append_slash "." a

theorem not_up_mem_names (h : Text.climbs rel = false) : ".." ∉ names rel := by
  intro hup
  rw [← Bool.not_eq_true, Text.climbs_iff] at h
  exact h (up_mem_picked_iff.1 hup).1

/-- What is joined to a path stands behind a slash, unless it stands alone. -/
theorem join_cases (h : rel.toList.head? ≠ some '/') (base : Path) :
    (base.text = "" ∧ base.join rel = ⟨rel⟩) ∨
      ∃ front, base.join rel = ⟨front ++ "/" ++ rel⟩ ∧
        (base.text = front ∨ base.text = front ++ "/") := by
  rw [join, if_neg h]
  split
  · next hb =>
    simp only [Bool.or_eq_true, decide_eq_true_eq] at hb
    rcases hb with hb | hb
    · exact Or.inl ⟨hb, by simp [hb]⟩
    · obtain ⟨l, hl⟩ := List.getLast?_eq_some_iff.1 (of_decide_eq_true hb)
      have ht : base.text = String.ofList l ++ "/" := by
        apply String.toList_injective
        simp [hl]
      exact Or.inr ⟨String.ofList l, by rw [ht], Or.inr ht⟩
  · exact Or.inr ⟨base.text, rfl, Or.inl rfl⟩

theorem picked_join {keep : List Char → Bool} (hk : keep [] = false)
    (h : rel.toList.head? ≠ some '/') :
    picked keep (base.join rel).text = picked keep base.text ++ picked keep rel := by
  have hempty : picked keep "" = [] := by simp [picked, Text.segments, List.splitOn_nil, hk]
  rcases join_cases h base with ⟨hb, hj⟩ | ⟨front, hj, hb | hb⟩
  · rw [hj, hb, hempty, List.nil_append]
  · rw [hj, hb, picked_append_slash]
  · have hfront := picked_append_slash keep front ""
    rw [hempty, List.append_nil, String.append_empty] at hfront
    rw [hj, hb, hfront, picked_append_slash]

theorem segments_join (h : rel.toList.head? ≠ some '/') :
    (base.join rel).segments = base.segments ++ names rel := by
  rw [segments_eq_names, segments_eq_names]
  exact picked_join rfl h

theorem steps_join (h : rel.toList.head? ≠ some '/') :
    (base.join rel).steps = base.steps ++ stepNames rel := by
  rw [steps_eq_stepNames, steps_eq_stepNames]
  exact picked_join rfl h

theorem lastPiece_join (h : rel.toList.head? ≠ some '/') (base : Path) :
    Text.lastPiece '/' (base.join rel).text.toList = Text.lastPiece '/' rel.toList := by
  rcases join_cases h base with ⟨-, hj⟩ | ⟨front, hj, -⟩
  · rw [hj]
  · have ht : (front ++ "/" ++ rel).toList = front.toList ++ '/' :: rel.toList := by simp
    rw [hj, ht, Text.lastPiece_append_cons]

theorem join_append (h : a.toList.head? ≠ some '/') (hne : a ≠ "") (base : Path) (b : String) :
    base.join (a ++ b) = ⟨(base.join a).text ++ b⟩ := by
  have hl : a.toList ≠ [] := by simpa using hne
  obtain ⟨c, r, hc⟩ := List.exists_cons_of_ne_nil hl
  have hhead : (a ++ b).toList.head? = a.toList.head? := by simp [hc]
  rw [join, join, hhead, if_neg h, if_neg h]
  split <;> simp only [String.append_assoc]

theorem isAbsolute_join (h : rel.toList.head? ≠ some '/') :
    (base.join rel).isAbsolute = base.isAbsolute := by
  rw [join, if_neg h]
  by_cases hb : base.text = ""
  · simp [isAbsolute, hb, h]
  · have ht : base.text.toList ≠ [] := by simpa using hb
    obtain ⟨c, l, hl⟩ := List.exists_cons_of_ne_nil ht
    split <;> simp [isAbsolute, hl]

theorem isAbsolute_append (h : p.text ≠ "") (a : String) :
    (⟨p.text ++ a⟩ : Path).isAbsolute = p.isAbsolute := by
  have ht : p.text.toList ≠ [] := by simpa using h
  obtain ⟨c, l, hl⟩ := List.exists_cons_of_ne_nil ht
  simp [isAbsolute, hl]

/-- A segment of a path has no slash, and is the only name in its text. -/
theorem name_of_mem_segments {s : String} (h : s ∈ p.segments) :
    s ≠ "" ∧ '/' ∉ s.toList ∧ names s = [s] := by
  simp only [segments_eq_names, names, picked, Text.segments, List.mem_map, List.mem_filter] at h
  obtain ⟨cs, ⟨hm, hi⟩, rfl⟩ := h
  have hs := Text.not_mem_of_mem_splitOn hm
  refine ⟨?_, ?_, ?_⟩
  · rintro he
    have hn : cs = [] := by simpa using congrArg String.toList he
    simp [hn, isIdle] at hi
  · simpa using hs
  · simp [names, picked, Text.segments, List.splitOn_eq_singleton hs, hi]

theorem names_intercalate (hn : ss ≠ []) (h : ∀ s ∈ ss, names s = [s]) :
    names ("/".intercalate ss) = ss := by
  induction ss with
  | nil => exact absurd rfl hn
  | cons s r ih =>
    have hs := h s (List.mem_cons_self ..)
    by_cases hr : r = []
    · rw [hr, String.intercalate_singleton, hs]
    · rw [String.intercalate_cons_of_ne_nil hr, names_append_slash, hs,
        ih hr fun t ht => h t (List.mem_cons_of_mem _ ht)]
      rfl

theorem plainSegments?_eq_some (h : p.plainSegments? = some ss) :
    p.isAbsolute = false ∧ ".." ∉ p.segments ∧ p.segments = ss := by
  simp only [plainSegments?] at h
  split at h
  · cases h
  · next hc =>
    simp only [Bool.or_eq_true, not_or, List.contains_iff_mem, Bool.not_eq_true] at hc
    cases h
    exact ⟨hc.1, by simpa using hc.2, rfl⟩

theorem follow_name {s : String} (h : s ≠ "..") : follow absolute done s = s :: done := by
  simp [follow, h]

theorem follow_back {d : String} (h : d ≠ "..") : follow absolute (d :: done) ".." = done := by
  simp [follow, h]

theorem foldl_follow_plain (h : ".." ∉ ss) :
    ss.foldl (follow absolute) done = ss.reverse ++ done := by
  induction ss generalizing done with
  | nil => rfl
  | cons s r ih =>
    simp only [List.mem_cons, not_or] at h
    rw [List.foldl_cons, follow_name (Ne.symm h.1), ih h.2]
    simp

theorem foldl_follow_replicate (h : ".." ∉ ss) :
    (List.replicate ss.length "..").foldl (follow absolute) (ss ++ done) = done := by
  induction ss with
  | nil => rfl
  | cons s r ih =>
    simp only [List.mem_cons, not_or] at h
    rw [List.length_cons, List.replicate_succ, List.foldl_cons, List.cons_append,
      follow_back (Ne.symm h.1)]
    exact ih h.2

/-- As many `..` as there are names on a way take all of it back. -/
theorem foldl_follow_return (h : ".." ∉ ss) :
    (List.replicate ss.length "..").foldl (follow absolute) (ss.foldl (follow absolute) done) =
      done := by
  have hr : ".." ∉ ss.reverse := by simpa using h
  rw [foldl_follow_plain h, ← List.length_reverse, foldl_follow_replicate hr]

/-- A path that leads to where another one leads, or goes on from there by names. -/
def LiesIn (p q : Path) : Prop :=
  ∃ way, ".." ∉ way ∧ normal p = ((normal q).1, way ++ (normal q).2)

/-- What is joined to a path goes on, name by name, from where the path leads. -/
theorem normal_join_names (h : rel.toList.head? ≠ some '/') :
    normal (base.join rel) =
      ((normal base).1, (names rel).foldl (follow (normal base).1) (normal base).2) := by
  rw [normal, isAbsolute_join h, segments_join h, List.foldl_append]
  rfl

/-- A path without `..` goes on from where it starts. -/
theorem normal_join (h : rel.toList.head? ≠ some '/') (hup : ".." ∉ names rel) :
    normal (base.join rel) = ((normal base).1, (names rel).reverse ++ (normal base).2) := by
  rw [normal_join_names h, foldl_follow_plain hup]

theorem join_liesIn (h : rel.toList.head? ≠ some '/') (hup : ".." ∉ names rel) :
    (base.join rel).LiesIn base := by
  refine ⟨(names rel).reverse, ?_, normal_join h hup⟩
  simpa using hup

/-- A slash at the end of a path leads nowhere. -/
theorem normal_slash (h : p.text ≠ "") : normal ⟨p.text ++ "/"⟩ = normal p := by
  rw [normal, normal, isAbsolute_append h, segments_eq_names, segments_eq_names, names_slash]

/-- What goes on behind a slash may begin with further ones. -/
theorem slash_liesIn (hup : ".." ∉ names rel) :
    (⟨p.text ++ "/" ++ rel⟩ : Path).LiesIn ⟨p.text ++ "/"⟩ := by
  have hlead : (⟨p.text ++ "/" ++ rel⟩ : Path).isAbsolute = (⟨p.text ++ "/"⟩ : Path).isAbsolute :=
    isAbsolute_append (p := ⟨p.text ++ "/"⟩) (by simp) rel
  refine ⟨(names rel).reverse, by simpa using hup, ?_⟩
  rw [normal, normal, hlead, segments_eq_names, segments_eq_names, names_append_slash, names_slash,
    List.foldl_append, foldl_follow_plain hup]

theorem normal_join_ne (h : rel.toList.head? ≠ some '/') (hup : ".." ∉ names rel)
    (hne : names rel ≠ []) : normal (base.join rel) ≠ normal base := by
  intro he
  have hsame : (names rel).reverse ++ (normal base).2 = (normal base).2 := by
    simpa [normal_join h hup] using congrArg Prod.snd he
  simp [hne] at hsame

/-- Of two paths without `..` that start from one place, one lies in the other only if it begins
with its names. -/
theorem LiesIn.names_prefix {other : String} (h : rel.toList.head? ≠ some '/')
    (hup : ".." ∉ names rel) (h' : other.toList.head? ≠ some '/') (hup' : ".." ∉ names other)
    (hl : (base.join other).LiesIn (base.join rel)) : names rel <+: names other := by
  obtain ⟨way, -, he⟩ := hl
  rw [normal_join h hup, normal_join h' hup'] at he
  have hway : (names other).reverse = way ++ (names rel).reverse := by
    simpa [← List.append_assoc] using congrArg Prod.snd he
  exact ⟨way.reverse, by simpa using (congrArg List.reverse hway).symm⟩

/-! ## Starting from the root

At the root `..` stays where it is, so two ways of the same names can end in one place though they
start in two: from where one of them has come to the root, the other one is there too. -/

/-- Some way along these names everything in `done` has been taken back. -/
def ReachesTop (done ss : List String) : Prop :=
  ∃ front, front <+: ss ∧ front.foldl (follow true) done = []

theorem length_follow (h : ".." ∉ done) (name : String) : (follow true done name).length =
    if name = ".." then done.length - 1 else done.length + 1 := by
  unfold follow
  split
  · cases done with
    | nil => rfl
    | cons d r =>
      have hd : d ≠ ".." := by
        rintro rfl
        exact h (List.mem_cons_self ..)
      simp [hd]
  · rfl

theorem not_up_mem_follow (h : ".." ∉ done) (name : String) : ".." ∉ follow true done name := by
  unfold follow
  split
  · cases done with
    | nil => simp
    | cons d r =>
      simp only [List.mem_cons, not_or] at h
      simpa [Ne.symm h.1] using h.2
  · next hn => simpa [Ne.symm hn] using h

theorem not_up_mem_foldl_follow (h : ".." ∉ done) (ss : List String) :
    ".." ∉ ss.foldl (follow true) done := by
  induction ss generalizing done with
  | nil => exact h
  | cons s r ih => exact ih (not_up_mem_follow h s)

/-- From the root no path leads further up. -/
theorem not_up_mem_normal (h : p.isAbsolute = true) : ".." ∉ (normal p).2 := by
  rw [normal, h]
  exact not_up_mem_foldl_follow List.not_mem_nil _

theorem length_foldl_follow_le {done' : List String} (h : ".." ∉ done) (h' : ".." ∉ done')
    (hle : done.length ≤ done'.length) :
    (ss.foldl (follow true) done).length ≤ (ss.foldl (follow true) done').length := by
  induction ss generalizing done done' with
  | nil => exact hle
  | cons s r ih =>
    refine ih (not_up_mem_follow h s) (not_up_mem_follow h' s) ?_
    rw [length_follow h, length_follow h']
    split <;> omega

/-- What is deeper stays deeper until it comes to the root. -/
theorem length_foldl_follow_lt {done' : List String} (h : ".." ∉ done) (h' : ".." ∉ done')
    (hlt : done.length < done'.length) (htop : ¬ ReachesTop done' ss) :
    (ss.foldl (follow true) done).length < (ss.foldl (follow true) done').length := by
  induction ss generalizing done done' with
  | nil => exact hlt
  | cons s r ih =>
    have hrest : ¬ ReachesTop (follow true done' s) r := by
      rintro ⟨front, hf, he⟩
      exact htop ⟨s :: front, List.cons_prefix_cons.2 ⟨rfl, hf⟩, he⟩
    have hne : follow true done' s ≠ [] := by
      intro he
      exact hrest ⟨[], List.nil_prefix, he⟩
    have hpos := List.length_pos_iff.2 hne
    apply ih (not_up_mem_follow h s) (not_up_mem_follow h' s) _ hrest
    rw [length_follow h'] at hpos
    rw [length_follow h, length_follow h']
    split
    · next hs =>
      -- Some name is left to the deeper one, so it has two at least.
      rw [if_pos hs] at hpos
      omega
    · omega

/-- The same names lead from the root to where they lead from elsewhere only by way of the root. -/
theorem foldl_follow_top_iff (h : ".." ∉ done) :
    ss.foldl (follow true) [] = ss.foldl (follow true) done ↔ ReachesTop done ss := by
  constructor
  · intro he
    refine Classical.byContradiction fun htop => ?_
    have hpos : 0 < done.length := by
      rw [List.length_pos_iff]
      rintro rfl
      exact htop ⟨[], List.nil_prefix, rfl⟩
    have hlt := length_foldl_follow_lt List.not_mem_nil h hpos htop
    rw [he] at hlt
    exact absurd hlt (Nat.lt_irrefl _)
  · rintro ⟨front, ⟨back, rfl⟩, hf⟩
    have hle : (front.foldl (follow true) []).length ≤ (front.foldl (follow true) done).length :=
      length_foldl_follow_le List.not_mem_nil h (Nat.zero_le _)
    rw [hf] at hle
    rw [List.foldl_append, List.foldl_append, hf, List.eq_nil_of_length_eq_zero (Nat.le_zero.1 hle)]

theorem exists_top (h : rel.toList.head? = some '/') : ∃ rest, rel = "/" ++ rest := by
  obtain ⟨r, hr⟩ := List.head?_eq_some_iff.1 h
  refine ⟨String.ofList r, String.toList_injective ?_⟩
  simpa using hr

theorem join_top (base : Path) (rest : String) : base.join ("/" ++ rest) = ⟨"/" ++ rest⟩ := by
  rw [join, if_pos (by simp)]

theorem normal_top (rest : String) :
    normal ⟨"/" ++ rest⟩ = (true, (names rest).foldl (follow true) []) := by
  have habs : (⟨"/" ++ rest⟩ : Path).isAbsolute = true := by simp [isAbsolute]
  rw [normal, habs, segments_eq_names, names_slash_append]

theorem not_reachesTop (hd : done ≠ []) (h : ".." ∉ ss) : ¬ ReachesTop done ss := by
  rintro ⟨front, hf, he⟩
  rw [foldl_follow_plain fun hm => h (hf.subset hm)] at he
  exact hd (List.append_eq_nil_iff.1 he).2

end Vendoring.Path
