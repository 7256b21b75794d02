import Mathlib.Data.List.Pairwise
import Vendoring.Dependencies
import Vendoring.Proofs.Keyed
import Vendoring.Proofs.Outcome

/-! Dependencies of several packages put together. The set keeps the first range of a name and
checks the later ones against it, so it tells what all packages so far agree on, in whatever order
they came. -/
namespace Vendoring.Dependencies
open Outcome

variable {s s' : Dependencies} {package name : String} {declared before : List (String × String)}
  {packages packages' : List (String × List (String × String))}

/-- The range that is recorded for a name. -/
def range? (s : Dependencies) (name : String) : Option String := (s.get? name).map (·.range)

/-- Adds what several packages declare, in their order and up to the first conflict. -/
def mergeAll (s : Dependencies) : List (String × List (String × String)) →
    Except Conflict Dependencies
  | [] => .ok s
  | (package, declared) :: r => do mergeAll (← s.merge package declared) r

/-- Two lists of declarations give no name different ranges. -/
def Compatible (declared declared' : List (String × String)) : Prop :=
  ∀ d ∈ declared, ∀ d' ∈ declared', d.1 = d'.1 → d.2 = d'.2

instance (declared declared' : List (String × String)) : Decidable (Compatible declared declared') :=
  inferInstanceAs (Decidable (∀ d ∈ declared, ∀ d' ∈ declared', d.1 = d'.1 → d.2 = d'.2))

/-- The set has the ranges that were declared so far, and no others. -/
def Tells (s : Dependencies) (before : List (String × String)) : Prop :=
  ∀ name range, s.range? name = some range ↔ (name, range) ∈ before

theorem keys_ranges (s : Dependencies) : Keyed.keys s.ranges = s.entries.keys := by
  simp [Keyed.keys, Dependencies.ranges]

theorem get?_ranges (s : Dependencies) (name : String) :
    Keyed.get? s.ranges name = s.range? name :=
  Keyed.get?_map (fun _ (d : Dependency) => d.range) s.entries name

theorem get?_declare (s : Dependencies) (package : String) (d : String × String) (name : String) :
    (s.declare package d).get? name =
      (s.get? name).or (if d.1 = name then some ⟨d.2, package⟩ else none) := by
  rw [declare]
  split
  · next first hf =>
    by_cases hn : d.1 = name
    · rw [← hn, hf, Option.some_or]
    · rw [if_neg hn, Option.or_none]
  · rw [get?, get?, Keyed.get?_append]
    rfl

/-- Of several ranges for a name, the first one stays. -/
theorem get?_foldl_declare : (declared.foldl (·.declare package ·) s).get? name =
    (s.get? name).or ((Keyed.get? declared name).map (⟨·, package⟩)) := by
  induction declared generalizing s with
  | nil => rw [List.foldl_nil, Keyed.get?_nil, Option.map_none, Option.or_none]
  | cons d r ih =>
    rw [List.foldl_cons, ih, get?_declare, Option.or_assoc, Keyed.get?]
    split <;> rfl

theorem conflict?_eq_none_iff {d : String × String} : s.conflict? package d = none ↔
    ∀ range, s.range? d.1 = some range → range = d.2 := by
  rw [conflict?, range?]
  cases s.get? d.1 with
  | none => simp
  | some first => simp

/-- A merge works if it finds nothing against it in the set; what the package declares about itself
is not compared. -/
theorem merge_eq_ok : s.merge package declared = .ok s' ↔
    (∀ d ∈ declared, ∀ range, s.range? d.1 = some range → range = d.2) ∧
      s' = declared.foldl (·.declare package ·) s := by
  rw [merge]
  split
  · next c hc =>
    obtain ⟨d, hd, he⟩ := List.exists_of_findSome?_eq_some hc
    constructor
    · intro h
      cases h
    · rintro ⟨h, -⟩
      rw [conflict?_eq_none_iff.2 (h d hd)] at he
      cases he
  · next hc =>
    have hall : ∀ d ∈ declared, ∀ range, s.range? d.1 = some range → range = d.2 := by
      intro d hd
      exact conflict?_eq_none_iff.1 (List.findSome?_eq_none_iff.1 hc d hd)
    rw [Except.ok.injEq, and_iff_right hall, eq_comm]

theorem range?_merge (h : s.merge package declared = .ok s') :
    s'.range? name = (s.range? name).or (Keyed.get? declared name) := by
  obtain ⟨-, rfl⟩ := merge_eq_ok.1 h
  rw [range?, get?_foldl_declare, range?]
  cases s.get? name <;> cases Keyed.get? declared name <;> rfl

theorem Compatible.symm (h : Compatible before declared) : Compatible declared before := by
  intro d hd e he hn
  exact (h e he d hd hn.symm).symm

theorem compatible_append_left {a b : List (String × String)} :
    Compatible (a ++ b) declared ↔ Compatible a declared ∧ Compatible b declared :=
  List.forall_mem_append

theorem compatible_append_right {a b : List (String × String)} :
    Compatible before (a ++ b) ↔ Compatible before a ∧ Compatible before b := by
  constructor
  · intro h
    exact (compatible_append_left.1 h.symm).imp Compatible.symm Compatible.symm
  · rintro ⟨ha, hb⟩
    exact (compatible_append_left.2 ⟨ha.symm, hb.symm⟩).symm

theorem compatible_flatMap : Compatible before (packages.flatMap (·.2)) ↔
    ∀ p ∈ packages, Compatible before p.2 := by
  constructor
  · intro h p hp d hd e he
    exact h d hd e (List.mem_flatMap.2 ⟨p, hp, he⟩)
  · intro h d hd e he
    obtain ⟨p, hp, he⟩ := List.mem_flatMap.1 he
    exact h p hp d hd e he

/-! ## One package -/

/-- The check against the set is a check against all that was declared before. -/
theorem exists_merge_iff (ht : s.Tells before) :
    (∃ s', s.merge package declared = .ok s') ↔ Compatible before declared := by
  constructor
  · rintro ⟨s', h⟩ e he d hd hn
    obtain ⟨hall, -⟩ := merge_eq_ok.1 h
    apply hall d hd
    rw [ht, ← hn]
    exact he
  · intro hc
    refine ⟨_, merge_eq_ok.2 ⟨?_, rfl⟩⟩
    intro d hd range hr
    exact hc (d.1, range) ((ht d.1 range).1 hr) d hd rfl

theorem Tells.merge (ht : s.Tells before) (hn : (Keyed.keys declared).Nodup)
    (h : s.merge package declared = .ok s') : s'.Tells (before ++ declared) := by
  have hc : Compatible before declared := (exists_merge_iff ht).1 ⟨s', h⟩
  intro name range
  rw [range?_merge h, List.mem_append]
  constructor
  · intro hr
    rcases Option.or_eq_some_iff.1 hr with hr | ⟨-, hr⟩
    · exact Or.inl ((ht name range).1 hr)
    · exact Or.inr (Keyed.mem_of_get? hr)
  · rintro (hr | hr)
    · rw [(ht name range).2 hr, Option.some_or]
    · -- A range that is there already stays, and it is the one declared now.
      cases hs : s.range? name with
      | none => rw [Option.none_or, Keyed.get?_of_mem hn hr]
      | some first =>
        have hf : (name, first) ∈ before := (ht name first).1 hs
        have he : first = range := hc _ hf _ hr rfl
        rw [Option.some_or, he]

/-! ## All packages -/

theorem tells_empty : empty.Tells [] := by
  intro name range
  simp [range?, get?, empty]

section Run
variable (hn : ∀ p ∈ packages, (Keyed.keys p.2).Nodup)
include hn

/-- Packages can be merged if and only if they agree, with each other and with all before. -/
theorem exists_mergeAll_iff (ht : s.Tells before) : (∃ s', s.mergeAll packages = .ok s') ↔
    Compatible before (packages.flatMap (·.2)) ∧
      packages.Pairwise fun p q => Compatible p.2 q.2 := by
  induction packages generalizing s before with
  | nil =>
    constructor
    · intro _
      exact ⟨fun _ _ _ hm => absurd hm List.not_mem_nil, List.Pairwise.nil⟩
    · intro _
      exact ⟨s, rfl⟩
  | cons p r ih =>
    obtain ⟨package, declared⟩ := p
    obtain ⟨hp, hr⟩ := List.forall_mem_cons.1 hn
    -- For the rest, `declared` is among what was there before.
    rw [List.flatMap_cons, compatible_append_right, List.pairwise_cons, ← compatible_flatMap]
    constructor
    · rintro ⟨s', h⟩
      obtain ⟨t, hm, h⟩ := bind_eq_ok.1 h
      have hfirst : Compatible before declared := (exists_merge_iff ht).1 ⟨t, hm⟩
      obtain ⟨hrest, hpairs⟩ := (ih hr (ht.merge hp hm)).1 ⟨s', h⟩
      obtain ⟨hbefore, hdeclared⟩ := compatible_append_left.1 hrest
      exact ⟨⟨hfirst, hbefore⟩, hdeclared, hpairs⟩
    · rintro ⟨⟨hfirst, hbefore⟩, hdeclared, hpairs⟩
      obtain ⟨t, hm⟩ : ∃ t, s.merge package declared = .ok t := (exists_merge_iff ht).2 hfirst
      have hrest := compatible_append_left.2 ⟨hbefore, hdeclared⟩
      obtain ⟨s', h⟩ := (ih hr (ht.merge hp hm)).2 ⟨hrest, hpairs⟩
      exact ⟨s', bind_eq_ok.2 ⟨t, hm, h⟩⟩

theorem Tells.mergeAll (ht : s.Tells before) (h : s.mergeAll packages = .ok s') :
    s'.Tells (before ++ packages.flatMap (·.2)) := by
  induction packages generalizing s before with
  | nil =>
    cases h
    rwa [List.flatMap_nil, List.append_nil]
  | cons p r ih =>
    obtain ⟨package, declared⟩ := p
    obtain ⟨hp, hr⟩ := List.forall_mem_cons.1 hn
    obtain ⟨t, hm, h⟩ := bind_eq_ok.1 h
    rw [List.flatMap_cons, ← List.append_assoc]
    exact ih hr (ht.merge hp hm) h

/-- A set that starts empty can take packages up if no two of them disagree. -/
theorem exists_mergeAll_empty_iff : (∃ s, empty.mergeAll packages = .ok s) ↔
    packages.Pairwise fun p q => Compatible p.2 q.2 := by
  rw [exists_mergeAll_iff hn tells_empty]
  apply and_iff_right
  intro d hd
  cases hd

theorem range?_mergeAll_empty (h : empty.mergeAll packages = .ok s) (name range : String) :
    s.range? name = some range ↔ ∃ p ∈ packages, (name, range) ∈ p.2 := by
  rw [tells_empty.mergeAll hn h, List.nil_append, List.mem_flatMap]

end Run

/-- The order of the packages decides neither whether they can be merged nor what ranges come out:
they can if no two of them give a name different ranges, and each name gets the range that it is
given. -/
theorem mergeAll_perm (hn : ∀ p ∈ packages, (p.2.map (·.1)).Nodup)
    (hp : packages.Perm packages') :
    ((∃ s, empty.mergeAll packages = .ok s) ↔ ∃ s', empty.mergeAll packages' = .ok s') ∧
    ((∃ s, empty.mergeAll packages = .ok s) ↔
      packages.Pairwise fun p q => Compatible p.2 q.2) ∧
    ∀ s s', empty.mergeAll packages = .ok s → empty.mergeAll packages' = .ok s' →
      (∀ name, s'.range? name = s.range? name) ∧
      ∀ name range, s.range? name = some range ↔ ∃ p ∈ packages, (name, range) ∈ p.2 := by
  have hn' : ∀ p ∈ packages', (Keyed.keys p.2).Nodup := by
    intro p hm
    exact hn p (hp.mem_iff.2 hm)
  refine ⟨?_, exists_mergeAll_empty_iff hn, ?_⟩
  · rw [exists_mergeAll_empty_iff hn, exists_mergeAll_empty_iff hn']
    exact hp.pairwise_iff Compatible.symm
  · intro s s' hs hs'
    have ht := range?_mergeAll_empty hn hs
    refine ⟨?_, ht⟩
    intro name
    apply Option.ext
    intro range
    rw [ht, range?_mergeAll_empty hn' hs']
    simp only [hp.mem_iff]

/-- Three packages around one dependency. -/
def sharing : List (String × List (String × String)) :=
  [("a", [("x", "1.0.0"), ("y", "^2.0.0")]), ("b", [("y", "^2.0.0"), ("z", "3.0.0")]),
    ("c", [("z", "3.0.0"), ("x", "1.0.0")])]

theorem mergeAll_perm_sharing : (∃ s, empty.mergeAll sharing = .ok s) ∧
    ∃ s', empty.mergeAll sharing.reverse = .ok s' ∧ s'.range? "x" = some "1.0.0" := by
  have hnames : ∀ p ∈ sharing, (p.2.map (·.1)).Nodup := by decide
  obtain ⟨hiff, hpairs, hranges⟩ := mergeAll_perm hnames (List.reverse_perm sharing).symm
  obtain ⟨s, hs⟩ := hpairs.2 (by decide)
  obtain ⟨s', hs'⟩ := hiff.1 ⟨s, hs⟩
  obtain ⟨hsame, htold⟩ := hranges s s' hs hs'
  refine ⟨⟨s, hs⟩, s', hs', ?_⟩
  rw [hsame, htold]
  exact ⟨_, List.mem_cons_self .., List.mem_cons_self ..⟩

end Vendoring.Dependencies
