import Mathlib.Data.List.Induction
import Vendoring.ExportMap.Relocation
import Vendoring.Proofs.ExportMap.Mapping
import Vendoring.Proofs.ExportMap.Pattern

/-! What a package exports from its copy. A star in the place of the copy counts as one of the
target, and a target is filled in only if it has one star. -/
namespace Vendoring.ExportMap
open Outcome

variable {root target target' wanted subpath : String} {active : List String}
  {m m' : ExportMap}

/-- A place without the slashes at its end. -/
def trimmed (root : String) : String := String.ofList (Text.dropTrailing '/' root.toList)

theorem trimmed_append {a : String} (h : a.toList.getLast? ≠ some '/') (b : String) :
    trimmed (a ++ b) = a ++ trimmed b := by
  apply String.toList_injective
  simp [trimmed, Text.dropTrailing_append h]

/-- What a slash at the end does not change is the same without all of them. -/
theorem apply_trimmed {α : Type} {f : String → α} (h : ∀ a, f (a ++ "/") = f a) (root : String) :
    f (trimmed root) = f root := by
  obtain ⟨l, rfl⟩ : ∃ l, root = String.ofList l := ⟨root.toList, by simp⟩
  -- From the end: one slash more is dropped, or there is none to drop.
  induction l using List.reverseRecOn with
  | nil => rfl
  | append_singleton front c ih =>
    by_cases hc : c = '/'
    · have hdrop : trimmed (String.ofList (front ++ [c])) = trimmed (String.ofList front) := by
        simp [trimmed, Text.dropTrailing_concat, hc]
      have htext : String.ofList (front ++ [c]) = String.ofList front ++ "/" := by
        apply String.toList_injective
        simp [hc]
      rw [hdrop, ih, htext, h]
    · have hkeep : trimmed (String.ofList (front ++ [c])) = String.ofList (front ++ [c]) := by
        simp [trimmed, Text.dropTrailing_concat, hc]
      rw [hkeep]

/-- The same key and conditions, with the target of the package in its copy. -/
def Hit.Moved (root : String) (h h' : Hit) : Prop :=
  h'.key = h.key ∧ h'.conditions = h.conditions ∧
    ∃ rest, h.target = "./" ++ rest ∧ h'.target = root ++ "/" ++ rest

/-- The candidate that a lookup of patterns goes on with, and where its node leads. -/
def patternChoice? (m : ExportMap) (wanted : String) (active : List String) :
    Option (Candidate × Selection) := do
  let c ← best? (m.entries.filterMap (candidate? wanted))
  let s ← c.node.select? active
  return (c, s)

/-- The target with a star to fill in, if no key decides alone. -/
def template? (m : ExportMap) (subpath : String) (active : List String) : Option String :=
  let wanted := Specifier.exportKeyOf subpath
  match m.get? wanted with
  | some _ => none
  | none => (m.patternChoice? wanted active).map (·.2.target)

theorem findPattern?_eq_bind :
    m.findPattern? wanted active = (m.patternChoice? wanted active).bind fun c =>
      (Pattern.ofText? c.2.target).map fun p => ⟨c.1.key, c.2.conditions, p.fill c.1.star⟩ := by
  simp only [findPattern?, patternChoice?]
  cases best? (m.entries.filterMap (candidate? wanted)) with
  | none => rfl
  | some c =>
    simp only [bind, Option.bind]
    cases c.node.select? active with
    | none => rfl
    | some s =>
      dsimp only [pure]
      cases Pattern.ofText? s.target <;> rfl

theorem inside?_eq_some_iff {rest : List Char} : inside? target = some rest ↔
    target = "./" ++ String.ofList rest ∧ Text.climbs (String.ofList rest) = false := by
  have htext : ['.', '/'] ++ rest = target.toList ↔ target = "./" ++ String.ofList rest := by
    simp [← String.toList_inj, eq_comm]
  rw [inside?]
  cases ha : Text.after? ['.', '/'] target.toList with
  | none =>
    have hlead : target ≠ "./" ++ String.ofList rest := by
      intro he
      rw [Text.after?_eq_some_iff.2 (htext.2 he)] at ha
      cases ha
    simp [hlead]
  | some r =>
    have hr := Text.after?_eq_some_iff.1 ha
    rw [← htext, ← hr, List.append_cancel_left_eq]
    constructor
    · intro h
      obtain ⟨hc, h⟩ := Option.ite_none_left_eq_some.1 h
      cases h
      exact ⟨rfl, by simpa using hc⟩
    · rintro ⟨rfl, hc⟩
      simp [hc]

theorem below_eq (root : String) (rest : List Char) :
    below root rest = trimmed root ++ "/" ++ String.ofList rest := by
  apply String.toList_injective
  simp [below, trimmed]

theorem relocateTarget_eq_ok_iff : relocateTarget root target = .ok target' ↔
    ∃ rest, target = "./" ++ rest ∧ Text.climbs rest = false ∧
      target' = trimmed root ++ "/" ++ rest := by
  constructor
  · intro h
    simp only [relocateTarget] at h
    split at h
    · next rest hi =>
      obtain ⟨ht, hc⟩ := inside?_eq_some_iff.1 hi
      cases h
      exact ⟨_, ht, hc, below_eq root rest⟩
    · cases h
  · rintro ⟨rest, rfl, hc, rfl⟩
    have hi : inside? ("./" ++ rest) = some rest.toList := inside?_eq_some_iff.2 (by simpa using hc)
    rw [relocateTarget, hi]
    simp [below_eq]

theorem relocateTarget_eq_ok (hr : Text.dropTrailing '/' root.toList = root.toList)
    (h : relocateTarget root target = .ok target') :
    ∃ rest, target = "./" ++ rest ∧ Text.climbs rest = false ∧ target' = root ++ "/" ++ rest := by
  obtain ⟨rest, ht, hc, ht'⟩ := relocateTarget_eq_ok_iff.1 h
  rw [trimmed, hr, String.ofList_toList] at ht'
  exact ⟨rest, ht, hc, ht'⟩

/-- Filling in a moved template moves what filling in the template gives, where both have a star to
fill in or neither has. -/
theorem ofText?_moved_iff {rest : String} {key star : String} {conditions : List String} :
    Option.Rel (Hit.Moved root)
        ((Pattern.ofText? ("./" ++ rest)).map fun p => ⟨key, conditions, p.fill star⟩)
        ((Pattern.ofText? (root ++ "/" ++ rest)).map fun p => ⟨key, conditions, p.fill star⟩) ↔
      (stars ("./" ++ rest) = 1 ↔ stars root + stars ("./" ++ rest) = 1) := by
  have hdot : stars "./" = 0 := by decide
  have hslash : stars "/" = 0 := by decide
  have hstars : stars (root ++ "/" ++ rest) = stars root + stars ("./" ++ rest) := by
    simp [hdot, hslash]
  constructor
  · intro h
    rw [← hstars, ← Pattern.ofText?_isSome_iff, ← Pattern.ofText?_isSome_iff]
    cases hx : Pattern.ofText? ("./" ++ rest) <;>
      cases hy : Pattern.ofText? (root ++ "/" ++ rest) <;> simp_all
  · intro h
    by_cases hs : stars ("./" ++ rest) = 1
    · have hroot : stars (root ++ "/") = 0 := by
        rw [stars_append, hslash]
        have := h.1 hs
        omega
      rw [Pattern.ofText?_append hdot, Pattern.ofText?_append hroot]
      cases Pattern.ofText? rest with
      | none => exact .none
      | some p => exact .some ⟨rfl, rfl, p.fill star, by simp, by simp⟩
    · have hs' : stars (root ++ "/" ++ rest) ≠ 1 := fun he => hs (h.2 (hstars ▸ he))
      rw [Pattern.ofText?_eq_none_iff.2 hs, Pattern.ofText?_eq_none_iff.2 hs']
      exact .none

theorem patternChoice?_mapped {ε : Type} {f : String → Except ε String}
    (h : m.mapTargets f = .ok m') :
    Option.Rel (fun c c' => CandidateMapped f c.1 c'.1 ∧ SelectionMapped f c.2 c'.2)
      (m.patternChoice? wanted active) (m'.patternChoice? wanted active) :=
  rel_bind (best?_mapped (candidates_mapped wanted (mapTargets_eq_ok h))) fun _ _ hc =>
    rel_bind (select?_mapped hc.2.2) fun _ _ hs => .some ⟨hc, hs⟩

theorem findPattern?_relocate_iff (hr : Text.dropTrailing '/' root.toList = root.toList)
    (h : m.relocate root = .ok m') :
    Option.Rel (Hit.Moved root) (m.findPattern? wanted active) (m'.findPattern? wanted active) ↔
      ∀ c, m.patternChoice? wanted active = some c →
        (stars c.2.target = 1 ↔ stars root + stars c.2.target = 1) := by
  rw [findPattern?_eq_bind, findPattern?_eq_bind]
  have hc : Option.Rel _ (m.patternChoice? wanted active) (m'.patternChoice? wanted active) :=
    patternChoice?_mapped h
  cases hx : m.patternChoice? wanted active <;>
    cases hy : m'.patternChoice? wanted active <;> rw [hx, hy] at hc
  · simp
  · cases hc
  · cases hc
  · next c c' =>
    cases hc with
    | some hc =>
      obtain ⟨⟨hk, hs, -⟩, hcond, ht⟩ := hc
      obtain ⟨rest, hrest, -, hrest'⟩ := relocateTarget_eq_ok hr ht
      simp only [Option.bind_some, Option.some.injEq, forall_eq', hk, hs, hcond, hrest, hrest']
      exact ofText?_moved_iff

/-- The copy exports what the package exports, unless its place turns a template with one star into
one with more, or one without a star into a template. -/
theorem find?_relocate_iff (hr : Text.dropTrailing '/' root.toList = root.toList)
    (h : m.relocate root = .ok m') :
    Option.Rel (Hit.Moved root) (m.find? subpath active) (m'.find? subpath active) ↔
      ∀ t, m.template? subpath active = some t → (stars t = 1 ↔ stars root + stars t = 1) := by
  have hg := get?_mapped (mapTargets_eq_ok h) (Specifier.exportKeyOf subpath)
  simp only [find?, template?, get?]
  cases hx : m.entries.get? (Specifier.exportKeyOf subpath) <;>
    cases hy : m'.entries.get? (Specifier.exportKeyOf subpath) <;> rw [hx, hy] at hg
  · rw [findPattern?_relocate_iff hr h]
    simp only [Option.map_eq_some_iff, forall_exists_index, and_imp, forall_apply_eq_imp_iff₂]
  · cases hg
  · cases hg
  · next n n' =>
    cases hg with
    | some hn =>
      simp only [reduceCtorEq, false_implies, implies_true, iff_true]
      refine rel_map (select?_mapped hn) fun _ _ hs => ?_
      obtain ⟨rest, hrest, -, hrest'⟩ := relocateTarget_eq_ok hr hs.2
      exact ⟨rfl, hs.1, rest, hrest, hrest'⟩

end Vendoring.ExportMap
