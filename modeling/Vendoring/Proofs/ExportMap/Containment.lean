import Vendoring.Build.Plan
import Vendoring.Proofs.ExportMap.Relocation
import Vendoring.Proofs.Path

/-! A copy can export nothing from outside of its place. A map is moved as a whole or not at all,
and a moved map has the shape that it had. -/
namespace Vendoring.ExportMap
open Outcome

variable {ε : Type} {f : String → Except ε String} {identity root rest target : String}
  {m m' : ExportMap}

/-- A target that names a path inside the package. -/
def Inside (target : String) : Prop :=
  ∃ rest, target = "./" ++ rest ∧ Text.climbs rest = false

mutual

/-- The keys of a node, as they are nested, over blank targets. -/
def Node.outline : Node → Node
  | .target _ => .target ""
  | .choice branches => .choice (outlineOf branches)

def outlineOf : List (String × Node) → List (String × Node)
  | [] => []
  | (key, n) :: r => (key, n.outline) :: outlineOf r

end

/-- The keys of a map, as they are nested, over blank targets. -/
def outline (m : ExportMap) : ExportMap := ⟨outlineOf m.entries⟩

/-- A map whose targets are in the copy at `root`, and nothing else is changed. -/
structure MovedTo (root : String) (m m' : ExportMap) : Prop where
  shape : m'.outline = m.outline
  targets : List.Forall₂ (fun t t' => ∃ rest, t = "./" ++ rest ∧ Text.climbs rest = false ∧
    t' = trimmed root ++ "/" ++ rest) m.targets m'.targets
  within : root ≠ "" → ∀ t ∈ m'.targets, (⟨t⟩ : Path).LiesIn ⟨root⟩
  /-- Behind an empty path the slash makes the targets absolute. -/
  atTop : root = "" → ∀ t ∈ m'.targets, (⟨t⟩ : Path).LiesIn ⟨"/"⟩

/-- The fault names the first target that is not inside of the package. -/
def RefusedWith (identity : String) (m : ExportMap) (fault : BuildFault) : Prop :=
  ∃ before target after, m.targets = before ++ target :: after ∧ (∀ t ∈ before, Inside t) ∧
    ¬ Inside target ∧ fault = .exportTargetInvalid identity target ∧
    fault.code = "VEND_EXPORT_TARGET_INVALID"

theorem relocateTarget_isOk_iff (root : String) :
    (∃ t', relocateTarget root target = .ok t') ↔ Inside target := by
  simp only [relocateTarget_eq_ok_iff]
  constructor
  · rintro ⟨_, rest, ht, hc, -⟩
    exact ⟨rest, ht, hc⟩
  · rintro ⟨rest, ht, hc⟩
    exact ⟨_, rest, ht, hc, rfl⟩

theorem relocateTarget_eq_error {e : String} (h : relocateTarget root target = .error e) :
    e = target ∧ ¬ Inside target := by
  constructor
  · rw [relocateTarget] at h
    split at h <;> cases h
    rfl
  · rw [← relocateTarget_isOk_iff root, h]
    simp

/-! ## The shape -/

mutual

theorem outline_mapped :
    ∀ {n n' : Node}, n.mapTargets f = .ok n' → n'.outline = n.outline
  | .target _, _, h => by
    obtain ⟨t', -, rfl⟩ := mapTargets_target_eq_ok h
    rfl
  | .choice bs, _, h => by
    obtain ⟨bs', hb, rfl⟩ := mapTargets_choice_eq_ok h
    rw [Node.outline, Node.outline, outlineOf_mapped hb]

theorem outlineOf_mapped :
    ∀ {bs bs' : List (String × Node)}, mapTargetsOf f bs = .ok bs' → outlineOf bs' = outlineOf bs
  | [], _, h => by
    cases mapTargetsOf_eq_ok h
    rfl
  | (k, n) :: r, _, h => by
    simp only [mapTargetsOf, bind_eq_ok, pure_eq_ok] at h
    obtain ⟨n', hn, r', hr, rfl⟩ := h
    rw [outlineOf, outlineOf, outline_mapped hn, outlineOf_mapped hr]

end

theorem map_outline_mapped (h : m.mapTargets f = .ok m') : m'.outline = m.outline := by
  simp only [mapTargets, bind_eq_ok, pure_eq_ok] at h
  obtain ⟨es, he, rfl⟩ := h
  rw [outline, outline, outlineOf_mapped he]

/-! ## The place -/

/-- Where a place starts and what its names are is not lost with the slashes at its end. -/
theorem normal_trimmed (root : String) :
    Path.normal ⟨trimmed root ++ "/"⟩ = Path.normal ⟨root ++ "/"⟩ :=
  apply_trimmed (f := fun a => Path.normal ⟨a ++ "/"⟩)
    (fun a => Path.normal_slash (p := ⟨a ++ "/"⟩) (by simp)) root

theorem liesIn_slash (hc : Text.climbs rest = false) :
    (⟨trimmed root ++ "/" ++ rest⟩ : Path).LiesIn ⟨root ++ "/"⟩ := by
  have hl : (⟨trimmed root ++ "/" ++ rest⟩ : Path).LiesIn ⟨trimmed root ++ "/"⟩ :=
    Path.slash_liesIn (p := ⟨trimmed root⟩) (Path.not_up_mem_names hc)
  rwa [Path.LiesIn, normal_trimmed] at hl

theorem MovedTo.of_ok (h : m.relocate root = .ok m') : MovedTo root m m' := by
  have hslash : ∀ t ∈ m'.targets, (⟨t⟩ : Path).LiesIn ⟨root ++ "/"⟩ := by
    intro t ht
    obtain ⟨_, hmoved⟩ := exists_of_mapped h ht
    obtain ⟨rest, -, hc, rfl⟩ := relocateTarget_eq_ok_iff.1 hmoved
    exact liesIn_slash hc
  have htargets := (targets_mapped h).imp fun _ _ ht => relocateTarget_eq_ok_iff.1 ht
  refine ⟨map_outline_mapped h, htargets, ?_, ?_⟩
  · intro hne t ht
    have hl := hslash t ht
    rwa [Path.LiesIn, Path.normal_slash (p := ⟨root⟩) hne] at hl
  · rintro rfl
    exact hslash

theorem RefusedWith.of_error {e : String} (h : m.relocate root = .error e) :
    RefusedWith identity m (.exportTargetInvalid identity e) := by
  have hrun : m.targets.mapM (relocateTarget root) = .error e := by
    rw [← targets_mapTargets]
    exact map_eq_error.2 h
  obtain ⟨before, target, after, hsplit, hbefore, htarget⟩ := mapM_eq_error hrun
  obtain ⟨rfl, hout⟩ := relocateTarget_eq_error htarget
  refine ⟨before, e, after, hsplit, ?_, hout, rfl, rfl⟩
  intro t ht
  exact (relocateTarget_isOk_iff root).1 (hbefore t ht)

/-- A map is moved exactly if all its targets are inside of the package; the first that is not is
what the fault names. -/
theorem relocate_outcome (identity root : String) (m : ExportMap) :
    let outcome := (m.relocate root).mapError (BuildFault.exportTargetInvalid identity)
    ((∃ m', outcome = .ok m') ↔ ∀ t ∈ m.targets, Inside t) ∧
      (∀ m', outcome = .ok m' → MovedTo root m m') ∧
      (∀ fault, outcome = .error fault → RefusedWith identity m fault) ∧
      ∀ v, ofPackage v = .ok m → BuildPlan.relocatedExports identity root v = outcome := by
  intro outcome
  have hok : ∀ m', outcome = .ok m' → m.relocate root = .ok m' := fun _ => mapError_eq_ok.1
  have hfault : ∀ fault, outcome = .error fault → RefusedWith identity m fault := by
    intro fault h
    obtain ⟨e, he, rfl⟩ := mapError_eq_error.1 h
    exact .of_error he
  refine ⟨⟨?_, ?_⟩, fun m' h => .of_ok (hok m' h), hfault, ?_⟩
  · rintro ⟨m', h⟩ t ht
    exact (relocateTarget_isOk_iff root).1 (exists_mapped (hok m' h) ht)
  · intro hall
    cases ho : outcome with
    | ok m' => exact ⟨m', rfl⟩
    | error fault =>
      obtain ⟨before, target, after, hsplit, -, hout, -⟩ := hfault fault ho
      exact absurd (hall target (by simp [hsplit])) hout
  · intro v hv
    simp only [BuildPlan.relocatedExports, hv, outcome]
    cases m.relocate root <;> rfl

/-- In front of a target that is moved to the empty path stands a slash alone: it leads to the top,
not to where the empty path leads. -/
theorem relocate_to_empty :
    ∃ m', (⟨[(".", .target "./a.js")]⟩ : ExportMap).relocate "" = .ok m' ∧
      ¬ ∀ t ∈ m'.targets, (⟨t⟩ : Path).LiesIn ⟨""⟩ := by
  refine ⟨⟨[(".", .target "/a.js")]⟩, rfl, ?_⟩
  intro h
  obtain ⟨way, -, he⟩ := h "/a.js" (List.mem_singleton_self _)
  have htop : (Path.normal ⟨"/a.js"⟩).1 = true := by decide +kernel
  have hhere : (Path.normal ⟨""⟩).1 = false := by decide +kernel
  rw [he, hhere] at htop
  exact Bool.false_ne_true htop

end Vendoring.ExportMap
