import Vendoring.Build.Apply
import Vendoring.Proofs.Alias.Anchor
import Vendoring.Proofs.Build.Identity
import Vendoring.Proofs.Build.Plan
import Vendoring.Proofs.ExportMap.Relocation
import Vendoring.Proofs.Path

/-! The places that the alias manifest names are those where the copies are put: the way up from the
manifest takes back the way from the host down to it. -/
namespace Vendoring
open Vendoring.Path

variable {config : Config} {inputs : BuildInputs} {plan : BuildPlan} {version base : String}
  {s : SourcePackage} {p : PlannedPackage} {e : AliasEntry} {anchor host q : Path} {n : Nat}
  {x tail : String} {ss ds : List String}

namespace BuildPlan

theorem vendoredBase_eq_ok (h : vendoredBase config = .ok base) :
    ∃ ss ds, config.vendoredDir.plainSegments? = some ss ∧ ss ≠ [] ∧
      (config.aliasManifest.parent?.getD ⟨""⟩).plainSegments? = some ds ∧
      base = upward ds.length ++ "/".intercalate ss := by
  unfold vendoredBase at h
  split at h
  · cases h
  · cases h
  · next ss hne hv =>
    split at h
    · cases h
    · next depth hd =>
      cases h
      unfold manifestDepth? at hd
      split at hd
      · obtain ⟨ds, hds, rfl⟩ := Option.map_eq_some_iff.1 hd
        exact ⟨ss, ds, hv, hne, hds, rfl⟩
      · cases hd

theorem fileName?_of_vendoredBase (h : vendoredBase config = .ok base) :
    ∃ name, config.aliasManifest.fileName? = some name := by
  unfold vendoredBase at h
  split at h
  · cases h
  · cases h
  · split at h
    · cases h
    · next hd =>
      unfold manifestDepth? at hd
      split at hd
      · next hs => exact Option.isSome_iff_exists.1 hs
      · cases hd

theorem names_upward (n : Nat) (x : String) :
    names (upward n ++ x) = List.replicate n ".." ++ names x := by
  have hup : names ".." = [".."] := by decide
  have hhere : names "." = [] := by decide
  have hjoin : ∀ k, names (String.join (List.replicate k "../") ++ x) =
      List.replicate k ".." ++ names x := by
    intro k
    induction k with
    | zero => simp [String.join_nil]
    | succ k ih =>
      have ht : String.join (List.replicate (k + 1) "../") ++ x =
          ".." ++ "/" ++ (String.join (List.replicate k "../") ++ x) := by
        simp [List.replicate_succ, String.join_cons, String.append_assoc]
      rw [ht, names_append_slash, hup, ih]
      rfl
  unfold upward
  split
  · next hn =>
    have ht : "./" ++ x = "." ++ "/" ++ x := by simp
    rw [hn, ht, names_append_slash, hhere]
    rfl
  · exact hjoin n

/-- Anchoring joins, and drops no name. -/
theorem anchored_upward (ha : e.anchor? = some anchor) (n : Nat)
    (hx : x.toList.head? ≠ some '/') :
    ∃ rel, rel.toList.head? ≠ some '/' ∧ names rel = names (upward n ++ x) ∧
      e.anchored (upward n ++ x) = (anchor.join rel).text := by
  cases n with
  | zero =>
    have hr : Specifier.isRelative ("./" ++ x) = true := by simp [Specifier.isRelative]
    refine ⟨x, hx, by rw [names_upward]; rfl, ?_⟩
    rw [upward, if_pos rfl, AliasEntry.anchored_eq_join ha hr, AliasEntry.offset_dotSlash]
  | succ k =>
    obtain ⟨y, hy⟩ : ∃ y, upward (k + 1) ++ x = "../" ++ y :=
      ⟨_, by simp [upward, List.replicate_succ, String.join_cons, String.append_assoc]; rfl⟩
    have hr : Specifier.isRelative ("../" ++ y) = true := by simp [Specifier.isRelative]
    have hlead : ∀ rest, "../" ++ y ≠ "./" ++ rest := by simp [← String.toList_inj]
    refine ⟨upward (k + 1) ++ x, by simp [hy], rfl, ?_⟩
    rw [hy, AliasEntry.anchored_eq_join ha hr, AliasEntry.offset_eq_self hlead]

/-- From the directory of the manifest, `..` for each name on the way down to it leads to the
host. -/
theorem normal_anchored (hds : (⟨x⟩ : Path).plainSegments? = some ds)
    (ha : e.anchor? = some (host.join x)) (ht : tail.toList.head? ≠ some '/')
    (hq : q.isAbsolute = host.isAbsolute) (hs : q.segments = host.segments ++ names tail) :
    normal ⟨e.anchored (upward ds.length ++ tail)⟩ = normal q := by
  obtain ⟨rel, hrel, hnames, he⟩ := anchored_upward ha ds.length ht
  obtain ⟨habs, hup, hseg⟩ := plainSegments?_eq_some hds
  have hx : x.toList.head? ≠ some '/' := by simpa [isAbsolute] using habs
  rw [hseg] at hup
  have hsegments : (host.join x).segments = host.segments ++ ds := by
    rw [segments_join hx, ← hseg, segments_eq_names ⟨x⟩]
  rw [he]
  unfold normal
  rw [isAbsolute_join hrel, isAbsolute_join hx, segments_join hrel, hnames, names_upward, hsegments,
    hq, hs]
  simp only [List.foldl_append]
  rw [foldl_follow_return hup]

theorem head?_intercalate (hn : ss ≠ []) (hs : ∀ s ∈ ss, s ≠ "" ∧ '/' ∉ s.toList) (x : String) :
    ("/".intercalate ss ++ x).toList.head? ≠ some '/' := by
  obtain ⟨s, r, rfl⟩ := List.exists_cons_of_ne_nil hn
  obtain ⟨hne, hslash⟩ := hs s (List.mem_cons_self ..)
  obtain ⟨c, l, hc⟩ := List.exists_cons_of_ne_nil (l := s.toList) (by simpa using hne)
  have hcs : c ≠ '/' := by
    rintro rfl
    exact hslash (hc ▸ List.mem_cons_self ..)
  obtain ⟨y, hy⟩ : ∃ y, "/".intercalate (s :: r) = s ++ y := by
    by_cases hr : r = []
    · exact ⟨"", by simp [hr]⟩
    · exact ⟨_, by rw [String.intercalate_cons_of_ne_nil hr, String.append_assoc]⟩
  simp [hy, hc, hcs]

/-- What stands below the vendored base, as seen from the manifest, stands below the vendored
directory of the host. -/
theorem Made.normal_anchored (h : Made inputs config plan base)
    (ha : e.anchor? = some (host.join (plan.aliasManifest.parent?.getD ⟨""⟩).text))
    (hq : q.isAbsolute = host.isAbsolute)
    (hs : q.segments = (plan.vendoredPath host).segments ++ names tail) :
    normal ⟨e.anchored (base ++ "/" ++ tail)⟩ = normal q := by
  obtain ⟨ss, ds, hv, hne, hds, rfl⟩ := vendoredBase_eq_ok h.below
  obtain ⟨habs, -, hseg⟩ := plainSegments?_eq_some hv
  have hname : ∀ s ∈ ss, s ≠ "" ∧ '/' ∉ s.toList ∧ names s = [s] :=
    fun s hm => name_of_mem_segments (hseg ▸ hm)
  have htext : config.vendoredDir.text.toList.head? ≠ some '/' := by
    simpa [isAbsolute] using habs
  rw [h.aliasManifest] at ha
  rw [vendoredPath, h.vendoredDir, segments_join htext, ← segments_eq_names, hseg,
    List.append_assoc] at hs
  rw [String.append_assoc, String.append_assoc]
  refine BuildPlan.normal_anchored hds ha ?_ hq ?_
  · exact head?_intercalate hne (fun s hm => ⟨(hname s hm).1, (hname s hm).2.1⟩) _
  · rw [hs, ← String.append_assoc, names_append_slash,
      names_intercalate hne fun s hm => (hname s hm).2.2]

/-- Where a build puts the copy of a package. -/
def copyPath (plan : BuildPlan) (host : Path) (identity : String) : Path :=
  (plan.vendoredPath host).join identity

theorem Made.segments_vendoredPath (h : Made inputs config plan base) (host : Path) :
    ∃ ss, ss ≠ [] ∧ (plan.vendoredPath host).isAbsolute = host.isAbsolute ∧
      (plan.vendoredPath host).segments = host.segments ++ ss := by
  obtain ⟨ss, _, hv, hne, -⟩ := vendoredBase_eq_ok h.below
  obtain ⟨habs, -, hseg⟩ := plainSegments?_eq_some hv
  have htext : config.vendoredDir.text.toList.head? ≠ some '/' := by
    simpa [isAbsolute] using habs
  rw [vendoredPath, h.vendoredDir]
  exact ⟨ss, hne, isAbsolute_join htext, by rw [segments_join htext, ← segments_eq_names, hseg]⟩

theorem Made.normal_root (h : Made inputs config plan base)
    (hp : Planned config version base s p)
    (ha : e.anchor? = some (host.join (plan.aliasManifest.parent?.getD ⟨""⟩).text)) :
    normal ⟨e.anchored p.vendoredRoot⟩ = normal (plan.copyPath host p.identity) := by
  obtain ⟨_, -, habs, -⟩ := h.segments_vendoredPath host
  have hid := Identity.head?_of_isValid (hp.identity ▸ hp.valid)
  rw [hp.root, ← hp.identity]
  refine h.normal_anchored ha ?_ ?_
  · rw [copyPath, isAbsolute_join hid, habs]
  · rw [copyPath, segments_join hid]

theorem Made.normal_target (h : Made inputs config plan base)
    (hp : Planned config version base s p)
    (ha : e.anchor? = some (host.join (plan.aliasManifest.parent?.getD ⟨""⟩).text))
    (rest : String) :
    normal ⟨e.anchored (p.vendoredRoot ++ "/" ++ rest)⟩ =
      normal ⟨(plan.copyPath host p.identity).text ++ "/" ++ rest⟩ := by
  obtain ⟨ss, hne, habs, hseg⟩ := h.segments_vendoredPath host
  have hid := Identity.head?_of_isValid (hp.identity ▸ hp.valid)
  have hcopy : (plan.copyPath host p.identity).segments =
      (plan.vendoredPath host).segments ++ names p.identity := segments_join hid
  have htext : (plan.copyPath host p.identity).text ≠ "" := by
    intro he
    rw [segments_eq_names, he, names_empty, hseg] at hcopy
    simp_all
  have hroot : p.vendoredRoot ++ "/" ++ rest = base ++ "/" ++ (p.identity ++ "/" ++ rest) := by
    rw [hp.root, hp.identity]
    simp only [String.append_assoc]
  rw [hroot]
  refine h.normal_anchored ha ?_ ?_
  · rw [String.append_assoc, isAbsolute_append htext, copyPath, isAbsolute_join hid, habs]
  · rw [segments_eq_names, names_append_slash, ← segments_eq_names, hcopy, names_append_slash,
      List.append_assoc]

end BuildPlan

/-- The targets of a copy stand in `place` as those of the package stand in it, wherever `e` takes
them. -/
def PlannedPackage.TargetsIn (p : PlannedPackage) (s : SourcePackage) (e : AliasEntry)
    (place : Path) : Prop :=
  ∀ m', p.exports? = some m' → ∃ v m, s.manifest.exports? = some v ∧
    ExportMap.ofPackage v = .ok m ∧
      List.Forall₂ (fun t t' => ∃ rest, t = "./" ++ rest ∧
        normal ⟨e.anchored t'⟩ = normal ⟨place.text ++ "/" ++ rest⟩) m.targets m'.targets

namespace BuildPlan

/-- Anchored at the directory of the alias manifest, what a plan records leads to where the build
puts the copies. -/
theorem plan_places (h : inputs.plan config = .ok plan)
    (ha : e.anchor? = some (host.join (plan.aliasManifest.parent?.getD ⟨""⟩).text)) :
    (∀ identity record root, (identity, record) ∈ plan.aliases.aliases →
      record.root? = some root →
        normal ⟨e.anchored root⟩ = normal (plan.copyPath host identity)) ∧
    List.Forall₂ (fun s p =>
      normal ⟨e.anchored p.vendoredRoot⟩ = normal (plan.copyPath host p.identity) ∧
        p.TargetsIn s e (plan.copyPath host p.identity)) inputs.sources plan.packages := by
  obtain ⟨base, made⟩ := made_of_plan h
  refine ⟨?_, made.packages.imp fun s p hp => ⟨made.normal_root hp ha, ?_⟩⟩
  · intro identity record root hm hr
    rw [made.aliases] at hm
    obtain ⟨p, hp, rfl, rfl⟩ := mem_aliasesOf hm hr
    obtain ⟨s, -, planned⟩ := made.exists_source hp
    cases hr
    exact made.normal_root planned ha
  · intro m' hm'
    obtain ⟨v, m, hv, declared, moved⟩ := hp.exists_relocated hm'
    refine ⟨v, m, hv, declared, (ExportMap.targets_mapped moved).imp fun t t' ht => ?_⟩
    obtain ⟨rest, hrest, -, rfl⟩ := ExportMap.relocateTarget_eq_ok hp.root_trimmed ht
    exact ⟨rest, hrest, made.normal_target hp ha rest⟩

def nestedEntry : AliasEntry := ⟨"pkg", none, none, some ⟨"/host/a/./b"⟩⟩

theorem plan_places_nested : ∃ plan, nestedInputs.plan nestedConfig = .ok plan ∧
    List.Forall₂ (fun s p =>
      normal ⟨nestedEntry.anchored p.vendoredRoot⟩ =
          normal (plan.copyPath ⟨"/host"⟩ p.identity) ∧
        p.TargetsIn s nestedEntry (plan.copyPath ⟨"/host"⟩ p.identity))
      nestedInputs.sources plan.packages := by
  obtain ⟨plan, hp⟩ := nested_plan
  obtain ⟨_, made⟩ := made_of_plan hp
  refine ⟨plan, hp, (plan_places hp ?_).2⟩
  rw [made.aliasManifest]
  decide +kernel

end BuildPlan

end Vendoring
