import Mathlib.Data.List.Infix
import Vendoring.Project
import Vendoring.Proofs.Files.Climbing
import Vendoring.Proofs.Lookup.Packages

/-! Going up from a directory to a project and to the packages of a bare specifier. Both go up the
path as it is written, and what they come by need not be above the directory: a step with `..` is
undone by going down, and nothing is above the place that a relative path starts from. -/
namespace Vendoring
open Files

/-! ## What comes first in a list -/

section Lists
variable {α : Type} [BEq α] [LawfulBEq α]

theorem filter_eraseDups (f : α → Bool) (l : List α) :
    (l.filter f).eraseDups = l.eraseDups.filter f := by
  induction hn : l.length using Nat.strong_induction_on generalizing l with
  | _ n ih =>
    cases l with
    | nil => rfl
    | cons x r =>
      have hlen : (r.filter fun y => !y == x).length < n :=
        hn ▸ Nat.lt_succ_of_le (List.length_filter_le _ _)
      rw [List.eraseDups_cons, List.filter_cons, List.filter_cons, ← ih _ hlen _ rfl]
      have hcomm : (r.filter f).filter (fun y => !y == x) =
          (r.filter fun y => !y == x).filter f := by
        rw [List.filter_filter, List.filter_filter]
        exact List.filter_congr fun y _ => Bool.and_comm _ _
      cases hx : f x with
      | true => rw [if_pos rfl, if_pos rfl, List.eraseDups_cons, hcomm]
      | false =>
        have hself : (r.filter f).filter (fun y => !y == x) = r.filter f := by
          refine List.filter_eq_self.2 fun y hy => ?_
          have hne : y ≠ x := by
            rintro rfl
            have hfx := (List.mem_filter.1 hy).2
            rw [hx] at hfx
            cases hfx
          simpa using hne
        rw [if_neg (by simp), if_neg (by simp), ← hcomm, hself]

theorem find?_eraseDups (f : α → Bool) (l : List α) : l.eraseDups.find? f = l.find? f := by
  have hhead (r : List α) : r.eraseDups.head? = r.head? := by
    cases r with
    | nil => rfl
    | cons x r => rw [List.eraseDups_cons, List.head?_cons, List.head?_cons]
  rw [← List.head?_filter, ← filter_eraseDups, hhead, List.head?_filter]

end Lists

/-! ## The places on the way up -/

namespace Files

/-- A place and the places above it, the nearest first. -/
def upward (t : Trail) : List Trail := t.inits.reverse

variable {t top q : Trail} {v : List Trail} {n : Nat}

theorem mem_upward : q ∈ upward t ↔ q <+: t := by
  rw [upward, List.mem_reverse, List.mem_inits]

/-- The places above one that are closer to the root than `n`, the nearest first. -/
def upwardBelow (t : Trail) (n : Nat) : List Trail := (List.range n).reverse.map t.take

theorem upwardBelow_succ (t : Trail) (n : Nat) :
    upwardBelow t (n + 1) = t.take n :: upwardBelow t n := by
  simp [upwardBelow, List.range_succ]

theorem upward_eq (t : Trail) : upward t = upwardBelow t (t.length + 1) := by
  induction t using List.reverseRecOn with
  | nil => rfl
  | append_singleton t name ih =>
    have hsame : upwardBelow (t ++ [name]) (t.length + 1) = upwardBelow t (t.length + 1) := by
      refine List.map_congr_left fun n hn => List.take_append_of_le_length ?_
      exact Nat.le_of_lt_succ (List.mem_range.1 (List.mem_reverse.1 hn))
    have hwhole : (t ++ [name]).take (t.length + 1) = t ++ [name] :=
      List.take_of_length_le (by simp)
    rw [List.length_append, List.length_singleton, upwardBelow_succ, hsame, ← ih, hwhole, upward,
      List.inits_append, List.reverse_append]
    rfl

theorem mem_upwardBelow : q ∈ upwardBelow t n ↔ ∃ m < n, t.take m = q := by
  simp [upwardBelow]

/-- No place below `top` is closer to the root than `top` is. -/
theorem eraseDups_short (hv : ∀ q ∈ v, top <+: q) (hn : n ≤ top.length) :
    (v.filter (·.length < n)).eraseDups = (upwardBelow t n).filter top.isPrefixOf := by
  have hleft : v.filter (·.length < n) = [] := by
    refine List.filter_eq_nil_iff.2 fun q hq => ?_
    have hle := (hv q hq).length_le
    simp only [decide_eq_true_eq]
    omega
  have hright : (upwardBelow t n).filter top.isPrefixOf = [] := by
    refine List.filter_eq_nil_iff.2 fun q hq hp => ?_
    obtain ⟨m, hm, rfl⟩ := mem_upwardBelow.1 hq
    have hle := (List.isPrefixOf_iff_prefix.1 hp).length_le
    have htake := List.length_take_le m t
    omega
  rw [hleft, hright]
  rfl

/-- Of the places above one that are no deeper than `q`, those other than `q` are less deep. -/
theorem filter_shorter (hv : ∀ x ∈ v, x <+: t) (hq : q <+: t) :
    (v.filter (·.length < q.length + 1)).filter (fun x => !x == q) =
      v.filter (·.length < q.length) := by
  rw [List.filter_filter]
  refine List.filter_congr fun x hx => ?_
  have hsame : x = q ↔ x.length = q.length := by
    refine ⟨fun he => he ▸ rfl, fun hl => ?_⟩
    rw [List.prefix_iff_eq_take.1 (hv x hx), hl, ← List.prefix_iff_eq_take.1 hq]
  rw [Bool.eq_iff_iff]
  simp only [Bool.and_eq_true, Bool.not_eq_true', beq_eq_false_iff_ne, ne_eq, hsame,
    decide_eq_true_eq]
  omega

/-- The first visits of a walk between `t` and `top` to places closer to the root than `n`. A walk
that starts no closer to it than those, goes up one step at a time, though it may go down again, and
comes to `top`, visits all places in between, each for the first time in its turn. -/
theorem eraseDups_between (hv : ∀ q ∈ v, top <+: q ∧ q <+: t)
    (hstep : v.IsChain fun q r => q.length ≤ r.length + 1)
    (hhead : ∀ q, v.head? = some q → n ≤ q.length + 1) (htop : top ∈ v) :
    (v.filter (·.length < n)).eraseDups = (upwardBelow t n).filter top.isPrefixOf := by
  induction v generalizing n with
  | nil => cases htop
  | cons q r ih =>
    by_cases hn : n ≤ top.length
    · exact eraseDups_short (fun x hx => (hv x hx).1) hn
    have hq := hv q (List.mem_cons_self ..)
    have hr : ∀ x ∈ r, top <+: x ∧ x <+: t := fun x hx => hv x (List.mem_cons_of_mem _ hx)
    have hnext : ∀ x, r.head? = some x → q.length ≤ x.length + 1 := by
      intro x hx
      obtain ⟨l, rfl⟩ := List.head?_eq_some_iff.1 hx
      exact (List.isChain_cons_cons.1 hstep).1
    by_cases hlt : q.length < n
    · -- The place is the next one in its turn, and those above it are left.
      have hlen : n = q.length + 1 := by
        have hle := hhead q rfl
        omega
      have htake : t.take q.length = q := (List.prefix_iff_eq_take.1 hq.2).symm
      rw [List.filter_cons_of_pos (by simpa using hlt), List.eraseDups_cons, hlen,
        filter_shorter (fun x hx => (hr x hx).2) hq.2, upwardBelow_succ, htake,
        List.filter_cons_of_pos (List.isPrefixOf_iff_prefix.2 hq.1)]
      congr 1
      rcases List.mem_cons.1 htop with rfl | htop
      · exact eraseDups_short (fun x hx => (hr x hx).1) (Nat.le_refl _)
      · exact ih hr hstep.of_cons hnext htop
    · rw [List.filter_cons_of_neg (by simpa using hlt)]
      refine ih hr hstep.of_cons (fun x hx => ?_) ?_
      · have hle := hnext x hx
        omega
      · refine (List.mem_cons.1 htop).resolve_left ?_
        rintro rfl
        omega

end Files

variable {d : Disk} {p : Path} {t top : Trail} {name : String} {k : Kind}
  {es : List (String × Tree)}

namespace Files.Disk

/-- The places where a name is looked for on the way up a path, each once. Where its path would be
too long for the system, it is not found. -/
def passed (d : Disk) (p : Path) (name : String) : List Trail :=
  ((p.ancestors.filter fun a => (a.join name).text.utf8ByteSize ≤ pathLimit).map
    d.placeOf).eraseDups

theorem passed_of_fits (hn : ProperName name)
    (hl : (p.join name).text.utf8ByteSize ≤ pathLimit) :
    d.passed p name = (p.ancestors.map d.placeOf).eraseDups := by
  have hall : (p.ancestors.filter fun a => (a.join name).text.utf8ByteSize ≤ pathLimit) =
      p.ancestors := by
    refine List.filter_eq_self.2 fun a ha => decide_eq_true ?_
    exact (Path.size_join_ancestor ha (head?_of_proper hn)).trans hl
  rw [passed, hall]

/-- A way up that stays between a place and one above it passes the places between them. -/
theorem passed_between (hn : ProperName name)
    (hl : (p.join name).text.utf8ByteSize ≤ pathLimit)
    (hv : ∀ a ∈ p.ancestors, top <+: d.placeOf a ∧ d.placeOf a <+: d.placeOf p)
    (htop : top ∈ p.ancestors.map d.placeOf) :
    d.passed p name = (upward (d.placeOf p)).filter top.isPrefixOf := by
  have hplaces : ∀ q ∈ p.ancestors.map d.placeOf, top <+: q ∧ q <+: d.placeOf p :=
    List.forall_mem_map.2 hv
  have hall : (p.ancestors.map d.placeOf).filter (·.length < (d.placeOf p).length + 1) =
      p.ancestors.map d.placeOf := by
    refine List.filter_eq_self.2 fun q hq => decide_eq_true ?_
    exact Nat.lt_succ_of_le (hplaces q hq).2.length_le
  have hhead : ∀ q, (p.ancestors.map d.placeOf).head? = some q →
      (d.placeOf p).length + 1 ≤ q.length + 1 := by
    rintro q ⟨⟩
    exact Nat.le_refl _
  rw [passed_of_fits hn hl, upward_eq, ← eraseDups_between hplaces (chain_places d p) hhead htop,
    hall]

/-- The parents of a path that have an entry of some kind are at the places that have one. -/
theorem places_filter (hd : ∀ t target, d.node? t ≠ some (.link target)) (h : Leads d ∅ p t)
    (hc : check p = .ok ()) (hn : LegalName name) :
    (p.ancestors.filter fun a => d.kind (a.join name) = .ok k).map d.placeOf =
      ((p.ancestors.filter fun a => (a.join name).text.utf8ByteSize ≤ pathLimit).map
        d.placeOf).filter fun q => d.kindAt? (q ++ [name]) = some k := by
  rw [List.filter_map, List.filter_filter]
  refine congrArg (List.map d.placeOf) (List.filter_congr fun a ha => ?_)
  rw [Bool.eq_iff_iff, decide_eq_true_eq, kind_ancestor hd h hc ha hn]
  simp [and_comm]

end Files.Disk

/-- The package that a directory of a disk belongs to. -/
def Project.rootOn (d : Disk) (start : Path) : Option Path :=
  (root? start : ReaderM Disk (Option Path)).run d

theorem Project.run_firstPackage (d : Disk) (ps : List Path) :
    (Project.firstPackage ps : ReaderM Disk (Option Path)).run d =
      ps.find? fun p => d.kind (p.join PackageManifest.fileName) = .ok .file := by
  induction ps with
  | nil => rfl
  | cons p r ih =>
    rw [firstPackage, Lookup.run_ask, Lookup.run_isFile, List.find?_cons]
    cases decide (d.kind (p.join PackageManifest.fileName) = .ok .file) with
    | true => rfl
    | false => exact ih

theorem Project.mem_of_rootOn {root : Path} (h : rootOn d p = some root) :
    root ∈ p.ancestors := by
  rw [rootOn, root?, run_firstPackage] at h
  exact List.mem_of_find?_eq_some h

/-- The directories above a path in whose `node_modules` packages are looked for. -/
def Lookup.modulesAbove (d : Disk) (p : Path) : List Path := p.ancestors.filter (hasModules d)

/-- How a project and packages are looked for from a path that leads to the directory `t`. -/
structure Ascends (d : Disk) (p : Path) (t : Trail) : Prop where
  leads : d.placeOf p = t ∧ ∀ a ∈ p.ancestors, Disk.Leads d ∅ a (d.placeOf a)
  /-- The project is given by a parent of the path, -/
  parent : ∀ root, Project.rootOn d p = some root → root ∈ p.ancestors
  /-- and is at the first place on the way up that has a manifest. -/
  project : (Project.rootOn d p).map d.placeOf =
    (d.passed p PackageManifest.fileName).find? fun q =>
      d.kindAt? (q ++ [PackageManifest.fileName]) = some .file
  /-- Packages are looked for at all places on the way up that have a `node_modules`, -/
  modules : ((Lookup.modulesAbove d p).map d.placeOf).eraseDups =
    (d.passed p "node_modules").filter fun q => d.kindAt? (q ++ ["node_modules"]) = some .directory
  /-- and nowhere else. -/
  bare : ∀ extensions conditions spec, Lookup.IsBare spec →
    Lookup.verdict d extensions ⟨p, conditions⟩ spec =
      Lookup.settled (!(Lookup.modulesAbove d p).isEmpty) none
        ((((Lookup.modulesAbove d p).map fun dir =>
            Lookup.packagePath dir (Specifier.parse spec).identity).filter
          fun package => d.kind package = .ok .directory).map
            (Lookup.answerWithin d extensions ⟨p, conditions⟩ spec))
  /-- The places passed are the directory and those above it, the nearest first, just if no other
  place and the root are among them. -/
  upward_iff : ∀ name, LegalName name → (p.join name).text.utf8ByteSize ≤ pathLimit →
    (d.passed p name = upward t ↔ (∀ q ∈ d.passed p name, q <+: t) ∧ [] ∈ d.passed p name)
  /-- Without `..` they are those above it from the one on that the path starts from. -/
  straight : ".." ∉ p.steps → ∀ name, LegalName name →
    (p.join name).text.utf8ByteSize ≤ pathLimit →
      d.passed p name = (upward t).filter (Disk.startOf p d.here).isPrefixOf

section Linkless
variable (hd : ∀ t target, d.node? t ≠ some (.link target))
include hd

theorem project_of_leads (hl : Disk.Leads d ∅ p t) (hc : Disk.check p = .ok ()) :
    (Project.rootOn d p).map d.placeOf =
      (d.passed p PackageManifest.fileName).find? fun q =>
        d.kindAt? (q ++ [PackageManifest.fileName]) = some .file := by
  have hn : LegalName PackageManifest.fileName := by decide
  rw [Project.rootOn, Project.root?, Project.run_firstPackage, ← List.head?_filter,
    ← List.head?_map, Disk.places_filter hd hl hc hn, List.head?_filter, Disk.passed,
    find?_eraseDups]

theorem modules_of_leads (hl : Disk.Leads d ∅ p t) (hc : Disk.check p = .ok ()) :
    ((Lookup.modulesAbove d p).map d.placeOf).eraseDups =
      (d.passed p "node_modules").filter fun q =>
        d.kindAt? (q ++ ["node_modules"]) = some .directory := by
  have hn : LegalName "node_modules" := by decide
  rw [Disk.passed, ← filter_eraseDups, ← Disk.places_filter hd hl hc hn]
  rfl

end Linkless

theorem Lookup.verdict_above (extensions conditions : List String) {spec : String}
    (hb : IsBare spec) : verdict d extensions ⟨p, conditions⟩ spec =
      settled (!(modulesAbove d p).isEmpty) none
        ((((modulesAbove d p).map (packagePath · (Specifier.parse spec).identity)).filter
          fun package => d.kind package = .ok .directory).map
            (answerWithin d extensions ⟨p, conditions⟩ spec)) := by
  have hany : p.ancestors.any (hasModules d) = !(modulesAbove d p).isEmpty := by
    rw [Bool.eq_iff_iff, modulesAbove, List.any_eq_true]
    simp
  rw [verdict_of_bare hb, ← hany]
  rfl

theorem Files.Disk.passed_eq_upward_iff (hn : ProperName name)
    (hl : (p.join name).text.utf8ByteSize ≤ pathLimit) :
    d.passed p name = upward (d.placeOf p) ↔
      (∀ q ∈ d.passed p name, q <+: d.placeOf p) ∧ [] ∈ d.passed p name := by
  constructor
  · intro h
    rw [h]
    exact ⟨fun q hq => mem_upward.1 hq, mem_upward.2 List.nil_prefix⟩
  · rintro ⟨habove, htop⟩
    rw [passed_of_fits hn hl, List.mem_eraseDups] at htop
    have hv : ∀ a ∈ p.ancestors, [] <+: d.placeOf a ∧ d.placeOf a <+: d.placeOf p := by
      intro a ha
      refine ⟨List.nil_prefix, habove _ ?_⟩
      rw [passed_of_fits hn hl, List.mem_eraseDups]
      exact List.mem_map_of_mem ha
    rw [passed_between hn hl hv htop]
    exact List.filter_eq_self.2 fun _ _ => rfl

/-- On a disk without links, a project and packages are looked for at the places that the parents of
a path lead to. -/
theorem ascends_of_held (hd : ∀ t target, d.node? t ≠ some (.link target))
    (hp : d.held true p = .ok (t, .directory es)) : Ascends d p t := by
  have hc : Disk.check p = .ok () := Disk.check_of_held hp
  have hl : Disk.Leads d ∅ p t := (Disk.leads_of_held hp).1
  obtain rfl : t = d.placeOf p := hl.eq_placeOf hd
  exact {
    leads := ⟨rfl, fun a ha => hl.ancestor hd ha⟩
    parent := fun root hr => Project.mem_of_rootOn hr
    project := project_of_leads hd hl hc
    modules := modules_of_leads hd hl hc
    bare := fun extensions conditions spec hb => Lookup.verdict_above extensions conditions hb
    upward_iff := fun name hn hfits => Disk.passed_eq_upward_iff hn.1 hfits
    straight := fun hs name hn hfits =>
      Disk.passed_between hn.1 hfits (fun a ha => Disk.between_of_mem_ancestors hs ha)
        (Disk.start_mem_places d p) }

/-- A package with a directory in it, which relative paths start from. -/
def nestedDisk : Disk where
  root := .directory [("a", .directory [("package.json", .file "\x7b\x7d".toUTF8),
    ("src", .directory [])])]
  here := ["a", "src"]

theorem exists_held (h : d.kind p = .ok .directory) :
    ∃ t es, d.held true p = .ok (t, .directory es) := by
  obtain ⟨t, x, hheld, hk⟩ := Disk.kind_eq_ok h
  cases x with
  | directory es => exact ⟨t, es, hheld⟩
  | file _ => cases hk
  | link _ => cases hk

/-- From the top, spelled by way of the package, the package below is found. From the directory in
it, spelled as the current one, the package above is not found. -/
theorem ascends_nested :
    (nestedDisk.kindAt? ["package.json"] = none ∧
      nestedDisk.kindAt? ["a", "package.json"] = some .file) ∧
    (Ascends nestedDisk ⟨"/a/.."⟩ [] ∧
      nestedDisk.passed ⟨"/a/.."⟩ PackageManifest.fileName = [[], ["a"]] ∧
      Project.rootOn nestedDisk ⟨"/a/.."⟩ = some ⟨"/a"⟩) ∧
    (Ascends nestedDisk ⟨"."⟩ ["a", "src"] ∧
      nestedDisk.passed ⟨"."⟩ PackageManifest.fileName = [["a", "src"]] ∧
      Project.rootOn nestedDisk ⟨"."⟩ = none) := by
  have hd : ∀ t target, nestedDisk.node? t ≠ some (.link target) :=
    Disk.linkless_of_nodes (by decide +kernel)
  refine ⟨by decide +kernel, ⟨?_, by decide +kernel, by decide +kernel⟩, ?_, by decide +kernel,
    by decide +kernel⟩
  · obtain ⟨t, es, hheld⟩ := exists_held (d := nestedDisk) (p := ⟨"/a/.."⟩) (by decide +kernel)
    have h : Ascends nestedDisk ⟨"/a/.."⟩ t := ascends_of_held hd hheld
    have ht : nestedDisk.placeOf ⟨"/a/.."⟩ = [] := by decide +kernel
    rwa [← h.leads.1, ht] at h
  · obtain ⟨t, es, hheld⟩ := exists_held (d := nestedDisk) (p := ⟨"."⟩) (by decide +kernel)
    have h : Ascends nestedDisk ⟨"."⟩ t := ascends_of_held hd hheld
    have ht : nestedDisk.placeOf ⟨"."⟩ = ["a", "src"] := by decide +kernel
    rwa [← h.leads.1, ht] at h

end Vendoring
