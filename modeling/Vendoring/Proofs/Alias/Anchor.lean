import Vendoring.Alias.Entry
import Vendoring.Proofs.ExportMap.Relocation
import Vendoring.Proofs.Lookup
import Vendoring.Proofs.Path
import Vendoring.Proofs.Specifier

/-! Where an anchored specifier leads. Anchoring takes one `./` off and joins what is left; from the
anchor itself the specifier is joined as it stands. The two differ where a slash follows: what is
left is a path from the top then, and the anchor is lost. -/
namespace Vendoring.AliasEntry
open Vendoring.Path

variable {e : AliasEntry} {anchor : Path} {spec root subpath rest : String}

/-- What anchoring joins: the specifier without one `./` in front. -/
def offset (spec : String) : String :=
  String.ofList ((Text.after? ['.', '/'] spec.toList).getD spec.toList)

theorem anchored_eq_join (ha : e.anchor? = some anchor) (hr : Specifier.isRelative spec = true) :
    e.anchored spec = (anchor.join (offset spec)).text := by
  rw [anchored, ha]
  simp only [hr, if_true]
  rfl

theorem offset_dotSlash (rest : String) : offset ("./" ++ rest) = rest := by
  have hafter : Text.after? ['.', '/'] ("./" ++ rest).toList = some rest.toList :=
    Text.after?_eq_some_iff.2 (by simp)
  rw [offset, hafter, Option.getD_some, String.ofList_toList]

theorem offset_eq_self (h : ∀ rest, spec ≠ "./" ++ rest) : offset spec = spec := by
  have hafter : Text.after? ['.', '/'] spec.toList = none := by
    rw [Option.eq_none_iff_forall_ne_some]
    intro rest he
    apply h (String.ofList rest)
    apply String.toList_injective
    simpa using (Text.after?_eq_some_iff.1 he).symm
  rw [offset, hafter, Option.getD_none, String.ofList_toList]

theorem names_offset (spec : String) : names (offset spec) = names spec := by
  by_cases h : ∃ rest, spec = "./" ++ rest
  · obtain ⟨rest, rfl⟩ := h
    rw [offset_dotSlash, names_dotSlash_append]
  · rw [offset_eq_self (not_exists.1 h)]

/-- Only two slashes behind a dot leave a path from the top. -/
theorem offset_eq_slash_iff (hr : Specifier.isRelative spec = true) :
    offset spec = "/" ++ rest ↔ spec = ".//" ++ rest := by
  by_cases h : ∃ behind, spec = "./" ++ behind
  · obtain ⟨behind, rfl⟩ := h
    have hslash : ".//" ++ rest = "./" ++ ("/" ++ rest) := by simp [← String.append_assoc]
    rw [offset_dotSlash, hslash, String.append_right_inj]
  · rw [offset_eq_self (not_exists.1 h)]
    obtain ⟨lead, tail, hlead, -, rfl⟩ := Specifier.isRelative_iff.1 hr
    constructor
    · intro he
      rcases hlead with rfl | rfl <;> simp [← String.toList_inj] at he
    · intro he
      exact absurd ⟨"/" ++ rest, by rw [he, ← String.append_assoc]; rfl⟩ h

theorem names_slashes (rest : String) : names (".//" ++ rest) = names rest := by
  have hdot : names "./" = [] := by decide
  have h := names_append_slash "./" rest
  rwa [hdot, List.nil_append] at h

/-- An anchored path starts where its anchor starts: from the top if that does. -/
theorem isAbsolute_anchored (ha : e.anchor? = some anchor) (habs : anchor.isAbsolute = true)
    (hr : Specifier.isRelative spec = true) : (⟨e.anchored spec⟩ : Path).isAbsolute = true := by
  rw [anchored_eq_join ha hr, mk_text]
  by_cases hrest : (offset spec).toList.head? = some '/'
  · obtain ⟨rest, ho⟩ := exists_top hrest
    rw [ho, join_top]
    simp [isAbsolute]
  · rw [isAbsolute_join hrest, habs]

/-- What is left behind `./` is taken for a path from the top if a slash comes next. -/
theorem anchored_slashes (ha : e.anchor? = some anchor) (rest : String) :
    e.anchored (".//" ++ rest) = "/" ++ rest := by
  have hr : Specifier.isRelative (".//" ++ rest) = true := by simp [Specifier.isRelative]
  rw [anchored_eq_join ha hr, (offset_eq_slash_iff hr).2 rfl, join_top]

/-- A relative specifier leads on from the anchor name by name. -/
theorem normal_relative (habs : anchor.isAbsolute = true)
    (hr : Specifier.isRelative spec = true) : normal (anchor.join spec) =
      (true, (names spec).foldl (follow true) (normal anchor).2) := by
  have hfirst : (normal anchor).1 = true := habs
  rw [normal_join_names (Specifier.head?_of_isRelative hr), hfirst]

/-- A specifier that leads where it leads from the anchor. Two slashes behind a dot lose the anchor,
which makes no difference only where the names behind them climb from it to the root. -/
def KeepsTo (anchor : Path) (spec : String) : Prop :=
  ∀ rest, spec = ".//" ++ rest → ReachesTop (normal anchor).2 (names rest)

theorem normal_anchored_iff (ha : e.anchor? = some anchor) (habs : anchor.isAbsolute = true)
    (hr : Specifier.isRelative spec = true) :
    normal ⟨e.anchored spec⟩ = normal (anchor.join spec) ↔ KeepsTo anchor spec := by
  have hfirst : (normal anchor).1 = true := habs
  rw [normal_relative habs hr]
  by_cases hs : ∃ rest, spec = ".//" ++ rest
  · obtain ⟨rest, rfl⟩ := hs
    rw [anchored_slashes ha, normal_top, names_slashes, Prod.mk.injEq, and_iff_right rfl,
      foldl_follow_top_iff (not_up_mem_normal habs)]
    simp [KeepsTo, String.append_right_inj]
  · have hoffset : (offset spec).toList.head? ≠ some '/' := by
      intro hslash
      obtain ⟨rest, ho⟩ := exists_top hslash
      exact hs ⟨rest, (offset_eq_slash_iff hr).1 ho⟩
    have hplace : normal (anchor.join (offset spec)) = _ := normal_join_names hoffset
    rw [names_offset, hfirst] at hplace
    rw [anchored_eq_join ha hr, mk_text, hplace]
    exact iff_of_true rfl fun rest he => absurd ⟨rest, he⟩ hs

/-! ## Vendored roots -/

theorem vendoredPath?_eq (h : e.root? = some root) (subpath : String) :
    e.vendoredPath? subpath = some (e.anchored (ExportMap.trimmed root ++ subpath)) := by
  rw [vendoredPath?, h]
  rfl

theorem isRelative_vendored (hr : Specifier.isRelative root = true)
    (hs : Specifier.IsSubpath subpath.toList) :
    Specifier.isRelative (ExportMap.trimmed root ++ subpath) = true := by
  obtain ⟨lead, rest, hlead, hrest, rfl⟩ := Specifier.isRelative_iff.1 hr
  have hdots : lead.toList.getLast? ≠ some '/' := by rcases hlead with rfl | rfl <;> decide
  have htail := (hrest.of_prefix (Text.dropTrailing_prefix '/' rest)).append hs
  refine Specifier.isRelative_iff.2 ⟨lead, _, hlead, htail, ?_⟩
  rw [ExportMap.trimmed_append hdots, String.append_assoc]
  simp [ExportMap.trimmed]

theorem names_vendored (hs : Specifier.IsSubpath subpath.toList) :
    names (ExportMap.trimmed root ++ subpath) = names root ++ names subpath := by
  have hroot : names (ExportMap.trimmed root) = names root :=
    ExportMap.apply_trimmed names_slash root
  rcases hs with hs | hs
  · have he : subpath = "" := by simpa using hs
    rw [he, String.append_empty, names_empty, List.append_nil, hroot]
  · obtain ⟨rest, rfl⟩ := exists_top hs
    rw [← String.append_assoc, names_append_slash, names_slash_append, hroot]

/-- Without `..`, the way from the root ends below the anchor only if it begins with its names. -/
theorem anchored_liesIn_iff (ha : e.anchor? = some anchor) (habs : anchor.isAbsolute = true)
    (hr : Specifier.isRelative spec = true) (hup : ".." ∉ names spec) :
    (⟨e.anchored spec⟩ : Path).LiesIn anchor ↔
      ∀ rest, spec = ".//" ++ rest → (normal anchor).2.reverse <+: names rest := by
  by_cases hs : ∃ rest, spec = ".//" ++ rest
  · obtain ⟨rest, rfl⟩ := hs
    have hrest : ".." ∉ names rest := by rwa [names_slashes] at hup
    have hplace : normal ⟨"/" ++ rest⟩ = (true, (names rest).reverse) := by
      rw [normal_top, foldl_follow_plain hrest, List.append_nil]
    have hfirst : (normal anchor).1 = true := habs
    rw [anchored_slashes ha, LiesIn, hplace, hfirst]
    constructor
    · rintro ⟨way, -, he⟩ other ho
      obtain rfl := (String.append_right_inj _).1 ho
      refine ⟨way.reverse, ?_⟩
      simpa using (congrArg (List.reverse ∘ Prod.snd) he).symm
    · intro h
      obtain ⟨way, hway⟩ := h rest rfl
      refine ⟨way.reverse, ?_, ?_⟩
      · rw [List.mem_reverse]
        exact fun hm => hrest (hway ▸ List.mem_append_right _ hm)
      · rw [← hway, List.reverse_append, List.reverse_reverse]
  · have hkeeps : KeepsTo anchor spec := fun rest he => absurd ⟨rest, he⟩ hs
    have hjoin : (anchor.join spec).LiesIn anchor := join_liesIn (Specifier.head?_of_isRelative hr) hup
    refine iff_of_true ?_ fun rest he => absurd ⟨rest, he⟩ hs
    rwa [LiesIn, (normal_anchored_iff ha habs hr).2 hkeeps]

/-- An anchored specifier names the place where it is looked for from the anchor, and nothing but the
`..` of a root and a subpath leads a vendored path out of the anchor, unless two slashes lose it. -/
theorem anchored_as_imported (ha : e.anchor? = some anchor) (habs : anchor.isAbsolute = true) :
    (∀ spec, Specifier.isRelative spec = true →
      (Lookup.hasScheme spec = false →
        ∀ (m : Type → Type) [Monad m] [Files.FileView m] (extensions conditions : List String),
          (Lookup.outcome extensions ⟨anchor, conditions⟩ spec : Lookup.Probe m Lookup.Outcome) =
            Lookup.path extensions conditions (anchor.join spec)) ∧
      (normal ⟨e.anchored spec⟩ = normal (anchor.join spec) ↔ KeepsTo anchor spec)) ∧
    (∀ rest, e.anchored (".//" ++ rest) = "/" ++ rest) ∧
    ∀ root subpath, e.root? = some root → Specifier.isRelative root = true →
      Specifier.IsSubpath subpath.toList →
      let spec := ExportMap.trimmed root ++ subpath
      ∃ found, e.vendoredPath? subpath = some found ∧
        (normal ⟨found⟩ =
            (true, (names root ++ names subpath).foldl (follow true) (normal anchor).2) ↔
          KeepsTo anchor spec) ∧
        (".." ∉ names root → ".." ∉ names subpath →
          ((⟨found⟩ : Path).LiesIn anchor ↔
            ∀ rest, spec = ".//" ++ rest → (normal anchor).2.reverse <+: names rest)) := by
  refine ⟨?_, anchored_slashes ha, ?_⟩
  · intro spec hr
    exact ⟨fun hs m _ _ _ _ => Lookup.outcome_of_relative hr hs, normal_anchored_iff ha habs hr⟩
  · intro root subpath hroot hr hs
    have hspec := isRelative_vendored hr hs
    refine ⟨_, vendoredPath?_eq hroot subpath, ?_, ?_⟩
    · rw [← names_vendored hs, ← normal_relative habs hspec]
      exact normal_anchored_iff ha habs hspec
    · intro hup hup'
      apply anchored_liesIn_iff ha habs hspec
      rw [names_vendored hs, List.mem_append, not_or]
      exact ⟨hup, hup'⟩

/-- A root that is the anchor itself, and a subpath with two slashes. -/
theorem anchored_as_imported_doubled :
    let e : AliasEntry := ⟨"pkg", some ".", none, some ⟨"/app"⟩⟩
    normal ⟨e.anchored "./lib/a.js"⟩ = normal (Path.join ⟨"/app"⟩ "./lib/a.js") ∧
      normal ⟨e.anchored ".//etc/passwd"⟩ ≠ normal (Path.join ⟨"/app"⟩ ".//etc/passwd") ∧
      ∃ found, e.vendoredPath? "//etc/passwd" = some found ∧
        ¬ (⟨found⟩ : Path).LiesIn ⟨"/app"⟩ := by
  intro e
  have happ : names "/app" = ["app"] := by decide +kernel
  have hanchor : (normal ⟨"/app"⟩).2 = ["app"] := by
    rw [normal, segments_eq_names, happ, foldl_follow_plain (by decide)]
    rfl
  have hnames : names "etc/passwd" = ["etc", "passwd"] := by decide +kernel
  have hslashes : ".//etc/passwd" = ".//" ++ "etc/passwd" := by decide +kernel
  have hanchored : e.anchor? = some ⟨"/app"⟩ := rfl
  obtain ⟨hplace, -, hroot⟩ := anchored_as_imported hanchored (by decide)
  obtain ⟨found, hfound, -, hlies⟩ :=
    hroot "." "//etc/passwd" rfl (by decide) (Or.inr (by decide))
  refine ⟨?_, ?_, found, hfound, ?_⟩
  · refine (hplace "./lib/a.js" (by decide)).2.2 ?_
    intro rest he
    simp [← String.toList_inj] at he
  · intro he
    have htop := (hplace ".//etc/passwd" (by decide)).2.1 he _ hslashes
    rw [hanchor, hnames] at htop
    exact not_reachesTop (by decide) (by decide) htop
  · rw [hlies (by decide +kernel) (by decide +kernel)]
    intro h
    have hprefix := h "etc/passwd" hslashes
    rw [hanchor, hnames] at hprefix
    simp at hprefix

end Vendoring.AliasEntry
