import Vendoring.Build.Apply
import Vendoring.Proofs.Build.Identity
import Vendoring.Proofs.Marker.Directory

/-! All that is done to the packages before the swap stays in the staging directory. -/
namespace Vendoring

open Files Files.Disk

variable {σ : Type} [FileStore (StateM σ)] [Carrier σ] [LawfulCarrier σ] {b : Disk} {q : Trail}
  {scratch : Scratch} {staging target : Path} {rest : List String} {identity name : String}

theorem Identity.steps_of_isValid (h : isValid identity = true) :
    ".." ∉ Path.stepNames identity := by
  intro hm
  obtain ⟨segment, hs, he⟩ := List.mem_map.1 hm
  have hp := name_of_isPlain (isPlain_of_isValid h (List.mem_filter.1 hs).1)
  exact hp.2.2 (by simpa using congrArg String.toList he)

theorem PackageManifest.proper_fileName : ProperName fileName := by decide

/-- The manifest in a directory stands there under its own name. -/
theorem PackageManifest.fileName?_join (directory : Path) :
    (directory.join fileName).fileName? = some fileName := by
  have hname : (⟨fileName⟩ : Path).fileName? = some fileName := by decide +kernel
  exact Path.fileName?_join (head?_of_proper proper_fileName) hname

theorem PackageManifest.keeps_save (htag : '/' ∉ scratch.tag.toList)
    (ht : Inside b q target rest) (manifest : PackageManifest) :
    Keeps (Region b q) Any (manifest.save scratch target : Work σ Files.Fault Unit) := by
  obtain ⟨way, hs⟩ := Path.standing_of_fileName? (fileName?_join target)
  refine keeps_replaceFile htag (ht.child proper_fileName) hs ?_ _
  exact ⟨fileName, by simp, proper_fileName.2.2.1⟩

namespace Marker

theorem keeps_updateFiles (hb : b.Proper) (marker : Marker) (globs : List Glob)
    (ht : Inside b q target rest) :
    Keeps (Region b q) Any (marker.updateFiles globs target : Work σ Fault (List Path)) := by
  have hlist : Keeps (Region b q) (fun es => ∀ e ∈ es, ProperName e.1)
      (FileView.listing target : Work σ Fault (List (String × Kind))) :=
    keeps_listing_of fun d es h hl => names_of_listing (h.proper hb) hl
  exact marker.keeps_updateFiles_of globs hlist fun name hn bytes => keeps_write (ht.child hn) bytes

end Marker

namespace BuildPlan

theorem keeps_stage (hb : b.Proper) (plan : BuildPlan) {p : PlannedPackage}
    (htag : '/' ∉ scratch.tag.toList) (hs : Inside b q staging rest)
    (hv : Identity.isValid p.identity = true) :
    Keeps (Region b q) Any
      (plan.stage scratch staging p : Work σ BuildFault PackageReport) := by
  have ht := hs.join (Identity.head?_of_isValid hv) (Identity.steps_of_isValid hv)
  refine keeps_bind (keeps_adapt (keeps_copyTree hb ht)) fun copied _ => ?_
  have hmarkers (marker : Marker) : Keeps (Region b q) Any (List.length <$>
      ExceptT.adapt (BuildFault.markersFailed p.identity)
        (marker.updateFiles plan.globs (staging.join p.identity)) : Work σ BuildFault Nat) :=
    keeps_map (keeps_adapt (marker.keeps_updateFiles hb plan.globs ht))
  have hsave (manifest : PackageManifest) : Keeps (Region b q) Any
      (ExceptT.adapt (BuildFault.writeFailed (manifestPath (staging.join p.identity)))
        (manifest.save scratch (staging.join p.identity)) : Work σ BuildFault Unit) :=
    keeps_adapt (PackageManifest.keeps_save htag ht manifest)
  have hnone : Keeps (Region b q) Any (pure 0 : Work σ BuildFault Nat) := keeps_pure trivial
  cases plan.marker? with
  | none =>
    refine keeps_bind hnone fun replaced _ => ?_
    cases p.renamed? with
    | none => exact keeps_pure trivial
    | some manifest => exact keeps_bind (hsave manifest) fun _ _ => keeps_pure trivial
  | some marker =>
    refine keeps_bind (hmarkers marker) fun replaced _ => ?_
    cases p.renamed? with
    | none => exact keeps_pure trivial
    | some manifest => exact keeps_bind (hsave manifest) fun _ _ => keeps_pure trivial

theorem keeps_stageAll (hb : b.Proper) (plan : BuildPlan) {ps : List PlannedPackage}
    (htag : '/' ∉ scratch.tag.toList) (hs : Inside b q staging rest)
    (hv : ∀ p ∈ ps, Identity.isValid p.identity = true) :
    Keeps (Region b q) Any
      (plan.stageAll scratch staging ps : Work σ BuildFault (List PackageReport)) := by
  induction ps with
  | nil => exact keeps_pure trivial
  | cons p ps ih =>
    refine keeps_bind (plan.keeps_stage hb htag hs (hv p (List.mem_cons_self ..))) fun _ _ => ?_
    refine keeps_bind (ih fun p hp => hv p (List.mem_cons_of_mem _ hp)) fun _ _ => ?_
    exact keeps_pure trivial

end BuildPlan

end Vendoring
