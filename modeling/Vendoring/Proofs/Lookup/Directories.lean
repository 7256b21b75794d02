import Vendoring.Proofs.Files.Canonical
import Vendoring.Proofs.Lookup.Search
import Vendoring.Proofs.Specifier

/-! Specifiers that can only name a directory. What they name is never a file, but a file beside the
directory that bears its name and an extension comes first. -/
namespace Vendoring
open Files

variable {d : Disk} {extensions : List String} {p base : Path} {spec stem tail : String}
  {importer : Lookup.Importer}

namespace Files.Disk

/-- A path that ends in a slash or a dot asks for a directory at its end. -/
theorem stepsOf_of_idle (hne : p.text ≠ "")
    (h : Path.isIdle (Text.lastPiece '/' p.text.toList) = true) :
    ∃ before, stepsOf p = before ++ ["."] := by
  rw [Path.isIdle_iff] at h
  rcases Text.eq_lastPiece_or '/' p.text.toList with ht | ⟨front, ht⟩
  · rcases h with h | h
    · rw [h] at ht
      exact absurd (String.toList_injective ht) hne
    · rw [h] at ht
      have hp : p = ⟨"."⟩ := congrArg Path.mk (String.toList_injective ht)
      exact ⟨[], by rw [hp]; decide⟩
  · rcases h with h | h
    · rw [h] at ht
      have hslash : p.endsInSlash = true := by
        rw [Path.endsInSlash, ht]
        simp
      exact ⟨p.steps, by rw [stepsOf, hslash]; rfl⟩
    · rw [h] at ht
      have htext : p.text = String.ofList front ++ "/" ++ "." := by
        apply String.toList_injective
        simp [ht]
      have hslash : p.endsInSlash = false := by
        rw [Path.endsInSlash, ht]
        simp
      refine ⟨Path.stepNames (String.ofList front), ?_⟩
      rw [stepsOf, hslash, Path.steps_eq_stepNames, htext, Path.stepNames,
        Path.picked_append_slash]
      exact List.append_nil _

/-- A path that ends in a slash or a dot leads to no file. -/
theorem kind_ne_file_of_idle (h : Path.isIdle (Text.lastPiece '/' p.text.toList) = true) :
    d.kind p ≠ .ok .file := by
  intro hk
  obtain ⟨t, bytes, hheld⟩ := kind_eq_file.1 hk
  have hne : p.text ≠ "" := by
    intro he
    rw [held, find, check, he] at hheld
    cases hheld
  obtain ⟨before, hsteps⟩ := stepsOf_of_idle hne h
  obtain ⟨⟨l, hw⟩, hx⟩ := way_of_held hheld
  rw [hsteps] at hw
  obtain ⟨l', q, -, hlast⟩ := hw.split
  have hdir := hlast.dir_of_steps (List.cons_ne_nil _ _)
  obtain ⟨-, rfl⟩ := Way.dots (n := 1) hlast
  rw [node?_of_get? hx] at hdir
  cases hdir

end Files.Disk

namespace Lookup

/-- A specifier whose text says that it means a directory: its last segment is empty or a dot. -/
def NamesDirectory (spec : String) : Prop := Path.isIdle (Text.lastPiece '/' spec.toList) = true

instance (spec : String) : Decidable (NamesDirectory spec) := inferInstanceAs (Decidable (_ = true))

/-- The names with extensions are looked for where they are without the end of the path. -/
theorem siblings_idle (h : p.text ≠ "") (ht : Path.isIdle tail.toList = true) :
    siblings extensions ⟨p.text ++ "/" ++ tail⟩ = siblings extensions p := by
  obtain ⟨hname, hparents⟩ := Path.tail_idle h ht
  simp only [siblings, spellings, List.tail_cons, Path.withFileName, Path.parent?, hname, hparents]

theorem siblings_of_named (hr : Specifier.isRelative spec = true) (hs : spec = stem ++ "/" ++ tail)
    (ht : Path.isIdle tail.toList = true) :
    siblings extensions (base.join spec) = siblings extensions (base.join stem) := by
  have hhead := Specifier.head?_of_isRelative hr
  have hne : stem ≠ "" := by
    rintro rfl
    rw [hs] at hhead
    exact hhead (by simp)
  have hl : stem.toList ≠ [] := by simpa using hne
  rw [hs, String.append_assoc, String.toList_append, List.head?_append_of_ne_nil _ hl] at hhead
  have hjoined : (base.join stem).text ≠ "" := by
    intro he
    rcases Path.join_cases hhead base with ⟨-, hj⟩ | ⟨front, hj, -⟩ <;> simp [hj, hne] at he
  rw [hs, String.append_assoc, Path.join_append hhead hne, ← String.append_assoc,
    siblings_idle hjoined ht]

/-- A relative specifier that can only name a directory gets what the directory stands for, unless
there is a file beside the directory that bears its name and an extension. Such a file comes first,
whether or not there is a directory; it is the one that the specifier gets without its end. -/
theorem directory_specifier (hr : Specifier.isRelative spec = true) (hn : NamesDirectory spec) :
    verdict d extensions importer spec =
      (if hasScheme spec then .error .unsupportedScheme
      else fileOr d (siblings extensions (importer.directory.join spec))
        (if d.kind (importer.directory.join spec) = .ok .directory then
          answer d (directory extensions importer.conditions (importer.directory.join spec))
        else .error .notFound)) ∧
    ∀ stem tail, spec = stem ++ "/" ++ tail → Path.isIdle tail.toList = true →
      siblings extensions (importer.directory.join spec) =
        siblings extensions (importer.directory.join stem) := by
  refine ⟨?_, fun stem tail hs ht => siblings_of_named hr hs ht⟩
  have hnamed : named? importer spec = some (importer.directory.join spec) := if_pos hr
  have hidle : Path.isIdle (Text.lastPiece '/' (importer.directory.join spec).text.toList) =
      true := by
    rw [Path.lastPiece_join (Specifier.head?_of_isRelative hr)]
    exact hn
  rw [verdict_of_named hnamed, outcome_path (Disk.kind_ne_file_of_idle hidle)]

/-- A directory beside a file of its name. -/
def shadowedDisk : Disk where
  root := .directory [("lib", .directory [("index.js", .file ⟨#[1]⟩)]), ("lib.js", .file ⟨#[2]⟩)]
  here := []

/-- The directory has a file to give, and the file beside it is given. -/
theorem directory_specifier_shadowed :
    (Specifier.isRelative "./lib/" = true ∧ NamesDirectory "./lib/") ∧
    shadowedDisk.kind ⟨"/./lib/"⟩ = .ok .directory ∧
    answer shadowedDisk (directory defaultExtensions [] ⟨"/./lib/"⟩) = .ok ⟨"/lib/index.js"⟩ ∧
    verdict shadowedDisk defaultExtensions ⟨⟨"/"⟩, []⟩ "./lib/" = .ok ⟨"/lib.js"⟩ := by
  have hr : Specifier.isRelative "./lib/" = true := by decide
  have hn : NamesDirectory "./lib/" := by decide
  have hverdict : verdict shadowedDisk defaultExtensions ⟨⟨"/"⟩, []⟩ "./lib/" = _ :=
    (directory_specifier hr hn).1
  refine ⟨⟨hr, hn⟩, by decide +kernel, by decide +kernel, hverdict.trans ?_⟩
  decide +kernel

end Lookup

end Vendoring
