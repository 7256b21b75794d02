import Vendoring.Lookup

/-! What a lookup of files takes from the importer. -/
namespace Vendoring.Lookup

variable {m : Type → Type} [Monad m] [Files.FileView m] {extensions conditions : List String}
  {spec : String} {directory directory' : Path}

/-- The importing directory counts for relative and bare specifiers alone. -/
theorem outcome_of_absolute (h : (⟨spec⟩ : Path).isAbsolute = true) :
    (outcome extensions ⟨directory, conditions⟩ spec : Probe m Outcome) =
      if hasScheme spec then return .error .unsupportedScheme
      else path extensions conditions ⟨spec⟩ := by
  obtain ⟨rest, hs⟩ := List.head?_eq_some_iff.1 (of_decide_eq_true h)
  have hne : spec ≠ "" := by
    rintro rfl
    simp at hs
  have hrel : Specifier.isRelative spec = false := by
    have h1 : spec ≠ "." := by
      rintro rfl
      simp at hs
    have h2 : spec ≠ ".." := by
      rintro rfl
      simp at hs
    simp [Specifier.isRelative, List.isPrefixOf, hs, h1, h2]
  have habs : isAbsolute spec = true := by simp [isAbsolute, hs]
  rw [outcome, if_neg hne, hrel, habs]
  simp

/-- A relative specifier is looked for at what it names as seen from the importing directory. -/
theorem outcome_of_relative (h : Specifier.isRelative spec = true) (hs : hasScheme spec = false) :
    (outcome extensions ⟨directory, conditions⟩ spec : Probe m Outcome) =
      path extensions conditions (directory.join spec) := by
  have hne : spec ≠ "" := by
    rintro rfl
    cases h
  rw [outcome, if_neg hne, hs, h]
  rfl

theorem resolve_of_absolute (h : (⟨spec⟩ : Path).isAbsolute = true) :
    (resolve extensions ⟨directory, conditions⟩ spec : m (Except Fault Path)) =
      resolve extensions ⟨directory', conditions⟩ spec := by
  rw [resolve, resolve, outcome_of_absolute h, outcome_of_absolute h]

end Vendoring.Lookup
