import Vendoring.Proofs.Files.Region
import Vendoring.Proofs.Files.Seeing

/-! The absolute path of a place that passes through no links: it leads back to the place. -/
namespace Vendoring.Files

/-- What a file system takes as the name of an entry. -/
def LegalName (name : String) : Prop :=
  ProperName name ∧ '\x00' ∉ name.toList ∧ Disk.isTooLong name = false

instance (name : String) : Decidable (LegalName name) := inferInstanceAs (Decidable (_ ∧ _))

namespace Disk
open Outcome

variable {d : Disk} {p q : Path} {t place rest : Trail} {name : String} {links : Nat} {k : Node}
  {bytes : ByteArray}

theorem pathOf_concat (t : Trail) (name : String) :
    (pathOf (t ++ [name])).text = (if t = [] then "" else (pathOf t).text) ++ "/" ++ name := by
  rw [pathOf]
  split
  · next ht => rw [ht, List.nil_append, String.intercalate_singleton, String.empty_append]
  · next ht =>
    rw [String.intercalate_append_of_ne_nil ht (List.cons_ne_nil name []),
      String.intercalate_singleton, pathOf]
    simp only [String.append_assoc]

/-- The absolute path of a place is one that the system takes. -/
def Short (t : Trail) : Prop := (pathOf t).text.utf8ByteSize ≤ pathLimit

theorem Short.front (h : Short (t ++ rest)) : Short t := by
  induction rest using List.reverseRecOn with
  | nil => rwa [List.append_nil] at h
  | append_singleton rest name ih =>
    refine ih ?_
    rw [← List.append_assoc, Short, pathOf_concat] at h
    split at h
    · next hnil =>
      rw [hnil, Short]
      decide
    · simp only [String.utf8ByteSize_append] at h
      rw [Short]
      omega

/-- A way that takes steps starts in a directory. -/
theorem Way.dir_of_steps {steps : List String} {links' : Nat} {place' : Trail} (hs : steps ≠ [])
    (h : Way d ∅ links place steps links' place' []) : d.node? place = some .directory := by
  cases h with
  | stop _ => exact absurd rfl hs
  | stay _ dir _ => exact dir
  | up _ dir _ => exact dir
  | down _ dir _ _ _ _ _ => exact dir
  | link _ dir _ _ _ _ _ => exact dir

theorem stepsOf_ne_nil (h : p.text ≠ "") : stepsOf p ≠ [] := by
  have hl : p.text.toList ≠ [] := by simpa using h
  obtain ⟨l, c, hc⟩ := (List.eq_nil_or_concat p.text.toList).resolve_left hl
  rw [List.concat_eq_append] at hc
  rw [stepsOf, Path.endsInSlash, hc]
  by_cases hs : c = '/'
  · simp [hs]
  · -- The piece that ends the text is a step.
    have hfirst : Text.firstPiece '/' [c] = [c] := by
      rw [Text.firstPiece, List.splitOn_eq_singleton (by simpa using Ne.symm hs)]
      rfl
    have hpiece : Text.lastPiece '/' l ++ [c] ∈ p.text.toList.splitOn '/' := by
      rw [hc, Text.splitOn_append, hfirst]
      simp
    have hstep : String.ofList (Text.lastPiece '/' l ++ [c]) ∈ p.steps :=
      List.mem_map_of_mem (List.mem_filter.2 ⟨hpiece, by simp⟩)
    exact fun hnil => List.ne_nil_of_mem hstep (List.append_eq_nil_iff.1 hnil).1

/-- What a way leads to is found at the path that it takes. -/
theorem held_of_way {x : Tree} (hw : Way d ∅ linkLimit (startOf p d.here) (stepsOf p) links t [])
    (hx : d.get? t = some x) (hc : check p = .ok ()) : d.held true p = .ok (t, x) := by
  have hwalk : d.walk true linkLimit (startOf p d.here) (stepsOf p ++ []) =
      d.walk true links t ([] ++ []) := walk_way hw (Or.inl rfl)
  rw [List.append_nil, List.append_nil] at hwalk
  rw [held, find, hc]
  simp only [bind, Except.bind, hwalk, walk_end hx]
  rfl

theorem kind_eq_file : d.kind p = .ok .file ↔ ∃ t bytes, d.held true p = .ok (t, .file bytes) := by
  constructor
  · intro h
    obtain ⟨t, x, hheld, hx⟩ := kind_eq_ok h
    cases x with
    | file bytes => exact ⟨t, bytes, hheld⟩
    | link _ => cases hx
    | directory _ => cases hx
  · rintro ⟨t, bytes, hheld⟩
    rw [Disk.kind, hheld]
    rfl

/-! ## Walks by absolute paths -/

end Disk

end Vendoring.Files
