import Vendoring.Json.Reader
import Vendoring.Proofs.Json.Writing

/-! The draft of a written value is the value with its numbers as they are written. -/
namespace Vendoring.Json
open Token

mutual

def draftOf : Json → Draft
  | .null => .null
  | .bool b => .bool b
  | .int n => .number (numeralOf n)
  | .double _ => .broken
  | .string s => .string (some s)
  | .array items => .array (draftsOf items)
  | .object fields => .object (fieldDraftsOf fields)

def draftsOf : List Json → List Draft
  | [] => []
  | v :: r => draftOf v :: draftsOf r

def fieldDraftsOf : List (String × Json) → List (Option String × Draft)
  | [] => []
  | (name, v) :: r => (some name, draftOf v) :: fieldDraftsOf r

end

mutual

/-- The draft of a written value, doubles included. -/
def spelled : Json → Draft
  | .null => .null
  | .bool b => .bool b
  | .int n => .number (numeralOf n)
  | .double x => .number (numeralOfDouble x)
  | .string s => .string (some s)
  | .array items => .array (spelledItems items)
  | .object fields => .object (spelledFields fields)

def spelledItems : List Json → List Draft
  | [] => []
  | v :: r => spelled v :: spelledItems r

def spelledFields : List (String × Json) → List (Option String × Draft)
  | [] => []
  | (name, v) :: r => (some name, spelled v) :: spelledFields r

end

mutual

theorem Exact.spelled_eq : ∀ v : Json, v.Exact → v.spelled = draftOf v
  | .null, _ => by rw [spelled, draftOf]
  | .bool _, _ => by rw [spelled, draftOf]
  | .int _, _ => by rw [spelled, draftOf]
  | .double _, h => h.elim
  | .string _, _ => by rw [spelled, draftOf]
  | .array items, h => by rw [spelled, draftOf, spelledItems_eq items h]
  | .object fields, h => by rw [spelled, draftOf, spelledFields_eq fields h.2]

theorem spelledItems_eq : ∀ vs : List Json, ItemsExact vs → spelledItems vs = draftsOf vs
  | [], _ => by rw [spelledItems, draftsOf]
  | v :: vs, h => by rw [spelledItems, draftsOf, Exact.spelled_eq v h.1, spelledItems_eq vs h.2]

theorem spelledFields_eq : ∀ fs : List (String × Json), FieldsExact fs →
    spelledFields fs = fieldDraftsOf fs
  | [], _ => by rw [spelledFields, fieldDraftsOf]
  | (_, v) :: fs, h => by
    rw [spelledFields, fieldDraftsOf, Exact.spelled_eq v h.1, spelledFields_eq fs h.2]

end

variable {v : Json} {frames : List Draft.Frame} {r : List Token}

theorem words_head (v : Json) : ∃ t ts, words v = t :: ts ∧ t ≠ .closeArray := by
  cases v with
  | array items =>
    cases items with
    | nil => exact ⟨_, _, rfl, nofun⟩
    | cons v vs => exact ⟨.openArray, _, by rw [words, List.cons_append, List.cons_append], nofun⟩
  | object fields =>
    cases fields with
    | nil => exact ⟨_, _, rfl, nofun⟩
    | cons f fs =>
      obtain ⟨name, v⟩ := f
      exact ⟨.openObject, _, by rw [words, List.cons_append, List.cons_append], nofun⟩
  | _ => exact ⟨_, _, rfl, nofun⟩

theorem value_openArray (v : Json) :
    Draft.value frames (.openArray :: (words v ++ r)) =
      Draft.value (.array [] :: frames) (words v ++ r) := by
  obtain ⟨t, ts, hw, hne⟩ := words_head v
  rw [hw, List.cons_append, Draft.value]
  intro r' hr
  exact hne (List.cons.inj hr).1

mutual

theorem value_words : ∀ (v : Json) (frames : List Draft.Frame) (r : List Token),
    Draft.value frames (words v ++ r) = Draft.behind frames (spelled v) r
  | .null, _, _ => by rw [words, List.cons_append, List.nil_append, Draft.value, spelled]
  | .bool _, _, _ => by rw [words, List.cons_append, List.nil_append, Draft.value, spelled]
  | .int _, _, _ => by rw [words, List.cons_append, List.nil_append, Draft.value, spelled]
  | .double _, _, _ => by rw [words, List.cons_append, List.nil_append, Draft.value, spelled]
  | .string _, _, _ => by rw [words, List.cons_append, List.nil_append, Draft.value, spelled]
  | .array [], frames, r => by
    rw [words, List.cons_append, List.cons_append, List.nil_append, Draft.value, spelled,
      spelledItems]
  | .array (v :: vs), frames, r => by
    simp only [words, List.cons_append, List.append_assoc, List.nil_append]
    rw [value_openArray v, value_words v, behind_itemWords vs []]
    rfl
  | .object [], frames, r => by
    rw [words, List.cons_append, List.cons_append, List.nil_append, Draft.value, spelled,
      spelledFields]
  | .object ((name, v) :: fs), frames, r => by
    simp only [words, List.cons_append, List.append_assoc, List.nil_append]
    rw [Draft.value, value_words v, behind_fieldWords fs []]
    rfl

/-- The rest of an array closes it around all of its items. -/
theorem behind_itemWords : ∀ (vs : List Json) (before : List Draft) (d : Draft)
    (frames : List Draft.Frame) (r : List Token),
    Draft.behind (.array before :: frames) d (itemWords vs ++ .closeArray :: r) =
      Draft.behind frames (.array (before.reverse ++ d :: spelledItems vs)) r
  | [], before, d, frames, r => by
    rw [itemWords, List.nil_append, Draft.behind, Draft.Frame.close, spelledItems]
  | v :: vs, before, d, frames, r => by
    simp only [itemWords, List.cons_append, List.append_assoc]
    rw [Draft.behind, value_words v, behind_itemWords vs, List.reverse_cons,
      List.append_assoc]
    rfl

theorem behind_fieldWords : ∀ (fs : List (String × Json))
    (before : List (Option String × Draft)) (name : String) (d : Draft)
    (frames : List Draft.Frame) (r : List Token),
    Draft.behind (.object before (some name) :: frames) d (fieldWords fs ++ .closeObject :: r) =
      Draft.behind frames (.object (before.reverse ++ (some name, d) :: spelledFields fs)) r
  | [], before, name, d, frames, r => by
    rw [fieldWords, List.nil_append, Draft.behind, Draft.Frame.close, spelledFields]
  | (next, v) :: fs, before, name, d, frames, r => by
    simp only [fieldWords, List.cons_append, List.append_assoc]
    rw [Draft.behind, value_words v, behind_fieldWords fs,
      List.reverse_cons, List.append_assoc]
    rfl

end

/-- A text of a value: in any layout of blanks, and with blanks behind it. -/
def Written (v : Json) (text : String) : Prop :=
  ∃ (l : Layout) (b : List Char), l.Blank ∧ (∀ c ∈ b, isBlank c = true) ∧
    text = String.ofList (write l 0 v ++ b)

theorem written_compact (v : Json) : v.Written v.compact :=
  ⟨.compact, [], Layout.blank_compact, fun _ hc => absurd hc List.not_mem_nil, by simp [compact]⟩

theorem written_pretty (v : Json) : v.Written (v.pretty ++ "\n") := by
  refine ⟨.pretty, ['\n'], Layout.blank_pretty, by simp [isBlank], ?_⟩
  apply String.toList_injective
  simp [pretty]

/-- A written value is drafted in full. -/
theorem ofText_told {text : String} (ht : v.Written text) (h : v.Told) :
    Draft.ofText text = (v.spelled, true) := by
  obtain ⟨l, b, hl, hb, rfl⟩ := ht
  have hends : Ends b := by
    rw [← List.append_nil b]
    exact ends_blanks hb nofun
  have hblank : scan b = [] := by
    rw [← List.append_nil b, scan_blanks hb, scan_nil]
  rw [Draft.ofText, String.toList_ofList, scan_write hl 0 v b h hends, hblank,
    value_words v, Draft.behind]
  rfl

end Vendoring.Json
