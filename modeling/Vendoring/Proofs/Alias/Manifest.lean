import Vendoring.Alias.Manifest
import Vendoring.Proofs.ExportMap.Document

/-! Alias manifests are read back from their text, unless an export map in them is nested too
deeply: in the document it stands three containers deep. -/
namespace Vendoring
open Outcome

namespace AliasRecord

variable {r r' : AliasRecord} {room : Nat} {s : Partial}
  {rest : List (Option String × Json.Draft)}

/-- All maps of a record have each key once. -/
def Distinct (r : AliasRecord) : Prop := ∀ x, r.exports? = some x → x.Distinct

/-- All maps of a record can be read with `room` containers. -/
def Fits (room : Nat) (r : AliasRecord) : Prop := ∀ x, r.exports? = some x → x.depth ≤ room

theorem fillNamed_root (h : s.root? = none) (root : String) :
    shape.fillNamed room s ((some "vendoredRoot", .string (some root)) :: rest) =
      shape.fillNamed room { s with root? := some (some root) } rest := by
  have hslot : shape.slots.find? (·.name = "vendoredRoot") = shape.slots.head? := rfl
  rw [Json.Reader.Shape.fillNamed, hslot]
  simp [shape, Json.Reader.Slot.of, h, Json.Reader.optional, Json.Reader.string]

theorem fillNamed_exports (h : s.exports? = none) (x : ExportMap) :
    shape.fillNamed room s ((some "exports", Json.draftOf x.toJson) :: rest) =
      (ExportMap.reader room (Json.draftOf x.toJson) >>= fun x =>
        shape.fillNamed room { s with exports? := some (some x) } rest) := by
  have hslot : shape.slots.find? (·.name = "exports") = shape.slots.getLast? := rfl
  have hmap : Json.draftOf x.toJson = .object (Json.fieldDraftsOf (ExportMap.fieldsOf x.entries)) :=
    rfl
  rw [Json.Reader.Shape.fillNamed, hslot]
  simp [shape, Json.Reader.Slot.of, h, Json.Reader.optional, hmap]

/-- The fields of a record as they are drafted. -/
theorem draftOf_toJson (r : AliasRecord) :
    Json.draftOf r.toJson = .object
      ((r.root?.map fun root => (some "vendoredRoot", Json.Draft.string (some root))).toList ++
        (r.exports?.map fun x => (some "exports", Json.draftOf x.toJson)).toList) := by
  obtain ⟨root?, exports?⟩ := r
  cases root? <;> cases exports? <;> rfl

theorem reader_draftOf (hd : r.Distinct) (hf : r.Fits room) :
    reader (room + 1) (Json.draftOf r.toJson) = .ok r := by
  obtain ⟨root?, exports?⟩ := r
  rw [reader, draftOf_toJson, Json.Reader.Shape.fill]
  cases root? <;> cases exports?
  · rfl
  · next x =>
    have hx := ExportMap.reader_draftOf (hd x rfl) (hf x rfl)
    simp only [Option.map_none, Option.map_some, Option.toList, List.nil_append]
    rw [fillNamed_exports rfl, hx]
    rfl
  · simp only [Option.map_none, Option.map_some, Option.toList, List.append_nil]
    rw [fillNamed_root rfl]
    rfl
  · next x =>
    have hx := ExportMap.reader_draftOf (hd x rfl) (hf x rfl)
    simp only [Option.map_some, Option.toList, List.cons_append, List.nil_append]
    rw [fillNamed_root rfl, fillNamed_exports rfl, hx]
    rfl

theorem fits_of_reader (h : reader (room + 1) (Json.draftOf r.toJson) = .ok r') : r.Fits room := by
  obtain ⟨root?, exports?⟩ := r
  intro x hx
  cases hx
  rw [reader, draftOf_toJson, Json.Reader.Shape.fill] at h
  obtain ⟨s, hs, -⟩ := bind_eq_ok.1 h
  cases root? with
  | none =>
    simp only [Option.map_none, Option.map_some, Option.toList, List.nil_append] at hs
    rw [fillNamed_exports rfl] at hs
    obtain ⟨_, hx, -⟩ := bind_eq_ok.1 hs
    exact ExportMap.depth_le_of_reader hx
  | some root =>
    simp only [Option.map_some, Option.toList, List.cons_append, List.nil_append] at hs
    rw [fillNamed_root rfl, fillNamed_exports rfl] at hs
    obtain ⟨_, hx, -⟩ := bind_eq_ok.1 hs
    exact ExportMap.depth_le_of_reader hx

theorem exact_toJson (hd : r.Distinct) : r.toJson.Exact := by
  obtain ⟨root?, exports?⟩ := r
  have hx : ∀ x, exports? = some x → x.toJson.Exact :=
    fun x he => ExportMap.exact_map (hd x he)
  cases root? <;> cases exports? <;>
    simp [AliasRecord.toJson, Json.Exact, Json.FieldsExact, hx]

end AliasRecord

namespace AliasManifest

variable {m m' : AliasManifest}

/-- Each identity stands once in a manifest, and so does each key in its maps. -/
structure Distinct (m : AliasManifest) : Prop where
  keys : m.aliases.keys.Nodup
  records : ∀ e ∈ m.aliases, e.2.Distinct

/-- No map of a manifest is nested more deeply than it is read: the document, its table and the
record around the map are three containers. -/
def Fits (m : AliasManifest) : Prop := ∀ e ∈ m.aliases, e.2.Fits (Json.nestingLimit - 3)

theorem exact_toJson (h : m.Distinct) (hv : m.schemaVersion < twoTo 32) : m.toJson.Exact := by
  have hlow : -(twoTo 63 : Int) ≤ m.schemaVersion := by omega
  have hhigh : (m.schemaVersion : Int) < twoTo 64 := by
    have hp : twoTo 32 ≤ twoTo 64 := by decide
    omega
  have hkeys : (m.aliases.map fun e => (e.1, e.2.toJson)).map (·.1) = m.aliases.keys := by
    rw [List.map_map]
    rfl
  have hfields : ∀ es : Keyed AliasRecord, (∀ e ∈ es, e.2.Distinct) →
      Json.FieldsExact (es.map fun e => (e.1, e.2.toJson)) := by
    intro es hes
    induction es with
    | nil => trivial
    | cons e r ih =>
      have hr := List.forall_mem_cons.1 hes
      exact ⟨AliasRecord.exact_toJson hr.1, ih hr.2⟩
  refine ⟨by simp, ⟨hlow, hhigh⟩, ⟨?_, hfields _ h.records⟩, trivial⟩
  rw [hkeys]
  exact h.keys

theorem fieldDraftsOf_aliases (es : Keyed AliasRecord) :
    Json.fieldDraftsOf (es.map fun e => (e.1, e.2.toJson)) =
      es.map fun e => (some e.1, Json.draftOf e.2.toJson) := by
  induction es with
  | nil => rfl
  | cons e r ih => rw [List.map_cons, Json.fieldDraftsOf, List.map_cons, ih]

theorem draftOf_toJson (m : AliasManifest) :
    Json.draftOf m.toJson = .object
      [(some "schema_version", Json.draftOf (.int m.schemaVersion)),
        (some "aliases", .object (m.aliases.map fun e => (some e.1, Json.draftOf e.2.toJson)))] := by
  simp only [toJson, Json.draftOf, Json.fieldDraftsOf, fieldDraftsOf_aliases]

theorem word32_draftOf (room : Nat) {v : Nat} (h : v < twoTo 32) :
    Json.Reader.word32 room (Json.draftOf (.int v)) = .ok v := by
  have hexact : (Json.int v).Exact := by
    have hp : twoTo 32 ≤ twoTo 64 := by decide
    exact ⟨by omega, by omega⟩
  have hrange : 0 ≤ (v : Int) ∧ (v : Int) < twoTo 32 := by omega
  rw [Json.draftOf, Json.Reader.word32, Json.value?_numeralOf hexact]
  dsimp only
  rw [if_pos hrange]
  rfl

variable {room : Nat} {s : Partial} {rest : List (Option String × Json.Draft)}

theorem fillNamed_schema (h : s.schemaVersion? = none) {v : Nat} (hv : v < twoTo 32) :
    shape.fillNamed room s ((some "schema_version", Json.draftOf (.int v)) :: rest) =
      shape.fillNamed room { s with schemaVersion? := some v } rest := by
  have hslot : shape.slots.find? (·.name = "schema_version") = shape.slots.head? := rfl
  rw [Json.Reader.Shape.fillNamed, hslot]
  simp only [shape, Json.Reader.Slot.of, List.head?_cons, h, Option.isSome_none,
    Bool.false_eq_true, if_false, word32_draftOf room hv]
  rfl

theorem fillNamed_aliases (h : s.aliases? = none) (ds : List (Option String × Json.Draft)) :
    shape.fillNamed (room + 1) s ((some "aliases", .object ds) :: rest) =
      (Json.Reader.entries AliasRecord.reader room [] ds >>= fun t =>
        shape.fillNamed (room + 1) { s with aliases? := some t } rest) := by
  have hslot : shape.slots.find? (·.name = "aliases") = shape.slots.getLast? := rfl
  rw [Json.Reader.Shape.fillNamed, hslot]
  simp [shape, Json.Reader.Slot.of, h, Json.Reader.tableOf]

/-- Reading a written manifest is reading its table. -/
theorem reader_draftOf (hv : m.schemaVersion < twoTo 32) :
    reader (room + 2) (Json.draftOf m.toJson) =
      (Json.Reader.entries AliasRecord.reader room []
        (m.aliases.map fun e => (some e.1, Json.draftOf e.2.toJson)) >>= fun t =>
          .ok ⟨m.schemaVersion, t⟩) := by
  rw [reader, draftOf_toJson, Json.Reader.Shape.fill, fillNamed_schema rfl hv,
    fillNamed_aliases rfl]
  cases Json.Reader.entries AliasRecord.reader room []
    (m.aliases.map fun e => (some e.1, Json.draftOf e.2.toJson)) <;> rfl

theorem parse_text (h : m.Distinct) (hv : m.schemaVersion < twoTo 32) :
    parse m.text = reader Json.nestingLimit (Json.draftOf m.toJson) :=
  Json.read_written reader (Json.written_pretty _) (exact_toJson h hv)

/-- A manifest whose maps fit is read back as it was, with the order and the nesting of all that it
holds. -/
theorem parse_text_of_fits (h : m.Distinct) (hv : m.schemaVersion < twoTo 32) (hf : m.Fits) :
    parse m.text = .ok m := by
  have he : Json.Reader.entries AliasRecord.reader (Json.nestingLimit - 2) []
      (m.aliases.map fun e => (some e.1, Json.draftOf e.2.toJson)) = .ok ([] ++ m.aliases) :=
    Json.Reader.entries_eq_ok (f := fun r => Json.draftOf r.toJson)
      (by simpa [Keyed.keys] using h.keys)
      fun e he => AliasRecord.reader_draftOf (h.records e he) (hf e he)
  rw [parse_text h hv, Json.nestingLimit, reader_draftOf hv]
  exact bind_eq_ok.2 ⟨_, he, rfl⟩

/-- What is read at all has maps that fit. -/
theorem fits_of_parse_text (h : m.Distinct) (hv : m.schemaVersion < twoTo 32)
    (hp : parse m.text = .ok m') : m.Fits := by
  rw [parse_text h hv, Json.nestingLimit, reader_draftOf hv] at hp
  obtain ⟨t, ht, -⟩ := bind_eq_ok.1 hp
  intro e he
  obtain ⟨_, hr⟩ := Json.Reader.exists_of_entries ht _ (List.mem_map_of_mem he)
  exact AliasRecord.fits_of_reader hr

theorem accept_text_of_fits (h : m.Distinct) (hv : m.schemaVersion = currentSchema) (hf : m.Fits)
    (p : Path) : accept p m.text = .ok m := by
  have hsmall : m.schemaVersion < twoTo 32 := by
    rw [hv]
    decide
  rw [accept, parse_text_of_fits h hsmall hf]
  exact if_pos hv

theorem accept_text_of_not_fits (h : m.Distinct) (hv : m.schemaVersion < twoTo 32) (hf : ¬ m.Fits)
    (p : Path) : ∃ cause, accept p m.text = .error (.malformed p cause) := by
  cases hp : parse m.text with
  | ok m' => exact absurd (fits_of_parse_text h hv hp) hf
  | error cause => exact ⟨cause, by rw [accept, hp]; rfl⟩

end AliasManifest

end Vendoring
