import Vendoring.Proofs.Json.Plain
import Vendoring.Proofs.PackageManifest

/-! Manifests that are edited and written. What is read back is the edited manifest, and whatever
the edits spare has its value and its place as before. -/
namespace Vendoring.PackageManifest

/-- A change of a manifest. -/
inductive Edit
  | name (name : String)
  | version (version : String)
  | dependency (name range : String)
  | pin (scope version : String)

def edit (m : PackageManifest) : Edit → PackageManifest
  | .name name => m.setName name
  | .version version => m.setVersion version
  | .dependency name range => m.setDependency name range
  | .pin scope version => m.pin scope version

def edited (m : PackageManifest) (es : List Edit) : PackageManifest := es.foldl edit m

/-- An edit has nothing to do with a field. Pinning has to do with the dependencies only, and only
if there is one with the scope. -/
def Edit.Spares (field : String) (v : Json) : Edit → Prop
  | .name _ => field ≠ "name"
  | .version _ => field ≠ "version"
  | .dependency _ _ => field ≠ "dependencies"
  | .pin scope _ => field = "dependencies" →
    ∀ fields, v = .object fields → ∀ e ∈ fields, startsWith scope e.1 = false

/-- An edit has nothing to do with the range of a dependency. -/
def Edit.SparesRange (name : String) : Edit → Prop
  | .name _ | .version _ => True
  | .dependency other _ => other ≠ name
  | .pin scope _ => startsWith scope name = false

/-- A manifest that can be told from its text and nests no more containers than a text may. -/
structure Writable (m : PackageManifest) : Prop where
  told : (Json.object m.fields).Told
  room : (Json.object m.fields).depth ≤ Json.nestingLimit

variable {m : PackageManifest} {field name scope version text : String} {v : Json} {i j : Nat}
  {x : Edit} {fields deps : List (String × Json)}

/-! ## Reading what was written -/

theorem Writable.parse_text (h : m.Writable) : parse m.text = .ok m := by
  have hread : Json.parse m.text = .ok (.object m.fields) :=
    Json.parse_told (Json.written_pretty _) h.told h.room
  rw [parse, hread]
  rfl

theorem writable_of_parse (ht : Json.PlainText text) (h : parse text = .ok m) : m.Writable := by
  have hread := fields_of_parse h
  exact ⟨Json.told_of_parse ht hread, Json.depth_of_parse hread⟩

theorem Writable.setField (h : m.Writable) (hv : v.Told) (hd : v.depth < Json.nestingLimit)
    (field : String) : (m.setField field v).Writable := by
  obtain ⟨⟨hnodup, htold⟩, hroom⟩ := h
  refine ⟨⟨Keyed.nodup_keys_insert hnodup field v, htold.insert hv field⟩, ?_⟩
  have hfields : Json.fieldsDepth m.fields < Json.nestingLimit := hroom
  have hbelow : ∀ e ∈ m.fields, e.2.depth ≤ Json.nestingLimit - 1 :=
    Json.fieldsDepth_le_iff.1 (by omega)
  have hinserted : Json.fieldsDepth (Keyed.insert m.fields field v) ≤ Json.nestingLimit - 1 := by
    refine Json.fieldsDepth_le_iff.2 fun e he => ?_
    rcases Keyed.mem_insert he with rfl | he
    · exact Nat.le_sub_one_of_lt hd
    · exact hbelow e he
  change Json.fieldsDepth (Keyed.insert m.fields field v) + 1 ≤ Json.nestingLimit
  omega

/-- Dependencies that are an object can be told as well, and nest no more than their manifest. -/
theorem Writable.section (h : m.Writable) :
    (Json.object (m.section?.getD [])).Told ∧
      (Json.object (m.section?.getD [])).depth < Json.nestingLimit := by
  cases hs : m.section? with
  | none => exact ⟨⟨List.nodup_nil, trivial⟩, by decide⟩
  | some fields =>
    obtain ⟨w, hw, hobject⟩ := Option.bind_eq_some_iff.1 hs
    cases w with
    | object _ =>
      cases hobject
      have hmem := Keyed.mem_of_get? hw
      have hdepth := Json.fieldsDepth_le_iff.1 (Nat.le_refl (Json.fieldsDepth m.fields)) _ hmem
      exact ⟨Json.fieldsTold_iff.1 h.told.2 _ hmem, Nat.lt_of_le_of_lt hdepth h.room⟩
    | _ => cases hobject

theorem Writable.withSection (h : m.Writable) (ht : (Json.object deps).Told)
    (hd : (Json.object deps).depth < Json.nestingLimit) : (m.withSection deps).Writable :=
  h.setField ht hd _

theorem Writable.setText (h : m.Writable) (field text : String) :
    (m.setField field (.string text)).Writable := by
  have ht : (Json.string text).Told := trivial
  have hd : (Json.string text).depth < Json.nestingLimit := (by decide : 0 < Json.nestingLimit)
  exact h.setField ht hd field

theorem Writable.setDependency (h : m.Writable) (name range : String) :
    (m.setDependency name range).Writable := by
  obtain ⟨⟨hnodup, htold⟩, hdepth⟩ := h.section
  have ht : (Json.string range).Told := trivial
  refine h.withSection ⟨Keyed.nodup_keys_insert hnodup _ _, htold.insert ht name⟩ ?_
  refine Nat.lt_of_le_of_lt (Nat.succ_le_succ (Json.fieldsDepth_le_iff.2 fun e he => ?_)) hdepth
  rcases Keyed.mem_insert he with rfl | he
  · exact Nat.zero_le _
  · exact Json.fieldsDepth_le_iff.1 (Nat.le_refl _) e he

theorem Writable.pin (h : m.Writable) (scope version : String) :
    (m.pin scope version).Writable := by
  cases hs : m.section? with
  | none => rwa [pin_of_section?_eq_none hs]
  | some deps =>
    obtain ⟨⟨hnodup, htold⟩, hdepth⟩ := h.section
    rw [hs, Option.getD_some] at hnodup htold hdepth
    have hpinned : ∀ e ∈ pinFields scope version deps, e.2.Told ∧
        e.2.depth ≤ Json.fieldsDepth deps := by
      intro e he
      obtain ⟨d, hm, rfl⟩ := List.mem_map.1 he
      dsimp only [pinnedField]
      split
      · exact ⟨trivial, Nat.zero_le _⟩
      · exact ⟨Json.fieldsTold_iff.1 htold d hm, Json.fieldsDepth_le_iff.1 (Nat.le_refl _) d hm⟩
    have hkeys : (Keyed.keys (pinFields scope version deps)).Nodup := by rwa [keys_pinFields]
    have hlower := Json.fieldsDepth_le_iff.2 fun e he => (hpinned e he).2
    rw [pin_of_section? hs]
    refine h.withSection ⟨hkeys, Json.fieldsTold_iff.2 fun e he => (hpinned e he).1⟩ ?_
    exact Nat.lt_of_le_of_lt (Nat.succ_le_succ hlower) hdepth

theorem Writable.edit (h : m.Writable) (x : Edit) : (m.edit x).Writable := by
  cases x with
  | name name => exact h.setText _ _
  | version version => exact h.setText _ _
  | dependency name range => exact h.setDependency name range
  | pin scope version => exact h.pin scope version

theorem Writable.edited (h : m.Writable) (es : List Edit) : (m.edited es).Writable := by
  induction es generalizing m with
  | nil => exact h
  | cons x es ih => exact ih (h.edit x)

/-! ## What edits leave -/

theorem Writable.nodup (h : m.Writable) : m.fields.keys.Nodup := h.told.1

/-- The dependencies at their place are those that edits work on. -/
theorem section?_of_getElem? (hn : m.fields.keys.Nodup)
    (hi : m.fields[i]? = some ("dependencies", .object deps)) : m.section? = some deps := by
  rw [section?, Keyed.get?_of_mem hn (List.mem_of_getElem? hi)]
  rfl

theorem withSection_getElem? (hn : m.fields.keys.Nodup)
    (hi : m.fields[i]? = some ("dependencies", v)) (deps : List (String × Json)) :
    (m.withSection deps).fields[i]? = some ("dependencies", .object deps) :=
  Keyed.getElem?_insert_self hn hi _

theorem pinFields_getElem? (hj : deps[j]? = some (name, v)) (hs : startsWith scope name = false)
    (version : String) : (pinFields scope version deps)[j]? = some (name, v) := by
  rw [pinFields, List.getElem?_map, hj, Option.map_some, pinnedField, hs]
  rfl

/-- Pinning that reaches none of the dependencies leaves them. -/
theorem pinFields_of_none (h : ∀ e ∈ deps, startsWith scope e.1 = false) (version : String) :
    pinFields scope version deps = deps := by
  have hsame : ∀ e ∈ deps, (e.1, pinnedField scope version e.1 e.2) = e := by
    intro e he
    rw [pinnedField, h e he]
    rfl
  exact (List.map_congr_left hsame).trans (List.map_id deps)

/-- Every name keeps its place. -/
theorem keys_edit (m : PackageManifest) (x : Edit) :
    m.fields.keys <+: (m.edit x).fields.keys := by
  have hset (field : String) (v : Json) : m.fields.keys <+: (m.setField field v).fields.keys :=
    ⟨_, (keys_setField m field v).symm⟩
  cases x with
  | name name => exact hset _ _
  | version version => exact hset _ _
  | dependency name range => exact hset _ _
  | pin scope version =>
    change m.fields.keys <+: (m.pin scope version).fields.keys
    cases hs : m.section? with
    | none => exact (pin_of_section?_eq_none hs scope version).symm ▸ List.prefix_refl _
    | some deps =>
      rw [pin_of_section? hs]
      exact hset _ _

/-- A field that an edit spares is as it was. -/
theorem edit_spares (hn : m.fields.keys.Nodup) (hi : m.fields[i]? = some (field, v))
    (hx : x.Spares field v) : (m.edit x).fields[i]? = some (field, v) := by
  cases x with
  | name name => exact Keyed.getElem?_insert_of_ne hi hx _
  | version version => exact Keyed.getElem?_insert_of_ne hi hx _
  | dependency name range => exact Keyed.getElem?_insert_of_ne hi hx _
  | pin scope version =>
    change (m.pin scope version).fields[i]? = some (field, v)
    cases hs : m.section? with
    | none => rwa [pin_of_section?_eq_none hs]
    | some deps =>
      rw [pin_of_section? hs]
      by_cases hf : field = "dependencies"
      · subst hf
        have hv : v = .object deps := by
          rw [section?, Keyed.get?_of_mem hn (List.mem_of_getElem? hi)] at hs
          cases v <;> cases hs
          rfl
        rw [pinFields_of_none (hx rfl deps hv), hv]
        exact withSection_getElem? hn hi deps
      · exact Keyed.getElem?_insert_of_ne hi hf _

/-- A dependency that an edit spares has the range that it had, and its place among the others. -/
theorem edit_sparesRange (hn : m.fields.keys.Nodup)
    (hi : m.fields[i]? = some ("dependencies", .object deps)) (hj : deps[j]? = some (name, v))
    (hx : x.SparesRange name) : ∃ deps',
      (m.edit x).fields[i]? = some ("dependencies", .object deps') ∧
      deps'[j]? = some (name, v) := by
  have hs := section?_of_getElem? hn hi
  cases x with
  | name _ =>
    have hne : "dependencies" ≠ "name" := by decide
    exact ⟨deps, Keyed.getElem?_insert_of_ne hi hne _, hj⟩
  | version _ =>
    have hne : "dependencies" ≠ "version" := by decide
    exact ⟨deps, Keyed.getElem?_insert_of_ne hi hne _, hj⟩
  | dependency other range =>
    refine ⟨_, withSection_getElem? hn hi _, ?_⟩
    rw [hs, Option.getD_some]
    exact Keyed.getElem?_insert_of_ne hj (Ne.symm hx) _
  | pin scope version =>
    refine ⟨pinFields scope version deps, ?_, pinFields_getElem? hj hx version⟩
    change (m.pin scope version).fields[i]? = _
    rw [pin_of_section? hs]
    exact withSection_getElem? hn hi _

theorem keys_edited (m : PackageManifest) (es : List Edit) :
    m.fields.keys <+: (m.edited es).fields.keys := by
  induction es generalizing m with
  | nil => exact List.prefix_refl _
  | cons x es ih => exact (keys_edit m x).trans (ih (m.edit x))

theorem edited_spares {es : List Edit} (h : m.Writable) (hi : m.fields[i]? = some (field, v))
    (hx : ∀ x ∈ es, x.Spares field v) : (m.edited es).fields[i]? = some (field, v) := by
  induction es generalizing m with
  | nil => exact hi
  | cons x es ih =>
    obtain ⟨hfirst, hrest⟩ := List.forall_mem_cons.1 hx
    exact ih (h.edit x) (edit_spares h.nodup hi hfirst) hrest

theorem edited_sparesRange {es : List Edit} (h : m.Writable)
    (hi : m.fields[i]? = some ("dependencies", .object deps)) (hj : deps[j]? = some (name, v))
    (hx : ∀ x ∈ es, x.SparesRange name) : ∃ deps',
      (m.edited es).fields[i]? = some ("dependencies", .object deps') ∧
      deps'[j]? = some (name, v) := by
  induction es generalizing m deps with
  | nil => exact ⟨deps, hi, hj⟩
  | cons x es ih =>
    obtain ⟨hfirst, hrest⟩ := List.forall_mem_cons.1 hx
    obtain ⟨deps', hi', hj'⟩ := edit_sparesRange h.nodup hi hj hfirst
    exact ih (h.edit x) hi' hj' hrest

/-- A manifest from a text whose numbers are integers of 64 bits can be edited and written: it is
read back as it was written, is written in the same way again, and has all names in their places and
whatever the edits spare, the fields as well as the single dependencies, as it was. -/
theorem parse_edited (ht : Json.PlainText text) (h : parse text = .ok m) (es : List Edit) :
    parse (m.edited es).text = .ok (m.edited es) ∧
    (parse (m.edited es).text).map PackageManifest.text = .ok (m.edited es).text ∧
    m.fields.keys <+: (m.edited es).fields.keys ∧
    (∀ (i : Nat) (field : String) (v : Json), m.fields[i]? = some (field, v) →
      (∀ x ∈ es, x.Spares field v) → (m.edited es).fields[i]? = some (field, v)) ∧
    ∀ (i j : Nat) (deps : List (String × Json)) (name : String) (v : Json),
      m.fields[i]? = some ("dependencies", .object deps) → deps[j]? = some (name, v) →
      (∀ x ∈ es, x.SparesRange name) → ∃ deps',
        (m.edited es).fields[i]? = some ("dependencies", .object deps') ∧
        deps'[j]? = some (name, v) := by
  have hw := writable_of_parse ht h
  have hread := (hw.edited es).parse_text
  refine ⟨hread, ?again, keys_edited m es, ?fields, ?ranges⟩
  case again =>
    rw [hread]
    rfl
  case fields => exact fun i field v hi hx => edited_spares hw hi hx
  case ranges => exact fun i j deps name v hi hj hx => edited_sparesRange hw hi hj hx

/-- Minus zero, the greatest integer, a control in a name, and names that are given twice. -/
def mixedText : String :=
  "\x7b\"a\\u0001\":[-0,18446744073709551615,\x7b\"b\":1,\"b\":2\x7d],\"name\":\"x\"," ++
    "\"dependencies\":\x7b\"@s/x\":\"1\",\"y\":null\x7d,\"name\":\"n\"\x7d"

def mixedEdits : List Edit := [.name "\n", .dependency "@s/z" "3", .pin "@s/" "9", .version "1"]

theorem parse_edited_mixed : Json.PlainText mixedText ∧ ∃ m, parse mixedText = .ok m ∧
    parse (m.edited mixedEdits).text = .ok (m.edited mixedEdits) ∧
    (∀ v, m.fields[0]? = some ("a\x01", v) →
      (m.edited mixedEdits).fields[0]? = some ("a\x01", v)) ∧
    (m.edited mixedEdits).text =
      "\x7b\n  \"a\\u0001\": [\n    -0.0,\n    18446744073709551615,\n" ++
      "    \x7b\n      \"b\": 2\n    \x7d\n  ],\n  \"name\": \"\\n\",\n" ++
      "  \"dependencies\": \x7b\n    \"@s/x\": \"9\",\n    \"y\": null,\n" ++
      "    \"@s/z\": \"9\"\n  \x7d,\n  \"version\": \"1\"\n\x7d\n" := by
  have hplain : Json.PlainText mixedText := by decide +kernel
  have heval : ((parse mixedText).toOption.map fun m => (m.edited mixedEdits).text) = some
      ("\x7b\n  \"a\\u0001\": [\n    -0.0,\n    18446744073709551615,\n" ++
      "    \x7b\n      \"b\": 2\n    \x7d\n  ],\n  \"name\": \"\\n\",\n" ++
      "  \"dependencies\": \x7b\n    \"@s/x\": \"9\",\n    \"y\": null,\n" ++
      "    \"@s/z\": \"9\"\n  \x7d,\n  \"version\": \"1\"\n\x7d\n") := by decide +kernel
  cases hp : parse mixedText with
  | error e =>
    rw [hp] at heval
    cases heval
  | ok m =>
    rw [hp] at heval
    obtain ⟨hread, -, -, hfields, -⟩ := parse_edited hplain hp mixedEdits
    refine ⟨hplain, m, rfl, hread, fun v hv => hfields 0 _ v hv ?_, Option.some.inj heval⟩
    intro x hx
    simp only [mixedEdits, List.mem_cons, List.not_mem_nil, or_false] at hx
    rcases hx with rfl | rfl | rfl | rfl <;> simp [Edit.Spares]

end Vendoring.PackageManifest
