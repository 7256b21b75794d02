import Vendoring.PackageManifest
import Vendoring.Proofs.Json.Reading

/-! What is written into a manifest. Writing the same again changes nothing, and pinning gives each
dependency a range that its name decides. -/
namespace Vendoring.PackageManifest
open Outcome

variable {m : PackageManifest} {name key scope version range : String} {v : Json}

@[simp] theorem get?_setField (m : PackageManifest) (name : String) (v : Json) :
    (m.setField name v).fields.get? name = some v :=
  Keyed.get?_insert_self m.fields name v

theorem get?_setField_of_ne (h : name ≠ key) (m : PackageManifest) (v : Json) :
    (m.setField name v).fields.get? key = m.fields.get? key :=
  Keyed.get?_insert_of_ne h m.fields v

/-- A new name goes to the end. -/
theorem keys_setField (m : PackageManifest) (name : String) (v : Json) :
    (m.setField name v).fields.keys = m.fields.keys ++ [name].filter (· ∉ m.fields.keys) := by
  rw [setField, Keyed.keys_insert]
  by_cases hm : name ∈ m.fields.keys <;> simp [hm]

@[simp] theorem setField_setField (m : PackageManifest) (name : String) (v w : Json) :
    (m.setField name v).setField name w = m.setField name w := by
  simp [setField]

@[simp] theorem version?_setVersion (m : PackageManifest) (version : String) :
    (m.setVersion version).version? = some version := by
  simp [version?, setVersion, Json.string?]

@[simp] theorem section?_setVersion (m : PackageManifest) (version : String) :
    (m.setVersion version).section? = m.section? := by
  rw [section?, setVersion, get?_setField_of_ne (by decide), section?]

theorem setVersion_of_version? (h : m.version? = some version) : m.setVersion version = m := by
  obtain ⟨v, hv, hs⟩ := Option.bind_eq_some_iff.1 h
  cases v with
  | string s =>
    cases hs
    rw [setVersion, setField, Keyed.insert_of_get? hv]
  | _ => cases hs

/-! ## Manifests from texts -/

theorem fields_of_parse {text : String} (h : parse text = .ok m) :
    Json.parse text = .ok (.object m.fields) := by
  rw [parse] at h
  split at h
  · next v hv =>
    cases v <;> cases h
    exact hv
  · cases h

/-- No exports are declared where the field is missing, and where it is null. -/
theorem exports?_eq_none :
    m.exports? = none ↔ m.fields.get? "exports" = none ∨ m.fields.get? "exports" = some .null := by
  rw [exports?]
  cases m.fields.get? "exports" with
  | none => simp
  | some v => cases v <;> simp [Json.isNull]

/-! ## Dependencies -/

def withSection (m : PackageManifest) (fields : List (String × Json)) : PackageManifest :=
  m.setField "dependencies" (.object fields)

@[simp] theorem section?_withSection (m : PackageManifest) (fields : List (String × Json)) :
    (m.withSection fields).section? = some fields := by
  simp [section?, withSection, Json.object?]

@[simp] theorem withSection_withSection (m : PackageManifest) (a b : List (String × Json)) :
    (m.withSection a).withSection b = m.withSection b :=
  setField_setField ..

@[simp] theorem version?_withSection (m : PackageManifest) (fields : List (String × Json)) :
    (m.withSection fields).version? = m.version? := by
  rw [version?, withSection, get?_setField_of_ne (by decide), version?]

theorem setDependency_eq (m : PackageManifest) (name range : String) :
    m.setDependency name range =
      m.withSection (Keyed.insert (m.section?.getD []) name (.string range)) :=
  rfl

/-- Sets the ranges of several dependencies. -/
def setDependencies (m : PackageManifest) (ranges : List (String × String)) : PackageManifest :=
  ranges.foldl (fun m d => m.setDependency d.1 d.2) m

/-- Fields of dependencies with several ranges set. -/
def setRanges (fields : List (String × Json)) (ranges : List (String × String)) :
    List (String × Json) :=
  (ranges.map fun d => (d.1, Json.string d.2)).foldl (fun t e => Keyed.insert t e.1 e.2) fields

theorem setRanges_again (fields : List (String × Json)) (ranges : List (String × String)) :
    setRanges (setRanges fields ranges) ranges = setRanges fields ranges :=
  Keyed.foldl_insert_again _ fields

/-- The fields keep their places, and names that are new stand behind them. -/
theorem keys_setRanges {ranges : List (String × String)} (h : (Keyed.keys ranges).Nodup)
    (fields : List (String × Json)) : Keyed.keys (setRanges fields ranges) =
      Keyed.keys fields ++ (Keyed.keys ranges).filter (· ∉ Keyed.keys fields) := by
  have hkeys : Keyed.keys (ranges.map fun d => (d.1, Json.string d.2)) = Keyed.keys ranges := by
    simp [Keyed.keys]
  have hset := Keyed.keys_foldl_insert (t := fields) (hkeys ▸ h)
  rw [hkeys] at hset
  exact hset

theorem get?_setRanges {ranges : List (String × String)} (h : (Keyed.keys ranges).Nodup)
    (fields : List (String × Json)) (name : String) :
    Keyed.get? (setRanges fields ranges) name =
      ((Keyed.get? ranges name).map Json.string).or (Keyed.get? fields name) := by
  have hkeys : Keyed.keys (ranges.map fun d => (d.1, Json.string d.2)) = Keyed.keys ranges := by
    simp [Keyed.keys]
  rw [setRanges, Keyed.get?_foldl_insert (hkeys ▸ h),
    Keyed.get?_map (fun _ range => Json.string range)]

theorem setDependencies_withSection (m : PackageManifest) (fields : List (String × Json))
    (ranges : List (String × String)) :
    (m.withSection fields).setDependencies ranges = m.withSection (setRanges fields ranges) := by
  induction ranges generalizing fields with
  | nil => rfl
  | cons d r ih =>
    have hfirst : (m.withSection fields).setDependency d.1 d.2 =
        m.withSection (Keyed.insert fields d.1 (.string d.2)) := by
      rw [setDependency_eq, section?_withSection, withSection_withSection]
      rfl
    rw [setDependencies, List.foldl_cons, hfirst]
    exact ih _

theorem setDependencies_cons (m : PackageManifest) (d : String × String)
    (ranges : List (String × String)) :
    m.setDependencies (d :: ranges) =
      m.withSection (setRanges (m.section?.getD []) (d :: ranges)) :=
  setDependencies_withSection ..

/-- Ranges that are set again do not change. -/
theorem setDependencies_again (m : PackageManifest) (ranges : List (String × String)) :
    (m.setDependencies ranges).setDependencies ranges = m.setDependencies ranges := by
  cases ranges with
  | nil => rfl
  | cons d r => rw [setDependencies_cons m d r, setDependencies_withSection, setRanges_again]

@[simp] theorem version?_setDependencies (m : PackageManifest) (ranges : List (String × String)) :
    (m.setDependencies ranges).version? = m.version? := by
  cases ranges with
  | nil => rfl
  | cons d r => rw [setDependencies_cons, version?_withSection]

/-! ## Pinning -/

/-- The range that a dependency has once it is pinned. -/
def pinned (scope version name range : String) : String :=
  if startsWith scope name then version else range

def pinnedField (scope version name : String) (v : Json) : Json :=
  if startsWith scope name then .string version else v

/-- Fields of dependencies, pinned. -/
def pinFields (scope version : String) (fields : List (String × Json)) : List (String × Json) :=
  fields.map fun e => (e.1, pinnedField scope version e.1 e.2)

theorem pin_of_section? {fields : List (String × Json)} (h : m.section? = some fields)
    (scope version : String) :
    m.pin scope version = m.withSection (pinFields scope version fields) := by
  have hfields : (fields.map fun e => if startsWith scope e.1 then (e.1, .string version) else e) =
      pinFields scope version fields := by
    apply List.map_congr_left
    intro e _
    rw [pinnedField]
    split <;> rfl
  rw [pin, h, ← hfields]
  rfl

theorem pin_of_section?_eq_none (h : m.section? = none) (scope version : String) :
    m.pin scope version = m := by
  rw [pin, h]

theorem pinFields_pinFields (scope version : String) (fields : List (String × Json)) :
    pinFields scope version (pinFields scope version fields) = pinFields scope version fields := by
  rw [pinFields, pinFields, List.map_map]
  apply List.map_congr_left
  intro e _
  simp only [Function.comp_apply, pinnedField]
  split <;> rfl

@[simp] theorem keys_pinFields (scope version : String) (fields : List (String × Json)) :
    Keyed.keys (pinFields scope version fields) = Keyed.keys fields := by
  simp [Keyed.keys, pinFields]

theorem get?_pinFields (scope version : String) (fields : List (String × Json)) (name : String) :
    Keyed.get? (pinFields scope version fields) name =
      (Keyed.get? fields name).map (pinnedField scope version name) :=
  Keyed.get?_map (pinnedField scope version) fields name

theorem pinFields_insert (fields : List (String × Json)) (name range : String) :
    pinFields scope version (Keyed.insert fields name (.string range)) =
      Keyed.insert (pinFields scope version fields) name
        (.string (pinned scope version name range)) := by
  rw [pinFields, Keyed.map_insert, pinnedField, pinned]
  split <;> rfl

@[simp] theorem pin_pin (m : PackageManifest) (scope version : String) :
    (m.pin scope version).pin scope version = m.pin scope version := by
  cases h : m.section? with
  | none => rw [pin_of_section?_eq_none h, pin_of_section?_eq_none h]
  | some fields =>
    rw [pin_of_section? h, pin_of_section? (section?_withSection ..), withSection_withSection,
      pinFields_pinFields]

theorem pin_setDependency (m : PackageManifest) (name range : String) :
    (m.setDependency name range).pin scope version =
      (m.pin scope version).setDependency name (pinned scope version name range) := by
  rw [setDependency_eq, pin_of_section? (section?_withSection ..), withSection_withSection,
    pinFields_insert, setDependency_eq]
  cases h : m.section? with
  | none =>
    rw [pin_of_section?_eq_none h, h]
    rfl
  | some fields =>
    rw [pin_of_section? h, section?_withSection, withSection_withSection]
    rfl

/-- Pinning may be done before the ranges are set, if these are pinned themselves. -/
theorem pin_setDependencies (m : PackageManifest) (ranges : List (String × String)) :
    (m.setDependencies ranges).pin scope version = (m.pin scope version).setDependencies
      (ranges.map fun d => (d.1, pinned scope version d.1 d.2)) := by
  induction ranges generalizing m with
  | nil => rfl
  | cons d r ih =>
    have hrest := ih (m.setDependency d.1 d.2)
    rw [pin_setDependency] at hrest
    exact hrest

@[simp] theorem version?_pin (m : PackageManifest) (scope version : String) :
    (m.pin scope version).version? = m.version? := by
  cases h : m.section? with
  | none => rw [pin_of_section?_eq_none h]
  | some fields => rw [pin_of_section? h, version?_withSection]

@[simp] theorem pinnable_pin (m : PackageManifest) (scope version : String) :
    (m.pin scope version).pinnable scope = m.pinnable scope := by
  cases h : m.section? with
  | none => rw [pin_of_section?_eq_none h]
  | some fields =>
    rw [pin_of_section? h, pinnable, pinnable, section?_withSection, h, Option.getD_some,
      Option.getD_some, pinFields, List.map_map]
    rfl

/-- A manifest in which ranges were set and pinned stays as it is when both is done again. -/
theorem pin_setDependencies_again (m : PackageManifest) (ranges : List (String × String))
    (scope version : String) :
    (((m.setDependencies ranges).pin scope version).setDependencies ranges).pin scope version =
      (m.setDependencies ranges).pin scope version := by
  calc (((m.setDependencies ranges).pin scope version).setDependencies ranges).pin scope version
      = ((m.setDependencies ranges).pin scope version).setDependencies
          (ranges.map fun d => (d.1, pinned scope version d.1 d.2)) := by
        rw [pin_setDependencies, pin_pin]
    _ = (m.setDependencies ranges).pin scope version := by
        rw [pin_setDependencies, setDependencies_again]

end Vendoring.PackageManifest
