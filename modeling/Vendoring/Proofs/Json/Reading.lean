import Vendoring.Proofs.Json.Drafting
import Vendoring.Proofs.Keyed
import Vendoring.Proofs.Outcome

/-! A written value is read back as it was, if no more containers are nested in it than a reader
opens. -/
namespace Vendoring.Json
open Outcome Token

mutual

/-- The number of containers nested in a value, itself included. -/
def depth : Json → Nat
  | .array items => itemsDepth items + 1
  | .object fields => fieldsDepth fields + 1
  | _ => 0

def itemsDepth : List Json → Nat
  | [] => 0
  | v :: r => max v.depth (itemsDepth r)

def fieldsDepth : List (String × Json) → Nat
  | [] => 0
  | (_, v) :: r => max v.depth (fieldsDepth r)

end

theorem value?_numeralOf {n : Int} (h : (Json.int n).Told) :
    (numeralOf n).value? = some (int n) := by
  obtain ⟨hlow, hhigh⟩ := h
  have hscaled : (numeralOf n).isScaled = false := rfl
  have hvalue : decimalValue (numeralOf n).whole = n.natAbs := decimalValue_decimalDigits _
  have hnegative : (numeralOf n).negative = decide (n < 0) := rfl
  simp only [Numeral.value?, hscaled, hvalue, hnegative]
  by_cases hn : n < 0
  · have hneg : 0 < n.natAbs ∧ n.natAbs ≤ twoTo 63 := by omega
    have habs : -(n.natAbs : Int) = n := by omega
    simp only [hn, hneg, decide_true, Bool.not_true, Bool.false_eq_true, false_and, if_false,
      and_self, if_true, habs]
  · have hpos : n.natAbs < twoTo 64 := by omega
    have habs : (n.natAbs : Int) = n := by omega
    simp only [hn, hpos, decide_false, Bool.not_false, and_self, if_true, Bool.false_eq_true,
      if_false, habs]

mutual

theorem ofDraft_spelled : ∀ (v : Json) (room : Nat), v.Told → v.depth ≤ room →
    ofDraft room (spelled v) = .ok v
  | .null, _, _, _ => by rw [spelled, ofDraft]; rfl
  | .bool _, _, _, _ => by rw [spelled, ofDraft]; rfl
  | .int n, _, h, _ => by rw [spelled, ofDraft, value?_numeralOf h]; rfl
  | .double _, _, h, _ => by rw [spelled, ofDraft, h.value]; rfl
  | .string _, _, _, _ => by rw [spelled, ofDraft]; rfl
  | .array items, room, h, hd => by
    obtain ⟨room, rfl⟩ : ∃ k, room = k + 1 := ⟨room - 1, by rw [depth] at hd; omega⟩
    have hi := ofItems_spelledItems items room h (by rw [depth] at hd; omega)
    rw [spelled, ofDraft, hi]
    rfl
  | .object fields, room, h, hd => by
    obtain ⟨room, rfl⟩ : ∃ k, room = k + 1 := ⟨room - 1, by rw [depth] at hd; omega⟩
    have hf := ofFields_spelledFields fields room [] (by simpa [Keyed.keys] using h.1) h.2
      (by rw [depth] at hd; omega)
    rw [spelled, ofDraft, hf]
    rfl

theorem ofItems_spelledItems : ∀ (vs : List Json) (room : Nat), ItemsTold vs →
    itemsDepth vs ≤ room → ofItems room (spelledItems vs) = .ok vs
  | [], _, _, _ => rfl
  | v :: vs, room, h, hd => by
    rw [itemsDepth] at hd
    rw [spelledItems, ofItems, ofDraft_spelled v room h.1 (by omega),
      ofItems_spelledItems vs room h.2 (by omega)]
    rfl

theorem ofFields_spelledFields : ∀ (fs : List (String × Json)) (room : Nat)
    (before : List (String × Json)), (Keyed.keys before ++ Keyed.keys fs).Nodup →
    FieldsTold fs → fieldsDepth fs ≤ room →
    ofFields room before (spelledFields fs) = .ok (before ++ fs)
  | [], _, before, _, _, _ => by rw [spelledFields, ofFields, List.append_nil]; rfl
  | (name, v) :: fs, room, before, hn, h, hd => by
    rw [fieldsDepth] at hd
    obtain ⟨hlast, hkeys⟩ := Keyed.insert_of_nodup hn
    rw [spelledFields, ofFields, ofDraft_spelled v room h.1 (by omega)]
    show ofFields room (Keyed.insert before name v) (spelledFields fs) = _
    rw [hlast, ofFields_spelledFields fs room _ hkeys h.2 (by omega), List.append_assoc]
    rfl

end

theorem ofDraft_draftOf (v : Json) (room : Nat) (h : v.Exact) (hd : v.depth ≤ room) :
    ofDraft room (draftOf v) = .ok v := by
  rw [← Exact.spelled_eq v h]
  exact ofDraft_spelled v room (Exact.told v h) hd

mutual

/-- What is read fits into the room. -/
theorem depth_le_of_ofDraft : ∀ (v : Json) (room : Nat) (w : Json),
    ofDraft room (draftOf v) = .ok w → v.depth ≤ room
  | .null, _, _, _ => Nat.zero_le _
  | .bool _, _, _, _ => Nat.zero_le _
  | .int _, _, _, _ => Nat.zero_le _
  | .double _, _, _, _ => Nat.zero_le _
  | .string _, _, _, _ => Nat.zero_le _
  | .array items, room, w, h => by
    cases room with
    | zero => rw [draftOf, ofDraft] at h; cases h
    | succ room =>
      rw [draftOf, ofDraft] at h
      obtain ⟨ws, hi, -⟩ := bind_eq_ok.1 h
      exact Nat.succ_le_succ (depth_le_of_ofItems items room ws hi)
  | .object fields, room, w, h => by
    cases room with
    | zero => rw [draftOf, ofDraft] at h; cases h
    | succ room =>
      rw [draftOf, ofDraft] at h
      obtain ⟨ws, hf, -⟩ := bind_eq_ok.1 h
      exact Nat.succ_le_succ (depth_le_of_ofFields fields room [] ws hf)

theorem depth_le_of_ofItems : ∀ (vs : List Json) (room : Nat) (ws : List Json),
    ofItems room (draftsOf vs) = .ok ws → itemsDepth vs ≤ room
  | [], _, _, _ => Nat.zero_le _
  | v :: vs, room, ws, h => by
    rw [draftsOf, ofItems] at h
    obtain ⟨w, hv, h⟩ := bind_eq_ok.1 h
    obtain ⟨ws', hvs, -⟩ := bind_eq_ok.1 h
    exact Nat.max_le.2 ⟨depth_le_of_ofDraft v room w hv, depth_le_of_ofItems vs room ws' hvs⟩

theorem depth_le_of_ofFields : ∀ (fs : List (String × Json)) (room : Nat)
    (before ws : List (String × Json)),
    ofFields room before (fieldDraftsOf fs) = .ok ws → fieldsDepth fs ≤ room
  | [], _, _, _, _ => Nat.zero_le _
  | (name, v) :: fs, room, before, ws, h => by
    rw [fieldDraftsOf, ofFields] at h
    obtain ⟨w, hv, h⟩ := bind_eq_ok.1 h
    exact Nat.max_le.2 ⟨depth_le_of_ofDraft v room w hv, depth_le_of_ofFields fs room _ ws h⟩

end

/-- Reading a text of a value is reading the draft of the value. -/
theorem read_told {α : Type} (reader : Reader α) {v : Json} {text : String}
    (ht : v.Written text) (h : v.Told) : read reader text = reader nestingLimit v.spelled := by
  rw [read, ofText_told ht h]
  dsimp only
  cases reader nestingLimit v.spelled <;> rfl

theorem read_written {α : Type} (reader : Reader α) {v : Json} {text : String}
    (ht : v.Written text) (h : v.Exact) : read reader text = reader nestingLimit (draftOf v) := by
  rw [read_told reader ht (Exact.told v h), Exact.spelled_eq v h]

theorem parse_told {v : Json} {text : String} (ht : v.Written text) (h : v.Told)
    (hd : v.depth ≤ nestingLimit) : parse text = .ok v := by
  rw [parse, read_told _ ht h]
  exact ofDraft_spelled v _ h hd

/-! ## The room that a value took -/

theorem fieldsDepth_le_iff {fields : List (String × Json)} {room : Nat} :
    fieldsDepth fields ≤ room ↔ ∀ e ∈ fields, e.2.depth ≤ room := by
  induction fields with
  | nil => simp [fieldsDepth]
  | cons e r ih => rw [fieldsDepth, Nat.max_le, ih, List.forall_mem_cons]

theorem value?_isNumber {x : Numeral} {v : Json} (h : x.value? = some v) :
    (∃ n, v = .int n) ∨ ∃ y, v = .double y := by
  rw [Numeral.value?] at h
  split_ifs at h
  · obtain ⟨y, -, rfl⟩ := Option.map_eq_some_iff.1 h
    exact Or.inr ⟨y, rfl⟩
  · cases h
    exact Or.inl ⟨_, rfl⟩
  · cases h
    exact Or.inl ⟨_, rfl⟩
  · obtain ⟨y, -, rfl⟩ := Option.map_eq_some_iff.1 h
    exact Or.inr ⟨y, rfl⟩

mutual

theorem room_of_ofDraft : ∀ (d : Draft) (room : Nat) (v : Json),
    ofDraft room d = .ok v → v.depth ≤ room
  | .null, room, v, h => by
    cases h
    exact Nat.zero_le room
  | .bool _, room, v, h => by
    cases h
    exact Nat.zero_le room
  | .number x, room, v, h => by
    rw [ofDraft] at h
    split at h
    · next w hw =>
      cases h
      rcases value?_isNumber hw with ⟨_, rfl⟩ | ⟨_, rfl⟩ <;> exact Nat.zero_le room
    · cases h
  | .string (some _), room, v, h => by
    cases h
    exact Nat.zero_le room
  | .string none, _, _, h => by cases h
  | .array items, room, v, h => by
    cases room with
    | zero => cases h
    | succ room =>
      rw [ofDraft] at h
      obtain ⟨vs, hi, h⟩ := bind_eq_ok.1 h
      cases h
      exact Nat.succ_le_succ (room_of_ofItems items room vs hi)
  | .object ds, room, v, h => by
    cases room with
    | zero => cases h
    | succ room =>
      rw [ofDraft] at h
      obtain ⟨fields, hf, h⟩ := bind_eq_ok.1 h
      cases h
      exact Nat.succ_le_succ (room_of_ofFields ds room [] fields (Nat.zero_le room) hf)
  | .broken, _, _, h => by cases h

theorem room_of_ofItems : ∀ (ds : List Draft) (room : Nat) (vs : List Json),
    ofItems room ds = .ok vs → itemsDepth vs ≤ room
  | [], room, vs, h => by
    cases h
    exact Nat.zero_le room
  | d :: ds, room, vs, h => by
    rw [ofItems] at h
    obtain ⟨v, hv, h⟩ := bind_eq_ok.1 h
    obtain ⟨vs, hvs, h⟩ := bind_eq_ok.1 h
    cases h
    exact Nat.max_le.2 ⟨room_of_ofDraft d room v hv, room_of_ofItems ds room vs hvs⟩

theorem room_of_ofFields : ∀ (ds : List (Option String × Draft)) (room : Nat)
    (before fields : List (String × Json)), fieldsDepth before ≤ room →
    ofFields room before ds = .ok fields → fieldsDepth fields ≤ room
  | [], _, before, fields, hb, h => by
    cases h
    exact hb
  | (none, _) :: _, _, _, _, _, h => by cases h
  | (some name, d) :: ds, room, before, fields, hb, h => by
    rw [ofFields] at h
    obtain ⟨v, hv, h⟩ := bind_eq_ok.1 h
    refine room_of_ofFields ds room _ fields (fieldsDepth_le_iff.2 fun e he => ?_) h
    rcases Keyed.mem_insert he with rfl | he
    · exact room_of_ofDraft d room v hv
    · exact fieldsDepth_le_iff.1 hb e he

end

/-- No value that was parsed nests more containers than a text may. -/
theorem depth_of_parse {text : String} {v : Json} (h : parse text = .ok v) :
    v.depth ≤ nestingLimit := by
  obtain ⟨w, hw, h⟩ := bind_eq_ok.1 h
  split at h
  · cases h
    exact room_of_ofDraft _ _ _ hw
  · cases h

namespace Reader
variable {α : Type} {reader : Reader α} {room : Nat}

/-- A table is read entry by entry. -/
theorem entries_eq_ok {f : α → Draft} {t before : Keyed α}
    (hn : (Keyed.keys before ++ Keyed.keys t).Nodup)
    (h : ∀ e ∈ t, reader room (f e.2) = .ok e.2) :
    entries reader room before (t.map fun e => (some e.1, f e.2)) = .ok (before ++ t) := by
  induction t generalizing before with
  | nil => rw [List.map_nil, entries, List.append_nil]; rfl
  | cons e r ih =>
    obtain ⟨hlast, hkeys⟩ := Keyed.insert_of_nodup hn
    rw [List.map_cons, entries, h e (List.mem_cons_self ..)]
    show entries reader room (before.insert e.1 e.2) _ = _
    rw [hlast, ih hkeys fun d hd => h d (List.mem_cons_of_mem _ hd), List.append_assoc]
    rfl

theorem exists_of_entries {ds : List (Option String × Draft)} {before t : Keyed α}
    (h : entries reader room before ds = .ok t) : ∀ d ∈ ds, ∃ a, reader room d.2 = .ok a := by
  induction ds generalizing before with
  | nil => exact fun _ hd => absurd hd List.not_mem_nil
  | cons d r ih =>
    intro d' hd
    obtain ⟨name?, x⟩ := d
    cases name? with
    | none => cases h
    | some name =>
      rw [entries] at h
      obtain ⟨a, ha, h⟩ := bind_eq_ok.1 h
      rcases List.mem_cons.1 hd with rfl | hd
      · exact ⟨a, ha⟩
      · exact ih h d' hd

end Reader

end Vendoring.Json
