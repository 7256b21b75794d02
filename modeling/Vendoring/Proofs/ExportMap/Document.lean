import Vendoring.ExportMap.Document
import Vendoring.Proofs.ExportMap.Mapping
import Vendoring.Proofs.Json.Reading

/-! Export maps in documents: which are written so that they are read back. -/
namespace Vendoring.ExportMap
open Outcome

variable {n n' : Node} {bs bs' : List (String × Node)} {m m' : ExportMap} {room : Nat}
  {v : Json} {fields : List (String × Json)}

mutual

/-- The number of choices nested in a node, itself included. -/
def Node.depth : Node → Nat
  | .target _ => 0
  | .choice branches => branchesDepth branches + 1

def branchesDepth : List (String × Node) → Nat
  | [] => 0
  | (_, n) :: r => max n.depth (branchesDepth r)

end

/-- The number of containers nested in a map as it is written. -/
def depth (m : ExportMap) : Nat := branchesDepth m.entries + 1

theorem keys_fieldsOf (bs : List (String × Node)) : (fieldsOf bs).map (·.1) = bs.map (·.1) := by
  induction bs with
  | nil => rfl
  | cons e r ih => rw [fieldsOf, List.map_cons, List.map_cons, ih]

mutual

theorem depth_toJson : ∀ n : Node, n.toJson.depth = n.depth
  | .target _ => rfl
  | .choice bs => by rw [Node.toJson, Json.depth, depth_fieldsOf bs, Node.depth]

theorem depth_fieldsOf : ∀ bs : List (String × Node),
    Json.fieldsDepth (fieldsOf bs) = branchesDepth bs
  | [] => rfl
  | (_, n) :: r => by
    rw [fieldsOf, Json.fieldsDepth, depth_toJson n, depth_fieldsOf r, branchesDepth]

end

mutual

theorem exact_toJson : ∀ n : Node, n.Distinct → n.toJson.Exact
  | .target _, _ => trivial
  | .choice bs, h => by
    rw [Node.Distinct] at h
    rw [Node.toJson, Json.Exact, keys_fieldsOf]
    exact ⟨h.1, exact_fieldsOf bs h.2⟩

theorem exact_fieldsOf : ∀ bs : List (String × Node),
    DistinctIn bs → Json.FieldsExact (fieldsOf bs)
  | [], _ => trivial
  | (_, n) :: r, h => ⟨exact_toJson n h.1, exact_fieldsOf r h.2⟩

end

theorem exact_map (h : m.Distinct) : m.toJson.Exact := by
  rw [toJson, Json.Exact, keys_fieldsOf]
  exact ⟨h.1, exact_fieldsOf _ h.2⟩

mutual

theorem ofDraft?_draftOf : ∀ n : Node, n.Distinct →
    Node.ofDraft? (Json.draftOf n.toJson) = some n
  | .target _, _ => rfl
  | .choice bs, h => by
    rw [Node.Distinct] at h
    have hb := branchesOfDraft?_draftsOf bs [] (by simpa [Keyed.keys] using h.1) h.2
    rw [Node.toJson, Json.draftOf, Node.ofDraft?, hb]
    rfl

theorem branchesOfDraft?_draftsOf : ∀ (bs before : List (String × Node)),
    (Keyed.keys before ++ Keyed.keys bs).Nodup → DistinctIn bs →
    branchesOfDraft? before (Json.fieldDraftsOf (fieldsOf bs)) = some (before ++ bs)
  | [], before, _, _ => by rw [fieldsOf, Json.fieldDraftsOf, branchesOfDraft?, List.append_nil]
  | (name, n) :: r, before, hn, h => by
    obtain ⟨hlast, hkeys⟩ := Keyed.insert_of_nodup hn
    rw [fieldsOf, Json.fieldDraftsOf, branchesOfDraft?, ofDraft?_draftOf n h.1]
    show branchesOfDraft? (Keyed.insert before name n) _ = _
    rw [hlast, branchesOfDraft?_draftsOf r _ hkeys h.2, List.append_assoc]
    rfl

end

theorem nodeReader_draftOf (h : n.Distinct) (hd : n.depth ≤ room) :
    Node.reader room (Json.draftOf n.toJson) = .ok n := by
  have hv := Json.ofDraft_draftOf n.toJson room (exact_toJson n h) (by rwa [depth_toJson])
  rw [Node.reader, hv, ofDraft?_draftOf n h]
  rfl

theorem depth_le_of_nodeReader (h : Node.reader room (Json.draftOf n.toJson) = .ok n') :
    n.depth ≤ room := by
  rw [Node.reader] at h
  obtain ⟨v, hv, -⟩ := bind_eq_ok.1 h
  rw [← depth_toJson]
  exact Json.depth_le_of_ofDraft _ _ _ hv

theorem fieldDraftsOf_fieldsOf (bs : List (String × Node)) :
    Json.fieldDraftsOf (fieldsOf bs) = bs.map fun e => (some e.1, Json.draftOf e.2.toJson) := by
  induction bs with
  | nil => rfl
  | cons e r ih => rw [fieldsOf, Json.fieldDraftsOf, List.map_cons, ih]

theorem branchesDepth_le_iff : branchesDepth bs ≤ room ↔ ∀ e ∈ bs, e.2.depth ≤ room := by
  induction bs with
  | nil => simp [branchesDepth]
  | cons e r ih => rw [branchesDepth, Nat.max_le, ih, List.forall_mem_cons]

theorem distinct_of_mem (h : DistinctIn bs) : ∀ e ∈ bs, e.2.Distinct := by
  induction bs with
  | nil => exact fun _ he => absurd he List.not_mem_nil
  | cons e r ih => exact List.forall_mem_cons.2 ⟨h.1, ih h.2⟩

theorem reader_draftOf (h : m.Distinct) (hd : m.depth ≤ room) :
    reader room (Json.draftOf m.toJson) = .ok m := by
  obtain ⟨room, rfl⟩ : ∃ k, room = k + 1 := ⟨room - 1, by rw [depth] at hd; omega⟩
  have hroom : ∀ e ∈ m.entries, e.2.depth ≤ room :=
    branchesDepth_le_iff.1 (Nat.le_of_succ_le_succ hd)
  have he : Json.Reader.entries Node.reader room []
      (m.entries.map fun e => (some e.1, Json.draftOf e.2.toJson)) = .ok ([] ++ m.entries) :=
    Json.Reader.entries_eq_ok (f := fun n => Json.draftOf n.toJson)
      (by simpa [Keyed.keys] using h.1)
      fun e he => nodeReader_draftOf (distinct_of_mem h.2 e he) (hroom e he)
  rw [reader, toJson, Json.draftOf, Json.Reader.tableOf, fieldDraftsOf_fieldsOf, he]
  rfl

theorem depth_le_of_reader (h : reader room (Json.draftOf m.toJson) = .ok m') :
    m.depth ≤ room := by
  rw [reader, toJson, Json.draftOf] at h
  obtain ⟨t, ht, -⟩ := map_eq_ok.1 h
  cases room with
  | zero => cases ht
  | succ room =>
    rw [Json.Reader.tableOf, fieldDraftsOf_fieldsOf] at ht
    have hall := Json.Reader.exists_of_entries ht
    refine Nat.succ_le_succ (branchesDepth_le_iff.2 fun e he => ?_)
    obtain ⟨_, hn⟩ := hall _ (List.mem_map_of_mem he)
    exact depth_le_of_nodeReader hn

theorem distinctIn_insert {key : String} (h : DistinctIn bs) (hn : n.Distinct) :
    DistinctIn (Keyed.insert bs key n) := by
  induction bs with
  | nil => exact ⟨hn, trivial⟩
  | cons e r ih =>
    rw [Keyed.insert]
    split
    · exact ⟨hn, h.2⟩
    · exact ⟨h.1, ih h.2⟩

mutual

/-- A condition that is given twice keeps its place and takes the last node, so none is left
twice. -/
theorem distinct_ofJson : ∀ (v : Json) (place : String) (n : Node),
    Node.ofJson place v = .ok n → n.Distinct
  | .string _, _, n, h => by
    cases h
    trivial
  | .object fields, place, n, h => by
    rw [Node.ofJson] at h
    obtain ⟨bs, hb, hn⟩ := bind_eq_ok.1 h
    cases hn
    rw [Node.Distinct]
    exact distinct_branchesOf fields place [] bs List.nodup_nil trivial hb
  | .null, _, _, h => by cases h
  | .bool _, _, _, h => by cases h
  | .int _, _, _, h => by cases h
  | .double _, _, _, h => by cases h
  | .array _, _, _, h => by cases h

theorem distinct_branchesOf : ∀ (fields : List (String × Json)) (place : String)
    (before bs : List (String × Node)), (Keyed.keys before).Nodup → DistinctIn before →
    branchesOf place before fields = .ok bs → (Keyed.keys bs).Nodup ∧ DistinctIn bs
  | [], _, before, bs, hn, hd, h => by
    cases h
    exact ⟨hn, hd⟩
  | (condition, v) :: r, place, before, bs, hn, hd, h => by
    rw [branchesOf] at h
    obtain ⟨n, hv, h⟩ := bind_eq_ok.1 h
    exact distinct_branchesOf r place _ bs (Keyed.nodup_keys_insert hn _ _)
      (distinctIn_insert hd (distinct_ofJson v _ n hv)) h

end

/-! ## What a package declares -/

mutual

/-- Where a value was found shows in faults alone. -/
theorem ofJson_elsewhere : ∀ (v : Json) (place other : String) (n : Node),
    Node.ofJson place v = .ok n → Node.ofJson other v = .ok n
  | .string _, _, _, _, h => h
  | .object fields, place, other, n, h => by
    rw [Node.ofJson] at h ⊢
    obtain ⟨bs, hb, hn⟩ := bind_eq_ok.1 h
    exact bind_eq_ok.2 ⟨bs, branchesOf_elsewhere fields place other [] bs hb, hn⟩
  | .null, _, _, _, h => by cases h
  | .bool _, _, _, _, h => by cases h
  | .int _, _, _, _, h => by cases h
  | .double _, _, _, _, h => by cases h
  | .array _, _, _, _, h => by cases h

theorem branchesOf_elsewhere : ∀ (fields : List (String × Json)) (place other : String)
    (before bs : List (String × Node)), branchesOf place before fields = .ok bs →
    branchesOf other before fields = .ok bs
  | [], _, _, _, _, h => h
  | (condition, v) :: r, place, other, before, bs, h => by
    rw [branchesOf] at h ⊢
    obtain ⟨n, hv, h⟩ := bind_eq_ok.1 h
    exact bind_eq_ok.2 ⟨n, ofJson_elsewhere v _ _ n hv, branchesOf_elsewhere r _ _ _ bs h⟩

end

/-- The entries of a map are taken as the branches of a choice are. -/
theorem entriesOf_eq_ok_iff {before t : Keyed Node} (place : String) :
    entriesOf before fields = .ok t ↔ branchesOf place before fields = .ok t := by
  induction fields generalizing before with
  | nil => exact Iff.rfl
  | cons f r ih =>
    rw [entriesOf, branchesOf, bind_eq_ok, bind_eq_ok]
    refine exists_congr fun n => and_congr ?_ ih
    exact ⟨ofJson_elsewhere _ _ _ n, ofJson_elsewhere _ _ _ n⟩

/-- A value that stands for the package itself: no subpath is named. -/
def Shortened (v : Json) : Prop :=
  ∀ fields, v = .object fields → ∀ f ∈ fields, isSubpathKey f.1 = false

theorem ofPackage_of_shortened (h : Shortened v) : ofPackage v = .ok m ↔
    ∃ n, Node.ofJson "exports" v = .ok n ∧ (⟨[(rootKey, n)]⟩ : ExportMap) = m := by
  rw [← map_eq_ok]
  unfold ofPackage
  split
  · next fields =>
    rw [if_pos (by simpa using h fields rfl)]
    rfl
  · rfl

theorem ofPackage_of_subpaths (hne : fields ≠ []) (h : ∀ f ∈ fields, isSubpathKey f.1 = true) :
    ofPackage (.object fields) = .ok m ↔
      Node.ofJson "exports" (.object fields) = .ok (.choice m.entries) := by
  obtain ⟨f, r, rfl⟩ := List.exists_cons_of_ne_nil hne
  have hf := h f (List.mem_cons_self ..)
  rw [ofPackage, if_neg (by simp [hf]), if_pos (by simpa using h), Node.ofJson, bind_eq_ok,
    bind_eq_ok]
  refine exists_congr fun t => and_congr (entriesOf_eq_ok_iff "exports") ?_
  cases m
  simp [pure_eq_ok]

theorem ofPackage_of_mixed (h : ∃ f ∈ fields, isSubpathKey f.1 = true)
    (h' : ∃ f ∈ fields, isSubpathKey f.1 = false) :
    ofPackage (.object fields) = .error .mixedKeys := by
  rw [ofPackage, if_neg (by simpa using h), if_neg (by simpa using h')]
  rfl

/-- The kinds of values: for the package itself, for its subpaths, and for both, which is none. -/
theorem ofPackage_cases (v : Json) : Shortened v ∨
    (∃ fields, v = .object fields ∧ fields ≠ [] ∧ ∀ f ∈ fields, isSubpathKey f.1 = true) ∨
    ∃ fields, v = .object fields ∧ (∃ f ∈ fields, isSubpathKey f.1 = true) ∧
      ∃ f ∈ fields, isSubpathKey f.1 = false := by
  refine or_iff_not_imp_left.2 fun h => ?_
  simp only [Shortened, not_forall, Bool.not_eq_false] at h
  obtain ⟨fields, rfl, f, hf, hkey⟩ := h
  by_cases hall : ∀ f ∈ fields, isSubpathKey f.1 = true
  · exact Or.inl ⟨fields, rfl, List.ne_nil_of_mem hf, hall⟩
  · exact Or.inr ⟨fields, rfl, ⟨f, hf, hkey⟩, by simpa using hall⟩

/-- What can become of a value: its node under the key of the package, or the branches of its node
as entries. -/
theorem ofPackage_eq_ok (h : ofPackage v = .ok m) : ∃ n, Node.ofJson "exports" v = .ok n ∧
    ((Shortened v ∧ m = ⟨[(rootKey, n)]⟩) ∨ ∃ fields, v = .object fields ∧ fields ≠ [] ∧
      (∀ f ∈ fields, isSubpathKey f.1 = true) ∧ n = .choice m.entries) := by
  rcases ofPackage_cases v with hs | ⟨fields, rfl, hne, hkeys⟩ | ⟨fields, rfl, hsub, hnone⟩
  · obtain ⟨n, hn, rfl⟩ := (ofPackage_of_shortened hs).1 h
    exact ⟨n, hn, Or.inl ⟨hs, rfl⟩⟩
  · exact ⟨_, (ofPackage_of_subpaths hne hkeys).1 h, Or.inr ⟨fields, rfl, hne, hkeys, rfl⟩⟩
  · rw [ofPackage_of_mixed hsub hnone] at h
    cases h

/-- What a package declares is read with each key once. -/
theorem distinct_ofPackage (h : ofPackage v = .ok m) : m.Distinct := by
  obtain ⟨n, hn, ⟨-, rfl⟩ | ⟨_, -, -, -, rfl⟩⟩ := ofPackage_eq_ok h
  · exact ⟨List.pairwise_singleton _ _, distinct_ofJson _ _ n hn, trivial⟩
  · have hd := distinct_ofJson _ _ _ hn
    rwa [Node.Distinct] at hd

end Vendoring.ExportMap
