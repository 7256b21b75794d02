import Vendoring.Proofs.ExportMap.Document

/-! What a package declares, in one form. A value is taken exactly if it has the shape of a map, a
choice or a target, and the map that it becomes stands for itself: it is read in full as it was, and
taken again it stays as it is. -/
namespace Vendoring

/-- The values that are reached from a value through nested objects. -/
inductive Json.Within (w : Json) : Json → Prop
  | field {fields : List (String × Json)} {name : String} :
    (name, w) ∈ fields → Within w (.object fields)
  | deeper {fields : List (String × Json)} {name : String} {v : Json} :
    (name, v) ∈ fields → Within w v → Within w (.object fields)

def Json.IsStringOrObject (v : Json) : Prop :=
  (∃ s, v = .string s) ∨ ∃ fields, v = .object fields

namespace ExportMap
open Outcome

variable {m : ExportMap} {v : Json} {fields : List (String × Json)} {place : String}
  {before t : Keyed Node} {room : Nat} {text : String}

/-- A string, or an object whose keys agree on what they name, with nothing but strings and objects
inside. -/
def Declarable (v : Json) : Prop :=
  (∃ s, v = .string s) ∨ ∃ fields, v = .object fields ∧
    ((∀ f ∈ fields, isSubpathKey f.1 = true) ∨ ∀ f ∈ fields, isSubpathKey f.1 = false) ∧
    ∀ w, Json.Within w v → w.IsStringOrObject

/-! ## Which values are taken -/

/-- A value that stands for a node. -/
def IsNode (v : Json) : Prop := v.IsStringOrObject ∧ ∀ w, Json.Within w v → w.IsStringOrObject

theorem isNode_string (s : String) : IsNode (.string s) :=
  ⟨Or.inl ⟨s, rfl⟩, fun _ hw => nomatch hw⟩

theorem isNode_object_iff : IsNode (.object fields) ↔ ∀ f ∈ fields, IsNode f.2 := by
  constructor
  · rintro ⟨-, hall⟩ f hf
    exact ⟨hall _ (.field hf), fun w hw => hall w (.deeper hf hw)⟩
  · intro h
    refine ⟨Or.inr ⟨fields, rfl⟩, fun w hw => ?_⟩
    cases hw with
    | field hf => exact (h _ hf).1
    | deeper hf hw => exact (h _ hf).2 w hw

theorem ofJson_object_eq_ok {n : Node} (h : Node.ofJson place (.object fields) = .ok n) :
    ∃ bs, branchesOf place [] fields = .ok bs ∧ n = .choice bs := by
  rw [Node.ofJson] at h
  obtain ⟨bs, hb, he⟩ := bind_eq_ok.1 h
  exact ⟨bs, hb, (pure_eq_ok.1 he).symm⟩

mutual

/-- Where a value was found makes no difference to whether it is taken. -/
theorem exists_ofJson_iff : ∀ (v : Json) (place : String),
    (∃ n, Node.ofJson place v = .ok n) ↔ IsNode v
  | .string s, place => iff_of_true ⟨.target s, rfl⟩ (isNode_string s)
  | .object fields, place => by
    rw [Node.ofJson, exists_bind_eq_ok, isNode_object_iff,
      ← exists_branchesOf_iff fields place []]
    exact exists_congr fun bs => and_iff_left ⟨_, rfl⟩
  | .null, _ => iff_of_false nofun (by simp [IsNode, Json.IsStringOrObject])
  | .bool _, _ => iff_of_false nofun (by simp [IsNode, Json.IsStringOrObject])
  | .int _, _ => iff_of_false nofun (by simp [IsNode, Json.IsStringOrObject])
  | .double _, _ => iff_of_false nofun (by simp [IsNode, Json.IsStringOrObject])
  | .array _, _ => iff_of_false nofun (by simp [IsNode, Json.IsStringOrObject])

theorem exists_branchesOf_iff : ∀ (fields : List (String × Json)) (place : String)
    (before : List (String × Node)),
    (∃ bs, branchesOf place before fields = .ok bs) ↔ ∀ f ∈ fields, IsNode f.2
  | [], _, before => iff_of_true ⟨before, rfl⟩ fun _ hf => absurd hf List.not_mem_nil
  | (condition, v) :: r, place, before => by
    rw [branchesOf, exists_bind_eq_ok, List.forall_mem_cons,
      ← exists_ofJson_iff v (place ++ "." ++ condition)]
    constructor
    · rintro ⟨n, hn, hr⟩
      exact ⟨⟨n, hn⟩, (exists_branchesOf_iff r place _).1 hr⟩
    · rintro ⟨⟨n, hn⟩, hr⟩
      exact ⟨n, hn, (exists_branchesOf_iff r place _).2 hr⟩

end

/-- All keys name subpaths, or none does. -/
def KeysAgree (v : Json) : Prop := ∀ fields, v = .object fields →
  (∀ f ∈ fields, isSubpathKey f.1 = true) ∨ ∀ f ∈ fields, isSubpathKey f.1 = false

theorem declarable_iff : Declarable v ↔ KeysAgree v ∧ IsNode v := by
  constructor
  · rintro (⟨s, rfl⟩ | ⟨fields, rfl, hkeys, hall⟩)
    · exact ⟨nofun, isNode_string s⟩
    · refine ⟨?_, Or.inr ⟨fields, rfl⟩, hall⟩
      rintro _ ⟨⟩
      exact hkeys
  · rintro ⟨hkeys, ⟨s, rfl⟩ | ⟨fields, rfl⟩, hall⟩
    · exact Or.inl ⟨s, rfl⟩
    · exact Or.inr ⟨fields, rfl, hkeys fields rfl, hall⟩

theorem exists_ofPackage_iff (v : Json) : (∃ m, ofPackage v = .ok m) ↔ Declarable v := by
  rw [declarable_iff]
  rcases ofPackage_cases v with hs | ⟨fields, rfl, hne, hsub⟩ | ⟨fields, rfl, hsub, hnone⟩
  · have hkeys : KeysAgree v := fun fields he => Or.inr (hs fields he)
    rw [and_iff_right hkeys, ← exists_ofJson_iff v "exports"]
    simp [ofPackage_of_shortened hs]
  · have hkeys : KeysAgree (.object fields) := by
      rintro _ ⟨⟩
      exact Or.inl hsub
    rw [and_iff_right hkeys, ← exists_ofJson_iff _ "exports"]
    simp only [ofPackage_of_subpaths hne hsub]
    constructor
    · rintro ⟨m, hm⟩
      exact ⟨_, hm⟩
    · rintro ⟨n, hn⟩
      obtain ⟨bs, -, rfl⟩ := ofJson_object_eq_ok hn
      exact ⟨⟨bs⟩, hn⟩
  · rw [ofPackage_of_mixed hsub hnone]
    obtain ⟨f, hf, hkey⟩ := hsub
    obtain ⟨f', hf', hkey'⟩ := hnone
    refine iff_of_false nofun ?_
    rintro ⟨hkeys, -⟩
    rcases hkeys fields rfl with hall | hall
    · exact Bool.false_ne_true (hkey'.symm.trans (hall f' hf'))
    · exact Bool.false_ne_true ((hall f hf).symm.trans hkey)

/-! ## What becomes of them -/

theorem mem_keys_branchesOf {key : String} (h : branchesOf place before fields = .ok t) :
    key ∈ t.keys ↔ key ∈ fields.map (·.1) ∨ key ∈ before.keys := by
  induction fields generalizing before with
  | nil =>
    cases h
    simp
  | cons f r ih =>
    rw [branchesOf] at h
    obtain ⟨n, -, h⟩ := bind_eq_ok.1 h
    rw [ih h, Keyed.mem_keys_insert, List.map_cons, List.mem_cons, or_left_comm, or_assoc]

/-- A map in full: not empty, every key for the package or a subpath, and none of them, as no
condition of a choice, given twice. -/
structure InFull (m : ExportMap) : Prop where
  nonempty : m.entries ≠ []
  subpaths : ∀ key ∈ m.entries.keys, isSubpathKey key = true
  distinct : m.Distinct

theorem inFull_of_ofPackage (h : ofPackage v = .ok m) : m.InFull := by
  have hdistinct := distinct_ofPackage h
  obtain ⟨n, hn, ⟨-, rfl⟩ | ⟨fields, rfl, hne, hkeys, rfl⟩⟩ := ofPackage_eq_ok h
  · refine ⟨List.cons_ne_nil _ _, ?_, hdistinct⟩
    intro key hk
    obtain rfl := List.mem_singleton.1 hk
    show isSubpathKey rootKey = true
    decide
  · obtain ⟨t, ht, he⟩ := ofJson_object_eq_ok hn
    cases he
    have hmem (key : String) : key ∈ m.entries.keys ↔ key ∈ fields.map (·.1) := by
      rw [mem_keys_branchesOf ht]
      simp [Keyed.keys]
    refine ⟨?_, ?_, hdistinct⟩
    · intro hnil
      obtain ⟨f, r, rfl⟩ := List.exists_cons_of_ne_nil hne
      have hf := (hmem f.1).2 (List.mem_cons_self ..)
      rw [hnil] at hf
      exact absurd hf List.not_mem_nil
    · intro key hk
      obtain ⟨f, hf, rfl⟩ := List.mem_map.1 ((hmem key).1 hk)
      exact hkeys f hf

mutual

/-- A node that is written is taken as it was, wherever it is found. -/
theorem ofJson_toJson : ∀ (n : Node) (place : String), n.Distinct →
    Node.ofJson place n.toJson = .ok n
  | .target _, _, _ => rfl
  | .choice bs, place, h => by
    rw [Node.Distinct] at h
    have hb := branchesOf_fieldsOf bs place [] (by simpa [Keyed.keys] using h.1) h.2
    rw [Node.toJson, Node.ofJson, hb]
    rfl

theorem branchesOf_fieldsOf : ∀ (bs : List (String × Node)) (place : String)
    (before : List (String × Node)), (Keyed.keys before ++ Keyed.keys bs).Nodup → DistinctIn bs →
    branchesOf place before (fieldsOf bs) = .ok (before ++ bs)
  | [], _, before, _, _ => by
    rw [fieldsOf, branchesOf, List.append_nil]
    rfl
  | (name, n) :: r, place, before, hn, h => by
    obtain ⟨hlast, hkeys⟩ := Keyed.insert_of_nodup hn
    rw [fieldsOf, branchesOf, ofJson_toJson n _ h.1]
    show branchesOf place (Keyed.insert before name n) _ = _
    rw [hlast, branchesOf_fieldsOf r place _ hkeys h.2, List.append_assoc]
    rfl

end

/-- A map in full stands for itself. -/
theorem InFull.ofPackage_toJson (h : m.InFull) : ofPackage m.toJson = .ok m := by
  have hne : fieldsOf m.entries ≠ [] := by
    intro he
    have hkeys := keys_fieldsOf m.entries
    rw [he, List.map_nil] at hkeys
    exact h.nonempty (List.map_eq_nil_iff.1 hkeys.symm)
  have hsub : ∀ f ∈ fieldsOf m.entries, isSubpathKey f.1 = true := by
    intro f hf
    have hkey := List.mem_map_of_mem (f := (·.1)) hf
    rw [keys_fieldsOf] at hkey
    exact h.subpaths f.1 hkey
  have hdistinct : (Node.choice m.entries).Distinct := by
    rw [Node.Distinct]
    exact h.distinct
  rw [toJson, ofPackage_of_subpaths hne hsub]
  exact ofJson_toJson (.choice m.entries) "exports" hdistinct

theorem reader_toJson_iff (h : m.Distinct) :
    reader room (Json.draftOf m.toJson) = .ok m ↔ m.depth ≤ room :=
  ⟨depth_le_of_reader, reader_draftOf h⟩

/-! ## The texts of a map -/

theorem read_map_iff (h : m.Distinct) (ht : m.toJson.Written text) :
    Json.read reader text = .ok m ↔ m.depth ≤ Json.nestingLimit := by
  rw [Json.read_written reader ht (exact_map h)]
  exact reader_toJson_iff h

theorem parse_map_iff (h : m.Distinct) (ht : m.toJson.Written text) :
    Json.parse text = .ok m.toJson ↔ m.depth ≤ Json.nestingLimit := by
  have hdepth : m.toJson.depth = m.depth := by rw [toJson, Json.depth, depth_fieldsOf, depth]
  rw [Json.parse, Json.read_written _ ht (exact_map h), ← hdepth]
  exact ⟨Json.depth_le_of_ofDraft _ _ _, Json.ofDraft_draftOf _ _ (exact_map h)⟩

mutual

theorem depth_ofJson_le : ∀ (v : Json) (place : String) (n : Node),
    Node.ofJson place v = .ok n → n.depth ≤ v.depth
  | .string _, _, n, h => by
    cases h
    exact Nat.le_refl 0
  | .object fields, place, n, h => by
    rw [Node.ofJson] at h
    obtain ⟨bs, hb, hn⟩ := bind_eq_ok.1 h
    cases hn
    exact Nat.succ_le_succ (depth_branchesOf_le fields place [] bs _ (Nat.zero_le _)
      (Nat.le_refl _) hb)
  | .null, _, _, h => by cases h
  | .bool _, _, _, h => by cases h
  | .int _, _, _, h => by cases h
  | .double _, _, _, h => by cases h
  | .array _, _, _, h => by cases h

theorem depth_branchesOf_le : ∀ (fields : List (String × Json)) (place : String)
    (before bs : List (String × Node)) (bound : Nat), branchesDepth before ≤ bound →
    Json.fieldsDepth fields ≤ bound → branchesOf place before fields = .ok bs →
    branchesDepth bs ≤ bound
  | [], _, before, bs, bound, hb, _, h => by
    cases h
    exact hb
  | (condition, v) :: r, place, before, bs, bound, hb, hf, h => by
    rw [branchesOf] at h
    obtain ⟨n, hv, h⟩ := bind_eq_ok.1 h
    rw [Json.fieldsDepth, Nat.max_le] at hf
    refine depth_branchesOf_le r place _ bs bound (branchesDepth_le_iff.2 fun e he => ?_) hf.2 h
    rcases Keyed.mem_insert he with rfl | he
    · exact Nat.le_trans (depth_ofJson_le v _ n hv) hf.1
    · exact branchesDepth_le_iff.1 hb e he

end

/-- The key of the package is all that a value can gain. -/
theorem depth_ofPackage_le (h : ofPackage v = .ok m) : m.depth ≤ v.depth + 1 := by
  obtain ⟨n, hn, ⟨-, rfl⟩ | ⟨fields, -, -, -, rfl⟩⟩ := ofPackage_eq_ok h
  · have hd := depth_ofJson_le v _ n hn
    simpa [depth, branchesDepth] using hd
  · have hd := depth_ofJson_le v _ _ hn
    exact Nat.le_succ_of_le hd

/-! ## Normalization -/

/-- What holds of the map that a value becomes. Taken again it is the same map, and so it is read in
full as soon as there is room for the containers that are nested in it. A value gives all the room
that is needed; a text gives no more than the limit, to both ways of reading. -/
structure Normal (m : ExportMap) : Prop where
  nonempty : m.entries ≠ []
  subpaths : ∀ key ∈ m.entries.keys, isSubpathKey key = true
  again : ofPackage m.toJson = .ok m
  read : ∀ room, reader room (Json.draftOf m.toJson) = .ok m ↔ m.depth ≤ room
  texts : ∀ text, m.toJson.Written text →
    (Json.read reader text = .ok m ↔ m.depth ≤ Json.nestingLimit) ∧
      (Json.parse text = .ok m.toJson ↔ m.depth ≤ Json.nestingLimit)

theorem InFull.normal (h : m.InFull) : m.Normal where
  nonempty := h.nonempty
  subpaths := h.subpaths
  again := h.ofPackage_toJson
  read _ := reader_toJson_iff h.distinct
  texts _ ht := ⟨read_map_iff h.distinct ht, parse_map_iff h.distinct ht⟩

/-- The field of a document that was read nests less than the document. -/
theorem depth_lt_of_field? {doc : Json} {name : String} (hp : Json.parse text = .ok doc)
    (hf : doc.field? name = some v) : v.depth < Json.nestingLimit := by
  have hdoc := Json.depth_of_parse hp
  obtain ⟨fields, hobject, hget⟩ := Option.bind_eq_some_iff.1 hf
  cases doc with
  | object fs =>
    cases hobject
    have hle : v.depth ≤ Json.fieldsDepth fields :=
      Json.fieldsDepth_le_iff.1 (Nat.le_refl _) _ (Keyed.mem_of_get? hget)
    rw [Json.depth] at hdoc
    omega
  | _ => cases hobject

/-- A value is taken exactly if it is declarable, and what it becomes is a normal form. What the
field of a document becomes is always read back from its texts, on one line and on many. -/
theorem ofPackage_normalizes (v : Json) :
    ((∃ m, ofPackage v = .ok m) ↔ Declarable v) ∧
      ∀ m, ofPackage v = .ok m → m.Normal ∧
        ∀ text doc name, Json.parse text = .ok doc → doc.field? name = some v →
          Json.read reader m.toJson.compact = .ok m ∧
            Json.read reader (m.toJson.pretty ++ "\n") = .ok m := by
  refine ⟨exists_ofPackage_iff v, ?_⟩
  intro m h
  have hnormal := (inFull_of_ofPackage h).normal
  refine ⟨hnormal, ?_⟩
  intro text doc name hp hf
  have hroom : m.depth ≤ Json.nestingLimit := by
    have hdepth := depth_ofPackage_le h
    have hfield := depth_lt_of_field? hp hf
    omega
  constructor
  · exact (hnormal.texts _ (Json.written_compact _)).1.2 hroom
  · exact (hnormal.texts _ (Json.written_pretty _)).1.2 hroom

/-- An object without keys is a choice without branches. -/
example : ofPackage (.object []) = .ok ⟨[(".", .choice [])]⟩ := rfl

end ExportMap

end Vendoring
