import Mathlib.Data.List.Induction
import Vendoring.Keyed

/-! What runs of insertions leave in a table. -/
namespace Vendoring.Keyed

variable {α : Type} {t : Keyed α} {key : String} {value : α} {e : String × α}

theorem mem_of_get? (h : t.get? key = some value) : (key, value) ∈ t := by
  induction t with
  | nil => cases h
  | cons e r ih =>
    obtain ⟨k, v⟩ := e
    rw [get?] at h
    split at h
    · next hk =>
      cases h
      exact hk ▸ List.mem_cons_self ..
    · exact List.mem_cons_of_mem _ (ih h)

theorem get?_of_mem (hn : t.keys.Nodup) (h : (key, value) ∈ t) : t.get? key = some value := by
  induction t with
  | nil => cases h
  | cons e r ih =>
    obtain ⟨k, v⟩ := e
    simp only [keys, List.map_cons, List.nodup_cons] at hn
    rw [get?]
    rcases List.mem_cons.1 h with he | h
    · cases he
      rw [if_pos rfl]
    · rw [if_neg, ih hn.2 h]
      rintro rfl
      exact hn.1 (List.mem_map_of_mem h)

theorem mem_insert (h : e ∈ t.insert key value) : e = (key, value) ∨ e ∈ t := by
  induction t with
  | nil => exact Or.inl (by simpa [insert] using h)
  | cons d r ih =>
    rw [insert] at h
    split at h
    · next hk =>
      rcases List.mem_cons.1 h with rfl | h
      · exact Or.inl (by rw [hk])
      · exact Or.inr (List.mem_cons_of_mem _ h)
    · rcases List.mem_cons.1 h with rfl | h
      · exact Or.inr (List.mem_cons_self ..)
      · exact (ih h).imp_right (List.mem_cons_of_mem _)

theorem insert_of_not_mem (h : key ∉ t.keys) : t.insert key value = t ++ [(key, value)] := by
  induction t with
  | nil => rfl
  | cons d r ih =>
    simp only [keys, List.map_cons, List.mem_cons, not_or] at h
    rw [insert, if_neg (Ne.symm h.1), ih h.2]
    rfl

/-- Of a table without repeated keys, the first entry behind some others is appended to them. -/
theorem insert_of_nodup {r : Keyed α} (h : (t.keys ++ keys ((key, value) :: r)).Nodup) :
    t.insert key value = t ++ [(key, value)] ∧ (keys (t ++ [(key, value)]) ++ keys r).Nodup := by
  constructor
  · apply insert_of_not_mem
    intro hm
    exact (List.nodup_append.1 h).2.2 _ hm _ (List.mem_cons_self ..) rfl
  · simpa [keys] using h

theorem mem_foldl_insert {entries : List (String × α)}
    (h : e ∈ entries.foldl (fun t e => t.insert e.1 e.2) t) : e ∈ entries ∨ e ∈ t := by
  induction entries generalizing t with
  | nil => exact Or.inr h
  | cons d r ih =>
    rcases ih h with h | h
    · exact Or.inl (List.mem_cons_of_mem _ h)
    · rcases mem_insert h with rfl | h
      · exact Or.inl (List.mem_cons_self ..)
      · exact Or.inr h

theorem mem_ofList {entries : List (String × α)} (h : e ∈ ofList entries) : e ∈ entries :=
  (mem_foldl_insert h).resolve_right List.not_mem_nil

theorem nodup_foldl_insert {entries : List (String × α)} (h : t.keys.Nodup) :
    (entries.foldl (fun t e => t.insert e.1 e.2) t).keys.Nodup := by
  induction entries generalizing t with
  | nil => exact h
  | cons d r ih => exact ih (nodup_keys_insert h _ _)

theorem nodup_ofList (entries : List (String × α)) : (ofList entries).keys.Nodup :=
  nodup_foldl_insert List.nodup_nil

theorem eraseDups_concat (keys : List String) (key : String) : (keys ++ [key]).eraseDups =
    if key ∈ keys then keys.eraseDups else keys.eraseDups ++ [key] := by
  rw [List.eraseDups_append]
  by_cases hm : key ∈ keys
  · simp [List.removeAll, hm]
  · simp [List.removeAll, hm, List.eraseDups_cons]

/-- Keys stand in the order in which they were first given. -/
theorem keys_ofList (entries : List (String × α)) :
    (ofList entries).keys = (entries.map (·.1)).eraseDups := by
  induction entries using List.reverseRecOn with
  | nil => rfl
  | append_singleton front e ih =>
    have hlast : ofList (front ++ [e]) = (ofList front).insert e.1 e.2 := by
      rw [ofList, List.foldl_append]
      rfl
    -- Both sides take the last key up only if it is new.
    rw [hlast, keys_insert, ih, List.map_append, List.map_singleton, eraseDups_concat]
    simp only [List.mem_eraseDups]

theorem get?_append (a b : Keyed α) (key : String) :
    get? (a ++ b) key = (a.get? key).or (get? b key) := by
  induction a with
  | nil => rfl
  | cons d r ih =>
    rw [List.cons_append, get?, get?]
    split
    · rfl
    · exact ih

theorem get?_map {β : Type} (f : String → α → β) (t : Keyed α) (key : String) :
    get? (t.map fun e => (e.1, f e.1 e.2)) key = (t.get? key).map (f key) := by
  induction t with
  | nil => rfl
  | cons d r ih =>
    rw [List.map_cons, get?, get?]
    split
    · next hk => simp [hk]
    · exact ih

theorem get?_eq_none_iff : t.get? key = none ↔ key ∉ t.keys := by
  rw [mem_keys_iff, Option.not_isSome_iff_eq_none]

/-- Entries of different new keys are put at the end as they stand. -/
theorem foldl_insert_of_nodup {entries : Keyed α} (h : (t.keys ++ entries.keys).Nodup) :
    entries.foldl (fun t e => t.insert e.1 e.2) t = t ++ entries := by
  induction entries generalizing t with
  | nil => exact (List.append_nil t).symm
  | cons e r ih =>
    obtain ⟨hlast, hrest⟩ := insert_of_nodup h
    rw [List.foldl_cons, hlast, ih hrest, List.append_assoc]
    rfl

/-- Of entries with different keys, those with new keys are put at the end. -/
theorem keys_foldl_insert {entries : Keyed α} (h : entries.keys.Nodup) :
    (entries.foldl (fun t e => t.insert e.1 e.2) t).keys =
      t.keys ++ entries.keys.filter (· ∉ t.keys) := by
  induction entries generalizing t with
  | nil => simp [keys]
  | cons e r ih =>
    obtain ⟨hnew, hr⟩ := List.nodup_cons.1 h
    have hrest : (keys r).filter (· ∉ (t.insert e.1 e.2).keys) =
        (keys r).filter (· ∉ t.keys) := by
      apply List.filter_congr
      intro k hk
      have hne : k ≠ e.1 := by
        rintro rfl
        exact hnew hk
      simp [keys_insert, hne, apply_ite (k ∈ ·)]
    have hkeys : keys (e :: r) = e.1 :: keys r := rfl
    rw [List.foldl_cons, ih hr, hrest, keys_insert, hkeys]
    by_cases hm : e.1 ∈ t.keys <;> simp [hm]

theorem get?_foldl_insert {entries : Keyed α} (h : entries.keys.Nodup) :
    (entries.foldl (fun t e => t.insert e.1 e.2) t).get? key =
      (entries.get? key).or (t.get? key) := by
  induction entries generalizing t with
  | nil => rfl
  | cons e r ih =>
    obtain ⟨hnew, hr⟩ := List.nodup_cons.1 h
    rw [List.foldl_cons, ih hr, get?]
    by_cases hk : e.1 = key
    · subst hk
      rw [get?_eq_none_iff.2 hnew, if_pos rfl, get?_insert_self]
      rfl
    · rw [if_neg hk, get?_insert_of_ne hk]

theorem ofList_of_nodup {entries : Keyed α} (h : entries.keys.Nodup) :
    ofList entries = entries :=
  foldl_insert_of_nodup h

theorem get?_erase_of_ne {other : String} (h : other ≠ key) (t : Keyed α) :
    (t.erase other).get? key = t.get? key := by
  induction t with
  | nil => rfl
  | cons d r ih =>
    by_cases hd : d.1 = other
    · have herase : erase (d :: r) other = erase r other := by simp [erase, hd]
      rw [herase, ih, get?, if_neg (hd ▸ h)]
    · have herase : erase (d :: r) other = d :: erase r other := by simp [erase, hd]
      rw [herase, get?, get?, ih]

theorem get?_erase_self (t : Keyed α) (key : String) : (t.erase key).get? key = none := by
  rw [get?_eq_none_iff, keys, erase]
  intro hm
  obtain ⟨e, he, rfl⟩ := List.mem_map.1 hm
  simp at he

/-- The order of the entries does not count where no key is given twice. -/
theorem get?_perm {t' : Keyed α} (hn : t.keys.Nodup) (hp : t.Perm t') :
    t'.get? key = t.get? key := by
  have hn' : t'.keys.Nodup := (hp.map _).nodup_iff.1 hn
  cases h : t.get? key with
  | some value => exact get?_of_mem hn' (hp.mem_iff.1 (mem_of_get? h))
  | none =>
    rw [get?_eq_none_iff] at h ⊢
    intro hm
    exact h ((hp.map (·.1)).mem_iff.2 hm)

/-- The other entries stay where they are. -/
theorem getElem?_insert_of_ne {i : Nat} (h : t[i]? = some e) (hne : e.1 ≠ key) (value : α) :
    (t.insert key value)[i]? = some e := by
  induction t generalizing i with
  | nil => cases h
  | cons d r ih =>
    rw [insert]
    split
    · next hd =>
      cases i with
      | zero =>
        cases h
        exact absurd hd hne
      | succ i => exact h
    · cases i with
      | zero => exact h
      | succ i => exact ih h

/-- A key that is given again keeps its place. -/
theorem getElem?_insert_self {i : Nat} {old : α} (hn : t.keys.Nodup)
    (h : t[i]? = some (key, old)) (value : α) : (t.insert key value)[i]? = some (key, value) := by
  induction t generalizing i with
  | nil => cases h
  | cons d r ih =>
    obtain ⟨hnew, hr⟩ := List.nodup_cons.1 hn
    rw [insert]
    cases i with
    | zero =>
      cases h
      rw [if_pos rfl]
      rfl
    | succ i =>
      have hlater : r[i]? = some (key, old) := h
      have hm : key ∈ keys r := List.mem_map_of_mem (List.mem_of_getElem? hlater)
      have hne : d.1 ≠ key := by
        intro hd
        rw [← hd] at hm
        exact hnew hm
      rw [if_neg hne]
      exact ih hr hlater

/-! ## Insertions that are made again -/

theorem insert_of_get? (h : t.get? key = some value) : t.insert key value = t := by
  induction t with
  | nil => cases h
  | cons d r ih =>
    rw [get?] at h
    rw [insert]
    split at h
    · next hk =>
      cases h
      rw [if_pos hk]
    · next hk => rw [if_neg hk, ih h]

@[simp] theorem insert_insert (t : Keyed α) (key : String) (a b : α) :
    (t.insert key a).insert key b = t.insert key b := by
  induction t with
  | nil => simp [insert]
  | cons d r ih =>
    by_cases hk : d.1 = key
    · simp [insert, hk]
    · simp [insert, hk, ih]

/-- An insertion may be put off until after one that does not make the table longer. -/
theorem insert_comm {other : String} {a b : α} (hne : key ≠ other) (hm : other ∈ t.keys) :
    (t.insert key a).insert other b = (t.insert other b).insert key a := by
  induction t with
  | nil => cases hm
  | cons d r ih =>
    by_cases hk : d.1 = key
    · simp [insert, hk, hne]
    · by_cases ho : d.1 = other
      · simp [insert, ho, Ne.symm hne]
      · have hr : other ∈ keys r := by
          rcases List.mem_cons.1 hm with he | hr
          · exact absurd he.symm ho
          · exact hr
        simp [insert, hk, ho, ih hr]

theorem mem_keys_insert {other : String} :
    other ∈ (t.insert key value).keys ↔ other = key ∨ other ∈ t.keys := by
  rw [keys_insert]
  split
  · next hk =>
    constructor
    · exact Or.inr
    · rintro (rfl | hm)
      · exact hk
      · exact hm
  · rw [List.mem_append, List.mem_singleton, or_comm]

theorem mem_keys_foldl_insert {entries : List (String × α)} :
    key ∈ (entries.foldl (fun t e => t.insert e.1 e.2) t).keys ↔
      key ∈ entries.map (·.1) ∨ key ∈ t.keys := by
  induction entries generalizing t with
  | nil => simp
  | cons d r ih =>
    rw [List.foldl_cons, ih, mem_keys_insert, List.map_cons, List.mem_cons, or_left_comm, or_assoc]

/-- What is inserted in the end does not depend on what its key had before a run of insertions. -/
theorem insert_foldl_insert {entries : List (String × α)} {a b : α}
    (h : ∀ e ∈ entries, e.1 ∈ t.keys) :
    (entries.foldl (fun t e => t.insert e.1 e.2) (t.insert key a)).insert key b =
      (entries.foldl (fun t e => t.insert e.1 e.2) t).insert key b := by
  induction entries generalizing t with
  | nil => exact insert_insert t key a b
  | cons d r ih =>
    obtain ⟨hd, hr⟩ := List.forall_mem_cons.1 h
    rw [List.foldl_cons, List.foldl_cons]
    by_cases hk : key = d.1
    · rw [hk, insert_insert]
    · rw [insert_comm hk hd]
      apply ih
      intro e he
      exact mem_keys_insert.2 (Or.inr (hr e he))

/-- A run of insertions that is made again changes nothing. -/
theorem foldl_insert_again (entries : List (String × α)) (t : Keyed α) :
    entries.foldl (fun t e => t.insert e.1 e.2) (entries.foldl (fun t e => t.insert e.1 e.2) t) =
      entries.foldl (fun t e => t.insert e.1 e.2) t := by
  induction entries using List.reverseRecOn with
  | nil => rfl
  | append_singleton front d ih =>
    have hkeys : ∀ e ∈ front, e.1 ∈ (front.foldl (fun t e => t.insert e.1 e.2) t).keys := by
      intro e he
      exact mem_keys_foldl_insert.2 (Or.inl (List.mem_map_of_mem he))
    simp only [List.foldl_append, List.foldl_cons, List.foldl_nil]
    rw [insert_foldl_insert hkeys, ih]

theorem map_insert {β : Type} (f : String → α → β) (t : Keyed α) (key : String) (value : α) :
    (t.insert key value).map (fun e => (e.1, f e.1 e.2)) =
      insert (t.map fun e => (e.1, f e.1 e.2)) key (f key value) := by
  induction t with
  | nil => rfl
  | cons d r ih =>
    by_cases hk : d.1 = key
    · simp [insert, hk]
    · simp [insert, hk, ih]

end Vendoring.Keyed
