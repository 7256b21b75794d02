/-!
Tables whose entries stay in the order in which their keys were first given. Giving a key again
replaces its value and leaves it where it stands.
-/

namespace Vendoring

/-- A table in order of first insertion. -/
abbrev Keyed (α : Type) := List (String × α)

namespace Keyed
variable {α β : Type}

def keys (t : Keyed α) : List String := t.map (·.1)

def values (t : Keyed α) : List α := t.map (·.2)

def get? : Keyed α → String → Option α
  | [], _ => none
  | (k, v) :: r, key => if k = key then some v else get? r key

def contains (t : Keyed α) (key : String) : Bool := (t.get? key).isSome

/-- Replaces the value of `key` in place, or appends it. -/
def insert : Keyed α → String → α → Keyed α
  | [], key, value => [(key, value)]
  | (k, v) :: r, key, value => if k = key then (k, value) :: r else (k, v) :: insert r key value

def erase (t : Keyed α) (key : String) : Keyed α := t.filter (·.1 ≠ key)

/-- The table that a run of insertions leaves. -/
def ofList (entries : List (String × α)) : Keyed α :=
  entries.foldl (fun t e => t.insert e.1 e.2) []

@[simp] theorem get?_nil (key : String) : get? ([] : Keyed α) key = none := rfl

@[simp] theorem get?_insert_self (t : Keyed α) (key : String) (value : α) :
    (t.insert key value).get? key = some value := by
  induction t with
  | nil => simp [insert, get?]
  | cons e r ih => by_cases h : e.1 = key <;> simp [insert, get?, h, ih]

theorem get?_insert_of_ne {key other : String} (h : key ≠ other) (t : Keyed α) (value : α) :
    (t.insert key value).get? other = t.get? other := by
  induction t with
  | nil => simp [insert, get?, h]
  | cons e r ih =>
    by_cases hk : e.1 = key
    · subst hk; simp [insert, get?, h]
    · simp [insert, get?, hk, ih]

theorem mem_keys_iff {t : Keyed α} {key : String} : key ∈ t.keys ↔ (t.get? key).isSome := by
  induction t with
  | nil => simp [keys]
  | cons e r ih =>
    simp only [keys, List.map_cons, List.mem_cons, get?] at ih ⊢
    by_cases h : e.1 = key
    · simp [h]
    · have hne : key ≠ e.1 := fun he => h he.symm
      simp [h, hne, ih]

/-- A new key goes to the end; a known one keeps its place. -/
theorem keys_insert (t : Keyed α) (key : String) (value : α) :
    (t.insert key value).keys = if key ∈ t.keys then t.keys else t.keys ++ [key] := by
  induction t with
  | nil => simp [insert, keys]
  | cons e r ih =>
    by_cases h : e.1 = key
    · simp [insert, keys, h]
    · have hne : key ≠ e.1 := fun he => h he.symm
      simp only [keys] at ih
      by_cases hm : key ∈ r.map (·.1) <;> simp_all [insert, keys]

theorem nodup_keys_insert {t : Keyed α} (h : t.keys.Nodup) (key : String) (value : α) :
    (t.insert key value).keys.Nodup := by
  rw [keys_insert]
  split
  · exact h
  · next hk =>
    refine List.nodup_append.2 ⟨h, by simp, fun a ha b hb he => hk ?_⟩
    rwa [← List.mem_singleton.1 hb, ← he]

end Keyed

end Vendoring
