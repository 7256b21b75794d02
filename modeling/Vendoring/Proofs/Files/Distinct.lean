import Vendoring.Proofs.Files.Change

/-! Trees in which no directory has two entries of one name. -/
namespace Vendoring.Files

namespace Tree

/-- The names in each directory are distinct. -/
def Distinct (t : Tree) : Prop :=
  ∀ q es, t.get? q = some (.directory es) → (Keyed.keys es).Nodup

variable {t new x : Tree} {q : Trail} {name : String} {es : List (String × Tree)}

theorem distinct_leaf (h : ∀ es, t ≠ .directory es) : t.Distinct := by
  intro q es hq
  cases q with
  | nil => exact absurd (Option.some.inj hq) (h es)
  | cons _ _ =>
    cases t with
    | directory es' => exact absurd rfl (h es')
    | file _ => cases hq
    | link _ => cases hq

theorem Distinct.below (h : t.Distinct) (hq : t.get? q = some x) : x.Distinct := by
  intro r es hr
  refine h (q ++ r) es ?_
  rw [get?_append, hq]
  exact hr

theorem Distinct.entry (h : (directory es).Distinct) (hx : Keyed.get? es name = some x) :
    x.Distinct :=
  h.below ((get?_child es name).trans hx)

theorem distinct_directory (hn : (Keyed.keys es).Nodup)
    (h : ∀ name x, Keyed.get? es name = some x → x.Distinct) : (directory es).Distinct := by
  intro q es' hq
  cases q with
  | nil =>
    cases hq
    exact hn
  | cons name r =>
    obtain ⟨x, hx, hr⟩ := Option.bind_eq_some_iff.1 hq
    exact h name x hx r es' hr

theorem distinct_empty : (directory []).Distinct :=
  distinct_directory List.nodup_nil fun _ _ h => by cases h

theorem Distinct.insert (h : (directory es).Distinct) (hx : x.Distinct) :
    (directory (Keyed.insert es name x)).Distinct := by
  refine distinct_directory (Keyed.nodup_keys_insert (h [] es rfl) _ _) fun other y hy => ?_
  by_cases he : name = other
  · rw [← he, Keyed.get?_insert_self] at hy
    cases hy
    exact hx
  · rw [Keyed.get?_insert_of_ne he] at hy
    exact h.entry hy

theorem Distinct.put (h : t.Distinct) (hn : new.Distinct) : (t.put q new).Distinct := by
  induction q generalizing t with
  | nil => cases t <;> exact hn
  | cons name q ih =>
    cases t with
    | file _ => cases q <;> exact h
    | link _ => cases q <;> exact h
    | directory es =>
      cases q with
      | nil => exact h.insert hn
      | cons other q =>
        simp only [Tree.put]
        split
        · next x hx => exact h.insert (ih (h.entry hx))
        · exact h

theorem Distinct.erase (h : t.Distinct) : (t.erase q).Distinct := by
  induction q generalizing t with
  | nil => cases t <;> exact h
  | cons name q ih =>
    cases t with
    | file _ => cases q <;> exact h
    | link _ => cases q <;> exact h
    | directory es =>
      cases q with
      | nil =>
        have hsub : (Keyed.keys (Keyed.erase es name)).Sublist (Keyed.keys es) :=
          List.filter_sublist.map _
        refine distinct_directory (hsub.nodup (h [] es rfl)) fun other y hy => ?_
        by_cases he : name = other
        · rw [← he, Keyed.get?_erase_self] at hy
          cases hy
        · rw [Keyed.get?_erase_of_ne he] at hy
          exact h.entry hy
      | cons other q =>
        simp only [Tree.erase]
        split
        · next x hx => exact h.insert (ih (h.entry hx))
        · exact h

mutual

/-- What the directories of a tree hold. -/
def holdings : Tree → List (List (String × Tree))
  | .directory entries => entries :: holdingsIn entries
  | _ => []

def holdingsIn : List (String × Tree) → List (List (String × Tree))
  | [] => []
  | (_, t) :: rest => t.holdings ++ holdingsIn rest

end

theorem mem_holdingsIn {hs : List (String × Tree)} (h : (name, t) ∈ es) (ht : hs ∈ t.holdings) :
    hs ∈ holdingsIn es := by
  induction es with
  | nil => cases h
  | cons e rest ih =>
    rw [holdingsIn, List.mem_append]
    rcases List.mem_cons.1 h with rfl | h
    · exact Or.inl ht
    · exact Or.inr (ih h)

theorem distinct_of_holdings (h : ∀ es ∈ t.holdings, (Keyed.keys es).Nodup) : t.Distinct := by
  have hmem {t : Tree} {q : Trail} {es : List (String × Tree)}
      (hq : t.get? q = some (.directory es)) : es ∈ t.holdings := by
    induction q generalizing t with
    | nil =>
      cases hq
      exact List.mem_cons_self ..
    | cons name q ih =>
      cases t with
      | file _ => cases hq
      | link _ => cases hq
      | directory es' =>
        obtain ⟨x, hx, hr⟩ := Option.bind_eq_some_iff.1 hq
        exact List.mem_cons_of_mem _ (mem_holdingsIn (Keyed.mem_of_get? hx) (ih hr))
  exact fun q es hq => h es (hmem hq)

end Tree

namespace Disk
open Outcome

variable {d d' : Disk} {p source target : Path} {bytes : ByteArray}

/-- No directory of a disk has two entries of one name. -/
def Distinct (d : Disk) : Prop := d.root.Distinct

theorem distinct_makeDirectory (hd : d.Distinct) (h : d.makeDirectory p = .ok d') :
    d'.Distinct := by
  obtain ⟨s, -, -, -, rfl⟩ := add_cases h
  exact hd.put Tree.distinct_empty

theorem distinct_write (hd : d.Distinct) (h : d.write p bytes = .ok d') : d'.Distinct := by
  have hfile : (Tree.file bytes).Distinct := Tree.distinct_leaf fun es he => by cases he
  rcases write_puts h with ⟨_, _, -, rfl⟩ | ⟨_, _, -, rfl⟩
  · exact hd.put hfile
  · exact hd.put hfile

theorem distinct_rename (hd : d.Distinct) (h : d.rename source target = .ok d') :
    d'.Distinct := by
  obtain ⟨a, b, -, -, hm⟩ := rename_slots h
  obtain ⟨x, hx, -, -, -, ⟨-, rfl⟩ | ⟨-, -, rfl⟩⟩ := move_cases hm
  · exact hd
  · exact hd.erase.put (hd.below hx)

theorem distinct_removeFile (hd : d.Distinct) (h : d.removeFile p = .ok d') : d'.Distinct := by
  obtain ⟨s, -, -, -, -, -, rfl⟩ := removeFile_cases h
  exact hd.erase

end Disk

end Vendoring.Files
