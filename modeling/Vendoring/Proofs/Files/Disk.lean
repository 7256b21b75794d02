import Mathlib.Data.Set.Basic
import Vendoring.Files.Disk
import Vendoring.Proofs.Files.Tree
import Vendoring.Proofs.Outcome

/-! What the operations of a disk change, place by place. -/
namespace Vendoring.Files

/-- The places at and below a place. -/
def below (q : Trail) : Set Trail := {t | q <+: t}

namespace Disk
open Outcome

variable {d d' d'' : Disk} {S S' : Set Trail} {p source target : Path} {place q r t : Trail}
  {s a b : Slot} {name : String} {steps : List String} {follow : Bool} {links : Nat}
  {x y : Tree} {es : List (String × Tree)} {k : Node}

def node? (d : Disk) (t : Trail) : Option Node := d.root.node? t

/-- Two disks that differ inside of `S` at most. -/
structure Agree (S : Set Trail) (d d' : Disk) : Prop where
  here : d'.here = d.here
  node : ∀ t ∉ S, d'.node? t = d.node? t

theorem Agree.refl (S : Set Trail) (d : Disk) : Agree S d d := ⟨rfl, fun _ _ => rfl⟩

theorem Agree.symm (h : Agree S d d') : Agree S d' d :=
  ⟨h.here.symm, fun t ht => (h.node t ht).symm⟩

theorem Agree.mono (h : Agree S d d') (hs : S ⊆ S') : Agree S' d d' :=
  ⟨h.here, fun t ht => h.node t fun hm => ht (hs hm)⟩

theorem Agree.trans (h : Agree S d d') (h' : Agree S d' d'') : Agree S d d'' :=
  ⟨h'.here.trans h.here, fun t ht => (h'.node t ht).trans (h.node t ht)⟩

/-- A change inside of `S`, and then one inside of `S'`. -/
theorem Agree.trans_union (h : Agree S d d') (h' : Agree S' d' d'') : Agree (S ∪ S') d d'' :=
  (h.mono Set.subset_union_left).trans (h'.mono Set.subset_union_right)

theorem node?_eq_directory :
    d.node? t = some .directory ↔ ∃ es, d.get? t = some (.directory es) := by
  rw [node?, Tree.node?, ← get?]
  cases d.get? t with
  | none => simp
  | some x => cases x <;> simp [Tree.node]

theorem node?_of_get? (h : d.get? t = some x) : d.node? t = some x.node := by
  rw [node?, Tree.node?, ← get?, h]
  rfl

theorem node?_eq_some : d.node? t = some k ↔ ∃ x, d.get? t = some x ∧ x.node = k := by
  rw [node?, Tree.node?, ← get?, Option.map_eq_some_iff]

theorem node?_eq_link {target : String} :
    d.node? t = some (.link target) ↔ d.get? t = some (.link target) := by
  rw [node?_eq_some]
  constructor
  · rintro ⟨x, hx, hk⟩
    cases x with
    | link _ => cases hk; exact hx
    | file _ => cases hk
    | directory _ => cases hk
  · exact fun h => ⟨_, h, rfl⟩

theorem node?_eq_file {bytes : ByteArray} :
    d.node? t = some (.file bytes) ↔ d.get? t = some (.file bytes) := by
  rw [node?_eq_some]
  constructor
  · rintro ⟨x, hx, hk⟩
    cases x with
    | file _ => cases hk; exact hx
    | link _ => cases hk
    | directory _ => cases hk
  · exact fun h => ⟨_, h, rfl⟩

theorem node?_eq_none : d.node? t = none ↔ d.get? t = none := by
  rw [node?, Tree.node?, ← get?, Option.map_eq_none_iff]

theorem node?_concat (h : d.get? q = some (.directory es)) (name : String) :
    d.node? (q ++ [name]) = (Keyed.get? es name).map Tree.node := by
  rw [node?, Tree.node?, Tree.get?_concat h]

theorem get?_concat (h : d.get? q = some (.directory es)) (name : String) :
    d.get? (q ++ [name]) = Keyed.get? es name := Tree.get?_concat h name

/-- Nothing stands below a place where nothing is. -/
theorem node?_append_of_none (h : d.node? t = none) (r : Trail) : d.node? (t ++ r) = none := by
  rw [node?_eq_none] at h ⊢
  rw [get?, Tree.get?_append]
  rw [get?] at h
  rw [h]
  rfl

/-- What stands below something stands in directories. -/
theorem node?_of_append (h : d.node? (t ++ name :: r) = some k) : d.node? t = some .directory := by
  cases hx : d.get? t with
  | none =>
    rw [node?_append_of_none (node?_eq_none.2 hx)] at h
    cases h
  | some x =>
    rw [node?, Tree.node?_append hx] at h
    cases x with
    | directory es => exact node?_of_get? hx
    | file _ => cases h
    | link _ => cases h

theorem agree_put (d : Disk) (t : Trail) (x : Tree) : Agree (below t) d (d.put t x) :=
  ⟨rfl, fun _ hq => Tree.node?_put_of_not_below hq⟩

theorem agree_erase (d : Disk) (t : Trail) : Agree (below t) d (d.erase t) :=
  ⟨rfl, fun _ hq => Tree.node?_erase_of_not_below hq⟩

theorem node?_put (h : d.node? q = some .directory) (name : String) (x : Tree) (r : Trail) :
    (d.put (q ++ [name]) x).node? (q ++ [name] ++ r) = x.node? r := by
  have hp := Tree.get?_put_below h name x r
  rw [List.append_assoc, List.singleton_append, node?, put, Tree.node?, hp]
  rfl

theorem node?_put_of_get? (h : d.get? t = some y) (x : Tree) (r : Trail) :
    (d.put t x).node? (t ++ r) = x.node? r := by
  rcases List.eq_nil_or_concat t with rfl | ⟨q, name, rfl⟩
  · cases hd : d.root <;> simp [node?, put, Tree.put]
  · rw [List.concat_eq_append] at h ⊢
    exact node?_put (node?_of_append (node?_of_get? h)) name x r

theorem put_put (d : Disk) (t : Trail) (x y : Tree) : (d.put t x).put t y = d.put t y := by
  simp only [put, Tree.put_put]

theorem node?_erase (q : Trail) (name : String) (r : Trail) :
    (d.erase (q ++ [name])).node? (q ++ [name] ++ r) = none := by
  rw [node?_eq_none, List.append_assoc, List.singleton_append]
  exact Tree.get?_erase_below q name r

end Disk

end Vendoring.Files
