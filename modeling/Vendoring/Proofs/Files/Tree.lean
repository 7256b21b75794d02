import Vendoring.Files.Tree
import Vendoring.Proofs.Keyed

/-! Trees place by place: what a change at one place leaves as it was. -/
namespace Vendoring.Files

/-- What stands at a place of a tree, without what a directory holds. -/
inductive Node
  | file (bytes : ByteArray)
  | link (target : String)
  | directory

def Node.isLink : Node → Bool
  | link _ => true
  | _ => false

namespace Tree

def node : Tree → Node
  | file bytes => .file bytes
  | link target => .link target
  | directory _ => .directory

def node? (t : Tree) (trail : Trail) : Option Node := (t.get? trail).map node

variable {t new x : Tree} {trail q r : Trail} {name : String} {es : List (String × Tree)}

theorem get?_append (t : Tree) (q r : Trail) : t.get? (q ++ r) = (t.get? q).bind (·.get? r) := by
  induction q generalizing t with
  | nil => rfl
  | cons n q ih =>
    cases t with
    | directory es =>
      simp only [List.cons_append, get?]
      cases Keyed.get? es n with
      | none => rfl
      | some t => exact ih t
    | file _ => rfl
    | link _ => rfl

theorem node?_append (h : t.get? q = some x) (r : Trail) : t.node? (q ++ r) = x.node? r := by
  rw [node?, get?_append, h]
  rfl

theorem get?_child (es : List (String × Tree)) (name : String) :
    (directory es).get? [name] = Keyed.get? es name := by
  simp only [get?]
  cases Keyed.get? es name <;> rfl

/-- The place that a step goes on to stands in the directory it is taken from. -/
theorem get?_concat (h : t.get? q = some (directory es)) (name : String) :
    t.get? (q ++ [name]) = Keyed.get? es name := by
  rw [get?_append, h, Option.bind_some, get?_child]

/-- The order of its entries does not show in the places of a directory. -/
theorem node?_perm {es' : List (String × Tree)} (hn : (Keyed.keys es).Nodup) (hp : es.Perm es') :
    (directory es').node? = (directory es).node? := by
  funext q
  cases q with
  | nil => rfl
  | cons name r => rw [node?, node?, get?, get?, Keyed.get?_perm hn hp]

/-- What is put at a place in a directory is found there, with all that it holds. -/
theorem get?_put_below (h : t.node? q = some .directory) (name : String) (new : Tree) (r : Trail) :
    (t.put (q ++ [name]) new).get? (q ++ name :: r) = new.get? r := by
  induction q generalizing t with
  | nil =>
    cases t with
    | directory es => simp [put, get?]
    | file _ => cases h
    | link _ => cases h
  | cons n q ih =>
    cases t with
    | directory es =>
      simp only [node?, get?] at h
      cases hn : Keyed.get? es n with
      | none => rw [hn] at h; cases h
      | some x =>
        rw [hn] at h
        have hne : q ++ [name] ≠ [] := by simp
        obtain ⟨a, b, hab⟩ := List.exists_cons_of_ne_nil hne
        have hput : (directory es).put (n :: (q ++ [name])) new =
            directory (Keyed.insert es n (x.put (q ++ [name]) new)) := by
          rw [hab, put, hn]
          simp
        rw [List.cons_append, hput, List.cons_append, get?, Keyed.get?_insert_self,
          Option.bind_some]
        exact ih h
    | file _ => cases h
    | link _ => cases h

/-- A change of one entry of a directory is seen only on the way through that entry. -/
theorem node?_insert (es : List (String × Tree)) (n : String) (x : Tree) (q : Trail)
    (h : ∀ r, q = n :: r → x.node? r = ((Keyed.get? es n).bind fun t => t.node? r)) :
    (directory (Keyed.insert es n x)).node? q = (directory es).node? q := by
  cases q with
  | nil => rfl
  | cons m r =>
    by_cases hm : n = m
    · subst hm
      have hr := h r rfl
      simp only [node?, get?, Keyed.get?_insert_self, Option.bind_some] at hr ⊢
      rw [hr]
      cases Keyed.get? es n <;> rfl
    · simp only [node?, get?, Keyed.get?_insert_of_ne hm]

theorem node?_put_of_not_below (h : ¬ trail <+: q) : (t.put trail new).node? q = t.node? q := by
  induction trail generalizing t q with
  | nil => exact absurd (List.nil_prefix) h
  | cons n rest ih =>
    cases t with
    | file _ => cases rest <;> rfl
    | link _ => cases rest <;> rfl
    | directory es =>
      cases rest with
      | nil =>
        rw [put]
        refine node?_insert es n new q fun r hr => ?_
        exact absurd (hr ▸ List.prefix_append [n] r) h
      | cons m rest =>
        cases hn : Keyed.get? es n with
        | none => simp only [put, hn]
        | some x =>
          simp only [put, hn]
          refine node?_insert es n _ q fun r hr => ?_
          rw [hn, Option.bind_some]
          refine ih fun hp => h ?_
          rw [hr]
          exact List.cons_prefix_cons.2 ⟨rfl, hp⟩

theorem node?_erase_of_not_below (h : ¬ trail <+: q) : (t.erase trail).node? q = t.node? q := by
  induction trail generalizing t q with
  | nil => exact absurd (List.nil_prefix) h
  | cons n rest ih =>
    cases t with
    | file _ => cases rest <;> rfl
    | link _ => cases rest <;> rfl
    | directory es =>
      cases rest with
      | nil =>
        cases q with
        | nil => rfl
        | cons m r =>
          have hm : n ≠ m := by
            rintro rfl
            exact h (List.prefix_append [n] r)
          simp only [erase, node?, get?, Keyed.get?_erase_of_ne hm]
      | cons m rest =>
        cases hn : Keyed.get? es n with
        | none => simp only [erase, hn]
        | some x =>
          simp only [erase, hn]
          refine node?_insert es n _ q fun r hr => ?_
          rw [hn, Option.bind_some]
          refine ih fun hp => h ?_
          rw [hr]
          exact List.cons_prefix_cons.2 ⟨rfl, hp⟩

theorem put_put (t : Tree) (q : Trail) (x y : Tree) : (t.put q x).put q y = t.put q y := by
  induction q generalizing t with
  | nil => cases t <;> rfl
  | cons name rest ih =>
    cases t with
    | file _ => cases rest <;> rfl
    | link _ => cases rest <;> rfl
    | directory es =>
      cases rest with
      | nil => simp only [put, Keyed.insert_insert]
      | cons n rest =>
        cases hn : Keyed.get? es name with
        | none => simp only [put, hn]
        | some x => simp only [put, hn, Keyed.get?_insert_self, Keyed.insert_insert, ih]

theorem put_self (h : t.get? q = some x) : t.put q x = t := by
  induction q generalizing t with
  | nil =>
    cases h
    cases x <;> rfl
  | cons name rest ih =>
    cases t with
    | file _ => cases h
    | link _ => cases h
    | directory es =>
      rw [get?] at h
      obtain ⟨y, hy, hx⟩ := Option.bind_eq_some_iff.1 h
      cases rest with
      | nil =>
        obtain rfl : y = x := by simpa [get?] using hx
        rw [put, Keyed.insert_of_get? hy]
      | cons n rest => simp only [put, hy, ih hx, Keyed.insert_of_get? hy]

/-- Nothing is left at a place that is erased, nor below it. -/
theorem get?_erase_below (q : Trail) (name : String) (r : Trail) :
    (t.erase (q ++ [name])).get? (q ++ name :: r) = none := by
  induction q generalizing t with
  | nil =>
    cases t with
    | directory es => simp [erase, get?, Keyed.get?_erase_self]
    | file _ => rfl
    | link _ => rfl
  | cons n q ih =>
    cases t with
    | directory es =>
      have hne : q ++ [name] ≠ [] := by simp
      obtain ⟨a, b, hab⟩ := List.exists_cons_of_ne_nil hne
      cases hn : Keyed.get? es n with
      | none => simp [hab, erase, get?, hn]
      | some x =>
        have herase : (directory es).erase (n :: (q ++ [name])) =
            directory (Keyed.insert es n (x.erase (q ++ [name]))) := by
          rw [hab, erase, hn]
          simp
        rw [List.cons_append, herase, List.cons_append, get?, Keyed.get?_insert_self,
          Option.bind_some]
        exact ih
    | file _ => rfl
    | link _ => rfl

end Tree

end Vendoring.Files
