import Vendoring.Proofs.Files.Copying
import Vendoring.Proofs.Files.Distinct
import Vendoring.Proofs.Files.Passing

/-! What a reader sees at a path and below it: links count for what they lead to, and directories of
certain names are passed over. -/
namespace Vendoring.Files

namespace Disk
open Outcome

/-- What a reader sees at a trail below a path. -/
def seen? (d : Disk) (skipped : List String) (p : Path) : Trail → Option Node
  | [] => match d.kind p with
    | .ok .directory => some .directory
    | .ok .file => (d.contents p).toOption.map .file
    | _ => none
  | name :: rest =>
    if d.kind p = .ok .directory ∧ ProperName name ∧
        ¬ (name ∈ skipped ∧ d.kind (p.join name) = .ok .directory) then
      d.seen? skipped (p.join name) rest
    else none

variable {d : Disk} {skipped : List String} {p : Path} {q t : Trail} {name : String} {k : Kind}
  {n : Node} {x : Tree} {bytes : ByteArray} {es : List (String × Kind)} {r : Trail}

theorem kind_eq_ok (h : d.kind p = .ok k) :
    ∃ t x, d.held true p = .ok (t, x) ∧ kindOf x = k := by
  obtain ⟨⟨t, x⟩, hheld, hk⟩ := bind_eq_ok.1 h
  cases hk
  exact ⟨t, x, hheld, rfl⟩

theorem kind_of_contents (h : d.contents p = .ok bytes) : d.kind p = .ok .file := by
  obtain ⟨t, hheld⟩ := held_of_contents h
  rw [Disk.kind, hheld]
  rfl

theorem kind_of_seen (h : d.seen? skipped p [] = some .directory) :
    d.kind p = .ok .directory := by
  rw [seen?] at h
  split at h
  · next hk => exact hk
  · obtain ⟨bytes, -, hb⟩ := Option.map_eq_some_iff.1 h
    cases hb
  · cases h

theorem seen_of_kind (h : d.kind p = .ok .directory) :
    d.seen? skipped p [] = some .directory := by
  rw [seen?, h]

theorem seen_child (hk : d.kind p = .ok .directory) (hn : ProperName name)
    (hs : ¬ (name ∈ skipped ∧ d.kind (p.join name) = .ok .directory)) (r : Trail) :
    d.seen? skipped p (name :: r) = d.seen? skipped (p.join name) r := by
  rw [seen?, if_pos ⟨hk, hn, hs⟩]

/-- Nothing is seen below what is no directory. -/
theorem seen_below (h : d.kind p ≠ .ok .directory) (name : String) (r : Trail) :
    d.seen? skipped p (name :: r) = none := by
  rw [seen?, if_neg fun hc => h hc.1]

theorem seen_of_contents (h : d.contents p = .ok bytes) :
    d.seen? skipped p = (Tree.file bytes).node? := by
  have hk := kind_of_contents h
  funext r
  cases r with
  | nil =>
    rw [seen?, hk, h]
    rfl
  | cons name r =>
    rw [seen_below (by simp [hk])]
    rfl

theorem seen_of_missing (h : ∀ k, d.kind p ≠ .ok k) (r : Trail) :
    d.seen? skipped p r = none := by
  cases r with
  | nil =>
    rw [seen?]
    split
    · next hk => exact absurd hk (h _)
    · next hk => exact absurd hk (h _)
    · rfl
  | cons name r => exact seen_below (h _) name r

/-- A reader finds nothing under a name that no entry bears. -/
theorem seen_of_unborne (h : ∀ t, d.node? (t ++ [name]) = none) (r : Trail) :
    d.seen? skipped p (r ++ [name]) = none := by
  induction r generalizing p with
  | nil =>
    rw [List.nil_append, seen?]
    split
    · next hc =>
      refine seen_of_missing (fun k hk => ?_) []
      obtain ⟨t, x, hheld, -⟩ := kind_eq_ok hk
      obtain ⟨hx, q, -, rfl | ⟨target, n, l, hlink, -⟩⟩ := entry_of_held hc.2.1 hheld
      · exact absurd (node?_of_get? hx) (by simp [h q])
      · exact absurd hlink (by simp [h q])
    · rfl
  | cons other r ih =>
    rw [List.cons_append, seen?]
    split
    · exact ih
    · rfl

/-- What is found at an entry that is no link is the entry itself. -/
theorem node_of_held (hl : Leads d ∅ p q) (hn : ProperName name)
    (hk : d.node? (q ++ [name]) = some n) (htree : ∀ target, n ≠ .link target)
    (h : d.held true (p.join name) = .ok (t, x)) : x.node = n := by
  obtain ⟨hx, q', hl', rfl | ⟨target, _, _, hlink, -⟩⟩ := entry_of_held hn h
  · obtain rfl := hl.unique hl'
    exact Option.some.inj ((node?_of_get? hx).symm.trans hk)
  · obtain rfl := hl.unique hl'
    exact absurd (Option.some.inj (hk.symm.trans hlink)) (htree target)

theorem listing_eq_ok (h : d.listing p = .ok es) : ∃ q hs, Leads d ∅ p q ∧
    d.get? q = some (.directory hs) ∧ es = hs.map (fun e => (e.1, kindOf e.2)) ∧
      d.kind p = .ok .directory := by
  obtain ⟨⟨t, x⟩, hheld, h⟩ := bind_eq_ok.1 h
  cases x with
  | file _ => cases h
  | link _ => cases h
  | directory hs =>
    cases h
    obtain ⟨hl, hx⟩ := leads_of_held hheld
    refine ⟨t, hs, hl, hx, rfl, ?_⟩
    rw [Disk.kind, hheld]
    rfl

end Disk

/-- How the entries of a directory stand to what is seen of it. -/
structure Listed (skipped : List String) (f : Trail → Option Node)
    (entries : List (String × Kind)) : Prop where
  proper : ∀ e ∈ entries, ProperName e.1
  nodup : (entries.map (·.1)).Nodup
  skips : ∀ e ∈ entries, e.2 = .directory → e.1 ∈ skipped → ∀ r, f (e.1 :: r) = none
  only : ∀ name, name ∉ entries.map (·.1) → ∀ r, f (name :: r) = none

namespace Disk

variable {d : Disk} {skipped : List String} {p : Path} {es : List (String × Kind)}

theorem listed_of_listing (hp : d.Proper) (hd : d.Distinct) (h : d.listing p = .ok es) :
    Listed skipped (d.seen? skipped p) es := by
  have hproper := names_of_listing hp h
  obtain ⟨q, hs, hl, hx, rfl, hk⟩ := listing_eq_ok h
  have hkeys : (hs.map fun e => (e.1, kindOf e.2)).map (·.1) = Keyed.keys hs := by
    rw [List.map_map]
    rfl
  have hnodup : (Keyed.keys hs).Nodup := hd q hs hx
  refine ⟨hproper, hkeys ▸ hnodup, fun e he hdir hskip r => ?_, fun name hm r => ?_⟩
  · by_cases hkind : d.kind (p.join e.1) = .ok .directory
    · rw [seen?, if_neg fun hc => hc.2.2 ⟨hskip, hkind⟩]
    · -- The entry is a directory, so that its path leads there or nowhere.
      obtain ⟨⟨name, y⟩, hy, rfl⟩ := List.mem_map.1 he
      have hget : Keyed.get? hs name = some y := Keyed.get?_of_mem hnodup hy
      have hnode : d.node? (q ++ [name]) = some .directory := by
        rw [node?_concat hx, hget]
        cases y with
        | directory _ => rfl
        | file _ => cases hdir
        | link _ => cases hdir
      rw [seen_child hk (hproper _ he) fun hc => hkind hc.2]
      refine seen_of_missing (fun k hok => hkind ?_) r
      obtain ⟨t, x, hheld, rfl⟩ := kind_eq_ok hok
      have hxn := node_of_held hl (hproper _ he) hnode (fun _ => by simp) hheld
      cases x with
      | directory _ => exact hok
      | file _ => cases hxn
      | link _ => cases hxn
  · rw [seen?]
    split
    · next hc =>
      refine seen_of_missing (fun k hok => hm ?_) r
      obtain ⟨t, x, hheld, -⟩ := kind_eq_ok hok
      obtain ⟨hx', q', hl', hcases⟩ := entry_of_held hc.2.1 hheld
      obtain rfl := hl.unique hl'
      have hthere : d.node? (q' ++ [name]) ≠ none := by
        rcases hcases with rfl | ⟨target, _, _, hlink, -⟩
        · simp [node?_of_get? hx']
        · simp [hlink]
      rw [hkeys, Keyed.mem_keys_iff, Option.isSome_iff_ne_none]
      intro hnone
      rw [node?_concat hx, hnone] at hthere
      exact hthere rfl
    · rfl

end Disk

end Vendoring.Files
