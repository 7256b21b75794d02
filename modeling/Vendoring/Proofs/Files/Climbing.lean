import Vendoring.Proofs.Files.Canonical
import Vendoring.Proofs.Files.Passing

/-! Going up a path as it is written, on a disk without links. Each parent of a path leads to a
directory, one step before the next: a step down into it, or with `..` a step up. -/
namespace Vendoring.Files

/-- Where one step leads if there are no links. -/
def stride (place : Trail) (step : String) : Trail :=
  if step = "." then place else if step = ".." then place.dropLast else place ++ [step]

namespace Disk
open Outcome

/-- Where a path leads if there are no links. -/
def placeOf (d : Disk) (p : Path) : Trail := p.steps.foldl stride (startOf p d.here)

/-- What kind of thing stands at a place. -/
def kindAt? (d : Disk) (t : Trail) : Option Kind := (d.get? t).map kindOf

variable {d : Disk} {p a : Path} {t place place' : Trail} {name : String} {k : Kind}
  {steps : List String} {links links' : Nat} {bs : List (List Char)}

/-- The paths of a name in the parents of a path are refused only for their length. -/
theorem check_join_ancestor (hc : check p = .ok ()) (ha : a ∈ p.ancestors)
    (hn : LegalName name) : check (a.join name) =
      if (a.join name).text.utf8ByteSize ≤ pathLimit then .ok () else .error .nameTooLong := by
  obtain ⟨hproper, hnul, -⟩ := hn
  have hp : '\x00' ∉ p.text.toList := by
    intro hm
    rw [check, if_pos (List.contains_iff_mem.2 hm)] at hc
    cases hc
  have ha' : '\x00' ∉ a.text.toList := fun hm =>
    hp ((Path.text_prefix_of_mem_ancestors ha).subset hm)
  have hjoin : '\x00' ∉ (a.join name).text.toList ∧ (a.join name).text ≠ "" := by
    rw [Path.join, if_neg (head?_of_proper hproper)]
    split <;> simp [ha', hnul, hproper.1]
  rw [check, if_neg (by simpa using hjoin.1), if_neg hjoin.2]
  by_cases hsize : (a.join name).text.utf8ByteSize ≤ pathLimit
  · rw [if_neg (Nat.not_lt.2 hsize), if_pos hsize]
  · rw [if_pos (Nat.lt_of_not_le hsize), if_neg hsize]

section Linkless
variable (hd : ∀ t target, d.node? t ≠ some (.link target))
include hd

theorem Way.eq_foldl (h : Way d ∅ links place steps links' place' []) :
    place' = steps.foldl stride place := by
  generalize hn : ([] : List String) = left at h
  induction h with
  | stop _ =>
    subst hn
    rfl
  | stay _ _ _ ih => exact ih hn
  | up _ _ _ ih => exact ih hn
  | down _ _ plain _ _ _ _ ih =>
    rw [List.foldl_cons, stride, if_neg plain.1, if_neg plain.2]
    exact ih hn
  | link _ _ _ _ _ next => exact absurd next (hd _ _)

theorem Leads.eq_placeOf (h : Leads d ∅ p t) : t = d.placeOf p := by
  obtain ⟨_, hw⟩ := h.way
  exact hw.eq_foldl hd

/-- Each parent of a path to a directory leads to a directory. -/
theorem Leads.ancestor (h : Leads d ∅ p t) (ha : a ∈ p.ancestors) :
    Leads d ∅ a (d.placeOf a) := by
  obtain ⟨more, hmore⟩ := (Path.steps_prefix_of_mem_ancestors ha).1
  obtain ⟨links, hw⟩ := h.way
  rw [← hmore, ← startOf_ancestor ha] at hw
  obtain ⟨l, q, hfront, hrest⟩ := hw.split
  have hl : Leads d ∅ a q := ⟨⟨l, hfront⟩, hrest.dir_of_end h.dir⟩
  rwa [hl.eq_placeOf hd] at hl

/-- What a path says of a name in a directory is what stands there. -/
theorem kind_child (h : Leads d ∅ p t) (hn : LegalName name)
    (hc : check (p.join name) = .ok ()) :
    d.kind (p.join name) = .ok k ↔ d.kindAt? (t ++ [name]) = some k := by
  obtain ⟨hproper, -, hfits⟩ := hn
  have hs : Stands d ∅ (p.join name) ⟨t, name, false⟩ := h.child hproper hc
  rw [kindAt?]
  cases hx : d.get? (t ++ [name]) with
  | none =>
    rw [Disk.kind, hs.held_none hfits (node?_eq_none.2 hx)]
    simp [bind, Except.bind]
  | some x =>
    cases x with
    | file bytes =>
      rw [Disk.kind, held, hs.find_file hfits hx]
      simp [bind, Except.bind, pure, Except.pure, kindOf]
    | link target => exact absurd (node?_eq_link.2 hx) (hd _ _)
    | directory es =>
      rw [Disk.kind, held, hs.find_directory hfits hx]
      simp [bind, Except.bind, pure, Except.pure, kindOf]

/-- What the parents of a path say of a name, if the name has a path there. -/
theorem kind_ancestor (h : Leads d ∅ p t) (hc : check p = .ok ()) (ha : a ∈ p.ancestors)
    (hn : LegalName name) : d.kind (a.join name) = .ok k ↔
      (a.join name).text.utf8ByteSize ≤ pathLimit ∧
        d.kindAt? (d.placeOf a ++ [name]) = some k := by
  have hcheck := check_join_ancestor hc ha hn
  by_cases hsize : (a.join name).text.utf8ByteSize ≤ pathLimit
  · rw [if_pos hsize] at hcheck
    rw [kind_child hd (h.ancestor hd ha) hn hcheck, and_iff_right hsize]
  · rw [if_neg hsize] at hcheck
    simp [Disk.kind, held, find_of_check hcheck, bind, Except.bind, hsize]

end Linkless

/-! ## One parent after the other -/

theorem length_stride (place : Trail) (step : String) :
    (stride place step).length ≤ place.length + 1 := by
  unfold stride
  split
  · exact Nat.le_succ _
  · split
    · rw [List.length_dropLast]
      omega
    · rw [List.length_append, List.length_singleton]

theorem foldl_stride_dots (place : Trail) (n : Nat) :
    (List.replicate n ".").foldl stride place = place := by
  induction n with
  | zero => rfl
  | succ n ih => exact ih

/-- Where some of the segments of a path lead, in backward order. -/
def reach (d : Disk) (p : Path) (bs : List (List Char)) : Trail :=
  (Path.leadSteps p.lead ++ Path.taken bs.reverse).foldl stride (startOf p d.here)

theorem reach_backward : d.reach p p.backward = d.placeOf p := by
  rw [reach, placeOf, Path.steps_eq_taken]

theorem reach_nil : d.reach p [] = startOf p d.here := by
  rw [reach, Path.leadSteps]
  split <;> rfl

theorem reach_idle {s : List Char} (hs : Path.isIdle s = true) (bs : List (List Char)) :
    d.reach p (s :: bs) = d.reach p bs := by
  have hfold (place : Trail) : (Path.taken [s]).foldl stride place = place := by
    rcases Path.isIdle_iff.1 hs with rfl | rfl <;> rfl
  rw [reach, List.reverse_cons, Path.taken_append, ← List.append_assoc, List.foldl_append, hfold,
    reach]

theorem length_reach_cons (s : List Char) (bs : List (List Char)) :
    (d.reach p (s :: bs)).length ≤ (d.reach p bs).length + 1 := by
  by_cases hs : Path.isIdle s = true
  · rw [reach_idle hs]
    exact Nat.le_succ _
  · have hone : Path.taken [s] = [String.ofList s] := by
      have hne : s ≠ [] := fun he => hs (Path.isIdle_iff.2 (Or.inl he))
      simp [Path.taken, hne]
    rw [reach, List.reverse_cons, Path.taken_append, ← List.append_assoc, List.foldl_append, hone]
    exact length_stride _ _

theorem placeOf_endingIn (h : bs <:+ p.backward) :
    d.placeOf (Path.endingIn p.lead bs) = d.reach p bs := by
  obtain ⟨n, hn⟩ := Path.taken_reverse bs
  have hstart : startOf (Path.endingIn p.lead bs) d.here = startOf p d.here := by
    rw [startOf, startOf, Path.isAbsolute_endingIn h]
  have hreach : d.reach p bs = (Path.leadSteps p.lead ++
      Path.taken (bs.dropWhile Path.isIdle).reverse).foldl stride (startOf p d.here) := by
    rw [reach, hn, ← List.append_assoc, List.foldl_append, foldl_stride_dots]
  rw [placeOf, hstart, Path.endingIn_eq, Path.steps_ofSegments (Path.prefix_dropWhile_reverse h),
    hreach]

theorem placeOf_empty (h : p.lead = ['.']) : d.placeOf ⟨""⟩ = startOf p d.here := by
  rw [startOf, Path.not_isAbsolute_of_lead h]
  rfl

/-- No parent is more than one step above the one before it. -/
theorem chain_parents (h : bs <:+ p.backward) :
    (d.reach p bs :: (Path.parentsFrom p.lead bs).map d.placeOf).IsChain
      fun q r => q.length ≤ r.length + 1 := by
  induction bs with
  | nil =>
    rw [Path.parentsFrom]
    split
    · next hdot =>
      rw [List.map_singleton, reach_nil, placeOf_empty hdot, List.isChain_cons_cons]
      exact ⟨Nat.le_succ _, .singleton _⟩
    · exact .singleton _
  | cons s r ih =>
    have hr : r <:+ p.backward := (List.suffix_cons s r).trans h
    rw [Path.parentsFrom]
    split
    · next hidle =>
      rw [reach_idle hidle]
      exact ih hr
    · rw [List.map_cons, placeOf_endingIn hr, List.isChain_cons_cons]
      exact ⟨length_reach_cons s r, ih hr⟩

/-- The way up comes back to where the path starts. -/
theorem start_mem_parents (h : bs <:+ p.backward) :
    startOf p d.here ∈ d.reach p bs :: (Path.parentsFrom p.lead bs).map d.placeOf := by
  induction bs with
  | nil =>
    rw [reach_nil]
    exact List.mem_cons_self ..
  | cons s r ih =>
    have hr : r <:+ p.backward := (List.suffix_cons s r).trans h
    rw [Path.parentsFrom]
    split
    · next hidle =>
      rw [reach_idle hidle]
      exact ih hr
    · rw [List.map_cons, placeOf_endingIn hr]
      exact List.mem_cons_of_mem _ (ih hr)

theorem places_eq (d : Disk) (p : Path) : p.ancestors.map d.placeOf =
    d.reach p p.backward :: (Path.parentsFrom p.lead p.backward).map d.placeOf := by
  rw [reach_backward]
  rfl

theorem chain_places (d : Disk) (p : Path) :
    (p.ancestors.map d.placeOf).IsChain fun q r => q.length ≤ r.length + 1 := by
  rw [places_eq]
  exact chain_parents (List.suffix_refl _)

theorem start_mem_places (d : Disk) (p : Path) :
    startOf p d.here ∈ p.ancestors.map d.placeOf := by
  rw [places_eq]
  exact start_mem_parents (List.suffix_refl _)

/-- Without `..` the way down only goes down. -/
theorem prefix_foldl_stride (h : ".." ∉ steps) : place <+: steps.foldl stride place := by
  induction steps generalizing place with
  | nil => exact List.prefix_refl _
  | cons s r ih =>
    simp only [List.mem_cons, not_or] at h
    have hs : place <+: stride place s := by
      unfold stride
      rw [if_neg (Ne.symm h.1)]
      split
      · exact List.prefix_refl _
      · exact List.prefix_append _ _
    exact hs.trans (ih h.2)

theorem between_of_mem_ancestors (h : ".." ∉ p.steps) (ha : a ∈ p.ancestors) :
    startOf p d.here <+: d.placeOf a ∧ d.placeOf a <+: d.placeOf p := by
  obtain ⟨more, hmore⟩ := (Path.steps_prefix_of_mem_ancestors ha).1
  rw [← hmore, List.mem_append, not_or] at h
  rw [placeOf, placeOf, ← hmore, List.foldl_append, startOf_ancestor ha]
  exact ⟨prefix_foldl_stride h.1, prefix_foldl_stride h.2⟩

end Disk

end Vendoring.Files
