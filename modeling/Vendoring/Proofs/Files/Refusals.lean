import Mathlib.Data.List.ReduceOption
import Vendoring.Proofs.Files.Filling

/-! What the mishaps of a watched disk leave: a change that is refused half way leaves a first part of
a file, or some of the entries of a tree. -/
namespace Vendoring.Files

/-- The place where a walk ends, or where a file may be made. -/
def Spot.trail : Spot → Trail
  | .held trail _ => trail
  | .free parent name => parent ++ [name]

namespace Disk
open Outcome Carrier

variable {d d' : Disk} {p : Path} {t : Trail} {x : Tree} {links : ℕ} {place : Trail} {s : String}
  {steps rest : List String} {spot : Spot}
  {onward onward' : Trail → List String → Except Fault Spot}
  {old bytes b : ByteArray} {w : Watch} {es : List (String × Tree)}

/-! ## Writing a file once more -/

/-- A file stands where there was a file or nothing, and nothing else is changed. -/
structure Filled (d d' : Disk) (t : Trail) (bytes : ByteArray) : Prop
    extends Puts d d' t (.file bytes) where
  before : ∀ k, d.node? t = some k → ∃ old, k = .file old

theorem Filled.same (hf : Filled d d' t bytes) {k : Node} (h : d.node? place = some k)
    (hk : ∀ old, k ≠ .file old) : d'.node? place = some k := by
  rw [hf.agree.node, h]
  rintro rfl
  obtain ⟨old, he⟩ := hf.before _ h
  exact hk old he

/-- A step is taken in the same way again if it comes to the file, or to no link. -/
theorem Filled.step (hf : Filled d d' t bytes) (hd : d.node? place = some .directory)
    (plain : s ≠ "." ∧ s ≠ "..") (fits : isTooLong s = false)
    (hs : place ++ [s] = t ∨ d.node? (place ++ [s]) ≠ none)
    (tree : ∀ target, d.node? (place ++ [s]) ≠ some (.link target)) :
    d'.walkOn true onward place (s :: rest) = d'.walkOn true onward (place ++ [s]) rest := by
  have hdir : d'.node? place = some .directory := hf.same hd (by simp)
  by_cases ht : place ++ [s] = t
  · exact walkOn_down hdir plain fits (ht ▸ hf.there) (by simp)
  · obtain ⟨k, hk⟩ := Option.ne_none_iff_exists'.1 (hs.resolve_left ht)
    exact walkOn_down hdir plain fits ((hf.agree.node _ ht).trans hk) fun target he =>
      tree target (he ▸ hk)

theorem walkOn_filled (hf : Filled d d' t bytes)
    (hon : ∀ q ss spot, onward q ss = .ok spot → spot.trail = t →
      onward' q ss = .ok (.held t (.file bytes)))
    (h : d.walkOn true onward place steps = .ok spot) (ht : spot.trail = t) :
    d'.walkOn true onward' place steps = .ok (.held t (.file bytes)) := by
  have hend : d'.walkOn true onward' t [] = .ok (.held t (.file bytes)) := by
    rw [walkOn, show d'.get? t = _ from node?_eq_file.1 hf.there]
  induction steps generalizing place with
  | nil =>
    cases goes_of_walkOn h with
    | arrive _ => exact ht ▸ hend
  | cons s rest ih =>
    cases goes_of_walkOn h with
    | stay dir on =>
      rw [walkOn_stay (hf.same dir (by simp))]
      exact ih on
    | up dir on =>
      rw [walkOn_up (hf.same dir (by simp))]
      exact ih on
    | free dir plain fits empty =>
      rw [hf.step dir plain fits (Or.inl ht) (by simp [empty])]
      exact ht ▸ hend
    | halt _ _ _ _ last => cases last
    | link dir plain fits next on =>
      obtain ⟨es, hd⟩ := node?_eq_directory.1 (hf.same dir (by simp))
      rw [walkOn_name hd plain fits, node?_eq_link.1 (hf.same next (by simp))]
      exact (if_neg (by simp)).trans (hon _ _ _ on ht)
    | down dir plain fits next tree on =>
      rw [hf.step dir plain fits (Or.inr (by simp [next])) fun target he => ?_]
      · exact ih on
      · exact tree target (Option.some.inj (next.symm.trans he))

theorem walk_filled (hf : Filled d d' t bytes) (h : d.walk true links place steps = .ok spot)
    (ht : spot.trail = t) : d'.walk true links place steps = .ok (.held t (.file bytes)) := by
  induction links generalizing place steps spot with
  | zero =>
    refine walkOn_filled hf (fun q ss spot he => ?_) h ht
    cases he
  | succ links ih => exact walkOn_filled hf (fun q ss spot he hs => ih he hs) h ht

/-- A walk ends at a file or where one may be made. -/
def Spot.Open (spot : Spot) (t : Trail) : Prop :=
  (∃ old, spot = .held t (.file old)) ∨ ∃ q name, spot = .free q name ∧ t = q ++ [name]

theorem Spot.Open.trail (h : Spot.Open spot t) : spot.trail = t := by
  rcases h with ⟨old, rfl⟩ | ⟨q, name, rfl, rfl⟩ <;> rfl

theorem write_filled (h : d.write p bytes = .ok d') :
    ∃ spot t, d.find true p = .ok spot ∧ Spot.Open spot t ∧ Filled d d' t bytes ∧
      d' = d.put t (.file bytes) := by
  rcases write_puts h with ⟨t, old, hf, rfl⟩ | ⟨q, name, hf, rfl⟩
  · obtain ⟨⟨⟩, -, hw⟩ := bind_eq_ok.1 hf
    have hx : d.get? t = some (.file old) := walk_ends hw
    have hnode : d.node? t = some (.file old) := node?_of_get? hx
    have hset : Sets d (d.put t (.file bytes)) t (Tree.file bytes).node? :=
      ⟨agree_put d t _, funext fun r => node?_put_of_get? hx _ r⟩
    refine ⟨_, t, hf, Or.inl ⟨old, rfl⟩, ⟨puts_of_sets hset (by simp [hnode]), fun k hk => ?_⟩, rfl⟩
    exact ⟨old, Option.some.inj (hk.symm.trans hnode)⟩
  · obtain ⟨⟨⟩, -, hw⟩ := bind_eq_ok.1 hf
    obtain ⟨hdir, hnone, -⟩ : d.Ends (.free q name) := walk_ends hw
    refine ⟨_, q ++ [name], hf, Or.inr ⟨q, name, rfl, rfl⟩,
      ⟨puts_of_sets (sets_put hdir name _) (by simp [hnone]), fun k hk => ?_⟩, rfl⟩
    rw [hnone] at hk
    cases hk

/-- A file is written where its path leads, whatever it is to hold. -/
theorem write_of_find (hu : p.endsInSlash = false) (h : d.find true p = .ok spot)
    (hs : Spot.Open spot t) (bytes : ByteArray) :
    d.write p bytes = .ok (d.put t (.file bytes)) := by
  rw [write, hu, h]
  rcases hs with ⟨old, rfl⟩ | ⟨q, name, rfl, rfl⟩ <;> rfl

theorem slash_of_write (h : d.write p bytes = .ok d') : p.endsInSlash = false := by
  rw [← Bool.not_eq_true]
  intro hu
  rw [write, if_pos hu] at h
  obtain ⟨_, -, h⟩ := bind_eq_ok.1 h
  cases h

/-- What is written over is not seen when the file is written once more. -/
theorem write_again (h : d.write p old = .ok d') (bytes : ByteArray) :
    d'.write p bytes = d.write p bytes := by
  have hslash := slash_of_write h
  obtain ⟨spot, t, hfind, hopen, hfilled, rfl⟩ := write_filled h
  obtain ⟨⟨⟩, hc, hwalk⟩ := bind_eq_ok.1 hfind
  have hfind' : (d.put t (.file old)).find true p = .ok (.held t (.file old)) := by
    rw [find, hc]
    exact walk_filled hfilled hwalk hopen.trail
  rw [write_of_find hslash hfind' (Or.inl ⟨old, rfl⟩), write_of_find hslash hfind hopen, put_put]

/-! ## What is left of a tree -/

/-- Of a tree some places are gone, and nothing else is changed. -/
def Thinner (x y : Tree) : Prop := ∀ r, y.node? r = x.node? r ∨ y.node? r = none

theorem node?_cons (n name : String) (x : Tree) (es : List (String × Tree)) (r : Trail) :
    (Tree.directory ((n, x) :: es)).node? (name :: r) =
      if n = name then x.node? r else (Tree.directory es).node? (name :: r) := by
  simp only [Tree.node?, Tree.get?, Keyed.get?]
  split <;> rfl

theorem thinner_empty (es : List (String × Tree)) : Thinner (.directory es) (.directory []) := by
  intro r
  cases r with
  | nil => exact Or.inl rfl
  | cons name r => exact Or.inr rfl

/-- A tree is thinner if what its first entry holds is, or what its other entries are. -/
theorem thinner_cons {x y : Tree} {es es' : List (String × Tree)} (name : String)
    (hx : Thinner x y) (hes : Thinner (.directory es) (.directory es')) :
    Thinner (.directory ((name, x) :: es)) (.directory ((name, y) :: es')) := by
  intro r
  cases r with
  | nil => exact Or.inl rfl
  | cons n r =>
    rw [node?_cons, node?_cons]
    split
    · exact hx r
    · exact hes (n :: r)

mutual

theorem thinner_of_remnant : (x : Tree) → ∀ y ∈ x.remnants, Thinner x y
  | .file _, _, hy => by cases hy
  | .link _, _, hy => by cases hy
  | .directory es, y, hy => by
    rw [Tree.remnants] at hy
    obtain ⟨es', hes, rfl⟩ := List.mem_map.1 hy
    exact thinner_of_remnantIn es es' hes

theorem thinner_of_remnantIn : (es : List (String × Tree)) → ∀ es' ∈ remnantsIn es,
    Thinner (.directory es) (.directory es')
  | [], _, hes => by cases hes
  | (name, x) :: rest, es', hes => by
    rw [remnantsIn] at hes
    rcases List.mem_append.1 hes with hes | hes
    · rcases List.mem_append.1 hes with hes | hes
      · obtain ⟨rest', hrest, rfl⟩ := List.mem_map.1 hes
        exact thinner_cons name (fun _ => Or.inl rfl) (thinner_of_remnantIn rest rest' hrest)
      · obtain ⟨y, hy, rfl⟩ := List.mem_map.1 hes
        exact thinner_cons name (thinner_of_remnant x y hy) (thinner_empty rest)
    · obtain rfl := List.mem_singleton.1 hes
      exact thinner_empty _

end

/-- In the end a directory is empty. -/
theorem getLast_remnants (es : List (String × Tree)) :
    (Tree.directory es :: (Tree.directory es).remnants).getLast (List.cons_ne_nil _ _) =
      .directory [] := by
  cases es with
  | nil => rfl
  | cons e rest => simp [Tree.remnants, remnantsIn]

theorem get?_of_held {follow : Bool} (h : d.held follow p = .ok (t, x)) : d.get? t = some x := by
  obtain ⟨spot, hf, h⟩ := bind_eq_ok.1 h
  obtain ⟨⟨⟩, -, hw⟩ := bind_eq_ok.1 hf
  cases spot with
  | free _ _ => cases h
  | held _ _ =>
    cases h
    exact walk_ends hw

theorem put_self (h : d.get? t = some x) : d.put t x = d := by
  rw [put, Tree.put_self h]

end Disk

/-! ## What a watched disk carries -/

open Disk Carrier

/-- The mishaps that are still to come. -/
instance : Carrier Watch where
  disk := Watch.disk
  refusals w := w.mishaps.reduceOption

variable {d d' : Disk} {p : Path} {t : Trail} {bytes b : ByteArray} {w w' : Watch} {stage : Stage}
  {g : Disk → Except Fault Disk} {es : List (String × Tree)} {x y : Tree} {partly : Disk → Prop}
  {done : Except Fault Unit × Disk} {k : Unit → Observed Fault Unit}

theorem not_refused_of_mishaps {e : Fault} (h : some e ∉ w.mishaps) : e ∉ refusals w :=
  fun hm => h (List.reduceOption_mem_iff.1 hm)

/-- A moment passes, or a mishap strikes it. -/
theorem obeys_undergo (stage : Stage) (g : Disk → Except Fault Disk) (w : Watch) :
    Obeys (settled w.disk (g w.disk)) (· = w.disk) w (on (undergo stage g) w) := by
  have hrun : on (undergo stage g) w = w.pass stage fun d => settled d (g d) := rfl
  rw [hrun, Watch.pass]
  cases hm : w.mishaps with
  | nil => exact Or.inl ⟨by simp [refusals, hm], rfl⟩
  | cons m rest =>
    cases m with
    | none => exact Or.inl ⟨by simp [refusals, hm, List.reduceOption], rfl⟩
    | some e => exact Or.inr ⟨e, by simp [refusals, hm, List.reduceOption], rfl, rfl⟩

/-- A moment that would pass on the disk, and what comes after it. -/
theorem obeys_bind (hg : g w.disk = .ok d) (hp : partly w.disk)
    (hk : ∀ w', w'.disk = d → Obeys done partly w' (on (k ()) w')) :
    Obeys done partly w (on (undergo stage g >>= k) w) := by
  have hfirst := obeys_undergo stage g w
  rw [hg] at hfirst
  cases hu : on (undergo stage g) w with
  | mk r w₁ =>
  rw [hu] at hfirst
  rcases hfirst with ⟨hsame, he⟩ | ⟨e, hcons, rfl, hdisk⟩
  · obtain ⟨rfl, hdisk⟩ := Prod.mk.inj he
    rw [on_bind_ok hu]
    rcases hk w₁ hdisk with ⟨hlast, hdone⟩ | ⟨e, hcons, hfails⟩
    · exact Or.inl ⟨hlast.trans hsame, hdone⟩
    · exact Or.inr ⟨e, hsame ▸ hcons, hfails⟩
  · rw [on_bind_error hu]
    have hsame : w₁.disk = w.disk := hdisk
    exact Or.inr ⟨e, hcons, rfl, show partly w₁.disk from hsame ▸ hp⟩

/-- If the disk does not allow a moment, nothing comes after it. -/
theorem obeys_bind_error {e : Fault} (hg : g w.disk = .error e) (hp : partly w.disk) :
    Obeys (.error e, w.disk) partly w (on (undergo stage g >>= k) w) := by
  have hfirst := obeys_undergo stage g w
  rw [hg] at hfirst
  cases hu : on (undergo stage g) w with
  | mk r w₁ =>
  rw [hu] at hfirst
  rcases hfirst with ⟨hsame, he⟩ | ⟨e', hcons, rfl, hdisk⟩
  · obtain ⟨rfl, hdisk⟩ := Prod.mk.inj he
    rw [on_bind_error hu]
    exact Or.inl ⟨hsame, Prod.ext rfl hdisk⟩
  · rw [on_bind_error hu]
    have hsame : w₁.disk = w.disk := hdisk
    exact Or.inr ⟨e', hcons, rfl, show partly w₁.disk from hsame ▸ hp⟩

/-- A file that was begun holds all of its bytes in the end, or a first part of them. -/
theorem obeys_fill {rest : List ByteArray} (hw : d.write p b = .ok w.disk)
    (hdrafts : ∀ b' ∈ b :: rest, ∃ n, b' = bytes.extract 0 n) :
    Obeys (settled d (d.write p ((b :: rest).getLast (List.cons_ne_nil _ _))))
      (fun d' => d' = d ∨ ∃ n, d.write p (bytes.extract 0 n) = .ok d') w (on (fill p rest) w) := by
  induction rest generalizing w b with
  | nil =>
    refine Or.inl ⟨rfl, ?_⟩
    rw [List.getLast_singleton, hw]
    rfl
  | cons draft rest ih =>
    obtain ⟨d', hd'⟩ : ∃ d', d.write p draft = .ok d' := by
      cases hwrite : d.write p draft with
      | ok d' => exact ⟨d', rfl⟩
      | error e =>
        rw [write_eq_error hwrite b] at hw
        cases hw
    rw [fill]
    refine obeys_bind (d := d') ((write_again hw draft).trans hd') ?_ fun w' hw' => ?_
    · obtain ⟨n, rfl⟩ := hdrafts b (List.mem_cons_self ..)
      exact Or.inr ⟨n, hw⟩
    · exact ih (hw' ▸ hd') fun b' hb' => hdrafts b' (List.mem_cons_of_mem _ hb')

theorem obeys_write (p : Path) (bytes : ByteArray) (w : Watch) :
    Obeys (settled w.disk (w.disk.write p bytes))
      (fun d => d = w.disk ∨ ∃ n, w.disk.write p (bytes.extract 0 n) = .ok d) w
      (on (FileStore.write p bytes : Observed Fault Unit) w) := by
  have hrun : on (FileStore.write p bytes : Observed Fault Unit) w = on (do
      undergo .creating (·.write p ByteArray.empty)
      fill p (drafts bytes)) w := rfl
  rw [hrun]
  cases hw : w.disk.write p ByteArray.empty with
  | ok d =>
    refine obeys_bind hw (Or.inl rfl) fun w' hw' => ?_
    have hdrafts : ∀ b' ∈ ByteArray.empty :: drafts bytes, ∃ n, b' = bytes.extract 0 n :=
      fun b' => extract_of_mem_drafts
    have hfill := obeys_fill (hw' ▸ hw) hdrafts
    rwa [getLast_drafts] at hfill
  | error e =>
    rw [write_eq_error hw bytes]
    exact obeys_bind_error hw (Or.inl rfl)

/-- The entries of a directory are gone in the end, or some of them. -/
theorem obeys_prune {rest : List Tree} (hd : d.held false p = .ok (t, .directory es))
    (hw : w.disk = d.put t x)
    (hthin : ∀ y ∈ x :: rest, ∃ es', y = .directory es' ∧ Thinner (.directory es) y)
    (hlast : (x :: rest).getLast (List.cons_ne_nil _ _) = .directory []) :
    Obeys (settled (d.put t (.directory [])) ((d.put t (.directory [])).removeEmpty p)) (Thins p d)
      w (on (do
        prune t rest
        undergo .removing (·.removeEmpty p)) w) := by
  have hpart : Thins p d w.disk := by
    obtain ⟨es', rfl, hless⟩ := hthin x (List.mem_cons_self ..)
    exact Or.inr ⟨t, es, es', hd, hw, hless⟩
  induction rest generalizing w x with
  | nil =>
    rw [prune, pure_bind]
    obtain rfl : x = .directory [] := hlast
    rw [← hw]
    exact (obeys_undergo .removing (·.removeEmpty p) w).imp fun d' hd' => hd' ▸ hpart
  | cons y rest ih =>
    rw [prune, bind_assoc]
    refine obeys_bind (d := d.put t y) (by rw [hw, put_put]) hpart fun w' hw' => ?_
    have hthin' : ∀ z ∈ y :: rest, ∃ es', z = .directory es' ∧ Thinner (.directory es) z :=
      fun z hz => hthin z (List.mem_cons_of_mem _ hz)
    refine ih hw' hthin' hlast ?_
    obtain ⟨es', rfl, hless⟩ := hthin' y (List.mem_cons_self ..)
    exact Or.inr ⟨t, es, es', hd, hw', hless⟩

theorem obeys_removeTree (p : Path) (w : Watch) :
    Obeys (w.disk.removeTree p) (Thins p w.disk) w
      (on (FileStore.removeTree p : Observed Fault Unit) w) := by
  have hrun : on (FileStore.removeTree p : Observed Fault Unit) w = on (removeByEntry p) w := rfl
  have hask : on (observe (·.held false p)) w = (w.disk.held false p, w) := rfl
  rw [hrun, removeByEntry, removeTree]
  cases hd : w.disk.held false p with
  | error e =>
    rw [on_bind_error (hask.trans (by rw [hd]))]
    exact Or.inl ⟨rfl, rfl⟩
  | ok r =>
    obtain ⟨t, x⟩ := r
    rw [on_bind_ok (hask.trans (by rw [hd]))]
    cases x with
    | file _ => exact Or.inl ⟨rfl, rfl⟩
    | link _ =>
      exact (obeys_undergo .removing (·.removeFile p) w).imp fun d hd => Or.inl hd
    | directory es =>
      have hthin : ∀ y ∈ .directory es :: (Tree.directory es).remnants,
          ∃ es', y = .directory es' ∧ Thinner (.directory es) y := by
        intro y hy
        rcases List.mem_cons.1 hy with rfl | hy
        · exact ⟨es, rfl, fun _ => Or.inl rfl⟩
        · have hless := thinner_of_remnant _ y hy
          rw [Tree.remnants] at hy
          obtain ⟨es', -, rfl⟩ := List.mem_map.1 hy
          exact ⟨es', rfl, hless⟩
      have hprune := obeys_prune hd (put_self (get?_of_held hd)).symm hthin (getLast_remnants es)
      dsimp only
      cases hr : (w.disk.put t (.directory [])).removeEmpty p <;>
      · rw [hr] at hprune
        exact hprune

/-- A watched disk obeys what is asked of a state that carries one. -/
instance : LawfulCarrier Watch where
  kind _ _ := rfl
  contents _ _ := rfl
  place _ _ := rfl
  canonical _ _ := rfl
  listing _ _ := rfl
  makeDirectory p w := obeys_undergo .making (·.makeDirectory p) w
  write p bytes w := obeys_write p bytes w
  rename source target w := obeys_undergo .moving (·.rename source target) w
  removeFile p w := obeys_undergo .removing (·.removeFile p) w
  removeTree p w := obeys_removeTree p w

end Vendoring.Files
