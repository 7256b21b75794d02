import Vendoring.Proofs.Files.Slot

/-! What each operation does to the entry that its path names. -/
namespace Vendoring.Files

namespace Disk
open Outcome

variable {d d' : Disk} {S S' : Set Trail} {p source target : Path} {q t : Trail} {s a b : Slot}
  {name : String} {bytes : ByteArray} {x : Tree} {k : Node} {f : Trail → Option Node}

/-- What stands at a place and below it. -/
def subtree (d : Disk) (t : Trail) : Trail → Option Node := fun r => d.node? (t ++ r)

def nothing : Trail → Option Node := fun _ => none

/-- One place is changed, and what stands there then is known. -/
structure Sets (d d' : Disk) (t : Trail) (f : Trail → Option Node) : Prop where
  agree : Agree (below t) d d'
  subtree : d'.subtree t = f

/-- What stood at one place stands at another one, and nothing else is changed. -/
structure Moved (d d' : Disk) (t u : Trail) : Prop where
  apart : ¬ t <+: u ∧ ¬ u <+: t
  agree : Agree (below t ∪ below u) d d'
  gone : d'.subtree t = nothing
  moved : d'.subtree u = d.subtree t

theorem subtree_nil (d : Disk) (t : Trail) : d.subtree t [] = d.node? t := by
  rw [subtree, List.append_nil]

theorem subtree_of_get? {x : Tree} (h : d.get? t = some x) : d.subtree t = x.node? :=
  funext fun r => Tree.node?_append h r

theorem Agree.subtree (h : Agree S d d') (ht : ∀ r, t ++ r ∉ S) : d'.subtree t = d.subtree t :=
  funext fun r => h.node _ (ht r)

/-- Of two changes of one place the later one tells what stands there. -/
theorem Sets.trans {d₁ : Disk} {g : Trail → Option Node} (h : Sets d d₁ t f) (h' : Sets d₁ d' t g) :
    Sets d d' t g := ⟨h.agree.trans h'.agree, h'.subtree⟩

theorem sets_put (h : d.node? q = some .directory) (name : String) (x : Tree) :
    Sets d (d.put (q ++ [name]) x) (q ++ [name]) x.node? :=
  ⟨agree_put d _ x, funext fun r => node?_put h name x r⟩

theorem sets_erase (d : Disk) (q : Trail) (name : String) :
    Sets d (d.erase (q ++ [name])) (q ++ [name]) nothing :=
  ⟨agree_erase d _, funext fun r => node?_erase q name r⟩

theorem isSome_get?_iff : (d.get? t).isSome = true ↔ d.node? t ≠ none := by
  rw [Ne, node?_eq_none, Option.isSome_iff_ne_none]

/-- What is added is put where nothing was. -/
theorem add_cases (h : d.add p x = .ok d') :
    ∃ s, d.slot? p = .ok (some s) ∧ isTooLong s.name = false ∧ d.node? s.trail = none ∧
      d' = d.put s.trail x := by
  rw [add] at h
  obtain ⟨s?, hs, h⟩ := bind_eq_ok.1 h
  cases s? with
  | none => cases h
  | some s =>
    dsimp only at h
    split at h
    · cases h
    next hl =>
    split at h
    · cases h
    next hn =>
    split at h
    · cases h
    · cases h
      rw [isSome_get?_iff, not_not] at hn
      exact ⟨s, hs, by simpa using hl, hn, rfl⟩

theorem add_sets (hs : d.slot? p = .ok (some s)) (h : d.add p x = .ok d') :
    d.node? s.trail = none ∧ isTooLong s.name = false ∧ Sets d d' s.trail x.node? := by
  obtain ⟨s', hs', hl, hn, rfl⟩ := add_cases h
  rw [hs] at hs'
  cases hs'
  exact ⟨hn, hl, sets_put (stands_of_slot? hs).dir s.name x⟩

theorem makeDirectory_of_check {e : Fault} (h : check p = .error e) :
    d.makeDirectory p = .error e := by
  rw [makeDirectory, add, Disk.slot?, h]
  rfl

theorem removeTree_of_check {e : Fault} (h : check p = .error e) :
    d.removeTree p = (.error e, d) := by
  rw [removeTree, held, find_of_check h]
  rfl

theorem makeDirectory_slot (h : d.makeDirectory p = .ok d') : ∃ s, d.slot? p = .ok (some s) := by
  obtain ⟨s, hs, -⟩ := add_cases h
  exact ⟨s, hs⟩

theorem add_of_none (h : d.slot? p = .ok none) : d.add p x = .error .alreadyExists := by
  rw [add, h]
  rfl

theorem add_of_there (h : d.slot? p = .ok (some s)) (hl : isTooLong s.name = false)
    (hn : d.node? s.trail ≠ none) : d.add p x = .error .alreadyExists := by
  rw [add, h]
  simp only [bind, Except.bind]
  rw [if_neg (by simp [hl]), if_pos (isSome_get?_iff.2 hn)]
  rfl

/-- A directory cannot be made where a path leads already. -/
theorem makeDirectory_of_leads (hl : Leads d S p q) (hc : check p = .ok ()) :
    d.makeDirectory p = .error .alreadyExists := by
  obtain ⟨links, hw⟩ := hl.way
  rcases List.eq_nil_or_concat p.steps with hn | ⟨before, name, hs⟩
  · refine add_of_none ?_
    rw [slot?, hc]
    simp only [hn]
    rfl
  · rw [List.concat_eq_append] at hs
    rw [hs] at hw
    obtain ⟨l, q', hb, hlast⟩ := hw.split
    have hslot (dir : d.node? q' = some .directory) := slot?_of_way hb dir hs hc
    cases hlast with
    | stay _ dir _ => exact add_of_none (hslot dir)
    | up _ dir _ => exact add_of_none (hslot dir)
    | down _ dir plain fits next _ _ =>
      have h := hslot dir
      rw [if_neg (not_or.2 plain)] at h
      exact add_of_there h fits (by rw [Slot.trail, next]; simp)
    | link _ dir plain fits _ next _ =>
      have h := hslot dir
      rw [if_neg (not_or.2 plain)] at h
      exact add_of_there h fits (by rw [Slot.trail, next]; simp)

/-- What is written stands in the place of the file that was found, or in the free place. -/
theorem write_puts (h : d.write p bytes = .ok d') :
    (∃ t old, d.find true p = .ok (.held t (.file old)) ∧ d' = d.put t (.file bytes)) ∨
    ∃ q name, d.find true p = .ok (.free q name) ∧ d' = d.put (q ++ [name]) (.file bytes) := by
  rw [write] at h
  split at h
  · obtain ⟨_, -, h⟩ := bind_eq_ok.1 h
    cases h
  obtain ⟨spot, hf, h⟩ := bind_eq_ok.1 h
  split at h
  · next t old =>
    cases h
    exact Or.inl ⟨t, old, hf, rfl⟩
  · cases h
  · next q name =>
    cases h
    exact Or.inr ⟨q, name, hf, rfl⟩

theorem write_place (h : d.write p bytes = .ok d') :
    (∃ t old, d.find true p = .ok (.held t (.file old)) ∧
      Sets d d' t (Tree.file bytes).node?) ∨
    ∃ q name, d.find true p = .ok (.free q name) ∧
      Sets d d' (q ++ [name]) (Tree.file bytes).node? := by
  rcases write_puts h with ⟨t, old, hf, rfl⟩ | ⟨q, name, hf, rfl⟩
  · obtain ⟨⟨⟩, -, hw⟩ := bind_eq_ok.1 hf
    have hends := walk_ends hw
    exact Or.inl ⟨t, old, hf, agree_put d t _, funext fun r => node?_put_of_get? hends _ r⟩
  · obtain ⟨⟨⟩, -, hw⟩ := bind_eq_ok.1 hf
    have hends := walk_ends hw
    exact Or.inr ⟨q, name, hf, sets_put hends.1 name _⟩

/-- A file is written in its own place if its path is no link. -/
theorem write_sets (hs : Stands d S p s) (hu : s.slashed = false)
    (hl : ∀ target, d.node? s.trail ≠ some (.link target)) (h : d.write p bytes = .ok d') :
    d.node? s.trail ≠ some .directory ∧ isTooLong s.name = false ∧
      Sets d d' s.trail (Tree.file bytes).node? := by
  have hslash : p.endsInSlash = false := by rw [← hs.slashed, hu]
  rw [write, hslash] at h
  simp only [Bool.false_eq_true, if_false] at h
  cases hlong : isTooLong s.name with
  | true =>
    rw [hs.find_long hlong] at h
    cases h
  | false =>
    cases hx : d.get? s.trail with
    | none =>
      rw [hs.find_free hlong (node?_eq_none.2 hx) hu] at h
      cases h
      refine ⟨?_, rfl, sets_put hs.dir s.name _⟩
      rw [node?_eq_none.2 hx]
      simp
    | some x =>
      cases x with
      | file old =>
        rw [hs.find_file hlong hx, hu] at h
        cases h
        refine ⟨?_, rfl, sets_put hs.dir s.name _⟩
        rw [node?_of_get? hx]
        simp [Tree.node]
      | link target => exact absurd (node?_of_get? hx) (hl target)
      | directory es =>
        rw [hs.find_directory hlong hx] at h
        cases h

theorem write_eq_put (hs : Stands d S p s) (hu : s.slashed = false)
    (hlong : isTooLong s.name = false)
    (hn : ∀ k, d.node? s.trail = some k → ∃ old, k = .file old) (bytes : ByteArray) :
    d.write p bytes = .ok (d.put s.trail (.file bytes)) := by
  have hslash : p.endsInSlash = false := by rw [← hs.slashed, hu]
  rw [write, hslash]
  simp only [Bool.false_eq_true, if_false]
  cases hx : d.node? s.trail with
  | none =>
    rw [hs.find_free hlong hx hu]
    rfl
  | some k =>
    obtain ⟨old, rfl⟩ := hn k hx
    rw [hs.find_file hlong (node?_eq_file.1 hx), hu]
    rfl

/-- What a system says against a file does not depend on what the file is to hold. -/
theorem write_eq_error {e : Fault} (h : d.write p bytes = .error e) (bytes' : ByteArray) :
    d.write p bytes' = .error e := by
  rw [write] at h ⊢
  split at h
  · next hs =>
    rw [if_pos hs]
    exact h
  · next hs =>
    rw [if_neg hs]
    cases hf : d.find true p with
    | error e' =>
      rw [hf] at h
      exact h
    | ok spot =>
      rw [hf] at h
      cases spot with
      | free _ _ => cases h
      | held t x =>
        cases x with
        | file _ => cases h
        | link _ => exact h
        | directory _ => exact h

theorem rename_slots (h : d.rename source target = .ok d') :
    ∃ a b, d.slot? source = .ok (some a) ∧ d.slot? target = .ok (some b) ∧
      d.move a b = .ok d' := by
  rw [rename] at h
  obtain ⟨a?, ha, h⟩ := bind_eq_ok.1 h
  obtain ⟨b?, hb, h⟩ := bind_eq_ok.1 h
  cases a? with
  | none => cases h
  | some a =>
    cases b? with
    | none => cases h
    | some b => exact ⟨a, b, ha, hb, h⟩

theorem not_below_of_apart {u r : Trail} (h : ¬ t <+: u ∧ ¬ u <+: t) : ¬ u <+: t ++ r := by
  intro hu
  rcases List.prefix_or_prefix_of_prefix hu (List.prefix_append t r) with hp | hp
  · exact h.2 hp
  · exact h.1 hp

theorem apart_of_move (hne : a.trail ≠ b.trail) (ha : ¬ a.trail <+: b.parent)
    (hb : ¬ b.trail <+: a.parent) : ¬ a.trail <+: b.trail ∧ ¬ b.trail <+: a.trail := by
  constructor
  · intro hp
    rcases List.prefix_concat_iff.1 hp with he | hp
    · exact hne he
    · exact ha hp
  · intro hp
    rcases List.prefix_concat_iff.1 hp with he | hp
    · exact hne he.symm
    · exact hb hp

theorem move_put (hd : d.node? b.parent = some .directory) (hx : d.get? a.trail = some x)
    (h : ¬ a.trail <+: b.trail ∧ ¬ b.trail <+: a.trail) :
    Moved d ((d.erase a.trail).put b.trail x) a.trail b.trail := by
  have hparent : ¬ a.trail <+: b.parent := fun hp => h.1 (hp.trans (List.prefix_append _ _))
  have hdir : (d.erase a.trail).node? b.parent = some .directory :=
    ((agree_erase d a.trail).node _ hparent).trans hd
  have hput : Sets (d.erase a.trail) ((d.erase a.trail).put b.trail x) b.trail x.node? :=
    sets_put hdir b.name x
  refine ⟨h, ?_, ?_, ?_⟩
  · exact (agree_erase d _).trans_union hput.agree
  · funext r
    rw [Disk.subtree, hput.agree.node _ (not_below_of_apart h)]
    exact node?_erase a.parent a.name r
  · rw [hput.subtree]
    funext r
    exact (Tree.node?_append hx r).symm

/-- What a move owes to the entries it is about. -/
structure Movable (d : Disk) (a b : Slot) : Prop where
  fits : isTooLong a.name = false ∧ isTooLong b.name = false
  there : d.node? a.trail ≠ none
  apart : ¬ a.trail <+: b.trail ∧ ¬ b.trail <+: a.trail
  kind : d.node? a.trail = some .directory ∨ a.slashed = false ∧ b.slashed = false

theorem isDirectory_iff (h : d.get? t = some x) :
    x.isDirectory = true ↔ d.node? t = some .directory := by
  rw [node?_of_get? h]
  cases x <;> simp [Tree.isDirectory, Tree.node]

/-- A move that works: an entry that stands in its target already stays there, and any other one is
taken out of its place and put there. -/
theorem move_cases (h : d.move a b = .ok d') :
    ∃ x, d.get? a.trail = some x ∧ (isTooLong a.name = false ∧ isTooLong b.name = false) ∧
      (x.isDirectory = true ∨ a.slashed = false ∧ b.slashed = false) ∧
      (¬ a.trail <+: b.parent ∧ ¬ b.trail <+: a.parent) ∧
      (a.trail = b.trail ∧ d' = d ∨ a.trail ≠ b.trail ∧
        checkReplace x (d.get? b.trail) = .ok () ∧ d' = (d.erase a.trail).put b.trail x) := by
  rw [move] at h
  simp only [bind, Except.bind] at h
  split at h
  · cases h
  next ha =>
  split at h
  · cases h
  next x hx =>
  split at h
  · cases h
  next hb =>
  split at h
  · cases h
  next hk =>
  split at h
  · cases h
  next hab =>
  split at h
  · cases h
  next hba =>
  rw [List.isPrefixOf_iff_prefix] at hab hba
  have hkind : x.isDirectory = true ∨ a.slashed = false ∧ b.slashed = false := by
    cases hx' : x.isDirectory with
    | true => exact Or.inl rfl
    | false =>
      rw [hx'] at hk
      exact Or.inr (by simpa using hk)
  refine ⟨x, hx, ⟨by simpa using ha, by simpa using hb⟩, hkind, ⟨hab, hba⟩, ?_⟩
  split at h
  next he =>
    cases h
    exact Or.inl ⟨he, rfl⟩
  next hne =>
    split at h
    · cases h
    next hr =>
      cases h
      exact Or.inr ⟨hne, hr, rfl⟩

theorem move_moved (h : d.move a b = .ok d') (hne : a.trail ≠ b.trail)
    (hd : d.node? b.parent = some .directory) :
    Moved d d' a.trail b.trail ∧ Movable d a b ∧
      (d.node? a.trail ≠ some .directory → d.node? b.trail ≠ some .directory) := by
  obtain ⟨x, hx, hfits, hk, ⟨hab, hba⟩, ⟨he, -⟩ | ⟨-, hr, rfl⟩⟩ := move_cases h
  · exact absurd he hne
  have hapart := apart_of_move hne hab hba
  have hdir := isDirectory_iff hx
  refine ⟨move_put hd hx hapart, ⟨hfits, ?_, hapart, hk.imp_left hdir.1⟩, ?_⟩
  · rw [node?_of_get? hx]
    simp
  · intro hn hbd
    obtain ⟨es, he⟩ := node?_eq_directory.1 hbd
    have hx' : x.isDirectory = false := by
      rw [Bool.eq_false_iff]
      exact fun hd => hn (hdir.1 hd)
    simp [he, checkReplace, hx'] at hr

theorem move_eq_ok (h : Movable d a b)
    (hr : d.node? b.trail = none ∨
      d.node? a.trail ≠ some .directory ∧ d.node? b.trail ≠ some .directory) :
    ∃ d', d.move a b = .ok d' := by
  have hab : ¬ a.trail <+: b.parent := fun hp => h.apart.1 (hp.trans (List.prefix_append _ _))
  have hba : ¬ b.trail <+: a.parent := fun hp => h.apart.2 (hp.trans (List.prefix_append _ _))
  have hne : a.trail ≠ b.trail := fun he => h.apart.1 (he ▸ List.prefix_refl _)
  cases hx : d.get? a.trail with
  | none => exact absurd (node?_eq_none.2 hx) h.there
  | some x =>
    have hdir := isDirectory_iff hx
    have hk : ¬ ((!x.isDirectory) = true ∧ (a.slashed = true ∨ b.slashed = true)) := by
      rintro ⟨hx, hs⟩
      rcases h.kind with hd | ⟨ha, hb⟩
      · simp [hdir.2 hd] at hx
      · simp [ha, hb] at hs
    have hreplace : checkReplace x (d.get? b.trail) = .ok () := by
      rcases hr with hr | ⟨ha, hb⟩
      · rw [node?_eq_none.1 hr]
        rfl
      · have hx' : x.isDirectory = false := by
          rw [Bool.eq_false_iff]
          exact fun hd => ha (hdir.1 hd)
        cases hy : d.get? b.trail with
        | none => rfl
        | some y =>
          cases y with
          | directory es => exact absurd (node?_of_get? hy) hb
          | file _ => simp [checkReplace, hx']
          | link _ => simp [checkReplace, hx']
    refine ⟨(d.erase a.trail).put b.trail x, ?_⟩
    rw [← List.isPrefixOf_iff_prefix] at hab hba
    simp only [move, hx, h.fits.1, h.fits.2, hk, hab, hba, hne, hreplace, if_false, bind,
      Except.bind, pure, Except.pure, Bool.false_eq_true]

theorem move_self (h : d.move a b = .ok d') (he : a.trail = b.trail) : d' = d := by
  obtain ⟨x, -, -, -, -, ⟨-, hd⟩ | ⟨hne, -⟩⟩ := move_cases h
  · exact hd
  · exact absurd he hne

theorem there_of_move (h : d.move a b = .ok d') : d.node? a.trail ≠ none := by
  obtain ⟨x, hx, -⟩ := move_cases h
  rw [node?_of_get? hx]
  simp

theorem checkReplace_ne_notFound {y? : Option Tree} : checkReplace x y? ≠ .error .notFound := by
  intro h
  unfold checkReplace at h
  split at h
  · cases h
  · split at h
    · cases h
    · split at h <;> cases h
  · split at h <;> cases h

theorem none_of_move_notFound (h : d.move a b = .error .notFound) : d.node? a.trail = none := by
  rw [move] at h
  simp only [bind, Except.bind] at h
  split at h
  · cases h
  split at h
  · next hn => exact node?_eq_none.2 hn
  split at h
  · cases h
  split at h
  · cases h
  split at h
  · cases h
  split at h
  · cases h
  split at h
  · cases h
  split at h
  · next e hr =>
    cases h
    exact absurd hr checkReplace_ne_notFound
  · cases h

/-- A file is removed, or a link, and never a directory. -/
theorem removeFile_cases (h : d.removeFile p = .ok d') :
    ∃ s, d.slot? p = .ok (some s) ∧ isTooLong s.name = false ∧ s.slashed = false ∧
      d.node? s.trail ≠ none ∧ d.node? s.trail ≠ some .directory ∧ d' = d.erase s.trail := by
  rw [removeFile] at h
  obtain ⟨s?, hs, h⟩ := bind_eq_ok.1 h
  cases s? with
  | none => cases h
  | some s =>
  dsimp only at h
  split at h
  · cases h
  next hl =>
  split at h
  · cases h
  · cases h
  next x hdir hx =>
  split at h
  · cases h
  next hslash =>
  cases h
  refine ⟨s, hs, by simpa using hl, by simpa using hslash, ?_, ?_, rfl⟩
  · rw [node?_of_get? hx]
    simp
  · rw [node?_of_get? hx]
    intro hn
    cases x with
    | directory es => exact hdir es rfl
    | file _ => cases hn
    | link _ => cases hn

theorem removeFile_sets (hs : d.slot? p = .ok (some s)) (h : d.removeFile p = .ok d') :
    isTooLong s.name = false ∧ s.slashed = false ∧ d.node? s.trail ≠ none ∧
      d.node? s.trail ≠ some .directory ∧ Sets d d' s.trail nothing := by
  obtain ⟨s', hs', hl, hslash, hn, hdir, rfl⟩ := removeFile_cases h
  rw [hs] at hs'
  cases hs'
  exact ⟨hl, hslash, hn, hdir, sets_erase d s.parent s.name⟩

theorem removeFile_eq_ok (hs : d.slot? p = .ok (some s)) (hl : isTooLong s.name = false)
    (hu : s.slashed = false) (hn : d.node? s.trail ≠ none)
    (hd : d.node? s.trail ≠ some .directory) : d.removeFile p = .ok (d.erase s.trail) := by
  rw [removeFile, hs]
  simp only [bind, Except.bind]
  rw [if_neg (by simp [hl])]
  cases hx : d.get? s.trail with
  | none => exact absurd (node?_eq_none.2 hx) hn
  | some x =>
    cases x with
    | directory es => exact absurd (node?_of_get? hx) hd
    | file _ =>
      simp only [hu]
      rfl
    | link _ =>
      simp only [hu]
      rfl

theorem removeFile_slot (h : d.removeFile p = .ok d') : ∃ s, d.slot? p = .ok (some s) := by
  obtain ⟨s, hs, -⟩ := removeFile_cases h
  exact ⟨s, hs⟩

theorem removeEmpty_eq_ok (hs : d.slot? p = .ok (some s)) (hd : d.node? s.trail = some .directory) :
    d.removeEmpty p = .ok (d.erase s.trail) := by
  obtain ⟨es, hx⟩ := node?_eq_directory.1 hd
  rw [removeEmpty, hs]
  simp only [bind, Except.bind, hx]
  rfl

theorem removeEmpty_sets (h : d.removeEmpty p = .ok d') :
    ∃ s, d.slot? p = .ok (some s) ∧ Sets d d' s.trail nothing := by
  rw [removeEmpty] at h
  obtain ⟨s?, hs, h⟩ := bind_eq_ok.1 h
  cases s? with
  | none => cases h
  | some s =>
    dsimp only at h
    split at h
    · cases h
      exact ⟨s, hs, sets_erase d s.parent s.name⟩
    · cases h
    · cases h

/-- Removing a directory empties it first, and then takes it away itself, if that can be done. -/
theorem removeTree_empties (hs : Stands d S p s) (hl : isTooLong s.name = false)
    (hd : d.node? s.trail = some .directory) :
    ∃ d₁, Sets d d₁ s.trail (Tree.directory []).node? ∧
      d₁.node? s.trail = some .directory ∧
      (∀ d', d₁.removeEmpty p = .ok d' → d.removeTree p = (.ok (), d')) ∧
      ∀ e, d₁.removeEmpty p = .error e → d.removeTree p = (.error e, d₁) := by
  obtain ⟨es, hx⟩ := node?_eq_directory.1 hd
  have hheld : d.held false p = .ok (s.trail, .directory es) := by
    rw [held, hs.find_directory hl hx]
    rfl
  have hput : Sets d (d.put s.trail (.directory [])) s.trail (Tree.directory []).node? :=
    sets_put hs.dir s.name _
  refine ⟨_, hput, ?_, fun d' he => ?_, fun e he => ?_⟩
  · rw [← subtree_nil, hput.subtree]
    rfl
  · simp only [removeTree, hheld, he]
  · simp only [removeTree, hheld, he]

/-- Removing a directory takes all of it away, if its contents are not on the way to it. -/
theorem removeTree_directory (hs : Stands d S p s) (hb : below s.trail ⊆ S)
    (hl : isTooLong s.name = false) (hd : d.node? s.trail = some .directory) :
    ∃ d', d.removeTree p = (.ok (), d') ∧ Sets d d' s.trail nothing := by
  obtain ⟨d₁, hput, hd₁, hok, -⟩ := removeTree_empties hs hl hd
  have hs₁ : Stands d₁ S p s := hs.agree (hput.agree.mono hb)
  exact ⟨_, hok _ (removeEmpty_eq_ok hs₁.slot? hd₁),
    hput.trans (sets_erase d₁ s.parent s.name)⟩

/-- Where no directory stands, removing a tree either fails and changes nothing, or takes away a
link. -/
theorem removeTree_of_not_directory (hs : Stands d S p s) (hu : s.slashed = false)
    (hd : isTooLong s.name = false → d.node? s.trail ≠ some .directory) :
    (∃ e, d.removeTree p = (.error e, d) ∧ (e = .notFound → d.node? s.trail = none)) ∨
      (∃ target, d.node? s.trail = some (.link target)) ∧
        ∃ d', d.removeTree p = (.ok (), d') ∧ Sets d d' s.trail nothing := by
  cases hlong : isTooLong s.name with
  | true =>
    refine Or.inl ⟨.nameTooLong, ?_, fun h => by cases h⟩
    rw [removeTree, held, hs.find_long hlong]
    rfl
  | false =>
    cases hx : d.get? s.trail with
    | none =>
      have hn := node?_eq_none.2 hx
      refine Or.inl ⟨.notFound, ?_, fun _ => hn⟩
      rw [removeTree, hs.held_none hlong hn]
    | some x =>
      cases x with
      | directory es => exact absurd (node?_of_get? hx) (hd hlong)
      | file _ =>
        refine Or.inl ⟨.notDirectory, ?_, fun h => by cases h⟩
        rw [removeTree, held, hs.find_file hlong hx, hu]
        rfl
      | link _ =>
        have hn := node?_of_get? hx
        have hrm := removeFile_eq_ok hs.slot? hlong hu (by rw [hn]; simp)
          (by rw [hn]; simp [Tree.node])
        refine Or.inr ⟨⟨_, hn⟩, d.erase s.trail, ?_, sets_erase d s.parent s.name⟩
        rw [removeTree, held, hs.find_link hlong hx hu]
        simp only [bind, Except.bind, pure, Except.pure, hrm]

/-- Removing a tree either fails and changes nothing, or takes away all that the path names. -/
theorem removeTree_sets (hs : Stands d S p s) (hb : below s.trail ⊆ S) (hu : s.slashed = false) :
    (∃ e, d.removeTree p = (.error e, d) ∧ (e = .notFound → d.node? s.trail = none)) ∨
      (∀ bytes, d.node? s.trail ≠ some (.file bytes)) ∧
        ∃ d', d.removeTree p = (.ok (), d') ∧ Sets d d' s.trail nothing := by
  by_cases hd : isTooLong s.name = false ∧ d.node? s.trail = some .directory
  · refine Or.inr ⟨fun bytes hf => ?_, removeTree_directory hs hb hd.1 hd.2⟩
    rw [hd.2] at hf
    cases hf
  · refine (removeTree_of_not_directory hs hu fun hlong hdir => hd ⟨hlong, hdir⟩).imp_right ?_
    rintro ⟨⟨target, hl⟩, hrun⟩
    refine ⟨fun bytes hf => ?_, hrun⟩
    rw [hl] at hf
    cases hf

end Disk

end Vendoring.Files
