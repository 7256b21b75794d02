import Vendoring.Files.Replace
import Vendoring.Proofs.Files.Program

/-! Programs on a disk that is watched. Each change is a moment of its own, of a write even each
byte and of the removal of a tree each entry; the disk of every moment is kept. Any change may fail
although the disk would allow it. -/
namespace Vendoring.Files

/-- The kinds of changes. A file is created first and then filled. -/
inductive Stage
  | making
  | creating
  | filling
  | moving
  | removing
  deriving DecidableEq, Repr

/-- A change, how it ended, and the disk then. -/
structure Moment where
  stage : Stage
  outcome : Except Fault Unit
  disk : Disk

/-- A disk and the moments that have passed, the last first. The first of the mishaps strikes the
next change or spares it. -/
structure Watch where
  disk : Disk
  past : List Moment
  mishaps : List (Option Fault)

/-- The watch over a disk begins. -/
def Watch.start (d : Disk) (mishaps : List (Option Fault)) : Watch := ⟨d, [], mishaps⟩

/-- A program that works on a disk that is watched. -/
abbrev Observed (ε α : Type) := Work Watch ε α

/-- Asks the disk that is watched. -/
def observe {α : Type} (f : Disk → Except Fault α) : Observed Fault α :=
  ExceptT.mk fun w => (f w.disk, w)

/-- Goes through a change that no mishap strikes. -/
def Watch.pass (w : Watch) (stage : Stage) (f : Disk → Except Fault Unit × Disk) :
    Except Fault Unit × Watch :=
  let (r, d) := match w.mishaps.head?.join with
    | some e => (.error e, w.disk)
    | none => f w.disk
  (r, ⟨d, ⟨stage, r, d⟩ :: w.past, w.mishaps.tail⟩)

def undergo (stage : Stage) (f : Disk → Except Fault Disk) : Observed Fault Unit :=
  ExceptT.mk (·.pass stage fun d => settled d (f d))

/-- What a file holds while it is filled: one more byte each time. In the end it is made sure that
all of them are there. -/
def drafts (bytes : ByteArray) : List ByteArray :=
  (List.range bytes.size).map (fun n => bytes.extract 0 (n + 1)) ++ [bytes]

/-- Writes one draft of a file after the other. -/
def fill (p : Path) : List ByteArray → Observed Fault Unit
  | [] => return
  | draft :: rest => do
    undergo .filling (·.write p draft)
    fill p rest

mutual

/-- What a directory is while all that it holds is removed: one entry less each time. -/
def Tree.remnants : Tree → List Tree
  | .directory entries => (remnantsIn entries).map .directory
  | _ => []

/-- The last entry goes first, and what it holds before it. -/
def remnantsIn : List (String × Tree) → List (List (String × Tree))
  | [] => []
  | (name, t) :: rest =>
    (remnantsIn rest).map ((name, t) :: ·) ++ t.remnants.map (fun t' => [(name, t')]) ++ [[]]

end

/-- Puts one tree after the other at a place. -/
def prune (trail : Trail) : List Tree → Observed Fault Unit
  | [] => return
  | t :: rest => do
    undergo .removing fun d => .ok (d.put trail t)
    prune trail rest

/-- Removes a tree entry by entry, and a link at once. -/
def removeByEntry (p : Path) : Observed Fault Unit := do
  match ← observe (·.held false p) with
  | (_, .link _) => undergo .removing (·.removeFile p)
  | (_, .file _) => throw .notDirectory
  | (trail, .directory entries) =>
    prune trail (Tree.directory entries).remnants
    undergo .removing (·.removeEmpty p)

instance : FileStore (StateM Watch) where
  kind p := observe (·.kind p)
  contents p := observe (·.contents p)
  place p := observe (·.place p)
  canonical p := observe (·.canonical p)
  listing p := observe (·.listing p)
  makeDirectory p := undergo .making (·.makeDirectory p)
  write p bytes := do
    undergo .creating (·.write p ByteArray.empty)
    fill p (drafts bytes)
  rename source target := undergo .moving (·.rename source target)
  removeFile p := undergo .removing (·.removeFile p)
  removeTree := removeByEntry

/-- How a program ends that starts while a disk is watched. -/
def watched {ε α : Type} (x : Observed ε α) (w : Watch) : Except ε α × Watch := on x w

variable {ε ε' α β : Type} {x : Observed ε α} {f : α → Observed ε β} {w w' : Watch}
  {I : Watch → Prop} {stage : Stage} {g : Disk → Except Fault Disk} {r : Except Fault Unit}
  {y : Program ε α} {k : α → Program ε β}

theorem watched_bind (x : Observed ε α) (f : α → Observed ε β) (w : Watch) :
    watched (x >>= f) w = match watched x w with
      | (.ok a, w') => watched (f a) w'
      | (.error e, w') => (.error e, w') := by
  simp only [watched, on_bind]
  cases on x w with
  | mk r w' => cases r <;> rfl

theorem watched_bind_ok {a : α} (h : watched x w = (.ok a, w')) :
    watched (x >>= f) w = watched (f a) w' := by
  rw [watched_bind, h]

theorem watched_bind_error {e : ε} (h : watched x w = (.error e, w')) :
    watched (x >>= f) w = (.error e, w') := by
  rw [watched_bind, h]

@[simp] theorem watched_attempt (x : Observed ε α) (w : Watch) :
    watched (attempt x : Observed ε' _) w = (.ok (watched x w).1, (watched x w).2) := rfl

@[simp] theorem watched_isDirectory (p : Path) (w : Watch) :
    watched (liftM (isDirectory p : StateM Watch Bool) : Observed Fault Bool) w =
      (.ok (decide (w.disk.kind p = .ok .directory)), w) := by
  have hkind : (FileView.kind p : ExceptT Fault (StateM Watch) Kind).run w =
      (w.disk.kind p, w) := rfl
  have h : (isDirectory p : StateM Watch Bool) w =
      (decide (w.disk.kind p = .ok .directory), w) := by
    simp only [isDirectory, bind, StateT.bind, hkind]
    cases w.disk.kind p with
    | error e => rfl
    | ok k => cases k <;> rfl
  change (Except.ok ((isDirectory p : StateM Watch Bool) w).1,
    ((isDirectory p : StateM Watch Bool) w).2) = _
  rw [h]

/-- A change works and leaves what it makes of the disk, or it fails, by a mishap or since the disk
does not allow it, and leaves the disk as it was. -/
theorem undergo_cases (h : watched (undergo stage g) w = (r, w')) :
    w'.past = ⟨stage, r, w'.disk⟩ :: w.past ∧ w'.mishaps <:+ w.mishaps ∧
      ((∃ e, r = .error e ∧ w'.disk = w.disk ∧ (g w.disk = .error e ∨ some e ∈ w.mishaps)) ∨
        r = .ok () ∧ g w.disk = .ok w'.disk) := by
  have hrun : w.pass stage (fun d => settled d (g d)) = (r, w') := h
  rw [Watch.pass] at hrun
  cases hm : w.mishaps.head?.join with
  | some e =>
    rw [hm] at hrun
    cases hrun
    refine ⟨rfl, List.tail_suffix _, Or.inl ⟨e, rfl, rfl, Or.inr ?_⟩⟩
    exact List.mem_of_head? (Option.join_eq_some_iff.1 hm)
  | none =>
    rw [hm] at hrun
    cases hg : g w.disk with
    | error e =>
      simp only [hg, settled] at hrun
      cases hrun
      exact ⟨rfl, List.tail_suffix _, Or.inl ⟨e, rfl, rfl, Or.inl rfl⟩⟩
    | ok d =>
      simp only [hg, settled] at hrun
      cases hrun
      exact ⟨rfl, List.tail_suffix _, Or.inr ⟨rfl, rfl⟩⟩

/-! ## What a program keeps at every moment -/

/-- From a watch that `I` holds of, a program leads to such a watch, however it ends. -/
def Preserves (I : Watch → Prop) (x : Observed ε α) : Prop := ∀ w, I w → I (watched x w).2

theorem preserves_pure (a : α) : Preserves I (pure a : Observed ε α) := fun _ hw => hw

theorem preserves_throw (e : ε) : Preserves I (throw e : Observed ε α) := fun _ hw => hw

theorem preserves_bind (hx : Preserves I x) (hf : ∀ a, Preserves I (f a)) :
    Preserves I (x >>= f) := by
  intro w hw
  have hi := hx w hw
  rw [watched_bind]
  cases h : watched x w with
  | mk r w' =>
    rw [h] at hi
    cases r with
    | ok a => exact hf a w' hi
    | error e => exact hi

theorem preserves_attempt (hx : Preserves I x) :
    Preserves I (attempt x : Observed ε' (Except ε α)) := fun w hw => hx w hw

theorem preserves_isDirectory (p : Path) :
    Preserves I (liftM (isDirectory p : StateM Watch Bool) : Observed Fault Bool) := by
  intro w hw
  rw [watched_isDirectory]
  exact hw

theorem preserves_makeFirst {ps : List Path} (h : ∀ p ∈ ps, p.text ≠ "" →
    Preserves I (FileStore.makeDirectory p : Observed Fault Unit)) :
    Preserves I (makeFirst ps : Observed Fault Unit) := by
  induction ps with
  | nil => exact preserves_pure ()
  | cons p parents ih =>
    have hcheck (e : Fault) : Preserves I (do
        if ← (isDirectory p : StateM Watch Bool) then pure () else throw e :
        Observed Fault Unit) := by
      refine preserves_bind (preserves_isDirectory p) fun found => ?_
      split
      · exact preserves_pure ()
      · exact preserves_throw e
    rw [makeFirst]
    split
    · exact preserves_pure ()
    next hne =>
    have hmake := h p (List.mem_cons_self ..) fun ht => hne (Or.inl ht)
    refine preserves_bind (preserves_attempt hmake) fun r => ?_
    split
    · exact preserves_pure ()
    · refine preserves_bind (ih fun p' hp' => h p' (List.mem_cons_of_mem _ hp')) fun _ => ?_
      refine preserves_bind (preserves_attempt hmake) fun r => ?_
      split
      · exact preserves_pure ()
      · exact hcheck _
    · exact hcheck _

/-! ## A watch without mishaps -/

/-- If no mishap strikes, a watched program does from a watch on what the other one does on the disk
alone. -/
def Calm (x : Observed ε α) (y : Program ε α) (w : Watch) : Prop := w.mishaps = [] →
  ∀ r w', watched x w = (r, w') → on y w.disk = (r, w'.disk) ∧ w'.mishaps = []

theorem calm_pure (a : α) (w : Watch) : Calm (pure a : Observed ε α) (pure a) w := by
  intro hm r w' h
  cases h
  exact ⟨rfl, hm⟩

theorem calm_throw (e : ε) (w : Watch) : Calm (throw e : Observed ε α) (throw e) w := by
  intro hm r w' h
  cases h
  exact ⟨rfl, hm⟩

theorem calm_bind (hx : Calm x y w) (hf : ∀ a w', watched x w = (.ok a, w') → Calm (f a) (k a) w') :
    Calm (x >>= f) (y >>= k) w := by
  intro hm r w' h
  cases hw : watched x w with
  | mk r₁ w₁ =>
  obtain ⟨hy, hm₁⟩ := hx hm r₁ w₁ hw
  cases r₁ with
  | ok a =>
    rw [watched_bind_ok hw] at h
    rw [on_bind_ok hy]
    exact hf a w₁ hw hm₁ r w' h
  | error e =>
    rw [watched_bind_error hw] at h
    cases h
    exact ⟨on_bind_error hy, hm₁⟩

theorem calm_attempt (hx : Calm x y w) :
    Calm (attempt x : Observed ε' (Except ε α)) (attempt y) w := by
  intro hm r w' h
  rw [watched_attempt] at h
  cases h
  obtain ⟨hy, hm'⟩ := hx hm _ _ rfl
  rw [on_attempt, hy]
  exact ⟨rfl, hm'⟩

theorem calm_undergo (stage : Stage) (g : Disk → Except Fault Disk) (w : Watch) :
    Calm (undergo stage g) (change g) w := by
  intro hm r w' h
  have hrun : watched (undergo stage g) w = w.pass stage fun d => settled d (g d) := rfl
  rw [hrun, Watch.pass, hm] at h
  cases h
  exact ⟨on_change g w.disk, rfl⟩

theorem calm_isDirectory (p : Path) (w : Watch) :
    Calm (liftM (isDirectory p : StateM Watch Bool) : Observed Fault Bool)
      (liftM (isDirectory p : StateM Disk Bool)) w := by
  intro hm r w' h
  rw [watched_isDirectory] at h
  cases h
  exact ⟨on_isDirectory p w.disk, hm⟩

theorem calm_makeFirst (ps : List Path) (w : Watch) :
    Calm (makeFirst ps : Observed Fault Unit) (makeFirst ps) w := by
  induction ps generalizing w with
  | nil => exact calm_pure () w
  | cons p parents ih =>
    have hcheck (e : Fault) (w : Watch) : Calm
        (do if ← (isDirectory p : StateM Watch Bool) then pure () else throw e :
          Observed Fault Unit)
        (do if ← (isDirectory p : StateM Disk Bool) then pure () else throw e :
          Program Fault Unit) w := by
      refine calm_bind (calm_isDirectory p w) fun found w _ => ?_
      split
      · exact calm_pure () w
      · exact calm_throw e w
    have hmake (w : Watch) :
        Calm (attempt (FileStore.makeDirectory p) : Observed Fault (Except Fault Unit))
          (attempt (FileStore.makeDirectory p)) w := calm_attempt (calm_undergo _ _ w)
    rw [makeFirst, makeFirst]
    split
    · exact calm_pure () w
    refine calm_bind (hmake w) fun r w _ => ?_
    split
    · exact calm_pure () w
    · refine calm_bind (ih w) fun _ w _ => calm_bind (hmake w) fun r w _ => ?_
      split
      · exact calm_pure () w
      · exact hcheck _ w
    · exact hcheck _ w

theorem calm_publish (written target : Path) (w : Watch) :
    Calm (publish written target : Observed Fault Unit) (publish written target) w := by
  refine calm_bind (calm_attempt (calm_undergo _ _ w)) fun r w _ => ?_
  split
  · exact calm_pure () w
  · exact calm_bind (calm_attempt (calm_undergo _ _ w)) fun _ w _ => calm_throw _ w

end Vendoring.Files
