import Vendoring.Files.Disk
import Vendoring.Proofs.Files.Disk
import Vendoring.Proofs.Outcome

/-! Programs on a disk, or on a state that carries one: how they end, and what they keep on the
way. -/
namespace Vendoring.Files

/-- A program that works on a state and may fail. -/
abbrev Work (σ ε α : Type) := ExceptT ε (StateM σ) α

/-- A program that works on a disk and may fail. -/
abbrev Program (ε α : Type) := Work Disk ε α

/-- How a program ends that starts in a state, and the state that it leaves. -/
def on {σ ε α : Type} (x : Work σ ε α) (s : σ) : Except ε α × σ := x.run.run s

section Runs
variable {σ ε ε' α β : Type} {x : Work σ ε α} {f : α → Work σ ε β} {s s' : σ}

@[simp] theorem on_pure (a : α) (s : σ) : on (pure a : Work σ ε α) s = (.ok a, s) := rfl

@[simp] theorem on_throw (e : ε) (s : σ) : on (throw e : Work σ ε α) s = (.error e, s) := rfl

theorem on_bind (x : Work σ ε α) (f : α → Work σ ε β) (s : σ) :
    on (x >>= f) s = match on x s with
      | (.ok a, s') => on (f a) s'
      | (.error e, s') => (.error e, s') := by
  simp only [on, bind, ExceptT.bind, ExceptT.mk, ExceptT.run, StateT.run, StateT.bind,
    ExceptT.bindCont]
  cases x s with
  | mk r s' => cases r <;> rfl

theorem on_bind_ok {a : α} (h : on x s = (.ok a, s')) : on (x >>= f) s = on (f a) s' := by
  rw [on_bind, h]

theorem on_bind_error {e : ε} (h : on x s = (.error e, s')) :
    on (x >>= f) s = (.error e, s') := by
  rw [on_bind, h]

/-- A program that works is done step by step. -/
theorem on_bind_eq_ok {b : β} : on (x >>= f) s = (.ok b, s') ↔
    ∃ a s₁, on x s = (.ok a, s₁) ∧ on (f a) s₁ = (.ok b, s') := by
  rw [on_bind]
  constructor
  · intro h
    cases hx : on x s with
    | mk r s₁ =>
    rw [hx] at h
    cases r with
    | error e => cases h
    | ok a => exact ⟨a, s₁, rfl, h⟩
  · rintro ⟨a, s₁, hx, h⟩
    rw [hx]
    exact h

/-- A program that fails does so in one of its steps. -/
theorem on_bind_eq_error {e : ε} : on (x >>= f) s = (.error e, s') ↔
    on x s = (.error e, s') ∨ ∃ a s₁, on x s = (.ok a, s₁) ∧ on (f a) s₁ = (.error e, s') := by
  rw [on_bind]
  cases on x s with
  | mk r s₁ => cases r <;> simp

@[simp] theorem on_attempt (x : Work σ ε α) (s : σ) :
    on (attempt x : Work σ ε' _) s = (.ok (on x s).1, (on x s).2) := rfl

theorem on_attempt_eq_ok {r : Except ε α} :
    on (attempt x : Work σ ε' _) s = (.ok r, s') ↔ on x s = (r, s') := by
  simp [Prod.ext_iff]

/-- After a step that is attempted the program goes on, whichever way the step ended. -/
theorem on_bind_attempt_eq {g : Except ε α → Work σ ε' β} {r : Except ε' β} :
    on (attempt x >>= g) s = (r, s') ↔ ∃ a s₁, on x s = (a, s₁) ∧ on (g a) s₁ = (r, s') := by
  rw [on_bind, on_attempt]
  constructor
  · exact fun h => ⟨_, _, rfl, h⟩
  · rintro ⟨a, s₁, hx, h⟩
    rw [hx]
    exact h

theorem on_settled (r : Except ε α) (s : σ) :
    on (ExceptT.mk (pure r) : Work σ ε α) s = (r, s) := rfl

@[simp] theorem on_adapt (f : ε → ε') (x : Work σ ε α) (s : σ) :
    on (ExceptT.adapt f x) s = ((on x s).1.mapError f, (on x s).2) := rfl

theorem on_adapt_eq_ok {f : ε → ε'} {a : α} :
    on (ExceptT.adapt f x) s = (.ok a, s') ↔ on x s = (.ok a, s') := by
  rw [on_adapt, Prod.ext_iff, Prod.ext_iff, Outcome.mapError_eq_ok]

theorem on_adapt_eq_error {f : ε → ε'} {e : ε'} :
    on (ExceptT.adapt f x) s = (.error e, s') ↔ ∃ e', on x s = (.error e', s') ∧ f e' = e := by
  simp only [on_adapt, Prod.ext_iff, Outcome.mapError_eq_error]
  constructor
  · rintro ⟨⟨e', he, hf⟩, hd⟩
    exact ⟨e', ⟨he, hd⟩, hf⟩
  · rintro ⟨e', ⟨he, hd⟩, hf⟩
    exact ⟨⟨e', he, hf⟩, hd⟩

@[simp] theorem on_map (f : α → β) (x : Work σ ε α) (s : σ) :
    on (f <$> x) s = ((on x s).1.map f, (on x s).2) := by
  have hm : f <$> x = x >>= fun a => pure (f a) := map_eq_pure_bind f x
  rw [hm, on_bind]
  cases on x s with
  | mk r s' => cases r <;> rfl

theorem on_map_eq_ok {f : α → β} {b : β} :
    on (f <$> x) s = (.ok b, s') ↔ ∃ a, on x s = (.ok a, s') ∧ f a = b := by
  rw [on_map]
  cases on x s with
  | mk r s₁ => cases r <;> simp [Except.map, and_comm]

end Runs

/-- How a change of a disk ends, and the disk then: a change that fails is none. -/
def settled (d : Disk) : Except Fault Disk → Except Fault Unit × Disk
  | .ok d' => (.ok (), d')
  | .error e => (.error e, d)

theorem on_change (f : Disk → Except Fault Disk) (d : Disk) :
    on (change f) d = settled d (f d) := by
  simp only [on, change, ExceptT.run, StateT.run, ExceptT.mk]
  cases f d <;> rfl

theorem settled_eq_ok {d d' : Disk} {r : Except Fault Disk} {u : Unit} :
    settled d r = (.ok u, d') ↔ r = .ok d' := by
  cases r <;> simp [settled]

theorem settled_eq_error {d d' : Disk} {r : Except Fault Disk} {e : Fault} :
    settled d r = (.error e, d') ↔ r = .error e ∧ d' = d := by
  cases r <;> simp [settled, eq_comm]

theorem on_makeDirectory (p : Path) (d : Disk) :
    on (FileStore.makeDirectory p : Program Fault Unit) d = settled d (d.makeDirectory p) :=
  on_change _ d

theorem on_write (p : Path) (bytes : ByteArray) (d : Disk) :
    on (FileStore.write p bytes : Program Fault Unit) d = settled d (d.write p bytes) :=
  on_change _ d

theorem on_rename (source target : Path) (d : Disk) :
    on (FileStore.rename source target : Program Fault Unit) d =
      settled d (d.rename source target) := on_change _ d

theorem on_removeFile (p : Path) (d : Disk) :
    on (FileStore.removeFile p : Program Fault Unit) d = settled d (d.removeFile p) :=
  on_change _ d

theorem on_removeTree (p : Path) (d : Disk) :
    on (FileStore.removeTree p : Program Fault Unit) d = d.removeTree p := rfl

/-! ## States that carry a disk -/

/-- A state that carries a disk, and the faults with which the system is going to refuse changes
that the disk would allow, the next one first. -/
class Carrier (σ : Type) where
  disk : σ → Disk
  refusals : σ → List Fault

open Carrier

/-- A change ends as it does on a disk, or it is refused and leaves a disk that has `partly`. -/
def Obeys {σ : Type} [Carrier σ] (done : Except Fault Unit × Disk) (partly : Disk → Prop) (s : σ)
    (o : Except Fault Unit × σ) : Prop :=
  refusals o.2 = refusals s ∧ (o.1, disk o.2) = done ∨
    ∃ e, refusals s = e :: refusals o.2 ∧ o.1 = .error e ∧ partly (disk o.2)

/-- A directory may have lost some of what it holds. -/
def Thins (p : Path) (d d' : Disk) : Prop :=
  d' = d ∨ ∃ t es es', d.held false p = .ok (t, .directory es) ∧ d' = d.put t (.directory es') ∧
    ∀ r, (Tree.directory es').node? r = (Tree.directory es).node? r ∨
      (Tree.directory es').node? r = none

/-- Questions are answered from the disk. A change is done to it or refused; a file that is written
may then hold a first part of its bytes, and a tree that is removed may have lost some of its
entries. -/
class LawfulCarrier (σ : Type) [FileStore (StateM σ)] [Carrier σ] : Prop where
  kind (p : Path) (s : σ) : on (FileView.kind p : Work σ Fault Kind) s = ((disk s).kind p, s)
  contents (p : Path) (s : σ) :
    on (FileView.contents p : Work σ Fault ByteArray) s = ((disk s).contents p, s)
  place (p : Path) (s : σ) : on (FileView.place p : Work σ Fault Path) s = ((disk s).place p, s)
  canonical (p : Path) (s : σ) :
    on (FileView.canonical p : Work σ Fault Path) s = ((disk s).canonical p, s)
  listing (p : Path) (s : σ) :
    on (FileView.listing p : Work σ Fault (List (String × Kind))) s = ((disk s).listing p, s)
  makeDirectory (p : Path) (s : σ) : Obeys (settled (disk s) ((disk s).makeDirectory p))
    (· = disk s) s (on (FileStore.makeDirectory p : Work σ Fault Unit) s)
  write (p : Path) (bytes : ByteArray) (s : σ) : Obeys (settled (disk s) ((disk s).write p bytes))
    (fun d => d = disk s ∨ ∃ n, (disk s).write p (bytes.extract 0 n) = .ok d) s
    (on (FileStore.write p bytes : Work σ Fault Unit) s)
  rename (source target : Path) (s : σ) : Obeys (settled (disk s) ((disk s).rename source target))
    (· = disk s) s (on (FileStore.rename source target : Work σ Fault Unit) s)
  removeFile (p : Path) (s : σ) : Obeys (settled (disk s) ((disk s).removeFile p))
    (· = disk s) s (on (FileStore.removeFile p : Work σ Fault Unit) s)
  removeTree (p : Path) (s : σ) : Obeys ((disk s).removeTree p) (Thins p (disk s)) s
    (on (FileStore.removeTree p : Work σ Fault Unit) s)

/-- On a disk alone nothing is refused. -/
instance : Carrier Disk where
  disk d := d
  refusals _ := []

instance : LawfulCarrier Disk where
  kind _ _ := rfl
  contents _ _ := rfl
  place _ _ := rfl
  canonical _ _ := rfl
  listing _ _ := rfl
  makeDirectory p d := Or.inl ⟨rfl, on_makeDirectory p d⟩
  write p bytes d := Or.inl ⟨rfl, on_write p bytes d⟩
  rename source target d := Or.inl ⟨rfl, on_rename source target d⟩
  removeFile p d := Or.inl ⟨rfl, on_removeFile p d⟩
  removeTree p d := Or.inl ⟨rfl, on_removeTree p d⟩

section Carried
variable {σ ε ε' α β : Type} [Carrier σ] {x : Work σ ε α}
  {f : α → Work σ ε β} {s s' s'' : σ} {I : Disk → Prop} {R : α → Prop} {R' : β → Prop}

/-- Some change was refused on the way from `s` to `s'`. -/
def Struck (s s' : σ) : Prop := (refusals s').length < (refusals s).length

theorem struck_of_cons {e : Fault} (h : refusals s = e :: refusals s') : Struck s s' := by
  rw [Struck, h]
  exact Nat.lt_succ_self _

theorem Struck.since (h : Struck s' s'') (hl : refusals s' <:+ refusals s) : Struck s s'' :=
  Nat.lt_of_lt_of_le h hl.length_le

theorem Struck.until (h : Struck s s') (hl : refusals s'' <:+ refusals s') : Struck s s'' :=
  Nat.lt_of_le_of_lt hl.length_le h

@[simp] theorem disk_self (d : Disk) : disk d = d := rfl

theorem not_refused (e : Fault) (d : Disk) : e ∉ refusals d := List.not_mem_nil

theorem not_struck (d d' : Disk) : ¬ Struck d d' := Nat.lt_irrefl 0

theorem Obeys.later {done : Except Fault Unit × Disk} {partly : Disk → Prop}
    {o : Except Fault Unit × σ} (h : Obeys done partly s o) : refusals o.2 <:+ refusals s := by
  rcases h with ⟨he, -⟩ | ⟨e, he, -⟩
  · exact he ▸ List.suffix_refl _
  · exact he ▸ List.suffix_cons _ _

theorem Obeys.imp {done : Except Fault Unit × Disk} {partly partly' : Disk → Prop}
    {o : Except Fault Unit × σ} (h : Obeys done partly s o) (hp : ∀ d, partly d → partly' d) :
    Obeys done partly' s o := by
  rcases h with hdone | ⟨e, hcons, he, hd⟩
  · exact Or.inl hdone
  · exact Or.inr ⟨e, hcons, he, hp _ hd⟩

/-- A change that is done as a whole or not at all: it works, or it fails since the disk does not
allow it or since it is refused. -/
def Whole (out : Except Fault Disk) (s : σ) (r : Except Fault Unit) (s' : σ) : Prop :=
  refusals s' <:+ refusals s ∧ (r = .ok () ∧ out = .ok (disk s') ∨
    ∃ e, r = .error e ∧ disk s' = disk s ∧ (out = .error e ∨ Struck s s' ∧ e ∈ refusals s))

theorem Obeys.whole {out : Except Fault Disk} {r : Except Fault Unit}
    {o : Except Fault Unit × σ} (h : Obeys (settled (disk s) out) (· = disk s) s o)
    (ho : o = (r, s')) : Whole out s r s' := by
  subst ho
  refine ⟨h.later, ?_⟩
  rcases h with ⟨-, he⟩ | ⟨e, hcons, rfl, hdisk⟩
  · cases out with
    | ok d =>
      obtain ⟨rfl, rfl⟩ := Prod.mk.inj he
      exact Or.inl ⟨rfl, rfl⟩
    | error e =>
      obtain ⟨rfl, hdisk⟩ := Prod.mk.inj he
      exact Or.inr ⟨e, rfl, hdisk, Or.inl rfl⟩
  · have hmem : e ∈ refusals s := hcons ▸ List.mem_cons_self ..
    exact Or.inr ⟨e, rfl, hdisk, Or.inr ⟨struck_of_cons hcons, hmem⟩⟩

/-! ## What a program keeps -/

/-- From states whose disk `I` holds of a program leads to such states, and what it gives has `R`.
-/
def Keeps (I : Disk → Prop) (R : α → Prop) (x : Work σ ε α) : Prop :=
  ∀ s, I (disk s) → I (disk (on x s).2) ∧ (∀ a, (on x s).1 = .ok a → R a) ∧
    refusals (on x s).2 <:+ refusals s

/-- The values about which nothing is said. -/
def Any (_ : α) : Prop := True

theorem Keeps.run {r : Except ε α} (h : Keeps I R x) (hs : I (disk s)) (hr : on x s = (r, s')) :
    I (disk s') ∧ (∀ a, r = .ok a → R a) ∧ refusals s' <:+ refusals s := by
  have hrun := h s hs
  rwa [hr] at hrun

theorem keeps_pure {a : α} (h : R a) : Keeps I R (pure a : Work σ ε α) := by
  intro s hs
  refine ⟨hs, fun b hb => ?_, List.suffix_refl _⟩
  cases hb
  exact h

theorem keeps_throw (e : ε) : Keeps I R (throw e : Work σ ε α) := by
  intro s hs
  refine ⟨hs, fun b hb => ?_, List.suffix_refl _⟩
  cases hb

theorem keeps_settled {r : Except ε α} (h : ∀ a, r = .ok a → R a) :
    Keeps I R (ExceptT.mk (pure r) : Work σ ε α) := fun _ hs => ⟨hs, h, List.suffix_refl _⟩

theorem keeps_bind (hx : Keeps I R x) (hf : ∀ a, R a → Keeps I R' (f a)) :
    Keeps I R' (x >>= f) := by
  intro s hs
  cases h : on x s with
  | mk r s' =>
  obtain ⟨hi, hr, hl⟩ := hx.run hs h
  cases r with
  | ok a =>
    rw [on_bind_ok h]
    obtain ⟨hi', hr', hl'⟩ := hf a (hr a rfl) s' hi
    exact ⟨hi', hr', hl'.trans hl⟩
  | error e =>
    rw [on_bind_error h]
    exact ⟨hi, fun b hb => (by cases hb), hl⟩

/-- Two ways to start, and one way to go on. -/
theorem keeps_ite_bind {c : Prop} [Decidable c] {y : Work σ ε α} (hx : Keeps I R x)
    (hy : Keeps I R y) (hf : ∀ a, R a → Keeps I R' (f a)) :
    Keeps I R' (if c then x >>= f else y >>= f) := by
  split
  · exact keeps_bind hx hf
  · exact keeps_bind hy hf

theorem keeps_attempt (hx : Keeps I R x) :
    Keeps I (fun r => ∀ a, r = .ok a → R a) (attempt x : Work σ ε' (Except ε α)) := by
  intro s hs
  obtain ⟨hi, hr, hl⟩ := hx s hs
  refine ⟨hi, fun r he a ha => ?_, hl⟩
  cases he
  exact hr a ha

theorem keeps_adapt {g : ε → ε'} (hx : Keeps I R x) : Keeps I R (ExceptT.adapt g x) := by
  intro s hs
  obtain ⟨hi, hr, hl⟩ := hx s hs
  exact ⟨hi, fun a ha => hr a (Outcome.mapError_eq_ok.1 ha), hl⟩

theorem keeps_map {g : α → β} (hx : Keeps I R x) : Keeps I Any (g <$> x) := by
  intro s hs
  obtain ⟨hi, -, hl⟩ := hx s hs
  rw [on_map]
  exact ⟨hi, fun _ _ => trivial, hl⟩

/-- A question leaves the state as it is. -/
theorem keeps_asked {x : Work σ Fault α} {g : Disk → Except Fault α}
    (hx : ∀ s, on x s = (g (disk s), s)) (h : ∀ d a, I d → g d = .ok a → R a) : Keeps I R x := by
  intro s hs
  rw [hx]
  exact ⟨hs, fun a ha => h _ a hs ha, List.suffix_refl _⟩

/-- A change keeps what it keeps when it is done and what it keeps when it is refused half way. -/
theorem keeps_obeyed {x : Work σ Fault Unit} (done : Disk → Except Fault Unit × Disk)
    (partly : Disk → Disk → Prop) (hx : ∀ s, Obeys (done (disk s)) (partly (disk s)) s (on x s))
    (hd : ∀ d, I d → I (done d).2) (hp : ∀ d d', I d → partly d d' → I d') : Keeps I Any x := by
  intro s hs
  refine ⟨?_, fun _ _ => trivial, (hx s).later⟩
  rcases hx s with ⟨-, he⟩ | ⟨e, -, -, he⟩
  · rw [show disk (on x s).2 = (done (disk s)).2 from congrArg Prod.snd he]
    exact hd _ hs
  · exact hp _ _ hs he

theorem settled_keeps {g : Disk → Except Fault Disk} (h : ∀ d d', I d → g d = .ok d' → I d')
    (d : Disk) (hd : I d) : I (settled d (g d)).2 := by
  cases hg : g d with
  | ok d' => exact h d d' hd hg
  | error e => exact hd

/-- A change that is done as a whole or not at all. -/
theorem keeps_changed {x : Work σ Fault Unit} {g : Disk → Except Fault Disk}
    (hx : ∀ s, Obeys (settled (disk s) (g (disk s))) (· = disk s) s (on x s))
    (h : ∀ d d', I d → g d = .ok d' → I d') : Keeps I Any x :=
  keeps_obeyed (fun d => settled d (g d)) (fun d d' => d' = d) hx (settled_keeps h)
    fun _ _ hd he => he ▸ hd

variable [FileStore (StateM σ)] [LawfulCarrier σ]

@[simp] theorem on_isDirectory (p : Path) (s : σ) :
    on (liftM (isDirectory p : StateM σ Bool) : Work σ Fault Bool) s =
      (.ok (decide ((disk s).kind p = .ok .directory)), s) := by
  have hkind : (FileView.kind p : ExceptT Fault (StateM σ) Kind).run s = ((disk s).kind p, s) :=
    LawfulCarrier.kind p s
  have h : (isDirectory p : StateM σ Bool) s =
      (decide ((disk s).kind p = .ok .directory), s) := by
    simp only [isDirectory, bind, StateT.bind, hkind]
    cases (disk s).kind p with
    | error e => rfl
    | ok k => cases k <;> rfl
  change (Except.ok ((isDirectory p : StateM σ Bool) s).1,
    ((isDirectory p : StateM σ Bool) s).2) = _
  rw [h]

theorem makeDirectory_run {p : Path} {r : Except Fault Unit}
    (h : on (FileStore.makeDirectory p : Work σ Fault Unit) s = (r, s')) :
    Whole ((disk s).makeDirectory p) s r s' := (LawfulCarrier.makeDirectory p s).whole h

theorem rename_run {source target : Path} {r : Except Fault Unit}
    (h : on (FileStore.rename source target : Work σ Fault Unit) s = (r, s')) :
    Whole ((disk s).rename source target) s r s' := (LawfulCarrier.rename source target s).whole h

theorem removeFile_run {p : Path} {r : Except Fault Unit}
    (h : on (FileStore.removeFile p : Work σ Fault Unit) s = (r, s')) :
    Whole ((disk s).removeFile p) s r s' := (LawfulCarrier.removeFile p s).whole h

/-- A file is written, or it is not since the disk does not allow it, or it is refused and may hold
a first part of the bytes. -/
theorem write_run {p : Path} {bytes : ByteArray} {r : Except Fault Unit}
    (h : on (FileStore.write p bytes : Work σ Fault Unit) s = (r, s')) :
    r = .ok () ∧ (disk s).write p bytes = .ok (disk s') ∨
      ∃ e, r = .error e ∧ ((disk s).write p bytes = .error e ∧ disk s' = disk s ∨ Struck s s' ∧
        (disk s' = disk s ∨ ∃ n, (disk s).write p (bytes.extract 0 n) = .ok (disk s'))) := by
  have hlaw := LawfulCarrier.write p bytes s
  rw [h] at hlaw
  rcases hlaw with ⟨-, he⟩ | ⟨e, hcons, rfl, hpart⟩
  · cases hw : (disk s).write p bytes with
    | ok d =>
      rw [hw] at he
      obtain ⟨rfl, rfl⟩ := Prod.mk.inj he
      exact Or.inl ⟨rfl, rfl⟩
    | error e =>
      rw [hw] at he
      obtain ⟨rfl, hdisk⟩ := Prod.mk.inj he
      exact Or.inr ⟨e, rfl, Or.inl ⟨rfl, hdisk⟩⟩
  · exact Or.inr ⟨e, rfl, Or.inr ⟨struck_of_cons hcons, hpart⟩⟩

theorem removeTree_run {p : Path} {r : Except Fault Unit}
    (h : on (FileStore.removeTree p : Work σ Fault Unit) s = (r, s')) :
    (disk s).removeTree p = (r, disk s') ∨
      ∃ e ∈ refusals s, r = .error e ∧ Struck s s' ∧ Thins p (disk s) (disk s') := by
  have hlaw := LawfulCarrier.removeTree p s
  rw [h] at hlaw
  rcases hlaw with ⟨-, he⟩ | ⟨e, hcons, rfl, hpart⟩
  · exact Or.inl he.symm
  · exact Or.inr ⟨e, hcons ▸ List.mem_cons_self .., rfl, struck_of_cons hcons, hpart⟩

theorem keeps_makeDirectory_of {p : Path} (h : ∀ d d', I d → d.makeDirectory p = .ok d' → I d') :
    Keeps I Any (FileStore.makeDirectory p : Work σ Fault Unit) :=
  keeps_changed (g := (·.makeDirectory p)) (LawfulCarrier.makeDirectory p) h

theorem keeps_rename_of {source target : Path}
    (h : ∀ d d', I d → d.rename source target = .ok d' → I d') :
    Keeps I Any (FileStore.rename source target : Work σ Fault Unit) :=
  keeps_changed (g := (·.rename source target)) (LawfulCarrier.rename source target) h

theorem keeps_removeFile_of {p : Path} (h : ∀ d d', I d → d.removeFile p = .ok d' → I d') :
    Keeps I Any (FileStore.removeFile p : Work σ Fault Unit) :=
  keeps_changed (g := (·.removeFile p)) (LawfulCarrier.removeFile p) h

/-- What each writing of a file keeps is kept also if it is refused half way. -/
theorem keeps_write_of {p : Path} (h : ∀ bytes d d', I d → d.write p bytes = .ok d' → I d')
    (bytes : ByteArray) : Keeps I Any (FileStore.write p bytes : Work σ Fault Unit) := by
  refine keeps_obeyed (fun d => settled d (d.write p bytes))
    (fun d d' => d' = d ∨ ∃ n, d.write p (bytes.extract 0 n) = .ok d')
    (LawfulCarrier.write p bytes) (settled_keeps (h bytes)) ?_
  rintro d d' hd (rfl | ⟨n, hw⟩)
  · exact hd
  · exact h _ d d' hd hw

theorem keeps_contents (p : Path) :
    Keeps I Any (FileView.contents p : Work σ Fault ByteArray) :=
  keeps_asked (g := (·.contents p)) (LawfulCarrier.contents p) fun _ _ _ _ => trivial

theorem keeps_kind (p : Path) : Keeps I Any (FileView.kind p : Work σ Fault Kind) :=
  keeps_asked (g := (·.kind p)) (LawfulCarrier.kind p) fun _ _ _ _ => trivial

theorem keeps_place (p : Path) : Keeps I Any (FileView.place p : Work σ Fault Path) :=
  keeps_asked (g := (·.place p)) (LawfulCarrier.place p) fun _ _ _ _ => trivial

/-- Whatever a program is, there is less to be refused after it. -/
abbrev Wanes (x : Work σ ε α) : Prop := Keeps (fun _ => True) Any x

theorem keeps_listing_of {p : Path} {R : List (String × Kind) → Prop}
    (h : ∀ d es, I d → d.listing p = .ok es → R es) :
    Keeps I R (FileView.listing p : Work σ Fault (List (String × Kind))) :=
  keeps_asked (g := (·.listing p)) (LawfulCarrier.listing p) h

theorem keeps_removeTree_of {p : Path} (hd : ∀ d, I d → I (d.removeTree p).2)
    (hp : ∀ d d', I d → Thins p d d' → I d') :
    Keeps I Any (FileStore.removeTree p : Work σ Fault Unit) :=
  keeps_obeyed (·.removeTree p) (Thins p) (LawfulCarrier.removeTree p) hd hp

end Carried

end Vendoring.Files
