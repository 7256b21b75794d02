import Vendoring.Files.Copy
import Vendoring.Files.Replace
import Vendoring.Proofs.Files.Program
import Vendoring.Proofs.Files.Region

/-! Copies and replacements whose targets are in a region stay in it. -/
namespace Vendoring.Files
open Disk Outcome Carrier

variable {σ : Type} [FileStore (StateM σ)] [Carrier σ] [LawfulCarrier σ] {b : Disk} {q : Trail}
  {p source target : Path} {rest rest' : List String}

theorem node?_file (bytes : ByteArray) {r : Trail} {k : Node}
    (h : (Tree.file bytes).node? r = some k) : r = [] ∧ k = .file bytes := by
  cases r with
  | nil => cases h; exact ⟨rfl, rfl⟩
  | cons _ _ => cases h

theorem node?_empty {r : Trail} {k : Node}
    (h : (Tree.directory []).node? r = some k) : r = [] ∧ k = .directory := by
  cases r with
  | nil => cases h; exact ⟨rfl, rfl⟩
  | cons _ _ => cases h

theorem makeDirectory_of_leads_ne {d d' : Disk} {S : Set Trail} (h : Leads d S p q) :
    d.makeDirectory p ≠ .ok d' := by
  intro hm
  obtain ⟨s, hs⟩ := makeDirectory_slot hm
  rw [makeDirectory_of_leads h (stands_of_slot? hs).proper] at hm
  cases hm

theorem keeps_makeDirectory (hp : Inside b q p rest) (hr : rest ≠ []) :
    Keeps (Region b q) Any (FileStore.makeDirectory p : Work σ Fault Unit) := by
  refine keeps_makeDirectory_of fun d d' h hm => ?_
  obtain ⟨s, hs⟩ := makeDirectory_slot hm
  obtain ⟨u, he⟩ := hp.slot_within hr h hs
  obtain ⟨-, -, hset⟩ := add_sets hs hm
  refine h.sets he hset fun r k hk => ?_
  obtain ⟨rfl, rfl⟩ := node?_empty hk
  exact ⟨fun _ => by simp, by simp⟩

theorem keeps_write (hp : Inside b q p rest) (bytes : ByteArray) :
    Keeps (Region b q) Any (FileStore.write p bytes : Work σ Fault Unit) := by
  refine keeps_write_of (fun bytes d d' h hw => ?_) bytes
  have hfile (r : Trail) (k : Node) (hk : (Tree.file bytes).node? r = some k) :
      (∀ target, k ≠ .link target) ∧ ∀ name ∈ r, ProperName name := by
    obtain ⟨rfl, rfl⟩ := node?_file bytes hk
    exact ⟨fun _ => by simp, by simp⟩
  rcases write_place hw with ⟨t, old, hf, hset⟩ | ⟨t, name, hf, hset⟩
  · have hqt : q <+: t := hp.find_within h hf
    obtain ⟨⟨⟩, -, hwalk⟩ := bind_eq_ok.1 hf
    have hnode : d.node? t = some (.file old) := node?_of_get? (walk_ends hwalk)
    have hdir := h.dir hp.dir
    obtain ⟨r, rfl⟩ := hqt
    rcases List.eq_nil_or_concat r with rfl | ⟨u, name, rfl⟩
    · rw [List.append_nil, hdir] at hnode
      cases hnode
    · have hnames := h.tidy _ (by rw [hnode]; simp)
      rw [List.concat_eq_append, ← List.append_assoc] at hset hnode
      have hs : Sets d d' (Slot.trail ⟨q ++ u, name, false⟩) (Tree.file bytes).node? := hset
      exact h.sets ⟨rfl, node?_of_append hnode, hnames name (by simp)⟩ hs hfile
  · obtain ⟨⟨u, hu⟩, hm, hn, hn'⟩ := hp.find_within h hf
    obtain ⟨⟨⟩, -, hwalk⟩ := bind_eq_ok.1 hf
    have hs : Sets d d' (Slot.trail ⟨t, name, false⟩) (Tree.file bytes).node? := hset
    exact h.sets ⟨hu.symm, (walk_ends hwalk).1, proper_of_mem_steps hm ⟨hn, hn'⟩⟩ hs hfile

theorem keeps_rename (hs : Inside b q source rest) (hr : rest ≠ [])
    (ht : Inside b q target rest') (hr' : rest' ≠ []) :
    Keeps (Region b q) Any (FileStore.rename source target : Work σ Fault Unit) := by
  refine keeps_rename_of fun d d' h hm => ?_
  obtain ⟨a, c, ha, hc, hm⟩ := rename_slots hm
  by_cases he : a.trail = c.trail
  · rwa [move_self hm he]
  · have hd := (stands_of_slot? hc).dir
    obtain ⟨v, hv⟩ := hs.slot_within hr h ha
    obtain ⟨u, hu⟩ := ht.slot_within hr' h hc
    exact h.moved hv.parent hu (move_moved hm he hd).1

theorem keeps_removeFile (hp : Inside b q p rest) (hr : rest ≠ []) :
    Keeps (Region b q) Any (FileStore.removeFile p : Work σ Fault Unit) := by
  refine keeps_removeFile_of fun d d' h hm => ?_
  obtain ⟨s, hs⟩ := removeFile_slot hm
  obtain ⟨-, -, -, -, hset⟩ := removeFile_sets hs hm
  obtain ⟨u, he⟩ := hp.slot_within hr h hs
  exact h.removed (he.parent ▸ List.prefix_append q u) hset

theorem keeps_isDirectory {I : Disk → Prop} (p : Path) :
    Keeps I Any (liftM (isDirectory p : StateM σ Bool) : Work σ Fault Bool) := by
  intro d hd
  rw [on_isDirectory]
  exact ⟨hd, fun _ _ => trivial, List.suffix_refl _⟩

theorem keeps_makeFirst {I : Disk → Prop} {ps : List Path}
    (h : ∀ p ∈ ps, p.text ≠ "" →
      Keeps I Any (FileStore.makeDirectory p : Work σ Fault Unit)) :
    Keeps I Any (makeFirst ps : Work σ Fault Unit) := by
  induction ps with
  | nil => exact keeps_pure trivial
  | cons p parents ih =>
    have hcheck (e : Fault) : Keeps I Any (do
        if ← (isDirectory p : StateM σ Bool) then pure () else throw e :
        Work σ Fault Unit) := by
      refine keeps_bind (keeps_isDirectory p) fun found _ => ?_
      split
      · exact keeps_pure trivial
      · exact keeps_throw e
    rw [makeFirst]
    split
    · exact keeps_pure trivial
    next hne =>
    have hmake := h p (List.mem_cons_self ..) fun ht => hne (Or.inl ht)
    refine keeps_bind (keeps_attempt hmake) fun r _ => ?_
    split
    · exact keeps_pure trivial
    · refine keeps_bind (ih fun p' hp' => h p' (List.mem_cons_of_mem _ hp')) fun _ _ => ?_
      refine keeps_bind (keeps_attempt hmake) fun r _ => ?_
      split
      · exact keeps_pure trivial
      · exact hcheck _
    · exact hcheck _

theorem keeps_makeDirectories (hp : Inside b q p rest) :
    Keeps (Region b q) Any (makeDirectories p : Work σ Fault Unit) := by
  refine keeps_makeFirst fun a ha _ => ?_
  rcases hp.ancestor ha with ⟨t, hl⟩ | ⟨rest', hr, hin⟩
  · exact keeps_makeDirectory_of fun d d' h hm =>
      absurd hm (makeDirectory_of_leads_ne (hl.agree h.agree))
  · exact keeps_makeDirectory hin hr

theorem keeps_copyFile (hp : Inside b q target rest) :
    Keeps (Region b q) Any (copyFile source target : Work σ Fault Unit) := by
  refine keeps_bind (keeps_contents source) fun _ _ => ?_
  refine keeps_bind (keeps_write hp _) fun _ _ => ?_
  exact keeps_bind (keeps_contents source) fun bytes _ => keeps_write hp bytes

theorem names_of_listing {d : Disk} {es : List (String × Kind)} (h : d.Proper)
    (hl : d.listing p = .ok es) : ∀ e ∈ es, ProperName e.1 := by
  obtain ⟨⟨t, x⟩, hheld, hl⟩ := bind_eq_ok.1 hl
  obtain ⟨spot, hf, hheld⟩ := bind_eq_ok.1 hheld
  obtain ⟨⟨⟩, -, hw⟩ := bind_eq_ok.1 hf
  have hends := walk_ends hw
  cases spot with
  | free _ _ => cases hheld
  | held t' x' =>
    cases hheld
    cases x with
    | file _ => cases hl
    | link _ => cases hl
    | directory entries =>
      cases hl
      intro e he
      obtain ⟨e', he', rfl⟩ := List.mem_map.1 he
      have hk : (Keyed.get? entries e'.1).isSome = true :=
        Keyed.mem_keys_iff.1 (List.mem_map_of_mem he')
      have hn : d.node? (t ++ [e'.1]) ≠ none := by
        rw [node?_concat hends, Ne, Option.map_eq_none_iff]
        exact Option.isSome_iff_ne_none.1 hk
      exact h _ hn _ (by simp)

variable {source target : Path} {entries : List (String × Kind)} {skipped : List String}
  {above : List Above}

theorem keeps_sortedListing (hb : b.Proper) (p : Path) :
    Keeps (Region b q) (fun es => ∀ e ∈ es, ProperName e.1)
      (sortedListing p : Work σ Fault (List (String × Kind))) := by
  have hlist : Keeps (Region b q) (fun es => ∀ e ∈ es, ProperName e.1)
      (visiting p (FileView.listing p) : Work σ Fault (List (String × Kind))) :=
    keeps_adapt (keeps_listing_of fun d es h hl => names_of_listing (h.proper hb) hl)
  exact keeps_bind hlist fun es hes => keeps_pure fun e he =>
    hes e ((Text.sortByName_perm _ es).mem_iff.1 he)

theorem keeps_follow {I : Disk → Prop} (above : List Above) (p : Path) :
    Keeps I Any (follow above p : Work σ Fault Kind) := by
  refine keeps_bind (keeps_adapt (keeps_kind p)) fun kind _ => ?_
  split
  · refine keeps_bind (keeps_place p) fun place _ => ?_
    split
    · exact keeps_throw _
    · exact keeps_pure trivial
  · exact keeps_pure trivial

theorem keeps_enter {I : Disk → Prop} (above : List Above) (p : Path) :
    Keeps I Any (enter above p : Work σ Fault (List Above)) :=
  keeps_bind (keeps_place p) fun _ _ => keeps_pure trivial

variable {descend : List Above → Path → Path → List (String × Kind) → Work σ Fault Nat}

theorem keeps_copyEntry {entry : String × Kind} (hb : b.Proper) (hp : Inside b q target rest)
    (hd : ∀ above source target rest entries, Inside b q target rest →
      (∀ e ∈ entries, ProperName e.1) →
        Keeps (Region b q) Any (descend above source target entries))
    (hn : ProperName entry.1) :
    Keeps (Region b q) Any
      (copyEntry skipped descend above source target entry : Work σ Fault Nat) := by
  have hto := hp.child hn
  refine keeps_ite_bind (keeps_follow above _) (keeps_pure trivial) fun kind _ => ?_
  dsimp only
  split
  · split
    · exact keeps_pure trivial
    · refine keeps_bind (keeps_attempt (keeps_sortedListing hb _)) fun listed hlisted => ?_
      refine keeps_bind (keeps_makeDirectories hto) fun _ _ => ?_
      refine keeps_bind (keeps_settled hlisted) fun found hfound => ?_
      exact keeps_bind (keeps_enter above _) fun above' _ => hd _ _ _ _ _ hto hfound
  · exact keeps_bind (keeps_copyFile hto) fun _ _ => keeps_pure trivial

theorem keeps_copyEach (hb : b.Proper) (hp : Inside b q target rest)
    (hd : ∀ above source target rest entries, Inside b q target rest →
      (∀ e ∈ entries, ProperName e.1) →
        Keeps (Region b q) Any (descend above source target entries))
    (hn : ∀ e ∈ entries, ProperName e.1) :
    Keeps (Region b q) Any
      (copyEach skipped descend above source target entries : Work σ Fault Nat) := by
  induction entries with
  | nil => exact keeps_pure trivial
  | cons e entries ih =>
    refine keeps_bind (keeps_copyEntry hb hp hd (hn e (List.mem_cons_self ..))) fun _ _ => ?_
    refine keeps_bind (ih fun e he => hn e (List.mem_cons_of_mem _ he)) fun _ _ => ?_
    exact keeps_pure trivial

theorem keeps_copyEntries {depth : Nat} (hb : b.Proper) (hp : Inside b q target rest)
    (hn : ∀ e ∈ entries, ProperName e.1) :
    Keeps (Region b q) Any
      (copyEntries skipped depth above source target entries : Work σ Fault Nat) := by
  induction depth generalizing source target above entries rest with
  | zero => exact keeps_copyEach hb hp (fun _ _ _ _ _ _ _ => keeps_throw _) hn
  | succ depth ih => exact keeps_copyEach hb hp (fun _ _ _ _ _ hp hn => ih hp hn) hn

theorem keeps_copyTree (hb : b.Proper) (hp : Inside b q target rest) :
    Keeps (Region b q) Any (copyTree skipped source target : Work σ Fault Nat) := by
  refine keeps_bind (keeps_makeDirectories hp) fun _ _ => ?_
  refine keeps_bind (keeps_adapt (keeps_kind source)) fun kind _ => ?_
  split
  · refine keeps_bind (keeps_enter [] source) fun above _ => ?_
    refine keeps_bind (keeps_sortedListing hb source) fun entries hn => ?_
    exact keeps_copyEntries hb hp hn
  · exact keeps_pure trivial

/-- The name under which the new contents of a file are written first. -/
def Scratch.tempName (scratch : Scratch) (p : Path) : String :=
  "." ++ p.fileName?.getD "file" ++ ".tmp." ++ scratch.tag

theorem Scratch.head?_tempName (scratch : Scratch) (p : Path) :
    (scratch.tempName p).toList.head? = some '.' := by simp [tempName]

/-- A name that starts with a dot is none that does not. -/
theorem ne_of_dot {name other : String} (h : name.toList.head? = some '.')
    (ho : other.toList.head? ≠ some '.') : name ≠ other := by
  rintro rfl
  exact ho h

theorem Scratch.proper_tempName {scratch : Scratch} (ht : '/' ∉ scratch.tag.toList) (p : Path) :
    ProperName (scratch.tempName p) := by
  have hname : '/' ∉ (p.fileName?.getD "file").toList := by
    cases hf : p.fileName? with
    | none => decide
    | some name =>
      obtain ⟨way, hs⟩ := Path.standing_of_fileName? hf
      obtain ⟨m, n, he⟩ := hs.steps
      exact (proper_of_mem_steps (p := p) (by simp [he]) hs.plain).2.1
  have hlong : 6 ≤ (scratch.tempName p).toList.length := by
    simp [tempName]
    omega
  refine ⟨?_, ?_, ?_, ?_⟩
  · rintro he
    simp [he] at hlong
  · simp [tempName, ht, hname]
  · rintro he
    simp [he] at hlong
  · rintro he
    simp [he] at hlong

omit [LawfulCarrier σ] in
theorem keeps_publish_of {I : Disk → Prop} {written : Path}
    (hm : Keeps I Any (FileStore.rename written target : Work σ Fault Unit))
    (hr : Keeps I Any (FileStore.removeFile written : Work σ Fault Unit)) :
    Keeps I Any (publish written target : Work σ Fault Unit) := by
  refine keeps_bind (keeps_attempt hm) fun r _ => ?_
  split
  · exact keeps_pure trivial
  · exact keeps_bind (keeps_attempt hr) fun _ _ => keeps_throw _

omit [LawfulCarrier σ] in
/-- What each step of a replacement keeps is kept by all of it. -/
theorem keeps_replaceFile_of {I : Disk → Prop} {scratch : Scratch} {bytes : ByteArray}
    (hd : Keeps I Any (makeDirectories p.directory : Work σ Fault Unit))
    (hw : Keeps I Any (FileStore.write (scratch.beside p) bytes : Work σ Fault Unit))
    (hm : Keeps I Any (FileStore.rename (scratch.beside p) p : Work σ Fault Unit))
    (hr : Keeps I Any (FileStore.removeFile (scratch.beside p) : Work σ Fault Unit)) :
    Keeps I Any (replaceFile scratch p bytes : Work σ Fault Unit) :=
  keeps_bind hd fun _ _ => keeps_bind hw fun _ _ => keeps_publish_of hm hr

theorem keeps_replaceFile {scratch : Scratch} {way : List String} {name : String}
    (htag : '/' ∉ scratch.tag.toList) (hp : Inside b q p rest) (hs : Path.Standing p way name)
    (hx : ∃ x ∈ rest, x ≠ ".") (bytes : ByteArray) :
    Keeps (Region b q) Any (replaceFile scratch p bytes : Work σ Fault Unit) := by
  obtain ⟨rest', hdir⟩ := hp.directory hs hx
  have htemp := hdir.child (scratch.proper_tempName htag p)
  have hr : rest ≠ [] := by
    obtain ⟨x, hx, -⟩ := hx
    exact List.ne_nil_of_mem hx
  exact keeps_replaceFile_of (keeps_makeDirectories hdir) (keeps_write htemp bytes)
    (keeps_rename htemp (by simp) hp hr) (keeps_removeFile htemp (by simp))

end Vendoring.Files
