import Vendoring.Proofs.Build.Swap

/-! Putting the alias manifest back, whatever the system refuses: what is remembered of it stands in
its place again, or what was written there stays. -/
namespace Vendoring.BuildPlan
open Files Files.Disk Files.Carrier

variable {σ : Type} [FileStore (StateM σ)] [Carrier σ] [LawfulCarrier σ] {v v₁ w w' : σ}
  {scratch : Scratch} {p : Path} {S : Set Trail} {q : Trail} {name : String}
  {d d₁ d₂ : Disk} {previous : Previous} {t u a : Trail} {bytes old : ByteArray}
  {bytes? : Option ByteArray} {L L' L₀ : Trail → Option Node → Prop} {r : Except Fault Unit}

omit [Carrier σ] [LawfulCarrier σ] in
theorem restore_eq (scratch : Scratch) (previous : Previous) (vendored aliasPath : Path) :
    (restore scratch previous vendored aliasPath : Work σ BuildFault Unit) = (do
      let _ ← attempt (restoringAliases scratch previous aliasPath)
      restoringTree previous vendored) := rfl

/-- What is remembered of the file at a path is what can be read there. -/
def Remembered (S : Set Trail) (p : Path) (a : Trail) (d : Disk) (bytes? : Option ByteArray) :
    Prop :=
  ∀ old? : Option ByteArray, Names d S p a → d.node? a = old?.map .file → bytes? = old?

/-- In the place of a link on the disk `d` stands a file with what was read through it, or nothing
if that could not be read. -/
structure Unlinks (S : Set Trail) (p : Path) (bytes? : Option ByteArray) (d : Disk) (t : Trail)
    (k : Option Node) : Prop where
  names : Names d S p t
  link : ∃ target, d.node? t = some (.link target)
  node : k = bytes?.map .file

/-- What is left, besides `L`, of an alias manifest at `a` of the disk `d` that was written and is
put back. What was written stays only if putting it back was refused. -/
inductive Remains (L : Trail → Option Node → Prop) (S : Set Trail) (p : Path) (temp a : Trail)
    (bytes : ByteArray) (bytes? : Option ByteArray) (d : Disk) (w w' : σ) (t : Trail)
    (k : Option Node) : Prop
  | other (h : L t k)
  | draft (old : ByteArray) (hb : bytes? = some old) (h : Scraps w w' temp old t k)
  | stays (hs : Struck w w') (ht : t = a) (hd : d.node? t ≠ some .directory)
      (hk : k = some (.file bytes))
  | unlinked (ht : t = a) (h : Unlinks S p bytes? d t k)

omit [FileStore (StateM σ)] [LawfulCarrier σ] in
theorem Remains.imp_other {k : Option Node} (h : Remains L S p t a bytes bytes? d w w' u k)
    (hL : L u k → L' u k) : Remains L' S p t a bytes bytes? d w w' u k := by
  cases h with
  | other h => exact .other (hL h)
  | draft old hb h => exact .draft old hb h
  | stays hs ht hd hk => exact .stays hs ht hd hk
  | unlinked ht h => exact .unlinked ht h

theorem node?_below_file {r : Trail} (hd : d.node? a ≠ some .directory) (hr : r ≠ []) :
    d.node? (a ++ r) = none := by
  obtain ⟨name, r, rfl⟩ := List.exists_cons_of_ne_nil hr
  cases hn : d.node? (a ++ name :: r) with
  | none => rfl
  | some k => exact absurd (node?_of_append hn) hd

/-- If what is remembered stands in its place again, then nothing else has changed there. -/
theorem leaves_of_contents (hm : Remembered S p a d bytes?) (hnames : Names d S p a)
    (hd : d.node? a ≠ some .directory) (hhere : d₁.here = d.here)
    (hnode : d₁.node? a = bytes?.map .file)
    (hL : ∀ k, Unlinks S p bytes? d a k → L a k)
    (hsame : ∀ u ∉ below a, d₁.node? u = d.node? u ∨ L u (d₁.node? u)) : Leaves L d d₁ := by
  refine ⟨hhere, fun u => ?_⟩
  by_cases ha : a <+: u
  · obtain ⟨r, rfl⟩ := ha
    by_cases hnil : r = []
    · subst hnil
      rw [List.append_nil]
      cases hk : d.node? a with
      | none =>
        refine Or.inl ?_
        rw [hnode, hm none hnames hk]
        rfl
      | some k =>
        cases k with
        | directory => exact absurd hk hd
        | file old =>
          refine Or.inl ?_
          rw [hnode, hm (some old) hnames hk]
          rfl
        | link target => exact Or.inr (hL _ ⟨hnames, ⟨target, hk⟩, hnode⟩)
    · refine Or.inl ?_
      have hfile : d₁.node? a ≠ some .directory := by
        rw [hnode]
        cases bytes? <;> simp
      rw [node?_below_file hfile hnil, node?_below_file hd hnil]
  · exact hsame u ha

/-- A file that can be replaced without touching anything outside of `S`: a directory in its place
stays. -/
structure Beside (scratch : Scratch) (p : Path) (S : Set Trail) (q : Trail) (name : String)
    (d : Disk) : Prop where
  leads : Leads d S p.directory q
  named : p.fileName? = some name
  temp : below (tempPlace scratch p q) ⊆ S
  entry : d.node? (q ++ [name]) = some .directory ∨ below (q ++ [name]) ⊆ S
  linkless : ∀ target, d.node? (tempPlace scratch p q) ≠ some (.link target)

theorem Beside.not_temp (hb : Beside scratch p S q name d) :
    q ++ [name] ∉ below (tempPlace scratch p q) := not_below_sibling (tempName_ne hb.named)

theorem linkless_of_leaves (hl : Leaves L d d₁) (hL : ∀ t target, ¬ L t (some (.link target)))
    (h : ∀ target, d.node? t ≠ some (.link target)) :
    ∀ target, d₁.node? t ≠ some (.link target) := by
  intro target ht
  rcases hl.node t with he | he
  · exact h target (he ▸ ht)
  · exact hL t target (ht ▸ he)

/-- A file in the place of another is what is written, and nothing is left beside it. -/
theorem leaves_of_replaced (hm : Remembered S p a d (some bytes))
    (hd : d.node? a ≠ some .directory) (ha : Agree S d d₁)
    (hL : ∀ k, Unlinks S p (some bytes) d a k → L a k) (hgone : ∀ u ∈ below t, L u none)
    (hsame : ∀ u ∉ below a, d₁.node? u = d.node? u ∨ L u (d₁.node? u))
    (hr : Replaced S d₁ d₂ p t a bytes) : Leaves L d d₂ := by
  refine leaves_of_contents hm (hr.names.agree ha.symm) hd (hr.agree.here.trans ha.here) ?_ hL
    fun u hu => ?_
  · rw [← subtree_nil, hr.contents]
    rfl
  · by_cases ht : t <+: u
    · obtain ⟨r, rfl⟩ := ht
      rw [show d₂.node? (t ++ r) = none from congrFun hr.temp r]
      exact Or.inr (hgone _ (List.prefix_append t r))
    · rw [hr.agree.node u (not_or.2 ⟨ht, hu⟩)]
      exact hsame u hu

/-- Where nothing was remembered nothing stands again. -/
theorem leaves_of_removed (hm : Remembered S p a d none) (hnames : Names d S p a)
    (hd : d.node? a ≠ some .directory) (hhere : d₁.here = d.here)
    (hL : ∀ k, Unlinks S p none d a k → L a k)
    (hsame : ∀ u ∉ below a, d₁.node? u = d.node? u ∨ L u (d₁.node? u))
    (hs : Sets d₁ d₂ a nothing) : Leaves L d d₂ := by
  refine leaves_of_contents hm hnames hd (hs.agree.here.trans hhere) ?_ hL fun u hu => ?_
  · rw [← subtree_nil, hs.subtree]
    rfl
  · rw [hs.agree.node u hu]
    exact hsame u hu

/-- If the alias manifest was not written, writing it back changes nothing. -/
theorem restoringAliases_kept (bytes : ByteArray) (hn : .notFound ∉ refusals w)
    (hb : Beside scratch p S q name d) (htag : '/' ∉ scratch.tag.toList)
    (hm : Remembered S p (q ++ [name]) d previous.aliases?) (hl : Leaves L d (disk w))
    (hL : ∀ t k, L t k → t ∈ below (tempPlace scratch p q))
    (hlink : ∀ t target, ¬ L t (some (.link target)))
    (hr : on (restoringAliases scratch previous p : Work σ Fault Unit) w = (r, w')) :
    Leaves (Remains L S p (tempPlace scratch p q) (q ++ [name]) bytes previous.aliases? d w w') d
      (disk w') ∧ Agree S d (disk w') := by
  have hl' : Leaves (Remains L S p (tempPlace scratch p q) (q ++ [name]) bytes previous.aliases?
      d w w') d (disk w) := hl.mono fun _ _ h => .other h
  have hagree : Agree S d (disk w) := hl.agree fun t k h => hb.temp (hL t k h)
  have hentry : (disk w).node? (q ++ [name]) = d.node? (q ++ [name]) :=
    (hl.node _).resolve_right fun h => hb.not_temp (hL _ _ h)
  rw [restoringAliases] at hr
  cases hbytes : previous.aliases? with
  | some old =>
    rw [hbytes] at hr hm hl'
    dsimp only at hr
    rcases replaceFile_cases hn (hb.leads.agree hagree) hb.named htag hb.temp
      (linkless_of_leaves hl hlink hb.linkless) hr with ⟨e, -, hl₂⟩ | ⟨-, hrep⟩
    · refine ⟨hl'.trans (hl₂.mono fun t k h => .draft old rfl h), hagree.trans ?_⟩
      exact hl₂.agree fun t k h => hb.temp h.below
    · have hd : d.node? (q ++ [name]) ≠ some .directory := hentry ▸ hrep.free
      refine ⟨leaves_of_replaced hm hd hagree (fun k h => .unlinked rfl h) (fun u hu => ?_)
        (fun u _ => hl'.node u) hrep, hagree.trans (hrep.agree.mono ?_)⟩
      · exact .draft old rfl (Or.inl ⟨hu, rfl⟩)
      · exact Set.union_subset hb.temp (hb.entry.resolve_left hd)
  | none =>
    rw [hbytes] at hr hm hl'
    dsimp only at hr
    obtain ⟨-, ⟨-, hrm⟩ | ⟨e, -, hsame, -⟩⟩ := removeFile_run hr
    · obtain ⟨s, hslot⟩ := removeFile_slot hrm
      obtain ⟨hfits, hslash, -, hndir, hset⟩ := removeFile_sets hslot hrm
      obtain ⟨way, hway⟩ := Path.standing_of_fileName? hb.named
      obtain ⟨hstands, hq, hn⟩ := (hb.leads.agree hagree).stands hway hslot
      have htrail : s.trail = q ++ [name] := by rw [Slot.trail, hq, hn]
      rw [htrail] at hset
      rw [htrail, hentry] at hndir
      have hnames : Names d S p (q ++ [name]) :=
        ⟨s, hstands.agree hagree.symm, htrail, hslash, hfits⟩
      exact ⟨leaves_of_removed hm hnames hndir hl.here (fun k h => .unlinked rfl h)
        (fun u _ => hl'.node u) hset, hagree.trans (hset.agree.mono (hb.entry.resolve_left hndir))⟩
    · exact ⟨hsame ▸ hl', hsame ▸ hagree⟩

/-- The file at a path of the disk `d` was replaced, and otherwise only what `L` allows has changed
since. -/
structure Overwritten (scratch : Scratch) (p : Path) (S : Set Trail)
    (L : Trail → Option Node → Prop) (q : Trail) (name : String) (bytes : ByteArray) (d d' : Disk) :
    Prop where
  names : Names d S p (q ++ [name])
  free : d.node? (q ++ [name]) ≠ some .directory
  entry : below (q ++ [name]) ⊆ S
  agree : Agree S d d'
  file : d'.node? (q ++ [name]) = some (.file bytes)
  temp : ∀ k, d'.node? (tempPlace scratch p q) = some k → ∃ old, k = .file old
  same : ∀ u ∉ below (q ++ [name]), d'.node? u = d.node? u ∨ L u (d'.node? u)

theorem overwritten_of_leaves (hb : Beside scratch p S q name d)
    (hrep : Replaced S d d₁ p (tempPlace scratch p q) (q ++ [name]) bytes)
    (hl : Leaves L d₁ d₂) (hL : ∀ t k, L t k → t ∈ S) (hentry : ∀ k, ¬ L (q ++ [name]) k)
    (hfile : ∀ t k, L t (some k) → ∃ old, k = .file old)
    (hgone : ∀ u ∈ below (tempPlace scratch p q), L u none) :
    Overwritten scratch p S L q name bytes d d₂ := by
  have hbelow : below (q ++ [name]) ⊆ S := hb.entry.resolve_left hrep.free
  have hagree : Agree S d d₁ := hrep.agree.mono (Set.union_subset hb.temp hbelow)
  refine ⟨hrep.names, hrep.free, hbelow, hagree.trans (hl.agree hL), ?_, fun k hk => ?_,
    fun u hu => ?_⟩
  · rw [(hl.node _).resolve_right (hentry _), ← subtree_nil, hrep.contents]
    rfl
  · rcases hl.node (tempPlace scratch p q) with he | he
    · rw [he, ← subtree_nil, hrep.temp] at hk
      cases hk
    · exact hfile _ _ (hk ▸ he)
  · rcases hl.node u with he | he
    · by_cases ht : tempPlace scratch p q <+: u
      · obtain ⟨r, rfl⟩ := ht
        rw [he, show d₁.node? (tempPlace scratch p q ++ r) = none from congrFun hrep.temp r]
        exact Or.inr (hgone _ (List.prefix_append _ r))
      · exact Or.inl (he.trans (hrep.agree.node u (not_or.2 ⟨ht, hu⟩)))
    · exact Or.inr he

/-- What was written stays if nothing but the place beside it is changed any more. -/
theorem Overwritten.stays (ho : Overwritten scratch p S L q name bytes d d₁)
    (hb : Beside scratch p S q name d) (hl : Leaves L' d₁ d₂)
    (hL : ∀ t k, L' t k → t ∈ below (tempPlace scratch p q)) (h : ∀ t k, L t k → L₀ t k)
    (h' : ∀ t k, L' t k → L₀ t k) (hstays : L₀ (q ++ [name]) (some (.file bytes))) :
    Leaves L₀ d d₂ ∧ Agree S d d₂ := by
  have hagree : Agree S d₁ d₂ := hl.agree fun t k hk => hb.temp (hL t k hk)
  refine ⟨⟨hl.here.trans ho.agree.here, fun u => ?_⟩, ho.agree.trans hagree⟩
  rcases hl.node u with he | he
  · rw [he]
    by_cases hu : q ++ [name] <+: u
    · obtain ⟨r, rfl⟩ := hu
      by_cases hr : r = []
      · rw [hr, List.append_nil, ho.file]
        exact Or.inr hstays
      · have hfile : d₁.node? (q ++ [name]) ≠ some .directory := by simp [ho.file]
        rw [node?_below_file hfile hr, node?_below_file ho.free hr]
        exact Or.inl rfl
    · exact (ho.same u hu).imp_right (h u _)
  · exact Or.inr (h' u _ he)

/-- If the alias manifest was written, and then only what `L` allows was changed, writing it back
takes its contents back, unless that is refused. -/
theorem restoringAliases_written (hn₀ : .notFound ∉ refusals v) (hn : .notFound ∉ refusals w)
    (hb : Beside scratch p S q name (disk v)) (htag : '/' ∉ scratch.tag.toList)
    (hm : Remembered S p (q ++ [name]) (disk v) previous.aliases?)
    (hw : on (replaceFile scratch p bytes : Work σ Fault Unit) v = (.ok (), v₁))
    (hl : Leaves L (disk v₁) (disk w)) (hL : ∀ t k, L t k → t ∈ S)
    (hentry : ∀ k, ¬ L (q ++ [name]) k)
    (hfile : ∀ t k, L t (some k) → ∃ old, k = .file old)
    (hgone : ∀ u ∈ below (tempPlace scratch p q), L u none)
    (hr : on (restoringAliases scratch previous p : Work σ Fault Unit) w = (r, w')) :
    Leaves (Remains L S p (tempPlace scratch p q) (q ++ [name]) bytes previous.aliases? (disk v)
      w w') (disk v) (disk w') ∧ Agree S (disk v) (disk w') := by
  have hrep := replaced_of_ok hn₀ hb.leads hb.named htag hb.temp hb.linkless hw
  have ho := overwritten_of_leaves hb hrep hl hL hentry hfile hgone
  rw [restoringAliases] at hr
  cases hbytes : previous.aliases? with
  | some old =>
    rw [hbytes] at hr hm
    dsimp only at hr
    have hlink (target : String) :
        (disk w).node? (tempPlace scratch p q) ≠ some (.link target) := by
      intro ht
      obtain ⟨_, he⟩ := ho.temp _ ht
      cases he
    rcases replaceFile_cases hn (hb.leads.agree ho.agree) hb.named htag hb.temp hlink hr with
      ⟨e, he, hl₂⟩ | ⟨-, hrep₂⟩
    · have hstruck : Struck w w' :=
        (replaceFile_again hn₀ hn hb.leads hb.named htag hb.temp hb.linkless hw ho.agree
          (by simp [ho.file]) ho.temp hr).resolve_left (by simp [he])
      exact ho.stays hb hl₂ (fun t k h => h.below) (fun _ _ h => .other h)
        (fun _ _ h => .draft old rfl h) (.stays hstruck rfl ho.free rfl)
    · refine ⟨leaves_of_replaced hm ho.free ho.agree (fun k h => .unlinked rfl h) (fun u hu => ?_)
        (fun u hu => (ho.same u hu).imp_right .other) hrep₂, ho.agree.trans (hrep₂.agree.mono ?_)⟩
      · exact .draft old rfl (Or.inl ⟨hu, rfl⟩)
      · exact Set.union_subset hb.temp ho.entry
  | none =>
    rw [hbytes] at hr hm
    dsimp only at hr
    obtain ⟨s, hs, htrail, hslash, hfits⟩ := ho.names.agree ho.agree
    have hremove := removeFile_eq_ok hs.slot? hfits hslash (by rw [htrail, ho.file]; simp)
      (by rw [htrail, ho.file]; simp)
    obtain ⟨-, ⟨-, hok⟩ | ⟨e, -, hsame, hcause⟩⟩ := removeFile_run hr
    · rw [hremove] at hok
      have herase : Sets (disk w) (disk w') s.trail nothing :=
        Except.ok.inj hok ▸ sets_erase (disk w) s.parent s.name
      rw [htrail] at herase
      exact ⟨leaves_of_removed hm ho.names ho.free ho.agree.here (fun k h => .unlinked rfl h)
        (fun u hu => (ho.same u hu).imp_right .other) herase,
        ho.agree.trans (herase.agree.mono ho.entry)⟩
    · rw [hremove] at hcause
      obtain ⟨hstruck, -⟩ := hcause.resolve_left (by simp)
      rw [hsame]
      exact ho.stays hb (.refl (fun _ _ => False) _) (fun _ _ h => h.elim) (fun _ _ h => .other h)
        (fun _ _ h => h.elim) (.stays hstruck rfl ho.free rfl)

end Vendoring.BuildPlan
