import Vendoring.Proofs.Build.Restoring
import Vendoring.Proofs.Build.Staging

/-! A publication that fails, and the alias manifest put back after it, whatever the system
refuses. -/
namespace Vendoring.BuildPlan
open Files Files.Disk Files.Carrier

variable {σ : Type} [FileStore (StateM σ)] [Carrier σ] [LawfulCarrier σ] {w w₁ w₂ : σ}
  {plan : BuildPlan} {scratch : Scratch} {host p : Path} {S : Set Trail}
  {h q v : Trail} {name : String} {d d₁ d₂ : Disk} {previous : Previous} {t : Trail}
  {rest : List String} {e : BuildFault} {L L' : Trail → Option Node → Prop}

omit [Carrier σ] [LawfulCarrier σ] in
/-- One of both manifests cannot be written. -/
theorem publish_error
    (hr : on (plan.publish scratch host : Work σ BuildFault Unit) w = (.error e, w₁)) :
    (∃ e', on (replaceFile scratch (plan.aliasPath host) plan.aliases.text.toUTF8 :
        Work σ Fault Unit) w = (.error e', w₁)) ∨
      ∃ w₀ e', on (replaceFile scratch (plan.aliasPath host) plan.aliases.text.toUTF8 :
          Work σ Fault Unit) w = (.ok (), w₀) ∧
        on (replaceFile scratch (manifestPath host) plan.host.text.toUTF8 :
          Work σ Fault Unit) w₀ = (.error e', w₁) := by
  rcases on_bind_eq_error.1 hr with halias | ⟨_, w₀, halias, hmanifest⟩
  · obtain ⟨e', halias, -⟩ := on_adapt_eq_error.1 halias
    exact Or.inl ⟨e', halias⟩
  · obtain ⟨e', hmanifest, -⟩ := on_adapt_eq_error.1 hmanifest
    exact Or.inr ⟨w₀, e', on_adapt_eq_ok.1 halias, hmanifest⟩

theorem wanes_publish (plan : BuildPlan) (scratch : Scratch) (host : Path) :
    Wanes (plan.publish scratch host : Work σ BuildFault Unit) :=
  keeps_bind (keeps_adapt (wanes_replaceFile _ _ _)) fun _ _ =>
    keeps_adapt (wanes_replaceFile _ _ _)

/-- If the manifest of the host cannot be replaced, only its temporary place is changed. -/
theorem scraps_of_manifest {bytes : ByteArray} {e : Fault} (hn : .notFound ∉ refusals w)
    (hl : Leads (disk w) S host h) (htag : '/' ∉ scratch.tag.toList)
    (ht : below (tempPlace scratch (manifestPath host) h) ⊆ S)
    (hlink : ∀ target,
      (disk w).node? (tempPlace scratch (manifestPath host) h) ≠ some (.link target))
    (hr : on (replaceFile scratch (manifestPath host) bytes : Work σ Fault Unit) w =
      (.error e, w₁)) :
    Leaves (Scraps w w₁ (tempPlace scratch (manifestPath host) h) bytes) (disk w) (disk w₁) := by
  have hname := PackageManifest.proper_fileName
  have hnamed := PackageManifest.fileName?_join host
  have hdir : Leads (disk w) S (manifestPath host).directory h := hl.directory hname hnamed
  exact scraps_of_error hn hdir hnamed htag ht hlink hr

/-- What is left of a publication that failed in the places where the manifests are written
first. -/
def Unfinished (plan : BuildPlan) (scratch : Scratch) (host : Path) (h q : Trail) (w w' : σ)
    (t : Trail) (k : Option Node) : Prop :=
  Scraps w w' (tempPlace scratch (plan.aliasPath host) q) plan.aliases.text.toUTF8 t k ∨
    Scraps w w' (tempPlace scratch (manifestPath host) h) plan.host.text.toUTF8 t k

/-- An alias manifest outside of the vendored tree is put back, if it was written at all. -/
theorem restoringAliases_beside {r : Except Fault Unit} (hn : .notFound ∉ refusals w)
    (hb : Beside scratch (plan.aliasPath host) S q name (disk w))
    (htag : '/' ∉ scratch.tag.toList)
    (hm : Remembered S (plan.aliasPath host) (q ++ [name]) (disk w) previous.aliases?)
    (hl : Leads (disk w) S host h) (ht : below (tempPlace scratch (manifestPath host) h) ⊆ S)
    (hlink : ∀ target,
      (disk w).node? (tempPlace scratch (manifestPath host) h) ≠ some (.link target))
    (hne : q ++ [name] ≠ tempPlace scratch (manifestPath host) h)
    (hpub : on (plan.publish scratch host : Work σ BuildFault Unit) w = (.error e, w₁))
    (hr : on (restoringAliases scratch previous (plan.aliasPath host) : Work σ Fault Unit) w₁ =
      (r, w₂)) :
    Leaves (Remains (Unfinished plan scratch host h q w w₁) S (plan.aliasPath host)
      (tempPlace scratch (plan.aliasPath host) q) (q ++ [name]) plan.aliases.text.toUTF8
      previous.aliases? (disk w) w₁ w₂) (disk w) (disk w₂) ∧ Agree S (disk w) (disk w₂) := by
  have hn₁ : .notFound ∉ refusals w₁ := fun he =>
    hn (((wanes_publish plan scratch host).run trivial hpub).2.2.subset he)
  rcases publish_error hpub with ⟨e', halias⟩ | ⟨w₀, e', halias, hmanifest⟩
  · have hscraps := scraps_of_error hn hb.leads hb.named htag hb.temp hb.linkless halias
    obtain ⟨hleaves, hagree⟩ := restoringAliases_kept plan.aliases.text.toUTF8 hn₁ hb htag hm
      hscraps (fun t k h => h.below) (fun t target h => h.not_link) hr
    refine ⟨hleaves.mono fun t k hk => ?_, hagree⟩
    exact hk.imp_other fun h => Or.inl h
  · have hlater₀ := ((wanes_replaceFile _ _ _).run trivial halias).2.2
    have hlater₁ := ((wanes_replaceFile _ _ _).run trivial hmanifest).2.2
    have hrep := replaced_of_ok hn hb.leads hb.named htag hb.temp hb.linkless halias
    have hbelow : below (q ++ [name]) ⊆ S := hb.entry.resolve_left hrep.free
    have hagree : Agree S (disk w) (disk w₀) := hrep.agree.mono (Set.union_subset hb.temp hbelow)
    have hlink₀ : ∀ target,
        (disk w₀).node? (tempPlace scratch (manifestPath host) h) ≠ some (.link target) := by
      intro target hnode
      by_cases hin : tempPlace scratch (plan.aliasPath host) q <+:
          tempPlace scratch (manifestPath host) h
      · obtain ⟨r, hr⟩ := hin
        rw [← hr, show (disk w₀).node? _ = none from congrFun hrep.temp r] at hnode
        cases hnode
      · rw [hrep.agree.node _ (not_or.2 ⟨hin, fun hp => ?_⟩)] at hnode
        · exact hlink target hnode
        · exact (List.prefix_concat_iff.1 hp).elim hne fun hp => hl.off (hbelow hp)
    have hscraps := scraps_of_manifest (fun he => hn (hlater₀.subset he)) (hl.agree hagree) htag ht
      hlink₀ hmanifest
    have hleaves : Leaves (Unfinished plan scratch host h q w w₁) (disk w₀) (disk w₁) :=
      hscraps.mono fun t k hk => Or.inr (hk.since hlater₀)
    refine restoringAliases_written hn hn₁ hb htag hm halias hleaves (fun t k hk => ?_)
      (fun k hk => ?_) (fun t k hk => ?_) (fun u hu => Or.inl (Or.inl ⟨hu, rfl⟩)) hr
    · exact hk.elim (fun h => hb.temp h.below) fun h => ht h.below
    · rcases hk with hk | hk
      · exact hb.not_temp hk.below
      · rcases List.prefix_concat_iff.1 hk.below with he | hp
        · exact hne he.symm
        · exact hb.leads.off (ht hp)
    · exact hk.elim Scraps.file Scraps.file

/-- What is left of a publication that failed, once the alias manifest is put back: the tree at `v`
is another one, and otherwise only what `L` allows is changed. -/
structure Reverted (S : Set Trail) (L : Trail → Option Node → Prop) (v : Trail) (d d' : Disk) :
    Prop where
  agree : Agree S d d'
  dir : d'.node? v = some .directory
  node : ∀ t ∉ below v, d'.node? t = d.node? t ∨ L t (d'.node? t)

theorem Reverted.mono (h : Reverted S L v d d₁) (hL : ∀ t ∉ below v, ∀ k, L t k → L' t k) :
    Reverted S L' v d d₁ :=
  ⟨h.agree, h.dir, fun t ht => (h.node t ht).imp_right (hL t ht _)⟩

theorem reverted_of_leaves (h : Leaves L d d₁) (ha : Agree S d d₁)
    (hd : d.node? v = some .directory) (hv : ∀ k, L v k → d.node? v ≠ some .directory) :
    Reverted S L v d d₁ :=
  ⟨ha, ((h.node v).resolve_right fun hk => hv _ hk hd).trans hd, fun t _ => h.node t⟩

/-- A path goes down into the directory `v`. -/
structure Enters (d : Disk) (S : Set Trail) (p : Path) (v : Trail) (rest : List String) :
    Prop where
  way : ∃ before links, p.steps = before ++ rest ∧
    Way d (S \ {v}) linkLimit (startOf p d.here) before links v []
  dir : d.node? v = some .directory
  down : ".." ∉ rest
  named : ∃ x ∈ rest, x ≠ "."

theorem Enters.inside_of_agree (hp : Enters d S p v rest) (hv : below v ⊆ S)
    (ha : Agree (S \ {v}) d d₁) : Inside d₁ v p rest := by
  obtain ⟨before, links, hs, hw⟩ := hp.way
  have hsub : inside v ⊆ S \ {v} := fun t ht => ⟨hv ht.1, ht.2⟩
  refine ⟨⟨before, links, hs, ?_⟩, (ha.node v fun hm => hm.2 rfl).trans hp.dir, hp.down⟩
  rw [ha.here]
  exact (hw.agree ha).mono hsub

theorem keeps_restoringAliases {b : Disk} {way : List String} (htag : '/' ∉ scratch.tag.toList)
    (hp : Inside b v p rest) (hs : Path.Standing p way name) (hx : ∃ x ∈ rest, x ≠ ".")
    (previous : Previous) :
    Keeps (Region b v) Any (restoringAliases scratch previous p : Work σ Fault Unit) := by
  rw [restoringAliases]
  cases previous.aliases? with
  | some bytes => exact keeps_replaceFile htag hp hs hx bytes
  | none =>
    obtain ⟨x, hx, -⟩ := hx
    exact keeps_removeFile hp (List.ne_nil_of_mem hx)

/-- An alias manifest in the vendored tree is gone with that tree: all that is done to it stays
there. -/
theorem restoringAliases_within {r : Except Fault Unit} {way : List String}
    (hn : .notFound ∉ refusals w) (hp : Enters (disk w) S (plan.aliasPath host) v rest)
    (hv : below v ⊆ S) (hs : Path.Standing (plan.aliasPath host) way name)
    (hreg : Region (disk w) v (disk w)) (htag : '/' ∉ scratch.tag.toList)
    (hl : Leads (disk w) S host h) (ht : below (tempPlace scratch (manifestPath host) h) ⊆ S)
    (hlink : ∀ target,
      (disk w).node? (tempPlace scratch (manifestPath host) h) ≠ some (.link target))
    (hapart : ¬ v <+: tempPlace scratch (manifestPath host) h ∧
      ¬ tempPlace scratch (manifestPath host) h <+: v)
    (hpub : on (plan.publish scratch host : Work σ BuildFault Unit) w = (.error e, w₁))
    (hr : on (restoringAliases scratch previous (plan.aliasPath host) : Work σ Fault Unit) w₁ =
      (r, w₂)) :
    Reverted S (Scraps w w₁ (tempPlace scratch (manifestPath host) h) plan.host.text.toUTF8) v
      (disk w) (disk w₂) := by
  have hsub : inside v ⊆ S := (inside_subset_below v).trans hv
  have hin₀ := hp.inside_of_agree hv (.refl _ _)
  have hkeeps : Keeps (Region (disk w) v) Any (replaceFile scratch (plan.aliasPath host)
      plan.aliases.text.toUTF8 : Work σ Fault Unit) := keeps_replaceFile htag hin₀ hs hp.named _
  -- The first half of the publication stays in the tree, and the second does not touch it.
  obtain ⟨d₀, hreg₀, hscraps⟩ : ∃ d₀, Region (disk w) v d₀ ∧
      Leaves (Scraps w w₁ (tempPlace scratch (manifestPath host) h) plan.host.text.toUTF8) d₀
        (disk w₁) := by
    rcases publish_error hpub with ⟨e', halias⟩ | ⟨w₀, e', halias, hmanifest⟩
    · exact ⟨disk w₁, (hkeeps.run hreg halias).1, .refl _ _⟩
    · obtain ⟨hreg₀, -, hlater⟩ := hkeeps.run hreg halias
      refine ⟨disk w₀, hreg₀, ?_⟩
      refine (scraps_of_manifest (fun he => hn (hlater.subset he))
        (hl.agree (hreg₀.agree.mono hsub)) htag ht ?_ hmanifest).mono fun t k hk => hk.since hlater
      intro target
      rw [hreg₀.agree.node _ fun hm => hapart.1 hm.1]
      exact hlink target
  have hlost : Agree (below (tempPlace scratch (manifestPath host) h)) d₀ (disk w₁) :=
    hscraps.agree fun t k hk => hk.below
  have hreg₁ : Region (disk w₁) v (disk w₁) :=
    hreg₀.rebase fun r => hlost.node _ (not_below_of_apart hapart)
  have hagree : Agree (S \ {v}) (disk w) (disk w₁) := by
    have hsub' : inside v ⊆ S \ {v} := fun t hm => ⟨hv hm.1, hm.2⟩
    refine (hreg₀.agree.mono hsub').trans (hlost.mono ?_)
    exact fun t hm => ⟨ht hm, fun he => hapart.2 (he ▸ hm)⟩
  have hin₁ := hp.inside_of_agree hv hagree
  obtain ⟨hreg₂, -⟩ := (keeps_restoringAliases htag hin₁ hs hp.named previous).run hreg₁ hr
  refine ⟨(hagree.mono fun t hm => hm.1).trans (hreg₂.agree.mono hsub),
    hreg₂.dir hin₁.dir, fun t hout => ?_⟩
  rw [hreg₂.agree.node t fun hm => hout hm.1, ← hreg₀.agree.node t fun hm => hout hm.1]
  exact hscraps.node t

end Vendoring.BuildPlan
