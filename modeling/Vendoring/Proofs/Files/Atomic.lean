import Vendoring.Proofs.Files.Filling
import Vendoring.Proofs.Files.Making

/-! The replacement of a file at each of its moments, whatever the system refuses. A reader finds
what was there before or all of the new contents, and of each way to end it is told what it
leaves. -/
namespace Vendoring.Files
namespace Disk
open Outcome

variable {d d' : Disk} {p a : Path} {q : Trail} {name : String} {bytes : ByteArray}
  {scratch : Scratch} {w w' : Watch} {m : Moment} {r : Except Fault Unit}
  {mishaps : List (Option Fault)}

/-! ## The directories on the way -/

/-- Nothing is changed but that there are new directories: those above a path that were missing. -/
abbrev Readied (p : Path) (d d' : Disk) : Prop :=
  Gains (p.directory.ancestors.filter (·.text ≠ "")) d d'

/-- The directories above a path are being made. A moment that was not the last one is one at which
the path did not lead to its directory yet. -/
structure Opening (p : Path) (mishaps : List (Option Fault)) (d : Disk) (w : Watch) : Prop where
  readied : Readied p d w.disk
  mishaps : w.mishaps <:+ mishaps
  past : ∀ m ∈ w.past, Readied p d m.disk ∧
    (m.disk = w.disk ∨ ∀ q, ¬ Leads m.disk ∅ p.directory q)

theorem preserves_opening (ha : a ∈ p.directory.ancestors) (hne : a.text ≠ "") :
    Preserves (Opening p mishaps d) (FileStore.makeDirectory a : Observed Fault Unit) := by
  intro w hw
  cases hu : watched (undergo .making (·.makeDirectory a)) w with
  | mk r w' =>
  obtain ⟨hpast, hmishaps, hends⟩ := undergo_cases hu
  obtain ⟨hreadied, hsame⟩ : Readied p d w'.disk ∧
      (w.disk = w'.disk ∨ ∀ q, ¬ Leads w.disk ∅ p.directory q) := by
    rcases hends with ⟨e, -, hdisk, -⟩ | ⟨-, hmake⟩
    · exact ⟨hdisk ▸ hw.readied, Or.inl hdisk.symm⟩
    · have hmem : a ∈ p.directory.ancestors.filter (·.text ≠ "") :=
        List.mem_filter.2 ⟨ha, by simpa using hne⟩
      refine ⟨gains_makeDirectory hw.readied hmem hmake, Or.inr fun q hl => ?_⟩
      -- The parents of a path that leads somewhere are there.
      rcases hl.comes.ancestor ha with ⟨t, hla⟩ | ⟨rest, more, hrest, hnil, -⟩
      · exact makeDirectory_of_leads_ne hla hmake
      · exact hrest (List.append_eq_nil_iff.1 hnil.symm).1
  refine ⟨hreadied, hmishaps.trans hw.mishaps, fun m hm => ?_⟩
  rw [hpast] at hm
  rcases List.mem_cons.1 hm with rfl | hm
  · exact ⟨hreadied, Or.inl rfl⟩
  · obtain ⟨hg, hm⟩ := hw.past m hm
    refine ⟨hg, ?_⟩
    rcases hm with hm | hno
    · rw [hm]
      exact hsame
    · exact Or.inr hno

theorem opening_makeDirectories (p : Path) (mishaps : List (Option Fault)) (d : Disk) :
    Opening p mishaps d
      (watched (makeDirectories p.directory : Observed Fault Unit) (.start d mishaps)).2 :=
  preserves_makeFirst (fun _ ha hne => preserves_opening ha hne) _
    ⟨.refl _ _, List.suffix_refl _, fun _ hm => by cases hm⟩

theorem Gains.not_leads {ps : List Path} (hg : Gains ps d d') (h : ∀ q, ¬ Leads d' ∅ a q) :
    ∀ q, ¬ Leads d ∅ a q :=
  fun q hl => h q (hl.grow hg.here fun _ _ => hg.grow)

/-- While directories are made a reader finds what there was before they were, or what there is once
they are. -/
theorem Opening.shown (h : Opening p mishaps d w) (hp : p.fileName? = some name)
    (hm : m ∈ w.past) : m.disk.shown p = d.shown p ∨ m.disk.shown p = w.disk.shown p := by
  obtain ⟨hg, hsame | hno⟩ := h.past m hm
  · exact Or.inr (by rw [hsame])
  · exact Or.inl (by rw [shown_eq_none hp hno, shown_eq_none hp (hg.not_leads hno)])

/-- The directory of a path is there, or it is missing straight below one that is. -/
def Straight (d : Disk) (p : Path) : Prop := ∃ q rest, Comes d ∅ p.directory q rest

/-- A directory to which a path goes straight was there before, or it is new and empty. -/
theorem Straight.opened (hs : d.Straight p) (hg : Readied p d d')
    (hl : Leads d' ∅ p.directory q) : Agree ∅ d d' ∨
      (∀ name, d'.node? (q ++ [name]) = none) ∧ ∀ q', ¬ Leads d ∅ p.directory q' := by
  obtain ⟨_, _, hc⟩ := hs
  have hopens := opens_of_gains hc hg hl
  by_cases hq : d.node? q = none
  · refine Or.inr ⟨fun name => ?_, fun q' hl' => ?_⟩
    · rcases hopens.node (q ++ [name]) with he | ⟨-, -, hle⟩
      · rw [he]
        exact node?_append_of_none hq _
      · have hlen := hle.length_le
        rw [List.length_append, List.length_singleton] at hlen
        omega
    · obtain rfl := hl.unique (hl'.grow hg.here fun _ _ => hg.grow)
      rw [hl'.dir] at hq
      cases hq
  · refine Or.inl ⟨hopens.here, fun u _ => (hopens.node u).resolve_right ?_⟩
    rintro ⟨hnone, -, r, rfl⟩
    exact hq (node?_append_of_none hnone r)

theorem Straight.shown (hs : d.Straight p) (hp : p.fileName? = some name)
    (hg : Readied p d d') : d'.shown p = d.shown p := by
  by_cases hl : ∃ q, Leads d' ∅ p.directory q
  · obtain ⟨q, hl⟩ := hl
    rcases hs.opened hg hl with ha | ⟨hempty, hno⟩
    · exact shown_congr ha
    · rw [shown_eq_none hp hno]
      refine Option.eq_none_iff_forall_ne_some.2 fun k hk => ?_
      obtain ⟨q', hl', hthere⟩ := entry_of_shown hp hk
      obtain rfl := hl.unique hl'
      exact hthere (hempty name)
  · have hno := not_exists.1 hl
    rw [shown_eq_none hp hno, shown_eq_none hp (hg.not_leads hno)]

theorem Straight.vacant (hs : d.Straight p) (htag : '/' ∉ scratch.tag.toList)
    (hg : Readied p d d') (hfree : d.Vacant (scratch.beside p)) :
    d'.Vacant (scratch.beside p) := by
  have hn := scratch.proper_tempName htag p
  refine (vacant_iff hn).2 fun q hl hc hfits => ?_
  rcases hs.opened hg hl with ha | ⟨hempty, -⟩
  · exact (ha.node _ id).trans ((vacant_iff hn).1 hfree q (hl.agree ha.symm) hc hfits)
  · exact hempty _

/-! ## The new contents -/

/-- A reader of a path finds on `d'` what is found on `d`, or all of the new bytes, or nothing, if
the directory of the path is reached through what was replaced. Who reads the file that is written
first is no such reader. -/
def Whole (scratch : Scratch) (p : Path) (bytes : ByteArray) (d d' : Disk) : Prop :=
  ¬ d.Aims p (scratch.beside p) → d'.shown p = d.shown p ∨ d'.shown p = some (.file bytes) ∨
    d.Crosses p ∧ d'.shown p = none

theorem whole_of_agree (h : Agree ∅ d d') : Whole scratch p bytes d d' :=
  fun _ => Or.inl (shown_congr h)

theorem Room.whole (hr : Room scratch d p q) (htag : '/' ∉ scratch.tag.toList) (b : ByteArray) :
    Whole scratch p bytes d (drafted scratch d p q b) :=
  fun ha => Or.inl (hr.shown htag ha b)

theorem Published.whole (h : Published scratch d d' p q name bytes) :
    Whole scratch p bytes d d' := by
  refine fun _ => Or.inr ?_
  by_cases hc : d.Crosses p
  · exact Or.inr ⟨hc, h.lost hc⟩
  · exact Or.inl (shown_of_contents (h.found hc))

/-- The ways in which a file is replaced or not once its directories are there. -/
inductive Ending (scratch : Scratch) (p : Path) (bytes : ByteArray)
    (mishaps : List (Option Fault)) (d : Disk) (w : Watch) : Except Fault Unit → Prop
  | replaced {q : Trail} {name : String} (named : p.fileName? = some name)
      (leads : Leads d ∅ p.directory q) (published : Published scratch d w.disk p q name bytes) :
      Ending scratch p bytes mishaps d w (.ok ())
  /-- All is as it was. -/
  | untouched {e : Fault} (same : Agree ∅ d w.disk) : Ending scratch p bytes mishaps d w (.error e)
  /-- The file that is written first could not be filled. -/
  | torn {e : Fault} {q : Trail} {n : Nat} (leads : Leads d ∅ p.directory q)
      (torn : Torn scratch p bytes mishaps d q e w)
      (puts : Puts d w.disk (tempPlace scratch p q) (.file (bytes.extract 0 n))) :
      Ending scratch p bytes mishaps d w (.error e)
  /-- The system refused to move the file that was written first and then to remove it. -/
  | stuck {e e' : Fault} {q : Trail} (leads : Leads d ∅ p.directory q)
      (strike : some e' ∈ mishaps)
      (last : [⟨.removing, .error e', w.disk⟩, ⟨.moving, .error e, w.disk⟩] <+: w.past)
      (puts : Puts d w.disk (tempPlace scratch p q) (.file bytes)) :
      Ending scratch p bytes mishaps d w (.error e)

theorem publish_ending (hr : Room scratch d p q) (hp : p.fileName? = some name)
    (htag : '/' ∉ scratch.tag.toList) (hm : w.mishaps <:+ mishaps)
    (hw : w.disk = drafted scratch d p q bytes)
    (h : watched (publish (scratch.beside p) p : Observed Fault Unit) w = (r, w')) :
    Since (Whole scratch p bytes d) w w' ∧ Ending scratch p bytes mishaps d w' r := by
  have hleads : Leads d ∅ p.directory q := hr.leads.mono (Set.empty_subset _)
  rw [publish, watched_bind, watched_attempt] at h
  cases hu : watched (undergo .moving (·.rename (scratch.beside p) p)) w with
  | mk r₁ w₁ =>
  have hmove : watched (FileStore.rename (scratch.beside p) p : Observed Fault Unit) w =
    (r₁, w₁) := hu
  rw [hmove] at h
  obtain ⟨hpast, hmishaps, ⟨e, rfl, hdisk, -⟩ | ⟨rfl, hrename⟩⟩ := undergo_cases hu
  · dsimp only at h
    rw [watched_bind, watched_attempt] at h
    cases hu' : watched (undergo .removing (·.removeFile (scratch.beside p))) w₁ with
    | mk r₂ w₂ =>
    have hremove : watched (FileStore.removeFile (scratch.beside p) : Observed Fault Unit) w₁ =
      (r₂, w₂) := hu'
    rw [hremove] at h
    cases h
    rw [hw] at hdisk
    have hsince : Since (Whole scratch p bytes d) w w₁ := .undergo hu (hdisk ▸ hr.whole htag bytes)
    obtain ⟨hpast', -, hends⟩ := undergo_cases hu'
    rw [hdisk, hr.removeFile htag] at hends
    rcases hends with ⟨e', rfl, hdisk', hcause⟩ | ⟨rfl, hgone⟩
    · refine ⟨hsince.trans (.undergo hu' (hdisk' ▸ hr.whole htag bytes)), ?_⟩
      have hstrike : some e' ∈ mishaps :=
        hm.subset (hmishaps.subset (hcause.resolve_left (by simp)))
      refine .stuck hleads hstrike ?_ (hdisk' ▸ hr.puts bytes)
      rw [hpast', hpast, hdisk, hdisk']
      exact List.prefix_append [_, _] w.past
    · have hsame : Agree ∅ d w₂.disk := Except.ok.inj hgone ▸ hr.removed bytes
      exact ⟨hsince.trans (.undergo hu' (whole_of_agree hsame)), .untouched hsame⟩
  · cases h
    rw [hw] at hrename
    have hpub := hr.published hp htag hrename
    exact ⟨.undergo hu hpub.whole, .replaced hp hleads hpub⟩

/-- A file is written beside another one where nothing was, and takes its place or none. -/
theorem written_ending (hp : p.fileName? = some name) (htag : '/' ∉ scratch.tag.toList)
    (hm : w.mishaps <:+ mishaps) (hfree : w.disk.Vacant (scratch.beside p))
    (h : watched (do
      FileStore.write (scratch.beside p) bytes
      publish (scratch.beside p) p : Observed Fault Unit) w = (r, w')) :
    Since (Whole scratch p bytes w.disk) w w' ∧ Ending scratch p bytes mishaps w.disk w' r := by
  cases hw : watched (FileStore.write (scratch.beside p) bytes : Observed Fault Unit) w with
  | mk r₁ w₁ =>
  obtain ⟨hsince, hends⟩ := write_cases (P := Whole scratch p bytes w.disk) htag hfree
    (whole_of_agree (.refl _ _)) (fun q b hr => hr.whole htag b) hw
  rcases hends with ⟨e, rfl, hdisk, -⟩ | ⟨q, hr, ⟨e, rfl, htorn⟩ | ⟨rfl, hdisk⟩⟩
  · rw [watched_bind_error hw] at h
    cases h
    exact ⟨hsince, .untouched (hdisk ▸ .refl _ _)⟩
  · rw [watched_bind_error hw] at h
    cases h
    obtain ⟨n, hdisk⟩ := htorn.draft
    exact ⟨hsince, .torn (hr.leads.mono (Set.empty_subset _)) (htorn.mono hm.subset)
      (hdisk ▸ hr.puts _)⟩
  · rw [watched_bind_ok hw] at h
    obtain ⟨hmore, hending⟩ := publish_ending hr hp htag (hsince.mishaps.trans hm) hdisk h
    exact ⟨hsince.trans hmore, hending⟩

/-! ## The whole replacement -/

/-- The disk on which the directories that are missing above a path have been made. -/
def opened (p : Path) (mishaps : List (Option Fault)) (d : Disk) : Disk :=
  (watched (makeDirectories p.directory : Observed Fault Unit) (.start d mishaps)).2.disk

theorem calm_replaceFile (htag : '/' ∉ scratch.tag.toList)
    (hfree : (opened p mishaps d).Vacant (scratch.beside p)) :
    Calm (replaceFile scratch p bytes) (replaceFile scratch p bytes) (.start d mishaps) := by
  refine calm_bind (calm_makeFirst _ _) fun _ w hw => ?_
  have hdisk : opened p mishaps d = w.disk := by rw [opened, hw]
  refine calm_bind (calm_write htag (hdisk ▸ hfree)) fun _ w _ => ?_
  exact calm_publish _ _ w

/-- What holds of the replacement of a file at each moment and in the end. The mishaps are what the
system refuses although the disk would allow it. -/
structure Atomic (scratch : Scratch) (p : Path) (bytes : ByteArray)
    (mishaps : List (Option Fault)) (d : Disk) (r : Except Fault Unit) (w : Watch) : Prop where
  readied : Readied p d (opened p mishaps d)
  straight : d.Straight p → (opened p mishaps d).shown p = d.shown p
  seen : ∀ m ∈ w.past, m.disk.shown p = d.shown p ∨
    Whole scratch p bytes (opened p mishaps d) m.disk
  ending : Ending scratch p bytes mishaps (opened p mishaps d) w r
  calm : mishaps = [] →
    on (replaceFile scratch p bytes : Program Fault Unit) d = (r, w.disk)

/-- A file is replaced as a whole or not at all, whatever stands at its path and whatever the system
refuses, if nothing is at the name under which the new contents are written first. -/
theorem replaceFile_atomic (hp : p.fileName? = some name) (htag : '/' ∉ scratch.tag.toList)
    (hfree : (opened p mishaps d).Vacant (scratch.beside p) ∨
      d.Straight p ∧ d.Vacant (scratch.beside p))
    (h : watched (replaceFile scratch p bytes) (.start d mishaps) = (r, w)) :
    Atomic scratch p bytes mishaps d r w := by
  have hopening := opening_makeDirectories p mishaps d
  have hreadied : Readied p d (opened p mishaps d) := hopening.readied
  have hvacant : (opened p mishaps d).Vacant (scratch.beside p) :=
    hfree.elim id fun hs => hs.1.vacant htag hreadied hs.2
  suffices hrun : (∀ m ∈ w.past, m.disk.shown p = d.shown p ∨
      Whole scratch p bytes (opened p mishaps d) m.disk) ∧
        Ending scratch p bytes mishaps (opened p mishaps d) w r from
    ⟨hreadied, fun hs => hs.shown hp hreadied, hrun.1, hrun.2,
      fun hm => (calm_replaceFile htag hvacant hm r w h).1⟩
  cases hmake : watched (makeDirectories p.directory : Observed Fault Unit) (.start d mishaps) with
  | mk r₁ w₁ =>
  have hdisk : opened p mishaps d = w₁.disk := by rw [opened, hmake]
  rw [hmake] at hopening
  rw [hdisk] at hvacant ⊢
  have hearly (m : Moment) (hm : m ∈ w₁.past) :
      m.disk.shown p = d.shown p ∨ Whole scratch p bytes w₁.disk m.disk :=
    (hopening.shown hp hm).imp_right fun hs _ => Or.inl hs
  cases r₁ with
  | error e =>
    rw [replaceFile, watched_bind_error hmake] at h
    cases h
    exact ⟨hearly, .untouched (.refl _ _)⟩
  | ok u =>
    rw [replaceFile, watched_bind_ok hmake] at h
    obtain ⟨hsince, hending⟩ := written_ending hp htag hopening.mishaps hvacant h
    refine ⟨fun m hm => ?_, hending⟩
    rcases hsince.past m hm with hm | hwhole
    · exact hearly m hm
    · exact Or.inr hwhole

/-- A file, a directory, a link that leads to the top of the disk, where they all are, and one that
leads to where nothing is. -/
def topDisk : Disk where
  root := .directory [("a", .file ⟨#[1]⟩), ("d", .directory []), ("l", .link "."),
    ("m", .link ".m.tmp.7")]
  here := []

/-- One byte is put in the place of what is at a path. -/
def replacedAt (p : Path) (mishaps : List (Option Fault)) : Except Fault Unit × Watch :=
  watched (replaceFile ⟨"7", ""⟩ p ⟨#[2]⟩) (.start topDisk mishaps)

theorem vacant_of_held (h : (d.held false p).isOk = false) : d.Vacant p := by
  intro x hx
  rw [hx] at h
  cases h

theorem top_straight : topDisk.Straight ⟨"/a"⟩ :=
  ⟨[], [], ⟨[], linkLimit, by decide +kernel, .stop id⟩, rfl, by simp⟩

/-- The new contents cannot be moved into place, and the old file is there as before. -/
theorem replaceFile_atomic_refused : ∃ r w,
    replacedAt ⟨"/a"⟩ [none, none, none, some .busy] = (r, w) ∧
      r = .error .busy ∧ w.disk.contents ⟨"/a"⟩ = .ok ⟨#[1]⟩ ∧
      w.past.map (·.stage) = [.removing, .moving, .filling, .filling, .creating] ∧
      Atomic ⟨"7", ""⟩ ⟨"/a"⟩ ⟨#[2]⟩ [none, none, none, some .busy] topDisk r w := by
  have hname : Path.fileName? ⟨"/a"⟩ = some "a" := by decide +kernel
  have hfree : topDisk.Vacant (Scratch.beside ⟨"7", ""⟩ ⟨"/a"⟩) :=
    vacant_of_held (by decide +kernel)
  have hends : (replacedAt ⟨"/a"⟩ [none, none, none, some .busy]).1 = .error .busy ∧
      (replacedAt ⟨"/a"⟩ [none, none, none, some .busy]).2.disk.contents ⟨"/a"⟩ = .ok ⟨#[1]⟩ ∧
      (replacedAt ⟨"/a"⟩ [none, none, none, some .busy]).2.past.map (·.stage) =
        [.removing, .moving, .filling, .filling, .creating] := by decide +kernel
  cases hrun : replacedAt ⟨"/a"⟩ [none, none, none, some .busy] with
  | mk r w =>
    rw [hrun] at hends
    obtain ⟨herror, hold, hstages⟩ := hends
    refine ⟨r, w, rfl, herror, hold, hstages, ?_⟩
    exact replaceFile_atomic hname (by decide) (Or.inr ⟨top_straight, hfree⟩) hrun

/-- The directory of `/b/../d` leads past one that is missing: once that is made there is something
at the path. The directory of `/l/l` is reached through the link that is replaced. The link `/m`
leads to the file that is written first. And what is written first stays if it can neither be moved
nor be removed. -/
theorem replaceFile_atomic_exceptions :
    (topDisk.Vacant (Scratch.beside ⟨"7", ""⟩ ⟨"/b/../d"⟩) ∧
      topDisk.kind ⟨"/b/../d"⟩ = .error .notFound ∧
      (replacedAt ⟨"/b/../d"⟩ []).1 = .error .isDirectory ∧
      (replacedAt ⟨"/b/../d"⟩ []).2.disk.kind ⟨"/b/../d"⟩ = .ok .directory) ∧
    (topDisk.Vacant (Scratch.beside ⟨"7", ""⟩ ⟨"/l/l"⟩) ∧
      (replacedAt ⟨"/l/l"⟩ []).1 = .ok () ∧
      (replacedAt ⟨"/l/l"⟩ []).2.disk.contents ⟨"/l/l"⟩ = .error .notDirectory) ∧
    (topDisk.Vacant (Scratch.beside ⟨"7", ""⟩ ⟨"/m"⟩) ∧
      topDisk.kind ⟨"/m"⟩ = .error .notFound ∧
      ∃ m ∈ (replacedAt ⟨"/m"⟩ []).2.past, m.disk.contents ⟨"/m"⟩ = .ok ByteArray.empty) ∧
    topDisk.Vacant (Scratch.beside ⟨"7", ""⟩ ⟨"/a"⟩) ∧
      (replacedAt ⟨"/a"⟩ [none, none, none, some .busy, some .busy]).1 = .error .busy ∧
      (replacedAt ⟨"/a"⟩ [none, none, none, some .busy, some .busy]).2.disk.contents
        (Scratch.beside ⟨"7", ""⟩ ⟨"/a"⟩) = .ok ⟨#[2]⟩ := by
  refine ⟨⟨vacant_of_held ?_, ?_, ?_, ?_⟩, ⟨vacant_of_held ?_, ?_, ?_⟩,
    ⟨vacant_of_held ?_, ?_, ?_⟩, vacant_of_held ?_, ?_, ?_⟩ <;> decide +kernel

end Disk
end Vendoring.Files
