import Vendoring.Marker
import Vendoring.Proofs.Files.Mirroring
import Vendoring.Proofs.Text

/-! A marker in a directory: files of the directory itself are rewritten and nothing else is
changed, in whatever order the directory lists its entries. -/
namespace Vendoring

open Files Files.Disk Outcome

/-- Changes the contents of a file. -/
def Files.Node.mapFile (g : ByteArray → ByteArray) : Node → Node
  | .file bytes => .file (g bytes)
  | k => k

/-- The system takes the path of a name in a directory. -/
def Files.Disk.Takes (p : Path) (name : String) : Prop :=
  check (p.join name) = .ok () ∧ isTooLong name = false

namespace Marker

/-- The new contents of a file; none if it is no text or if there is nothing to replace. -/
def rewrite? (marker : Marker) (bytes : ByteArray) : Option ByteArray :=
  ((String.fromUTF8? bytes).bind marker.replaced?).map String.toUTF8

/-- What a marker makes of the contents of a file. Contents that are no text stay as they are. -/
def updated (marker : Marker) (bytes : ByteArray) : ByteArray :=
  (((String.fromUTF8? bytes).bind marker.replaced?).map String.toUTF8).getD bytes

/-- What a marker makes of a directory: it is replaced in the files that stand in the directory
itself and have a name that one of the globs fits. -/
def marked (marker : Marker) (globs : List Glob) (f : Trail → Option Node) : Trail → Option Node
  | [name] =>
    if globs.any (·.fits name) then (f [name]).map (·.mapFile marker.updated) else f [name]
  | r => f r

/-- The new contents of what stands under a name. Only a file has any, and only if one of the globs
fits its name. -/
def renewed? (marker : Marker) (globs : List Glob) (name : String) : Option Node → Option ByteArray
  | some (.file bytes) => if globs.any (·.fits name) then marker.rewrite? bytes else none
  | _ => none

/-- What a marker does in the directory `t`: it replaces the contents of all entries that have new
ones, keeps everything else, and lists what it replaced in the order of the names. -/
structure Rewrites (marker : Marker) (globs : List Glob) (p : Path) (t : Trail) (d d' : Disk)
    (paths : List Path) : Prop where
  here : d'.here = d.here
  replaced : ∀ name new, marker.renewed? globs name (d.node? (t ++ [name])) = some new →
    d'.node? (t ++ [name]) = some (.file new)
  kept : ∀ q, (∀ name, q = t ++ [name] → marker.renewed? globs name (d.node? q) = none) →
    d'.node? q = d.node? q
  listed : ∃ names : List String, paths = names.map p.join ∧ names.Pairwise (· < ·) ∧
    ∀ name, name ∈ names ↔ (marker.renewed? globs name (d.node? (t ++ [name]))).isSome

end Marker

variable {d d' e : Disk} {p : Path} {t u : Trail} {name : String} {names changed : List String}
  {bytes new : ByteArray} {stored : String → ByteArray} {marker : Marker} {globs : List Glob}
  {paths : List Path} {f : Trail → Option Node}

namespace Files.Disk

/-- A path leads past a file, whatever becomes of it. -/
theorem Leads.past_file (hl : Leads d ∅ p t) (hfile : d.node? u = some (.file bytes))
    (ha : Agree (below u) d d') : Leads d' ∅ p t := by
  refine hl.carry ha.here fun v _ hp => ha.node v fun hv => ?_
  exact not_passable_below (by simp [hfile]) (by simp [hfile]) v hv hp

theorem Leads.contents (hl : Leads d ∅ p t) (hn : ProperName name) (ht : Takes p name)
    (hfile : d.node? (t ++ [name]) = some (.file bytes)) :
    d.contents (p.join name) = .ok bytes := by
  have hs := hl.child hn ht.1
  rw [Disk.contents, held, hs.find_file ht.2 (node?_eq_file.1 hfile)]
  rfl

theorem Leads.takes (hl : Leads d ∅ p t) (hn : ProperName name)
    (h : d.contents (p.join name) = .ok bytes) : Takes p name := by
  obtain ⟨v, hheld⟩ := held_of_contents h
  have hcheck : check (p.join name) = .ok () := by
    cases hc : check (p.join name) with
    | ok _ => rfl
    | error fault =>
      rw [held_of_find (find_of_check hc)] at hheld
      cases hheld
  refine ⟨hcheck, ?_⟩
  rw [← Bool.not_eq_true]
  intro hlong
  have hs := hl.child hn hcheck
  rw [held_of_find (hs.find_long hlong)] at hheld
  cases hheld

theorem check_of_listing {es : List (String × Kind)} (h : d.listing p = .ok es) :
    check p = .ok () := by
  obtain ⟨_, hheld, -⟩ := bind_eq_ok.1 h
  exact check_of_held hheld

theorem Leads.listing {hs : List (String × Tree)} (hl : Leads d ∅ p t) (hc : check p = .ok ())
    (hx : d.get? t = some (.directory hs)) :
    d.listing p = .ok (hs.map fun e => (e.1, kindOf e.2)) := by
  have hk := hl.kind hc
  obtain ⟨v, x, hheld, hx'⟩ := kind_eq_ok hk
  cases x with
  | file _ => cases hx'
  | link _ => cases hx'
  | directory hs' =>
    obtain ⟨hl', hget⟩ := leads_of_held hheld
    obtain rfl := hl.unique hl'
    cases hx.symm.trans hget
    rw [Disk.listing, hheld]
    rfl

end Files.Disk

namespace Marker

theorem updated_eq (marker : Marker) (bytes : ByteArray) :
    marker.updated bytes = (marker.rewrite? bytes).getD bytes := rfl

theorem renewed?_of_file (hfits : globs.any (·.fits name) = true) (bytes : ByteArray) :
    marker.renewed? globs name (some (.file bytes)) = marker.rewrite? bytes := if_pos hfits

theorem renewed?_eq_some {k : Option Node} : marker.renewed? globs name k = some new ↔
    globs.any (·.fits name) = true ∧ ∃ bytes, k = some (.file bytes) ∧
      marker.rewrite? bytes = some new := by
  constructor
  · intro h
    cases k with
    | none => cases h
    | some k =>
      cases k with
      | link _ => cases h
      | directory => cases h
      | file bytes =>
        obtain ⟨hfits, hnew⟩ := Option.ite_none_right_eq_some.1 h
        exact ⟨hfits, bytes, rfl, hnew⟩
  · rintro ⟨hfits, bytes, rfl, hnew⟩
    exact (renewed?_of_file hfits bytes).trans hnew

/-! ## One file after the other -/

/-- A file that can be reached is updated, and that is all that happens. -/
theorem on_updateFile (marker : Marker) (hl : Leads d ∅ p t) (hn : ProperName name)
    (ht : Takes p name) (hfile : d.node? (t ++ [name]) = some (.file bytes)) :
    ∃ d', on (marker.updateFile (p.join name) : Program Fault Bool) d =
        (.ok (marker.rewrite? bytes).isSome, d') ∧
      Sets d d' (t ++ [name]) (Tree.file (marker.updated bytes)).node? := by
  have hread : on (FileView.contents (p.join name) : Program Fault ByteArray) d =
      (.ok bytes, d) := by
    rw [on_contents, hl.contents hn ht hfile]
  rw [updateFile, on_bind_ok hread, rewrite?, updated]
  cases (String.fromUTF8? bytes).bind marker.replaced? with
  | none => exact ⟨d, rfl, .refl _ _, subtree_of_get? (node?_eq_file.1 hfile)⟩
  | some text =>
    have hs := hl.child hn ht.1
    have hold (k : Node) (hk : d.node? (t ++ [name]) = some k) : ∃ old, k = .file old :=
      ⟨bytes, Option.some.inj (hk.symm.trans hfile)⟩
    have hw := write_eq_put hs rfl ht.2 hold text.toUTF8
    have hwritten : on (FileStore.write (p.join name) text.toUTF8 : Program Fault Unit) d =
        (.ok (), d.put (t ++ [name]) (.file text.toUTF8)) := by
      rw [on_write, hw]
      rfl
    refine ⟨_, on_bind_ok hwritten, ?_⟩
    exact (write_sets hs rfl (fun target => by simp [Slot.trail, hfile]) hw).2.2

/-- The other files of a directory stay when one of them is changed. -/
theorem files_kept (hset : Sets d d' (t ++ [name]) f) (hnew : name ∉ names)
    (hfile : ∀ other ∈ names, d.node? (t ++ [other]) = some (.file (stored other))) :
    ∀ other ∈ names, d'.node? (t ++ [other]) = some (.file (stored other)) := by
  intro other hm
  refine (hset.agree.node _ ?_).trans (hfile other hm)
  rintro ⟨r, hr⟩
  rw [List.append_assoc, List.append_cancel_left_eq] at hr
  exact hnew ((List.cons.inj hr).1 ▸ hm)

/-- Files of a directory that can be reached are updated one after the other. -/
theorem on_updateNamed (marker : Marker) (hl : Leads d ∅ p t)
    (hn : ∀ name ∈ names, ProperName name) (hnodup : names.Nodup)
    (ht : ∀ name ∈ names, Takes p name)
    (hfile : ∀ name ∈ names, d.node? (t ++ [name]) = some (.file (stored name))) :
    ∃ d', on (marker.updateNamed p names : Program Fault (List String)) d =
        (.ok (names.filter fun name => (marker.rewrite? (stored name)).isSome), d') ∧
      Agree {v | ∃ name ∈ names, t ++ [name] <+: v} d d' ∧
      ∀ name ∈ names,
        d'.subtree (t ++ [name]) = (Tree.file (marker.updated (stored name))).node? := by
  induction names generalizing d with
  | nil => exact ⟨d, rfl, .refl _ _, fun name hm => absurd hm List.not_mem_nil⟩
  | cons name names ih =>
    obtain ⟨hnew, hnodup⟩ := List.nodup_cons.1 hnodup
    obtain ⟨hname, hn⟩ := List.forall_mem_cons.1 hn
    obtain ⟨htake, ht⟩ := List.forall_mem_cons.1 ht
    obtain ⟨hthere, hfile⟩ := List.forall_mem_cons.1 hfile
    obtain ⟨d₁, hone, hset⟩ := marker.on_updateFile hl hname htake hthere
    obtain ⟨d₂, hrest, hagree, hupdated⟩ := ih (hl.past_file hthere hset.agree) hn hnodup ht
      (files_kept hset hnew hfile)
    refine ⟨d₂, ?run, ?agree, List.forall_mem_cons.2 ⟨?first, hupdated⟩⟩
    case run =>
      rw [updateNamed, on_bind_ok hone, on_bind_ok hrest, List.filter_cons]
      rfl
    case agree =>
      refine (hset.agree.mono fun v hv => ?_).trans (hagree.mono fun v hv => ?_)
      · exact ⟨name, List.mem_cons_self .., hv⟩
      · obtain ⟨other, hm, hv⟩ := hv
        exact ⟨other, List.mem_cons_of_mem _ hm, hv⟩
    case first =>
      rw [← hset.subtree]
      refine hagree.subtree fun r => ?_
      rintro ⟨other, hm, hpre⟩
      rw [List.append_assoc, List.prefix_append_right_inj] at hpre
      exact hnew ((List.cons_prefix_cons.1 hpre).1 ▸ hm)

/-- If all were updated, then all could be reached. -/
theorem takes_of_updateNamed (hl : Leads d ∅ p t) (hn : ∀ name ∈ names, ProperName name)
    (hnodup : names.Nodup)
    (hfile : ∀ name ∈ names, d.node? (t ++ [name]) = some (.file (stored name)))
    (h : on (marker.updateNamed p names : Program Fault (List String)) d = (.ok changed, d')) :
    ∀ name ∈ names, Takes p name := by
  induction names generalizing d d' changed with
  | nil => exact fun name hm => absurd hm List.not_mem_nil
  | cons name names ih =>
    obtain ⟨hnew, hnodup⟩ := List.nodup_cons.1 hnodup
    obtain ⟨hname, hn⟩ := List.forall_mem_cons.1 hn
    obtain ⟨hthere, hfile⟩ := List.forall_mem_cons.1 hfile
    obtain ⟨first, d₁, hone, h₁⟩ := on_bind_eq_ok.1 h
    obtain ⟨others, d₂, hrest, -⟩ := on_bind_eq_ok.1 h₁
    obtain ⟨bytes, d₀, hread, -⟩ := on_bind_eq_ok.1 hone
    rw [on_contents] at hread
    have htake : Takes p name := hl.takes hname (Prod.mk.inj hread).1
    obtain ⟨d₁', hone', hset⟩ := marker.on_updateFile hl hname htake hthere
    obtain ⟨-, rfl⟩ := Prod.mk.inj (hone.symm.trans hone')
    exact List.forall_mem_cons.2 ⟨htake,
      ih (hl.past_file hthere hset.agree) hn hnodup (files_kept hset hnew hfile) hrest⟩

section Keeping
variable {σ : Type} [FileStore (StateM σ)] [Carrier σ] [LawfulCarrier σ]

theorem keeps_updateNamed {I : Disk → Prop} (marker : Marker)
    (hw : ∀ name ∈ names, ∀ bytes,
      Keeps I Any (FileStore.write (p.join name) bytes : Work σ Fault Unit)) :
    Keeps I Any (marker.updateNamed p names : Work σ Fault (List String)) := by
  induction names with
  | nil => exact keeps_pure trivial
  | cons name names ih =>
    obtain ⟨hfile, hw⟩ := List.forall_mem_cons.1 hw
    have hupdate : Keeps I Any (marker.updateFile (p.join name) : Work σ Fault Bool) := by
      refine keeps_bind (keeps_contents (p.join name)) fun bytes _ => ?_
      split
      · exact keeps_bind (hfile _) fun _ _ => keeps_pure trivial
      · exact keeps_pure trivial
    exact keeps_bind hupdate fun _ _ => keeps_bind (ih hw) fun _ _ => keeps_pure trivial

/-- What the writing of a listed file keeps is kept when a directory is updated. -/
theorem keeps_updateFiles_of {I : Disk → Prop} {P : String → Prop} (marker : Marker)
    (globs : List Glob) (hlist : Keeps I (fun es => ∀ e ∈ es, P e.1)
      (FileView.listing p : Work σ Fault (List (String × Kind))))
    (hw : ∀ name, P name → ∀ bytes,
      Keeps I Any (FileStore.write (p.join name) bytes : Work σ Fault Unit)) :
    Keeps I Any (marker.updateFiles globs p : Work σ Fault (List Path)) := by
  refine keeps_bind hlist fun entries hn => ?_
  refine keeps_bind (marker.keeps_updateNamed fun name hm => hw name ?_) fun _ _ =>
    keeps_pure trivial
  obtain ⟨e, he, rfl⟩ := List.mem_map.1 hm
  exact hn e (List.mem_filter.1 he).1

end Keeping

/-! ## The files of a directory -/

/-- The files of a listing that the globs ask for. -/
def wanted (globs : List Glob) (es : List (String × Kind)) : List String :=
  (es.filter fun e => e.2 = .file && globs.any (·.fits e.1)).map (·.1)

theorem mem_wanted_iff {hs : List (String × Tree)} (hx : d.get? t = some (.directory hs))
    (hn : (Keyed.keys hs).Nodup) :
    name ∈ wanted globs (hs.map fun e => (e.1, kindOf e.2)) ↔
      globs.any (·.fits name) = true ∧ ∃ bytes, d.node? (t ++ [name]) = some (.file bytes) := by
  constructor
  · intro hm
    obtain ⟨e, he, rfl⟩ := List.mem_map.1 hm
    obtain ⟨he, hfits⟩ := List.mem_filter.1 he
    obtain ⟨⟨other, y⟩, hy, rfl⟩ := List.mem_map.1 he
    simp only [Bool.and_eq_true, decide_eq_true_eq] at hfits
    refine ⟨hfits.2, ?_⟩
    rw [node?_concat hx, Keyed.get?_of_mem hn hy]
    cases y with
    | file bytes => exact ⟨bytes, rfl⟩
    | link _ => cases hfits.1
    | directory _ => cases hfits.1
  · rintro ⟨hfits, bytes, hfile⟩
    rw [node?_concat hx] at hfile
    obtain ⟨y, hy, hnode⟩ := Option.map_eq_some_iff.1 hfile
    have hkind : kindOf y = .file := by cases y <;> first | rfl | cases hnode
    refine List.mem_map.2 ⟨(name, kindOf y), List.mem_filter.2 ⟨?_, ?_⟩, rfl⟩
    · exact List.mem_map.2 ⟨(name, y), Keyed.mem_of_get? hy, rfl⟩
    · simp [hkind, hfits]

/-- The files that a listing of the directory `t` finds for the globs, with their contents. -/
structure Chosen (globs : List Glob) (d : Disk) (t : Trail) (names : List String)
    (stored : String → ByteArray) : Prop where
  nodup : names.Nodup
  proper : ∀ name ∈ names, ProperName name
  fits : ∀ name ∈ names, globs.any (·.fits name) = true
  file : ∀ name ∈ names, d.node? (t ++ [name]) = some (.file (stored name))
  all : ∀ name bytes, globs.any (·.fits name) = true →
    d.node? (t ++ [name]) = some (.file bytes) → name ∈ names

/-- To update the files of a directory is to update those that are chosen. -/
theorem exists_chosen (marker : Marker) (globs : List Glob) (hp : d.Proper) (hd : d.Distinct)
    (hl : Leads d ∅ p t) (hc : check p = .ok ()) : ∃ names stored, Chosen globs d t names stored ∧
      on (marker.updateFiles globs p : Program Fault (List Path)) d =
        on (do
          let changed ← marker.updateNamed p names
          return (Text.sortByName id changed).map p.join : Program Fault (List Path)) d := by
  obtain ⟨hs, hx⟩ := node?_eq_directory.1 hl.dir
  have hlisting := hl.listing hc hx
  have hlisted : Listed [] (d.seen? [] p) _ := listed_of_listing hp hd hlisting
  have hmem (name : String) : name ∈ wanted globs (hs.map fun e => (e.1, kindOf e.2)) ↔
      globs.any (·.fits name) = true ∧ ∃ bytes, d.node? (t ++ [name]) = some (.file bytes) :=
    mem_wanted_iff hx (hd _ _ hx)
  have hread (name : String) : ∃ bytes, name ∈ wanted globs (hs.map fun e => (e.1, kindOf e.2)) →
      d.node? (t ++ [name]) = some (.file bytes) := by
    by_cases hm : name ∈ wanted globs (hs.map fun e => (e.1, kindOf e.2))
    · obtain ⟨-, bytes, hfile⟩ := (hmem name).1 hm
      exact ⟨bytes, fun _ => hfile⟩
    · exact ⟨.empty, fun hin => absurd hin hm⟩
  choose stored hstored using hread
  refine ⟨_, stored, ⟨?nodup, ?proper, ?fits, hstored, ?all⟩, ?run⟩
  case nodup => exact (List.filter_sublist.map _).nodup hlisted.nodup
  case proper =>
    intro name hm
    obtain ⟨e, he, rfl⟩ := List.mem_map.1 hm
    exact hlisted.proper e (List.mem_filter.1 he).1
  case fits => exact fun name hm => ((hmem name).1 hm).1
  case all => exact fun name bytes hfits hfile => (hmem name).2 ⟨hfits, bytes, hfile⟩
  case run =>
    refine on_bind_ok ?_
    rw [on_listing, hlisting]

theorem Chosen.renewed (h : Chosen globs d t names stored) (hm : name ∈ names) :
    marker.renewed? globs name (d.node? (t ++ [name])) = marker.rewrite? (stored name) := by
  rw [h.file name hm, renewed?_of_file (h.fits name hm)]

theorem Chosen.mem_of_renewed (h : Chosen globs d t names stored)
    (hnew : marker.renewed? globs name (d.node? (t ++ [name])) = some new) : name ∈ names := by
  obtain ⟨hfits, bytes, hfile, -⟩ := renewed?_eq_some.1 hnew
  exact h.all name bytes hfits hfile

/-- Chosen files that were all updated are what a marker is to do in a directory. -/
theorem Chosen.rewrites (h : Chosen globs d t names stored)
    (hagree : Agree {v | ∃ name ∈ names, t ++ [name] <+: v} d d')
    (hupdated : ∀ name ∈ names,
      d'.subtree (t ++ [name]) = (Tree.file (marker.updated (stored name))).node?) :
    marker.Rewrites globs p t d d' ((Text.sortByName id
      (names.filter fun name => (marker.rewrite? (stored name)).isSome)).map p.join) := by
  refine ⟨hagree.here, ?replaced, ?kept, _, rfl, ?sorted, ?names⟩
  case replaced =>
    intro name new hnew
    have hm := h.mem_of_renewed hnew
    rw [h.renewed hm] at hnew
    rw [← subtree_nil, hupdated name hm, updated_eq, hnew]
    rfl
  case kept =>
    intro q hq
    by_cases hin : ∃ name ∈ names, t ++ [name] <+: q
    swap
    · exact hagree.node q hin
    obtain ⟨name, hm, r, rfl⟩ := hin
    have hafter := congrFun (hupdated name hm) r
    have hbefore := congrFun (subtree_of_get? (node?_eq_file.1 (h.file name hm))) r
    cases r with
    | nil =>
      have hnone := hq name (List.append_nil _)
      rw [List.append_nil, h.renewed hm] at hnone
      rw [updated_eq, hnone] at hafter
      exact hafter.trans hbefore.symm
    | cons other r => exact hafter.trans hbefore.symm
  case sorted => exact Text.sortByName_strict (h.nodup.filter _)
  case names =>
    intro name
    rw [(Text.sortByName_perm _ _).mem_iff, List.mem_filter]
    constructor
    · rintro ⟨hm, hsome⟩
      rwa [h.renewed hm]
    · intro hsome
      obtain ⟨new, hnew⟩ := Option.isSome_iff_exists.1 hsome
      have hm := h.mem_of_renewed hnew
      exact ⟨hm, by rwa [h.renewed hm] at hsome⟩

/-- The system takes the paths of all files that a marker is to look at in the directory `t`. -/
def Reaches (globs : List Glob) (p : Path) (t : Trail) (d : Disk) : Prop :=
  ∀ name bytes, globs.any (·.fits name) = true → d.node? (t ++ [name]) = some (.file bytes) →
    Takes p name

/-- A marker works in a directory in which it reaches the files. -/
theorem on_updateFiles (marker : Marker) (hp : d.Proper) (hd : d.Distinct) (hl : Leads d ∅ p t)
    (hc : check p = .ok ()) (hr : Reaches globs p t d) : ∃ paths d',
      on (marker.updateFiles globs p : Program Fault (List Path)) d = (.ok paths, d') ∧
      marker.Rewrites globs p t d d' paths := by
  obtain ⟨names, stored, hchosen, hrun⟩ := marker.exists_chosen globs hp hd hl hc
  have htakes : ∀ name ∈ names, Takes p name :=
    fun name hm => hr name _ (hchosen.fits name hm) (hchosen.file name hm)
  obtain ⟨d', hnamed, hagree, hupdated⟩ :=
    marker.on_updateNamed hl hchosen.proper hchosen.nodup htakes hchosen.file
  exact ⟨_, d', hrun.trans (on_bind_ok hnamed), hchosen.rewrites hagree hupdated⟩

theorem rewrites_of_updateFiles (hp : d.Proper) (hd : d.Distinct)
    (h : on (marker.updateFiles globs p : Program Fault (List Path)) d = (.ok paths, d')) :
    ∃ t, Leads d ∅ p t ∧ check p = .ok () ∧ Reaches globs p t d ∧
      marker.Rewrites globs p t d d' paths := by
  obtain ⟨es, d₀, hlist, -⟩ := on_bind_eq_ok.1 h
  rw [on_listing] at hlist
  obtain ⟨hlist, -⟩ := Prod.mk.inj hlist
  have hc := check_of_listing hlist
  obtain ⟨t, _, hl, -⟩ := listing_eq_ok hlist
  have hr : Reaches globs p t d := by
    obtain ⟨names, stored, hchosen, hrun⟩ := marker.exists_chosen globs hp hd hl hc
    obtain ⟨changed, d₁, hnamed, -⟩ := on_bind_eq_ok.1 (hrun.symm.trans h)
    intro name bytes hfits hfile
    exact takes_of_updateNamed hl hchosen.proper hchosen.nodup hchosen.file hnamed name
      (hchosen.all name bytes hfits hfile)
  obtain ⟨paths', d'', hdone, hrewrites⟩ := marker.on_updateFiles hp hd hl hc hr
  cases hdone.symm.trans h
  exact ⟨t, hl, hc, hr, hrewrites⟩

/-- The places of a directory decide what a marker does there. -/
theorem Rewrites.unique {e' : Disk} {paths' : List Path} (h : marker.Rewrites globs p t d d' paths)
    (h' : marker.Rewrites globs p t e e' paths') (hsame : ∀ q, e.node? q = d.node? q) :
    paths' = paths ∧ ∀ q, e'.node? q = d'.node? q := by
  obtain ⟨names, rfl, hsorted, hnames⟩ := h.listed
  obtain ⟨names', rfl, hsorted', hnames'⟩ := h'.listed
  refine ⟨?paths, fun q => ?node⟩
  case paths =>
    have hmem (name : String) : name ∈ names' ↔ name ∈ names := by
      rw [hnames, hnames', hsame]
    rw [Text.eq_of_strict hsorted' hsorted hmem]
  case node =>
    by_cases hq : ∃ name new, q = t ++ [name] ∧
        marker.renewed? globs name (d.node? (t ++ [name])) = some new
    · obtain ⟨name, new, rfl, hnew⟩ := hq
      rw [h.replaced name new hnew]
      exact h'.replaced name new (by rwa [hsame])
    · have hnone (name : String) (he : q = t ++ [name]) :
          marker.renewed? globs name (d.node? q) = none := by
        rw [Option.eq_none_iff_forall_ne_some]
        intro new hnew
        exact hq ⟨name, new, he, he ▸ hnew⟩
      have hkept := h'.kept q fun name he => by
        rw [hsame]
        exact hnone name he
      rw [h.kept q hnone, hkept, hsame]

/-- The directory becomes what the marker makes of it. -/
theorem Rewrites.marked (h : marker.Rewrites globs p t d d' paths) :
    Agree (inside t) d d' ∧ d'.subtree t = marker.marked globs (d.subtree t) := by
  constructor
  · refine ⟨h.here, fun q hq => h.kept q ?_⟩
    rintro name rfl
    exact absurd (below_child_subset t name (List.prefix_refl _)) hq
  · funext r
    rw [marked.eq_def]
    split
    · next name =>
      by_cases hnew : ∃ new, marker.renewed? globs name (d.node? (t ++ [name])) = some new
      · obtain ⟨new, hnew⟩ := hnew
        obtain ⟨hfits, bytes, hfile, hrewrite⟩ := renewed?_eq_some.1 hnew
        rw [if_pos hfits, subtree, subtree, h.replaced name new hnew, hfile, Option.map_some,
          Node.mapFile, updated_eq, hrewrite]
        rfl
      · have hkept : d'.subtree t [name] = d.subtree t [name] := by
          refine h.kept _ fun other he => ?_
          obtain ⟨-, hsame⟩ := List.append_inj' he rfl
          obtain rfl := (List.cons.inj hsame).1
          rw [Option.eq_none_iff_forall_ne_some]
          exact fun new h => hnew ⟨new, h⟩
        rw [hkept]
        split
        · next hfits =>
          cases hk : d.subtree t [name] with
          | none => rfl
          | some k =>
            cases k with
            | link _ => rfl
            | directory => rfl
            | file bytes =>
              have hold : marker.rewrite? bytes = none := by
                rw [Option.eq_none_iff_forall_ne_some]
                intro new h
                exact hnew ⟨new, renewed?_eq_some.2 ⟨hfits, bytes, hk, h⟩⟩
              rw [Option.map_some, Node.mapFile, updated_eq, hold]
              rfl
        · rfl
    · next hr =>
      refine h.kept _ fun name he => ?_
      exact absurd (List.append_cancel_left he) (hr name)

/-- A marker that works in a directory replaces the files that it is to replace, wherever the path
of the directory leads, and does the same on each disk that differs only in the order in which its
directories list their entries. -/
theorem updateFiles_rewrites (hp : d.Proper) (hd : d.Distinct)
    (h : on (marker.updateFiles globs p : Program Fault (List Path)) d = (.ok paths, d')) :
    ∃ t, Leads d ∅ p t ∧ marker.Rewrites globs p t d d' paths ∧
      ∀ e : Disk, e.Distinct → e.here = d.here → (∀ q, e.node? q = d.node? q) →
        ∃ e', on (marker.updateFiles globs p : Program Fault (List Path)) e = (.ok paths, e') ∧
          e'.here = d'.here ∧ ∀ q, e'.node? q = d'.node? q := by
  obtain ⟨t, hl, hc, hr, hrewrites⟩ := rewrites_of_updateFiles hp hd h
  refine ⟨t, hl, hrewrites, fun e hed hhere hsame => ?_⟩
  have hep : e.Proper := fun q hq => hp q (by rwa [hsame] at hq)
  have hel : Leads e ∅ p t := hl.carry hhere fun q _ _ => hsame q
  have her : Reaches globs p t e :=
    fun name bytes hfits hfile => hr name bytes hfits (by rwa [hsame] at hfile)
  obtain ⟨paths', e', hdone, hrewrites'⟩ := marker.on_updateFiles hep hed hel hc her
  obtain ⟨rfl, hnodes⟩ := hrewrites.unique hrewrites' hsame
  exact ⟨e', hdone, hrewrites'.here.trans (hhere.trans hrewrites.here.symm), hnodes⟩

/-- A directory in which two files are to be updated. The others are no text, have nothing to
replace or another name, and what is no file is passed over with all that stands below it. -/
def mixedEntries : List (String × Tree) := [
  ("b.js", .file ⟨#[0x6c, 0x6f, 0x67]⟩),
  ("link.js", .link "b.js"),
  ("a.js", .file ⟨#[0x6f]⟩),
  ("bytes.js", .file ⟨#[0x6f, 0xff]⟩),
  ("other.js", .file ⟨#[0x78]⟩),
  ("b.md", .file ⟨#[0x6f]⟩),
  ("in.js", .directory [("a.js", .file ⟨#[0x6f]⟩)])]

def mixedDisk (entries : List (String × Tree)) : Disk where
  root := .directory [("d", .directory entries)]
  here := []

def scripts : Glob := ⟨[.anyText, .char '.', .char 'j', .char 's']⟩

theorem mixedDisk_perm {es es' : List (String × Tree)} (hn : (Keyed.keys es).Nodup)
    (hp : es.Perm es') (q : Trail) : (mixedDisk es').node? q = (mixedDisk es).node? q := by
  have hsame := Tree.node?_perm hn hp
  rcases q with _ | ⟨name, r⟩
  · rfl
  · by_cases hd : name = "d"
    · subst hd
      exact congrFun hsame r
    · simp [mixedDisk, Disk.node?, Tree.node?, Tree.get?, Keyed.get?, Ne.symm hd]

theorem updateFiles_rewrites_mixed : ∃ d' e',
    on (updateFiles ⟨"o", "0"⟩ [scripts] ⟨"/d"⟩ : Program Fault (List Path))
      (mixedDisk mixedEntries) = (.ok [⟨"/d/a.js"⟩, ⟨"/d/b.js"⟩], d') ∧
    on (updateFiles ⟨"o", "0"⟩ [scripts] ⟨"/d"⟩ : Program Fault (List Path))
      (mixedDisk mixedEntries.reverse) = (.ok [⟨"/d/a.js"⟩, ⟨"/d/b.js"⟩], e') ∧
    d'.node? ["d", "b.js"] = some (.file ⟨#[0x6c, 0x30, 0x67]⟩) ∧
    d'.node? ["d", "link.js"] = some (.link "b.js") ∧
    d'.node? ["d", "in.js", "a.js"] = some (.file ⟨#[0x6f]⟩) ∧
    ∀ q, e'.node? q = d'.node? q := by
  have heval : (on (updateFiles ⟨"o", "0"⟩ [scripts] ⟨"/d"⟩ : Program Fault (List Path))
      (mixedDisk mixedEntries)).1.toOption = some [⟨"/d/a.js"⟩, ⟨"/d/b.js"⟩] := by decide +kernel
  cases hrun : on (updateFiles ⟨"o", "0"⟩ [scripts] ⟨"/d"⟩ : Program Fault (List Path))
      (mixedDisk mixedEntries) with
  | mk r d' =>
  rw [hrun] at heval
  cases r with
  | error e => cases heval
  | ok paths =>
    cases heval
    obtain ⟨t, hl, hrewrites, hrelisted⟩ := updateFiles_rewrites (proper_of_nodes (by decide))
      (Tree.distinct_of_holdings (by decide)) hrun
    have hheld : (mixedDisk mixedEntries).held true ⟨"/d"⟩ =
        .ok (["d"], .directory mixedEntries) := by rfl
    obtain rfl := (leads_of_held hheld).1.unique hl
    obtain ⟨e', hrun', -, hnodes⟩ := hrelisted (mixedDisk mixedEntries.reverse)
      (Tree.distinct_of_holdings (by decide)) rfl
        (mixedDisk_perm (by decide) (List.reverse_perm _).symm)
    refine ⟨d', e', rfl, hrun', hrewrites.replaced "b.js" _ (by decide +kernel), ?_, ?_, hnodes⟩
    · exact hrewrites.kept ["d", "link.js"] fun name he => rfl
    · exact hrewrites.kept ["d", "in.js", "a.js"] fun name he => by cases he

end Marker

end Vendoring
