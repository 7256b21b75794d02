import Vendoring.Proofs.Alias.Registry

/-! Registries after any history of loads. What is loaded last for a package counts, and the first
load of a package gives it its place in the order. -/
namespace Vendoring

/-- One step of the making of a registry. -/
inductive Load
  | entry (e : AliasEntry)
  | manifest (m : AliasManifest) (anchor? : Option Path)

/-- The entries that a step supplies, in their order. -/
def Load.entries : Load → List AliasEntry
  | .entry e => [e]
  | .manifest m anchor? => m.aliases.map fun a => a.2.toEntry a.1 anchor?

/-- The entry with its relative paths starting from `anchor?`. -/
def AliasEntry.rebased (e : AliasEntry) (anchor? : Option Path) : AliasEntry := { e with anchor? }

namespace AliasRegistry

variable {r : AliasRegistry} {e : AliasEntry} {es : List AliasEntry} {step : Load}
  {steps : List Load} {identity : String}

def load (r : AliasRegistry) : Load → AliasRegistry
  | .entry e => r.insert e
  | .manifest m anchor? => r.addManifest m anchor?

/-- The registry that a history of loads leaves. -/
def loaded (steps : List Load) : AliasRegistry := steps.foldl load empty

/-- All entries that a history supplies. -/
def supplied (steps : List Load) : List AliasEntry := steps.flatMap Load.entries

theorem load_eq (r : AliasRegistry) (step : Load) :
    r.load step = step.entries.foldl insert r := by
  cases step with
  | entry e => rfl
  | manifest m anchor? =>
    rw [Load.entries, List.foldl_map]
    rfl

theorem loaded_eq (steps : List Load) : loaded steps = (supplied steps).foldl insert empty := by
  rw [supplied, List.foldl_flatMap, loaded]
  congr 1
  funext r step
  exact load_eq r step

/-! ## Keys -/

/-- Each package has one entry, which stands under its identity. -/
structure Sound (r : AliasRegistry) : Prop where
  distinct : r.entries.keys.Nodup
  own : ∀ a ∈ r.entries, a.2.identity = a.1

theorem sound_empty : empty.Sound := by
  constructor
  · exact List.nodup_nil
  · intro a ha
    cases ha

theorem sound_insert (h : r.Sound) (e : AliasEntry) : (r.insert e).Sound := by
  constructor
  · exact Keyed.nodup_keys_insert h.distinct _ _
  · intro a ha
    rcases Keyed.mem_insert ha with rfl | ha
    · rfl
    · exact h.own a ha

theorem sound_foldl_insert (h : r.Sound) (es : List AliasEntry) : (es.foldl insert r).Sound := by
  induction es generalizing r with
  | nil => exact h
  | cons e es ih => exact ih (sound_insert h e)

theorem sound_loaded (steps : List Load) : (loaded steps).Sound := by
  rw [loaded_eq]
  exact sound_foldl_insert sound_empty _

theorem Sound.identities_eq (h : r.Sound) : r.toList.map (·.identity) = r.entries.keys := by
  rw [toList, Keyed.values, List.map_map]
  exact List.map_congr_left h.own

/-! ## Entries -/

theorem lookup?_insert (r : AliasRegistry) (e : AliasEntry) (identity : String) :
    (r.insert e).lookup? identity = if e.identity = identity then some e else r.lookup? identity := by
  split
  · next he =>
    subst he
    exact Keyed.get?_insert_self ..
  · next he => exact Keyed.get?_insert_of_ne he ..

/-- The last entry of a package counts, and none counts if a package has no new one. -/
theorem lookup?_foldl_insert (es : List AliasEntry) (r : AliasRegistry) (identity : String) :
    (es.foldl insert r).lookup? identity =
      (es.filter (·.identity = identity)).getLast?.or (r.lookup? identity) := by
  induction es generalizing r with
  | nil => rfl
  | cons e es ih =>
    -- What comes later goes first, so that `e` is asked only if no later entry is for its package.
    rw [List.foldl_cons, ih, lookup?_insert]
    by_cases he : e.identity = identity
    · have hfilter : (e :: es).filter (fun d => d.identity = identity) =
          e :: es.filter (fun d => d.identity = identity) :=
        List.filter_cons_of_pos (decide_eq_true he)
      rw [if_pos he, hfilter, List.getLast?_cons]
      cases (es.filter (fun d => d.identity = identity)).getLast? <;> rfl
    · have hfilter : (e :: es).filter (fun d => d.identity = identity) =
          es.filter (fun d => d.identity = identity) :=
        List.filter_cons_of_neg (by simpa using he)
      rw [if_neg he, hfilter]

/-- A package stands where its first entry was put. -/
theorem keys_loaded (steps : List Load) :
    (loaded steps).entries.keys = ((supplied steps).map (·.identity)).eraseDups := by
  have hkeys := Keyed.keys_ofList ((supplied steps).map fun e => (e.identity, e))
  rw [List.map_map] at hkeys
  rw [loaded_eq, entries_foldl_insert]
  exact hkeys

/-! ## There and back -/

theorem aliases_toManifest (h : r.Sound) :
    r.toManifest.aliases = r.entries.map fun a => (a.1, a.2.toRecord) := by
  have hentries : r.toList.map (fun e => (e.identity, e.toRecord)) =
      r.entries.map fun a => (a.1, a.2.toRecord) := by
    rw [toList, Keyed.values, List.map_map]
    apply List.map_congr_left
    intro a ha
    exact Prod.ext (h.own a ha) rfl
  have hkeys : Keyed.keys (r.entries.map fun a => (a.1, a.2.toRecord)) = r.entries.keys := by
    simp [Keyed.keys]
  have hmanifest := AliasManifest.foldl_insert_eq (fun e : AliasEntry => (e.identity, e.toRecord))
    r.toList []
  rw [hentries] at hmanifest
  calc r.toManifest.aliases
      = Keyed.ofList (r.entries.map fun a => (a.1, a.2.toRecord)) :=
        congrArg AliasManifest.aliases hmanifest
    _ = r.entries.map fun a => (a.1, a.2.toRecord) := Keyed.ofList_of_nodup (hkeys ▸ h.distinct)

/-- A registry that is made again from its manifest has the same entries, at another anchor. -/
theorem entries_again (h : r.Sound) (anchor? : Option Path) :
    (ofManifest r.toManifest anchor?).entries =
      r.entries.map fun a => (a.1, a.2.rebased anchor?) := by
  have hkeys : r.toManifest.aliases.keys = r.entries.keys := by
    simp [Keyed.keys, aliases_toManifest h]
  rw [entries_ofManifest (hkeys ▸ h.distinct), aliases_toManifest h, List.map_map]
  apply List.map_congr_left
  rintro ⟨key, e⟩ ha
  obtain rfl : e.identity = key := h.own _ ha
  rfl

/-- What a history leaves: under each identity the last entry that was supplied for it, as it was
supplied, in the order of the first ones. Made again from its manifest, the registry differs in the
anchors only. -/
theorem loaded_contents (steps : List Load) :
    (∀ identity, (loaded steps).lookup? identity =
      ((supplied steps).filter (·.identity = identity)).getLast?) ∧
    (∀ a ∈ (loaded steps).entries, a.2.identity = a.1) ∧
    (loaded steps).toList.map (·.identity) = ((supplied steps).map (·.identity)).eraseDups ∧
    ((loaded steps).toList.map (·.identity)).Nodup ∧
    ∀ anchor? : Option Path,
      (∀ identity, (ofManifest (loaded steps).toManifest anchor?).lookup? identity =
        ((loaded steps).lookup? identity).map (·.rebased anchor?)) ∧
      (ofManifest (loaded steps).toManifest anchor?).toList =
        (loaded steps).toList.map (·.rebased anchor?) := by
  have hsound := sound_loaded steps
  have hidentities := hsound.identities_eq
  refine ⟨?last, hsound.own, hidentities.trans (keys_loaded steps),
    hidentities ▸ hsound.distinct, ?again⟩
  case last =>
    intro identity
    rw [loaded_eq, lookup?_foldl_insert]
    exact Option.or_none
  case again =>
    intro anchor?
    have hentries := entries_again hsound anchor?
    constructor
    · intro identity
      have hmap := Keyed.get?_map (fun _ (e : AliasEntry) => e.rebased anchor?)
        (loaded steps).entries identity
      rw [lookup?, hentries]
      exact hmap
    · rw [toList, hentries, toList, Keyed.values, Keyed.values, List.map_map, List.map_map]
      rfl

end AliasRegistry

end Vendoring
