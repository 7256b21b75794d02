import Vendoring.Proofs.Keyed
import Vendoring.Proofs.Path
import Vendoring.Proofs.Redirect.Chain

/-! What a registry made of a manifest finds, and when a specifier leaves it at the first visit. -/
namespace Vendoring

variable {r : AliasRegistry} {m : AliasManifest} {e : AliasEntry}
  {anchor? : Option Path} {active : List String} {raw spec identity : String}

/-- Insertions into a manifest are insertions into its table. -/
theorem AliasManifest.foldl_insert_eq {β : Type} (f : β → String × AliasRecord) (xs : List β)
    (t : Keyed AliasRecord) :
    xs.foldl (fun m x => m.insert (f x).1 (f x).2)
        (⟨AliasManifest.currentSchema, t⟩ : AliasManifest) =
      ⟨AliasManifest.currentSchema, (xs.map f).foldl (fun t e => t.insert e.1 e.2) t⟩ := by
  induction xs generalizing t with
  | nil => rfl
  | cons x r ih => exact ih _

namespace AliasRegistry

theorem entries_foldl_insert (es : List AliasEntry) (r : AliasRegistry) :
    (es.foldl insert r).entries =
      (es.map fun e => (e.identity, e)).foldl (fun t a => t.insert a.1 a.2) r.entries := by
  induction es generalizing r with
  | nil => rfl
  | cons e es ih => exact ih _

theorem entries_addManifest : (r.addManifest m anchor?).entries =
    (m.aliases.map fun a => (a.1, a.2.toEntry a.1 anchor?)).foldl
      (fun t a => t.insert a.1 a.2) r.entries := by
  have hentries := entries_foldl_insert (m.aliases.map fun a => a.2.toEntry a.1 anchor?) r
  rw [List.foldl_map, List.map_map] at hentries
  exact hentries

/-- A manifest that has each package once is taken as it stands. -/
theorem entries_ofManifest (h : m.aliases.keys.Nodup) (anchor? : Option Path) :
    (ofManifest m anchor?).entries = m.aliases.map fun a => (a.1, a.2.toEntry a.1 anchor?) := by
  have hk : Keyed.keys (m.aliases.map fun a => (a.1, a.2.toEntry a.1 anchor?)) = m.aliases.keys := by
    simp [Keyed.keys]
  rw [ofManifest, entries_addManifest]
  exact Keyed.ofList_of_nodup (hk ▸ h)

theorem lookup?_ofManifest (h : m.aliases.keys.Nodup) (anchor? : Option Path)
    (identity : String) :
    (ofManifest m anchor?).lookup? identity =
      (m.aliases.get? identity).map (·.toEntry identity anchor?) := by
  rw [lookup?, entries_ofManifest h]
  exact Keyed.get?_map (fun identity (a : AliasRecord) => a.toEntry identity anchor?) ..

/-- The first visit is the last one. -/
theorem redirect_of_delegate (h : (r.visit active raw).next = .delegate spec) (maxDepth : Nat) :
    r.redirect active maxDepth raw = .ok ⟨spec, spec ≠ raw, 0⟩ :=
  Reaches.start.redirect_eq_ok h (Nat.zero_le maxDepth)

theorem next_of_unlisted (h : r.lookup? (Specifier.parse raw).identity = none) :
    (r.visit active raw).next = .delegate raw := by
  rw [visit]
  simp only [h]

end AliasRegistry

namespace AliasEntry

/-- All that an entry redirects to starts from its anchor. -/
structure Confined (e : AliasEntry) : Prop where
  root : ∃ root, e.root? = some root ∧
    ∀ subpath, Specifier.isRelative
      (String.ofList (Text.dropTrailing '/' root.toList) ++ subpath) = true
  targets : ∀ m, e.exports? = some m → ∀ subpath active hit, m.find? subpath active = some hit →
    Specifier.isRelative hit.target = true

end AliasEntry

namespace AliasRegistry

theorem next_of_confined (h : r.lookup? (Specifier.parse raw).identity = some e)
    (hc : e.Confined) (active : List String) :
    ∃ rel, Specifier.isRelative rel = true ∧
      (r.visit active raw).next = .delegate (e.anchored rel) := by
  obtain ⟨root, hroot, hrel⟩ := hc.root
  rw [visit]
  simp only [h]
  split
  · next hit hm =>
    obtain ⟨m, hm, hit?⟩ := Option.bind_eq_some_iff.1 hm
    have ht := hc.targets m hm _ _ _ hit?
    refine ⟨hit.target, ht, ?_⟩
    simp [AliasEntry.followTarget, ht]
  · refine ⟨_, hrel (Specifier.parse raw).subpath, ?_⟩
    simp [AliasEntry.fallback, AliasEntry.vendoredPath?, hroot]

theorem next_of_passThrough
    (h : r.lookup? (Specifier.parse raw).identity =
      some (AliasRecord.passThrough.toEntry identity anchor?)) :
    (r.visit active raw).next = .delegate raw := by
  rw [visit]
  simp only [h]
  rfl

end AliasRegistry

end Vendoring
