import Vendoring.Proofs.Keyed
import Vendoring.Proofs.Redirect.Trace

/-! What a resolution asks of a registry: the entries of the packages that its chain comes to, and
nothing else. -/
namespace Vendoring.AliasRegistry

variable {r r' : AliasRegistry} {active : List String} {raw spec next target : String}
  {count maxDepth n : Nat}

/-- The packages that the chain of a specifier comes to, as far as the cap lets it go. -/
def visited (r : AliasRegistry) (active : List String) (maxDepth : Nat) (raw : String) :
    Set String :=
  {identity | ∃ n spec, n ≤ maxDepth ∧ r.Reaches active raw n spec ∧
    (Specifier.parse spec).identity = identity}

/-- Two registries resolve a specifier alike: to the same end, by the same steps. -/
structure ResolvesLike (r r' : AliasRegistry) (active : List String) (maxDepth : Nat)
    (raw : String) : Prop where
  redirect : r'.redirect active maxDepth raw = r.redirect active maxDepth raw
  trace : r'.trace active maxDepth raw = r.trace active maxDepth raw
  resolve : ∀ (m : Type → Type) [Monad m] (lookup : String → m (Except Lookup.Fault Path)),
    r'.resolve lookup active maxDepth raw = r.resolve lookup active maxDepth raw
  resolveTraced : ∀ (m : Type → Type) [Monad m] (lookup : String → m (Except Lookup.Fault Path)),
    r'.resolveTraced lookup active maxDepth raw = r.resolveTraced lookup active maxDepth raw

theorem Reaches.behind (hn : r.Reenters active raw next) (h : r.Reaches active next n spec) :
    r.Reaches active raw (n + 1) spec := by
  rw [Nat.add_comm]
  exact (Reaches.again .start hn).trans h

/-- A chain goes no further than to where it is delegated. -/
theorem Reaches.le_of_delegates {k : Nat} (h : r.Reaches active raw n spec)
    (hd : r.Delegates active spec target) (hk : r.Reaches active raw k next) : k ≤ n := by
  by_contra hlt
  obtain ⟨l, rfl⟩ := Nat.exists_eq_add_of_lt (Nat.lt_of_not_le hlt)
  rw [Nat.add_assoc, Nat.add_comm l] at hk
  obtain ⟨_, hstart, hrest⟩ := hk.before
  obtain rfl := hstart.unique h
  obtain ⟨_, hfirst, -⟩ := hrest.before
  cases hfirst with
  | again hs hn =>
    cases hs
    exact hd.not_reenters hn

theorem visit_congr (h : r'.lookup? (Specifier.parse raw).identity =
    r.lookup? (Specifier.parse raw).identity) (active : List String) :
    r'.visit active raw = r.visit active raw := by
  rw [visit, visit, h]

theorem visits_congr (h : ∀ n spec, n < count → r.Reaches active raw n spec →
    r'.lookup? (Specifier.parse spec).identity = r.lookup? (Specifier.parse spec).identity) :
    r'.visits active count raw = r.visits active count raw := by
  induction count generalizing raw with
  | zero => rfl
  | succ count ih =>
    have hvisit := visit_congr (h 0 raw count.succ_pos .start) active
    rcases r.delegates_or_reenters active raw with ⟨target, hd⟩ | ⟨next, hn⟩
    · have hd' : r'.Delegates active raw target := by
        rw [Delegates, hvisit]
        exact hd
      rw [visits_of_delegates hd, visits_of_delegates hd', hvisit]
    · have hn' : r'.Reenters active raw next := by
        rw [← next_eq_reenter_iff, hvisit, next_eq_reenter_iff]
        exact hn
      rw [visits_of_reenters hn, visits_of_reenters hn', hvisit,
        ih fun n spec hlt hr => h (n + 1) spec (Nat.succ_lt_succ hlt) (hr.behind hn)]

theorem resolvesLike_of_visited (h : ∀ identity ∈ r.visited active maxDepth raw,
    r'.lookup? identity = r.lookup? identity) : ResolvesLike r r' active maxDepth raw := by
  have hchain : r'.chain active maxDepth raw = r.chain active maxDepth raw :=
    visits_congr fun n spec hlt hr => h _ ⟨n, spec, Nat.le_of_lt_succ hlt, hr, rfl⟩
  have hredirect : r'.redirect active maxDepth raw = r.redirect active maxDepth raw := by
    rw [redirect, redirect, hchain]
  have htrace : r'.trace active maxDepth raw = r.trace active maxDepth raw := by
    rw [trace, trace, hchain]
  refine ⟨hredirect, htrace, fun m _ lookup => ?_, fun m _ lookup => ?_⟩
  · rw [resolve, resolve, hredirect]
  · rw [resolveTraced, resolveTraced, redirectTraced_eq, redirectTraced_eq, hredirect, htrace]

/-- A resolution does not change unless an entry changes that its chain asks for: entries of other
packages may be added, replaced, removed and put in another order. -/
theorem resolve_locally (r : AliasRegistry) (active : List String) (maxDepth : Nat)
    (raw : String) :
    (∀ r' : AliasRegistry, (∀ identity ∈ r.visited active maxDepth raw,
      r'.lookup? identity = r.lookup? identity) → ResolvesLike r r' active maxDepth raw) ∧
    (∀ e : AliasEntry, e.identity ∉ r.visited active maxDepth raw →
      ResolvesLike r (r.insert e) active maxDepth raw) ∧
    (∀ identity, identity ∉ r.visited active maxDepth raw →
      ResolvesLike r ⟨r.entries.erase identity⟩ active maxDepth raw) ∧
    (∀ entries : Keyed AliasEntry, r.entries.keys.Nodup → r.entries.Perm entries →
      ResolvesLike r ⟨entries⟩ active maxDepth raw) := by
  refine ⟨fun r' h => resolvesLike_of_visited h, fun e he => resolvesLike_of_visited ?_,
    fun identity hi => resolvesLike_of_visited ?_,
    fun entries hk hp => resolvesLike_of_visited fun identity _ => ?_⟩
  · intro identity hm
    refine Keyed.get?_insert_of_ne ?_ r.entries e
    rintro rfl
    exact he hm
  · intro other hm
    refine Keyed.get?_erase_of_ne ?_ r.entries
    rintro rfl
    exact hi hm
  · exact Keyed.get?_perm hk hp

/-- The chain of `a` asks for `a` and `b` alone. -/
theorem resolve_locally_relaying : "c" ∉ relaying.visited [] 3 "a" ∧
    ResolvesLike relaying ⟨relaying.entries.erase "c"⟩ [] 3 "a" ∧
    ResolvesLike relaying (relaying.insert ⟨"c", some "./v/c", none, none⟩) [] 3 "a" ∧
    ResolvesLike relaying ⟨relaying.entries.reverse⟩ [] 3 "a" := by
  obtain ⟨-, hinsert, herase, hperm⟩ := resolve_locally relaying [] 3 "a"
  have hc : "c" ∉ relaying.visited [] 3 "a" := by
    rintro ⟨n, spec, -, hr, hi⟩
    have hn : n = 0 ∨ n = 1 := Nat.le_one_iff_eq_zero_or_eq_one.1
      (reaches_relaying.le_of_delegates delegates_relaying hr)
    rcases hn with rfl | rfl
    · obtain rfl := hr.unique .start
      exact absurd hi (by decide +kernel)
    · obtain rfl := hr.unique reaches_relaying
      exact absurd hi (by decide +kernel)
  exact ⟨hc, herase "c" hc, hinsert _ hc,
    hperm _ (by decide +kernel) (List.reverse_perm _).symm⟩

end Vendoring.AliasRegistry
