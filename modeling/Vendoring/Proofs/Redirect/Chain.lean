import Vendoring.Redirect.Chain
import Mathlib.Order.Basic

/-! The chain of a specifier, told without a cap. A cap says no more than how far it is followed. -/
namespace Vendoring.AliasRegistry

variable {r : AliasRegistry} {active : List String} {raw spec next target a b : String}
  {i j k m n : Nat}

/-- The export map of a specifier's package leads to a specifier that is no relative path. -/
structure Reenters (r : AliasRegistry) (active : List String) (spec next : String) : Prop where
  exported : ∃ e m hit, r.lookup? (Specifier.parse spec).identity = some e ∧ e.exports? = some m ∧
    m.find? (Specifier.parse spec).subpath active = some hit ∧ hit.target = next
  bare : Specifier.isRelative next = false

/-- A specifier is handed to the lookup of files as `target`. -/
def Delegates (r : AliasRegistry) (active : List String) (spec target : String) : Prop :=
  (r.visit active spec).next = .delegate target

theorem Delegates.next_eq (h : r.Delegates active spec target) :
    (r.visit active spec).next = .delegate target := h

/-- A visit finds no entry, an export of the entry, or none. -/
theorem visit_cases (r : AliasRegistry) (active : List String) (spec : String) :
    (r.lookup? (Specifier.parse spec).identity = none ∧
      r.visit active spec = ⟨spec, Specifier.parse spec, none, none, .delegate spec⟩) ∨
    (∃ e hit, r.lookup? (Specifier.parse spec).identity = some e ∧
      e.exports?.bind (·.find? (Specifier.parse spec).subpath active) = some hit ∧
      r.visit active spec =
        ⟨spec, Specifier.parse spec, some e, some hit, e.followTarget hit.target⟩) ∨
    ∃ e, r.lookup? (Specifier.parse spec).identity = some e ∧
      e.exports?.bind (·.find? (Specifier.parse spec).subpath active) = none ∧
      r.visit active spec = ⟨spec, Specifier.parse spec, some e, none,
        e.fallback spec (Specifier.parse spec).subpath⟩ := by
  rw [visit]
  cases he : r.lookup? (Specifier.parse spec).identity with
  | none => exact Or.inl ⟨rfl, rfl⟩
  | some e =>
    dsimp only
    cases hhit : e.exports?.bind (·.find? (Specifier.parse spec).subpath active) with
    | some hit => exact Or.inr (Or.inl ⟨e, hit, rfl, hhit, rfl⟩)
    | none => exact Or.inr (Or.inr ⟨e, rfl, hhit, rfl⟩)

theorem Reenters.visit_eq (h : r.Reenters active spec next) : ∃ e hit,
    r.visit active spec = ⟨spec, Specifier.parse spec, some e, some hit, .reenter next⟩ ∧
      hit.target = next := by
  obtain ⟨⟨e, m, hit, he, hm, hfind, rfl⟩, hbare⟩ := h
  refine ⟨e, hit, ?_, rfl⟩
  rw [visit]
  simp [he, hm, hfind, AliasEntry.followTarget, hbare]

theorem next_eq_reenter_iff :
    (r.visit active spec).next = .reenter next ↔ r.Reenters active spec next := by
  constructor
  · intro h
    rcases r.visit_cases active spec with ⟨-, hv⟩ | ⟨e, hit, he, hhit, hv⟩ | ⟨e, -, -, hv⟩
    · rw [hv] at h
      cases h
    · rw [hv, AliasEntry.followTarget] at h
      obtain ⟨m, hm, hfind⟩ := Option.bind_eq_some_iff.1 hhit
      split at h
      · cases h
      · next hrel =>
        cases h
        exact ⟨⟨e, m, hit, he, hm, hfind, rfl⟩, Bool.eq_false_iff.2 hrel⟩
    · rw [hv, AliasEntry.fallback] at h
      cases h
  · intro h
    obtain ⟨e, hit, hv, -⟩ := h.visit_eq
    rw [hv]

theorem Reenters.unique (h : r.Reenters active spec a) (h' : r.Reenters active spec b) : a = b := by
  have hnext := (next_eq_reenter_iff.2 h).symm.trans (next_eq_reenter_iff.2 h')
  cases hnext
  rfl

/-- A specifier is delegated or looked up again, and not both. -/
theorem delegates_or_reenters (r : AliasRegistry) (active : List String) (spec : String) :
    (∃ target, r.Delegates active spec target) ∨ ∃ next, r.Reenters active spec next := by
  cases h : (r.visit active spec).next with
  | delegate target => exact Or.inl ⟨target, h⟩
  | reenter next => exact Or.inr ⟨next, next_eq_reenter_iff.1 h⟩

theorem Delegates.not_reenters (h : r.Delegates active spec target) :
    ¬ r.Reenters active spec next := by
  intro h'
  cases h.next_eq.symm.trans (next_eq_reenter_iff.2 h')

theorem visits_of_delegates (h : r.Delegates active raw target) (count : Nat) :
    r.visits active (count + 1) raw = [r.visit active raw] := by
  rw [visits]
  simp only [h.next_eq]

theorem visits_of_reenters (h : r.Reenters active raw next) (count : Nat) :
    r.visits active (count + 1) raw = r.visit active raw :: r.visits active count next := by
  rw [visits]
  simp only [next_eq_reenter_iff.2 h]

/-- The chain of `raw` stands at a specifier after so many re-entries. -/
inductive Reaches (r : AliasRegistry) (active : List String) (raw : String) : Nat → String → Prop
  | start : r.Reaches active raw 0 raw
  | again {n : Nat} {spec next : String} (h : r.Reaches active raw n spec)
      (hn : r.Reenters active spec next) : r.Reaches active raw (n + 1) next

/-- The chain of a specifier is delegated at no place. -/
def Endless (r : AliasRegistry) (active : List String) (raw : String) : Prop :=
  ∀ n, ∃ spec, r.Reaches active raw n spec

theorem Reaches.unique (h : r.Reaches active raw n a) (h' : r.Reaches active raw n b) : a = b := by
  induction h generalizing b with
  | start =>
    cases h'
    rfl
  | again _ hn ih =>
    cases h' with
    | again h' hn' =>
      obtain rfl := ih h'
      exact hn.unique hn'

theorem Reaches.trans (h : r.Reaches active raw m spec) (h' : r.Reaches active spec n next) :
    r.Reaches active raw (m + n) next := by
  induction h' with
  | start => exact h
  | again _ hn ih => exact .again ih hn

theorem Reaches.before (h : r.Reaches active raw (m + n) next) :
    ∃ spec, r.Reaches active raw m spec ∧ r.Reaches active spec n next := by
  induction n generalizing next with
  | zero => exact ⟨next, h, .start⟩
  | succ n ih =>
    cases h with
    | again h hn =>
      obtain ⟨spec, hm, hs⟩ := ih h
      exact ⟨spec, hm, .again hs hn⟩

/-- A chain that comes back to a specifier goes round for ever. -/
theorem Reaches.endless (hi : r.Reaches active raw i spec) (hj : r.Reaches active raw j spec)
    (hij : i < j) : r.Endless active raw := by
  obtain ⟨k, rfl⟩ := Nat.exists_eq_add_of_lt hij
  rw [Nat.add_assoc] at hj
  obtain ⟨other, hother, hround⟩ := hj.before
  obtain rfl := hother.unique hi
  have hrounds : ∀ n, r.Reaches active other (n * (k + 1)) other := by
    intro n
    induction n with
    | zero =>
      rw [Nat.zero_mul]
      exact .start
    | succ n ih =>
      rw [Nat.succ_mul]
      exact ih.trans hround
  intro n
  have hfar := hi.trans (hrounds n)
  have hlong : n + (i + n * (k + 1) - n) = i + n * (k + 1) := by
    have : n ≤ n * (k + 1) := Nat.le_mul_of_pos_right n (by omega)
    omega
  rw [← hlong] at hfar
  obtain ⟨stop, hstop, -⟩ := hfar.before
  exact ⟨stop, hstop⟩

/-- The visits up to a place of the chain all go on, and those behind it are its own. -/
theorem Reaches.visits_eq (h : r.Reaches active raw n spec) (count : Nat) :
    ∃ vs, r.visits active (n + count) raw = vs ++ r.visits active count spec ∧ vs.length = n ∧
      ∀ v ∈ vs, ∃ next, v.next = .reenter next := by
  induction h generalizing count with
  | start => exact ⟨[], by rw [Nat.zero_add, List.nil_append], rfl, nofun⟩
  | @again n spec next _ hn ih =>
    obtain ⟨vs, hvs, hlen, hall⟩ := ih (1 + count)
    refine ⟨vs ++ [r.visit active spec], ?_, by rw [List.length_append, hlen, List.length_singleton],
      fun v hv => ?_⟩
    · rw [Nat.add_assoc, hvs, Nat.add_comm 1, visits_of_reenters hn, List.append_assoc,
        List.singleton_append]
    · rcases List.mem_append.1 hv with hv | hv
      · exact hall v hv
      · obtain rfl := List.mem_singleton.1 hv
        exact ⟨next, next_eq_reenter_iff.2 hn⟩

/-- A cap that lets the chain come to its end does not matter. -/
theorem Reaches.redirect_eq_ok (h : r.Reaches active raw n spec)
    (hd : r.Delegates active spec target) (hm : n ≤ m) :
    r.redirect active m raw = .ok ⟨target, target ≠ raw, n⟩ := by
  obtain ⟨k, rfl⟩ := Nat.exists_eq_add_of_le hm
  obtain ⟨vs, hvs, hlen, -⟩ := h.visits_eq (k + 1)
  have hchain : r.chain active (n + k) raw = vs ++ [r.visit active spec] := by
    rw [chain, Nat.add_assoc, hvs, visits_of_delegates hd]
  rw [redirect, hchain]
  simp [hd.next_eq, hlen]

/-- A cap that cuts the chain off gives up on what was asked for. -/
theorem Reaches.redirect_eq_error (h : r.Reaches active raw (m + 1) spec) :
    r.redirect active m raw = .error ⟨raw, m⟩ := by
  obtain ⟨vs, hvs, hlen, hall⟩ := h.visits_eq 0
  have hchain : r.chain active m raw = vs := by
    rw [chain]
    simpa [visits] using hvs
  have hne : vs ≠ [] := by
    rintro rfl
    cases hlen
  obtain ⟨next, hnext⟩ := hall _ (List.getLast_mem hne)
  rw [redirect, hchain]
  simp [List.getLast?_eq_some_getLast hne, hnext]

/-- A chain comes to its end or goes on for ever. -/
theorem ends_or_endless (r : AliasRegistry) (active : List String) (raw : String) :
    (∃ n spec target, r.Reaches active raw n spec ∧ r.Delegates active spec target) ∨
      r.Endless active raw := by
  by_contra hnot
  obtain ⟨hends, hendless⟩ := not_or.1 hnot
  apply hendless
  intro n
  induction n with
  | zero => exact ⟨raw, .start⟩
  | succ n ih =>
    obtain ⟨spec, hs⟩ := ih
    rcases r.delegates_or_reenters active spec with ⟨target, hd⟩ | ⟨next, hn⟩
    · exact absurd ⟨n, spec, target, hs, hd⟩ hends
    · exact ⟨next, .again hs hn⟩

/-- The chain of a specifier is one, whatever the cap. If it ends, the caps that reach its end all
give that end, and smaller ones give up on what was asked for; if it does not end, as when it comes
back to a specifier, all caps give up. -/
theorem redirect_by_cap (r : AliasRegistry) (active : List String) (raw : String) :
    (∀ n a b, r.Reaches active raw n a → r.Reaches active raw n b → a = b) ∧
    (∀ h spec target, r.Reaches active raw h spec → r.Delegates active spec target →
      ∀ m, r.redirect active m raw =
        if h ≤ m then .ok ⟨target, target ≠ raw, h⟩ else .error ⟨raw, m⟩) ∧
    (r.Endless active raw → ∀ m, r.redirect active m raw = .error ⟨raw, m⟩) ∧
    (∀ i j spec, i < j → r.Reaches active raw i spec → r.Reaches active raw j spec →
      r.Endless active raw) ∧
    ((∃ h spec target, r.Reaches active raw h spec ∧ r.Delegates active spec target) ∨
      r.Endless active raw) := by
  refine ⟨fun n a b ha hb => ha.unique hb, fun h spec target hr hd m => ?_, fun hend m => ?_,
    fun i j spec hij hi hj => hi.endless hj hij, r.ends_or_endless active raw⟩
  · split
    · next hm => exact hr.redirect_eq_ok hd hm
    · next hm =>
      obtain ⟨k, rfl⟩ := Nat.exists_eq_add_of_lt (Nat.lt_of_not_le hm)
      have hsum : m + k + 1 = m + 1 + k := by omega
      rw [hsum] at hr
      obtain ⟨_, hcut, -⟩ := hr.before
      exact hcut.redirect_eq_error
  · obtain ⟨_, hcut⟩ := hend (m + 1)
    exact hcut.redirect_eq_error

/-- `a` leads to `b` with its copy in `v`, and `c` to itself. -/
def relaying : AliasRegistry :=
  ⟨[("a", ⟨"a", none, some ⟨[(".", .target "b")]⟩, none⟩), ("b", ⟨"b", some "./v/b", none, none⟩),
    ("c", ⟨"c", none, some ⟨[(".", .target "c")]⟩, none⟩)]⟩

theorem reaches_relaying : relaying.Reaches [] "a" 1 "b" :=
  .again .start (next_eq_reenter_iff.1 (by decide +kernel))

theorem delegates_relaying : relaying.Delegates [] "b" "./v/b" := by
  rw [Delegates]
  decide +kernel

theorem redirect_by_cap_relaying : relaying.redirect [] 0 "a" = .error ⟨"a", 0⟩ ∧
    relaying.redirect [] 1 "a" = .ok ⟨"./v/b", true, 1⟩ ∧
    ∀ m, relaying.redirect [] m "c" = .error ⟨"c", m⟩ := by
  obtain ⟨-, hends, -⟩ := redirect_by_cap relaying [] "a"
  obtain ⟨-, -, hendless, hrepeats, -⟩ := redirect_by_cap relaying [] "c"
  have hc : relaying.Reaches [] "c" 1 "c" :=
    .again .start (next_eq_reenter_iff.1 (by decide +kernel))
  have hchain := hends 1 _ _ reaches_relaying delegates_relaying
  exact ⟨hchain 0, hchain 1, hendless (hrepeats 0 1 "c" Nat.zero_lt_one .start hc)⟩

end Vendoring.AliasRegistry
