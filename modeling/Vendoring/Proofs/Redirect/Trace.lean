import Vendoring.Proofs.Redirect.Chain
import Vendoring.Redirect.Resolution

/-! What a trace tells: the visits of the chain, one segment of steps for each. A run that keeps a
record comes to the same end as one that keeps none. -/
namespace Vendoring

variable {r : AliasRegistry} {active : List String} {raw spec onward target : String}
  {depth count : Nat} {v : Visit} {vs : List Visit} {steps : List TraceStep}

/-- A step of a certain name and result. -/
structure TraceStep.Is (s : TraceStep) (name : TraceStep.Name) (ok : Bool) (depth : Nat) : Prop where
  name : s.name = name
  ok : s.ok = ok
  depth : s.depth = depth

def TraceStep.parsedDetail (s : Specifier) : String :=
  s!"identity '{s.identity}', subpath '{s.subpath}'"

/-- The step that takes `spec` apart. -/
structure TraceStep.Parses (s : TraceStep) (spec : String) (depth : Nat) : Prop
    extends s.Is .parseSpecifier true depth where
  detail : s.detail = parsedDetail (Specifier.parse spec)

/-- The segment of a specifier whose export is looked up in turn. -/
inductive Passing (depth : Nat) (spec next : String) : List TraceStep → Prop
  | mk {parse lookup exports back : TraceStep} (hparse : parse.Parses spec depth)
      (hlookup : lookup.Is .lookupAlias true depth)
      (hexports : exports.Is .resolveExports true depth) (hfound : exports.target? = some next)
      (hback : back.Is .reenter true depth) (hnext : back.target? = some next) :
      Passing depth spec next [parse, lookup, exports, back]

/-- The segment of a specifier that is handed on as `target`. -/
inductive Closing (r : AliasRegistry) (depth : Nat) (spec target : String) : List TraceStep → Prop
  | unlisted {parse lookup handed : TraceStep} (hparse : parse.Parses spec depth)
      (hlookup : lookup.Is .lookupAlias false depth)
      (hhanded : handed.Is .passThrough true depth) (htarget : handed.target? = some target) :
      Closing r depth spec target [parse, lookup, handed]
  | exported {parse lookup exports : TraceStep} {e : AliasEntry} {found : String}
      (hparse : parse.Parses spec depth) (hlookup : lookup.Is .lookupAlias true depth)
      (hexports : exports.Is .resolveExports true depth) (hfound : exports.target? = some found)
      (hentry : r.lookup? (Specifier.parse spec).identity = some e)
      (hrel : Specifier.isRelative found = true) (htarget : e.anchored found = target) :
      Closing r depth spec target [parse, lookup, exports]
  | unexported {parse lookup handed : TraceStep} {misses : List TraceStep}
      (hparse : parse.Parses spec depth) (hlookup : lookup.Is .lookupAlias true depth)
      (hmisses : misses = [] ∨ ∃ miss, misses = [miss] ∧ miss.Is .resolveExports false depth)
      (hhanded : handed.Is .vendoredPath true depth ∨ handed.Is .passThrough true depth)
      (htarget : handed.target? = some target) :
      Closing r depth spec target (parse :: lookup :: (misses ++ [handed]))

/-- The segments that a chain gives from `spec` on, where it stands at `depth`. It is handed on as
`target?`, or else cut off. -/
inductive Told (r : AliasRegistry) (active : List String) :
    Nat → String → (target? : Option String) → List (List TraceStep) → Prop
  | cut {depth : Nat} {spec : String} : Told r active depth spec none []
  | closed {depth : Nat} {spec target : String} {s : List TraceStep}
      (hd : r.Delegates active spec target) (hs : Closing r depth spec target s) :
      Told r active depth spec (some target) [s]
  | passed {depth : Nat} {spec next : String} {target? : Option String} {s : List TraceStep}
      {rest : List (List TraceStep)} (hn : r.Reenters active spec next)
      (hs : Passing depth spec next s) (h : Told r active (depth + 1) next target? rest) :
      Told r active depth spec target? (s :: rest)

namespace Visit

/-- The steps of each visit of a chain that stands at `depth`. -/
def segmentsFrom (depth : Nat) : List Visit → List (List TraceStep)
  | [] => []
  | v :: r => v.steps depth :: segmentsFrom (depth + 1) r

/-- What the last visit hands its specifier on as. -/
def delegated? (vs : List Visit) : Option String :=
  match vs.getLast?.map Visit.next with
  | some (.delegate target) => some target
  | _ => none

theorem stepsFrom_eq (depth : Nat) (vs : List Visit) :
    stepsFrom depth vs = (segmentsFrom depth vs).flatten := by
  induction vs generalizing depth with
  | nil => rfl
  | cons v vs ih => rw [stepsFrom, segmentsFrom, List.flatten_cons, ih]

theorem length_segmentsFrom (depth : Nat) (vs : List Visit) :
    (segmentsFrom depth vs).length = vs.length := by
  induction vs generalizing depth with
  | nil => rfl
  | cons v vs ih => rw [segmentsFrom, List.length_cons, List.length_cons, ih]

theorem delegated?_singleton (h : v.next = .delegate target) : delegated? [v] = some target := by
  simp [delegated?, h]

theorem delegated?_cons (h : v.next = .reenter onward) (vs : List Visit) :
    delegated? (v :: vs) = delegated? vs := by
  cases vs with
  | nil => simp [delegated?, h]
  | cons w vs => rw [delegated?, delegated?, List.getLast?_cons_cons]

end Visit

/-- What a redirection comes to once its file was looked up. -/
def Redirect.resolution (d : Redirect) : Except Lookup.Fault Path → Except ResolveFault Resolution
  | .ok path => .ok ⟨d, path⟩
  | .error f => .error (.lookup f)

namespace AliasRegistry
open Visit

theorem redirect_eq (r : AliasRegistry) (active : List String) (maxDepth : Nat) (raw : String) :
    r.redirect active maxDepth raw = match delegated? (r.chain active maxDepth raw) with
      | some target => .ok ⟨target, target ≠ raw, (r.chain active maxDepth raw).length - 1⟩
      | none => .error ⟨raw, maxDepth⟩ := by
  rw [redirect, delegated?]
  cases (r.chain active maxDepth raw).getLast?.map Visit.next with
  | none => rfl
  | some next => cases next <;> rfl

/-- A run that keeps a record ends like the chain, and adds the steps of the chain to the record. -/
theorem follow_eq (r : AliasRegistry) (active : List String) (maxDepth : Nat) (asked : String)
    (count depth : Nat) (raw : String) (record : List TraceStep) :
    r.follow active maxDepth asked count depth raw record =
      (match delegated? (r.visits active count raw) with
        | some target =>
          .ok ⟨target, target ≠ asked, depth + ((r.visits active count raw).length - 1)⟩
        | none => .error ⟨asked, maxDepth⟩,
      record ++ stepsFrom depth (r.visits active count raw)) := by
  induction count generalizing depth raw record with
  | zero => simp [follow, visits, stepsFrom, delegated?]
  | succ count ih =>
    rw [follow]
    rcases r.delegates_or_reenters active raw with ⟨target, hd⟩ | ⟨next, hn⟩
    · rw [visits_of_delegates hd, delegated?_singleton hd.next_eq]
      simp [hd.next_eq, stepsFrom]
    · have hnext := next_eq_reenter_iff.2 hn
      simp only [hnext]
      rw [visits_of_reenters hn, delegated?_cons hnext, ih, stepsFrom, List.append_assoc]
      cases hvs : r.visits active count next with
      | nil => rfl
      | cons w vs => simp [Nat.add_assoc, Nat.add_comm 1]

theorem redirectTraced_eq (r : AliasRegistry) (active : List String) (maxDepth : Nat)
    (raw : String) : r.redirectTraced active maxDepth raw =
      (r.redirect active maxDepth raw, r.trace active maxDepth raw) := by
  rw [redirectTraced, follow_eq, redirect_eq, trace, chain, Nat.zero_add, List.nil_append]

/-- The steps of a visit that goes on. -/
theorem Reenters.passing (h : r.Reenters active spec onward) (depth : Nat) :
    Passing depth spec onward ((r.visit active spec).steps depth) := by
  obtain ⟨e, hit, hv, htarget⟩ := h.visit_eq
  rw [hv]
  exact .mk ⟨⟨rfl, rfl, rfl⟩, rfl⟩ ⟨rfl, rfl, rfl⟩ ⟨rfl, rfl, rfl⟩ (congrArg some htarget)
    ⟨rfl, rfl, rfl⟩ rfl

/-- The step that hands a specifier on of which no export is found. -/
theorem fallbackStep_spec (v : Visit) (e : AliasEntry) (depth : Nat)
    (h : e.fallback v.raw v.specifier.subpath = .delegate target) :
    ((v.fallbackStep e depth).Is .vendoredPath true depth ∨
      (v.fallbackStep e depth).Is .passThrough true depth) ∧
        (v.fallbackStep e depth).target? = some target := by
  rw [AliasEntry.fallback] at h
  rw [fallbackStep]
  cases hp : e.vendoredPath? v.specifier.subpath with
  | some path =>
    rw [hp] at h
    cases h
    exact ⟨Or.inl ⟨rfl, rfl, rfl⟩, rfl⟩
  | none =>
    rw [hp] at h
    cases h
    exact ⟨Or.inr ⟨rfl, rfl, rfl⟩, rfl⟩

/-- The steps of a visit that hands its specifier on. -/
theorem Delegates.closing (h : r.Delegates active spec target) (depth : Nat) :
    Closing r depth spec target ((r.visit active spec).steps depth) := by
  have hnext := h.next_eq
  rcases r.visit_cases active spec with ⟨-, hv⟩ | ⟨e, hit, he, -, hv⟩ | ⟨e, -, -, hv⟩
  · rw [hv] at hnext ⊢
    cases hnext
    exact .unlisted ⟨⟨rfl, rfl, rfl⟩, rfl⟩ ⟨rfl, rfl, rfl⟩ ⟨rfl, rfl, rfl⟩ rfl
  · rw [hv] at hnext ⊢
    rw [AliasEntry.followTarget] at hnext ⊢
    split at hnext
    · next hrel =>
      cases hnext
      rw [if_pos hrel]
      exact .exported ⟨⟨rfl, rfl, rfl⟩, rfl⟩ ⟨rfl, rfl, rfl⟩ ⟨rfl, rfl, rfl⟩ rfl he hrel rfl
    · cases hnext
  · rw [hv] at hnext ⊢
    change e.fallback spec (Specifier.parse spec).subpath = .delegate target at hnext
    obtain ⟨hhanded, htarget⟩ := fallbackStep_spec ⟨spec, Specifier.parse spec, some e, none,
      .delegate target⟩ e depth hnext
    rw [hnext, Visit.steps]
    dsimp only [exportSteps, reenterSteps]
    rw [List.append_nil]
    refine .unexported ⟨⟨rfl, rfl, rfl⟩, rfl⟩ ⟨rfl, rfl, rfl⟩ ?_ hhanded htarget
    split
    · exact Or.inr ⟨_, rfl, rfl, rfl, rfl⟩
    · exact Or.inl rfl

/-- The segments of the visits from a specifier on. -/
theorem told_visits (r : AliasRegistry) (active : List String) (count depth : Nat) (raw : String) :
    Told r active depth raw (delegated? (r.visits active count raw))
      (segmentsFrom depth (r.visits active count raw)) := by
  induction count generalizing depth raw with
  | zero => exact .cut
  | succ count ih =>
    rcases r.delegates_or_reenters active raw with ⟨target, hd⟩ | ⟨onward, hn⟩
    · rw [visits_of_delegates hd, delegated?_singleton hd.next_eq]
      exact .closed hd (hd.closing depth)
    · rw [visits_of_reenters hn, delegated?_cons (next_eq_reenter_iff.2 hn)]
      exact .passed hn (hn.passing depth) (ih (depth + 1) onward)

/-- All visits that the cap allows are made if none of them hands its specifier on. -/
theorem length_visits (r : AliasRegistry) (active : List String) (count : Nat) (raw : String) :
    0 < (r.visits active (count + 1) raw).length ∧
      (delegated? (r.visits active count raw) = none →
        (r.visits active count raw).length = count) := by
  constructor
  · rcases r.delegates_or_reenters active raw with ⟨target, hd⟩ | ⟨onward, hn⟩
    · simp [visits_of_delegates hd]
    · simp [visits_of_reenters hn]
  · induction count generalizing raw with
    | zero => exact fun _ => rfl
    | succ count ih =>
      intro hnone
      rcases r.delegates_or_reenters active raw with ⟨target, hd⟩ | ⟨onward, hn⟩
      · rw [visits_of_delegates hd, delegated?_singleton hd.next_eq] at hnone
        cases hnone
      · rw [visits_of_reenters hn, delegated?_cons (next_eq_reenter_iff.2 hn)] at hnone
        rw [visits_of_reenters hn, List.length_cons, ih onward hnone]

section Lookup
variable {m : Type → Type} [Monad m] [LawfulMonad m]

theorem resolve_eq (r : AliasRegistry) (lookup : String → m (Except Lookup.Fault Path))
    (active : List String) (maxDepth : Nat) (raw : String) :
    (r.resolve lookup active maxDepth raw).run = match r.redirect active maxDepth raw with
      | .error o => pure (.error (.overflow o))
      | .ok d => d.resolution <$> lookup d.specifier := by
  rw [resolve]
  cases r.redirect active maxDepth raw with
  | error o => rfl
  | ok d =>
    refine (ExceptT.run_bind_lift (lookup d.specifier) _).trans ?_
    refine Eq.trans ?_ (map_eq_pure_bind d.resolution (lookup d.specifier)).symm
    congr
    funext found
    cases found <;> rfl

theorem resolveTraced_eq (r : AliasRegistry) (lookup : String → m (Except Lookup.Fault Path))
    (active : List String) (maxDepth : Nat) (raw : String) :
    r.resolveTraced lookup active maxDepth raw =
      (·, r.trace active maxDepth raw) <$> (r.resolve lookup active maxDepth raw).run := by
  rw [resolveTraced, redirectTraced_eq, resolve_eq]
  cases r.redirect active maxDepth raw with
  | error o => simp
  | ok d =>
    simp only [map_eq_pure_bind, bind_assoc, pure_bind]
    congr
    funext found
    cases found <;> rfl

/-- A traced run resolves like one without a trace, by the redirection that is taken there, and its
trace tells the chain segment by segment: one for each re-entry and one for the end, or as many as
the cap allows. -/
theorem resolveTraced_tells (r : AliasRegistry) (lookup : String → m (Except Lookup.Fault Path))
    (active : List String) (maxDepth : Nat) (raw : String) :
    (r.resolveTraced lookup active maxDepth raw =
      (·, r.trace active maxDepth raw) <$> (r.resolve lookup active maxDepth raw).run) ∧
    ((r.resolve lookup active maxDepth raw).run = match r.redirect active maxDepth raw with
      | .error o => pure (.error (.overflow o))
      | .ok d => d.resolution <$> lookup d.specifier) ∧
    ∃ target? segments, r.trace active maxDepth raw = segments.flatten ∧
      Told r active 0 raw target? segments ∧
      (∀ d, r.redirect active maxDepth raw = .ok d →
        target? = some d.specifier ∧ segments.length = d.hops + 1) ∧
      (∀ o, r.redirect active maxDepth raw = .error o →
        target? = none ∧ segments.length = maxDepth + 1) := by
  refine ⟨r.resolveTraced_eq lookup active maxDepth raw, r.resolve_eq lookup active maxDepth raw,
    _, _, stepsFrom_eq 0 (r.chain active maxDepth raw),
    r.told_visits active (maxDepth + 1) 0 raw, fun d hd => ?_, fun o ho => ?_⟩
  · rw [redirect_eq] at hd
    rw [length_segmentsFrom]
    split at hd
    · next target htarget =>
      cases hd
      have hpos := (r.length_visits active maxDepth raw).1
      exact ⟨htarget, (Nat.sub_add_cancel hpos).symm⟩
    · cases hd
  · rw [redirect_eq] at ho
    rw [length_segmentsFrom]
    split at ho
    · cases ho
    · next hnone => exact ⟨hnone, (r.length_visits active (maxDepth + 1) raw).2 hnone⟩

theorem resolveTraced_tells_relaying :
    relaying.resolveTraced (fun spec => (pure (.ok ⟨spec⟩) : Id _)) [] 3 "a" =
      (.ok ⟨⟨"./v/b", true, 1⟩, ⟨"./v/b"⟩⟩, relaying.trace [] 3 "a") ∧
    ∃ segments, relaying.trace [] 3 "a" = segments.flatten ∧
      Told relaying [] 0 "a" (some "./v/b") segments ∧ segments.length = 2 := by
  obtain ⟨htraced, hresolve, target?, segments, htrace, htold, hok, -⟩ :=
    resolveTraced_tells relaying (fun spec => (pure (.ok ⟨spec⟩) : Id _)) [] 3 "a"
  have hredirect : relaying.redirect [] 3 "a" = .ok ⟨"./v/b", true, 1⟩ := by decide +kernel
  obtain ⟨rfl, hlength⟩ := hok _ hredirect
  rw [hredirect] at hresolve
  rw [hresolve] at htraced
  exact ⟨htraced, segments, htrace, htold, hlength⟩

end Lookup

end AliasRegistry

end Vendoring
