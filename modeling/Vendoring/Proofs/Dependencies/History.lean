import Vendoring.Proofs.Dependencies

/-! Sets that go on being used after calls that failed. Whatever calls came, the set lists what the
calls that worked declare, each name where and as it was declared first. -/
namespace Vendoring.Dependencies

/-- A package and what it declares. -/
abbrev Call := String × List (String × String)

variable {s s' : Dependencies} {package : String} {d : String × String}
  {declared : List (String × String)} {known : Keyed Dependency} {c : Conflict}
  {call : Call} {calls : List Call}

/-- The set after a call. Where the call fails, the set stays as it is. -/
def take (s : Dependencies) (call : Call) : Dependencies :=
  match s.merge call.1 call.2 with
  | .ok s' => s'
  | .error _ => s

/-- The set that calls leave, failed ones among them. -/
def session (calls : List Call) : Dependencies := calls.foldl take empty

/-- The calls that work, one after the other. -/
def worked (s : Dependencies) : List Call → List Call
  | [] => []
  | call :: r =>
    match s.merge call.1 call.2 with
    | .ok s' => call :: worked s' r
    | .error _ => worked s r

/-- What a call declares, each name with its range and the package. -/
def declaredBy (call : Call) : Keyed Dependency := call.2.map fun d => (d.1, ⟨d.2, call.1⟩)

/-- All that calls declare, in their order. -/
def declarations (calls : List Call) : Keyed Dependency := calls.flatMap declaredBy

/-- The set has the name of a declaration with another range. -/
def Disputes (s : Dependencies) (d : String × String) : Prop :=
  ∃ first, s.get? d.1 = some first ∧ first.range ≠ d.2

/-- The set has each name that was declared once, in the order of the first declarations, and with
what the first one says. -/
structure Records (s : Dependencies) (known : Keyed Dependency) : Prop where
  names : s.entries.keys = known.keys.eraseDups
  first : ∀ name, s.get? name = known.get? name

/-! ## One call -/

theorem conflict?_eq_some_iff : s.conflict? package d = some c ↔
    ∃ first, s.get? d.1 = some first ∧ first.range ≠ d.2 ∧
      c = ⟨d.1, first, ⟨d.2, package⟩⟩ := by
  rw [conflict?]
  cases s.get? d.1 with
  | none => simp
  | some first => simp [eq_comm]

theorem not_disputes_iff :
    ¬ s.Disputes d ↔ ∀ range, s.range? d.1 = some range → range = d.2 := by
  rw [Disputes, range?]
  cases s.get? d.1 with
  | none => simp
  | some first => simp

/-- A call fails with the first declaration that the set disputes. -/
theorem merge_eq_error : s.merge package declared = .error c ↔
    ∃ before d after first, declared = before ++ d :: after ∧ (∀ e ∈ before, ¬ s.Disputes e) ∧
      s.get? d.1 = some first ∧ first.range ≠ d.2 ∧ c = ⟨d.1, first, ⟨d.2, package⟩⟩ := by
  have hrun : s.merge package declared = .error c ↔
      declared.findSome? (s.conflict? package) = some c := by
    rw [merge]
    cases declared.findSome? (s.conflict? package) <;> simp
  rw [hrun, List.findSome?_eq_some_iff]
  simp only [conflict?_eq_some_iff, conflict?_eq_none_iff, ← not_disputes_iff]
  constructor
  · rintro ⟨before, d, after, hsplit, ⟨first, hfirst, hne, hc⟩, hbefore⟩
    exact ⟨before, d, after, first, hsplit, hbefore, hfirst, hne, hc⟩
  · rintro ⟨before, d, after, first, hsplit, hbefore, hfirst, hne, hc⟩
    exact ⟨before, d, after, hsplit, ⟨first, hfirst, hne, hc⟩, hbefore⟩

theorem exists_merge_eq_error_iff :
    (∃ c, s.merge package declared = .error c) ↔ ∃ d ∈ declared, s.Disputes d := by
  constructor
  · rintro ⟨c, h⟩
    obtain ⟨before, d, after, first, rfl, -, hfirst, hne, -⟩ := merge_eq_error.1 h
    exact ⟨d, by simp, first, hfirst, hne⟩
  · rintro ⟨d, hd, hdispute⟩
    cases h : s.merge package declared with
    | error c => exact ⟨c, rfl⟩
    | ok s' =>
      have hagree := (merge_eq_ok.1 h).1 d hd
      exact absurd hdispute (not_disputes_iff.2 hagree)

theorem take_of_ok (h : s.merge call.1 call.2 = .ok s') : s.take call = s' := by
  rw [take, h]

theorem take_of_error (h : s.merge call.1 call.2 = .error c) : s.take call = s := by
  rw [take, h]

/-! ## What a set records -/

theorem records_empty : empty.Records [] := by
  constructor
  · rfl
  · intro name
    rfl

theorem Records.nodup (h : s.Records known) : s.entries.keys.Nodup := by
  have hkeys : known.keys.eraseDups = (Keyed.ofList known).keys := (Keyed.keys_ofList known).symm
  rw [h.names, hkeys]
  exact Keyed.nodup_ofList known

theorem Records.declare (h : s.Records known) (package : String) (d : String × String) :
    (s.declare package d).Records (known ++ [(d.1, ⟨d.2, package⟩)]) := by
  constructor
  · have hkeys : (known ++ [(d.1, (⟨d.2, package⟩ : Dependency))]).keys = known.keys ++ [d.1] := by
      simp [Keyed.keys]
    have hmem : d.1 ∈ known.keys ↔ (s.get? d.1).isSome := by
      rw [Keyed.mem_keys_iff, h.first]
    rw [hkeys, Keyed.eraseDups_concat, ← h.names, Dependencies.declare]
    cases hd : s.get? d.1 with
    | some first => rw [if_pos (hmem.2 (by rw [hd]; rfl))]
    | none =>
      rw [if_neg (fun hm => by simpa [hd] using hmem.1 hm)]
      simp [Keyed.keys]
  · intro name
    rw [get?_declare, h.first, Keyed.get?_append]
    rfl

theorem Records.foldl_declare (h : s.Records known) (package : String)
    (declared : List (String × String)) :
    (declared.foldl (·.declare package ·) s).Records (known ++ declaredBy (package, declared)) := by
  induction declared generalizing s known with
  | nil => simpa [declaredBy] using h
  | cons d r ih =>
    have hrest := ih (h.declare package d)
    rw [List.append_assoc] at hrest
    exact hrest

theorem Records.merge (h : s.Records known) (hm : s.merge package declared = .ok s') :
    s'.Records (known ++ declaredBy (package, declared)) := by
  obtain ⟨-, rfl⟩ := merge_eq_ok.1 hm
  exact h.foldl_declare package declared

/-! ## A session -/

theorem Records.foldl_take (h : s.Records known) (calls : List Call) :
    (calls.foldl take s).Records (known ++ declarations (worked s calls)) := by
  induction calls generalizing s known with
  | nil => simpa [worked, declarations] using h
  | cons call r ih =>
    rw [List.foldl_cons, worked]
    cases hm : s.merge call.1 call.2 with
    | error c =>
      rw [take_of_error hm]
      exact ih h
    | ok s' =>
      have hrest := ih (h.merge hm)
      rw [List.append_assoc] at hrest
      rw [take_of_ok hm]
      exact hrest

theorem worked_append (s : Dependencies) (before after : List Call) :
    worked s (before ++ after) = worked s before ++ worked (before.foldl take s) after := by
  induction before generalizing s with
  | nil => rfl
  | cons call r ih =>
    rw [List.cons_append, worked, worked, List.foldl_cons]
    cases hm : s.merge call.1 call.2 with
    | error c => rw [take_of_error hm]; exact ih s
    | ok s' => rw [take_of_ok hm]; exact congrArg (call :: ·) (ih s')

theorem session_concat (calls : List Call) (call : Call) :
    session (calls ++ [call]) = (session calls).take call := by
  rw [session, List.foldl_append]
  rfl

/-- Packages that can be merged in one go are recorded in full. -/
theorem Records.mergeAll (h : s.Records known) {packages : List Call}
    (hm : s.mergeAll packages = .ok s') : s'.Records (known ++ declarations packages) := by
  induction packages generalizing s known with
  | nil =>
    cases hm
    simpa [declarations] using h
  | cons p r ih =>
    obtain ⟨t, ht, hm⟩ := Outcome.bind_eq_ok.1 hm
    have hrest := ih (h.merge ht) hm
    rw [List.append_assoc] at hrest
    exact hrest

/-- At any time in a session the set lists the names of the calls that worked, where and as they
were declared first. The next call fails exactly if the set disputes one of its declarations; it
then names the first of these with what is recorded, and leaves the set as it is. -/
theorem session_records (calls : List Call) :
    (session calls).Records (declarations (worked empty calls)) ∧
    ∀ package declared,
      ((∃ c, (session calls).merge package declared = .error c) ↔
        ∃ d ∈ declared, (session calls).Disputes d) ∧
      (∀ c, (session calls).merge package declared = .error c →
        (∃ before d after first, declared = before ++ d :: after ∧
          (∀ e ∈ before, ¬ (session calls).Disputes e) ∧
          (session calls).get? d.1 = some first ∧ first.range ≠ d.2 ∧
          c = ⟨d.1, first, ⟨d.2, package⟩⟩) ∧
        session (calls ++ [(package, declared)]) = session calls ∧
        worked empty (calls ++ [(package, declared)]) = worked empty calls) ∧
      ∀ s', (session calls).merge package declared = .ok s' →
        session (calls ++ [(package, declared)]) = s' ∧
        worked empty (calls ++ [(package, declared)]) =
          worked empty calls ++ [(package, declared)] := by
  refine ⟨records_empty.foldl_take calls, ?_⟩
  intro package declared
  have hlast : worked empty (calls ++ [(package, declared)]) =
      worked empty calls ++ worked (session calls) [(package, declared)] :=
    worked_append empty calls [(package, declared)]
  refine ⟨exists_merge_eq_error_iff, ?failed, ?took⟩
  case failed =>
    intro c hc
    refine ⟨merge_eq_error.1 hc, ?_, ?_⟩
    · rw [session_concat]
      exact take_of_error hc
    · rw [hlast, worked, hc]
      exact List.append_nil _
  case took =>
    intro s' hs'
    constructor
    · rw [session_concat]
      exact take_of_ok hs'
    · rw [hlast, worked, hs']
      rfl

/-- A call that fails for its second declaration does not add its first one. -/
example : (session [("a", [("x", "1")]), ("b", [("y", "1"), ("x", "2")]),
    ("c", [("y", "3"), ("x", "1")])]).entries = [("x", ⟨"1", "a"⟩), ("y", ⟨"3", "c"⟩)] := by
  decide

end Vendoring.Dependencies
