import Vendoring.Proofs.ExportMap.Meaning

/-! Neither the order in which keys and conditions are declared nor the conditions that no choice
asks for change what is found. -/
namespace Vendoring.ExportMap

variable {active active' asked : List String} {subpath key : String}
  {bs cs bs' : List (String × Node)} {m m' : ExportMap}

mutual

/-- The conditions that the choices of a node ask for. -/
def Node.conditions : Node → List String
  | .target _ => []
  | .choice branches => Keyed.keys branches ++ conditionsOf branches

def conditionsOf : List (String × Node) → List String
  | [] => []
  | (_, n) :: r => n.conditions ++ conditionsOf r

end

/-- The conditions that are asked for anywhere in a map. -/
def conditions (m : ExportMap) : List String := conditionsOf m.entries

/-- The active conditions that are among those asked for, in the order in which they come first. -/
def heeded (asked active : List String) : List String :=
  (active.filter (· ∈ asked)).eraseDups

mutual

/-- A node with the branches of its choices in another order. -/
inductive Node.Reordered : Node → Node → Prop
  | target (t : String) : Node.Reordered (.target t) (.target t)
  | choice {bs cs bs' : List (String × Node)} (nodes : ReorderedIn bs cs) (order : cs.Perm bs') :
      Node.Reordered (.choice bs) (.choice bs')

/-- The same keys in the same order, each with its node reordered. -/
inductive ReorderedIn : List (String × Node) → List (String × Node) → Prop
  | nil : ReorderedIn [] []
  | cons {key : String} {n n' : Node} {r r' : List (String × Node)} (node : n.Reordered n')
      (rest : ReorderedIn r r') : ReorderedIn ((key, n) :: r) ((key, n') :: r')

end

/-- The same map but for the order of keys, at the top and in each choice. -/
def Reordered (m m' : ExportMap) : Prop :=
  ∃ entries, ReorderedIn m.entries entries ∧ entries.Perm m'.entries

/-! ## Conditions that nothing asks for -/

theorem find?_eraseDups {p : String → Bool} (l : List String) :
    l.eraseDups.find? p = l.find? p := by
  induction l using List.reverseRecOn with
  | nil => rfl
  | append_singleton front c ih =>
    rw [List.eraseDups_append, List.find?_append, List.find?_append, ih]
    by_cases hm : c ∈ front
    · -- A repetition is not reached: if it is looked for, it was found before.
      have hnew : [c].removeAll front = [] := by simp [List.removeAll, hm]
      rw [hnew, List.eraseDups_nil, List.find?_nil, Option.or_none]
      cases hf : front.find? p with
      | some _ => rfl
      | none =>
        have hc : ¬ p c = true := List.find?_eq_none.1 hf c hm
        rw [List.find?_cons_of_neg hc]
        rfl
    · have hnew : [c].removeAll front = [c] := by simp [List.removeAll, hm]
      rw [hnew]
      rfl

theorem find?_heeded {p : String → Bool} (active : List String) (h : ∀ c, p c = true → c ∈ asked) :
    (heeded asked active).find? p = active.find? p := by
  rw [heeded, find?_eraseDups, List.find?_filter]
  congr 1
  funext c
  by_cases hc : p c = true
  · simp [hc, h c hc]
  · simp [hc]

theorem chosen?_of_heeded (hk : ∀ c ∈ Keyed.keys bs, c ∈ asked)
    (h : heeded asked active = heeded asked active') : chosen? active bs = chosen? active' bs := by
  have hasked : ∀ c, Keyed.contains bs c = true → c ∈ asked := fun c hc =>
    hk c (contains_iff.1 hc)
  rw [chosen?, chosen?, List.find?_append, List.find?_append, ← find?_heeded active hasked,
    ← find?_heeded active' hasked, h]

mutual

theorem select?_of_heeded (h : heeded asked active = heeded asked active') :
    ∀ n : Node, (∀ c ∈ n.conditions, c ∈ asked) → n.select? active = n.select? active'
  | .target _, _ => rfl
  | .choice bs, ha => by
    rw [Node.conditions] at ha
    obtain ⟨hkeys, hbelow⟩ := List.forall_mem_append.1 ha
    rw [Node.select?, Node.select?, chosen?_of_heeded hkeys h]
    split
    · next condition _ => rw [selectAt?_of_heeded h condition bs hbelow]
    · rfl

theorem selectAt?_of_heeded (h : heeded asked active = heeded asked active') (condition : String) :
    ∀ bs : List (String × Node), (∀ c ∈ conditionsOf bs, c ∈ asked) →
      selectAt? active condition bs = selectAt? active' condition bs
  | [], _ => rfl
  | (key, n) :: r, ha => by
    rw [conditionsOf] at ha
    obtain ⟨hnode, hrest⟩ := List.forall_mem_append.1 ha
    rw [selectAt?, selectAt?, select?_of_heeded h n hnode,
      selectAt?_of_heeded h condition r hrest]

end

/-! ## Keys in another order -/

theorem ReorderedIn.keys_eq (h : ReorderedIn bs cs) : Keyed.keys cs = Keyed.keys bs := by
  induction bs generalizing cs with
  | nil =>
    cases h
    rfl
  | cons b r ih =>
    cases h with
    | cons _ rest =>
      simp only [Keyed.keys, List.map_cons] at ih ⊢
      rw [ih rest]

theorem ReorderedIn.nodup_keys (h : ReorderedIn bs cs) (hn : (Keyed.keys bs).Nodup) :
    (Keyed.keys cs).Nodup := by
  rwa [h.keys_eq]

theorem ReorderedIn.mem_keys (h : ReorderedIn bs cs) (hp : cs.Perm bs') :
    key ∈ Keyed.keys bs ↔ key ∈ Keyed.keys bs' := by
  have hkeys : (Keyed.keys cs).Perm (Keyed.keys bs') := hp.map _
  rw [← h.keys_eq, hkeys.mem_iff]

theorem selectAt?_perm {condition : String} (hn : (Keyed.keys cs).Nodup) (hp : cs.Perm bs') :
    selectAt? active condition cs = selectAt? active condition bs' := by
  rw [selectAt?_eq_bind, selectAt?_eq_bind, Keyed.get?_perm hn hp]

theorem chosen?_of_keys (h : ∀ c, c ∈ Keyed.keys bs ↔ c ∈ Keyed.keys bs') :
    chosen? active bs = chosen? active bs' := by
  have hcontains : Keyed.contains bs = Keyed.contains bs' := by
    funext c
    rw [Bool.eq_iff_iff, contains_iff, contains_iff, h]
  rw [chosen?, chosen?, hcontains]

mutual

/-- In a choice the caller's order decides, not that of the branches. -/
theorem select?_reordered :
    ∀ {n n' : Node}, n.Reordered n' → n.Distinct → n.select? active = n'.select? active
  | .target _, _, h, _ => by
    cases h
    rfl
  | .choice bs, _, h, hd => by
    rw [Node.Distinct] at hd
    cases h with
    | choice nodes order =>
      have hn := nodes.nodup_keys hd.1
      rw [Node.select?, Node.select?, chosen?_of_keys fun _ => nodes.mem_keys order]
      split
      · next condition _ =>
        rw [selectAt?_reordered condition nodes hd.2, selectAt?_perm hn order]
      · rfl

theorem selectAt?_reordered (condition : String) :
    ∀ {bs cs : List (String × Node)}, ReorderedIn bs cs → DistinctIn bs →
      selectAt? active condition bs = selectAt? active condition cs
  | [], _, h, _ => by
    cases h
    rfl
  | (key, n) :: r, _, h, hd => by
    cases h with
    | cons node rest =>
      rw [selectAt?, selectAt?, select?_reordered node hd.1,
        selectAt?_reordered condition rest hd.2]

end

/-- Neither the order of keys nor what no choice asks for matters: maps that differ only in the
order of keys, at the top and in every choice, find the same for conditions that are the same as
far as they are asked for. -/
theorem find?_of_reordered (hd : m.Distinct) (hr : m.Reordered m')
    (hc : heeded m.conditions active = heeded m.conditions active') :
    m.find? subpath active = m'.find? subpath active' := by
  obtain ⟨entries, nodes, order⟩ := hr
  have hn := nodes.nodup_keys hd.1
  apply find?_congr fun _ => nodes.mem_keys order
  intro key
  calc selectAt? active key m.entries
    _ = selectAt? active' key m.entries := selectAt?_of_heeded hc key m.entries fun _ h => h
    _ = selectAt? active' key entries := selectAt?_reordered key nodes hd.2
    _ = selectAt? active' key m'.entries := selectAt?_perm hn order

/-- Two patterns and a choice in a choice, all the other way around, for conditions that are
repeated and mixed with two that nothing asks for. -/
theorem find?_of_reordered_nested :
    let inner := Node.choice [("node", .target "./node/*.js"), ("default", .target "./web/*.js")]
    let inner' := Node.choice [("default", .target "./web/*.js"), ("node", .target "./node/*.js")]
    let m : ExportMap :=
      ⟨[("./*", .choice [("require", .target "./cjs/*.js"), ("import", inner)]),
        ("./a*", .target "./a/*.js")]⟩
    let m' : ExportMap :=
      ⟨[("./a*", .target "./a/*.js"),
        ("./*", .choice [("import", inner'), ("require", .target "./cjs/*.js")])]⟩
    m.find? "/x" ["import", "node"] = some ⟨"./*", ["import", "node"], "./node/x.js"⟩ ∧
      m.find? "/x" ["import", "node"] =
        m'.find? "/x" ["browser", "import", "import", "worker", "node", "import"] := by
  intro inner inner' m m'
  have hd : m.Distinct := by
    simp [m, inner, Distinct, Keyed.keys, DistinctIn, Node.Distinct]
  have hr : m.Reordered m' := by
    have hinner : inner.Reordered inner' :=
      .choice (.cons (.target _) (.cons (.target _) .nil)) (.swap _ _ _)
    have hnodes : ReorderedIn [("require", .target "./cjs/*.js"), ("import", inner)]
        [("require", .target "./cjs/*.js"), ("import", inner')] :=
      .cons (.target _) (.cons hinner .nil)
    exact ⟨_, .cons (.choice hnodes (.swap _ _ _)) (.cons (.target _) .nil), .swap _ _ _⟩
  exact ⟨by decide +kernel, find?_of_reordered hd hr (by decide +kernel)⟩

end Vendoring.ExportMap
