import Vendoring.Proofs.Json.Word

/-! A written value, word by word. The layout puts blanks between the words and nothing else. -/
namespace Vendoring.Json
open Token

mutual

/-- A value of which nothing is lost in its text: no doubles, integers that are read as integers,
and no name twice in an object. -/
def Exact : Json → Prop
  | .null | .bool _ | .string _ => True
  | .int n => -(twoTo 63 : Int) ≤ n ∧ n < twoTo 64
  | .double _ => False
  | .array items => ItemsExact items
  | .object fields => (fields.map (·.1)).Nodup ∧ FieldsExact fields

def ItemsExact : List Json → Prop
  | [] => True
  | v :: r => v.Exact ∧ ItemsExact r

def FieldsExact : List (String × Json) → Prop
  | [] => True
  | (_, v) :: r => v.Exact ∧ FieldsExact r

end

/-- The number that a double is written as. -/
def numeralOfDouble (x : Double) : Numeral :=
  match first? (DecimalLayout.document.write x) with
  | some (.number y, _) => y
  | _ => ⟨false, [], [], none⟩

/-- A double that is read back as it is written. -/
structure ToldDouble (x : Double) : Prop where
  scan : ∀ r, Ends r →
    scan (DecimalLayout.document.write x ++ r) = .number (numeralOfDouble x) :: scan r
  value : (numeralOfDouble x).value? = some (.double x)

mutual

/-- A value that can be told from its text: each number is read back as it is written, and no name
stands twice in an object. -/
def Told : Json → Prop
  | .null | .bool _ | .string _ => True
  | .int n => -(twoTo 63 : Int) ≤ n ∧ n < twoTo 64
  | .double x => ToldDouble x
  | .array items => ItemsTold items
  | .object fields => (fields.map (·.1)).Nodup ∧ FieldsTold fields

def ItemsTold : List Json → Prop
  | [] => True
  | v :: r => v.Told ∧ ItemsTold r

def FieldsTold : List (String × Json) → Prop
  | [] => True
  | (_, v) :: r => v.Told ∧ FieldsTold r

end

mutual

theorem Exact.told : ∀ v : Json, v.Exact → v.Told
  | .null, _ => trivial
  | .bool _, _ => trivial
  | .int _, h => h
  | .double _, h => h.elim
  | .string _, _ => trivial
  | .array items, h => itemsTold_of_exact items h
  | .object fields, h => ⟨h.1, fieldsTold_of_exact fields h.2⟩

theorem itemsTold_of_exact : ∀ vs : List Json, ItemsExact vs → ItemsTold vs
  | [], _ => trivial
  | v :: vs, h => ⟨Exact.told v h.1, itemsTold_of_exact vs h.2⟩

theorem fieldsTold_of_exact : ∀ fs : List (String × Json), FieldsExact fs → FieldsTold fs
  | [], _ => trivial
  | (_, v) :: fs, h => ⟨Exact.told v h.1, fieldsTold_of_exact fs h.2⟩

end

mutual

/-- The words of a written value. -/
def words : Json → List Token
  | .null => [.null]
  | .bool b => [.bool b]
  | .int n => [.number (numeralOf n)]
  | .double x => [.number (numeralOfDouble x)]
  | .string s => [.string (some s)]
  | .array [] => [.openArray, .closeArray]
  | .array (v :: r) => .openArray :: words v ++ itemWords r ++ [.closeArray]
  | .object [] => [.openObject, .closeObject]
  | .object ((name, v) :: r) =>
    .openObject :: .string (some name) :: .colon :: words v ++ fieldWords r ++ [.closeObject]

/-- The words of the items behind the first. -/
def itemWords : List Json → List Token
  | [] => []
  | v :: r => .comma :: words v ++ itemWords r

/-- The words of the fields behind the first. -/
def fieldWords : List (String × Json) → List Token
  | [] => []
  | (name, v) :: r => .comma :: .string (some name) :: .colon :: words v ++ fieldWords r

end

/-- A layout of blanks. -/
structure Layout.Blank (l : Layout) : Prop where
  first : ∀ depth, ∀ c ∈ (l.breaks depth).first, isBlank c = true
  between : ∀ depth, ∃ b, (l.breaks depth).between = ',' :: b ∧ ∀ c ∈ b, isBlank c = true
  last : ∀ depth, ∀ c ∈ (l.breaks depth).last, isBlank c = true
  colon : ∃ b, l.colon = ':' :: b ∧ ∀ c ∈ b, isBlank c = true

theorem isBlank_newLine {depth : Nat} {c : Char} (h : c ∈ newLine depth) : isBlank c = true := by
  rcases List.mem_cons.1 h with rfl | h
  · decide
  · rw [List.eq_of_mem_replicate h]
    decide

theorem Layout.blank_compact : Layout.compact.Blank where
  first _ _ hc := absurd hc List.not_mem_nil
  between _ := ⟨[], rfl, fun _ hc => absurd hc List.not_mem_nil⟩
  last _ _ hc := absurd hc List.not_mem_nil
  colon := ⟨[], rfl, fun _ hc => absurd hc List.not_mem_nil⟩

theorem Layout.blank_pretty : Layout.pretty.Blank where
  first _ _ := isBlank_newLine
  between _ := ⟨_, rfl, fun _ => isBlank_newLine⟩
  last _ _ := isBlank_newLine
  colon := ⟨[' '], rfl, by simp [isBlank]⟩

variable {l : Layout} {b r : List Char}

theorem ends_blanks (hb : ∀ c ∈ b, isBlank c = true) (hr : Ends r) : Ends (b ++ r) := by
  cases b with
  | nil => exact hr
  | cons c b =>
    intro d hd
    cases hd
    have hc := hb c (List.mem_cons_self ..)
    simp only [isBlank, Bool.or_eq_true, decide_eq_true_eq] at hc
    rcases hc with ((rfl | rfl) | rfl) | rfl <;> decide

theorem ends_mark {c : Char} (h : c ∈ [',', ']', '\x7d']) : Ends (c :: r) := by
  intro d hd
  cases hd
  simp only [List.mem_cons, List.not_mem_nil, or_false] at h
  rcases h with rfl | rfl | rfl <;> decide

theorem scan_colon (hl : l.Blank) : scan (l.colon ++ r) = .colon :: scan r := by
  obtain ⟨b, hb, hblank⟩ := hl.colon
  rw [hb, List.cons_append, scan_at (by decide) rfl, scan_blanks hblank]

theorem scan_between (hl : l.Blank) (depth : Nat) :
    scan ((l.breaks depth).between ++ r) = .comma :: scan r := by
  obtain ⟨b, hb, hblank⟩ := hl.between depth
  rw [hb, List.cons_append, scan_at (by decide) rfl, scan_blanks hblank]

theorem ends_between (hl : l.Blank) (depth : Nat) : Ends ((l.breaks depth).between ++ r) := by
  obtain ⟨b, hb, -⟩ := hl.between depth
  rw [hb]
  exact ends_mark (by decide)

theorem ends_writeItems (hl : l.Blank) (depth : Nat) (vs : List Json) (hr : Ends r) :
    Ends (writeItems l depth vs ++ r) := by
  cases vs with
  | nil => exact hr
  | cons v vs =>
    rw [writeItems, List.append_assoc, List.append_assoc]
    exact ends_between hl depth

theorem ends_writeFields (hl : l.Blank) (depth : Nat) (fs : List (String × Json)) (hr : Ends r) :
    Ends (writeFields l depth fs ++ r) := by
  cases fs with
  | nil => exact hr
  | cons f fs =>
    obtain ⟨name, v⟩ := f
    simp only [writeFields, List.append_assoc]
    exact ends_between hl depth

mutual

/-- Whatever follows a value is scanned as if it stood alone. -/
theorem scan_write (hl : l.Blank) (depth : Nat) :
    ∀ (v : Json) (r : List Char), v.Told → Ends r →
      scan (write l depth v ++ r) = words v ++ scan r
  | .null, _, _, _ => scan_at (by decide) rfl
  | .bool true, _, _, _ => scan_at (by decide) rfl
  | .bool false, _, _, _ => scan_at (by decide) rfl
  | .int _, _, _, hr => scan_writtenInt _ hr
  | .double _, _, h, hr => h.scan _ hr
  | .string _, _, _, _ => scan_writtenString _ _
  | .array [], _, _, _ => by
    rw [write, List.cons_append, scan_at (by decide) rfl]
    exact congrArg _ (scan_at (by decide) rfl)
  | .array (v :: vs), r, hv, _ => by
    have hlast := hl.last depth
    have hends : Ends ((l.breaks depth).last ++ ']' :: r) :=
      ends_blanks hlast (ends_mark (by decide))
    simp only [write, words, List.append_assoc, List.cons_append, List.nil_append]
    rw [scan_at (by decide) rfl, scan_blanks (hl.first depth),
      scan_write hl (depth + 1) v _ hv.1 (ends_writeItems hl depth vs hends),
      scan_writeItems hl depth vs _ hv.2 hends, scan_blanks hlast, scan_at (by decide) rfl]
  | .object [], _, _, _ => by
    rw [write, List.cons_append, scan_at (by decide) rfl]
    exact congrArg _ (scan_at (by decide) rfl)
  | .object ((name, v) :: fs), r, hv, _ => by
    have hlast := hl.last depth
    have hends : Ends ((l.breaks depth).last ++ '\x7d' :: r) :=
      ends_blanks hlast (ends_mark (by decide))
    simp only [write, words, List.append_assoc, List.cons_append, List.nil_append]
    rw [scan_at (by decide) rfl, scan_blanks (hl.first depth), scan_writtenString, scan_colon hl,
      scan_write hl (depth + 1) v _ hv.2.1 (ends_writeFields hl depth fs hends),
      scan_writeFields hl depth fs _ hv.2.2 hends, scan_blanks hlast, scan_at (by decide) rfl]

theorem scan_writeItems (hl : l.Blank) (depth : Nat) :
    ∀ (vs : List Json) (r : List Char), ItemsTold vs → Ends r →
      scan (writeItems l depth vs ++ r) = itemWords vs ++ scan r
  | [], _, _, _ => rfl
  | v :: vs, r, hv, hr => by
    simp only [writeItems, itemWords, List.append_assoc, List.cons_append]
    rw [scan_between hl, scan_write hl (depth + 1) v _ hv.1 (ends_writeItems hl depth vs hr),
      scan_writeItems hl depth vs r hv.2 hr]

theorem scan_writeFields (hl : l.Blank) (depth : Nat) :
    ∀ (fs : List (String × Json)) (r : List Char), FieldsTold fs → Ends r →
      scan (writeFields l depth fs ++ r) = fieldWords fs ++ scan r
  | [], _, _, _ => rfl
  | (name, v) :: fs, r, hv, hr => by
    simp only [writeFields, fieldWords, List.append_assoc, List.cons_append]
    rw [scan_between hl, scan_writtenString, scan_colon hl,
      scan_write hl (depth + 1) v _ hv.1 (ends_writeFields hl depth fs hr),
      scan_writeFields hl depth fs r hv.2 hr]

end

end Vendoring.Json
