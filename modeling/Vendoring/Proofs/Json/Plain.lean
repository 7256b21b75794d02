import Vendoring.Proofs.Json.Reading

/-! Texts whose numbers are written as integers of 64 bits. What is read from such a text can be
told from its own text again: of the doubles only minus zero comes from one. -/
namespace Vendoring.Json
open Outcome Token

/-- A number that is written without a fraction and without an exponent, and fits into 64 bits. -/
structure Numeral.Plain (x : Numeral) : Prop where
  fraction : x.fraction = []
  exponent : x.exponent = none
  least : x.negative = true → decimalValue x.whole ≤ twoTo 63
  greatest : decimalValue x.whole < twoTo 64

instance (x : Numeral) : Decidable x.Plain :=
  decidable_of_iff (x.fraction = [] ∧ x.exponent = none ∧
      (x.negative = true → decimalValue x.whole ≤ twoTo 63) ∧ decimalValue x.whole < twoTo 64)
    ⟨fun ⟨hf, he, hl, hg⟩ => ⟨hf, he, hl, hg⟩, fun ⟨hf, he, hl, hg⟩ => ⟨hf, he, hl, hg⟩⟩

/-- A word that is a plain number if it is a number at all. -/
def Token.Plain : Token → Prop
  | .number x => x.Plain
  | _ => True

instance (t : Token) : Decidable t.Plain :=
  match t with
  | .number x => inferInstanceAs (Decidable x.Plain)
  | .openArray | .closeArray | .openObject | .closeObject | .comma | .colon | .null | .bool _
  | .string _ | .stray => isTrue trivial

/-- All numbers of a text are plain. -/
def PlainText (text : String) : Prop := ∀ t ∈ scan text.toList, t.Plain

instance (text : String) : Decidable (PlainText text) :=
  inferInstanceAs (Decidable (∀ t ∈ scan text.toList, t.Plain))

/-- All numbers of a draft are plain. -/
inductive Draft.Plain : Draft → Prop
  | null : Plain .null
  | bool (b : Bool) : Plain (.bool b)
  | number {x : Numeral} (h : x.Plain) : Plain (.number x)
  | string (text? : Option String) : Plain (.string text?)
  | array {items : List Draft} (h : ∀ d ∈ items, Plain d) : Plain (.array items)
  | object {fields : List (Option String × Draft)} (h : ∀ f ∈ fields, Plain f.2) :
    Plain (.object fields)
  | broken : Plain .broken

def Draft.Frame.Plain : Draft.Frame → Prop
  | .array items => ∀ d ∈ items, d.Plain
  | .object fields _ => ∀ f ∈ fields, f.2.Plain

variable {d : Draft} {f : Draft.Frame} {frames : List Draft.Frame} {ts : List Token} {x : Numeral}
  {v : Json} {text : String}

namespace Draft

theorem Frame.Plain.close (hf : f.Plain) (hd : d.Plain) : (f.close d).Plain := by
  cases f with
  | array items =>
    refine .array fun e he => ?_
    rcases List.mem_append.1 he with he | he
    · exact hf e (List.mem_reverse.1 he)
    · rw [List.mem_singleton.1 he]
      exact hd
  | object fields name? =>
    refine .object fun e he => ?_
    rcases List.mem_append.1 he with he | he
    · exact hf e (List.mem_reverse.1 he)
    · rw [List.mem_singleton.1 he]
      exact hd

theorem plain_closeAll (hf : ∀ f ∈ frames, f.Plain) (hd : d.Plain) : (closeAll frames d).Plain := by
  induction frames generalizing d with
  | nil => exact hd
  | cons f frames ih =>
    obtain ⟨hfirst, hrest⟩ := List.forall_mem_cons.1 hf
    exact ih hrest (hfirst.close hd)

theorem plain_breakOff (hf : ∀ f ∈ frames, f.Plain) : (breakOff frames).1.Plain :=
  plain_closeAll hf .broken

theorem plain_open (hf : ∀ f ∈ frames, f.Plain) (name? : Option String) :
    (∀ f ∈ Frame.array [] :: frames, f.Plain) ∧ ∀ f ∈ Frame.object [] name? :: frames, f.Plain := by
  constructor
  · exact List.forall_mem_cons.2 ⟨fun d hm => absurd hm List.not_mem_nil, hf⟩
  · exact List.forall_mem_cons.2 ⟨fun d hm => absurd hm List.not_mem_nil, hf⟩

/-- A container stays plain with one part more. -/
theorem plain_more_items {items : List Draft} (hf : ∀ f ∈ Frame.array items :: frames, f.Plain)
    (hd : d.Plain) : ∀ f ∈ Frame.array (d :: items) :: frames, f.Plain := by
  obtain ⟨hfirst, hrest⟩ := List.forall_mem_cons.1 hf
  exact List.forall_mem_cons.2 ⟨List.forall_mem_cons.2 ⟨hd, hfirst⟩, hrest⟩

theorem plain_more_fields {fields : List (Option String × Draft)} {name? : Option String}
    (hf : ∀ f ∈ Frame.object fields name? :: frames, f.Plain) (hd : d.Plain)
    (next? : Option String) :
    ∀ f ∈ Frame.object ((name?, d) :: fields) next? :: frames, f.Plain := by
  obtain ⟨hfirst, hrest⟩ := List.forall_mem_cons.1 hf
  exact List.forall_mem_cons.2 ⟨List.forall_mem_cons.2 ⟨hd, hfirst⟩, hrest⟩

/-- What is read from less than `n` plain words is plain, from a value on and from behind one. -/
structure PlainBelow (n : ℕ) : Prop where
  value {frames : List Frame} {ts : List Token} (hn : ts.length < n) (hf : ∀ f ∈ frames, f.Plain)
    (ht : ∀ t ∈ ts, t.Plain) : (value frames ts).1.Plain
  behind {frames : List Frame} {d : Draft} {ts : List Token} (hn : ts.length < n)
    (hf : ∀ f ∈ frames, f.Plain) (hd : d.Plain) (ht : ∀ t ∈ ts, t.Plain) :
    (behind frames d ts).1.Plain

section Steps
variable {n : ℕ} {items : List Draft} {fields : List (Option String × Draft)}
  {name? : Option String} (h : PlainBelow n)
include h

/-- An array that was opened is closed at once, or its first item follows. -/
theorem PlainBelow.openArray (hn : ts.length < n) (hf : ∀ f ∈ frames, f.Plain)
    (ht : ∀ t ∈ ts, t.Plain) : (Draft.value frames (.openArray :: ts)).1.Plain := by
  by_cases hclose : ∃ r, ts = .closeArray :: r
  · obtain ⟨r, rfl⟩ := hclose
    have hempty : Plain (.array []) := .array fun d hm => absurd hm List.not_mem_nil
    rw [Draft.value]
    exact h.behind (Nat.lt_of_succ_lt hn) hf hempty (List.forall_mem_of_forall_mem_cons ht)
  · rw [Draft.value]
    · exact h.value hn (plain_open hf none).1 ht
    · exact fun r he => hclose ⟨r, he⟩

/-- An object that was opened is closed at once, or the name of its first field follows. -/
theorem PlainBelow.openObject (hn : ts.length < n) (hf : ∀ f ∈ frames, f.Plain)
    (ht : ∀ t ∈ ts, t.Plain) : (Draft.value frames (.openObject :: ts)).1.Plain := by
  by_cases hclose : ∃ r, ts = .closeObject :: r
  · obtain ⟨r, rfl⟩ := hclose
    have hempty : Plain (.object []) := .object fun f hm => absurd hm List.not_mem_nil
    rw [Draft.value]
    exact h.behind (Nat.lt_of_succ_lt hn) hf hempty (List.forall_mem_of_forall_mem_cons ht)
  by_cases hname : ∃ name? r, ts = .string name? :: r
  · obtain ⟨name?, r, rfl⟩ := hname
    by_cases hcolon : ∃ r', r = .colon :: r'
    · obtain ⟨r, rfl⟩ := hcolon
      rw [Draft.value]
      exact h.value (Nat.lt_of_succ_lt (Nat.lt_of_succ_lt hn)) (plain_open hf name?).2
        (List.forall_mem_of_forall_mem_cons (List.forall_mem_of_forall_mem_cons ht))
    · rw [Draft.value]
      · exact plain_breakOff (plain_open hf name?).2
      · exact fun r' he => hcolon ⟨r', he⟩
  · rw [Draft.value]
    · exact plain_breakOff (plain_open hf none).2
    · exact fun r he => hclose ⟨r, he⟩
    · exact fun name? r he => hname ⟨name?, _, he⟩
    · exact fun name? r he => hname ⟨name?, _, he⟩

/-- A value starts with the first word, or the text breaks off. -/
theorem PlainBelow.startValue (hn : ts.length < n + 1) (hf : ∀ f ∈ frames, f.Plain)
    (ht : ∀ t ∈ ts, t.Plain) : (Draft.value frames ts).1.Plain := by
  cases ts with
  | nil => exact plain_breakOff hf
  | cons t r =>
    obtain ⟨hfirst, hrest⟩ := List.forall_mem_cons.1 ht
    have hr : r.length < n := Nat.lt_of_succ_lt_succ hn
    cases t with
    | null =>
      rw [Draft.value]
      exact h.behind hr hf .null hrest
    | bool b =>
      rw [Draft.value]
      exact h.behind hr hf (.bool b) hrest
    | number x =>
      rw [Draft.value]
      exact h.behind hr hf (.number hfirst) hrest
    | string text? =>
      rw [Draft.value]
      exact h.behind hr hf (.string text?) hrest
    | openArray => exact h.openArray hr hf hrest
    | openObject => exact h.openObject hr hf hrest
    | closeArray | closeObject | comma | colon | stray =>
      exact plain_breakOff hf

/-- Behind an item of an array comes the next one, or the array ends. -/
theorem PlainBelow.inArray (hn : ts.length < n + 1)
    (hf : ∀ f ∈ Frame.array items :: frames, f.Plain) (hd : d.Plain) (ht : ∀ t ∈ ts, t.Plain) :
    (Draft.behind (.array items :: frames) d ts).1.Plain := by
  by_cases hcomma : ∃ r, ts = .comma :: r
  · obtain ⟨r, rfl⟩ := hcomma
    rw [Draft.behind]
    exact h.value (Nat.lt_of_succ_lt_succ hn) (plain_more_items hf hd)
      (List.forall_mem_of_forall_mem_cons ht)
  by_cases hclose : ∃ r, ts = .closeArray :: r
  · obtain ⟨r, rfl⟩ := hclose
    obtain ⟨hfirst, hrest⟩ := List.forall_mem_cons.1 hf
    rw [Draft.behind]
    exact h.behind (Nat.lt_of_succ_lt_succ hn) hrest (hfirst.close hd)
      (List.forall_mem_of_forall_mem_cons ht)
  · rw [Draft.behind]
    · exact plain_breakOff (plain_more_items hf hd)
    · exact fun r he => hcomma ⟨r, he⟩
    · exact fun r he => hclose ⟨r, he⟩

/-- Behind a field of an object comes the next one, or the object ends. -/
theorem PlainBelow.inObject (hn : ts.length < n + 1)
    (hf : ∀ f ∈ Frame.object fields name? :: frames, f.Plain) (hd : d.Plain)
    (ht : ∀ t ∈ ts, t.Plain) : (Draft.behind (.object fields name? :: frames) d ts).1.Plain := by
  by_cases hcomma : ∃ next? r, ts = .comma :: .string next? :: r
  · obtain ⟨next?, r, rfl⟩ := hcomma
    by_cases hcolon : ∃ r', r = .colon :: r'
    · obtain ⟨r, rfl⟩ := hcolon
      rw [Draft.behind]
      refine h.value ?_ (plain_more_fields hf hd next?) fun t hm => ht t (by simp [hm])
      simp only [List.length_cons] at hn
      omega
    · rw [Draft.behind]
      · exact plain_breakOff (plain_more_fields hf hd next?)
      · exact fun r' he => hcolon ⟨r', he⟩
  by_cases hclose : ∃ r, ts = .closeObject :: r
  · obtain ⟨r, rfl⟩ := hclose
    obtain ⟨hfirst, hrest⟩ := List.forall_mem_cons.1 hf
    rw [Draft.behind]
    exact h.behind (Nat.lt_of_succ_lt_succ hn) hrest (hfirst.close hd)
      (List.forall_mem_of_forall_mem_cons ht)
  · rw [Draft.behind]
    · exact plain_breakOff (plain_more_fields hf hd none)
    · exact fun next? r he => hcomma ⟨next?, _, he⟩
    · exact fun next? r he => hcomma ⟨next?, _, he⟩
    · exact fun r he => hclose ⟨r, he⟩

/-- What follows belongs to the innermost container. -/
theorem PlainBelow.goOn (hn : ts.length < n + 1) (hf : ∀ f ∈ frames, f.Plain) (hd : d.Plain)
    (ht : ∀ t ∈ ts, t.Plain) : (Draft.behind frames d ts).1.Plain := by
  cases frames with
  | nil =>
    rw [Draft.behind]
    exact hd
  | cons f frames =>
    cases f with
    | array items => exact h.inArray hn hf hd ht
    | object fields name? => exact h.inObject hn hf hd ht

end Steps

theorem plainBelow (n : ℕ) : PlainBelow n := by
  induction n with
  | zero => exact ⟨fun hn => absurd hn (Nat.not_lt_zero _), fun hn => absurd hn (Nat.not_lt_zero _)⟩
  | succ n ih => exact ⟨ih.startValue, ih.goOn⟩

/-- The numbers of a draft are those of its text. -/
theorem plain_ofText (h : PlainText text) : (ofText text).1.Plain :=
  (plainBelow _).value (Nat.lt_succ_self _) (fun _ hm => absurd hm List.not_mem_nil) h

end Draft

/-! ## The values of plain numbers -/

theorem le_decimalValue (n : Nat) (ds : List Char) :
    n ≤ ds.foldl (fun n c => 10 * n + digitValue c) n := by
  induction ds generalizing n with
  | nil => exact Nat.le_refl n
  | cons c r ih =>
    have hstep := ih (10 * n + digitValue c)
    rw [List.foldl_cons]
    omega

/-- Digits that fit into a significand are all taken. -/
theorem extend_eq {n : Nat} {ds : List Char}
    (h : ds.foldl (fun n c => 10 * n + digitValue c) n < Numeral.significandLimit) :
    Numeral.extend n ds = (ds.foldl (fun n c => 10 * n + digitValue c) n, []) := by
  induction ds generalizing n with
  | nil => rfl
  | cons c r ih =>
    have hfits : 10 * n + digitValue c < Numeral.significandLimit :=
      Nat.lt_of_le_of_lt (le_decimalValue _ r) h
    rw [Numeral.extend, if_pos hfits]
    exact ih h

theorem double?_zero (h : x.Plain) (hz : decimalValue x.whole = 0) (hn : x.negative = true) :
    x.double? = some Double.zero.neg := by
  have hwhole : Numeral.extend 0 x.whole = (0, []) := by
    rw [extend_eq (h.greatest : decimalValue x.whole < _)]
    exact congrArg (·, []) hz
  have hscaled : Double.scaled? 0 0 = some Double.zero := by decide +kernel
  rw [Numeral.double?, hwhole]
  simp [h.fraction, h.exponent, hn, Numeral.extend, hscaled]

/-- A plain number is an integer of 64 bits or minus zero. -/
theorem value?_plain (h : x.Plain) (hv : x.value? = some v) :
    v = .double Double.zero.neg ∨
      ∃ n : Int, v = .int n ∧ -(twoTo 63 : Int) ≤ n ∧ n < twoTo 64 := by
  have hscaled : x.isScaled = false := by
    rw [Numeral.isScaled, h.fraction, h.exponent]
    rfl
  rw [Numeral.value?, hscaled] at hv
  simp only [Bool.false_eq_true, if_false] at hv
  split_ifs at hv with hpos hneg
  · cases hv
    refine Or.inr ⟨_, rfl, ?_, ?_⟩
    · have htwo : (0 : Int) ≤ twoTo 63 := Int.natCast_nonneg _
      omega
    · exact Int.ofNat_lt.2 hpos.2
  · cases hv
    have hleast : (decimalValue x.whole : Int) ≤ twoTo 63 := Int.ofNat_le.2 hneg.2.2
    refine Or.inr ⟨_, rfl, by omega, ?_⟩
    have htwo : (0 : Int) ≤ twoTo 64 := Int.natCast_nonneg _
    omega
  · have hnegative : x.negative = true := by
      rw [← Bool.not_eq_false]
      intro hn
      exact hpos ⟨by rw [hn]; rfl, h.greatest⟩
    have hzero : decimalValue x.whole = 0 := by
      have hleast := h.least hnegative
      by_contra hne
      exact hneg ⟨hnegative, Nat.pos_of_ne_zero hne, hleast⟩
    rw [double?_zero h hzero hnegative] at hv
    exact Or.inl (Option.some.inj hv).symm

/-- Minus zero is the one double that stands in a plain text, and it is written with a point. -/
theorem told_minusZero : ToldDouble Double.zero.neg := by
  have htext : DecimalLayout.document.write Double.zero.neg = ['-', '0', '.', '0'] := by
    decide +kernel
  have hscan (r : List Char) (hr : Ends r) : at? '-' ('0' :: '.' :: '0' :: r) =
      some (.number ⟨true, ['0'], ['0'], none⟩, r) := by
    have hwhole : digits ('0' :: '.' :: '0' :: r) = (['0'], '.' :: '0' :: r) := rfl
    have hfraction : digits (['0'] ++ r) = (['0'], r) :=
      digits_append (List.forall_mem_singleton.mpr rfl) hr
    have hpoint : fraction? ('.' :: '0' :: r) = some (['0'], r) := by
      rw [fraction?, show '0' :: r = ['0'] ++ r from rfl, hfraction]
      rfl
    have hat : at? '-' ('0' :: '.' :: '0' :: r) = magnitude? true ('0' :: '.' :: '0' :: r) := rfl
    rw [hat, magnitude?, hwhole]
    simp [hpoint, exponent?_of_ends hr]
  have hnumeral : numeralOfDouble Double.zero.neg = ⟨true, ['0'], ['0'], none⟩ := by
    have hend : Ends [] := by
      intro c hc
      cases hc
    rw [numeralOfDouble, htext, first?_cons (by decide), hscan [] hend]
    rfl
  refine ⟨fun r hr => ?_, ?_⟩
  · rw [htext, hnumeral]
    exact scan_at (by decide) (hscan r hr)
  · have hdouble : (⟨true, ['0'], ['0'], none⟩ : Numeral).double? = some Double.zero.neg := by
      decide +kernel
    have hscaled : (⟨true, ['0'], ['0'], none⟩ : Numeral).isScaled = true := rfl
    rw [hnumeral, Numeral.value?, if_pos hscaled, hdouble]
    rfl

/-! ## What is read from a plain text -/

theorem fieldsTold_iff {fields : List (String × Json)} :
    FieldsTold fields ↔ ∀ e ∈ fields, e.2.Told := by
  induction fields with
  | nil => simp [FieldsTold]
  | cons e r ih => rw [FieldsTold, ih, List.forall_mem_cons]

theorem FieldsTold.insert {fields : List (String × Json)} (h : FieldsTold fields) (hv : v.Told)
    (name : String) : FieldsTold (Keyed.insert fields name v) := by
  rw [fieldsTold_iff] at h ⊢
  intro e he
  rcases Keyed.mem_insert he with rfl | he
  · exact hv
  · exact h e he

mutual

theorem told_of_ofDraft : ∀ (d : Draft) (room : Nat) (v : Json), d.Plain →
    ofDraft room d = .ok v → v.Told
  | .null, _, v, _, h => by
    cases h
    trivial
  | .bool _, _, v, _, h => by
    cases h
    trivial
  | .number x, _, v, hp, h => by
    cases hp with
    | number hx =>
      rw [ofDraft] at h
      split at h
      · next w hw =>
        cases h
        rcases value?_plain hx hw with rfl | ⟨n, rfl, hleast, hgreatest⟩
        · exact told_minusZero
        · exact ⟨hleast, hgreatest⟩
      · cases h
  | .string (some _), _, v, _, h => by
    cases h
    trivial
  | .string none, _, _, _, h => by cases h
  | .array items, room, v, hp, h => by
    cases hp with
    | array hi =>
      cases room with
      | zero => cases h
      | succ room =>
        rw [ofDraft] at h
        obtain ⟨vs, hvs, h⟩ := bind_eq_ok.1 h
        cases h
        exact told_of_ofItems items room vs hi hvs
  | .object ds, room, v, hp, h => by
    cases hp with
    | object hf =>
      cases room with
      | zero => cases h
      | succ room =>
        rw [ofDraft] at h
        obtain ⟨fields, hfields, h⟩ := bind_eq_ok.1 h
        cases h
        exact told_of_ofFields ds room [] fields hf hfields List.nodup_nil trivial
  | .broken, _, _, _, h => by cases h

theorem told_of_ofItems : ∀ (ds : List Draft) (room : Nat) (vs : List Json),
    (∀ d ∈ ds, d.Plain) → ofItems room ds = .ok vs → ItemsTold vs
  | [], _, vs, _, h => by
    cases h
    trivial
  | d :: ds, room, vs, hp, h => by
    obtain ⟨hd, hds⟩ := List.forall_mem_cons.1 hp
    rw [ofItems] at h
    obtain ⟨v, hv, h⟩ := bind_eq_ok.1 h
    obtain ⟨vs, hvs, h⟩ := bind_eq_ok.1 h
    cases h
    exact ⟨told_of_ofDraft d room v hd hv, told_of_ofItems ds room vs hds hvs⟩

theorem told_of_ofFields : ∀ (ds : List (Option String × Draft)) (room : Nat)
    (before fields : List (String × Json)), (∀ d ∈ ds, d.2.Plain) →
    ofFields room before ds = .ok fields → (Keyed.keys before).Nodup → FieldsTold before →
      (Keyed.keys fields).Nodup ∧ FieldsTold fields
  | [], _, before, fields, _, h, hn, hb => by
    cases h
    exact ⟨hn, hb⟩
  | (none, _) :: _, _, _, _, _, h, _, _ => by cases h
  | (some name, d) :: ds, room, before, fields, hp, h, hn, hb => by
    obtain ⟨hd, hds⟩ := List.forall_mem_cons.1 hp
    rw [ofFields] at h
    obtain ⟨v, hv, h⟩ := bind_eq_ok.1 h
    exact told_of_ofFields ds room _ fields hds h (Keyed.nodup_keys_insert hn name v)
      (hb.insert (told_of_ofDraft d room v hd hv) name)

end

/-- A value that was parsed from a plain text can be told from its own text. -/
theorem told_of_parse (ht : PlainText text) (h : parse text = .ok v) : v.Told := by
  obtain ⟨w, hw, h⟩ := bind_eq_ok.1 h
  split at h
  · cases h
    exact told_of_ofDraft _ _ _ (Draft.plain_ofText ht) hw
  · cases h

end Vendoring.Json
