import Mathlib.Data.List.Induction
import Vendoring.Decimal.Digits

/-! The digits that numbers are written with. Digits without leading zeros are written again as they
were read. -/
namespace Vendoring

variable {n d : Nat} {c : Char} {ds : List Char}

theorem decimalDigits_ne_nil (n : Nat) : decimalDigits n ≠ [] := by
  rw [decimalDigits]
  split <;> simp

theorem isDigit_of_mem_decimalDigits (h : c ∈ decimalDigits n) : c.isDigit = true := by
  have hdigit : ∀ k < 10, (Nat.digitChar k).isDigit = true := by decide
  fun_induction decimalDigits n with
  | case1 n hn =>
    rw [List.mem_singleton.1 h]
    exact hdigit n hn
  | case2 n hn ih =>
    rcases List.mem_append.1 h with h | h
    · exact ih h
    · rw [List.mem_singleton.1 h]
      exact hdigit _ (Nat.mod_lt _ (by decide))

/-- Only zero starts with the digit zero. -/
theorem head?_decimalDigits (h : (decimalDigits n).head? = some '0') : n = 0 := by
  have hzero : ∀ k < 10, Nat.digitChar k = '0' → k = 0 := by decide
  fun_induction decimalDigits n with
  | case1 n hn => exact hzero n hn (by simpa using h)
  | case2 n hn ih =>
    have hhead : (decimalDigits (n / 10)).head? = some '0' := by
      cases hd : decimalDigits (n / 10) with
      | nil => exact absurd hd (decimalDigits_ne_nil _)
      | cons c r => simpa [hd] using h
    have := ih hhead
    omega

theorem digitValue_lt (h : c.isDigit = true) : digitValue c < 10 := by
  have hrange : 48 ≤ c.toNat ∧ c.toNat ≤ 57 := by
    simpa [Char.isDigit, UInt32.le_iff_toNat_le] using h
  change c.toNat - 48 < 10
  omega

theorem digitChar_digitValue (h : c.isDigit = true) : Nat.digitChar (digitValue c) = c := by
  have hrange : 48 ≤ c.toNat ∧ c.toNat ≤ 57 := by
    simpa [Char.isDigit, UInt32.le_iff_toNat_le] using h
  apply Char.toNat_inj.1
  rw [Nat.toNat_digitChar_of_lt_ten (digitValue_lt h)]
  change 48 + (c.toNat - 48) = c.toNat
  omega

theorem decimalDigits_of_lt (h : d < 10) : decimalDigits d = [Nat.digitChar d] := by
  rw [decimalDigits, if_pos h]

/-- One digit more. -/
theorem decimalDigits_append (hn : 0 < n) (hd : d < 10) :
    decimalDigits (10 * n + d) = decimalDigits n ++ [Nat.digitChar d] := by
  have hdiv : (10 * n + d) / 10 = n := by omega
  have hmod : (10 * n + d) % 10 = d := by omega
  rw [decimalDigits, if_neg (by omega), hdiv, hmod]

/-- Digits without leading zeros are those of the number that they stand for. -/
theorem decimalDigits_decimalValue (hd : ∀ c ∈ ds, c.isDigit = true) (hne : ds ≠ [])
    (hz : ds.head? = some '0' → ds.length = 1) : decimalDigits (decimalValue ds) = ds := by
  induction ds using List.reverseRecOn with
  | nil => exact absurd rfl hne
  | append_singleton front c ih =>
    have hc : c.isDigit = true := hd c (by simp)
    rw [decimalValue_append]
    cases front with
    | nil =>
      have hlt : 10 * decimalValue [] + digitValue c < 10 := by
        simpa [decimalValue] using digitValue_lt hc
      rw [decimalDigits_of_lt hlt]
      simp [decimalValue, digitChar_digitValue hc]
    | cons b r =>
      have hb : b ≠ '0' := by
        rintro rfl
        simp at hz
      have hfront : decimalDigits (decimalValue (b :: r)) = b :: r := by
        apply ih
        · intro a ha
          exact hd a (List.mem_append_left _ ha)
        · exact List.cons_ne_nil b r
        · simp [hb]
      have hpos : 0 < decimalValue (b :: r) := by
        apply Nat.pos_of_ne_zero
        intro hzero
        rw [hzero, decimalDigits_of_lt (by decide)] at hfront
        exact hb (List.cons.inj hfront).1.symm
      rw [decimalDigits_append hpos (digitValue_lt hc), hfront, digitChar_digitValue hc]

end Vendoring
