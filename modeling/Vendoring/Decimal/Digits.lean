/-!
Numbers in base ten. Reading the digits of a number gives the number back.
-/

namespace Vendoring

/-- The digits of a number in base ten, without leading zeros; zero has the one digit zero. -/
def decimalDigits (n : Nat) : List Char :=
  if n < 10 then [Nat.digitChar n] else decimalDigits (n / 10) ++ [Nat.digitChar (n % 10)]

/-- The value of a digit. -/
def digitValue (c : Char) : Nat := c.toNat - '0'.toNat

/-- The number that some digits stand for. -/
def decimalValue (ds : List Char) : Nat := ds.foldl (fun n c => 10 * n + digitValue c) 0

theorem digitValue_digitChar {n : Nat} (h : n < 10) : digitValue (Nat.digitChar n) = n := by
  simp [digitValue, Nat.toNat_digitChar_of_lt_ten h]

theorem decimalValue_append (ds : List Char) (c : Char) :
    decimalValue (ds ++ [c]) = 10 * decimalValue ds + digitValue c := by
  simp [decimalValue]

theorem decimalValue_decimalDigits (n : Nat) : decimalValue (decimalDigits n) = n := by
  fun_induction decimalDigits n with
  | case1 n h => simp [decimalValue, digitValue_digitChar h]
  | case2 n h ih =>
    rw [decimalValue_append, ih, digitValue_digitChar (Nat.mod_lt n (by decide))]
    omega

end Vendoring
