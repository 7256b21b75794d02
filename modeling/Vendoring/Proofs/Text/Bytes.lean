import Mathlib.Data.String.Basic
import Vendoring.Text

/-! Texts compare as their bytes do. A character is written as a first byte, which tells how many
more there are, and those bytes, with six bits in each. -/
namespace Vendoring.Text

variable {a b : String} {c d : Char} {k m n : Nat} {r s : List UInt8}

/-- The bytes of a text. -/
def bytes (s : String) : List UInt8 := s.toUTF8.data.toList

@[simp] theorem length_bytes (s : String) : (bytes s).length = s.utf8ByteSize := rfl

theorem bytes_eq_flatMap (s : String) : bytes s = s.toList.flatMap String.utf8EncodeChar := by
  rw [bytes, String.toUTF8, ← String.utf8Encode_toList, List.utf8Encode,
    List.toList_data_toByteArray]

theorem toNat_le (c : Char) : c.val.toNat ≤ 0x10ffff := by
  have h := c.valid
  unfold UInt32.isValidChar Nat.isValidChar at h
  omega

/-- The first byte of the character numbered `n`. -/
def firstByte (n : Nat) : Nat :=
  if n ≤ 0x7f then n
  else if n ≤ 0x7ff then n / 64 + 0xc0
  else if n ≤ 0xffff then n / 4096 + 0xe0
  else n / 262144 + 0xf0

/-- The number of bytes behind the first one. -/
def moreBytes (n : Nat) : Nat :=
  if n ≤ 0x7f then 0 else if n ≤ 0x7ff then 1 else if n ≤ 0xffff then 2 else 3

/-- The last `k` bytes of the character numbered `n`. -/
def lastBytes (n : Nat) : Nat → List UInt8
  | 0 => []
  | k + 1 => UInt8.ofNat (n / 64 ^ k % 64 + 0x80) :: lastBytes n k

theorem utf8EncodeChar_eq (c : Char) : String.utf8EncodeChar c =
    UInt8.ofNat (firstByte c.val.toNat) :: lastBytes c.val.toNat (moreBytes c.val.toNat) := by
  have hc := toNat_le c
  unfold String.utf8EncodeChar firstByte moreBytes
  generalize c.val.toNat = n at hc
  dsimp only
  split_ifs
  · rfl
  · have hn : n / 64 % 32 = n / 64 := by omega
    simp [lastBytes, hn]
  · have hn : n / 4096 % 16 = n / 4096 := by omega
    simp [lastBytes, hn]
  · have hn : n / 262144 % 8 = n / 262144 := by omega
    simp [lastBytes, hn]

theorem cons_lt_cons_of_lt (h : m < n) (hn : n < 256) :
    UInt8.ofNat m :: r < UInt8.ofNat n :: s := by
  refine List.cons_lt_cons_iff.2 (Or.inl ?_)
  rw [UInt8.lt_iff_toNat_lt, UInt8.toNat_ofNat', UInt8.toNat_ofNat']
  omega

/-- Of two characters whose higher bits are the same, the lower bits decide. -/
theorem lastBytes_lt (h : m < n) (he : m / 64 ^ k = n / 64 ^ k) :
    lastBytes m k ++ r < lastBytes n k ++ s := by
  induction k with
  | zero =>
    rw [pow_zero, Nat.div_one, Nat.div_one] at he
    omega
  | succ k ih =>
    have hle : m / 64 ^ k ≤ n / 64 ^ k := Nat.div_le_div_right h.le
    rw [Nat.pow_succ, ← Nat.div_div_eq_div_mul, ← Nat.div_div_eq_div_mul] at he
    rw [lastBytes, lastBytes, List.cons_append, List.cons_append]
    by_cases hk : m / 64 ^ k = n / 64 ^ k
    · rw [hk]
      exact List.cons_lt_cons_iff.2 (Or.inr ⟨rfl, ih hk⟩)
    · apply cons_lt_cons_of_lt <;> omega

theorem firstByte_cases (h : m < n) (hn : n ≤ 0x10ffff) :
    firstByte m < firstByte n ∧ firstByte n < 256 ∨
      firstByte m = firstByte n ∧ moreBytes m = moreBytes n ∧
        m / 64 ^ moreBytes n = n / 64 ^ moreBytes n := by
  unfold firstByte moreBytes
  split_ifs <;> omega

/-- The bytes of a character decide against those of a greater one, whatever follows them. -/
theorem utf8EncodeChar_lt (h : c < d) :
    String.utf8EncodeChar c ++ r < String.utf8EncodeChar d ++ s := by
  rw [utf8EncodeChar_eq, utf8EncodeChar_eq, List.cons_append, List.cons_append]
  have hcd : c.val.toNat < d.val.toNat := h
  rcases firstByte_cases hcd (toNat_le d) with ⟨hlt, hd⟩ | ⟨hfirst, hmore, hhigh⟩
  · exact cons_lt_cons_of_lt hlt hd
  · rw [hfirst, hmore]
    exact List.cons_lt_cons_iff.2 (Or.inr ⟨rfl, lastBytes_lt hcd hhigh⟩)

theorem flatMap_lt {l l' : List Char} (h : l < l') :
    l.flatMap String.utf8EncodeChar < l'.flatMap String.utf8EncodeChar := by
  induction l generalizing l' with
  | nil =>
    cases l' with
    | nil => exact absurd h (List.lt_irrefl _)
    | cons d r' =>
      rw [List.flatMap_nil, List.flatMap_cons, utf8EncodeChar_eq]
      exact List.nil_lt_cons _ _
  | cons c r ih =>
    cases l' with
    | nil => exact absurd h (List.not_lt_nil _)
    | cons d r' =>
      rw [List.flatMap_cons, List.flatMap_cons]
      rcases List.cons_lt_cons_iff.1 h with hlt | ⟨rfl, hr⟩
      · exact utf8EncodeChar_lt hlt
      · exact List.append_left_lt (ih hr)

theorem bytes_lt_of_lt (h : a < b) : bytes a < bytes b := by
  rw [bytes_eq_flatMap, bytes_eq_flatMap]
  exact flatMap_lt (String.lt_iff_toList_lt.1 h)

theorem bytes_lt_iff : bytes a < bytes b ↔ a < b := by
  refine ⟨fun h => ?_, bytes_lt_of_lt⟩
  rcases lt_trichotomy a b with hlt | rfl | hgt
  · exact hlt
  · exact absurd h (List.lt_irrefl _)
  · exact absurd h (List.lt_asymm (bytes_lt_of_lt hgt))

end Vendoring.Text
