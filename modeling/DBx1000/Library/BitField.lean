import Mathlib.Data.Nat.Bitwise

/-!
# Bit fields of a machine word

A field is `len` consecutive bits from bit `lo` on. Masking, shifting and setting
bits of a word are read as arithmetic on its fields, so that facts about packed
words reduce to division and remainder.
-/

namespace BitField

/-- The value of the `len` bits from bit `lo` on. -/
def field (lo len x : Nat) : Nat := x / 2 ^ lo % 2 ^ len

/-- The mask with ones exactly on the `len` bits from bit `lo` on. -/
def mask (lo len : Nat) : Nat := (2 ^ len - 1) * 2 ^ lo

theorem testBit_mask (lo len i : Nat) :
    (mask lo len).testBit i = (decide (lo ≤ i) && decide (i < lo + len)) := by
  rw [mask, Nat.testBit_mul_two_pow, Nat.testBit_two_pow_sub_one]
  by_cases h : lo ≤ i <;> simp [h]; omega

theorem testBit_field_mul (lo len x i : Nat) :
    (field lo len x * 2 ^ lo).testBit i = ((decide (lo ≤ i) && decide (i < lo + len)) && x.testBit i) := by
  rw [field, Nat.testBit_mul_two_pow, Nat.testBit_mod_two_pow, Nat.testBit_div_two_pow]
  by_cases h : lo ≤ i
  · have back : i - lo + lo = i := by omega
    have inside : i - lo < len ↔ i < lo + len := by omega
    simp [h, back, inside]
  · simp [h]

theorem and_mask (lo len x : Nat) : x &&& mask lo len = field lo len x * 2 ^ lo := by
  apply Nat.eq_of_testBit_eq
  intro i
  rw [Nat.testBit_and, testBit_mask, testBit_field_mul, Bool.and_comm]

end BitField
