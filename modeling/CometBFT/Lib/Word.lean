import Mathlib

/-! Single bits of 64-bit words. A word `e` has bit `s` set when `e &&& (1 <<< s)` is not zero; these
    lemmas read that test, and setting a bit with `|||`, as `Nat.testBit` of the word's value. -/

namespace Word

theorem toNat_one_shiftLeft {s : UInt64} (h : s.toNat < 64) : ((1 : UInt64) <<< s).toNat = 2 ^ s.toNat := by
  rw [UInt64.toNat_shiftLeft, Nat.mod_eq_of_lt h, UInt64.toNat_one, Nat.one_shiftLeft]
  exact Nat.mod_eq_of_lt (Nat.pow_lt_pow_right (by norm_num) h)

/-- Setting bit `s` sets it and keeps the others. -/
theorem testBit_or_one_shiftLeft {e s : UInt64} (h : s.toNat < 64) (t : ℕ) :
    (e ||| (1 <<< s)).toNat.testBit t = (e.toNat.testBit t || decide (t = s.toNat)) := by
  rw [UInt64.toNat_or, Nat.testBit_or, toNat_one_shiftLeft h, Nat.testBit_two_pow]
  simp [eq_comm]

@[simp] theorem testBit_zero (t : ℕ) : (0 : UInt64).toNat.testBit t = false := by
  simp

end Word
