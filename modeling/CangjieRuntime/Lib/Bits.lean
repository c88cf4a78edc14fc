import Mathlib

/-!
# `Lib.Bits` — bit operations on naturals

What a bitwise operation does to a packed word, stated arithmetically so that the rest of a proof about flags and
counters in one word is linear arithmetic.
-/

namespace Bits

/-! ## One bit of a word -/

/-- Testing one bit. -/
theorem and_two_pow_ne_zero (x i : Nat) : x &&& 2 ^ i ≠ 0 ↔ x / 2 ^ i % 2 = 1 := by
  rw [Nat.and_two_pow, Nat.testBit_eq_decide_div_mod_eq]
  by_cases h : x / 2 ^ i % 2 = 1 <;> simp [h]

theorem or_one_eq (y : Nat) : y ||| 1 = y + (1 - y % 2) := by
  have hdiv : (y ||| 1) / 2 = y / 2 := by simpa using Nat.or_div_two_pow (a := y) (b := 1) (n := 1)
  have hmod : (y ||| 1) % 2 = y % 2 ||| 1 := Nat.or_mod_two_pow (a := y) (b := 1) (n := 1)
  have hone : (y ||| 1) % 2 = 1 := by
    rw [hmod]
    rcases Nat.mod_two_eq_zero_or_one y with h | h <;> rw [h] <;> rfl
  omega

/-- Setting one bit adds it unless it is there. -/
theorem or_two_pow_eq (x i : Nat) : x ||| 2 ^ i = x + 2 ^ i * (1 - x / 2 ^ i % 2) := by
  have hpos : 0 < 2 ^ i := Nat.two_pow_pos i
  have hdiv : (x ||| 2 ^ i) / 2 ^ i = x / 2 ^ i + (1 - x / 2 ^ i % 2) := by
    rw [Nat.or_div_two_pow, Nat.div_self hpos, or_one_eq]
  have hmod : (x ||| 2 ^ i) % 2 ^ i = x % 2 ^ i := by
    rw [Nat.or_mod_two_pow, Nat.mod_self, Nat.or_zero]
  calc x ||| 2 ^ i = 2 ^ i * ((x ||| 2 ^ i) / 2 ^ i) + (x ||| 2 ^ i) % 2 ^ i := (Nat.div_add_mod _ _).symm
    _ = 2 ^ i * (x / 2 ^ i) + 2 ^ i * (1 - x / 2 ^ i % 2) + x % 2 ^ i := by rw [hdiv, hmod, Nat.mul_add]
    _ = x + 2 ^ i * (1 - x / 2 ^ i % 2) := by rw [Nat.add_right_comm, Nat.div_add_mod]

/-- A tag bit above the value is added to it. -/
theorem or_two_pow_of_lt {x i : Nat} (h : x < 2 ^ i) : x ||| 2 ^ i = x + 2 ^ i := by
  rw [or_two_pow_eq, Nat.div_eq_of_lt h]
  simp

end Bits
