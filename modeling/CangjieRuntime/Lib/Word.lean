import Mathlib

/-!
# `Lib.Word` — unsigned machine arithmetic on naturals

A machine word is a natural number below `2 ^ w`; the operations wrap explicitly. The lemma about each operation
says what it is inside the range, which is all that a proof about a program whose values stay in range has to know.
-/

namespace Word

/-- `uint32_t` addition. -/
def add32 (a b : Nat) : Nat := (a + b) % 2 ^ 32

/-- `uint32_t` subtraction. -/
def sub32 (a b : Nat) : Nat := (a + (2 ^ 32 - b % 2 ^ 32)) % 2 ^ 32

/-- `uint64_t` / `size_t` / `uintptr_t` addition. -/
def add64 (a b : Nat) : Nat := (a + b) % 2 ^ 64

/-- `uint64_t` / `size_t` / `uintptr_t` subtraction. -/
def sub64 (a b : Nat) : Nat := (a + (2 ^ 64 - b % 2 ^ 64)) % 2 ^ 64

/-- `uint64_t` / `size_t` multiplication. -/
def mul64 (a b : Nat) : Nat := (a * b) % 2 ^ 64

/-- Bitwise complement of a `uint64_t` / `size_t`. -/
def not64 (a : Nat) : Nat := 2 ^ 64 - 1 - a

/-- A `uint32_t` passed as an `int`. -/
def asInt32 (a : Nat) : Int := if a < 2 ^ 31 then a else a - 2 ^ 32

variable {a b x m : Nat}

theorem add32_eq (h : a + b < 2 ^ 32) : add32 a b = a + b := Nat.mod_eq_of_lt h

theorem sub32_eq (h : b ≤ a) (ha : a < 2 ^ 32) : sub32 a b = a - b := by
  unfold sub32; omega

/-- The difference of two counters that have wrapped is right as long as it is itself in range. -/
theorem sub32_mod (h : b ≤ a) (hlt : a - b < 2 ^ 32) : sub32 (a % 2 ^ 32) (b % 2 ^ 32) = a - b := by
  unfold sub32; omega

theorem add32_mod (a b : Nat) : add32 (a % 2 ^ 32) b = (a + b) % 2 ^ 32 := Nat.mod_add_mod a _ b

theorem add64_eq (h : a + b < 2 ^ 64) : add64 a b = a + b := Nat.mod_eq_of_lt h

theorem mul64_eq (h : a * b < 2 ^ 64) : mul64 a b = a * b := Nat.mod_eq_of_lt h

theorem add64_lt (a b : Nat) : add64 a b < 2 ^ 64 := Nat.mod_lt _ (by decide)

theorem sub64_lt (a b : Nat) : sub64 a b < 2 ^ 64 := Nat.mod_lt _ (by decide)

theorem sub64_eq (h : b ≤ a) (ha : a < 2 ^ 64) : sub64 a b = a - b := by
  unfold sub64; omega

/-- The bits of a word outside a mask and those inside it. -/
theorem and_not_add {w x m : Nat} (hx : x < 2 ^ w) (hm : m < 2 ^ w) : (x &&& (2 ^ w - 1 - m)) + (x &&& m) = x := by
  induction w generalizing x m with
  | zero =>
    obtain rfl : x = 0 := Nat.lt_one_iff.mp hx
    rw [Nat.zero_and, Nat.zero_and]
  | succ w ih =>
    -- the lowest bit, and the word without it
    have hhalf := ih (x := x / 2) (m := m / 2) (by omega) (by omega)
    have hmask : (2 ^ (w + 1) - 1 - m) / 2 = 2 ^ w - 1 - m / 2 := by omega
    have hdiv : (x &&& (2 ^ (w + 1) - 1 - m)) / 2 = x / 2 &&& (2 ^ w - 1 - m / 2) := by
      rw [Nat.and_div_two, hmask]
    have hdiv' : (x &&& m) / 2 = x / 2 &&& m / 2 := Nat.and_div_two
    have hbit := Nat.and_mod_two_eq_one (a := x) (b := 2 ^ (w + 1) - 1 - m)
    have hbit' := Nat.and_mod_two_eq_one (a := x) (b := m)
    omega

theorem and_not64 (hx : x < 2 ^ 64) (hm : m < 2 ^ 64) : x &&& not64 m = x - (x &&& m) :=
  Nat.eq_sub_of_add_eq (and_not_add hx hm)

end Word
