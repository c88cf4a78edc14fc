import Mathlib

/-!
# `Lib.DecimalDigits` — the number of decimal digits, and large powers against powers of ten

A power `b ^ (2 ^ i)` is bounded by squaring `i` times and keeping only the leading digits of each square, rounded up or
down. The bounds can be computed where the power itself cannot.
-/

namespace DecimalDigits

/-! ## The number of digits -/

/-- The number of decimal digits, 1 for 0. -/
def numDigits (n : Nat) : Nat := Nat.log 10 n + 1

theorem numDigits_pos (n : Nat) : 0 < numDigits n := Nat.succ_pos _

theorem lt_pow_numDigits (n : Nat) : n < 10 ^ numDigits n := Nat.lt_pow_succ_log_self (by decide) n

variable {n d b i m e k a : Nat}

theorem pow_le_of_numDigits (hn : n ≠ 0) : 10 ^ (numDigits n - 1) ≤ n := Nat.pow_log_le_self 10 hn

theorem numDigits_eq (hlo : 10 ^ d ≤ n) (hhi : n < 10 ^ (d + 1)) : numDigits n = d + 1 :=
  congrArg (· + 1) ((Nat.log_eq_iff (Or.inr ⟨by decide, (Nat.pow_pos (by decide)).trans_le hlo |>.ne'⟩)).mpr ⟨hlo, hhi⟩)

theorem numDigits_le (hd : 0 < d) (hn : n < 10 ^ d) : numDigits n ≤ d := by
  rcases Nat.eq_zero_or_pos n with rfl | hpos
  · exact hd
  · exact Nat.succ_le_of_lt ((Nat.log_lt_iff_lt_pow (by decide) hpos.ne').mpr hn)

/-! ## Leading digits of large powers -/

/-- The number `p.1 * 10 ^ p.2`. -/
def value (p : Nat × Nat) : Nat := p.1 * 10 ^ p.2

/-- Leading digits of a number, with `c` added to the last one each time that digits are left out. -/
def shrink (c : Nat) : Nat → Nat × Nat → Nat × Nat
  | 0, p => p
  | k + 1, p => if p.1 < 10 ^ 40 then p else shrink c k (p.1 / 10 ^ 10 + c, p.2 + 10)

/-- Leading digits of `b ^ (2 ^ i)`. -/
def squares (c b : Nat) : Nat → Nat × Nat
  | 0 => (b, 0)
  | i + 1 => shrink c 8 ((squares c b i).1 * (squares c b i).1, 2 * (squares c b i).2)

theorem le_value_shrink (k : Nat) (p : Nat × Nat) : value p ≤ value (shrink 1 k p) := by
  induction k generalizing p with
  | zero => exact le_rfl
  | succ k ih =>
    rw [shrink]
    split
    · exact le_rfl
    · refine le_trans ?_ (ih _)
      calc p.1 * 10 ^ p.2 ≤ (10 ^ 10 * (p.1 / 10 ^ 10 + 1)) * 10 ^ p.2 :=
            Nat.mul_le_mul_right _ (Nat.lt_mul_div_succ p.1 (by decide)).le
        _ = (p.1 / 10 ^ 10 + 1) * 10 ^ (p.2 + 10) := by rw [pow_add]; ring

theorem value_shrink_le (k : Nat) (p : Nat × Nat) : value (shrink 0 k p) ≤ value p := by
  induction k generalizing p with
  | zero => exact le_rfl
  | succ k ih =>
    rw [shrink]
    split
    · exact le_rfl
    · refine (ih _).trans ?_
      calc (p.1 / 10 ^ 10 + 0) * 10 ^ (p.2 + 10) = (10 ^ 10 * (p.1 / 10 ^ 10)) * 10 ^ p.2 := by rw [pow_add]; ring
        _ ≤ p.1 * 10 ^ p.2 := Nat.mul_le_mul_right _ (Nat.mul_div_le p.1 _)

theorem value_square (p : Nat × Nat) : value (p.1 * p.1, 2 * p.2) = value p ^ 2 := by
  unfold value
  rw [mul_pow, ← pow_mul, Nat.mul_comm 2 p.2, Nat.pow_two p.1]

theorem pow_le_squares (b i : Nat) : b ^ 2 ^ i ≤ value (squares 1 b i) := by
  induction i with
  | zero => exact (by unfold squares value; simp)
  | succ i ih =>
    calc b ^ 2 ^ (i + 1) = (b ^ 2 ^ i) ^ 2 := by rw [← pow_mul, pow_succ]
      _ ≤ value (squares 1 b i) ^ 2 := Nat.pow_le_pow_left ih 2
      _ = value ((squares 1 b i).1 * (squares 1 b i).1, 2 * (squares 1 b i).2) := (value_square _).symm
      _ ≤ value (squares 1 b (i + 1)) := le_value_shrink 8 _

theorem squares_le_pow (b i : Nat) : value (squares 0 b i) ≤ b ^ 2 ^ i := by
  induction i with
  | zero => exact (by unfold squares value; simp)
  | succ i ih =>
    calc value (squares 0 b (i + 1)) ≤ value ((squares 0 b i).1 * (squares 0 b i).1, 2 * (squares 0 b i).2) :=
      value_shrink_le 8 _
      _ = value (squares 0 b i) ^ 2 := value_square _
      _ ≤ (b ^ 2 ^ i) ^ 2 := Nat.pow_le_pow_left ih 2
      _ = b ^ 2 ^ (i + 1) := by rw [← pow_mul, pow_succ]

/-- An upper bound from leading digits. -/
theorem pow_le_of_squares (hle : (squares 1 b i).2 ≤ e ∧ (squares 1 b i).1 ≤ m * 10 ^ (e - (squares 1 b i).2)) :
    b ^ 2 ^ i ≤ m * 10 ^ e := by
  calc b ^ 2 ^ i ≤ (squares 1 b i).1 * 10 ^ (squares 1 b i).2 := pow_le_squares b i
    _ ≤ m * 10 ^ (e - (squares 1 b i).2) * 10 ^ (squares 1 b i).2 := Nat.mul_le_mul_right _ hle.2
    _ = m * 10 ^ e := by rw [Nat.mul_assoc, ← pow_add, Nat.sub_add_cancel hle.1]

/-- A lower bound from leading digits. -/
theorem le_pow_of_squares (hle : (squares 0 b i).2 ≤ e ∧ m * 10 ^ (e - (squares 0 b i).2) ≤ (squares 0 b i).1) :
    m * 10 ^ e ≤ b ^ 2 ^ i := by
  calc m * 10 ^ e = m * 10 ^ (e - (squares 0 b i).2) * 10 ^ (squares 0 b i).2 := by
        rw [Nat.mul_assoc, ← pow_add, Nat.sub_add_cancel hle.1]
    _ ≤ (squares 0 b i).1 * 10 ^ (squares 0 b i).2 := Nat.mul_le_mul_right _ hle.2
    _ ≤ b ^ 2 ^ i := squares_le_pow b i

/-- A comparison of two powers scales to other exponents. -/
theorem pow_le_pow_of_mul_le {a b k m l n : Nat} (hb : 0 < b) (hk : k ≠ 0) (hpow : a ^ k ≤ b ^ m)
    (hle : m * l ≤ n * k) : a ^ l ≤ b ^ n := by
  refine (Nat.pow_le_pow_iff_left hk).mp ?_
  calc (a ^ l) ^ k = (a ^ k) ^ l := pow_right_comm a l k
    _ ≤ (b ^ m) ^ l := Nat.pow_le_pow_left hpow l
    _ = b ^ (m * l) := (pow_mul b m l).symm
    _ ≤ b ^ (n * k) := Nat.pow_le_pow_right hb hle
    _ = (b ^ n) ^ k := pow_mul b n k

/-! ## Finite expansions -/

/-- A divisor of a power of `n` already divides the power whose exponent is the logarithm of the divisor. -/
theorem dvd_pow_of_le (hdvd : b ∣ n ^ k) (hle : b ≤ 2 ^ m) (hn : n ≠ 0) : b ∣ n ^ m := by
  have hb : b ≠ 0 := fun hzero => pow_ne_zero k hn (zero_dvd_iff.mp (hzero ▸ hdvd))
  rw [← Nat.factorization_le_iff_dvd hb (pow_ne_zero m hn)]
  rw [← Nat.factorization_le_iff_dvd hb (pow_ne_zero k hn)] at hdvd
  intro p
  have hp := hdvd p
  rw [Nat.factorization_pow, Finsupp.smul_apply, smul_eq_mul] at hp ⊢
  rcases Nat.eq_zero_or_pos (n.factorization p) with hzero | hpos
  · rw [hzero, Nat.mul_zero] at hp ⊢
    exact hp
  · -- a prime factor occurs at most `m` times, since it is at least 2
    have hprime : p.Prime :=
      Nat.prime_of_mem_primeFactors (Nat.support_factorization n ▸ Finsupp.mem_support_iff.mpr hpos.ne')
    have htwo : 2 ^ b.factorization p ≤ 2 ^ m :=
      (Nat.pow_le_pow_left hprime.two_le _).trans ((Nat.ordProj_le p hb).trans hle)
    have hexp := (Nat.pow_le_pow_iff_right (by decide)).mp htwo
    exact hexp.trans (Nat.le_mul_of_pos_right m hpos)

theorem dvd_mul_pow_of_le (hdvd : b ∣ a * n ^ k) (hle : b ≤ 2 ^ m) (hb : 0 < b) (hn : n ≠ 0) : b ∣ a * n ^ m := by
  have hgcd : 0 < Nat.gcd b a := Nat.gcd_pos_of_pos_left a hb
  have hcoprime : Nat.Coprime (b / Nat.gcd b a) (a / Nat.gcd b a) := Nat.coprime_div_gcd_div_gcd hgcd
  have hrest : b / Nat.gcd b a ∣ n ^ k := by
    refine hcoprime.dvd_of_dvd_mul_left ?_
    rw [← Nat.mul_dvd_mul_iff_left hgcd, Nat.mul_div_cancel' (Nat.gcd_dvd_left b a), ← Nat.mul_assoc,
      Nat.mul_div_cancel' (Nat.gcd_dvd_right b a)]
    exact hdvd
  have hpow := dvd_pow_of_le hrest ((Nat.div_le_self _ _).trans hle) hn
  calc b = Nat.gcd b a * (b / Nat.gcd b a) := (Nat.mul_div_cancel' (Nat.gcd_dvd_left b a)).symm
    _ ∣ a * n ^ m := Nat.mul_dvd_mul (Nat.gcd_dvd_right b a) hpow

end DecimalDigits
