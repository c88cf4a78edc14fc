import Mathlib

/-!
# `Lib.LongDivision` — estimates of a quotient digit

Long division in base `B` finds the next digit of a quotient from the leading digits of the remainder and of the
divisor. The remainder has the leading part `a` and the next digit `u`; the divisor has the leading digit `v₁` and the
next digit `v₀`. The estimate `a / v₁` is never too small. A pair `q`, `r` with `q * v₁ + r = a` is tested by
`q * v₀ ≤ r * B + u`, which is right for the two digits of the divisor; a further digit of the divisor can make the
result too large by one.
-/

namespace LongDivision

variable {B v₁ v₀ a u q r : Nat}

/-- The test tells whether `q` times the two digits of the divisor fits. -/
theorem test_iff (hqr : q * v₁ + r = a) : q * v₀ ≤ r * B + u ↔ q * (v₁ * B + v₀) ≤ a * B + u := by
  have hleft : q * (v₁ * B + v₀) = q * v₁ * B + q * v₀ := by ring
  have hright : a * B + u = q * v₁ * B + (r * B + u) := by rw [← hqr]; ring
  rw [hleft, hright]
  omega

theorem estimate_mul_add (a v₁ : Nat) : a / v₁ * v₁ + a % v₁ = a := by
  rw [Nat.mul_comm]
  exact Nat.div_add_mod a v₁

/-- An estimate by the leading part of the divisor is not too small. -/
theorem div_le_estimate (hv : 0 < v₁) (hu : u < B) : (a * B + u) / (v₁ * B + v₀) ≤ a / v₁ := by
  have hB : 0 < B := by omega
  calc (a * B + u) / (v₁ * B + v₀) ≤ (a * B + u) / (v₁ * B) :=
        Nat.div_le_div_left (Nat.le_add_right _ _) (Nat.mul_pos hv hB)
    _ = (a * B + u) / B / v₁ := by rw [Nat.mul_comm v₁ B, Nat.div_div_eq_div_mul]
    _ = a / v₁ := by rw [Nat.mul_comm a B, Nat.mul_add_div hB, Nat.div_eq_of_lt hu, Nat.add_zero]

/-- A pair that passes the test is not too large. -/
theorem le_div_of_test (hv : 0 < v₁) (hB : 0 < B) (hqr : q * v₁ + r = a) (htest : q * v₀ ≤ r * B + u) :
    q ≤ (a * B + u) / (v₁ * B + v₀) := by
  rw [Nat.le_div_iff_mul_le (Nat.add_pos_left (Nat.mul_pos hv hB) _)]
  exact (test_iff hqr).mp htest

/-- A pair that fails the test is too large. -/
theorem div_lt_of_not_test (hv : 0 < v₁) (hB : 0 < B) (hqr : q * v₁ + r = a) (htest : ¬ q * v₀ ≤ r * B + u) :
    (a * B + u) / (v₁ * B + v₀) < q := by
  rw [Nat.div_lt_iff_lt_mul (Nat.add_pos_left (Nat.mul_pos hv hB) _)]
  exact Nat.lt_of_not_le fun hle => htest ((test_iff hqr).mpr hle)

/-- With a part `r` of at least `B` the test passes for every digit. -/
theorem test_of_le (hr : B ≤ r) (hq : q ≤ B) (hv : v₀ < B) : q * v₀ ≤ r * B + u := by
  calc q * v₀ ≤ B * B := Nat.mul_le_mul hq hv.le
    _ ≤ r * B := Nat.mul_le_mul_right B hr
    _ ≤ r * B + u := Nat.le_add_right _ _

/-- A remainder below the divisor gives a digit. -/
theorem div_lt_base {n v : Nat} (hn : n < v) (hu : u < B) : (n * B + u) / v < B := by
  rw [Nat.div_lt_iff_lt_mul (by omega)]
  calc n * B + u < n * B + B := by omega
    _ = (n + 1) * B := by ring
    _ ≤ v * B := Nat.mul_le_mul_right B hn
    _ = B * v := Nat.mul_comm ..

/-- One more digit `w` of the remainder and `z` of the divisor: the digit found without them is right or too large by
    one. -/
theorem le_div_add_one {n v w z d : Nat} (hd : d < B) (hle : d * v ≤ n) (hz : z < B) (hv : B ≤ v) :
    d ≤ (n * B + w) / (v * B + z) + 1 := by
  have hpos : 0 < v * B + z := Nat.add_pos_left (Nat.mul_pos (by omega) (by omega)) _
  by_contra hnot
  have hlt : (n * B + w) / (v * B + z) + 1 < d := Nat.lt_of_not_le hnot
  obtain ⟨e, rfl⟩ := Nat.exists_eq_succ_of_ne_zero (Nat.ne_zero_of_lt hlt)
  rw [Nat.succ_eq_add_one, Nat.add_lt_add_iff_right, Nat.div_lt_iff_lt_mul hpos] at hlt
  have hez : e * z ≤ B * B := Nat.mul_le_mul (by omega) hz.le
  have hvB : B * B ≤ v * B := Nat.mul_le_mul_right B hv
  have hdv : (e + 1) * v * B ≤ n * B := Nat.mul_le_mul_right B hle
  nlinarith

theorem step_eq (x u v B : Nat) : x * B + u = (x % v * B + u) + v * (x / v * B) := by
  have hmod := Nat.mod_add_div x v
  calc x * B + u = (x % v + v * (x / v)) * B + u := by rw [hmod]
    _ = (x % v * B + u) + v * (x / v * B) := by ring

/-- One step of the division: the digit `u` is brought down to the remainder of the digits before it. -/
theorem div_step {x v : Nat} (hv : 0 < v) : (x * B + u) / v = x / v * B + (x % v * B + u) / v := by
  rw [step_eq x u v B, Nat.add_mul_div_left _ _ hv, Nat.add_comm]

theorem mod_step {x v : Nat} : (x * B + u) % v = (x % v * B + u) % v := by
  rw [step_eq x u v B, Nat.add_mul_mod_self_left]

/-- A divisor is scaled to have a leading digit of at least half the base. -/
theorem half_le_mul_div {d : Nat} (hd : 0 < d) (hB : d < B) : B ≤ 2 * (d * (B / (d + 1))) + 1 := by
  have hpos : 0 < B / (d + 1) := Nat.div_pos hB (Nat.succ_pos d)
  have hlt : B < (d + 1) * (B / (d + 1) + 1) := Nat.lt_mul_div_succ B (Nat.succ_pos d)
  generalize B / (d + 1) = t at hpos hlt
  obtain ⟨e, rfl⟩ := Nat.exists_eq_succ_of_ne_zero hd.ne'
  obtain ⟨f, rfl⟩ := Nat.exists_eq_succ_of_ne_zero hpos.ne'
  simp only [Nat.succ_eq_add_one] at hlt ⊢
  nlinarith

theorem half_le_scaled {r c : Nat} (hc : 0 < c) (hpos : 0 < r / c) (hlt : r / c < B) :
    B ≤ 2 * (r * (B / (r / c + 1)) / c) + 1 := by
  have hle : r / c * (B / (r / c + 1)) ≤ r * (B / (r / c + 1)) / c := by
    rw [Nat.le_div_iff_mul_le hc, Nat.mul_right_comm]
    exact Nat.mul_le_mul_right _ (Nat.div_mul_le_self r c)
  have hhalf := half_le_mul_div hpos hlt
  omega

/-- The scaled divisor still has its number of digits. -/
theorem scaled_lt {r c : Nat} (hc : 0 < c) (hlt : r / c < B) : r * (B / (r / c + 1)) < B * c := by
  have hpos : 0 < B / (r / c + 1) := Nat.div_pos hlt (Nat.succ_pos _)
  calc r * (B / (r / c + 1)) < c * (r / c + 1) * (B / (r / c + 1)) :=
    Nat.mul_lt_mul_of_pos_right (Nat.lt_mul_div_succ r hc) hpos
    _ = (r / c + 1) * (B / (r / c + 1)) * c := by ring
    _ ≤ B * c := Nat.mul_le_mul_right c (Nat.mul_div_le B _)

/-- The scaled operands compare as the operands do. -/
theorem scaled_div_lt {n r c t : Nat} (hc : 0 < c) (ht : 0 < t) (hlt : n < r * c) : n * t / c < r * t := by
  rw [Nat.div_lt_iff_lt_mul hc]
  calc n * t < r * c * t := Nat.mul_lt_mul_of_pos_right hlt ht
    _ = r * t * c := by ring

end LongDivision
