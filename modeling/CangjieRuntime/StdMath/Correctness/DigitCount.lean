import CangjieRuntime.Lib.DecimalDigits
import CangjieRuntime.StdMath.Decimal

/-!
# `StdMath.Correctness.DigitCount` — the number of digits is counted right

The estimate from the bits is at least the number of digits and at most one more, for values of fewer than `2 ^ 51`
bits: the floating-point logarithm of 2 is above the logarithm, by less than `2 ^ -54`, and both roundings are less than
an eighth off there.
-/

namespace CangjieRuntime.StdMath

open StdCore DecimalDigits

/-! ## Powers of ten -/

theorem tenth_power_array : ∀ n < 20, BIGINT_TENTH_POWER_ARRAY.getD n 0 = 10 ^ n := by decide

theorem tenPowerN_eq (n : Nat) : tenPowerN n = 10 ^ n := by
  unfold tenPowerN
  rw [if_neg (by omega), Int.toNat_natCast]
  split
  · exact tenth_power_array n (by rename_i hlt; rw [show BIGINT_TENTH_POWER_ARRAY.length = 20 from rfl] at hlt; omega)
  · rfl

theorem ailgnBigValue_eq (val : Int) (n : Nat) : ailgnBigValue val n = val * 10 ^ n := by
  unfold ailgnBigValue
  split
  · rw [show n = 0 by omega, pow_zero, mul_one]
  · rw [tenPowerN_eq]

theorem compareMagnitude_pos {x y : Int} : compareMagnitude x y > 0 ↔ y.natAbs < x.natAbs := by
  unfold compareMagnitude
  split
  · exact iff_of_true (by decide) (by assumption)
  · split
    · exact iff_of_false (by decide) (by omega)
    · exact iff_of_false (by decide) (by omega)

/-! ## The floating-point logarithm -/

/-- `2 ^ (2 ^ 54)` against powers of ten. -/
theorem log_upper : 2 ^ 2 ^ 54 ≤ 9 * 10 ^ (LOG10_2 - 1) := pow_le_of_squares (by decide +kernel)

theorem log_lower : 8 * 10 ^ (LOG10_2 - 1) ≤ 2 ^ 2 ^ 54 := le_pow_of_squares (by decide +kernel)

theorem LOG10_2_eq : LOG10_2 = 5422874305198591 := rfl

variable {l n d : Nat} {v : Int}

theorem two_pow_le_ten_pow (hle : LOG10_2 * l ≤ n * 2 ^ 54) : 2 ^ l ≤ 10 ^ n := by
  refine pow_le_pow_of_mul_le (by decide) (by decide) (log_upper.trans ?_) hle
  calc 9 * 10 ^ (LOG10_2 - 1) ≤ 10 * 10 ^ (LOG10_2 - 1) := Nat.mul_le_mul_right _ (by decide)
    _ = 10 ^ LOG10_2 := by rw [← pow_succ', Nat.sub_add_cancel (by decide)]

theorem ten_pow_le_two_pow (hle : n * 2 ^ 54 ≤ l * (LOG10_2 - 1)) : 10 ^ n ≤ 2 ^ l :=
  pow_le_pow_of_mul_le (by decide) (by decide) ((Nat.le_mul_of_pos_left _ (by decide)).trans log_lower)
    (by rwa [Nat.mul_comm])

section Float

variable {n s : Nat}

theorem unit_dvd (hn : n < 2 ^ (53 + s)) : 2 ^ (n.log2 - 52) ∣ 2 ^ s := by
  apply pow_dvd_pow
  rcases Nat.eq_zero_or_pos n with rfl | hpos
  · exact Nat.zero_le _
  · have hlog := (Nat.log2_lt hpos.ne').mpr hn
    omega

/-- Rounding adds at most half a unit. -/
theorem roundFloat_le (hn : n < 2 ^ (53 + s)) : 2 * roundFloat n ≤ 2 * n + 2 ^ s := by
  have hunit := Nat.le_of_dvd (Nat.two_pow_pos s) (unit_dvd hn)
  have hsplit := Nat.div_add_mod' n (2 ^ (n.log2 - 52))
  unfold roundFloat
  dsimp only
  split
  · omega
  · omega

/-- Rounding does not cross a number that is itself a multiple of the unit. -/
theorem le_roundFloat {m : Nat} (hn : n < 2 ^ (53 + s)) (hm : 2 ^ s ∣ m) (hle : m ≤ n) : m ≤ roundFloat n := by
  obtain ⟨k, rfl⟩ := (unit_dvd hn).trans hm
  have hdown : 2 ^ (n.log2 - 52) * k ≤ n / 2 ^ (n.log2 - 52) * 2 ^ (n.log2 - 52) := by
    rw [Nat.mul_comm]
    refine Nat.mul_le_mul_right _ ((Nat.le_div_iff_mul_le (Nat.two_pow_pos _)).mpr ?_)
    rwa [Nat.mul_comm]
  unfold roundFloat
  dsimp only
  split
  · exact hdown
  · exact hdown.trans (Nat.le_add_right _ _)

theorem roundFloat_eq (hn : n < 2 ^ 53) : roundFloat n = n := by
  have hup := roundFloat_le (s := 0) hn
  have hdown := le_roundFloat (s := 0) (m := n) hn (one_dvd n) le_rfl
  omega

end Float

/-- The product is rounded, one is added and the sum is rounded: the whole part of the product is not lost, and both
    roundings together add less than a quarter. -/
theorem round_product {c : Nat} (hc : c < 2 ^ (53 + 51)) :
    c / 2 ^ 54 + 1 ≤ roundFloat (roundFloat c + 2 ^ 54) / 2 ^ 54 ∧
      roundFloat (roundFloat c + 2 ^ 54) ≤ c + 2 ^ 54 + 3 * 2 ^ 50 := by
  have hround := roundFloat_le hc
  have hsum : roundFloat c + 2 ^ 54 < 2 ^ (53 + 52) := by omega
  have hround' := roundFloat_le hsum
  have hwhole : c / 2 ^ 54 * 2 ^ 54 ≤ roundFloat c :=
    le_roundFloat hc ((pow_dvd_pow 2 (by decide)).trans (Nat.dvd_mul_left _ _)) (Nat.div_mul_le_self _ _)
  have hwhole' : (c / 2 ^ 54 + 1) * 2 ^ 54 ≤ roundFloat (roundFloat c + 2 ^ 54) :=
    le_roundFloat hsum ((pow_dvd_pow 2 (by decide)).trans (Nat.dvd_mul_left _ _)) (by
      rw [Nat.add_mul, Nat.one_mul]
      exact Nat.add_le_add_right hwhole _)
  exact ⟨(Nat.le_div_iff_mul_le (by decide)).mpr hwhole', by omega⟩

/-- The estimate in units of `2 ^ -54`, for values of fewer than `2 ^ 51` bits. -/
theorem estimateDigits_bounds (hl : l < 2 ^ 51) :
    1 ≤ estimateDigits l ∧ LOG10_2 * l < estimateDigits l * 2 ^ 54 ∧
      estimateDigits l * 2 ^ 54 ≤ LOG10_2 * l + 2 ^ 54 + 3 * 2 ^ 50 := by
  have hproduct : LOG10_2 * l < 2 ^ (53 + 51) := (Nat.mul_lt_mul'' (by decide) hl).trans_eq (pow_add 2 53 51).symm
  have hfloat : roundFloat l = l := roundFloat_eq (hl.trans (Nat.pow_lt_pow_right (by decide) (by decide)))
  unfold estimateDigits
  rw [hfloat]
  obtain ⟨hlow, hhigh⟩ := round_product hproduct
  generalize LOG10_2 * l = c at *
  omega

/-! ## The count -/

theorem bitLen_bounds (hv : v ≠ 0) : v.natAbs < 2 ^ bitLen v ∧ 2 ^ bitLen v ≤ 4 * v.natAbs := by
  have habs : v.natAbs ≠ 0 := Int.natAbs_ne_zero.mpr hv
  have hlo : 2 ^ v.natAbs.log2 ≤ v.natAbs := Nat.log2_self_le habs
  have hhi : v.natAbs < 2 ^ (v.natAbs.log2 + 1) := Nat.lt_log2_self
  have htwo : 2 ^ (v.natAbs.log2 + 1) = 2 * 2 ^ v.natAbs.log2 := pow_succ' 2 _
  have hfour : 2 ^ (v.natAbs.log2 + 1 + 1) = 4 * 2 ^ v.natAbs.log2 := by
    rw [pow_succ', htwo]
    ring
  unfold bitLen
  rw [if_neg hv]
  by_cases hneg : v < 0
  · rw [if_pos hneg]
    dsimp only
    by_cases hone : v.natAbs = 1
    · rw [if_pos hone, hone]
      decide
    · rw [if_neg hone]
      split
      · rw [Nat.add_zero]
        exact ⟨hhi, by omega⟩
      · exact ⟨by omega, by omega⟩
  · rw [if_neg hneg]
    exact ⟨hhi, by omega⟩

/-- A value of fewer than `2 ^ 49` digits has fewer than `2 ^ 51` bits. -/
theorem bitLen_lt (hv : v ≠ 0) (hlt : v.natAbs < 10 ^ d) (hd : d < 2 ^ 49) : bitLen v < 2 ^ 51 := by
  obtain ⟨-, hbits⟩ := bitLen_bounds hv
  have hten : 4 * 10 ^ d ≤ 2 ^ (4 * d + 2) := by
    calc 4 * 10 ^ d ≤ 4 * (2 ^ 4) ^ d := Nat.mul_le_mul_left 4 (Nat.pow_le_pow_left (by decide) d)
      _ = 2 ^ (4 * d + 2) := by rw [← pow_mul, pow_add, Nat.mul_comm, show 2 ^ 2 = 4 from rfl]
  have hpow : 2 ^ bitLen v < 2 ^ (4 * d + 2) := by omega
  have hexp := (Nat.pow_lt_pow_iff_right (by decide)).mp hpow
  omega

/-- The estimate is at most one too high, also for a negative number, which has at least a quarter of the power of its
    bits. -/
theorem le_of_estimate {n l j : Nat} (hl : l < 2 ^ 51) (hquarter : 2 ^ l ≤ 4 * n)
    (hle : (j + 1 + 1) * 2 ^ 54 ≤ LOG10_2 * l + 2 ^ 54 + 3 * 2 ^ 50) : 10 ^ j ≤ n := by
  have hL := LOG10_2_eq
  obtain ⟨i, rfl⟩ : ∃ i, l = i + 2 := by
    refine ⟨l - 2, (Nat.sub_add_cancel ?_).symm⟩
    by_contra hnot
    have hsmall : LOG10_2 * l ≤ LOG10_2 * 1 := Nat.mul_le_mul_left _ (by omega)
    omega
  have hlow : 10 ^ j ≤ 2 ^ i := by
    apply ten_pow_le_two_pow
    have hproduct : i * (LOG10_2 - 1) + i = i * LOG10_2 := by
      rw [← Nat.mul_succ, Nat.succ_eq_add_one, Nat.sub_add_cancel (by omega)]
    rw [Nat.mul_add, Nat.mul_comm LOG10_2 i] at hle
    rw [Nat.add_mul, Nat.add_mul, Nat.one_mul] at hle
    generalize i * (LOG10_2 - 1) = c at hproduct ⊢
    generalize i * LOG10_2 = c' at hproduct hle
    obtain ⟨p, hp⟩ : ∃ p, p = j * 2 ^ 54 := ⟨_, rfl⟩
    rw [← hp] at hle ⊢
    clear hp
    omega
  rw [pow_add] at hquarter
  omega

/-- The number of digits of a value of fewer than `2 ^ 49` digits. -/
theorem calcNumberOfDigits_eq (hlt : v.natAbs < 10 ^ d) (hd : d < 2 ^ 49) :
    calcNumberOfDigits v = numDigits v.natAbs := by
  unfold calcNumberOfDigits
  by_cases hv : v = 0
  · rw [if_pos hv, hv]
    rfl
  rw [if_neg hv]
  dsimp only
  obtain ⟨hhi, hlo⟩ := bitLen_bounds hv
  obtain ⟨hest, hup, hdown⟩ := estimateDigits_bounds (bitLen_lt hv hlt hd)
  have hl := bitLen_lt hv hlt hd
  generalize bitLen v = l at *
  -- below the power of ten of the estimate, and at least that of two digits less
  have habove : v.natAbs < 10 ^ estimateDigits l := hhi.trans_le (two_pow_le_ten_pow hup.le)
  generalize estimateDigits l = digits at *
  obtain ⟨k, rfl⟩ : ∃ k, digits = k + 1 := Nat.exists_eq_succ_of_ne_zero (by omega)
  have hresult (power : Int) (hpower : power.natAbs = 10 ^ k) :
      (if compareMagnitude power v > 0 then (k : Int) else ((k + 1 : Nat) : Int)) = numDigits v.natAbs := by
    by_cases hless : v.natAbs < 10 ^ k
    · rw [if_pos (compareMagnitude_pos.mpr (hpower ▸ hless))]
      obtain ⟨j, rfl⟩ : ∃ j, k = j + 1 := by
        refine Nat.exists_eq_succ_of_ne_zero fun hzero => ?_
        rw [hzero, pow_zero] at hless
        omega
      rw [numDigits_eq (le_of_estimate hl hlo hdown) hless]
    · rw [if_neg (mt compareMagnitude_pos.mp (hpower ▸ hless)), numDigits_eq (Nat.le_of_not_lt hless) habove]
  rw [show ((k + 1 : Nat) : Int) - 1 = k by omega, Int.toNat_natCast]
  split
  · rename_i hsmall
    rw [show BIGINT_TENTH_POWER_ARRAY.length = 20 from rfl] at hsmall
    refine hresult _ ?_
    rw [tenth_power_array k (by omega), Int.natAbs_pow]
    rfl
  · refine hresult _ ?_
    rw [Int.natAbs_pow]
    rfl

end CangjieRuntime.StdMath
