import CangjieRuntime.StdMath.Correctness.DigitCount

/-!
# `StdMath.Correctness.DecimalArithmetic` — sums, products and powers are exact

The operations return the decimal of the exact result, with the precision and the sign that belong to its value, or
throw because of the scale. The digits of a result are counted right as long as there are fewer than `2 ^ 49` of them.
-/

namespace CangjieRuntime.StdMath

open StdCore DecimalDigits

/-- An `Int32`. -/
def InInt32 (x : Int) : Prop := INT32_MIN ≤ x ∧ x ≤ INT32_MAX

instance (x : Int) : Decidable (InInt32 x) := inferInstanceAs (Decidable (INT32_MIN ≤ x ∧ x ≤ INT32_MAX))

theorem checkScaleOverFlow_ok {x : Int} (hx : InInt32 x) : checkScaleOverFlow x = .ok x := if_pos hx

theorem checkScaleOverFlow_error {x : Int} (hx : ¬ InInt32 x) : checkScaleOverFlow x = .error .overflow := if_neg hx

namespace Decimal

/-- The number that a decimal stands for. -/
def toRat (d : Decimal) : ℚ := d.value * 10 ^ (-d.scale)

/-- The precision and the sign are those of the value. -/
structure Valid (d : Decimal) : Prop where
  scale : InInt32 d.scale
  precision : d.precision = numDigits d.value.natAbs
  sign : d.sign = d.value.sign

/-- The decimal of a number, or the exception if the scale that is needed does not fit. -/
def Exact (result : Except Exn Decimal) (needed : Int) (q : ℚ) : Prop :=
  if InInt32 needed then ∃ r, result = .ok r ∧ r.Valid ∧ r.toRat = q else result = .error .overflow

variable {a b d : Decimal} {val scale x y : Int} {n m : Nat}

theorem Valid.value_eq_zero_iff (hd : d.Valid) : d.sign = 0 ↔ d.value = 0 := by
  rw [hd.sign, Int.sign_eq_zero_iff_zero]

theorem Valid.value_lt (hd : d.Valid) : d.value.natAbs < 10 ^ d.precision.toNat := by
  rw [hd.precision, Int.toNat_natCast]
  exact lt_pow_numDigits _

/-- A decimal whose digits have been counted. -/
theorem valid_withPrecision (hscale : InInt32 scale) (hlt : val.natAbs < 10 ^ n) (hn : n < 2 ^ 49) :
    (withPrecision val scale (calcNumberOfDigits val)).Valid :=
  ⟨hscale, calcNumberOfDigits_eq hlt hn, rfl⟩

theorem toRat_withPrecision (val scale precision : Int) :
    (withPrecision val scale precision).toRat = val * 10 ^ (-scale) := rfl

/-- Digits that are added behind the point. -/
theorem toRat_raise (val scale : Int) (n : Nat) :
    ((val * 10 ^ n : Int) : ℚ) * 10 ^ (-(scale + n)) = val * 10 ^ (-scale) := by
  rw [neg_add, zpow_add₀ (by norm_num)]
  push_cast
  rw [zpow_neg _ (n : Int), zpow_natCast]
  field_simp

/-! ## Sums -/

theorem add_natAbs_lt (hx : x.natAbs < 10 ^ m) (hy : y.natAbs < 10 ^ n) :
    (x + y).natAbs < 10 ^ (max m n + 1) := by
  have hsum := Int.natAbs_add_le x y
  have hm : 10 ^ m ≤ 10 ^ max m n := Nat.pow_le_pow_right (by decide) (Nat.le_max_left m n)
  have hn : 10 ^ n ≤ 10 ^ max m n := Nat.pow_le_pow_right (by decide) (Nat.le_max_right m n)
  rw [pow_succ]
  omega

theorem raise_natAbs_lt (hy : y.natAbs < 10 ^ n) (k : Nat) : (y * 10 ^ k).natAbs < 10 ^ (n + k) := by
  rw [Int.natAbs_mul, Int.natAbs_pow, pow_add]
  exact Nat.mul_lt_mul_of_pos_right hy (Nat.pow_pos (by decide))

/-- The sum of two values at the larger scale. -/
theorem add_aligned {m n k : Nat} (hscale : InInt32 scale) (hx : x.natAbs < 10 ^ m) (hy : y.natAbs < 10 ^ n)
    (hm : m < 2 ^ 48) (hn : n < 2 ^ 48) (hk : k ≤ 2 ^ 31) :
    (withPrecision (x + ailgnBigValue y k) scale (calcNumberOfDigits (x + ailgnBigValue y k))).Valid ∧
      (withPrecision (x + ailgnBigValue y k) scale (calcNumberOfDigits (x + ailgnBigValue y k))).toRat =
        x * 10 ^ (-scale) + y * 10 ^ (-(scale - k)) := by
  rw [ailgnBigValue_eq]
  refine ⟨valid_withPrecision hscale (add_natAbs_lt hx (raise_natAbs_lt hy k)) (by omega), ?_⟩
  have hraise := toRat_raise y (scale - k) k
  rw [sub_add_cancel] at hraise
  rw [toRat_withPrecision, Int.cast_add, add_mul, hraise]

theorem Valid.precision_lt (hd : d.Valid) (hfits : d.precision < 2 ^ 48) : d.precision.toNat < 2 ^ 48 := by
  have hpos := hd.precision
  omega

/-- `+` is exact, and has the larger scale. -/
theorem add_spec (ha : a.Valid) (hb : b.Valid) (hfa : a.precision < 2 ^ 48) (hfb : b.precision < 2 ^ 48)
    (hdiff : InInt32 (a.scale - b.scale)) :
    ∃ r, a.add b = .ok r ∧ r.Valid ∧ r.toRat = a.toRat + b.toRat ∧ r.scale = max a.scale b.scale := by
  have hrange := hdiff
  unfold InInt32 at hrange
  rw [show INT32_MIN = -2147483648 from rfl, show INT32_MAX = 2147483647 from rfl] at hrange
  unfold add
  split_ifs with heq
  · obtain ⟨hvalid, hvalue⟩ :=
      add_aligned (k := 0) ha.scale ha.value_lt hb.value_lt (ha.precision_lt hfa) (hb.precision_lt hfb) (by decide)
    rw [ailgnBigValue_eq, pow_zero, mul_one] at hvalid hvalue
    refine ⟨_, rfl, hvalid, ?_, ?_⟩
    · rw [hvalue]
      unfold toRat
      rw [heq, Nat.cast_zero, sub_zero]
    · rw [heq, max_self]
      rfl
  · rw [checkScaleOverFlow_ok hdiff, ok_bind]
    by_cases hpos : a.scale - b.scale > 0
    · rw [if_pos hpos]
      obtain ⟨k, hk⟩ := Int.eq_ofNat_of_zero_le hpos.le
      obtain ⟨hvalid, hvalue⟩ :=
        add_aligned (k := k) ha.scale ha.value_lt hb.value_lt (ha.precision_lt hfa) (hb.precision_lt hfb) (by omega)
      rw [hk]
      refine ⟨_, rfl, hvalid, ?_, ?_⟩
      · rw [hvalue, show a.scale - k = b.scale by omega]
        rfl
      · change a.scale = max a.scale b.scale
        omega
    · rw [if_neg hpos]
      obtain ⟨k, hk⟩ := Int.eq_ofNat_of_zero_le (show 0 ≤ -(a.scale - b.scale) by omega)
      obtain ⟨hvalid, hvalue⟩ :=
        add_aligned (k := k) hb.scale hb.value_lt ha.value_lt (hb.precision_lt hfb) (ha.precision_lt hfa) (by omega)
      rw [hk]
      refine ⟨_, rfl, hvalid, ?_, ?_⟩
      · rw [hvalue, show b.scale - k = a.scale by omega, add_comm]
        rfl
      · change b.scale = max a.scale b.scale
        omega

theorem add_error (hdiff : ¬ InInt32 (a.scale - b.scale)) : a.add b = .error .overflow := by
  have hne : a.scale ≠ b.scale := by
    rintro heq
    rw [heq, sub_self] at hdiff
    exact hdiff (by decide)
  unfold add
  rw [if_neg hne, checkScaleOverFlow_error hdiff]
  rfl

/-! ## The other operations -/

theorem valid_neg (ha : a.Valid) : a.neg.Valid ∧ a.neg.toRat = -a.toRat := by
  refine ⟨⟨ha.scale, ?_, rfl⟩, ?_⟩
  · change a.precision = numDigits (-a.value).natAbs
    rw [Int.natAbs_neg, ha.precision]
  · unfold neg toRat
    rw [withPrecision, Int.cast_neg, neg_mul]

theorem valid_abs (ha : a.Valid) : a.abs.Valid ∧ a.abs.toRat = |a.toRat| := by
  refine ⟨⟨ha.scale, ?_, rfl⟩, ?_⟩
  · change a.precision = numDigits |a.value|.natAbs
    rw [Int.natAbs_abs, ha.precision]
  · unfold abs toRat
    rw [withPrecision, abs_mul, Int.cast_abs, abs_of_pos (show (0 : ℚ) < 10 ^ (-a.scale) by positivity)]

theorem mul_natAbs_lt (hx : x.natAbs < 10 ^ m) (hy : y.natAbs < 10 ^ n) : (x * y).natAbs < 10 ^ (m + n) := by
  rw [Int.natAbs_mul, pow_add]
  exact Nat.mul_lt_mul'' hx hy

/-- `*` is exact, and has the sum of the scales. -/
theorem mul_spec (ha : a.Valid) (hb : b.Valid) (hfa : a.precision < 2 ^ 48) (hfb : b.precision < 2 ^ 48)
    (hsum : InInt32 (a.scale + b.scale)) :
    ∃ r, a.mul b = .ok r ∧ r.Valid ∧ r.toRat = a.toRat * b.toRat ∧ r.scale = a.scale + b.scale := by
  have hscales : a.toRat * b.toRat = ((a.value * b.value : Int) : ℚ) * 10 ^ (-(a.scale + b.scale)) := by
    unfold toRat
    rw [neg_add, zpow_add₀ (by norm_num)]
    push_cast
    ring
  unfold mul
  rw [checkScaleOverFlow_ok hsum, ok_bind]
  split_ifs with hzero
  · refine ⟨_, rfl, ⟨hsum, rfl, rfl⟩, ?_, rfl⟩
    have hvalue : a.value * b.value = 0 := by
      rw [ha.value_eq_zero_iff, hb.value_eq_zero_iff] at hzero
      exact Int.mul_eq_zero.mpr hzero
    rw [hscales, hvalue]
    rfl
  · have hdigits := mul_natAbs_lt ha.value_lt hb.value_lt
    have hma := ha.precision_lt hfa
    have hmb := hb.precision_lt hfb
    exact ⟨_, rfl, valid_withPrecision hsum hdigits (by omega), hscales.symm, rfl⟩

theorem mul_error (hsum : ¬ InInt32 (a.scale + b.scale)) : a.mul b = .error .overflow := by
  unfold mul
  rw [checkScaleOverFlow_error hsum]
  rfl

theorem shiftPoint_spec (ha : a.Valid) (n : Int) : Exact (a.shiftPoint n) (a.scale + n) (a.toRat * 10 ^ (-n)) := by
  unfold Exact shiftPoint
  by_cases hn : n = 0
  · subst hn
    rw [if_pos (by rw [add_zero]; exact ha.scale), if_pos rfl, neg_zero, zpow_zero, mul_one]
    exact ⟨a, rfl, ha, rfl⟩
  · rw [if_neg hn]
    split_ifs with hscale
    · rw [checkScaleOverFlow_ok hscale, ok_bind]
      split
      · rename_i hzero
        refine ⟨_, rfl, ⟨by decide, rfl, rfl⟩, ?_⟩
        unfold toRat
        rw [ha.value_eq_zero_iff.mp hzero.1]
        simp [withPrecision]
      · refine ⟨_, rfl, ⟨hscale, ha.precision, rfl⟩, ?_⟩
        unfold toRat
        rw [withPrecision, neg_add, zpow_add₀ (by norm_num), mul_assoc]
    · rw [checkScaleOverFlow_error hscale]
      rfl

theorem valid_ofScaled (hscale : InInt32 scale) (hlt : val.natAbs < 10 ^ n) (hn : n < 2 ^ 49) :
    (ofScaled val scale).Valid := valid_withPrecision hscale hlt hn

/-- An exponent above `2 ^ 31` makes every scale but 0 too large. -/
theorem not_inInt32_mul (hscale : scale ≠ 0) (hn : 2 ^ 31 < n) : ¬ InInt32 (scale * n) := by
  unfold InInt32
  rw [show INT32_MIN = -2147483648 from rfl, show INT32_MAX = 2147483647 from rfl]
  rcases lt_or_gt_of_ne hscale with hneg | hpos
  · have hle : scale * n ≤ -1 * n := Int.mul_le_mul_of_nonneg_right (by omega) (by omega)
    omega
  · have hle : 1 * (n : Int) ≤ scale * n := Int.mul_le_mul_of_nonneg_right (by omega) (by omega)
    omega

theorem pow_eq (ha : a.Valid) (n : Nat) :
    a.pow n = if InInt32 (a.scale * n) then .ok (ofScaled (a.value ^ n) (a.scale * n)) else .error .overflow := by
  have hMIN : INT32_MIN = -2147483648 := rfl
  have hMAX : INT32_MAX = 2147483647 := rfl
  unfold pow
  rw [Int.natAbs_natCast]
  by_cases hzero : (n : Int) = 0
  · obtain rfl : n = 0 := by omega
    rw [if_pos hzero, hzero, mul_zero, pow_zero, if_pos (by decide)]
    rfl
  rw [if_neg hzero]
  by_cases hscale : a.scale = 0
  · have hguard : ¬ ((INT32_MIN > (n : Int) ∨ INT32_MAX + 1 < (n : Int)) ∧ a.scale ≠ 0) := fun h => h.2 hscale
    have hneeded : InInt32 (a.scale * n) := by
      rw [hscale, zero_mul]
      decide
    rw [if_neg hguard, if_pos (Or.inl hscale), if_pos hneeded, show (pure 0 : Except Exn Int) = .ok 0 from rfl, ok_bind,
      if_pos (by omega), hscale, zero_mul]
    rfl
  by_cases hlarge : 2 ^ 31 < n
  · have hguard : (INT32_MIN > (n : Int) ∨ INT32_MAX + 1 < (n : Int)) ∧ a.scale ≠ 0 := ⟨Or.inr (by omega), hscale⟩
    rw [if_pos hguard, if_neg (not_inInt32_mul hscale hlarge)]
    rfl
  · have hguard : ¬ ((INT32_MIN > (n : Int) ∨ INT32_MAX + 1 < (n : Int)) ∧ a.scale ≠ 0) := by omega
    have hother : ¬ (a.scale = 0 ∨ (n : Int) = INT64_MIN) := by
      rw [INT64_MIN_eq]
      omega
    have hproduct : INT64_MIN ≤ a.scale * n ∧ a.scale * n ≤ INT64_MAX := by
      have hrange := ha.scale
      unfold InInt32 at hrange
      rw [hMIN, hMAX] at hrange
      rw [INT64_MIN_eq, INT64_MAX_eq]
      constructor <;> nlinarith
    rw [if_neg hguard, if_neg hother, abs_of_nonneg (by omega), i64_ok hproduct.1 hproduct.2, ok_bind]
    by_cases hneeded : InInt32 (a.scale * n)
    · rw [if_pos hneeded, checkScaleOverFlow_ok hneeded, ok_bind, if_pos (by omega)]
      rfl
    · rw [if_neg hneeded, checkScaleOverFlow_error hneeded]
      rfl

/-- `**` with an exponent that is not negative. -/
theorem pow_spec (ha : a.Valid) (n : Nat) (hfits : numDigits (a.value ^ n).natAbs < 2 ^ 49) :
    Exact (a.pow n) (a.scale * n) (a.toRat ^ n) := by
  unfold Exact
  rw [pow_eq ha n]
  by_cases hneeded : InInt32 (a.scale * n)
  · rw [if_pos hneeded, if_pos hneeded]
    refine ⟨_, rfl, valid_ofScaled hneeded (lt_pow_numDigits _) hfits, ?_⟩
    unfold toRat ofScaled
    rw [mul_pow, ← zpow_natCast (10 ^ (-a.scale)), ← zpow_mul, neg_mul]
    push_cast
    rfl
  · rw [if_neg hneeded, if_neg hneeded]

theorem exact_of_spec {result : Except Exn Decimal} {needed scale : Int} {q : ℚ}
    (hok : InInt32 needed → ∃ r, result = .ok r ∧ r.Valid ∧ r.toRat = q ∧ r.scale = scale)
    (herror : ¬ InInt32 needed → result = .error .overflow) :
    Exact result needed q ∧ ∀ r, result = .ok r → r.scale = scale := by
  unfold Exact
  split_ifs with hneeded
  · obtain ⟨r, hr, hvalid, hvalue, hscale⟩ := hok hneeded
    refine ⟨⟨r, hr, hvalid, hvalue⟩, fun r' hr' => ?_⟩
    rw [hr, Except.ok.injEq] at hr'
    exact hr' ▸ hscale
  · rw [herror hneeded]
    exact ⟨rfl, fun r hr => nomatch hr⟩

end Decimal

/-- Operations on decimals of fewer than `2 ^ 48` digits, and powers of fewer than `2 ^ 49`, are exact and keep the
    representation. They throw exactly when the scale that is needed does not fit. -/
theorem decimal_arithmetic_exact (a b : Decimal) (ha : a.Valid) (hb : b.Valid) (hfa : a.precision < 2 ^ 48)
    (hfb : b.precision < 2 ^ 48) :
    (Decimal.Exact (a.add b) (a.scale - b.scale) (a.toRat + b.toRat) ∧
        ∀ r, a.add b = .ok r → r.scale = max a.scale b.scale) ∧
      (Decimal.Exact (a.sub b) (a.scale - b.scale) (a.toRat - b.toRat) ∧
        ∀ r, a.sub b = .ok r → r.scale = max a.scale b.scale) ∧
      (Decimal.Exact (a.mul b) (a.scale + b.scale) (a.toRat * b.toRat) ∧
        ∀ r, a.mul b = .ok r → r.scale = a.scale + b.scale) ∧
      (a.neg.Valid ∧ a.neg.toRat = -a.toRat) ∧ (a.abs.Valid ∧ a.abs.toRat = |a.toRat|) ∧
      (∀ n, InInt32 n → Decimal.Exact (a.shiftPoint n) (a.scale + n) (a.toRat * 10 ^ (-n))) ∧
      (∀ n : Nat, (n : Int) ≤ INT64_MAX → numDigits (a.value ^ n).natAbs < 2 ^ 49 →
        Decimal.Exact (a.pow n) (a.scale * n) (a.toRat ^ n)) := by
  refine ⟨Decimal.exact_of_spec (Decimal.add_spec ha hb hfa hfb) Decimal.add_error, ?_,
    Decimal.exact_of_spec (Decimal.mul_spec ha hb hfa hfb) Decimal.mul_error, Decimal.valid_neg ha,
    Decimal.valid_abs ha, fun n _ => Decimal.shiftPoint_spec ha n, fun n _ hfits => Decimal.pow_spec ha n hfits⟩
  obtain ⟨hneg, hvalue⟩ := Decimal.valid_neg hb
  rw [sub_eq_add_neg a.toRat, ← hvalue]
  exact Decimal.exact_of_spec (Decimal.add_spec ha hneg hfa hfb) (Decimal.add_error (a := a) (b := b.neg))

/-- 12.3 and -0.07, and a difference of scales that does not fit. -/
theorem decimal_arithmetic_exact_sample :
    (∃ r, (Decimal.withPrecision 123 1 3).add (.withPrecision (-7) 2 1) = .ok r ∧ r.Valid ∧ r.scale = 2) ∧
      (Decimal.withPrecision 123 1 3).add (.withPrecision 1 INT32_MIN 1) = .error .overflow := by
  have hlong : (Decimal.withPrecision 123 1 3).Valid := ⟨by decide, by decide +kernel, rfl⟩
  have hshort : (Decimal.withPrecision (-7) 2 1).Valid := ⟨by decide, by decide +kernel, rfl⟩
  have hlow : (Decimal.withPrecision 1 INT32_MIN 1).Valid := ⟨by decide, by decide +kernel, rfl⟩
  obtain ⟨⟨hexact, hscale⟩, -⟩ := decimal_arithmetic_exact _ _ hlong hshort (by decide) (by decide)
  obtain ⟨⟨herror, -⟩, -⟩ := decimal_arithmetic_exact _ _ hlong hlow (by decide) (by decide)
  unfold Decimal.Exact at hexact herror
  rw [if_pos (by decide)] at hexact
  rw [if_neg (by decide)] at herror
  obtain ⟨r, hr, hvalid, -⟩ := hexact
  exact ⟨⟨r, hr, hvalid, hscale r hr⟩, herror⟩

/-! ## A power with too many digits -/

theorem two_pow_lt_of_le {k l n : Nat} (hpow : 2 ^ l ≤ 9 * 10 ^ k) (hn : n + 1 = l * 256) :
    2 ^ n < 10 ^ (245 + k * 256) := by
  calc 2 ^ n < 2 ^ (n + 1) := Nat.pow_lt_pow_right (by decide) (Nat.lt_succ_self n)
    _ = (2 ^ l) ^ 256 := by rw [hn, pow_mul]
    _ ≤ (9 * 10 ^ k) ^ 256 := Nat.pow_le_pow_left hpow 256
    _ = 9 ^ 256 * 10 ^ (k * 256) := by rw [mul_pow, ← pow_mul]
    _ ≤ 10 ^ 245 * 10 ^ (k * 256) := Nat.mul_le_mul_right _ (by norm_num)
    _ = 10 ^ (245 + k * 256) := (pow_add _ _ _).symm

theorem two_pow_lt {n : Nat} (hn : n + 1 = 2 ^ 62) : 2 ^ n < 10 ^ (245 + (LOG10_2 - 1) * 256) :=
  two_pow_lt_of_le log_upper (hn.trans (by norm_num))

/-- Two to the power of `2 ^ 62 - 1` gets a wrong precision: the estimate of its digits is more than ten too high. -/
theorem calcNumberOfDigits_two_pow {n : Nat} (hn : n + 1 = 2 ^ 62) :
    calcNumberOfDigits (2 ^ n) ≠ numDigits (2 ^ n) := by
  have hpos : (0 : Int) < 2 ^ n := by positivity
  have hbits : bitLen (2 ^ n) = 2 ^ 62 := by
    unfold bitLen
    rw [if_neg hpos.ne', if_neg (not_lt_of_gt hpos), Int.natAbs_pow, show Int.natAbs 2 = 2 from rfl,
      Nat.log2_two_pow, hn]
  have hestimate : estimateDigits (2 ^ 62) = 256 * LOG10_2 := by decide +kernel
  have hle : ((256 * LOG10_2 : Nat) : Int) - 1 ≤ calcNumberOfDigits (2 ^ n) := by
    unfold calcNumberOfDigits
    rw [hbits, hestimate, if_neg hpos.ne']
    generalize 256 * LOG10_2 = digits
    dsimp only
    split
    · split
      · exact le_rfl
      · omega
    · split
      · exact le_rfl
      · omega
  have hdigits := numDigits_le (by omega) (two_pow_lt hn)
  have hL := LOG10_2_eq
  omega

/-- The precision of 2 to the power of `2 ^ 62 - 1` is wrong. -/
theorem decimal_pow_miscounts :
    (Decimal.ofScaled 2 0).Valid ∧
      ∃ (n : Nat) (r : Decimal), n + 1 = 2 ^ 62 ∧ (Decimal.ofScaled 2 0).pow n = .ok r ∧ r.value = 2 ^ n ∧
        ¬ r.Valid := by
  have hvalid : (Decimal.ofScaled 2 0).Valid := Decimal.valid_ofScaled (n := 1) (by decide) (by decide) (by decide)
  obtain ⟨n, hn⟩ : ∃ n : Nat, n + 1 = 2 ^ 62 := ⟨2 ^ 62 - 1, Nat.sub_add_cancel Nat.one_le_two_pow⟩
  have hneeded : InInt32 ((Decimal.ofScaled 2 0).scale * n) := by
    rw [show (Decimal.ofScaled 2 0).scale = 0 from rfl, zero_mul]
    decide
  have hpow := Decimal.pow_eq hvalid n
  rw [if_pos hneeded, show (Decimal.ofScaled 2 0).value = 2 from rfl] at hpow
  refine ⟨hvalid, n, _, hn, hpow, rfl, fun hr => calcNumberOfDigits_two_pow hn ?_⟩
  have hprecision := hr.precision
  rwa [show (Decimal.ofScaled (2 ^ n) ((Decimal.ofScaled 2 0).scale * n)).value = 2 ^ n from rfl,
    Int.natAbs_pow] at hprecision

end CangjieRuntime.StdMath
