import CangjieRuntime.StdMath.Correctness.DecimalRounding

/-!
# `StdMath.Correctness.DecimalDivision` — the operator `/`

The quotient is computed with so many digits that it has no remainder if it has a finite decimal expansion: a divisor of
`p` digits is at most `2 ^ (10 * p / 3)`, so this power of ten is enough. With a remainder the quotient is computed
again, with 34 digits. The scale that the result should have is cut off at the ends of `Int32`, and the quotient is then
wrong by a power of ten.
-/

namespace CangjieRuntime.StdMath

open StdCore DecimalDigits

/-- The number has a finite decimal expansion. -/
def Terminates (q : ℚ) : Prop := ∃ n k : Int, q = n * 10 ^ k

theorem Terminates.mul_zpow {q : ℚ} (h : Terminates q) (e : Int) : Terminates (q * 10 ^ e) := by
  obtain ⟨n, k, rfl⟩ := h
  exact ⟨n, k + e, by rw [mul_assoc, ← zpow_add₀ (by norm_num)]⟩

theorem terminates_mul_zpow {q : ℚ} (e : Int) : Terminates (q * 10 ^ e) ↔ Terminates q := by
  refine ⟨fun h => ?_, fun h => h.mul_zpow e⟩
  have hback := h.mul_zpow (-e)
  rwa [mul_assoc, ← zpow_add₀ (by norm_num), add_neg_cancel, zpow_zero, mul_one] at hback

/-- The divisor divides the dividend, with zeros added. -/
theorem Terminates.dvd {a b : Int} (hb : b ≠ 0) (h : Terminates ((a : ℚ) / b)) : ∃ k, b.natAbs ∣ a.natAbs * 10 ^ k := by
  obtain ⟨n, k, hq⟩ := h
  rw [div_eq_iff (Int.cast_ne_zero.mpr hb)] at hq
  rcases le_or_gt 0 k with hpos | hneg
  · obtain ⟨m, rfl⟩ := Int.eq_ofNat_of_zero_le hpos
    refine ⟨0, ?_⟩
    rw [pow_zero, mul_one, Int.natAbs_dvd_natAbs]
    refine Dvd.intro_left (n * 10 ^ m) ?_
    rw [zpow_natCast] at hq
    exact_mod_cast hq.symm
  · obtain ⟨m, hm⟩ := Int.eq_ofNat_of_zero_le (show 0 ≤ -k by omega)
    refine ⟨m, ?_⟩
    have hscaled : (a : ℚ) * 10 ^ m = n * b := by
      rw [hq, show k = -(m : Int) by omega, zpow_neg, zpow_natCast]
      field_simp
    have hdvd : b ∣ a * 10 ^ m := Dvd.intro_left n (by exact_mod_cast hscaled.symm)
    rwa [← Int.natAbs_dvd_natAbs, Int.natAbs_mul, Int.natAbs_pow] at hdvd

namespace Decimal

variable {x y : Decimal} {e : Int}

/-- The digits that the exact quotient needs beside those of the dividend. -/
def extraDigits (y : Decimal) : Nat := ((10 * y.precision + 2) / 3).toNat

theorem value_le_two_pow (hy : y.Valid) : y.value.natAbs ≤ 2 ^ extraDigits y := by
  have hprecision := hy.precision_pos
  refine hy.value_lt.le.trans (pow_le_pow_of_mul_le (k := 3) (m := 10) (by decide) (by decide) (by decide) ?_)
  unfold extraDigits
  omega

theorem checkPrecisionOverFlow_eq (hx : x.Valid) (hy : y.Valid) (hfx : x.precision < 2 ^ 48)
    (hfy : y.precision < 2 ^ 48) :
    checkPrecisionOverFlow y.precision x.precision = (extraDigits y + x.precision.toNat : Nat) := by
  have hx1 := hx.precision_pos
  have hy1 := hy.precision_pos
  unfold checkPrecisionOverFlow extraDigits
  rw [i64_of_le (by omega) (by omega)]
  dsimp only
  omega

/-- At least the extra digits are added to the dividend. -/
theorem extraDigits_le_shift (hx : x.Valid) (hy : y.Valid) :
    (extraDigits y : Int) ≤ quotientShift x y (extraDigits y + x.precision.toNat : Nat) := by
  have hx1 := hx.precision_pos
  have hy1 := hy.precision_pos
  unfold quotientShift
  split <;> omega

/-- With the extra digits a finite expansion leaves no remainder. -/
theorem tmod_eq_zero_of_terminates (hy : y.Valid) (hy0 : y.value ≠ 0) (h : Terminates ((x.value : ℚ) / y.value))
    {X Y k : Int} (hk : (extraDigits y : Int) ≤ k) (hY : Y ≠ 0) (hratio : (X : ℚ) / Y = x.value / y.value * 10 ^ k) :
    X.tmod Y = 0 := by
  obtain ⟨j, hdvd⟩ := h.dvd hy0
  obtain ⟨m, hm⟩ := Int.eq_ofNat_of_zero_le (show 0 ≤ k by omega)
  have henough := dvd_mul_pow_of_le hdvd
    ((value_le_two_pow hy).trans (Nat.pow_le_pow_right (by decide) (show extraDigits y ≤ m by omega)))
    (Int.natAbs_pos.mpr hy0) (by decide)
  have hdvd' : y.value ∣ x.value * 10 ^ m := by
    rw [← Int.natAbs_dvd_natAbs, Int.natAbs_mul, Int.natAbs_pow]
    exact henough
  obtain ⟨z, hz⟩ := hdvd'
  have hwhole : (X : ℚ) / Y = z := by
    rw [hratio, hm, zpow_natCast, div_mul_eq_mul_div, div_eq_iff (Int.cast_ne_zero.mpr hy0), mul_comm (z : ℚ)]
    exact_mod_cast hz
  rw [div_eq_iff (Int.cast_ne_zero.mpr hY)] at hwhole
  have hX : X = z * Y := by exact_mod_cast hwhole
  rw [hX]
  exact Int.mul_tmod_left z Y

/-- The first attempt gives the exact quotient, or finds a remainder. The quotient never has a smaller scale than
    expected. -/
theorem divExact_spec (mode : RoundingMode) (hx : x.Valid) (hy : y.Valid) (hfx : x.precision < 2 ^ 48)
    (hfy : y.precision < 2 ^ 48) (hx0 : x.value ≠ 0) (hy0 : y.value ≠ 0)
    (hfits : DivFits x y e (extraDigits y + x.precision.toNat : Nat)) :
    (∃ r, divExact x y e (extraDigits y + x.precision.toNat : Nat) mode = .ok r ∧ r.Valid ∧
        r.toRat = (x.value : ℚ) / y.value * 10 ^ (-e)) ∨
      divExact x y e (extraDigits y + x.precision.toNat : Nat) mode = .error .precisionMismatch ∧
        ¬ Terminates ((x.value : ℚ) / y.value) := by
  have hx1 := hx.precision_pos
  have hy1 := hy.precision_pos
  have hextra : 4 ≤ extraDigits y := by unfold extraDigits; omega
  have hshift := extraDigits_le_shift hx hy
  have hraise := inInt32_bounds hfits.raise
  generalize hp : extraDigits y + x.precision.toNat = p at *
  obtain ⟨X, Y, hdigits, hY, hratio⟩ := divDigits_eq hx hy hfx hfy (by omega) mode hy0 hfits true
  obtain ⟨-, hhi⟩ := scaled_quotient_bounds hx hy hx0 hy0 (show 1 ≤ p by omega)
  generalize hk : quotientShift x y p = k at *
  by_cases hre : X.tmod Y = 0
  · left
    obtain ⟨v, s, hround, hs, hslo, hshi, hv, hdone⟩ :=
      divideAndRound_exact mode hre hfits.expected (hk ▸ hfits.scale) true
    have hscale : e ≤ s := by omega
    have hwhole : (X : ℚ) / Y = (X.tdiv Y : Int) := ratio_of_tmod_eq_zero hY hre
    -- the whole quotient has at most one digit too many, and then zeros have been removed
    have habs : (X.tdiv Y).natAbs ≤ 10 ^ p := by
      have hbound : |((X.tdiv Y : Int) : ℚ)| ≤ 10 ^ p := by
        rw [← hwhole, hratio, abs_mul, abs_of_pos (show (0 : ℚ) < 10 ^ k by positivity)]
        exact hhi
      rw [← Int.cast_abs, Int.abs_eq_natAbs, Int.cast_natCast] at hbound
      exact_mod_cast hbound
    have hlt : v.natAbs < 10 ^ p := by
      rw [hv, Int.natAbs_mul, Int.natAbs_pow, show Int.natAbs 10 = 10 from rfl] at habs
      have hten : 10 ∣ 10 ^ p := dvd_pow_self 10 (by omega)
      have hpos : 0 < 10 ^ p := Nat.pow_pos (by decide)
      rcases hdone with hall | hsmall | hzeros
      · have hmore : 10 ≤ 10 ^ (e + k - s).toNat := Nat.le_self_pow (by omega) 10
        have hle := (Nat.mul_le_mul_left v.natAbs hmore).trans habs
        omega
      · exact hsmall.trans_le (Nat.le_of_dvd hpos hten)
      · have hle : v.natAbs ≤ 10 ^ p := (Nat.le_mul_of_pos_right _ (Nat.pow_pos (by decide))).trans habs
        refine lt_of_le_of_ne hle fun heq => hzeros ?_
        rw [← Int.natAbs_dvd_natAbs, heq]
        exact hten
    have hvalid : (ofScaled v s).Valid := valid_ofScaled hs hlt (by omega)
    have hcore : divCore x y e p mode true = .ok (ofScaled v s) := by
      unfold divCore
      rw [hdigits, hround, ok_bind, roundWithPrecision, if_pos (Or.inr ?_)]
      · rfl
      · rw [hvalid.precision]
        exact Int.ofNat_le.mpr (numDigits_le (by omega) hlt)
    refine ⟨_, ?_, hvalid, ?_⟩
    · unfold divExact
      rw [hcore, ok_bind, if_neg (by change ¬ e > s; omega)]
      rfl
    · have hraised := toRat_raise v s (e + k - s).toNat
      rw [← hv, ← hwhole, hratio, show s + ((e + k - s).toNat : Int) = k + e by omega, neg_add, mul_assoc,
        zpow_add₀ (by norm_num), ← mul_assoc (10 ^ k), ← zpow_add₀ (by norm_num), add_neg_cancel, zpow_zero,
        one_mul] at hraised
      rw [toRat_ofScaled, hraised]
  · right
    refine ⟨?_, fun hfinite => hre (tmod_eq_zero_of_terminates hy hy0 hfinite hshift hY hratio)⟩
    unfold divExact divCore
    rw [hdigits, divideAndRound_degenerate hre]
    rfl

theorem divExact_error (mode : RoundingMode) (hx : x.Valid) (hy : y.Valid) (hfx : x.precision < 2 ^ 48)
    (hfy : y.precision < 2 ^ 48) {p : Int} (hp : 1 ≤ p) (hfits : ¬ DivFits x y e p) :
    divExact x y e p mode = .error .overflow := by
  unfold divExact divCore
  rw [divDigits_error hx hy hfx hfy hp mode hfits]
  rfl

/-- The scale is cut off unless it fits. -/
theorem saturateI32_bounds (scale : Int) :
    (saturateI32 scale = scale ↔ INT32_MIN ≤ scale ∧ scale ≤ INT32_MAX) ∧
      (INT32_MAX < scale → saturateI32 scale = INT32_MAX) := by
  have hMIN : INT32_MIN = -2147483648 := rfl
  have hMAX : INT32_MAX = 2147483647 := rfl
  unfold saturateI32
  omega

theorem terminates_toRat (d : Decimal) : Terminates d.toRat := ⟨d.value, -d.scale, rfl⟩

/-- What `/` returns for a dividend other than zero: the exact quotient if it has a finite expansion, and else the
    quotient rounded to 34 digits, at the scale that is left after the cut. It throws because of a scale, at the latest
    where the difference of the scales is too large. -/
theorem div_cases (hx : x.Valid) (hy : y.Valid) (hfx : x.precision < 2 ^ 48) (hfy : y.precision < 2 ^ 48)
    (hxv : x.value ≠ 0) (hyv : y.value ≠ 0) (he : e = saturateI32 (x.scale - y.scale)) :
    (x.div y = .error .overflow ∨
      ∃ r, x.div y = .ok r ∧ r.Valid ∧ x.scale - y.scale ≤ INT32_MAX ∧
        (Terminates ((x.value : ℚ) / y.value) ∧ r.toRat = (x.value : ℚ) / y.value * 10 ^ (-e) ∨
          ¬ Terminates ((x.value : ℚ) / y.value) ∧
            Rounded .HalfEven 34 ((x.value : ℚ) / y.value * 10 ^ (-e)) r.toRat)) ∧
      (|x.scale - y.scale| + 2 * x.precision + 5 * y.precision + 40 ≤ INT32_MAX → ∃ r, x.div y = .ok r) := by
  have hx1 := hx.precision_pos
  have hy1 := hy.precision_pos
  have hsmallfits {p : Nat} (hp : 1 ≤ p) (hsmall : |x.scale - y.scale| + x.precision + y.precision + p ≤ INT32_MAX) :
      DivFits x y e p ∧ min e (e + quotientShift x y p) ≠ INT32_MIN := by
    have hfits := divFits_of_small hx hy hp hsmall
    rwa [he, (saturateI32_bounds _).1.mpr hfits.1.expected]
  unfold Decimal.div divWithContext
  rw [if_neg (mt hy.value_eq_zero_iff.mp hyv), ← he]
  dsimp only
  rw [if_neg (mt hx.value_eq_zero_iff.mp hxv), checkPrecisionOverFlow_eq hx hy hfx hfy]
  by_cases hfits : DivFits x y e (extraDigits y + x.precision.toNat : Nat)
  · -- the quotient has more digits than the largest scale would leave room for
    have hbelow : x.scale - y.scale ≤ INT32_MAX := by
      by_contra hlarge
      have hscale := hfits.scale.2
      have hshift := extraDigits_le_shift hx hy
      rw [he, (saturateI32_bounds _).2 (not_le.mp hlarge)] at hscale
      unfold extraDigits at hshift
      unfold extraDigits at hscale
      omega
    rcases divExact_spec .HalfEven hx hy hfx hfy hxv hyv hfits with ⟨r, hr, hvalid, hvalue⟩ | ⟨hagain, hinfinite⟩
    · rw [hr]
      have hfinite : Terminates ((x.value : ℚ) / y.value) := by
        rw [← terminates_mul_zpow (-e), ← hvalue]
        exact terminates_toRat r
      exact ⟨Or.inr ⟨r, rfl, hvalid, hbelow, Or.inl ⟨hfinite, hvalue⟩⟩, fun _ => ⟨r, rfl⟩⟩
    · -- the second attempt
      rw [hagain]
      dsimp only
      by_cases hfits' : DivFits x y e (34 : Nat)
      · rcases divCore_spec .HalfEven hx hy hfx hfy hxv hyv (by decide) hfits' with
          ⟨herror, hmin⟩ | ⟨r, hr, hvalid, hrounded⟩
        · exact ⟨Or.inl herror, fun hsmall => absurd hmin (hsmallfits (by decide) (by omega)).2⟩
        · exact ⟨Or.inr ⟨r, hr, hvalid, hbelow, Or.inr ⟨hinfinite, hrounded⟩⟩, fun _ => ⟨r, hr⟩⟩
      · refine ⟨Or.inl ?_, fun hsmall => absurd (hsmallfits (by decide) (by omega)).1 hfits'⟩
        unfold divCore
        rw [show (34 : Int) = (34 : Nat) from rfl, divDigits_error hx hy hfx hfy (by decide) .HalfEven hfits']
        rfl
  · rw [divExact_error .HalfEven hx hy hfx hfy (by omega) hfits]
    refine ⟨Or.inl rfl, fun hsmall => absurd (hsmallfits (by omega) ?_).1 hfits⟩
    unfold extraDigits
    omega

/-- The decimal `r` denotes the quotient: exactly if it has a finite expansion, and else rounded to 34 digits. -/
def IsQuotient (x y r : Decimal) : Prop :=
  (Terminates (x.toRat / y.toRat) → r.toRat = x.toRat / y.toRat) ∧
    (¬ Terminates (x.toRat / y.toRat) → Rounded .HalfEven 34 (x.toRat / y.toRat) r.toRat)

end Decimal

section Apart

variable {mode : RoundingMode} {p : Nat} {q r : ℚ}

/-- A rounded number is close to the number. -/
theorem Rounded.near (h : Rounded mode p q r) (hp : 2 ≤ p) : |r - q| ≤ |q| / 10 := by
  rcases h with ⟨rfl, rfl⟩ | ⟨e, hlo, -, rfl⟩
  · simp
  · have hten : (0 : ℚ) < 10 ^ e := by positivity
    have hlarge : (10 : ℚ) ≤ 10 ^ (p - 1) := le_self_pow₀ (by norm_num) (by omega)
    obtain ⟨hfloor, hceil⟩ := roundInt_between mode (q * 10 ^ e)
    have hfloor' : ((⌊q * 10 ^ e⌋ : Int) : ℚ) ≤ roundInt mode (q * 10 ^ e) := Int.cast_le.mpr hfloor
    have hceil' : (roundInt mode (q * 10 ^ e) : ℚ) ≤ (⌈q * 10 ^ e⌉ : Int) := Int.cast_le.mpr hceil
    have hone : |(roundInt mode (q * 10 ^ e) : ℚ) - q * 10 ^ e| ≤ 1 := by
      have hlt := Int.lt_floor_add_one (q * 10 ^ e)
      have hgt := Int.ceil_lt_add_one (q * 10 ^ e)
      rw [abs_le]
      constructor <;> linarith
    have hscaled : (roundInt mode (q * 10 ^ e) : ℚ) * 10 ^ (-e) - q =
        (roundInt mode (q * 10 ^ e) - q * 10 ^ e) * 10 ^ (-e) := by
      rw [sub_mul, mul_assoc, ← zpow_add₀ (by norm_num), add_neg_cancel, zpow_zero, mul_one]
    rw [hscaled, abs_mul, zpow_neg, abs_of_pos (inv_pos.mpr hten), ← div_eq_mul_inv, div_le_iff₀ hten]
    linarith

/-- So it is not the rounding of another number with the same digits. -/
theorem Rounded.zpow_eq_zero (hp : 2 ≤ p) (hq : q ≠ 0) {d : Int} (h : Rounded mode p q r)
    (h' : Rounded mode p (q * 10 ^ d) r) : d = 0 := by
  have hpos : 0 < |q| := abs_pos.mpr hq
  have hnear := abs_le.mp ((abs_abs_sub_abs_le r q).trans (h.near hp))
  have hnear' := abs_le.mp ((abs_abs_sub_abs_le r _).trans (h'.near hp))
  rw [abs_mul, abs_of_pos (show (0 : ℚ) < 10 ^ d by positivity)] at hnear'
  by_contra hd
  rcases lt_or_gt_of_ne hd with hneg | hgt
  · have hsmall : (10 : ℚ) ^ d ≤ 10 ^ (-1 : Int) := zpow_le_zpow_right₀ (by norm_num) (by omega)
    have hmul := mul_le_mul_of_nonneg_left hsmall hpos.le
    norm_num at hmul
    linarith
  · have hlarge : (10 : ℚ) ^ (1 : Int) ≤ 10 ^ d := zpow_le_zpow_right₀ (by norm_num) (by omega)
    have hmul := mul_le_mul_of_nonneg_left hlarge hpos.le
    norm_num at hmul
    linarith

end Apart

/-- **The operator `/`** throws because of a scale, or returns the quotient, exact if it has a finite expansion and else
    rounded to 34 digits, **if and only if** the dividend is zero or the difference of the scales is not below `Int32`.
    It does not throw if the scales are far enough from the ends of their type. -/
theorem decimal_div_exact (x y : Decimal) (hx : x.Valid) (hy : y.Valid) (hfx : x.precision < 2 ^ 48)
    (hfy : y.precision < 2 ^ 48) (hy0 : y.toRat ≠ 0) :
    (x.div y = .error .overflow ∨
      ∃ r, x.div y = .ok r ∧ r.Valid ∧ (x.IsQuotient y r ↔ x.toRat = 0 ∨ INT32_MIN ≤ x.scale - y.scale)) ∧
      (|x.scale - y.scale| + 2 * x.precision + 5 * y.precision + 40 ≤ INT32_MAX → ∃ r, x.div y = .ok r) := by
  have hyv : y.value ≠ 0 := mt Decimal.toRat_eq_zero hy0
  by_cases hxv : x.value = 0
  · have hx0 : x.toRat = 0 := Decimal.toRat_eq_zero hxv
    have hzero : (Decimal.withPrecision 0 (saturateI32 (x.scale - y.scale)) 1).toRat = 0 := Decimal.toRat_eq_zero rfl
    unfold Decimal.div Decimal.divWithContext Decimal.IsQuotient
    rw [if_neg (mt hy.value_eq_zero_iff.mp hyv)]
    dsimp only
    rw [if_pos (hx.value_eq_zero_iff.mpr hxv), hx0, zero_div]
    refine ⟨Or.inr ⟨_, rfl, ⟨?_, rfl, rfl⟩, ?_⟩, fun _ => ⟨_, rfl⟩⟩
    · exact ⟨le_max_left _ _, max_le (by decide) (min_le_left _ _)⟩
    · exact iff_of_true ⟨fun _ => hzero, fun _ => Or.inl ⟨rfl, hzero⟩⟩ (Or.inl rfl)
  generalize he : saturateI32 (x.scale - y.scale) = e
  obtain ⟨hresult, hok⟩ := Decimal.div_cases hx hy hfx hfy hxv hyv he.symm
  refine ⟨hresult.imp_right ?_, hok⟩
  rintro ⟨r, hr, hvalid, hbelow, hquotient⟩
  refine ⟨r, hr, hvalid, ?_⟩
  have hq0 : (x.value : ℚ) / y.value ≠ 0 := div_ne_zero (Int.cast_ne_zero.mpr hxv) (Int.cast_ne_zero.mpr hyv)
  have hx0 : x.toRat ≠ 0 := mul_ne_zero (Int.cast_ne_zero.mpr hxv) (zpow_ne_zero _ (by norm_num))
  have hkept : x.toRat = 0 ∨ INT32_MIN ≤ x.scale - y.scale ↔ e = x.scale - y.scale := by
    rw [or_iff_right hx0, ← he, (Decimal.saturateI32_bounds _).1, and_iff_left hbelow]
  unfold Decimal.IsQuotient
  rw [hkept, Decimal.toRat_div, terminates_mul_zpow]
  rcases hquotient with ⟨hfinite, hvalue⟩ | ⟨hinfinite, hrounded⟩
  · rw [hvalue]
    refine ⟨fun hright => ?_, fun heq => ⟨fun _ => by rw [heq], fun hnot => absurd hfinite hnot⟩⟩
    have hpow := zpow_right_injective₀ (by norm_num) (by norm_num) (mul_left_cancel₀ hq0 (hright.1 hfinite))
    omega
  · refine ⟨fun hright => ?_, fun heq => ⟨fun hfinite => absurd hfinite hinfinite, fun _ => heq ▸ hrounded⟩⟩
    -- the same digits at another scale
    have hsplit : (x.value : ℚ) / y.value * 10 ^ (-e) =
        (x.value : ℚ) / y.value * 10 ^ (-(x.scale - y.scale)) * 10 ^ (x.scale - y.scale - e) := by
      rw [mul_assoc, ← zpow_add₀ (by norm_num), show -(x.scale - y.scale) + (x.scale - y.scale - e) = -e by ring]
    have hsame := Rounded.zpow_eq_zero (by decide) (mul_ne_zero hq0 (zpow_ne_zero _ (by norm_num))) (hright.2 hinfinite)
      (hsplit ▸ hrounded)
    omega

/-- A quarter. -/
theorem decimal_div_exact_quarter :
    ∃ r, (Decimal.withPrecision 1 0 1).div (.withPrecision 4 0 1) = .ok r ∧
      r.toRat = (Decimal.withPrecision 1 0 1).toRat / (Decimal.withPrecision 4 0 1).toRat := by
  have hone : (Decimal.withPrecision 1 0 1).Valid := ⟨by decide, by decide +kernel, rfl⟩
  have hfour : (Decimal.withPrecision 4 0 1).Valid := ⟨by decide, by decide +kernel, rfl⟩
  have hnonzero : (Decimal.withPrecision 4 0 1).toRat ≠ 0 := by
    rw [Decimal.toRat_withPrecision]
    norm_num
  have hquarter : Terminates ((Decimal.withPrecision 1 0 1).toRat / (Decimal.withPrecision 4 0 1).toRat) := by
    refine ⟨25, -2, ?_⟩
    rw [Decimal.toRat_withPrecision, Decimal.toRat_withPrecision]
    norm_num
  obtain ⟨hresult, hok⟩ := decimal_div_exact _ _ hone hfour (by decide) (by decide) hnonzero
  obtain ⟨r, hr⟩ := hok (by decide)
  rcases hresult with herror | ⟨r', hr', -, hquotient⟩
  · rw [hr] at herror
    exact nomatch herror
  · exact ⟨r', hr', (hquotient.mpr (.inr (by decide))).1 hquarter⟩

/-- The scale that is expected does not fit and is cut off: a quotient by `0.00001` is the dividend. -/
theorem decimal_div_saturates :
    (Decimal.withPrecision 1 INT32_MIN 1).Valid ∧ (Decimal.withPrecision 1 5 1).Valid ∧
      (Decimal.withPrecision 1 INT32_MIN 1).div (.withPrecision 1 5 1) = .ok (.withPrecision 1 INT32_MIN 1) ∧
      Terminates ((Decimal.withPrecision 1 INT32_MIN 1).toRat / (Decimal.withPrecision 1 5 1).toRat) ∧
      (Decimal.withPrecision 1 INT32_MIN 1).toRat ≠
      (Decimal.withPrecision 1 INT32_MIN 1).toRat / (Decimal.withPrecision 1 5 1).toRat := by
  refine ⟨⟨by decide, by decide +kernel, rfl⟩, ⟨by decide, by decide +kernel, rfl⟩, by decide +kernel, ?_, ?_⟩
  · rw [Decimal.toRat_div, terminates_mul_zpow]
    exact ⟨1, 0, by norm_num [Decimal.withPrecision]⟩
  · have hpos : (Decimal.withPrecision 1 INT32_MIN 1).toRat ≠ 0 := by
      rw [Decimal.toRat_withPrecision]
      exact mul_ne_zero (by norm_num) (zpow_ne_zero _ (by norm_num))
    intro heq
    rw [eq_div_iff (by rw [Decimal.toRat_withPrecision]; norm_num), mul_eq_left₀ hpos,
      Decimal.toRat_withPrecision] at heq
    norm_num at heq

end CangjieRuntime.StdMath
