import CangjieRuntime.Lib.LongDivision
import CangjieRuntime.StdCore.Correctness.DurationRange

/-!
# `StdCore.Correctness.DurationDivision` — division by an integer

A divisor of at most 32 bits is divided by directly. A larger one is a long division in base 10^9, by two or by three
digits. The loop that corrects a digit of the quotient never ends when one correction is enough and leaves a small
remainder (`Stuck`), and a borrow from the third digit of the first difference makes a digit negative. When neither
happens (`Regular`), the quotient is exact.
-/

namespace CangjieRuntime.StdCore

open LongDivision

/-! ## Digits -/

section Digits

variable {n3 n2 n1 n0 m : Nat} {x y c num : Nat}

/-- The product of a number with last digit `y`, with a carry `c`, without its last digit. -/
theorem carry_div (x y m c : Nat) : ((x * DUR_BASE + y) * m + c) / DUR_BASE = x * m + (y * m + c) / DUR_BASE := by
  have hsplit : (x * DUR_BASE + y) * m + c = (y * m + c) + x * m * DUR_BASE := by ring
  rw [hsplit, Nat.add_mul_div_right _ _ (by decide), Nat.add_comm]

theorem carry_mod (x y m c : Nat) : ((x * DUR_BASE + y) * m + c) % DUR_BASE = (y * m + c) % DUR_BASE := by
  have hsplit : (x * DUR_BASE + y) * m + c = (y * m + c) + x * m * DUR_BASE := by ring
  rw [hsplit, Nat.add_mul_mod_self_right]

theorem mul_div_base (x y m : Nat) : (x * DUR_BASE + y) * m / DUR_BASE = x * m + y * m / DUR_BASE := carry_div x y m 0

theorem mul_mod_base (x y m : Nat) : (x * DUR_BASE + y) * m % DUR_BASE = y * m % DUR_BASE := carry_mod x y m 0

theorem digit_div (hy : y < DUR_BASE) : (x * DUR_BASE + y) / DUR_BASE = x := by
  rw [Nat.mul_comm, Nat.mul_add_div (by decide), Nat.div_eq_of_lt hy, Nat.add_zero]

theorem digit_mod (hy : y < DUR_BASE) : (x * DUR_BASE + y) % DUR_BASE = y := by
  rw [Nat.mul_comm, Nat.mul_add_mod, Nat.mod_eq_of_lt hy]

theorem base_sq_lt : DUR_BASE * DUR_BASE < 0x10000000000000000 := by decide

/-- A product of digits, with the carry of another one, is at most the square of the base. -/
theorem carry_le (hx : x < DUR_BASE) (hm : m ≤ DUR_BASE) (hc : c ≤ DUR_BASE * DUR_BASE) :
    x * m + c / DUR_BASE ≤ DUR_BASE * DUR_BASE := by
  have hmul : x * m + DUR_BASE ≤ DUR_BASE * DUR_BASE := by
    calc x * m + DUR_BASE ≤ x * DUR_BASE + DUR_BASE := Nat.add_le_add_right (Nat.mul_le_mul_left x hm) _
      _ = (x + 1) * DUR_BASE := by ring
      _ ≤ DUR_BASE * DUR_BASE := Nat.mul_le_mul_right _ hx
  have hdiv : c / DUR_BASE ≤ DUR_BASE := Nat.div_le_of_le_mul hc
  exact (Nat.add_le_add_left hdiv _).trans hmul

theorem mul_le_sq (hx : x < DUR_BASE) (hm : m ≤ DUR_BASE) : x * m ≤ DUR_BASE * DUR_BASE := Nat.mul_le_mul hx.le hm

theorem top_ok (hc : c ≤ DUR_BASE * DUR_BASE) : u32 (c / DUR_BASE) = .ok (c / DUR_BASE) :=
  u32_ok ((Nat.div_le_of_le_mul hc).trans_lt (by decide))

theorem toSecNsBase_spec (hnum : num < 0x10000000000000000) :
    toSecNsBase num = .ok (num / DUR_BASE / DUR_BASE, num / DUR_BASE % DUR_BASE, num % DUR_BASE) := by
  refine bind_ok (u32_ok ?_) rfl
  rw [DUR_BASE_eq]
  omega

theorem u32TwoMul_spec (h1 : n1 < DUR_BASE) (h0 : n0 < DUR_BASE) (hm : m ≤ DUR_BASE) :
    u32TwoMul n1 n0 m = .ok ((n1 * DUR_BASE + n0) * m / DUR_BASE / DUR_BASE,
      (n1 * DUR_BASE + n0) * m / DUR_BASE % DUR_BASE, (n1 * DUR_BASE + n0) * m % DUR_BASE) := by
  have hc0 := mul_le_sq h0 hm
  have hc1 := carry_le h1 hm hc0
  rw [mul_div_base, mul_mod_base]
  refine bind_ok (u64_ok (hc0.trans_lt base_sq_lt)) ?_
  exact bind_ok (u64_ok ((mul_le_sq h1 hm).trans_lt base_sq_lt))
    (bind_ok (u64_ok (hc1.trans_lt base_sq_lt)) (bind_ok (top_ok hc1) rfl))

theorem u32ThreeMul_spec (h2 : n2 < DUR_BASE) (h1 : n1 < DUR_BASE) (h0 : n0 < DUR_BASE) (hm : m ≤ DUR_BASE) :
    u32ThreeMul n2 n1 n0 m = .ok (((n2 * DUR_BASE + n1) * DUR_BASE + n0) * m / DUR_BASE / DUR_BASE / DUR_BASE,
      ((n2 * DUR_BASE + n1) * DUR_BASE + n0) * m / DUR_BASE / DUR_BASE % DUR_BASE,
      ((n2 * DUR_BASE + n1) * DUR_BASE + n0) * m / DUR_BASE % DUR_BASE,
      ((n2 * DUR_BASE + n1) * DUR_BASE + n0) * m % DUR_BASE) := by
  have hc0 := mul_le_sq h0 hm
  have hc1 := carry_le h1 hm hc0
  have hc2 := carry_le h2 hm hc1
  rw [mul_div_base, mul_mod_base, carry_div, carry_mod]
  refine bind_ok (u64_ok (hc0.trans_lt base_sq_lt)) ?_
  refine bind_ok (u64_ok ((mul_le_sq h1 hm).trans_lt base_sq_lt)) (bind_ok (u64_ok (hc1.trans_lt base_sq_lt)) ?_)
  refine bind_ok (u64_ok ((mul_le_sq h2 hm).trans_lt base_sq_lt)) (bind_ok (u64_ok (hc2.trans_lt base_sq_lt)) ?_)
  exact bind_ok (top_ok hc2) rfl

theorem u32DividendMul_spec (h3 : n3 < DUR_BASE) (h2 : n2 < DUR_BASE) (h1 : n1 < DUR_BASE) (h0 : n0 < DUR_BASE)
    (hm : m ≤ DUR_BASE) (hnum : num = (((n3 * DUR_BASE + n2) * DUR_BASE + n1) * DUR_BASE + n0) * m) :
    u32DividendMul n3 n2 n1 n0 m =
      .ok (num / DUR_BASE / DUR_BASE / DUR_BASE / DUR_BASE, num / DUR_BASE / DUR_BASE / DUR_BASE % DUR_BASE,
      num / DUR_BASE / DUR_BASE % DUR_BASE, num / DUR_BASE % DUR_BASE, num % DUR_BASE) := by
  have hc0 := mul_le_sq h0 hm
  have hc1 := carry_le h1 hm hc0
  have hc2 := carry_le h2 hm hc1
  have hc3 := carry_le h3 hm hc2
  rw [hnum, mul_div_base, mul_mod_base, carry_div, carry_mod, carry_div, carry_mod]
  refine bind_ok (u64_ok (hc0.trans_lt base_sq_lt)) ?_
  refine bind_ok (u64_ok ((mul_le_sq h1 hm).trans_lt base_sq_lt)) (bind_ok (u64_ok (hc1.trans_lt base_sq_lt)) ?_)
  refine bind_ok (u64_ok ((mul_le_sq h2 hm).trans_lt base_sq_lt)) (bind_ok (u64_ok (hc2.trans_lt base_sq_lt)) ?_)
  refine bind_ok (u64_ok ((mul_le_sq h3 hm).trans_lt base_sq_lt)) (bind_ok (u64_ok (hc3.trans_lt base_sq_lt)) ?_)
  exact bind_ok (top_ok hc3) rfl

theorem twoDigits_spec {high low : Nat} (hhigh : high < DUR_BASE) (hlow : low < DUR_BASE) :
    twoDigits high low = .ok (high * DUR_BASE + low) := by
  rw [DUR_BASE_eq] at hhigh hlow
  unfold twoDigits
  rw [DUR_BASE_eq]
  exact bind_ok (u64_ok (by omega)) (u64_ok (by omega))

theorem borrow_eq {high low : Int} (hlo : -1000000000 ≤ low) (hhi : low < 1000000000) :
    borrow high low = (high + low / 1000000000, low % 1000000000) := by
  unfold borrow
  rw [NS_PER_SEC_eq]
  split_ifs with hneg
  · rw [Prod.mk.injEq]
    omega
  · rw [Prod.mk.injEq]
    omega

/-- The digits of a difference that is not negative. -/
theorem getDifference3_spec {u2 u1 u0 p2 p1 p0 diff : Nat} (h2 : u2 < DUR_BASE) (h1 : u1 < DUR_BASE)
    (h0 : u0 < DUR_BASE) (hp1 : p1 < DUR_BASE) (hp0 : p0 < DUR_BASE)
    (hdiff : (p2 * DUR_BASE + p1) * DUR_BASE + p0 + diff = (u2 * DUR_BASE + u1) * DUR_BASE + u0) :
    getDifference3 (u2 - p2) (u1 - p1) (u0 - p0) =
      .ok (diff / DUR_BASE / DUR_BASE, diff / DUR_BASE % DUR_BASE, diff % DUR_BASE) := by
  rw [DUR_BASE_eq] at *
  unfold getDifference3
  rw [borrow_eq (by omega) (by omega)]
  dsimp only
  rw [borrow_eq (by omega) (by omega)]
  dsimp only
  refine bind_ok (toU32_ok (n := diff / 1000000000 / 1000000000) (by omega) (by omega)) ?_
  refine bind_ok (toU32_ok (n := diff / 1000000000 % 1000000000) (by omega) (by omega)) ?_
  exact bind_ok (toU32_ok (n := diff % 1000000000) (by omega) (by omega)) rfl

section Four

variable {c3 c2 c1 c0 : Int}

variable (h2 : -1000000000 < c2) (h2' : c2 < 1000000000) (h1 : -1000000000 < c1) (h1' : c1 < 1000000000)
  (h0 : -1000000000 < c0)
  (h0' : c0 < 1000000000)
include h2 h2' h1 h1' h0 h0'

/-- The highest digit of a difference of four digits tells its sign. -/
theorem getDifference4_neg_iff : (getDifference4 c3 c2 c1 c0).1 < 0 ↔
    ((c3 * 1000000000 + c2) * 1000000000 + c1) * 1000000000 + c0 < 0 := by
  unfold getDifference4
  rw [borrow_eq (by omega) (by omega)]
  dsimp only
  rw [borrow_eq (by omega) (by omega)]
  dsimp only
  split
  · dsimp only
    omega
  · dsimp only
    omega

/-- The digits of a difference that is not negative, of numbers with the same highest digit. -/
theorem getDifference4_spec {diff : Nat} (hdiff : (diff : Int) = (c2 * 1000000000 + c1) * 1000000000 + c0) :
    getDifference4 0 c2 c1 c0 =
      (0, ((diff / 1000000000 / 1000000000 : Nat) : Int), ((diff / 1000000000 % 1000000000 : Nat) : Int),
        ((diff % 1000000000 : Nat) : Int)) := by
  unfold getDifference4
  rw [borrow_eq (by omega) (by omega)]
  dsimp only
  rw [borrow_eq (by omega) (by omega)]
  dsimp only
  rw [if_neg (by omega), Prod.mk.injEq, Prod.mk.injEq, Prod.mk.injEq]
  omega

end Four

end Digits

/-! ## A digit of the quotient -/

section Digit

/-- The digit `q` with the rest `r` has to be corrected. -/
def Corrected (u v₀ q r : Nat) : Prop := q = DUR_BASE ∨ r * DUR_BASE + u < q * v₀

instance (u v₀ q r : Nat) : Decidable (Corrected u v₀ q r) :=
  inferInstanceAs (Decidable (q = DUR_BASE ∨ r * DUR_BASE + u < q * v₀))

/-- One correction is needed and leaves a rest below the base: then the loop never ends. -/
def Stuck (a u v₁ v₀ : Nat) : Prop :=
  Corrected u v₀ (a / v₁) (a % v₁) ∧ a % v₁ + v₁ < DUR_BASE ∧ ¬ Corrected u v₀ (a / v₁ - 1) (a % v₁ + v₁)

instance (a u v₁ v₀ : Nat) : Decidable (Stuck a u v₁ v₀) :=
  inferInstanceAs (Decidable (Corrected u v₀ (a / v₁) (a % v₁) ∧ a % v₁ + v₁ < DUR_BASE ∧
    ¬ Corrected u v₀ (a / v₁ - 1) (a % v₁ + v₁)))

variable {a u v₁ v₀ q r : Nat}

theorem Corrected.pos (hcorr : Corrected u v₀ q r) : 0 < q := by
  rcases hcorr with rfl | hlt
  · decide
  · exact Nat.pos_of_ne_zero fun hzero => by rw [hzero, Nat.zero_mul] at hlt; exact Nat.not_lt_zero _ hlt

theorem needsCorrection_spec (hq : q ≤ DUR_BASE + 1) (hr : r < 2 * DUR_BASE) (hv : v₀ < DUR_BASE) (hu : u < DUR_BASE) :
    needsCorrection u v₀ q r = .ok (decide (Corrected u v₀ q r)) := by
  have hmul : q * v₀ ≤ 1000000001000000000 := Nat.mul_le_mul hq hv.le
  have hrest : r * DUR_BASE + u < 2000000001000000000 :=
    Nat.add_lt_add_of_le_of_lt (Nat.mul_le_mul_right DUR_BASE hr.le) hu
  unfold needsCorrection
  split_ifs with hbase
  · rw [decide_eq_true (show Corrected u v₀ q r from .inl hbase)]
    rfl
  · have hiff : Corrected u v₀ q r ↔ r * DUR_BASE + u < q * v₀ := or_iff_right hbase
    have h1 : u64 (r * DUR_BASE) = .ok (r * DUR_BASE) := u64_ok (by omega)
    have h2 : u64 (r * DUR_BASE + u) = .ok (r * DUR_BASE + u) := u64_ok (by omega)
    have h3 : u64 (q * v₀) = .ok (q * v₀) := u64_ok (by omega)
    rw [decide_eq_decide.mpr hiff]
    exact bind_ok h1 (bind_ok h2 (bind_ok h3 rfl))

/-- The quotient of the leading digits, cut off at the greatest digit. -/
def leadingDigit (a u v₁ v₀ : Nat) : Nat := min ((a * DUR_BASE + u) / (v₁ * DUR_BASE + v₀)) (DUR_BASE - 1)

/-- A digit that needs no correction is right. -/
theorem leadingDigit_of_not_corrected (hv₁ : 0 < v₁) (hu : u < DUR_BASE) (ha : a ≤ v₁ * DUR_BASE + v₀)
    (hcorr : ¬ Corrected u v₀ (a / v₁) (a % v₁)) : leadingDigit a u v₁ v₀ = a / v₁ := by
  unfold Corrected at hcorr
  rw [not_or, Nat.not_lt] at hcorr
  have hle : a / v₁ ≤ (a * DUR_BASE + u) / (v₁ * DUR_BASE + v₀) :=
    le_div_of_test hv₁ (by decide) (estimate_mul_add a v₁) hcorr.2
  have heq := Nat.le_antisymm (div_le_estimate hv₁ hu) hle
  -- a quotient above the base would need more digits than there are
  have hbase : a / v₁ ≤ DUR_BASE := by
    rw [← heq]
    refine Nat.le_of_lt_succ ((Nat.div_lt_iff_lt_mul (Nat.add_pos_left (Nat.mul_pos hv₁ (by decide)) _)).mpr ?_)
    have hB : 0 < DUR_BASE := by decide
    generalize DUR_BASE = B at *
    nlinarith
  unfold leadingDigit
  rw [heq]
  exact Nat.min_eq_left (by omega)

/-- A digit one below a digit that needs a correction is right if its rest passes the base. -/
theorem leadingDigit_of_corrected (hv₁ : 0 < v₁) (hv₀ : v₀ < DUR_BASE) (hqr : (q + 1) * v₁ + r = a) (hq : q < DUR_BASE)
    (hcorr : Corrected u v₀ (q + 1) r) (hr : DUR_BASE ≤ r + v₁) : leadingDigit a u v₁ v₀ = q := by
  have hqr' : q * v₁ + (r + v₁) = a := by
    rw [← hqr]
    ring
  have hle : q ≤ (a * DUR_BASE + u) / (v₁ * DUR_BASE + v₀) :=
    le_div_of_test hv₁ (by decide) hqr' (test_of_le hr hq.le hv₀)
  unfold leadingDigit
  rcases hcorr with hbase | hlt
  · rw [Nat.min_eq_right (by omega)]
    omega
  · have hlt := div_lt_of_not_test hv₁ (by decide) hqr (Nat.not_le.mpr hlt)
    rw [Nat.min_eq_left (by omega)]
    omega

theorem divAndModLoop_round (fuel : Nat) (hr : r < DUR_BASE) (hq : q ≤ DUR_BASE + 1) (hv₁ : v₁ < DUR_BASE)
    (hv₀ : v₀ < DUR_BASE) (hu : u < DUR_BASE) (hcorr : Corrected u v₀ q r) :
    divAndModLoop u v₁ v₀ (fuel + 1) q r = divAndModLoop u v₁ v₀ fuel (q - 1) (r + v₁) := by
  have hB := DUR_BASE_eq
  rw [divAndModLoop, if_pos hr]
  refine bind_ok (needsCorrection_spec hq (by omega) hv₀ hu) ?_
  rw [decide_eq_true hcorr, if_pos rfl]
  exact bind_ok (monus_ok hcorr.pos) (bind_ok (u32_ok (by omega)) rfl)

theorem divAndModLoop_exit (fuel : Nat) (hr : DUR_BASE ≤ r) : divAndModLoop u v₁ v₀ (fuel + 1) q r = .ok q := by
  rw [divAndModLoop, if_neg (Nat.not_lt.mpr hr)]
  rfl

theorem divAndModLoop_stuck (fuel : Nat) (hr : r < DUR_BASE) (hq : q ≤ DUR_BASE + 1) (hv₀ : v₀ < DUR_BASE)
    (hu : u < DUR_BASE) (hcorr : ¬ Corrected u v₀ q r) : divAndModLoop u v₁ v₀ (fuel + 1) q r = .error .diverges := by
  rw [divAndModLoop, if_pos hr]
  refine bind_ok (needsCorrection_spec hq (by omega) hv₀ hu) ?_
  rw [decide_eq_false hcorr, if_neg Bool.false_ne_true]
  rfl

theorem estimate_le (hv₁ : DUR_BASE ≤ 2 * v₁) (hv₁' : v₁ < DUR_BASE) (hv₀ : v₀ < DUR_BASE)
    (ha : a ≤ v₁ * DUR_BASE + v₀) :
    a / v₁ ≤ DUR_BASE + 1 := by
  refine Nat.le_of_lt_succ ((Nat.div_lt_iff_lt_mul (by omega)).mpr ?_)
  rw [Nat.succ_eq_add_one]
  generalize DUR_BASE = B at *
  nlinarith

/-- **The loop gets stuck**: the digit has been corrected once, and the next round changes nothing. -/
theorem divAndMod_stuck (hv₁ : DUR_BASE ≤ 2 * v₁) (hv₁' : v₁ < DUR_BASE) (hv₀ : v₀ < DUR_BASE) (hu : u < DUR_BASE)
    (ha : a ≤ v₁ * DUR_BASE + v₀) (hstuck : Stuck a u v₁ v₀) : divAndMod a u v₁ v₀ = .error .diverges := by
  obtain ⟨hcorr, hr, hnot⟩ := hstuck
  have hq := estimate_le hv₁ hv₁' hv₀ ha
  refine bind_ok (needsCorrection_spec hq (by omega) hv₀ hu) ?_
  rw [decide_eq_true hcorr, if_pos rfl]
  refine bind_error ((divAndModLoop_round DUR_BASE (by omega) hq hv₁' hv₀ hu hcorr).trans ?_)
  exact divAndModLoop_stuck 999999999 hr (by omega) hv₀ hu hnot

/-- The digit is found unless the loop gets stuck. With a leading digit of at least half the base there are at most two
    corrections. -/
theorem divAndMod_spec (hv₁ : DUR_BASE ≤ 2 * v₁) (hv₁' : v₁ < DUR_BASE) (hv₀ : v₀ < DUR_BASE) (hu : u < DUR_BASE)
    (ha : a ≤ v₁ * DUR_BASE + v₀) (hstuck : ¬ Stuck a u v₁ v₀) :
    divAndMod a u v₁ v₀ = .ok (leadingDigit a u v₁ v₀) := by
  have hB := DUR_BASE_eq
  have hpos : 0 < v₁ := by omega
  have hqr := estimate_mul_add a v₁
  have hr : a % v₁ < v₁ := Nat.mod_lt a hpos
  have hq := estimate_le hv₁ hv₁' hv₀ ha
  have hu32 {q : Nat} (hq : q ≤ DUR_BASE + 1) : u32 q = .ok q := u32_ok (by omega)
  refine bind_ok (needsCorrection_spec hq (by omega) hv₀ hu) ?_
  by_cases hcorr : Corrected u v₀ (a / v₁) (a % v₁)
  · rw [decide_eq_true hcorr, if_pos rfl]
    have hround := divAndModLoop_round DUR_BASE (hr.trans hv₁') hq hv₁' hv₀ hu hcorr
    obtain ⟨q, hqdef⟩ := Nat.exists_eq_succ_of_ne_zero hcorr.pos.ne'
    rw [Nat.succ_eq_add_one] at hqdef
    rw [hqdef] at hq hqr hcorr hround ⊢
    rw [Nat.add_sub_cancel] at hround
    by_cases hlast : DUR_BASE ≤ a % v₁ + v₁
    · -- a digit above the base would leave a smaller rest
      have hlt : q < DUR_BASE := by
        by_contra hge
        have hqB : q = DUR_BASE := by omega
        rw [hqB] at hqr
        generalize DUR_BASE = B at *
        nlinarith
      have hexit : divAndModLoop u v₁ v₀ (DUR_BASE + 1) (q + 1) (a % v₁) = .ok q :=
        hround.trans (divAndModLoop_exit 999999999 hlast)
      rw [leadingDigit_of_corrected hpos hv₀ hqr hlt hcorr hlast]
      exact bind_ok hexit (hu32 (by omega))
    · have hcorr' : Corrected u v₀ q (a % v₁ + v₁) := by
        by_contra hnot
        refine hstuck ⟨hqdef ▸ hcorr, Nat.lt_of_not_le hlast, ?_⟩
        rw [hqdef, Nat.add_sub_cancel]
        exact hnot
      have hround' : divAndModLoop u v₁ v₀ DUR_BASE q (a % v₁ + v₁) =
          divAndModLoop u v₁ v₀ 999999999 (q - 1) (a % v₁ + v₁ + v₁) :=
        divAndModLoop_round 999999999 (Nat.lt_of_not_le hlast) (by omega) hv₁' hv₀ hu hcorr'
      obtain ⟨p, hpdef⟩ := Nat.exists_eq_succ_of_ne_zero hcorr'.pos.ne'
      rw [Nat.succ_eq_add_one] at hpdef
      rw [hpdef] at hq hqr hcorr' hround hround' ⊢
      rw [Nat.add_sub_cancel] at hround'
      have hqr' : (p + 1) * v₁ + (a % v₁ + v₁) = a := by
        refine Eq.trans ?_ hqr
        ring
      have hexit : divAndModLoop u v₁ v₀ (DUR_BASE + 1) (p + 1 + 1) (a % v₁) = .ok p :=
        hround.trans (hround'.trans (divAndModLoop_exit 999999998 (by omega)))
      rw [leadingDigit_of_corrected hpos hv₀ hqr' (by omega) hcorr' (by omega)]
      exact bind_ok hexit (hu32 (by omega))
  · rw [decide_eq_false hcorr, if_neg Bool.false_ne_true, leadingDigit_of_not_corrected hpos hu ha hcorr]
    exact hu32 hq

end Digit

/-! ## Two digits -/

section Two

variable {v a u : Nat}

variable (hv : DUR_BASE ≤ 2 * (v / DUR_BASE)) (hv' : v < DUR_BASE * DUR_BASE) (ha : a < v) (hu : u < DUR_BASE)
include hv hv' ha hu

/-- With a divisor of two digits the digit is that of the quotient. -/
theorem divAndMod_two (hstuck : ¬ Stuck a u (v / DUR_BASE) (v % DUR_BASE)) :
    divAndMod a u (v / DUR_BASE) (v % DUR_BASE) = .ok ((a * DUR_BASE + u) / v) := by
  have hsplit := Nat.div_add_mod' v DUR_BASE
  have hdigit : leadingDigit a u (v / DUR_BASE) (v % DUR_BASE) = (a * DUR_BASE + u) / v := by
    unfold leadingDigit
    rw [hsplit]
    exact Nat.min_eq_left (Nat.le_sub_one_of_lt (div_lt_base ha hu))
  rw [divAndMod_spec hv (Nat.div_lt_of_lt_mul hv') (Nat.mod_lt _ (by decide)) hu (by rw [hsplit]; exact ha.le) hstuck,
    hdigit]

theorem divAndMod_two_stuck (hstuck : Stuck a u (v / DUR_BASE) (v % DUR_BASE)) :
    divAndMod a u (v / DUR_BASE) (v % DUR_BASE) = .error .diverges := by
  refine divAndMod_stuck hv (Nat.div_lt_of_lt_mul hv') (Nat.mod_lt _ (by decide)) hu ?_ hstuck
  rw [Nat.div_add_mod']
  exact ha.le

/-- A digit of the quotient, and the remainder for the next one. -/
theorem digitTwo_spec (hstuck : ¬ Stuck a u (v / DUR_BASE) (v % DUR_BASE)) :
    digitTwo (a / DUR_BASE) (a % DUR_BASE) u (v / DUR_BASE) (v % DUR_BASE) =
      .ok ((a * DUR_BASE + u) / v, (a * DUR_BASE + u) % v / DUR_BASE, (a * DUR_BASE + u) % v % DUR_BASE) := by
  have hpos : 0 < DUR_BASE := by decide
  have hmod (n : Nat) : n % DUR_BASE < DUR_BASE := Nat.mod_lt n hpos
  have hv1 : v / DUR_BASE < DUR_BASE := Nat.div_lt_of_lt_mul hv'
  have ha1 : a / DUR_BASE < DUR_BASE := Nat.div_lt_of_lt_mul (ha.trans hv')
  have hdigits := twoDigits_spec ha1 (hmod a)
  rw [Nat.div_add_mod'] at hdigits
  have hmul := u32TwoMul_spec hv1 (hmod v) (div_lt_base ha hu).le
  rw [Nat.div_add_mod'] at hmul
  have hquot := divAndMod_two hv hv' ha hu hstuck
  have hdm := Nat.div_add_mod (a * DUR_BASE + u) v
  have hlt : (a * DUR_BASE + u) % v < DUR_BASE * DUR_BASE := (Nat.mod_lt _ (by omega)).trans hv'
  generalize (a * DUR_BASE + u) / v = q at *
  generalize (a * DUR_BASE + u) % v = rest at *
  have hparts : (v * q / DUR_BASE / DUR_BASE * DUR_BASE + v * q / DUR_BASE % DUR_BASE) * DUR_BASE +
      v * q % DUR_BASE + rest =
      (a / DUR_BASE * DUR_BASE + a % DUR_BASE) * DUR_BASE + u := by
    rw [Nat.div_add_mod', Nat.div_add_mod', Nat.div_add_mod', hdm]
  have hdiff := getDifference3_spec ha1 (hmod a) hu (hmod (v * q / DUR_BASE)) (hmod (v * q)) hparts
  have hsmall : rest / DUR_BASE % DUR_BASE = rest / DUR_BASE := Nat.mod_eq_of_lt (Nat.div_lt_of_lt_mul hlt)
  rw [hsmall] at hdiff
  exact bind_ok hdigits (bind_ok hquot (bind_ok hmul (bind_ok hdiff rfl)))

theorem digitTwo_stuck (hstuck : Stuck a u (v / DUR_BASE) (v % DUR_BASE)) :
    digitTwo (a / DUR_BASE) (a % DUR_BASE) u (v / DUR_BASE) (v % DUR_BASE) = .error .diverges := by
  have hdigits := twoDigits_spec (Nat.div_lt_of_lt_mul (ha.trans hv')) (Nat.mod_lt a (by decide))
  rw [Nat.div_add_mod'] at hdigits
  exact bind_ok hdigits (bind_error (divAndMod_two_stuck hv hv' ha hu hstuck))

omit hv hv' ha hu

/-- The scaled operands, for a divisor of two digits. -/
theorem normalizeTwo_spec {n3 n2 n1 n0 r1 r0 num div t : Nat} (h3 : n3 < DUR_BASE) (h2 : n2 < DUR_BASE)
    (h1 : n1 < DUR_BASE) (h0 : n0 < DUR_BASE) (hr1 : r1 < DUR_BASE) (hr0 : r0 < DUR_BASE) (ht : t = DUR_BASE / (r1 + 1))
    (hnum : num = (((n3 * DUR_BASE + n2) * DUR_BASE + n1) * DUR_BASE + n0) * t) (hdiv : div = (r1 * DUR_BASE + r0) * t)
    (hlt : div < DUR_BASE * DUR_BASE) :
    normalizeTwo n3 n2 n1 n0 r1 r0 = .ok ((num / DUR_BASE / DUR_BASE / DUR_BASE / DUR_BASE,
      num / DUR_BASE / DUR_BASE / DUR_BASE % DUR_BASE, num / DUR_BASE / DUR_BASE % DUR_BASE, num / DUR_BASE % DUR_BASE,
      num % DUR_BASE), (div / DUR_BASE, div % DUR_BASE)) := by
  unfold normalizeTwo
  rw [← ht]
  by_cases hone : t = 1
  · rw [if_pos hone]
    subst hone
    rw [Nat.mul_one] at hnum hdiv
    subst hnum hdiv
    rw [digit_div h0, digit_mod h0, digit_div h1, digit_mod h1, digit_div h2, digit_mod h2, digit_div hr0,
      digit_mod hr0, Nat.div_eq_of_lt h3, Nat.mod_eq_of_lt h3]
    rfl
  · rw [if_neg hone]
    have hle : t ≤ DUR_BASE := ht ▸ Nat.div_le_self _ _
    have hmul := u32TwoMul_spec hr1 hr0 hle
    rw [← hdiv, Nat.mod_eq_of_lt (Nat.div_lt_of_lt_mul hlt)] at hmul
    exact bind_ok hmul (bind_ok (u32DividendMul_spec h3 h2 h1 h0 hle hnum) rfl)

/-- The three digits of the quotient by a divisor of two digits. None of them gets the loop stuck. -/
structure RegularTwo (n d : Nat) : Prop where
  first : ¬ Stuck (n / DUR_BASE / DUR_BASE / DUR_BASE) (n / DUR_BASE / DUR_BASE % DUR_BASE) (d / DUR_BASE)
    (d % DUR_BASE)
  second : ¬ Stuck (n / DUR_BASE / DUR_BASE % d) (n / DUR_BASE % DUR_BASE) (d / DUR_BASE) (d % DUR_BASE)
  third : ¬ Stuck (n / DUR_BASE % d) (n % DUR_BASE) (d / DUR_BASE) (d % DUR_BASE)

section Scaled

variable {n3 n2 n1 n0 r1 r0 n d : Nat}

variable (hnorm : normalizeTwo n3 n2 n1 n0 r1 r0 = .ok ((n / DUR_BASE / DUR_BASE / DUR_BASE / DUR_BASE,
    n / DUR_BASE / DUR_BASE / DUR_BASE % DUR_BASE, n / DUR_BASE / DUR_BASE % DUR_BASE, n / DUR_BASE % DUR_BASE,
    n % DUR_BASE), (d / DUR_BASE, d % DUR_BASE)))
  (hd : DUR_BASE ≤ 2 * (d / DUR_BASE)) (hd' : d < DUR_BASE * DUR_BASE) (hn : n / DUR_BASE / DUR_BASE / DUR_BASE < d)
include hnorm hd hd' hn

/-- The division by two digits, after scaling. -/
theorem durDivTwo_digits (hquot : ((n / d / DUR_BASE : Nat) : Int) ≤ INT64_MAX) (hreg : RegularTwo n d) :
    durDivTwo n3 n2 n1 n0 r1 r0 = .ok (((n / d / DUR_BASE : Nat) : Int), ((n / d % DUR_BASE : Nat) : Int)) := by
  have hMIN := INT64_MIN_eq
  have hMAX := INT64_MAX_eq
  have hpos : 0 < d := Nat.zero_lt_of_lt hn
  have hmod (x : Nat) : x % DUR_BASE < DUR_BASE := Nat.mod_lt x (by decide)
  have hrem (x : Nat) : x % d < d := Nat.mod_lt x hpos
  have hfirst := digitTwo_spec hd hd' hn (hmod (n / DUR_BASE / DUR_BASE)) hreg.first
  rw [Nat.div_add_mod'] at hfirst
  have hsecond := digitTwo_spec hd hd' (hrem (n / DUR_BASE / DUR_BASE)) (hmod (n / DUR_BASE)) hreg.second
  rw [← mod_step, Nat.div_add_mod'] at hsecond
  have hdigits := twoDigits_spec (Nat.div_lt_of_lt_mul ((hrem (n / DUR_BASE)).trans hd')) (hmod (n / DUR_BASE % d))
  rw [Nat.div_add_mod'] at hdigits
  have hthird := divAndMod_two hd hd' (hrem (n / DUR_BASE)) (hmod n) hreg.third
  -- the digits make up the quotient
  have hq1 : n / DUR_BASE / d = n / DUR_BASE / DUR_BASE / d * DUR_BASE +
      (n / DUR_BASE / DUR_BASE % d * DUR_BASE + n / DUR_BASE % DUR_BASE) / d := by
    conv_lhs => rw [← Nat.div_add_mod' (n / DUR_BASE) DUR_BASE]
    exact div_step hpos
  have hq0 : n / d = n / DUR_BASE / d * DUR_BASE + (n / DUR_BASE % d * DUR_BASE + n % DUR_BASE) / d := by
    conv_lhs => rw [← Nat.div_add_mod' n DUR_BASE]
    exact div_step hpos
  have hlt := div_lt_base (hrem (n / DUR_BASE)) (hmod n)
  rw [hq0, digit_div hlt] at hquot ⊢
  rw [digit_mod hlt]
  rw [hq1] at hquot ⊢
  generalize n / DUR_BASE / DUR_BASE / d = res2 at *
  generalize (n / DUR_BASE / DUR_BASE % d * DUR_BASE + n / DUR_BASE % DUR_BASE) / d = res1 at *
  generalize (n / DUR_BASE % d * DUR_BASE + n % DUR_BASE) / d = res0 at *
  have hsec : ((res2 * DUR_BASE + res1 : Nat) : Int) = res2 * NS_PER_SEC + res1 := by
    push_cast
    rfl
  rw [hsec] at hquot ⊢
  rw [NS_PER_SEC_eq] at hquot ⊢
  refine bind_ok hnorm (bind_ok hfirst (bind_ok hsecond (bind_ok hdigits (bind_ok hthird ?_))))
  exact bind_ok (i64_ok (by rw [NS_PER_SEC_eq]; omega) (by rw [NS_PER_SEC_eq]; omega))
    (bind_ok (i64_ok (by rw [NS_PER_SEC_eq]; omega) (by rw [NS_PER_SEC_eq]; omega)) rfl)

/-- The first digit on which the loop gets stuck is never found. -/
theorem durDivTwo_stuck (hreg : ¬ RegularTwo n d) : durDivTwo n3 n2 n1 n0 r1 r0 = .error .diverges := by
  have hmod (x : Nat) : x % DUR_BASE < DUR_BASE := Nat.mod_lt x (by decide)
  have hrem (x : Nat) : x % d < d := Nat.mod_lt x (Nat.zero_lt_of_lt hn)
  by_cases hstuck : Stuck (n / DUR_BASE / DUR_BASE / DUR_BASE) (n / DUR_BASE / DUR_BASE % DUR_BASE) (d / DUR_BASE)
    (d % DUR_BASE)
  · exact bind_ok hnorm (bind_error (digitTwo_stuck hd hd' hn (hmod (n / DUR_BASE / DUR_BASE)) hstuck))
  have hfirst := digitTwo_spec hd hd' hn (hmod (n / DUR_BASE / DUR_BASE)) hstuck
  rw [Nat.div_add_mod'] at hfirst
  refine bind_ok hnorm (bind_ok hfirst ?_)
  by_cases hstuck' : Stuck (n / DUR_BASE / DUR_BASE % d) (n / DUR_BASE % DUR_BASE) (d / DUR_BASE) (d % DUR_BASE)
  · exact bind_error (digitTwo_stuck hd hd' (hrem (n / DUR_BASE / DUR_BASE)) (hmod (n / DUR_BASE)) hstuck')
  have hsecond := digitTwo_spec hd hd' (hrem (n / DUR_BASE / DUR_BASE)) (hmod (n / DUR_BASE)) hstuck'
  rw [← mod_step, Nat.div_add_mod'] at hsecond
  have hdigits := twoDigits_spec (Nat.div_lt_of_lt_mul ((hrem (n / DUR_BASE)).trans hd')) (hmod (n / DUR_BASE % d))
  rw [Nat.div_add_mod'] at hdigits
  have hthird : Stuck (n / DUR_BASE % d) (n % DUR_BASE) (d / DUR_BASE) (d % DUR_BASE) :=
    by_contra fun hthird => hreg ⟨hstuck, hstuck', hthird⟩
  exact bind_ok hsecond
    (bind_ok hdigits (bind_error (divAndMod_two_stuck hd hd' (hrem (n / DUR_BASE)) (hmod n) hthird)))

end Scaled

end Two

/-! ## Three digits -/

section Three

variable {v a u x : Nat}

/-- With a divisor of three digits only its first two are looked at, and the digit can be one too high. -/
theorem divAndMod_three (hv : DUR_BASE ≤ 2 * (v / DUR_BASE / DUR_BASE)) (hv' : v < DUR_BASE * DUR_BASE * DUR_BASE)
    (ha : a < v) (hu : u < DUR_BASE)
    (hstuck : ¬ Stuck (a / DUR_BASE) (a % DUR_BASE) (v / DUR_BASE / DUR_BASE) (v / DUR_BASE % DUR_BASE)) :
    ∃ q, divAndMod (a / DUR_BASE) (a % DUR_BASE) (v / DUR_BASE / DUR_BASE) (v / DUR_BASE % DUR_BASE) = .ok q ∧
      q < DUR_BASE ∧
      (a * DUR_BASE + u) / v ≤ q ∧ q ≤ (a * DUR_BASE + u) / v + 1 := by
  have hbase : 0 < DUR_BASE := by decide
  have hv1 : v / DUR_BASE / DUR_BASE < DUR_BASE :=
    Nat.div_lt_of_lt_mul (Nat.div_lt_of_lt_mul (by rwa [Nat.mul_assoc] at hv'))
  have hsplit := Nat.div_add_mod' (v / DUR_BASE) DUR_BASE
  have hle : a / DUR_BASE ≤ v / DUR_BASE := Nat.div_le_div_right ha.le
  have hspec := divAndMod_spec hv hv1 (Nat.mod_lt (v / DUR_BASE) hbase) (Nat.mod_lt a hbase) (by rwa [hsplit]) hstuck
  unfold leadingDigit at hspec
  rw [hsplit, Nat.div_add_mod'] at hspec
  have hhigh : DUR_BASE ≤ v / DUR_BASE := by
    have htop : 1 * DUR_BASE ≤ v / DUR_BASE := (Nat.le_div_iff_mul_le hbase).mp (by omega)
    rwa [Nat.one_mul] at htop
  have hest : (a * DUR_BASE + u) / v ≤ a / (v / DUR_BASE) := by
    conv_lhs => rw [← Nat.div_add_mod' v DUR_BASE]
    exact div_le_estimate (hbase.trans_le hhigh) hu
  have hlt : min (a / (v / DUR_BASE)) (DUR_BASE - 1) < DUR_BASE := (Nat.min_le_right _ _).trans_lt (by decide)
  refine ⟨_, hspec, hlt, Nat.le_min_of_le_of_le hest (Nat.le_sub_one_of_lt (div_lt_base ha hu)), ?_⟩
  conv_rhs => rw [← Nat.div_add_mod' v DUR_BASE]
  refine le_div_add_one hlt ?_ (Nat.mod_lt v hbase) hhigh
  exact (Nat.mul_le_mul_right _ (Nat.min_le_left _ _)).trans (Nat.div_mul_le_self a (v / DUR_BASE))

theorem divAndMod_three_stuck (hv : DUR_BASE ≤ 2 * (v / DUR_BASE / DUR_BASE)) (hv' : v < DUR_BASE * DUR_BASE * DUR_BASE)
    (ha : a < v) (hstuck : Stuck (a / DUR_BASE) (a % DUR_BASE) (v / DUR_BASE / DUR_BASE) (v / DUR_BASE % DUR_BASE)) :
    divAndMod (a / DUR_BASE) (a % DUR_BASE) (v / DUR_BASE / DUR_BASE) (v / DUR_BASE % DUR_BASE) = .error .diverges := by
  have hbase : 0 < DUR_BASE := by decide
  have hv1 : v / DUR_BASE / DUR_BASE < DUR_BASE :=
    Nat.div_lt_of_lt_mul (Nat.div_lt_of_lt_mul (by rwa [Nat.mul_assoc] at hv'))
  refine divAndMod_stuck hv hv1 (Nat.mod_lt (v / DUR_BASE) hbase) (Nat.mod_lt a hbase) ?_ hstuck
  rw [Nat.div_add_mod']
  exact Nat.div_le_div_right ha.le

/-- The difference of two numbers, digit by digit. -/
def digitsDifference (x p : Nat) : Int × Int × Int × Int :=
  getDifference4 ((x / DUR_BASE / DUR_BASE / DUR_BASE : Nat) - (p / DUR_BASE / DUR_BASE / DUR_BASE : Nat))
    ((x / DUR_BASE / DUR_BASE % DUR_BASE : Nat) - (p / DUR_BASE / DUR_BASE % DUR_BASE : Nat))
    ((x / DUR_BASE % DUR_BASE : Nat) - (p / DUR_BASE % DUR_BASE : Nat)) ((x % DUR_BASE : Nat) - (p % DUR_BASE : Nat))

theorem digitsDifference_neg_iff (x p : Nat) : (digitsDifference x p).1 < 0 ↔ x < p := by
  unfold digitsDifference
  rw [DUR_BASE_eq, getDifference4_neg_iff (by omega) (by omega) (by omega) (by omega) (by omega) (by omega)]
  omega

theorem digitsDifference_eq {p : Nat} (hle : p ≤ x)
    (htop : p / DUR_BASE / DUR_BASE / DUR_BASE = x / DUR_BASE / DUR_BASE / DUR_BASE) :
    digitsDifference x p =
      (0, (((x - p) / DUR_BASE / DUR_BASE : Nat) : Int), (((x - p) / DUR_BASE % DUR_BASE : Nat) : Int),
      (((x - p) % DUR_BASE : Nat) : Int)) := by
  unfold digitsDifference
  rw [htop, Int.sub_self]
  rw [DUR_BASE_eq] at htop ⊢
  exact getDifference4_spec (by omega) (by omega) (by omega) (by omega) (by omega) (by omega) (by omega)

/-- If the highest digits differ, the borrow from the highest digit leaves the next one negative. -/
theorem digitsDifference_borrow {p : Nat} (hle : p ≤ x) (hdiff : x - p < DUR_BASE * DUR_BASE * DUR_BASE)
    (htop : p / DUR_BASE / DUR_BASE / DUR_BASE ≠ x / DUR_BASE / DUR_BASE / DUR_BASE) :
    (digitsDifference x p).2.1 < 0 := by
  unfold digitsDifference getDifference4
  rw [DUR_BASE_eq] at *
  rw [borrow_eq (by omega) (by omega)]
  dsimp only
  rw [borrow_eq (by omega) (by omega)]
  dsimp only
  split
  · dsimp only
    omega
  · dsimp only
    omega

/-- The product with the digit is above the dividend if and only if the digit is one too high. -/
theorem lt_mul_iff {q : Nat} (hv : 0 < v) (hle : q ≤ x / v + 1) : x < v * q ↔ q = x / v + 1 := by
  rw [Nat.mul_comm, ← Nat.div_lt_iff_lt_mul hv]
  omega

theorem u32ThreeMul_eq {q : Nat} (hv : v < DUR_BASE * DUR_BASE * DUR_BASE) (hq : q ≤ DUR_BASE) :
    u32ThreeMul (v / DUR_BASE / DUR_BASE) (v / DUR_BASE % DUR_BASE) (v % DUR_BASE) q =
      .ok (v * q / DUR_BASE / DUR_BASE / DUR_BASE,
      v * q / DUR_BASE / DUR_BASE % DUR_BASE, v * q / DUR_BASE % DUR_BASE, v * q % DUR_BASE) := by
  have hv2 : v / DUR_BASE / DUR_BASE < DUR_BASE :=
    Nat.div_lt_of_lt_mul (Nat.div_lt_of_lt_mul (by rwa [Nat.mul_assoc] at hv))
  have hmul := u32ThreeMul_spec hv2 (Nat.mod_lt (v / DUR_BASE) (by decide)) (Nat.mod_lt v (by decide)) hq
  rwa [Nat.div_add_mod', Nat.div_add_mod'] at hmul

theorem firstDigit_dividend (hv' : v < DUR_BASE * DUR_BASE * DUR_BASE) (hx : x / DUR_BASE < v) :
    twoDigits (x / DUR_BASE / DUR_BASE / DUR_BASE) (x / DUR_BASE / DUR_BASE % DUR_BASE) =
      .ok (x / DUR_BASE / DUR_BASE) := by
  have hx3 : x / DUR_BASE / DUR_BASE / DUR_BASE < DUR_BASE :=
    Nat.div_lt_of_lt_mul (Nat.div_lt_of_lt_mul (by rw [← Nat.mul_assoc]; exact hx.trans hv'))
  have hdigits := twoDigits_spec hx3 (Nat.mod_lt (x / DUR_BASE / DUR_BASE) (by decide))
  rwa [Nat.div_add_mod'] at hdigits

variable (hv : DUR_BASE ≤ 2 * (v / DUR_BASE / DUR_BASE)) (hv' : v < DUR_BASE * DUR_BASE * DUR_BASE)
include hv hv'

theorem firstDigit_stuck (hx : x / DUR_BASE < v)
    (hstuck : Stuck (x / DUR_BASE / DUR_BASE) (x / DUR_BASE % DUR_BASE) (v / DUR_BASE / DUR_BASE)
      (v / DUR_BASE % DUR_BASE)) :
    firstDigit (x / DUR_BASE / DUR_BASE / DUR_BASE) (x / DUR_BASE / DUR_BASE % DUR_BASE) (x / DUR_BASE % DUR_BASE)
      (x % DUR_BASE) (v / DUR_BASE / DUR_BASE) (v / DUR_BASE % DUR_BASE) (v % DUR_BASE) = .error .diverges :=
  bind_ok (firstDigit_dividend hv' hx) (bind_error (divAndMod_three_stuck hv hv' hx hstuck))

/-- The first digit of the quotient, and what is left of the dividend. -/
theorem firstDigit_spec (hx : x / DUR_BASE < v)
    (hstuck : ¬ Stuck (x / DUR_BASE / DUR_BASE) (x / DUR_BASE % DUR_BASE) (v / DUR_BASE / DUR_BASE)
      (v / DUR_BASE % DUR_BASE)) :
    firstDigit (x / DUR_BASE / DUR_BASE / DUR_BASE) (x / DUR_BASE / DUR_BASE % DUR_BASE) (x / DUR_BASE % DUR_BASE)
      (x % DUR_BASE) (v / DUR_BASE / DUR_BASE) (v / DUR_BASE % DUR_BASE) (v % DUR_BASE) =
        .ok (x / v, (digitsDifference x (v * (x / v))).2) := by
  have hbase : 0 < DUR_BASE := by decide
  have hvpos : 0 < v := Nat.zero_lt_of_lt hx
  obtain ⟨q, hquot, hqlt, hge, hle⟩ := divAndMod_three hv hv' hx (Nat.mod_lt x hbase) hstuck
  rw [Nat.div_add_mod'] at hge hle
  have hneg := digitsDifference_neg_iff x (v * q)
  have hcorr := lt_mul_iff hvpos hle
  refine bind_ok (firstDigit_dividend hv' hx) (bind_ok hquot (bind_ok (u32ThreeMul_eq hv' hqlt.le) ?_))
  unfold digitsDifference at hneg ⊢
  dsimp only
  by_cases hhigh : q = x / v + 1
  · -- one too high: the digit below, and the difference again
    have hqpos : 1 ≤ q := hhigh ▸ Nat.succ_pos _
    have hbelow : q - 1 = x / v := by omega
    have hmul := u32ThreeMul_eq hv' (q := q - 1) (by omega)
    have hmonus : monus q 1 = .ok (q - 1) := monus_ok hqpos
    rw [hbelow] at hmul hmonus
    rw [if_pos (hneg.mpr (hcorr.mpr hhigh))]
    exact bind_ok hmonus (bind_ok hmul rfl)
  · have hq : q = x / v := by omega
    rw [if_neg (mt hneg.mp (mt hcorr.mp hhigh)), hq]
    rfl

omit hv in
/-- What the second digit is taken from. -/
theorem secondDigit_dividend (ha : a < v) :
    toU64 ((a / DUR_BASE / DUR_BASE : Nat) : Int) = .ok (a / DUR_BASE / DUR_BASE) ∧
      toU64 ((a / DUR_BASE % DUR_BASE : Nat) : Int) = .ok (a / DUR_BASE % DUR_BASE) ∧
      twoDigits (a / DUR_BASE / DUR_BASE) (a / DUR_BASE % DUR_BASE) = .ok (a / DUR_BASE) ∧
      toU32 ((a % DUR_BASE : Nat) : Int) = .ok (a % DUR_BASE) := by
  have hmod (n : Nat) : n % DUR_BASE < DUR_BASE := Nat.mod_lt n (by decide)
  have ha2 : a / DUR_BASE / DUR_BASE < DUR_BASE :=
    Nat.div_lt_of_lt_mul (Nat.div_lt_of_lt_mul (by rw [← Nat.mul_assoc]; exact ha.trans hv'))
  have hdigits := twoDigits_spec ha2 (hmod (a / DUR_BASE))
  rw [Nat.div_add_mod'] at hdigits
  exact ⟨toU64_ok rfl (ha2.trans (by decide)), toU64_ok rfl ((hmod (a / DUR_BASE)).trans (by decide)), hdigits,
    toU32_ok rfl ((hmod a).trans (by decide))⟩

theorem secondDigit_stuck (ha : a < v)
    (hstuck : Stuck (a / DUR_BASE) (a % DUR_BASE) (v / DUR_BASE / DUR_BASE) (v / DUR_BASE % DUR_BASE)) :
    secondDigit ((a / DUR_BASE / DUR_BASE : Nat) : Int) ((a / DUR_BASE % DUR_BASE : Nat) : Int)
      ((a % DUR_BASE : Nat) : Int) u
      (v / DUR_BASE / DUR_BASE) (v / DUR_BASE % DUR_BASE) (v % DUR_BASE) = .error .diverges := by
  obtain ⟨hd2, hd1, hdigits, hd0⟩ := secondDigit_dividend hv' ha
  exact bind_ok hd2 (bind_ok hd1 (bind_ok hdigits (bind_ok hd0 (bind_error (divAndMod_three_stuck hv hv' ha hstuck)))))

/-- The second digit of the quotient, from the remainder of the first. -/
theorem secondDigit_spec (ha : a < v) (hu : u < DUR_BASE)
    (hstuck : ¬ Stuck (a / DUR_BASE) (a % DUR_BASE) (v / DUR_BASE / DUR_BASE) (v / DUR_BASE % DUR_BASE)) :
    secondDigit ((a / DUR_BASE / DUR_BASE : Nat) : Int) ((a / DUR_BASE % DUR_BASE : Nat) : Int)
      ((a % DUR_BASE : Nat) : Int) u
      (v / DUR_BASE / DUR_BASE) (v / DUR_BASE % DUR_BASE) (v % DUR_BASE) = .ok ((a * DUR_BASE + u) / v) := by
  have hvpos : 0 < v := Nat.zero_lt_of_lt ha
  obtain ⟨q, hquot, hqlt, hge, hle⟩ := divAndMod_three hv hv' ha hu hstuck
  obtain ⟨hd2, hd1, hdigits, hd0⟩ := secondDigit_dividend hv' ha
  have hneg := digitsDifference_neg_iff (a * DUR_BASE + u) (v * q)
  have hcorr := lt_mul_iff hvpos hle
  refine bind_ok hd2 (bind_ok hd1
    (bind_ok hdigits (bind_ok hd0 (bind_ok hquot (bind_ok (u32ThreeMul_eq hv' hqlt.le) ?_)))))
  rcases hdiff : digitsDifference (a * DUR_BASE + u) (v * q) with ⟨d3, d2, d1, d0⟩
  rw [hdiff] at hneg
  unfold digitsDifference at hdiff
  rw [digit_div hu, digit_mod hu] at hdiff
  dsimp only
  rw [hdiff]
  dsimp only
  by_cases hhigh : q = (a * DUR_BASE + u) / v + 1
  · have hqpos : 1 ≤ q := hhigh ▸ Nat.succ_pos _
    rw [if_pos (hneg.mpr (hcorr.mpr hhigh)), monus_ok hqpos, hhigh, Nat.add_sub_cancel]
  · rw [if_neg (mt hneg.mp (mt hcorr.mp hhigh)), show q = (a * DUR_BASE + u) / v by omega]
    rfl

omit hv hv'

/-- What the two digits of the quotient by a divisor of three digits need: the loop does not get stuck, and the first
    difference has no borrow from the highest digit. -/
structure RegularThree (n d : Nat) : Prop where
  first : ¬ Stuck (n / DUR_BASE / DUR_BASE / DUR_BASE) (n / DUR_BASE / DUR_BASE % DUR_BASE) (d / DUR_BASE / DUR_BASE)
    (d / DUR_BASE % DUR_BASE)
  second : ¬ Stuck (n / DUR_BASE % d / DUR_BASE) (n / DUR_BASE % d % DUR_BASE) (d / DUR_BASE / DUR_BASE)
    (d / DUR_BASE % DUR_BASE)
  borrow : d * (n / DUR_BASE / d) / DUR_BASE / DUR_BASE / DUR_BASE = n / DUR_BASE / DUR_BASE / DUR_BASE / DUR_BASE

/-- The two digits of the quotient by a divisor of three digits, of scaled operands. -/
def durDivDigits (n d : Nat) : Except Exn (Int × Int) :=
  firstDigit (n / DUR_BASE / DUR_BASE / DUR_BASE / DUR_BASE) (n / DUR_BASE / DUR_BASE / DUR_BASE % DUR_BASE)
      (n / DUR_BASE / DUR_BASE % DUR_BASE) (n / DUR_BASE % DUR_BASE) (d / DUR_BASE / DUR_BASE) (d / DUR_BASE % DUR_BASE)
      (d % DUR_BASE) >>= fun first =>
    secondDigit first.2.1 first.2.2.1 first.2.2.2 (n % DUR_BASE) (d / DUR_BASE / DUR_BASE) (d / DUR_BASE % DUR_BASE)
      (d % DUR_BASE) >>= fun res0 => pure (first.1, res0)

section Digits

variable {n d : Nat}

/-- The remainder after the first digit, without the wrong borrow. -/
theorem firstDigit_rest
    (hborrow : d * (n / DUR_BASE / d) / DUR_BASE / DUR_BASE / DUR_BASE =
      n / DUR_BASE / DUR_BASE / DUR_BASE / DUR_BASE) :
    (digitsDifference (n / DUR_BASE) (d * (n / DUR_BASE / d))).2 =
      (((n / DUR_BASE % d / DUR_BASE / DUR_BASE : Nat) : Int), ((n / DUR_BASE % d / DUR_BASE % DUR_BASE : Nat) : Int),
        ((n / DUR_BASE % d % DUR_BASE : Nat) : Int)) := by
  rw [digitsDifference_eq (Nat.mul_div_le (n / DUR_BASE) d) hborrow, ← Nat.mod_eq_sub]

variable (hhalf : DUR_BASE ≤ 2 * (d / DUR_BASE / DUR_BASE)) (hlt : d < DUR_BASE * DUR_BASE * DUR_BASE)
  (hsmall : n / DUR_BASE / DUR_BASE < d)
include hhalf hlt hsmall

theorem durDivDigits_spec (hreg : RegularThree n d) :
    durDivDigits n d = .ok (((n / d / DUR_BASE : Nat) : Int), ((n / d % DUR_BASE : Nat) : Int)) := by
  have hbase : 0 < DUR_BASE := by decide
  have hpos : 0 < d := Nat.zero_lt_of_lt hsmall
  have hsecond := secondDigit_spec hhalf hlt (Nat.mod_lt (n / DUR_BASE) hpos) (Nat.mod_lt n hbase) hreg.second
  have hdigit := div_lt_base (Nat.mod_lt (n / DUR_BASE) hpos) (Nat.mod_lt n hbase)
  have hquot : n / d = n / DUR_BASE / d * DUR_BASE + (n / DUR_BASE % d * DUR_BASE + n % DUR_BASE) / d := by
    conv_lhs => rw [← Nat.div_add_mod' n DUR_BASE]
    exact div_step hpos
  rw [hquot, digit_div hdigit, digit_mod hdigit]
  refine bind_ok (firstDigit_spec hhalf hlt hsmall hreg.first) ?_
  rw [firstDigit_rest hreg.borrow]
  exact bind_ok hsecond rfl

/-- A digit on which the loop gets stuck is never found, and **the wrong borrow throws** at the second digit. -/
theorem durDivDigits_irregular (hreg : ¬ RegularThree n d) :
    durDivDigits n d = .error .diverges ∨ durDivDigits n d = .error .overflow := by
  have hpos : 0 < d := Nat.zero_lt_of_lt hsmall
  by_cases hstuck : Stuck (n / DUR_BASE / DUR_BASE / DUR_BASE) (n / DUR_BASE / DUR_BASE % DUR_BASE)
    (d / DUR_BASE / DUR_BASE)
      (d / DUR_BASE % DUR_BASE)
  · exact Or.inl (bind_error (firstDigit_stuck hhalf hlt hsmall hstuck))
  have hfirst := firstDigit_spec hhalf hlt hsmall hstuck
  by_cases hborrow : d * (n / DUR_BASE / d) / DUR_BASE / DUR_BASE / DUR_BASE =
    n / DUR_BASE / DUR_BASE / DUR_BASE / DUR_BASE
  · have hsecond : Stuck (n / DUR_BASE % d / DUR_BASE) (n / DUR_BASE % d % DUR_BASE) (d / DUR_BASE / DUR_BASE)
        (d / DUR_BASE % DUR_BASE) :=
      by_contra fun hsecond => hreg ⟨hstuck, hsecond, hborrow⟩
    refine Or.inl (bind_ok hfirst ?_)
    rw [firstDigit_rest hborrow]
    exact bind_error (secondDigit_stuck hhalf hlt (Nat.mod_lt (n / DUR_BASE) hpos) hsecond)
  · have hrest : n / DUR_BASE - d * (n / DUR_BASE / d) < DUR_BASE * DUR_BASE * DUR_BASE := by
      rw [← Nat.mod_eq_sub]
      exact (Nat.mod_lt _ hpos).trans hlt
    have hneg := digitsDifference_borrow (Nat.mul_div_le (n / DUR_BASE) d) hrest hborrow
    exact Or.inr (bind_ok hfirst (bind_error (bind_error (if_pos hneg))))

end Digits

/-- The division by three digits scales its operands. -/
theorem durDivThree_eq {n3 n2 n1 n0 r2 r1 r0 n d t : Nat} (h3 : n3 < DUR_BASE) (h2 : n2 < DUR_BASE) (h1 : n1 < DUR_BASE)
    (h0 : n0 < DUR_BASE) (hr2 : r2 < DUR_BASE) (hr1 : r1 < DUR_BASE) (hr0 : r0 < DUR_BASE)
    (ht : t = DUR_BASE / (r2 + 1)) (hn : n = (((n3 * DUR_BASE + n2) * DUR_BASE + n1) * DUR_BASE + n0) * t)
    (hd : d = ((r2 * DUR_BASE + r1) * DUR_BASE + r0) * t) (hlt : d < DUR_BASE * DUR_BASE * DUR_BASE) :
    durDivThree n3 n2 n1 n0 r2 r1 r0 = durDivDigits n d := by
  have hle : t ≤ DUR_BASE := ht ▸ Nat.div_le_self _ _
  have hdividend := u32DividendMul_spec h3 h2 h1 h0 hle hn
  have hdivisor := u32ThreeMul_spec hr2 hr1 hr0 hle
  rw [← hd, Nat.mod_eq_of_lt (Nat.div_lt_of_lt_mul (Nat.div_lt_of_lt_mul (by rwa [Nat.mul_assoc] at hlt)))] at hdivisor
  unfold durDivThree
  rw [← ht]
  exact bind_ok hdividend (bind_ok hdivisor rfl)

end Three

/-! ## The quotient -/

section Quotient

variable {secs nanos r : Nat}

/-- The operands, of which the divisor has more than 32 bits, are divided without getting stuck and without the wrong
    borrow. -/
def Regular (n r : Nat) : Prop :=
  if r < DUR_BASE * DUR_BASE then RegularTwo (n * (DUR_BASE / (r / DUR_BASE + 1))) (r * (DUR_BASE / (r / DUR_BASE + 1)))
  else RegularThree (n * (DUR_BASE / (r / DUR_BASE / DUR_BASE + 1))) (r * (DUR_BASE / (r / DUR_BASE / DUR_BASE + 1)))

/-- The computation returns `q` if the operands are regular, and else does not return. -/
def ReturnsIf {α : Type} (regular : Prop) (res : Except Exn α) (q : α) : Prop :=
  (regular → res = .ok q) ∧ (¬ regular → res = .error .diverges ∨ res = .error .overflow)

theorem ReturnsIf.bind {α β : Type} {regular : Prop} {x : Except Exn α} {f : α → Except Exn β} {a : α} {b : β}
    (hx : ReturnsIf regular x a) (hf : f a = .ok b) : ReturnsIf regular (x >>= f) b :=
  ⟨fun hreg => bind_ok (hx.1 hreg) hf, fun hreg => (hx.2 hreg).imp bind_error bind_error⟩

theorem dividend_eq (secs nanos : Nat) :
    ((secs / DUR_BASE / DUR_BASE * DUR_BASE + secs / DUR_BASE % DUR_BASE) * DUR_BASE + secs % DUR_BASE) *
      DUR_BASE + nanos =
      secs * DUR_BASE + nanos := by
  rw [Nat.div_add_mod', Nat.div_add_mod']

variable (hsecs : secs ≤ SECS_MAX)
include hsecs

theorem secs_div_lt : secs / DUR_BASE / DUR_BASE < DUR_BASE := by
  rw [show SECS_MAX = 9223372036854775808 from rfl] at hsecs
  rw [DUR_BASE_eq]
  omega

variable (hnanos : nanos < DUR_BASE)
include hnanos

theorem dividend_lt :
    secs * DUR_BASE + nanos < DUR_BASE * DUR_BASE * DUR_BASE * DUR_BASE := by
  rw [show SECS_MAX = 9223372036854775808 from rfl] at hsecs
  rw [DUR_BASE_eq] at *
  omega

/-- The seconds of the quotient. -/
theorem quotient_secs (hlow : 1 < r) :
    (secs * DUR_BASE + nanos) / r / DUR_BASE < SECS_MAX := by
  rw [Nat.div_div_eq_div_mul, Nat.mul_comm r, ← Nat.div_div_eq_div_mul, digit_div hnanos]
  calc secs / r ≤ secs / 2 := Nat.div_le_div_left hlow (by decide)
    _ < SECS_MAX := by
        rw [show SECS_MAX = 9223372036854775808 from rfl] at *
        omega

theorem durDivTwo_spec (hlow : 0xFFFFFFFF < r) (hr : r < DUR_BASE * DUR_BASE) :
    ReturnsIf (Regular (secs * DUR_BASE + nanos) r)
      (durDivTwo (secs / DUR_BASE / DUR_BASE) (secs / DUR_BASE % DUR_BASE) (secs % DUR_BASE) nanos
        (r / DUR_BASE % DUR_BASE) (r % DUR_BASE))
      ((((secs * DUR_BASE + nanos) / r / DUR_BASE : Nat) : Int),
        (((secs * DUR_BASE + nanos) / r % DUR_BASE : Nat) : Int)) := by
  have hbase : 0 < DUR_BASE := by decide
  have hB := DUR_BASE_eq
  have hr1 : r / DUR_BASE < DUR_BASE := Nat.div_lt_of_lt_mul hr
  have hr1pos : 0 < r / DUR_BASE := Nat.div_pos (by omega) hbase
  have htimes : 0 < DUR_BASE / (r / DUR_BASE + 1) := Nat.div_pos (by omega) (Nat.succ_pos _)
  have hlt := scaled_lt hbase hr1
  have hhalf := half_le_scaled hbase hr1pos hr1
  have hsmall := scaled_div_lt (n := secs * DUR_BASE + nanos) (r := r) (c := DUR_BASE * DUR_BASE * DUR_BASE)
    (by decide) htimes
    ((dividend_lt hsecs hnanos).trans_le (by rw [hB]; omega))
  rw [← Nat.div_div_eq_div_mul, ← Nat.div_div_eq_div_mul] at hsmall
  unfold Regular
  rw [if_pos hr, Nat.mod_eq_of_lt hr1]
  have hnorm := normalizeTwo_spec (secs_div_lt hsecs) (Nat.mod_lt (secs / DUR_BASE) hbase)
    (Nat.mod_lt secs hbase) hnanos hr1
    (Nat.mod_lt r hbase) rfl rfl rfl (by rwa [Nat.div_add_mod'])
  rw [dividend_eq, Nat.div_add_mod'] at hnorm
  have hquot := Nat.mul_div_mul_right (secs * DUR_BASE + nanos) r htimes
  have hmax := quotient_secs hsecs hnanos (r := r) (by omega)
  rw [← hquot, show SECS_MAX = 9223372036854775808 from rfl] at hmax
  have hdiv := durDivTwo_digits hnorm (by omega) hlt hsmall (by rw [INT64_MAX_eq]; omega)
  rw [hquot] at hdiv
  exact ⟨hdiv, fun hreg => Or.inl (durDivTwo_stuck hnorm (by omega) hlt hsmall hreg)⟩

theorem durDivThree_spec (hlow : DUR_BASE * DUR_BASE ≤ r) (hr : r < 0x10000000000000000) :
    ReturnsIf (Regular (secs * DUR_BASE + nanos) r)
      (durDivThree (secs / DUR_BASE / DUR_BASE) (secs / DUR_BASE % DUR_BASE) (secs % DUR_BASE) nanos
        (r / DUR_BASE / DUR_BASE) (r / DUR_BASE % DUR_BASE) (r % DUR_BASE))
      ((((secs * DUR_BASE + nanos) / r / DUR_BASE : Nat) : Int),
        (((secs * DUR_BASE + nanos) / r % DUR_BASE : Nat) : Int)) := by
  have hbase : 0 < DUR_BASE := by decide
  have hB := DUR_BASE_eq
  have hsq : 0 < DUR_BASE * DUR_BASE := by decide
  have hr2 : r / (DUR_BASE * DUR_BASE) < DUR_BASE := by
    rw [hB]
    omega
  have hr2pos : 0 < r / (DUR_BASE * DUR_BASE) := Nat.div_pos hlow hsq
  have htimes : 0 < DUR_BASE / (r / (DUR_BASE * DUR_BASE) + 1) := Nat.div_pos (by omega) (Nat.succ_pos _)
  have hlt := scaled_lt hsq hr2
  have hhalf := half_le_scaled hsq hr2pos hr2
  have hsmall := scaled_div_lt (n := secs * DUR_BASE + nanos) (r := r) hsq htimes
    ((dividend_lt hsecs hnanos).trans_le (by rw [hB] at hlow ⊢; omega))
  unfold Regular
  rw [if_neg (Nat.not_lt.mpr hlow)]
  rw [← Nat.div_div_eq_div_mul] at hr2 htimes
  rw [← Nat.div_div_eq_div_mul r] at hlt hhalf hsmall
  rw [← Nat.div_div_eq_div_mul _ DUR_BASE DUR_BASE] at hhalf hsmall
  rw [← Nat.mul_assoc] at hlt
  have heq := durDivThree_eq (secs_div_lt hsecs) (Nat.mod_lt (secs / DUR_BASE) hbase) (Nat.mod_lt secs hbase) hnanos hr2
    (Nat.mod_lt (r / DUR_BASE) hbase) (Nat.mod_lt r hbase) rfl (congrArg (· * _) (dividend_eq secs nanos).symm)
    (congrArg (· * _) (by rw [Nat.div_add_mod', Nat.div_add_mod'])) hlt
  have hdiv := durDivDigits_spec (by omega) hlt hsmall
  rw [Nat.mul_div_mul_right _ r htimes] at hdiv
  rw [heq]
  exact ⟨hdiv, durDivDigits_irregular (by omega) hlt hsmall⟩

theorem durDiv_spec (hlow : 0xFFFFFFFF < r) (hr : r < 0x10000000000000000) :
    ReturnsIf (Regular (secs * DUR_BASE + nanos) r) (durDiv secs nanos r)
      ((((secs * DUR_BASE + nanos) / r / DUR_BASE : Nat) : Int),
        (((secs * DUR_BASE + nanos) / r % DUR_BASE : Nat) : Int)) := by
  unfold durDiv
  rw [toSecNsBase_spec hr, ok_bind]
  dsimp only
  rw [toSecNsBase_spec (hsecs.trans_lt (by decide)), ok_bind]
  dsimp only
  by_cases htwo : r < DUR_BASE * DUR_BASE
  · rw [if_pos (by rw [Nat.div_div_eq_div_mul]; exact Nat.div_eq_of_lt htwo)]
    exact durDivTwo_spec hsecs hnanos hlow htwo
  · have hlow := Nat.le_of_not_lt htwo
    rw [if_neg (by rw [Nat.div_div_eq_div_mul]; exact (Nat.div_pos hlow (by decide)).ne')]
    exact durDivThree_spec hsecs hnanos hlow hr

omit hnanos

omit hsecs

/-- `of` with seconds and nanoseconds of one sign. -/
theorem of_signed {seconds nanoseconds : Nat} (hsec : seconds < SECS_MAX) (hns : nanoseconds < DUR_BASE) (sign : Bool) :
    Duration.of (signed sign seconds) (signed sign nanoseconds) =
      .ok (Duration.ofTotal (signed sign (seconds * DUR_BASE + nanoseconds))) := by
  have hMIN := INT64_MIN_eq
  have hMAX := INT64_MAX_eq
  have hin : Duration.InRange (signed sign (seconds * DUR_BASE + nanoseconds)) := inRange_signed_of_lt hsec hns
  have hsum : signed sign (seconds * DUR_BASE + nanoseconds) =
      signed sign seconds * NS_PER_SEC + signed sign nanoseconds := by
    have hcast : ((seconds * DUR_BASE + nanoseconds : Nat) : Int) = seconds * NS_PER_SEC + nanoseconds := by
      push_cast
      rfl
    unfold signed
    cases sign with
    | true => exact hcast
    | false =>
      rw [if_neg Bool.false_ne_true, if_neg Bool.false_ne_true, if_neg Bool.false_ne_true, hcast]
      ring
  have hbounds (n : Nat) : -(n : Int) ≤ signed sign n ∧ signed sign n ≤ n := by
    unfold signed
    split <;> omega
  have hsecs := hbounds seconds
  have hnanos := hbounds nanoseconds
  rw [show SECS_MAX = 9223372036854775808 from rfl] at hsec
  rw [DUR_BASE_eq] at hns
  rw [hsum] at hin ⊢
  rw [Duration.of_spec (by omega) (by omega) (by rw [NS_PER_SEC_eq]; omega) (by rw [NS_PER_SEC_eq]; omega)]
  exact Duration.exact_of_inRange hin

theorem i64_natCast {n : Nat} (hn : n < SECS_MAX) : i64 (n : Int) = .ok (n : Int) := by
  rw [show SECS_MAX = 9223372036854775808 from rfl] at hn
  exact i64_ok (by rw [INT64_MIN_eq]; omega) (by rw [INT64_MAX_eq]; omega)

theorem i64_neg {n : Nat} (hn : n < SECS_MAX) : i64 (-(n : Int)) = .ok (-(n : Int)) := by
  rw [show SECS_MAX = 9223372036854775808 from rfl] at hn
  exact i64_ok (by rw [INT64_MIN_eq]; omega) (by rw [INT64_MAX_eq]; omega)

/-- The quotient by a divisor of at most 32 bits. -/
theorem divSmall_spec (hsecs : secs / r < SECS_MAX) (hnanos : nanos < DUR_BASE) (hpos : 0 < r) (hr : r ≤ 0xFFFFFFFF)
    (sign : Bool) :
    divSmall secs nanos r sign = .ok (Duration.ofTotal (signed sign ((secs * DUR_BASE + nanos) / r))) := by
  have hB := DUR_BASE_eq
  have hextra : secs % r < r := Nat.mod_lt secs hpos
  have hns : nanos / r + (secs % r * DUR_BASE + nanos % r) / r = (secs % r * DUR_BASE + nanos) / r := by
    conv_rhs => rw [← Nat.mod_add_div nanos r, ← Nat.add_assoc, Nat.add_mul_div_left _ _ hpos]
    rw [Nat.add_comm]
  have hlt : (secs % r * DUR_BASE + nanos) / r < DUR_BASE := div_lt_base hextra hnanos
  have hnsmod : nanos % r < DUR_BASE := (Nat.mod_le nanos r).trans_lt hnanos
  have hsum : secs % r * DUR_BASE + nanos % r < 0x10000000000000000 := by
    rw [hB] at hnsmod ⊢
    omega
  rw [div_step hpos, ← of_signed hsecs hlt sign]
  unfold divSmall
  refine bind_ok (u64_ok ((Nat.le_add_right _ _).trans_lt hsum)) (bind_ok (u64_ok hsum) ?_)
  rw [hns]
  refine bind_ok (u64_ok (hlt.trans (by decide))) ?_
  have hnslt : (secs % r * DUR_BASE + nanos) / r < SECS_MAX := hlt.trans (by decide)
  generalize (secs % r * DUR_BASE + nanos) / r = nanoseconds at hnslt ⊢
  generalize secs / r = seconds at hsecs ⊢
  cases sign with
  | true => rw [if_pos rfl, i64_natCast hsecs, ok_bind, i64_natCast hnslt, ok_bind, signed_true, signed_true]
  | false =>
    rw [if_neg Bool.false_ne_true, i64_natCast hsecs, ok_bind, i64_neg hsecs, ok_bind, i64_natCast hnslt, ok_bind,
      i64_neg hnslt, ok_bind, signed_false, signed_false]

/-- The quotient by a divisor of more than 32 bits. -/
theorem divLarge_spec (hsecs : secs ≤ SECS_MAX) (hnanos : nanos < DUR_BASE) (hlow : 0xFFFFFFFF < r)
    (hr : r < 0x10000000000000000) (sign : Bool) :
    ReturnsIf (Regular (secs * DUR_BASE + nanos) r) (divLarge secs nanos r sign)
      (Duration.ofTotal (signed sign ((secs * DUR_BASE + nanos) / r))) := by
  have hquot := durDiv_spec hsecs hnanos hlow hr
  have hsec := quotient_secs hsecs hnanos (r := r) (by omega)
  have hsplit := Nat.div_add_mod' ((secs * DUR_BASE + nanos) / r) DUR_BASE
  have hns : (secs * DUR_BASE + nanos) / r % DUR_BASE < DUR_BASE := Nat.mod_lt _ (by decide)
  generalize (secs * DUR_BASE + nanos) / r / DUR_BASE = seconds at *
  generalize (secs * DUR_BASE + nanos) / r % DUR_BASE = nanoseconds at *
  rw [← hsplit]
  refine hquot.bind ?_
  cases sign with
  | true =>
    have htotal : signed true (seconds * DUR_BASE + nanoseconds) = (seconds : Int) * NS_PER_SEC + nanoseconds := by
      unfold signed
      rw [if_pos rfl]
      push_cast
      rfl
    rw [Duration.eq_ofTotal htotal hns]
    exact bind_ok (toU32_ok rfl (hns.trans (by decide))) rfl
  | false =>
    have hnslt : nanoseconds < SECS_MAX := hns.trans (by decide)
    dsimp only
    rw [← of_signed hsec hns false, if_neg Bool.false_ne_true, i64_neg hsec, ok_bind, i64_neg hnslt, ok_bind,
      signed_false, signed_false]

end Quotient

variable {r : Int} {d : Duration}

theorem signed_natAbs_div (x : Int) (hr : r ≠ 0) :
    signed (if 0 < x then decide (0 < r) else !decide (0 < r)) (x.natAbs / r.natAbs) = x.tdiv r := by
  rcases lt_or_gt_of_ne hr with hneg | hpos
  · rw [decide_eq_false (not_lt_of_gt hneg)]
    obtain ⟨m, rfl⟩ := Int.exists_eq_neg_ofNat hneg.le
    rw [Int.natAbs_neg, Int.natAbs_natCast, Int.tdiv_neg]
    split_ifs with hx
    · obtain ⟨n, rfl⟩ := Int.eq_ofNat_of_zero_le hx.le
      rw [signed_false, Int.natAbs_natCast, Int.ofNat_tdiv]
    · obtain ⟨n, rfl⟩ := Int.exists_eq_neg_ofNat (not_lt.mp hx)
      rw [Bool.not_false, signed_true, Int.natAbs_neg, Int.natAbs_natCast, Int.neg_tdiv, Int.neg_neg, Int.ofNat_tdiv]
  · rw [decide_eq_true hpos]
    obtain ⟨m, rfl⟩ := Int.eq_ofNat_of_zero_le hpos.le
    rw [Int.natAbs_natCast]
    split_ifs with hx
    · obtain ⟨n, rfl⟩ := Int.eq_ofNat_of_zero_le hx.le
      rw [signed_true, Int.natAbs_natCast, Int.ofNat_tdiv]
    · obtain ⟨n, rfl⟩ := Int.exists_eq_neg_ofNat (not_lt.mp hx)
      rw [Bool.not_true, signed_false, Int.natAbs_neg, Int.natAbs_natCast, Int.neg_tdiv, Int.ofNat_tdiv]

/-- The seconds of a duration, without the sign. -/
theorem natAbs_total (hd : d.WellFormed) :
    d.total.natAbs / DUR_BASE ≤ SECS_MAX ∧ (d.total.natAbs / DUR_BASE = SECS_MAX → d = Duration.Min) := by
  obtain ⟨hmin, hmax, hns⟩ := hd
  rw [INT64_MIN_eq] at hmin
  rw [INT64_MAX_eq] at hmax
  rw [DUR_BASE_eq] at hns ⊢
  have htotal : d.total = d.sec * 1000000000 + d.ns := rfl
  rw [show SECS_MAX = 9223372036854775808 from rfl]
  refine ⟨by omega, fun heq => ?_⟩
  rcases d with ⟨sec, ns⟩
  dsimp only at *
  rw [show Duration.Min = ⟨-9223372036854775808, 0⟩ from rfl, Duration.mk.injEq]
  omega

/-- Only the quotient of the least duration by -1 has too many seconds. -/
theorem quotient_lt (hd : d.WellFormed) (hr : r ≠ 0) (hmin : ¬ (d = Duration.Min ∧ (r = 1 ∨ r = -1))) :
    d.total.natAbs / DUR_BASE / r.natAbs < SECS_MAX := by
  have hsecs := natAbs_total hd
  by_cases hunit : r.natAbs = 1
  · rw [hunit, Nat.div_one]
    exact lt_of_le_of_ne hsecs.1 fun heq => hmin ⟨hsecs.2 heq, by omega⟩
  · calc d.total.natAbs / DUR_BASE / r.natAbs ≤ d.total.natAbs / DUR_BASE / 2 :=
      Nat.div_le_div_left (by omega) (by decide)
      _ < SECS_MAX := Nat.div_lt_of_lt_mul (hsecs.1.trans_lt (by decide))

theorem tdiv_inRange (hd : d.WellFormed) (hr : r ≠ 0) (hmin : ¬ (d = Duration.Min ∧ r = -1)) :
    Duration.InRange (d.total.tdiv r) := by
  by_cases hone : r = 1
  · rw [hone, Int.tdiv_one]
    exact hd.inRange
  · have hlt := quotient_lt hd hr (by tauto)
    rw [Nat.div_div_eq_div_mul, Nat.mul_comm, ← Nat.div_div_eq_div_mul] at hlt
    rw [← signed_natAbs_div d.total hr, ← Nat.div_add_mod' (d.total.natAbs / r.natAbs) DUR_BASE]
    exact inRange_signed_of_lt hlt (Nat.mod_lt _ (by decide))

/-- The truncated quotient, unless a divisor of more than 32 bits is not regular. -/
theorem div_spec (hd : d.WellFormed) (hrmin : INT64_MIN ≤ r) (hrmax : r ≤ INT64_MAX) (hr : r ≠ 0)
    (hmin : ¬ (d = Duration.Min ∧ r = -1)) :
    ReturnsIf (0xFFFFFFFF < r.natAbs → Regular d.total.natAbs r.natAbs) (d.div r)
    (Duration.ofTotal (d.total.tdiv r)) := by
  unfold Duration.div
  rw [if_neg hr]
  by_cases hone : r = 1
  · rw [if_pos hone, hone, Int.tdiv_one, hd.eq_ofTotal]
    exact ⟨fun _ => rfl, fun hreg => absurd (fun hlarge => absurd hlarge (by decide)) hreg⟩
  · rw [if_neg hone, if_neg hmin, Duration.toUnsignedNum_eq hd hrmin hrmax]
    dsimp only
    have hns : d.total.natAbs % DUR_BASE < DUR_BASE := Nat.mod_lt _ (by decide)
    rw [INT64_MIN_eq] at hrmin
    rw [INT64_MAX_eq] at hrmax
    rw [← signed_natAbs_div d.total hr]
    have hsplit := Nat.div_add_mod' d.total.natAbs DUR_BASE
    by_cases hsmall : r.natAbs ≤ 0xFFFFFFFF
    · rw [if_pos hsmall, divSmall_spec (quotient_lt hd hr (by tauto)) hns (by omega) hsmall, hsplit]
      exact ⟨fun _ => rfl, fun hreg => absurd (fun hlarge => absurd hlarge (Nat.not_lt.mpr hsmall)) hreg⟩
    · have hlarge : 0xFFFFFFFF < r.natAbs := Nat.lt_of_not_le hsmall
      have hdiv := divLarge_spec (natAbs_total hd).1 hns hlarge (by omega)
        (if 0 < d.total then decide (0 < r) else !decide (0 < r))
      rw [hsplit] at hdiv
      rw [if_neg hsmall]
      exact ⟨fun hreg => hdiv.1 (hreg hlarge), fun hreg => hdiv.2 fun hregular => hreg fun _ => hregular⟩

/-- `/` returns the truncated quotient **if and only if** the divisor has at most 32 bits or the operands are regular;
    else the loop never ends or the wrong borrow throws. -/
theorem duration_div_exact (d : Duration) (hd : d.WellFormed) (r : Int) (hrmin : INT64_MIN ≤ r) (hrmax : r ≤ INT64_MAX)
    (hr : r ≠ 0) :
    (d = Duration.Min ∧ r = -1 → d.div r = .error .arithmetic) ∧
      (¬ (d = Duration.Min ∧ r = -1) →
        ((∃ q : Duration, d.div r = .ok q ∧ q.WellFormed ∧ q.total = d.total.tdiv r) ↔
          (0xFFFFFFFF < r.natAbs → Regular d.total.natAbs r.natAbs)) ∧
        (¬ (0xFFFFFFFF < r.natAbs → Regular d.total.natAbs r.natAbs) →
          d.div r = .error .diverges ∨ d.div r = .error .overflow)) := by
  refine ⟨?_, fun hmin => ?_⟩
  · rintro ⟨rfl, rfl⟩
    unfold Duration.div
    rw [if_neg (by decide), if_neg (by decide), if_pos ⟨rfl, rfl⟩]
    rfl
  · obtain ⟨hreturns, hfails⟩ := div_spec hd hrmin hrmax hr hmin
    refine ⟨⟨?_, fun hreg => ⟨_, hreturns hreg, (tdiv_inRange hd hr hmin).wellFormed, Duration.total_ofTotal _⟩⟩,
      hfails⟩
    rintro ⟨q, hq, -, -⟩
    by_contra hreg
    rcases hfails hreg with herror | herror
    · rw [hq] at herror
      cases herror
    · rw [hq] at herror
      cases herror

/-- A divisor of two digits and one of three, with regular operands. -/
theorem duration_div_exact_sample :
    (∃ q : Duration, Duration.Max.div 5000000001 = .ok q ∧ q.WellFormed ∧
        q.total = Duration.Max.total.tdiv 5000000001) ∧
      (∃ q : Duration, Duration.Max.div (-3000000000000000000) = .ok q ∧ q.WellFormed ∧
        q.total = Duration.Max.total.tdiv (-3000000000000000000)) := by
  have hmax : Duration.Max.WellFormed := ⟨by decide, by decide, by decide⟩
  refine ⟨((duration_div_exact Duration.Max hmax 5000000001 (by decide) (by decide) (by decide)).2 (by decide)).1.mpr
    fun _ => ?_, ((duration_div_exact Duration.Max hmax (-3000000000000000000) (by decide) (by decide) (by decide)).2
      (by decide)).1.mpr
      fun _ => ?_⟩
  · unfold Regular
    rw [if_pos (by decide)]
    exact ⟨by decide +kernel, by decide +kernel, by decide +kernel⟩
  · unfold Regular
    rw [if_neg (by decide)]
    exact ⟨by decide +kernel, by decide +kernel, by decide +kernel⟩

/-- Operands on which the loop of `divAndMod` never ends, and operands on which the wrong borrow throws. -/
theorem duration_div_fails :
    ((⟨1856794180, 688543182⟩ : Duration).WellFormed ∧
      (⟨1856794180, 688543182⟩ : Duration).div 5470196911 = .error .diverges) ∧
      ((⟨2029412114740846268, 999999999⟩ : Duration).WellFormed ∧
        (⟨2029412114740846268, 999999999⟩ : Duration).div 1016607937364346240 = .error .overflow) := by
  refine ⟨⟨⟨by decide, by decide, by decide⟩, by decide +kernel⟩,
    ⟨⟨by decide, by decide, by decide⟩, by decide +kernel⟩⟩

end CangjieRuntime.StdCore
