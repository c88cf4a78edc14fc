import CangjieRuntime.StdMath.Correctness.DecimalArithmetic

/-!
# `StdMath.Correctness.DecimalRounding` — the quotient is rounded once

The operands are scaled so that the whole part of the quotient has just the digits that are asked for, and the remainder
decides about the rounding. Only the power of ten with one digit more can come out as well. It is then rounded again,
and that changes nothing.
-/

namespace CangjieRuntime.StdMath

open StdCore DecimalDigits

/-! ## Rounding to a whole number -/

/-- The number rounded to a whole one. -/
def roundInt (mode : RoundingMode) (z : ℚ) : Int :=
  match mode with
  | .Ceiling => ⌈z⌉
  | .Floor => ⌊z⌋
  | .Down => if 0 ≤ z then ⌊z⌋ else ⌈z⌉
  | .Up => if 0 ≤ z then ⌈z⌉ else ⌊z⌋
  | .HalfUp => if 0 ≤ z then ⌊z + 1 / 2⌋ else ⌈z - 1 / 2⌉
  | .HalfEven =>
    if z - ⌊z⌋ < 1 / 2 then ⌊z⌋ else if 1 / 2 < z - ⌊z⌋ then ⌊z⌋ + 1 else if ⌊z⌋ % 2 = 0 then ⌊z⌋ else ⌊z⌋ + 1

variable (mode : RoundingMode)

theorem roundInt_intCast (n : Int) : roundInt mode n = n := by
  have hhalf : ⌊(n : ℚ) + 1 / 2⌋ = n := by
    rw [Int.floor_intCast_add, show ⌊(1 / 2 : ℚ)⌋ = 0 by norm_num, add_zero]
  have hhalf' : ⌈(n : ℚ) - 1 / 2⌉ = n := by
    rw [sub_eq_add_neg, Int.ceil_intCast_add, show ⌈(-(1 / 2) : ℚ)⌉ = 0 by norm_num, add_zero]
  cases mode with
  | Ceiling => exact Int.ceil_intCast n
  | Floor => exact Int.floor_intCast n
  | Down | Up =>
    dsimp only [roundInt]
    rw [Int.floor_intCast, Int.ceil_intCast, ite_self]
  | HalfUp =>
    dsimp only [roundInt]
    rw [hhalf, hhalf', ite_self]
  | HalfEven =>
    dsimp only [roundInt]
    rw [Int.floor_intCast, sub_self, if_pos (by norm_num)]

theorem roundInt_between (z : ℚ) : ⌊z⌋ ≤ roundInt mode z ∧ roundInt mode z ≤ ⌈z⌉ := by
  have hle := Int.floor_le_ceil z
  have hfloor := Int.floor_le z
  have hceil := Int.le_ceil z
  cases mode with
  | Ceiling => exact ⟨hle, le_rfl⟩
  | Floor => exact ⟨le_rfl, hle⟩
  | Down | Up =>
    dsimp only [roundInt]
    split <;> constructor <;> first | exact le_rfl | exact hle
  | HalfUp =>
    dsimp only [roundInt]
    split
    · refine ⟨Int.floor_le_floor (by linarith), ?_⟩
      rw [← Int.lt_add_one_iff, Int.floor_lt]
      push_cast
      linarith
    · refine ⟨?_, Int.ceil_le_ceil (by linarith)⟩
      rw [Int.le_ceil_iff]
      linarith
  | HalfEven =>
    have hnext (h : ¬ z - ⌊z⌋ < 1 / 2) : ⌊z⌋ + 1 ≤ ⌈z⌉ := by
      rw [Int.add_one_le_iff, Int.lt_ceil]
      linarith
    dsimp only [roundInt]
    split
    · exact ⟨le_rfl, hle⟩
    · rename_i hless
      have hup := hnext hless
      split <;> [skip; split] <;> omega

/-- Rounding does not cross a whole number. -/
theorem roundInt_natAbs_le {z : ℚ} {n : Nat} (hz : |z| ≤ n) : (roundInt mode z).natAbs ≤ n := by
  obtain ⟨hlo, hhi⟩ := abs_le.mp hz
  have hfloor : -(n : Int) ≤ ⌊z⌋ := Int.le_floor.mpr (by push_cast; exact hlo)
  have hceil : ⌈z⌉ ≤ (n : Int) := Int.ceil_le.mpr (by push_cast; exact hhi)
  have hround := roundInt_between mode z
  omega

section Carry

variable {n : Nat} {f : ℚ} {half : Int}

theorem floor_add_frac (hf : 0 < f) (hf' : f < 1) : ⌊(n : ℚ) + f⌋ = n := by
  rw [Int.floor_eq_iff]
  push_cast
  constructor <;> linarith

theorem ceil_add_frac (hf : 0 < f) (hf' : f < 1) : ⌈(n : ℚ) + f⌉ = n + 1 := by
  rw [Int.ceil_eq_iff]
  push_cast
  constructor <;> linarith

theorem floor_add_half (hf : 0 < f) (hf' : f < 1) : ⌊(n : ℚ) + f + 1 / 2⌋ = n + if 1 / 2 ≤ f then 1 else 0 := by
  split
  · rw [Int.floor_eq_iff]
    push_cast
    constructor <;> linarith
  · rw [Int.floor_eq_iff]
    push_cast
    constructor <;> linarith

/-- What is added to the whole part of a number that is not whole. -/
def carry (mode : RoundingMode) (sign half : Int) (n : Nat) : Nat :=
  if needCarry mode sign half (n % 2 = 1) then 1 else 0

theorem carry_above (h : half > 0) (sign : Int) : carry .HalfEven sign half n = 1 := by
  simp [carry, needCarry, h]

theorem carry_below (h : half < 0) (sign : Int) : carry .HalfEven sign half n = 0 := by
  simp [carry, needCarry, h, not_lt.mpr h.le]

theorem carry_tie (h : half = 0) (sign : Int) : carry .HalfEven sign half n = if n % 2 = 1 then 1 else 0 := by
  simp [carry, needCarry, h]

theorem tie_of (hgt : half > 0 ↔ 1 / 2 < f) (hlt : half < 0 ↔ f < 1 / 2) (heq : f = 1 / 2) : half = 0 := by
  have habove : ¬ half > 0 := by rw [hgt, heq]; exact lt_irrefl _
  have hbelow : ¬ half < 0 := by rw [hlt, heq]; exact lt_irrefl _
  omega

/-- Rounding above zero, with the comparison of the fraction with a half. -/
theorem roundInt_pos (mode : RoundingMode) (hf : 0 < f) (hf' : f < 1) (hgt : half > 0 ↔ 1 / 2 < f)
    (hlt : half < 0 ↔ f < 1 / 2) :
    roundInt mode (n + f) = (n + carry mode 1 half n : Nat) := by
  have hpos : 0 ≤ (n : ℚ) + f := by positivity
  have htie : f = 1 / 2 → half = 0 := fun heq => tie_of hgt hlt heq
  cases mode with
  | Ceiling => exact ceil_add_frac hf hf'
  | Floor => exact floor_add_frac hf hf'
  | Down => exact (if_pos hpos).trans (floor_add_frac hf hf')
  | Up => exact (if_pos hpos).trans (ceil_add_frac hf hf')
  | HalfUp =>
    refine ((if_pos hpos).trans (floor_add_half hf hf')).trans ?_
    have hhalf : half ≥ 0 ↔ 1 / 2 ≤ f := by rw [ge_iff_le, ← not_lt, hlt, not_lt]
    simp only [carry, needCarry, decide_eq_true_eq, hhalf]
    push_cast
    rfl
  | HalfEven =>
    dsimp only [roundInt]
    rw [floor_add_frac hf hf', show (n : ℚ) + f - ((n : Int) : ℚ) = f by push_cast; ring]
    rcases lt_trichotomy f (1 / 2) with hless | heq | hmore
    · rw [if_pos hless, carry_below (hlt.mpr hless)]
      rfl
    · rw [if_neg (by rw [heq]; exact lt_irrefl _), if_neg (by rw [heq]; exact lt_irrefl _), carry_tie (htie heq)]
      split <;> split <;> omega
    · rw [if_neg (lt_asymm hmore), if_pos hmore, carry_above (hgt.mpr hmore)]
      rfl

/-- Rounding below zero. -/
theorem roundInt_neg (mode : RoundingMode) (hf : 0 < f) (hf' : f < 1) (hgt : half > 0 ↔ 1 / 2 < f)
    (hlt : half < 0 ↔ f < 1 / 2) :
    roundInt mode (-(n + f)) = -(n + carry mode (-1) half n : Nat) := by
  have hneg : ¬ 0 ≤ -((n : ℚ) + f) := by
    have hn : (0 : ℚ) ≤ n := Nat.cast_nonneg n
    linarith
  have htie : f = 1 / 2 → half = 0 := fun heq => tie_of hgt hlt heq
  have hfloor : ⌊-((n : ℚ) + f)⌋ = -(n + 1) := by rw [Int.floor_neg, ceil_add_frac hf hf']
  have hceil : ⌈-((n : ℚ) + f)⌉ = -n := by rw [Int.ceil_neg, floor_add_frac hf hf']
  cases mode with
  | Ceiling => exact hceil
  | Floor => exact hfloor
  | Down => exact (if_neg hneg).trans hceil
  | Up => exact (if_neg hneg).trans hfloor
  | HalfUp =>
    refine (if_neg hneg).trans ?_
    have hhalf : half ≥ 0 ↔ 1 / 2 ≤ f := by rw [ge_iff_le, ← not_lt, hlt, not_lt]
    rw [show -((n : ℚ) + f) - 1 / 2 = -(n + f + 1 / 2) by ring, Int.ceil_neg, floor_add_half hf hf']
    simp only [carry, needCarry, decide_eq_true_eq, hhalf]
    push_cast
    rfl
  | HalfEven =>
    dsimp only [roundInt]
    rw [hfloor, show -((n : ℚ) + f) - ((-(n + 1) : Int) : ℚ) = 1 - f by push_cast; ring]
    rcases lt_trichotomy f (1 / 2) with hless | heq | hmore
    · rw [if_neg (by linarith), if_pos (by linarith), carry_below (hlt.mpr hless)]
      push_cast
      ring
    · rw [if_neg (by rw [heq]; norm_num), if_neg (by rw [heq]; norm_num), carry_tie (htie heq)]
      split <;> split <;> omega
    · rw [if_pos (by linarith), carry_above (hgt.mpr hmore)]
      rfl

end Carry

/-! ## Significant digits -/

/-- The number `r` is `q` rounded to `p` significant digits. -/
def Rounded (mode : RoundingMode) (p : Nat) (q r : ℚ) : Prop :=
  q = 0 ∧ r = 0 ∨ ∃ e : Int, 10 ^ (p - 1) ≤ |q| * 10 ^ e ∧ |q| * 10 ^ e < 10 ^ p ∧
    r = roundInt mode (q * 10 ^ e) * 10 ^ (-e)

section Significant

variable {mode : RoundingMode} {p : Nat} {q r : ℚ} {e : Int}

/-- A whole number of units is not changed. -/
theorem roundInt_whole {n : Int} (h : q * 10 ^ e = n) : roundInt mode (q * 10 ^ e) * 10 ^ (-e) = q := by
  rw [h, roundInt_intCast, ← h, mul_assoc, ← zpow_add₀ (by norm_num), add_neg_cancel, zpow_zero, mul_one]

/-- A number that fits into `p` digits is not changed. -/
theorem Rounded.eq_of_fits (h : Rounded mode p q r) (hp : 1 ≤ p) {n k : Int} (hq : q = n * 10 ^ k)
    (hn : n.natAbs < 10 ^ p) : r = q := by
  rcases h with ⟨hzero, hr⟩ | ⟨e, hlo, -, rfl⟩
  · rw [hr, hzero]
  · have hunits : q * 10 ^ e = n * 10 ^ (k + e) := by rw [hq, mul_assoc, ← zpow_add₀ (by norm_num)]
    rcases lt_or_ge (k + e) 0 with hneg | hpos
    · -- with a digit behind the point the number would be too small
      exfalso
      have hn' : |(n : ℚ)| < 10 ^ p := by
        rw [← Int.cast_abs, Int.abs_eq_natAbs]
        exact_mod_cast hn
      have hpow : (10 : ℚ) ^ (k + e) ≤ 10 ^ (-1 : Int) := zpow_le_zpow_right₀ (by norm_num) (by omega)
      have hten : (10 : ℚ) ^ p = 10 ^ (p - 1) * 10 := by rw [← pow_succ, Nat.sub_add_cancel hp]
      have habs : |q| * 10 ^ e = |(n : ℚ)| * 10 ^ (k + e) := by
        rw [hq, abs_mul, abs_of_pos (show (0 : ℚ) < 10 ^ k by positivity), mul_assoc, ← zpow_add₀ (by norm_num)]
      have hless : |(n : ℚ)| * 10 ^ (k + e) < 10 ^ p * 10 ^ (-1 : Int) :=
        mul_lt_mul_of_lt_of_le_of_nonneg_of_pos hn' hpow (abs_nonneg _) (by positivity)
      rw [← habs, hten, zpow_neg_one, mul_assoc, mul_inv_cancel₀ (by norm_num), mul_one] at hless
      exact absurd hlo (not_le.mpr hless)
    · obtain ⟨m, hm⟩ := Int.eq_ofNat_of_zero_le hpos
      refine roundInt_whole (n := n * 10 ^ m) ?_
      rw [hunits, hm]
      push_cast
      rfl

/-- At the upper end the number is a power of ten, which is rounded to itself. -/
theorem Rounded.of_le (mode : RoundingMode) (hp : 1 ≤ p) (hlo : 10 ^ (p - 1) ≤ |q| * 10 ^ e)
    (hhi : |q| * 10 ^ e ≤ 10 ^ p) :
    Rounded mode p q (roundInt mode (q * 10 ^ e) * 10 ^ (-e)) := by
  rcases hhi.lt_or_eq with hlt | heq
  · exact Or.inr ⟨e, hlo, hlt, rfl⟩
  · have hten : (10 : ℚ) ^ p = 10 ^ (p - 1) * 10 := by rw [← pow_succ, Nat.sub_add_cancel hp]
    have hless : |q| * 10 ^ (e - 1) = 10 ^ (p - 1) := by
      rw [zpow_sub_one₀ (by norm_num), ← mul_assoc, heq, hten]
      field_simp
    obtain ⟨n, hn⟩ : ∃ n : Int, q * 10 ^ (e - 1) = n := by
      rcases abs_choice q with habs | habs
      · refine ⟨10 ^ (p - 1), ?_⟩
        rw [← habs, hless]
        push_cast
        rfl
      · refine ⟨-10 ^ (p - 1), ?_⟩
        rw [show q = -|q| by rw [habs, neg_neg], neg_mul, hless]
        push_cast
        rfl
    have hn' : q * 10 ^ e = (n * 10 : Int) := by
      push_cast
      rw [← hn, mul_assoc, ← zpow_add_one₀ (by norm_num), sub_add_cancel]
    refine Or.inr ⟨e - 1, hless.ge, ?_, ?_⟩
    · rw [hless]
      exact pow_lt_pow_right₀ (by norm_num) (by omega)
    · rw [roundInt_whole hn, roundInt_whole hn']

end Significant

/-! ## The quotient and its remainder -/

section Quotient

variable {X Y : Int}

theorem compareDouble_pos : compareDouble X Y > 0 ↔ X.natAbs < 2 * Y.natAbs := by
  unfold compareDouble compareMagnitude
  rw [Int.natAbs_mul, show Int.natAbs 2 = 2 from rfl]
  split
  · exact iff_of_false (by decide) (by omega)
  · split
    · exact iff_of_true (by decide) (by omega)
    · exact iff_of_false (by decide) (by omega)

theorem compareDouble_neg : compareDouble X Y < 0 ↔ 2 * Y.natAbs < X.natAbs := by
  unfold compareDouble compareMagnitude
  rw [Int.natAbs_mul, show Int.natAbs 2 = 2 from rfl]
  split
  · exact iff_of_true (by decide) (by omega)
  · split
    · exact iff_of_false (by decide) (by omega)
    · exact iff_of_false (by decide) (by omega)

/-- The sign that the quotient gets. -/
def resSign (X Y : Int) : Int := if X.sign ≠ Y.sign then -1 else 1

theorem resSign_cases (hX : X ≠ 0) (hY : Y ≠ 0) :
    resSign X Y = 1 ∧ X.tdiv Y = (X.natAbs / Y.natAbs : Nat) ∧ (X : ℚ) / Y = (X.natAbs : ℚ) / Y.natAbs ∨
      resSign X Y = -1 ∧ X.tdiv Y = -(X.natAbs / Y.natAbs : Nat) ∧ (X : ℚ) / Y = -((X.natAbs : ℚ) / Y.natAbs) := by
  obtain ⟨a, ha⟩ := X.eq_nat_or_neg
  obtain ⟨b, hb⟩ := Y.eq_nat_or_neg
  have hsa : (a : Int).sign = 1 := Int.sign_eq_one_of_pos (by omega)
  have hsb : (b : Int).sign = 1 := Int.sign_eq_one_of_pos (by omega)
  rcases ha with rfl | rfl <;> rcases hb with rfl | rfl
  · left
    simp [resSign, hsa, hsb]
  · right
    simp [resSign, hsa, hsb, div_neg]
  · right
    simp [resSign, hsa, hsb, neg_div]
  · left
    simp [resSign, hsa, hsb]

theorem ratio_eq {a b : Nat} (hb : b ≠ 0) : (a : ℚ) / b = (a / b : Nat) + (a % b : Nat) / (b : ℚ) := by
  have hb' : (b : ℚ) ≠ 0 := Nat.cast_ne_zero.mpr hb
  have hsplit : (a : ℚ) = b * (a / b : Nat) + (a % b : Nat) := by exact_mod_cast (Nat.div_add_mod a b).symm
  rw [eq_comm, ← mul_div_cancel_left₀ ((a / b : Nat) : ℚ) hb', ← add_div, ← hsplit]

/-- The quotient with a remainder, rounded to a whole number. -/
theorem roundInt_div (mode : RoundingMode) (hY : Y ≠ 0) (hre : X.tmod Y ≠ 0) :
    roundInt mode ((X : ℚ) / Y) = if needCarry mode (resSign X Y) (compareDouble Y (X.tmod Y)) (isOdd (X.tdiv Y)) then
      X.tdiv Y + resSign X Y else X.tdiv Y := by
  have hX : X ≠ 0 := by
    rintro rfl
    exact hre (Int.zero_tmod Y)
  have hb : 0 < Y.natAbs := Int.natAbs_pos.mpr hY
  have hb' : (0 : ℚ) < Y.natAbs := Nat.cast_pos.mpr hb
  have hrem : (X.tmod Y).natAbs = X.natAbs % Y.natAbs := Int.natAbs_tmod X Y
  have hf : (0 : ℚ) < (X.natAbs % Y.natAbs : Nat) / (Y.natAbs : ℚ) :=
    div_pos (Nat.cast_pos.mpr (hrem ▸ Int.natAbs_pos.mpr hre)) hb'
  have hf' : ((X.natAbs % Y.natAbs : Nat) : ℚ) / (Y.natAbs : ℚ) < 1 :=
    (div_lt_one hb').mpr (Nat.cast_lt.mpr (Nat.mod_lt _ hb))
  have hgt : compareDouble Y (X.tmod Y) > 0 ↔ 1 / 2 < ((X.natAbs % Y.natAbs : Nat) : ℚ) / (Y.natAbs : ℚ) := by
    rw [compareDouble_pos, hrem, div_lt_div_iff₀ (by norm_num) hb', one_mul, Nat.mul_comm]
    norm_cast
  have hlt : compareDouble Y (X.tmod Y) < 0 ↔ ((X.natAbs % Y.natAbs : Nat) : ℚ) / (Y.natAbs : ℚ) < 1 / 2 := by
    rw [compareDouble_neg, hrem, div_lt_div_iff₀ hb' (by norm_num), one_mul, Nat.mul_comm]
    norm_cast
  have hcarry (sign : Int) : carry mode sign (compareDouble Y (X.tmod Y)) (X.natAbs / Y.natAbs) =
      if needCarry mode sign (compareDouble Y (X.tmod Y)) (isOdd (X.tdiv Y)) then 1 else 0 := by
    unfold carry isOdd
    rw [Int.natAbs_tdiv]
    rfl
  have hratio := ratio_eq (a := X.natAbs) hb.ne'
  rcases resSign_cases hX hY with ⟨hsign, hquotient, hq⟩ | ⟨hsign, hquotient, hq⟩
  · rw [hq, hratio, roundInt_pos mode hf hf' hgt hlt, hcarry, hsign, hquotient]
    split <;> omega
  · rw [hq, hratio, roundInt_neg mode hf hf' hgt hlt, hcarry, hsign, hquotient]
    split <;> omega

end Quotient

namespace Decimal

variable {X Y scale : Int} {mode : RoundingMode}

/-- A remainder is rounded away. -/
theorem divideAndRound_inexact (hY : Y ≠ 0) (hre : X.tmod Y ≠ 0) (expectedScale : Int) :
    divideAndRound X Y scale mode expectedScale false = .ok (ofScaled (roundInt mode ((X : ℚ) / Y)) scale) := by
  have hX : X ≠ 0 := by
    rintro rfl
    exact hre (Int.zero_tmod Y)
  have hsigned : (if resSign X Y ≤ 0 then -((X.tdiv Y).natAbs + 1 : Int) else (X.tdiv Y).natAbs + 1) =
      X.tdiv Y + resSign X Y := by
    rcases resSign_cases hX hY with ⟨hsign, hquotient, -⟩ | ⟨hsign, hquotient, -⟩
    · rw [hsign, hquotient, if_neg (by decide), Int.natAbs_natCast]
    · rw [hsign, hquotient, if_pos (by decide), Int.natAbs_neg, Int.natAbs_natCast, neg_add]
  unfold divideAndRound
  dsimp only
  rw [if_pos (mt Int.sign_eq_zero_iff_zero.mp hre), if_neg (by decide), roundInt_div mode hY hre, ← hsigned]
  exact (apply_ite (fun v => Except.ok (ofScaled v scale)) ..).symm

/-- The remainder is zero. -/
theorem ratio_of_tmod_eq_zero (hY : Y ≠ 0) (hre : X.tmod Y = 0) : (X : ℚ) / Y = (X.tdiv Y : Int) := by
  have hX : X = Y * X.tdiv Y := by
    have hsplit := Int.mul_tdiv_add_tmod X Y
    rw [hre, add_zero] at hsplit
    exact hsplit.symm
  have hY' : (Y : ℚ) ≠ 0 := Int.cast_ne_zero.mpr hY
  rw [div_eq_iff hY', mul_comm]
  exact_mod_cast hX

/-! ## Zeros at the end -/

/-- Zeros are removed down to the scale that is expected, or until there are none. -/
theorem removeZeros_spec {e : Int} (rounds : Nat) {v s : Int} (he : InInt32 e) (hs : InInt32 s)
    (hrounds : s - e ≤ rounds) :
    ∃ v' s', removeZeros e rounds v s = .ok (ofScaled v' s') ∧ InInt32 s' ∧ min e s ≤ s' ∧ s' ≤ s ∧
      v = v' * 10 ^ (s - s').toNat ∧
      (s' ≤ e ∨ v'.natAbs < 10 ∨ ¬ 10 ∣ v') := by
  induction rounds generalizing v s with
  | zero => exact ⟨v, s, rfl, hs, min_le_right e s, le_rfl, by rw [sub_self]; exact (mul_one v).symm, Or.inl (by omega)⟩
  | succ rounds ih =>
    have hkeep (hdone : s ≤ e ∨ v.natAbs < 10 ∨ ¬ 10 ∣ v) :
        ∃ v' s', (Except.ok (ofScaled v s) : Except Exn Decimal) = .ok (ofScaled v' s') ∧
        InInt32 s' ∧ min e s ≤ s' ∧ s' ≤ s ∧ v = v' * 10 ^ (s - s').toNat ∧ (s' ≤ e ∨ v'.natAbs < 10 ∨ ¬ 10 ∣ v') :=
      ⟨v, s, rfl, hs, min_le_right e s, le_rfl, by rw [sub_self]; exact (mul_one v).symm, hdone⟩
    rw [removeZeros]
    by_cases hmore : compareMagnitude v 10 ≥ 0 ∧ s > e
    · rw [if_pos hmore]
      by_cases hodd : isOdd v = true
      · rw [if_pos hodd]
        unfold isOdd at hodd
        rw [decide_eq_true_eq] at hodd
        exact hkeep (Or.inr (Or.inr (by omega)))
      rw [if_neg hodd]
      by_cases hrem : (v % 10).sign ≠ 0
      · rw [if_pos hrem]
        rw [Ne, Int.sign_eq_zero_iff_zero] at hrem
        exact hkeep (Or.inr (Or.inr (by omega)))
      rw [if_neg hrem]
      have hzero : v % 10 = 0 := Int.sign_eq_zero_iff_zero.mp (not_not.mp hrem)
      have hless : InInt32 (s - 1) := ⟨he.1.trans (by omega), le_trans (by omega) hs.2⟩
      rw [checkScaleOverFlow_ok hless, ok_bind]
      obtain ⟨v', s', hok, hs', hlo, hhi, hvalue, hdone⟩ := ih (v := v / 10) hless (by omega)
      refine ⟨v', s', hok, hs', by omega, by omega, ?_, hdone⟩
      rw [show (s - s').toNat = (s - 1 - s').toNat + 1 by omega, pow_succ, ← mul_assoc, ← hvalue]
      omega
    · rw [if_neg hmore]
      refine hkeep ?_
      unfold compareMagnitude at hmore
      rw [show Int.natAbs 10 = 10 from rfl] at hmore
      split at hmore
      · omega
      · split at hmore <;> omega

/-- Without a remainder only zeros are removed. -/
theorem divideAndRound_exact (mode : RoundingMode) {e : Int} (hre : X.tmod Y = 0) (he : InInt32 e)
    (hscale : InInt32 scale) (nd : Bool) :
    ∃ v s, divideAndRound X Y scale mode e nd = .ok (ofScaled v s) ∧ InInt32 s ∧ min e scale ≤ s ∧ s ≤ scale ∧
      X.tdiv Y = v * 10 ^ (scale - s).toNat ∧ (s ≤ e ∨ v.natAbs < 10 ∨ ¬ 10 ∣ v) := by
  unfold divideAndRound
  dsimp only
  rw [if_neg (not_not.mpr (Int.sign_eq_zero_iff_zero.mpr hre))]
  split
  · exact removeZeros_spec _ he hscale (by omega)
  · exact ⟨_, _, rfl, hscale, min_le_right e scale, le_rfl, by rw [sub_self]; exact (mul_one _).symm, Or.inl (by omega)⟩

theorem divideAndRound_degenerate (hre : X.tmod Y ≠ 0) (e : Int) :
    divideAndRound X Y scale mode e true = .error .precisionMismatch := by
  unfold divideAndRound
  dsimp only
  rw [if_pos (mt Int.sign_eq_zero_iff_zero.mp hre), if_pos rfl]
  rfl

/-- The rounded quotient, perhaps with a smaller scale. -/
theorem divideAndRound_spec (mode : RoundingMode) {e : Int} (hY : Y ≠ 0) (he : InInt32 e) (hscale : InInt32 scale) :
    ∃ v s, divideAndRound X Y scale mode e false = .ok (ofScaled v s) ∧ InInt32 s ∧ min e scale ≤ s ∧ s ≤ scale ∧
      roundInt mode ((X : ℚ) / Y) = v * 10 ^ (scale - s).toNat := by
  by_cases hre : X.tmod Y = 0
  · rw [ratio_of_tmod_eq_zero hY hre, roundInt_intCast]
    obtain ⟨v, s, hok, hs, hlo, hhi, hvalue, -⟩ := divideAndRound_exact mode hre he hscale false
    exact ⟨v, s, hok, hs, hlo, hhi, hvalue⟩
  · refine ⟨_, _, divideAndRound_inexact hY hre e, hscale, min_le_right e scale, le_rfl, ?_⟩
    rw [sub_self]
    exact (mul_one _).symm

/-! ## The second rounding -/

theorem toRat_ofScaled (v s : Int) : (ofScaled v s).toRat = v * 10 ^ (-s) := rfl

/-- Only a power of ten has a digit too many, and it is divided by ten. -/
theorem roundWithPrecision_spec (mode : RoundingMode) {v s : Int} {p : Nat} (hs : InInt32 s) (hp : 1 ≤ p)
    (hfits : p + 1 < 2 ^ 49) (hv : v.natAbs ≤ 10 ^ p) :
    (ofScaled v s).roundWithPrecision p mode = .error .overflow ∧ s = INT32_MIN ∨
      ∃ r, (ofScaled v s).roundWithPrecision p mode = .ok r ∧ r.Valid ∧ r.toRat = v * 10 ^ (-s) ∧ s - 1 ≤ r.scale := by
  have hlt : v.natAbs < 10 ^ (p + 1) := hv.trans_lt (Nat.pow_lt_pow_right (by decide) (Nat.lt_succ_self p))
  have hvalid : (ofScaled v s).Valid := valid_ofScaled hs hlt hfits
  have hprecision : (ofScaled v s).precision = numDigits v.natAbs := hvalid.precision
  unfold roundWithPrecision
  rcases hv.lt_or_eq with hless | heq
  · have hdigits := numDigits_le hp hless
    rw [if_pos (Or.inr (by rw [hprecision]; omega))]
    exact Or.inr ⟨_, rfl, hvalid, rfl, by change s - 1 ≤ s; omega⟩
  · have hdigits : numDigits v.natAbs = p + 1 := numDigits_eq heq.ge hlt
    rw [if_neg (by rw [hprecision]; omega), hprecision, hdigits, roundLoop, if_pos (by omega)]
    have hdrop : ((p + 1 : Nat) : Int) - p = (1 : Nat) := by omega
    rw [hdrop]
    by_cases hmin : s = INT32_MIN
    · left
      refine ⟨?_, hmin⟩
      rw [checkScaleOverFlow_error (by change ¬ InInt32 (s - 1); rw [hmin]; decide)]
      rfl
    · right
      have hless : InInt32 (s - 1) := ⟨by have := hs.1; omega, by have := hs.2; omega⟩
      -- the value is a multiple of ten
      obtain ⟨w, hw⟩ : ∃ w : Int, v = w * 10 ∧ w.natAbs = 10 ^ (p - 1) := by
        have hten : 10 ^ p = 10 ^ (p - 1) * 10 := by rw [← pow_succ, Nat.sub_add_cancel hp]
        rcases Int.natAbs_eq v with hpos | hneg
        · exact ⟨(10 ^ (p - 1) : Nat), by omega, Int.natAbs_natCast _⟩
        · exact ⟨-(10 ^ (p - 1) : Nat), by omega, by rw [Int.natAbs_neg, Int.natAbs_natCast]⟩
      have hround : doRoundWithCtx v (1 : Nat) mode = w := by
        unfold doRoundWithCtx
        dsimp only
        rw [tenPowerN_eq, pow_one, hw.1, Int.mul_tmod_left, Int.mul_tdiv_cancel _ (by decide),
          if_neg (fun h => h.1 rfl)]
      have hwlt : w.natAbs < 10 ^ p := hw.2.trans_lt (Nat.pow_lt_pow_right (by decide) (by omega))
      have hwdigits := numDigits_le hp hwlt
      rw [show (ofScaled v s).scale - (1 : Nat) = s - 1 from rfl, checkScaleOverFlow_ok hless, ok_bind,
        show (ofScaled v s).value = v from rfl, hround]
      dsimp only
      rw [calcNumberOfDigits_eq hwlt (by omega), roundLoop, if_neg (by omega)]
      refine ⟨_, rfl, ⟨hless, rfl, rfl⟩, ?_, le_rfl⟩
      rw [toRat_withPrecision, hw.1, neg_sub, zpow_sub₀ (by norm_num), zpow_neg]
      push_cast
      field_simp

/-! ## The scales -/

section Scales

/-- The quotient with the digits that are asked for. -/
theorem quotient_digits {A B : ℚ} {m n p : Int} (hA : 10 ^ (m - 1) ≤ A) (hA' : A < 10 ^ m) (hB : 10 ^ (n - 1) ≤ B)
    (hB' : B < 10 ^ n) :
    10 ^ (p - 1) ≤ A / B * 10 ^ (p + (if B * 10 ^ m < A * 10 ^ n then n - 1 else n) - m) ∧
      A / B * 10 ^ (p + (if B * 10 ^ m < A * 10 ^ n then n - 1 else n) - m) ≤ 10 ^ p := by
  have hten (k : Int) : (0 : ℚ) < 10 ^ k := by positivity
  have hpos : 0 < B := (hten _).trans_le hB
  have hshift (j k l : Int) (c : ℚ) (h : j + k = l) : c * 10 ^ j * 10 ^ k = c * 10 ^ l := by
    rw [mul_assoc, ← zpow_add₀ (by norm_num), h]
  split_ifs with hcmp
  · rw [div_mul_eq_mul_div, le_div_iff₀ hpos, div_le_iff₀ hpos]
    constructor
    · have hscaled := mul_le_mul_of_nonneg_right hcmp.le (hten (p - 1 - m)).le
      rw [hshift m (p - 1 - m) (p - 1) B (by ring), hshift n (p - 1 - m) (p + (n - 1) - m) A (by ring)] at hscaled
      rwa [mul_comm]
    · calc A * 10 ^ (p + (n - 1) - m) ≤ 10 ^ m * 10 ^ (p + (n - 1) - m) := mul_le_mul_of_nonneg_right hA'.le (hten _).le
        _ = 10 ^ p * 10 ^ (n - 1) := by rw [← zpow_add₀ (by norm_num), ← zpow_add₀ (by norm_num)]; congr 1; ring
        _ ≤ 10 ^ p * B := mul_le_mul_of_nonneg_left hB (hten p).le
  · rw [div_mul_eq_mul_div, le_div_iff₀ hpos, div_le_iff₀ hpos]
    constructor
    · calc 10 ^ (p - 1) * B ≤ 10 ^ (p - 1) * 10 ^ n := mul_le_mul_of_nonneg_left hB'.le (hten _).le
        _ = 10 ^ (m - 1) * 10 ^ (p + n - m) := by
          rw [← zpow_add₀ (by norm_num), ← zpow_add₀ (by norm_num)]; congr 1; ring
        _ ≤ A * 10 ^ (p + n - m) := mul_le_mul_of_nonneg_right hA (hten _).le
    · have hscaled := mul_le_mul_of_nonneg_right (not_lt.mp hcmp) (hten (p - m)).le
      rw [hshift m (p - m) p B (by ring), hshift n (p - m) (p + n - m) A (by ring)] at hscaled
      rwa [mul_comm (10 ^ p)]

theorem compareBySamePrecision_pos {x y : Int} {m n : Nat} :
    compareBySamePrecision x m y n > 0 ↔ y.natAbs * 10 ^ m < x.natAbs * 10 ^ n := by
  have hpow (k : Nat) : (10 ^ k : Int).natAbs = 10 ^ k := Int.natAbs_pow 10 k
  unfold compareBySamePrecision
  dsimp only
  split
  · obtain ⟨k, rfl⟩ : ∃ k, n = m + k := ⟨n - m, by omega⟩
    rw [show -((m : Int) - (m + k : Nat)) = k by omega, ailgnBigValue_eq, compareMagnitude_pos, Int.natAbs_mul,
      hpow, pow_add, Nat.mul_left_comm, Nat.mul_comm _ (10 ^ m), Nat.mul_lt_mul_left (Nat.pow_pos (by decide))]
  · obtain ⟨k, rfl⟩ : ∃ k, m = n + k := ⟨m - n, by omega⟩
    rw [show ((n + k : Nat) : Int) - n = k by omega, ailgnBigValue_eq, compareMagnitude_pos, Int.natAbs_mul,
      hpow, pow_add, Nat.mul_left_comm, Nat.mul_comm _ (10 ^ n), Nat.mul_lt_mul_left (Nat.pow_pos (by decide))]

theorem i64_of_le {x : Int} (hlo : -2 ^ 62 ≤ x) (hhi : x ≤ 2 ^ 62) : i64 x = .ok x :=
  i64_ok (by rw [INT64_MIN_eq]; omega) (by rw [INT64_MAX_eq]; omega)

/-- What follows a check that a scale fits. -/
theorem checkScale_congr {β : Type} {x : Int} {f g : Int → Except Exn β} (h : InInt32 x → f x = g x) :
    checkScaleOverFlow x >>= f = checkScaleOverFlow x >>= g := by
  by_cases hx : InInt32 x
  · rw [checkScaleOverFlow_ok hx]
    exact h hx
  · rw [checkScaleOverFlow_error hx]
    rfl

theorem checkScale_overflow {β : Type} {x : Int} {f : Int → Except Exn β} (h : InInt32 x → f x = .error .overflow) :
    checkScaleOverFlow x >>= f = .error .overflow := by
  by_cases hx : InInt32 x
  · rw [checkScaleOverFlow_ok hx]
    exact h hx
  · rw [checkScaleOverFlow_error hx]
    rfl

/-- An `Int64` that is made an `Int32`. -/
theorem i64_checkScale {β : Type} (x : Int) (f : Int → Except Exn β) :
    (i64 x >>= fun c => checkScaleOverFlow c >>= f) = checkScaleOverFlow x >>= f := by
  by_cases hx : INT64_MIN ≤ x ∧ x ≤ INT64_MAX
  · rw [i64_ok hx.1 hx.2, ok_bind]
  · have hnot : ¬ InInt32 x := fun h => hx ⟨le_trans (by decide) h.1, h.2.trans (by decide)⟩
    rw [checkScaleOverFlow_error hnot, i64, if_neg hx]
    rfl

variable {x y : Decimal} {e p : Int}

/-- The power of ten that is left over when the operands have the same number of digits and the quotient `p` of them. -/
def quotientShift (x y : Decimal) (p : Int) : Int :=
  p + (if compareBySamePrecision x.value x.precision y.value y.precision > 0 then y.precision - 1 else y.precision) -
    x.precision

/-- All the scales fit. -/
structure DivFits (x y : Decimal) (e p : Int) : Prop where
  expected : InInt32 e
  scale : InInt32 (e + quotientShift x y p)
  raise : InInt32 (quotientShift x y p)
  lower : quotientShift x y p ≤ 0 → InInt32 (x.precision - p) ∧ InInt32 (-quotientShift x y p)

theorem inInt32_bounds {z : Int} (hz : InInt32 z) : -2 ^ 31 ≤ z ∧ z < 2 ^ 31 := by
  unfold InInt32 at hz
  rw [show INT32_MIN = -2147483648 from rfl, show INT32_MAX = 2147483647 from rfl] at hz
  omega

theorem Valid.precision_pos (hx : x.Valid) : 1 ≤ x.precision := by
  have hpos := numDigits_pos x.value.natAbs
  rw [hx.precision]
  omega

variable (hx : x.Valid) (hy : y.Valid) (hfx : x.precision < 2 ^ 48) (hfy : y.precision < 2 ^ 48) (hp : 1 ≤ p)
include hx hy hfx hfy hp

/-- The checks of `Int64` are covered by those of `Int32`. -/
theorem divDigits_checks (nd : Bool) :
    divDigits x y e p mode nd =
      (checkScaleOverFlow e >>= fun eScl => checkScaleOverFlow (e + quotientShift x y p) >>= fun scl =>
        checkScaleOverFlow (quotientShift x y p) >>= fun raise =>
          if raise > 0 then divideAndRound (ailgnBigValue x.value raise) y.value scl mode eScl nd
          else checkScaleOverFlow (x.precision - p) >>= fun _ =>
            checkScaleOverFlow (-quotientShift x y p) >>= fun raise =>
            divideAndRound x.value (ailgnBigValue y.value raise) scl mode eScl nd) := by
  have hx1 := hx.precision_pos
  have hy1 := hy.precision_pos
  unfold divDigits
  refine checkScale_congr fun he => ?_
  have hrange := inInt32_bounds he
  dsimp only
  obtain ⟨s, hs, hlo, hhi, hchoice⟩ : ∃ s, quotientShift x y p = p + s - x.precision ∧ 0 ≤ s ∧ s < 2 ^ 48 ∧
      (if compareBySamePrecision x.value x.precision y.value y.precision > 0 then i64 (y.precision - 1)
        else return y.precision : Except Exn Int) = .ok s := by
    unfold quotientShift
    split
    · exact ⟨_, rfl, by omega, by omega, i64_of_le (by omega) (by omega)⟩
    · exact ⟨_, rfl, by omega, by omega, rfl⟩
  rw [hchoice, ok_bind, hs, i64_of_le (by omega) (by omega), ok_bind, i64_of_le (by omega) (by omega), ok_bind,
    i64_checkScale, show e + s - x.precision + p = e + (p + s - x.precision) by ring]
  refine checkScale_congr fun hscl => ?_
  have hscl' := inInt32_bounds hscl
  rw [i64_of_le (by omega) (by omega), ok_bind, i64_checkScale]
  refine checkScale_congr fun _ => ?_
  split
  · rfl
  rw [i64_checkScale]
  refine checkScale_congr fun _ => ?_
  rw [i64_checkScale, show x.precision - p - s = -(p + s - x.precision) by ring]

theorem divDigits_eq (mode : RoundingMode) (hy0 : y.value ≠ 0) (hfits : DivFits x y e p) (nd : Bool) :
    ∃ X Y : Int, divDigits x y e p mode nd = divideAndRound X Y (e + quotientShift x y p) mode e nd ∧
      Y ≠ 0 ∧ (X : ℚ) / Y = x.value / y.value * 10 ^ quotientShift x y p := by
  rw [divDigits_checks hx hy hfx hfy hp, checkScaleOverFlow_ok hfits.expected, ok_bind,
    checkScaleOverFlow_ok hfits.scale, ok_bind, checkScaleOverFlow_ok hfits.raise, ok_bind]
  have hlower := hfits.lower
  generalize e + quotientShift x y p = scl
  split_ifs with hpos
  · obtain ⟨k, hk⟩ := Int.eq_ofNat_of_zero_le hpos.le
    rw [hk, ailgnBigValue_eq]
    refine ⟨_, _, rfl, hy0, ?_⟩
    rw [zpow_natCast]
    push_cast
    ring
  · obtain ⟨hless, hneg⟩ := hlower (not_lt.mp hpos)
    rw [checkScaleOverFlow_ok hless, ok_bind, checkScaleOverFlow_ok hneg, ok_bind]
    obtain ⟨k, hk⟩ := Int.eq_ofNat_of_zero_le (show 0 ≤ -quotientShift x y p by omega)
    rw [hk, ailgnBigValue_eq, show quotientShift x y p = -k by omega]
    refine ⟨_, _, rfl, mul_ne_zero hy0 (pow_ne_zero k (by decide)), ?_⟩
    rw [zpow_neg, zpow_natCast]
    push_cast
    rw [div_mul_eq_div_div, div_eq_mul_inv _ ((10 : ℚ) ^ k)]

theorem divDigits_error (mode : RoundingMode) (hfits : ¬ DivFits x y e p) (nd : Bool) :
    divDigits x y e p mode nd = .error .overflow := by
  rw [divDigits_checks hx hy hfx hfy hp]
  refine checkScale_overflow fun he => checkScale_overflow fun hscl => checkScale_overflow fun hraise => ?_
  by_cases hpos : quotientShift x y p > 0
  · exact absurd ⟨he, hscl, hraise, fun hle => absurd hle (not_le.mpr hpos)⟩ hfits
  rw [if_neg hpos]
  refine checkScale_overflow fun hless => checkScale_overflow fun hneg => ?_
  exact absurd ⟨he, hscl, hraise, fun _ => ⟨hless, hneg⟩⟩ hfits

end Scales

/-! ## The quotient -/

section Quotient

variable {x y : Decimal} {e : Int} {p : Nat}

/-- The bounds of a value by its digits. -/
theorem Valid.abs_bounds (hx : x.Valid) (hx0 : x.value ≠ 0) :
    (10 : ℚ) ^ (x.precision - 1) ≤ |(x.value : ℚ)| ∧ |(x.value : ℚ)| < 10 ^ x.precision := by
  have hdigits := numDigits_pos x.value.natAbs
  have habs : |(x.value : ℚ)| = (x.value.natAbs : ℚ) := by
    rw [← Int.cast_abs, Int.abs_eq_natAbs, Int.cast_natCast]
  rw [habs, hx.precision, show (numDigits x.value.natAbs : Int) - 1 = (numDigits x.value.natAbs - 1 : Nat) by omega,
    zpow_natCast, zpow_natCast]
  constructor
  · exact_mod_cast pow_le_of_numDigits (Int.natAbs_ne_zero.mpr hx0)
  · exact_mod_cast lt_pow_numDigits x.value.natAbs

/-- The scaled quotient has the digits that are asked for. -/
theorem scaled_quotient_bounds (hx : x.Valid) (hy : y.Valid) (hx0 : x.value ≠ 0) (hy0 : y.value ≠ 0) (hp : 1 ≤ p) :
    10 ^ (p - 1) ≤ |(x.value : ℚ) / y.value| * 10 ^ quotientShift x y p ∧
      |(x.value : ℚ) / y.value| * 10 ^ quotientShift x y p ≤ 10 ^ p := by
  obtain ⟨hxlo, hxhi⟩ := hx.abs_bounds hx0
  obtain ⟨hylo, hyhi⟩ := hy.abs_bounds hy0
  have hbounds := quotient_digits (p := p) hxlo hxhi hylo hyhi
  have hiff : compareBySamePrecision x.value x.precision y.value y.precision > 0 ↔
      |(y.value : ℚ)| * 10 ^ x.precision < |(x.value : ℚ)| * 10 ^ y.precision := by
    rw [hx.precision, hy.precision, compareBySamePrecision_pos, zpow_natCast, zpow_natCast, ← Int.cast_abs,
      ← Int.cast_abs, Int.abs_eq_natAbs, Int.abs_eq_natAbs, Int.cast_natCast, Int.cast_natCast]
    norm_cast
  simp only [← hiff] at hbounds
  rw [abs_div]
  unfold quotientShift
  rwa [show (p : Int) - 1 = (p - 1 : Nat) by omega, zpow_natCast, zpow_natCast] at hbounds

theorem divCore_spec (mode : RoundingMode) (hx : x.Valid) (hy : y.Valid) (hfx : x.precision < 2 ^ 48)
    (hfy : y.precision < 2 ^ 48) (hx0 : x.value ≠ 0) (hy0 : y.value ≠ 0) (hp : 1 ≤ p) (hfits : DivFits x y e p) :
    divCore x y e p mode false = .error .overflow ∧ min e (e + quotientShift x y p) = INT32_MIN ∨
      ∃ r, divCore x y e p mode false = .ok r ∧ r.Valid ∧
        Rounded mode p ((x.value : ℚ) / y.value * 10 ^ (-e)) r.toRat := by
  obtain ⟨X, Y, hdigits, hY, hratio⟩ := divDigits_eq hx hy hfx hfy (by omega) mode hy0 hfits false
  obtain ⟨hlo, hhi⟩ := scaled_quotient_bounds hx hy hx0 hy0 hp
  obtain ⟨v, s, hround, hs, hslo, hshi, hv⟩ := divideAndRound_spec (X := X) mode hY hfits.expected hfits.scale
  have hraise := inInt32_bounds hfits.raise
  have hlarge : p + 1 < 2 ^ 49 := by
    unfold quotientShift at hraise
    have hy1 := hy.precision_pos
    split at hraise <;> omega
  have hten (k : Int) : (0 : ℚ) < 10 ^ k := by positivity
  have habs : |(X : ℚ) / Y| ≤ ((10 ^ p : Nat) : ℚ) := by
    rw [hratio, abs_mul, abs_of_pos (hten _)]
    push_cast
    exact hhi
  have hle : v.natAbs ≤ 10 ^ p := by
    have hall := roundInt_natAbs_le mode habs
    rw [hv, Int.natAbs_mul] at hall
    exact (Nat.le_mul_of_pos_right _ (Int.natAbs_pos.mpr (pow_ne_zero _ (by decide)))).trans hall
  have hcore : divCore x y e p mode false = (ofScaled v s).roundWithPrecision p mode := by
    unfold divCore
    rw [hdigits, hround, ok_bind]
  rw [hcore]
  rcases roundWithPrecision_spec mode hs hp hlarge hle with ⟨herror, hmin⟩ | ⟨r, hr, hvalid, hvalue, -⟩
  · exact Or.inl ⟨herror, le_antisymm (hmin ▸ hslo) (le_min hfits.expected.1 hfits.scale.1)⟩
  · refine Or.inr ⟨r, hr, hvalid, ?_⟩
    have hshift : (x.value : ℚ) / y.value * 10 ^ (-e) * 10 ^ (e + quotientShift x y p) = (X : ℚ) / Y := by
      rw [hratio, mul_assoc, ← zpow_add₀ (by norm_num), neg_add_cancel_left]
    have hshift' : |(x.value : ℚ) / y.value * 10 ^ (-e)| * 10 ^ (e + quotientShift x y p) =
        |(x.value : ℚ) / y.value| * 10 ^ quotientShift x y p := by
      rw [abs_mul, abs_of_pos (hten _), mul_assoc, ← zpow_add₀ (by norm_num), neg_add_cancel_left]
    have hrounded := Rounded.of_le mode hp (hshift' ▸ hlo) (hshift' ▸ hhi)
    rw [hshift, hv] at hrounded
    have hscale : ((v * 10 ^ (e + quotientShift x y p - s).toNat : Int) : ℚ) * 10 ^ (-(e + quotientShift x y p)) =
        v * 10 ^ (-s) := by
      have hraised := toRat_raise v s (e + quotientShift x y p - s).toNat
      rwa [show s + ((e + quotientShift x y p - s).toNat : Int) = e + quotientShift x y p by omega] at hraised
    rw [hvalue, ← hscale]
    exact hrounded

end Quotient


theorem toRat_div (x y : Decimal) : x.toRat / y.toRat = (x.value : ℚ) / y.value * 10 ^ (-(x.scale - y.scale)) := by
  unfold toRat
  rw [mul_div_mul_comm, ← zpow_sub₀ (by norm_num), neg_sub_neg, neg_sub]

theorem toRat_eq_zero {d : Decimal} (hd : d.value = 0) : d.toRat = 0 := by
  unfold toRat
  rw [hd, Int.cast_zero, zero_mul]

theorem saturateI32_inInt32 (scale : Int) : InInt32 (saturateI32 scale) :=
  ⟨le_max_left _ _, max_le (by decide) (min_le_left _ _)⟩

/-- All scales fit if the digits and the difference of the scales are together small enough. -/
theorem divFits_of_small {x y : Decimal} {p : Nat} (hx : x.Valid) (hy : y.Valid) (hp : 1 ≤ p)
    (hsmall : |x.scale - y.scale| + x.precision + y.precision + p ≤ INT32_MAX) :
    DivFits x y (x.scale - y.scale) p ∧
      min (x.scale - y.scale) (x.scale - y.scale + quotientShift x y p) ≠ INT32_MIN := by
  have hx1 := hx.precision_pos
  have hy1 := hy.precision_pos
  have hMIN : INT32_MIN = -2147483648 := rfl
  have hMAX : INT32_MAX = 2147483647 := rfl
  obtain ⟨hlo, hhi⟩ := abs_le.mp (le_refl |x.scale - y.scale|)
  obtain ⟨s, hs, hs0, hs1⟩ : ∃ s, quotientShift x y p = p + s - x.precision ∧ 0 ≤ s ∧ s ≤ y.precision := by
    unfold quotientShift
    split
    · exact ⟨_, rfl, by omega, by omega⟩
    · exact ⟨_, rfl, by omega, by omega⟩
  rw [hMAX] at hsmall
  refine ⟨⟨?_, ?_, ?_, fun _ => ⟨?_, ?_⟩⟩, ?_⟩
  · exact ⟨by omega, by omega⟩
  · exact ⟨by omega, by omega⟩
  · exact ⟨by omega, by omega⟩
  · exact ⟨by omega, by omega⟩
  · exact ⟨by omega, by omega⟩
  · omega

end Decimal

/-- `divWithPrecision` throws because of a scale, or returns the exact quotient of the decimals rounded once to the
    digits that are asked for. It does not throw if the scales are far enough from the ends of their type. -/
theorem div_with_precision_rounds (x y : Decimal) (hx : x.Valid) (hy : y.Valid) (hfx : x.precision < 2 ^ 48)
    (hfy : y.precision < 2 ^ 48) (hy0 : y.toRat ≠ 0) (p : Nat) (hp : 1 ≤ p) (mode : RoundingMode) :
    (x.divWithPrecision y p mode = .error .overflow ∨
      ∃ r, x.divWithPrecision y p mode = .ok r ∧ r.Valid ∧ Rounded mode p (x.toRat / y.toRat) r.toRat ∧
        ∀ n k : Int, x.toRat / y.toRat = n * 10 ^ k → n.natAbs < 10 ^ p → r.toRat = x.toRat / y.toRat) ∧
      (|x.scale - y.scale| + x.precision + y.precision + p ≤ INT32_MAX → ∃ r, x.divWithPrecision y p mode = .ok r) := by
  have hyv : y.value ≠ 0 := mt Decimal.toRat_eq_zero hy0
  unfold Decimal.divWithPrecision
  rw [if_neg (by omega), if_neg (mt hy.value_eq_zero_iff.mp hyv)]
  dsimp only
  by_cases hxv : x.value = 0
  · rw [if_pos (hx.value_eq_zero_iff.mpr hxv), Decimal.toRat_eq_zero hxv, zero_div]
    have hzero : (Decimal.withPrecision 0 (saturateI32 (x.scale - y.scale)) 1).toRat = 0 := Decimal.toRat_eq_zero rfl
    exact ⟨Or.inr ⟨_, rfl, ⟨Decimal.saturateI32_inInt32 _, rfl, rfl⟩, Or.inl ⟨rfl, hzero⟩, fun _ _ _ _ => hzero⟩,
      fun _ => ⟨_, rfl⟩⟩
  rw [if_neg (mt hx.value_eq_zero_iff.mp hxv), Decimal.toRat_div]
  by_cases hfits : Decimal.DivFits x y (x.scale - y.scale) p
  · rcases Decimal.divCore_spec mode hx hy hfx hfy hxv hyv hp hfits with ⟨herror, hmin⟩ | ⟨r, hr, hvalid, hrounded⟩
    · exact ⟨Or.inl herror, fun hsmall => absurd hmin (Decimal.divFits_of_small hx hy hp hsmall).2⟩
    · exact ⟨Or.inr ⟨r, hr, hvalid, hrounded, fun n k hq hn => hrounded.eq_of_fits hp hq hn⟩, fun _ => ⟨r, hr⟩⟩
  · refine ⟨Or.inl ?_, fun hsmall => absurd (Decimal.divFits_of_small hx hy hp hsmall).1 hfits⟩
    unfold Decimal.divCore
    rw [Decimal.divDigits_error hx hy hfx hfy (by omega) mode hfits]
    rfl

/-- A third, to three digits. -/
theorem div_with_precision_rounds_third :
    ∃ r, (Decimal.withPrecision 1 0 1).divWithPrecision (.withPrecision 3 0 1) (3 : Nat) .HalfUp = .ok r ∧ r.Valid ∧
      Rounded .HalfUp 3 ((Decimal.withPrecision 1 0 1).toRat / (Decimal.withPrecision 3 0 1).toRat) r.toRat := by
  have hone : (Decimal.withPrecision 1 0 1).Valid := ⟨by decide, by decide +kernel, rfl⟩
  have hthree : (Decimal.withPrecision 3 0 1).Valid := ⟨by decide, by decide +kernel, rfl⟩
  have hnonzero : (Decimal.withPrecision 3 0 1).toRat ≠ 0 := by
    rw [Decimal.toRat_withPrecision]
    norm_num
  obtain ⟨hresult, hok⟩ :=
    div_with_precision_rounds _ _ hone hthree (by decide) (by decide) hnonzero 3 (by decide) .HalfUp
  obtain ⟨r, hr⟩ := hok (by decide)
  rcases hresult with herror | ⟨r', hr', hvalid, hrounded, -⟩
  · rw [hr] at herror
    exact nomatch herror
  · exact ⟨r', hr', hvalid, hrounded⟩

/-! ## A dividend with too many digits -/

theorem two_pow_between {k l n : Nat} (hlo : 8 * 10 ^ k ≤ 2 ^ l) (hhi : 2 ^ l ≤ 9 * 10 ^ k) (hn : n + 256 = l * 256) :
    10 ^ (154 + k * 256) ≤ 2 ^ n ∧ 2 ^ n < 10 ^ (168 + k * 256) := by
  have hpow : 2 ^ n * 2 ^ 256 = (2 ^ l) ^ 256 := by rw [← pow_add, hn, pow_mul]
  have hlower : 4 ^ 256 * 10 ^ (k * 256) * 2 ^ 256 ≤ 2 ^ n * 2 ^ 256 := by
    calc 4 ^ 256 * 10 ^ (k * 256) * 2 ^ 256 = 4 ^ 256 * 2 ^ 256 * 10 ^ (k * 256) := Nat.mul_right_comm _ _ _
      _ = (8 * 10 ^ k) ^ 256 := by rw [mul_pow 8, ← pow_mul, ← mul_pow, show 4 * 2 = 8 from rfl]
      _ ≤ (2 ^ l) ^ 256 := Nat.pow_le_pow_left hlo 256
      _ = 2 ^ n * 2 ^ 256 := hpow.symm
  have hupper : 2 ^ n * 2 ^ 256 < 10 ^ (168 + k * 256) * 2 ^ 256 := by
    calc 2 ^ n * 2 ^ 256 = (2 ^ l) ^ 256 := hpow
      _ ≤ (9 * 10 ^ k) ^ 256 := Nat.pow_le_pow_left hhi 256
      _ = 9 ^ 256 * 10 ^ (k * 256) := by rw [mul_pow, ← pow_mul]
      _ < 10 ^ 168 * 2 ^ 256 * 10 ^ (k * 256) := Nat.mul_lt_mul_of_pos_right (by norm_num) (Nat.pow_pos (by decide))
      _ = 10 ^ (168 + k * 256) * 2 ^ 256 := by rw [pow_add, Nat.mul_right_comm]
  constructor
  · calc 10 ^ (154 + k * 256) = 10 ^ 154 * 10 ^ (k * 256) := pow_add _ _ _
      _ ≤ 4 ^ 256 * 10 ^ (k * 256) := Nat.mul_le_mul_right _ (by norm_num)
      _ ≤ 2 ^ n := Nat.le_of_mul_le_mul_right hlower (by norm_num)
  · exact Nat.lt_of_mul_lt_mul_right hupper

section TooLarge

variable {n : Nat}

theorem two_pow_digits (hn : n + 256 = 2 ^ 62) :
    256 * LOG10_2 ≤ numDigits (2 ^ n) + 101 ∧ numDigits (2 ^ n) + 88 ≤ 256 * LOG10_2 := by
  have hL := LOG10_2_eq
  obtain ⟨hlo, hhi⟩ := two_pow_between log_lower log_upper (hn.trans (by norm_num))
  have hle := numDigits_le (by omega) hhi
  have hlt := (Nat.pow_lt_pow_iff_right (by decide)).mp (hlo.trans_lt (lt_pow_numDigits (2 ^ n)))
  omega

/-- Rounding to a multiple of 512. -/
theorem roundFloat_large {m : Nat} (hlo : 2 ^ 61 ≤ m) (hhi : m < 2 ^ 62) :
    roundFloat m =
      if 2 * (m % 512) < 512 ∨ 2 * (m % 512) = 512 ∧ m / 512 % 2 = 0 then m / 512 * 512
      else m / 512 * 512 + 512 := by
  have hlog : m.log2 = 61 := (Nat.log2_eq_iff (by omega)).mpr ⟨hlo, hhi⟩
  unfold roundFloat
  rw [hlog]
  rfl

theorem estimateDigits_high : estimateDigits (2 ^ 62 - 255) = 256 * LOG10_2 := by decide +kernel

theorem estimateDigits_low {b : Nat} (hlo : 2 ^ 62 - 768 < b) (hhi : b < 2 ^ 62 - 256) :
    estimateDigits b = 256 * LOG10_2 - 256 := by
  have hround : roundFloat b = 2 ^ 62 - 512 := by
    rw [roundFloat_large (by omega) (by omega)]
    split <;> omega
  unfold estimateDigits
  rw [hround]
  decide +kernel

/-- The count is the estimate or one less. -/
theorem calcNumberOfDigits_estimate {v : Int} (hv : v ≠ 0) :
    (estimateDigits (bitLen v) : Int) - 1 ≤ calcNumberOfDigits v ∧
      calcNumberOfDigits v ≤ estimateDigits (bitLen v) := by
  unfold calcNumberOfDigits
  rw [if_neg hv]
  dsimp only
  split
  · split <;> omega
  · split <;> omega

theorem bitLen_of_pos {v : Nat} (hv : 0 < v) : bitLen v = v.log2 + 1 := by
  unfold bitLen
  rw [if_neg (by omega), if_neg (by omega), Int.natAbs_natCast]

/-- With the digits that the count is too high by left out, the next count is too low. -/
theorem shortened_digits (hn : n + 256 = 2 ^ 62) {j : Nat} (hj : 1 ≤ j) (hj' : j ≤ 101) :
    calcNumberOfDigits (2 ^ n / 10 ^ j : Nat) ≤ numDigits (2 ^ n) := by
  have hlow : 2 ^ (n - 4 * j) ≤ 2 ^ n / 10 ^ j := by
    rw [Nat.le_div_iff_mul_le (Nat.pow_pos (by decide))]
    calc 2 ^ (n - 4 * j) * 10 ^ j ≤ 2 ^ (n - 4 * j) * (2 ^ 4) ^ j :=
      Nat.mul_le_mul_left _ (Nat.pow_le_pow_left (by decide) j)
      _ = 2 ^ n := by rw [← pow_mul, ← pow_add, Nat.sub_add_cancel (by omega)]
  have hhigh : 2 ^ n / 10 ^ j < 2 ^ (n - 1) := by
    rw [Nat.div_lt_iff_lt_mul (Nat.pow_pos (by decide))]
    calc 2 ^ n = 2 ^ (n - 1) * 2 := by rw [← pow_succ, Nat.sub_add_cancel (by omega)]
      _ < 2 ^ (n - 1) * 10 := Nat.mul_lt_mul_of_pos_left (by decide) (Nat.two_pow_pos _)
      _ ≤ 2 ^ (n - 1) * 10 ^ j := Nat.mul_le_mul_left _ (Nat.le_self_pow (by omega) 10)
  have hpos : 0 < 2 ^ n / 10 ^ j := (Nat.two_pow_pos _).trans_le hlow
  have hlog := (Nat.log2_lt hpos.ne').mpr hhigh
  have hlog' := (Nat.le_log2 hpos.ne').mpr hlow
  obtain ⟨-, hcalc⟩ := calcNumberOfDigits_estimate (v := (2 ^ n / 10 ^ j : Nat)) (by omega)
  rw [bitLen_of_pos hpos, estimateDigits_low (by omega) (by omega)] at hcalc
  obtain ⟨hdigits, -⟩ := two_pow_digits hn
  have hL := LOG10_2_eq
  omega

/-- The quotient by one, before its digits are counted. -/
theorem divDigits_one {v : Int} {digits : Nat} (hcmp : Decimal.compareBySamePrecision v digits 1 1 > 0)
    (hfits : digits < 2 ^ 62) (mode : RoundingMode) :
    Decimal.divDigits (.withPrecision v 0 digits) (.withPrecision 1 0 1) 0 digits mode false = .ok (.ofScaled v 0) := by
  have hzero : checkScaleOverFlow 0 = .ok 0 := by decide
  unfold Decimal.divDigits Decimal.withPrecision
  dsimp only
  rw [hzero, ok_bind, if_pos hcmp, show (1 : Int) - 1 = 0 from rfl, Decimal.i64_of_le (by omega) (by omega), ok_bind,
    Decimal.i64_of_le (by omega) (by omega), ok_bind, Decimal.i64_of_le (by omega) (by omega), ok_bind,
    show (0 : Int) + 0 - digits + digits = 0 by omega, Decimal.i64_of_le (by omega) (by omega), ok_bind, hzero, ok_bind,
    Decimal.i64_of_le (by omega) (by omega), ok_bind, show (digits : Int) + 0 - digits = 0 by omega,
    Decimal.i64_of_le (by omega) (by omega), ok_bind, hzero, ok_bind, if_neg (by decide),
    show (digits : Int) - digits = 0 by omega, Decimal.i64_of_le (by omega) (by omega), ok_bind, hzero, ok_bind,
    show (0 : Int) - 0 = 0 from rfl, Decimal.i64_of_le (by omega) (by omega), ok_bind, hzero, ok_bind]
  unfold Decimal.divideAndRound
  dsimp only
  rw [show ailgnBigValue 1 0 = 1 from rfl, Int.tmod_one, Int.tdiv_one, if_neg (by decide), if_neg (by decide)]
  rfl

/-- Digits are dropped once. -/
theorem roundWithPrecision_once {v j digits : Nat} (hdigits : digits ≠ 0) (hj : 1 ≤ j) (hj' : j ≤ 101)
    (hcount : calcNumberOfDigits v = digits + j) (hnext : calcNumberOfDigits (v / 10 ^ j : Nat) ≤ digits) :
    (Decimal.ofScaled v 0).roundWithPrecision digits .Down = .ok (.ofScaled (v / 10 ^ j : Nat) (-j)) := by
  have hscale : InInt32 (0 - (j : Int)) := ⟨by rw [show INT32_MIN = -2147483648 from rfl]; omega, by
    rw [show INT32_MAX = 2147483647 from rfl]
    omega⟩
  have hround : doRoundWithCtx v j .Down = (v / 10 ^ j : Nat) := by
    unfold doRoundWithCtx
    dsimp only
    rw [if_neg (fun h => nomatch h.2), tenPowerN_eq]
    push_cast
    exact Int.tdiv_eq_ediv_of_nonneg (by omega)
  unfold Decimal.roundWithPrecision Decimal.ofScaled
  dsimp only
  rw [hcount, if_neg (by omega), show (digits : Int) + j - digits = j by omega, Decimal.roundLoop, if_pos (by omega),
    checkScaleOverFlow_ok hscale, ok_bind, hround]
  dsimp only
  rw [Decimal.roundLoop, if_neg (by omega), zero_sub]
  rfl

end TooLarge

/-- Two to the power of `2 ^ 62 - 256`, divided by one with all its digits: the digits are counted wrong, and some of
    them are dropped. -/
theorem div_with_precision_drops_digits :
    ∃ (x y : Decimal) (p : Nat) (r : Decimal), x.Valid ∧ y.Valid ∧ y.toRat = 1 ∧ 1 ≤ p ∧ (p : Int) ≤ INT64_MAX ∧
      x.divWithPrecision y p .Down = .ok r ∧ ¬ Rounded .Down p (x.toRat / y.toRat) r.toRat := by
  obtain ⟨n, hn⟩ : ∃ n : Nat, n + 256 = 2 ^ 62 := ⟨2 ^ 62 - 256, by omega⟩
  have hL := LOG10_2_eq
  have hpos := Nat.two_pow_pos n
  have hnotdvd (j : Nat) (hj : 1 ≤ j) : ¬ 10 ^ j ∣ 2 ^ n := by
    intro hdvd
    have hfive : 5 ∣ 2 ^ n := (Dvd.intro_left 2 rfl).trans ((dvd_pow_self 10 (by omega)).trans hdvd)
    exact absurd (Nat.Prime.dvd_of_dvd_pow (by norm_num) hfive) (by decide)
  -- the count is too high, and the next one is not
  obtain ⟨hcalc, hcalc'⟩ := calcNumberOfDigits_estimate (v := (2 ^ n : Nat)) (by omega)
  rw [bitLen_of_pos hpos, Nat.log2_two_pow, show n + 1 = 2 ^ 62 - 255 by omega, estimateDigits_high] at hcalc hcalc'
  obtain ⟨hhigh, hlow⟩ := two_pow_digits hn
  obtain ⟨j, hj⟩ : ∃ j : Nat, calcNumberOfDigits (2 ^ n : Nat) = numDigits (2 ^ n) + j :=
    ⟨(calcNumberOfDigits (2 ^ n : Nat) - numDigits (2 ^ n)).toNat, by omega⟩
  have hshort := shortened_digits hn (j := j) (by omega) (by omega)
  have hdrop := roundWithPrecision_once (by omega) (by omega) (by omega) hj hshort
  have hdigits := pow_le_of_numDigits hpos.ne'
  have hfits := lt_pow_numDigits (2 ^ n)
  have hj1 : 1 ≤ j := by omega
  have hpositive : 1 < numDigits (2 ^ n) := by omega
  have hbound : numDigits (2 ^ n) < 2 ^ 62 := by omega
  generalize 2 ^ n = v at hpos hnotdvd hdrop hdigits hfits hbound hpositive
  have hcmp : Decimal.compareBySamePrecision v (numDigits v) 1 1 > 0 := by
    have hne : 10 ^ (numDigits v - 1) ≠ v := fun heq => hnotdvd _ (by omega) (dvd_of_eq heq)
    refine Decimal.compareBySamePrecision_pos (n := 1) |>.mpr ?_
    rw [Int.natAbs_one, one_mul, Int.natAbs_natCast, pow_one, ← Nat.sub_add_cancel hpositive.le, pow_succ]
    exact Nat.mul_lt_mul_of_pos_right (lt_of_le_of_ne hdigits hne) (by decide)
  have hzero : InInt32 0 := by decide
  have hone : (Decimal.withPrecision 1 0 1).toRat = 1 := by rw [Decimal.toRat_withPrecision]; norm_num
  have hx : (Decimal.withPrecision v 0 (numDigits v)).toRat = v := by rw [Decimal.toRat_withPrecision]; norm_num
  refine ⟨.withPrecision v 0 (numDigits v), .withPrecision 1 0 1, numDigits v, .ofScaled (v / 10 ^ j : Nat) (-j),
    ⟨hzero, rfl, rfl⟩, ⟨hzero, by decide +kernel, rfl⟩, hone, hpositive.le, by rw [INT64_MAX_eq]; omega, ?_, ?_⟩
  · unfold Decimal.divWithPrecision
    rw [if_neg (by omega), if_neg (by decide)]
    dsimp only
    have hsign : (Decimal.withPrecision v 0 (numDigits v)).sign ≠ 0 :=
      mt Int.sign_eq_zero_iff_zero.mp (Int.natCast_ne_zero.mpr hpos.ne')
    rw [if_neg hsign]
    unfold Decimal.divCore
    rw [show (Decimal.withPrecision v 0 (numDigits v)).scale - (Decimal.withPrecision 1 0 1).scale = 0 from rfl,
      divDigits_one hcmp hbound, ok_bind]
    exact hdrop
  · -- the exact quotient has the digits that are asked for, and the result is a multiple of a power of ten
    rw [hone, div_one, hx]
    intro hrounded
    have heq := hrounded.eq_of_fits hpositive.le (n := v) (k := 0) (by norm_num) (by rwa [Int.natAbs_natCast])
    rw [Decimal.toRat_ofScaled, neg_neg, zpow_natCast] at heq
    have hmultiple : v / 10 ^ j * 10 ^ j = v := by exact_mod_cast heq
    exact hnotdvd j hj1 (Dvd.intro_left _ hmultiple)

end CangjieRuntime.StdMath
