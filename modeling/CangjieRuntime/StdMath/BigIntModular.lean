import CangjieRuntime.StdCore.Numbers

/-!
# `StdMath.BigIntModular` — modular power of `BigInt`

A `BigInt` is the integer it denotes and a limb array the natural number it denotes: the limb routines `mul`, `mod`,
`isNoLessThan`, `divBy2Insitu` and `normalize` are the operations on numbers that they compute.
-/

namespace CangjieRuntime.StdMath

open CangjieRuntime.StdCore

/-- The sign flag; zero is not negative. -/
def negSign (x : Int) : Bool := decide (x < 0)

/-- The number with a magnitude and a sign flag. -/
def ofAbs (abs : Nat) (neg : Bool) : Int := if neg then -abs else abs

/-! ## The power -/

/-- A magnitude is reduced only when it is larger than the modulus. -/
def modOption (abs : Nat) : Option Int → Nat
  | some m => if m.natAbs < abs then abs % m.natAbs else abs
  | none => abs

/-- The loop of `modPow`: square and multiply, from the lowest bit of the exponent. -/
def modPowLoop (m : Option Int) (result power e : Nat) : Nat :=
  if e = 0 then result
  else modPowLoop m (if e % 2 = 1 then modOption (result * power) m else result) (modOption (power * power) m) (e / 2)

/-- `this.modPow(n, m: m)`. -/
def modPow (this n : Int) (m : Option Int) : Except Exn Int :=
  if n < 0 then .error .illegalArgument
  else if m = some 0 then .error .arithmetic
  else if m.map Int.natAbs = some 1 then .ok 0
  else if n = 0 then .ok 1
  else if this = 0 then .ok 0
  else
    let isNeg := n % 2 = 1 ∧ negSign this
    if this.natAbs = 1 then .ok (ofAbs 1 isNeg)
    else .ok (ofAbs (modPowLoop m 1 (modOption this.natAbs m) n.natAbs) isNeg)

/-! ## The loop -/

theorem modOption_modEq (a : Nat) (m : Int) : modOption a (some m) ≡ a [MOD m.natAbs] := by
  rw [modOption]
  split
  · exact Nat.mod_modEq a m.natAbs
  · rfl

theorem modOption_le (a : Nat) {m : Int} (hm : m ≠ 0) : modOption a (some m) ≤ m.natAbs := by
  rw [modOption]
  split
  · exact (Nat.mod_lt a (Int.natAbs_pos.2 hm)).le
  · omega

/-- A power by halving the exponent. -/
theorem mul_pow_halved (r p e : Nat) : (if e % 2 = 1 then r * p else r) * (p * p) ^ (e / 2) = r * p ^ e := by
  rw [← pow_two, ← pow_mul]
  conv_rhs => rw [← Nat.div_add_mod e 2, pow_add]
  rcases Nat.mod_two_eq_zero_or_one e with he | he
  · rw [he, if_neg zero_ne_one, pow_zero, mul_one]
  · rw [he, if_pos rfl, pow_one]
    ring

/-- Without a modulus the loop computes the power. -/
theorem modPowLoop_none (r p e : Nat) : modPowLoop none r p e = r * p ^ e := by
  induction e using Nat.strong_induction_on generalizing r p with
  | _ e ih =>
    rw [modPowLoop]
    split
    · next he => rw [he, pow_zero, mul_one]
    · next he =>
      rw [ih (e / 2) (by omega)]
      exact mul_pow_halved r p e

section Modulus

variable {m : Int} (hm : 2 ≤ m.natAbs)
include hm

/-- A product is the modulus after `modOption` only if it was before. -/
theorem modOption_eq_modulus (a : Nat) : modOption a (some m) = m.natAbs ↔ a = m.natAbs := by
  rw [modOption]
  split
  · have := Nat.mod_lt a (show 0 < m.natAbs by omega)
    omega
  · rfl

omit hm in
theorem eq_residue {a b M : Nat} (hle : a ≤ M) (hmod : a ≡ b [MOD M]) : a = b % M ∨ a = M ∧ b % M = 0 := by
  rcases hle.lt_or_eq with hlt | rfl
  · exact .inl ((Nat.mod_eq_of_lt hlt).symm.trans hmod)
  · exact .inr ⟨rfl, Eq.trans (Nat.ModEq.symm hmod) (Nat.mod_self a)⟩

omit hm in
/-- No number is both a unit and nilpotent. -/
theorem unit_not_nilpotent {x i j M : Nat} (hM : 2 ≤ M) (hi : i ≠ 0) (hunit : x ^ i % M = 1) : x ^ j % M ≠ 0 := by
  intro hzero
  have hgcd := Nat.ModEq.gcd_eq (m := M) (hunit.trans (Nat.mod_eq_of_lt hM).symm)
  rw [Nat.gcd_one_left] at hgcd
  have hcop := ((Nat.coprime_pow_left_iff (Nat.pos_of_ne_zero hi) x M).mp hgcd).pow_left j
  have := hcop.symm.eq_one_of_dvd (Nat.dvd_of_mod_eq_zero hzero)
  omega

/-- The power that is squared in each round. -/
def squared (m : Int) (p : Nat) : Nat := modOption (p * p) (some m)

omit hm in
theorem squared_modEq (p k : Nat) : (squared m)^[k] p ≡ p ^ 2 ^ k [MOD m.natAbs] := by
  induction k with
  | zero => rw [pow_zero, pow_one]; rfl
  | succ k ih =>
    rw [Function.iterate_succ_apply', pow_succ 2 k, pow_mul, pow_two]
    exact (modOption_modEq _ m).trans (ih.mul ih)

theorem squared_le {p : Nat} (hp : p ≤ m.natAbs) (k : Nat) : (squared m)^[k] p ≤ m.natAbs := by
  cases k with
  | zero => exact hp
  | succ k =>
    rw [Function.iterate_succ_apply']
    exact modOption_le _ (by omega)

/-- The last round of the loop is that of the highest bit of the exponent: it multiplies the product of the rounds
    before with the power that belongs to this bit. -/
theorem modPowLoop_last {r p e : Nat} (hr : r ≤ m.natAbs) (he : e ≠ 0) :
    ∃ r' ≤ m.natAbs, r' ≡ r * p ^ (e - 2 ^ Nat.log 2 e) [MOD m.natAbs] ∧
      modPowLoop (some m) r p e = modOption (r' * (squared m)^[Nat.log 2 e] p) (some m) := by
  induction e using Nat.strong_induction_on generalizing r p with
  | _ e ih =>
    rw [modPowLoop, if_neg he]
    by_cases hone : e = 1
    · subst hone
      refine ⟨r, hr, by simp [Nat.ModEq.refl], ?_⟩
      rw [if_pos rfl, modPowLoop, if_pos rfl, Nat.log_one_right]
      rfl
    · have hr' : (if e % 2 = 1 then modOption (r * p) (some m) else r) ≤ m.natAbs := by
        split
        · exact modOption_le _ (by omega)
        · exact hr
      have hres : (if e % 2 = 1 then modOption (r * p) (some m) else r) ≡
          if e % 2 = 1 then r * p else r [MOD m.natAbs] := by
        split
        · exact modOption_modEq _ m
        · rfl
      obtain ⟨r', hle, hmod, hloop⟩ := ih (e / 2) (by omega) hr' (p := squared m p) (by omega)
      have hlog : Nat.log 2 e = Nat.log 2 (e / 2) + 1 := Nat.log_of_one_lt_of_le (by decide) (by omega)
      have htop : 2 ^ Nat.log 2 (e / 2) ≤ e / 2 := Nat.pow_log_le_self 2 (by omega)
      refine ⟨r', hle, hmod.trans ?_, ?_⟩
      · have hexp : (e - 2 ^ Nat.log 2 e) / 2 = e / 2 - 2 ^ Nat.log 2 (e / 2) ∧ (e - 2 ^ Nat.log 2 e) % 2 = e % 2 := by
          rw [hlog, pow_succ]
          omega
        rw [← mul_pow_halved r p, hexp.1, hexp.2]
        exact hres.mul ((modOption_modEq (p * p) m).pow _)
      · rw [hlog, Function.iterate_succ_apply]
        exact hloop

omit hm

/-- The product of the last round of `modPow` is the modulus `M`, for the magnitude `x` and the exponent `n`: it is that
    of the remainders for the highest bit of `n` and for the rest; or there is no rest, and the power is itself the
    modulus. -/
def HitsModulus (x M n : Nat) : Prop :=
  x ^ (n - 2 ^ Nat.log 2 n) % M * (x ^ 2 ^ Nat.log 2 n % M) = M ∨
    n = 2 ^ Nat.log 2 n ∧ (Nat.log 2 n = 0 ∧ x = M ∨ 0 < Nat.log 2 n ∧ (x ^ 2 ^ (Nat.log 2 n - 1) % M) ^ 2 = M)

/-- The power for the highest bit is the modulus if it was at the start, or if it is the square of a remainder. -/
theorem squared_eq_modulus (hm : 2 ≤ m.natAbs) (x k : Nat) :
    (squared m)^[k] (modOption x (some m)) = m.natAbs ↔
      k = 0 ∧ x = m.natAbs ∨ 0 < k ∧ (x ^ 2 ^ (k - 1) % m.natAbs) ^ 2 = m.natAbs := by
  cases k with
  | zero =>
    rw [Function.iterate_zero, id, modOption_eq_modulus hm]
    simp
  | succ k =>
    have hmod := (squared_modEq (m := m) (modOption x (some m)) k).trans ((modOption_modEq x m).pow _)
    have hle := squared_le hm (modOption_le x (m := m) (by omega)) k
    rw [Function.iterate_succ_apply', squared, modOption_eq_modulus hm, Nat.add_sub_cancel, pow_two]
    rcases eq_residue hle hmod with heq | ⟨heq, hzero⟩
    · rw [heq]
      simp
    · -- neither the square of the modulus nor that of zero is the modulus
      rw [heq, hzero]
      constructor
      · intro hsquare
        nlinarith
      · rintro (⟨hnone, -⟩ | ⟨-, hsquare⟩)
        · exact absurd hnone (Nat.succ_ne_zero k)
        · omega

theorem modPowLoop_eq_modulus (hm : 2 ≤ m.natAbs) (x : Nat) {e : Nat} (he : e ≠ 0) :
    modPowLoop (some m) 1 (modOption x (some m)) e = m.natAbs ↔ HitsModulus x m.natAbs e := by
  obtain ⟨r, hr, hrmod, hloop⟩ := modPowLoop_last hm (r := 1) (p := modOption x (some m)) (by omega) he
  have hp := squared_le hm (modOption_le x (m := m) (by omega)) (Nat.log 2 e)
  have hpmod := (squared_modEq (m := m) (modOption x (some m)) (Nat.log 2 e)).trans ((modOption_modEq x m).pow _)
  have htop := squared_eq_modulus hm x (Nat.log 2 e)
  have hself : 2 ^ Nat.log 2 e ≤ e := Nat.pow_log_le_self 2 he
  rw [one_mul] at hrmod
  replace hrmod := hrmod.trans ((modOption_modEq x m).pow _)
  rw [hloop, modOption_eq_modulus hm, HitsModulus, ← htop]
  rcases eq_residue hr hrmod with hres | ⟨hr', hzero⟩
  · rcases eq_residue hp hpmod with hpres | ⟨hp', hpzero⟩
    · have hlt := Nat.mod_lt (x ^ 2 ^ Nat.log 2 e) (show 0 < m.natAbs by omega)
      rw [← hres, ← hpres]
      rw [← hpres] at hlt
      exact ⟨.inl, fun h => h.resolve_right fun hand => hlt.ne hand.2⟩
    · -- the power is the modulus: the rest has to be one
      rw [hp', hpzero, mul_zero]
      constructor
      · intro hprod
        have hone : r = 1 := Nat.eq_of_mul_eq_mul_right (show 0 < m.natAbs by omega) (hprod.trans (one_mul _).symm)
        by_contra hnot
        exact unit_not_nilpotent hm (show e - 2 ^ Nat.log 2 e ≠ 0 by omega) (hres.symm.trans hone) hpzero
      · rintro (hfalse | ⟨hpow, -⟩)
        · omega
        · rw [hres, ← hpow, Nat.sub_self, pow_zero, Nat.mod_eq_of_lt hm, one_mul]
  · -- the rest is the modulus: the power would have to be one
    rw [hr', hzero, zero_mul]
    constructor
    · intro hprod
      have hone := Nat.eq_of_mul_eq_mul_left (show 0 < m.natAbs by omega) (hprod.trans (mul_one _).symm)
      rw [hone] at hpmod
      have hunit : x ^ 2 ^ Nat.log 2 e % m.natAbs = 1 := Eq.trans (Nat.ModEq.symm hpmod) (Nat.mod_eq_of_lt hm)
      exact absurd hzero (unit_not_nilpotent hm (by positivity) hunit)
    · rintro (hfalse | ⟨hpow, -⟩)
      · omega
      · rw [← hpow, Nat.sub_self, pow_zero, Nat.mod_eq_of_lt hm] at hzero
        omega

/-- The loop computes a number congruent to the power, not larger than the modulus. -/
theorem modPowLoop_some (hm : 2 ≤ m.natAbs) (x : Nat) {e : Nat} (he : e ≠ 0) :
    modPowLoop (some m) 1 (modOption x (some m)) e ≡ x ^ e [MOD m.natAbs] ∧
      modPowLoop (some m) 1 (modOption x (some m)) e ≤ m.natAbs := by
  obtain ⟨r, -, hrmod, hloop⟩ := modPowLoop_last hm (r := 1) (p := modOption x (some m)) (by omega) he
  rw [hloop]
  refine ⟨(modOption_modEq _ m).trans ((hrmod.mul (squared_modEq _ _)).trans ?_), modOption_le _ (by omega)⟩
  rw [one_mul, ← pow_add, Nat.sub_add_cancel (Nat.pow_log_le_self 2 he)]
  exact (modOption_modEq x m).pow e

end Modulus

/-! ## Signs -/

theorem pow_eq_ofAbs (x : Int) (n : Nat) : x ^ n = ofAbs (x.natAbs ^ n) ((n : Int) % 2 = 1 ∧ negSign x) := by
  rcases lt_or_ge x 0 with hx | hx
  · have habs : (x.natAbs : Int) = -x := by omega
    rcases Nat.even_or_odd n with hn | hn
    · have hmod : (n : Int) % 2 = 0 := by exact_mod_cast Nat.even_iff.1 hn
      rw [ofAbs, if_neg (by simp [hmod]), Nat.cast_pow, habs, hn.neg_pow]
    · have hmod : (n : Int) % 2 = 1 := by exact_mod_cast Nat.odd_iff.1 hn
      rw [ofAbs, if_pos (by simp [hmod, negSign, hx]), Nat.cast_pow, habs, hn.neg_pow, neg_neg]
  · rw [ofAbs, if_neg (by simp [negSign, hx]), Nat.cast_pow, Int.natAbs_of_nonneg hx]

theorem natAbs_ofAbs (a : Nat) (neg : Bool) : (ofAbs a neg).natAbs = a := by
  cases neg <;> simp [ofAbs]

theorem ofAbs_tmod (a : Nat) (neg : Bool) (m : Int) : (ofAbs a neg).tmod m = ofAbs (a % m.natAbs) neg := by
  have hnat : (a : Int).tmod m = (a % m.natAbs : Nat) := by
    rw [Int.tmod_eq_emod_of_nonneg (Int.natCast_nonneg a), ← Int.emod_abs, Int.abs_eq_natAbs, Int.natCast_emod]
  cases neg with
  | false => exact hnat
  | true => exact (Int.neg_tmod ..).trans (congrArg _ hnat)

section Runs

variable {x : Int} {k : Nat} {m : Option Int} (hm : m ≠ some 0) (hm1 : m.map Int.natAbs ≠ some 1)

include hm hm1

/-- The early returns are the powers of magnitude at most one. -/
theorem modPow_early (h : k = 0 ∨ x.natAbs ≤ 1) : modPow x k m = .ok (x ^ k) := by
  rw [modPow, if_neg (by omega), if_neg hm, if_neg hm1]
  by_cases hk : k = 0
  · rw [if_pos (by omega), hk, pow_zero]
  rw [if_neg (by omega)]
  by_cases hx : x = 0
  · rw [if_pos hx, hx, zero_pow hk]
  have habs : x.natAbs = 1 := by omega
  rw [if_neg hx, pow_eq_ofAbs, habs, one_pow]
  rfl

/-- Past them the magnitude comes from the loop and the sign from the lowest bit of the exponent. -/
theorem modPow_late (hk : k ≠ 0) (hx : 1 < x.natAbs) :
    modPow x k m = .ok (ofAbs (modPowLoop m 1 (modOption x.natAbs m) k) ((k : Int) % 2 = 1 ∧ negSign x)) := by
  rw [modPow, if_neg (by omega), if_neg hm, if_neg hm1, if_neg (by omega), if_neg (by omega)]
  exact if_neg (by omega)

end Runs

/-- The early returns come before any product. -/
theorem not_hitsModulus {x M k : Nat} (hM : 2 ≤ M) (h : k = 0 ∨ x ≤ 1) : ¬ HitsModulus x M k := by
  unfold HitsModulus
  rcases h with rfl | h
  · have hlt := Nat.mod_lt x (show 0 < M by omega)
    simp [Nat.mod_eq_of_lt hM]
    omega
  · have hle : ∀ j, x ^ j % M ≤ 1 := fun j => (Nat.mod_le _ _).trans (pow_le_one₀ (Nat.zero_le x) h)
    rintro (hprod | ⟨-, ⟨-, rfl⟩ | ⟨-, hsquare⟩⟩)
    · have := Nat.mul_le_mul (hle (k - 2 ^ Nat.log 2 k)) (hle (2 ^ Nat.log 2 k))
      omega
    · omega
    · have := Nat.pow_le_pow_left (hle (2 ^ (Nat.log 2 k - 1))) 2
      omega

/-- **`modPow` computes the power, and its truncated remainder if and only if** the product of the last round does not
    hit the modulus (or the modulus is one). -/
theorem modPow_remainder (x n : Int) (hn : 0 ≤ n) :
    modPow x n none = .ok (x ^ n.toNat) ∧
      ∀ m : Int, m ≠ 0 → (modPow x n (some m) = .ok ((x ^ n.toNat).tmod m) ↔
        ¬ (|m| ≠ 1 ∧ HitsModulus x.natAbs m.natAbs n.toNat)) := by
  obtain ⟨k, rfl⟩ := Int.eq_ofNat_of_zero_le hn
  rw [Int.toNat_natCast]
  refine ⟨?_, fun m hm => ?_⟩
  · by_cases h : k = 0 ∨ x.natAbs ≤ 1
    · exact modPow_early (by simp) (by simp) h
    · rw [modPow_late (by simp) (by simp) (by omega) (by omega), modPowLoop_none, modOption, one_mul, pow_eq_ofAbs]
  · rw [Int.abs_eq_natAbs]
    by_cases hm1 : m.natAbs = 1
    · have hunit : m ∣ x ^ k := (Int.isUnit_iff_natAbs_eq.2 hm1).dvd
      rw [Int.tmod_eq_zero_of_dvd hunit, modPow, if_neg (by omega), if_neg (by simpa using hm), if_pos (by simp [hm1])]
      exact iff_of_true rfl fun hand => hand.1 (by rw [hm1]; rfl)
    have hm2 : 2 ≤ m.natAbs := by omega
    have hm0 : some m ≠ some 0 := by simpa using hm
    have hm1' : (some m).map Int.natAbs ≠ some 1 := by simpa using hm1
    have hone : ((m.natAbs : Int) ≠ 1) := by omega
    by_cases h : k = 0 ∨ x.natAbs ≤ 1
    · have hsmall : x.natAbs ^ k ≤ 1 := by
        rcases h with h | h
        · rw [h, pow_zero]
        · exact pow_le_one₀ (Nat.zero_le _) h
      rw [modPow_early hm0 hm1' h, pow_eq_ofAbs, ofAbs_tmod, Nat.mod_eq_of_lt (by omega)]
      exact iff_of_true rfl fun hand => not_hitsModulus hm2 h hand.2
    · obtain ⟨hmod, hle⟩ := modPowLoop_some hm2 x.natAbs (show k ≠ 0 by omega)
      rw [modPow_late hm0 hm1' (by omega) (by omega), pow_eq_ofAbs, ofAbs_tmod, ← hmod,
        ← modPowLoop_eq_modulus hm2 _ (by omega)]
      generalize modPowLoop (some m) 1 (modOption x.natAbs (some m)) k = v at hle
      -- at most the modulus, so the remainder unless it is the modulus itself
      constructor
      · rintro heq ⟨-, rfl⟩
        have habs := congrArg Int.natAbs (Except.ok.inj heq)
        rw [natAbs_ofAbs, natAbs_ofAbs, Nat.mod_self] at habs
        omega
      · intro hne
        rw [Nat.mod_eq_of_lt (lt_of_le_of_ne hle fun heq => hne ⟨hone, heq⟩)]

/-- The third power of `-7` modulo `-5`: the sign is that of the power. -/
theorem modPow_remainder_sample : modPow (-7) 3 (some (-5)) = .ok (((-7 : Int) ^ 3).tmod (-5)) :=
  ((modPow_remainder (-7) 3 (by decide)).2 (-5) (by decide)).mpr (by unfold HitsModulus; decide)

/-- A power that hits the modulus is not reduced. -/
theorem modPow_keeps_modulus : modPow 5 1 (some 5) = .ok 5 ∧ ((5 : Int) ^ 1).tmod 5 = 0 := by
  refine ⟨?_, rfl⟩
  rw [modPow, modPowLoop, modPowLoop]
  rfl

end CangjieRuntime.StdMath
