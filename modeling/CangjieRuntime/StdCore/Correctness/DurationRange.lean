import CangjieRuntime.StdCore.Duration

/-!
# `StdCore.Correctness.DurationRange` — addition, subtraction and scaling are exact

A duration stands for a number of nanoseconds, and each number between those of `Min` and `Max` for one duration. `*`
returns the exact product or throws; `+` and `-` check the range on the seconds alone, and throw for some results that
would fit.
-/

namespace CangjieRuntime.StdCore

namespace Duration

/-- What the constructors guarantee. -/
structure WellFormed (d : Duration) : Prop where
  sec_min : INT64_MIN ≤ d.sec
  sec_max : d.sec ≤ INT64_MAX
  ns_lt : d.ns < DUR_BASE

/-- All nanoseconds of a duration. -/
def total (d : Duration) : Int := d.sec * NS_PER_SEC + d.ns

/-- The duration of a number of nanoseconds. -/
def ofTotal (n : Int) : Duration := ⟨n / NS_PER_SEC, (n % NS_PER_SEC).toNat⟩

/-- The number of nanoseconds is one of a duration. -/
def InRange (n : Int) : Prop := Min.total ≤ n ∧ n ≤ Max.total

instance (n : Int) : Decidable (InRange n) := inferInstanceAs (Decidable (Min.total ≤ n ∧ n ≤ Max.total))

/-- The duration of an exact result, or the exception. -/
def exact (n : Int) : Except Exn Duration := if InRange n then .ok (ofTotal n) else .error .arithmetic

variable {a b d : Duration} {n sec left right : Int}

theorem inRange_iff : InRange n ↔ INT64_MIN * NS_PER_SEC ≤ n ∧ n < (INT64_MAX + 1) * NS_PER_SEC := by
  unfold InRange
  rw [show Min.total = INT64_MIN * NS_PER_SEC from rfl, show Max.total = (INT64_MAX + 1) * NS_PER_SEC - 1 from rfl]
  omega

theorem eq_ofTotal {ns : Nat} (hn : n = sec * NS_PER_SEC + ns) (hns : ns < DUR_BASE) : ofTotal n = ⟨sec, ns⟩ := by
  rw [NS_PER_SEC_eq] at hn
  rw [DUR_BASE_eq] at hns
  unfold ofTotal
  rw [NS_PER_SEC_eq, Duration.mk.injEq]
  omega

theorem WellFormed.eq_ofTotal (hd : d.WellFormed) : ofTotal d.total = d := Duration.eq_ofTotal rfl hd.ns_lt

theorem WellFormed.inRange (hd : d.WellFormed) : InRange d.total := by
  obtain ⟨hmin, hmax, hlt⟩ := hd
  rw [DUR_BASE_eq] at hlt
  rw [inRange_iff, NS_PER_SEC_eq]
  unfold total
  rw [NS_PER_SEC_eq]
  omega

theorem total_ofTotal (n : Int) : (ofTotal n).total = n := by
  unfold ofTotal total
  rw [NS_PER_SEC_eq]
  dsimp only
  omega

theorem InRange.wellFormed (hn : InRange n) : (ofTotal n).WellFormed := by
  have hMIN := INT64_MIN_eq
  have hMAX := INT64_MAX_eq
  rw [inRange_iff, NS_PER_SEC_eq] at hn
  unfold ofTotal
  rw [NS_PER_SEC_eq]
  refine ⟨?_, ?_, ?_⟩
  · dsimp only
    omega
  · dsimp only
    omega
  · rw [DUR_BASE_eq]
    dsimp only
    omega

theorem exact_of_inRange (hn : InRange n) : exact n = .ok (ofTotal n) := if_pos hn

theorem exact_of_not (hn : ¬ InRange n) : exact n = .error .arithmetic := if_neg hn

/-- `of` normalises nanoseconds that are off by at most a second. -/
theorem of_spec {sec ns : Int} (hmin : INT64_MIN ≤ sec) (hmax : sec ≤ INT64_MAX) (hlo : -NS_PER_SEC ≤ ns)
    (hhi : ns < 2 * NS_PER_SEC) :
    of sec ns = exact (sec * NS_PER_SEC + ns) := by
  have hrange := @inRange_iff (sec * NS_PER_SEC + ns)
  have hMIN := INT64_MIN_eq
  have hMAX := INT64_MAX_eq
  have hBASE := DUR_BASE_eq
  rw [NS_PER_SEC_eq] at hlo hhi hrange
  unfold of
  rw [NS_PER_SEC_eq]
  split_ifs with hneg hsec hlarge hsec
  · rw [exact_of_not (by rw [hrange]; omega)]
    rfl
  · -- a second is borrowed
    obtain ⟨m, hm⟩ := Int.eq_ofNat_of_zero_le (a := ns + 1000000000) (by omega)
    have heq : ofTotal (sec * 1000000000 + ns) = ⟨sec - 1, m⟩ := eq_ofTotal (by rw [NS_PER_SEC_eq]; omega) (by omega)
    rw [exact_of_inRange (hrange.mpr (by omega)), heq]
    refine bind_ok (i64_ok (by omega) (by omega)) (bind_ok (i64_ok (by omega) (by omega)) ?_)
    exact bind_ok (toU32_ok hm (by omega)) rfl
  · rw [exact_of_not (by rw [hrange]; omega)]
    rfl
  · -- a second is carried
    obtain ⟨m, hm⟩ := Int.eq_ofNat_of_zero_le (a := ns - 1000000000) (by omega)
    have heq : ofTotal (sec * 1000000000 + ns) = ⟨sec + 1, m⟩ := eq_ofTotal (by rw [NS_PER_SEC_eq]; omega) (by omega)
    rw [exact_of_inRange (hrange.mpr (by omega)), heq]
    refine bind_ok (i64_ok (by omega) (by omega)) (bind_ok (i64_ok (by omega) (by omega)) ?_)
    exact bind_ok (toU32_ok hm (by omega)) rfl
  · obtain ⟨m, hm⟩ := Int.eq_ofNat_of_zero_le (a := ns) (by omega)
    have heq : ofTotal (sec * 1000000000 + ns) = ⟨sec, m⟩ := eq_ofTotal (by rw [NS_PER_SEC_eq]; omega) (by omega)
    rw [exact_of_inRange (hrange.mpr (by omega)), heq]
    exact bind_ok (toU32_ok hm (by omega)) rfl

/-! ## `+` and `-` -/

theorem isSumOverflow_iff (hl : INT64_MIN ≤ left ∧ left ≤ INT64_MAX) :
    isSumOverflow left right = true ↔ ¬ (INT64_MIN ≤ left + right ∧ left + right ≤ INT64_MAX) := by
  unfold isSumOverflow
  rw [Bool.or_eq_true, Bool.and_eq_true, Bool.and_eq_true]
  simp only [decide_eq_true_eq]
  omega

/-- `+` is exact, unless the seconds alone are one below the range and the nanoseconds carry. -/
theorem add_spec (ha : a.WellFormed) (hb : b.WellFormed)
    (hcarry : ¬ (a.sec + b.sec = INT64_MIN - 1 ∧ DUR_BASE ≤ a.ns + b.ns)) :
    a.add b = exact (a.total + b.total) := by
  have htotal : a.total + b.total = (a.sec + b.sec) * NS_PER_SEC + (a.ns + b.ns : Int) := by
    unfold total
    ring
  have hMIN := INT64_MIN_eq
  have hMAX := INT64_MAX_eq
  have hBASE := DUR_BASE_eq
  obtain ⟨hamin, hamax, hans⟩ := ha
  obtain ⟨hbmin, hbmax, hbns⟩ := hb
  unfold add
  by_cases hzero : b.sec = 0 ∧ b.ns = 0
  · have hbtotal : a.total + b.total = a.total := by
      unfold total
      rw [hzero.1, hzero.2]
      simp
    rw [if_pos hzero, hbtotal, exact_of_inRange (WellFormed.inRange ⟨hamin, hamax, hans⟩),
      WellFormed.eq_ofTotal ⟨hamin, hamax, hans⟩]
    rfl
  rw [if_neg hzero]
  split_ifs with hover
  · have hout := (isSumOverflow_iff ⟨hamin, hamax⟩).mp hover
    rw [exact_of_not]
    · rfl
    · rw [htotal, inRange_iff, NS_PER_SEC_eq]
      omega
  · have hin := not_not.mp (mt (isSumOverflow_iff ⟨hamin, hamax⟩).mpr hover)
    rw [htotal]
    refine bind_ok (i64_ok hin.1 hin.2) (bind_ok (i64_ok (by omega) (by omega)) ?_)
    exact of_spec hin.1 hin.2 (by rw [NS_PER_SEC_eq]; omega) (by rw [NS_PER_SEC_eq]; omega)

/-- At the carry `+` throws although the sum fits. -/
theorem add_carry_throws (ha : a.WellFormed) (hb : b.WellFormed) (hsec : a.sec + b.sec = INT64_MIN - 1)
    (hns : DUR_BASE ≤ a.ns + b.ns) : InRange (a.total + b.total) ∧ a.add b = .error .arithmetic := by
  have hMIN := INT64_MIN_eq
  have hMAX := INT64_MAX_eq
  have hBASE := DUR_BASE_eq
  obtain ⟨hamin, hamax, hans⟩ := ha
  obtain ⟨hbmin, hbmax, hbns⟩ := hb
  constructor
  · rw [inRange_iff]
    unfold total
    rw [NS_PER_SEC_eq]
    omega
  · unfold add
    rw [if_neg (by omega), if_pos ((isSumOverflow_iff ⟨hamin, hamax⟩).mpr (by omega))]
    rfl

theorem checkSub_iff : checkSub left right = true ↔
    0 < right ∧ left - right ≤ INT64_MIN ∨ right < 0 ∧ INT64_MAX ≤ left - right := by
  unfold checkSub
  rw [Bool.or_eq_true, Bool.and_eq_true, Bool.and_eq_true]
  simp only [decide_eq_true_eq]
  omega

/-- The difference of the seconds is at the end of the range, and the nanoseconds keep or bring the result inside: here
    `-` throws although the result fits. -/
def AtEdge (a b : Duration) : Prop :=
  (0 < b.sec ∧ a.sec - b.sec = INT64_MIN ∧ b.ns ≤ a.ns) ∨ (b.sec < 0 ∧ a.sec - b.sec = INT64_MAX) ∨
    (b.sec < 0 ∧ a.sec - b.sec = INT64_MAX + 1 ∧ a.ns < b.ns)

/-- `-` is exact, unless the difference is at the edge. -/
theorem sub_spec (ha : a.WellFormed) (hb : b.WellFormed) (hedge : ¬ AtEdge a b) :
    a.sub b = exact (a.total - b.total) := by
  have htotal : a.total - b.total = (a.sec - b.sec) * NS_PER_SEC + (a.ns - b.ns : Int) := by
    unfold total
    ring
  have hMIN := INT64_MIN_eq
  have hMAX := INT64_MAX_eq
  have hBASE := DUR_BASE_eq
  have hinRange := ha.inRange
  have heq := ha.eq_ofTotal
  obtain ⟨hamin, hamax, hans⟩ := ha
  obtain ⟨hbmin, hbmax, hbns⟩ := hb
  unfold AtEdge at hedge
  unfold sub
  by_cases hzero : b.sec = 0 ∧ b.ns = 0
  · have hbtotal : a.total - b.total = a.total := by
      unfold total
      rw [hzero.1, hzero.2]
      simp
    rw [if_pos hzero, hbtotal, exact_of_inRange hinRange, heq]
    rfl
  rw [if_neg hzero]
  split_ifs with hover
  · have hout := checkSub_iff.mp hover
    rw [exact_of_not]
    · rfl
    · rw [htotal, inRange_iff, NS_PER_SEC_eq]
      omega
  · have hin := mt checkSub_iff.mpr hover
    rw [htotal]
    refine bind_ok (i64_ok (by omega) (by omega)) (bind_ok (i64_ok (by omega) (by omega)) ?_)
    exact of_spec (by omega) (by omega) (by rw [NS_PER_SEC_eq]; omega) (by rw [NS_PER_SEC_eq]; omega)

/-- At the edge `-` throws although the difference fits. -/
theorem AtEdge.throws (ha : a.WellFormed) (hb : b.WellFormed) (hedge : AtEdge a b) :
    InRange (a.total - b.total) ∧ a.sub b = .error .arithmetic := by
  have hMIN := INT64_MIN_eq
  have hMAX := INT64_MAX_eq
  have hBASE := DUR_BASE_eq
  obtain ⟨hamin, hamax, hans⟩ := ha
  obtain ⟨hbmin, hbmax, hbns⟩ := hb
  unfold AtEdge at hedge
  constructor
  · rw [inRange_iff]
    unfold total
    rw [NS_PER_SEC_eq]
    omega
  · unfold sub
    rw [if_neg (by omega), if_pos (checkSub_iff.mpr (by omega))]
    rfl

/-- An operation that throws although the result fits is not exact. -/
theorem ne_exact {res : Except Exn Duration} (hthrows : InRange n ∧ res = .error .arithmetic) : res ≠ exact n := by
  rw [hthrows.2, exact_of_inRange hthrows.1]
  intro heq
  cases heq

/-! ## Operands without signs -/

theorem gt_Zero_iff (hd : d.WellFormed) : d.gt Zero = true ↔ 0 < d.total := by
  obtain ⟨-, -, hns⟩ := hd
  rw [DUR_BASE_eq] at hns
  unfold gt total
  rw [NS_PER_SEC_eq, show Zero.sec = 0 from rfl, show Zero.ns = 0 from rfl]
  split
  · rw [decide_eq_true_eq]
    omega
  · split
    · rw [iff_false_left Bool.false_ne_true]
      omega
    · rw [iff_true_left rfl]
      omega

/-- The operands are the absolute values. -/
theorem toUnsignedNum_eq (hd : d.WellFormed) {r : Int} (hmin : INT64_MIN ≤ r) (hmax : r ≤ INT64_MAX) :
    d.toUnsignedNum r = (d.total.natAbs / DUR_BASE, d.total.natAbs % DUR_BASE, r.natAbs,
      if 0 < d.total then decide (0 < r) else !decide (0 < r)) := by
  have hgt := gt_Zero_iff hd
  have hMIN := INT64_MIN_eq
  have hMAX := INT64_MAX_eq
  obtain ⟨hdmin, hdmax, hns⟩ := hd
  have htotal : d.total = d.sec * 1000000000 + d.ns := rfl
  rw [DUR_BASE_eq] at hns ⊢
  have hr : (if decide (0 < r) = true then wrapU64 r else wrapU64 (-r)) = r.natAbs := by
    by_cases hpos : 0 < r
    · rw [if_pos (decide_eq_true hpos), wrapU64_eq (n := r.natAbs) (by omega) (by omega)]
    · rw [if_neg (mt of_decide_eq_true hpos), wrapU64_eq (n := r.natAbs) (by omega) (by omega)]
  unfold toUnsignedNum toSameSign
  dsimp only
  rw [hr, NS_PER_SEC_eq]
  by_cases hpos : 0 < d.total
  · have hnot : ¬ (d.sec < 0 ∧ 0 < d.ns) := by omega
    rw [if_pos (hgt.mpr hpos), if_neg hnot, if_pos hpos]
    rw [wrapU64_eq (n := d.total.natAbs / 1000000000) (by omega) (by omega),
      wrapU32_eq (n := d.total.natAbs % 1000000000) (by omega) (by omega)]
  · rw [if_neg (mt hgt.mp hpos), if_neg hpos]
    split_ifs with hneg
    · rw [wrapU64_eq (n := d.total.natAbs / 1000000000) (by omega) (by omega),
        wrapU32_eq (n := d.total.natAbs % 1000000000) (by omega) (by omega)]
    · rw [wrapU64_eq (n := d.total.natAbs / 1000000000) (by omega) (by omega),
        wrapU32_eq (n := d.total.natAbs % 1000000000) (by omega) (by omega)]

end Duration

/-! ## `*` -/

section Scaling

open Duration

variable {secs nanos multiplier : Nat} {sign : Bool} {seconds ns left right : Nat} {d : Duration}

/-- An unsigned result with its sign. -/
def signed (sign : Bool) (n : Nat) : Int := if sign then n else -n

theorem signed_true (n : Nat) : signed true n = n := rfl

theorem signed_false (n : Nat) : signed false n = -n := rfl

theorem ofUnsigned_spec {seconds nanoseconds : Nat} (hsec : (seconds : Int) ≤ INT64_MAX) (hns : nanoseconds < DUR_BASE)
    (sign : Bool) :
    ofUnsigned seconds nanoseconds sign = .ok (ofTotal (signed sign (seconds * DUR_BASE + nanoseconds))) := by
  have hMIN := INT64_MIN_eq
  have hMAX := INT64_MAX_eq
  have hcast : ((seconds * DUR_BASE + nanoseconds : Nat) : Int) = seconds * NS_PER_SEC + nanoseconds := by
    push_cast
    rfl
  have hsmall := hns
  rw [DUR_BASE_eq] at hsmall
  unfold ofUnsigned signed
  cases sign with
  | true =>
    rw [if_pos rfl, if_pos rfl, hcast, eq_ofTotal rfl hns]
    exact bind_ok (i64_ok (by omega) hsec) rfl
  | false =>
    rw [if_neg Bool.false_ne_true, if_neg Bool.false_ne_true]
    refine bind_ok (i64_ok (by omega) hsec) (bind_ok (i64_ok (by omega) (by omega)) ?_)
    have hneg : -((seconds * DUR_BASE + nanoseconds : Nat) : Int) =
        -(seconds : Int) * NS_PER_SEC + -(nanoseconds : Int) := by
      rw [hcast]
      ring
    rw [of_spec (by omega) (by omega) (by rw [NS_PER_SEC_eq]; omega) (by rw [NS_PER_SEC_eq]; omega), hneg]
    refine exact_of_inRange (inRange_iff.mpr ?_)
    rw [NS_PER_SEC_eq]
    omega

theorem u32MulU64_spec (hns : nanos < DUR_BASE) (hm : multiplier ≤ SECS_MAX) :
    u32MulU64 nanos multiplier = .ok (nanos * multiplier / DUR_BASE, nanos * multiplier % DUR_BASE) := by
  have hBASE := DUR_BASE_eq
  have hpos : 0 < DUR_BASE := by omega
  have hlow : nanos * (multiplier % DUR_BASE) ≤ DUR_BASE * DUR_BASE := Nat.mul_le_mul hns.le (Nat.mod_lt _ hpos).le
  have hhigh : multiplier / DUR_BASE * nanos ≤ multiplier :=
    (Nat.mul_le_mul_left _ hns.le).trans (Nat.div_mul_le_self multiplier DUR_BASE)
  have hsplit : nanos * multiplier = nanos * (multiplier % DUR_BASE) + multiplier / DUR_BASE * nanos * DUR_BASE := by
    have hmod := Nat.mod_add_div multiplier DUR_BASE
    calc nanos * multiplier = nanos * (multiplier % DUR_BASE + DUR_BASE * (multiplier / DUR_BASE)) := by rw [hmod]
      _ = nanos * (multiplier % DUR_BASE) + multiplier / DUR_BASE * nanos * DUR_BASE := by ring
  rw [hsplit, Nat.add_mul_div_right _ _ hpos, Nat.add_mul_mod_self_right, Nat.add_comm (_ / _)]
  rw [show DUR_BASE * DUR_BASE = 1000000000000000000 from rfl] at hlow
  rw [show SECS_MAX = 0x8000000000000000 from rfl] at hm
  refine bind_ok (u64_ok (by omega)) (bind_ok (u64_ok (by omega)) (bind_ok (u64_ok ?_) rfl))
  rw [hBASE] at hlow hhigh ⊢
  omega

theorem inRange_signed (sign : Bool) (n : Nat) :
    Duration.InRange (signed sign n) ↔ if sign then n < SECS_MAX * DUR_BASE else n ≤ SECS_MAX * DUR_BASE := by
  rw [inRange_iff, show SECS_MAX * DUR_BASE = 9223372036854775808000000000 from rfl,
    show INT64_MIN * NS_PER_SEC = -9223372036854775808000000000 from rfl,
    show (INT64_MAX + 1) * NS_PER_SEC = 9223372036854775808000000000 from rfl]
  unfold signed
  cases sign with
  | true =>
    rw [if_pos rfl, if_pos rfl]
    omega
  | false =>
    rw [if_neg Bool.false_ne_true, if_neg Bool.false_ne_true]
    omega

/-- A product of more than `SECS_MAX` seconds is out of range. -/
theorem not_inRange_signed (hlt : SECS_MAX < seconds) : ¬ Duration.InRange (signed sign (seconds * DUR_BASE + ns)) := by
  rw [inRange_signed, show SECS_MAX * DUR_BASE = 9223372036854775808000000000 from rfl]
  rw [show SECS_MAX = 9223372036854775808 from rfl] at hlt
  rw [DUR_BASE_eq]
  cases sign with
  | true =>
    rw [if_pos rfl]
    omega
  | false =>
    rw [if_neg Bool.false_ne_true]
    omega

/-- A product of less than `SECS_MAX` seconds is in range. -/
theorem inRange_signed_of_lt (hlt : seconds < SECS_MAX) (hns : ns < DUR_BASE) :
    Duration.InRange (signed sign (seconds * DUR_BASE + ns)) := by
  rw [inRange_signed, show SECS_MAX * DUR_BASE = 9223372036854775808000000000 from rfl]
  rw [show SECS_MAX = 9223372036854775808 from rfl] at hlt
  rw [DUR_BASE_eq] at hns ⊢
  cases sign with
  | true =>
    rw [if_pos rfl]
    omega
  | false =>
    rw [if_neg Bool.false_ne_true]
    omega

theorem tryU64Mul_spec (hleft : left ≠ 0) :
    tryU64Mul left right = .ok (if left * right ≤ SECS_MAX then some (left * right) else none) := by
  have hiff : right > SECS_MAX / left ↔ ¬ left * right ≤ SECS_MAX := by
    rw [gt_iff_lt, Nat.div_lt_iff_lt_mul (Nat.pos_of_ne_zero hleft), Nat.mul_comm, Nat.not_le]
  unfold tryU64Mul
  rw [if_neg hleft]
  by_cases hle : left * right ≤ SECS_MAX
  · rw [if_neg (mt hiff.mp (not_not.mpr hle)), if_pos hle]
    exact bind_ok (u64_ok (hle.trans_lt (by decide))) rfl
  · rw [if_pos (hiff.mpr hle), if_neg hle]
    rfl

theorem tryU64Add_spec (hleft : left ≤ SECS_MAX) :
    tryU64Add left right = .ok (if left + right ≤ SECS_MAX then some (left + right) else none) := by
  refine bind_ok (monus_ok hleft) ?_
  by_cases hle : left + right ≤ SECS_MAX
  · rw [if_neg (by omega), if_pos hle]
    exact bind_ok (u64_ok (hle.trans_lt (by decide))) rfl
  · rw [if_pos (by omega), if_neg hle]
    rfl

/-- The product of unsigned operands, with its sign: a duration if it is in range. -/
theorem durMul_spec (hns : nanos < DUR_BASE) (hm : multiplier ≤ SECS_MAX) (sign : Bool) :
    durMul secs nanos multiplier sign =
      .ok (if Duration.InRange (signed sign ((secs * DUR_BASE + nanos) * multiplier)) then
        some (ofTotal (signed sign ((secs * DUR_BASE + nanos) * multiplier))) else none) := by
  have hlt : nanos * multiplier % DUR_BASE < DUR_BASE := Nat.mod_lt _ (by decide)
  have hproduct : (secs * DUR_BASE + nanos) * multiplier =
      (secs * multiplier + nanos * multiplier / DUR_BASE) * DUR_BASE + nanos * multiplier % DUR_BASE := by
    have hmod := Nat.div_add_mod' (nanos * multiplier) DUR_BASE
    calc (secs * DUR_BASE + nanos) * multiplier = secs * multiplier * DUR_BASE + nanos * multiplier := by ring
      _ = secs * multiplier * DUR_BASE +
        (nanos * multiplier / DUR_BASE * DUR_BASE + nanos * multiplier % DUR_BASE) := by rw [hmod]
      _ = _ := by ring
  have hcount : nanos * multiplier / DUR_BASE < SECS_MAX := by
    refine (Nat.div_lt_iff_lt_mul (by decide)).mpr ?_
    rw [DUR_BASE_eq] at hns ⊢
    rw [show SECS_MAX = 9223372036854775808 from rfl] at hm ⊢
    nlinarith
  have hsmall {seconds : Nat} (hsec : seconds < SECS_MAX) : (seconds : Int) ≤ INT64_MAX := by
    rw [show SECS_MAX = 9223372036854775808 from rfl] at hsec
    rw [INT64_MAX_eq]
    omega
  rw [hproduct]
  refine bind_ok (u32MulU64_spec hns hm) ?_
  dsimp only
  by_cases hzero : secs = 0
  · rw [if_pos hzero, hzero, Nat.zero_mul, Nat.zero_add, if_pos (inRange_signed_of_lt hcount hlt)]
    exact bind_ok (ofUnsigned_spec (hsmall hcount) hlt sign) rfl
  rw [if_neg hzero]
  refine bind_ok (tryU64Mul_spec hzero) ?_
  by_cases hmul : secs * multiplier ≤ SECS_MAX
  · rw [if_pos hmul]
    refine bind_ok (tryU64Add_spec hmul) ?_
    by_cases hadd : secs * multiplier + nanos * multiplier / DUR_BASE ≤ SECS_MAX
    · rw [if_pos hadd]
      dsimp only
      by_cases hmax : secs * multiplier + nanos * multiplier / DUR_BASE = SECS_MAX
      · -- only the least duration has this many seconds
        rw [if_pos hmax, hmax]
        cases sign with
        | true =>
          rw [if_neg (fun hand => Bool.false_ne_true hand.1), if_neg]
          · rfl
          · rw [inRange_signed, if_pos rfl]
            exact Nat.not_lt.mpr (Nat.le_add_right _ _)
        | false =>
          by_cases hnone : nanos * multiplier % DUR_BASE = 0
          · rw [if_pos ⟨rfl, hnone⟩, hnone, Nat.add_zero, if_pos ((inRange_signed false _).mpr (Nat.le_refl _))]
            rfl
          · rw [if_neg (fun hand => hnone hand.2), if_neg]
            · rfl
            · rw [inRange_signed, if_neg Bool.false_ne_true]
              exact Nat.not_le.mpr (Nat.lt_add_of_pos_right (Nat.pos_of_ne_zero hnone))
      · have hlt' := Nat.lt_of_le_of_ne hadd hmax
        rw [if_neg hmax, if_pos (inRange_signed_of_lt hlt' hlt)]
        exact bind_ok (ofUnsigned_spec (hsmall hlt') hlt sign) rfl
    · rw [if_neg hadd, if_neg (not_inRange_signed (Nat.lt_of_not_le hadd))]
      rfl
  · rw [if_neg hmul, if_neg (not_inRange_signed ((Nat.lt_of_not_le hmul).trans_le (Nat.le_add_right _ _)))]
    rfl

theorem signed_natAbs_mul (x r : Int) (hx : x ≠ 0) (hr : r ≠ 0) :
    signed (if 0 < x then decide (0 < r) else !decide (0 < r)) (x.natAbs * r.natAbs) = x * r := by
  unfold signed
  rw [Nat.cast_mul]
  rcases lt_or_gt_of_ne hx with hx | hx <;> rcases lt_or_gt_of_ne hr with hr | hr
  · rw [if_neg (not_lt_of_gt hx), decide_eq_false (not_lt_of_gt hr), Int.ofNat_natAbs_of_nonpos hx.le,
      Int.ofNat_natAbs_of_nonpos hr.le]
    simp
  · rw [if_neg (not_lt_of_gt hx), decide_eq_true hr, Int.ofNat_natAbs_of_nonpos hx.le, Int.natAbs_of_nonneg hr.le]
    simp
  · rw [if_pos hx, decide_eq_false (not_lt_of_gt hr), Int.natAbs_of_nonneg hx.le, Int.ofNat_natAbs_of_nonpos hr.le]
    simp
  · rw [if_pos hx, decide_eq_true hr, Int.natAbs_of_nonneg hx.le, Int.natAbs_of_nonneg hr.le]
    simp

/-- The negation of a duration other than the least one. -/
theorem of_neg_spec (hd : d.WellFormed) (hmin : d ≠ Duration.Min) :
    (do of (← i64 (-d.toSameSign.1)) (← i64 (-d.toSameSign.2)) : Except Exn Duration) = Duration.exact (-d.total) := by
  have hMIN := INT64_MIN_eq
  have hMAX := INT64_MAX_eq
  obtain ⟨hdmin, hdmax, hns⟩ := hd
  rw [DUR_BASE_eq] at hns
  have htotal : d.total = d.sec * 1000000000 + d.ns := rfl
  have hnot : ¬ (d.sec = INT64_MIN ∧ d.ns = 0) := by
    intro hand
    obtain ⟨sec, ns⟩ := d
    obtain ⟨rfl, rfl⟩ := hand
    exact hmin rfl
  have hparts : -d.total = -d.toSameSign.1 * NS_PER_SEC + -d.toSameSign.2 ∧ INT64_MIN ≤ -d.toSameSign.1 ∧
      -d.toSameSign.1 ≤ INT64_MAX ∧
      -NS_PER_SEC ≤ -d.toSameSign.2 ∧ -d.toSameSign.2 < 2 * NS_PER_SEC := by
    unfold toSameSign
    rw [NS_PER_SEC_eq]
    split
    · dsimp only
      omega
    · dsimp only
      omega
  obtain ⟨heq, hlo, hhi, hnlo, hnhi⟩ := hparts
  rw [NS_PER_SEC_eq] at hnlo hnhi
  refine bind_ok (i64_ok hlo hhi) (bind_ok (i64_ok (by omega) (by omega)) ?_)
  rw [of_spec hlo hhi (by rw [NS_PER_SEC_eq]; omega) (by rw [NS_PER_SEC_eq]; omega), heq]

/-- `*` is exact. -/
theorem mul_spec (hd : d.WellFormed) {r : Int} (hrmin : INT64_MIN ≤ r) (hrmax : r ≤ INT64_MAX) :
    d.mul r = Duration.exact (d.total * r) := by
  unfold Duration.mul
  by_cases hzero : d = Duration.Zero ∨ r = 0
  · have hnone : d.total * r = 0 := by
      rcases hzero with rfl | rfl
      · rw [show Duration.Zero.total = 0 from rfl, Int.zero_mul]
      · rw [Int.mul_zero]
    rw [if_pos hzero, hnone]
    rfl
  rw [if_neg hzero]
  by_cases hneg : r = -1 ∧ d ≠ Duration.Min
  · rw [if_pos hneg, hneg.1, Int.mul_neg, Int.mul_one]
    exact of_neg_spec hd hneg.2
  rw [if_neg hneg]
  by_cases hone : r = 1
  · rw [if_pos hone, hone, Int.mul_one, exact_of_inRange hd.inRange, hd.eq_ofTotal]
    rfl
  rw [if_neg hone]
  by_cases hend : d = Duration.Min ∨ d = Duration.Max
  · rw [if_pos hend, exact_of_not]
    · rfl
    · rw [not_or] at hzero
      rw [inRange_iff, show INT64_MIN * NS_PER_SEC = -9223372036854775808000000000 from rfl,
        show (INT64_MAX + 1) * NS_PER_SEC = 9223372036854775808000000000 from rfl]
      rcases hend with rfl | rfl
      · rw [show Duration.Min.total = -9223372036854775808000000000 from rfl]
        omega
      · have hr : r ≠ -1 := fun heq => hneg ⟨heq, by decide⟩
        rw [show Duration.Max.total = 9223372036854775807999999999 from rfl]
        omega
  rw [if_neg hend, toUnsignedNum_eq hd hrmin hrmax]
  rw [not_or] at hzero
  have hne : d.total ≠ 0 := by
    intro htotal
    refine hzero.1 ?_
    rw [← hd.eq_ofTotal, htotal]
    rfl
  have hm : r.natAbs ≤ SECS_MAX := by
    rw [INT64_MIN_eq] at hrmin
    rw [INT64_MAX_eq] at hrmax
    rw [show SECS_MAX = 9223372036854775808 from rfl]
    omega
  refine bind_ok (durMul_spec (Nat.mod_lt _ (by decide)) hm _) ?_
  rw [Nat.div_add_mod', signed_natAbs_mul d.total r hne hzero.2]
  split_ifs with hin
  · rw [exact_of_inRange hin]
    rfl
  · rw [exact_of_not hin]
    rfl

end Scaling

/-! ## Sums, differences and products -/

open Duration in
/-- `+`, `-` and `*` return the duration of the exact result if there is one, and throw an `ArithmeticException` if
    there is none: `+` and `-` do so for all operands but those at the ends of the range, `*` for all. -/
theorem duration_arithmetic_exact (a b : Duration) (ha : a.WellFormed) (hb : b.WellFormed) (r : Int)
    (hrmin : INT64_MIN ≤ r) (hrmax : r ≤ INT64_MAX) :
    (a.add b = Duration.exact (a.total + b.total) ↔ ¬ (a.sec + b.sec = INT64_MIN - 1 ∧ DUR_BASE ≤ a.ns + b.ns)) ∧
      (a.sub b = Duration.exact (a.total - b.total) ↔ ¬ AtEdge a b) ∧ a.mul r = Duration.exact (a.total * r) := by
  refine ⟨⟨fun hexact hcarry => ?_, add_spec ha hb⟩, ⟨fun hexact hedge => ?_, sub_spec ha hb⟩, mul_spec ha hrmin hrmax⟩
  · exact ne_exact (add_carry_throws ha hb hcarry.1 hcarry.2) hexact
  · exact ne_exact (hedge.throws ha hb) hexact

/-- With the greatest duration: a sum, a difference that is out of range, and a product that is. -/
theorem duration_arithmetic_exact_sample :
    Duration.Max.add ⟨-1, 1⟩ = .ok ⟨INT64_MAX, 0⟩ ∧ Duration.Max.sub ⟨-1, 1⟩ = .error .arithmetic ∧
      Duration.Max.mul 2 = .error .arithmetic := by
  have hmax : Duration.Max.WellFormed := ⟨by decide, by decide, by decide⟩
  have hneg : (⟨-1, 1⟩ : Duration).WellFormed := ⟨by decide, by decide, by decide⟩
  have hexact := duration_arithmetic_exact Duration.Max ⟨-1, 1⟩ hmax hneg 2 (by decide) (by decide)
  refine ⟨(hexact.1.mpr (by decide)).trans (by decide), (hexact.2.1.mpr ?_).trans (by decide),
    hexact.2.2.trans (by decide)⟩
  unfold Duration.AtEdge
  decide

/-- Sums and differences that fit, and for which `+` and `-` throw. -/
theorem duration_throws_in_range :
    (Duration.InRange ((⟨INT64_MIN, 500000000⟩ : Duration).total + (⟨-1, 500000000⟩ : Duration).total) ∧
      (⟨INT64_MIN, 500000000⟩ : Duration).add ⟨-1, 500000000⟩ = .error .arithmetic) ∧
    (Duration.InRange ((⟨-1, 0⟩ : Duration).total - (⟨INT64_MAX, 0⟩ : Duration).total) ∧
      (⟨-1, 0⟩ : Duration).sub ⟨INT64_MAX, 0⟩ = .error .arithmetic) := by
  decide

end CangjieRuntime.StdCore
