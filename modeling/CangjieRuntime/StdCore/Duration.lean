import CangjieRuntime.StdCore.Numbers

/-!
# `StdCore.Duration` — time intervals

The struct `Duration` of `duration.cj` with its integer operators. A duration is a number of seconds and of nanoseconds
behind them. Division by more than 32 bits is long division in base 10^9, with a divisor of two or of three digits.
-/

namespace CangjieRuntime.StdCore

def NS_PER_SEC : Int := 1000000000

/-- The base of the long division. -/
def DUR_BASE : Nat := 1000000000

def SECS_MAX : Nat := 0x8000000000000000

theorem NS_PER_SEC_eq : NS_PER_SEC = 1000000000 := rfl

theorem DUR_BASE_eq : DUR_BASE = 1000000000 := rfl

structure Duration where
  sec : Int
  ns : Nat
deriving DecidableEq, Repr

namespace Duration

def of (sec ns : Int) : Except Exn Duration := do
  if ns < 0 then
    if sec = INT64_MIN then throw .arithmetic
    return ⟨← i64 (sec - 1), ← toU32 (← i64 (ns + NS_PER_SEC))⟩
  else if ns ≥ NS_PER_SEC then
    if sec = INT64_MAX then throw .arithmetic
    return ⟨← i64 (sec + 1), ← toU32 (← i64 (ns - NS_PER_SEC))⟩
  else return ⟨sec, ← toU32 ns⟩

def Zero : Duration := ⟨0, 0⟩

def Max : Duration := ⟨INT64_MAX, 999999999⟩

def Min : Duration := ⟨INT64_MIN, 0⟩

/-- The operator `>`. -/
def gt (this r : Duration) : Bool :=
  if this.sec = r.sec then r.ns < this.ns
  else if this.sec < r.sec then false
  else true

def toSameSign (this : Duration) : Int × Int :=
  if this.sec < 0 ∧ 0 < this.ns then (this.sec + 1, this.ns - NS_PER_SEC) else (this.sec, this.ns)

/-- The operands of `*` and `/` without their signs, and whether the result is positive. The arithmetic here wraps. -/
def toUnsignedNum (this : Duration) (r : Int) : Nat × Nat × Nat × Bool :=
  let sign := decide (0 < r)
  let (secs, nanos) := this.toSameSign
  let rOperand := if sign then wrapU64 r else wrapU64 (-r)
  if this.gt Zero then (wrapU64 secs, wrapU32 nanos, rOperand, sign)
  else (wrapU64 (-secs), wrapU32 (-nanos), rOperand, !sign)

end Duration

/-! ## `+`, `-` and `*` -/

def isSumOverflow (left right : Int) : Bool :=
  (decide (right > 0) && decide (left > INT64_MAX - right)) || (decide (right < 0) && decide (left < INT64_MIN - right))

def checkSub (left right : Int) : Bool :=
  (decide (right > 0) && decide (left ≤ INT64_MIN + right)) || (decide (right < 0) && decide (left ≥ INT64_MAX + right))

namespace Duration

/-- The operator `+`. The bits of both fields of `r` are 0 if and only if both are 0. -/
def add (this r : Duration) : Except Exn Duration := do
  if r.sec = 0 ∧ r.ns = 0 then return this
  if isSumOverflow this.sec r.sec then throw .arithmetic
  of (← i64 (this.sec + r.sec)) (← i64 (this.ns + r.ns))

/-- The operator `-`. -/
def sub (this r : Duration) : Except Exn Duration := do
  if r.sec = 0 ∧ r.ns = 0 then return this
  if checkSub this.sec r.sec then throw .arithmetic
  of (← i64 (this.sec - r.sec)) (← i64 (this.ns - r.ns))

end Duration

def u32MulU64 (thisInt thatInt : Nat) : Except Exn (Nat × Nat) := do
  let thatLow32 := thatInt % DUR_BASE
  let thatHigh32 := thatInt / DUR_BASE
  let res ← u64 (thisInt * thatLow32)
  let second ← u64 ((← u64 (thatHigh32 * thisInt)) + res / DUR_BASE)
  return (second, res % DUR_BASE)

def tryU64Mul (left right : Nat) : Except Exn (Option Nat) := do
  if left = 0 then return some 0
  if right > SECS_MAX / left then return none
  return some (← u64 (left * right))

def tryU64Add (left right : Nat) : Except Exn (Option Nat) := do
  if right > (← monus SECS_MAX left) then return none
  return some (← u64 (left + right))

/-- The end of `durMul`, for seconds that are in range. -/
def ofUnsigned (seconds nanoseconds : Nat) (sign : Bool) : Except Exn Duration := do
  if sign then return ⟨← i64 seconds, nanoseconds⟩
  Duration.of (← i64 (-(← i64 seconds))) (-nanoseconds)

def durMul (secs nanos multiplier : Nat) (sign : Bool) : Except Exn (Option Duration) := do
  let (count, nanoseconds) ← u32MulU64 nanos multiplier
  if secs = 0 then return some (← ofUnsigned count nanoseconds sign)
  match ← tryU64Mul secs multiplier with
  | none => return none
  | some product =>
    match ← tryU64Add product count with
    | none => return none
    | some seconds =>
      if seconds = SECS_MAX then
        if !sign ∧ nanoseconds = 0 then return some Duration.Min
        return none
      return some (← ofUnsigned seconds nanoseconds sign)

/-- The operator `*`, with an `Int64`. -/
def Duration.mul (this : Duration) (r : Int) : Except Exn Duration := do
  if this = Zero ∨ r = 0 then return Zero
  else if r = -1 ∧ this ≠ Min then
    let (secs, nanos) := this.toSameSign
    of (← i64 (-secs)) (← i64 (-nanos))
  else if r = 1 then return this
  else if this = Min ∨ this = Max then throw .arithmetic
  else
    let (secU64, nsU32, multiplier, sign) := this.toUnsignedNum r
    match ← durMul secU64 nsU32 multiplier sign with
    | some v => return v
    | none => throw .arithmetic

/-! ## `/` -/

/-- The digits of a number, from the highest. -/
def toSecNsBase (num : Nat) : Except Exn (Nat × Nat × Nat) := do
  let res0 := num % DUR_BASE
  let res1 := num / DUR_BASE % DUR_BASE
  let res2 := num / DUR_BASE / DUR_BASE
  return (← u32 res2, res1, res0)

/-- A digit below 0 takes one from the next higher digit. -/
def borrow (high low : Int) : Int × Int := if low < 0 then (high - 1, low + NS_PER_SEC) else (high, low)

/-- The difference of four digits each. The last borrow goes back to the wrong digit. -/
def getDifference4 (num3 num2 num1 num0 : Int) : Int × Int × Int × Int :=
  let (res1, res0) := borrow num1 num0
  let (res2, res1) := borrow num2 res1
  if res2 < 0 then (num3 - 1, res2, res1 + NS_PER_SEC, res0) else (num3, res2, res1, res0)

/-- The difference of three digits each. -/
def getDifference3 (num2 num1 num0 : Int) : Except Exn (Nat × Nat × Nat) := do
  let (res1, res0) := borrow num1 num0
  let (res2, res1) := borrow num2 res1
  return (← toU32 res2, ← toU32 res1, ← toU32 res0)

def u32TwoMul (num1 num0 multiplier : Nat) : Except Exn (Nat × Nat × Nat) := do
  let res0 ← u64 (num0 * multiplier)
  let res1 ← u64 ((← u64 (num1 * multiplier)) + res0 / DUR_BASE)
  let res2 := res1 / DUR_BASE
  return (← u32 res2, res1 % DUR_BASE, res0 % DUR_BASE)

def u32ThreeMul (num2 num1 num0 multiplier : Nat) : Except Exn (Nat × Nat × Nat × Nat) := do
  let res0 ← u64 (num0 * multiplier)
  let res1 ← u64 ((← u64 (num1 * multiplier)) + res0 / DUR_BASE)
  let res2 ← u64 ((← u64 (num2 * multiplier)) + res1 / DUR_BASE)
  let res3 := res2 / DUR_BASE
  return (← u32 res3, res2 % DUR_BASE, res1 % DUR_BASE, res0 % DUR_BASE)

def u32DividendMul (num3 num2 num1 num0 times : Nat) : Except Exn (Nat × Nat × Nat × Nat × Nat) := do
  let res0 ← u64 (num0 * times)
  let res1 ← u64 ((← u64 (num1 * times)) + res0 / DUR_BASE)
  let res2 ← u64 ((← u64 (num2 * times)) + res1 / DUR_BASE)
  let res3 ← u64 ((← u64 (num3 * times)) + res2 / DUR_BASE)
  let res4 := res3 / DUR_BASE
  return (← u32 res4, res3 % DUR_BASE, res2 % DUR_BASE, res1 % DUR_BASE, res0 % DUR_BASE)

/-- Whether the digit `discuss` has to be corrected. -/
def needsCorrection (dividend2 divisor1 discuss remainder : Nat) : Except Exn Bool := do
  if discuss = DUR_BASE then return true
  return decide ((← u64 ((← u64 (remainder * DUR_BASE)) + dividend2)) < (← u64 (discuss * divisor1)))

/-- The loop of `divAndMod`. A round in which no correction is needed changes nothing, and is followed by the same round
    for ever. The fuel is enough for all other rounds, in each of which the remainder grows. -/
def divAndModLoop (dividend2 divisor2 divisor1 : Nat) : Nat → Nat → Nat → Except Exn Nat
  | 0, _, _ => throw .diverges
  | fuel + 1, discuss, remainder => do
      if remainder < DUR_BASE then
        if ← needsCorrection dividend2 divisor1 discuss remainder then
          divAndModLoop dividend2 divisor2 divisor1 fuel (← monus discuss 1) (← u32 (remainder + divisor2))
        else throw .diverges
      else return discuss

/-- The next digit of a quotient, from the two digits in `dividend` and the digit `dividend2` behind them. -/
def divAndMod (dividend dividend2 divisor2 divisor1 : Nat) : Except Exn Nat := do
  let discuss := dividend / divisor2
  let remainder := dividend % divisor2
  if ← needsCorrection dividend2 divisor1 discuss remainder then
    u32 (← divAndModLoop dividend2 divisor2 divisor1 (DUR_BASE + 1) discuss remainder)
  else u32 discuss

/-- The dividend of `divAndMod`. -/
def twoDigits (high low : Nat) : Except Exn Nat := do u64 ((← u64 (high * DUR_BASE)) + low)

/-- A digit of the quotient by two digits, and the digits of the remainder. -/
def digitTwo (dd2 dd1 dd0 ds1 ds0 : Nat) : Except Exn (Nat × Nat × Nat) := do
  let res ← divAndMod (← twoDigits dd2 dd1) dd0 ds1 ds0
  let (p2, p1, p0) ← u32TwoMul ds1 ds0 res
  let (_, d1, d0) ← getDifference3 (dd2 - p2) (dd1 - p1) (dd0 - p0)
  return (res, d1, d0)

/-- The dividend and the divisor of two digits, scaled. -/
def normalizeTwo (sec2 sec1 sec0 nanos divisor1 divisor0 : Nat) :
    Except Exn ((Nat × Nat × Nat × Nat × Nat) × (Nat × Nat)) := do
  let times := DUR_BASE / (divisor1 + 1)
  if times = 1 then return ((0, sec2, sec1, sec0, nanos), (divisor1, divisor0))
  let (_, ds1, ds0) ← u32TwoMul divisor1 divisor0 times
  return (← u32DividendMul sec2 sec1 sec0 nanos times, (ds1, ds0))

/-- `durDiv` for a divisor of two digits. -/
def durDivTwo (sec2 sec1 sec0 nanos divisor1 divisor0 : Nat) : Except Exn (Int × Int) := do
  let ((dd4, dd3, dd2, dd1, dd0), (ds1, ds0)) ← normalizeTwo sec2 sec1 sec0 nanos divisor1 divisor0
  let (res2, d1, d0) ← digitTwo dd4 dd3 dd2 ds1 ds0
  let (res1, d1, d0) ← digitTwo d1 d0 dd1 ds1 ds0
  let res0 ← divAndMod (← twoDigits d1 d0) dd0 ds1 ds0
  return (← i64 ((← i64 (res2 * NS_PER_SEC)) + res1), res0)

/-- The first digit of the quotient by three digits, and the remainder. -/
def firstDigit (dd4 dd3 dd2 dd1 ds2 ds1 ds0 : Nat) : Except Exn (Nat × Int × Int × Int) := do
  let res1 ← divAndMod (← twoDigits dd4 dd3) dd2 ds2 ds1
  let (p3, p2, p1, p0) ← u32ThreeMul ds2 ds1 ds0 res1
  let (d3, d2, d1, d0) := getDifference4 (dd4 - p3) (dd3 - p2) (dd2 - p1) (dd1 - p0)
  if d3 < 0 then
    let res1 ← monus res1 1
    let (p3, p2, p1, p0) ← u32ThreeMul ds2 ds1 ds0 res1
    let (_, d2, d1, d0) := getDifference4 (dd4 - p3) (dd3 - p2) (dd2 - p1) (dd1 - p0)
    return (res1, d2, d1, d0)
  else return (res1, d2, d1, d0)

/-- The second digit of the quotient by three digits. -/
def secondDigit (d2 d1 d0 : Int) (dd0 ds2 ds1 ds0 : Nat) : Except Exn Nat := do
  let res0 ← divAndMod (← twoDigits (← toU64 d2) (← toU64 d1)) (← toU32 d0) ds2 ds1
  let (p3, p2, p1, p0) ← u32ThreeMul ds2 ds1 ds0 res0
  let (d3, _, _, _) := getDifference4 (d2 - p3) (d1 - p2) (d0 - p1) (dd0 - p0)
  if d3 < 0 then monus res0 1 else return res0

/-- `durDiv` for a divisor of three digits. -/
def durDivThree (sec2 sec1 sec0 nanos divisor2 divisor1 divisor0 : Nat) : Except Exn (Int × Int) := do
  let times := DUR_BASE / (divisor2 + 1)
  let (dd4, dd3, dd2, dd1, dd0) ← u32DividendMul sec2 sec1 sec0 nanos times
  let (_, ds2, ds1, ds0) ← u32ThreeMul divisor2 divisor1 divisor0 times
  let (res1, d2, d1, d0) ← firstDigit dd4 dd3 dd2 dd1 ds2 ds1 ds0
  let res0 ← secondDigit d2 d1 d0 dd0 ds2 ds1 ds0
  return (res1, res0)

def durDiv (secs nanos divisor : Nat) : Except Exn (Int × Int) := do
  let (divisor2, divisor1, divisor0) ← toSecNsBase divisor
  let (sec2, sec1, sec0) ← toSecNsBase secs
  if divisor2 = 0 then durDivTwo sec2 sec1 sec0 nanos divisor1 divisor0
  else durDivThree sec2 sec1 sec0 nanos divisor2 divisor1 divisor0

/-- The quotient by a divisor of at most 32 bits. -/
def divSmall (secU64 nsU32 divisor : Nat) (sign : Bool) : Except Exn Duration := do
  let seconds := secU64 / divisor
  let extraSec := secU64 % divisor
  let extraNs := nsU32 % divisor
  let nanoseconds ← u64 (nsU32 / divisor + (← u64 ((← u64 (extraSec * DUR_BASE)) + extraNs)) / divisor)
  if sign then Duration.of (← i64 seconds) (← i64 nanoseconds)
  else Duration.of (← i64 (-(← i64 seconds))) (← i64 (-(← i64 nanoseconds)))

/-- The quotient by a divisor of more than 32 bits. -/
def divLarge (secU64 nsU32 divisor : Nat) (sign : Bool) : Except Exn Duration := do
  let (seconds, nanoseconds) ← durDiv secU64 nsU32 divisor
  if sign then return ⟨seconds, ← toU32 nanoseconds⟩
  else Duration.of (← i64 (-seconds)) (← i64 (-nanoseconds))

/-- The operator `/`, with an `Int64`. -/
def Duration.div (this : Duration) (r : Int) : Except Exn Duration := do
  if r = 0 then throw .illegalArgument
  else if r = 1 then return this
  else if this = Min ∧ r = -1 then throw .arithmetic
  else
    let (secU64, nsU32, divisor, sign) := this.toUnsignedNum r
    if divisor ≤ 0xFFFFFFFF then divSmall secU64 nsU32 divisor sign
    else divLarge secU64 nsU32 divisor sign

end CangjieRuntime.StdCore
