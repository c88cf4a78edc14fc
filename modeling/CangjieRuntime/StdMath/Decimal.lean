import CangjieRuntime.StdCore.Numbers

/-!
# `StdMath.Decimal` — decimal numbers

The struct `Decimal` of `std/math/numeric/decimal.cj` and its arithmetic. A `BigInt` is an integer and its operations
are exact: `divAndMod` truncates, `quoAndRem` is Euclidean division.

The number of digits of a value is estimated with floating-point numbers. A `Float64` here is a natural number, in units
of a power of two; `roundFloat` rounds to 53 significant bits.
-/

namespace CangjieRuntime.StdMath

open StdCore

inductive RoundingMode where
  | Ceiling
  | Down
  | Floor
  | HalfEven
  | HalfUp
  | Up
deriving DecidableEq, Repr

structure Decimal where
  scale : Int
  precision : Int
  value : Int
  sign : Int
deriving DecidableEq, Repr

/-! ## Integers -/

def BIGINT_TENTH_POWER_ARRAY : List Int :=
  [1, 10, 100, 1000, 10000, 100000, 1000000, 10000000, 100000000, 1000000000, 10000000000, 100000000000, 1000000000000,
    10000000000000, 100000000000000, 1000000000000000, 10000000000000000, 100000000000000000, 1000000000000000000,
    10000000000000000000]

def compareMagnitude (x y : Int) : Int := if x.natAbs > y.natAbs then 1 else if x.natAbs < y.natAbs then -1 else 0

/-- Twice `that` is compared with `this`. -/
def compareDouble (this that : Int) : Int := -compareMagnitude this (2 * that)

def isOdd (x : Int) : Bool := x.natAbs % 2 = 1

/-- The property `bitLen`: the bits of the magnitude, and for a negative number one more, unless it is a power of
    two. -/
def bitLen (x : Int) : Nat :=
  if x = 0 then 1
  else if x < 0 then
    let oneMore := if x.natAbs = 2 ^ x.natAbs.log2 then 0 else 1
    if x.natAbs = 1 then 2 else x.natAbs.log2 + 1 + oneMore
  else x.natAbs.log2 + 1

def tenPowerN (n : Int) : Int :=
  if n < 0 then 0 else if n < BIGINT_TENTH_POWER_ARRAY.length then BIGINT_TENTH_POWER_ARRAY.getD n.toNat 0
  else 10 ^ n.toNat

def ailgnBigValue (val diffScale : Int) : Int := if diffScale ≤ 0 then val else val * tenPowerN diffScale

/-! ## The number of digits -/

/-- Rounding to the nearest number of 53 significant bits, and to the even one of two. -/
def roundFloat (n : Nat) : Nat :=
  let unit := 2 ^ (n.log2 - 52)
  let down := n / unit * unit
  if 2 * (n % unit) < unit ∨ 2 * (n % unit) = unit ∧ n / unit % 2 = 0 then down else down + unit

/-- `log10(2.0f64)`, in units of `2 ^ -54`. -/
def LOG10_2 : Nat := 0x134413509F79FF

/-- `Int64(log10(2.0f64) * Float64(bitLen) + 1.0)`. -/
def estimateDigits (bitLen : Nat) : Nat := roundFloat (roundFloat (LOG10_2 * roundFloat bitLen) + 2 ^ 54) / 2 ^ 54

def calcNumberOfDigits (val_bigint : Int) : Int :=
  if val_bigint = 0 then 1
  else
    let digitCount : Int := estimateDigits (bitLen val_bigint)
    if digitCount - 1 < BIGINT_TENTH_POWER_ARRAY.length then
      if compareMagnitude (BIGINT_TENTH_POWER_ARRAY.getD (digitCount - 1).toNat 0) val_bigint > 0 then digitCount - 1
      else digitCount
    else if compareMagnitude (10 ^ (digitCount - 1).toNat) val_bigint > 0 then digitCount - 1
    else digitCount

/-! ## Construction -/

namespace Decimal

/-- The constructor with a precision. -/
def withPrecision (val scale precision : Int) : Decimal := ⟨scale, precision, val, val.sign⟩

/-- The constructor of a value and a scale. -/
def ofScaled (val scale : Int) : Decimal := ⟨scale, calcNumberOfDigits val, val, val.sign⟩

end Decimal

/-- The scale as an `Int32`. -/
def checkScaleOverFlow (scale : Int) : Except Exn Int := i32 scale

def saturateI32 (scale : Int) : Int := max INT32_MIN (min INT32_MAX scale)

/-! ## Sums and products -/

namespace Decimal

def add (this d : Decimal) : Except Exn Decimal := do
  if this.scale = d.scale then
    let resValue := this.value + d.value
    return withPrecision resValue this.scale (calcNumberOfDigits resValue)
  else
    let diffScale ← checkScaleOverFlow (this.scale - d.scale)
    if diffScale > 0 then
      let resValue := this.value + ailgnBigValue d.value diffScale
      return withPrecision resValue this.scale (calcNumberOfDigits resValue)
    else
      let resValue := d.value + ailgnBigValue this.value (-diffScale)
      return withPrecision resValue d.scale (calcNumberOfDigits resValue)

def neg (this : Decimal) : Decimal := withPrecision (-this.value) this.scale this.precision

def sub (this d : Decimal) : Except Exn Decimal := this.add d.neg

def mul (this d : Decimal) : Except Exn Decimal := do
  let resScale ← checkScaleOverFlow (this.scale + d.scale)
  if this.sign = 0 ∨ d.sign = 0 then return withPrecision 0 resScale 1
  else
    let resValue := this.value * d.value
    return withPrecision resValue resScale (calcNumberOfDigits resValue)

def shiftPoint (this : Decimal) (n : Int) : Except Exn Decimal := do
  if n = 0 then return this
  else
    let reScale ← checkScaleOverFlow (this.scale + n)
    if this.sign = 0 ∧ reScale ≤ 0 then return withPrecision 0 0 1
    else return withPrecision this.value reScale this.precision

def abs (d : Decimal) : Decimal := withPrecision |d.value| d.scale d.precision

end Decimal

/-! ## Rounding -/

def needCarry (roundingMode : RoundingMode) (sign halfFlag : Int) (isOdd : Bool) : Bool :=
  match roundingMode with
  | .Up => true
  | .Down => false
  | .Ceiling => decide (sign > 0)
  | .Floor => decide (sign < 0)
  | .HalfUp => decide (halfFlag ≥ 0)
  | .HalfEven => if halfFlag > 0 then true else if halfFlag < 0 then false else isOdd

def doRoundWithCtx (val_bigint roundPrecision : Int) (roundingMode : RoundingMode) : Int :=
  let tenPowerDivisior := tenPowerN roundPrecision
  let quotient := val_bigint.tdiv tenPowerDivisior
  let remainder := val_bigint.tmod tenPowerDivisior
  if remainder.sign ≠ 0 ∧
    needCarry roundingMode val_bigint.sign (compareMagnitude (2 * remainder) tenPowerDivisior) (isOdd quotient) then
    if quotient.sign ≥ 0 then quotient + 1 else quotient - 1
  else quotient

namespace Decimal

/-- The loop of `roundWithPrecision`. Every round makes the scale smaller, and the scale is an `Int32`. -/
def roundLoop (precision : Int) (roundingMode : RoundingMode) : Nat → Int → Int → Int → Int → Except Exn Decimal
  | 0, _, _, _, _ => throw .diverges
  | fuel + 1, unscaledValue, roundPrecision, reScale, rePrecision => do
      if roundPrecision > 0 then
        let reScale ← checkScaleOverFlow (reScale - roundPrecision)
        let unscaledValue := doRoundWithCtx unscaledValue roundPrecision roundingMode
        let rePrecision := calcNumberOfDigits unscaledValue
        roundLoop precision roundingMode fuel unscaledValue (rePrecision - precision) reScale rePrecision
      else return withPrecision unscaledValue reScale rePrecision

def roundWithPrecision (this : Decimal) (precision : Int) (roundingMode : RoundingMode) : Except Exn Decimal :=
  if precision = 0 ∨ precision ≥ this.precision then return this
  else
    roundLoop precision roundingMode ((this.scale - INT32_MIN).toNat + 2) this.value (this.precision - precision)
      this.scale this.precision

/-! ## Division -/

/-- The loop of `removeExtraZero`, for at most as many rounds as the scales differ. -/
def removeZeros (expectedScale : Int) : Nat → Int → Int → Except Exn Decimal
  | 0, bd, scl => return ofScaled bd scl
  | rounds + 1, bd, scl => do
      if compareMagnitude bd 10 ≥ 0 ∧ scl > expectedScale then
        if isOdd bd then return ofScaled bd scl
        else if (bd % 10).sign ≠ 0 then return ofScaled bd scl
        else removeZeros expectedScale rounds (bd / 10) (← checkScaleOverFlow (scl - 1))
      else return ofScaled bd scl

def removeExtraZero (v scale expectedScale : Int) : Except Exn Decimal :=
  removeZeros expectedScale (scale - expectedScale).toNat v scale

def needIncrement (divisor : Int) (rdm : RoundingMode) (qsign qu re : Int) : Bool :=
  needCarry rdm qsign (compareDouble divisor re) (isOdd qu)

/-- One is added to the magnitude of the quotient, which then gets its sign. -/
def divideAndRound (dividend divisor scale : Int) (rdm : RoundingMode) (expectedScale : Int) (needDegenerate : Bool) :
    Except Exn Decimal :=
  let qu := dividend.tdiv divisor
  let re := dividend.tmod divisor
  if re.sign ≠ 0 then
    if needDegenerate then throw .precisionMismatch
    else
      let resSign : Int := if dividend.sign ≠ divisor.sign then -1 else 1
      if needIncrement divisor rdm resSign qu re then
        return ofScaled (if resSign ≤ 0 then -(qu.natAbs + 1 : Int) else qu.natAbs + 1) scale
      else return ofScaled qu scale
  else if expectedScale ≠ scale then removeExtraZero qu scale expectedScale
  else return ofScaled qu scale

def compareBySamePrecision (x xscale y yscale : Int) : Int :=
  let diff := xscale - yscale
  if diff < 0 then compareMagnitude (ailgnBigValue x (-diff)) y else compareMagnitude x (ailgnBigValue y diff)

/-- The division with a number of digits, before the last rounding. -/
def divDigits (dividend divisor : Decimal) (expectedScale cpn : Int) (roundingMode : RoundingMode)
    (needDegenerate : Bool) :
    Except Exn Decimal := do
  let eScl ← checkScaleOverFlow expectedScale
  let dScl := dividend.precision
  let sScl ← (if compareBySamePrecision dividend.value dScl divisor.value divisor.precision > 0
    then i64 (divisor.precision - 1)
    else return divisor.precision : Except Exn Int)
  let scl ← checkScaleOverFlow (← i64 ((← i64 ((← i64 (expectedScale + sScl)) - dScl)) + cpn))
  let raise ← checkScaleOverFlow (← i64 ((← i64 (cpn + sScl)) - dScl))
  if raise > 0 then
    divideAndRound (ailgnBigValue dividend.value raise) divisor.value scl roundingMode eScl needDegenerate
  else
    let newScale ← checkScaleOverFlow (← i64 (dScl - cpn))
    let raise ← checkScaleOverFlow (← i64 (newScale - sScl))
    divideAndRound dividend.value (ailgnBigValue divisor.value raise) scl roundingMode eScl needDegenerate

def divCore (dividend divisor : Decimal) (expectedScale cpn : Int) (roundingMode : RoundingMode)
    (needDegenerate : Bool) :
    Except Exn Decimal := do
  let res ← divDigits dividend divisor expectedScale cpn roundingMode needDegenerate
  res.roundWithPrecision cpn roundingMode

/-- The precision of the exact quotient. The floating-point operations, `ceil(precision / 3.0 * 10.0)`, are taken as
    exact. -/
def checkPrecisionOverFlow (precision other : Int) : Int :=
  match i64 ((10 * precision + 2) / 3 + other) with
  | .ok sum => sum
  | .error _ => INT64_MAX

def reScale (this : Decimal) (newScale : Int) (roundingMode : RoundingMode) : Except Exn Decimal := do
  let oldScale := this.scale
  if newScale = oldScale then return this
  else if this.sign = 0 then return withPrecision 0 newScale 1
  else if newScale > oldScale then
    let raise ← checkScaleOverFlow (newScale - oldScale)
    return ofScaled (ailgnBigValue this.value raise) newScale
  else
    let drop ← checkScaleOverFlow (oldScale - newScale)
    divideAndRound this.value (tenPowerN drop) newScale roundingMode newScale false

/-- The first attempt of `divWithContext`. The quotient is not what `reScale` is called on. -/
def divExact (this d : Decimal) (expectedScale cpn : Int) (rdm : RoundingMode) : Except Exn Decimal := do
  let res ← divCore this d expectedScale cpn rdm true
  if expectedScale > res.scale then this.reScale expectedScale rdm else return res

def divWithContext (this d : Decimal) (rdm : RoundingMode) : Except Exn Decimal :=
  if d.sign = 0 then throw .arithmetic
  else
    let expectedScale := saturateI32 (this.scale - d.scale)
    if this.sign = 0 then return withPrecision 0 expectedScale 1
    else
      match divExact this d expectedScale (checkPrecisionOverFlow d.precision this.precision) rdm with
      | .error .precisionMismatch => divCore this d expectedScale 34 rdm false
      | result => result

/-- The operator `/`. -/
def div (this d : Decimal) : Except Exn Decimal := this.divWithContext d .HalfEven

def divWithPrecision (this d : Decimal) (precision : Int) (roundingMode : RoundingMode) : Except Exn Decimal :=
  if precision = 0 then this.divWithContext d roundingMode
  else if d.sign = 0 then throw .arithmetic
  else
    let expectedScale := this.scale - d.scale
    if this.sign = 0 then return withPrecision 0 (saturateI32 expectedScale) 1
    else divCore this d expectedScale precision roundingMode false

/-- The operator `**`. -/
def pow (this : Decimal) (n : Int) : Except Exn Decimal := do
  if n = 0 then return ofScaled 1 0
  else if (INT32_MIN > n ∨ INT32_MAX + 1 < n) ∧ this.scale ≠ 0 then throw .overflow
  else
    let newScl ← (if this.scale = 0 ∨ n = INT64_MIN then return 0
      else do checkScaleOverFlow (← i64 (this.scale * |n|)) : Except Exn Int)
    let bi := this.value ^ n.natAbs
    if n ≥ 0 then return ofScaled bi newScl else (ofScaled 1 0).div (ofScaled bi newScl)

end Decimal

end CangjieRuntime.StdMath
