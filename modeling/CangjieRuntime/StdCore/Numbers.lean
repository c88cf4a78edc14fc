import Mathlib

/-!
# `StdCore.Numbers` — the integers of the language

Integer operations and conversions of the source throw an `OverflowException` when the result does not fit, unless a
function is annotated with `@OverflowWrapping`. A signed value is an integer, an unsigned one a natural number; the
functions here are applied to the exact result of an operation. Computations run in `Except Exn`.
-/

namespace CangjieRuntime.StdCore

inductive Exn where
  /-- `OverflowException`. -/
  | overflow
  /-- `ArithmeticException`. -/
  | arithmetic
  /-- `IllegalArgumentException`. -/
  | illegalArgument
  /-- `IndexOutOfBoundsException`. -/
  | indexOutOfBounds
  /-- `PrecisionMismatchException`. -/
  | precisionMismatch
  /-- A loop never ends. -/
  | diverges
deriving DecidableEq, Repr

def INT32_MIN : Int := -0x80000000

def INT32_MAX : Int := 0x7FFFFFFF

def INT64_MIN : Int := -0x8000000000000000

def INT64_MAX : Int := 0x7FFFFFFFFFFFFFFF

theorem INT64_MIN_eq : INT64_MIN = -0x8000000000000000 := rfl

theorem INT64_MAX_eq : INT64_MAX = 0x7FFFFFFFFFFFFFFF := rfl

/-- An `Int32`. -/
def i32 (x : Int) : Except Exn Int := if INT32_MIN ≤ x ∧ x ≤ INT32_MAX then .ok x else .error .overflow

/-- An `Int64`. -/
def i64 (x : Int) : Except Exn Int := if INT64_MIN ≤ x ∧ x ≤ INT64_MAX then .ok x else .error .overflow

/-- A `UInt32`, from unsigned values. -/
def u32 (x : Nat) : Except Exn Nat := if x < 0x100000000 then .ok x else .error .overflow

/-- A `UInt64`, from unsigned values. -/
def u64 (x : Nat) : Except Exn Nat := if x < 0x10000000000000000 then .ok x else .error .overflow

/-- The conversion of a signed value to `UInt32`. -/
def toU32 (x : Int) : Except Exn Nat := if x < 0 then .error .overflow else u32 x.toNat

/-- The conversion of a signed value to `UInt64`. -/
def toU64 (x : Int) : Except Exn Nat := if x < 0 then .error .overflow else u64 x.toNat

/-- The difference of unsigned values. -/
def monus (x y : Nat) : Except Exn Nat := if y ≤ x then .ok (x - y) else .error .overflow

/-- The conversion to `UInt32` with wrapping. -/
def wrapU32 (x : Int) : Nat := (x % 0x100000000).toNat

/-- The conversion to `UInt64` with wrapping. -/
def wrapU64 (x : Int) : Nat := (x % 0x10000000000000000).toNat

/-! ## Steps -/

/-- A step that returns is followed by the rest. -/
theorem bind_ok {α β : Type} {x : Except Exn α} {f : α → Except Exn β} {a : α} {r : Except Exn β} (hx : x = .ok a)
    (hf : f a = r) :
    (x >>= f) = r := by
  rw [hx]
  exact hf

/-- A step that fails ends the computation. -/
theorem bind_error {α β : Type} {x : Except Exn α} {f : α → Except Exn β} {e : Exn} (hx : x = .error e) :
    (x >>= f) = .error e := by
  rw [hx]
  rfl

theorem ok_bind {α β : Type} {a : α} {f : α → Except Exn β} : ((.ok a : Except Exn α) >>= f) = f a := rfl

variable {x : Int} {n : Nat}

theorem i64_ok (hlo : INT64_MIN ≤ x) (hhi : x ≤ INT64_MAX) : i64 x = .ok x := if_pos ⟨hlo, hhi⟩

theorem u32_ok {x : Nat} (hx : x < 0x100000000) : u32 x = .ok x := if_pos hx

theorem u64_ok {x : Nat} (hx : x < 0x10000000000000000) : u64 x = .ok x := if_pos hx

theorem toU32_ok (hx : x = n) (hn : n < 0x100000000) : toU32 x = .ok n := by
  subst hx
  unfold toU32
  rw [if_neg (by omega), Int.toNat_natCast, u32_ok hn]

theorem toU64_ok (hx : x = n) (hn : n < 0x10000000000000000) : toU64 x = .ok n := by
  subst hx
  unfold toU64
  rw [if_neg (by omega), Int.toNat_natCast, u64_ok hn]

theorem monus_ok {x y : Nat} (hle : y ≤ x) : monus x y = .ok (x - y) := if_pos hle

theorem wrapU32_eq (hx : x = n) (hn : n < 0x100000000) : wrapU32 x = n := by
  unfold wrapU32
  omega

theorem wrapU64_eq (hx : x = n) (hn : n < 0x10000000000000000) : wrapU64 x = n := by
  unfold wrapU64
  omega

end CangjieRuntime.StdCore
