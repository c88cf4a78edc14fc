import Mathlib

/-!
# `Lib.Gregorian` — the proleptic Gregorian calendar

Blocks that follow each other on the number line, and the two levels of them that make up a calendar: years of 365 or
366 days, and the months of a year. Day 0 is the first day of year 1.
-/

/-! ## Blocks that follow each other -/

/-- The block of `i` starts at `start i`, has the length `length i`, and the next block starts where it ends. -/
structure Consecutive {ι : Type} [LinearOrder ι] [SuccOrder ι] (start length : ι → Int) : Prop where
  start_succ : ∀ i, start (Order.succ i) = start i + length i
  length_pos : ∀ i, 0 < length i

namespace Consecutive

variable {ι : Type} [LinearOrder ι] [SuccOrder ι] [IsSuccArchimedean ι] {start length : ι → Int}
  (h : Consecutive start length)
include h

theorem start_mono : Monotone start := by
  apply monotone_of_le_succ
  intro i _
  rw [h.start_succ]
  have hpos := h.length_pos i
  omega

theorem end_le_start {i j : ι} (hij : i < j) : start i + length i ≤ start j := by
  rw [← h.start_succ]
  exact h.start_mono (Order.succ_le_of_lt hij)

/-- Positions are ordered by the block and then by the offset in it. -/
theorem lt_iff {i j : ι} {o p : Int} (ho : 0 ≤ o) (ho' : o < length i) (hp : 0 ≤ p) (hp' : p < length j) :
    start i + o < start j + p ↔ i < j ∨ i = j ∧ o < p := by
  rcases lt_trichotomy i j with hij | rfl | hij
  · have hend := h.end_le_start hij
    exact iff_of_true (by omega) (Or.inl hij)
  · simp
  · have hend := h.end_le_start hij
    exact iff_of_false (by omega) fun hor => hor.elim (lt_asymm hij) fun heq => hij.ne heq.1.symm

end Consecutive

/-- Blocks of one length. -/
theorem consecutive_mul {n : Int} (hn : 0 < n) : Consecutive (fun i : Int => i * n) fun _ => n := by
  refine ⟨fun i => ?_, fun _ => hn⟩
  rw [Order.succ_eq_add_one]
  ring

/-! ## Years and months -/

namespace Gregorian

/-- Every fourth year is a leap year, but of the full centuries only every fourth. -/
def Leap (year : Int) : Prop := 4 ∣ year ∧ (¬ 100 ∣ year ∨ 400 ∣ year)

instance (year : Int) : Decidable (Leap year) := inferInstanceAs (Decidable (4 ∣ year ∧ (¬ 100 ∣ year ∨ 400 ∣ year)))

def yearLength (year : Int) : Int := if Leap year then 366 else 365

theorem yearLength_le (year : Int) : yearLength year ≤ 366 := by
  unfold yearLength
  split
  · decide
  · decide

/-- The days before a year, counted from year 1. -/
def daysBeforeYear (year : Int) : Int := 365 * (year - 1) + (year - 1) / 4 - (year - 1) / 100 + (year - 1) / 400

def monthLength (year : Int) : Nat → Int
  | 2 => if Leap year then 29 else 28
  | 4 | 6 | 9 | 11 => 30
  | _ => 31

/-- The days of a year before a month. Months are counted from 1. -/
def daysBeforeMonth (year : Int) : Nat → Int
  | 0 => -31
  | month + 1 => daysBeforeMonth year month + monthLength year month

theorem consecutive_years : Consecutive daysBeforeYear yearLength := by
  refine ⟨fun year => ?_, fun year => ?_⟩
  · rw [Order.succ_eq_add_one]
    unfold daysBeforeYear yearLength
    split_ifs with hleap
    · unfold Leap at hleap
      omega
    · unfold Leap at hleap
      omega
  · unfold yearLength
    split
    · decide
    · decide

theorem monthLength_pos (year : Int) (month : Nat) : 0 < monthLength year month := by
  unfold monthLength
  split
  · split
    · decide
    · decide
  all_goals decide

theorem consecutive_months (year : Int) : Consecutive (daysBeforeMonth year) (monthLength year) :=
  ⟨fun _ => rfl, monthLength_pos year⟩

/-- Twelve months make a year. -/
theorem daysBeforeMonth_thirteen (year : Int) : daysBeforeMonth year 13 = yearLength year := by
  simp only [daysBeforeMonth, monthLength, yearLength]
  split
  · rfl
  · rfl

end Gregorian
