import Mathlib

/-!
# `Lib.BitSet` — finite sets of naturals kept as bits of words

A set `G` of naturals is stored in words of `w` bits: bit `j` of the word at `base` says whether `base + j ∈ G`.
Population counts of words are then counts of `G` over intervals, and such counts add up when intervals are
joined (`count_add`) or disjoint sets are (`count_union`). A mask is described by the bits it has (`IsMask`), not
by the expression that computes it.
-/

namespace BitSet

open Finset

/-! ## Counting over an interval -/

/-- How many elements of `G` lie in `[a, b)`. -/
def count (G : Finset Nat) (a b : Nat) : Nat := (G ∩ Finset.Ico a b).card

variable {G H : Finset Nat} {a b c s t : Nat}

@[simp] theorem count_self : count G a a = 0 := by simp [count]

@[simp] theorem count_empty : count ∅ a b = 0 := by simp [count]

theorem count_le : count G a b ≤ b - a := by
  unfold count
  calc (G ∩ Finset.Ico a b).card ≤ (Finset.Ico a b).card := card_le_card inter_subset_right
    _ = b - a := Nat.card_Ico a b

/-- Counts over neighbouring intervals add up. -/
theorem count_add (hab : a ≤ b) (hbc : b ≤ c) : count G a b + count G b c = count G a c := by
  unfold count
  have hdisj : Disjoint (G ∩ Finset.Ico a b) (G ∩ Finset.Ico b c) :=
    (Finset.Ico_disjoint_Ico_consecutive a b c).mono inter_subset_right inter_subset_right
  rw [← card_union_of_disjoint hdisj, ← inter_union_distrib_left,
    Finset.Ico_union_Ico_eq_Ico hab hbc]

/-- Counts of disjoint sets add up. -/
theorem count_union (h : Disjoint G H) : count (G ∪ H) a b = count G a b + count H a b := by
  unfold count
  rw [union_inter_distrib_right]
  exact card_union_of_disjoint (h.mono inter_subset_left inter_subset_left)

theorem count_Ico_inside (hs : a ≤ s) (ht : t ≤ b) : count (Finset.Ico s t) a b = t - s := by
  unfold count
  rw [inter_eq_left.mpr (Finset.Ico_subset_Ico hs ht), Nat.card_Ico]

theorem count_Ico_outside (h : t ≤ a ∨ b ≤ s) : count (Finset.Ico s t) a b = 0 := by
  unfold count
  rw [card_eq_zero, eq_empty_iff_forall_notMem]
  intro u hu
  rw [mem_inter, mem_Ico, mem_Ico] at hu
  omega

/-! ## Words -/

/-- The number of set bits among the lowest `w`. -/
def popcount (w x : Nat) : Nat := ((Finset.range w).filter fun i => x.testBit i = true).card

/-- The population count of a word is the count of the set over the word's interval. -/
theorem popcount_eq_count {w x base : Nat} (h : ∀ j, j < w → (x.testBit j = true ↔ base + j ∈ G)) :
    popcount w x = count G base (base + w) := by
  unfold popcount count
  refine card_bij (fun j _ => base + j) ?_ ?_ ?_
  · intro j hj
    obtain ⟨hlt, hbit⟩ := mem_filter.mp hj
    have hjw := mem_range.mp hlt
    exact mem_inter.mpr ⟨(h j hjw).mp hbit, mem_Ico.mpr ⟨by omega, by omega⟩⟩
  · intro i _ j _ hij
    exact Nat.add_left_cancel hij
  · intro u hu
    obtain ⟨hG, hI⟩ := mem_inter.mp hu
    obtain ⟨hlo, hhi⟩ := mem_Ico.mp hI
    have hsum : base + (u - base) = u := Nat.add_sub_cancel' hlo
    have hlt : u - base < w := by omega
    refine ⟨u - base, mem_filter.mpr ⟨mem_range.mpr hlt, ?_⟩, hsum⟩
    rw [h _ hlt, hsum]
    exact hG

/-! ## Masks -/

/-- `x` has exactly the bits `[lo, hi)`. -/
def IsMask (x lo hi : Nat) : Prop := ∀ i, x.testBit i = decide (lo ≤ i ∧ i < hi)

theorem isMask_low (n : Nat) : IsMask (1 <<< n - 1) 0 n := by
  intro i
  rw [Nat.one_shiftLeft, Nat.testBit_two_pow_sub_one]
  simp

/-- The complement of a low mask inside the word. -/
theorem isMask_high {w n : Nat} (h : n ≤ w) : IsMask ((2 ^ w - 1) ^^^ (1 <<< n - 1)) n w := by
  intro i
  rw [Nat.testBit_xor, Nat.one_shiftLeft, Nat.testBit_two_pow_sub_one, Nat.testBit_two_pow_sub_one]
  by_cases hw : i < w <;> by_cases hn : i < n <;> simp [hw, hn] <;> omega

/-- A low mask with its lowest bits shifted out and back. -/
theorem isMask_shift (lo hi : Nat) : IsMask ((1 <<< hi - 1) >>> lo <<< lo) lo hi := by
  intro i
  rw [Nat.testBit_shiftLeft, Nat.testBit_shiftRight, Nat.one_shiftLeft, Nat.testBit_two_pow_sub_one]
  by_cases hlo : lo ≤ i
  · simp [hlo]
  · simp [hlo]

theorem isMask_full (w : Nat) : IsMask (2 ^ w - 1) 0 w := by
  intro i
  rw [Nat.testBit_two_pow_sub_one]
  simp

variable {x m lo hi w : Nat}

theorem IsMask.popcount_eq (hm : IsMask m lo hi) (hw : hi ≤ w) : popcount w m = hi - lo := by
  have hset : (range w).filter (fun i => m.testBit i = true) = Finset.Ico lo hi := by
    ext i
    rw [mem_filter, mem_range, hm i, decide_eq_true_iff, mem_Ico]
    omega
  rw [popcount, hset, Nat.card_Ico]

theorem IsMask.ne_zero_iff (hm : IsMask m lo hi) : m ≠ 0 ↔ lo < hi := by
  constructor
  · intro hne
    obtain ⟨i, hi'⟩ := Nat.exists_testBit_of_ne_zero hne
    rw [hm i, decide_eq_true_iff] at hi'
    omega
  · rintro hlt rfl
    have := hm lo
    rw [Nat.zero_testBit, eq_comm, decide_eq_false_iff_not] at this
    omega

/-- A word meets a mask when it has one of the mask's bits. -/
theorem IsMask.and_ne_zero_iff (hm : IsMask m lo hi) :
    x &&& m ≠ 0 ↔ ∃ i, lo ≤ i ∧ i < hi ∧ x.testBit i = true := by
  constructor
  · intro hne
    obtain ⟨i, hi'⟩ := Nat.exists_testBit_of_ne_zero hne
    rw [Nat.testBit_and, hm i, Bool.and_eq_true, decide_eq_true_iff] at hi'
    exact ⟨i, hi'.2.1, hi'.2.2, hi'.1⟩
  · rintro ⟨i, hlo, hhi, hx⟩ hzero
    have := congrArg (Nat.testBit · i) hzero
    simp [hm i, hx, hlo, hhi] at this

end BitSet
