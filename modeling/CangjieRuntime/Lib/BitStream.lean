import Mathlib

/-!
# `Lib.BitStream` — little-endian bit streams

A stream is a function `b : Nat → Bool`. A reader takes a *window* of it as a number, low bit first; a writer is
described by the list of bits it has *placed* at a position. The two meet in `window_of_placed`: reading `n` bits
where the `n` bits of `v` were placed gives `v`.

A list of bits is also a set of positions; `trueIndices` lists them in increasing order.
-/

namespace BitStream

open List

variable {b : Nat → Bool} {p n : Nat} {v i : Nat} {l : List Bool}

/-- The bits `[p, p + n)` as a number, low bit first. -/
def window (b : Nat → Bool) (p n : Nat) : Nat := Nat.ofBits fun i : Fin n => b (p + i)

/-- The `n` low bits of `v`, low bit first. -/
def bitsOf (n v : Nat) : List Bool := (List.range n).map v.testBit

/-- The bits from `p` on are those of the list. -/
def Placed (b : Nat → Bool) (p : Nat) (l : List Bool) : Prop := ∀ i (h : i < l.length), b (p + i) = l[i]

@[simp] theorem testBit_window (j : Nat) : (window b p n).testBit j = (decide (j < n) && b (p + j)) := by
  unfold window
  by_cases hj : j < n
  · rw [Nat.testBit_ofBits_lt _ _ hj]; simp [hj]
  · rw [Nat.testBit_ofBits_ge _ _ (Nat.le_of_not_lt hj)]; simp [hj]

theorem window_lt : window b p n < 2 ^ n := Nat.ofBits_lt_two_pow _

/-- A window of one bit. -/
theorem window_one (b : Nat → Bool) (p : Nat) : window b p 1 = (b p).toNat := by
  unfold window
  rw [Nat.ofBits_succ]
  simp

/-- A number below `2 ^ n` with the bits of the window is the window. -/
theorem eq_window (hv : v < 2 ^ n) (h : ∀ j < n, v.testBit j = b (p + j)) : v = window b p n := by
  apply Nat.eq_of_testBit_eq
  intro j
  rw [testBit_window]
  by_cases hj : j < n
  · simp [hj, h j hj]
  · have hbig : v < 2 ^ j := lt_of_lt_of_le hv (Nat.pow_le_pow_right (by decide) (Nat.le_of_not_lt hj))
    simp [hj, Nat.testBit_lt_two_pow hbig]

@[simp] theorem length_bitsOf (n v : Nat) : (bitsOf n v).length = n := by simp [bitsOf]

theorem placed_append {l m : List Bool} : Placed b p (l ++ m) ↔ Placed b p l ∧ Placed b (p + l.length) m := by
  constructor
  · intro h
    refine ⟨?_, ?_⟩
    · intro i hi
      rw [h i (by simp; omega), getElem_append_left hi]
    · intro i hi
      rw [Nat.add_assoc, h (l.length + i) (by simp; omega), getElem_append_right (by omega)]
      simp
  · rintro ⟨hl, hm⟩ i hi
    by_cases hil : i < l.length
    · rw [getElem_append_left hil, hl i hil]
    · rw [getElem_append_right (by omega), ← hm (i - l.length) (by simp at hi; omega)]
      congr 1; omega

theorem placed_cons {x : Bool} : Placed b p (x :: l) ↔ b p = x ∧ Placed b (p + 1) l := by
  rw [show x :: l = [x] ++ l from rfl, placed_append]
  refine and_congr ⟨fun h => h 0 (by simp), ?_⟩ Iff.rfl
  intro h i hi
  obtain rfl : i = 0 := by simpa using hi
  exact h

/-- **Reading back.** -/
theorem window_of_placed (hv : v < 2 ^ n) (h : Placed b p (bitsOf n v)) : window b p n = v := by
  refine (eq_window hv ?_).symm
  intro j hj
  rw [h j (by simpa using hj)]
  simp [bitsOf]

/-! ## Slices -/

/-- The bits `[p, p + n)` as a list. -/
def slice (b : Nat → Bool) (p n : Nat) : List Bool := (List.range n).map fun i => b (p + i)

@[simp] theorem length_slice : (slice b p n).length = n := by simp [slice]

theorem slice_add (b : Nat → Bool) (p m n : Nat) : slice b p (m + n) = slice b p m ++ slice b (p + m) n := by
  unfold slice
  rw [range_add, map_append, map_map]
  simp [Function.comp_def, Nat.add_assoc]

theorem slice_of_placed (h : Placed b p l) : slice b p l.length = l := by
  apply ext_getElem (by simp)
  intro i _ hi
  simp [slice, h i hi]

/-- The bits of a window, followed by zeros when the number is taken wider. -/
theorem bitsOf_window (m k : Nat) : bitsOf (m + k) (window b p m) = slice b p m ++ replicate k false := by
  apply ext_getElem (by simp)
  intro i hi _
  rw [getElem_append]
  by_cases him : i < m <;> simp [bitsOf, slice, him]

/-! ## Positions of the true bits -/

/-- The positions of the true bits, counted from `j`. -/
def trueIndices : List Bool → Nat → List Nat
  | [], _ => []
  | true :: l, j => j :: trueIndices l (j + 1)
  | false :: l, j => trueIndices l (j + 1)

theorem trueIndices_append (l m : List Bool) (j : Nat) :
    trueIndices (l ++ m) j = trueIndices l j ++ trueIndices m (j + l.length) := by
  induction l generalizing j with
  | nil => simp [trueIndices]
  | cons x l ih =>
    have hlen : j + 1 + l.length = j + (l.length + 1) := by omega
    cases x <;> simp [trueIndices, ih, hlen]

@[simp] theorem trueIndices_replicate_false (n j : Nat) : trueIndices (replicate n false) j = [] := by
  induction n generalizing j with
  | zero => rfl
  | succ n ih => simp [replicate_succ, trueIndices, ih]

theorem trueIndices_replicate_true (n j : Nat) :
    trueIndices (replicate n true) j = (range n).map (j + ·) := by
  induction n generalizing j with
  | zero => rfl
  | succ n ih =>
    rw [replicate_succ, trueIndices, ih, range_succ_eq_map, map_cons, map_map]
    simp [Function.comp_def, Nat.add_comm, Nat.add_left_comm]

/-- Counting from `j` shifts by `j`. -/
theorem trueIndices_eq_map (l : List Bool) (j : Nat) : trueIndices l j = (trueIndices l 0).map (j + ·) := by
  induction l generalizing j with
  | nil => rfl
  | cons x l ih =>
    rw [show x :: l = [x] ++ l from rfl, trueIndices_append, trueIndices_append, map_append,
      ih (j + _), ih (0 + _), map_map]
    cases x <;> simp [trueIndices, Function.comp_def, Nat.add_assoc]

theorem le_of_mem_trueIndices {i j : Nat} (h : i ∈ trueIndices l j) : j ≤ i := by
  rw [trueIndices_eq_map] at h
  obtain ⟨k, -, rfl⟩ := mem_map.mp h
  omega

theorem mem_trueIndices : i ∈ trueIndices l 0 ↔ l[i]? = some true := by
  induction l generalizing i with
  | nil => simp [trueIndices]
  | cons x l ih =>
    have htail : i ∈ trueIndices l 1 ↔ ∃ k, i = 1 + k ∧ l[k]? = some true := by
      rw [trueIndices_eq_map]
      simp only [mem_map, ih]
      exact ⟨fun ⟨k, hk, h⟩ => ⟨k, h.symm, hk⟩, fun ⟨k, h, hk⟩ => ⟨k, hk, h.symm⟩⟩
    cases i with
    | zero =>
      have hlow : 0 ∉ trueIndices l 1 := fun h => absurd (le_of_mem_trueIndices h) (by decide)
      cases x <;> simp [trueIndices, hlow]
    | succ i =>
      have hi : (∃ k, i + 1 = 1 + k ∧ l[k]? = some true) ↔ l[i]? = some true := by
        refine ⟨?_, fun h => ⟨i, by omega, h⟩⟩
        rintro ⟨k, hk, h⟩
        rwa [show i = k by omega]
      cases x <;> simp [trueIndices, htail, hi]

theorem trueIndices_sorted (l : List Bool) (j : Nat) : (trueIndices l j).Pairwise (· < ·) := by
  induction l generalizing j with
  | nil => exact List.Pairwise.nil
  | cons x l ih =>
    cases x with
    | false => exact ih (j + 1)
    | true => exact List.Pairwise.cons (fun i hi => le_of_mem_trueIndices hi) (ih (j + 1))

end BitStream
