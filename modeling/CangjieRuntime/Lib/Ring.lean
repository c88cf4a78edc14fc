import Mathlib

/-!
# `Lib.Ring` — a window of a sequence in a ring of slots

A ring of `n` slots holds a *window* of an unbounded sequence: the entries number `k`, `k + 1`, … of the sequence lie
in the slots `k % n`, `(k + 1) % n`, …. The window loses entries in front, where nothing has to be written, and grows
at its end by a write to a slot that, as long as the window has fewer than `n` entries, belongs to none of them.

The entry numbers are naturals. A program that keeps them in machine words of `w` bits reaches the same slots if `n`
divides `2 ^ w` (`slot_mod`).
-/

namespace Ring

variable {α : Type*} {n k : Nat} {buf : Nat → α} {xs ys : List α}

/-- The entries from number `k` on are `xs`. -/
def Window (n : Nat) (buf : Nat → α) (k : Nat) (xs : List α) : Prop :=
  ∀ i, i < xs.length → xs[i]? = some (buf ((k + i) % n))

theorem window_nil : Window n buf k [] := fun _ hi => absurd hi (Nat.not_lt_zero _)

/-- The numbers of a window of at most `n` entries have different slots. -/
theorem slot_ne {i j : Nat} (hij : i < j) (hj : j < n) : (k + i) % n ≠ (k + j) % n := by
  intro heq
  have hmod : i ≡ j [MOD n] := Nat.ModEq.add_left_cancel' k heq
  exact Nat.ne_of_lt hij (hmod.eq_of_lt_of_lt (hij.trans hj) hj)

/-- Two numbers of one slot that are less than a round apart are the same. -/
theorem eq_of_slot_eq {a b : Nat} (h : a % n = b % n) (hab : a < b + n) (hba : b < a + n) : a = b := by
  have hsame (x y : Nat) (hxy : x ≤ y) (hlt : y < x + n) (hmod : x % n = y % n) : x = y := by
    obtain ⟨d, rfl⟩ := Nat.exists_eq_add_of_le hxy
    have hd : d % n = 0 % n := Nat.ModEq.add_left_cancel' x (by rw [Nat.ModEq, Nat.add_zero, ← hmod])
    rw [Nat.mod_eq_of_lt (show d < n by omega), Nat.zero_mod] at hd
    omega
  rcases Nat.le_total a b with hle | hle
  · exact hsame a b hle hba h
  · exact (hsame b a hle hab h.symm).symm

/-- The parity of the round tells two neighbouring numbers of one slot apart. -/
theorem eq_of_slot_parity {a b : Nat} (hn : 0 < n) (h : a % n = b % n) (hab : a < b + n) (hba : b ≤ a + n)
    (hround : a / n % 2 = b / n % 2) : a = b := by
  rcases Nat.lt_or_eq_of_le hba with hlt | heq
  · exact eq_of_slot_eq h hab hlt
  · rw [heq, Nat.add_div_right a hn] at hround
    omega

/-- A number that was reduced modulo a multiple of `n` has the same slot. -/
theorem slot_mod {m : Nat} (h : n ∣ m) (a : Nat) : a % m % n = a % n := Nat.mod_mod_of_dvd a h

/-- Only the number of the first entry modulo `n` matters. -/
theorem Window.shift {k' : Nat} (h : Window n buf k xs) (heq : k % n = k' % n) : Window n buf k' xs := by
  intro i hi
  rw [h i hi, Nat.add_mod k i, heq, ← Nat.add_mod]

theorem Window.front (h : Window n buf k (xs ++ ys)) : Window n buf k xs := by
  intro i hi
  rw [← h i (by rw [List.length_append]; omega), List.getElem?_append_left hi]

/-- Entries leave in front. -/
theorem Window.drop (h : Window n buf k (xs ++ ys)) : Window n buf (k + xs.length) ys := by
  intro i hi
  have hread := h (xs.length + i) (by rw [List.length_append]; omega)
  rw [List.getElem?_append_right (Nat.le_add_right _ _), Nat.add_sub_cancel_left] at hread
  rw [hread, Nat.add_assoc]

/-- An entry is written behind the last one. -/
theorem Window.push (h : Window n buf k xs) (hlen : xs.length < n) (x : α) :
    Window n (Function.update buf ((k + xs.length) % n) x) k (xs ++ [x]) := by
  intro i hi
  rw [List.length_append, List.length_singleton] at hi
  by_cases hlast : i = xs.length
  · subst hlast
    rw [List.getElem?_concat_length, Function.update_self]
  · have hi' : i < xs.length := by omega
    rw [List.getElem?_append_left hi', Function.update_of_ne (slot_ne hi' hlen), h i hi']

end Ring
