import Mathlib

/-!
# `Lib.Interleave` — invariants of interleaved threads

A concurrent algorithm is modelled by a shared state in which every thread `t` stands at a control point `pc t`,
and by a relation that lets one thread at a time take one atomic step. Two things are needed again and again.

* **Runs.** Atomic steps are given by a partial function `act` on labels (which thread, which step) and a guard
  on the labels; what every guarded step keeps, every run keeps (`run_invariant`).
* **Tallies.** "At most one thread is between its two steps", "the counter is ahead by what the failing threads
  have added": such facts are about the *sum over all threads* of a weight of their control points. A step moves
  one thread, so it changes a tally by the difference of two weights (`tally_update`), and the rest is
  arithmetic.
-/

namespace Interleave

open Finset

/-! ## Runs -/

section Runs

variable {S A : Type*} (act : S → A → Option S) (ok : S → A → Prop)

/-- One step: some label that the guard admits in this state. -/
def Step (s s' : S) : Prop := ∃ a, ok s a ∧ act s a = some s'

/-- Any number of steps. -/
def Run : S → S → Prop := Relation.ReflTransGen (Step act ok)

/-- The state after a list of labels, `none` when one of them is not admitted or not possible. -/
def runActs [∀ s a, Decidable (ok s a)] : S → List A → Option S
  | s, [] => some s
  | s, a :: as => if ok s a then (act s a).bind fun s' => runActs s' as else none

variable {act ok}

/-- What holds at the start and is kept by each step holds in every state reached. -/
theorem run_invariant {I : S → Prop} {s s' : S} (hrun : Run act ok s s') (hinit : I s)
    (hstep : ∀ s a s', I s → ok s a → act s a = some s' → I s') : I s' := by
  induction hrun with
  | refl => exact hinit
  | tail _ hlast ih =>
    obtain ⟨a, hok, hact⟩ := hlast
    exact hstep _ a _ ih hok hact

/-- A list of labels that can be executed is a run. -/
theorem run_of_runActs [∀ s a, Decidable (ok s a)] {as : List A} {s s' : S}
    (h : runActs act ok s as = some s') : Run act ok s s' := by
  induction as generalizing s with
  | nil =>
    obtain rfl : s = s' := by simpa [runActs] using h
    exact Relation.ReflTransGen.refl
  | cons a as ih =>
    unfold runActs at h
    by_cases hok : ok s a
    · rw [if_pos hok] at h
      obtain ⟨s₁, ha, has⟩ := Option.bind_eq_some_iff.mp h
      exact Relation.ReflTransGen.head ⟨a, hok, ha⟩ (ih has)
    · rw [if_neg hok] at h; cases h

end Runs

/-! ## Tallies -/

section Tally

variable {T C : Type*} [Fintype T] (w : C → Nat) (pc : T → C)

/-- The sum over all threads of the weight of their control points. -/
def tally : Nat := ∑ t, w (pc t)

variable {w pc}

theorem le_tally (t : T) : w (pc t) ≤ tally w pc :=
  single_le_sum (f := fun u => w (pc u)) (fun _ _ => Nat.zero_le _) (mem_univ t)

theorem tally_succ {t : T} (h : 0 < w (pc t)) : ∃ n, tally w pc = n + 1 :=
  Nat.exists_eq_succ_of_ne_zero (h.trans_le (le_tally t)).ne'

theorem tally_eq_zero : tally w pc = 0 ↔ ∀ t, w (pc t) = 0 := by
  unfold tally
  rw [sum_eq_zero_iff]
  simp

theorem tally_le_card (h : ∀ c, w c ≤ 1) : tally w pc ≤ Fintype.card T := by
  unfold tally
  calc ∑ t, w (pc t) ≤ ∑ _t : T, 1 := sum_le_sum fun t _ => h (pc t)
    _ = Fintype.card T := by simp

variable [DecidableEq T]

/-- A sum over all threads, when what one thread contributes changes. -/
theorem sum_update {M : Type*} [AddCommMonoid M] {f g : T → M} (t : T) (h : ∀ u, u ≠ t → g u = f u) :
    ∑ u, g u + f t = ∑ u, f u + g t := by
  rw [← sum_erase_add _ g (mem_univ t), ← sum_erase_add _ f (mem_univ t)]
  have hrest : ∑ u ∈ univ.erase t, g u = ∑ u ∈ univ.erase t, f u :=
    sum_congr rfl fun u hu => h u (ne_of_mem_erase hu)
  rw [hrest]
  exact add_right_comm _ _ _

/-- Moving one thread exchanges its weight. -/
theorem tally_update (w : C → Nat) (pc : T → C) (t : T) (c : C) :
    tally w (Function.update pc t c) + w (pc t) = tally w pc + w c := by
  have hsum := sum_update (f := fun u => w (pc u)) (g := fun u => w (Function.update pc t c u)) t fun u hu => by
    rw [Function.update_of_ne hu]
  rw [Function.update_self] at hsum
  exact hsum

/-- Two threads count twice. -/
theorem add_le_tally {t u : T} (h : t ≠ u) : w (pc t) + w (pc u) ≤ tally w pc := by
  unfold tally
  rw [← sum_erase_add _ (fun u => w (pc u)) (mem_univ t), Nat.add_comm]
  refine Nat.add_le_add_right ?_ _
  exact single_le_sum (f := fun u => w (pc u)) (fun _ _ => Nat.zero_le _)
    (mem_erase.mpr ⟨h.symm, mem_univ u⟩)

/-- A tally of at most one has at most one holder. -/
theorem eq_of_tally_le_one (h : tally w pc ≤ 1) {t u : T} (ht : 0 < w (pc t)) (hu : 0 < w (pc u)) : t = u := by
  by_contra hne
  have htwo : w (pc t) + w (pc u) ≤ tally w pc := add_le_tally hne
  omega

end Tally

end Interleave
