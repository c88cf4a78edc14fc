import Mathlib

/-!
# `Lib.Packing` — items laid out one after another

`stack size base xs` gives each item of `xs` its address when they are laid out from `base` without gaps. An item's
address is then the base plus the sizes before it (`mem_stack`), and the address ranges are in order
(`stack_pairwise`). `fit size cap xs` is the greedy division of `xs` into what goes into a space of `cap` — up to
the first item that does not fit — and the rest.
-/

namespace Packing

variable {α : Type*} (size : α → Nat)

/-- The bytes of a list of items. -/
def total (xs : List α) : Nat := (xs.map size).sum

/-- Each item with its address. -/
def stack (base : Nat) : List α → List (Nat × α)
  | [] => []
  | x :: xs => (base, x) :: stack (base + size x) xs

/-- What fits into `cap`, up to the first item that does not, and the rest. -/
def fit (cap : Nat) : List α → List α × List α
  | [] => ([], [])
  | x :: xs =>
    if size x ≤ cap then ((x :: (fit (cap - size x) xs).1), (fit (cap - size x) xs).2)
    else ([], x :: xs)

variable {size}

/-! ## Totals -/

@[simp] theorem total_nil : total size [] = 0 := rfl

@[simp] theorem total_cons (x : α) (xs : List α) : total size (x :: xs) = size x + total size xs := by
  simp [total]

@[simp] theorem total_append (xs ys : List α) : total size (xs ++ ys) = total size xs + total size ys := by
  simp [total]

theorem total_filter_le (p : α → Bool) (xs : List α) : total size (xs.filter p) ≤ total size xs := by
  induction xs with
  | nil => exact Nat.le_refl _
  | cons x xs ih =>
    rw [List.filter_cons, total_cons]
    split_ifs with h
    · rw [total_cons]; exact Nat.add_le_add_left ih _
    · exact Nat.le_trans ih (Nat.le_add_left _ _)

theorem dvd_total {k : Nat} {xs : List α} (h : ∀ x ∈ xs, k ∣ size x) : k ∣ total size xs := by
  induction xs with
  | nil => exact Nat.dvd_zero k
  | cons x xs ih =>
    rw [total_cons]
    exact Nat.dvd_add (h x List.mem_cons_self) (ih fun y hy => h y (List.mem_cons_of_mem _ hy))

/-! ## Addresses -/

variable (base : Nat)

@[simp] theorem stack_nil : stack size base [] = [] := rfl

@[simp] theorem stack_cons (x : α) (xs : List α) :
    stack size base (x :: xs) = (base, x) :: stack size (base + size x) xs := rfl

@[simp] theorem map_snd_stack (xs : List α) : (stack size base xs).map Prod.snd = xs := by
  induction xs generalizing base with
  | nil => rfl
  | cons x xs ih => rw [stack_cons, List.map_cons, ih]

theorem stack_append (xs ys : List α) :
    stack size base (xs ++ ys) = stack size base xs ++ stack size (base + total size xs) ys := by
  induction xs generalizing base with
  | nil => simp
  | cons x xs ih => simp [ih, Nat.add_assoc]

/-- Every item is where the sizes before it put it. -/
theorem mem_stack {base : Nat} {xs : List α} {p : Nat × α} :
    p ∈ stack size base xs ↔ ∃ front back, xs = front ++ p.2 :: back ∧ p.1 = base + total size front := by
  induction xs generalizing base with
  | nil => simp
  | cons x xs ih =>
    rw [stack_cons, List.mem_cons, ih]
    constructor
    · rintro (rfl | ⟨front, back, rfl, hp⟩)
      · exact ⟨[], xs, rfl, rfl⟩
      · exact ⟨x :: front, back, rfl, by rw [hp, total_cons, Nat.add_assoc]⟩
    · rintro ⟨front, back, hsplit, hp⟩
      cases front with
      | nil =>
        obtain ⟨rfl, -⟩ := List.cons_eq_cons.mp hsplit
        exact Or.inl (Prod.ext hp rfl)
      | cons y front =>
        obtain ⟨rfl, rfl⟩ := List.cons_eq_cons.mp hsplit
        exact Or.inr ⟨front, back, rfl, by rw [hp, total_cons, Nat.add_assoc]⟩

theorem stack_bounds {base : Nat} {xs : List α} {p : Nat × α} (h : p ∈ stack size base xs) :
    base ≤ p.1 ∧ p.1 + size p.2 ≤ base + total size xs := by
  obtain ⟨front, back, hxs, hp⟩ := mem_stack.mp h
  rw [hxs, hp, total_append, total_cons]
  omega

/-- The ranges are in order. -/
theorem stack_pairwise (xs : List α) :
    (stack size base xs).Pairwise (fun p q => p.1 + size p.2 ≤ q.1) := by
  induction xs generalizing base with
  | nil => exact List.Pairwise.nil
  | cons x xs ih => exact List.Pairwise.cons (fun q hq => (stack_bounds hq).1) (ih _)

/-- Items whose own addresses `pos` are in order take no more than the room they are spread over. -/
theorem total_le_of_ordered {pos : α → Nat} {hi : Nat} (xs : List α) : ∀ {base : Nat}, base ≤ hi →
    xs.Pairwise (fun x y => pos x + size x ≤ pos y) → (∀ x ∈ xs, base ≤ pos x ∧ pos x + size x ≤ hi) →
    base + total size xs ≤ hi := by
  induction xs with
  | nil => intro base hbase _ _; exact hbase
  | cons x xs ih =>
    intro base _ hord hin
    obtain ⟨hfirst, hrest⟩ := List.pairwise_cons.mp hord
    obtain ⟨hlo, hhi⟩ := hin x List.mem_cons_self
    have := ih hhi hrest fun y hy => ⟨hfirst y hy, (hin y (List.mem_cons_of_mem _ hy)).2⟩
    rw [total_cons]
    omega

/-! ## The greedy division -/

theorem fit_append (cap : Nat) (xs : List α) : (fit size cap xs).1 ++ (fit size cap xs).2 = xs := by
  induction xs generalizing cap with
  | nil => rfl
  | cons x xs ih =>
    unfold fit
    split_ifs with h
    · exact congrArg (x :: ·) (ih _)
    · rfl

theorem total_fit_le (cap : Nat) (xs : List α) : total size (fit size cap xs).1 ≤ cap := by
  induction xs generalizing cap with
  | nil => exact Nat.zero_le _
  | cons x xs ih =>
    unfold fit
    split_ifs with h
    · have := ih (cap - size x)
      rw [total_cons]
      omega
    · exact Nat.zero_le _

end Packing
