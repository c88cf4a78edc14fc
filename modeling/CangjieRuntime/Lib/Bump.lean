import CangjieRuntime.Lib.Runs

/-!
# `Lib.Bump` — ranges handed out by a rising cursor

A bump allocator keeps a cursor that only moves up; each range it hands out starts at or above everything handed
out before. `Stacked base rs` says this of the list of ranges (newest first), and disjointness and the bounds
follow from it alone.
-/

namespace Bump

open Runs

/-- The end of the newest range, or the base when nothing has been handed out. -/
def top (base : Nat) : List Run → Nat
  | [] => base
  | r :: _ => r.stop

/-- Newest first, every range starts at or above the end of the one before. -/
def Stacked (base : Nat) : List Run → Prop
  | [] => True
  | r :: rs => top base rs ≤ r.start ∧ Stacked base rs

variable {base : Nat} {rs : List Run}

@[simp] theorem top_cons (r : Run) : top base (r :: rs) = r.stop := rfl

theorem Stacked.base_le_top (h : Stacked base rs) : base ≤ top base rs := by
  induction rs with
  | nil => exact Nat.le_refl _
  | cons r rs ih =>
    obtain ⟨hr, hrs⟩ := h
    have := ih hrs
    simp only [top_cons, Run.stop]
    omega

/-- Every range lies between the base and the top. -/
theorem Stacked.bounds (h : Stacked base rs) : ∀ r ∈ rs, base ≤ r.start ∧ r.stop ≤ top base rs := by
  induction rs with
  | nil => simp
  | cons r rs ih =>
    obtain ⟨hr, hrs⟩ := h
    have hbase := hrs.base_le_top
    intro s hs
    rcases List.mem_cons.mp hs with rfl | hs
    · exact ⟨hbase.trans hr, Nat.le_refl _⟩
    · obtain ⟨h1, h2⟩ := ih hrs s hs
      have : r.start ≤ r.stop := Nat.le_add_right _ _
      exact ⟨h1, by simp only [top_cons]; omega⟩

theorem Stacked.disjoint (h : Stacked base rs) : rs.Pairwise (fun r s => Disjoint r.elems s.elems) := by
  induction rs with
  | nil => exact List.Pairwise.nil
  | cons r rs ih =>
    obtain ⟨hr, hrs⟩ := h
    refine List.Pairwise.cons ?_ (ih hrs)
    intro s hs
    have hle := (hrs.bounds s hs).2
    rw [Set.disjoint_left]
    intro u hu hu'
    simp only [mem_elems] at hu hu'
    omega

end Bump
