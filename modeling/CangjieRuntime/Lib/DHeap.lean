import Mathlib

/-!
# `Lib.DHeap` — order in a heap with a hole

The elements of a min-heap of fan-out `d` lie in the slots `0, …, n - 1` of an array, and the parent of slot `i` is
`(i - 1) / d`. Loops that restore the order carry one element in hand and leave a *hole* in the array: the slot whose
content does not matter, because it is overwritten in the end.

* `Hole` is the order of all the other slots; across the hole the parent of the hole is below its children.
* The hole may be filled with `x` when `x` is below the children (`Below`) and the parent is below `x` (`Above`).
* A step moves the hole: up, when `x` is smaller than the parent, which keeps `Below`; or down to the smallest child,
  when that is smaller than `x`, which keeps `Above`. `Rises` and `Sinks` are any number of such steps; a loop is
  understood as one of the two, together with the reason why it stops.
-/

namespace DHeap

open Function List

variable {T : Type*} {d i n : Nat} {f : Nat → T}

/-! ## Positions -/

def parent (d i : Nat) : Nat := (i - 1) / d

theorem parent_lt (hi : 0 < i) : parent d i < i :=
  (Nat.div_le_self ..).trans_lt (Nat.sub_lt hi Nat.one_pos)

/-- The children of a slot are the `d` slots from `d * h + 1` on. -/
theorem parent_eq_iff {d h c : Nat} (hd : 0 < d) (hc : 0 < c) : parent d c = h ↔ d * h + 1 ≤ c ∧ c ≤ d * h + d := by
  unfold parent
  rw [Nat.div_eq_iff hd, Nat.mul_comm h d]
  omega

/-! ## The elements -/

/-- The elements in the first `n` slots. -/
def items (n : Nat) (f : Nat → T) : List T := (List.range n).map f

theorem items_succ (n : Nat) (f : Nat → T) : items (n + 1) f = items n f ++ [f n] := by
  unfold items
  rw [range_succ, map_append]
  rfl

theorem mem_items {t : T} : t ∈ items n f ↔ ∃ i < n, f i = t := by
  unfold items
  simp only [mem_map, mem_range]

theorem items_congr {f g : Nat → T} (h : ∀ i < n, f i = g i) : items n f = items n g :=
  map_congr_left fun i hi => h i (mem_range.mp hi)

/-- Different slots hold different elements. -/
theorem items_inj (h : (items n f).Nodup) {i j : Nat} (hi : i < n) (hj : j < n)
    (heq : f i = f j) : i = j :=
  inj_on_of_nodup_map h (mem_range.mpr hi) (mem_range.mpr hj) heq

/-- A slot is overwritten: its element is exchanged. -/
theorem items_update (hi : i < n) (f : Nat → T) (x : T) :
    (f i :: items n (update f i x)).Perm (x :: items n f) := by
  have hrange : (range n).Perm (i :: (range n).erase i) := perm_cons_erase (mem_range.mpr hi)
  have hrest : ((range n).erase i).map (update f i x) = ((range n).erase i).map f := by
    apply map_congr_left
    intro j hj
    exact update_of_ne (nodup_range.mem_erase_iff.mp hj).1 ..
  have hnew := hrange.map (update f i x)
  rw [map_cons, update_self, hrest] at hnew
  calc (f i :: items n (update f i x)).Perm (f i :: x :: ((range n).erase i).map f) := hnew.cons _
    List.Perm _ (x :: f i :: ((range n).erase i).map f) := List.Perm.swap ..
    List.Perm _ (x :: items n f) := ((hrange.map f).symm).cons _

/-- The last element takes the place of another. -/
theorem items_replace (hi : i < n) (f : Nat → T) :
    (f i :: items n (update f i (f n))).Perm (items (n + 1) f) := by
  rw [items_succ]
  exact (items_update hi f (f n)).trans (perm_append_singleton (f n) (items n f)).symm

/-- The hole moves from `h` to `p`, and `x` is still the element in hand. -/
theorem items_move {n h p : Nat} (hh : h < n) (hp : p < n) (hne : p ≠ h) (f : Nat → T) (x : T) :
    (items n (update (update f h (f p)) p x)).Perm (items n (update f h x)) := by
  have hmoved := items_update hp (update f h (f p)) x
  rw [update_of_ne hne] at hmoved
  have hcopied := items_update hh f (f p)
  have hfilled := items_update hh f x
  have hall : (f h :: f p :: items n (update (update f h (f p)) p x)).Perm
      (f h :: f p :: items n (update f h x)) := by
    calc (f h :: f p :: items n (update (update f h (f p)) p x)).Perm
          (f h :: x :: items n (update f h (f p))) := hmoved.cons _
      List.Perm _ (x :: f h :: items n (update f h (f p))) := List.Perm.swap ..
      List.Perm _ (x :: f p :: items n f) := hcopied.cons _
      List.Perm _ (f p :: x :: items n f) := List.Perm.swap ..
      List.Perm _ (f p :: f h :: items n (update f h x)) := hfilled.symm.cons _
      List.Perm _ (f h :: f p :: items n (update f h x)) := List.Perm.swap ..
  exact hall.cons_inv.cons_inv

/-! ## Order -/

section Order

variable {K : Type*} [LinearOrder K] (key : T → K) (d n : Nat)

/-- Every parent is below its children. -/
def Ordered (f : Nat → T) : Prop := ∀ i, 0 < i → i < n → key (f (parent d i)) ≤ key (f i)

/-- All slots but `h` are in order. -/
structure Hole (h : Nat) (f : Nat → T) : Prop where
  off : ∀ i, 0 < i → i < n → i ≠ h → parent d i ≠ h → key (f (parent d i)) ≤ key (f i)
  across : 0 < h → ∀ c, 0 < c → c < n → parent d c = h → key (f (parent d h)) ≤ key (f c)

/-- The element is below the children of the hole. -/
def Below (h : Nat) (f : Nat → T) (x : T) : Prop := ∀ c, 0 < c → c < n → parent d c = h → key x ≤ key (f c)

/-- The parent of the hole is below the element. -/
def Above (h : Nat) (f : Nat → T) (x : T) : Prop := 0 < h → key (f (parent d h)) ≤ key x

variable {key d n} {f : Nat → T} {h m : Nat} {x : T}

theorem Ordered.congr (hf : Ordered key d n f) {key' : T → K} {g : Nat → T} (heq : ∀ i < n, key' (g i) = key (f i)) :
    Ordered key' d n g := by
  intro i hi hin
  rw [heq i hin, heq _ ((parent_lt hi).trans hin)]
  exact hf i hi hin

theorem Ordered.hole (hf : Ordered key d n f) (h : Nat) (hh : h < n) : Hole key d n h f where
  off i hi hin _ _ := hf i hi hin
  across hpos c hc hcn hparent := by
    have hchild := hf c hc hcn
    rw [hparent] at hchild
    exact (hf h hpos hh).trans hchild

/-- Filling the hole. -/
theorem Hole.fill (hf : Hole key d n h f) (hbelow : Below key d n h f x) (habove : Above key d h f x) :
    Ordered key d n (update f h x) := by
  intro i hi hin
  by_cases hih : i = h
  · subst hih
    rw [update_self, update_of_ne (parent_lt hi).ne]
    exact habove hi
  rw [update_of_ne hih]
  by_cases hparent : parent d i = h
  · rw [hparent, update_self]
    exact hbelow i hi hin hparent
  · rw [update_of_ne hparent]
    exact hf.off i hi hin hih hparent

/-- The last slot is no hole for the slots before it. -/
theorem Hole.init (hf : Hole key d (n + 1) n f) : Ordered key d n f := by
  intro i hi hin
  exact hf.off i hi (hin.trans (Nat.lt_succ_self n)) hin.ne ((parent_lt hi).trans hin).ne

theorem Hole.shrink (hf : Hole key d (n + 1) h f) : Hole key d n h f where
  off i hi hin := hf.off i hi (hin.trans (Nat.lt_succ_self n))
  across hpos c hc hcn := hf.across hpos c hc (hcn.trans (Nat.lt_succ_self n))

/-- A slot more, which is the hole. -/
theorem Ordered.extend (hf : Ordered key d n f) : Hole key d (n + 1) n f where
  off i hi hin hne _ := hf i hi (Nat.lt_of_le_of_ne (Nat.le_of_lt_succ hin) hne)
  across _ _ hc hcn hparent := absurd (Nat.le_of_lt_succ hcn) (Nat.not_le.mpr (hparent ▸ parent_lt hc))

/-- The last slot has no children. -/
theorem below_last : Below key d (n + 1) n f x := fun _ hc hcn hparent =>
  absurd (Nat.le_of_lt_succ hcn) (Nat.not_le.mpr (hparent ▸ parent_lt hc))

theorem Ordered.below (hf : Ordered key d n f) (h : Nat) : Below key d n h f (f h) := fun c hc hcn hparent =>
  hparent ▸ hf c hc hcn

/-- Keys and slots that agree off the hole. -/
theorem Hole.congr (hf : Hole key d n h f) (hh : h < n) {key' : T → K} {g : Nat → T}
    (heq : ∀ i, i < n → i ≠ h → key' (g i) = key (f i)) : Hole key' d n h g where
  off i hi hin hih hparent := by
    rw [heq i hin hih, heq _ ((parent_lt hi).trans hin) hparent]
    exact hf.off i hi hin hih hparent
  across hpos c hc hcn hparent := by
    have hne : c ≠ h := fun heq => (parent_lt hc).ne (hparent.trans heq.symm)
    rw [heq c hcn hne, heq _ ((parent_lt hpos).trans hh) (parent_lt hpos).ne]
    exact hf.across hpos c hc hcn hparent

/-- Nothing is below the root. -/
theorem Hole.root_le (hf : Hole key d n h f) (hpos : 0 < h) {i : Nat} (hi : i < n) (hih : i ≠ h) :
    key (f 0) ≤ key (f i) := by
  -- by the number of the slot; a child of the hole is compared with the hole's parent
  induction i using Nat.strong_induction_on with
  | _ i ih =>
    rcases Nat.eq_zero_or_pos i with rfl | hi0
    · exact le_refl _
    have hlt := parent_lt (d := d) hi0
    by_cases hparent : parent d i = h
    · have hup := parent_lt (d := d) hpos
      have hhi : h < i := hparent ▸ hlt
      exact (ih (parent d h) (hup.trans hhi) ((hup.trans hhi).trans hi) hup.ne).trans (hf.across hpos i hi0 hi hparent)
    · exact (ih (parent d i) hlt (hlt.trans hi) hparent).trans (hf.off i hi0 hi hih hparent)

/-- The hole moves up: the parent comes down. -/
theorem Hole.up (hf : Hole key d n h f) (hpos : 0 < h) (hh : h < n)
    (hlt : key x < key (f (parent d h))) :
    Hole key d n (parent d h) (update f h (f (parent d h))) ∧
      Below key d n (parent d h) (update f h (f (parent d h))) x := by
  have hup := parent_lt (d := d) hpos
  -- the brothers of the hole
  have hsib (c : Nat) (hc : 0 < c) (hcn : c < n) (hparent : parent d c = parent d h) (hch : c ≠ h) :
      key (f (parent d h)) ≤ key (f c) :=
    hparent ▸ hf.off c hc hcn hch fun heq => hup.ne (hparent.symm.trans heq)
  refine ⟨⟨?_, ?_⟩, ?_⟩
  · intro i hi hin hih hparent
    by_cases hi' : i = h
    · exact absurd (congrArg (parent d) hi') hparent
    rw [update_of_ne hi']
    by_cases hchild : parent d i = h
    · -- a child of the old hole, now below the old parent
      rw [hchild, update_self]
      exact hf.across hpos i hi hin hchild
    · rw [update_of_ne hchild]
      exact hf.off i hi hin hi' hchild
  · intro hpos' c hc hcn hparent
    have hgrand : key (f (parent d (parent d h))) ≤ key (f (parent d h)) :=
      hf.off _ hpos' (hup.trans hh) hup.ne ((parent_lt hpos').trans hup).ne
    rw [update_of_ne ((parent_lt hpos').trans hup).ne]
    by_cases hch : c = h
    · rw [hch, update_self]
      exact hgrand
    · rw [update_of_ne hch]
      exact hgrand.trans (hsib c hc hcn hparent hch)
  · intro c hc hcn hparent
    by_cases hch : c = h
    · rw [hch, update_self]
      exact hlt.le
    · rw [update_of_ne hch]
      exact hlt.le.trans (hsib c hc hcn hparent hch)

/-- The hole moves down to the smallest child, which comes up. -/
theorem Hole.down (hf : Hole key d n h f) (hm : 0 < m) (hmn : m < n) (hparent : parent d m = h)
    (hmin : Below key d n h f (f m)) (hlt : key (f m) < key x) :
    Hole key d n m (update f h (f m)) ∧ Above key d m (update f h (f m)) x := by
  have hhm : h < m := hparent ▸ parent_lt hm
  refine ⟨⟨?_, ?_⟩, ?_⟩
  · intro i hi hin him hchild
    by_cases hih : i = h
    · subst hih
      rw [update_self, update_of_ne (parent_lt hi).ne]
      exact hf.across hi m hm hmn hparent
    rw [update_of_ne hih]
    by_cases hsib : parent d i = h
    · rw [hsib, update_self]
      exact hmin i hi hin hsib
    · rw [update_of_ne hsib]
      exact hf.off i hi hin hih hsib
  · intro _ c hc hcn hchild
    have hmc : m < c := hchild ▸ parent_lt hc
    have hne : parent d c ≠ h := hchild ▸ hhm.ne'
    have hedge := hf.off c hc hcn (hhm.trans hmc).ne' hne
    rw [hchild] at hedge
    rw [hparent, update_self, update_of_ne (hhm.trans hmc).ne']
    exact hedge
  · intro _
    rw [hparent, update_self]
    exact hlt.le

/-! ## Moves of the hole -/

variable (key d n x)

/-- The hole moves up, as long as the element in hand is smaller than the parent. -/
inductive Rises : (Nat → T) → Nat → (Nat → T) → Nat → Prop
  | refl (f : Nat → T) (h : Nat) : Rises f h f h
  | up {f g : Nat → T} {h i : Nat} (hpos : 0 < h) (hlt : key x < key (f (parent d h)))
      (hrest : Rises (Function.update f h (f (parent d h))) (parent d h) g i) : Rises f h g i

/-- The hole moves down to the smallest child, as long as that is smaller than the element in hand. -/
inductive Sinks : (Nat → T) → Nat → (Nat → T) → Nat → Prop
  | refl (f : Nat → T) (h : Nat) : Sinks f h f h
  | down {f g : Nat → T} {h m i : Nat} (hm : 0 < m) (hmn : m < n) (hparent : parent d m = h)
      (hmin : Below key d n h f (f m)) (hlt : key (f m) < key x)
      (hrest : Sinks (Function.update f h (f m)) m g i) : Sinks f h g i

variable {key d n x} {g : Nat → T} {i : Nat}

variable (hr : Rises key d x f h g i)
include hr

theorem Rises.le : i ≤ h := by
  induction hr with
  | refl => exact le_refl _
  | up hpos _ _ ih => exact ih.trans (parent_lt hpos).le

theorem Rises.hole (hh : h < n) (hf : Hole key d n h f) (hbelow : Below key d n h f x) :
    Hole key d n i g ∧ Below key d n i g x := by
  induction hr with
  | refl => exact ⟨hf, hbelow⟩
  | up hpos hlt _ ih =>
    obtain ⟨hf', hbelow'⟩ := hf.up hpos hh hlt
    exact ih ((parent_lt hpos).trans hh) hf' hbelow'

theorem Rises.items (hh : h < n) :
    (items n (update g i x)).Perm (items n (update f h x)) := by
  induction hr with
  | refl => exact List.Perm.refl _
  | up hpos _ _ ih =>
    have hup := parent_lt (d := d) hpos
    exact (ih (hup.trans hh)).trans (items_move hh (hup.trans hh) hup.ne _ x)

theorem Rises.after {j : Nat} (hj : h < j) : g j = f j := by
  induction hr with
  | refl => rfl
  | up hpos _ _ ih => rw [ih ((parent_lt hpos).trans hj), update_of_ne hj.ne']

/-- Elements only come down. -/
theorem Rises.origin (j : Nat) : ∃ j' ≤ j, g j = f j' := by
  induction hr with
  | refl => exact ⟨j, le_refl j, rfl⟩
  | @up f g h i hpos _ _ ih =>
    obtain ⟨k, hk, heq⟩ := ih
    by_cases hkh : k = h
    · rw [hkh, update_self] at heq
      exact ⟨parent d h, ((parent_lt hpos).le.trans hkh.ge).trans hk, heq⟩
    · rw [update_of_ne hkh] at heq
      exact ⟨k, hk, heq⟩

/-- An element that is not smaller than the root does not get there. -/
theorem Rises.root (hpos : 0 < h) (hroot : key (f 0) ≤ key x) : 0 < i ∧ g 0 = f 0 := by
  induction hr with
  | refl => exact ⟨hpos, rfl⟩
  | @up f g h i _ hlt _ ih =>
    have hup : 0 < parent d h := by
      apply Nat.pos_of_ne_zero
      intro hzero
      rw [hzero] at hlt
      exact absurd hroot (not_le.mpr hlt)
    rw [update_of_ne hpos.ne] at ih
    exact ih hup hroot

variable (hs : Sinks key d n x f h g i)
include hs

omit hr

theorem Sinks.le : h ≤ i := by
  induction hs with
  | refl => exact le_refl _
  | down hm _ hparent _ _ _ ih => exact (hparent ▸ (parent_lt hm).le : _ ≤ _).trans ih

theorem Sinks.hole (hf : Hole key d n h f) (habove : Above key d h f x) :
    Hole key d n i g ∧ Above key d i g x := by
  induction hs with
  | refl => exact ⟨hf, habove⟩
  | down hm hmn hparent hmin hlt _ ih =>
    obtain ⟨hf', habove'⟩ := hf.down hm hmn hparent hmin hlt
    exact ih hf' habove'

theorem Sinks.items (hh : h < n) :
    (items n (update g i x)).Perm (items n (update f h x)) := by
  induction hs with
  | refl => exact List.Perm.refl _
  | down hm hmn hparent _ _ _ ih =>
    exact (ih hmn).trans (items_move hh hmn (hparent ▸ (parent_lt hm).ne') _ x)

/-- Slots before the hole are not touched. -/
theorem Sinks.before {j : Nat} (hj : j < h) : g j = f j := by
  induction hs with
  | refl => rfl
  | @down f g h m i hm _ hparent _ _ _ ih =>
    have hhm : h < m := hparent ▸ parent_lt hm
    rw [ih (hj.trans hhm), update_of_ne hj.ne]

end Order

end DHeap
