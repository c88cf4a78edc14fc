import Mathlib

/-!
# `Lib.Runs` — canonical lists of maximal runs

A set of natural numbers bounded by `b` can be kept as the list of its maximal runs: increasing, every
run non-empty, and two neighbours never touching. This file is the algebra of that representation, with
no reference to how the list is stored:

* `Canonical b rs` — the representation invariant;
* `cover rs` — the set the list stands for, and `Canonical.maximalRun_iff`: the runs of a canonical list are
  exactly the maximal runs of its cover;
* `Spaced b rs` — the invariant without the condition that no run is empty;
* `Coalesce rs x rs'` — adding a run and gluing it to the neighbours it touches;
* `Carve rs r n rs'` — cutting the first `n` elements off one run.

`Coalesce` and `Carve` are relations and not functions: a data structure that stores the runs in some other
shape proves that its operation *realises* one of them, and inherits the rest from here.
-/

namespace Runs

open List

/-- A run of consecutive naturals `[start, start + len)`. -/
structure Run where
  start : Nat
  len : Nat
deriving DecidableEq, Repr

/-- One past the last element. -/
def Run.stop (r : Run) : Nat := r.start + r.len

/-- The elements of a run. -/
def Run.elems (r : Run) : Set Nat := {u | r.start ≤ u ∧ u < r.stop}

/-- The set a list of runs stands for. -/
def cover (rs : List Run) : Set Nat := {u | ∃ r ∈ rs, u ∈ r.elems}

/-- The number of elements, run by run. -/
def total (rs : List Run) : Nat := (rs.map Run.len).sum

/-- **The representation invariant.** Runs increase with a gap between neighbours, none is empty, and all of
    them stop below `b`. -/
structure Canonical (b : Nat) (rs : List Run) : Prop where
  gap : rs.Pairwise (fun r s => r.stop < s.start)
  pos : ∀ r ∈ rs, 0 < r.len
  lt : ∀ r ∈ rs, r.stop < b

/-- The invariant for lists that may hold empty runs. -/
structure Spaced (b : Nat) (rs : List Run) : Prop where
  gap : rs.Pairwise (fun r s => r.stop < s.start)
  lt : ∀ r ∈ rs, r.stop < b

/-- `r` is a maximal run of `S`: non-empty, inside `S`, and extensible on neither side. -/
def MaximalRun (S : Set Nat) (r : Run) : Prop :=
  0 < r.len ∧ (∀ u ∈ r.elems, u ∈ S) ∧ r.stop ∉ S ∧ ∀ u, u + 1 = r.start → u ∉ S

/-! ## Membership, append and total -/

@[simp] theorem stop_mk (i n : Nat) : (Run.mk i n).stop = i + n := rfl

@[simp] theorem mem_elems {r : Run} {u : Nat} : u ∈ r.elems ↔ r.start ≤ u ∧ u < r.stop := Iff.rfl

@[simp] theorem mem_cover {rs : List Run} {u : Nat} : u ∈ cover rs ↔ ∃ r ∈ rs, u ∈ r.elems := Iff.rfl

theorem cover_cons (r : Run) (rs : List Run) : cover (r :: rs) = r.elems ∪ cover rs := by
  ext u; simp

theorem cover_append (rs ss : List Run) : cover (rs ++ ss) = cover rs ∪ cover ss := by
  ext u
  simp only [mem_cover, mem_append, Set.mem_union]
  constructor
  · rintro ⟨r, hr | hr, hu⟩
    · exact Or.inl ⟨r, hr, hu⟩
    · exact Or.inr ⟨r, hr, hu⟩
  · rintro (⟨r, hr, hu⟩ | ⟨r, hr, hu⟩)
    · exact ⟨r, Or.inl hr, hu⟩
    · exact ⟨r, Or.inr hr, hu⟩

@[simp] theorem total_nil : total [] = 0 := rfl

@[simp] theorem total_cons (r : Run) (rs : List Run) : total (r :: rs) = r.len + total rs := by
  simp [total]

@[simp] theorem total_append (rs ss : List Run) : total (rs ++ ss) = total rs + total ss := by
  simp [total]

/-! ## Runs with gaps -/

variable {b : Nat} {rs ss ms : List Run} {r : Run}

theorem Canonical.spaced (h : Canonical b rs) : Spaced b rs := ⟨h.gap, h.lt⟩

theorem spaced_append :
    Spaced b (rs ++ ss) ↔ Spaced b rs ∧ Spaced b ss ∧ ∀ r ∈ rs, ∀ s ∈ ss, r.stop < s.start := by
  constructor
  · rintro ⟨hg, hl⟩
    obtain ⟨h1, h2, h3⟩ := pairwise_append.mp hg
    obtain ⟨hl1, hl2⟩ := forall_mem_append.mp hl
    exact ⟨⟨h1, hl1⟩, ⟨h2, hl2⟩, h3⟩
  · rintro ⟨h1, h2, h3⟩
    exact ⟨pairwise_append.mpr ⟨h1.gap, h2.gap, h3⟩, forall_mem_append.mpr ⟨h1.lt, h2.lt⟩⟩

theorem spaced_cons :
    Spaced b (r :: rs) ↔ r.stop < b ∧ (∀ s ∈ rs, r.stop < s.start) ∧ Spaced b rs := by
  constructor
  · rintro ⟨hg, hl⟩
    obtain ⟨h1, h2⟩ := pairwise_cons.mp hg
    obtain ⟨hl1, hl2⟩ := forall_mem_cons.mp hl
    exact ⟨hl1, h1, h2, hl2⟩
  · rintro ⟨hl, hg, h⟩
    exact ⟨pairwise_cons.mpr ⟨hg, h.gap⟩, forall_mem_cons.mpr ⟨hl, h.lt⟩⟩

/-- The middle of a list may be exchanged for one run that keeps clear of both sides. -/
theorem Spaced.replace {as ms bs : List Run} (h : Spaced b (as ++ ms ++ bs)) (hl : r.stop < b)
    (ha : ∀ a ∈ as, a.stop < r.start) (hb : ∀ c ∈ bs, r.stop < c.start) : Spaced b (as ++ r :: bs) := by
  obtain ⟨ham, hbs, hab⟩ := spaced_append.mp h
  obtain ⟨has, -, -⟩ := spaced_append.mp ham
  refine spaced_append.mpr ⟨has, spaced_cons.mpr ⟨hl, hb, hbs⟩, ?_⟩
  intro a haa c hc
  rcases mem_cons.mp hc with rfl | hc
  · exact ha a haa
  · exact hab a (mem_append_left _ haa) c hc

theorem Spaced.mono {b b' : Nat} (h : Spaced b rs) (hb : b ≤ b') : Spaced b' rs :=
  ⟨h.gap, fun r hr => Nat.lt_of_lt_of_le (h.lt r hr) hb⟩

/-- The runs fit below the bound one after the other, each with the element after it. -/
theorem Spaced.total_add_length_le (h : Spaced b rs) : total rs + rs.length ≤ b := by
  -- The induction carries a lower bound of all starts: from there on the runs are disjoint and stop below `b`.
  suffices hs : ∀ (rs : List Run) (lo : Nat), Spaced b rs → (∀ r ∈ rs, lo ≤ r.start) → lo ≤ b →
      lo + (total rs + rs.length) ≤ b by
    have := hs rs 0 h (fun _ _ => Nat.zero_le _) (Nat.zero_le _)
    omega
  intro rs
  induction rs with
  | nil => intro lo _ _ hlo; simpa using hlo
  | cons r rs ih =>
    intro lo hc hlo _
    obtain ⟨hl, hg, hrs⟩ := spaced_cons.mp hc
    have hr : lo ≤ r.start := hlo r (by simp)
    have hrest := ih (r.stop + 1) hrs hg hl
    rw [total_cons, length_cons]
    simp only [Run.stop] at hrest
    omega

theorem Spaced.total_lt (h : Spaced b rs) (hb : 0 < b) : total rs < b := by
  cases rs with
  | nil => exact hb
  | cons r rs =>
    have := h.total_add_length_le
    rw [length_cons] at this
    omega

/-- The number of empty runs. -/
def empties (rs : List Run) : Nat := rs.countP (fun r => r.len = 0)

theorem length_le_total_add_empties (rs : List Run) : rs.length ≤ total rs + empties rs := by
  induction rs with
  | nil => simp
  | cons r rs ih =>
    rw [total_cons, length_cons, empties, countP_cons]
    by_cases h : r.len = 0
    · simp only [h, decide_true, if_true]
      simp only [empties] at ih
      omega
    · simp only [h, decide_false, Bool.false_eq_true, if_false]
      simp only [empties] at ih
      omega

/-- **How many runs fit below a bound**: all but the empty ones need two places. -/
theorem Spaced.length_le (h : Spaced b rs) : 2 * rs.length ≤ b + empties rs := by
  have h1 := h.total_add_length_le
  have h2 := length_le_total_add_empties rs
  omega

/-! ## The canonical form -/

theorem canonical_nil : Canonical b [] :=
  ⟨List.Pairwise.nil, by simp, by simp⟩

/-- Canonical runs are spaced ones that are not empty. -/
theorem canonical_iff : Canonical b rs ↔ Spaced b rs ∧ ∀ r ∈ rs, 0 < r.len :=
  ⟨fun h => ⟨⟨h.gap, h.lt⟩, h.pos⟩, fun h => ⟨h.1.gap, h.2, h.1.lt⟩⟩

/-- Splitting the invariant at an append: both halves are canonical and every run on the left stops short of
    every run on the right. -/
theorem canonical_append :
    Canonical b (rs ++ ss) ↔
      Canonical b rs ∧ Canonical b ss ∧ ∀ r ∈ rs, ∀ s ∈ ss, r.stop < s.start := by
  rw [canonical_iff, canonical_iff, canonical_iff, spaced_append, forall_mem_append]
  tauto

theorem canonical_cons :
    Canonical b (r :: rs) ↔
      0 < r.len ∧ r.stop < b ∧ (∀ s ∈ rs, r.stop < s.start) ∧ Canonical b rs := by
  rw [canonical_iff, canonical_iff, spaced_cons, forall_mem_cons]
  tauto

/-- The runs of a canonical list fit below its bound one after the other. -/
theorem Canonical.total_lt (h : Canonical b rs) (hb : 0 < b) : total rs < b := h.spaced.total_lt hb

/-- Two runs of a canonical list are equal or have a gap between them. -/
theorem Canonical.eq_or_apart (h : Canonical b rs) {r s : Run} (hr : r ∈ rs)
    (hs : s ∈ rs) : r = s ∨ r.stop < s.start ∨ s.stop < r.start :=
  List.Pairwise.forall_of_forall_of_flip (R := fun r s => r = s ∨ r.stop < s.start ∨ s.stop < r.start)
    (fun _ _ => Or.inl rfl) (h.gap.imp (fun hlt => Or.inr (Or.inl hlt)))
    (h.gap.imp (fun hlt => Or.inr (Or.inr hlt))) hr hs

/-- Consecutive elements of the cover lie in one run. -/
theorem Canonical.subset_run (h : Canonical b rs) (hpos : 0 < r.len) (hsub : r.elems ⊆ cover rs) :
    ∃ s ∈ rs, s.start ≤ r.start ∧ r.stop ≤ s.stop := by
  obtain ⟨s, hs, hstart⟩ := hsub (show r.start ∈ r.elems by simp only [mem_elems, Run.stop]; omega)
  simp only [mem_elems] at hstart
  refine ⟨s, hs, hstart.1, Nat.not_lt.mp fun hlt => ?_⟩
  -- `s.stop` is in `r`, hence in some run of the list; that run overlaps or touches `s`
  obtain ⟨q, hq, hin⟩ := hsub (show s.stop ∈ r.elems by simp only [mem_elems]; omega)
  simp only [mem_elems] at hin
  rcases h.eq_or_apart hq hs with rfl | hlt' | hlt' <;> omega

/-- **The runs of a canonical list are the maximal runs of its cover.** -/
theorem Canonical.maximalRun_iff (h : Canonical b rs) :
    MaximalRun (cover rs) r ↔ r ∈ rs := by
  constructor
  · rintro ⟨hp, hin, hstop, hstart⟩
    obtain ⟨s, hs, hfrom, hto⟩ := h.subset_run hp hin
    -- `r` cannot start after `s` does, or stop before: the element next to it would be covered
    have hst : r.start = s.start := by
      by_contra hne
      refine hstart (r.start - 1) (by omega) ⟨s, hs, ?_⟩
      simp only [mem_elems, Run.stop] at hto ⊢
      omega
    have hle : s.stop ≤ r.stop := by
      by_contra hlt
      refine hstop ⟨s, hs, ?_⟩
      simp only [mem_elems, Run.stop] at hto hlt ⊢
      omega
    have hlen : r.len = s.len := by simp only [Run.stop] at hle hto; omega
    have : r = s := by cases r; cases s; simp_all
    exact this ▸ hs
  · intro hr
    refine ⟨h.pos r hr, fun u hu => ⟨r, hr, hu⟩, ?_, ?_⟩
    · rintro ⟨s, hs, hu⟩
      simp only [mem_elems] at hu
      rcases h.eq_or_apart hr hs with rfl | hlt | hlt
      · omega
      · omega
      · simp only [Run.stop] at hu hlt; omega
    · rintro u hu ⟨s, hs, hus⟩
      simp only [mem_elems] at hus
      rcases h.eq_or_apart hr hs with rfl | hlt | hlt
      · omega
      · simp only [Run.stop] at hus hlt; omega
      · omega

/-! ## Adding a run — `Coalesce` -/

/-- `Glue ms x r`: the run `x` and the neighbours `ms` it touches (none, the left one, the right one, both)
    make up the run `r`. -/
inductive Glue : List Run → Run → Run → Prop where
  | none (x) : Glue [] x x
  | left (n x) : n.stop = x.start → Glue [n] x ⟨n.start, n.len + x.len⟩
  | right (n x) : x.stop = n.start → Glue [n] x ⟨x.start, x.len + n.len⟩
  | both (n x k) : n.stop = x.start → x.stop = k.start → Glue [n, k] x ⟨n.start, n.len + x.len + k.len⟩

/-- `rs'` is `rs` with `x` added in place and glued to its neighbours. -/
def Coalesce (rs : List Run) (x : Run) (rs' : List Run) : Prop :=
  ∃ as ms bs r, rs = as ++ ms ++ bs ∧ rs' = as ++ r :: bs ∧ Glue ms x r ∧
    (∀ a ∈ as, a.stop < x.start) ∧ ∀ c ∈ bs, x.stop < c.start

theorem Glue.total {x : Run} (h : Glue ms x r) : r.len = total ms + x.len := by
  cases h <;> simp <;> omega

theorem Glue.elems {x : Run} (h : Glue ms x r) : r.elems = cover ms ∪ x.elems := by
  ext u
  cases h with
  | none => simp
  | left n _ h1 | right n _ h1 => simp [Run.stop] at h1 ⊢; omega
  | both n _ k h1 h2 => simp [Run.stop] at h1 h2 ⊢; omega

section Coalesce
variable {b : Nat} {rs rs' : List Run} {x : Run}

/-- The glued run starts where its leftmost part does and stops where its rightmost part does. -/
theorem Glue.bounds {ms : List Run} {x r : Run} (h : Glue ms x r) :
    (r.start = x.start ∨ ∃ n ∈ ms, r.start = n.start) ∧ (r.stop = x.stop ∨ ∃ n ∈ ms, r.stop = n.stop) := by
  cases h with
  | none => simp
  | left n _ h1 =>
    refine ⟨Or.inr ⟨n, by simp, rfl⟩, Or.inl ?_⟩
    simp only [Run.stop] at h1 ⊢; omega
  | right n _ h1 =>
    refine ⟨Or.inl rfl, Or.inr ⟨n, by simp, ?_⟩⟩
    simp only [Run.stop] at h1 ⊢; omega
  | both n _ k h1 h2 =>
    refine ⟨Or.inr ⟨n, by simp, rfl⟩, Or.inr ⟨k, by simp, ?_⟩⟩
    simp only [Run.stop] at h1 h2 ⊢; omega

theorem Coalesce.spaced (hc : Spaced b rs) (hb : x.stop < b) (h : Coalesce rs x rs') : Spaced b rs' := by
  obtain ⟨as, ms, bs, r, rfl, rfl, hglue, ha, hbs⟩ := h
  obtain ⟨ham, -, hab⟩ := spaced_append.mp hc
  obtain ⟨-, -, ham'⟩ := spaced_append.mp ham
  refine hc.replace ?_ ?_ ?_
  · rcases hglue.bounds.2 with h | ⟨n, hn, h⟩
    · omega
    · rw [h]; exact ham.lt n (mem_append_right _ hn)
  · intro a haa
    rcases hglue.bounds.1 with h | ⟨n, hn, h⟩
    · rw [h]; exact ha a haa
    · rw [h]; exact ham' a haa n hn
  · intro c hcc
    rcases hglue.bounds.2 with h | ⟨n, hn, h⟩
    · rw [h]; exact hbs c hcc
    · rw [h]; exact hab n (mem_append_right _ hn) c hcc

theorem Coalesce.canonical (hc : Canonical b rs) (hx : 0 < x.len) (hb : x.stop < b)
    (h : Coalesce rs x rs') : Canonical b rs' := by
  obtain ⟨hgap, hlt⟩ := h.spaced hc.spaced hb
  refine ⟨hgap, ?_, hlt⟩
  obtain ⟨as, ms, bs, r, rfl, rfl, hglue, -, -⟩ := h
  have hlen := hglue.total
  intro s hs
  rcases mem_append.mp hs with h | h
  · exact hc.pos s (by simp [h])
  · rcases mem_cons.mp h with rfl | h
    · omega
    · exact hc.pos s (by simp [h])

theorem Coalesce.cover (h : Coalesce rs x rs') : cover rs' = cover rs ∪ x.elems := by
  obtain ⟨as, ms, bs, r, rfl, rfl, hglue, -, -⟩ := h
  rw [cover_append, cover_cons, hglue.elems, cover_append, cover_append]
  ext u; simp only [Set.mem_union]; tauto

theorem Coalesce.empties_le (hx : 0 < x.len) (h : Coalesce rs x rs') : empties rs' ≤ empties rs := by
  obtain ⟨as, ms, bs, r, rfl, rfl, hglue, -, -⟩ := h
  have hr : ¬ r.len = 0 := by
    have := hglue.total
    omega
  simp only [empties, countP_append, countP_cons, hr, decide_false, Bool.false_eq_true, if_false]
  omega

theorem Coalesce.total (h : Coalesce rs x rs') : total rs' = total rs + x.len := by
  obtain ⟨as, ms, bs, r, rfl, rfl, hglue, -, -⟩ := h
  simp only [total_append, total_cons, hglue.total]; omega

/-- A run that could be added was disjoint from the list. -/
theorem Coalesce.disjoint (hc : Canonical b rs) (h : Coalesce rs x rs') : Disjoint x.elems (Runs.cover rs) := by
  obtain ⟨as, ms, bs, r, rfl, rfl, hglue, ha, hbs⟩ := h
  rw [Set.disjoint_left]
  rintro u hux ⟨s, hs, hus⟩
  simp only [mem_elems] at hux hus
  rw [append_assoc, mem_append, mem_append] at hs
  rcases hs with hs | hs | hs
  · have := ha s hs; omega
  · cases hglue with
    | none => simp at hs
    | left n _ h1 | right n _ h1 => simp only [mem_singleton] at hs; subst hs; omega
    | both n _ k h1 h2 =>
      rcases mem_cons.mp hs with rfl | hs
      · omega
      · simp only [mem_singleton] at hs; subst hs; omega
  · have := hbs s hs; omega

end Coalesce

/-! ## Cutting the head off a run — `Carve` -/

/-- What is left of `r` after its first `n` elements are cut off: nothing, or one shorter run. -/
def Run.rest (r : Run) (n : Nat) : List Run := if r.len = n then [] else [⟨r.start + n, r.len - n⟩]

/-- `rs'` is `rs` with the first `n` elements of its run `r` cut off. -/
def Carve (rs : List Run) (r : Run) (n : Nat) (rs' : List Run) : Prop :=
  ∃ as bs, rs = as ++ r :: bs ∧ rs' = as ++ r.rest n ++ bs

section Carve
variable {b n : Nat} {rs rs' : List Run} {r : Run}

theorem Carve.mem (h : Carve rs r n rs') : r ∈ rs := by
  obtain ⟨as, bs, rfl, -⟩ := h; simp

theorem Carve.spaced (hc : Spaced b rs) (hn : n ≤ r.len) (h : Carve rs r n rs') : Spaced b rs' := by
  obtain ⟨as, bs, rfl, rfl⟩ := h
  obtain ⟨has, hr, hab⟩ := spaced_append.mp hc
  obtain ⟨hl, hrb, hbs⟩ := spaced_cons.mp hr
  unfold Run.rest
  split
  · rw [append_nil]
    exact spaced_append.mpr ⟨has, hbs, fun a ha c hcc => hab a ha c (by simp [hcc])⟩
  · rw [append_assoc, singleton_append]
    have hc' : Spaced b (as ++ [r] ++ bs) := by simpa using hc
    refine hc'.replace ?_ ?_ ?_
    · show r.start + n + (r.len - n) < b
      simp only [Run.stop] at hl; omega
    · intro a ha
      have := hab a ha r (by simp)
      show a.stop < r.start + n
      omega
    · intro c hcc
      have := hrb c hcc
      show r.start + n + (r.len - n) < c.start
      simp only [Run.stop] at this; omega

theorem Carve.canonical (hc : Canonical b rs) (hn : n ≤ r.len) (h : Carve rs r n rs') : Canonical b rs' := by
  obtain ⟨hgap, hlt⟩ := h.spaced hc.spaced hn
  refine ⟨hgap, ?_, hlt⟩
  obtain ⟨as, bs, rfl, rfl⟩ := h
  intro s hs
  rcases mem_append.mp hs with h | h
  · rcases mem_append.mp h with h | h
    · exact hc.pos s (by simp [h])
    · unfold Run.rest at h
      split at h
      · simp at h
      · rw [mem_singleton] at h
        subst h
        change 0 < r.len - n
        omega
  · exact hc.pos s (by simp [h])

theorem Carve.empties_le (hn : n ≤ r.len) (h : Carve rs r n rs') : empties rs' ≤ empties rs := by
  obtain ⟨as, bs, rfl, rfl⟩ := h
  have hrest : (r.rest n).countP (fun s => s.len = 0) = 0 := by
    unfold Run.rest
    split
    · rfl
    · rename_i hne
      have hpos : ¬ r.len - n = 0 := by omega
      simp [hpos]
  simp only [empties, countP_append, countP_cons, hrest]
  omega

theorem Carve.length (h : Carve rs r n rs') : rs'.length + 1 = rs.length + (r.rest n).length := by
  obtain ⟨as, bs, rfl, rfl⟩ := h
  simp only [length_append, length_cons]
  omega

theorem Carve.total (hn : n ≤ r.len) (h : Carve rs r n rs') : total rs = total rs' + n := by
  obtain ⟨as, bs, rfl, rfl⟩ := h
  unfold Run.rest
  split <;> simp <;> omega

/-- The new cover is the old one less exactly the elements cut off. -/
theorem Carve.cover (hc : Canonical b rs) (hn : n ≤ r.len) (h : Carve rs r n rs') :
    cover rs' = cover rs \ (Run.mk r.start n).elems := by
  have hmem := h.mem
  obtain ⟨as, bs, rfl, rfl⟩ := h
  obtain ⟨-, hr, hab⟩ := canonical_append.mp hc
  obtain ⟨-, -, hrb, -⟩ := canonical_cons.mp hr
  have hrest : Runs.cover (r.rest n) = r.elems \ (Run.mk r.start n).elems := by
    ext u
    unfold Run.rest
    split
    · simp [Run.stop]; omega
    · simp [Run.stop]; omega
  have hout : ∀ s, s ∈ as ∨ s ∈ bs → ∀ u ∈ s.elems, u ∉ (Run.mk r.start n).elems := by
    rintro s (hs | hs) u hu hu'
    · have := hab s hs r (by simp)
      simp only [mem_elems, stop_mk] at hu hu'; omega
    · have := hrb s hs
      simp only [mem_elems, Run.stop] at hu hu' this; omega
  ext u
  simp only [cover_append, cover_cons, hrest, Set.mem_union, Set.mem_sdiff]
  constructor
  · rintro ((⟨s, hs, hu⟩ | ⟨hu, hu'⟩) | ⟨s, hs, hu⟩)
    · exact ⟨Or.inl ⟨s, hs, hu⟩, hout s (Or.inl hs) u hu⟩
    · exact ⟨Or.inr (Or.inl hu), hu'⟩
    · exact ⟨Or.inr (Or.inr ⟨s, hs, hu⟩), hout s (Or.inr hs) u hu⟩
  · rintro ⟨hu | hu | hu, hu'⟩
    · exact Or.inl (Or.inl hu)
    · exact Or.inl (Or.inr ⟨hu, hu'⟩)
    · exact Or.inr hu

end Carve

end Runs
