import CangjieRuntime.Heap.Correctness.TreeHeap

/-!
# `Heap.Correctness.TreeInvariant` — the tree over whole runs, and the set of units it stands for

`Invariant` puts the three sides of the representation together: the in-order list is canonical, the counts are
a heap, `totalCount` is the sum. One spec lemma per operation says which abstract step on the run list it takes
and that it keeps the invariant (`mergeInsert_spec`, `takeUnits_spec`, `releaseRootNode_spec`). The two main
results are read off from these: no valid sequence of calls aborts, and the invariant holds after it; on a
reachable tree the calls are the set operations on the free units.
-/

namespace CangjieRuntime.CartesianTree

open Runs Word Node

/-- The representation invariant of a tree. -/
structure Invariant (t : CartesianTree) : Prop where
  runs : Canonical (2 ^ 32) t.root.inorder
  heap : MaxHeap t.root
  sum : t.totalCount = total t.root.inorder

/-- The set of free units a tree stands for. -/
def units (t : CartesianTree) : Set Nat := cover t.root.inorder

theorem invariant_empty : Invariant empty := ⟨canonical_nil, trivial, rfl⟩

/-- No run of a heap is longer than the root's. -/
theorem MaxHeap.len_le_root {n : Node} (h : MaxHeap n) : ∀ r ∈ n.inorder, r.len ≤ n.getCount := by
  induction n with
  | null => intro r hr; simp [Node.inorder] at hr
  | node l i c r ihl ihr =>
    obtain ⟨hl, hr⟩ := maxHeap_node.mp h
    intro s hs
    rcases List.mem_append.mp hs with hs | hs
    · exact (ihl hl.2 s hs).trans hl.1
    · rcases List.mem_cons.mp hs with rfl | hs
      · exact Nat.le_refl _
      · exact (ihr hr.2 s hs).trans hr.1

/-- The runs of the frames above a link are runs of the tree. -/
theorem frame_mem {fs : List Frame} {f : Frame} (h : f ∈ fs) (n : Node) :
    ⟨f.index, f.count⟩ ∈ (plugAll fs n).inorder := by
  rw [inorder_plugAll]
  induction fs with
  | nil => simp at h
  | cons g fs ih =>
    rcases List.mem_cons.mp h with rfl | h
    · cases hd : f.dir <;> simp [beforeAll, afterAll, Frame.before, Frame.after, hd]
    · have := ih h
      simp only [List.mem_append, beforeAll, afterAll] at this ⊢
      tauto

/-! ## One spec per operation -/

variable {t : CartesianTree} {num : Nat}

/-- **`MergeInsert`** coalesces the range into the runs, or meets a clash and changes nothing. -/
theorem mergeInsert_spec (h : Invariant t) {idx num : Nat} (hnum : 0 < num)
    (hlt : idx + num < 2 ^ 32) :
    ((mergeInsert t idx num).1 = true ∧
        Coalesce t.root.inorder ⟨idx, num⟩ (mergeInsert t idx num).2.root.inorder ∧
        Invariant (mergeInsert t idx num).2) ∨
      ((mergeInsert t idx num).1 = false ∧ (mergeInsert t idx num).2 = t ∧
        Clash t.root.inorder ⟨idx, num⟩) := by
  have hstop : (Run.mk idx num).stop < 2 ^ 32 := hlt
  -- what is left to show of a successful insertion once the list and the heap are known
  have hdone : ∀ t' : CartesianTree, Coalesce t.root.inorder ⟨idx, num⟩ t'.root.inorder →
      t'.totalCount = add32 t.totalCount num → MaxHeap t'.root → Invariant t' := by
    intro t' hco htot hheap
    have hcan := hco.canonical h.runs hnum hstop
    refine ⟨hcan, hheap, ?_⟩
    have hsum := hco.total
    have := hcan.total_lt (by decide)
    rw [htot, h.sum, add32_eq (by simp only at hsum; omega)]
    exact hsum.symm
  unfold mergeInsert
  by_cases hroot : t.root = .null
  · rw [if_pos hroot]
    have hco : Coalesce t.root.inorder ⟨idx, num⟩ (Node.node .null idx num .null).inorder :=
      ⟨[], [], [], ⟨idx, num⟩, by rw [hroot]; rfl, rfl, Glue.none _, by simp, by simp⟩
    exact Or.inl ⟨rfl, hco, hdone _ hco rfl (maxHeap_node.mpr ⟨below_null _, below_null _⟩)⟩
  · rw [if_neg hroot, if_neg (by omega)]
    unfold mergeInsertInternal
    have hclear : PathClear idx num [] := ⟨by simp [beforeAll], by simp [afterAll]⟩
    obtain ⟨hok, hfail⟩ := insertLoop_spec hlt t.root [] t.totalCount h.runs.spaced hclear
    simp only
    cases hres : (insertLoop idx num t.root [] t.totalCount).ok with
    | false =>
      obtain ⟨htop, htot, hclash⟩ := hfail hres
      right
      rw [if_neg (by simp), htot, htop]
      exact ⟨rfl, rfl, hclash hnum h.runs.pos⟩
    | true =>
      obtain ⟨hco, htot, hclear'⟩ := hok hres
      have hcan := hco.canonical h.runs hnum hstop
      have hframes : ∀ f ∈ (insertLoop idx num t.root [] t.totalCount).link.path,
          f.index + f.count < 2 ^ 32 := fun f hf => hcan.lt ⟨f.index, f.count⟩ (frame_mem hf _)
      obtain ⟨b, hp, hg⟩ := insertLoop_grown hlt t.root [] t.totalCount h.runs h.heap hres
      obtain ⟨hbok, hbin⟩ := bubbleUp_inorder hlt _ (insertLoop idx num t.root [] t.totalCount).link.node
        hframes hclear'
      left
      rw [if_pos rfl]
      have hco' : Coalesce t.root.inorder ⟨idx, num⟩ (bubbleUp idx num
          (insertLoop idx num t.root [] t.totalCount).link.path
          (insertLoop idx num t.root [] t.totalCount).link.node).2.inorder := by
        rw [hbin]; exact hco
      exact ⟨hbok, hco', hdone _ hco' htot (bubbleUp_maxHeap hlt _ _ b hframes hclear' hp hg)⟩

/-- **`TakeUnits`** cuts `num` units off a run that is long enough, or there is no such run and nothing
    changes. -/
theorem takeUnits_spec (h : Invariant t) (hnum : 0 < num) :
    (∃ i c t', takeUnits t num = some (some i, t') ∧ num ≤ c ∧
        Carve t.root.inorder ⟨i, c⟩ num t'.root.inorder ∧ Invariant t') ∨
      (takeUnits t num = some (none, t) ∧ ∀ r ∈ t.root.inorder, r.len < num) := by
  rcases takeUnits_cases hnum h.runs.spaced h.sum with
    ⟨hnone, hsmall⟩ | ⟨k, l, i, c, r, t', -, htop, -, hk, hcnt, hclt, htake, hres, hcarve, htot⟩
  · exact .inr ⟨hnone, fun r hr => Nat.lt_of_le_of_lt (h.heap.len_le_root r hr) hsmall⟩
  · refine .inl ⟨i, c, t', hres, hcnt, hcarve, hcarve.canonical h.runs hcnt, ?_, ?_⟩
    · exact takeFrom_maxHeap hk (htop ▸ h.heap) hclt hcnt htake
    · have hsum := hcarve.total hcnt
      rw [← h.sum] at hsum
      omega

/-- **`ReleaseRootNode`** on a non-empty tree takes the root's whole run out. -/
theorem releaseRootNode_spec (h : Invariant t) {l r : Node} {i c : Nat}
    (hroot : t.root = .node l i c r) :
    ∃ t', releaseRootNode t = some t' ∧ Carve t.root.inorder ⟨i, c⟩ c t'.root.inorder ∧ Invariant t' := by
  obtain ⟨root, hrem, hrel, hcarve, hge⟩ := releaseRootNode_carve h.runs.spaced h.sum hroot
  refine ⟨_, hrel, hcarve, hcarve.canonical h.runs (Nat.le_refl _), ?_, ?_⟩
  · obtain ⟨hl, hr⟩ := maxHeap_node.mp (hroot ▸ h.heap)
    have hlow : Lowerable c ⟨[], .node l i 0 r⟩ := ⟨trivial, Nat.zero_le _, hl, hr⟩
    exact removeZeroNode_maxHeap hlow rfl hrem
  · have hsum : total t.root.inorder = total root.inorder + c := hcarve.total (Nat.le_refl _)
    rw [← h.sum] at hsum
    show t.totalCount - c = total root.inorder
    omega

/-! ## Whole runs -/

/-- One valid call does not abort and keeps the invariant. -/
theorem exec_invariant (h : Invariant t) {op : Op} (hv : op.Valid t) :
    ∃ t', op.exec t = some t' ∧ Invariant t' := by
  cases op with
  | mergeInsert idx num =>
    refine ⟨_, rfl, ?_⟩
    rcases mergeInsert_spec h hv.1 hv.2 with ⟨-, -, hinv⟩ | ⟨-, hsame, -⟩
    · exact hinv
    · rw [hsame]; exact h
  | takeUnits num =>
    by_cases hnum : num = 0
    · refine ⟨t, ?_, h⟩
      show (takeUnits t num).map Prod.snd = some t
      rw [takeUnits, if_pos (Or.inr hnum)]; rfl
    · rcases takeUnits_spec h (Nat.pos_of_ne_zero hnum) with ⟨i, c, t', htake, -, -, hinv⟩ | ⟨htake, -⟩
      · exact ⟨t', by simp [Op.exec, htake], hinv⟩
      · exact ⟨t, by simp [Op.exec, htake], h⟩
  | releaseRootNode =>
    cases hroot : t.root with
    | null => exact absurd hroot hv
    | node l i c r =>
      obtain ⟨t', hrel, -, hinv⟩ := releaseRootNode_spec h hroot
      exact ⟨t', hrel, hinv⟩

theorem execAll_invariant (h : Invariant t) {ops : List Op} (hv : ValidCalls t ops) :
    ∃ t', execAll t ops = some t' ∧ Invariant t' := by
  induction ops generalizing t with
  | nil => exact ⟨t, rfl, h⟩
  | cons op ops ih =>
    obtain ⟨t1, hexec, hinv⟩ := exec_invariant h hv.1
    obtain ⟨t', hrest, hinv'⟩ := ih hinv (hv.2 t1 hexec)
    exact ⟨t', by rw [execAll, hexec]; exact hrest, hinv'⟩

theorem Reachable.invariant (h : Reachable t) : Invariant t := by
  obtain ⟨ops, hv, hex⟩ := h
  obtain ⟨t', hex', hinv⟩ := execAll_invariant invariant_empty hv
  rw [hex, Option.some.injEq] at hex'
  exact hex' ▸ hinv

/-- **The representation invariant over whole runs.** From the empty tree, a valid sequence of calls never
    aborts, and afterwards the in-order runs increase with a gap between neighbours, the counts are a max-heap,
    no count is zero, and `totalCount` is their sum. -/
theorem calls_keep_invariant (ops : List Op) (hv : ValidCalls empty ops) :
    ∃ t, execAll empty ops = some t ∧
      t.root.inorder.Pairwise (fun r s => r.start + r.len < s.start) ∧
      MaxHeap t.root ∧
      (∀ r ∈ t.root.inorder, 0 < r.len) ∧
      t.totalCount = (t.root.inorder.map Run.len).sum := by
  obtain ⟨t, hex, hinv⟩ := execAll_invariant invariant_empty hv
  exact ⟨t, hex, hinv.runs.gap, hinv.heap, hinv.runs.pos, hinv.sum⟩

/-- A run of calls that merges with both neighbours, releases the root and takes a unit. -/
theorem calls_keep_invariant_sample :
    ValidCalls empty [.mergeInsert 4 2, .mergeInsert 0 2, .mergeInsert 2 2, .mergeInsert 9 3,
      .releaseRootNode, .takeUnits 1] ∧
    ∃ t, execAll empty [.mergeInsert 4 2, .mergeInsert 0 2, .mergeInsert 2 2, .mergeInsert 9 3,
        .releaseRootNode, .takeUnits 1] = some t ∧ MaxHeap t.root := by
  have hv : ValidCalls empty [.mergeInsert 4 2, .mergeInsert 0 2, .mergeInsert 2 2, .mergeInsert 9 3,
      .releaseRootNode, .takeUnits 1] := by
    refine ⟨by decide, fun t1 h1 => ?_⟩
    cases h1
    refine ⟨by decide, fun t2 h2 => ?_⟩
    cases h2
    refine ⟨by decide, fun t3 h3 => ?_⟩
    cases h3
    refine ⟨by decide, fun t4 h4 => ?_⟩
    cases h4
    exact ⟨by decide, fun _ _ => ⟨trivial, fun _ _ => trivial⟩⟩
  obtain ⟨t, hex, -, hheap, -, -⟩ := calls_keep_invariant _ hv
  exact ⟨hv, t, hex, hheap⟩

/-! ## Refinement of the unit set -/

/-- **The tree refines the set of its free units.** On a reachable tree `MergeInsert` succeeds exactly on
    ranges disjoint from the set and then adds them, and otherwise leaves the tree as it is; `TakeUnits`
    succeeds exactly when some maximal run is long enough, hands out a free range and removes exactly that,
    and otherwise leaves the tree as it is. -/
theorem calls_refine_units {t : CartesianTree} (hr : Reachable t) {num : Nat} (hnum : 0 < num) :
    (∀ idx, idx + num < 2 ^ 32 →
      ((mergeInsert t idx num).1 = true ↔ Disjoint (Run.mk idx num).elems t.units) ∧
      ((mergeInsert t idx num).1 = true →
        (mergeInsert t idx num).2.units = t.units ∪ (Run.mk idx num).elems) ∧
      ((mergeInsert t idx num).1 = false → (mergeInsert t idx num).2 = t)) ∧
    ∃ res t', takeUnits t num = some (res, t') ∧
      ((∃ idx, res = some idx) ↔ ∃ r, MaximalRun t.units r ∧ num ≤ r.len) ∧
      (∀ idx, res = some idx →
        (Run.mk idx num).elems ⊆ t.units ∧ t'.units = t.units \ (Run.mk idx num).elems) ∧
      (res = none → t' = t) := by
  have hinv := hr.invariant
  refine ⟨?_, ?_⟩
  · intro idx hlt
    rcases mergeInsert_spec hinv hnum hlt with ⟨hok, hco, -⟩ | ⟨hok, hsame, hclash⟩
    · refine ⟨⟨fun _ => hco.disjoint hinv.runs, fun _ => hok⟩, fun _ => hco.cover, ?_⟩
      intro hfalse; rw [hok] at hfalse; cases hfalse
    · rw [hok]
      exact ⟨⟨fun h => absurd h (by simp), fun hd => absurd hd hclash.not_disjoint⟩,
        fun h => absurd h (by simp), fun _ => hsame⟩
  · rcases takeUnits_spec hinv hnum with ⟨i, c, t', htake, hle, hcarve, -⟩ | ⟨htake, hsmall⟩
    · refine ⟨some i, t', htake, ⟨fun _ => ?_, fun _ => ⟨i, rfl⟩⟩, ?_, fun h => by cases h⟩
      · exact ⟨⟨i, c⟩, hinv.runs.maximalRun_iff.mpr hcarve.mem, hle⟩
      · intro idx hidx
        cases hidx
        refine ⟨?_, hcarve.cover hinv.runs hle⟩
        intro u hu
        refine ⟨⟨i, c⟩, hcarve.mem, ?_⟩
        simp only [mem_elems, stop_mk] at hu ⊢; omega
    · refine ⟨none, t, htake, ⟨?_, ?_⟩, fun idx hidx => absurd hidx (by simp), fun _ => rfl⟩
      · rintro ⟨idx, hidx⟩; cases hidx
      · rintro ⟨r, hmax, hle⟩
        have := hsmall r (hinv.runs.maximalRun_iff.mp hmax)
        omega

/-- The refinement on a tree with two separate runs, for ranges of two units. -/
theorem calls_refine_units_sample :
    Reachable ⟨3, .node .null 0 2 (.node .null 5 1 .null)⟩ ∧
    ((mergeInsert ⟨3, .node .null 0 2 (.node .null 5 1 .null)⟩ 1 2).1 = true ↔
      Disjoint (Run.mk 1 2).elems (units ⟨3, .node .null 0 2 (.node .null 5 1 .null)⟩)) := by
  have hr : Reachable ⟨3, .node .null 0 2 (.node .null 5 1 .null)⟩ :=
    ⟨[.mergeInsert 0 2, .mergeInsert 5 1], ⟨by decide, fun t1 h1 => by cases h1; exact ⟨by decide, fun _ _ => trivial⟩⟩,
      by decide⟩
  exact ⟨hr, ((calls_refine_units hr (by decide)).1 1 (by decide)).1⟩

end CangjieRuntime.CartesianTree
