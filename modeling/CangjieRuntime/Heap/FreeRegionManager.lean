import CangjieRuntime.Heap.Correctness.TreeInvariant
import CangjieRuntime.Heap.RegionInfo

/-!
# `Heap.FreeRegionManager` — dirty and released units

The allocator keeps the free units in two trees: *dirty* units still have their pages, *released* units have
given them back. `ReleaseGarbageRegions` moves units from the first tree to the second, largest run first, until
few enough dirty bytes are left. Its loop deletes the root of one tree and merge-inserts that run into the
other, so everything about it rests on the two specs `releaseRootNode_spec` and `mergeInsert_spec`.
-/

namespace CangjieRuntime

open Runs Word CartesianTree

/-- `FreeRegionManager`; the two mutexes only serialise the calls. -/
structure FreeRegionManager where
  releasedUnitTree : CartesianTree
  dirtyUnitTree : CartesianTree
deriving DecidableEq, Repr

namespace FreeRegionManager

variable (unit : UnitSize)

/-- Releasing the root takes one node out of the tree. -/
theorem releaseRootNode_length {t t' : CartesianTree} (h : t.releaseRootNode = some t') :
    t'.root.inorder.length < t.root.inorder.length := by
  unfold releaseRootNode removeNode at h
  cases hroot : t.root with
  | null => rw [hroot] at h; cases h
  | node l i c r =>
    rw [hroot] at h
    obtain ⟨root, hrem, hrin⟩ := removeZeroNode_spec (k := ⟨[], .node l i 0 r⟩) rfl
    simp only [hrem, Option.bind_eq_bind, Option.bind_eq_some_iff, Option.some.injEq] at h
    obtain ⟨total, -, root', rfl, rfl⟩ := h
    show root.inorder.length < _
    rw [hrin]
    simp [Node.inorder, beforeAll, afterAll]

/-- The `while` loop of `ReleaseGarbageRegions`; `none` is a failed `CHECK_DETAIL` (or an abort inside the
    tree). -/
def releaseLoop (targetCachedSize : Nat) (m : FreeRegionManager) (dirtyBytes releasedBytes : Nat) :
    Option (Nat × FreeRegionManager) :=
  if targetCachedSize < dirtyBytes then
    match m.dirtyUnitTree.root with
    | .null => some (releasedBytes, m)
    | .node _ idx num _ =>
      match _h : m.dirtyUnitTree.releaseRootNode with
      | none => none
      | some dirty =>
        let (ok, released) := m.releasedUnitTree.mergeInsert idx num
        if ok then
          releaseLoop targetCachedSize ⟨released, dirty⟩ (mul64 dirty.totalCount unit.UNIT_SIZE)
            (add64 releasedBytes (mul64 num unit.UNIT_SIZE))
        else none
  else some (releasedBytes, m)
termination_by m.dirtyUnitTree.root.inorder.length
decreasing_by exact releaseRootNode_length _h

/-- `ReleaseGarbageRegions(targetCachedSize)`: the released bytes and the new state. -/
def releaseGarbageRegions (m : FreeRegionManager) (targetCachedSize : Nat) : Option (Nat × FreeRegionManager) :=
  let dirtyBytes := mul64 m.dirtyUnitTree.totalCount unit.UNIT_SIZE
  if dirtyBytes ≤ targetCachedSize then some (0, m)
  else releaseLoop unit targetCachedSize m dirtyBytes 0

/-- Both trees are well formed and share no unit. -/
structure WellFormed (m : FreeRegionManager) : Prop where
  dirty : Invariant m.dirtyUnitTree
  released : Invariant m.releasedUnitTree
  apart : Disjoint m.dirtyUnitTree.units m.releasedUnitTree.units

/-- A count times the unit size fits a `size_t`. -/
theorem mul64_unit {n : Nat} (h : n < 2 ^ 32) : mul64 n unit.UNIT_SIZE = n * unit.UNIT_SIZE := by
  apply mul64_eq
  calc n * unit.UNIT_SIZE < 2 ^ 32 * 2 ^ 32 := Nat.mul_lt_mul'' h unit.lt
    _ = 2 ^ 64 := by decide

theorem totalCount_lt {t : CartesianTree} (h : Invariant t) : t.totalCount < 2 ^ 32 := by
  rw [h.sum]; exact h.runs.total_lt (by decide)

/-- What moving units from one tree to the other keeps: the union and the sum of the totals. -/
structure Moved (m m' : FreeRegionManager) : Prop where
  union : m'.dirtyUnitTree.units ∪ m'.releasedUnitTree.units = m.dirtyUnitTree.units ∪ m.releasedUnitTree.units
  dirty_le : m'.dirtyUnitTree.totalCount ≤ m.dirtyUnitTree.totalCount
  sum : m'.dirtyUnitTree.totalCount + m'.releasedUnitTree.totalCount =
    m.dirtyUnitTree.totalCount + m.releasedUnitTree.totalCount

theorem Moved.refl {m : FreeRegionManager} : Moved m m := ⟨rfl, Nat.le_refl _, rfl⟩

theorem Moved.trans {m m' m'' : FreeRegionManager} (h1 : Moved m m') (h2 : Moved m' m'') : Moved m m'' :=
  ⟨h2.union.trans h1.union, h2.dirty_le.trans h1.dirty_le, h2.sum.trans h1.sum⟩

/-- **One round of the loop.** Releasing the dirty root and inserting its run into the released tree passes both
    checks, keeps the state well formed and moves exactly that run. -/
theorem release_round {m : FreeRegionManager} (hm : WellFormed m) {l r : Node} {idx num : Nat}
    (hroot : m.dirtyUnitTree.root = .node l idx num r) :
    ∃ dirty released, m.dirtyUnitTree.releaseRootNode = some dirty ∧
      m.releasedUnitTree.mergeInsert idx num = (true, released) ∧
      WellFormed ⟨released, dirty⟩ ∧ Moved m ⟨released, dirty⟩ ∧
      dirty.totalCount + num = m.dirtyUnitTree.totalCount := by
  obtain ⟨dirty, hrel, hcarve, hdirty⟩ := releaseRootNode_spec hm.dirty hroot
  have hmem : (⟨idx, num⟩ : Run) ∈ m.dirtyUnitTree.root.inorder := hcarve.mem
  have hnum : 0 < num := hm.dirty.runs.pos _ hmem
  have hlt : idx + num < 2 ^ 32 := hm.dirty.runs.lt _ hmem
  have hsub : (Run.mk idx num).elems ⊆ m.dirtyUnitTree.units := fun u hu => ⟨_, hmem, hu⟩
  have hdu : dirty.units = m.dirtyUnitTree.units \ (Run.mk idx num).elems :=
    hcarve.cover hm.dirty.runs (Nat.le_refl _)
  have hdt : m.dirtyUnitTree.totalCount = dirty.totalCount + num := by
    rw [hm.dirty.sum, hdirty.sum]; exact hcarve.total (Nat.le_refl _)
  -- the run is free in the released tree because the trees were disjoint
  rcases mergeInsert_spec hm.released hnum hlt with ⟨hok, hco, hinv⟩ | ⟨-, -, hclash⟩
  · have hru := hco.cover
    have hrt : (m.releasedUnitTree.mergeInsert idx num).2.totalCount = m.releasedUnitTree.totalCount + num := by
      rw [hm.released.sum, hinv.sum]; exact hco.total
    refine ⟨dirty, (m.releasedUnitTree.mergeInsert idx num).2, hrel, Prod.ext hok rfl,
      ⟨hdirty, hinv, ?_⟩, ⟨?_, ?_, ?_⟩, hdt.symm⟩
    · show Disjoint dirty.units (cover _)
      rw [hru, hdu, Set.disjoint_union_right]
      exact ⟨hm.apart.mono_left Set.sdiff_subset, Set.disjoint_sdiff_left⟩
    · show dirty.units ∪ cover _ = _
      rw [hru, hdu, ← Set.union_assoc, Set.union_right_comm, Set.sdiff_union_of_subset hsub]
      rfl
    · show dirty.totalCount ≤ _; omega
    · show dirty.totalCount + (m.releasedUnitTree.mergeInsert idx num).2.totalCount = _
      omega
  · exact absurd (hm.apart.mono_left hsub) hclash.not_disjoint

/-- **The loop.** From a well-formed state it ends without a failed check, having moved units only, counted
    the bytes it moved, and with few enough dirty bytes or none at all. -/
theorem releaseLoop_spec (target : Nat) (n : Nat) :
    ∀ (m : FreeRegionManager) (releasedBytes : Nat), m.dirtyUnitTree.root.inorder.length = n → WellFormed m →
      releasedBytes + m.dirtyUnitTree.totalCount * unit.UNIT_SIZE < 2 ^ 64 →
      ∃ bytes m', releaseLoop unit target m (mul64 m.dirtyUnitTree.totalCount unit.UNIT_SIZE) releasedBytes =
        some (bytes, m') ∧
        WellFormed m' ∧ Moved m m' ∧
        bytes + m'.dirtyUnitTree.totalCount * unit.UNIT_SIZE =
          releasedBytes + m.dirtyUnitTree.totalCount * unit.UNIT_SIZE ∧
        (m'.dirtyUnitTree.totalCount * unit.UNIT_SIZE ≤ target ∨ m'.dirtyUnitTree.root = .null) := by
  induction n using Nat.strongRecOn with
  | ind n ih =>
    intro m releasedBytes hn hm hbytes
    have hmul := mul64_unit unit (totalCount_lt hm.dirty)
    rw [releaseLoop]
    split_ifs with hgo
    · cases hroot : m.dirtyUnitTree.root with
      | null => exact ⟨releasedBytes, m, rfl, hm, Moved.refl, rfl, Or.inr hroot⟩
      | node l idx num r =>
        obtain ⟨dirty, released, hrel, hins, hwf, hmoved, htot⟩ := release_round hm hroot
        have hnum : num < 2 ^ 32 := by have := totalCount_lt hm.dirty; omega
        have hsplit : m.dirtyUnitTree.totalCount * unit.UNIT_SIZE =
            dirty.totalCount * unit.UNIT_SIZE + num * unit.UNIT_SIZE := by rw [← htot, Nat.add_mul]
        have hadd : add64 releasedBytes (mul64 num unit.UNIT_SIZE) = releasedBytes + num * unit.UNIT_SIZE := by
          rw [mul64_unit unit hnum]; exact add64_eq (by omega)
        have hlen := releaseRootNode_length hrel
        obtain ⟨bytes, m', hloop, hwf', hmoved', hb, hend⟩ :=
          ih dirty.root.inorder.length (hn ▸ hlen) ⟨released, dirty⟩ (releasedBytes + num * unit.UNIT_SIZE) rfl hwf
            (by show releasedBytes + num * unit.UNIT_SIZE + dirty.totalCount * unit.UNIT_SIZE < 2 ^ 64; omega)
        refine ⟨bytes, m', ?_, hwf', hmoved.trans hmoved', ?_, hend⟩
        · simp only [hins, if_true, hadd]
          split
          · rename_i heq; rw [hrel] at heq; cases heq
          · rename_i d heq
            rw [hrel, Option.some.injEq] at heq
            subst heq
            exact hloop
        · simp only at hb; omega
    · exact ⟨releasedBytes, m, rfl, hm, Moved.refl, rfl, Or.inl (by omega)⟩

/-- **The call.** It ends like its loop, and a state already below the target is left alone. -/
theorem releaseGarbageRegions_spec {m : FreeRegionManager} (hm : WellFormed m) (target : Nat) :
    ∃ bytes m', releaseGarbageRegions unit m target = some (bytes, m') ∧ WellFormed m' ∧ Moved m m' ∧
      bytes + m'.dirtyUnitTree.totalCount * unit.UNIT_SIZE = m.dirtyUnitTree.totalCount * unit.UNIT_SIZE ∧
      (m'.dirtyUnitTree.totalCount * unit.UNIT_SIZE ≤ target ∨ m'.dirtyUnitTree.root = .null) ∧
      (m.dirtyUnitTree.totalCount * unit.UNIT_SIZE ≤ target → bytes = 0 ∧ m' = m) := by
  have hmul := mul64_unit unit (totalCount_lt hm.dirty)
  unfold releaseGarbageRegions
  by_cases hdone : mul64 m.dirtyUnitTree.totalCount unit.UNIT_SIZE ≤ target
  · exact ⟨0, m, by simp [hdone], hm, .refl, Nat.zero_add _, .inl (hmul ▸ hdone), fun _ => ⟨rfl, rfl⟩⟩
  · obtain ⟨bytes, m', hloop, hwf, hmoved, hb, hend⟩ := releaseLoop_spec unit target _ m 0 rfl hm
      (by rw [Nat.zero_add, ← hmul]; exact Nat.mod_lt _ (by decide))
    exact ⟨bytes, m', by simp [hdone, hloop], hwf, hmoved, hb.trans (Nat.zero_add _), hend,
      fun hle => absurd (hmul ▸ hle) hdone⟩

/-- **`ReleaseGarbageRegions` only moves units.** From every well-formed state and for every target the call
    ends with no failed check; the union of the unit sets is unchanged and they stay disjoint; the result is the
    unit size times what left the dirty tree, which is what entered the released tree; at the end the dirty
    bytes are at most the target or no unit is dirty; and a state already below the target is left alone. -/
theorem releaseGarbageRegions_moves_units {m : FreeRegionManager} (hm : WellFormed m) (target : Nat) :
    ∃ bytes m', releaseGarbageRegions unit m target = some (bytes, m') ∧
      m'.dirtyUnitTree.units ∪ m'.releasedUnitTree.units = m.dirtyUnitTree.units ∪ m.releasedUnitTree.units ∧
      Disjoint m'.dirtyUnitTree.units m'.releasedUnitTree.units ∧
      m'.dirtyUnitTree.totalCount ≤ m.dirtyUnitTree.totalCount ∧
      bytes = unit.UNIT_SIZE * (m.dirtyUnitTree.totalCount - m'.dirtyUnitTree.totalCount) ∧
      m.releasedUnitTree.totalCount ≤ m'.releasedUnitTree.totalCount ∧
      bytes = unit.UNIT_SIZE * (m'.releasedUnitTree.totalCount - m.releasedUnitTree.totalCount) ∧
      (m'.dirtyUnitTree.totalCount * unit.UNIT_SIZE ≤ target ∨ m'.dirtyUnitTree.root = .null) ∧
      (m.dirtyUnitTree.totalCount * unit.UNIT_SIZE ≤ target → bytes = 0 ∧ m' = m) := by
  obtain ⟨bytes, m', hcall, hwf, hmoved, hb, hend, hsame⟩ := releaseGarbageRegions_spec unit hm target
  have hle := hmoved.dirty_le
  have hsum := hmoved.sum
  have hbytes : bytes = unit.UNIT_SIZE * (m.dirtyUnitTree.totalCount - m'.dirtyUnitTree.totalCount) := by
    rw [Nat.mul_sub, Nat.mul_comm unit.UNIT_SIZE, Nat.mul_comm unit.UNIT_SIZE]
    omega
  refine ⟨bytes, m', hcall, hmoved.union, hwf.apart, hle, hbytes, by omega, ?_, hend, hsame⟩
  rw [hbytes]
  congr 1
  omega

/-- Two dirty runs on either side of a released one, nothing to be kept. -/
theorem releaseGarbageRegions_moves_units_sample :
    WellFormed ⟨⟨2, .node .null 2 2 .null⟩, ⟨3, .node .null 0 2 (.node .null 4 1 .null)⟩⟩ ∧
    ∃ bytes m', releaseGarbageRegions .page4K ⟨⟨2, .node .null 2 2 .null⟩,
      ⟨3, .node .null 0 2 (.node .null 4 1 .null)⟩⟩ 0
        = some (bytes, m') ∧ m'.dirtyUnitTree.totalCount ≤ 3 := by
  have hwf : WellFormed ⟨⟨2, .node .null 2 2 .null⟩, ⟨3, .node .null 0 2 (.node .null 4 1 .null)⟩⟩ := by
    refine ⟨⟨?_, ?_, rfl⟩, ⟨?_, ?_, rfl⟩, ?_⟩
    · exact ⟨by simp [Node.inorder], by simp [Node.inorder], by simp [Node.inorder]⟩
    · simp [MaxHeap, Node.getCount]
    · exact ⟨by simp [Node.inorder], by simp [Node.inorder], by simp [Node.inorder]⟩
    · simp [MaxHeap, Node.getCount]
    · rw [Set.disjoint_left]
      simp only [units, Node.inorder, mem_cover, mem_elems, List.nil_append, List.mem_cons, List.not_mem_nil,
        or_false]
      rintro u ⟨r, rfl | rfl, h1⟩ ⟨s, rfl, h2⟩ <;> simp only [stop_mk] at h1 h2 <;> omega
  obtain ⟨bytes, m', hrel, -, -, hle, -⟩ := releaseGarbageRegions_moves_units .page4K hwf 0
  exact ⟨hwf, bytes, m', hrel, hle⟩

end FreeRegionManager
end CangjieRuntime
