import CangjieRuntime.Lib.Word

/-!
# `Heap.RegionInfo` — units and regions

The heap is an array of *units* of one system page each; a *region* is a run of units with a bump pointer.
-/

namespace CangjieRuntime

open Word

/-- `RegionInfo::UNIT_SIZE`: the page size the system reports, a positive 32-bit number. -/
structure UnitSize where
  UNIT_SIZE : Nat
  pos : 0 < UNIT_SIZE
  lt : UNIT_SIZE < 2 ^ 32

/-- The 4 KB pages of most targets. -/
def UnitSize.page4K : UnitSize := ⟨4096, by decide, by decide⟩

/-! ## Units -/

/-- The static fields of `UnitInfo`. Pages are multiples of 4 KB, unit indices stay below `INVALID_IDX`, and the heap
    lies in the lower half of the address space, so that adding a block's size to an address does not wrap. -/
structure UnitInfo where
  unit : UnitSize
  heapStartAddress : Nat
  totalUnitCount : Nat
  page : 4096 ∣ unit.UNIT_SIZE
  start_pos : 0 < heapStartAddress
  count_lt : totalUnitCount < 2 ^ 32
  end_lt : heapStartAddress + totalUnitCount * unit.UNIT_SIZE < 2 ^ 63

def UnitInfo.getUnitAddress (heap : UnitInfo) (idx : Nat) : Nat :=
  heap.heapStartAddress + idx * heap.unit.UNIT_SIZE

theorem UnitInfo.getUnitAddress_mono (heap : UnitInfo) {i j : Nat} (h : i ≤ j) :
    heap.getUnitAddress i ≤ heap.getUnitAddress j :=
  Nat.add_le_add_left (Nat.mul_le_mul_right _ h) _

theorem UnitInfo.getUnitAddress_add (heap : UnitInfo) (i n : Nat) :
    heap.getUnitAddress (i + n) = heap.getUnitAddress i + n * heap.unit.UNIT_SIZE := by
  unfold getUnitAddress
  rw [Nat.add_mul, Nat.add_assoc]

/-! ## Regions -/

/-- A small region: its units, and the pointer below which it is allocated. -/
structure RegionInfo (heap : UnitInfo) where
  unitIdx : Nat
  unitCount : Nat
  allocPtr : Nat
  count_pos : 0 < unitCount
  idx_le : unitIdx + unitCount ≤ heap.totalUnitCount
  start_le : heap.getUnitAddress unitIdx ≤ allocPtr
  le_end : allocPtr ≤ heap.getUnitAddress (unitIdx + unitCount)

namespace RegionInfo

variable {heap : UnitInfo} {r r' : RegionInfo heap} {n size : Nat}

def regionStart (r : RegionInfo heap) : Nat := heap.getUnitAddress r.unitIdx

def regionEnd (r : RegionInfo heap) : Nat := heap.getUnitAddress (r.unitIdx + r.unitCount)

def regionSize (r : RegionInfo heap) : Nat := r.regionEnd - r.regionStart

def getAvailableSize (r : RegionInfo heap) : Nat := sub64 r.regionEnd r.allocPtr

/-- `SetRegionAllocPtr(GetRegionStart())`. -/
def reset (r : RegionInfo heap) : RegionInfo heap :=
  { r with allocPtr := r.regionStart, start_le := Nat.le_refl _, le_end := r.start_le.trans r.le_end }

/-- The address and the region after — `none` when the block does not fit, where the source returns the address 0,
    which no region has. -/
def alloc (r : RegionInfo heap) (size : Nat) : Option (Nat × RegionInfo heap) :=
  if h : r.allocPtr + size ≤ r.regionEnd then
    some (r.allocPtr, { r with
      allocPtr := r.allocPtr + size
      start_le := r.start_le.trans (Nat.le_add_right _ _)
      le_end := h })
  else none

/-! ## What allocation does -/

/-- `r'` is `r` with `n` more bytes allocated. -/
structure Bumped (r r' : RegionInfo heap) (n : Nat) : Prop where
  idx : r'.unitIdx = r.unitIdx
  count : r'.unitCount = r.unitCount
  ptr : r'.allocPtr = r.allocPtr + n

theorem Bumped.zero (r : RegionInfo heap) : Bumped r r 0 := ⟨rfl, rfl, rfl⟩

theorem Bumped.trans {r r' r'' : RegionInfo heap} {m n : Nat} (h : Bumped r r' m) (h' : Bumped r' r'' n) :
    Bumped r r'' (m + n) :=
  ⟨h'.idx.trans h.idx, h'.count.trans h.count, by rw [h'.ptr, h.ptr, Nat.add_assoc]⟩

theorem Bumped.regionStart_eq (h : Bumped r r' n) :
    r'.regionStart = r.regionStart := by
  unfold regionStart; rw [h.idx]

theorem Bumped.regionEnd_eq (h : Bumped r r' n) : r'.regionEnd = r.regionEnd := by
  unfold regionEnd; rw [h.idx, h.count]

theorem alloc_fits (r : RegionInfo heap) (h : r.allocPtr + size ≤ r.regionEnd) :
    ∃ r', r.alloc size = some (r.allocPtr, r') ∧ Bumped r r' size :=
  ⟨_, dif_pos h, rfl, rfl, rfl⟩

theorem alloc_full (h : r.regionEnd < r.allocPtr + size) :
    r.alloc size = none := dif_neg (Nat.not_le.mpr h)

theorem getAvailableSize_eq (r : RegionInfo heap) : r.getAvailableSize = r.regionEnd - r.allocPtr := by
  refine sub64_eq r.le_end (Nat.lt_of_le_of_lt ?_ (heap.end_lt.trans (by decide)))
  exact heap.getUnitAddress_mono r.idx_le

theorem getAvailableSize_lt (r : RegionInfo heap) : r.getAvailableSize < 2 ^ 64 := sub64_lt _ _

theorem regionSize_eq (r : RegionInfo heap) : r.regionSize = r.unitCount * heap.unit.UNIT_SIZE := by
  unfold regionSize regionEnd regionStart
  rw [UnitInfo.getUnitAddress_add, Nat.add_sub_cancel_left]

theorem regionEnd_eq (r : RegionInfo heap) : r.regionEnd = r.regionStart + r.regionSize := by
  rw [regionSize_eq]
  exact heap.getUnitAddress_add _ _

/-- Regions are whole pages. -/
theorem page_le_regionSize (r : RegionInfo heap) : 4096 ≤ r.regionSize := by
  obtain ⟨k, hk⟩ := heap.page
  have hpos : 0 < heap.unit.UNIT_SIZE := heap.unit.pos
  rw [regionSize_eq]
  calc 4096 ≤ heap.unit.UNIT_SIZE := Nat.le_of_dvd hpos heap.page
    _ ≤ r.unitCount * heap.unit.UNIT_SIZE := Nat.le_mul_of_pos_left _ r.count_pos

theorem page_dvd_regionSize (r : RegionInfo heap) : 4096 ∣ r.regionSize := by
  rw [regionSize_eq]
  exact heap.page.mul_left _

/-- Two regions without a common unit. -/
def Apart (r r' : RegionInfo heap) : Prop :=
  r.unitIdx + r.unitCount ≤ r'.unitIdx ∨ r'.unitIdx + r'.unitCount ≤ r.unitIdx

instance (r r' : RegionInfo heap) : Decidable (Apart r r') := inferInstanceAs (Decidable (_ ∨ _))

theorem Apart.ends (h : Apart r r') :
    r.regionEnd ≤ r'.regionStart ∨ r'.regionEnd ≤ r.regionStart := by
  rcases h with h | h
  · exact Or.inl (heap.getUnitAddress_mono h)
  · exact Or.inr (heap.getUnitAddress_mono h)

theorem Apart.unitIdx_ne (h : Apart r r') : r.unitIdx ≠ r'.unitIdx := by
  have h1 := r.count_pos
  have h2 := r'.count_pos
  rcases h with h | h <;> omega

end RegionInfo
end CangjieRuntime
