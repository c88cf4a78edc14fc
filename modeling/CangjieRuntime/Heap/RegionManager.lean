import CangjieRuntime.Heap.FreeRegionManager
import CangjieRuntime.Heap.InactiveZone

/-!
# `Heap.RegionManager` — taking a region

`RegionManager::TakeRegion` tries four sources in turn: the head of the garbage list if it has the right size
(otherwise it is reclaimed), the dirty units, the released units and the inactive zone. The module runs the
allocator with one thread, where no `try_lock` fails and nothing is pending on the cursor.

A request is refused although enough units are left in one case: the units compared are *at least* `num`, but the
address fetched must lie *strictly* below the last address where `num` units fit. So the last units of the heap are
never handed out by the request that fits them exactly, unless the garbage list or a tree serves it; every other request
is served if some source is large enough. What carries the proof is that trees, regions and inactive zone share no unit
(`Parts`), so that no merge ever clashes.
-/

namespace CangjieRuntime.RegionManager

open Runs Word Interleave InactiveZone CartesianTree FreeRegionManager
open List hiding Disjoint

/-! ## The free units -/

section Free

variable (m : FreeRegionManager)

/-- `FreeRegionManager::TakeRegion`: both locks are free, so one round of its loop tries both trees. A tree counts
    units in 32 bits. -/
def takeFreeRegion (num : Nat) : Option (Option Run × FreeRegionManager) := do
  let (idx, dirty) ← m.dirtyUnitTree.takeUnits (num % 2 ^ 32)
  match idx with
  | some idx => some (some ⟨idx, num⟩, { m with dirtyUnitTree := dirty })
  | none => do
    let (idx, released) ← m.releasedUnitTree.takeUnits (num % 2 ^ 32)
    some (idx.map (⟨·, num⟩), ⟨released, dirty⟩)

/-- `AddGarbageUnits(idx, num)`; `none` is the fatal error. -/
def addGarbageUnits (r : Run) : Option FreeRegionManager :=
  let (ok, dirty) := m.dirtyUnitTree.mergeInsert r.start r.len
  if ok then some { m with dirtyUnitTree := dirty } else none

/-- `AddReleaseUnits(idx, num)` -/
def addReleaseUnits (r : Run) : Option FreeRegionManager :=
  let (ok, released) := m.releasedUnitTree.mergeInsert r.start r.len
  if ok then some { m with releasedUnitTree := released } else none

end Free

/-! ## The allocator -/

/-- The fields of `RegionManager` that `TakeRegion` works on. A region is the run of its units. -/
structure State where
  garbageRegionList : List Run
  freeRegionManager : FreeRegionManager
  inactiveZone : Nat
  /-- The regions of the other lists. -/
  inUse : List Run
deriving DecidableEq

variable (heap : UnitInfo)

/-- The bounds that `Initialize` sets. -/
def regionHeap : RegionHeap where
  unit := heap.unit
  regionHeapStart := heap.heapStartAddress
  regionHeapEnd := heap.getUnitAddress heap.totalUnitCount
  le := Nat.le_add_right ..
  lt := heap.end_lt.trans (by decide)

def init : State := ⟨[], ⟨empty, empty⟩, heap.heapStartAddress, []⟩

/-- The last part of `TakeRegion`: new units from the inactive zone. -/
def takeInactive (s : State) (num : Nat) : Option Run × State :=
  if num ≤ getInactiveUnitCount (regionHeap heap) s.inactiveZone then
    let size := byteSize (regionHeap heap) num
    let addr := s.inactiveZone
    if addr < sub64 (regionHeap heap).regionHeapEnd size then
      let region : Run := ⟨(addr - heap.heapStartAddress) / heap.unit.UNIT_SIZE, num⟩
      (some region, { s with inactiveZone := add64 addr size, inUse := region :: s.inUse })
    else (none, { s with inactiveZone := sub64 (add64 addr size) size })
  else (none, s)

/-- `TakeRegion` after the garbage list. -/
def takeUnused (s : State) (num : Nat) : Option (Option Run × State) := do
  let (region, free) ← takeFreeRegion s.freeRegionManager num
  match region with
  | some r => some (some r, { s with freeRegionManager := free, inUse := r :: s.inUse })
  | none => some (takeInactive heap { s with freeRegionManager := free } num)

/-- `TakeRegion(num)`: the region or `nullptr`, and the state after; `none` is a fatal error. The heuristic collection
    and the delay before do not touch these fields. -/
def takeRegion (s : State) (num : Nat) : Option (Option Run × State) :=
  match s.garbageRegionList with
  | [] => takeUnused heap s num
  | head :: rest =>
    if head.len = num then some (some head, { s with garbageRegionList := rest, inUse := head :: s.inUse })
    else do
      let free ← addGarbageUnits s.freeRegionManager head
      takeUnused heap { s with garbageRegionList := rest, freeRegionManager := free } num

/-- The calls that move units. -/
inductive Call where
  | takeRegion (num : Nat)
  | collectRegion (r : Run)
  | reclaimRegion (r : Run)
  | releaseRegion (r : Run)
  | reclaimGarbageRegions
  | releaseGarbageRegions (targetCachedSize : Nat)

/-- A request has between 1 and `2 ^ 32 - 1` units, and a region is freed while it is in use. -/
def Call.Valid (s : State) : Call → Prop
  | .takeRegion num => 0 < num ∧ num < 2 ^ 32
  | .collectRegion r | .reclaimRegion r | .releaseRegion r => r ∈ s.inUse
  | .reclaimGarbageRegions | .releaseGarbageRegions _ => True

def Call.exec (s : State) : Call → Option State
  | .takeRegion num => (RegionManager.takeRegion heap s num).map Prod.snd
  | .collectRegion r =>
    some { s with garbageRegionList := r :: s.garbageRegionList, inUse := s.inUse.erase r }
  | .reclaimRegion r =>
    (addGarbageUnits s.freeRegionManager r).map fun free =>
      { s with freeRegionManager := free, inUse := s.inUse.erase r }
  | .releaseRegion r =>
    (addReleaseUnits s.freeRegionManager r).map fun free =>
      { s with freeRegionManager := free, inUse := s.inUse.erase r }
  | .reclaimGarbageRegions =>
    (s.garbageRegionList.foldlM addGarbageUnits s.freeRegionManager).map fun free =>
      { s with garbageRegionList := [], freeRegionManager := free }
  | .releaseGarbageRegions target =>
    (FreeRegionManager.releaseGarbageRegions heap.unit s.freeRegionManager target).map fun p =>
      { s with freeRegionManager := p.2 }

/-- The states a single thread reaches. -/
def Reachable (s : State) : Prop := Run (Call.exec heap) Call.Valid (init heap) s

/-! ## Nothing is shared -/

def units (m : FreeRegionManager) : Set Nat := m.dirtyUnitTree.units ∪ m.releasedUnitTree.units

/-- The first `k` units of the heap: some are free, some belong to a region, none to two. -/
structure Parts (m : FreeRegionManager) (regions : List Run) (k : Nat) : Prop where
  wf : m.WellFormed
  pos : ∀ r ∈ regions, 0 < r.len
  disjoint : regions.Pairwise fun r r' => Disjoint r.elems r'.elems
  apart : Disjoint (cover regions) (units m)
  below : ∀ u, u ∈ cover regions ∨ u ∈ units m → u < k

variable {m m' : FreeRegionManager} {regions regions' : List Run} {r : Run} {k num : Nat}

theorem Parts.perm (h : Parts m regions k) (hperm : regions ~ regions') : Parts m regions' k := by
  have hcover : cover regions' = cover regions := Set.ext fun u => by simp only [mem_cover, hperm.mem_iff]
  refine ⟨h.wf, fun r hr => h.pos r (hperm.mem_iff.mpr hr), ?_, hcover ▸ h.apart, hcover ▸ h.below⟩
  exact (hperm.pairwise_iff fun hd => hd.symm).mp h.disjoint

theorem Parts.stop_le (h : Parts m regions k) (hr : r ∈ regions) : r.stop ≤ k := by
  have hpos := h.pos r hr
  have hlast := h.below (r.stop - 1) (.inl ⟨r, hr, by simp only [mem_elems, Run.stop]; omega⟩)
  omega

variable (h : Parts m (r :: regions) k)
include h

/-- A region gives its units back. -/
theorem Parts.give (hwf : m'.WellFormed) (hunits : units m' = units m ∪ r.elems) :
    Parts m' regions k := by
  obtain ⟨hr, hrest⟩ := pairwise_cons.mp h.disjoint
  have hapart := h.apart
  have hbelow := h.below
  rw [cover_cons] at hapart hbelow
  refine ⟨hwf, fun r hr => h.pos r (mem_cons_of_mem _ hr), hrest, ?_, ?_⟩
  · rw [hunits, Set.disjoint_union_right]
    refine ⟨(Set.disjoint_union_left.mp hapart).2, Set.disjoint_left.mpr ?_⟩
    rintro u ⟨q, hq, huq⟩ hur
    exact Set.disjoint_left.mp (hr q hq) hur huq
  · rw [hunits]
    rintro u (hu | hu | hu)
    · exact hbelow u (.inl (.inr hu))
    · exact hbelow u (.inr hu)
    · exact hbelow u (.inl (.inl hu))

omit h in
/-- A region is made of free units, or of units never used. -/
theorem Parts.take {k' : Nat} (h : Parts m regions k) (hpos : 0 < r.len) (hwf : m'.WellFormed) (hle : k ≤ k')
    (hr : ∀ u ∈ r.elems, (u ∈ units m ∨ k ≤ u) ∧ u < k') (hunits : units m' = units m \ r.elems) :
    Parts m' (r :: regions) k' := by
  have hout : ∀ u ∈ r.elems, u ∉ cover regions := by
    intro u hu hcover
    rcases (hr u hu).1 with hfree | hnew
    · exact Set.disjoint_left.mp h.apart hcover hfree
    · exact absurd (h.below u (.inl hcover)) (Nat.not_lt.mpr hnew)
  refine ⟨hwf, forall_mem_cons.mpr ⟨hpos, h.pos⟩, pairwise_cons.mpr ⟨fun q hq => ?_, h.disjoint⟩, ?_, ?_⟩
  · exact Set.disjoint_left.mpr fun u hu huq => hout u hu ⟨q, hq, huq⟩
  · rw [hunits, cover_cons, Set.disjoint_union_left]
    exact ⟨Set.disjoint_sdiff_right, h.apart.mono_right Set.sdiff_subset⟩
  · rw [hunits, cover_cons]
    rintro u ((hu | hu) | hu)
    · exact (hr u hu).2
    · exact (h.below u (.inl hu)).trans_le hle
    · exact (h.below u (.inr hu.1)).trans_le hle

/-! ## The free units, once more -/

omit h in
/-- A tree takes a run that it does not clash with. -/
theorem mergeInsert_ok {t : CartesianTree} (h : Invariant t) (hpos : 0 < r.len) (hlt : r.stop < 2 ^ 32)
    (hdisjoint : Disjoint r.elems t.units) :
    ∃ t', t.mergeInsert r.start r.len = (true, t') ∧ Invariant t' ∧ t'.units = t.units ∪ r.elems := by
  rcases mergeInsert_spec h hpos hlt with ⟨hok, hco, hinv⟩ | ⟨-, -, hclash⟩
  · exact ⟨_, Prod.ext hok rfl, hinv, hco.cover⟩
  · exact absurd hdisjoint hclash.not_disjoint

/-- The first region clashes with neither tree. -/
theorem Parts.head_apart :
    Disjoint r.elems m.dirtyUnitTree.units ∧ Disjoint r.elems m.releasedUnitTree.units := by
  have hapart := h.apart
  rw [cover_cons, Set.disjoint_union_left] at hapart
  exact Set.disjoint_union_right.mp hapart.1

theorem Parts.addGarbageUnits (hk : k < 2 ^ 32) :
    ∃ m', addGarbageUnits m r = some m' ∧ Parts m' regions k ∧
      m'.dirtyUnitTree.units = m.dirtyUnitTree.units ∪ r.elems ∧ m'.releasedUnitTree = m.releasedUnitTree := by
  obtain ⟨hdirty, hreleased⟩ := h.head_apart
  obtain ⟨t', ht', hinv, hunits⟩ := mergeInsert_ok h.wf.dirty (h.pos r (mem_cons_self ..))
    ((h.stop_le (mem_cons_self ..)).trans_lt hk) hdirty
  refine ⟨{ m with dirtyUnitTree := t' }, by simp [RegionManager.addGarbageUnits, ht'],
    h.give ⟨hinv, h.wf.released, ?_⟩ ?_, hunits, rfl⟩
  · rw [hunits, Set.disjoint_union_left]
    exact ⟨h.wf.apart, hreleased⟩
  · unfold units
    rw [hunits, Set.union_right_comm]

theorem Parts.addReleaseUnits (hk : k < 2 ^ 32) :
    ∃ m', addReleaseUnits m r = some m' ∧ Parts m' regions k := by
  obtain ⟨hdirty, hreleased⟩ := h.head_apart
  obtain ⟨t', ht', hinv, hunits⟩ := mergeInsert_ok h.wf.released (h.pos r (mem_cons_self ..))
    ((h.stop_le (mem_cons_self ..)).trans_lt hk) hreleased
  refine ⟨{ m with releasedUnitTree := t' }, by simp [RegionManager.addReleaseUnits, ht'],
    h.give ⟨h.wf.dirty, hinv, ?_⟩ ?_⟩
  · rw [hunits, Set.disjoint_union_right]
    exact ⟨h.wf.apart, hdirty.symm⟩
  · unfold units
    rw [hunits, Set.union_assoc]

omit h

/-- A tree that holds `num` units in a row hands out `num` units, and a tree that hands out none is unchanged. -/
theorem takeUnits_ok {t : CartesianTree} (h : Invariant t) (hpos : 0 < num) :
    (∃ i t', t.takeUnits num = some (some i, t') ∧ Invariant t' ∧ (Run.mk i num).elems ⊆ t.units ∧
        t'.units = t.units \ (Run.mk i num).elems) ∨
      (t.takeUnits num = some (none, t) ∧ ∀ i, ¬(Run.mk i num).elems ⊆ t.units) := by
  rcases takeUnits_spec h hpos with ⟨i, c, t', htake, hle, hcarve, hinv⟩ | ⟨htake, hsmall⟩
  · refine .inl ⟨i, t', htake, hinv, fun u hu => ⟨⟨i, c⟩, hcarve.mem, ?_⟩, hcarve.cover h.runs hle⟩
    simp only [mem_elems, stop_mk] at hu ⊢
    omega
  · refine .inr ⟨htake, fun i hsub => ?_⟩
    obtain ⟨q, hq, hin⟩ := h.runs.subset_run hpos hsub
    have hlen := hsmall q hq
    simp only [Run.stop] at hin
    omega

theorem Parts.takeFreeRegion (h : Parts m regions k) (hpos : 0 < num) (hlt : num < 2 ^ 32) :
    (∃ r m', takeFreeRegion m num = some (some r, m') ∧ r.len = num ∧ Parts m' (r :: regions) k ∧
        ∃ i, (Run.mk i num).elems ⊆ m.dirtyUnitTree.units ∨ (Run.mk i num).elems ⊆ m.releasedUnitTree.units) ∨
      (takeFreeRegion m num = some (none, m) ∧ ∀ i, ¬(Run.mk i num).elems ⊆ m.dirtyUnitTree.units ∧
        ¬(Run.mk i num).elems ⊆ m.releasedUnitTree.units) := by
  have hbelow : ∀ u ∈ units m, u < k := fun u hu => h.below u (.inr hu)
  unfold RegionManager.takeFreeRegion
  rw [Nat.mod_eq_of_lt hlt]
  rcases takeUnits_ok h.wf.dirty hpos with ⟨i, t, htake, hinv, hsub, hunits⟩ | ⟨hdirty, hshort⟩
  · have hout : Disjoint (Run.mk i num).elems m.releasedUnitTree.units := h.wf.apart.mono_left hsub
    refine .inl ⟨⟨i, num⟩, { m with dirtyUnitTree := t }, by simp [htake], rfl,
      h.take hpos ⟨hinv, h.wf.released, ?_⟩ le_rfl ?_ ?_, i, .inl hsub⟩
    · exact hunits ▸ h.wf.apart.mono_left Set.sdiff_subset
    · exact fun u hu => ⟨.inl (.inl (hsub hu)), hbelow u (.inl (hsub hu))⟩
    · unfold units
      rw [hunits, Set.union_sdiff_distrib, hout.symm.sdiff_eq_left]
  rcases takeUnits_ok h.wf.released hpos with ⟨i, t, htake, hinv, hsub, hunits⟩ | ⟨hreleased, hshort'⟩
  · have hout : Disjoint m.dirtyUnitTree.units (Run.mk i num).elems := h.wf.apart.mono_right hsub
    refine .inl ⟨⟨i, num⟩, { m with releasedUnitTree := t }, by simp [hdirty, htake], rfl,
      h.take hpos ⟨h.wf.dirty, hinv, ?_⟩ le_rfl ?_ ?_, i, .inr hsub⟩
    · exact hunits ▸ h.wf.apart.mono_right Set.sdiff_subset
    · exact fun u hu => ⟨.inl (.inr (hsub hu)), hbelow u (.inr (hsub hu))⟩
    · unfold units
      rw [hunits, Set.union_sdiff_distrib, hout.sdiff_eq_left]
  · exact .inr ⟨by simp [hdirty, hreleased], fun i => ⟨hshort i, hshort' i⟩⟩

/-! ## The inactive zone -/

variable {s s' : State}

/-- The cursor stands at unit `k`, and the units before it are accounted for. -/
def State.At (s : State) (k : Nat) : Prop :=
  k ≤ heap.totalUnitCount ∧ s.inactiveZone = heap.getUnitAddress k ∧
    Parts s.freeRegionManager (s.inUse ++ s.garbageRegionList) k

theorem getInactiveUnitCount_eq (hk : k ≤ heap.totalUnitCount) :
    getInactiveUnitCount (regionHeap heap) (heap.getUnitAddress k) = heap.totalUnitCount - k := by
  have hend := heap.end_lt
  unfold getInactiveUnitCount
  show sub64 (heap.getUnitAddress heap.totalUnitCount) _ / heap.unit.UNIT_SIZE = _
  rw [sub64_eq (heap.getUnitAddress_mono hk) (heap.end_lt.trans (by decide))]
  unfold UnitInfo.getUnitAddress
  rw [Nat.add_sub_add_left, ← Nat.sub_mul, Nat.mul_div_cancel _ heap.unit.pos]

/-- **New units are handed out only while one more is left.** -/
theorem takeInactive_eq (hk : k ≤ heap.totalUnitCount) (hzone : s.inactiveZone = heap.getUnitAddress k) :
    takeInactive heap s num =
      if num < heap.totalUnitCount - k then
        (some ⟨k, num⟩, { s with inactiveZone := heap.getUnitAddress (k + num), inUse := ⟨k, num⟩ :: s.inUse })
      else (none, s) := by
  have hunit := heap.unit.pos
  have hend := heap.end_lt
  unfold takeInactive
  rw [hzone, getInactiveUnitCount_eq heap hk]
  by_cases hle : num ≤ heap.totalUnitCount - k
  · -- the request fits: nothing wraps
    have hmul : num * heap.unit.UNIT_SIZE ≤ (heap.totalUnitCount - k) * heap.unit.UNIT_SIZE :=
      Nat.mul_le_mul_right _ hle
    have hsplit : (heap.totalUnitCount - k) * heap.unit.UNIT_SIZE + k * heap.unit.UNIT_SIZE =
        heap.totalUnitCount * heap.unit.UNIT_SIZE := by rw [← Nat.add_mul, Nat.sub_add_cancel hk]
    have hsize : byteSize (regionHeap heap) num = num * heap.unit.UNIT_SIZE := mul64_eq (by
      show num * heap.unit.UNIT_SIZE < 2 ^ 64
      omega)
    have hroom : heap.getUnitAddress k < sub64 (regionHeap heap).regionHeapEnd (num * heap.unit.UNIT_SIZE) ↔
        num < heap.totalUnitCount - k := by
      show heap.heapStartAddress + _ < sub64 (heap.heapStartAddress + _) _ ↔ _
      rw [sub64_eq (by omega) (by omega), ← Nat.mul_lt_mul_right (b := num) hunit]
      omega
    have hindex : (heap.getUnitAddress k - heap.heapStartAddress) / heap.unit.UNIT_SIZE = k := by
      unfold UnitInfo.getUnitAddress
      rw [Nat.add_sub_cancel_left, Nat.mul_div_cancel _ hunit]
    have hadd : add64 (heap.getUnitAddress k) (num * heap.unit.UNIT_SIZE) = heap.getUnitAddress (k + num) := by
      rw [heap.getUnitAddress_add]
      exact add64_eq (by unfold UnitInfo.getUnitAddress; omega)
    have hback : sub64 (heap.getUnitAddress (k + num)) (num * heap.unit.UNIT_SIZE) = s.inactiveZone := by
      rw [heap.getUnitAddress_add, sub64_eq (Nat.le_add_left ..) (by unfold UnitInfo.getUnitAddress; omega), hzone]
      exact Nat.add_sub_cancel ..
    simp only [if_pos hle, hsize, hroom, hindex, hadd, hback]
  · rw [if_neg hle, if_neg (by omega)]

/-! ## `TakeRegion` -/

/-- Neither tree has `num` units in a row, when the dirty one holds the units `dirty`. -/
def NoRun (dirty : Set Nat) (s : State) (num : Nat) : Prop :=
  ∀ i, ¬(Run.mk i num).elems ⊆ dirty ∧ ¬(Run.mk i num).elems ⊆ s.freeRegionManager.releasedUnitTree.units

/-- The units that the dirty tree holds when it is searched: the head of the garbage list is reclaimed before. -/
def searched (s : State) : Set Nat :=
  s.freeRegionManager.dirtyUnitTree.units ∪ cover s.garbageRegionList.head?.toList

/-- Neither the garbage list nor a tree serves a request of `num` units. -/
def Unserved (s : State) (num : Nat) : Prop :=
  (∀ head ∈ s.garbageRegionList.head?, head.len ≠ num) ∧ NoRun (searched s) s num

variable {heap}

/-- What a request does: no fatal error, the units stay accounted for, the region has `num` units, and `nullptr` is the
    answer exactly if the request is `refused`. -/
def Served (heap : UnitInfo) (num : Nat) (refused : Prop) (result : Option (Option Run × State)) : Prop :=
  ∃ region s' k', result = some (region, s') ∧ s'.At heap k' ∧ (∀ r, region = some r → r.len = num) ∧
    (region = none ↔ refused)

theorem takeUnused_served (h : s.At heap k) (hpos : 0 < num) (hlt : num < 2 ^ 32) :
    Served heap num (NoRun s.freeRegionManager.dirtyUnitTree.units s num ∧
      getInactiveUnitCount (regionHeap heap) s.inactiveZone ≤ num) (takeUnused heap s num) := by
  obtain ⟨hk, hzone, hparts⟩ := h
  unfold takeUnused
  rcases hparts.takeFreeRegion hpos hlt with ⟨r, free, htake, hlen, hparts', i, hi⟩ | ⟨htake, hshort⟩
  · rw [htake]
    refine ⟨_, _, k, rfl, ⟨hk, hzone, hparts'⟩, fun _ hr => Option.some.inj hr ▸ hlen, by rintro ⟨⟩, ?_⟩
    rintro ⟨hnone, -⟩
    exact (hi.elim (hnone i).1 (hnone i).2).elim
  · have hcount := getInactiveUnitCount_eq heap hk
    rw [htake]
    simp only [Option.bind_eq_bind, Option.bind_some, takeInactive_eq heap hk hzone]
    split_ifs with hroom
    · refine ⟨_, _, k + num, rfl, ⟨by omega, rfl, hparts.take hpos hparts.wf (by omega) (fun u hu => ?_) ?_⟩,
        fun _ hr => Option.some.inj hr ▸ rfl, by rintro ⟨⟩, fun hrefused => absurd hrefused.2 ?_⟩
      · simp only [mem_elems, stop_mk] at hu
        exact ⟨.inr hu.1, hu.2⟩
      · refine (Set.disjoint_left.mpr fun u hu hnew => ?_).sdiff_eq_left.symm
        exact absurd (hparts.below u (.inr hu)) (Nat.not_lt.mpr hnew.1)
      · rw [hzone, hcount]
        omega
    · refine ⟨_, _, k, rfl, ⟨hk, hzone, hparts⟩, by rintro _ ⟨⟩, fun _ => ⟨hshort, ?_⟩, fun _ => rfl⟩
      rw [hzone, hcount]
      omega

theorem takeRegion_served (h : s.At heap k) (hpos : 0 < num) (hlt : num < 2 ^ 32) :
    Served heap num (Unserved s num ∧ getInactiveUnitCount (regionHeap heap) s.inactiveZone ≤ num)
      (takeRegion heap s num) := by
  obtain ⟨hk, hzone, hparts⟩ := h
  unfold takeRegion Unserved searched
  split
  · rename_i hgarbage
    obtain ⟨region, s', k', htake, hat, hregion, hnone⟩ := takeUnused_served ⟨hk, hzone, hparts⟩ hpos hlt
    refine ⟨region, s', k', htake, hat, hregion, hnone.trans ?_⟩
    simp [hgarbage, cover]
  · rename_i head rest hgarbage
    rw [hgarbage] at hparts ⊢
    have hcover : cover (head :: rest).head?.toList = head.elems := Set.ext fun u => by simp [mem_cover]
    rw [hcover]
    replace hparts : Parts s.freeRegionManager (head :: (s.inUse ++ rest)) k := hparts.perm perm_middle
    split_ifs with hlen
    · refine ⟨_, _, k, rfl, ⟨hk, hzone, hparts⟩, fun _ hr => Option.some.inj hr ▸ hlen, by rintro ⟨⟩, ?_⟩
      rintro ⟨⟨hother, -⟩, -⟩
      exact absurd hlen (hother head rfl)
    · -- the head is reclaimed, and then the trees are searched
      obtain ⟨free, hadd, hparts', hdirty, hreleased⟩ := hparts.addGarbageUnits (hk.trans_lt heap.count_lt)
      rw [hadd]
      obtain ⟨region, s', k', htake, hat, hregion, hnone⟩ := takeUnused_served
        (s := { s with garbageRegionList := rest, freeRegionManager := free }) ⟨hk, hzone, hparts'⟩ hpos hlt
      refine ⟨region, s', k', htake, hat, hregion, hnone.trans ?_⟩
      unfold NoRun
      rw [hdirty, hreleased]
      refine ⟨fun hrefused => ⟨⟨?_, hrefused.1⟩, hrefused.2⟩, fun hrefused => ⟨hrefused.1.2, hrefused.2⟩⟩
      rintro r ⟨⟩
      exact hlen

/-! ## Whole runs -/

/-- The loop of `ReclaimGarbageRegions`. -/
theorem Parts.reclaimAll {garbage : List Run} (h : Parts m (garbage ++ regions) k) (hk : k < 2 ^ 32) :
    ∃ m', garbage.foldlM RegionManager.addGarbageUnits m = some m' ∧ Parts m' regions k := by
  induction garbage generalizing m with
  | nil => exact ⟨m, rfl, h⟩
  | cons r garbage ih =>
    obtain ⟨m₁, hadd, hparts, -⟩ := h.addGarbageUnits hk
    obtain ⟨m', hrest, hparts'⟩ := ih hparts
    exact ⟨m', by rw [foldlM_cons, hadd]; exact hrest, hparts'⟩

/-- A region in use leaves the list. -/
theorem State.At.leave (h : s.At heap k) (hr : r ∈ s.inUse) :
    Parts s.freeRegionManager (r :: (s.inUse.erase r ++ s.garbageRegionList)) k :=
  h.2.2.perm ((perm_cons_erase hr).append_right s.garbageRegionList)

theorem exec_at (h : s.At heap k) {c : Call} (hv : c.Valid s) (hexec : c.exec heap s = some s') :
    ∃ k', s'.At heap k' := by
  obtain ⟨hk, hzone, hparts⟩ := h
  have hlt := hk.trans_lt heap.count_lt
  cases c with
  | takeRegion num =>
    obtain ⟨region, s₁, k', htake, hat, -⟩ := takeRegion_served ⟨hk, hzone, hparts⟩ hv.1 hv.2
    simp only [Call.exec, htake, Option.map_some, Option.some.injEq] at hexec
    exact ⟨k', hexec ▸ hat⟩
  | collectRegion r =>
    cases hexec
    exact ⟨k, hk, hzone, (State.At.leave ⟨hk, hzone, hparts⟩ hv).perm perm_middle.symm⟩
  | reclaimRegion r =>
    obtain ⟨free, hadd, hparts', -⟩ := (State.At.leave ⟨hk, hzone, hparts⟩ hv).addGarbageUnits hlt
    simp only [Call.exec, hadd, Option.map_some, Option.some.injEq] at hexec
    exact ⟨k, hexec ▸ ⟨hk, hzone, hparts'⟩⟩
  | releaseRegion r =>
    obtain ⟨free, hadd, hparts'⟩ := (State.At.leave ⟨hk, hzone, hparts⟩ hv).addReleaseUnits hlt
    simp only [Call.exec, hadd, Option.map_some, Option.some.injEq] at hexec
    exact ⟨k, hexec ▸ ⟨hk, hzone, hparts'⟩⟩
  | reclaimGarbageRegions =>
    obtain ⟨free, hadd, hparts'⟩ := (hparts.perm perm_append_comm).reclaimAll hlt
    simp only [Call.exec, hadd, Option.map_some, Option.some.injEq] at hexec
    exact ⟨k, hexec ▸ ⟨hk, hzone, by rw [append_nil]; exact hparts'⟩⟩
  | releaseGarbageRegions target =>
    obtain ⟨bytes, free, hrelease, hwf, hmoved, -⟩ := releaseGarbageRegions_spec heap.unit hparts.wf target
    simp only [Call.exec, hrelease, Option.map_some, Option.some.injEq] at hexec
    have hunits : units free = units s.freeRegionManager := hmoved.union
    exact ⟨k, hexec ▸ ⟨hk, hzone, { hparts with
      wf := hwf, apart := hunits ▸ hparts.apart, below := hunits ▸ hparts.below }⟩⟩

theorem init_at : (init heap).At heap 0 := by
  have hnone : ∀ u, u ∉ units (init heap).freeRegionManager := by rintro u (⟨r, ⟨⟩, -⟩ | ⟨r, ⟨⟩, -⟩)
  have hregions : ∀ u, u ∉ cover [] := by rintro u ⟨r, ⟨⟩, -⟩
  refine ⟨Nat.zero_le _, by simp [init, UnitInfo.getUnitAddress], ⟨invariant_empty, invariant_empty, ?_⟩, nofun,
    .nil, ?_, ?_⟩
  · exact Set.disjoint_left.mpr fun u hu => absurd (.inl hu) (hnone u)
  · exact Set.disjoint_left.mpr fun u hu => absurd hu (hregions u)
  · rintro u (hu | hu)
    · exact absurd hu (hregions u)
    · exact absurd hu (hnone u)

theorem Reachable.at (h : Reachable heap s) : ∃ k, s.At heap k :=
  run_invariant (I := fun s => ∃ k, s.At heap k) h ⟨0, init_at⟩ fun _ _ _ ⟨_, hat⟩ hv hexec => exec_at hat hv hexec

/-- Some source has `num` units: one of the trees, in a row, or the inactive zone. -/
def HasSource (heap : UnitInfo) (s : State) (num : Nat) : Prop :=
  (∃ i, (Run.mk i num).elems ⊆ s.freeRegionManager.dirtyUnitTree.units) ∨
    (∃ i, (Run.mk i num).elems ⊆ s.freeRegionManager.releasedUnitTree.units) ∨
    num ≤ getInactiveUnitCount (regionHeap heap) s.inactiveZone

/-- No source has more units than the heap. -/
theorem HasSource.lt (h : s.At heap k) (hpos : 0 < num) (hsource : HasSource heap s num) : num < 2 ^ 32 := by
  obtain ⟨hk, hzone, hparts⟩ := h
  have hlast : ∀ i, (Run.mk i num).elems ⊆ units s.freeRegionManager → num ≤ k := by
    intro i hsub
    have hin : i + num - 1 ∈ (Run.mk i num).elems := by simp only [mem_elems, stop_mk]; omega
    have hlt := hparts.below _ (.inr (hsub hin))
    omega
  have hcount := heap.count_lt
  unfold HasSource at hsource
  rw [hzone, getInactiveUnitCount_eq heap hk] at hsource
  rcases hsource with ⟨i, hi⟩ | ⟨i, hi⟩ | hroom
  · exact (hlast i (hi.trans Set.subset_union_left)).trans_lt (by omega)
  · exact (hlast i (hi.trans Set.subset_union_right)).trans_lt (by omega)
  · omega

/-- **`TakeRegion` serves every request but an exact fit.** In a single-threaded run, `TakeRegion(num)` returns a region
    of `num` units whenever some source has as many, if and only if it is not the case that exactly `num` units were
    never used while neither the garbage list nor a tree serves the request. -/
theorem takeRegion_complete (hr : Reachable heap s) (hpos : 0 < num) :
    (HasSource heap s num → ∃ region s', takeRegion heap s num = some (some region, s') ∧ region.len = num) ↔
      ¬ (getInactiveUnitCount (regionHeap heap) s.inactiveZone = num ∧ Unserved s num) := by
  obtain ⟨k, hat⟩ := hr.at
  constructor
  · rintro hserves ⟨hfit, hunserved⟩
    have hsource : HasSource heap s num := .inr (.inr hfit.ge)
    obtain ⟨region, s', k', htake, -, -, hnone⟩ := takeRegion_served hat hpos (hsource.lt hat hpos)
    obtain ⟨region', s'', hserved, -⟩ := hserves hsource
    rw [htake, hnone.mpr ⟨hunserved, hfit.le⟩] at hserved
    cases hserved
  · intro hother hsource
    obtain ⟨region, s', k', htake, -, hlen, hnone⟩ := takeRegion_served hat hpos (hsource.lt hat hpos)
    cases region with
    | some region => exact ⟨region, s', htake, hlen region rfl⟩
    | none =>
      obtain ⟨hunserved, hinactive⟩ := hnone.mp rfl
      rcases hsource with ⟨i, hi⟩ | ⟨i, hi⟩ | hroom
      · exact absurd (hi.trans Set.subset_union_left) (hunserved.2 i).1
      · exact absurd hi (hunserved.2 i).2
      · exact absurd ⟨Nat.le_antisymm hinactive hroom, hunserved⟩ hother

/-- A heap of two units. -/
def twoUnits : UnitInfo := ⟨.page4K, 0x10000, 2, Dvd.intro 1 rfl, by decide, by decide, by decide⟩

/-- The first unit of a heap of two. -/
theorem takeRegion_complete_first : Reachable twoUnits (init twoUnits) ∧
    getInactiveUnitCount (regionHeap twoUnits) (init twoUnits).inactiveZone = 2 ∧
    ∃ region s', takeRegion twoUnits (init twoUnits) 1 = some (some region, s') ∧ region.len = 1 := by
  have hcount : getInactiveUnitCount (regionHeap twoUnits) (init twoUnits).inactiveZone = 2 := by decide
  refine ⟨.refl, hcount, (takeRegion_complete .refl (by decide)).mpr ?_ (.inr (.inr (by rw [hcount]; decide)))⟩
  rw [hcount]
  exact fun hfit => absurd hfit.1 (by decide)

/-- **The last units are refused.** On a fresh heap of two units a request for two is answered with `nullptr`, and
    after the first unit was taken so is a request for the other one. -/
theorem takeRegion_refuses_exact_fit :
    (getInactiveUnitCount (regionHeap twoUnits) (init twoUnits).inactiveZone = 2 ∧
      (takeRegion twoUnits (init twoUnits) 2).map Prod.fst = some none) ∧
    ∃ s, Reachable twoUnits s ∧ getInactiveUnitCount (regionHeap twoUnits) s.inactiveZone = 1 ∧
      (takeRegion twoUnits s 1).map Prod.fst = some none := by
  refine ⟨⟨by decide, by decide⟩, ⟨[], ⟨empty, empty⟩, 0x11000, [⟨0, 1⟩]⟩, ?_, by decide, by decide⟩
  exact .single ⟨.takeRegion 1, ⟨by decide, by decide⟩, by decide⟩

/-- **No unit is handed out twice, and no call fails.** In a single-threaded run the regions share no unit with each
    other or with the free units, every such unit lies before the cursor, and no valid call ends in the fatal error. -/
theorem regions_never_overlap (hr : Reachable heap s) :
    (s.inUse ++ s.garbageRegionList).Pairwise (fun r r' => Disjoint r.elems r'.elems) ∧
      Disjoint (cover (s.inUse ++ s.garbageRegionList)) (units s.freeRegionManager) ∧
      (∀ u, u ∈ cover (s.inUse ++ s.garbageRegionList) ∨ u ∈ units s.freeRegionManager →
        heap.getUnitAddress (u + 1) ≤ s.inactiveZone) ∧
      ∀ c : Call, c.Valid s → (c.exec heap s).isSome := by
  obtain ⟨k, hat⟩ := hr.at
  have hparts := hat.2.2
  have hlt := hat.1.trans_lt heap.count_lt
  refine ⟨hparts.disjoint, hparts.apart, fun u hu => ?_, fun c hv => ?_⟩
  · rw [hat.2.1]
    exact heap.getUnitAddress_mono (hparts.below u hu)
  -- a call fails only where an insertion into a tree clashes
  cases c with
  | takeRegion num =>
    obtain ⟨region, s', k', htake, -⟩ := takeRegion_served hat hv.1 hv.2
    simp [Call.exec, htake]
  | collectRegion r => rfl
  | reclaimRegion r =>
    obtain ⟨free, hadd, -⟩ := (hat.leave hv).addGarbageUnits hlt
    simp [Call.exec, hadd]
  | releaseRegion r =>
    obtain ⟨free, hadd, -⟩ := (hat.leave hv).addReleaseUnits hlt
    simp [Call.exec, hadd]
  | reclaimGarbageRegions =>
    obtain ⟨free, hadd, -⟩ := (hparts.perm perm_append_comm).reclaimAll hlt
    simp [Call.exec, hadd]
  | releaseGarbageRegions target =>
    obtain ⟨bytes, free, hrelease, -⟩ := releaseGarbageRegions_spec heap.unit hparts.wf target
    simp [Call.exec, hrelease]

/-- One unit is taken, and given back. -/
theorem regions_never_overlap_released :
    ∃ s, Reachable twoUnits s ∧ s.inUse = [⟨0, 1⟩] ∧ (Call.exec twoUnits s (.releaseRegion ⟨0, 1⟩)).isSome := by
  have hrun : Reachable twoUnits ⟨[], ⟨empty, empty⟩, 0x11000, [⟨0, 1⟩]⟩ :=
    .single ⟨.takeRegion 1, ⟨by decide, by decide⟩, by decide⟩
  exact ⟨_, hrun, rfl, (regions_never_overlap hrun).2.2.2 (.releaseRegion ⟨0, 1⟩) (mem_cons_self ..)⟩

end CangjieRuntime.RegionManager
