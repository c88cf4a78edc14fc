import CangjieRuntime.Heap.RegionBitmap
import CangjieRuntime.Heap.RegionInfo

/-!
# `Heap.FromRegion` — tracing, routing and compacting a region

Tracing marks or resurrects the live objects of a region and adds up their bytes. When the region is collected,
`RouteOrCompactRegionImpl` decides where its survivors go *without* storing an address per object: it reserves space
in one or two to-regions and leaves a `RouteInfo`, from which `GetRoute` recomputes an object's destination
out of the live bytes before it. When no to-region can be had, the survivors are moved at once, by `CompactRegion`.

Objects are seen through their sizes: `sizes` is what `GetSize` returns as a walk goes from the start of the region to
its allocation pointer. A copy to an address that `Alloc` did not give, a read past the allocation pointer, a failed
`CHECK` and an access past a bitmap's counters are all `none`.
-/

namespace CangjieRuntime

open Word

/-! ## Tracing -/

/-- What tracing keeps for a region. -/
structure TraceInfo where
  liveInfo : LiveInfo
  liveByteCount : Nat

namespace TraceInfo

def empty : TraceInfo := ⟨LiveInfo.empty, 0⟩

variable (regionSize : Nat)

/-- `MarkBits` on a bitmap that is allocated when first needed. -/
def markBitmap (bitmap : Option RegionBitmap) (offset size : Nat) : Option (Bool × RegionBitmap) :=
  (bitmap.getD RegionBitmap.empty).markBits regionSize offset size

/-- `CountLiveObject`, called for an object that was not marked before. -/
def countLiveObject (liveByteCount size : Nat) (marked : Bool) : Nat :=
  if marked then liveByteCount else add32 liveByteCount size

def markObject (t : TraceInfo) (offset size : Nat) : Option TraceInfo := do
  let (marked, bm) ← markBitmap regionSize t.liveInfo.markBitmap offset size
  some { liveInfo := { t.liveInfo with markBitmap := some bm }
         liveByteCount := countLiveObject t.liveByteCount size marked }

def resurrectObject (t : TraceInfo) (offset size : Nat) : Option TraceInfo := do
  let (resurrected, bm) ← markBitmap regionSize t.liveInfo.resurrectBitmap offset size
  let liveInfo := { t.liveInfo with resurrectBitmap := some bm }
  -- `CHECK(IsResurrectedObject(obj))`
  if liveInfo.isResurrectedObject offset then
    some { liveInfo := liveInfo, liveByteCount := countLiveObject t.liveByteCount size resurrected }
  else none

end TraceInfo

/-! ## Walking a region -/

/-- A region that is being collected. -/
structure FromRegion (heap : UnitInfo) where
  info : RegionInfo heap
  sizes : List Nat
  trace : TraceInfo

variable {heap : UnitInfo}

/-- The loop of `VisitLiveObjectsUntilFalse`: `func` sees the survivors in address order until it returns false. -/
def visitLoop {σ : Type} (survived : Nat → Bool) (func : σ → Nat → Nat → Bool × σ) (offset : Nat) (acc : σ) :
    List Nat → Bool × σ
  | [] => (true, acc)
  | size :: rest =>
    if survived offset then
      match func acc offset size with
      | (true, acc') => visitLoop survived func (offset + size) acc' rest
      | (false, acc') => (false, acc')
    else visitLoop survived func (offset + size) acc rest

def FromRegion.visitLiveObjectsUntilFalse {σ : Type} (r : FromRegion heap) (func : σ → Nat → Nat → Bool × σ)
    (acc : σ) : Bool × σ :=
  -- no need to visit this region
  if r.trace.liveByteCount = 0 then (true, acc)
  else visitLoop r.trace.liveInfo.isSurvivedObject func 0 acc r.sizes

/-! ## Compaction -/

/-- One `CopyObject`. -/
structure Copy where
  source : Nat
  dest : Nat
  size : Nat
deriving DecidableEq, Repr

/-- The loop that moves every survivor into `toRegion`, whose space always suffices: the address is not looked at. -/
def compactLoop (survived : Nat → Bool) (regionStart : Nat) (toRegion : RegionInfo heap) (offset : Nat) :
    List Nat → Option (RegionInfo heap × List Copy)
  | [] => some (toRegion, [])
  | size :: rest =>
    if survived offset then do
      let (toAddress, toRegion) ← toRegion.alloc size
      let (toRegion, copies) ← compactLoop survived regionStart toRegion (offset + size) rest
      some (toRegion, ⟨regionStart + offset, toAddress, size⟩ :: copies)
    else compactLoop survived regionStart toRegion (offset + size) rest

/-- The `while (true)` loop, left when a survivor does not fit. Nothing else stops it: a walk that gets past the last
    object reads whatever follows the allocation pointer. -/
def compactUntilFull (survived : Nat → Bool) (regionStart : Nat) (toRegion1 : RegionInfo heap) (offset : Nat) :
    List Nat → Option (RegionInfo heap × Nat × List Nat × List Copy)
  | [] => none
  | size :: rest =>
    if survived offset then
      match toRegion1.alloc size with
      | none => some (toRegion1, offset, size :: rest, [])
      | some (toAddress, toRegion1) => do
        let (toRegion1, stop, left, copies) ← compactUntilFull survived regionStart toRegion1 (offset + size) rest
        some (toRegion1, stop, left, ⟨regionStart + offset, toAddress, size⟩ :: copies)
    else compactUntilFull survived regionStart toRegion1 (offset + size) rest

/-- `CompactRegion(region)`: the survivors slide down to the start of their own region. -/
def FromRegion.compactRegion (r : FromRegion heap) : Option (RegionInfo heap × List Copy) :=
  compactLoop r.trace.liveInfo.isSurvivedObject r.info.regionStart r.info.reset 0 r.sizes

/-- `CompactRegion(region, toRegion1)`: the first survivors fill up `toRegion1`, the others slide down. -/
def FromRegion.compactRegionTo (r : FromRegion heap) (toRegion1 : RegionInfo heap) :
    Option (RegionInfo heap × RegionInfo heap × List Copy) := do
  let survived := r.trace.liveInfo.isSurvivedObject
  let (toRegion1, stop, left, copies1) ← compactUntilFull survived r.info.regionStart toRegion1 0 r.sizes
  let (region, copies2) ← compactLoop survived r.info.regionStart r.info.reset stop left
  some (toRegion1, region, copies1 ++ copies2)

/-! ## Routes -/

structure RouteInfo where
  toRegion1StartAddress : Nat
  toRegion1UsedBytes : Nat
  toRegion2Idx : Nat
deriving DecidableEq, Repr

namespace RouteInfo

def INVALID_VALUE : Nat := 2 ^ 32 - 1

/-- The used bytes and the index are stored in 32 bits. (Callers that leave out `to2` pass `INVALID_VALUE`.) -/
def setRouteInfo (to1 to1used to2 : Nat) : RouteInfo :=
  ⟨to1, to1used % 2 ^ 32, to2 % 2 ^ 32⟩

def getRoute (heap : UnitInfo) (ri : RouteInfo) (preLiveBytes : Nat) : Option Nat :=
  if preLiveBytes < ri.toRegion1UsedBytes then some (ri.toRegion1StartAddress + preLiveBytes)
  else if ri.toRegion2Idx ≠ INVALID_VALUE then
    -- the object is routed to to-region2
    some (heap.getUnitAddress ri.toRegion2Idx + (preLiveBytes - ri.toRegion1UsedBytes))
  else none

end RouteInfo

/-- A region objects are routed to, as the call leaves it, and where its pointer stood at the call's first `Alloc` in
    it: what lies between is reserved for them. -/
structure Destination (heap : UnitInfo) where
  region : RegionInfo heap
  reservedFrom : Nat

/-- What a call of `RouteOrCompactRegionImpl` leaves behind. -/
structure Outcome (heap : UnitInfo) where
  /-- False when the region was compacted. -/
  result : Bool
  bufferRegion : RegionInfo heap
  routeInfo : RouteInfo
  destinations : List (Destination heap)
  copies : List Copy

/-- The function `RouteOrCompactRegionImpl` visits the survivors with: how much of the first to-region is left. -/
def fillToRegion1 (toRegion1Waste _offset objSz : Nat) : Bool × Nat :=
  if toRegion1Waste ≥ objSz then (true, sub64 toRegion1Waste objSz) else (false, toRegion1Waste)

/-- An `Alloc` whose result is not looked at. -/
def RegionInfo.allocUnchecked (r : RegionInfo heap) (size : Nat) : RegionInfo heap :=
  match r.alloc size with
  | none => r
  | some (_, r') => r'

/-- `buffer` is the thread's current region and `allocated` what `AllocateThreadLocalRegion` returns if it is called,
    `none` for `NullRegion` and for `nullptr`. -/
def FromRegion.routeOrCompactRegionImpl (r : FromRegion heap) (buffer allocated : Option (RegionInfo heap)) :
    Option (Outcome heap) :=
  let fromBytes := r.trace.liveByteCount
  match buffer with
  | none =>
    match allocated with
    | none => do
      let (region, copies) ← r.compactRegion
      some { result := false
             bufferRegion := region
             routeInfo := .setRouteInfo region.regionStart fromBytes RouteInfo.INVALID_VALUE
             destinations := [⟨region, r.info.regionStart⟩]
             copies := copies }
    | some toRegion1 =>
      let after := toRegion1.allocUnchecked fromBytes
      some { result := true
             bufferRegion := after
             routeInfo := .setRouteInfo toRegion1.regionStart fromBytes RouteInfo.INVALID_VALUE
             destinations := [⟨after, toRegion1.allocPtr⟩]
             copies := [] }
  | some toRegion1 =>
    -- `CHECK(region != toRegion1)`
    if toRegion1.unitIdx = r.info.unitIdx then none
    else
      let toRegion1Capacity := toRegion1.getAvailableSize
      let toRegion1Addr := toRegion1.allocPtr
      if fromBytes ≤ toRegion1Capacity then
        let after := toRegion1.allocUnchecked fromBytes
        some { result := true
               bufferRegion := after
               routeInfo := .setRouteInfo toRegion1Addr fromBytes RouteInfo.INVALID_VALUE
               destinations := [⟨after, toRegion1Addr⟩]
               copies := [] }
      else
        let toRegion1Waste := (r.visitLiveObjectsUntilFalse fillToRegion1 toRegion1Capacity).2
        let usedBytes1 := sub64 toRegion1Capacity toRegion1Waste
        let usedBytes2 := sub64 fromBytes usedBytes1
        match allocated with
        | some toRegion2 =>
          -- `CHECK(region != toRegion2)`
          if toRegion2.unitIdx = r.info.unitIdx then none
          else do
            let after1 := toRegion1.allocUnchecked usedBytes1
            -- `CHECK(toRegion2->Alloc(usedBytes2) != 0)`
            let (_, after2) ← toRegion2.alloc usedBytes2
            some { result := true
                   bufferRegion := after2
                   routeInfo := .setRouteInfo toRegion1Addr usedBytes1 toRegion2.unitIdx
                   destinations := [⟨after1, toRegion1Addr⟩, ⟨after2, toRegion2.allocPtr⟩]
                   copies := [] }
        | none => do
          let (after1, region, copies) ← r.compactRegionTo toRegion1
          -- the region is partially compacted into itself
          some { result := false
                 bufferRegion := region
                 routeInfo := .setRouteInfo toRegion1Addr usedBytes1 region.unitIdx
                 destinations := [⟨after1, toRegion1Addr⟩, ⟨region, r.info.regionStart⟩]
                 copies := copies }

/-- Where an object of the region is later found: `GetRoute(GetPreLiveBytes(o))`. -/
def FromRegion.route (r : FromRegion heap) (out : Outcome heap) (offset : Nat) : Option Nat :=
  (r.trace.liveInfo.getPreLiveBytes r.info.regionSize offset).bind (out.routeInfo.getRoute heap)

end CangjieRuntime
