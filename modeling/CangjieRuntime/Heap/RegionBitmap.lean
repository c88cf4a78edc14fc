import CangjieRuntime.Lib.BitSet
import CangjieRuntime.Lib.Word

/-!
# `Heap.RegionBitmap` — the mark bitmap of a region and its live-byte counters

One bit stands for an eight-byte *granule* of the region. Beside the words the bitmap keeps, for each of sixteen
*parts* of the region, how many of its granules are set, so that the live bytes before an object
(`GetPreLiveBytes`) are a few counters plus a few population counts and not a scan from the start.

The part of a word is its index divided by `words / 16`, rounded down. When the region has more than sixteen words
and their number is not a multiple of sixteen, the last words get a part of sixteen or more, past the end of the
array: such an access is `none`.
-/

namespace CangjieRuntime

open Word

def kMarkedBytesPerBit : Nat := 8
def kBitsPerWord : Nat := 64

namespace RegionBitmap

/-- The length of `partLiveBytes`. -/
def factor : Nat := 16

/-- `__builtin_popcountll`. -/
def popcount (x : Nat) : Nat := BitSet.popcount 64 x

/-! ## How words are divided into parts -/

/-- The words of the bitmap of a region. -/
def markWordSize (regionSize : Nat) : Nat := regionSize / (kMarkedBytesPerBit * kBitsPerWord)

def calFactor (regionSize : Nat) : Nat :=
  if factor > markWordSize regionSize then markWordSize regionSize else factor

/-- The divisor `markWordSize / calFactor` of every part index. -/
def wordsPerPart (regionSize : Nat) : Nat := markWordSize regionSize / calFactor regionSize

end RegionBitmap

/-- The counters and the words. `markWords` has one word per 512 bytes of the region; `liveBytes` is kept as the
    source keeps it, although only the counters of the parts are ever read. -/
structure RegionBitmap where
  partLiveBytes : Nat → Nat
  liveBytes : Nat
  markWords : Nat → Nat

namespace RegionBitmap

/-- A new bitmap, over storage that is zero when it is mapped. -/
def empty : RegionBitmap := ⟨fun _ => 0, 0, fun _ => 0⟩

/-! ## Marking -/

/-- Which bits of which words an object occupies. -/
structure BitMaskInfo where
  headWordIdx : Nat
  headMaskBits : Nat
  tailWordCnt : Nat
  lastMaskBits : Nat
deriving DecidableEq, Repr

def getBitMaskInfo (start byteCnt : Nat) : BitMaskInfo :=
  let headWordIdx := start / kMarkedBytesPerBit / kBitsPerWord
  let headMaskBitStart := start / kMarkedBytesPerBit % kBitsPerWord
  let headBitCnt := kBitsPerWord - headMaskBitStart
  let maskBitCnt := byteCnt / kMarkedBytesPerBit
  if maskBitCnt ≥ headBitCnt then
    let tailBitCnt := maskBitCnt - headBitCnt
    let lastBitCnt := tailBitCnt % kBitsPerWord
    { headWordIdx := headWordIdx
      -- the complement of the bits below the object's first one
      headMaskBits := (2 ^ 64 - 1) ^^^ (1 <<< headMaskBitStart - 1)
      tailWordCnt := (tailBitCnt + kBitsPerWord - 1) / kBitsPerWord
      lastMaskBits := 1 <<< lastBitCnt - 1 }
  else
    let headMaskBitEnd := headMaskBitStart + maskBitCnt
    { headWordIdx := headWordIdx
      headMaskBits := (1 <<< headMaskBitEnd - 1) >>> headMaskBitStart <<< headMaskBitStart
      tailWordCnt := 0
      lastMaskBits := 0 }

variable (regionSize : Nat)

/-- `fetch_or` on a word and `fetch_add` on the counter of its part — `none` when the part is past the array. -/
def charge (bm : RegionBitmap) (idx mask cnt : Nat) : Option RegionBitmap :=
  let part := idx / wordsPerPart regionSize
  if part < factor then
    some { bm with
      markWords := Function.update bm.markWords idx (bm.markWords idx ||| mask)
      partLiveBytes := Function.update bm.partLiveBytes part ((bm.partLiveBytes part + cnt) % 2 ^ 16) }
  else none

/-- The loop over the words an object fills, `n` of them from `idx` on. -/
def chargeFull (bm : RegionBitmap) (idx : Nat) : Nat → Option RegionBitmap
  | 0 => some bm
  | n + 1 => (charge regionSize bm idx (2 ^ 64 - 1) kBitsPerWord).bind fun bm' => chargeFull bm' (idx + 1) n

/-- Returns whether the object was marked before. -/
def applyBitMaskInfo (bm : RegionBitmap) (maskInfo : BitMaskInfo) (byteCnt : Nat) : Option (Bool × RegionBitmap) :=
  if bm.markWords maskInfo.headWordIdx &&& maskInfo.headMaskBits ≠ 0 then some (true, bm)
  else do
    let bm ← charge regionSize bm maskInfo.headWordIdx maskInfo.headMaskBits (popcount maskInfo.headMaskBits)
    let bm := { bm with liveBytes := add64 bm.liveBytes byteCnt }
    if maskInfo.tailWordCnt > 0 then
      let lastWordIdx := maskInfo.headWordIdx + maskInfo.tailWordCnt
      if maskInfo.lastMaskBits ≠ 0 then
        let bm ← chargeFull regionSize bm (maskInfo.headWordIdx + 1) (lastWordIdx - (maskInfo.headWordIdx + 1))
        let bm ← charge regionSize bm lastWordIdx maskInfo.lastMaskBits (popcount maskInfo.lastMaskBits)
        some (false, bm)
      else
        let bm ← chargeFull regionSize bm (maskInfo.headWordIdx + 1) (lastWordIdx - maskInfo.headWordIdx)
        some (false, bm)
    else some (false, bm)

def markBits (bm : RegionBitmap) (start byteCnt : Nat) : Option (Bool × RegionBitmap) :=
  applyBitMaskInfo regionSize bm (getBitMaskInfo start byteCnt) byteCnt

def isMarked (bm : RegionBitmap) (start : Nat) : Bool :=
  let headWordIdx := start / kMarkedBytesPerBit / kBitsPerWord
  let headMaskBitStart := start / kMarkedBytesPerBit % kBitsPerWord
  let mask := 1 <<< headMaskBitStart
  bm.markWords headWordIdx &&& mask ≠ 0

/-! ## Counting -/

/-- The counters of the first `n` parts. -/
def sumParts (bm : RegionBitmap) : Nat → Option Nat
  | 0 => some 0
  | n + 1 => if n < factor then (bm.sumParts n).map (· + bm.partLiveBytes n) else none

/-- The set bits of `n` words from `idx` on. -/
def sumWords (bm : RegionBitmap) (idx : Nat) : Nat → Nat
  | 0 => 0
  | n + 1 => popcount (bm.markWords idx) + bm.sumWords (idx + 1) n

/-- The live bytes before `offset`: the counters of the parts before its own, the words of its own part before its
    own, and the bits of its own word before its own. (When the word is the first of its part the source returns
    early; the words in between are then none.) -/
def getPreLiveBytes (bm : RegionBitmap) (offset : Nat) : Option Nat := do
  let index := offset / (kBitsPerWord * kMarkedBytesPerBit)
  let parts := index / wordsPerPart regionSize
  let preLiveBits ← bm.sumParts parts
  let partStartIndex := parts * wordsPerPart regionSize
  let bitIndex := offset / kMarkedBytesPerBit % kBitsPerWord
  let mask := 1 <<< bitIndex - 1
  let liveBits := popcount (bm.markWords index &&& mask) + bm.sumWords partStartIndex (index - partStartIndex)
  some ((preLiveBits + liveBits) * kMarkedBytesPerBit)

end RegionBitmap

/-- The bitmaps of a region, each allocated by the first object that needs it. -/
structure LiveInfo where
  markBitmap : Option RegionBitmap
  resurrectBitmap : Option RegionBitmap

namespace LiveInfo

def empty : LiveInfo := ⟨none, none⟩

variable (regionSize : Nat)

/-- What one bitmap contributes. -/
def bitmapPreLiveBytes (bitmap : Option RegionBitmap) (offset : Nat) : Option Nat :=
  match bitmap with
  | none => some 0
  | some bm => bm.getPreLiveBytes regionSize offset

def getPreLiveBytes (li : LiveInfo) (offset : Nat) : Option Nat := do
  let marked ← bitmapPreLiveBytes regionSize li.markBitmap offset
  let resurrected ← bitmapPreLiveBytes regionSize li.resurrectBitmap offset
  some (marked + resurrected)

/-- What one bitmap says of an object. -/
def bitmapIsMarked (bitmap : Option RegionBitmap) (offset : Nat) : Bool :=
  match bitmap with
  | none => false
  | some bm => bm.isMarked offset

def isMarkedObject (li : LiveInfo) (offset : Nat) : Bool := bitmapIsMarked li.markBitmap offset

def isResurrectedObject (li : LiveInfo) (offset : Nat) : Bool := bitmapIsMarked li.resurrectBitmap offset

/-- Live or resurrected. -/
def isSurvivedObject (li : LiveInfo) (offset : Nat) : Bool :=
  li.isMarkedObject offset || li.isResurrectedObject offset

end LiveInfo
end CangjieRuntime
