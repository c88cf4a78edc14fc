import CangjieRuntime.StackMap.BitsManager

/-!
# `StackMap.SlotTable` — which stack slots hold references

A row of the slot table is a base offset and a bitmap of the slots above it that hold references. The bitmap comes in
two formats: *plain*, one bit a slot, and *WAH*, 31-bit literals mixed with runs of equal bits. `GetSlotBitMap` decodes
a row into words and `SlotRoot::VisitGCRoots` walks them; here a walk is the list of the addresses it visits.
-/

namespace CangjieRuntime.StackMap

/-- `static_cast<I32>`, and the wrap-around of `I32` arithmetic. -/
def toI32 (x : Int) : Int := if x % 2 ^ 32 < 2 ^ 31 then x % 2 ^ 32 else x % 2 ^ 32 - 2 ^ 32

/-! ## Decoding -/

def PURE_COMPRESSED_STACKMAP : Nat := 0

/-- `SlotTable`: the format, the three header numbers and the cursor behind them. -/
structure SlotTable where
  slotFormat : Nat
  recordNum : Nat
  baseOffBitsLen : Nat
  bitMapBitsLen : Nat
  data : BitsManager
deriving DecidableEq, Repr

namespace SlotTable

/-- `SlotTable::Init`: the header has three columns. -/
def init (mem : Memory) (bits : BitsManager) (format : Nat) : SlotTable :=
  let header := resolveHeader mem bits 3
  ⟨format, header.1.getD 0 0, header.1.getD 1 0, header.1.getD 2 0, header.2⟩

def rowBitsLen (table : SlotTable) : Nat := (table.baseOffBitsLen + table.bitMapBitsLen) % 2 ^ 32

/-- Where the bitmap of a row starts. -/
def bitMapBits (table : SlotTable) (row : Nat) : BitsManager :=
  table.data.getNext ((row * table.rowBitsLen + table.baseOffBitsLen) % 2 ^ 32)

/-- The words of `i < size - 1`, and the cursor behind them. -/
def fullWords (mem : Memory) : BitsManager → Nat → List Nat × BitsManager
  | cur, 0 => ([], cur)
  | cur, n + 1 =>
    let rest := fullWords mem (cur.getNext 32) n
    (cur.getBits mem 32 :: rest.1, rest.2)

/-- How many words are left when zero words are dropped from the end, the first word always staying. -/
def validSize (buffer : List Nat) : Nat → Nat
  | 0 => 1
  | i + 1 => if buffer.getD (i + 1) 0 ≠ 0 then i + 2 else validSize buffer i

/-- The plain format. `none`: the bitmap is empty, so that `size - 1` wraps and the loop writes past the buffer. -/
def getPureSlotBitMap (mem : Memory) (table : SlotTable) (row : Nat) : Option (List Nat) :=
  let bitMapLen := table.bitMapBitsLen
  let resident := bitMapLen &&& ((1 <<< 5) - 1)
  let size := if resident ≠ 0 then (bitMapLen >>> 5) + 1 else bitMapLen >>> 5
  match size with
  | 0 => none
  | last + 1 =>
    let full := fullWords mem (table.bitMapBits row) last
    let lastWord := if resident = 0 then full.2.getBits mem 32 else full.2.getBits mem resident
    let buffer := full.1 ++ [lastWord]
    some (buffer.take (validSize buffer last))

/-- The loop of the WAH format: `remainLen` bits are left from the cursor on. `none`: the counter wraps below zero, and
    the code would read on behind the bitmap. -/
def wahLoop (mem : Memory) (bitMapBits : BitsManager) (remainLen : Nat) : Option (List Nat) :=
  if remainLen = 0 then some []
  else
    let isPureVal := bitMapBits.getBits mem 1
    let cur := bitMapBits.getNext 1
    let remainLen' := remainLen - 1
    if isPureVal ≠ 0 then
      let pureValBits := min remainLen' 31
      (wahLoop mem (cur.getNext pureValBits) (remainLen' - pureValBits)).map
        ((cur.getBits mem pureValBits ||| 1 <<< 31) :: ·)
    -- bits are paddings when remain bits are less than shortest varInt bits + 1
    else if remainLen' < VarInt.TAG_LEN + 1 then some []
    else
      let isAllRef := cur.getBits mem 1
      let cur := cur.getNext 1
      let remainLen'' := remainLen' - 1
      let varIntPair := VarInt.getValue mem cur
      let cnts := varIntPair.1
      -- Cnts == 0 means we are in paddings
      if cnts = 0 then some []
      else if remainLen'' < varIntPair.2 then none
      else (wahLoop mem (cur.getNext varIntPair.2) (remainLen'' - varIntPair.2)).map
        ((cnts ||| isAllRef <<< 30) :: ·)
termination_by remainLen

def getWAHSlotBitMap (mem : Memory) (table : SlotTable) (row : Nat) : Option (List Nat) :=
  wahLoop mem (table.bitMapBits row) table.bitMapBitsLen

def getSlotBitMap (mem : Memory) (table : SlotTable) (row : Nat) : Option (List Nat) :=
  if table.slotFormat ≠ PURE_COMPRESSED_STACKMAP then getWAHSlotBitMap mem table row
  else getPureSlotBitMap mem table row

end SlotTable

/-! ## Visiting -/

structure SlotRoot where
  slotBias : Int
  slotBits : List Nat
  slotFormat : Nat
deriving DecidableEq, Repr

namespace SlotRoot

def BIT_SIZE : Nat := 32
def BYTES_PER_SLOT : Int := -8
def BIAS_COEF : Int := 1

/-- The address of the slot at a bias: `static_cast<intptr_t>(base) + bias`. -/
def slotAddress (base : Nat) (bias : Int) : Int := (base + bias) % 2 ^ 64

/-- The positions of the set bits of a word, found by shifting it out; `j` counts up. -/
def setBits (bit j : Nat) : List Nat :=
  if bit = 0 then []
  else if bit &&& 1 = 0 then setBits (bit >>> 1) (j + 1)
  else j :: setBits (bit >>> 1) (j + 1)
termination_by bit
decreasing_by
  all_goals rw [Nat.shiftRight_one]; omega

/-- The plain format: word `i` holds the slots from `32 * i` on. -/
def visitPureGCRoots (slotBias : Int) (base : Nat) : Nat → List Nat → List Int
  | _, [] => []
  | i, bit :: rest =>
    (setBits bit 0).map (fun j => slotAddress base
      (toI32 (toI32 (toI32 ↑(i * BIT_SIZE + j) * BYTES_PER_SLOT) + toI32 (slotBias * BIAS_COEF)))) ++
    visitPureGCRoots slotBias base (i + 1) rest

def visitOneSlot (base : Nat) (baseBias : Int) (idx : Nat) : Int :=
  slotAddress base (toI32 (baseBias + toI32 (toI32 idx * BYTES_PER_SLOT)))

/-- The WAH format: the addresses of one word, and the bias behind it. -/
def processOneSlotBits (base : Nat) (baseBias : Int) (bit : Nat) : List Int × Int :=
  if bit &&& 1 <<< 31 ≠ 0 then
    ((setBits (bit &&& (1 <<< 31 - 1)) 0).map (visitOneSlot base baseBias),
      toI32 (baseBias + toI32 (31 * BYTES_PER_SLOT)))
  else
    let isAllRef := bit &&& 1 <<< 30 ≠ 0
    let bitNums := (bit &&& (1 <<< 30 - 1)) * 31 % 2 ^ 32
    ((if isAllRef then (List.range bitNums).map (visitOneSlot base baseBias) else []),
      toI32 (baseBias + toI32 (toI32 bitNums * BYTES_PER_SLOT)))

def visitWAHGCRoots (base : Nat) : Int → List Nat → List Int
  | _, [] => []
  | baseBias, bit :: rest =>
    let word := processOneSlotBits base baseBias bit
    word.1 ++ visitWAHGCRoots base word.2 rest

/-- The addresses handed to the visitor, in order. -/
def visitGCRoots (root : SlotRoot) (base : Nat) : List Int :=
  if root.slotFormat ≠ PURE_COMPRESSED_STACKMAP then
    visitWAHGCRoots base (toI32 (root.slotBias * BIAS_COEF)) root.slotBits
  else visitPureGCRoots root.slotBias base 0 root.slotBits

end SlotRoot

end CangjieRuntime.StackMap
