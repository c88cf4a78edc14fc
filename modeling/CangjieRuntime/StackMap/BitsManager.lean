import CangjieRuntime.Lib.BitStream

/-!
# `StackMap.BitsManager` — the bit-stream reader of the stack maps

Stack maps are packed bit by bit. `BitsManager` is a cursor into the bytes, `VarInt` the variable-length number
format built on it, and `ResolveHeader` reads the numbers at the head of a table, one after the other: the position
of everything that follows is the sum of their lengths.
-/

namespace CangjieRuntime.StackMap

/-- The bytes of the tables. -/
abbrev Memory := Nat → UInt8

/-! ## `BitsManager` -/

def BITS_NUM_PER_BYTE : Nat := 8
def BITS_SHIFT_PER_BYTE : Nat := 3

/-- A cursor: a byte address and a bit inside that byte. -/
@[ext] structure BitsManager where
  addr : Nat
  bitPos : Nat
  lt : bitPos < 8
deriving DecidableEq, Repr

namespace BitsManager

/-- Five bytes, low byte first: a 32-bit read at bit 7 needs 39 bits. -/
def connectBytesToU64 (mem : Memory) (bits : BitsManager) : Nat :=
  (List.range 5).foldl (fun value i => value ||| (mem (bits.addr + i)).toNat <<< (BITS_NUM_PER_BYTE * i)) 0

def getBits (mem : Memory) (bits : BitsManager) (bitLen : Nat) : Nat :=
  let bitsMask := ((1 <<< bitLen) - 1) % 2 ^ 32
  (connectBytesToU64 mem bits >>> bits.bitPos) &&& bitsMask

theorem step_lt (bitsLen : Nat) : bitsLen &&& ((1 <<< BITS_SHIFT_PER_BYTE) - 1) < 8 :=
  Nat.and_lt_two_pow (n := 3) _ (by decide)

def getNext (bits : BitsManager) (bitsLen : Nat) : BitsManager :=
  let addrStep := bitsLen >>> BITS_SHIFT_PER_BYTE
  let bitPosStep := bitsLen &&& ((1 <<< BITS_SHIFT_PER_BYTE) - 1)
  let nextAddr := bits.addr + addrStep
  let nextBitPos := bits.bitPos + bitPosStep
  have hstep := step_lt bitsLen
  have hlt := bits.lt
  if h : BITS_NUM_PER_BYTE ≤ nextBitPos then
    ⟨nextAddr + 1, nextBitPos - BITS_NUM_PER_BYTE, by unfold BITS_NUM_PER_BYTE at h ⊢; omega⟩
  else ⟨nextAddr, nextBitPos, by unfold BITS_NUM_PER_BYTE at h; omega⟩

end BitsManager

/-! ## `VarInt` -/

namespace VarInt

def MAX_VALID_VALUE : Nat := 11
def VAR_VALUE8 : Nat := 12
def VAR_VALUE16 : Nat := 13
def VAR_VALUE24 : Nat := 14
def TAG_LEN : Nat := 4
def FIRST_STEP_VAR_BITS : Nat := 8
def SECOND_STEP_VAR_BITS : Nat := 16
def THIRD_STEP_VAR_BITS : Nat := 24
def FORTH_STEP_VAR_BITS : Nat := 32

def getPayload (mem : Memory) (bits : BitsManager) (bitsLen : Nat) : Nat := (bits.getNext TAG_LEN).getBits mem bitsLen

/-- The value at the cursor and the number of bits it takes. -/
def getValue (mem : Memory) (bits : BitsManager) : Nat × Nat :=
  let tag := bits.getBits mem TAG_LEN % 2 ^ 8
  if tag ≤ MAX_VALID_VALUE then (tag, TAG_LEN)
  else if tag = VAR_VALUE8 then (getPayload mem bits FIRST_STEP_VAR_BITS, TAG_LEN + FIRST_STEP_VAR_BITS)
  else if tag = VAR_VALUE16 then (getPayload mem bits SECOND_STEP_VAR_BITS, TAG_LEN + SECOND_STEP_VAR_BITS)
  else if tag = VAR_VALUE24 then (getPayload mem bits THIRD_STEP_VAR_BITS, TAG_LEN + THIRD_STEP_VAR_BITS)
  else (getPayload mem bits FORTH_STEP_VAR_BITS, TAG_LEN + FORTH_STEP_VAR_BITS)

end VarInt

/-! ## `TableAPI::ResolveHeader` -/

/-- The `size` numbers from the cursor on, and the cursor behind them. -/
def resolveHeader (mem : Memory) : BitsManager → Nat → List Nat × BitsManager
  | cur, 0 => ([], cur)
  | cur, size + 1 =>
    let headerPair := VarInt.getValue mem cur
    let rest := resolveHeader mem (cur.getNext headerPair.2) size
    (headerPair.1 :: rest.1, rest.2)

end CangjieRuntime.StackMap
