import CangjieRuntime.Lib.Word

/-!
# `Native.SizeManager` — the size classes of the native allocator

Small requests are served from free lists, one for each size class. `RoundUp` says how large the blocks for a request
are, and `Index` in which list they are kept: two formulas with the same five bands. `LimitSize` and `CalculatePageNum`
say how many pages are cut into blocks at a time.

`size_t` is a natural number, with the wrap of the 64-bit operations; `-1` is the greatest `size_t`.
-/

namespace CangjieRuntime.Native

open Word

/-! ## Constants of `MemCommon.h` -/

def MAX_NPAGES : Nat := 129

def PAGE_SHIFT : Nat := 12

def MAX_BYTES : Nat := 256 * 1024

def NFREELIST : Nat := 208

def MIN_ALIGN_NUM : Nat := 8

def ALIGN_8 : Nat := 8

def ALIGN_16 : Nat := 16

def ALIGN_128 : Nat := 128

def ALIGN_1024 : Nat := 1024

def ALIGN_8192 : Nat := 8 * 1028

def ALING_8_BYTE : Nat := 128

def ALING_16_BYTE : Nat := 1024

def ALING_128_BYTE : Nat := 8 * 1024

def ALING_1024_BYTE : Nat := 64 * 1024

def ALING_8192_BYTE : Nat := 256 * 1024

def ALIGN_8_SIFT : Nat := 3

def ALIGN_16_SIFT : Nat := 4

def ALIGN_128_SIFT : Nat := 7

def ALIGN_1024_SIFT : Nat := 10

def ALIGN_8192_SIFT : Nat := 13

def GROUP_ARRAY : Fin 4 → Nat := ![16, 56, 56, 56]

/-! ## `SizeManager` -/

/-- The private `RoundUp(bytes, alignNum)`. -/
def roundUpTo (bytes alignNum : Nat) : Nat := sub64 (add64 bytes alignNum) 1 &&& not64 (sub64 alignNum 1)

def roundUp (bytes : Nat) : Nat :=
  if bytes ≤ ALING_8_BYTE then roundUpTo bytes ALIGN_8
  else if bytes ≤ ALING_16_BYTE then roundUpTo bytes ALIGN_16
  else if bytes ≤ ALING_128_BYTE then roundUpTo bytes ALIGN_128
  else if bytes ≤ ALING_1024_BYTE then roundUpTo bytes ALIGN_1024
  else if bytes ≤ ALING_8192_BYTE then roundUpTo bytes ALIGN_8192
  else 2 ^ 64 - 1

/-- The private `Index(bytes, alignShift)`. -/
def indexIn (bytes alignShift : Nat) : Nat := sub64 (sub64 (add64 bytes (1 <<< alignShift)) 1 >>> alignShift) 1

def index (bytes : Nat) : Nat :=
  if bytes ≤ ALING_8_BYTE then indexIn bytes ALIGN_8_SIFT
  else if bytes ≤ ALING_16_BYTE then add64 (indexIn (bytes - ALING_8_BYTE) ALIGN_16_SIFT) (GROUP_ARRAY 0)
  else if bytes ≤ ALING_128_BYTE then
    add64 (add64 (indexIn (bytes - ALING_16_BYTE) ALIGN_128_SIFT) (GROUP_ARRAY 1)) (GROUP_ARRAY 0)
  else if bytes ≤ ALING_1024_BYTE then
    add64 (add64 (add64 (indexIn (bytes - ALING_128_BYTE) ALIGN_1024_SIFT) (GROUP_ARRAY 2)) (GROUP_ARRAY 1))
      (GROUP_ARRAY 0)
  else if bytes ≤ ALING_8192_BYTE then
    add64 (add64 (add64 (add64 (indexIn (bytes - ALING_1024_BYTE) ALIGN_8192_SIFT) (GROUP_ARRAY 3)) (GROUP_ARRAY 2))
      (GROUP_ARRAY 1)) (GROUP_ARRAY 0)
  else 2 ^ 64 - 1

/-- `none` is a failed check. -/
def limitSize (alignBytes : Nat) : Option Nat :=
  if alignBytes = 0 then none
  else
    let num := MAX_BYTES / alignBytes
    let num := if num < 2 then 2 else num
    some (if num > 512 then 512 else num)

def calculatePageNum (alignBytes : Nat) : Option Nat :=
  (limitSize alignBytes).map fun num =>
    let npage := mul64 num alignBytes >>> PAGE_SHIFT
    if npage = 0 then 1 else npage

/-! ## The two formulas in arithmetic -/

section Rounding

variable {bytes alignNum shift : Nat}

variable (hpos : 0 < alignNum) (hlt : bytes + alignNum < 2 ^ 64)
include hpos hlt

/-- Rounding takes the masked bits away. -/
theorem roundUpTo_eq : roundUpTo bytes alignNum = bytes + alignNum - 1 - (bytes + alignNum - 1 &&& (alignNum - 1)) := by
  unfold roundUpTo
  rw [add64_eq hlt, sub64_eq (hpos.trans_le (Nat.le_add_left _ _)) hlt, sub64_eq hpos (by omega)]
  exact and_not64 (by omega) (by omega)

/-- Whatever the mask is, a block is not smaller than the request. -/
theorem le_roundUpTo : bytes ≤ roundUpTo bytes alignNum := by
  have hmask : (bytes + alignNum - 1 &&& (alignNum - 1)) ≤ alignNum - 1 := Nat.and_le_right
  rw [roundUpTo_eq hpos hlt]
  omega

/-- Nor is it larger by more than the alignment. -/
theorem roundUpTo_lt : roundUpTo bytes alignNum < bytes + alignNum := by
  rw [roundUpTo_eq hpos hlt]
  omega

omit hpos hlt

/-- With a power of two, the size is rounded up to a multiple. -/
theorem roundUpTo_two_pow (hbytes : 0 < bytes) (hlt : bytes + 2 ^ shift < 2 ^ 64) :
    roundUpTo bytes (2 ^ shift) = 2 ^ shift * ((bytes - 1) / 2 ^ shift + 1) := by
  have hpos : 0 < 2 ^ shift := Nat.two_pow_pos shift
  rw [roundUpTo_eq hpos hlt, Nat.and_two_pow_sub_one_eq_mod, ← Nat.add_div_right _ hpos]
  have hsum : bytes + 2 ^ shift - 1 = bytes - 1 + 2 ^ shift := by omega
  rw [hsum]
  exact Nat.sub_eq_of_eq_add (Nat.div_add_mod _ _).symm

theorem indexIn_eq (hbytes : 0 < bytes) (hlt : bytes + 2 ^ shift < 2 ^ 64) :
    indexIn bytes shift = (bytes - 1) / 2 ^ shift := by
  have hpos : 0 < 2 ^ shift := Nat.two_pow_pos shift
  have hsum : bytes + 2 ^ shift - 1 = bytes - 1 + 2 ^ shift := by omega
  unfold indexIn
  rw [Nat.one_shiftLeft, add64_eq hlt, sub64_eq (hpos.trans_le (Nat.le_add_left _ _)) hlt, hsum,
    Nat.shiftRight_eq_div_pow, Nat.add_div_right _ hpos]
  refine sub64_eq (Nat.succ_pos _) ?_
  have hdiv : (bytes - 1) / 2 ^ shift ≤ bytes - 1 := Nat.div_le_self _ _
  omega

end Rounding

/-- The blocks of the first four bands. -/
theorem roundUp_eq {bytes : Nat} (hbytes : 0 < bytes) (hle : bytes ≤ ALING_1024_BYTE) :
    roundUp bytes =
      if bytes ≤ 128 then 8 * ((bytes - 1) / 8 + 1)
      else if bytes ≤ 1024 then 16 * ((bytes - 1) / 16 + 1)
      else if bytes ≤ 8192 then 128 * ((bytes - 1) / 128 + 1)
      else 1024 * ((bytes - 1) / 1024 + 1) := by
  have hlt : bytes ≤ 65536 := hle
  have hround : ∀ k ≤ 10, roundUpTo bytes (2 ^ k) = 2 ^ k * ((bytes - 1) / 2 ^ k + 1) := by
    intro k hk
    apply roundUpTo_two_pow hbytes
    have hpow : 2 ^ k ≤ 2 ^ 10 := Nat.pow_le_pow_right Nat.two_pos hk
    omega
  have h8 : roundUpTo bytes ALIGN_8 = 8 * ((bytes - 1) / 8 + 1) := hround 3 (by decide)
  have h16 : roundUpTo bytes ALIGN_16 = 16 * ((bytes - 1) / 16 + 1) := hround 4 (by decide)
  have h128 : roundUpTo bytes ALIGN_128 = 128 * ((bytes - 1) / 128 + 1) := hround 7 (by decide)
  have h1024 : roundUpTo bytes ALIGN_1024 = 1024 * ((bytes - 1) / 1024 + 1) := hround 10 (by decide)
  unfold roundUp
  rw [if_pos hle, h8, h16, h128, h1024]
  rfl

/-- The blocks of the last band, where the alignment is no power of two. -/
theorem roundUp_last {bytes : Nat} (hgt : ALING_1024_BYTE < bytes) (hle : bytes ≤ MAX_BYTES) :
    roundUp bytes = roundUpTo bytes ALIGN_8192 := by
  unfold ALING_1024_BYTE MAX_BYTES at *
  unfold roundUp ALING_8_BYTE ALING_16_BYTE ALING_128_BYTE ALING_1024_BYTE ALING_8192_BYTE
  rw [if_neg (by omega), if_neg (by omega), if_neg (by omega), if_neg (by omega), if_pos hle]

/-- The lists. -/
theorem index_eq {bytes : Nat} (hbytes : 0 < bytes) (hle : bytes ≤ MAX_BYTES) :
    index bytes =
      if bytes ≤ 128 then (bytes - 1) / 8
      else if bytes ≤ 1024 then (bytes - 129) / 16 + 16
      else if bytes ≤ 8192 then (bytes - 1025) / 128 + 72
      else if bytes ≤ 65536 then (bytes - 8193) / 1024 + 128
      else (bytes - 65537) / 8192 + 184 := by
  have hlt : bytes ≤ 262144 := hle
  have hband : ∀ low k, low < bytes → k ≤ 13 → indexIn (bytes - low) k = (bytes - low - 1) / 2 ^ k := by
    intro low k hlow hk
    have hpow : 2 ^ k ≤ 2 ^ 13 := Nat.pow_le_pow_right Nat.two_pos hk
    exact indexIn_eq (Nat.sub_pos_of_lt hlow) (by omega)
  change
    (if bytes ≤ 128 then indexIn (bytes - 0) 3
      else if bytes ≤ 1024 then add64 (indexIn (bytes - 128) 4) 16
      else if bytes ≤ 8192 then add64 (add64 (indexIn (bytes - 1024) 7) 56) 16
      else if bytes ≤ 65536 then add64 (add64 (add64 (indexIn (bytes - 8192) 10) 56) 56) 16
      else if bytes ≤ 262144 then
        add64 (add64 (add64 (add64 (indexIn (bytes - 65536) 13) 56) 56) 56) 16
      else 2 ^ 64 - 1) = _
  unfold add64
  split_ifs
  · rw [hband 0 3 hbytes (by decide)]
    rfl
  · rw [hband 128 4 (by omega) (by decide)]
    omega
  · rw [hband 1024 7 (by omega) (by decide)]
    omega
  · rw [hband 8192 10 (by omega) (by decide)]
    omega
  · rw [hband 65536 13 (by omega) (by decide)]
    omega

end CangjieRuntime.Native
