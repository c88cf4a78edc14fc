import CangjieRuntime.Native.SizeManager

/-!
# `Native.Correctness.SizeClasses` — blocks and their free lists

A thread takes a block for a request from the list `Index(bytes)` without looking at its size, so `RoundUp` must depend
on the list only. Up to 64 KB it does. In the last band `ALIGN_8192` is 8 * 1028, not 8 * 1024: every list of that band
gets blocks of 256 different sizes.
-/

namespace CangjieRuntime.Native

open Word

/-- The sizes `1, …, MAX_BYTES` that share the list of `bytes`. -/
def SameList (bytes bytes' : Nat) : Prop := 1 ≤ bytes' ∧ bytes' ≤ MAX_BYTES ∧ index bytes' = index bytes

variable {bytes bytes' : Nat}

theorem le_roundUp (hpos : 1 ≤ bytes) (hmax : bytes ≤ MAX_BYTES) : bytes ≤ roundUp bytes := by
  by_cases hsmall : bytes ≤ ALING_1024_BYTE
  · rw [roundUp_eq hpos hsmall]
    split_ifs <;> omega
  · rw [roundUp_last (Nat.not_le.mp hsmall) hmax]
    have hlt : bytes ≤ 262144 := hmax
    apply le_roundUpTo <;> unfold ALIGN_8192 <;> omega

theorem index_lt (hpos : 1 ≤ bytes) (hmax : bytes ≤ MAX_BYTES) : index bytes < NFREELIST := by
  have hlt : bytes ≤ 262144 := hmax
  rw [index_eq hpos hmax]
  unfold NFREELIST
  split_ifs <;> omega

/-- A size up to 64 KB is rounded to the end of its class. -/
theorem roundUp_small (hpos : 1 ≤ bytes) (hsmall : bytes ≤ ALING_1024_BYTE) :
    roundUp bytes ≤ ALING_1024_BYTE ∧ index (roundUp bytes) = index bytes := by
  have hle : bytes ≤ 65536 := hsmall
  have hround : roundUp bytes ≤ 65536 := by
    rw [roundUp_eq hpos hsmall]
    split_ifs <;> omega
  refine ⟨hround, ?_⟩
  have hmax : bytes ≤ MAX_BYTES := hle.trans (by decide)
  rw [index_eq hpos hmax, index_eq (hpos.trans (le_roundUp hpos hmax)) (hround.trans (by decide)),
    roundUp_eq hpos hsmall]
  split_ifs <;> omega

/-- The list of a size up to 64 KB holds blocks of one size. -/
theorem roundUp_of_sameList (hpos : 1 ≤ bytes) (hsmall : bytes ≤ ALING_1024_BYTE)
    (hsame : SameList bytes bytes') : roundUp bytes' = roundUp bytes := by
  obtain ⟨hpos', hmax', hindex⟩ := hsame
  have hle : bytes ≤ 65536 := hsmall
  rw [index_eq hpos' hmax', index_eq hpos (hle.trans (by decide))] at hindex
  have hsmall' : bytes' ≤ 65536 := by
    by_contra hlarge
    split_ifs at hindex <;> omega
  rw [roundUp_eq hpos hsmall, roundUp_eq hpos' hsmall']
  split_ifs at hindex ⊢ <;> omega

/-- The first and the last size of each class of the last band are rounded to different sizes. -/
theorem roundUp_ends_ne : ∀ j < 24, roundUp (8192 * j + 65537) ≠ roundUp (8192 * j + 73728) := by
  decide +kernel

/-- A list of the last band holds blocks of several sizes. -/
theorem exists_sameList_ne (hlarge : 65536 < bytes) (hmax : bytes ≤ 262144) :
    ∃ bytes', SameList bytes bytes' ∧ roundUp bytes' ≠ roundUp bytes := by
  obtain ⟨j, hj⟩ : ∃ j, (bytes - 65537) / 8192 = j := ⟨_, rfl⟩
  have hindex : ∀ size, 8192 * j + 65537 ≤ size → size ≤ 8192 * j + 73728 → SameList bytes size := by
    intro size hfirst hlast
    have hsize : size ≤ 262144 := by omega
    refine ⟨by omega, hsize, ?_⟩
    rw [index_eq (by omega) hsize, index_eq (by omega) hmax]
    split_ifs <;> omega
  -- if the first size is rounded as this one is, the last is not
  by_cases hfirst : roundUp (8192 * j + 65537) = roundUp bytes
  · refine ⟨8192 * j + 73728, hindex _ (by omega) le_rfl, fun hlast => ?_⟩
    exact roundUp_ends_ne j (by omega) (hfirst.trans hlast.symm)
  · exact ⟨8192 * j + 65537, hindex _ le_rfl (by omega), hfirst⟩

/-- **The size classes are coherent up to 64 KB, and no further.** A block is never smaller than the request it was cut
    for, and every request has a list. But that the block is within `MAX_BYTES`, has the list of the request, and has
    the size of all blocks of that list, holds exactly for requests of at most 64 KB; then every block of the list is
    large enough. -/
theorem size_class_coherent_iff (hpos : 1 ≤ bytes) (hmax : bytes ≤ MAX_BYTES) :
    (bytes ≤ roundUp bytes ∧ index bytes < NFREELIST) ∧
      ((roundUp bytes ≤ MAX_BYTES ∧ index (roundUp bytes) = index bytes ∧
          ∀ bytes', SameList bytes bytes' → roundUp bytes' = roundUp bytes) ↔ bytes ≤ ALING_1024_BYTE) ∧
      (bytes ≤ ALING_1024_BYTE → ∀ bytes', SameList bytes bytes' → bytes ≤ roundUp bytes') := by
  refine ⟨⟨le_roundUp hpos hmax, index_lt hpos hmax⟩, ⟨fun ⟨_, _, hall⟩ => ?_, fun hsmall => ?_⟩,
    fun hsmall bytes' hsame => ?_⟩
  · by_contra hlarge
    obtain ⟨bytes', hsame, hne⟩ := exists_sameList_ne (Nat.not_le.mp hlarge) hmax
    exact hne (hall bytes' hsame)
  · obtain ⟨hround, hindex⟩ := roundUp_small hpos hsmall
    exact ⟨hround.trans (by decide), hindex, fun _ hsame => roundUp_of_sameList hpos hsmall hsame⟩
  · rw [roundUp_of_sameList hpos hsmall hsame]
    exact le_roundUp hpos hmax

theorem size_class_coherent_iff_page :
    (4096 ≤ roundUp 4096 ∧ index 4096 < NFREELIST) ∧
      ((roundUp 4096 ≤ MAX_BYTES ∧ index (roundUp 4096) = index 4096 ∧
          ∀ bytes', SameList 4096 bytes' → roundUp bytes' = roundUp 4096) ↔ 4096 ≤ ALING_1024_BYTE) ∧
      (4096 ≤ ALING_1024_BYTE → ∀ bytes', SameList 4096 bytes' → 4096 ≤ roundUp bytes') :=
  size_class_coherent_iff (by decide) (by decide)

/-- Requests for 65537 and for 73728 bytes share list 184. A block cut for the first has 65568 bytes; the second gets
    it. And the blocks for 253953 bytes are larger than `MAX_BYTES`. -/
theorem size_class_mixed :
    SameList 73728 65537 ∧ index 73728 = 184 ∧ roundUp 65537 = 65568 ∧ roundUp 73728 = 81920 ∧
      roundUp 253953 = 262176 ∧ MAX_BYTES < roundUp 253953 := by
  unfold SameList
  decide +kernel

end CangjieRuntime.Native
