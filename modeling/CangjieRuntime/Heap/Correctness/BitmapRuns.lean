import CangjieRuntime.Heap.Correctness.BitmapCount

/-!
# `Heap.Correctness.BitmapRuns` — whole runs of marking

A run marks objects one after the other, some of them more than once. The bitmap then stands for the granules of all the
objects (`markAll_spec`), so the answers of `MarkBits` and the numbers of `GetPreLiveBytes` follow.

Two things can go wrong. The part of a word is past the array when there are more than sixteen words and their number is
not a multiple of sixteen. The counter of a part wraps when the part has 1024 words.
-/

namespace CangjieRuntime.RegionBitmap

open BitSet

/-! ## Objects -/

/-- The bytes of an object in the region. -/
structure Object where
  start : Nat
  size : Nat
deriving DecidableEq, Repr

namespace Object

structure Inside (regionSize : Nat) (o : Object) : Prop where
  aligned : 8 ∣ o.start
  whole : 8 ∣ o.size
  pos : 0 < o.size
  le : o.start + o.size ≤ regionSize

/-- The same object, or no byte in common. -/
def Apart (a b : Object) : Prop := a = b ∨ a.start + a.size ≤ b.start ∨ b.start + b.size ≤ a.start

def granules (o : Object) : Finset Nat := Finset.Ico (o.start / 8) (o.start / 8 + o.size / 8)

theorem Inside.eq_of_granule {regionSize g : Nat} {a b : Object} (ha : a.Inside regionSize) (hb : b.Inside regionSize)
    (hab : a.Apart b) (hga : g ∈ a.granules) (hgb : g ∈ b.granules) : a = b := by
  unfold granules at hga hgb
  rw [Finset.mem_Ico] at hga hgb
  obtain ⟨ha1, ha2, -, -⟩ := ha
  obtain ⟨hb1, hb2, -, -⟩ := hb
  rcases hab with heq | hbefore | hafter
  · exact heq
  · omega
  · omega

end Object

/-- The granules of the objects of a list. -/
def marked (os : List Object) : Finset Nat := os.toFinset.biUnion Object.granules

variable {os : List Object} {words : Nat}

theorem mem_marked {g : Nat} : g ∈ marked os ↔ ∃ o ∈ os, g ∈ o.granules := by
  simp [marked]

theorem marked_append_singleton (os : List Object) (o : Object) : marked (os ++ [o]) = marked os ∪ o.granules := by
  ext g
  simp [mem_marked, or_and_right, exists_or]

/-- An object that has been marked adds nothing. -/
theorem marked_append_of_mem {o : Object} (ho : o ∈ os) : marked (os ++ [o]) = marked os := by
  rw [marked_append_singleton, Finset.union_eq_left]
  intro g hg
  exact mem_marked.mpr ⟨o, ho, hg⟩

/-! ## The words of a region -/

/-- No word of the region has a part past the array. -/
def PartsFit (regionSize : Nat) : Prop := ∀ idx, idx < markWordSize regionSize → partOf regionSize idx < factor

theorem markWordSize_mul (words : Nat) : markWordSize (512 * words) = words := by
  unfold markWordSize kMarkedBytesPerBit kBitsPerWord
  omega

theorem wordsPerPart_eq (words : Nat) (hpos : 0 < words) :
    wordsPerPart (512 * words) = if words < 16 then 1 else words / 16 := by
  unfold wordsPerPart calFactor factor
  rw [markWordSize_mul]
  by_cases hless : words < 16
  · rw [if_pos hless, if_pos hless, Nat.div_self hpos]
  · rw [if_neg hless, if_neg hless]

/-- The parts fit exactly for up to sixteen words and for multiples of sixteen. -/
theorem partsFit_iff (hpos : 0 < words) : PartsFit (512 * words) ↔ words ≤ 16 ∨ 16 ∣ words := by
  unfold PartsFit partOf factor
  rw [markWordSize_mul, wordsPerPart_eq words hpos]
  split_ifs with hless
  · refine iff_of_true ?_ (Or.inl hless.le)
    intro idx hidx
    rw [Nat.div_one]
    omega
  · have hpart : 0 < words / 16 := by omega
    constructor
    · intro hall
      -- the last word decides
      have hlast := hall (words - 1) (by omega)
      rw [Nat.div_lt_iff_lt_mul hpart] at hlast
      right
      omega
    · intro hwords idx hidx
      rw [Nat.div_lt_iff_lt_mul hpart]
      rcases hwords with hsixteen | hdvd
      · omega
      · omega

theorem sized_mul (hpos : 0 < words) (hlt : words < 16384) : Sized (512 * words) := by
  constructor
  · rw [wordsPerPart_eq words hpos]
    split <;> omega
  · rw [wordsPerPart_eq words hpos]
    split <;> omega

/-! ## Runs -/

section Runs

variable {regionSize : Nat}

/-- `MarkBits` for each object of a list, with the answers. -/
def markAll (regionSize : Nat) : RegionBitmap → List Object → Option (List Bool × RegionBitmap)
  | bm, [] => some ([], bm)
  | bm, o :: os => do
      let (isMarked, bm) ← markBits regionSize bm o.start o.size
      let (rest, bm) ← markAll regionSize bm os
      some (isMarked :: rest, bm)

/-- One call. -/
theorem markBits_object (hs : Sized regionSize) (hparts : PartsFit regionSize) {bm : RegionBitmap} {done : List Object}
    {o : Object} (hrep : Represents regionSize bm (marked done)) (ho : o.Inside regionSize)
    (hdone : ∀ d ∈ done, d.Inside regionSize) (hapart : ∀ d ∈ done, Object.Apart d o) (hdiv : 512 ∣ regionSize) :
    ∃ bm', markBits regionSize bm o.start o.size = some (decide (o ∈ done), bm') ∧
      Represents regionSize bm' (marked (done ++ [o])) := by
  obtain ⟨halign, hwhole, hpos, hle⟩ := id ho
  have hcells : 8 * (o.start / 8) = o.start ∧ 8 * (o.size / 8) = o.size :=
    ⟨Nat.mul_div_cancel' halign, Nat.mul_div_cancel' hwhole⟩
  have hn : 0 < o.size / 8 := by omega
  rw [← hcells.1, ← hcells.2]
  by_cases hold : o ∈ done
  · -- marked before: its first granule is set
    have hfirst : o.start / 8 ∈ marked done :=
      mem_marked.mpr ⟨o, hold, Finset.mem_Ico.mpr ⟨le_rfl, Nat.lt_add_of_pos_right hn⟩⟩
    refine ⟨bm, ?_, ?_⟩
    · rw [markBits_again hrep hn hfirst, decide_eq_true hold]
    · rw [marked_append_of_mem hold]
      exact hrep
  · -- new: none of its granules belongs to another object
    have hfree : ∀ g, o.start / 8 ≤ g → g < o.start / 8 + o.size / 8 → g ∉ marked done := by
      intro g hlo hhi hg
      obtain ⟨d, hd, hgd⟩ := mem_marked.mp hg
      have heq := Object.Inside.eq_of_granule (hdone d hd) ho (hapart d hd) hgd (Finset.mem_Ico.mpr ⟨hlo, hhi⟩)
      exact hold (heq ▸ hd)
    have hpart : partOf regionSize ((o.start / 8 + o.size / 8 - 1) / 64) < factor := by
      apply hparts
      unfold markWordSize kMarkedBytesPerBit kBitsPerWord
      omega
    obtain ⟨bm', hmark, hrep'⟩ := markBits_fresh hs hrep hn hfree hpart
    refine ⟨bm', ?_, ?_⟩
    · rw [hmark, decide_eq_false hold]
    · rw [marked_append_singleton]
      exact hrep'

/-- A run from a bitmap that stands for the objects `done`. -/
theorem markAll_spec (hs : Sized regionSize) (hparts : PartsFit regionSize) (hdiv : 512 ∣ regionSize)
    (os : List Object) :
    ∀ (done : List Object) (bm : RegionBitmap), Represents regionSize bm (marked done) →
    (∀ o ∈ done ++ os, o.Inside regionSize) →
      (∀ a ∈ done ++ os, ∀ b ∈ done ++ os, Object.Apart a b) →
      ∃ answers bm', markAll regionSize bm os = some (answers, bm') ∧ Represents regionSize bm' (marked (done ++ os)) ∧
        answers.length = os.length ∧
          ∀ i (hi : i < os.length), answers[i]? = some (decide (os.get ⟨i, hi⟩ ∈ done ++ os.take i)) := by
  induction os with
  | nil =>
    intro done bm hrep _ _
    refine ⟨[], bm, rfl, ?_, rfl, ?_⟩
    · rw [List.append_nil]
      exact hrep
    · intro i hi
      exact absurd hi (Nat.not_lt_zero i)
  | cons o os ih =>
    intro done bm hrep hin hapart
    have hassoc : done ++ o :: os = (done ++ [o]) ++ os := by simp
    obtain ⟨bm₁, hmark, hrep₁⟩ := markBits_object hs hparts hrep (hin o (by simp)) (fun d hd => hin d (by simp [hd]))
      (fun d hd => hapart d (by simp [hd]) o (by simp)) hdiv
    rw [hassoc] at hin hapart
    obtain ⟨answers, bm', hrest, hrep', hlen, hget⟩ := ih (done ++ [o]) bm₁ hrep₁ hin hapart
    refine ⟨decide (o ∈ done) :: answers, bm', ?_, ?_, ?_, ?_⟩
    · simp [markAll, hmark, hrest]
    · rw [hassoc]
      exact hrep'
    · simp [hlen]
    · intro i hi
      cases i with
      | zero => simp
      | succ i =>
        have hi' : i < os.length := by simpa using hi
        simpa using hget i hi'

end Runs

/-! ## Counting -/

/-- The marked granules below an offset. -/
theorem count_eq_filter (G : Finset Nat) (s : Nat) : count G 0 s = (G.filter (· < s)).card := by
  unfold count
  congr 1
  ext g
  simp

/-- The bitmap after any run over objects of a region whose parts fit. -/
theorem markAll_represents (hpos : 0 < words) (hparts : words ≤ 16 ∨ 16 ∣ words) (hfits : words < 16384)
    (hin : ∀ o ∈ os, o.Inside (512 * words)) (hapart : ∀ a ∈ os, ∀ b ∈ os, Object.Apart a b) :
    ∃ answers bm, markAll (512 * words) empty os = some (answers, bm) ∧ Represents (512 * words) bm (marked os) ∧
      answers.length = os.length ∧ ∀ i (hi : i < os.length), answers[i]? = some (decide (os.get ⟨i, hi⟩ ∈ os.take i)) :=
  markAll_spec (sized_mul hpos hfits) ((partsFit_iff hpos).mpr hparts) (Nat.dvd_mul_right 512 words) os [] empty
    represents_empty hin hapart

/-- Over any run of `MarkBits` in a region whose parts fit into the array and whose counters do not wrap: the answers
    tell which objects were marked before, the bits are the granules of the objects, and `GetPreLiveBytes` counts
    them. -/
theorem bitmap_counts_live_bytes (words : Nat) (hpos : 0 < words) (hparts : words ≤ 16 ∨ 16 ∣ words)
    (hfits : words < 16384) (os : List Object) (hin : ∀ o ∈ os, o.Inside (512 * words))
    (hapart : ∀ a ∈ os, ∀ b ∈ os, Object.Apart a b) :
    ∃ answers bm, markAll (512 * words) empty os = some (answers, bm) ∧ answers.length = os.length ∧
      (∀ i (hi : i < os.length), answers[i]? = some (decide (os.get ⟨i, hi⟩ ∈ os.take i))) ∧
      (∀ i j, j < 64 → ((bm.markWords i).testBit j = true ↔
        ∃ o ∈ os, o.start / 8 ≤ 64 * i + j ∧ 64 * i + j < (o.start + o.size) / 8)) ∧
      ∀ offset, 8 ∣ offset → offset < 512 * words →
        bm.getPreLiveBytes (512 * words) offset = some (8 * ((marked os).filter (· < offset / 8)).card) := by
  obtain ⟨answers, bm, hrun, hrep, hlen, hanswers⟩ := markAll_represents hpos hparts hfits hin hapart
  refine ⟨answers, bm, hrun, hlen, hanswers, ?_, ?_⟩
  · intro i j hj
    rw [hrep.bits i j hj, mem_marked]
    refine exists_congr fun o => and_congr_right fun ho => ?_
    obtain ⟨halign, hwhole, -, -⟩ := hin o ho
    unfold Object.granules
    rw [Finset.mem_Ico]
    omega
  · intro offset haligned hlt
    obtain ⟨s, rfl⟩ := haligned
    have hpart : partOf (512 * words) (s / 64) < factor := by
      apply (partsFit_iff hpos).mpr hparts
      rw [markWordSize_mul]
      omega
    rw [getPreLiveBytes_eq (sized_mul hpos hfits) hrep hpart.le, Nat.mul_div_cancel_left s (by decide), count_eq_filter,
      Nat.mul_comm]

/-- Two objects of a region of 4096 bytes, one of them marked twice. -/
theorem bitmap_counts_live_bytes_sample :
    ∃ answers bm, markAll (512 * 8) empty [⟨64, 1024⟩, ⟨16, 8⟩, ⟨64, 1024⟩] = some (answers, bm) ∧
      answers = [false, false, true] ∧
      bm.getPreLiveBytes (512 * 8) 72 = some 16 := by
  have hin : ∀ o ∈ [(⟨64, 1024⟩ : Object), ⟨16, 8⟩, ⟨64, 1024⟩], o.Inside (512 * 8) := by
    intro o ho
    simp only [List.mem_cons, List.not_mem_nil, or_false] at ho
    rcases ho with rfl | rfl | rfl <;> exact ⟨by decide, by decide, by decide, by decide⟩
  have hapart : ∀ a ∈ [(⟨64, 1024⟩ : Object), ⟨16, 8⟩, ⟨64, 1024⟩], ∀ b ∈ [(⟨64, 1024⟩ : Object), ⟨16, 8⟩, ⟨64, 1024⟩],
      Object.Apart a b := by
    unfold Object.Apart
    decide
  obtain ⟨answers, bm, hrun, hlen, hanswers, -, hpre⟩ :=
    bitmap_counts_live_bytes 8 (by decide) (by decide) (by decide) _ hin hapart
  refine ⟨answers, bm, hrun, ?_, ?_⟩
  · apply List.ext_getElem?
    intro i
    rcases Nat.lt_or_ge i 3 with hi | hi
    · rw [hanswers i hi]
      interval_cases i <;> rfl
    · rw [List.getElem?_eq_none (by rw [hlen]; exact hi), List.getElem?_eq_none (by exact hi)]
  · rw [hpre 72 (by decide) (by decide)]
    decide +kernel

/-! ## A counter that wraps -/

/-- Full words of one part, with the counter modulo `2 ^ 16`. -/
theorem chargeFull_counter (regionSize p n : Nat) : ∀ (bm : RegionBitmap) (idx : Nat),
    (∀ i, idx ≤ i → i < idx + n → partOf regionSize i = p) → p < factor → bm.partLiveBytes p < 2 ^ 16 →
    ∃ bm', chargeFull regionSize bm idx n = some bm' ∧
      bm'.partLiveBytes p = (bm.partLiveBytes p + 64 * n) % 2 ^ 16 := by
  induction n with
  | zero =>
    intro bm idx _ _ hlt
    exact ⟨bm, rfl, (Nat.mod_eq_of_lt hlt).symm⟩
  | succ n ih =>
    intro bm idx hpart hp _
    have hhead : idx / wordsPerPart regionSize = p := hpart idx le_rfl (by omega)
    obtain ⟨bm₁, hcharge, hcounter₁⟩ : ∃ bm₁, charge regionSize bm idx (2 ^ 64 - 1) kBitsPerWord = some bm₁ ∧
        bm₁.partLiveBytes p = (bm.partLiveBytes p + 64) % 2 ^ 16 := by
      unfold charge
      rw [hhead]
      exact ⟨_, if_pos hp, Function.update_self ..⟩
    obtain ⟨bm', hrest, hcounter⟩ := ih bm₁ (idx + 1) (fun i hlo hhi => hpart i (by omega) (by omega)) hp (by omega)
    refine ⟨bm', ?_, ?_⟩
    · rw [chargeFull, hcharge, Option.bind_some]
      exact hrest
    · rw [hcounter, hcounter₁]
      omega

/-- In a region of 8 MB a part has 1024 words. An object that fills the first part leaves its counter at zero. -/
theorem bitmap_counter_wraps :
    ∃ bm, markAll (512 * 16384) empty [⟨0, 524288⟩] = some ([false], bm) ∧
      bm.getPreLiveBytes (512 * 16384) 524288 = some 0 ∧
      8 * ((marked [⟨0, 524288⟩]).filter (· < 524288 / 8)).card = 524288 := by
  have hwords : wordsPerPart (512 * 16384) = 1024 := by rw [wordsPerPart_eq _ (by decide)]; rfl
  have hpart : ∀ i, i < 1024 → partOf (512 * 16384) i = 0 := by
    intro i hi
    unfold partOf
    rw [hwords]
    omega
  -- the first word
  obtain ⟨bm₁, hfirst, hcounter₁⟩ :
      ∃ bm₁, charge (512 * 16384) empty (0 / 64) (getBitMaskInfo (8 * 0) (8 * 65536)).headMaskBits
      (min 64 (0 % 64 + 65536) - 0 % 64) = some bm₁ ∧ bm₁.partLiveBytes 0 = 64 := by
    unfold charge
    rw [hwords]
    exact ⟨_, if_pos (by decide), rfl⟩
  -- the others
  obtain ⟨bm₂, hothers, hcounter₂⟩ := chargeFull_counter (512 * 16384) 0 1023
    { bm₁ with liveBytes := Word.add64 bm₁.liveBytes (8 * 65536) } 1 (fun i _ hi => hpart i (by omega)) (by decide) (by
      change bm₁.partLiveBytes 0 < 2 ^ 16
      omega)
  have hcounter : bm₂.partLiveBytes 0 = 0 := by
    rw [hcounter₂]
    change (bm₁.partLiveBytes 0 + 64 * 1023) % 2 ^ 16 = 0
    rw [hcounter₁]
    rfl
  have hmark : markBits (512 * 16384) empty 0 524288 = some (false, bm₂) := by
    rw [show 524288 = 8 * 65536 from rfl, show (0 : Nat) = 8 * 0 from rfl, markBits_eq (Nat.zero_and _), hfirst,
      Option.bind_some, show tailBits 0 65536 = 65472 from rfl]
    change (chargeFull (512 * 16384) _ 1 1023).bind _ = _
    rw [hothers]
    rfl
  refine ⟨bm₂, ?_, ?_, ?_⟩
  · simp [markAll, hmark]
  · unfold getPreLiveBytes
    rw [hwords]
    simp [kBitsPerWord, kMarkedBytesPerBit, sumParts, factor, hcounter, sumWords, popcount, BitSet.popcount]
  · have hall : (marked [⟨0, 524288⟩]).filter (· < 524288 / 8) = Finset.Ico 0 65536 := by
      ext g
      simp [mem_marked, Object.granules]
    rw [hall, Nat.card_Ico]

/-! ## Indices -/

section Indices

variable {regionSize : Nat}

theorem charge_some {idx : Nat} (h : partOf regionSize idx < factor) (bm : RegionBitmap) (mask cnt : Nat) :
    ∃ bm', charge regionSize bm idx mask cnt = some bm' := ⟨_, if_pos h⟩

theorem chargeFull_some {n : Nat} : ∀ {idx : Nat}, (∀ i, i < idx + n → partOf regionSize i < factor) →
    ∀ bm : RegionBitmap, ∃ bm', chargeFull regionSize bm idx n = some bm' := by
  induction n with
  | zero =>
    intro idx _ bm
    exact ⟨bm, rfl⟩
  | succ n ih =>
    intro idx hparts bm
    obtain ⟨bm₁, hcharge⟩ := charge_some (hparts idx (by omega)) bm (2 ^ 64 - 1) kBitsPerWord
    rw [chargeFull, hcharge, Option.bind_some]
    apply ih
    intro i hi
    exact hparts i (by omega)

/-- No access of `MarkBits` is past the array, whatever has been marked. -/
theorem markBits_isSome (hparts : PartsFit regionSize) (hdiv : 512 ∣ regionSize) (bm : RegionBitmap) {o : Object}
    (ho : o.Inside regionSize) : (markBits regionSize bm o.start o.size).isSome := by
  obtain ⟨⟨s, hs⟩, ⟨n, hn⟩, hpos, hle⟩ := ho
  rw [hs, hn]
  have hword : ∀ i, i ≤ (s + n - 1) / 64 → partOf regionSize i < factor := by
    intro i hi
    apply hparts
    unfold markWordSize kMarkedBytesPerBit kBitsPerWord
    omega
  by_cases hfree : bm.markWords (s / 64) &&& (getBitMaskInfo (8 * s) (8 * n)).headMaskBits = 0
  · rw [markBits_eq hfree]
    obtain ⟨bm₁, hhead⟩ := charge_some (hword (s / 64) (by omega)) bm (getBitMaskInfo (8 * s) (8 * n)).headMaskBits
      (min 64 (s % 64 + n) - s % 64)
    rw [hhead, Option.bind_some]
    have hmiddle : ∀ i, i < s / 64 + 1 + tailBits s n / 64 → partOf regionSize i < factor := by
      intro i hi
      apply hword
      unfold tailBits at hi
      omega
    obtain ⟨bm₂, hfull⟩ := chargeFull_some hmiddle { bm₁ with liveBytes := Word.add64 bm₁.liveBytes (8 * n) }
    rw [hfull, Option.bind_some]
    split
    · rfl
    · rename_i hmod
      obtain ⟨bm₃, hlast⟩ :=
        charge_some (hword (s / 64 + 1 + tailBits s n / 64) (by unfold tailBits at hmod ⊢; omega)) bm₂
        (getBitMaskInfo (8 * s) (8 * n)).lastMaskBits (tailBits s n % 64 - 0)
      rw [hlast]
      rfl
  · unfold markBits applyBitMaskInfo
    rw [(getBitMaskInfo_spec s n).1, if_pos hfree]
    rfl

theorem sumParts_isSome (bm : RegionBitmap) {n : Nat} (hn : n ≤ factor) : (bm.sumParts n).isSome := by
  induction n with
  | zero => rfl
  | succ n ih =>
    rw [sumParts, if_pos (show n < factor from hn), Option.isSome_map]
    exact ih (Nat.le_of_succ_le hn)

theorem getPreLiveBytes_isSome (hparts : PartsFit regionSize) (hdiv : 512 ∣ regionSize) (bm : RegionBitmap)
    {offset : Nat} (hlt : offset < regionSize) : (bm.getPreLiveBytes regionSize offset).isSome := by
  have hpart : offset / (kBitsPerWord * kMarkedBytesPerBit) / wordsPerPart regionSize < factor := by
    apply hparts
    unfold markWordSize kBitsPerWord kMarkedBytesPerBit
    omega
  obtain ⟨sum, hsum⟩ := Option.isSome_iff_exists.mp (sumParts_isSome bm hpart.le)
  unfold getPreLiveBytes
  simp [hsum]

end Indices

/-- No part index in a region of this size is past the array, neither for an object nor for an offset, and no counter
    wraps. -/
structure InRange (regionSize : Nat) : Prop where
  parts : ∀ idx, idx < markWordSize regionSize → idx / wordsPerPart regionSize < factor
  marks : ∀ (bm : RegionBitmap) (o : Object), o.Inside regionSize → (markBits regionSize bm o.start o.size).isSome
  counts : ∀ (bm : RegionBitmap) (offset : Nat), offset < regionSize → (bm.getPreLiveBytes regionSize offset).isSome
  counters : ∀ os : List Object, (∀ o ∈ os, o.Inside regionSize) → (∀ a ∈ os, ∀ b ∈ os, Object.Apart a b) →
    ∃ answers bm, markAll regionSize empty os = some (answers, bm) ∧ ∀ p, p < factor →
      bm.partLiveBytes p = count (marked os) (partStart regionSize p) (partStart regionSize (p + 1)) ∧
        count (marked os) (partStart regionSize p) (partStart regionSize (p + 1)) < 2 ^ 16

/-- Within 2048 KB every part index is below sixteen and no counter wraps, **if and only if** the region has one unit or
    an even number of units. -/
theorem bitmap_indices_in_range (units : Nat) (hpos : 0 < units) (hle : 4096 * units ≤ 2048 * 1024) :
    InRange (4096 * units) ↔ units = 1 ∨ 2 ∣ units := by
  obtain ⟨words, hwords⟩ : ∃ words, words = 8 * units := ⟨_, rfl⟩
  have hiff : PartsFit (512 * words) ↔ words ≤ 16 ∨ 16 ∣ words := partsFit_iff (by omega)
  rw [show 4096 * units = 512 * words by omega, show units = 1 ∨ 2 ∣ units ↔ words ≤ 16 ∨ 16 ∣ words by omega]
  refine ⟨fun h => hiff.mp h.parts, fun hparts => ?_⟩
  have hfit : PartsFit (512 * words) := hiff.mpr hparts
  refine ⟨hfit, fun bm o ho => markBits_isSome hfit (Nat.dvd_mul_right 512 words) bm ho,
    fun bm offset hlt => getPreLiveBytes_isSome hfit (Nat.dvd_mul_right 512 words) bm hlt, ?_⟩
  intro os hin hapart
  obtain ⟨answers, bm, hrun, hrep, -⟩ := markAll_represents (by omega) hparts (by omega) hin hapart
  refine ⟨answers, bm, hrun, fun p hp => ⟨hrep.parts p hp, ?_⟩⟩
  have hcount := count_le (G := marked os) (a := partStart (512 * words) p) (b := partStart (512 * words) (p + 1))
  have hsized : wordsPerPart (512 * words) ≤ 1023 := (sized_mul (by omega) (by omega)).le
  rw [partStart_succ] at hcount ⊢
  omega

/-- Two units, the smallest size with sixteen words. -/
theorem bitmap_indices_in_range_two :
    (markBits (4096 * 2) empty 8184 8).isSome ∧ (empty.getPreLiveBytes (4096 * 2) 8184).isSome := by
  have hrange : InRange (4096 * 2) := (bitmap_indices_in_range 2 (by decide) (by decide)).mpr (by decide)
  exact ⟨hrange.marks empty ⟨8184, 8⟩ ⟨by decide, by decide, by decide, by decide⟩,
    hrange.counts empty 8184 (by decide)⟩

/-- Three units have 24 words and sixteen parts of one word: the objects of the last third and the live bytes before
    them are counted past the array. -/
theorem bitmap_index_past_array :
    markBits (4096 * 3) empty 8192 8 = none ∧ empty.getPreLiveBytes (4096 * 3) 8704 = none ∧
      8704 / 512 / wordsPerPart (4096 * 3) = 17 := by
  decide +kernel

end CangjieRuntime.RegionBitmap
