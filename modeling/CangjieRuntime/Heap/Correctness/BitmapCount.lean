import CangjieRuntime.Heap.RegionBitmap

/-!
# `Heap.Correctness.BitmapCount` — the bitmap counts the granules it has marked

`Represents regionSize bm G`: the bits of `bm` are the granules `G`, and the counter of each part is the number of
granules of `G` in it. Marking an object adds its granules (`markBits_fresh`) or finds it marked (`markBits_again`),
and `GetPreLiveBytes` counts the granules below an offset (`getPreLiveBytes_eq`).

`markBits` works word by word, so everything about it rests on one step, `charge`: one word, one mask. The step
fails exactly when the part of the word is past the array, and since parts increase with words an object
can be marked exactly when the part of its *last* word is inside (`markBits_fresh`, `markBits_outside`).
-/

namespace CangjieRuntime.RegionBitmap

open BitSet Function Option Finset

/-- The part a word is counted in. -/
def partOf (regionSize idx : Nat) : Nat := idx / wordsPerPart regionSize

/-- What the bounds on region sizes give: parts are not empty, and no counter overflows its sixteen bits. -/
structure Sized (regionSize : Nat) : Prop where
  pos : 0 < wordsPerPart regionSize
  le : wordsPerPart regionSize ≤ 1023

/-- Sizes of whole pages, up to 2048 KB. -/
theorem sized_of_le {regionSize : Nat} (hpos : 512 ≤ regionSize) (hle : regionSize ≤ 2048 * 1024) :
    Sized regionSize := by
  have hwords : 1 ≤ markWordSize regionSize ∧ markWordSize regionSize ≤ 4096 := by
    unfold markWordSize kMarkedBytesPerBit kBitsPerWord
    omega
  have hcal : wordsPerPart regionSize = 1 ∨ wordsPerPart regionSize = markWordSize regionSize / 16 ∧
      16 ≤ markWordSize regionSize := by
    unfold wordsPerPart calFactor factor
    split_ifs with h
    · exact Or.inl (Nat.div_self hwords.1)
    · exact Or.inr ⟨rfl, Nat.le_of_not_lt h⟩
  constructor <;> omega

/-- The granules of the words of one part: from `64 * (wordsPerPart * p)` up to the next part. -/
def partStart (regionSize p : Nat) : Nat := 64 * (wordsPerPart regionSize * p)

/-- **What a bitmap stands for.** -/
structure Represents (regionSize : Nat) (bm : RegionBitmap) (G : Finset Nat) : Prop where
  bits : ∀ i j, j < 64 → ((bm.markWords i).testBit j = true ↔ 64 * i + j ∈ G)
  parts : ∀ p, p < factor → bm.partLiveBytes p = count G (partStart regionSize p) (partStart regionSize (p + 1))

variable {regionSize : Nat} {G : Finset Nat} {bm : RegionBitmap} {n s : Nat}

theorem represents_empty : Represents regionSize empty ∅ := by
  constructor
  · intro i j _; simp [empty]
  · intro p _; simp [empty]

/-- A new bitmap stands for nothing else. -/
theorem eq_empty_of_represents (hrep : Represents regionSize empty G) : G = ∅ := by
  rw [eq_empty_iff_forall_notMem]
  intro g hg
  have hbit := hrep.bits (g / 64) (g % 64) (Nat.mod_lt _ (by decide))
  rw [Nat.div_add_mod] at hbit
  have := hbit.mpr hg
  simp [empty] at this

/-! ## Parts -/

/-- A word lies inside its part. -/
theorem word_in_part (hs : Sized regionSize) (idx : Nat) :
    partStart regionSize (partOf regionSize idx) ≤ 64 * idx ∧
      64 * idx + 64 ≤ partStart regionSize (partOf regionSize idx + 1) := by
  have hlo := Nat.mul_div_le idx (wordsPerPart regionSize)
  have hhi := Nat.lt_mul_div_succ idx hs.pos
  unfold partStart partOf
  omega

theorem partStart_mono {p q : Nat} (h : p ≤ q) : partStart regionSize p ≤ partStart regionSize q :=
  Nat.mul_le_mul_left _ (Nat.mul_le_mul_left _ h)

theorem partOf_mono {i j : Nat} (h : i ≤ j) : partOf regionSize i ≤ partOf regionSize j := Nat.div_le_div_right h

theorem partStart_succ (p : Nat) :
    partStart regionSize (p + 1) = partStart regionSize p + 64 * wordsPerPart regionSize := by
  unfold partStart
  rw [Nat.mul_succ, Nat.mul_add]

/-! ## One word -/

/-- The step of every loop of `markBits`: the granules of one mask are added to the set. -/
theorem charge_represents (hs : Sized regionSize) {idx mask lo hi : Nat}
    (hrep : Represents regionSize bm G) (hm : IsMask mask lo hi) (hhi : hi ≤ 64)
    (hfree : ∀ g, 64 * idx + lo ≤ g → g < 64 * idx + hi → g ∉ G) (hpart : partOf regionSize idx < factor) :
    ∃ bm', charge regionSize bm idx mask (hi - lo) = some bm' ∧
      Represents regionSize bm' (G ∪ Finset.Ico (64 * idx + lo) (64 * idx + hi)) := by
  have hdisj : Disjoint G (Finset.Ico (64 * idx + lo) (64 * idx + hi)) := by
    rw [disjoint_right]
    intro g hg
    obtain ⟨h1, h2⟩ := mem_Ico.mp hg
    exact hfree g h1 h2
  obtain ⟨hin, hout⟩ := word_in_part hs idx
  refine ⟨_, if_pos hpart, ?_, ?_⟩
  · intro i j hj
    rw [mem_union, mem_Ico]
    by_cases hi' : i = idx
    · subst hi'
      simp only [update_self, Nat.testBit_or, Bool.or_eq_true, hm j, decide_eq_true_iff, hrep.bits i j hj,
        Nat.add_le_add_iff_left, Nat.add_lt_add_iff_left]
    · simp only [update_of_ne hi', hrep.bits i j hj]
      constructor
      · exact Or.inl
      · rintro (h | h)
        · exact h
        · omega
  · intro p hp
    rw [count_union hdisj]
    by_cases hpe : p = partOf regionSize idx
    · -- the counter of the word's own part: the old granules and the new ones fit sixteen bits together
      subst hpe
      have hinside := count_Ico_inside (a := partStart regionSize (partOf regionSize idx))
        (b := partStart regionSize (partOf regionSize idx + 1)) (show _ ≤ 64 * idx + lo by omega)
          (show 64 * idx + hi ≤ _ by omega)
      have hbound : count G (partStart regionSize (partOf regionSize idx))
          (partStart regionSize (partOf regionSize idx + 1)) + (hi - lo) < 2 ^ 16 := by
        have hle := count_le (G := G ∪ Finset.Ico (64 * idx + lo) (64 * idx + hi))
          (a := partStart regionSize (partOf regionSize idx))
          (b := partStart regionSize (partOf regionSize idx + 1))
        have hwords := hs.le
        rw [count_union hdisj, hinside, partStart_succ] at hle
        rw [partStart_succ]
        omega
      rw [hinside]
      show update bm.partLiveBytes (partOf regionSize idx) _ (partOf regionSize idx) = _
      rw [update_self, Nat.add_sub_add_left]
      show (bm.partLiveBytes (partOf regionSize idx) + (hi - lo)) % 2 ^ 16 = _
      rw [hrep.parts _ hp, Nat.mod_eq_of_lt hbound]
    · -- every other part: the word lies outside
      rw [count_Ico_outside, Nat.add_zero]
      · show update bm.partLiveBytes (partOf regionSize idx) _ p = _
        rw [update_of_ne hpe]
        exact hrep.parts p hp
      · rcases Nat.lt_or_gt_of_ne hpe with h | h
        · right
          have hle : partStart regionSize (p + 1) ≤ partStart regionSize (partOf regionSize idx) := partStart_mono h
          exact hle.trans (hin.trans (Nat.le_add_right _ _))
        · left
          have hle : partStart regionSize (partOf regionSize idx + 1) ≤ partStart regionSize p := partStart_mono h
          exact (Nat.add_le_add_left hhi _).trans (hout.trans hle)

theorem charge_outside {idx mask cnt : Nat} (h : factor ≤ partOf regionSize idx) :
    charge regionSize bm idx mask cnt = none := if_neg (Nat.not_lt.mpr h)

/-! ## The loop over full words -/

theorem chargeFull_represents (hs : Sized regionSize) : ∀ {bm : RegionBitmap} {G : Finset Nat} {idx : Nat},
    Represents regionSize bm G → (∀ g, 64 * idx ≤ g → g < 64 * (idx + n) → g ∉ G) →
    (0 < n → partOf regionSize (idx + n - 1) < factor) →
    ∃ bm', chargeFull regionSize bm idx n = some bm' ∧
      Represents regionSize bm' (G ∪ Finset.Ico (64 * idx) (64 * (idx + n))) := by
  induction n with
  | zero =>
    intro bm G idx hrep _ _
    refine ⟨bm, rfl, ?_⟩
    simpa using hrep
  | succ n ih =>
    intro bm G idx hrep hfree hpart
    have hhead : partOf regionSize idx < factor :=
      Nat.lt_of_le_of_lt (partOf_mono (by omega)) (hpart (Nat.succ_pos n))
    obtain ⟨bm₁, h₁, hrep₁⟩ := charge_represents hs hrep (isMask_full 64) (Nat.le_refl 64)
      (fun g h1 h2 => hfree g h1 (by omega)) hhead
    have hfree₁ : ∀ g, 64 * (idx + 1) ≤ g → g < 64 * (idx + 1 + n) →
        g ∉ G ∪ Finset.Ico (64 * idx + 0) (64 * idx + 64) := by
      intro g hlo hhi
      rw [mem_union, mem_Ico]
      rintro (h | h)
      · exact hfree g (by omega) (by omega) h
      · omega
    have hpart₁ : 0 < n → partOf regionSize (idx + 1 + n - 1) < factor := by
      intro _
      rw [show idx + 1 + n - 1 = idx + (n + 1) - 1 by omega]
      exact hpart (Nat.succ_pos n)
    obtain ⟨bm', h', hrep'⟩ := ih hrep₁ hfree₁ hpart₁
    refine ⟨bm', ?_, ?_⟩
    · show (charge regionSize bm idx (2 ^ 64 - 1) kBitsPerWord).bind _ = _
      rw [show kBitsPerWord = 64 - 0 from rfl, h₁]
      exact h'
    · -- the first word and the rest make up the whole
      have hjoin : Finset.Ico (64 * idx) (64 * (idx + (n + 1))) =
          Finset.Ico (64 * idx + 0) (64 * idx + 64) ∪ Finset.Ico (64 * (idx + 1)) (64 * (idx + 1 + n)) := by
        rw [Nat.mul_succ 64 idx, Finset.Ico_union_Ico_eq_Ico (by omega) (by omega)]
        congr 1; omega
      rw [hjoin, ← union_assoc]
      exact hrep'

/-- The loop runs off the array when its last word does. -/
theorem chargeFull_outside : ∀ {bm : RegionBitmap} {idx : Nat}, 0 < n →
    factor ≤ partOf regionSize (idx + n - 1) → chargeFull regionSize bm idx n = none := by
  induction n with
  | zero => intro bm idx hn; exact absurd hn (Nat.lt_irrefl 0)
  | succ n ih =>
    intro bm idx _ hpart
    show (charge regionSize bm idx (2 ^ 64 - 1) kBitsPerWord).bind _ = none
    cases hc : charge regionSize bm idx (2 ^ 64 - 1) kBitsPerWord with
    | none => rfl
    | some bm₁ =>
      rcases Nat.eq_zero_or_pos n with rfl | hn
      · rw [charge_outside (by simpa using hpart)] at hc
        cases hc
      · apply ih hn
        rwa [show idx + 1 + n - 1 = idx + (n + 1) - 1 by omega]

/-! ## An object -/

/-- The granules of an object at granule `s`, `n` granules long, past the end of its first word. -/
def tailBits (s n : Nat) : Nat := s % 64 + n - 64

/-- What `GetBitMaskInfo` computes, in granules: the head word's bits, and how many words the rest takes. -/
theorem getBitMaskInfo_spec (s n : Nat) :
    (getBitMaskInfo (8 * s) (8 * n)).headWordIdx = s / 64 ∧
    IsMask (getBitMaskInfo (8 * s) (8 * n)).headMaskBits (s % 64) (min 64 (s % 64 + n)) ∧
    (getBitMaskInfo (8 * s) (8 * n)).tailWordCnt = (tailBits s n + 63) / 64 ∧
    IsMask (getBitMaskInfo (8 * s) (8 * n)).lastMaskBits 0 (tailBits s n % 64) := by
  have hr : s % 64 < 64 := Nat.mod_lt _ (by decide)
  simp only [getBitMaskInfo, kMarkedBytesPerBit, kBitsPerWord, tailBits, Nat.mul_div_cancel_left _ (by decide : 0 < 8)]
  split_ifs with h
  · rw [Nat.min_eq_left (by omega), show s % 64 + n - 64 = n - (64 - s % 64) by omega]
    exact ⟨rfl, isMask_high (Nat.le_of_lt hr), rfl, isMask_low _⟩
  · -- the object ends inside its first word
    rw [Nat.min_eq_right (by omega), show s % 64 + n - 64 = 0 by omega]
    exact ⟨rfl, isMask_shift _ _, rfl, isMask_low 0⟩

/-- The three stages of marking an object whose first word has none of its bits: the head, the full words and, when
    some bits are left over, the last word. -/
theorem markBits_eq
    (hfree : bm.markWords (s / 64) &&& (getBitMaskInfo (8 * s) (8 * n)).headMaskBits = 0) :
    markBits regionSize bm (8 * s) (8 * n) =
      (charge regionSize bm (s / 64) (getBitMaskInfo (8 * s) (8 * n)).headMaskBits
        (min 64 (s % 64 + n) - s % 64)).bind fun bm =>
      (chargeFull regionSize { bm with liveBytes := Word.add64 bm.liveBytes (8 * n) } (s / 64 + 1)
        (tailBits s n / 64)).bind fun bm =>
      if tailBits s n % 64 = 0 then some (false, bm)
      else (charge regionSize bm (s / 64 + 1 + tailBits s n / 64) (getBitMaskInfo (8 * s) (8 * n)).lastMaskBits
        (tailBits s n % 64 - 0)).map (false, ·) := by
  obtain ⟨hidx, hhead, htail, hlast⟩ := getBitMaskInfo_spec s n
  have hlast0 := hlast.ne_zero_iff
  have hmod64 : tailBits s n % 64 ≤ 64 := Nat.le_of_lt (Nat.mod_lt _ (by decide))
  unfold markBits applyBitMaskInfo
  generalize tailBits s n = t at *
  rw [hidx, htail, if_neg (not_not_intro hfree)]
  unfold popcount
  rw [hhead.popcount_eq (Nat.min_le_left _ _), hlast.popcount_eq hmod64]
  show bind _ _ = bind _ _
  congr 1
  funext bm₁
  by_cases hmod : t % 64 = 0
  · -- whole words only: the loop runs up to and including the last one
    have hzero : ¬ (getBitMaskInfo (8 * s) (8 * n)).lastMaskBits ≠ 0 := fun h => by
      have := hlast0.mp h
      omega
    simp only [if_pos hmod, if_neg hzero]
    split_ifs with hpos
    · rw [show s / 64 + (t + 63) / 64 - s / 64 = t / 64 by omega]
      rfl
    · rw [show t / 64 = 0 by omega]
      rfl
  · have hne : (getBitMaskInfo (8 * s) (8 * n)).lastMaskBits ≠ 0 := hlast0.mpr (by omega)
    simp only [if_neg hmod, if_pos hne, if_pos (show (t + 63) / 64 > 0 by omega)]
    rw [show s / 64 + (t + 63) / 64 - (s / 64 + 1) = t / 64 by omega,
      show s / 64 + (t + 63) / 64 = s / 64 + 1 + t / 64 by omega]
    show bind _ _ = bind _ _
    congr 1
    funext bm₂
    cases charge regionSize bm₂ (s / 64 + 1 + t / 64) (getBitMaskInfo (8 * s) (8 * n)).lastMaskBits (t % 64 - 0) <;>
      rfl

/-- The bits of the head word are looked up first: they are set exactly when granules of the object are marked. -/
theorem head_eq_zero (hrep : Represents regionSize bm G)
    (hfree : ∀ g, s ≤ g → g < s + n → g ∉ G) :
    bm.markWords (s / 64) &&& (getBitMaskInfo (8 * s) (8 * n)).headMaskBits = 0 := by
  by_contra hne
  obtain ⟨i, hlo, hhi, hbit⟩ := (getBitMaskInfo_spec s n).2.1.and_ne_zero_iff.mp hne
  have hmem := (hrep.bits (s / 64) i (by omega)).mp hbit
  exact hfree _ (by omega) (by omega) hmem

/-- The head, the full words and the last word of an object are its granules. -/
theorem object_cells (s n : Nat) :
    Finset.Ico (64 * (s / 64) + s % 64) (64 * (s / 64) + min 64 (s % 64 + n)) ∪
      Finset.Ico (64 * (s / 64 + 1)) (64 * (s / 64 + 1 + tailBits s n / 64)) ∪
      Finset.Ico (64 * (s / 64 + 1 + tailBits s n / 64) + 0)
        (64 * (s / 64 + 1 + tailBits s n / 64) + tailBits s n % 64) = Finset.Ico s (s + n) := by
  unfold tailBits
  ext g
  simp only [mem_union, mem_Ico]
  omega

/-- **Marking an object that is not marked** adds its granules, when its last word is in one of the parts. -/
theorem markBits_fresh (hs : Sized regionSize)
    (hrep : Represents regionSize bm G) (hn : 0 < n) (hfree : ∀ g, s ≤ g → g < s + n → g ∉ G)
    (hpart : partOf regionSize ((s + n - 1) / 64) < factor) :
    ∃ bm', markBits regionSize bm (8 * s) (8 * n) = some (false, bm') ∧
      Represents regionSize bm' (G ∪ Finset.Ico s (s + n)) := by
  obtain ⟨-, hhead, -, hlast⟩ := getBitMaskInfo_spec s n
  have hbelow : ∀ idx, idx ≤ (s + n - 1) / 64 → partOf regionSize idx < factor := fun idx h =>
    Nat.lt_of_le_of_lt (partOf_mono h) hpart
  rw [markBits_eq (head_eq_zero hrep hfree)]
  -- the head word
  obtain ⟨bm₁, h₁, hrep₁⟩ := charge_represents hs hrep hhead (Nat.min_le_left _ _)
    (fun g h1 h2 => hfree g (by omega) (by omega)) (hbelow (s / 64) (by omega))
  rw [h₁, bind_some]
  -- the full words
  have hrep₁' : Represents regionSize { bm₁ with liveBytes := Word.add64 bm₁.liveBytes (8 * n) } _ :=
    ⟨hrep₁.bits, hrep₁.parts⟩
  have hfree₂ : ∀ g, 64 * (s / 64 + 1) ≤ g → g < 64 * (s / 64 + 1 + tailBits s n / 64) →
      g ∉ G ∪ Finset.Ico (64 * (s / 64) + s % 64) (64 * (s / 64) + min 64 (s % 64 + n)) := by
    intro g hlo hhi
    rw [mem_union, mem_Ico]
    unfold tailBits at hhi
    rintro (h | h)
    · exact hfree g (by omega) (by omega) h
    · omega
  obtain ⟨bm₂, h₂, hrep₂⟩ := chargeFull_represents hs hrep₁' hfree₂
    (fun hpos => hbelow _ (by unfold tailBits at hpos ⊢; omega))
  rw [h₂, bind_some]
  have hcells := object_cells s n
  split_ifs with hmod
  · rw [hmod, Finset.Ico_self, union_empty] at hcells
    rw [union_assoc, hcells] at hrep₂
    exact ⟨bm₂, rfl, hrep₂⟩
  · -- the last word
    have hfree₃ : ∀ g, 64 * (s / 64 + 1 + tailBits s n / 64) + 0 ≤ g →
        g < 64 * (s / 64 + 1 + tailBits s n / 64) + tailBits s n % 64 →
        g ∉ G ∪ Finset.Ico (64 * (s / 64) + s % 64) (64 * (s / 64) + min 64 (s % 64 + n)) ∪
          Finset.Ico (64 * (s / 64 + 1)) (64 * (s / 64 + 1 + tailBits s n / 64)) := by
      intro g hlo hhi
      rw [mem_union, mem_union, mem_Ico, mem_Ico]
      unfold tailBits at hlo hhi ⊢
      rintro ((h | h) | h)
      · exact hfree g (by omega) (by omega) h
      · omega
      · omega
    obtain ⟨bm₃, h₃, hrep₃⟩ := charge_represents hs hrep₂ hlast (Nat.le_of_lt (Nat.mod_lt _ (by decide))) hfree₃
      (hbelow _ (by unfold tailBits at hmod ⊢; omega))
    rw [h₃]
    rw [union_assoc, union_assoc, ← union_assoc (Finset.Ico _ _), hcells] at hrep₃
    exact ⟨bm₃, rfl, hrep₃⟩

variable (hrep : Represents regionSize bm G)
include hrep

/-- **Marking an object again** changes nothing. -/
theorem markBits_again
    (hn : 0 < n) (hmem : s ∈ G) : markBits regionSize bm (8 * s) (8 * n) = some (true, bm) := by
  obtain ⟨hidx, hhead, -, -⟩ := getBitMaskInfo_spec s n
  have hr : s % 64 < 64 := Nat.mod_lt _ (by decide)
  unfold markBits applyBitMaskInfo
  rw [hidx, if_pos]
  refine hhead.and_ne_zero_iff.mpr ⟨s % 64, Nat.le_refl _, by omega, (hrep.bits _ _ hr).mpr ?_⟩
  rw [Nat.div_add_mod]
  exact hmem

/-- **Where the counters end.** An object whose last word has a part of sixteen or more cannot be marked without
    an access past the array. -/
theorem markBits_outside
    (hn : 0 < n) (hfree : ∀ g, s ≤ g → g < s + n → g ∉ G)
    (hpart : factor ≤ partOf regionSize ((s + n - 1) / 64)) :
    markBits regionSize bm (8 * s) (8 * n) = none := by
  rw [markBits_eq (head_eq_zero hrep hfree)]
  -- the last word is the head, one of the full words, or the one after them
  by_cases hmod : tailBits s n % 64 = 0
  · by_cases hzero : tailBits s n / 64 = 0
    · rw [charge_outside, bind_none]
      rwa [show (s + n - 1) / 64 = s / 64 by unfold tailBits at *; omega] at hpart
    · cases charge regionSize bm (s / 64) _ _ with
      | none => rfl
      | some bm₁ =>
        rw [bind_some, chargeFull_outside (Nat.pos_of_ne_zero hzero), bind_none]
        rwa [show (s + n - 1) / 64 = s / 64 + 1 + tailBits s n / 64 - 1 by unfold tailBits at *; omega] at hpart
  · cases charge regionSize bm (s / 64) _ _ with
    | none => rfl
    | some bm₁ =>
      rw [bind_some]
      cases chargeFull regionSize _ (s / 64 + 1) (tailBits s n / 64) with
      | none => rfl
      | some bm₂ =>
        rw [bind_some, if_neg hmod, charge_outside, map_none]
        rwa [show (s + n - 1) / 64 = s / 64 + 1 + tailBits s n / 64 by unfold tailBits at *; omega] at hpart

/-! ## Reading -/

theorem isMarked_iff :
    bm.isMarked (8 * s) = true ↔ s ∈ G := by
  have hr : s % 64 < 64 := Nat.mod_lt _ (by decide)
  have hbit := hrep.bits (s / 64) (s % 64) hr
  rw [Nat.div_add_mod] at hbit
  unfold isMarked
  simp only [kMarkedBytesPerBit, kBitsPerWord, Nat.mul_div_cancel_left _ (by decide : 0 < 8), Nat.one_shiftLeft,
    Nat.and_two_pow, ← hbit, ne_eq, decide_eq_true_iff]
  cases (bm.markWords (s / 64)).testBit (s % 64) <;> simp

theorem sumWords_eq (n : Nat) :
    ∀ idx, bm.sumWords idx n = count G (64 * idx) (64 * (idx + n)) := by
  induction n with
  | zero => intro idx; exact count_self.symm
  | succ n ih =>
    intro idx
    have hword : popcount (bm.markWords idx) = count G (64 * idx) (64 * idx + 64) :=
      popcount_eq_count (hrep.bits idx)
    have hjoin : count G (64 * idx) (64 * (idx + 1)) + count G (64 * (idx + 1)) (64 * (idx + 1 + n)) =
        count G (64 * idx) (64 * (idx + 1 + n)) := count_add (by omega) (by omega)
    rw [sumWords, ih, hword, ← Nat.mul_succ, hjoin, Nat.add_right_comm idx 1 n, Nat.add_assoc idx n 1]

theorem sumParts_eq (p : Nat) :
    p ≤ factor → bm.sumParts p = some (count G 0 (partStart regionSize p)) := by
  induction p with
  | zero => intro _; exact congrArg some count_self.symm
  | succ p ih =>
    intro hp
    have hlt : p < factor := hp
    rw [sumParts, if_pos hlt, ih (Nat.le_of_succ_le hp), map_some, hrep.parts p hlt,
      count_add (Nat.zero_le _) (partStart_mono (Nat.le_succ p))]

omit hrep

/-- **The live bytes before an offset** are eight for each marked granule below it. -/
theorem getPreLiveBytes_eq (hs : Sized regionSize)
    (hrep : Represents regionSize bm G) (hpart : partOf regionSize (s / 64) ≤ factor) :
    bm.getPreLiveBytes regionSize (8 * s) = some (count G 0 s * 8) := by
  have hidx : 8 * s / (64 * 8) = s / 64 := by omega
  have hr : s % 64 < 64 := Nat.mod_lt _ (by decide)
  -- the bits of the own word below the offset
  have hword : popcount (bm.markWords (s / 64) &&& (1 <<< (s % 64) - 1)) = count G (64 * (s / 64)) s := by
    have hpop : popcount (bm.markWords (s / 64) &&& (1 <<< (s % 64) - 1)) =
        count (G ∩ Finset.Ico 0 s) (64 * (s / 64)) (64 * (s / 64) + 64) := by
      refine popcount_eq_count fun j hj => ?_
      rw [Nat.testBit_and, Bool.and_eq_true, hrep.bits _ j hj, isMask_low (s % 64) j, decide_eq_true_iff,
        mem_inter, mem_Ico]
      refine and_congr_right fun _ => ?_
      omega
    rw [hpop]
    unfold count
    congr 1
    ext g
    simp only [mem_inter, mem_Ico]
    constructor
    · rintro ⟨⟨hG, -, hlt⟩, hlo, -⟩; exact ⟨hG, hlo, hlt⟩
    · rintro ⟨hG, hlo, hlt⟩; exact ⟨⟨hG, Nat.zero_le _, hlt⟩, hlo, by omega⟩
  have hin := (word_in_part hs (s / 64)).1
  have hstart : partOf regionSize (s / 64) * wordsPerPart regionSize ≤ s / 64 := Nat.div_mul_le_self _ _
  have hpre : partStart regionSize (partOf regionSize (s / 64)) =
      64 * (partOf regionSize (s / 64) * wordsPerPart regionSize) := by
    unfold partStart; rw [Nat.mul_comm (wordsPerPart regionSize)]
  have hdef : s / 64 / wordsPerPart regionSize = partOf regionSize (s / 64) := rfl
  unfold getPreLiveBytes
  simp only [kBitsPerWord, kMarkedBytesPerBit, hidx, Nat.mul_div_cancel_left _ (by decide : 0 < 8), hword,
    sumWords_eq hrep, hdef, sumParts_eq hrep _ hpart]
  show some ((_ + (_ + count G _ _)) * 8) = _
  -- the three counts are over neighbouring intervals
  rw [Nat.add_sub_cancel' hstart, hpre, Nat.add_comm (count G (64 * (s / 64)) s),
    count_add (by omega) (by omega), count_add (Nat.zero_le _) (by omega)]

end CangjieRuntime.RegionBitmap
