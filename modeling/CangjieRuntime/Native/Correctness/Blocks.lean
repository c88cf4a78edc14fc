import CangjieRuntime.Native.CentralCache
import CangjieRuntime.Native.Correctness.SizeClasses
import CangjieRuntime.Native.Correctness.SpanRuns

/-!
# `Native.Correctness.Blocks` — are blocks inside their span?

`GetOneSpan` links a block as long as it *starts* inside the span. So the last block ends inside exactly if the block
size divides the size of the span; the number of pages does not see to that.
-/

namespace CangjieRuntime.Native

open Word Option

/-! ## Cutting a span -/

section Carve

variable {alignBytes stop fuel start p : Nat}

theorem add_mul_succ (start alignBytes i : Nat) :
    start + alignBytes * (i + 1) = start + alignBytes + alignBytes * i := by
  ring

/-- The blocks from `start` on that begin before the end. -/
theorem mem_carveLoop (hpos : 0 < alignBytes) (hfuel : stop ≤ start + fuel) :
    p ∈ carveLoop alignBytes stop fuel start ↔ ∃ i, p = start + alignBytes * i ∧ p < stop := by
  induction fuel generalizing start with
  | zero =>
    refine ⟨fun h => (nomatch h), ?_⟩
    rintro ⟨i, rfl, hlt⟩
    omega
  | succ fuel ih =>
    unfold carveLoop
    split_ifs with hstart
    · rw [List.mem_cons, ih (by omega)]
      constructor
      · rintro (rfl | ⟨i, rfl, hlt⟩)
        · exact ⟨0, rfl, hstart⟩
        · exact ⟨i + 1, (add_mul_succ _ _ i).symm, hlt⟩
      · rintro ⟨i, rfl, hlt⟩
        rcases i with _ | i
        · exact Or.inl rfl
        · exact Or.inr ⟨i, add_mul_succ _ _ i, hlt⟩
    · refine ⟨fun h => (nomatch h), ?_⟩
      rintro ⟨i, rfl, hlt⟩
      omega

theorem le_of_mem_carveLoop (hp : p ∈ carveLoop alignBytes stop fuel start) : start ≤ p := by
  induction fuel generalizing start with
  | zero => exact nomatch hp
  | succ fuel ih =>
    unfold carveLoop at hp
    split at hp
    · rcases List.mem_cons.mp hp with rfl | hrest
      · exact Nat.le_refl _
      · exact (Nat.le_add_right _ _).trans (ih hrest)
    · exact nomatch hp

/-- Each block ends where the next begins, or before. -/
theorem carveLoop_pairwise : (carveLoop alignBytes stop fuel start).Pairwise fun p q => p + alignBytes ≤ q := by
  induction fuel generalizing start with
  | zero => exact List.Pairwise.nil
  | succ fuel ih =>
    unfold carveLoop
    split
    · exact List.pairwise_cons.mpr ⟨fun q hq => le_of_mem_carveLoop hq, ih⟩
    · exact List.Pairwise.nil

end Carve

/-- The first byte of a span, and its size in bytes. -/
def Span.start (x : Span) : Nat := x.pageId * 4096

def Span.bytes (x : Span) : Nat := x.pageNum * 4096

section Blocks

variable {x : Span} {alignBytes p : Nat}

theorem carve_eq (x : Span) (alignBytes : Nat) :
    carve x alignBytes = x.start :: carveLoop alignBytes (x.start + x.bytes) x.bytes (x.start + alignBytes) := by
  unfold carve PAGE_SHIFT
  simp only [Nat.shiftLeft_eq]
  rfl

theorem mem_carve (hpos : 0 < alignBytes) (hx : 0 < x.pageNum) :
    p ∈ carve x alignBytes ↔ ∃ i, p = x.start + alignBytes * i ∧ alignBytes * i < x.bytes := by
  have hbytes : 0 < x.bytes := Nat.mul_pos hx (Nat.succ_pos 4095)
  rw [carve_eq, List.mem_cons, mem_carveLoop hpos (by omega)]
  generalize x.start = start
  generalize x.bytes = bytes at hbytes ⊢
  constructor
  · rintro (rfl | ⟨i, rfl, hlt⟩)
    · exact ⟨0, rfl, hbytes⟩
    · rw [← add_mul_succ] at hlt
      exact ⟨i + 1, (add_mul_succ start alignBytes i).symm, Nat.lt_of_add_lt_add_left hlt⟩
  · rintro ⟨i, rfl, hlt⟩
    rcases i with _ | i
    · exact Or.inl rfl
    · exact Or.inr ⟨i, add_mul_succ start alignBytes i, Nat.add_lt_add_left hlt _⟩

/-- The blocks of a span are disjoint. -/
theorem carve_pairwise (x : Span) (alignBytes : Nat) :
    (carve x alignBytes).Pairwise fun p q => p + alignBytes ≤ q := by
  rw [carve_eq]
  exact List.pairwise_cons.mpr ⟨fun q hq => le_of_mem_carveLoop hq, carveLoop_pairwise⟩

/-- Every block lies inside the span. -/
def BlocksInside (x : Span) (alignBytes : Nat) : Prop :=
  ∀ p ∈ carve x alignBytes, x.start ≤ p ∧ p + alignBytes ≤ x.start + x.bytes

/-- They do exactly if their size divides that of the span. -/
theorem blocksInside_iff (hpos : 0 < alignBytes) (hx : 0 < x.pageNum) :
    BlocksInside x alignBytes ↔ alignBytes ∣ x.bytes := by
  have hbytes : 0 < x.bytes := Nat.mul_pos hx (Nat.succ_pos 4095)
  constructor
  · intro hinside
    -- the last block
    have hlast : alignBytes * ((x.bytes - 1) / alignBytes) < x.bytes :=
      (Nat.mul_div_le _ _).trans_lt (Nat.sub_lt hbytes Nat.one_pos)
    have hend := (hinside _ ((mem_carve hpos hx).mpr ⟨_, rfl, hlast⟩)).2
    have hnext : x.bytes - 1 < alignBytes * ((x.bytes - 1) / alignBytes + 1) := Nat.lt_mul_div_succ _ hpos
    refine ⟨(x.bytes - 1) / alignBytes + 1, ?_⟩
    rw [Nat.mul_succ] at hnext ⊢
    omega
  · rintro ⟨q, hq⟩ p hp
    obtain ⟨i, rfl, hlt⟩ := (mem_carve hpos hx).mp hp
    rw [hq] at hlt ⊢
    have hle : alignBytes * (i + 1) ≤ alignBytes * q := Nat.mul_le_mul_left _ (Nat.lt_of_mul_lt_mul_left hlt)
    rw [Nat.mul_succ] at hle
    omega

end Blocks

/-! ## The number of pages -/

section PageNum

variable {bytes : Nat}

theorem min_align_le_roundUp (hpos : 1 ≤ bytes) (hmax : bytes ≤ MAX_BYTES) : MIN_ALIGN_NUM ≤ roundUp bytes := by
  unfold MIN_ALIGN_NUM
  by_cases hsmall : bytes ≤ ALING_1024_BYTE
  · rw [roundUp_eq hpos hsmall]
    split_ifs <;> omega
  · have hlarge : 65536 < bytes := Nat.not_le.mp hsmall
    exact le_trans (by omega) (le_roundUp hpos hmax)

theorem roundUp_lt (hpos : 1 ≤ bytes) (hmax : bytes ≤ MAX_BYTES) : roundUp bytes < 2 ^ 20 := by
  by_cases hsmall : bytes ≤ ALING_1024_BYTE
  · exact (roundUp_small hpos hsmall).1.trans_lt (by decide)
  · have hlt : bytes ≤ 262144 := hmax
    rw [roundUp_last (Nat.not_le.mp hsmall) hmax]
    refine (roundUpTo_lt (by decide) ?_).trans ?_ <;> unfold ALIGN_8192 <;> omega

/-- At least one page, and no number overflows on the way. -/
theorem calculatePageNum_spec {alignBytes : Nat} (hpos : 0 < alignBytes) (hlt : alignBytes < 2 ^ 20) :
    ∃ npage, calculatePageNum alignBytes = some npage ∧ 1 ≤ npage ∧
      ∃ num, limitSize alignBytes = some num ∧
        npage = if num * alignBytes / 4096 = 0 then 1 else num * alignBytes / 4096 := by
  obtain ⟨num, hnum, hle⟩ : ∃ num, limitSize alignBytes = some num ∧ num ≤ 512 := by
    refine ⟨_, if_neg hpos.ne', ?_⟩
    split_ifs <;> omega
  have hmul : num * alignBytes < 2 ^ 64 :=
    (Nat.mul_le_mul hle hlt.le).trans_lt (by decide)
  have hpage : mul64 num alignBytes >>> PAGE_SHIFT = num * alignBytes / 4096 := by
    rw [mul64_eq hmul, Nat.shiftRight_eq_div_pow]
    rfl
  refine ⟨_, congrArg (Option.map _) hnum, ?_, num, hnum, ?_⟩
  · dsimp only
    split_ifs with hzero
    · exact Nat.le_refl 1
    · exact Nat.one_le_iff_ne_zero.mpr hzero
  · dsimp only
    rw [hpage]

/-- Up to 512 bytes, 512 blocks fill whole pages. -/
theorem pages_fit_small (hpos : 1 ≤ bytes) (hle : bytes ≤ 512) {npage : Nat}
    (hpage : calculatePageNum (roundUp bytes) = some npage) :
    npage ≤ MAX_NPAGES - 1 ∧ roundUp bytes ∣ npage * 4096 := by
  obtain ⟨k, hk, hkpos, hkle⟩ : ∃ k, roundUp bytes = 8 * k ∧ 0 < k ∧ k ≤ 64 := by
    refine ⟨roundUp bytes / 8, ?_⟩
    rw [roundUp_eq hpos (hle.trans (by decide))]
    split_ifs <;> omega
  have hmax : roundUp bytes ≤ 512 := by omega
  obtain ⟨npage', hpage', -, num, hnum, heq⟩ :=
    calculatePageNum_spec (show 0 < roundUp bytes by omega) (by omega)
  obtain rfl : npage' = npage := some.inj (hpage'.symm.trans hpage)
  have hlimit : num = 512 := by
    have hdiv : 512 ≤ MAX_BYTES / roundUp bytes := by
      rw [Nat.le_div_iff_mul_le (by omega)]
      exact (Nat.mul_le_mul_left 512 hmax).trans (by decide)
    unfold limitSize at hnum
    rw [if_neg (by omega)] at hnum
    obtain rfl := some.inj hnum
    split_ifs <;> omega
  have hwhole : num * roundUp bytes / 4096 = k := by
    rw [hlimit, hk, ← Nat.mul_assoc]
    exact Nat.mul_div_cancel_left k (by decide)
  rw [hwhole, if_neg hkpos.ne'] at heq
  refine ⟨heq ▸ hkle.trans (by decide), 512, ?_⟩
  rw [heq, hk]
  ring

/-- The mask of the last band: the lowest five bits, and bit 13. -/
theorem and_align (x : Nat) : x &&& (ALIGN_8192 - 1) = 2 ^ 13 * (x / 2 ^ 13 % 2) + x % 2 ^ 5 := by
  have hmask : ALIGN_8192 - 1 = 2 ^ 13 ||| (2 ^ 5 - 1) := by decide
  have hlt : x % 2 ^ 5 < 2 ^ 13 := (Nat.mod_lt x (by decide)).trans (by decide)
  rw [hmask, Nat.and_or_distrib_left, Nat.and_two_pow, Nat.and_two_pow_sub_one_eq_mod, Nat.toNat_testBit, Nat.mul_comm,
    Nat.two_pow_add_eq_or_of_lt hlt]

/-- Two blocks of more than 32 pages and half of one are too many pages. -/
theorem roundUp_lt_iff (hpos : 1 ≤ bytes) (hmax : bytes ≤ MAX_BYTES) :
    roundUp bytes < 264192 ↔ ¬ (255969 ≤ bytes ∧ bytes ≤ 262112) := by
  by_cases hsmall : bytes ≤ ALING_1024_BYTE
  · have hle : bytes ≤ 65536 := hsmall
    exact iff_of_true ((roundUp_small hpos hsmall).1.trans_lt (by decide)) (by omega)
  · have hle : bytes ≤ 262144 := hmax
    have hlarge : 65536 < bytes := Nat.not_le.mp hsmall
    have halign : ALIGN_8192 = 8224 := rfl
    rw [roundUp_last (Nat.not_le.mp hsmall) hmax, roundUpTo_eq (by decide) (by omega), and_align, halign]
    omega

/-- The only sizes for which too many pages are asked for. -/
theorem pageNum_le_iff (hpos : 1 ≤ bytes) (hmax : bytes ≤ MAX_BYTES) {npage : Nat}
    (hpage : calculatePageNum (roundUp bytes) = some npage) :
    npage ≤ MAX_NPAGES - 1 ↔ ¬ (255969 ≤ bytes ∧ bytes ≤ 262112) := by
  have hround : 0 < roundUp bytes := Nat.lt_of_lt_of_le hpos (le_roundUp hpos hmax)
  obtain ⟨npage', hpage', -, num, hnum, heq⟩ := calculatePageNum_spec hround (roundUp_lt hpos hmax)
  obtain rfl : npage' = npage := some.inj (hpage'.symm.trans hpage)
  rw [← roundUp_lt_iff hpos hmax, heq, show MAX_NPAGES - 1 = 128 from rfl]
  generalize roundUp bytes = size at *
  -- two blocks, or as many as `MAX_BYTES` has room for
  have hlimit : num = 2 ∨ num * size ≤ 262144 ∧ size * 2 ≤ 262144 := by
    unfold limitSize at hnum
    rw [if_neg hround.ne'] at hnum
    obtain rfl := some.inj hnum
    by_cases htwo : MAX_BYTES / size < 2
    · rw [if_pos htwo]
      exact Or.inl rfl
    · rw [if_neg htwo]
      have hfit : MAX_BYTES / size * size ≤ 262144 := Nat.div_mul_le_self ..
      refine Or.inr ⟨(Nat.mul_le_mul_right size ?_).trans hfit, ?_⟩
      · split_ifs <;> omega
      · rw [Nat.mul_comm]
        exact (Nat.le_div_iff_mul_le hround).mp (Nat.not_lt.mp htwo)
  rcases hlimit with rfl | ⟨hfit, hsize⟩
  · split_ifs <;> omega
  · generalize num * size = total at hfit ⊢
    split_ifs <;> omega

end PageNum

/-! ## `GetOneSpan` -/

section GetOneSpan

variable {S : Type} [DecidableEq S] {objs : List S} {page : Option Nat} {a : S} {cc : CentralCache S}
  {alignBytes npage : Nat}
  {pc : PageCache S} {x : Span}

open PageOp

/-- A span that has free blocks is returned as it is; otherwise a new one is cut. -/
theorem getOneSpan_spec {cc cc' : CentralCache S} {index alignBytes npage : Nat}
    (howned : Owned cc.pageCache none) (hpage : calculatePageNum alignBytes = some npage)
    (hcall : Callable cc.pageCache (.newSpan npage objs page))
    (hget : getOneSpan cc index alignBytes objs page = some (a, cc')) :
    (cc' = cc ∧ a ∈ cc.centralCacheSpans index ∧ cc.freeBlocks a ≠ []) ∨
      (act cc.pageCache (.newSpan npage objs page) = some cc'.pageCache ∧
        ∃ x, cc'.pageCache.span a = some x ∧ (x.isUse = true ∧ x.pageNum = npage) ∧
          cc'.freeBlocks a = carve x alignBytes) := by
  unfold getOneSpan at hget
  split at hget
  · split at hget
    · rename_i it hfind
      obtain ⟨rfl, rfl⟩ := Prod.mk.inj (some.inj hget)
      refine Or.inl ⟨rfl, List.mem_of_find?_eq_some hfind, ?_⟩
      have hfree := List.find?_some hfind
      intro hnil
      rw [hnil] at hfree
      exact nomatch hfree
    · right
      rw [hpage, bind_eq_bind, bind_some] at hget
      obtain ⟨r, hnew, hrest⟩ := bind_eq_some_iff.mp hget
      have hspec := newSpan_of_callable howned hcall
      rw [hnew] at hspec
      obtain ⟨pc', hmark, -, x, hx, hxs⟩ := hspec.mark
      rw [hmark, bind_eq_bind, bind_some, hx, bind_eq_bind, bind_some] at hrest
      obtain ⟨rfl, rfl⟩ := Prod.mk.inj (some.inj hrest)
      exact ⟨bind_eq_some_iff.mpr ⟨r, hnew, hmark⟩, x, hx, hxs, Function.update_self ..⟩
  · exact nomatch hget

/-- Two objects and new pages are enough for it to return. -/
theorem getOneSpan_isSome
    (howned : Owned cc.pageCache none) (halign : MIN_ALIGN_NUM ≤ alignBytes)
    (hpage : calculatePageNum alignBytes = some npage) (hcall : Callable cc.pageCache (.newSpan npage objs page))
    (hobjs : 2 ≤ objs.length) (hsome : page.isSome) (index : Nat) :
    (getOneSpan cc index alignBytes objs page).isSome := by
  unfold getOneSpan
  rw [if_pos halign]
  split
  · rfl
  · have hspec := newSpan_of_callable howned hcall
    rw [hpage, bind_eq_bind, bind_some]
    cases hnew : Native.newSpan cc.pageCache npage objs page with
    | none =>
      rw [hnew] at hspec
      rcases hspec with hshort | hnone
      · exact absurd hobjs (Nat.not_le.mpr hshort)
      · exact absurd hsome (hnone ▸ Bool.false_ne_true)
    | some r =>
      rw [hnew] at hspec
      obtain ⟨pc', hmark, -, x, hx, -⟩ := hspec.mark
      rw [bind_eq_bind, bind_some, hmark, bind_eq_bind, bind_some, hx]
      rfl

omit [DecidableEq S] in
/-- A byte of a block that lies inside its span is on one of the span's pages. -/
theorem owns_of_mem_carve {alignBytes p byte : Nat} (hx : pc.span a = some x)
    (hinside : BlocksInside x alignBytes) (hp : p ∈ carve x alignBytes) (hge : p ≤ byte) (hlt : byte < p + alignBytes) :
    Owns pc a (byte / 4096) := by
  obtain ⟨hstart, hend⟩ := hinside p hp
  unfold Span.start Span.bytes at *
  refine ⟨x, hx, ?_⟩
  unfold Span.Has
  omega

omit [DecidableEq S] in
/-- Blocks of different spans have no byte in common. -/
theorem Owned.blocks_apart (h : Owned pc none) {a b : S} {x y : Span} {size size' p q : Nat} (hab : a ≠ b)
    (hx : pc.span a = some x) (hy : pc.span b = some y) (hinx : BlocksInside x size) (hiny : BlocksInside y size')
    (hsize : 0 < size) (hsize' : 0 < size') (hp : p ∈ carve x size) (hq : q ∈ carve y size') :
    p + size ≤ q ∨ q + size' ≤ p := by
  by_contra hover
  have hfirst : Owns pc a (max p q / 4096) := owns_of_mem_carve hx hinx hp (le_max_left _ _) (by omega)
  have hsecond : Owns pc b (max p q / 4096) := owns_of_mem_carve hy hiny hq (le_max_right _ _) (by omega)
  exact hab (h.disjoint hfirst hsecond)

end GetOneSpan

section Requests

variable {S : Type} [DecidableEq S]

open PageOp

/-- **Blocks and their spans.** For every request size there is a number of pages, at least one, and the blocks that
    `GetOneSpan` cuts from a span are disjoint. But that the number is one that `NewSpan` accepts, and that every block
    ends inside the span, holds exactly if the request is not from 255969 to 262112 bytes and the blocks fill the pages;
    this is so up to 512 bytes. Whatever runs of the page cache came before, `GetOneSpan` then returns a span with free
    blocks, or links the blocks of a new one, and blocks inside different spans do not overlap. -/
theorem blocks_inside_iff {bytes : Nat} (hpos : 1 ≤ bytes) (hmax : bytes ≤ MAX_BYTES) :
    ∃ npage, calculatePageNum (roundUp bytes) = some npage ∧ 1 ≤ npage ∧
      (∀ x : Span, (carve x (roundUp bytes)).Pairwise fun p q => p + roundUp bytes ≤ q) ∧
      ((npage ≤ MAX_NPAGES - 1 ∧ ∀ x : Span, x.pageNum = npage → BlocksInside x (roundUp bytes)) ↔
        ¬ (255969 ≤ bytes ∧ bytes ≤ 262112) ∧ roundUp bytes ∣ npage * 4096) ∧
      (bytes ≤ 512 → npage ≤ MAX_NPAGES - 1 ∧ roundUp bytes ∣ npage * 4096) ∧
      ∀ cc : CentralCache S, Interleave.Run act Callable PageCache.empty cc.pageCache →
        (∀ index objs page, Callable cc.pageCache (.newSpan npage objs page) →
          (2 ≤ objs.length → page.isSome → (getOneSpan cc index (roundUp bytes) objs page).isSome) ∧
          ∀ a cc', getOneSpan cc index (roundUp bytes) objs page = some (a, cc') →
            (cc' = cc ∧ cc.freeBlocks a ≠ []) ∨
              (Interleave.Run act Callable PageCache.empty cc'.pageCache ∧
                ∃ x, cc'.pageCache.span a = some x ∧ x.pageNum = npage ∧ cc'.freeBlocks a = carve x (roundUp bytes))) ∧
        ∀ a b x y bytes', a ≠ b → cc.pageCache.span a = some x → cc.pageCache.span b = some y →
          1 ≤ bytes' → bytes' ≤ MAX_BYTES → BlocksInside x (roundUp bytes) → BlocksInside y (roundUp bytes') →
          ∀ p ∈ carve x (roundUp bytes), ∀ q ∈ carve y (roundUp bytes'),
            p + roundUp bytes ≤ q ∨ q + roundUp bytes' ≤ p := by
  have hround : ∀ {size}, 1 ≤ size → size ≤ MAX_BYTES → 0 < roundUp size := fun hone hle =>
    Nat.lt_of_lt_of_le hone (le_roundUp hone hle)
  obtain ⟨npage, hpage, hone, -⟩ := calculatePageNum_spec (hround hpos hmax) (roundUp_lt hpos hmax)
  refine ⟨npage, hpage, hone, fun x => carve_pairwise x _,
    and_congr (pageNum_le_iff hpos hmax hpage) ⟨fun hinside => ?_, fun hdvd x hx => ?_⟩,
    fun hle => pages_fit_small hpos hle hpage, fun cc hrun => ⟨?_, ?_⟩⟩
  · have hiff := blocksInside_iff (x := ⟨npage, 0, true⟩) (hround hpos hmax) hone
    exact hiff.mp (hinside ⟨npage, 0, true⟩ rfl)
  · subst hx
    exact (blocksInside_iff (hround hpos hmax) hone).mpr hdvd
  · intro index objs page hcall
    refine ⟨fun hobjs hsome => getOneSpan_isSome (run_owned hrun) (min_align_le_roundUp hpos hmax) hpage hcall hobjs
      hsome index, fun a cc' hget => ?_⟩
    rcases getOneSpan_spec (run_owned hrun) hpage hcall hget with ⟨heq, -, hfree⟩ | ⟨hact, x, hx, ⟨-, hnum⟩, hblocks⟩
    · exact Or.inl ⟨heq, hfree⟩
    · exact Or.inr ⟨hrun.tail ⟨_, hcall, hact⟩, x, hx, hnum, hblocks⟩
  · intro a b x y bytes' hab hx hy hpos' hmax' hinx hiny p hp q hq
    exact (run_owned hrun).blocks_apart hab hx hy hinx hiny (hround hpos hmax) (hround hpos' hmax') hp hq

end Requests

/-- 64 pages are cut into 64 blocks of a page. -/
theorem blocks_inside_iff_page :
    (calculatePageNum (roundUp 4096) = some 64 ∧ roundUp 4096 ∣ 64 * 4096) ∧
      ∀ x : Span, x.pageNum = 64 → BlocksInside x (roundUp 4096) := by
  have hpage : calculatePageNum (roundUp 4096) = some 64 := by decide +kernel
  have hfit : roundUp 4096 ∣ 64 * 4096 := by decide +kernel
  obtain ⟨npage, hnpage, -, -, hiff, -⟩ := blocks_inside_iff (S := Nat) (show 1 ≤ 4096 by decide) (by decide)
  obtain rfl : npage = 64 := Option.some.inj (hnpage.symm.trans hpage)
  exact ⟨⟨hpage, hfit⟩, (hiff.mpr ⟨by decide, hfit⟩).2⟩

/-- The last block that is linked. -/
theorem last_block (x : Span) (alignBytes i : Nat) (hpos : 0 < alignBytes) (hx : 0 < x.pageNum)
    (hlt : alignBytes * i < x.bytes) : x.start + alignBytes * i ∈ carve x alignBytes :=
  (mem_carve hpos hx).mpr ⟨i, rfl, hlt⟩

/-- Blocks of 528 bytes are cut from 63 pages: the last one ends 144 bytes behind the span. And for 255969 bytes
    `NewSpan` is asked for 129 pages, which it refuses. -/
theorem blocks_stick_out :
    (roundUp 528 = 528 ∧ calculatePageNum 528 = some 63 ∧
      ∃ p ∈ carve ⟨63, 1000, true⟩ 528, p + 528 = (1000 + 63) * 4096 + 144) ∧
    roundUp 255969 = 264192 ∧ calculatePageNum 264192 = some 129 ∧
      (getOneSpan (S := Nat) ⟨PageCache.empty, fun _ => [], fun _ => []⟩ 207 264192 [0, 1] (some 1000)).isNone := by
  refine ⟨⟨by decide +kernel, by decide +kernel, _, last_block ⟨63, 1000, true⟩ 528 488 ?_ ?_ ?_, ?_⟩, ?_⟩ <;>
    decide +kernel

end CangjieRuntime.Native
