import CangjieRuntime.Lib.DHeap
import CangjieRuntime.Timer.TimerHeap

/-!
# `Timer.Correctness.Sift` — what the heap functions do to the array

The loops of `TimerShiftUp` and `TimerShiftDown` are moves of a hole (`DHeap.Rises`, `DHeap.Sinks`) that stop where the
timer fits. From that follow the specifications of `TimerDoAdd` and `TimerRemove`.

`TimerRemove` sifts while the last slot, whose timer has just been copied to `idx`, still belongs to the heap. For the
heap without that slot the copy is no harm: it is never smaller than the timer in hand when that sinks, and when that
has risen the last slot is not below `idx` at all.
-/

namespace CangjieRuntime.Timer

open DHeap Function

variable {T : Type}

/-- The order of the heap. -/
def ddl (node : T → TimerNode) (timer : T) : Nat := (node timer).deadline.toNat

theorem ddl_le_iff {node : T → TimerNode} {t u : T} : ddl node t ≤ ddl node u ↔ (node t).deadline ≤ (node u).deadline :=
  UInt64.le_iff_toNat_le.symm

theorem FORKS_NUM_pos : 0 < FORKS_NUM := Nat.succ_pos 3

theorem le_ULLONG_MAX (a : UInt64) : a ≤ ULLONG_MAX := by
  rw [UInt64.le_iff_toNat_le]
  exact Nat.le_of_lt_succ a.toNat_lt

/-! ## `TimerShiftUp` -/

variable (node : T → TimerNode)

theorem shiftUpLoop_spec (x : T) {fuel bufIndex : Nat} (hfuel : bufIndex ≤ fuel) (buf : Nat → T) :
    Rises (ddl node) FORKS_NUM x buf bufIndex (shiftUpLoop node (node x).deadline fuel buf bufIndex).1
        (shiftUpLoop node (node x).deadline fuel buf bufIndex).2 ∧
      Above (ddl node) FORKS_NUM (shiftUpLoop node (node x).deadline fuel buf bufIndex).2
        (shiftUpLoop node (node x).deadline fuel buf bufIndex).1 x := by
  induction fuel generalizing buf bufIndex with
  | zero =>
    obtain rfl : bufIndex = 0 := Nat.le_zero.mp hfuel
    exact ⟨Rises.refl _ _, fun hpos => absurd hpos (lt_irrefl 0)⟩
  | succ fuel ih =>
    unfold shiftUpLoop
    split_ifs with hpos
    · have hup : parent FORKS_NUM bufIndex < bufIndex := parent_lt hpos
      by_cases hge : (node x).deadline ≥ (node (buf ((bufIndex - 1) / FORKS_NUM))).deadline
      · rw [if_pos hge]
        exact ⟨Rises.refl _ _, fun _ => ddl_le_iff.mpr hge⟩
      · rw [if_neg hge]
        obtain ⟨hrises, habove⟩ := ih (Nat.le_of_lt_succ (hup.trans_le hfuel))
          (update buf bufIndex (buf (parent FORKS_NUM bufIndex)))
        exact ⟨Rises.up hpos (not_le.mp fun hle => hge (ddl_le_iff.mp hle)) hrises, habove⟩
    · exact ⟨Rises.refl _ _, fun hpos' => absurd hpos' hpos⟩

/-- What `TimerShiftUp` does: the timer moves up to where it fits. -/
theorem timerShiftUp_spec (heap : TimerHeap T) (idx : Nat) : ∃ buf' i,
    timerShiftUp heap idx = { heap with buf := update buf' i (heap.buf idx) } ∧
      Rises (ddl heap.node) FORKS_NUM (heap.buf idx) heap.buf idx buf' i ∧
      Above (ddl heap.node) FORKS_NUM i buf' (heap.buf idx) := by
  obtain ⟨hrises, habove⟩ := shiftUpLoop_spec heap.node (heap.buf idx) (le_refl idx) heap.buf
  exact ⟨_, _, rfl, hrises, habove⟩

/-- A timer that fits stays. -/
theorem timerShiftUp_of_above {heap : TimerHeap T} {idx : Nat}
    (habove : Above (ddl heap.node) FORKS_NUM idx heap.buf (heap.buf idx)) : timerShiftUp heap idx = heap := by
  obtain ⟨buf', i, heq, hrises, -⟩ := timerShiftUp_spec heap idx
  cases hrises with
  | refl => rw [heq, update_eq_self]
  | up hpos hlt => exact absurd (habove hpos) (not_le.mpr hlt)

/-! ## `TimerShiftDown` -/

/-- What the inner loop knows after the children from `FORKS_NUM * idxTemp + i` on. -/
theorem minChildLoop_spec (buf : Nat → T) (len idxTemp : Nat) {k i : Nat} (midDdl : UInt64)
    (minIdx : Nat) :
    let r := minChildLoop node buf len idxTemp k i midDdl minIdx
    (r.flag = false → len < FORKS_NUM * idxTemp + i + k) ∧ r.midDdl ≤ midDdl ∧
      (∀ c, FORKS_NUM * idxTemp + i ≤ c → c < FORKS_NUM * idxTemp + i + k → c < len →
        r.midDdl ≤ (node (buf c)).deadline) ∧
      (r.midDdl = midDdl ∧ r.minIdx = minIdx ∨
        FORKS_NUM * idxTemp + i ≤ r.minIdx ∧ r.minIdx < FORKS_NUM * idxTemp + i + k ∧ r.minIdx < len ∧
          r.midDdl = (node (buf r.minIdx)).deadline) := by
  induction k generalizing i midDdl minIdx with
  | zero =>
    refine ⟨fun hfalse => Bool.noConfusion hfalse, UInt64.le_refl _, fun c hge hlt => ?_, Or.inl ⟨rfl, rfl⟩⟩
    exact absurd hge (Nat.not_le.mpr hlt)
  | succ k ih =>
    dsimp only
    unfold minChildLoop
    by_cases hend : FORKS_NUM * idxTemp + i ≥ len
    · rw [if_pos hend]
      refine ⟨fun _ => by omega, UInt64.le_refl _, fun c hge _ hlen => ?_, Or.inl ⟨rfl, rfl⟩⟩
      exact absurd (hend.trans hge) (Nat.not_le.mpr hlen)
    rw [if_neg hend]
    -- the child itself; the others are those of the rest of the loop
    have hstep : FORKS_NUM * idxTemp + (i + 1) + k = FORKS_NUM * idxTemp + i + (k + 1) := by ring
    split_ifs with hless
    · obtain ⟨hflag, hle, hall, hfrom⟩ := ih (i := i + 1) (node (buf (FORKS_NUM * idxTemp + i))).deadline
        (FORKS_NUM * idxTemp + i)
      rw [hstep] at hflag hall hfrom
      refine ⟨hflag, UInt64.le_trans hle (UInt64.le_of_lt hless), fun c hge hlt hlen => ?_, Or.inr ?_⟩
      · rcases Nat.eq_or_lt_of_le hge with rfl | hgt
        · exact hle
        · exact hall c hgt hlt hlen
      · rcases hfrom with ⟨heq, hidx⟩ | ⟨hge, hlt, hlen, heq⟩
        · rw [hidx]
          exact ⟨le_refl _, by omega, Nat.not_le.mp hend, heq⟩
        · exact ⟨(Nat.le_succ _).trans hge, hlt, hlen, heq⟩
    · obtain ⟨hflag, hle, hall, hfrom⟩ := ih (i := i + 1) midDdl minIdx
      rw [hstep] at hflag hall hfrom
      refine ⟨hflag, hle, fun c hge hlt hlen => ?_,
        hfrom.imp_right fun ⟨hge, hrest⟩ => ⟨(Nat.le_succ _).trans hge, hrest⟩⟩
      rcases Nat.eq_or_lt_of_le hge with rfl | hgt
      · exact UInt64.le_trans hle (UInt64.not_lt.mp hless)
      · exact hall c hgt hlt hlen

/-- The smallest child, if any child is smaller than some deadline. -/
theorem minChild_spec (buf : Nat → T) (len idxTemp : Nat) :
    let r := minChild node buf len idxTemp
    (r.flag = false → len ≤ FORKS_NUM * idxTemp + FORKS_NUM) ∧
      (∀ c, 0 < c → c < len → parent FORKS_NUM c = idxTemp → r.midDdl ≤ (node (buf c)).deadline) ∧
      (∀ bound, r.midDdl < bound →
        0 < r.minIdx ∧ r.minIdx < len ∧ parent FORKS_NUM r.minIdx = idxTemp ∧
          r.midDdl = (node (buf r.minIdx)).deadline) := by
  obtain ⟨hflag, -, hall, hfrom⟩ := minChildLoop_spec node buf len idxTemp (k := FORKS_NUM) (i := 1) ULLONG_MAX 0
  refine ⟨fun hfalse => ?_, fun c hc hlen hparent => ?_, fun bound hlt => ?_⟩
  · have hlen := hflag hfalse
    omega
  · obtain ⟨hge, hle⟩ := (parent_eq_iff FORKS_NUM_pos hc).mp hparent
    exact hall c hge (by omega) hlen
  · rcases hfrom with ⟨heq, -⟩ | ⟨hge, hle, hlen, heq⟩
    · -- no child is smaller than the greatest number
      exact absurd (heq ▸ hlt) (UInt64.not_lt.mpr (le_ULLONG_MAX bound))
    · have hpos : 0 < (minChild node buf len idxTemp).minIdx := (Nat.succ_pos _).trans_le hge
      exact ⟨hpos, hlen, (parent_eq_iff FORKS_NUM_pos hpos).mpr ⟨hge, Nat.le_of_lt_succ (by unfold minChild; omega)⟩,
        heq⟩

/-- The loop over the slots below `len`, in the heap of the slots below `n`: the timers between are not smaller than the
    one in hand. -/
theorem shiftDownLoop_spec (x : T) {n len fuel idxTemp : Nat} (hn : n ≤ len) (hlt : idxTemp < n)
    (hfuel : len ≤ idxTemp + fuel) (buf : Nat → T) (hstale : ∀ c, n ≤ c → c < len → ddl node x ≤ ddl node (buf c)) :
    Sinks (ddl node) FORKS_NUM n x buf idxTemp (shiftDownLoop node (node x).deadline len fuel buf idxTemp).1
        (shiftDownLoop node (node x).deadline len fuel buf idxTemp).2 ∧
      Below (ddl node) FORKS_NUM n (shiftDownLoop node (node x).deadline len fuel buf idxTemp).2
        (shiftDownLoop node (node x).deadline len fuel buf idxTemp).1 x := by
  induction fuel generalizing buf idxTemp with
  | zero => exact absurd hfuel (Nat.not_le.mpr (hlt.trans_le hn))
  | succ fuel ih =>
    obtain ⟨hflag, hall, hfrom⟩ := minChild_spec node buf len idxTemp
    unfold shiftDownLoop
    by_cases hstop : (minChild node buf len idxTemp).midDdl ≥ (node x).deadline
    · rw [if_pos hstop]
      refine ⟨Sinks.refl _ _, fun c hc hcn hparent => ddl_le_iff.mpr ?_⟩
      exact UInt64.le_trans hstop (hall c hc (hcn.trans_le hn) hparent)
    rw [if_neg hstop]
    obtain ⟨hpos, hlen, hparent, hmid⟩ := hfrom _ (UInt64.not_le.mp hstop)
    generalize hm : (minChild node buf len idxTemp).minIdx = m at *
    have hless : ddl node (buf m) < ddl node x := by
      rw [← not_le, ddl_le_iff, ← hmid]
      exact hstop
    have hmn : m < n := by
      by_contra hge
      exact absurd (hstale m (Nat.not_lt.mp hge) hlen) (not_le.mpr hless)
    have hmin : Below (ddl node) FORKS_NUM n idxTemp buf (buf m) := by
      intro c hc hcn hchild
      rw [ddl_le_iff, ← hmid]
      exact hall c hc (hcn.trans_le hn) hchild
    have hdown : idxTemp < m := hparent ▸ parent_lt hpos
    split_ifs with hmore
    · have hstale' : ∀ c, n ≤ c → c < len → ddl node x ≤ ddl node (update buf idxTemp (buf m) c) := by
        intro c hge hc
        rw [update_of_ne (hlt.trans_le hge).ne']
        exact hstale c hge hc
      obtain ⟨hsinks, hbelow⟩ := ih hmn (by omega) (update buf idxTemp (buf m)) hstale'
      exact ⟨Sinks.down hpos hmn hparent hmin hless hsinks, hbelow⟩
    · refine ⟨Sinks.down hpos hmn hparent hmin hless (Sinks.refl _ _), fun c hc hcn hchild => ?_⟩
      -- the array ends among the children of the last slot, so this one has none
      have hend := hflag (Bool.eq_false_iff.mpr hmore)
      have hge := ((parent_eq_iff FORKS_NUM_pos hc).mp hchild).1
      have hmul : FORKS_NUM * (idxTemp + 1) ≤ FORKS_NUM * m := Nat.mul_le_mul_left FORKS_NUM hdown
      rw [Nat.mul_succ] at hmul
      dsimp only at hge
      omega

/-- What `TimerShiftDown` does: the timer moves down to where it fits. -/
theorem timerShiftDown_spec (heap : TimerHeap T) {n : Nat} (idx : Nat) (hn : n ≤ heap.numTimers) (hidx : idx < n)
    (hstale : ∀ c, n ≤ c → c < heap.numTimers → ddl heap.node (heap.buf idx) ≤ ddl heap.node (heap.buf c)) : ∃ buf' i,
    timerShiftDown heap idx = { heap with buf := update buf' i (heap.buf idx) } ∧
      Sinks (ddl heap.node) FORKS_NUM n (heap.buf idx) heap.buf idx buf' i ∧
      Below (ddl heap.node) FORKS_NUM n i buf' (heap.buf idx) := by
  obtain ⟨hsinks, hbelow⟩ := shiftDownLoop_spec heap.node (heap.buf idx) hn hidx (Nat.le_add_left _ _) heap.buf hstale
  exact ⟨_, _, rfl, hsinks, hbelow⟩

/-- A timer that fits stays. -/
theorem timerShiftDown_of_below {heap : TimerHeap T} {idx : Nat} (hidx : idx < heap.numTimers)
    (hbelow : Below (ddl heap.node) FORKS_NUM heap.numTimers idx heap.buf (heap.buf idx)) :
    timerShiftDown heap idx = heap := by
  obtain ⟨buf', i, heq, hsinks, -⟩ :=
    timerShiftDown_spec heap idx (le_refl _) hidx fun c hge hlt => absurd hge (Nat.not_le.mpr hlt)
  cases hsinks with
  | refl => rw [heq, update_eq_self]
  | down hm hmn hparent _ hlt => exact absurd (hbelow _ hm hmn hparent) (not_le.mpr hlt)

end CangjieRuntime.Timer
