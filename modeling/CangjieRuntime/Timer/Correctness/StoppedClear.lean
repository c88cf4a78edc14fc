import CangjieRuntime.Timer.TimerStopped
import CangjieRuntime.Timer.Correctness.HeapInvariant

/-!
# `Timer.Correctness.StoppedClear` — what `TimerStoppedClear` leaves in the heap

When the scan has read `i` slots, the slots before `bufIndex` are a heap of those timers among them that stay, by their
new deadlines, and the slots from `i` on are as they were. What is between the two does not matter any more. As long as
no timer has been changed, nothing is between the two, and the array is not written to.
-/

namespace CangjieRuntime.Timer

open DHeap Function List

variable {T : Type} {heap heap₀ : TimerHeap T} {i : Nat} {changed : Bool} {para : TimerStoppedPara}

/-- The statuses of timers in the heap, when no other function is at work. -/
def Settled (heap : TimerHeap T) : Prop :=
  ∀ t ∈ heap.timers,
    (heap.node t).status ∈ [TimerStatus.waiting, .stopped, .modifiedAhead, .modifiedDelayed]

/-- What becomes of a node in the heap. -/
def cleared (n : TimerNode) : TimerNode :=
  match n.status with
  | .modifiedAhead | .modifiedDelayed => { n with status := .waiting, deadline := n.newDeadline }
  | .stopped => { n with status := if n.autoReleasing then .removing else .removed }
  | _ => n

def TimerHeap.isStopped (heap : TimerHeap T) (t : T) : Bool := (heap.node t).status = .stopped

def TimerHeap.isAhead (heap : TimerHeap T) (t : T) : Bool := (heap.node t).status = .modifiedAhead

theorem place_spec (timer : T) {n : Nat} (hord : Ordered (ddl heap.node) FORKS_NUM n heap.buf) : ∃ buf',
    place heap timer n = { heap with buf := buf' } ∧ Ordered (ddl heap.node) FORKS_NUM (n + 1) buf' ∧
      (items (n + 1) buf').Perm (timer :: items n heap.buf) ∧ ∀ j, n < j → buf' j = heap.buf j := by
  obtain ⟨buf', i, heq, hrises, hord', hitems⟩ := shiftUp_appended timer hord
  refine ⟨_, heq, hord', hitems, ?_⟩
  intro j hj
  rw [update_of_ne (hrises.le.trans_lt hj).ne', hrises.after hj, update_of_ne hj.ne']

variable [DecidableEq T]

theorem placeModified_spec {timer : T} {n : Nat} (hord : Ordered (ddl heap.node) FORKS_NUM n heap.buf)
    (hmem : timer ∉ items n heap.buf)
    (hmod : (heap.node timer).status = .modifiedAhead ∨ (heap.node timer).status = .modifiedDelayed) : ∃ buf',
    placeModified heap timer n =
        { heap with buf := buf', node := update heap.node timer (cleared (heap.node timer)) } ∧
      Ordered (ddl (update heap.node timer (cleared (heap.node timer)))) FORKS_NUM (n + 1) buf' ∧
      (items (n + 1) buf').Perm (timer :: items n heap.buf) ∧ ∀ j, n < j → buf' j = heap.buf j := by
  have hcleared : cleared (heap.node timer) =
      { heap.node timer with status := .waiting, deadline := (heap.node timer).newDeadline } := by
    unfold cleared
    rcases hmod with hmod | hmod <;> rw [hmod]
  let moving : TimerHeap T :=
    { heap with
      node := update heap.node timer
        { heap.node timer with status := .moving, deadline := (heap.node timer).newDeadline } }
  have hmoving : setDeadline (setStatus heap timer .moving) timer (heap.node timer).newDeadline = moving := by
    simp [setDeadline, setStatus, moving]
  -- the timer is not among the ones that are in place
  have hord' : Ordered (ddl moving.node) FORKS_NUM n moving.buf := by
    refine hord.congr fun j hj => ?_
    have hne : heap.buf j ≠ timer := fun heq => hmem (mem_items.mpr ⟨j, hj, heq⟩)
    simp only [ddl, moving, update_of_ne hne]
  obtain ⟨buf', heq, hordered, hitems, hafter⟩ := place_spec timer hord'
  refine ⟨buf', ?_, hordered.congr fun j _ => ?_, hitems, hafter⟩
  · simp only [placeModified, setStatus, update_self] at hmoving ⊢
    rw [hmoving, heq, hcleared]
    simp [moving]
  · by_cases hj : buf' j = timer
    · simp [ddl, moving, hj, hcleared]
    · simp [ddl, moving, hj]

theorem discard_eq {timer : T} (hstopped : (heap.node timer).status = .stopped) : discard heap timer =
    { heap with
      node := update heap.node timer (cleared (heap.node timer))
      released := if (heap.node timer).autoReleasing then timer :: heap.released else heap.released } := by
  cases hauto : (heap.node timer).autoReleasing <;> simp [discard, setStatus, cleared, hstopped, hauto]

/-! ## The scan -/

/-- After `i` slots of `heap₀`. -/
structure Scanned (heap₀ heap : TimerHeap T) (i : Nat) (changed : Bool) (para : TimerStoppedPara) : Prop where
  rest : ∀ j, i ≤ j → heap.buf j = heap₀.buf j
  node : ∀ t, heap.node t = if t ∈ items i heap₀.buf then cleared (heap₀.node t) else heap₀.node t
  ordered : Ordered (ddl heap.node) FORKS_NUM para.bufIndex heap.buf
  kept : (items para.bufIndex heap.buf).Perm ((items i heap₀.buf).filter (!heap₀.isStopped ·))
  delcnt : para.delcnt = (items i heap₀.buf).countP heap₀.isStopped
  aheadcnt : para.aheadcnt = (items i heap₀.buf).countP heap₀.isAhead
  released : heap.released =
    ((items i heap₀.buf).filter fun t => heap₀.isStopped t && (heap₀.node t).autoReleasing).reverse ++ heap₀.released
  frame : heap.numTimers = heap₀.numTimers ∧ heap.capacity = heap₀.capacity ∧
    heap.adjustTimers = heap₀.adjustTimers ∧ heap.stoppedTimers = heap₀.stoppedTimers
  same : changed = false → heap = heap₀ ∧ para.bufIndex = i

namespace Scanned

variable (h : Scanned heap₀ heap i changed para)
include h

theorem bufIndex_le : para.bufIndex ≤ i := by
  have hlength := h.kept.length_eq
  have hle := length_filter_le (!heap₀.isStopped ·) (items i heap₀.buf)
  simp only [items, length_map, length_range] at hlength hle
  exact hlength.trans_le hle

/-- The next node has been written to. -/
theorem node_succ (t : T) :
    update heap.node (heap₀.buf i) (cleared (heap₀.node (heap₀.buf i))) t =
      if t ∈ items (i + 1) heap₀.buf then cleared (heap₀.node t) else heap₀.node t := by
  rw [items_succ]
  by_cases ht : t = heap₀.buf i
  · simp [ht]
  · simp [ht, h.node]

/-- The next timer stays. -/
theorem keep (hstatus : (heap₀.node (heap₀.buf i)).status ≠ .stopped)
    {heap' : TimerHeap T} {changed' : Bool} {aheadcnt : Nat} (buf' : Nat → T)
    (hheap' : heap' = { heap with
      buf := buf', node := update heap.node (heap₀.buf i) (cleared (heap₀.node (heap₀.buf i))) })
    (hahead : aheadcnt = para.aheadcnt + if heap₀.isAhead (heap₀.buf i) then 1 else 0)
    (hord : Ordered (ddl heap'.node) FORKS_NUM (para.bufIndex + 1) buf')
    (hitems : (items (para.bufIndex + 1) buf').Perm (heap₀.buf i :: items para.bufIndex heap.buf))
    (hafter : ∀ j, para.bufIndex < j → buf' j = heap.buf j) (hsame : changed' = false →
      heap' = heap₀ ∧ para.bufIndex = i) :
    Scanned heap₀ heap' (i + 1) changed' ⟨aheadcnt, para.delcnt, para.bufIndex + 1⟩ := by
  have hstays : heap₀.isStopped (heap₀.buf i) = false := by simp [TimerHeap.isStopped, hstatus]
  subst hheap'
  refine ⟨?_, h.node_succ, hord, ?_, ?_, ?_, ?_, h.frame, ?_⟩
  · intro j hj
    exact (hafter j (h.bufIndex_le.trans_lt hj)).trans (h.rest j (Nat.le_of_succ_le hj))
  · refine hitems.trans ((h.kept.cons _).trans ?_)
    rw [items_succ, filter_append]
    simpa [hstays] using (perm_append_singleton (heap₀.buf i) _).symm
  · simp [items_succ, h.delcnt, hstays]
  · simp [items_succ, hahead, h.aheadcnt, countP_singleton]
  · simp [items_succ, h.released, hstays]
  · intro hchanged
    obtain ⟨hheap, hindex⟩ := hsame hchanged
    exact ⟨hheap, congrArg (· + 1) hindex⟩

theorem keepModified
    (hnode : heap.node (heap₀.buf i) = heap₀.node (heap₀.buf i)) (hmem : heap₀.buf i ∉ items para.bufIndex heap.buf)
    (hmod : (heap₀.node (heap₀.buf i)).status = .modifiedAhead ∨ (heap₀.node (heap₀.buf i)).status = .modifiedDelayed)
    {aheadcnt : Nat} (hahead : aheadcnt = para.aheadcnt + if heap₀.isAhead (heap₀.buf i) then 1 else 0) :
    Scanned heap₀ (placeModified heap (heap₀.buf i) para.bufIndex) (i + 1) true
      ⟨aheadcnt, para.delcnt, para.bufIndex + 1⟩ := by
  obtain ⟨buf', heq, hord, hitems, hafter⟩ := placeModified_spec h.ordered hmem (by rwa [hnode])
  rw [hnode] at heq hord
  refine h.keep ?_ buf' heq hahead (by rw [heq]; exact hord) hitems hafter nofun
  rcases hmod with hs | hs <;> simp [hs]

/-- The next timer is dropped. -/
theorem drop (hstatus : (heap₀.node (heap₀.buf i)).status = .stopped)
    (hmem : ∀ j < para.bufIndex, heap.buf j ≠ heap₀.buf i) :
    Scanned heap₀
      { heap with
        node := update heap.node (heap₀.buf i) (cleared (heap₀.node (heap₀.buf i)))
        released := if (heap₀.node (heap₀.buf i)).autoReleasing then heap₀.buf i :: heap.released else heap.released }
      (i + 1) true { para with delcnt := para.delcnt + 1 } := by
  have hdrops : heap₀.isStopped (heap₀.buf i) = true := by simp [TimerHeap.isStopped, hstatus]
  refine ⟨fun j hj => h.rest j (Nat.le_of_succ_le hj), h.node_succ, ?_, ?_, ?_, ?_, ?_, h.frame, nofun⟩
  · refine h.ordered.congr fun j hj => ?_
    simp only [ddl, update_of_ne (hmem j hj)]
  · simpa [items_succ, hdrops] using h.kept
  · simp [items_succ, h.delcnt, hdrops]
  · simp [items_succ, h.aheadcnt, TimerHeap.isAhead, hstatus]
  · cases hauto : (heap₀.node (heap₀.buf i)).autoReleasing <;> simp [items_succ, h.released, hdrops, hauto]

/-- One round. -/
theorem round (hv : Valid heap₀) (hsettled : Settled heap₀)
    (hi : i < heap₀.numTimers) : ∃ heap' changed' para',
    (∀ k, stoppedLoop (k + 1) heap i changed para = stoppedLoop k heap' (i + 1) changed' para') ∧
      Scanned heap₀ heap' (i + 1) changed' para' := by
  have htimer : heap.buf i = heap₀.buf i := h.rest i le_rfl
  have hnot : heap₀.buf i ∉ items i heap₀.buf := by
    intro hmem
    obtain ⟨j, hj, heq⟩ := mem_items.mp hmem
    exact hj.ne (items_inj hv.nodup (hj.trans hi) hi heq)
  have hnode : heap.node (heap₀.buf i) = heap₀.node (heap₀.buf i) := by rw [h.node, if_neg hnot]
  have hmem : heap₀.buf i ∉ items para.bufIndex heap.buf := fun hmem => hnot (mem_of_mem_filter (h.kept.subset hmem))
  have hloop (k : Nat) := stoppedLoop.eq_2 heap i changed para k
  unfold timerStoppedStateAdjust at hloop
  rw [htimer, hnode] at hloop
  have hstatus := hsettled _ (mem_items.mpr ⟨i, hi, rfl⟩)
  simp only [mem_cons, not_mem_nil, or_false] at hstatus
  rcases hstatus with hs | hs | hs | hs <;> simp only [hs] at hloop
  · refine ⟨_, _, _, hloop, ?_⟩
    have hsame : update heap.node (heap₀.buf i) (cleared (heap₀.node (heap₀.buf i))) = heap.node := by
      rw [cleared, hs, ← hnode, update_eq_self]
    cases changed with
    | false =>
      -- nothing has been written yet, and the next slot fits where it is
      obtain ⟨rfl, hindex⟩ := h.same rfl
      refine h.keep (by simp [hs]) heap.buf (by simp [hsame]) (by simp [TimerHeap.isAhead, hs]) ?_ ?_
        (fun _ _ => rfl) fun _ => ⟨rfl, hindex⟩
      · rw [hindex]
        exact fun j hj hji => hv.ordered j hj (hji.trans_le hi)
      · rw [hindex, items_succ]
        exact perm_append_singleton ..
    | true =>
      obtain ⟨buf', heq, hord, hitems, hafter⟩ := place_spec (heap₀.buf i) h.ordered
      exact h.keep (by simp [hs]) buf' (by simp [heq, hsame]) (by simp [TimerHeap.isAhead, hs])
        (by simpa [heq] using hord)
        hitems hafter nofun
  · rw [discard_eq (hnode ▸ hs), hnode] at hloop
    exact ⟨_, _, _, hloop, h.drop hs fun j hj heq => hmem (mem_items.mpr ⟨j, hj, heq⟩)⟩
  · exact ⟨_, _, _, hloop, h.keepModified hnode hmem (Or.inl hs) (by simp [TimerHeap.isAhead, hs])⟩
  · exact ⟨_, _, _, hloop, h.keepModified hnode hmem (Or.inr hs) (by simp [TimerHeap.isAhead, hs])⟩

omit h

theorem loop (hv : Valid heap₀) (hsettled : Settled heap₀) {k : Nat} (h : Scanned heap₀ heap i changed para)
    (hk : i + k = heap₀.numTimers) : ∃ heap' changed' para',
    stoppedLoop k heap i changed para = some (heap', some para') ∧
      Scanned heap₀ heap' heap₀.numTimers changed' para' := by
  induction k generalizing heap i changed para with
  | zero =>
    obtain rfl : i = heap₀.numTimers := hk
    exact ⟨heap, changed, para, rfl, h⟩
  | succ k ih =>
    have hi : i < heap₀.numTimers := by omega
    obtain ⟨heap', changed', para', hloop, h'⟩ := h.round hv hsettled hi
    rw [hloop]
    exact ih h' (by omega)

end Scanned

/-- `heap'` is `heap` without its stopped timers. -/
structure Compacted (heap heap' : TimerHeap T) : Prop where
  valid : Valid heap'
  timers : heap'.timers.Perm (heap.timers.filter (!heap.isStopped ·))
  waiting : ∀ t ∈ heap'.timers, (heap'.node t).status = .waiting
  node : ∀ t, heap'.node t = if t ∈ heap.timers then cleared (heap.node t) else heap.node t
  released : heap'.released =
    (heap.timers.filter fun t => heap.isStopped t && (heap.node t).autoReleasing).reverse ++ heap.released
  stoppedTimers : heap'.stoppedTimers = heap.stoppedTimers - (heap.timers.countP heap.isStopped).toUInt64
  adjustTimers : heap'.adjustTimers = heap.adjustTimers - (heap.timers.countP heap.isAhead).toUInt64

/-- **Stopped timers are cleared out**: the others stay, in a heap by their new deadlines. -/
theorem stoppedClear_compacts (hv : Valid heap) (hsettled : Settled heap) :
    ∃ heap', timerStoppedClear heap = some heap' ∧ Compacted heap heap' := by
  have hinit : Scanned heap heap 0 false ⟨0, 0, 0⟩ :=
    ⟨fun _ _ => rfl, fun t => by simp [items], fun _ _ => nofun, by simp [items], rfl, rfl, by simp [items],
      ⟨rfl, rfl, rfl, rfl⟩, fun _ => ⟨rfl, rfl⟩⟩
  obtain ⟨heap', changed, para, hloop, h⟩ := Scanned.loop hv hsettled hinit (Nat.zero_add _)
  obtain ⟨hnum, hcap, hadjust, hstopped⟩ := h.frame
  have hcount : heap'.numTimers - para.delcnt = para.bufIndex := by
    have hlength := h.kept.length_eq
    have hsum := length_eq_length_filter_add heap.isStopped (l := items heap.numTimers heap.buf)
    rw [← countP_eq_length_filter, ← h.delcnt] at hsum
    simp only [items, length_map, length_range] at hlength hsum
    omega
  refine ⟨_, by rw [timerStoppedClear, hloop]; rfl, ?_⟩
  unfold timerUpdateTimer0Ddl
  dsimp only
  rw [hcount]
  refine ⟨⟨h.ordered, ?_, rfl, ?_, ?_⟩, h.kept, ?_, h.node, h.released, ?_, ?_⟩
  · exact h.kept.nodup_iff.mpr (hv.nodup.filter _)
  · exact (h.bufIndex_le.trans hv.room).trans hcap.ge
  · exact hcap ▸ hv.capacity_pos
  · intro t ht
    obtain ⟨hmem, hstays⟩ := mem_filter.mp (h.kept.subset ht)
    have hstatus := hsettled t hmem
    simp only [mem_cons, not_mem_nil, or_false] at hstatus
    dsimp only
    rw [h.node, if_pos hmem, cleared]
    rcases hstatus with hs | hs | hs | hs <;> simp_all [TimerHeap.isStopped]
  · dsimp only
    rw [hstopped, h.delcnt]
    rfl
  · dsimp only
    rw [hadjust, h.aheadcnt]
    rfl

/-- Ten timers in order. Timer `5` was stopped, and timer `9`, in the last slot, was moved ahead; its place is below
    timer `2`. -/
def tenTimers (last : UInt64) : TimerHeap Nat where
  node t := {
    deadline := [0, 100, 10, 30, 40, 110, 120, 130, 140, last].getD t 0
    newDeadline := 5
    status := if t = 5 then .stopped else if t = 9 then .modifiedAhead else .waiting
    autoReleasing := false }
  released := []
  buf := id
  numTimers := 10
  adjustTimers := 1
  stoppedTimers := 1
  timer0Deadline := 0
  capacity := TIMER_HEAP_SIZE

theorem valid_tenTimers {last : UInt64}
    (hord : ∀ i < 10, 0 < i → ddl (tenTimers last).node ((i - 1) / 4) ≤ ddl (tenTimers last).node i) :
    Valid (tenTimers last) where
  ordered i hi hlt := hord i hlt hi
  nodup := by
    unfold TimerHeap.timers items tenTimers
    rw [map_id]
    exact nodup_range
  top := rfl
  room := Nat.le_of_ble_eq_true rfl
  capacity_pos := Nat.succ_pos 255

/-- Timer `5` is dropped, and timer `9` comes up to where its new deadline belongs. -/
theorem stoppedClear_compacts_tenTimers :
    ∃ heap', timerStoppedClear (tenTimers 20) = some heap' ∧ Compacted (tenTimers 20) heap' :=
  stoppedClear_compacts (valid_tenTimers (by decide +kernel)) (by unfold Settled; decide +kernel)

end CangjieRuntime.Timer
