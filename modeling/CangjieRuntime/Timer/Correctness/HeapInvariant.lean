import CangjieRuntime.Lib.Interleave
import CangjieRuntime.Timer.Correctness.Sift

/-!
# `Timer.Correctness.HeapInvariant` — the heap of timers over all runs

`TimerDoAdd` and `TimerRemove` in any order, from an empty heap: parents come before their children, the array holds the
timers that were added and not removed, each once, and `timer0Deadline` is the deadline of the root.

Callers that give a timer a new deadline write it into the node before they call `TimerRemove`, so at that moment the
heap is *not* ordered at this timer; the specification of `TimerRemove` asks for order off the slot only.
-/

namespace CangjieRuntime.Timer

open DHeap Function

variable {T : Type}

/-- The timers in the heap, by slots. -/
def TimerHeap.timers (heap : TimerHeap T) : List T := items heap.numTimers heap.buf

/-- The deadline of the root. -/
def TimerHeap.topDeadline (heap : TimerHeap T) : UInt64 :=
  if heap.numTimers = 0 then 0 else (heap.node (heap.buf 0)).deadline

/-- What neither function touches. -/
structure Frame (heap heap' : TimerHeap T) : Prop where
  node : heap'.node = heap.node
  released : heap'.released = heap.released
  adjustTimers : heap'.adjustTimers = heap.adjustTimers
  stoppedTimers : heap'.stoppedTimers = heap.stoppedTimers

/-! ## `TimerDoAdd` -/

section Add

variable {heap : TimerHeap T}

/-- A timer is written behind the first `n` slots and moves up. -/
theorem shiftUp_appended (timer : T) {n : Nat} (hord : Ordered (ddl heap.node) FORKS_NUM n heap.buf) : ∃ buf' i,
    timerShiftUp { heap with buf := update heap.buf n timer } n = { heap with buf := update buf' i timer } ∧
      Rises (ddl heap.node) FORKS_NUM timer (update heap.buf n timer) n buf' i ∧
      Ordered (ddl heap.node) FORKS_NUM (n + 1) (update buf' i timer) ∧
      (items (n + 1) (update buf' i timer)).Perm (timer :: items n heap.buf) := by
  obtain ⟨buf', i, heq, hrises, habove⟩ := timerShiftUp_spec { heap with buf := update heap.buf n timer } n
  dsimp only at heq hrises habove
  rw [update_self] at heq hrises habove
  -- the new slot is the hole that rises
  have hhole : Hole (ddl heap.node) FORKS_NUM (n + 1) n (update heap.buf n timer) :=
    hord.extend.congr (Nat.lt_succ_self _) fun j _ hne => by rw [update_of_ne hne]
  obtain ⟨hhole', hbelow'⟩ := hrises.hole (Nat.lt_succ_self _) hhole below_last
  refine ⟨buf', i, heq, hrises, hhole'.fill hbelow' habove, ?_⟩
  have hitems := hrises.items (Nat.lt_succ_self n)
  have hrest : items n (update heap.buf n timer) = items n heap.buf := items_congr fun j hj => update_of_ne hj.ne ..
  rw [update_idem, items_succ n (update heap.buf _ _), update_self, hrest] at hitems
  exact hitems.trans (List.perm_append_singleton timer _)

theorem insertTimer_spec [DecidableEq T] (timer : T) (hord : Ordered (ddl heap.node) FORKS_NUM heap.numTimers heap.buf)
    (htop : heap.timer0Deadline = heap.topDeadline) : ∃ buf',
    insertTimer heap timer =
        { heap with
          buf := buf', timer0Deadline := (heap.node (buf' 0)).deadline, numTimers := heap.numTimers + 1 } ∧
      Ordered (ddl heap.node) FORKS_NUM (heap.numTimers + 1) buf' ∧
      (items (heap.numTimers + 1) buf').Perm (timer :: heap.timers) := by
  obtain ⟨buf', i, heq, hrises, hord', hitems⟩ := shiftUp_appended timer hord
  have htop' : (if timer = update buf' i timer 0 then (heap.node timer).deadline else heap.timer0Deadline) =
      (heap.node (update buf' i timer 0)).deadline := by
    by_cases hroot : timer = update buf' i timer 0
    · rw [if_pos hroot, ← hroot]
    -- the root was not exchanged
    rw [if_neg hroot]
    have hi : 0 ≠ i := by
      rintro rfl
      rw [update_self] at hroot
      exact hroot rfl
    rw [update_of_ne hi] at hroot ⊢
    obtain ⟨j, hj, hold⟩ := hrises.origin 0
    obtain rfl : j = 0 := Nat.le_zero.mp hj
    have hn : 0 ≠ heap.numTimers := fun hzero => hi (Nat.le_zero.mp (hzero ▸ hrises.le)).symm
    rw [hold, update_of_ne hn, htop, TimerHeap.topDeadline, if_neg hn.symm]
  refine ⟨update buf' i timer, ?_, hord', hitems⟩
  unfold insertTimer
  rw [heq]
  dsimp only
  rw [htop']

end Add

/-! ## `TimerRemove` -/

section Remove

variable {heap : TimerHeap T} {idx last : Nat}

/-- The last timer is smaller than the parent of the slot it is moved to. -/
def Rising (heap : TimerHeap T) (idx last : Nat) : Prop :=
  0 < idx ∧ ddl heap.node (heap.buf last) < ddl heap.node (heap.buf (parent FORKS_NUM idx))

/-- What the move of the last timer to `idx` makes of the array. -/
structure Replaced (heap : TimerHeap T) (idx last : Nat) (buf' : Nat → T) : Prop where
  ordered : Ordered (ddl heap.node) FORKS_NUM last buf'
  items : (heap.buf idx :: items last buf').Perm (items (last + 1) heap.buf)
  root : 0 < idx → buf' 0 = heap.buf 0
  before : ∀ j < idx, (∃ j' ≤ j, buf' j = heap.buf j') ∨ buf' j = heap.buf last ∧ Rising heap idx last

variable (hnum : heap.numTimers = last + 1) (hidx : idx < last)
  (hhole : Hole (ddl heap.node) FORKS_NUM (last + 1) idx heap.buf)

include hhole hidx in
theorem hole_replaced : Hole (ddl heap.node) FORKS_NUM last idx (update heap.buf idx (heap.buf last)) :=
  hhole.shrink.congr hidx fun j _ hne => by rw [update_of_ne hne]

include hnum hhole hidx in
/-- The last timer moves up; then the slot holds its former parent, which stays. -/
theorem replaceByLast_of_rising (hrising : Rising heap idx last) :
    ∃ buf', replaceByLast heap idx last = { heap with buf := buf' } ∧ Replaced heap idx last buf' := by
  obtain ⟨hpos, hlt⟩ := hrising
  have hup : parent FORKS_NUM idx < idx := parent_lt hpos
  obtain ⟨buf', i, heq, hrises, habove⟩ :=
    timerShiftUp_spec { heap with buf := update heap.buf idx (heap.buf last) } idx
  dsimp only at heq hrises habove
  rw [update_self] at heq hrises habove
  have hbelow : Below (ddl heap.node) FORKS_NUM last idx (update heap.buf idx (heap.buf last)) (heap.buf last) := by
    intro c hc hcn hparent
    have hne : c ≠ idx := (hparent ▸ parent_lt hc).ne'
    rw [update_of_ne hne]
    exact hlt.le.trans (hhole.across hpos c hc (hcn.trans (Nat.lt_succ_self _)) hparent)
  obtain ⟨hhole', hbelow'⟩ := hrises.hole hidx (hole_replaced hidx hhole) hbelow
  have hord := hhole'.fill hbelow' habove
  have hstay : Below (ddl heap.node) FORKS_NUM heap.numTimers idx (update buf' i (heap.buf last))
      (update buf' i (heap.buf last) idx) := by
    intro c hc hcn hparent
    rw [hnum] at hcn
    rcases Nat.eq_or_lt_of_le (Nat.le_of_lt_succ hcn) with rfl | hcn'
    · -- the copy in the last slot: were it a child of `idx`, the last timer would not be smaller than the parent
      exact absurd (hhole.across hpos c hc hcn hparent) (not_le.mpr hlt)
    · exact hord.below idx c hc hcn' hparent
  refine ⟨update buf' i (heap.buf last), ?_, hord, ?_, ?_, ?_⟩
  · unfold replaceByLast
    dsimp only
    rw [if_pos hpos.ne', heq]
    exact timerShiftDown_of_below (hnum ▸ hidx.trans (Nat.lt_succ_self _)) hstay
  · have hitems := hrises.items hidx
    rw [update_idem] at hitems
    exact (hitems.cons _).trans (items_replace hidx heap.buf)
  · intro _
    have hroot : ddl heap.node (heap.buf 0) ≤ ddl heap.node (heap.buf last) :=
      hhole.root_le hpos (Nat.lt_succ_self last) hidx.ne'
    rw [← update_of_ne hpos.ne (heap.buf last) heap.buf] at hroot
    obtain ⟨hi, hsame⟩ := hrises.root hpos hroot
    rw [update_of_ne hi.ne, hsame, update_of_ne hpos.ne]
  · intro j hj
    by_cases hji : j = i
    · rw [hji, update_self]
      exact Or.inr ⟨rfl, hpos, hlt⟩
    · obtain ⟨j', hj', hold⟩ := hrises.origin j
      rw [update_of_ne (hj'.trans_lt hj).ne] at hold
      rw [update_of_ne hji]
      exact Or.inl ⟨j', hj', hold⟩

include hnum hhole hidx in
/-- The last timer does not move up, and sinks. -/
theorem replaceByLast_of_not_rising (hrising : ¬Rising heap idx last) :
    ∃ buf', replaceByLast heap idx last = { heap with buf := buf' } ∧ Replaced heap idx last buf' := by
  have habove : Above (ddl heap.node) FORKS_NUM idx (update heap.buf idx (heap.buf last)) (heap.buf last) := by
    intro hpos
    rw [update_of_ne (parent_lt hpos).ne]
    exact not_lt.mp fun hlt => hrising ⟨hpos, hlt⟩
  have hup : timerShiftUp { heap with buf := update heap.buf idx (heap.buf last) } idx =
      { heap with buf := update heap.buf idx (heap.buf last) } := by
    apply timerShiftUp_of_above
    dsimp only
    rw [update_self]
    exact habove
  -- the copy in the last slot is as large as the timer in hand
  obtain ⟨buf', i, heq, hsinks, hbelow⟩ :=
    timerShiftDown_spec { heap with buf := update heap.buf idx (heap.buf last) } (n := last) idx
      (hnum ▸ Nat.le_succ last) hidx fun c hge hlt => by
        obtain rfl : c = last := Nat.le_antisymm (Nat.le_of_lt_succ (hlt.trans_eq hnum)) hge
        dsimp only
        rw [update_self, update_of_ne hidx.ne']
  dsimp only at heq hsinks hbelow
  rw [update_self] at heq hsinks hbelow
  obtain ⟨hhole', habove'⟩ := hsinks.hole (hole_replaced hidx hhole) habove
  have hbefore : ∀ j < idx, update buf' i (heap.buf last) j = heap.buf j := by
    intro j hj
    rw [update_of_ne (hj.trans_le hsinks.le).ne, hsinks.before hj, update_of_ne hj.ne]
  refine ⟨update buf' i (heap.buf last), ?_, hhole'.fill hbelow habove', ?_, fun hpos => hbefore 0 hpos,
    fun j hj => Or.inl ⟨j, le_refl j, hbefore j hj⟩⟩
  · unfold replaceByLast
    dsimp only
    rw [hup, ite_self]
    exact heq
  · have hitems := hsinks.items hidx
    rw [update_idem] at hitems
    exact (hitems.cons _).trans (items_replace hidx heap.buf)

/-- The last timer itself is taken out. -/
theorem replaced_last (hhole : Hole (ddl heap.node) FORKS_NUM (last + 1) last heap.buf) :
    Replaced heap last last heap.buf where
  ordered := hhole.init
  items := by
    rw [items_succ]
    exact (List.perm_append_singleton _ _).symm
  root _ := rfl
  before j _ := Or.inl ⟨j, le_refl j, rfl⟩

/-- What `TimerRemove` makes of the heap. -/
structure Removed (heap : TimerHeap T) (idx : Nat) (heap' : TimerHeap T) : Prop where
  frame : Frame heap heap'
  numTimers : heap'.numTimers + 1 = heap.numTimers
  capacity : heap'.capacity = heap.capacity
  ordered : Ordered (ddl heap'.node) FORKS_NUM heap'.numTimers heap'.buf
  items : (heap.buf idx :: heap'.timers).Perm heap.timers
  top : heap'.timer0Deadline = heap'.topDeadline
  before : ∀ j < idx, j < heap'.numTimers →
    (∃ j' ≤ j, heap'.buf j = heap.buf j') ∨
      heap'.buf j = heap.buf (heap.numTimers - 1) ∧ Rising heap idx (heap.numTimers - 1)

theorem timerRemove_spec (heap : TimerHeap T) (hidx : idx < heap.numTimers)
    (hhole : Hole (ddl heap.node) FORKS_NUM heap.numTimers idx heap.buf)
    (htop : 0 < idx → heap.timer0Deadline = heap.topDeadline) : Removed heap idx (timerRemove heap idx) := by
  obtain ⟨last, hnum⟩ : ∃ last, heap.numTimers = last + 1 := Nat.exists_eq_succ_of_ne_zero (Nat.ne_zero_of_lt hidx)
  have hpred : heap.numTimers - 1 = last := by rw [hnum, Nat.add_sub_cancel]
  rw [hnum] at hidx hhole
  obtain ⟨buf', heq, hrep⟩ : ∃ buf',
      (if idx ≠ last then replaceByLast heap idx last else heap) = { heap with buf := buf' } ∧
        Replaced heap idx last buf' := by
    rcases Nat.eq_or_lt_of_le (Nat.le_of_lt_succ hidx) with rfl | hlt
    · exact ⟨heap.buf, if_neg (not_not.mpr rfl), replaced_last hhole⟩
    · rw [if_pos hlt.ne]
      by_cases hrising : Rising heap idx last
      · exact replaceByLast_of_rising hnum hlt hhole hrising
      · exact replaceByLast_of_not_rising hnum hlt hhole hrising
  have hremove : timerRemove heap idx =
      if idx = 0 then timerUpdateTimer0Ddl { heap with buf := buf', numTimers := last }
      else { heap with buf := buf', numTimers := last } := by
    unfold timerRemove
    dsimp only
    rw [hpred, heq]
    dsimp only
    rw [hpred]
  by_cases hzero : idx = 0
  · rw [hremove, if_pos hzero]
    refine ⟨⟨rfl, rfl, rfl, rfl⟩, hnum.symm, rfl, hrep.ordered, ?_, rfl,
      fun j hj => absurd hj (hzero ▸ Nat.not_lt_zero j)⟩
    unfold TimerHeap.timers
    rw [hnum]
    exact hrep.items
  · have hpos := Nat.pos_of_ne_zero hzero
    rw [hremove, if_neg hzero]
    refine ⟨⟨rfl, rfl, rfl, rfl⟩, hnum.symm, rfl, hrep.ordered, ?_, ?_, fun j hj _ => hpred ▸ hrep.before j hj⟩
    · unfold TimerHeap.timers
      rw [hnum]
      exact hrep.items
    · have hlast : last ≠ 0 := (hpos.trans_le (Nat.le_of_lt_succ hidx)).ne'
      unfold TimerHeap.topDeadline
      dsimp only
      rw [if_neg hlast, hrep.root hpos, htop hpos, TimerHeap.topDeadline, if_neg (hnum ▸ Nat.succ_ne_zero last)]

end Remove

/-! ## Valid heaps -/

/-- What the functions keep. -/
structure Valid (heap : TimerHeap T) : Prop where
  ordered : Ordered (ddl heap.node) FORKS_NUM heap.numTimers heap.buf
  nodup : heap.timers.Nodup
  top : heap.timer0Deadline = heap.topDeadline
  room : heap.numTimers ≤ heap.capacity
  capacity_pos : 0 < heap.capacity

section Valid

variable {heap : TimerHeap T} {idx : Nat}

variable (hv : Valid heap)
include hv

/-- Only the deadlines of the timers in the heap matter. -/
theorem Valid.withNode {node : T → TimerNode}
    (hsame : ∀ t ∈ heap.timers, (node t).deadline = (heap.node t).deadline) : Valid { heap with node := node } := by
  have hslot : ∀ i < heap.numTimers, (node (heap.buf i)).deadline = (heap.node (heap.buf i)).deadline :=
    fun i hi => hsame _ (mem_items.mpr ⟨i, hi, rfl⟩)
  refine ⟨?_, hv.nodup, ?_, hv.room, hv.capacity_pos⟩
  · exact hv.ordered.congr fun i hi => congrArg UInt64.toNat (hslot i hi)
  · rw [hv.top]
    unfold TimerHeap.topDeadline
    dsimp only
    by_cases hzero : heap.numTimers = 0
    · rw [if_pos hzero, if_pos hzero]
    · rw [if_neg hzero, if_neg hzero, hslot 0 (Nat.pos_of_ne_zero hzero)]

/-- `TimerRemove`, when the node of the timer itself has been written to. -/
theorem Valid.remove (hidx : idx < heap.numTimers) {node : T → TimerNode}
    (hsame : ∀ t, t ≠ heap.buf idx → (node t).deadline = (heap.node t).deadline) :
    Valid (timerRemove { heap with node := node } idx) ∧
      Removed { heap with node := node } idx (timerRemove { heap with node := node } idx) := by
  have hother : ∀ i, i < heap.numTimers → i ≠ idx →
      (node (heap.buf i)).deadline = (heap.node (heap.buf i)).deadline :=
    fun i hi hne => hsame _ fun heq => hne (items_inj hv.nodup hi hidx heq)
  have hhole : Hole (ddl node) FORKS_NUM heap.numTimers idx heap.buf := by
    refine (hv.ordered.hole idx hidx).congr hidx fun i hi hne => ?_
    unfold ddl
    rw [hother i hi hne]
  have htop : 0 < idx → heap.timer0Deadline = ({ heap with node := node } : TimerHeap T).topDeadline := by
    intro hpos
    have hzero : heap.numTimers ≠ 0 := Nat.ne_zero_of_lt hidx
    rw [hv.top]
    unfold TimerHeap.topDeadline
    rw [if_neg hzero, if_neg hzero]
    exact (hother 0 (hpos.trans hidx) hpos.ne).symm
  have hrem := timerRemove_spec { heap with node := node } hidx hhole htop
  refine ⟨⟨hrem.ordered, ?_, hrem.top, ?_, hv.capacity_pos.trans_eq hrem.capacity.symm⟩, hrem⟩
  · exact (List.nodup_cons.mp (hrem.items.nodup_iff.mpr hv.nodup)).2
  · rw [hrem.capacity]
    exact (Nat.le_of_succ_le hrem.numTimers.le).trans hv.room

omit hv in
theorem timers_expand (heap : TimerHeap T) (newBuf : Nat → T) : (expand heap newBuf).timers = heap.timers :=
  items_congr fun _ hi => if_pos hi

/-- A larger array. -/
theorem Valid.expand (hfull : heap.numTimers = heap.capacity) (newBuf : Nat → T) :
    Valid (expand heap newBuf) ∧ heap.numTimers < (Timer.expand heap newBuf).capacity := by
  have hslot : ∀ i < heap.numTimers, (Timer.expand heap newBuf).buf i = heap.buf i := fun i hi => if_pos hi
  have hpos : 0 < heap.numTimers := hfull ▸ hv.capacity_pos
  have hroom : heap.numTimers < (Timer.expand heap newBuf).capacity := lt_mul_of_one_lt_right hpos Nat.one_lt_two
  refine ⟨⟨?_, ?_, ?_, hroom.le, hpos.trans hroom⟩, hroom⟩
  · intro i hi hin
    rw [hslot i hin, hslot _ ((parent_lt hi).trans hin)]
    exact hv.ordered i hi hin
  · rw [timers_expand]
    exact hv.nodup
  · refine hv.top.trans ?_
    unfold TimerHeap.topDeadline
    rw [hslot 0 hpos]
    rfl

/-- What `TimerDoAdd` makes of the heap. -/
structure Added (heap : TimerHeap T) (timer : T) (heap' : TimerHeap T) : Prop where
  frame : Frame heap heap'
  numTimers : heap'.numTimers = heap.numTimers + 1
  capacity : heap.numTimers < heap.capacity → heap'.capacity = heap.capacity
  items : heap'.timers.Perm (timer :: heap.timers)

/-- `TimerDoAdd` of a timer that is not in the heap. -/
theorem Valid.insert [DecidableEq T] {timer : T} (hmem : timer ∉ heap.timers)
    (hroom : heap.numTimers < heap.capacity) :
    Valid (insertTimer heap timer) ∧ Added heap timer (insertTimer heap timer) := by
  obtain ⟨buf', heq, hord, hitems⟩ := insertTimer_spec timer hv.ordered hv.top
  rw [heq]
  refine ⟨⟨hord, ?_, ?_, hroom, hv.capacity_pos⟩, ⟨rfl, rfl, rfl, rfl⟩, rfl, fun _ => rfl, hitems⟩
  · exact hitems.nodup_iff.mpr (List.nodup_cons.mpr ⟨hmem, hv.nodup⟩)
  · unfold TimerHeap.topDeadline
    rw [if_neg (Nat.succ_ne_zero _)]

theorem Valid.add [DecidableEq T] {timer : T} (hmem : timer ∉ heap.timers)
    (newBuf : Option (Nat → T)) (halloc : heap.numTimers = heap.capacity → newBuf.isSome) :
    Valid (timerDoAdd heap timer newBuf) ∧ Added heap timer (timerDoAdd heap timer newBuf) := by
  unfold timerDoAdd
  split_ifs with hfull
  · obtain ⟨newBuf, rfl⟩ := Option.isSome_iff_exists.mp (halloc hfull)
    obtain ⟨hv', hroom⟩ := hv.expand hfull newBuf
    rw [← timers_expand heap newBuf] at hmem
    obtain ⟨hv'', hadd⟩ := hv'.insert hmem hroom
    refine ⟨hv'', ⟨hadd.frame.node, hadd.frame.released, hadd.frame.adjustTimers, hadd.frame.stoppedTimers⟩,
      hadd.numTimers, fun hlt => absurd hfull hlt.ne, ?_⟩
    rw [← timers_expand heap newBuf]
    exact hadd.items
  · exact hv.insert hmem (Nat.lt_of_le_of_ne hv.room hfull)

end Valid

/-! ## Runs -/

/-- A heap, and the timers that were added and not removed. -/
structure State (T : Type) where
  heap : TimerHeap T
  live : List T

/-- A timer gets its deadline before it is added, and possibly another one before it is removed. `newBuf` is the larger
    array, if there has to be one. -/
inductive Op (T : Type) where
  | add (timer : T) (deadline : UInt64) (newBuf : Nat → T)
  | remove (idx : Nat) (newDeadline : Option UInt64)

def initial (node : T → TimerNode) (buf : Nat → T) : State T := { heap := timerHeapInit node buf, live := [] }

/-- The heap is in order, and holds the live timers. -/
structure Inv (s : State T) : Prop where
  valid : Valid s.heap
  live : s.heap.timers.Perm s.live

theorem inv_initial (node : T → TimerNode) (buf : Nat → T) : Inv (initial node buf) where
  valid := {
    ordered := fun i _ hlt => absurd hlt (Nat.not_lt_zero i)
    nodup := List.nodup_nil
    top := rfl
    room := Nat.zero_le _
    capacity_pos := Nat.succ_pos 255 }
  live := List.Perm.refl []

section Runs

variable [DecidableEq T]

/-- The deadline that is written before the call. -/
def overwrite (heap : TimerHeap T) (timer : T) : Option UInt64 → TimerHeap T
  | none => heap
  | some deadline => setDeadline heap timer deadline

def act (s : State T) : Op T → Option (State T)
  | .add timer deadline newBuf =>
    some { heap := timerDoAdd (setDeadline s.heap timer deadline) timer (some newBuf), live := timer :: s.live }
  | .remove idx newDeadline =>
    some {
      heap := timerRemove (overwrite s.heap (s.heap.buf idx) newDeadline) idx
      live := s.live.erase (s.heap.buf idx) }

/-- A timer is added that is not in the heap; a slot of the heap is removed. -/
def Callable (s : State T) : Op T → Prop
  | .add timer _ _ => timer ∉ s.live
  | .remove idx _ => idx < s.heap.numTimers

instance (s : State T) (op : Op T) : Decidable (Callable s op) :=
  match op with
  | .add timer _ _ => inferInstanceAs (Decidable (timer ∉ s.live))
  | .remove idx _ => inferInstanceAs (Decidable (idx < s.heap.numTimers))

theorem setDeadline_deadline_of_ne (heap : TimerHeap T) {timer t : T} (deadline : UInt64) (hne : t ≠ timer) :
    ((setDeadline heap timer deadline).node t).deadline = (heap.node t).deadline := by
  unfold setDeadline
  dsimp only
  rw [update_of_ne hne]

theorem Inv.add {s : State T} (hinv : Inv s) {timer : T} (hmem : timer ∉ s.live) (deadline : UInt64)
    (newBuf : Nat → T) :
    Inv ⟨timerDoAdd (setDeadline s.heap timer deadline) timer (some newBuf), timer :: s.live⟩ := by
  have hmem' : timer ∉ s.heap.timers := fun h => hmem (hinv.live.mem_iff.mp h)
  have hset : Valid (setDeadline s.heap timer deadline) :=
    hinv.valid.withNode fun t ht => setDeadline_deadline_of_ne _ _ fun heq => hmem' (heq ▸ ht)
  obtain ⟨hvalid, hadd⟩ := hset.add hmem' (some newBuf) fun _ => rfl
  exact ⟨hvalid, hadd.items.trans (hinv.live.cons timer)⟩

theorem Inv.remove {s : State T} (hinv : Inv s) {idx : Nat} (hidx : idx < s.heap.numTimers)
    (newDeadline : Option UInt64) :
    Inv ⟨timerRemove (overwrite s.heap (s.heap.buf idx) newDeadline) idx, s.live.erase (s.heap.buf idx)⟩ := by
  have hremove : Valid (timerRemove (overwrite s.heap (s.heap.buf idx) newDeadline) idx) ∧
      Removed (overwrite s.heap (s.heap.buf idx) newDeadline) idx
        (timerRemove (overwrite s.heap (s.heap.buf idx) newDeadline) idx) := by
    cases newDeadline with
    | none => exact hinv.valid.remove hidx fun _ _ => rfl
    | some deadline => exact hinv.valid.remove hidx fun t hne => setDeadline_deadline_of_ne s.heap deadline hne
  have hitems : (s.heap.buf idx :: (timerRemove (overwrite s.heap (s.heap.buf idx) newDeadline) idx).timers).Perm
      s.heap.timers := by
    cases newDeadline with
    | none | some deadline => exact hremove.2.items
  refine ⟨hremove.1, ?_⟩
  have herase := (hitems.trans hinv.live).erase (s.heap.buf idx)
  rw [List.erase_cons_head] at herase
  exact herase

theorem act_keeps_inv {s s' : State T} {op : Op T} (hinv : Inv s) (hcall : Callable s op) (hact : act s op = some s') :
    Inv s' := by
  cases op with
  | add timer deadline newBuf =>
    obtain rfl := Option.some.inj hact
    exact hinv.add hcall deadline newBuf
  | remove idx newDeadline =>
    obtain rfl := Option.some.inj hact
    exact hinv.remove hcall newDeadline

/-- **The heap of timers.** After any calls of `TimerDoAdd` and `TimerRemove`, parents come before their children, the
    array holds exactly the timers added and not removed, each once, and `timer0Deadline` is the deadline of the
    root. -/
theorem timer_heap_ordered {node : T → TimerNode} {buf : Nat → T} {s : State T}
    (hrun : Interleave.Run act Callable (initial node buf) s) :
    (∀ i, 0 < i → i < s.heap.numTimers →
      (s.heap.node (s.heap.buf ((i - 1) / FORKS_NUM))).deadline ≤ (s.heap.node (s.heap.buf i)).deadline) ∧
      (s.heap.timers.Nodup ∧ s.heap.timers.Perm s.live) ∧
      s.heap.timer0Deadline = if s.heap.numTimers = 0 then 0 else (s.heap.node (s.heap.buf 0)).deadline := by
  have hinv : Inv s := Interleave.run_invariant hrun (inv_initial node buf) fun _ _ _ => act_keeps_inv
  refine ⟨fun i hi hin => ?_, ⟨hinv.valid.nodup, hinv.live⟩, hinv.valid.top⟩
  exact ddl_le_iff.mp (hinv.valid.ordered i hi hin)

/-- Ten timers; the last one, with a small deadline, takes the place of timer `5` and moves up. Then timer `1` is given
    a new deadline and removed. -/
def riseRun : List (Op Nat) :=
  (List.range 10).map (fun t => .add t ([0, 100, 10, 30, 40, 110, 120, 130, 140, 20].getD t 0) id) ++
    [.remove 5 none, .remove 5 (some 7)]

theorem timer_heap_ordered_rise : ∃ s : State Nat,
    Interleave.Run act Callable (initial (fun _ => ⟨0, 0, .waiting, false⟩) id) s ∧
      s.heap.timers = [0, 9, 2, 3, 4, 8, 6, 7] ∧
      (∀ i, 0 < i → i < s.heap.numTimers →
        (s.heap.node (s.heap.buf ((i - 1) / FORKS_NUM))).deadline ≤ (s.heap.node (s.heap.buf i)).deadline) ∧
      (s.heap.timers.Nodup ∧ s.heap.timers.Perm s.live) ∧
      s.heap.timer0Deadline = if s.heap.numTimers = 0 then 0 else (s.heap.node (s.heap.buf 0)).deadline := by
  have hexec : (Interleave.runActs act Callable (initial (fun _ => ⟨0, 0, .waiting, false⟩) id) riseRun).map
      (fun s => s.heap.timers) = some [0, 9, 2, 3, 4, 8, 6, 7] := by
    decide +kernel
  obtain ⟨s, hs, htimers⟩ := Option.map_eq_some_iff.mp hexec
  have hrun := Interleave.run_of_runActs hs
  exact ⟨s, hrun, htimers, timer_heap_ordered hrun⟩

end Runs

end CangjieRuntime.Timer
