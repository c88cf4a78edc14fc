import CangjieRuntime.Lib.Interleave
import CangjieRuntime.Timer.TimerStopped
import CangjieRuntime.Timer.Correctness.Sift

/-!
# `Timer.Correctness.SizedFrees` — the sizes that the timer module frees

`NativeFree` is told the size of what it frees, and finds the free list by it. The size of an array is not kept with the
array: `TimerDoAdd` takes it from `numTimers`, which is the capacity then; `TimerTriggerHeapAdjust` takes the size of
its buffer `needMove` from `numTimers` at the end of the pass, and `TimerExit` takes that of the heap's array from a
constant. The first is always right, the other two are right as long as nothing has changed the number they are taken
from: the pass drops the stopped timers that it finds, and the array grows.
-/

namespace CangjieRuntime.Timer

open Interleave

/-- `sizeof(void *)`. -/
def POINTER_SIZE : Nat := 8

/-- A heap, the size that its array was allocated with, and the frees so far: the size of the allocation and the size
    passed. -/
structure Ledger (T : Type) where
  heap : TimerHeap T
  bufBytes : Nat
  frees : List (Nat × Nat)
  exited : Bool

/-- The calls: `write` is what `TimerStop`, `TimerReset` and the timer that runs write to nodes and counters. -/
inductive SizedOp (T : Type) where
  | doAdd (timer : T) (newBuf : Option (Nat → T))
  | remove (idx : Nat)
  | stoppedClear
  | write (node : T → TimerNode) (adjustTimers stoppedTimers : UInt64)
  | trigger (alloc memset : Bool) (newBuf : T → Option (Nat → T))
  | exit

variable {T : Type}

def Ledger.init (node : T → TimerNode) (buf : Nat → T) : Ledger T :=
  ⟨timerHeapInit node buf, POINTER_SIZE * TIMER_HEAP_SIZE, [], false⟩

variable [DecidableEq T]

namespace Ledger

/-- `TimerDoAdd`. -/
def doAdd (l : Ledger T) (timer : T) (newBuf : Option (Nat → T)) : Ledger T :=
  let l' := { l with heap := timerDoAdd l.heap timer newBuf }
  if l.heap.numTimers = l.heap.capacity ∧ newBuf.isSome then
    { l' with
      bufBytes := POINTER_SIZE * l.heap.numTimers * TIMER_HEAP_EXPAND_MULTIPLE
      frees := (l.bufBytes, POINTER_SIZE * l.heap.numTimers) :: l.frees }
  else l'

/-- The second loop of `TimerTriggerHeapAdjust`. -/
def refill (newBuf : T → Option (Nat → T)) : Ledger T → List T → Ledger T
  | l, [] => l
  | l, timer :: needMove =>
    let l := l.doAdd timer (newBuf timer)
    refill newBuf { l with heap := setStatus l.heap timer .waiting } needMove

/-- `TimerTriggerHeapAdjust`. -/
def trigger (alloc memset : Bool) (newBuf : T → Option (Nat → T)) (l : Ledger T) : Ledger T :=
  let bytes := POINTER_SIZE * l.heap.numTimers
  if l.heap.numTimers = 0 ∨ l.heap.adjustTimers = 0 then l
  else if !alloc then l
  else if !memset then { l with frees := (bytes, bytes) :: l.frees }
  else
    let r := adjustLoop l.heap.numTimers l.heap 0 []
    let l := refill newBuf { l with heap := r.1 } r.2
    { l with frees := (bytes, POINTER_SIZE * l.heap.numTimers) :: l.frees }

/-- `TimerExit`. -/
def exit (l : Ledger T) : Ledger T :=
  { l with
    heap := { l.heap with numTimers := 0 }
    frees := (l.bufBytes, POINTER_SIZE * TIMER_HEAP_SIZE) :: l.frees
    exited := true }

def act (l : Ledger T) (op : SizedOp T) : Option (Ledger T) :=
  if l.exited then none
  else
    match op with
    | .doAdd timer newBuf => some (l.doAdd timer newBuf)
    | .remove idx => some { l with heap := timerRemove l.heap idx }
    | .stoppedClear => (timerStoppedClear l.heap).map fun heap => { l with heap := heap }
    | .write node adjustTimers stoppedTimers =>
      some { l with heap := { l.heap with node := node, adjustTimers := adjustTimers, stoppedTimers := stoppedTimers } }
    | .trigger alloc memset newBuf => some (l.trigger alloc memset newBuf)
    | .exit => some l.exit

/-- What the ledger adds does not touch the heap: a pass leaves the heap that `timerTriggerHeapAdjust` leaves. -/
theorem heap_doAdd (l : Ledger T) (timer : T) (newBuf : Option (Nat → T)) :
    (l.doAdd timer newBuf).heap = timerDoAdd l.heap timer newBuf := by
  unfold doAdd
  split
  · rfl
  · rfl

theorem heap_refill (newBuf : T → Option (Nat → T)) (l : Ledger T) (needMove : List T) :
    (l.refill newBuf needMove).heap = addLoop newBuf l.heap needMove := by
  induction needMove generalizing l with
  | nil => rfl
  | cons timer needMove ih => rw [refill, ih, heap_doAdd, addLoop]

theorem heap_trigger (alloc memset : Bool) (newBuf : T → Option (Nat → T)) (l : Ledger T) :
    (l.trigger alloc memset newBuf).heap = timerTriggerHeapAdjust alloc memset newBuf l.heap := by
  unfold trigger timerTriggerHeapAdjust
  split
  · rfl
  · cases alloc
    · rfl
    · cases memset
      · rfl
      · exact heap_refill newBuf _ _

/-- No timer in the heap is stopped. -/
def NoStopped (heap : TimerHeap T) : Prop := ∀ j < heap.numTimers, (heap.node (heap.buf j)).status ≠ .stopped

/-- A pass that scans the heap finds no stopped timer there; the array is the first one when the processor exits. -/
def KeepsSizes (l : Ledger T) : SizedOp T → Prop
  | .trigger alloc memset _ => l.heap.adjustTimers ≠ 0 ∧ alloc = true ∧ memset = true → NoStopped l.heap
  | .exit => l.heap.capacity = TIMER_HEAP_SIZE
  | _ => True

instance (l : Ledger T) (op : SizedOp T) : Decidable (KeepsSizes l op) := by
  cases op <;> unfold KeepsSizes <;> first | infer_instance | (unfold NoStopped; infer_instance)

/-! ## Taking a timer out -/

section TakingOut

variable {P : T → Prop} {node : T → TimerNode} {d : UInt64} {n fuel i : Nat} {buf : Nat → T} {t : T}

omit [DecidableEq T]

theorem forall_update (hall : ∀ j < n, P (buf j)) (ht : P t) : ∀ j < n, P (Function.update buf i t j) := by
  intro j hj
  by_cases hji : j = i
  · rwa [hji, Function.update_self]
  · rw [Function.update_of_ne hji]
    exact hall j hj

theorem shiftUpLoop_forall (hall : ∀ j < n, P (buf j)) (hi : i < n) :
    ∀ j < n, P ((shiftUpLoop node d fuel buf i).1 j) := by
  induction fuel generalizing buf i with
  | zero => exact hall
  | succ fuel ih =>
    unfold shiftUpLoop
    have hparent : (i - 1) / FORKS_NUM < n := (Nat.div_le_self ..).trans_lt ((Nat.sub_le ..).trans_lt hi)
    dsimp only
    split_ifs
    · exact hall
    · exact ih (forall_update hall (hall _ hparent)) hparent
    · exact hall

theorem shiftDownLoop_forall (hall : ∀ j < n, P (buf j)) : ∀ j < n, P ((shiftDownLoop node d n fuel buf i).1 j) := by
  induction fuel generalizing buf i with
  | zero => exact hall
  | succ fuel ih =>
    unfold shiftDownLoop
    dsimp only
    split_ifs with hstop hmore
    · exact hall
    · exact ih (forall_update hall (hall _ ((minChild_spec node buf n i).2.2 d (UInt64.not_le.mp hstop)).2.1))
    · exact forall_update hall (hall _ ((minChild_spec node buf n i).2.2 d (UInt64.not_le.mp hstop)).2.1)

theorem timerShiftUp_forall (heap : TimerHeap T) (hall : ∀ j < n, P (heap.buf j)) (hi : i < n) :
    ∀ j < n, P ((timerShiftUp heap i).buf j) :=
  forall_update (shiftUpLoop_forall hall hi) (hall i hi)

theorem timerShiftDown_forall (heap : TimerHeap T) (hall : ∀ j < heap.numTimers, P (heap.buf j))
    (hi : i < heap.numTimers) :
    ∀ j < heap.numTimers, P ((timerShiftDown heap i).buf j) :=
  forall_update (shiftDownLoop_forall hall) (hall i hi)

/-- The first `n` slots hold timers that were there before. -/
def Keeps (n : Nat) (buf buf' : Nat → T) : Prop := ∀ j < n, ∃ k < n, buf' j = buf k

theorem replaceByLast_eq (heap : TimerHeap T) (idx : Nat) : ∃ buf',
    replaceByLast heap idx (heap.numTimers - 1) = { heap with buf := buf' } ∧
      (idx < heap.numTimers → Keeps heap.numTimers heap.buf buf') := by
  let copied : TimerHeap T := { heap with buf := Function.update heap.buf idx (heap.buf (heap.numTimers - 1)) }
  let P (t : T) : Prop := ∃ k < heap.numTimers, t = heap.buf k
  have hcopied (hidx : idx < heap.numTimers) : ∀ j < heap.numTimers, P (copied.buf j) :=
    forall_update (P := P) (fun j hj => ⟨j, hj, rfl⟩) ⟨heap.numTimers - 1, by omega, rfl⟩
  unfold replaceByLast
  dsimp only
  split_ifs
  · exact ⟨_, rfl, fun hidx =>
      timerShiftDown_forall (P := P) (timerShiftUp copied idx) (timerShiftUp_forall copied (hcopied hidx) hidx) hidx⟩
  · exact ⟨_, rfl, fun hidx => timerShiftDown_forall (P := P) copied (hcopied hidx) hidx⟩

/-- `TimerRemove` writes to the array, the count and the deadline of the first timer. -/
theorem timerRemove_eq (heap : TimerHeap T) (idx : Nat) : ∃ buf' d,
    timerRemove heap idx = { heap with buf := buf', numTimers := heap.numTimers - 1, timer0Deadline := d } ∧
      (idx < heap.numTimers → Keeps heap.numTimers heap.buf buf') := by
  obtain ⟨buf', heq, hkeeps⟩ : ∃ buf',
      (if idx ≠ heap.numTimers - 1 then replaceByLast heap idx (heap.numTimers - 1) else heap) =
        { heap with buf := buf' } ∧ (idx < heap.numTimers → Keeps heap.numTimers heap.buf buf') := by
    split_ifs
    · exact replaceByLast_eq heap idx
    · exact ⟨heap.buf, rfl, fun _ j hj => ⟨j, hj, rfl⟩⟩
  unfold timerRemove timerUpdateTimer0Ddl
  dsimp only
  rw [heq]
  by_cases hfirst : idx = 0
  · rw [if_pos hfirst]
    exact ⟨buf', _, rfl, hkeeps⟩
  · rw [if_neg hfirst]
    exact ⟨buf', _, rfl, hkeeps⟩

end TakingOut

/-- A timer with a new deadline is taken out, and no other timer is written to. -/
theorem NoStopped.takeModified {heap : TimerHeap T} {idx : Nat} (hno : NoStopped heap) (hidx : idx < heap.numTimers) :
    NoStopped (takeModified heap idx) ∧ (takeModified heap idx).capacity = heap.capacity ∧
      (takeModified heap idx).numTimers + 1 = heap.numTimers := by
  unfold Timer.takeModified
  dsimp only
  obtain ⟨buf', d, heq, hkeeps⟩ := timerRemove_eq (setDeadline (setStatus heap (heap.buf idx) .moving) (heap.buf idx)
    ((setStatus heap (heap.buf idx) .moving).node (heap.buf idx)).newDeadline) idx
  rw [heq]
  refine ⟨fun j hj => ?_, rfl, Nat.sub_add_cancel (Nat.zero_lt_of_lt hidx)⟩
  obtain ⟨k, hk, hfrom⟩ := hkeeps hidx j (hj.trans_le (Nat.sub_le ..))
  dsimp only
  rw [hfrom]
  unfold setDeadline setStatus
  dsimp only
  by_cases htimer : heap.buf k = heap.buf idx
  · rw [htimer, Function.update_self, Function.update_self]
    exact TimerStatus.noConfusion
  · rw [Function.update_of_ne htimer, Function.update_of_ne htimer]
    exact hno k hk

/-- A round of the scan takes a timer out only to add it again. -/
theorem NoStopped.round {heap : TimerHeap T} {i : Nat} (hno : NoStopped heap) (hi : i < heap.numTimers)
    (needMove : List T) {r : Then × TimerHeap T × List T} (hr : timerTriggerHeapStateAdjust heap i needMove = r) :
    NoStopped r.2.1 ∧ r.2.1.capacity = heap.capacity ∧
      r.2.1.numTimers + r.2.2.length = heap.numTimers + needMove.length := by
  obtain ⟨hno', hcap, hnum⟩ := hno.takeModified hi
  unfold timerTriggerHeapStateAdjust at hr
  dsimp only at hr
  subst hr
  cases hst : (heap.node (heap.buf i)).status with
  | stopped => exact absurd hst (hno i hi)
  | modifiedAhead | modifiedDelayed =>
    refine ⟨hno', hcap, ?_⟩
    dsimp only
    rw [List.length_append, List.length_singleton]
    omega
  | _ => exact ⟨hno, rfl, rfl⟩

theorem NoStopped.adjustLoop {heap : TimerHeap T} (hno : NoStopped heap) (fuel i : Nat) (needMove : List T) :
    (adjustLoop fuel heap i needMove).1.capacity = heap.capacity ∧
      (adjustLoop fuel heap i needMove).1.numTimers + (adjustLoop fuel heap i needMove).2.length =
        heap.numTimers + needMove.length := by
  induction fuel generalizing heap i needMove with
  | zero => exact ⟨rfl, rfl⟩
  | succ fuel ih =>
    unfold Timer.adjustLoop
    split_ifs with hi
    · split
      all_goals
        rename_i heap' needMove' heq
        obtain ⟨hno', hcap, hnum⟩ := hno.round hi needMove heq
      · exact ⟨hcap, hnum⟩
      · exact ⟨(ih hno' ..).1.trans hcap, (ih hno' ..).2.trans hnum⟩
      · exact ⟨(ih hno' ..).1.trans hcap, (ih hno' ..).2.trans hnum⟩
    · exact ⟨rfl, rfl⟩

/-! ## The capacity -/

theorem stoppedLoop_frame {k i : Nat} {heap : TimerHeap T} {changed : Bool} {para : TimerStoppedPara}
    {r : TimerHeap T × Option TimerStoppedPara} (h : stoppedLoop k heap i changed para = some r) :
    r.1.capacity = heap.capacity ∧ r.1.numTimers = heap.numTimers := by
  induction k generalizing heap i changed para with
  | zero =>
    cases h
    exact ⟨rfl, rfl⟩
  | succ k ih =>
    have hstep {res : Adjusted × TimerHeap T × TimerStoppedPara}
        (hres : timerStoppedStateAdjust heap (heap.buf i) changed para = some res) :
        res.2.1.capacity = heap.capacity ∧ res.2.1.numTimers = heap.numTimers := by
      unfold timerStoppedStateAdjust discard at hres
      split at hres <;> cases hres <;> dsimp only <;> first | exact ⟨rfl, rfl⟩ | (split <;> exact ⟨rfl, rfl⟩)
    unfold stoppedLoop at h
    split at h <;> rename_i heq
    · cases h
    · cases h
      exact hstep heq
    · exact ⟨(ih h).1.trans (hstep heq).1, (ih h).2.trans (hstep heq).2⟩
    · exact ⟨(ih h).1.trans (hstep heq).1, (ih h).2.trans (hstep heq).2⟩

/-! ## The invariant -/

structure Inv (l : Ledger T) : Prop where
  bytes : l.bufBytes = POINTER_SIZE * l.heap.capacity
  matched : ∀ f ∈ l.frees, f.1 = f.2
  room : l.heap.numTimers ≤ l.heap.capacity
  capacity_pos : 0 < l.heap.capacity

omit [DecidableEq T] in
theorem Inv.keep {l : Ledger T} (h : Inv l) {heap : TimerHeap T} (hcap : heap.capacity = l.heap.capacity)
    (hnum : heap.numTimers ≤ l.heap.numTimers) : Inv { l with heap := heap } :=
  ⟨h.bytes.trans (by rw [← hcap]), h.matched, hcap ▸ hnum.trans h.room, hcap ▸ h.capacity_pos⟩

/-- A timer is added, if there is room or the array can grow. -/
theorem Inv.doAdd {l : Ledger T} (h : Inv l) (timer : T) (newBuf : Option (Nat → T)) :
    Inv (l.doAdd timer newBuf) ∧ (l.heap.numTimers < l.heap.capacity →
      (l.doAdd timer newBuf).heap.numTimers = l.heap.numTimers + 1 ∧
        (l.doAdd timer newBuf).heap.capacity = l.heap.capacity) := by
  have hroom := h.room
  have hpos := h.capacity_pos
  unfold Ledger.doAdd timerDoAdd
  dsimp only
  by_cases hfull : l.heap.numTimers = l.heap.capacity
  · refine ⟨?_, fun hlt => absurd hfull hlt.ne⟩
    cases newBuf with
    | none =>
      rw [if_pos hfull, if_neg (by simp)]
      exact h
    | some newBuf =>
      rw [if_pos hfull, if_pos ⟨hfull, rfl⟩]
      refine ⟨Nat.mul_assoc .., List.forall_mem_cons.mpr ⟨?_, h.matched⟩, ?_, ?_⟩
      · rw [h.bytes, hfull]
      · show l.heap.numTimers + 1 ≤ l.heap.numTimers * 2
        omega
      · show 0 < l.heap.numTimers * 2
        omega
  · rw [if_neg hfull, if_neg fun hboth => hfull hboth.1]
    exact ⟨⟨h.bytes, h.matched, Nat.lt_of_le_of_ne hroom hfull, hpos⟩, fun _ => ⟨rfl, rfl⟩⟩

/-- The timers taken out find room again. -/
theorem Inv.refill (newBuf : T → Option (Nat → T)) {l : Ledger T} (h : Inv l) (needMove : List T)
    (hroom : l.heap.numTimers + needMove.length ≤ l.heap.capacity) :
    Inv (refill newBuf l needMove) ∧
      (Ledger.refill newBuf l needMove).heap.numTimers = l.heap.numTimers + needMove.length := by
  induction needMove generalizing l with
  | nil => exact ⟨h, rfl⟩
  | cons timer needMove ih =>
    rw [List.length_cons] at hroom
    obtain ⟨hinv, hadd⟩ := h.doAdd timer (newBuf timer)
    obtain ⟨hnum, hcap⟩ := hadd (by omega)
    have hwaits : Inv { l.doAdd timer (newBuf timer) with
        heap := setStatus (l.doAdd timer (newBuf timer)).heap timer .waiting } := hinv.keep rfl le_rfl
    obtain ⟨hinv', hnum'⟩ :=
      ih hwaits (show (l.doAdd timer _).heap.numTimers + _ ≤ (l.doAdd timer _).heap.capacity by omega)
    refine ⟨hinv', hnum'.trans ?_⟩
    show (l.doAdd timer _).heap.numTimers + needMove.length = _
    rw [hnum, List.length_cons]
    omega

theorem Inv.act {l l' : Ledger T} {op : SizedOp T} (h : Inv l) (heven : KeepsSizes l op) (hact : act l op = some l') :
    Inv l' := by
  unfold Ledger.act at hact
  split at hact
  · cases hact
  cases op with
  | doAdd timer newBuf =>
    cases hact
    exact (h.doAdd timer newBuf).1
  | remove idx =>
    cases hact
    obtain ⟨buf', d, heq, -⟩ := timerRemove_eq l.heap idx
    rw [heq]
    exact h.keep rfl (Nat.sub_le ..)
  | stoppedClear =>
    obtain ⟨heap, hclear, rfl⟩ := Option.map_eq_some_iff.mp hact
    obtain ⟨⟨heap', para⟩, hloop, rfl⟩ := Option.map_eq_some_iff.mp hclear
    obtain ⟨hcap, hnum⟩ := stoppedLoop_frame hloop
    cases para with
    | none => exact h.keep hcap hnum.le
    | some para => exact h.keep hcap ((Nat.sub_le ..).trans hnum.le)
  | write node adjustTimers stoppedTimers =>
    cases hact
    exact h.keep rfl le_rfl
  | trigger alloc memset newBuf =>
    cases hact
    unfold Ledger.trigger
    dsimp only
    split_ifs with hnone halloc hmemset
    · exact h
    · exact h
    · exact ⟨h.bytes, List.forall_mem_cons.mpr ⟨rfl, h.matched⟩, h.room, h.capacity_pos⟩
    · -- what the scan takes out is what the second loop adds
      have hno := heven ⟨(not_or.mp hnone).2, by simpa using halloc, by simpa using hmemset⟩
      obtain ⟨hcap, hnum⟩ := hno.adjustLoop l.heap.numTimers 0 []
      rw [List.length_nil, Nat.add_zero] at hnum
      obtain ⟨hinv, hcount⟩ := (h.keep hcap (by omega)).refill newBuf
        (adjustLoop l.heap.numTimers l.heap 0 []).2 (hnum.trans_le (h.room.trans hcap.ge))
      refine ⟨hinv.bytes, List.forall_mem_cons.mpr ⟨?_, hinv.matched⟩, hinv.room, hinv.capacity_pos⟩
      dsimp only at hcount ⊢
      rw [hcount, hnum]
  | exit =>
    cases hact
    refine ⟨h.bytes, List.forall_mem_cons.mpr ⟨?_, h.matched⟩, Nat.zero_le _, h.capacity_pos⟩
    dsimp only
    rw [h.bytes, show l.heap.capacity = TIMER_HEAP_SIZE from heven]

end Ledger

open Ledger

end CangjieRuntime.Timer
