import Mathlib

/-!
# `Timer.TimerHeap` — the timers of a processor

A processor keeps its timers in a heap of fan-out four, ordered by deadline: an array `buf` of pointers to timer nodes.
The functions below are those of `timer.cpp` that work on the array, and the pass `TimerTriggerHeapAdjust` that puts
timers with a new deadline where they belong.

* `buf` is a function of the slot; what lies in the slots from `numTimers` on is garbage.
* Numbers of timers count distinct nodes in memory, so `4 * idx + 4` does not wrap around: they are `Nat`. Deadlines and
  the atomic counters are `UInt64`, with its arithmetic.
* The heap's mutex is held, and no other thread changes a status meanwhile: every compare-and-exchange of the source
  succeeds, and is written as the store it then is.
* A loop has a fuel argument that bounds its number of rounds.
-/

namespace CangjieRuntime.Timer

/-! ## Data -/

inductive TimerStatus where
  | idle | waiting | running | stopped | modifying | modifiedAhead | modifiedDelayed | removing | removed | moving
deriving DecidableEq, Repr

structure TimerNode where
  deadline : UInt64
  newDeadline : UInt64
  status : TimerStatus
  autoReleasing : Bool
deriving DecidableEq, Repr

/-- `T` are the addresses of timer nodes, and `node` is what is stored there. `released` are the nodes that were given
    back to the allocator. -/
structure TimerHeap (T : Type) where
  node : T → TimerNode
  released : List T
  buf : Nat → T
  numTimers : Nat
  adjustTimers : UInt64
  stoppedTimers : UInt64
  timer0Deadline : UInt64
  capacity : Nat

def FORKS_NUM : Nat := 4

def TIMER_HEAP_SIZE : Nat := 256

def TIMER_HEAP_EXPAND_MULTIPLE : Nat := 2

def ULLONG_MAX : UInt64 := 0xFFFFFFFFFFFFFFFF

variable {T : Type}

/-- `TimerHeapInit`, when its allocations succeed. -/
def timerHeapInit (node : T → TimerNode) (buf : Nat → T) : TimerHeap T where
  node := node
  released := []
  buf := buf
  numTimers := 0
  adjustTimers := 0
  stoppedTimers := 0
  timer0Deadline := 0
  capacity := TIMER_HEAP_SIZE

/-! ## Moving a timer to its place -/

/-- The loop of `TimerShiftUp`: the array, and the slot in which the timer goes. A parent has a smaller index, so
    `bufIndex` rounds are enough. -/
def shiftUpLoop (node : T → TimerNode) (ddl : UInt64) : Nat → (Nat → T) → Nat → (Nat → T) × Nat
  | 0, buf, bufIndex => (buf, bufIndex)
  | fuel + 1, buf, bufIndex =>
    if bufIndex > 0 then
      let parent := (bufIndex - 1) / FORKS_NUM
      if ddl ≥ (node (buf parent)).deadline then (buf, bufIndex)
      else shiftUpLoop node ddl fuel (Function.update buf bufIndex (buf parent)) parent
    else (buf, bufIndex)

def timerShiftUp (heap : TimerHeap T) (idx : Nat) : TimerHeap T :=
  let timer := heap.buf idx
  let r := shiftUpLoop heap.node (heap.node timer).deadline idx heap.buf idx
  { heap with buf := Function.update r.1 r.2 timer }

/-- What the inner loop of `TimerShiftDown` finds out about the children of a slot. -/
structure MinChild where
  flag : Bool
  midDdl : UInt64
  minIdx : Nat

/-- The inner loop of `TimerShiftDown`, with `k` rounds to go. -/
def minChildLoop (node : T → TimerNode) (buf : Nat → T) (len idxTemp : Nat) : Nat → Nat → UInt64 → Nat → MinChild
  | 0, _, midDdl, minIdx => ⟨true, midDdl, minIdx⟩
  | k + 1, i, midDdl, minIdx =>
    let child := FORKS_NUM * idxTemp + i
    if child ≥ len then ⟨false, midDdl, minIdx⟩
    else if (node (buf child)).deadline < midDdl then
      minChildLoop node buf len idxTemp k (i + 1) (node (buf child)).deadline child
    else minChildLoop node buf len idxTemp k (i + 1) midDdl minIdx

def minChild (node : T → TimerNode) (buf : Nat → T) (len idxTemp : Nat) : MinChild :=
  minChildLoop node buf len idxTemp FORKS_NUM 1 ULLONG_MAX 0

/-- The outer loop of `TimerShiftDown`. A child has a greater index, so `len` rounds are enough. -/
def shiftDownLoop (node : T → TimerNode) (ddl : UInt64) (len : Nat) : Nat → (Nat → T) → Nat → (Nat → T) × Nat
  | 0, buf, idxTemp => (buf, idxTemp)
  | fuel + 1, buf, idxTemp =>
    let r := minChild node buf len idxTemp
    if r.midDdl ≥ ddl then (buf, idxTemp)
    else if r.flag then shiftDownLoop node ddl len fuel (Function.update buf idxTemp (buf r.minIdx)) r.minIdx
    else (Function.update buf idxTemp (buf r.minIdx), r.minIdx)

def timerShiftDown (heap : TimerHeap T) (idx : Nat) : TimerHeap T :=
  let timer := heap.buf idx
  let r := shiftDownLoop heap.node (heap.node timer).deadline heap.numTimers heap.numTimers heap.buf idx
  { heap with buf := Function.update r.1 r.2 timer }

/-! ## Adding and removing -/

/-- The new array is twice as large. -/
def expand (heap : TimerHeap T) (newBuf : Nat → T) : TimerHeap T :=
  { heap with
    capacity := heap.numTimers * TIMER_HEAP_EXPAND_MULTIPLE
    buf := fun i => if i < heap.numTimers then heap.buf i else newBuf i }

/-- The second half of `TimerDoAdd`, when there is room. -/
def insertTimer [DecidableEq T] (heap : TimerHeap T) (timer : T) : TimerHeap T :=
  let heap := timerShiftUp { heap with buf := Function.update heap.buf heap.numTimers timer } heap.numTimers
  { heap with
    timer0Deadline := if timer = heap.buf 0 then (heap.node timer).deadline else heap.timer0Deadline
    numTimers := heap.numTimers + 1 }

/-- `newBuf` is what the allocation of a larger array returns, if it comes to that. -/
def timerDoAdd [DecidableEq T] (heap : TimerHeap T) (timer : T) (newBuf : Option (Nat → T)) : TimerHeap T :=
  if heap.numTimers = heap.capacity then
    match newBuf with
    | none => heap
    | some newBuf => insertTimer (expand heap newBuf) timer
  else insertTimer heap timer

def timerUpdateTimer0Ddl (heap : TimerHeap T) : TimerHeap T :=
  { heap with timer0Deadline := if heap.numTimers = 0 then 0 else (heap.node (heap.buf 0)).deadline }

/-- The first half of `TimerRemove`: the last timer takes the place of the one at `idx`. -/
def replaceByLast (heap : TimerHeap T) (idx last : Nat) : TimerHeap T :=
  let heap := { heap with buf := Function.update heap.buf idx (heap.buf last) }
  let heap := if idx ≠ 0 then timerShiftUp heap idx else heap
  timerShiftDown heap idx

def timerRemove (heap : TimerHeap T) (idx : Nat) : TimerHeap T :=
  let last := heap.numTimers - 1
  let heap := if idx ≠ last then replaceByLast heap idx last else heap
  let heap := { heap with numTimers := heap.numTimers - 1 }
  if idx = 0 then timerUpdateTimer0Ddl heap else heap

/-! ## Timers with a new deadline -/

def setStatus [DecidableEq T] (heap : TimerHeap T) (timer : T) (status : TimerStatus) : TimerHeap T :=
  { heap with node := Function.update heap.node timer { heap.node timer with status := status } }

def setDeadline [DecidableEq T] (heap : TimerHeap T) (timer : T) (deadline : UInt64) : TimerHeap T :=
  { heap with node := Function.update heap.node timer { heap.node timer with deadline := deadline } }

/-- The answers of `TimerTriggerHeapStateAdjust`: `-1`, `0` and `1`. -/
inductive Then where
  | breakLoop | current | next
deriving DecidableEq, Repr

/-- The case `TIMER_STOPPED`. -/
def dropStopped [DecidableEq T] (heap : TimerHeap T) (idx : Nat) : TimerHeap T :=
  let timer := heap.buf idx
  let heap := timerRemove (setStatus heap timer .removing) idx
  let heap :=
    if (heap.node timer).autoReleasing then { heap with released := timer :: heap.released }
    else setStatus heap timer .removed
  { heap with stoppedTimers := heap.stoppedTimers - 1 }

/-- The cases `TIMER_MODIFIED_AHEAD` and `TIMER_MODIFIED_DELAYED`, up to the counter. -/
def takeModified [DecidableEq T] (heap : TimerHeap T) (idx : Nat) : TimerHeap T :=
  let timer := heap.buf idx
  let heap := setStatus heap timer .moving
  timerRemove (setDeadline heap timer (heap.node timer).newDeadline) idx

/-- The third result is `needMove`. -/
def timerTriggerHeapStateAdjust [DecidableEq T] (heap : TimerHeap T) (idx : Nat) (needMove : List T) :
    Then × TimerHeap T × List T :=
  let timer := heap.buf idx
  match (heap.node timer).status with
  | .stopped => (.current, dropStopped heap idx, needMove)
  | .modifiedAhead =>
    let heap := takeModified heap idx
    let heap := { heap with adjustTimers := heap.adjustTimers - 1 }
    (if heap.adjustTimers ≤ 0 then .breakLoop else .current, heap, needMove ++ [timer])
  | .modifiedDelayed => (.current, takeModified heap idx, needMove ++ [timer])
  | .modifying => (.current, heap, needMove)
  | .waiting => (.next, heap, needMove)
  | .idle | .running | .removing | .removed | .moving => (.breakLoop, heap, needMove)

/-- The first loop of `TimerTriggerHeapAdjust`. Without a timer in state `TIMER_MODIFYING`, on which the loop spins,
    every round either goes to the next slot or takes a timer out of the heap. -/
def adjustLoop [DecidableEq T] : Nat → TimerHeap T → Nat → List T → TimerHeap T × List T
  | 0, heap, _, needMove => (heap, needMove)
  | fuel + 1, heap, i, needMove =>
    if i < heap.numTimers then
      match timerTriggerHeapStateAdjust heap i needMove with
      | (.breakLoop, heap, needMove) => (heap, needMove)
      | (.current, heap, needMove) => adjustLoop fuel heap i needMove
      | (.next, heap, needMove) => adjustLoop fuel heap (i + 1) needMove
    else (heap, needMove)

/-- The second loop of `TimerTriggerHeapAdjust`; `newBuf` answers the allocations. -/
def addLoop [DecidableEq T] (newBuf : T → Option (Nat → T)) : TimerHeap T → List T → TimerHeap T
  | heap, [] => heap
  | heap, timer :: needMove => addLoop newBuf (setStatus (timerDoAdd heap timer (newBuf timer)) timer .waiting) needMove

/-- `alloc` and `memset` say whether the array `needMove.buf` could be allocated and cleared. -/
def timerTriggerHeapAdjust [DecidableEq T] (alloc memset : Bool) (newBuf : T → Option (Nat → T)) (heap : TimerHeap T) :
    TimerHeap T :=
  if heap.numTimers = 0 ∨ heap.adjustTimers = 0 then heap
  else if !alloc || !memset then heap
  else
    let r := adjustLoop heap.numTimers heap 0 []
    addLoop newBuf r.1 r.2

end CangjieRuntime.Timer
