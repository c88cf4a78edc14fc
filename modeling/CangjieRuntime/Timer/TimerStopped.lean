import CangjieRuntime.Timer.TimerHeap

/-!
# `Timer.TimerStopped` — clearing stopped timers out of the heap

`TimerStoppedClear` goes over the array once. A read index runs over the old array and a write index, `bufIndex`, over
the new one, which is built up as a heap in the slots before it.
-/

namespace CangjieRuntime.Timer

structure TimerStoppedPara where
  aheadcnt : Nat
  delcnt : Nat
  bufIndex : Nat
deriving DecidableEq, Repr

/-- The results of `TimerStoppedStateAdjust`: `ERROR_TIMER_STATE`, `0` and `1`. -/
inductive Adjusted where
  | errorState | proceed | changed
deriving DecidableEq, Repr

variable {T : Type}

/-- The timer becomes the last one of the new array. -/
def place (heap : TimerHeap T) (timer : T) (bufIndex : Nat) : TimerHeap T :=
  timerShiftUp { heap with buf := Function.update heap.buf bufIndex timer } bufIndex

variable [DecidableEq T]

/-- The cases `TIMER_MODIFIED_AHEAD` and `TIMER_MODIFIED_DELAYED`. -/
def placeModified (heap : TimerHeap T) (timer : T) (bufIndex : Nat) : TimerHeap T :=
  let heap := setStatus heap timer .moving
  setStatus (place (setDeadline heap timer (heap.node timer).newDeadline) timer bufIndex) timer .waiting

/-- The case `TIMER_STOPPED`. -/
def discard (heap : TimerHeap T) (timer : T) : TimerHeap T :=
  let heap := setStatus heap timer .removing
  if (heap.node timer).autoReleasing then { heap with released := timer :: heap.released }
  else setStatus heap timer .removed

/-- `none`: the loop waits for a timer that is being modified. -/
def timerStoppedStateAdjust (heap : TimerHeap T) (timer : T) (changed : Bool) (para : TimerStoppedPara) :
    Option (Adjusted × TimerHeap T × TimerStoppedPara) :=
  match (heap.node timer).status with
  | .waiting =>
    some (.proceed, if changed then place heap timer para.bufIndex else heap,
      { para with bufIndex := para.bufIndex + 1 })
  | .modifiedAhead =>
    some (.changed, placeModified heap timer para.bufIndex,
      { para with bufIndex := para.bufIndex + 1, aheadcnt := para.aheadcnt + 1 })
  | .modifiedDelayed =>
    some (.changed, placeModified heap timer para.bufIndex, { para with bufIndex := para.bufIndex + 1 })
  | .stopped => some (.changed, discard heap timer, { para with delcnt := para.delcnt + 1 })
  | .modifying => none
  | .idle | .running | .removing | .removed | .moving => some (.errorState, heap, para)

/-- The loop of `TimerStoppedClear`, with `k` rounds to go; the heap alone when it stops early. -/
def stoppedLoop : Nat → TimerHeap T → Nat → Bool → TimerStoppedPara → Option (TimerHeap T × Option TimerStoppedPara)
  | 0, heap, _, _, para => some (heap, some para)
  | k + 1, heap, i, changed, para =>
    match timerStoppedStateAdjust heap (heap.buf i) changed para with
    | none => none
    | some (.errorState, heap, _) => some (heap, none)
    | some (.proceed, heap, para) => stoppedLoop k heap (i + 1) changed para
    | some (.changed, heap, para) => stoppedLoop k heap (i + 1) true para

/-- `none`: the call does not return. -/
def timerStoppedClear (heap : TimerHeap T) : Option (TimerHeap T) :=
  (stoppedLoop heap.numTimers heap 0 false ⟨0, 0, 0⟩).map fun r =>
    match r with
    | (heap, none) => heap
    | (heap, some para) =>
      timerUpdateTimer0Ddl
        { heap with
          stoppedTimers := heap.stoppedTimers - para.delcnt.toUInt64
          numTimers := heap.numTimers - para.delcnt
          adjustTimers := heap.adjustTimers - para.aheadcnt.toUInt64 }

end CangjieRuntime.Timer
