import CangjieRuntime.Lib.Interleave

/-!
# `StdSync.TimerScheduler` — the timers of `std.sync`

A `TimerScheduler` has one thread of its own, which starts the tasks of its timers. A new timer is put in a queue; the
scheduler's thread moves the timers of the queue to a heap ordered by `endTime`, looks at the first one, and waits until
its time has come or until it is notified of a new timer. A task is executed by a thread spawned for it. When the task
asks for another run, this thread sets a new `endTime` and adds the timer once more.

This file is the model of one scheduler and its timers, `X`, as the accesses of its functions.

* The queue is a list: timers are added inside the monitor, and removed by the scheduler's thread only. `queue.add` and
  `notify`, both inside the monitor, are one step.
* The heap belongs to the scheduler's thread. Slots from `size` on are garbage.
* Times are integers; they do not overflow. (Where `reload` overflows, its thread ends as it does without `reload`.)
* A thread `t : T` of the program calls functions of timers; if it is idle, it may also be the thread that was spawned
  for a task. Inside a task it may create and cancel timers. How a task ends is up to the task: with a duration, or
  without one (that includes an exception).
-/

namespace CangjieRuntime.TimerScheduler

/-! ## `TimerHeap` -/

def NODE_SIZE : Nat := 4

structure TimerHeap (X : Type) where
  data : Nat → X
  size : Nat

variable {X : Type}

/-- `TimerHeap()`. -/
def TimerHeap.new (zeroValue : X) : TimerHeap X where
  data _ := zeroValue
  size := 0

/-- `(data[i], data[j]) = (data[j], data[i])`. -/
def swap (data : Nat → X) (i j : Nat) : Nat → X := Function.update (Function.update data i (data j)) j (data i)

section Heap

variable (zeroValue : X) (endTime : X → Int)

/-- The loop of `siftUp`. A parent has a smaller index, so `i` rounds are enough. -/
def siftUpLoop : Nat → (Nat → X) → Nat → (Nat → X)
  | 0, data, _ => data
  | fuel + 1, data, i =>
    if i > 0 then
      let parent := (i - 1) / NODE_SIZE
      if ¬endTime (data i) < endTime (data parent) then data
      else siftUpLoop fuel (swap data parent i) parent
    else data

def siftUp (heap : TimerHeap X) : TimerHeap X :=
  { heap with data := siftUpLoop endTime (heap.size - 1) heap.data (heap.size - 1) }

/-- The loop of `getMinIndex`, with `k` rounds to go. -/
def getMinIndexLoop (data : Nat → X) (size : Nat) : Nat → Nat → Nat → Nat
  | 0, _, min => min
  | k + 1, i, min =>
    getMinIndexLoop data size k (i + 1) (if i < size ∧ endTime (data i) < endTime (data min) then i else min)

def getMinIndex (data : Nat → X) (size index : Nat) : Nat :=
  getMinIndexLoop endTime data size (NODE_SIZE - 1) (index + 1) index

/-- The loop of `siftDown`. A child has a greater index, so `size` rounds are enough. -/
def siftDownLoop (size : Nat) : Nat → (Nat → X) → Nat → (Nat → X)
  | 0, data, _ => data
  | fuel + 1, data, i =>
    let childIndex := NODE_SIZE * i + 1
    if childIndex > size - 1 then data
    else
      let min := getMinIndex endTime data size childIndex
      if ¬endTime (data min) < endTime (data i) then data
      else siftDownLoop size fuel (swap data min i) min

def siftDown (heap : TimerHeap X) : TimerHeap X :=
  { heap with data := siftDownLoop endTime heap.size heap.size heap.data 0 }

def TimerHeap.add (heap : TimerHeap X) (e : X) : TimerHeap X :=
  siftUp endTime { data := Function.update heap.data heap.size e, size := heap.size + 1 }

/-- The heap after `poll`, which returns `data[0]`. -/
def TimerHeap.poll (heap : TimerHeap X) : TimerHeap X :=
  let data := Function.update heap.data 0 (heap.data (heap.size - 1))
  siftDown endTime { data := Function.update data (heap.size - 1) zeroValue, size := heap.size - 1 }

end Heap

/-! ## Threads -/

/-- The next access of the scheduler's thread. -/
inductive Sched (X : Type) where
  /-- Not started. -/
  | off
  /-- `consume`: about to remove a timer from the queue. -/
  | consume
  /-- `schedule`: about to look at the heap, and at `isEnabled` of its first timer. -/
  | schedule
  /-- The first timer is not enabled: about to poll it, and to decrement `cancelCount`. -/
  | dropTop
  /-- About to read the clock. -/
  | loadNow (timer : X)
  /-- About to compare the time with `endTime`. -/
  | compare (timer : X) (time : Int)
  /-- `execute`: about to spawn a thread. -/
  | execute (timer : X)
  /-- About to poll the timer that it has started. -/
  | pollTop
  /-- The heap is empty: about to enter the monitor. -/
  | lockEmpty
  /-- About to test whether the queue is empty. -/
  | testEmpty
  /-- About to wait. -/
  | waitEmpty
  /-- The heap is not empty: about to enter the monitor. -/
  | lockTimed (timer : X) (time : Int)
  /-- About to wait. -/
  | waitTimed (timer : X) (time : Int)
  /-- Blocked in `wait`, at most until `wakeUp`. -/
  | waiting (wakeUp : Int)
  /-- About to enter the monitor again. -/
  | woken
  /-- About to leave the monitor. -/
  | unlock
  /-- About to load `cancelCount`. -/
  | loadCount
  /-- `clearCancelledTimers`: about to reset `cancelCount` and the heap. -/
  | storeCount
  /-- About to poll a timer from the old heap. -/
  | clear
deriving DecidableEq, Repr

/-- The next access of another thread. `ret` is the timer inside whose task the thread called the function, if any. -/
inductive Pc (X : Type) where
  | idle
  /-- Inside the task of a timer. -/
  | task (timer : X)
  /-- The task is over: about to clear `isEnabled`. -/
  | finish (timer : X) (duration : Option Int)
  /-- `reload`: about to set `endTime`. -/
  | reload (timer : X) (duration : Int)
  /-- About to set `isEnabled`. -/
  | reloadEnable (timer : X)
  /-- `add`: about to compare the time with `endTime`. -/
  | add (timer : X) (ret : Option X)
  /-- `execute`: about to spawn a thread. -/
  | addExecute (timer : X) (ret : Option X)
  /-- About to enter the monitor. -/
  | addLock (timer : X) (ret : Option X)
  /-- About to add the timer to the queue, and to notify. -/
  | addQueue (timer : X) (ret : Option X)
  /-- About to leave the monitor. -/
  | addUnlock (ret : Option X)
  /-- `start`. -/
  | start (ret : Option X)
  /-- `cancel`: about to load `isEnabled`. -/
  | cancelLoad (timer : X) (ret : Option X)
  /-- About to clear `isEnabled`. -/
  | cancelStore (timer : X) (ret : Option X)
  | addCancelCount (ret : Option X)
deriving DecidableEq, Repr

/-- Where a call returns to. -/
def Pc.back : Option X → Pc X
  | none => .idle
  | some timer => .task timer

/-- Who is inside the monitor. -/
inductive Holder (T : Type) where
  | scheduler
  | thread (t : T)
deriving DecidableEq, Repr

/-- `created` are the timers that exist. `spawned` are the timers for whose task a thread was spawned that has not
    started yet, and `starts` counts how often this has happened. `source` is the local variable of
    `clearCancelledTimers`. -/
structure State (T X : Type) where
  now : Int
  created : X → Bool
  endTime : X → Int
  isEnabled : X → Bool
  queue : List X
  heap : TimerHeap X
  source : TimerHeap X
  cancelCount : Int
  isRunning : Bool
  monitor : Option (Holder T)
  sched : Sched X
  spawned : List X
  starts : X → Nat
  pc : T → Pc X

variable {T : Type}

/-- A new scheduler, no thread in a call. -/
def init (zeroValue : X) (now : Int) : State T X where
  now := now
  created _ := false
  endTime _ := 0
  isEnabled _ := false
  queue := []
  heap := .new zeroValue
  source := .new zeroValue
  cancelCount := 0
  isRunning := false
  monitor := none
  sched := .off
  spawned := []
  starts _ := 0
  pc _ := .idle

variable [DecidableEq T] [DecidableEq X]

/-- Thread `t` moves to `c`. -/
def State.goto (s : State T X) (t : T) (c : Pc X) : State T X := { s with pc := Function.update s.pc t c }

def State.setEnabled (s : State T X) (timer : X) (b : Bool) : State T X :=
  { s with isEnabled := Function.update s.isEnabled timer b }

def State.setEndTime (s : State T X) (timer : X) (time : Int) : State T X :=
  { s with endTime := Function.update s.endTime timer time }

/-- `execute`: a thread is spawned. -/
def State.spawn (s : State T X) (timer : X) : State T X :=
  { s with spawned := s.spawned ++ [timer], starts := Function.update s.starts timer (s.starts timer + 1) }

/-- `monitor.notify()`: only the scheduler waits. -/
def Sched.notify : Sched X → Sched X
  | .waiting _ => .woken
  | c => c

def MAX_TIMEOUT_NS : Int := 0x7FFFFFFFFFFFFFFF

/-! ## The scheduler's thread -/

variable (zeroValue : X)

/-- `count` is compared with the size of the heap. -/
def stepLoadCount (s : State T X) : State T X :=
  if s.cancelCount > s.heap.size / 4 ∧ s.cancelCount > 10 then { s with sched := .storeCount }
  else { s with sched := .consume }

/-- One round of the loop of `clearCancelledTimers`. -/
def stepClear (s : State T X) : State T X :=
  if s.source.size = 0 then { s with sched := .consume }
  else
    let timer := s.source.data 0
    { s with
      source := s.source.poll zeroValue s.endTime
      heap := if s.isEnabled timer then s.heap.add s.endTime timer else s.heap }

def stepSchedule (s : State T X) : State T X :=
  if s.heap.size = 0 then { s with sched := .lockEmpty }
  else if ¬s.isEnabled (s.heap.data 0) then { s with sched := .dropTop }
  else { s with sched := .loadNow (s.heap.data 0) }

def stepConsume (s : State T X) : State T X :=
  match s.queue with
  | [] => { s with sched := .schedule }
  | timer :: rest => { s with queue := rest, heap := s.heap.add s.endTime timer }

/-- The monitor is entered when it is free. -/
def State.enterSched (s : State T X) (c : Sched X) : Option (State T X) :=
  if s.monitor = none then some { s with monitor := some .scheduler, sched := c } else none

/-- The next access of the scheduler's thread. `none`: not started, blocked, or waiting for the monitor. -/
def nextSched (s : State T X) : Option (State T X) :=
  match s.sched with
  | .off => none
  | .consume => some (stepConsume s)
  | .schedule => some (stepSchedule s)
  | .dropTop =>
    some { s with heap := s.heap.poll zeroValue s.endTime, cancelCount := s.cancelCount - 1, sched := .loadCount }
  | .loadNow timer => some { s with sched := .compare timer s.now }
  | .compare timer time =>
    some { s with sched := if time ≥ s.endTime timer then .execute timer else .lockTimed timer time }
  | .execute timer => some { s.spawn timer with sched := .pollTop }
  | .pollTop => some { s with heap := s.heap.poll zeroValue s.endTime, sched := .loadCount }
  | .lockEmpty => s.enterSched .testEmpty
  | .testEmpty => some { s with sched := if s.queue.isEmpty then .waitEmpty else .unlock }
  | .waitEmpty => some { s with monitor := none, sched := .waiting (s.now + MAX_TIMEOUT_NS) }
  | .lockTimed timer time => s.enterSched (.waitTimed timer time)
  | .waitTimed timer time =>
    some { s with monitor := none, sched := .waiting (s.now + min (s.endTime timer - time) MAX_TIMEOUT_NS) }
  | .waiting _ => none
  | .woken => s.enterSched .unlock
  | .unlock => some { s with monitor := none, sched := .loadCount }
  | .loadCount => some (stepLoadCount s)
  | .storeCount => some { s with cancelCount := 0, source := s.heap, heap := .new zeroValue, sched := .clear }
  | .clear => some (stepClear zeroValue s)

/-- The time of `wait` is over. -/
def timeout (s : State T X) : Option (State T X) :=
  match s.sched with
  | .waiting wakeUp => if wakeUp ≤ s.now then some { s with sched := .woken } else none
  | _ => none

/-! ## The other threads -/

/-- `isRunning.compareAndSwap(false, true)`: the winner starts the scheduler's thread. -/
def stepStart (s : State T X) (t : T) (ret : Option X) : State T X :=
  if s.isRunning then s.goto t (.back ret) else { s with isRunning := true, sched := .consume }.goto t (.back ret)

/-- The next access of thread `t`, which stands at the given point. -/
def nextThread (s : State T X) (t : T) : Pc X → Option (State T X)
  | .idle => none
  | .task _ => none
  | .finish timer duration =>
    some ((s.setEnabled timer false).goto t
      (match duration with
      | some d => .reload timer d
      | none => .idle))
  | .reload timer duration => some ((s.setEndTime timer (s.now + duration)).goto t (.reloadEnable timer))
  | .reloadEnable timer => some ((s.setEnabled timer true).goto t (.add timer none))
  | .add timer ret => some (s.goto t (if s.now > s.endTime timer then .addExecute timer ret else .addLock timer ret))
  | .addExecute timer ret => some ((s.spawn timer).goto t (.back ret))
  | .addLock timer ret =>
    if s.monitor = none then some ({ s with monitor := some (.thread t) }.goto t (.addQueue timer ret)) else none
  | .addQueue timer ret =>
    some ({ s with queue := s.queue ++ [timer], sched := s.sched.notify }.goto t (.addUnlock ret))
  | .addUnlock ret => some ({ s with monitor := none }.goto t (.start ret))
  | .start ret => some (stepStart s t ret)
  | .cancelLoad timer ret => some (s.goto t (if s.isEnabled timer then .cancelStore timer ret else .back ret))
  | .cancelStore timer ret => some ((s.setEnabled timer false).goto t (.addCancelCount ret))
  | .addCancelCount ret => some ({ s with cancelCount := s.cancelCount + 1 }.goto t (.back ret))

/-- What a thread does: create or cancel a timer, begin a task for which it was spawned, end it, or go on with the call
    it is in. -/
inductive Act (X : Type) where
  | create (timer : X) (delay : Int)
  | cancel (timer : X)
  | begin (timer : X)
  | finish (duration : Option Int)
  | next
deriving DecidableEq, Repr

/-- The task inside which a thread may call a function: `none` stands for a thread outside all tasks. -/
def Pc.caller : Pc X → Option (Option X)
  | .idle => some none
  | .task timer => some (some timer)
  | _ => none

/-- `Timer(delay, task)`, up to the call of `add`. -/
def State.create (s : State T X) (timer : X) (delay : Int) : State T X :=
  { s with
    created := Function.update s.created timer true
    endTime := Function.update s.endTime timer (s.now + if delay > 0 then delay else 0)
    isEnabled := Function.update s.isEnabled timer true }

def actThread (s : State T X) (t : T) : Act X → Option (State T X)
  | .create timer delay =>
    match (s.pc t).caller with
    | some ret => if s.created timer then none else some ((s.create timer delay).goto t (.add timer ret))
    | none => none
  | .cancel timer =>
    match (s.pc t).caller with
    | some ret => if s.created timer then some (s.goto t (.cancelLoad timer ret)) else none
    | none => none
  | .begin timer =>
    if s.pc t = .idle ∧ timer ∈ s.spawned then some ({ s with spawned := s.spawned.erase timer }.goto t (.task timer))
    else none
  | .finish duration =>
    match s.pc t with
    | .task timer => some (s.goto t (.finish timer duration))
    | _ => none
  | .next => nextThread s t (s.pc t)

/-- One step of the system. -/
inductive Event (T X : Type) where
  | thread (t : T) (a : Act X)
  | scheduler
  | timeout
  | tick (n : Nat)
deriving DecidableEq, Repr

def act (s : State T X) : Event T X → Option (State T X)
  | .thread t a => actThread s t a
  | .scheduler => nextSched zeroValue s
  | .timeout => timeout s
  | .tick n => some { s with now := s.now + n }

end CangjieRuntime.TimerScheduler
