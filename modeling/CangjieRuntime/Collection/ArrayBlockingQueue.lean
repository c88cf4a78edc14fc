import CangjieRuntime.Lib.Word
import CangjieRuntime.Lib.Interleave

/-!
# `Collection.ArrayBlockingQueue` — the bounded queue on an array

`allocated` and `reserved` count the elements that were added and removed; an element with number `n` lies in slot
`n % capacity` of the buffer. A thread takes the number by a compare-and-swap on the counter and then works on the slot,
which has a state byte of its own: *writeable*, *readable* or *locked*, with the parity of the round `n / capacity` that
it is in. `peek` locks the slot while it reads it.

A thread whose `add` finds the queue full waits in `receiveMonitor`, and is notified by a thread that has removed an
element, if `sendQSize` tells it that somebody waits; `remove` likewise in `sendMonitor`.

This file is the model, as the sequence of accesses of each function.

* `puts`, `takes`, `sawFull`, `sawEmpty` are history: the elements in the order of the compare-and-swaps on `allocated`,
  the threads in the order of those on `reserved`, and whether the queue was full or empty at some moment of a thread's
  last call of `tryAdd`, `tryRemove` or `peek`.
* A thread that waits in a monitor is in its list `waiters`. `notify` takes one of them, no matter which.
* `notified` tells whether a blocking call was notified since it waited for the last time.
-/

namespace CangjieRuntime.ArrayBlockingQueue

open Word

/-! ## State bytes -/

def STATE_BITS : Nat := 3

def ROUND_BIT : Nat := 2

def WRITEABLE : Nat := 0

def READABLE : Nat := 1

def LOCK : Nat := 2

def WRITEABLE_EVEN : Nat := WRITEABLE

def WRITEABLE_ODD : Nat := (1 <<< ROUND_BIT) ||| WRITEABLE

def READABLE_EVEN : Nat := READABLE

def READABLE_ODD : Nat := (1 <<< ROUND_BIT) ||| READABLE

def LOCK_EVEN : Nat := LOCK

def LOCK_ODD : Nat := (1 <<< ROUND_BIT) ||| LOCK

def readableState (roundBit : Nat) : Nat := if roundBit = 1 then READABLE_ODD else READABLE_EVEN

/-- The state for the next round. -/
def writeableState (roundBit : Nat) : Nat := if roundBit = 1 then WRITEABLE_EVEN else WRITEABLE_ODD

def lockState (roundBit : Nat) : Nat := if roundBit = 1 then LOCK_ODD else LOCK_EVEN

def matchState (round roundBit state expectState : Nat) : Bool := round &&& 1 == roundBit && state == expectState

/-- The capacity of a queue is a positive `Int64`. -/
structure Capacity where
  toNat : Nat
  pos : 0 < toNat
  lt : toNat < 2 ^ 63

def Capacity.getRound (capacity : Capacity) (roundIndex : Nat) : Nat := roundIndex / capacity.toNat

def Capacity.getIndex (capacity : Capacity) (roundIndex : Nat) : Nat := roundIndex % capacity.toNat

/-- The slot that `CjStdSyncStateCas` works on. Its parameter is a C `int`, which keeps the lower 32 bits of the index.
    With the highest of them set it is negative, and the access is outside the array. -/
def casIndex (index : Nat) : Option Nat := if index % 2 ^ 32 < 2 ^ 31 then some (index % 2 ^ 32) else none

/-! ## Monitors -/

structure Monitor (T : Type) where
  owner : Option T
  waiters : List T

def Monitor.new {T : Type} : Monitor T := ⟨none, []⟩

/-! ## Threads -/

/-- What a call returned. With an element comes its number. -/
inductive Ret (E : Type) where
  | unit
  | added (b : Bool)
  | removed (r : Option (Nat × E))
  | peeked (r : Option E)
deriving DecidableEq, Repr

/-- Who called `tryAdd` or `tryRemove`: the user, or `add` and `remove`. -/
inductive Caller where
  | user
  | blocking (notified : Bool)
deriving DecidableEq, Repr

/-- The next access of a thread. -/
inductive Pc (E : Type) where
  /-- Outside every call, with what the last one returned. -/
  | idle (last : Ret E)
  /-- `tryAdd`: about to load `allocated`. -/
  | addLoad (caller : Caller) (element : E)
  /-- About to load the state of the slot. -/
  | addState (caller : Caller) (element : E) (roundIndex : Nat)
  /-- The slot is writeable. -/
  | addCas (caller : Caller) (element : E) (roundIndex roundState : Nat)
  /-- It is not: about to load `reserved`. -/
  | addFull (caller : Caller) (element : E) (roundIndex : Nat)
  /-- About to write the buffer. -/
  | addWrite (element : E) (roundIndex roundState : Nat)
  /-- About to store the state. -/
  | addPublish (roundIndex roundState : Nat)
  /-- About to load `receiveQSize`. -/
  | addWaiters
  | addNotifyLock
  | addNotify
  | addNotifyUnlock
  /-- `add`: `tryAdd` has failed; about to lock `receiveMonitor`. -/
  | addLock (element : E) (notified : Bool)
  /-- About to increment `sendQSize`. -/
  | addCount (element : E) (notified : Bool)
  /-- `isFull`. -/
  | fullAllocated (element : E) (notified : Bool)
  | fullReserved (element : E) (notified : Bool) (allocated : Nat)
  /-- About to wait. -/
  | addWait (element : E) (notified : Bool)
  /-- Waiting to be notified. -/
  | addAsleep (element : E)
  /-- Notified: about to lock the monitor again. -/
  | addWoken (element : E)
  /-- About to decrement `sendQSize`. -/
  | addUncount (element : E) (notified : Bool)
  | addUnlock (element : E) (notified : Bool)
  /-- `tryRemove`: about to load `reserved`. -/
  | removeLoad (caller : Caller)
  /-- About to load the state of the slot. -/
  | removeState (caller : Caller) (roundIndex : Nat)
  /-- The slot is readable. -/
  | removeCas (caller : Caller) (roundIndex roundState : Nat)
  /-- It is not: about to load `allocated`. -/
  | removeEmpty (caller : Caller) (roundIndex : Nat)
  /-- About to read the buffer. -/
  | removeRead (roundIndex roundState : Nat)
  /-- About to clear the slot of the buffer. -/
  | removeClear (roundIndex roundState : Nat) (element : E)
  /-- The loop that makes the slot writeable. -/
  | removeRelease (roundIndex roundState : Nat) (element : E)
  /-- About to load `sendQSize`. -/
  | removeWaiters (roundIndex : Nat) (element : E)
  | removeNotifyLock (roundIndex : Nat) (element : E)
  | removeNotify (roundIndex : Nat) (element : E)
  | removeNotifyUnlock (roundIndex : Nat) (element : E)
  /-- `remove`: `tryRemove` has failed; about to lock `sendMonitor`. -/
  | removeLock (notified : Bool)
  /-- About to increment `receiveQSize`. -/
  | removeCount (notified : Bool)
  /-- `size`. -/
  | sizeReserved (notified : Bool)
  | sizeAllocated (notified : Bool) (front : Nat)
  /-- About to wait. -/
  | removeWait (notified : Bool)
  /-- Waiting to be notified. -/
  | removeAsleep
  /-- Notified: about to lock the monitor again. -/
  | removeWoken
  /-- About to decrement `receiveQSize`. -/
  | removeUncount (notified : Bool)
  | removeUnlock (notified : Bool)
  /-- `peek`: about to load `reserved`. -/
  | peekLoad
  | peekState (roundIndex : Nat)
  /-- The slot is readable: about to lock it. -/
  | peekCas (roundIndex roundState : Nat)
  /-- It is not: about to load `allocated`. -/
  | peekEmpty (roundIndex : Nat)
  /-- The slot is locked: about to load `reserved` again. -/
  | peekCheck (roundIndex roundState : Nat)
  | peekRead (roundIndex roundState : Nat)
  /-- About to unlock the slot, with the element it has read if it is the first one. -/
  | peekStore (roundIndex roundState : Nat) (r : Option E)
  /-- An access outside the array of the states was made: nothing is known of what follows. -/
  | outside
deriving DecidableEq, Repr

/-- Inside `tryAdd`, `tryRemove` or `peek`. -/
def Pc.trying {E : Type} : Pc E → Bool
  | .idle _ => false
  | .addLock .. | .addCount .. | .fullAllocated .. | .fullReserved .. | .addWait .. | .addAsleep .. | .addWoken ..
  | .addUncount .. | .addUnlock .. => false
  | .removeLock .. | .removeCount .. | .sizeReserved .. | .sizeAllocated .. | .removeWait .. | .removeAsleep
    | .removeWoken
  | .removeUncount .. | .removeUnlock .. => false
  | _ => true

structure State (T E : Type) where
  buffer : Nat → E
  state : Nat → Nat
  allocated : Nat
  reserved : Nat
  sendQSize : Nat
  receiveQSize : Nat
  sendMonitor : Monitor T
  receiveMonitor : Monitor T
  puts : List E
  takes : List T
  sawFull : T → Bool
  sawEmpty : T → Bool
  pc : T → Pc E

variable {T E : Type}

/-- A new queue, no thread in a call. -/
def newQueue (zeroValue : E) : State T E where
  buffer _ := zeroValue
  state _ := 0
  allocated := 0
  reserved := 0
  sendQSize := 0
  receiveQSize := 0
  sendMonitor := .new
  receiveMonitor := .new
  puts := []
  takes := []
  sawFull _ := false
  sawEmpty _ := false
  pc _ := .idle .unit

variable (capacity : Capacity) (zeroValue : E)

/-- The number of elements present. -/
def State.count (s : State T E) : Nat := s.puts.length - s.takes.length

variable [DecidableEq T]

/-- Thread `t` moves to `c`. -/
def State.goto (s : State T E) (t : T) (c : Pc E) : State T E := { s with pc := Function.update s.pc t c }

/-- `lock`: possible when the monitor is free. -/
def Monitor.lock (m : Monitor T) (t : T) : Option (Monitor T) :=
  if m.owner = none then some { m with owner := some t } else none

def Monitor.unlock (m : Monitor T) : Monitor T := { m with owner := none }

/-- The first half of `wait`: the monitor is left. -/
def Monitor.wait (m : Monitor T) (t : T) : Monitor T := { owner := none, waiters := m.waiters ++ [t] }

/-- Thread `u` is no longer waiting. -/
def Monitor.remove (m : Monitor T) (u : T) : Monitor T := { m with waiters := m.waiters.erase u }

/-! ## `tryAdd` and `add` -/

def stepAddState (s : State T E) (t : T) (caller : Caller) (element : E) (roundIndex : Nat) : State T E :=
  let roundState := s.state (capacity.getIndex roundIndex)
  if matchState (capacity.getRound roundIndex) (roundState >>> ROUND_BIT) (roundState &&& STATE_BITS) WRITEABLE then
    s.goto t (.addCas caller element roundIndex roundState)
  else s.goto t (.addFull caller element roundIndex)

def stepAddCas (s : State T E) (t : T) (caller : Caller) (element : E) (roundIndex roundState : Nat) : State T E :=
  if s.allocated = roundIndex then
    { s with allocated := add64 roundIndex 1, puts := s.puts ++ [element] }.goto t
      (.addWrite element roundIndex roundState)
  else s.goto t (.addLoad caller element)

/-- `tryAdd` has returned `false`. -/
def Caller.addFailed (element : E) : Caller → Pc E
  | .user => .idle (.added false)
  | .blocking notified => .addLock element notified

def stepAddFull (s : State T E) (t : T) (caller : Caller) (element : E) (roundIndex : Nat) : State T E :=
  s.goto t (if roundIndex ≥ add64 s.reserved capacity.toNat then caller.addFailed element else .addLoad caller element)

def stepFullReserved (s : State T E) (t : T) (element : E) (notified : Bool) (allocated : Nat) : State T E :=
  s.goto t (if allocated ≥ add64 s.reserved capacity.toNat then .addWait element notified
    else .addUncount element notified)

/-! ## `tryRemove` and `remove` -/

def stepRemoveState (s : State T E) (t : T) (caller : Caller) (roundIndex : Nat) : State T E :=
  let roundState := s.state (capacity.getIndex roundIndex)
  if matchState (capacity.getRound roundIndex) (roundState >>> ROUND_BIT) (roundState &&& STATE_BITS) READABLE then
    s.goto t (.removeCas caller roundIndex roundState)
  else s.goto t (.removeEmpty caller roundIndex)

def stepRemoveCas (s : State T E) (t : T) (caller : Caller) (roundIndex roundState : Nat) : State T E :=
  if s.reserved = roundIndex then
    { s with reserved := add64 roundIndex 1, takes := s.takes ++ [t] }.goto t (.removeRead roundIndex roundState)
  else s.goto t (.removeLoad caller)

/-- `tryRemove` has returned `None`. -/
def Caller.removeFailed : Caller → Pc E
  | .user => .idle (.removed none)
  | .blocking notified => .removeLock notified

/-- The value of `size`. `none`: the subtraction or the conversion overflows, which throws. -/
def size (front rear : Nat) : Option Nat := if front ≤ rear ∧ rear - front < 2 ^ 63 then some (rear - front) else none

def stepRemoveRelease (s : State T E) (t : T) (roundIndex roundState : Nat) (element : E) : State T E :=
  match casIndex (capacity.getIndex roundIndex) with
  | none => s.goto t .outside
  | some index =>
    if s.state index = roundState then
      { s with state := Function.update s.state index (writeableState (roundState >>> ROUND_BIT)) }.goto t
        (.removeWaiters roundIndex element)
    else s

/-! ## `peek` -/

def stepPeekState (s : State T E) (t : T) (roundIndex : Nat) : State T E :=
  let roundState := s.state (capacity.getIndex roundIndex)
  if roundState &&& STATE_BITS = READABLE then s.goto t (.peekCas roundIndex roundState)
  else s.goto t (.peekEmpty roundIndex)

def stepPeekCas (s : State T E) (t : T) (roundIndex roundState : Nat) : State T E :=
  match casIndex (capacity.getIndex roundIndex) with
  | none => s.goto t .outside
  | some index =>
    if s.state index = roundState then
      { s with state := Function.update s.state index (lockState (roundState >>> ROUND_BIT)) }.goto t
        (.peekCheck roundIndex roundState)
    else s.goto t .peekLoad

def stepPeekStore (s : State T E) (t : T) (roundIndex roundState : Nat) (r : Option E) : State T E :=
  { s with state := Function.update s.state (capacity.getIndex roundIndex) roundState }.goto t
    (if r.isSome then .idle (.peeked r) else .peekLoad)

/-! ## One step of one thread -/

/-- The next access of thread `t`, which stands at the given point. `none`: nothing to do, waiting to be notified,
    waiting for a monitor, about to notify a waiter, stopped by an exception, or outside the array. -/
def next (s : State T E) (t : T) : Pc E → Option (State T E)
  | .idle _ => none
  | .addLoad caller element => some (s.goto t (.addState caller element s.allocated))
  | .addState caller element roundIndex => some (stepAddState capacity s t caller element roundIndex)
  | .addCas caller element roundIndex roundState => some (stepAddCas s t caller element roundIndex roundState)
  | .addFull caller element roundIndex => some (stepAddFull capacity s t caller element roundIndex)
  | .addWrite element roundIndex roundState =>
    some ({ s with buffer := Function.update s.buffer (capacity.getIndex roundIndex) element }.goto t
      (.addPublish roundIndex roundState))
  | .addPublish roundIndex roundState =>
    some ({ s with
      state := Function.update s.state (capacity.getIndex roundIndex)
        (readableState (roundState >>> ROUND_BIT)) }.goto t .addWaiters)
  | .addWaiters => some (s.goto t (if s.receiveQSize ≠ 0 then .addNotifyLock else .idle (.added true)))
  | .addNotifyLock => (s.sendMonitor.lock t).map fun m => { s with sendMonitor := m }.goto t .addNotify
  | .addNotify => if s.sendMonitor.waiters = [] then some (s.goto t .addNotifyUnlock) else none
  | .addNotifyUnlock => some ({ s with sendMonitor := s.sendMonitor.unlock }.goto t (.idle (.added true)))
  | .addLock element notified =>
    (s.receiveMonitor.lock t).map fun m => { s with receiveMonitor := m }.goto t (.addCount element notified)
  | .addCount element notified =>
    some ({ s with sendQSize := add64 s.sendQSize 1 }.goto t (.fullAllocated element notified))
  | .fullAllocated element notified => some (s.goto t (.fullReserved element notified s.allocated))
  | .fullReserved element notified allocated => some (stepFullReserved capacity s t element notified allocated)
  | .addWait element _ => some ({ s with receiveMonitor := s.receiveMonitor.wait t }.goto t (.addAsleep element))
  | .addAsleep _ => none
  | .addWoken element => (s.receiveMonitor.lock t).map fun m =>
      { s with receiveMonitor := m }.goto t (.addUncount element true)
  | .addUncount element notified =>
    some ({ s with sendQSize := sub64 s.sendQSize 1 }.goto t (.addUnlock element notified))
  | .addUnlock element notified =>
    some ({ s with receiveMonitor := s.receiveMonitor.unlock }.goto t (.addLoad (.blocking notified) element))
  | .removeLoad caller => some (s.goto t (.removeState caller s.reserved))
  | .removeState caller roundIndex => some (stepRemoveState capacity s t caller roundIndex)
  | .removeCas caller roundIndex roundState => some (stepRemoveCas s t caller roundIndex roundState)
  | .removeEmpty caller roundIndex =>
    some (s.goto t (if roundIndex ≥ s.allocated then caller.removeFailed else .removeLoad caller))
  | .removeRead roundIndex roundState =>
    some (s.goto t (.removeClear roundIndex roundState (s.buffer (capacity.getIndex roundIndex))))
  | .removeClear roundIndex roundState element =>
    some ({ s with buffer := Function.update s.buffer (capacity.getIndex roundIndex) zeroValue }.goto t
      (.removeRelease roundIndex roundState element))
  | .removeRelease roundIndex roundState element => some (stepRemoveRelease capacity s t roundIndex roundState element)
  | .removeWaiters roundIndex element =>
    some (s.goto t
      (if s.sendQSize ≠ 0 then .removeNotifyLock roundIndex element else .idle (.removed (some (roundIndex, element)))))
  | .removeNotifyLock roundIndex element =>
    (s.receiveMonitor.lock t).map fun m => { s with receiveMonitor := m }.goto t (.removeNotify roundIndex element)
  | .removeNotify roundIndex element =>
    if s.receiveMonitor.waiters = [] then some (s.goto t (.removeNotifyUnlock roundIndex element)) else none
  | .removeNotifyUnlock roundIndex element =>
    some ({ s with receiveMonitor := s.receiveMonitor.unlock }.goto t (.idle (.removed (some (roundIndex, element)))))
  | .removeLock notified => (s.sendMonitor.lock t).map fun m =>
      { s with sendMonitor := m }.goto t (.removeCount notified)
  | .removeCount notified => some ({ s with receiveQSize := add64 s.receiveQSize 1 }.goto t (.sizeReserved notified))
  | .sizeReserved notified => some (s.goto t (.sizeAllocated notified s.reserved))
  | .sizeAllocated notified front =>
    (size front s.allocated).map fun n => s.goto t (if n = 0 then .removeWait notified else .removeUncount notified)
  | .removeWait _ => some ({ s with sendMonitor := s.sendMonitor.wait t }.goto t .removeAsleep)
  | .removeAsleep => none
  | .removeWoken => (s.sendMonitor.lock t).map fun m => { s with sendMonitor := m }.goto t (.removeUncount true)
  | .removeUncount notified => some ({ s with receiveQSize := sub64 s.receiveQSize 1 }.goto t (.removeUnlock notified))
  | .removeUnlock notified =>
    some ({ s with sendMonitor := s.sendMonitor.unlock }.goto t (.removeLoad (.blocking notified)))
  | .peekLoad => some (s.goto t (.peekState s.reserved))
  | .peekState roundIndex => some (stepPeekState capacity s t roundIndex)
  | .peekCas roundIndex roundState => some (stepPeekCas capacity s t roundIndex roundState)
  | .peekEmpty roundIndex => some (s.goto t (if roundIndex ≥ s.allocated then .idle (.peeked none) else .peekLoad))
  | .peekCheck roundIndex roundState =>
    some (s.goto t (if s.reserved = roundIndex then .peekRead roundIndex roundState
      else .peekStore roundIndex roundState none))
  | .peekRead roundIndex roundState =>
    some (s.goto t (.peekStore roundIndex roundState (some (s.buffer (capacity.getIndex roundIndex)))))
  | .peekStore roundIndex roundState r => some (stepPeekStore capacity s t roundIndex roundState r)
  | .outside => none

/-- A notification of the waiting thread `u`. -/
def notify (s : State T E) (t u : T) : Option (State T E) :=
  match s.pc t, s.pc u with
  | .addNotify, .removeAsleep =>
    if u ∈ s.sendMonitor.waiters then
      some (({ s with sendMonitor := s.sendMonitor.remove u }.goto u .removeWoken).goto t .addNotifyUnlock)
    else none
  | .removeNotify roundIndex element, .addAsleep element' =>
    if u ∈ s.receiveMonitor.waiters then
      some (({ s with receiveMonitor := s.receiveMonitor.remove u }.goto u (.addWoken element')).goto t
        (.removeNotifyUnlock roundIndex element))
    else none
  | _, _ => none

/-- What a thread does: call a function of the queue, or go on with the call it is in. -/
inductive Act (T E : Type) where
  | tryAdd (element : E)
  | add (element : E)
  | tryRemove
  | remove
  | peek
  | next
  | notify (u : T)
deriving DecidableEq, Repr

/-- Where a call begins. -/
def entry : Act T E → Option (Pc E)
  | .tryAdd element => some (.addLoad .user element)
  | .add element => some (.addLoad (.blocking false) element)
  | .tryRemove => some (.removeLoad .user)
  | .remove => some (.removeLoad (.blocking false))
  | .peek => some .peekLoad
  | .next => none
  | .notify _ => none

/-- A call by an idle thread, or the next access of a thread inside one. -/
def step (s : State T E) (t : T) : Act T E → Option (State T E)
  | .next => next capacity zeroValue s t (s.pc t)
  | .notify u => notify s t u
  | a =>
    match entry a, s.pc t with
    | some c, .idle _ => some (s.goto t c)
    | _, _ => none

/-- The note of a thread that goes from one point to another: cleared at the beginning of a call, set if the fact holds
    now, and left alone between the calls. -/
def note (before after : Pc E) (saw now : Bool) : Bool := if after.trying then before.trying && saw || now else saw

/-- Notes for every thread inside a call whether the queue is full or empty after the step. -/
def State.observe (s s' : State T E) : State T E :=
  { s' with
    sawFull := fun t => note (s.pc t) (s'.pc t) (s.sawFull t) (decide (s'.count = capacity.toNat))
    sawEmpty := fun t => note (s.pc t) (s'.pc t) (s.sawEmpty t) (decide (s'.count = 0)) }

def act (s : State T E) (ta : T × Act T E) : Option (State T E) :=
  (step capacity zeroValue s ta.1 ta.2).map (s.observe capacity)

end CangjieRuntime.ArrayBlockingQueue
