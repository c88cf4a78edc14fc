import CangjieRuntime.Lib.Interleave

/-!
# `Sync.Mutex` — the `CJMutex` protocol

One word packs the mutex: `LOCKED`, `STARVING`, `SPINNING` and, above them, the number of waiters. A thread locks it
by a compare-and-swap, or waits on the semaphore. `unlock` wakes one waiter, in one of two ways: *normally*, by
taking it off the waiter count and setting `SPINNING` on its behalf, after which it competes again; or, when the
mutex is `STARVING`, by handing the mutex over, after which the woken thread sets `LOCKED` itself.

This file is the model: every function as the sequence of its atomic accesses to the shared fields. A thread's
control point says which access comes next and holds the values it has read so far.

* The semaphore is a counter of permits; any thread that waits may take one.
* `state` is an `int64_t`; it is modelled without a bound, and `Sync.Correctness.MutexExclusion` bounds it by
  the number of threads.
* `ownCount` is a `uint64_t`, and is modelled without a bound too. A call adds one acquisition, and the call that adds
  more takes back what `wait` has given up, so only `2 ^ 64` nested calls of one thread would wrap it.
* When a thread counts as starved and whether the processor may spin are free choices of every step.
-/

namespace CangjieRuntime.Mutex

open Interleave

/-! ## The packed word -/

def SPINNING : Nat := 0x1
def STARVING : Nat := 0x2
def LOCKED : Nat := 0x4
def WAITER_UNIT_SHIFT : Nat := 3
def WAITER_UNIT : Nat := 1 <<< WAITER_UNIT_SHIFT
def SPIN_THRESHOLD : Nat := 4

def isSpinning (state : Nat) : Bool := state &&& SPINNING ≠ 0
def isStarving (state : Nat) : Bool := state &&& STARVING ≠ 0
def isLocked (state : Nat) : Bool := state &&& LOCKED ≠ 0
def getWaiters (state : Nat) : Nat := state >>> WAITER_UNIT_SHIFT
def setLocked (state : Nat) : Nat := state ||| LOCKED
def setStarving (state : Nat) : Nat := state ||| STARVING
/-- `state &= ~SPINNING`. -/
def unsetSpinning (state : Nat) : Nat := state - (state &&& SPINNING)
def incWaiters (state : Nat) : Nat := state + WAITER_UNIT

/-! ## Threads -/

/-- The local variables of the slow path. -/
structure Locals where
  count : Nat
  hasSetSpinFlag : Bool
  isStarved : Bool
  trySpinCount : Nat
deriving DecidableEq, Repr

/-- How the code that just set `LOCKED` writes `ownCount`: the fast paths add, the slow path assigns. -/
inductive OwnWrite where
  | add
  | assign
deriving DecidableEq, Repr

/-- The next access of a thread. -/
inductive Pc where
  /-- Outside every call. -/
  | idle
  /-- Slow path: about to load `ownerThreadId`. -/
  | slowEntry (count : Nat)
  /-- The owner locks again: about to add to `ownCount`. -/
  | recur (count : Nat)
  /-- Head of the acquiring loop: about to load `state`. -/
  | loop (l : Locals)
  /-- About to try to become the spinning thread. -/
  | spinCas (l : Locals) (currState : Nat)
  /-- About to try the new state. -/
  | lockCas (l : Locals) (currState : Nat)
  /-- In `MRT_SemAcquire`. -/
  | wait (l : Locals)
  /-- Past `MRT_SemAcquire`, about to load `state`. -/
  | woken (l : Locals)
  /-- Handed the mutex, about to fix `state`. -/
  | handOff (l : Locals) (currState : Nat)
  /-- `LOCKED` is set by this thread; about to write `ownCount`. -/
  | acquired (w : OwnWrite) (count : Nat)
  /-- About to store `ownerThreadId`. -/
  | counted (count : Nat)
  /-- `tryLock`: about to load `state`. -/
  | tryLoad
  | tryCas (currState : Nat)
  /-- `unlock`: the count is zero; about to store `INVALID_THREAD_ID`. -/
  | releasing
  /-- About to subtract `LOCKED`. -/
  | subLocked
  /-- Head of the waking loop. -/
  | wakeLoop (currState : Nat)
  /-- The waking compare-and-swap failed; about to load `state` again. -/
  | reload
  /-- About to `MRT_SemRelease`. -/
  | semRelease
  /-- The branch "inconsistent mutex state". -/
  | inconsistent
deriving DecidableEq, Repr

/-- A thread: its control point, and how many acquisitions it has made and not released yet. The second is not part
    of the code; it is what `ownCount` is compared with. -/
structure Thread where
  pc : Pc
  depth : Nat
deriving DecidableEq, Repr

/-- The fields of `CJMutex`, the semaphore's permits, and the threads. -/
structure State (T : Type) where
  state : Nat
  ownerThreadId : Option T
  ownCount : Nat
  permits : Nat
  thread : T → Thread

variable {T : Type} [DecidableEq T]

/-- `MCC_MutexInit`, no thread in a call. -/
def init : State T := ⟨0, none, 0, 0, fun _ => ⟨.idle, 0⟩⟩

/-- Thread `t` moves to `pc`. -/
def State.goto (s : State T) (t : T) (pc : Pc) : State T :=
  { s with thread := Function.update s.thread t { s.thread t with pc := pc } }

/-- Thread `t` returns to its caller holding `depth` acquisitions. -/
def State.ret (s : State T) (t : T) (depth : Nat) : State T :=
  { s with thread := Function.update s.thread t ⟨.idle, depth⟩ }

/-! ## `MCC_MutexLockSlowPathImpl` -/

/-- The locals a call of the slow path begins with. -/
def Locals.start (count : Nat) : Locals := ⟨count, false, false, 0⟩

/-- The state the slow path tries to install. -/
def newState (l : Locals) (currState : Nat) : Nat :=
  let s := currState
  let s := if !isStarving currState then setLocked s else s
  let s := if isStarving currState || isLocked currState then incWaiters s else s
  let s := if l.isStarved && isLocked currState then setStarving s else s
  if l.hasSetSpinFlag then unsetSpinning s else s

/-- The load at the head of the loop, and what follows it up to the next access. -/
def stepLoop (s : State T) (t : T) (l : Locals) (processorCanSpin : Bool) : State T :=
  let currState := s.state
  if !isStarving currState && isLocked currState && l.trySpinCount < SPIN_THRESHOLD && processorCanSpin then
    if !l.hasSetSpinFlag && !isSpinning currState && 0 < getWaiters currState then s.goto t (.spinCas l currState)
    else s.goto t (.loop { l with trySpinCount := l.trySpinCount + 1 })
  else s.goto t (.lockCas l currState)

def stepSpinCas (s : State T) (t : T) (l : Locals) (currState : Nat) : State T :=
  let l' := { l with trySpinCount := l.trySpinCount + 1 }
  if s.state = currState then
    { s with state := currState ||| SPINNING }.goto t (.loop { l' with hasSetSpinFlag := true })
  else s.goto t (.loop l')

def stepLockCas (s : State T) (t : T) (l : Locals) (currState : Nat) : State T :=
  if s.state = currState then
    let s' := { s with state := newState l currState }
    if !isLocked currState && !isStarving currState then s'.goto t (.acquired .assign l.count)
    else s'.goto t (.wait l)
  else s.goto t (.loop l)

/-- `waitedTooLong` is what the clock says after the wake-up. -/
def stepWoken (s : State T) (t : T) (l : Locals) (waitedTooLong : Bool) : State T :=
  let l := { l with isStarved := l.isStarved || waitedTooLong }
  let currState := s.state
  if !isStarving currState then s.goto t (.loop { l with trySpinCount := 0, hasSetSpinFlag := true })
  else if !isLocked currState && !isSpinning currState && 0 < getWaiters currState then
    s.goto t (.handOff l currState)
  else s.goto t .inconsistent

/-- `fetch_add(LOCKED - WAITER_UNIT)`, less `STARVING` when starvation ends. -/
def stepHandOff (s : State T) (t : T) (l : Locals) (currState : Nat) : State T :=
  let fixed := s.state + LOCKED - WAITER_UNIT
  let fixed := if !l.isStarved || getWaiters currState = 1 then fixed - STARVING else fixed
  { s with state := fixed }.goto t (.acquired .assign l.count)

/-! ## `MRT_MutexUnlockImpl` -/

def stepUnlock (s : State T) (t : T) (count : Nat) : State T :=
  let oldOwnCount := s.ownCount
  let s' := { s with ownCount := oldOwnCount - count }
  let depth := (s.thread t).depth - count
  if count < oldOwnCount then s'.ret t depth
  else { s' with thread := Function.update s.thread t ⟨.releasing, depth⟩ }

def stepSubLocked (s : State T) (t : T) : State T :=
  let currState := s.state - LOCKED
  let s' := { s with state := currState }
  if currState = 0 then s'.goto t .idle
  else if isStarving currState then s'.goto t .semRelease
  else s'.goto t (.wakeLoop currState)

def stepWakeLoop (s : State T) (t : T) (currState : Nat) : State T :=
  if getWaiters currState = 0 || isLocked currState || isSpinning currState || isStarving currState then s.goto t .idle
  else if s.state = currState then
    { s with state := (currState - WAITER_UNIT) ||| SPINNING }.goto t .semRelease
  else s.goto t .reload

/-! ## One step of one thread -/

/-- The next access of thread `t`, which stands at `pc`; `choice` is the environment's answer where the code asks for
    one. `none`: nothing to do, or blocked in `MRT_SemAcquire`. -/
def next (s : State T) (t : T) (choice : Bool) : Pc → Option (State T)
  | .idle => none
  | .slowEntry count =>
    some (s.goto t (if s.ownerThreadId = some t then .recur count else .loop (.start count)))
  | .recur count => some ({ s with ownCount := s.ownCount + count }.ret t ((s.thread t).depth + count))
  | .loop l => some (stepLoop s t l choice)
  | .spinCas l currState => some (stepSpinCas s t l currState)
  | .lockCas l currState => some (stepLockCas s t l currState)
  | .wait l => if 0 < s.permits then some ({ s with permits := s.permits - 1 }.goto t (.woken l)) else none
  | .woken l => some (stepWoken s t l choice)
  | .handOff l currState => some (stepHandOff s t l currState)
  | .acquired .add count => some ({ s with ownCount := s.ownCount + count }.goto t (.counted count))
  | .acquired .assign count => some ({ s with ownCount := count }.goto t (.counted count))
  | .counted count => some ({ s with ownerThreadId := some t }.ret t ((s.thread t).depth + count))
  | .tryLoad =>
    let currState := s.state
    some (s.goto t (if isLocked currState || isStarving currState then .idle else .tryCas currState))
  | .tryCas currState =>
    some (if s.state = currState then { s with state := currState ||| LOCKED }.goto t (.acquired .add 1)
      else s.goto t .idle)
  | .releasing => some ({ s with ownerThreadId := none }.goto t .subLocked)
  | .subLocked => some (stepSubLocked s t)
  | .wakeLoop currState => some (stepWakeLoop s t currState)
  | .reload => some (s.goto t (.wakeLoop s.state))
  | .semRelease => some ({ s with permits := s.permits + 1 }.goto t .idle)
  | .inconsistent => none

/-- What a thread does: call a function of the mutex, or go on with the call it is in. -/
inductive Act where
  | lock (count : Nat)
  | lockSlowPath
  | tryLock
  | unlock (count : Nat)
  | next (choice : Bool)
deriving DecidableEq, Repr

/-- The first access of a call by an idle thread, or the next access of a thread inside one. -/
def act (s : State T) (ta : T × Act) : Option (State T) :=
  match ta.2, (s.thread ta.1).pc with
  -- `MCC_MutexLockImpl`: the fast path
  | .lock count, .idle =>
    some (if s.state = 0 then { s with state := LOCKED }.goto ta.1 (.acquired .add count)
      else s.goto ta.1 (.slowEntry count))
  -- `MCC_MutexLockSlowPath`: called when compiled code has already tried the fast path
  | .lockSlowPath, .idle => some (s.goto ta.1 (.slowEntry 1))
  | .tryLock, .idle =>
    some (if s.ownerThreadId = some ta.1 then s.goto ta.1 (.recur 1)
      else if s.ownerThreadId = none then s.goto ta.1 .tryLoad
      else s)
  | .unlock count, .idle => some (stepUnlock s ta.1 count)
  | .next choice, pc => next s ta.1 choice pc
  | _, _ => none

/-- What the callers guarantee: locks take at least one acquisition, and `unlock` follows `MCC_MutexCheckStatus` and
    gives back no more than is held. -/
def Proper (s : State T) (ta : T × Act) : Prop :=
  match ta.2 with
  | .lock count => 0 < count
  | .unlock count => s.ownerThreadId = some ta.1 ∧ count ≤ s.ownCount
  | _ => True

instance (s : State T) : (ta : T × Act) → Decidable (Proper s ta)
  | (_, .lock count) => inferInstanceAs (Decidable (0 < count))
  | (t, .unlock count) => inferInstanceAs (Decidable (s.ownerThreadId = some t ∧ count ≤ s.ownCount))
  | (_, .lockSlowPath) => inferInstanceAs (Decidable True)
  | (_, .tryLock) => inferInstanceAs (Decidable True)
  | (_, .next _) => inferInstanceAs (Decidable True)

end CangjieRuntime.Mutex
