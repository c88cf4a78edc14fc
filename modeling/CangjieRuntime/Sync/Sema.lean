import CangjieRuntime.Lib.Interleave

/-!
# `Sync.Sema` — the semaphore

`SemaAcquire` takes a permit by a compare-and-swap on `semaVal`, or parks the thread on the wait queue and tries
again when it is woken. `SemaRelease` adds a permit and then wakes one waiter, unless an *unlocked* read of `nwait`
tells it that nobody waits.

This file is the model: the functions as the sequence of their accesses to the shared fields. A thread's control
point says which access comes next and holds the values it has read so far.

* `nwait` and the list are written under the queue's mutex only, so a test of `nwait` and the write that follows it
  are one step. `nwait` itself is read without the mutex by `SemaRelease`, so a write to it and a write to the list
  are two.
* The wait queue is the list of the threads linked into it; `SemaAcquire` waits without a timer, so
  `WaitqueueWakeOne` takes the first.
* Whether a weak compare-and-swap fails for no reason and whether `malloc` fails are free choices of a step.
-/

namespace CangjieRuntime.Sema

def UINT32_MAX : Nat := 2 ^ 32 - 1

/-! ## Threads -/

/-- What a call returned. -/
inductive Ret where
  | success
  /-- `SemaTryAcquire` returned false. -/
  | notAcquired
  | ERRNO_WQ_MAX_NUM
  | ERRNO_MALLOC_FAILED
  | ERRNO_SEMA_OVERFLOW
deriving DecidableEq, Repr

/-- The calls of `SemaTryAcquire`. -/
inductive Site where
  /-- By the user. -/
  | user
  /-- The first thing `SemaAcquire` does. -/
  | fast (head : Bool)
  /-- The callback of `WaitqueuePush`, under the mutex. -/
  | callback (head : Bool)
  /-- By a thread that was woken. -/
  | retry (head : Bool)
deriving DecidableEq, Repr

/-- The next access of a thread. -/
inductive Pc (T : Type) where
  /-- Outside every call, with what the last one returned. -/
  | idle (last : Ret)
  /-- `SemaTryAcquire`: about to load `semaVal`. -/
  | tryLoad (site : Site)
  | tryCas (site : Site) (semVal : Nat)
  /-- `WaitqueuePark`: about to lock the mutex. -/
  | parkLock (head : Bool)
  /-- `WaitqueuePush`: about to count itself as a waiter. -/
  | pushCount (head : Bool)
  /-- The callback returned false; about to link the new node. -/
  | pushLink (head : Bool)
  /-- Not going to wait; about to take itself off the count. -/
  | pushUncount (ret : Ret)
  /-- About to unlock the mutex and return from `WaitqueuePark`. -/
  | parkUnlock (ret : Ret)
  /-- Linked; about to be switched off, and the mutex unlocked. -/
  | park (head : Bool)
  /-- Switched off. -/
  | asleep (head : Bool)
  /-- `SemaRelease`: about to load `semaVal`. -/
  | releaseLoad
  | releaseCas (oldValue : Nat)
  /-- The permit is added; about to read `nwait`. -/
  | releaseRead
  /-- `WaitqueueWakeOne`: about to lock the mutex. -/
  | wakeLock
  /-- About to remove the first node. -/
  | wakeRemove
  /-- The node of `waiter` is removed; about to decrement `nwait`. -/
  | wakeUncount (waiter : T)
  /-- About to make `waiter` ready. -/
  | wakeReady (waiter : T)
  /-- About to unlock the mutex. -/
  | wakeUnlock
deriving DecidableEq, Repr

/-- The semaphore, its wait queue, and the threads. The two counters are not part of the code: they count the
    additions and the subtractions that `semaVal` has seen. -/
structure State (T : Type) where
  semaVal : Nat
  nwait : Nat
  mutex : Option T
  queue : List T
  increments : Nat
  decrements : Nat
  pc : T → Pc T

variable {T : Type} [DecidableEq T]

/-- `SemaNew`, no thread in a call. -/
def semaNew (semaVal : Nat) : State T := ⟨semaVal, 0, none, [], 0, 0, fun _ => .idle .success⟩

/-- Thread `t` moves to `c`. -/
def State.goto (s : State T) (t : T) (c : Pc T) : State T := { s with pc := Function.update s.pc t c }

/-! ## `SemaTryAcquire` -/

/-- Where a failed attempt leads. -/
def Site.failed : Site → Pc T
  | .user => .idle .notAcquired
  | .fast head => .parkLock head
  | .callback head => .pushLink head
  | .retry head => .parkLock head

/-- Where a successful attempt leads. -/
def Site.acquired : Site → Pc T
  | .callback _ => .pushUncount .success
  | _ => .idle .success

def stepTryLoad (s : State T) (t : T) (site : Site) : State T :=
  if s.semaVal = 0 then s.goto t site.failed else s.goto t (.tryCas site s.semaVal)

def stepTryCas (s : State T) (t : T) (site : Site) (semVal : Nat) (spurious : Bool) : State T :=
  if s.semaVal = semVal ∧ !spurious then
    { s with semaVal := semVal - 1, decrements := s.decrements + 1 }.goto t site.acquired
  else s.goto t (.tryLoad site)

/-! ## `WaitqueuePark` -/

def stepPushCount (s : State T) (t : T) (head : Bool) : State T :=
  if s.nwait = UINT32_MAX then s.goto t (.parkUnlock .ERRNO_WQ_MAX_NUM)
  else { s with nwait := s.nwait + 1 }.goto t (.tryLoad (.callback head))

def stepPushLink (s : State T) (t : T) (head mallocFails : Bool) : State T :=
  if mallocFails then s.goto t (.pushUncount .ERRNO_MALLOC_FAILED)
  else { s with queue := if head then t :: s.queue else s.queue ++ [t] }.goto t (.park head)

/-! ## `SemaRelease` -/

def stepReleaseLoad (s : State T) (t : T) : State T :=
  if s.semaVal = UINT32_MAX then s.goto t (.idle .ERRNO_SEMA_OVERFLOW) else s.goto t (.releaseCas s.semaVal)

def stepReleaseCas (s : State T) (t : T) (oldValue : Nat) : State T :=
  if s.semaVal = oldValue then
    { s with semaVal := oldValue + 1, increments := s.increments + 1 }.goto t .releaseRead
  else s.goto t .releaseLoad

/-- `WaitqueueWakeOne` up to the removal. A counted waiter that is not in the list would be a null pointer. -/
def stepWakeRemove (s : State T) (t : T) : Option (State T) :=
  if s.nwait = 0 then some (s.goto t .wakeUnlock)
  else
    match s.queue with
    | [] => none
    | waiter :: rest => some ({ s with queue := rest }.goto t (.wakeUncount waiter))

/-- `CJThreadReady`: the waiter goes on after its `WaitqueuePark`. -/
def stepWakeReady (s : State T) (t waiter : T) : Option (State T) :=
  match s.pc waiter with
  | .asleep head => some ((s.goto waiter (.tryLoad (.retry head))).goto t .wakeUnlock)
  | _ => none

/-! ## One step of one thread -/

/-- The next access of thread `t`, which stands at `pc`; `choice` is the environment's answer where the code asks for
    one. `none`: nothing to do, blocked on the mutex, asleep, or an access that must not happen. -/
def next (s : State T) (t : T) (choice : Bool) : Pc T → Option (State T)
  | .idle _ => none
  | .tryLoad site => some (stepTryLoad s t site)
  | .tryCas site semVal => some (stepTryCas s t site semVal choice)
  | .parkLock head => if s.mutex = none then some ({ s with mutex := some t }.goto t (.pushCount head)) else none
  | .pushCount head => some (stepPushCount s t head)
  | .pushLink head => some (stepPushLink s t head choice)
  | .pushUncount ret => some ({ s with nwait := s.nwait - 1 }.goto t (.parkUnlock ret))
  | .parkUnlock ret => some ({ s with mutex := none }.goto t (.idle ret))
  | .park head => some ({ s with mutex := none }.goto t (.asleep head))
  | .asleep _ => none
  | .releaseLoad => some (stepReleaseLoad s t)
  | .releaseCas oldValue => some (stepReleaseCas s t oldValue)
  | .releaseRead => some (s.goto t (if s.nwait = 0 then .idle .success else .wakeLock))
  | .wakeLock => if s.mutex = none then some ({ s with mutex := some t }.goto t .wakeRemove) else none
  | .wakeRemove => stepWakeRemove s t
  | .wakeUncount waiter => some ({ s with nwait := s.nwait - 1 }.goto t (.wakeReady waiter))
  | .wakeReady waiter => stepWakeReady s t waiter
  -- the two results of `WaitqueueWakeOne` are both a success of `SemaRelease`
  | .wakeUnlock => some ({ s with mutex := none }.goto t (.idle .success))

/-- What a thread does: call a function of the semaphore, or go on with the call it is in. -/
inductive Act where
  | tryAcquire
  | acquire (head : Bool)
  | release
  | next (choice : Bool)
deriving DecidableEq, Repr

/-- A call by an idle thread, or the next access of a thread inside one. -/
def act (s : State T) (ta : T × Act) : Option (State T) :=
  match ta.2, s.pc ta.1 with
  | .tryAcquire, .idle _ => some (s.goto ta.1 (.tryLoad .user))
  | .acquire head, .idle _ => some (s.goto ta.1 (.tryLoad (.fast head)))
  | .release, .idle _ => some (s.goto ta.1 .releaseLoad)
  | .next choice, pc => next s ta.1 choice pc
  | _, _ => none

/-! ## Wake-ups under way -/

/-- Between the addition of a permit and the wake-up of a waiter. -/
def Pc.releasing : Pc T → Bool
  | .releaseRead => true
  | .wakeLock => true
  | .wakeRemove => true
  | .wakeUncount _ => true
  | .wakeReady _ => true
  | _ => false

/-- Woken, and its new attempt at a permit not finished. -/
def Pc.woken : Pc T → Bool
  | .tryLoad (.retry _) => true
  | .tryCas (.retry _) _ => true
  | _ => false

end CangjieRuntime.Sema
