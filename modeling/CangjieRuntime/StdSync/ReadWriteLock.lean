import CangjieRuntime.Lib.Word
import CangjieRuntime.Lib.Interleave

/-!
# `StdSync.ReadWriteLock` — the read-write lock of `std.sync`

`ReadWriteLockImpl` keeps the number of read holds and of write holds in one atomic word. A thread takes the lock by a
compare-and-swap on that word, or, where the code knows that nobody interferes, by an unconditional addition; the owner
of the write lock and each thread's own read count are separate variables, written in steps of their own. A thread that
cannot take the lock waits in one of two lists, and an unlocker notifies one list or the other.

This file is the model: the functions as the sequence of their accesses. A thread's control point says which access
comes next and holds the values it has read so far.

* A thread's own read count is written in a step of its own, and read together with the access before it: no other
  thread sees it.
* A waiting thread has one node at a time, so a list is the list of the threads whose nodes are in it, the newest first.
  `NotifyOnce` carries one bit: a thread in `asleep` becomes `woken`.
* A thread in the `wait` of a condition may go on at any time: it was notified, or its time is over.
-/

namespace CangjieRuntime.ReadWriteLock

open Word

/-! ## The state word -/

def SHARE_UNIT : Nat := 2 ^ 32

def WRITE_UNIT : Nat := 1

def NO_THREAD : Int := -1

def decodeWriteCount (state : Nat) : Nat := state &&& 0xFFFFFFFF

def decodeShareCount (state : Nat) : Nat := state >>> 32

/-! ## Threads -/

/-- The identifiers of threads are positive, and no two threads share one. -/
structure ThreadIds (T : Type) where
  id : T → Int
  pos : ∀ t, 0 < id t
  inj : Function.Injective id

/-- The exceptions of `ReadWriteLockImpl`. -/
inductive Fault where
  /-- "Inconsistent state." -/
  | inconsistent
  /-- "Read-Lock is not locked by current thread." -/
  | readNotLocked
  /-- "Read-Lock is hold by the current thread." -/
  | readHeld
  /-- "Write-Lock is not locked by current thread." -/
  | writeNotLocked
deriving DecidableEq, Repr

/-- What a call returned. -/
inductive Ret where
  | unit
  | bool (b : Bool)
  | throw (fault : Fault)
deriving DecidableEq, Repr

/-- `readerSyncList` and `writerSyncList`. -/
inductive Side where
  | reader
  | writer
deriving DecidableEq, Repr

/-- The four calls of `waitIf`. -/
inductive Wait where
  /-- `readLock`, another thread has the write lock. -/
  | readerWrite
  /-- `readLock` in fair mode, there are waiting writers. -/
  | readerFair
  /-- `writeLock`, another thread has the write lock. -/
  | writerWrite (writeCount : Nat)
  /-- `writeLock`, there are read holds. -/
  | writerShare (writeCount : Nat)
deriving DecidableEq, Repr

/-- Who called `writeUnlock(writeCount)`: the user, or the `wait` of a condition. -/
inductive Caller where
  | user
  | condition (writeCount : Nat)
deriving DecidableEq, Repr

/-- The calls of `notifyOne` and `notifyAll`. -/
inductive Notice where
  /-- `readUnlock`: the last reader notifies one writer. -/
  | lastReader
  /-- `writeUnlock`, case 2.1: all readers. -/
  | downgrade (caller : Caller)
  /-- `writeUnlock`, case 2.2, fair: all readers, and if there are none, one writer. -/
  | fairReaders (caller : Caller)
  | fairWriter (caller : Caller)
  /-- `writeUnlock`, case 2.2, unfair: one writer, and if there is none, all readers. -/
  | unfairWriter (caller : Caller)
  | unfairReaders (caller : Caller)
deriving DecidableEq, Repr

/-- The next access of a thread. -/
inductive Pc where
  /-- Outside every call, with what the last one returned. -/
  | idle (last : Ret)
  /-- `readLock`: about to load `writeOwner`. -/
  | readOwner
  /-- Case 1: about to load the state. -/
  | readOwned
  /-- Case 2: about to load the state. -/
  | readAgain
  /-- The loop: about to load the state. -/
  | readLoad
  /-- Case 4: about to load `waitingWriters`. -/
  | readFair (currState : Nat)
  /-- Case 5. -/
  | readCas (currState : Nat)
  /-- `incShareCount`. -/
  | incShareCount (ret : Ret)
  /-- `incThreadReadCount`. -/
  | incThread (ret : Ret)
  /-- `tryReadLock`. -/
  | tryReadOwner
  | tryReadLoad
  | tryReadCas (currState : Nat)
  /-- `readUnlock`: about to load `writeOwner`. -/
  | readUnlockOwner
  /-- Case 2. -/
  | readUnlockOwned
  | decShareCount
  | decThread
  /-- Case 3: about to decrement its own count. -/
  | readUnlockDec
  | readUnlockLoad
  | readUnlockCas (currState : Nat)
  /-- `writeLock`: about to load `writeOwner`. -/
  | writeOwner (writeCount : Nat)
  /-- Case 1: about to load the state. -/
  | writeOwned (writeCount : Nat)
  | incWriteCount (writeCount : Nat) (ret : Ret)
  /-- The loop: about to load the state. -/
  | writeLoad (writeCount : Nat)
  /-- Case 4: about to increment `waitingWriters`. -/
  | writeWaiting (writeCount : Nat)
  /-- Case 4, after the wait: about to decrement `waitingWriters`. -/
  | writeWaited (writeCount : Nat)
  /-- Case 5. -/
  | writeCas (writeCount : Nat)
  /-- Has the write lock; about to store `writeOwner`. -/
  | storeOwner (ret : Ret)
  /-- `tryWriteLock`. -/
  | tryWriteOwner
  | tryWriteOwned
  | tryWriteLoad
  | tryWriteCas
  /-- `checkWriteLockStatus` of `writeUnlock`. -/
  | writeUnlockOwner
  /-- `writeUnlock(writeCount)`: about to load the state. -/
  | writeUnlockLoad (writeCount : Nat) (caller : Caller)
  /-- Case 2: about to clear `writeOwner`; `shared` tells whether it also holds the read lock. -/
  | clearOwner (writeCount : Nat) (shared : Bool) (caller : Caller)
  | writeUnlockDec (writeCount : Nat) (shared : Bool) (caller : Caller)
  /-- Case 3. -/
  | decWriteCount (writeCount : Nat) (caller : Caller)
  /-- The `wait` of a condition: `checkWriteLockStatus`. -/
  | conditionOwner
  /-- `getWriteCount`. -/
  | conditionCount
  /-- Waiting to be notified. -/
  | conditionSleep (writeCount : Nat)
  /-- `waitIf`: about to evaluate the predicate. -/
  | waitTest (w : Wait)
  /-- About to lock the list. -/
  | waitLock (w : Wait)
  /-- About to evaluate the predicate again. -/
  | waitRetest (w : Wait)
  /-- About to add its node. -/
  | waitAdd (w : Wait)
  /-- About to unlock the list and wait. -/
  | waitUnlock (w : Wait)
  /-- About to unlock the list and return. -/
  | waitLeave (w : Wait)
  /-- Waiting to be notified. -/
  | asleep (w : Wait)
  /-- Notified. -/
  | woken (w : Wait)
  /-- `notifyOne`, `notifyAll`: about to lock the list. -/
  | notifyLock (n : Notice)
  /-- About to take a node out; `found` tells whether it has taken one. -/
  | notifyPop (n : Notice) (found : Bool)
  /-- About to unlock the list. -/
  | notifyUnlock (n : Notice) (found : Bool)
deriving DecidableEq, Repr

/-- The lock and the threads. `monitor` are the mutexes of the two lists. -/
structure State (T : Type) where
  state : Nat
  writeOwner : Int
  waitingWriters : Nat
  threadReadCount : T → Option Int
  list : Side → List T
  monitor : Side → Option T
  pc : T → Pc

variable {T : Type}

/-- A new lock, no thread in a call. -/
def newLock : State T where
  state := 0
  writeOwner := 0
  waitingWriters := 0
  threadReadCount _ := none
  list _ := []
  monitor _ := none
  pc _ := .idle .unit

variable [DecidableEq T]

/-- Thread `t` moves to `c`. -/
def State.goto (s : State T) (t : T) (c : Pc) : State T := { s with pc := Function.update s.pc t c }

def State.getThreadReadCount (s : State T) (t : T) : Int := (s.threadReadCount t).getD 0

/-- `incThreadReadCount`. -/
def State.incThreadReadCount (s : State T) (t : T) : State T :=
  { s with threadReadCount := Function.update s.threadReadCount t (some (s.getThreadReadCount t + 1)) }

/-- `decThreadReadCount`: without a count it only reports an error. -/
def State.decThreadReadCount (s : State T) (t : T) : State T :=
  { s with threadReadCount := Function.update s.threadReadCount t ((s.threadReadCount t).map (· - 1)) }

/-! ## `SyncList` -/

def Wait.side : Wait → Side
  | .readerWrite => .reader
  | .readerFair => .reader
  | .writerWrite _ => .writer
  | .writerShare _ => .writer

/-- The predicate given to `waitIf`. -/
def Wait.pred (s : State T) : Wait → Bool
  | .readerWrite => decide (0 < decodeWriteCount s.state)
  | .readerFair => decide (0 < s.waitingWriters)
  | .writerWrite _ => decide (0 < decodeWriteCount s.state)
  | .writerShare _ => decide (0 < decodeShareCount s.state)

/-- What follows after `waitIf`. -/
def Wait.after : Wait → Pc
  | .readerWrite => .readLoad
  | .readerFair => .readLoad
  | .writerWrite writeCount => .writeLoad writeCount
  | .writerShare writeCount => .writeWaited writeCount

/-- What follows after `writeUnlock(writeCount)`. -/
def Caller.after : Caller → Pc
  | .user => .idle .unit
  | .condition writeCount => .conditionSleep writeCount

def Notice.side : Notice → Side
  | .lastReader => .writer
  | .downgrade _ => .reader
  | .fairReaders _ => .reader
  | .fairWriter _ => .writer
  | .unfairWriter _ => .writer
  | .unfairReaders _ => .reader

/-- Whether the call is `notifyAll`. -/
def Notice.all : Notice → Bool
  | .lastReader => false
  | .downgrade _ => true
  | .fairReaders _ => true
  | .fairWriter _ => false
  | .unfairWriter _ => false
  | .unfairReaders _ => true

/-- What follows after the call, which returned `found`. -/
def Notice.after (found : Bool) : Notice → Pc
  | .lastReader => .idle .unit
  | .downgrade caller => caller.after
  | .fairReaders caller => if found then caller.after else .notifyLock (.fairWriter caller)
  | .fairWriter caller => caller.after
  | .unfairWriter caller => if found then caller.after else .notifyLock (.unfairReaders caller)
  | .unfairReaders caller => caller.after

/-- A monitor is entered when it is free. -/
def State.enter (s : State T) (t : T) (side : Side) (c : Pc) : Option (State T) :=
  if s.monitor side = none then some ({ s with monitor := Function.update s.monitor side (some t) }.goto t c) else none

def State.leave (s : State T) (t : T) (side : Side) (c : Pc) : State T :=
  { s with monitor := Function.update s.monitor side none }.goto t c

/-- `head = current.next; current.n.notify()`. The thread of a node in the list is asleep. -/
def stepNotifyPop (s : State T) (t : T) (n : Notice) (found : Bool) : Option (State T) :=
  match s.list n.side with
  | [] => some (s.goto t (.notifyUnlock n found))
  | current :: rest =>
    match s.pc current with
    | .asleep w =>
      some (({ s with list := Function.update s.list n.side rest }.goto current (.woken w)).goto t
        (if n.all then .notifyPop n true else .notifyUnlock n true))
    | _ => none

/-! ## `readLock`, `tryReadLock`, `readUnlock` -/

variable (ids : ThreadIds T) (isFair : Bool)

def stepReadOwner (s : State T) (t : T) : State T :=
  if s.writeOwner = ids.id t then s.goto t .readOwned
  else if s.getThreadReadCount t > 0 then s.goto t .readAgain
  else s.goto t .readLoad

def stepReadOwned (s : State T) (t : T) : State T :=
  if decodeWriteCount s.state < 1 then s.goto t (.idle (.throw .inconsistent)) else s.goto t (.incShareCount .unit)

def stepReadAgain (s : State T) (t : T) : State T :=
  if decodeShareCount s.state = 0 ∨ decodeWriteCount s.state ≠ 0 then s.goto t (.idle (.throw .inconsistent))
  else s.goto t (.incShareCount .unit)

def stepReadLoad (s : State T) (t : T) : State T :=
  if decodeWriteCount s.state > 0 then s.goto t (.waitTest .readerWrite)
  else if isFair then s.goto t (.readFair s.state)
  else s.goto t (.readCas s.state)

def stepReadFair (s : State T) (t : T) (currState : Nat) : State T :=
  if s.waitingWriters > 0 then s.goto t (.waitTest .readerFair) else s.goto t (.readCas currState)

/-- The compare-and-swap of `readLock` and of `tryReadLock`; `retry` is the head of the loop. -/
def stepShareCas (s : State T) (t : T) (currState : Nat) (ret : Ret) (retry : Pc) : State T :=
  if decodeWriteCount currState ≠ 0 then s.goto t (.idle (.throw .inconsistent))
  else if s.state = currState then { s with state := add64 currState SHARE_UNIT }.goto t (.incThread ret)
  else s.goto t retry

def stepTryReadLoad (s : State T) (t : T) : State T :=
  if decodeWriteCount s.state > 0 then s.goto t (.idle (.bool false)) else s.goto t (.tryReadCas s.state)

def stepReadUnlockOwned (s : State T) (t : T) : State T :=
  if decodeShareCount s.state = 0 ∨ decodeWriteCount s.state = 0 then s.goto t (.idle (.throw .inconsistent))
  else s.goto t .decShareCount

def stepReadUnlockLoad (s : State T) (t : T) : State T :=
  if decodeShareCount s.state = 0 ∨ decodeWriteCount s.state ≠ 0 then s.goto t (.idle (.throw .inconsistent))
  else s.goto t (.readUnlockCas s.state)

def stepReadUnlockCas (s : State T) (t : T) (currState : Nat) : State T :=
  if s.state = currState then
    { s with state := sub64 currState SHARE_UNIT }.goto t
      (if currState = SHARE_UNIT then .notifyLock .lastReader else .idle .unit)
  else s.goto t .readUnlockLoad

/-! ## `writeLock`, `tryWriteLock`, `writeUnlock` -/

def stepWriteOwner (s : State T) (t : T) (writeCount : Nat) : State T :=
  if s.writeOwner = ids.id t then s.goto t (.writeOwned writeCount)
  else if s.getThreadReadCount t ≠ 0 then s.goto t (.idle (.throw .readHeld))
  else s.goto t (.writeLoad writeCount)

/-- Case 1 of `writeLock` and of `tryWriteLock`. -/
def stepWriteOwned (s : State T) (t : T) (writeCount : Nat) (ret : Ret) : State T :=
  if decodeWriteCount s.state = 0 then s.goto t (.idle (.throw .inconsistent))
  else s.goto t (.incWriteCount writeCount ret)

def stepWriteLoad (s : State T) (t : T) (writeCount : Nat) : State T :=
  if decodeWriteCount s.state > 0 then s.goto t (.waitTest (.writerWrite writeCount))
  else if decodeShareCount s.state > 0 then s.goto t (.writeWaiting writeCount)
  else if s.state ≠ 0 then s.goto t (.idle (.throw .inconsistent))
  else s.goto t (.writeCas writeCount)

/-- The compare-and-swap of `writeLock` and of `tryWriteLock`; `retry` is the head of the loop. -/
def stepWriteCas (s : State T) (t : T) (writeCount : Nat) (ret : Ret) (retry : Pc) : State T :=
  if s.state = 0 then { s with state := mul64 WRITE_UNIT writeCount }.goto t (.storeOwner ret) else s.goto t retry

def stepTryWriteLoad (s : State T) (t : T) : State T :=
  if decodeWriteCount s.state > 0 then s.goto t (.idle (.bool false))
  else if decodeShareCount s.state > 0 then s.goto t (.idle (.bool false))
  else if s.state ≠ 0 then s.goto t (.idle (.throw .inconsistent))
  else s.goto t .tryWriteCas

def stepWriteUnlockLoad (s : State T) (t : T) (writeCount : Nat) (caller : Caller) : State T :=
  if decodeWriteCount s.state = writeCount then
    s.goto t (.clearOwner writeCount (decide (0 < decodeShareCount s.state)) caller)
  else s.goto t (.decWriteCount writeCount caller)

/-- The first notification of case 2. -/
def unlockNotice (shared : Bool) (caller : Caller) : Notice :=
  if shared then .downgrade caller else if isFair then .fairReaders caller else .unfairWriter caller

/-! ## One step of one thread -/

/-- The next access of thread `t`, which stands at the given point. `none`: nothing to do, waiting to be notified, or
    waiting for a monitor. -/
def next (s : State T) (t : T) : Pc → Option (State T)
  | .idle _ => none
  | .readOwner => some (stepReadOwner ids s t)
  | .readOwned => some (stepReadOwned s t)
  | .readAgain => some (stepReadAgain s t)
  | .readLoad => some (stepReadLoad isFair s t)
  | .readFair currState => some (stepReadFair s t currState)
  | .readCas currState => some (stepShareCas s t currState .unit .readLoad)
  | .incShareCount ret => some ({ s with state := add64 s.state SHARE_UNIT }.goto t (.incThread ret))
  | .incThread ret => some ((s.incThreadReadCount t).goto t (.idle ret))
  | .tryReadOwner => some (s.goto t (if s.writeOwner = ids.id t then .incShareCount (.bool true) else .tryReadLoad))
  | .tryReadLoad => some (stepTryReadLoad s t)
  | .tryReadCas currState => some (stepShareCas s t currState (.bool true) .tryReadLoad)
  | .readUnlockOwner => some (s.goto t (if s.writeOwner = ids.id t then .readUnlockOwned else .readUnlockDec))
  | .readUnlockOwned => some (stepReadUnlockOwned s t)
  | .decShareCount => some ({ s with state := sub64 s.state SHARE_UNIT }.goto t .decThread)
  | .decThread => some ((s.decThreadReadCount t).goto t (.idle .unit))
  | .readUnlockDec => some ((s.decThreadReadCount t).goto t .readUnlockLoad)
  | .readUnlockLoad => some (stepReadUnlockLoad s t)
  | .readUnlockCas currState => some (stepReadUnlockCas s t currState)
  | .writeOwner writeCount => some (stepWriteOwner ids s t writeCount)
  | .writeOwned writeCount => some (stepWriteOwned s t writeCount .unit)
  | .incWriteCount writeCount ret =>
    some ({ s with state := add64 s.state (mul64 WRITE_UNIT writeCount) }.goto t (.idle ret))
  | .writeLoad writeCount => some (stepWriteLoad s t writeCount)
  | .writeWaiting writeCount =>
    some ({ s with waitingWriters := s.waitingWriters + 1 }.goto t (.waitTest (.writerShare writeCount)))
  | .writeWaited writeCount => some ({ s with waitingWriters := s.waitingWriters - 1 }.goto t (.writeLoad writeCount))
  | .writeCas writeCount => some (stepWriteCas s t writeCount .unit (.writeLoad writeCount))
  | .storeOwner ret => some ({ s with writeOwner := ids.id t }.goto t (.idle ret))
  | .tryWriteOwner => some (s.goto t (if s.writeOwner = ids.id t then .tryWriteOwned else .tryWriteLoad))
  | .tryWriteOwned => some (stepWriteOwned s t 1 (.bool true))
  | .tryWriteLoad => some (stepTryWriteLoad s t)
  | .tryWriteCas => some (stepWriteCas s t 1 (.bool true) .tryWriteLoad)
  | .writeUnlockOwner =>
    some (s.goto t (if s.writeOwner ≠ ids.id t then .idle (.throw .writeNotLocked) else .writeUnlockLoad 1 .user))
  | .writeUnlockLoad writeCount caller => some (stepWriteUnlockLoad s t writeCount caller)
  | .clearOwner writeCount shared caller =>
    some ({ s with writeOwner := NO_THREAD }.goto t (.writeUnlockDec writeCount shared caller))
  | .writeUnlockDec writeCount shared caller =>
    some ({ s with state := sub64 s.state (mul64 WRITE_UNIT writeCount) }.goto t
      (.notifyLock (unlockNotice isFair shared caller)))
  | .decWriteCount writeCount caller =>
    some ({ s with state := sub64 s.state (mul64 WRITE_UNIT writeCount) }.goto t caller.after)
  | .conditionOwner =>
    some (s.goto t (if s.writeOwner ≠ ids.id t then .idle (.throw .writeNotLocked) else .conditionCount))
  | .conditionCount =>
    some (s.goto t (.writeUnlockLoad (decodeWriteCount s.state) (.condition (decodeWriteCount s.state))))
  | .conditionSleep writeCount => some (s.goto t (.writeOwner writeCount))
  | .waitTest w => some (s.goto t (if w.pred s then .waitLock w else w.after))
  | .waitLock w => s.enter t w.side (.waitRetest w)
  | .waitRetest w => some (s.goto t (if w.pred s then .waitAdd w else .waitLeave w))
  | .waitAdd w =>
    some ({ s with list := Function.update s.list w.side (t :: s.list w.side) }.goto t (.waitUnlock w))
  | .waitUnlock w => some (s.leave t w.side (.asleep w))
  | .waitLeave w => some (s.leave t w.side w.after)
  | .asleep _ => none
  | .woken w => some (s.goto t w.after)
  | .notifyLock n => s.enter t n.side (.notifyPop n false)
  | .notifyPop n found => stepNotifyPop s t n found
  | .notifyUnlock n found => some (s.leave t n.side (n.after found))

/-- What a thread does: call a function of the lock, or go on with the call it is in. -/
inductive Act where
  | readLock
  | tryReadLock
  | readUnlock
  | writeLock
  | tryWriteLock
  | writeUnlock
  | conditionWait
  | next
deriving DecidableEq, Repr

/-- Where a call begins. `readUnlock` looks at the thread's own count first. -/
def entry (s : State T) (t : T) : Act → Option Pc
  | .readLock => some .readOwner
  | .tryReadLock => some .tryReadOwner
  | .readUnlock => some (if s.getThreadReadCount t < 1 then .idle (.throw .readNotLocked) else .readUnlockOwner)
  | .writeLock => some (.writeOwner 1)
  | .tryWriteLock => some .tryWriteOwner
  | .writeUnlock => some .writeUnlockOwner
  | .conditionWait => some .conditionOwner
  | .next => none

/-- A call by an idle thread, or the next access of a thread inside one. -/
def act (s : State T) (ta : T × Act) : Option (State T) :=
  match entry s ta.1 ta.2, s.pc ta.1 with
  | some c, .idle _ => some (s.goto ta.1 c)
  | none, c => next ids isFair s ta.1 c
  | some _, _ => none

/-- The read holds that the next access of a thread may add. -/
def Pc.addsShare : Pc → Nat
  | .readCas _ => 1
  | .tryReadCas _ => 1
  | .incShareCount _ => 1
  | _ => 0

/-- The write holds that it adds to those of the thread. -/
def Pc.addsWrite : Pc → Nat
  | .incWriteCount writeCount _ => writeCount
  | _ => 0

/-- Fewer than `2 ^ 32` nested holds: a step that adds some stays below. -/
def Fits (s : State T) (ta : T × Act) : Prop :=
  decodeShareCount s.state + (s.pc ta.1).addsShare < 2 ^ 32 ∧ decodeWriteCount s.state + (s.pc ta.1).addsWrite < 2 ^ 32

instance (s : State T) (ta : T × Act) : Decidable (Fits s ta) := inferInstanceAs (Decidable (_ ∧ _))

end CangjieRuntime.ReadWriteLock
