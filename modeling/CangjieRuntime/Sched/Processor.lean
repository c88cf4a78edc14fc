import CangjieRuntime.Lib.Interleave
import CangjieRuntime.Sched.Queue
import CangjieRuntime.Util.Dulink

/-!
# `Sched.Processor` — the run queues of the processors

A cjthread that is ready to run waits in one of three kinds of places: the next slot of a processor, the processor's
own run queue (a ring of `PROCESSOR_QUEUE_CAPACITY` entries), or the scheduler's global list, which is a cyclic list
threaded through the cjthreads themselves (`schdDulink` is the first member of `struct CJThread`) with a separate
counter. The functions here move cjthreads between these places: a full local queue spills a quarter of itself into
the global list, an idle processor takes its share of the global list or half of another processor's queue.

Every function runs alone from its call to its return. `none` as the result of a call is undefined behaviour: a null or
wild pointer is followed, or a local array of `PROCESSOR_QUEUE_CAPACITY` pointers is overrun.
-/

namespace CangjieRuntime

open Chain Word Interleave Dulink

namespace Processor

/-! ## Data -/

def PROCESSOR_QUEUE_CAPACITY : Nat := 128

def PROCESSOR_STEAL_RATIO : Nat := 2

def GLOBAL_ADD_RATIO : Nat := 4

/-- The nodes of cyclic lists that matter here: the head of the global list, the local variable `tempDulink` of the
    functions below, and the `schdDulink` of each cjthread. -/
inductive Node (C : Type) where
  | runq
  | tempDulink
  | cjthread (c : C)
  deriving DecidableEq

/-- `struct Processor`. -/
structure Proc (C : Type) where
  cjthreadNext : Option C
  runq : Queue C

/-- `struct Schedule`, with its processors. The counter `num` is an `unsigned long long` and counts objects of a 64-bit
    address space, so it does not wrap. -/
structure Schedule (P C : Type) where
  processors : P → Proc C
  num : Nat
  links : Links (Node C)

variable {P C : Type} [DecidableEq P] [DecidableEq C]

def Schedule.setRunq (s : Schedule P C) (p : P) (runq : Queue C) : Schedule P C :=
  { s with processors := Function.update s.processors p { s.processors p with runq := runq } }

def Schedule.setNext (s : Schedule P C) (p : P) (cjthread : Option C) : Schedule P C :=
  { s with processors := Function.update s.processors p { s.processors p with cjthreadNext := cjthread } }

/-! ## The global list -/

/-- `DulinkPushtail` for each cjthread of an array. -/
def pushAll (links : Links (Node C)) : List C → Option (Links (Node C))
  | [] => some links
  | c :: rest => do pushAll (← dulinkPushtail links .tempDulink (.cjthread c)) rest

/-- The quarter of its queue that a processor gives up. -/
def popQuarter (runq : Queue C) : List C × Queue C :=
  let length := runq.queueLength / GLOBAL_ADD_RATIO
  if length ≠ 0 then runq.queuePopHeadBatch length else ([], runq)

def processorGlobalWrite (s : Schedule P C) (p : P) (cjthreadList : List C) : Option (Schedule P C) := do
  let links := dulinkInit s.links .tempDulink
  let (buf, runq) := popQuarter (s.processors p).runq
  let links ← pushAll links buf
  let links ← pushAll links cjthreadList
  let links ← dulinkMove links .runq .tempDulink 0
  return { s.setRunq p runq with links := links, num := s.num + (buf.length + cjthreadList.length) }

/-- `DULINK_ENTRY(head->next, ...)` and `DulinkRemove` of it. -/
def removeFirst (links : Links (Node C)) (head : Node C) : Option (C × Links (Node C)) := do
  match ← links.next head with
  | .cjthread c => return (c, ← dulinkRemove links (.cjthread c))
  | _ => none

/-- The loop that empties `tempDulink` into the array `buf`, of which `room` entries are still unused. -/
def drainLoop (links : Links (Node C)) (room : Nat) : Nat → Option (List C × Links (Node C))
  | 0 => some ([], links)
  | n + 1 => do
    if room = 0 then none
    else
      let (c, links) ← removeFirst links .tempDulink
      let (buf, links) ← drainLoop links (room - 1) n
      return (c :: buf, links)

/-- The share of one processor, `⌈num / processorNum⌉`, before it is stored in an `unsigned int`. -/
def share (num processorNum : Nat) : Nat := (num + processorNum - 1) / processorNum

/-- `readNum`: the quotient is cut off to 32 bits, and only then compared with the capacity. -/
def readNum (num processorNum : Nat) (batch : Bool) : Nat :=
  if batch then
    let n := share num processorNum % 2 ^ 32
    if n > PROCESSOR_QUEUE_CAPACITY then PROCESSOR_QUEUE_CAPACITY else n
  else 1

/-- The part of `ProcessorGlobalRead` that takes `readNum` cjthreads off the global list. -/
def globalTake (s : Schedule P C) (p : P) (readNum : Nat) : Option (Option C × Schedule P C) := do
  let num := s.num - readNum
  let (cjthreadNext, links) ← removeFirst s.links .runq
  if readNum = 1 then return (some cjthreadNext, { s with num := num, links := links })
  else
    let readNum := sub32 readNum 1
    let links := dulinkInit links .tempDulink
    let links ← dulinkMove links .tempDulink .runq (asInt32 readNum)
    let (buf, links) ← drainLoop links PROCESSOR_QUEUE_CAPACITY readNum
    -- the number of cjthreads that found room is not looked at
    let runq := ((s.processors p).runq.queuePushTailBatch buf).2
    return (some cjthreadNext, { s.setRunq p runq with num := num, links := links })

/-- `ProcessorGlobalRead` on processor `p`. -/
def processorGlobalRead (processorNum : Nat) (s : Schedule P C) (p : P) (batch : Bool) :
    Option (Option C × Schedule P C) :=
  if s.num = 0 then some (none, s) else globalTake s p (readNum s.num processorNum batch)

/-! ## The local queues -/

/-- `QueuePushTail`, or the global list when the queue is full. -/
def pushOrSpill (s : Schedule P C) (p : P) (cjthread : C) : Option (Schedule P C) :=
  match (s.processors p).runq.queuePushTail cjthread with
  | (true, runq) => some (s.setRunq p runq)
  | (false, _) => processorGlobalWrite s p [cjthread]

/-- `ProcessorLocalWrite`: the compare-and-swap of the next slot succeeds, since the call runs alone. -/
def processorLocalWrite (s : Schedule P C) (p : P) (cjthread : C) (isReschd : Bool) : Option (Schedule P C) :=
  if isReschd then pushOrSpill s p cjthread
  else
    match (s.processors p).cjthreadNext with
    | none => some (s.setNext p (some cjthread))
    | some obj => pushOrSpill (s.setNext p (some cjthread)) p obj

def processorLocalWriteBatch (s : Schedule P C) (p : P) (cjthread : List C) : Option (Schedule P C) :=
  let (pushNum, runq) := (s.processors p).runq.queuePushTailBatch cjthread
  if pushNum = cjthread.length then some (s.setRunq p runq)
  else processorGlobalWrite (s.setRunq p runq) p (cjthread.drop pushNum)

def processorLocalRead (s : Schedule P C) (p : P) : Option C × Schedule P C :=
  let (cjthread, runq) := (s.processors p).runq.queuePopHead
  (cjthread, s.setRunq p runq)

/-- `ProcessorCJhreadNextRead`. -/
def processorCJThreadNextRead (s : Schedule P C) (p : P) : Option C × Schedule P C :=
  ((s.processors p).cjthreadNext, s.setNext p none)

def processorQueueSteal (stealRunq : Queue C) (bufLen : Nat) : List C × Queue C :=
  let length := (stealRunq.queueLength + PROCESSOR_STEAL_RATIO - 1) / PROCESSOR_STEAL_RATIO
  if length = 0 then ([], stealRunq)
  else stealRunq.queuePopHeadBatch (if length > bufLen then bufLen else length)

def processorCJThreadSteal (s : Schedule P C) (localProcessor stealProcessor : P) : Option C × Schedule P C :=
  let (buf, stealRunq) := processorQueueSteal (s.processors stealProcessor).runq PROCESSOR_QUEUE_CAPACITY
  let s := s.setRunq stealProcessor stealRunq
  match buf with
  | [] => (none, s)
  | first :: rest =>
    let (pushNum, localRunq) := (s.processors localProcessor).runq.queuePushTailBatch rest
    let s := s.setRunq localProcessor localRunq
    -- otherwise the error is logged and `first` is dropped
    if pushNum = rest.length then (some first, s) else (none, s)

/-! ## Sequences of calls -/

theorem capacity_dvd : PROCESSOR_QUEUE_CAPACITY ∣ 2 ^ 32 := Dvd.intro (2 ^ 25) rfl

theorem capacity_lt : PROCESSOR_QUEUE_CAPACITY < 2 ^ 32 := by decide

/-- A scheduler with nothing to run. The slots of the rings and the pointers of the cjthreads are not initialised. -/
def scheduleInit (buf : P → Nat → C) (links : Links (Node C)) : Schedule P C where
  processors p := ⟨none, ⟨PROCESSOR_QUEUE_CAPACITY, 0, 0, buf p, capacity_dvd, capacity_lt⟩⟩
  num := 0
  links := dulinkInit links .runq

/-- The scheduler, with the cjthreads that calls have returned to be run and all that were ever submitted. -/
structure State (P C : Type) where
  schedule : Schedule P C
  running : List C
  submitted : List C

inductive Op (P C : Type) where
  | localWrite (p : P) (cjthread : C) (isReschd : Bool)
  | localWriteBatch (p : P) (cjthread : List C)
  | globalRead (p : P) (batch : Bool)
  | localRead (p : P)
  | nextRead (p : P)
  | steal (localProcessor stealProcessor : P)

/-- The cjthreads are handed over: they run no longer. -/
def State.submit (s : State P C) (cs : List C) (schedule : Schedule P C) : State P C where
  schedule := schedule
  running := s.running.filter fun c => c ∉ cs
  submitted := s.submitted ∪ cs

/-- A call returns a cjthread, or none. -/
def State.deliver (s : State P C) (r : Option C × Schedule P C) : State P C :=
  { s with schedule := r.2, running := r.1.toList ++ s.running }

variable [Fintype P]

def act (s : State P C) : Op P C → Option (State P C)
  | .localWrite p cjthread isReschd => (processorLocalWrite s.schedule p cjthread isReschd).map (s.submit [cjthread])
  | .localWriteBatch p cjthread => (processorLocalWriteBatch s.schedule p cjthread).map (s.submit cjthread)
  | .globalRead p batch => (processorGlobalRead (Fintype.card P) s.schedule p batch).map s.deliver
  | .localRead p => some (s.deliver (processorLocalRead s.schedule p))
  | .nextRead p => some (s.deliver (processorCJThreadNextRead s.schedule p))
  | .steal localProcessor stealProcessor =>
    some (s.deliver (processorCJThreadSteal s.schedule localProcessor stealProcessor))

/-- Whoever submits a cjthread owns it: it is new, or it has been returned to run. -/
def State.Owned (s : State P C) (c : C) : Prop := c ∉ s.submitted ∨ c ∈ s.running

/-- When the functions may be called: each cjthread is submitted by its owner (an array of them has a length of type
    `unsigned int`), and batches are taken into an empty local queue. -/
def Callable (s : State P C) : Op P C → Prop
  | .localWrite _ cjthread _ => s.Owned cjthread
  | .localWriteBatch _ cjthread => cjthread.Nodup ∧ cjthread.length < 2 ^ 32 ∧ ∀ c ∈ cjthread, s.Owned c
  | .globalRead p batch => batch = true → (s.schedule.processors p).runq.queueLength = 0
  | .localRead _ => True
  | .nextRead _ => True
  | .steal localProcessor _ => (s.schedule.processors localProcessor).runq.queueLength = 0

instance (s : State P C) (c : C) : Decidable (s.Owned c) := inferInstanceAs (Decidable (_ ∨ _))

instance (s : State P C) : (op : Op P C) → Decidable (Callable s op)
  | .localWrite _ cjthread _ => inferInstanceAs (Decidable (s.Owned cjthread))
  | .localWriteBatch _ cjthread =>
    inferInstanceAs (Decidable (cjthread.Nodup ∧ cjthread.length < 2 ^ 32 ∧ ∀ c ∈ cjthread, s.Owned c))
  | .globalRead p batch => inferInstanceAs (Decidable (batch = true → (s.schedule.processors p).runq.queueLength = 0))
  | .localRead _ => inferInstanceAs (Decidable True)
  | .nextRead _ => inferInstanceAs (Decidable True)
  | .steal localProcessor _ =>
    inferInstanceAs (Decidable ((s.schedule.processors localProcessor).runq.queueLength = 0))

end Processor
end CangjieRuntime
