import CangjieRuntime.Lib.Interleave
import CangjieRuntime.Lib.Word
import CangjieRuntime.Util.Link

/-!
# `Sync.Waitqueue` — the wait queue

Cjthreads that wait, with or without a timer, in a list that ends in null pointers. The head of the list is part of the
queue, the nodes are allocated when a cjthread parks and freed when it is woken; `tail` and `nwait` are kept up to date
by hand in every function. All functions run under the queue's mutex, so each call is one step.

* Of a timer only two things matter: whether `TimerTryStop` will stop it (`TIMER_WAITING`), or whether it is firing
  already, and its callback is waiting for the mutex.
* A *waiter* is a cjthread in one call of `WaitqueuePark`. The model keeps a record of the waiters that were pushed, of
  those made ready, in order, and of those told that they timed out.
* `none` as the result of a call is a dereference of a null pointer (or of the head as if it were a node).
-/

namespace CangjieRuntime

open Chain Word Interleave Link

namespace Waitqueue

def UINT32_MAX : Nat := 2 ^ 32 - 1

/-! ## Data -/

/-- The links: the one in the queue and those in the nodes (`listNode` is the first member of a node). -/
inductive Ptr (N : Type) where
  | head
  | listNode (n : N)
  deriving DecidableEq

/-- The state of a timer, as `TimerTryStop` sees it. -/
inductive Timer where
  | TIMER_WAITING
  | firing
  deriving DecidableEq

/-- `struct WaitqueueNode`. -/
structure WaitqueueNode (W : Type) where
  cjthread : W
  timer : Option Timer

inductive Ret where
  | success
  | ERRNO_WQ_MAX_NUM
  | ERRNO_CALLBACK_RETURN_TRUE
  | ERRNO_MALLOC_FAILED
  | ERRNO_QUEUE_IS_EMPTY
  deriving DecidableEq

/-- `struct WaitqueueInner` with the nodes in memory, the addresses `malloc` has handed out, and the records. -/
structure State (N W : Type) where
  nwait : Nat
  timerNwait : Nat
  links : Links (Ptr N)
  tail : Option (Ptr N)
  node : N → WaitqueueNode W
  allocated : List N
  pushed : List W
  readied : List W
  timedOut : List W

variable {N W : Type} [DecidableEq N]

/-- `WaitqueueNew`. -/
def waitqueueNew (links : Links (Ptr N)) (node : N → WaitqueueNode W) : State N W where
  nwait := 0
  timerNwait := 0
  links := linkInit links .head
  tail := none
  node := node
  allocated := []
  pushed := []
  readied := []
  timedOut := []

/-! ## The functions -/

/-- What the environment decides in a call of `WaitqueuePark`: the node `malloc` returns, if any, whether the callback
    returns true, whether there is a timeout and `TimerNew` succeeds. -/
structure Park (N W : Type) where
  cjthread : W
  node : Option N
  callback : Bool
  timeout : Bool
  timerNew : Bool
  toHead : Bool

/-- The end of `WaitqueuePush`: the new node is linked in; `nwait` counts it already. -/
def pushNode (s : State N W) (n : N) (toHead : Bool) : Option (State N W) :=
  if s.nwait = 1 then
    some { s with links := linkPushHead s.links .head (.listNode n), tail := some (.listNode n) }
  else if toHead then
    some { s with links := linkPushHead s.links .head (.listNode n) }
  else do
    let tail ← s.tail
    return { s with links := linkPushTail s.links tail (.listNode n), tail := some (.listNode n) }

def waitqueuePush (s : State N W) (p : Park N W) : Option (Ret × State N W) :=
  if s.nwait = UINT32_MAX then some (.ERRNO_WQ_MAX_NUM, s)
  else
    let s := { s with nwait := add32 s.nwait 1 }
    if p.callback then some (.ERRNO_CALLBACK_RETURN_TRUE, { s with nwait := sub32 s.nwait 1 })
    else
      match p.node with
      | none => some (.ERRNO_MALLOC_FAILED, { s with nwait := sub32 s.nwait 1 })
      | some n =>
        let s := { s with node := Function.update s.node n ⟨p.cjthread, none⟩, allocated := n :: s.allocated }
        (pushNode s n p.toHead).map fun s => (.success, s)

/-- `WaitqueuePark`, up to the switch to another cjthread. -/
def waitqueuePark (s : State N W) (p : Park N W) : Option (State N W) := do
  match ← waitqueuePush s p, p.node with
  | (.success, s), some n =>
    let s := { s with pushed := s.pushed ++ [p.cjthread] }
    if p.timeout then
      let timer := if p.timerNew then some .TIMER_WAITING else none
      return { s with timerNwait := add32 s.timerNwait 1, node := Function.update s.node n ⟨p.cjthread, timer⟩ }
    else return s
  | (_, s), _ => return s

/-- `CJThreadReady`. -/
def State.cjthreadReady (s : State N W) (n : N) : State N W :=
  { s with readied := s.readied ++ [(s.node n).cjthread] }

/-- The tail moves off the node, if it is the last one; then `LinkRemove`. -/
def State.unlink (s : State N W) (n : N) : State N W :=
  let tail := if s.links.next (.listNode n) = none then
      if s.nwait = 1 then none else s.links.prev (.listNode n)
    else s.tail
  { s with tail := tail, links := linkRemove s.links (.listNode n) }

def State.freeNode (s : State N W) (n : N) : State N W := { s with allocated := s.allocated.erase n }

/-- A waiter whose timer, if it has one, has been stopped is taken out and woken up. -/
def wake (s : State N W) (n : N) : State N W :=
  let s := s.unlink n
  let s := { s with
    links := linkInit s.links (.listNode n)
    nwait := sub32 s.nwait 1
    timerNwait := if (s.node n).timer ≠ none then sub32 s.timerNwait 1 else s.timerNwait }
  (s.cjthreadReady n).freeNode n

/-- `wqNode->timer != nullptr && TimerTryStop(wqNode->timer) != 0`. -/
def WaitqueueNode.blocked (node : WaitqueueNode W) : Bool := node.timer = some .firing

/-- The loop of `WaitqueueWakeOne`: the first node from `listNode` on that can be woken, if there is one. It passes
    `fuel` nodes at most. -/
def findNode (s : State N W) (listNode : Option (Ptr N)) : Nat → Option (Option N)
  | 0 => none
  | fuel + 1 =>
    match listNode with
    | some (.listNode n) =>
      if (s.node n).blocked then
        if s.links.next (.listNode n) = none then some none
        else findNode s (s.links.next (.listNode n)) fuel
      else some (some n)
    | _ => none

def waitqueueWakePreparation (s : State N W) (callback : Bool) : Ret :=
  if callback then .ERRNO_CALLBACK_RETURN_TRUE
  else if s.nwait = 0 then .ERRNO_QUEUE_IS_EMPTY
  else .success

def waitqueueWakeOne (s : State N W) (callback : Bool) : Option (Ret × State N W) :=
  match waitqueueWakePreparation s callback with
  | .success => do
    match ← findNode s (s.links.next .head) s.allocated.length with
    | some n => return (.success, wake s n)
    | none => return (.ERRNO_QUEUE_IS_EMPTY, s)
  | ret => some (ret, s)

/-- The loops of `WaitqueueWakeAll`: `listNode` is the node the inner loop has come to. A node that is firing takes one
    off the countdown and is passed, any other takes one off and is woken, and the search starts at the head again. -/
def wakeAllLoop (s : State N W) (listNode : Option (Ptr N)) : Nat → Option (State N W)
  | 0 => some s
  | len + 1 =>
    match listNode with
    | some (.listNode n) =>
      if (s.node n).blocked then
        if len = 0 then some s else wakeAllLoop s (s.links.next (.listNode n)) len
      else
        let s := wake s n
        wakeAllLoop s (s.links.next .head) len
    | _ => none

def waitqueueWakeAll (s : State N W) (callback : Bool) : Option (Ret × State N W) :=
  match waitqueueWakePreparation s callback with
  | .success => (wakeAllLoop s (s.links.next .head) s.nwait).map fun s => (.success, s)
  | ret => some (ret, s)

/-- `WaitqueueCallback`, called by the timer of the node. -/
def waitqueueCallback (s : State N W) (n : N) : State N W :=
  let s := s.unlink n
  if (s.node n).timer = none then s.freeNode n
  else
    let s := { s with
      nwait := sub32 s.nwait 1
      timedOut := s.timedOut ++ [(s.node n).cjthread]
      timerNwait := sub32 s.timerNwait 1 }
    (s.cjthreadReady n).freeNode n

/-! ## Sequences of calls -/

inductive Op (N W : Type) where
  | park (p : Park N W)
  | wakeOne (callback : Bool)
  | wakeAll (callback : Bool)
  /-- The timer of a node expires: from now on `TimerTryStop` fails. -/
  | fire (n : N)
  | callback (n : N)

def act (s : State N W) : Op N W → Option (State N W)
  | .park p => waitqueuePark s p
  | .wakeOne callback => (waitqueueWakeOne s callback).map Prod.snd
  | .wakeAll callback => (waitqueueWakeAll s callback).map Prod.snd
  | .fire n => some { s with node := Function.update s.node n { s.node n with timer := some .firing } }
  | .callback n => some (waitqueueCallback s n)

/-- Each park is a new waiter, in a node of fresh memory; a timer that is waiting expires, and the callback of a timer
    that has expired runs. -/
def Possible (s : State N W) : Op N W → Prop
  | .park p => p.cjthread ∉ s.pushed ∧ ∀ n ∈ p.node, n ∉ s.allocated
  | .fire n => n ∈ s.allocated ∧ (s.node n).timer = some .TIMER_WAITING
  | .callback n => n ∈ s.allocated ∧ (s.node n).timer = some .firing
  | _ => True

/-- Neither pushes to the head nor timeouts. -/
def InOrder : Op N W → Prop
  | .park p => p.toHead = false
  | .fire _ => False
  | .callback _ => False
  | _ => True

instance [DecidableEq W] (s : State N W) : (op : Op N W) → Decidable (Possible s op)
  | .park p => inferInstanceAs (Decidable (p.cjthread ∉ s.pushed ∧ ∀ n ∈ p.node, n ∉ s.allocated))
  | .wakeOne _ => inferInstanceAs (Decidable True)
  | .wakeAll _ => inferInstanceAs (Decidable True)
  | .fire n => inferInstanceAs (Decidable (n ∈ s.allocated ∧ (s.node n).timer = some .TIMER_WAITING))
  | .callback n => inferInstanceAs (Decidable (n ∈ s.allocated ∧ (s.node n).timer = some .firing))

instance : (op : Op N W) → Decidable (InOrder op)
  | .park p => inferInstanceAs (Decidable (p.toHead = false))
  | .wakeOne _ => inferInstanceAs (Decidable True)
  | .wakeAll _ => inferInstanceAs (Decidable True)
  | .fire _ => inferInstanceAs (Decidable False)
  | .callback _ => inferInstanceAs (Decidable False)

end Waitqueue
end CangjieRuntime
