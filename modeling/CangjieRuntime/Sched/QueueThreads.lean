import CangjieRuntime.Lib.Interleave
import CangjieRuntime.Sched.Queue

/-!
# `Sched.QueueThreads` — one producer and many consumers

The run queue is filled by the thread of its processor and emptied by that thread and by every thread that steals.
Here the functions of `Sched.Queue` are taken apart into their accesses to the shared fields: the loads of `head` and
`tail`, each read and each write of a slot, the store of `tail` and the compare-and-swap on `head`.

Three things are recorded that the code does not have: the elements pushed, in the order in which `tail` made them
visible; the elements popped, in the order of the successful compare-and-swaps; and, in the control points, how many
elements had been popped, or were in the queue, when `head` was loaded.
-/

namespace CangjieRuntime.QueueThreads

open Word

/-! ## Threads -/

/-- A finished push: how many elements were offered and accepted, and how many the queue held at the load of
    `head`. -/
structure Push where
  offered : Nat
  accepted : Nat
  held : Nat
deriving DecidableEq, Repr

/-- The two ways to push. -/
inductive Call where
  /-- `QueuePushTail`. -/
  | single
  /-- `QueuePushTailBatch`. -/
  | batch
deriving DecidableEq, Repr

/-- The next access of the producer. -/
inductive Producer (α : Type) where
  | idle (last : Push)
  | loadHead (call : Call) (objects : List α)
  | loadTail (call : Call) (objects : List α) (head held : Nat)
  /-- The test of the room, with the elements already written to their slots and those still to be. -/
  | write (call : Call) (head tail held : Nat) (written rest : List α)
  | store (tail held : Nat) (written rest : List α)
deriving DecidableEq, Repr

/-- The next access of a consumer. -/
inductive Consumer (α : Type) where
  /-- Outside every call, with what the last one returned. -/
  | idle (last : List α)
  | loadHead (bufLen : Nat)
  /-- `start` elements had been popped when `head` was loaded. -/
  | loadTail (bufLen head start : Nat)
  /-- Reading the slots. -/
  | read (bufLen head start popLen : Nat) (buf : List α)
  | cas (bufLen head start : Nat) (buf : List α)
deriving DecidableEq, Repr

structure State (T α : Type) where
  queue : Queue α
  pushed : List α
  popped : List α
  producer : Producer α
  consumer : T → Consumer α

variable {T α : Type}

/-- `QueueInit`: the slots are whatever `malloc` left there. -/
def queueInit (capacity : Nat) (dvd : capacity ∣ 2 ^ 32) (lt : capacity < 2 ^ 32) (buf : Nat → α) : State T α :=
  ⟨⟨capacity, 0, 0, buf, dvd, lt⟩, [], [], .idle ⟨0, 0, 0⟩, fun _ => .idle []⟩

/-- The elements that are in their slots and not yet visible. -/
def Producer.written : Producer α → List α
  | .write _ _ _ _ written _ => written
  | .store _ _ written _ => written
  | _ => []

/-! ## Steps of the producer -/

/-- The test of the room; with room, the next element goes to its slot. -/
def stepWrite (s : State T α) (call : Call) (head tail held : Nat) (written : List α) : List α → State T α
  | [] => { s with producer := .store tail held written [] }
  | object :: rest =>
    if sub32 tail head < s.queue.capacity then
      let queue := { s.queue with buf := Function.update s.queue.buf (tail % s.queue.capacity) object }
      let written := written ++ [object]
      if rest = [] then { s with queue := queue, producer := .store (add32 tail 1) held written rest }
      else { s with queue := queue, producer := .write call head (add32 tail 1) held written rest }
    else
      match call with
      -- `ERROR_QUEUE_FULL`
      | .single => { s with producer := .idle ⟨1, 0, held⟩ }
      | .batch => { s with producer := .store tail held written (object :: rest) }

def stepProducer (s : State T α) : Producer α → Option (State T α)
  | .idle _ => none
  | .loadHead call objects =>
    some { s with producer := .loadTail call objects s.queue.head (s.pushed.length - s.popped.length) }
  | .loadTail call objects head held =>
    some { s with producer := .write call head s.queue.tail held [] objects }
  | .write call head tail held written rest => some (stepWrite s call head tail held written rest)
  | .store tail held written rest =>
    some { s with
      queue := { s.queue with tail := tail }
      pushed := s.pushed ++ written
      producer := .idle ⟨written.length + rest.length, written.length, held⟩ }

/-! ## Steps of a consumer -/

variable [DecidableEq T]

def State.goto (s : State T α) (t : T) (c : Consumer α) : State T α :=
  { s with consumer := Function.update s.consumer t c }

/-- `spurious`: whether the weak compare-and-swap fails for no reason. -/
def stepConsumer (s : State T α) (t : T) (spurious : Bool) : Consumer α → Option (State T α)
  | .idle _ => none
  | .loadHead bufLen => some (s.goto t (.loadTail bufLen s.queue.head s.popped.length))
  | .loadTail bufLen head start =>
    let tail := s.queue.tail
    some (s.goto t (if head = tail then .idle [] else .read bufLen head start (Queue.popLen head tail bufLen) []))
  | .read bufLen head start popLen buf =>
    let buf := buf ++ [s.queue.buf (add32 head buf.length % s.queue.capacity)]
    some (s.goto t (if buf.length = popLen then .cas bufLen head start buf else .read bufLen head start popLen buf))
  | .cas bufLen head _ buf =>
    if s.queue.head = head ∧ !spurious then
      some ({ s with queue := { s.queue with head := add32 head buf.length }
                     popped := s.popped ++ buf }.goto t (.idle buf))
    else some (s.goto t (.loadHead bufLen))

/-! ## Any step -/

inductive Act (T α : Type) where
  | pushTail (object : α)
  | pushTailBatch (objects : List α)
  | producer
  /-- `QueuePopHead` is `QueuePopHeadBatch` with a buffer for one element. -/
  | popHead (t : T)
  | popHeadBatch (t : T) (bufLen : Nat)
  | consumer (t : T) (spurious : Bool)
deriving DecidableEq, Repr

/-- A call by an idle thread, or the next access of a thread inside one. -/
def act (s : State T α) : Act T α → Option (State T α)
  | .pushTail object =>
    match s.producer with
    | .idle _ => some { s with producer := .loadHead .single [object] }
    | _ => none
  | .pushTailBatch objects =>
    match s.producer with
    -- nothing to push
    | .idle _ => if objects = [] then some { s with producer := .idle ⟨0, 0, 0⟩ }
      else some { s with producer := .loadHead .batch objects }
    | _ => none
  | .producer => stepProducer s s.producer
  | .popHead t =>
    match s.consumer t with
    | .idle _ => some (s.goto t (.loadHead 1))
    | _ => none
  | .popHeadBatch t bufLen =>
    match s.consumer t with
    | .idle _ => some (s.goto t (if bufLen = 0 then .idle [] else .loadHead bufLen))
    | _ => none
  | .consumer t spurious => stepConsumer s t spurious (s.consumer t)

/-- The assumption on a run: from the load of `head` to the compare-and-swap of one attempt, fewer than `2 ^ 32`
    elements are popped. -/
def Fresh (s : State T α) : Act T α → Prop
  | .consumer t _ =>
    match s.consumer t with
    | .cas _ _ start _ => s.popped.length < start + 2 ^ 32
    | _ => True
  | _ => True

instance (s : State T α) (a : Act T α) : Decidable (Fresh s a) := by
  unfold Fresh
  split
  · split <;> infer_instance
  · infer_instance

end CangjieRuntime.QueueThreads
