import CangjieRuntime.Lib.Ring
import CangjieRuntime.Lib.Word

/-!
# `Sched.Queue` — the processor's run queue

A ring of pointers with two counters of 32 bits that are only ever incremented and wrap: the slot of counter value
`c` is `c % capacity`. The counters wrap without a jump in the slots when the capacity divides `2 ^ 32`; the
processors use 128.

This file has the functions as one thread executes them alone. `Sched.QueueThreads` takes them apart into their
atomic accesses.
-/

namespace CangjieRuntime

open Word Ring List

/-- `struct Queue`, with a capacity that the wrapping counters respect. -/
structure Queue (α : Type) where
  capacity : Nat
  head : Nat
  tail : Nat
  buf : Nat → α
  dvd : capacity ∣ 2 ^ 32
  lt : capacity < 2 ^ 32

namespace Queue

variable {α : Type}

/-! ## The functions -/

def queueLength (q : Queue α) : Nat := sub32 q.tail q.head

/-- `QueuePopHead`; `none` is the null pointer. -/
def queuePopHead (q : Queue α) : Option α × Queue α :=
  if q.tail = q.head then (none, q)
  else (some (q.buf (q.head % q.capacity)), { q with head := add32 q.head 1 })

/-- The number of elements a batch takes when it has read these counters. -/
def popLen (head tail bufLen : Nat) : Nat := if sub32 tail head > bufLen then bufLen else sub32 tail head

/-- `QueuePopHeadBatch`: the elements put into the caller's buffer. -/
def queuePopHeadBatch (q : Queue α) (bufLen : Nat) : List α × Queue α :=
  if bufLen = 0 then ([], q)
  else if q.head = q.tail then ([], q)
  else
    let n := popLen q.head q.tail bufLen
    ((List.range n).map fun i => q.buf (add32 q.head i % q.capacity), { q with head := add32 q.head n })

/-- `QueuePushTail`: false is `ERROR_QUEUE_FULL`. -/
def queuePushTail (q : Queue α) (object : α) : Bool × Queue α :=
  if sub32 q.tail q.head < q.capacity then
    (true, { q with buf := Function.update q.buf (q.tail % q.capacity) object, tail := add32 q.tail 1 })
  else (false, q)

/-- The loop of `QueuePushTailBatch`: the tail, the slots and the number of elements written. -/
def pushLoop (capacity head : Nat) (tail : Nat) (buf : Nat → α) : List α → Nat × (Nat → α) × Nat
  | [] => (tail, buf, 0)
  | object :: rest =>
    if sub32 tail head < capacity then
      let (tail', buf', i) := pushLoop capacity head (add32 tail 1) (Function.update buf (tail % capacity) object) rest
      (tail', buf', i + 1)
    else (tail, buf, 0)

def queuePushTailBatch (q : Queue α) (objects : List α) : Nat × Queue α :=
  let (tail, buf, i) := pushLoop q.capacity q.head q.tail q.buf objects
  (i, { q with tail := tail, buf := buf })

/-! ## What a queue holds -/

/-- The queue holds `xs`, oldest first. -/
structure Holds (q : Queue α) (xs : List α) : Prop where
  length_le : xs.length ≤ q.capacity
  head_lt : q.head < 2 ^ 32
  tail : q.tail = add32 q.head xs.length
  window : Window q.capacity q.buf q.head xs

variable {q : Queue α} {xs : List α}

variable (h : Holds q xs)
include h

theorem Holds.length_lt : xs.length < 2 ^ 32 := h.length_le.trans_lt q.lt

omit h in
/-- The difference of the counters, at the queue's own tail or at one that a batch has advanced. -/
theorem sub32_add32 {head n : Nat} (hn : n < 2 ^ 32) : sub32 (add32 head n) head = n := by
  unfold sub32 add32
  omega

theorem Holds.queueLength_eq : q.queueLength = xs.length := by
  unfold queueLength
  rw [h.tail]
  exact sub32_add32 h.length_lt

omit h in
theorem slot_add32 (q : Queue α) (i : Nat) : add32 q.head i % q.capacity = (q.head + i) % q.capacity :=
  slot_mod q.dvd _

/-- The first `n` elements leave. -/
theorem Holds.drop {n : Nat} (hn : n ≤ xs.length) :
    Holds { q with head := add32 q.head n } (xs.drop n) := by
  have hlt := h.length_lt
  have hhead := h.head_lt
  constructor
  · rw [length_drop]
    exact (Nat.sub_le _ _).trans h.length_le
  · exact Nat.mod_lt _ (by decide)
  · show q.tail = add32 (add32 q.head n) (xs.drop n).length
    rw [h.tail, length_drop]
    unfold add32
    omega
  · have hwindow := h.window
    rw [← take_append_drop n xs] at hwindow
    have hdrop := hwindow.drop
    rw [length_take, Nat.min_eq_left hn] at hdrop
    exact hdrop.shift (slot_mod q.dvd _).symm

/-- An element enters. -/
theorem Holds.push (hroom : xs.length < q.capacity) (x : α) :
    Holds { q with buf := Function.update q.buf (q.tail % q.capacity) x, tail := add32 q.tail 1 } (xs ++ [x]) := by
  constructor
  · rw [length_append, length_singleton]
    exact hroom
  · exact h.head_lt
  · show add32 q.tail 1 = add32 q.head (xs ++ [x]).length
    rw [h.tail, length_append, length_singleton]
    unfold add32
    omega
  · show Window q.capacity (Function.update q.buf (q.tail % q.capacity) x) q.head (xs ++ [x])
    rw [h.tail, slot_add32]
    exact h.window.push hroom x

/-! ## One spec for each function -/

theorem Holds.empty_iff : q.tail = q.head ↔ xs = [] := by
  have hlt := h.length_lt
  have hhead := h.head_lt
  rw [← length_eq_zero_iff, h.tail]
  unfold add32
  omega

omit h in
theorem queuePopHead_nil (h : Holds q []) : q.queuePopHead = (none, q) := if_pos (h.empty_iff.mpr rfl)

omit h in
theorem queuePopHead_cons {x : α} (h : Holds q (x :: xs)) :
    ∃ q', q.queuePopHead = (some x, q') ∧ q'.capacity = q.capacity ∧ Holds q' xs := by
  have hne : q.tail ≠ q.head := fun heq => cons_ne_nil x xs (h.empty_iff.mp heq)
  have hread : some x = some (q.buf (q.head % q.capacity)) := h.window 0 (Nat.zero_lt_succ _)
  have hrest : Holds { q with head := add32 q.head 1 } xs := h.drop (n := 1) (Nat.succ_le_succ (Nat.zero_le _))
  refine ⟨{ q with head := add32 q.head 1 }, ?_, rfl, hrest⟩
  unfold queuePopHead
  rw [if_neg hne, ← hread]

/-- A batch takes the first elements, as many as there are and as fit the buffer. -/
theorem queuePopHeadBatch_spec (bufLen : Nat) :
    ∃ q', q.queuePopHeadBatch bufLen = (xs.take bufLen, q') ∧ q'.capacity = q.capacity ∧
      Holds q' (xs.drop bufLen) := by
  unfold queuePopHeadBatch
  by_cases hbuf : bufLen = 0
  · rw [if_pos hbuf, hbuf]
    exact ⟨q, rfl, rfl, h⟩
  rw [if_neg hbuf]
  by_cases hempty : q.head = q.tail
  · have hnil := h.empty_iff.mp hempty.symm
    rw [if_pos hempty, hnil, take_nil, drop_nil]
    exact ⟨q, rfl, rfl, hnil ▸ h⟩
  rw [if_neg hempty]
  have hlen : sub32 q.tail q.head = xs.length := h.queueLength_eq
  have hn : popLen q.head q.tail bufLen = min bufLen xs.length := by
    unfold popLen
    rw [hlen]
    split <;> omega
  have htake : xs.take (min bufLen xs.length) = xs.take bufLen := by
    rw [← take_take, take_length]
  have hdrop : xs.drop (min bufLen xs.length) = xs.drop bufLen := by
    rcases Nat.le_total bufLen xs.length with hle | hle
    · rw [Nat.min_eq_left hle]
    · rw [Nat.min_eq_right hle, drop_length, drop_eq_nil_of_le hle]
  have hread : ((range (min bufLen xs.length)).map fun i => q.buf (add32 q.head i % q.capacity)) =
      xs.take (min bufLen xs.length) := by
    apply ext_getElem?
    intro i
    by_cases hi : i < min bufLen xs.length
    · have hwindow := h.window i (by omega)
      rw [getElem?_map, getElem?_range hi, getElem?_take_of_lt hi, hwindow, ← slot_add32 q i]
      rfl
    · rw [getElem?_eq_none (by rw [length_map, length_range]; omega),
        getElem?_eq_none (by rw [length_take]; omega)]
  refine ⟨{ q with head := add32 q.head (min bufLen xs.length) }, ?_, rfl, ?_⟩
  · simp only [hn, hread, htake]
  · rw [← hdrop]
    exact h.drop (Nat.min_le_right _ _)

theorem queuePushTail_spec (x : α) :
    (xs.length < q.capacity ∧ ∃ q', q.queuePushTail x = (true, q') ∧ q'.capacity = q.capacity ∧ Holds q' (xs ++ [x])) ∨
      (xs.length = q.capacity ∧ q.queuePushTail x = (false, q)) := by
  have hlen : sub32 q.tail q.head = xs.length := h.queueLength_eq
  unfold queuePushTail
  rw [hlen]
  split_ifs with hroom
  · exact Or.inl ⟨hroom, _, rfl, rfl, h.push hroom x⟩
  · exact Or.inr ⟨Nat.le_antisymm h.length_le (Nat.not_lt.mp hroom), rfl⟩

omit h in
/-- The loop is a sequence of pushes into a queue whose tail is not yet stored. -/
theorem pushLoop_spec (objects : List α) (h : Holds q xs) :
    ∃ q', pushLoop q.capacity q.head q.tail q.buf objects =
        (q'.tail, q'.buf, min objects.length (q.capacity - xs.length)) ∧
      q' = { q with tail := q'.tail, buf := q'.buf } ∧
      Holds q' (xs ++ objects.take (q.capacity - xs.length)) := by
  induction objects generalizing q xs with
  | nil =>
    refine ⟨q, ?_, rfl, ?_⟩
    · rw [length_nil, Nat.zero_min]
      rfl
    · rw [take_nil, append_nil]
      exact h
  | cons object rest ih =>
    have hlen : sub32 q.tail q.head = xs.length := h.queueLength_eq
    unfold pushLoop
    rw [hlen]
    split_ifs with hroom
    · obtain ⟨q', hloop, hq', hholds⟩ := ih (h.push hroom object)
      have hsucc : q.capacity - xs.length = q.capacity - (xs ++ [object]).length + 1 := by
        rw [length_append, length_singleton]
        omega
      refine ⟨q', ?_, hq', ?_⟩
      · rw [hloop, length_cons, hsucc, Nat.succ_min_succ]
      · rw [hsucc, take_succ_cons, append_cons]
        exact hholds
    · have hfull : q.capacity - xs.length = 0 := Nat.sub_eq_zero_of_le (Nat.not_lt.mp hroom)
      refine ⟨q, ?_, rfl, ?_⟩
      · rw [hfull, Nat.min_zero]
      · rw [hfull, take_zero, append_nil]
        exact h

/-- A batch puts in as many elements as there is room for. -/
theorem queuePushTailBatch_spec (objects : List α) :
    ∃ q', q.queuePushTailBatch objects = (min objects.length (q.capacity - xs.length), q') ∧
      q'.capacity = q.capacity ∧ Holds q' (xs ++ objects.take (q.capacity - xs.length)) := by
  obtain ⟨q', hloop, hq', hholds⟩ := pushLoop_spec objects h
  refine ⟨q', ?_, by rw [hq'], hholds⟩
  unfold queuePushTailBatch
  rw [hloop, hq']

end Queue

end CangjieRuntime
