import CangjieRuntime.Sched.QueueThreads

/-!
# `Sched.Correctness.QueueOrder` — the run queue is a queue

The counters are the numbers of elements pushed and popped so far, modulo `2 ^ 32`, and the slots hold the window of the
pushed sequence from the first element not popped to the last one written (`Inv`).

A consumer reads slots that it does not own yet, and what it has read may be stale or torn. It does not matter: what
the invariant says about it is conditional on *nobody having popped since it loaded `head`*. As long as that is so,
the elements it reads are in the window and stay there, because the producer only writes behind the window. Once
somebody has popped it is never so again, and the compare-and-swap fails, unless the counter has come all the way
round; this is where `Fresh` is used.

The producer's copy of `head` may be stale too, but only in the harmless direction: the queue then has more room than
it thinks.
-/

namespace CangjieRuntime.QueueThreads

open Word Ring Interleave Function List

variable {T α : Type} {capacity popped popped' : Nat} {s : State T α} {pushed : List α} {c : Consumer α}

/-! ## What the threads know -/

/-- `head` was loaded when `pushed` elements had been pushed and `held` of them were still in the queue. -/
def HeadLoaded (pushed popped head held : Nat) : Prop :=
  ∃ start, start ≤ popped ∧ head = start % 2 ^ 32 ∧ start + held = pushed

/-- A call has something to push, and `QueuePushTail` one element. -/
def CallOk (call : Call) (objects : List α) : Prop := objects ≠ [] ∧ (call = .single → objects.length = 1)

/-- What the producer knows, in a queue of the given capacity, when so many elements have been pushed and popped. -/
def ProducerOk (capacity pushed popped : Nat) : Producer α → Prop
  | .idle last => last.accepted < last.offered → last.held + last.accepted = capacity
  | .loadHead call objects => CallOk call objects
  | .loadTail call objects head held =>
    CallOk call objects ∧ HeadLoaded pushed popped head held ∧ held ≤ capacity
  | .write call head tail held written rest =>
    CallOk call (written ++ rest) ∧ rest ≠ [] ∧ HeadLoaded pushed popped head held ∧
      held + written.length ≤ capacity ∧ tail = (pushed + written.length) % 2 ^ 32
  | .store tail held written rest =>
    (rest ≠ [] → held + written.length = capacity) ∧ tail = (pushed + written.length) % 2 ^ 32

/-- What a consumer knows, when these elements have been pushed and so many popped. What it has read counts only as
    long as nobody has popped since. -/
def ConsumerOk (pushed : List α) (popped : Nat) : Consumer α → Prop
  | .idle _ => True
  | .loadHead bufLen => 0 < bufLen
  | .loadTail bufLen head start => 0 < bufLen ∧ start ≤ popped ∧ head = start % 2 ^ 32
  | .read bufLen head start popLen buf =>
    0 < bufLen ∧ start ≤ popped ∧ head = start % 2 ^ 32 ∧ buf.length < popLen ∧
      (start = popped → start + popLen ≤ pushed.length ∧ buf <+: pushed.drop start)
  | .cas bufLen head start buf =>
    0 < bufLen ∧ start ≤ popped ∧ head = start % 2 ^ 32 ∧ buf ≠ [] ∧ (start = popped → buf <+: pushed.drop start)

/-- **The invariant**, of a queue made with this capacity. -/
structure Inv (capacity : Nat) (s : State T α) : Prop where
  capacity : s.queue.capacity = capacity
  order : s.popped <+: s.pushed
  head : s.queue.head = s.popped.length % 2 ^ 32
  tail : s.queue.tail = s.pushed.length % 2 ^ 32
  window : Window s.queue.capacity s.queue.buf s.popped.length (s.pushed.drop s.popped.length ++ s.producer.written)
  room : s.pushed.length + s.producer.written.length ≤ s.popped.length + s.queue.capacity
  producer : ProducerOk s.queue.capacity s.pushed.length s.popped.length s.producer
  consumer : ∀ t, ConsumerOk s.pushed s.popped.length (s.consumer t)

theorem inv_queueInit (dvd : capacity ∣ 2 ^ 32) (lt : capacity < 2 ^ 32) (buf : Nat → α) :
    Inv capacity (queueInit capacity dvd lt buf : State T α) where
  capacity := rfl
  order := prefix_refl _
  head := rfl
  tail := rfl
  window := window_nil
  room := Nat.zero_le _
  producer := fun h => absurd h (Nat.lt_irrefl 0)
  consumer _ := trivial

theorem Inv.popped_le (hi : Inv capacity s) : s.popped.length ≤ s.pushed.length := hi.order.length_le

/-- The queue never holds more than its capacity, and the difference of the counters is what it holds. -/
theorem Inv.queueLength_eq (hi : Inv capacity s) :
    s.queue.queueLength = s.pushed.length - s.popped.length ∧
      s.pushed.length - s.popped.length ≤ s.queue.capacity := by
  have hroom := hi.room
  have hle := hi.popped_le
  have hlt := s.queue.lt
  refine ⟨?_, by omega⟩
  unfold Queue.queueLength
  rw [hi.tail, hi.head]
  exact sub32_mod hle (by omega)

/-! ## What the others' steps leave true -/

theorem ConsumerOk.push (h : ConsumerOk pushed popped c)
    (xs : List α) : ConsumerOk (pushed ++ xs) popped c := by
  -- what was a prefix of the pushed elements from `start` on remains one
  have happend {start : Nat} {buf : List α} (hpre : buf <+: pushed.drop start) : buf <+: (pushed ++ xs).drop start := by
    rw [drop_append]
    exact hpre.trans (prefix_append _ _)
  cases c with
  | idle last | loadHead bufLen | loadTail bufLen head start => exact h
  | read bufLen head start popLen buf =>
    obtain ⟨hpos, hle, hhead, hlen, hfresh⟩ := h
    refine ⟨hpos, hle, hhead, hlen, fun heq => ⟨?_, happend (hfresh heq).2⟩⟩
    rw [length_append]
    exact Nat.le_add_right_of_le (hfresh heq).1
  | cas bufLen head start buf =>
    obtain ⟨hpos, hle, hhead, hne, hfresh⟩ := h
    exact ⟨hpos, hle, hhead, hne, fun heq => happend (hfresh heq)⟩

/-- After a pop, nothing that was loaded before counts any more. -/
theorem ConsumerOk.pop (h : ConsumerOk pushed popped c)
    (hlt : popped < popped') : ConsumerOk pushed popped' c := by
  cases c with
  | idle last | loadHead bufLen => exact h
  | loadTail bufLen head start => exact ⟨h.1, h.2.1.trans hlt.le, h.2.2⟩
  | read bufLen head start popLen buf | cas bufLen head start buf =>
    obtain ⟨hpos, hle, hhead, hlen, -⟩ := h
    exact ⟨hpos, by omega, hhead, hlen, fun heq => by omega⟩

theorem HeadLoaded.pop {pushed popped popped' head held : Nat} (h : HeadLoaded pushed popped head held)
    (hle : popped ≤ popped') : HeadLoaded pushed popped' head held := by
  obtain ⟨start, hstart, hhead, hheld⟩ := h
  exact ⟨start, hstart.trans hle, hhead, hheld⟩

theorem ProducerOk.pop {capacity pushed popped popped' : Nat} {p : Producer α}
    (h : ProducerOk capacity pushed popped p) (hle : popped ≤ popped') : ProducerOk capacity pushed popped' p := by
  cases p with
  | idle last | loadHead call objects | store tail held written rest => exact h
  | loadTail call objects head held =>
    obtain ⟨hcall, hloaded, hheld⟩ := h
    exact ⟨hcall, hloaded.pop hle, hheld⟩
  | write call head tail held written rest =>
    obtain ⟨hcall, hrest, hloaded, hheld, htail⟩ := h
    exact ⟨hcall, hrest, hloaded.pop hle, hheld, htail⟩

/-! ## Steps of the producer -/

section Producer

variable {capacity : Nat} {s s' : State T α} {p : Producer α} {tail held : Nat} {written rest : List α}

variable (hi : Inv capacity s)
include hi

/-- A step of the producer that writes no slot and publishes nothing. -/
theorem Inv.produce (hwritten : p.written = s.producer.written)
    (hp : ProducerOk s.queue.capacity s.pushed.length s.popped.length p) : Inv capacity { s with producer := p } :=
  { hi with window := hwritten ▸ hi.window, room := hwritten ▸ hi.room, producer := hp }

/-- A slot is written: it is the one behind the window. -/
theorem Inv.writeSlot {object : α}
    (hwritten : p.written = s.producer.written ++ [object])
    (hroom : s.pushed.length + s.producer.written.length < s.popped.length + s.queue.capacity)
    (htail : tail = (s.pushed.length + s.producer.written.length) % 2 ^ 32)
    (hp : ProducerOk s.queue.capacity s.pushed.length s.popped.length p) :
    Inv capacity { s with
      queue := { s.queue with buf := update s.queue.buf (tail % s.queue.capacity) object }
      producer := p } := by
  have hle := hi.popped_le
  have hlen : s.popped.length + (s.pushed.drop s.popped.length ++ s.producer.written).length =
      s.pushed.length + s.producer.written.length := by
    rw [length_append, length_drop]
    omega
  refine { hi with window := ?_, room := ?_, producer := hp }
  · rw [hwritten, ← append_assoc, htail, slot_mod s.queue.dvd, ← hlen]
    exact hi.window.push (by omega) object
  · rw [hwritten, length_append, length_singleton]
    exact hroom

theorem stepWrite_inv {call : Call} {head tail held : Nat}
    (hpc : s.producer = .write call head tail held written rest) :
    Inv capacity (stepWrite s call head tail held written rest) := by
  have hp := hi.producer
  have hin : s.producer.written = written := by rw [hpc]; rfl
  rw [hpc] at hp
  obtain ⟨hcall, hrest, ⟨start, hstart, hhead, hheld⟩, hcap, htail⟩ := hp
  cases rest with
  | nil => exact absurd rfl hrest
  | cons object rest =>
    -- the producer compares with the queue as it was when it loaded `head`
    have hdiff : sub32 tail head = held + written.length := by
      have hlt := s.queue.lt
      rw [htail, hhead, sub32_mod (by omega) (by omega)]
      omega
    simp only [stepWrite, hdiff]
    by_cases hroom : held + written.length < s.queue.capacity
    · have hwrite : s.pushed.length + s.producer.written.length < s.popped.length + s.queue.capacity := by
        rw [hin]; omega
      have hslot : tail = (s.pushed.length + s.producer.written.length) % 2 ^ 32 := by rw [hin]; exact htail
      have htail' : add32 tail 1 = (s.pushed.length + (written ++ [object]).length) % 2 ^ 32 := by
        rw [htail, add32_mod, length_append, length_singleton, Nat.add_assoc]
      have hlen : held + (written ++ [object]).length = held + written.length + 1 := by
        rw [length_append, length_singleton, Nat.add_assoc]
      rw [if_pos hroom]
      split_ifs with hlast
      · exact hi.writeSlot (by rw [hin]; rfl) hwrite hslot ⟨fun hne => absurd hlast hne, htail'⟩
      · refine hi.writeSlot (by rw [hin]; rfl) hwrite hslot
          ⟨?_, hlast, ⟨start, hstart, hhead, hheld⟩, by rw [hlen]; exact hroom, htail'⟩
        rw [← append_cons]
        exact hcall
    · -- no room: the queue, as loaded, and what was written fill the ring
      have hfull : held + written.length = s.queue.capacity := Nat.le_antisymm hcap (Nat.not_lt.mp hroom)
      rw [if_neg hroom]
      cases call with
      | single =>
        have hone := hcall.2 rfl
        have hnil : written = [] := by
          rw [← length_eq_zero_iff]
          rw [length_append, length_cons] at hone
          omega
        refine hi.produce (by rw [hin, hnil]; rfl) fun _ => ?_
        rw [hnil] at hfull
        exact hfull
      | batch => exact hi.produce (by rw [hin]; rfl) ⟨fun _ => hfull, htail⟩

/-- The store of `tail` makes the written elements visible. -/
theorem store_inv
    (hpc : s.producer = .store tail held written rest) :
    Inv capacity { s with
      queue := { s.queue with tail := tail }
      pushed := s.pushed ++ written
      producer := .idle ⟨written.length + rest.length, written.length, held⟩ } := by
  have hp := hi.producer
  have hwindow := hi.window
  have hroom := hi.room
  rw [hpc] at hp hwindow hroom
  obtain ⟨hrefused, htail⟩ := hp
  refine
    { hi with
      order := hi.order.trans (prefix_append _ _)
      tail := ?_, window := ?_, room := ?_, producer := ?_, consumer := ?_ }
  · rw [length_append]
    exact htail
  · rw [drop_append_of_le_length hi.popped_le]
    simpa [Producer.written] using hwindow
  · rw [length_append]
    exact hroom
  · intro hlt
    apply hrefused
    rintro rfl
    exact Nat.lt_irrefl _ hlt
  · exact fun t => (hi.consumer t).push written

theorem stepProducer_inv (h : stepProducer s s.producer = some s') : Inv capacity s' := by
  have hp := hi.producer
  cases hpc : s.producer with
  | idle last => rw [hpc] at h; cases h
  | loadHead call objects =>
    rw [hpc] at h hp
    cases h
    refine hi.produce (by rw [hpc]; rfl) ⟨hp, ⟨s.popped.length, Nat.le_refl _, hi.head, ?_⟩, hi.queueLength_eq.2⟩
    exact Nat.add_sub_cancel' hi.popped_le
  | loadTail call objects head held =>
    rw [hpc] at h hp
    cases h
    obtain ⟨hcall, hloaded, hheld⟩ := hp
    exact hi.produce (by rw [hpc]; rfl) ⟨hcall, hcall.1, hloaded, hheld, hi.tail⟩
  | write call head tail held written rest => rw [hpc] at h; cases h; exact stepWrite_inv hi hpc
  | store tail held written rest => rw [hpc] at h; cases h; exact store_inv hi hpc

end Producer

/-! ## Steps of a consumer -/

section Consumer

variable [DecidableEq T] {capacity : Nat} {s s' : State T α} {t : T}

variable (hi : Inv capacity s)
include hi

/-- A step of a consumer that only reads. -/
theorem Inv.goto {c : Consumer α} (hc : ConsumerOk s.pushed s.popped.length c) : Inv capacity (s.goto t c) :=
  { hi with consumer := (forall_update_iff _ _).mpr ⟨hc, fun u _ => hi.consumer u⟩ }

theorem loadTail_inv {bufLen head start : Nat} (hpc : s.consumer t = .loadTail bufLen head start) :
    Inv capacity (s.goto t (if head = s.queue.tail then .idle []
      else .read bufLen head start (Queue.popLen head s.queue.tail bufLen) [])) := by
  have hc := hi.consumer t
  rw [hpc] at hc
  obtain ⟨hpos, hle, hhead⟩ := hc
  by_cases hempty : head = s.queue.tail
  · rw [if_pos hempty]
    exact hi.goto trivial
  rw [if_neg hempty]
  apply hi.goto
  refine ⟨hpos, hle, hhead, ?_, ?_⟩
  · -- different counters have a difference
    have htail := hi.tail
    show 0 < Queue.popLen head s.queue.tail bufLen
    unfold Queue.popLen sub32
    split <;> omega
  · -- nobody has popped: the difference is what the queue holds
    intro heq
    have hdiff : sub32 s.queue.tail head = s.pushed.length - s.popped.length := by
      rw [hhead, heq, ← hi.head]
      exact hi.queueLength_eq.1
    have hpopped := hi.popped_le
    refine ⟨?_, nil_prefix⟩
    unfold Queue.popLen
    rw [hdiff]
    split <;> omega

theorem read_inv {bufLen head start popLen : Nat} {buf : List α}
    (hpc : s.consumer t = .read bufLen head start popLen buf) :
    Inv capacity (s.goto t (if (buf ++ [s.queue.buf (add32 head buf.length % s.queue.capacity)]).length = popLen
      then .cas bufLen head start (buf ++ [s.queue.buf (add32 head buf.length % s.queue.capacity)])
      else .read bufLen head start popLen (buf ++ [s.queue.buf (add32 head buf.length % s.queue.capacity)]))) := by
  have hc := hi.consumer t
  rw [hpc] at hc
  obtain ⟨hpos, hle, hhead, hlen, hfresh⟩ := hc
  -- nobody has popped: the slot belongs to the window
  have hread : start = s.popped.length →
      buf ++ [s.queue.buf (add32 head buf.length % s.queue.capacity)] <+: s.pushed.drop start := by
    intro heq
    obtain ⟨hin, hpre⟩ := hfresh heq
    have hbound : buf.length < (s.pushed.drop start).length := by rw [length_drop]; omega
    have hwindow : (s.pushed.drop start)[buf.length]? =
        some (s.queue.buf (add32 head buf.length % s.queue.capacity)) := by
      rw [hhead, add32_mod, slot_mod s.queue.dvd, heq]
      rw [heq] at hbound
      exact hi.window.front buf.length hbound
    rw [prefix_iff_eq_take] at hpre ⊢
    rw [length_append, length_singleton, take_add_one, ← hpre, hwindow]
    rfl
  have hlast : (buf ++ [s.queue.buf (add32 head buf.length % s.queue.capacity)]).length = buf.length + 1 := by
    rw [length_append, length_singleton]
  split_ifs with hdone
  · exact hi.goto ⟨hpos, hle, hhead, by simp, hread⟩
  · exact hi.goto ⟨hpos, hle, hhead, by omega, fun heq => ⟨(hfresh heq).1, hread heq⟩⟩

/-- **The compare-and-swap claims exactly the elements that were read.** -/
theorem cas_inv {bufLen head start : Nat} {buf : List α} (hpc : s.consumer t = .cas bufLen head start buf)
    (hcas : s.queue.head = head) (hfresh : s.popped.length < start + 2 ^ 32) :
    Inv capacity ({ s with queue := { s.queue with head := add32 head buf.length },
                           popped := s.popped ++ buf }.goto t (.idle buf)) := by
  have hc := hi.consumer t
  rw [hpc] at hc
  obtain ⟨hpos, hle, hhead, hne, hknown⟩ := hc
  -- the counter has not come round, so nobody has popped
  have hstart : start = s.popped.length := by
    have hcounter := hi.head
    omega
  obtain ⟨rest, hrest⟩ := hknown hstart
  rw [hstart] at hrest
  obtain ⟨live, hlive⟩ := hi.order
  have hdrop : s.pushed.drop s.popped.length = live := by rw [← hlive, drop_left]
  have hsplit : s.pushed = s.popped ++ buf ++ rest := by
    rw [append_assoc, hrest, hdrop, hlive]
  have hlen : (s.popped ++ buf).length = s.popped.length + buf.length := length_append
  have hgrow : s.popped.length < (s.popped ++ buf).length := by
    have hbuf := length_pos_iff.mpr hne
    omega
  refine
    { hi with
      order := ⟨rest, hsplit.symm⟩
      producer := hi.producer.pop hgrow.le
      head := ?_, window := ?_, room := ?_, consumer := ?_ }
  · show add32 head buf.length = (s.popped ++ buf).length % 2 ^ 32
    rw [hlen, hhead, hstart, add32_mod]
  · have hwindow := hi.window
    rw [← hrest, append_assoc] at hwindow
    show Window s.queue.capacity s.queue.buf (s.popped ++ buf).length
      (s.pushed.drop (s.popped ++ buf).length ++ s.producer.written)
    rw [hlen, ← drop_drop, ← hrest, drop_left]
    exact hwindow.drop
  · have hroom := hi.room
    show s.pushed.length + s.producer.written.length ≤ (s.popped ++ buf).length + s.queue.capacity
    omega
  · exact (forall_update_iff _ _).mpr ⟨trivial, fun u _ => (hi.consumer u).pop hgrow⟩

theorem stepConsumer_inv {spurious : Bool} (hok : Fresh s (.consumer t spurious))
    (h : stepConsumer s t spurious (s.consumer t) = some s') : Inv capacity s' := by
  have hc := hi.consumer t
  cases hpc : s.consumer t with
  | idle last => rw [hpc] at h; cases h
  | loadHead bufLen =>
    rw [hpc] at h hc
    cases h
    exact hi.goto ⟨hc, Nat.le_refl _, hi.head⟩
  | loadTail bufLen head start => rw [hpc] at h; cases h; exact loadTail_inv hi hpc
  | read bufLen head start popLen buf => rw [hpc] at h; cases h; exact read_inv hi hpc
  | cas bufLen head start buf =>
    simp only [Fresh, hpc] at hok
    rw [hpc] at h hc
    simp only [stepConsumer] at h
    by_cases hcas : s.queue.head = head ∧ !spurious
    · rw [if_pos hcas] at h
      cases h
      exact cas_inv hi hpc hcas.1 hok
    · rw [if_neg hcas] at h
      cases h
      exact hi.goto hc.1

end Consumer

/-! ## Every step, and whole runs -/

variable [DecidableEq T]

theorem act_inv (s : State T α) (a : Act T α) (s' : State T α) (hi : Inv capacity s) (hok : Fresh s a)
    (h : act s a = some s') : Inv capacity s' := by
  cases a with
  | producer => exact stepProducer_inv hi h
  | consumer t spurious => exact stepConsumer_inv hi hok h
  | pushTail object =>
    simp only [act] at h
    split at h <;> cases h
    rename_i hpc
    exact hi.produce (by rw [hpc]; rfl) ⟨cons_ne_nil _ _, fun _ => rfl⟩
  | pushTailBatch objects =>
    simp only [act] at h
    split at h
    · rename_i hpc
      split_ifs at h with hnil <;> cases h
      · exact hi.produce (by rw [hpc]; rfl) fun hlt => absurd hlt (Nat.lt_irrefl 0)
      · exact hi.produce (by rw [hpc]; rfl) ⟨hnil, nofun⟩
    · cases h
  | popHead t =>
    simp only [act] at h
    split at h <;> cases h
    exact hi.goto (Nat.zero_lt_one)
  | popHeadBatch t bufLen =>
    simp only [act] at h
    split at h <;> cases h
    split_ifs with hzero
    · exact hi.goto trivial
    · exact hi.goto (Nat.pos_of_ne_zero hzero)

/-- **The run queue neither loses nor duplicates elements.** In every state reached by any interleaving in which no
    attempt to pop is overtaken by `2 ^ 32` pops: the popped elements are a prefix of the pushed ones; the queue holds
    no more than its capacity; and a push that was refused an element had found, at its load of `head`, a queue that
    was full together with the elements the push had put in. -/
theorem popped_prefix_pushed {capacity : Nat} {dvd : capacity ∣ 2 ^ 32} {lt : capacity < 2 ^ 32} {buf : Nat → α}
    {s : State T α} (hrun : Run act Fresh (queueInit capacity dvd lt buf) s) :
    s.popped <+: s.pushed ∧
    (s.queue.queueLength = s.pushed.length - s.popped.length ∧ s.queue.queueLength ≤ capacity) ∧
    ∀ push, s.producer = .idle push → push.accepted < push.offered → push.held + push.accepted = capacity := by
  have hi : Inv capacity s := run_invariant hrun (inv_queueInit dvd lt buf) act_inv
  obtain ⟨hlen, hcap⟩ := hi.queueLength_eq
  rw [hi.capacity] at hcap
  refine ⟨hi.order, ⟨hlen, hlen ▸ hcap⟩, ?_⟩
  intro push hpush
  have hproducer := hi.producer
  rw [hpush, hi.capacity] at hproducer
  exact hproducer

/-- Three elements for a ring of two: the producer stops at the third, and consumer `t` takes one. -/
def fillRun (t : T) : List (Act T Nat) :=
  [.pushTailBatch [1, 2, 3], .producer, .producer, .producer, .popHead t, .consumer t false, .producer, .producer,
   .producer, .consumer t false, .consumer t false, .consumer t false]

theorem popped_prefix_pushed_fill :
    ∃ s : State Unit Nat, Run act Fresh (queueInit 2 (by decide) (by decide) fun _ => 0) s ∧
      (s.popped = [1] ∧ s.pushed = [1, 2] ∧ s.producer = .idle ⟨3, 2, 0⟩) ∧ s.popped <+: s.pushed := by
  have hexec : (runActs act Fresh (queueInit 2 (by decide) (by decide) fun _ => 0) (fillRun ())).map
      (fun s => (s.popped, s.pushed, s.producer)) = some ([1], [1, 2], .idle ⟨3, 2, 0⟩) := by
    decide
  obtain ⟨s, hs, hvalues⟩ := Option.map_eq_some_iff.mp hexec
  have hrun := run_of_runActs hs
  obtain ⟨hpopped, hrest⟩ := Prod.mk.inj hvalues
  exact ⟨s, hrun, ⟨hpopped, Prod.mk.inj hrest⟩, (popped_prefix_pushed hrun).1⟩

end CangjieRuntime.QueueThreads
