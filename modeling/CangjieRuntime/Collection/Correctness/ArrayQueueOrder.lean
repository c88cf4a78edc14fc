import CangjieRuntime.Lib.Ring
import CangjieRuntime.Collection.ArrayBlockingQueue

/-!
# `Collection.Correctness.ArrayQueueOrder` — the array queue is a bounded first-in first-out queue

Behind the state bytes stands an abstract slot: the number of the element that the slot is for, and whether it is
writeable, readable or locked. The byte shows the parity of the round only. That is enough, because the number lies
within one round of both counters (`Slots`), where two numbers of one slot differ in parity.

`Held` says for every point of the code what the thread that stands there can rely on. A thread that has taken a number
owns the slot: it is the only writer, the only taker or the only one that holds the lock, and what the others do leaves
its slot alone. From this, every number that is removed is returned with the element that was added under it.

All of this holds for at most `2 ^ 31` slots, and as long as `reserved + capacity` does not overflow. With more slots,
the compare-and-swap on a slot leaves the array of the states when its index is `2 ^ 31`. After the overflow, `tryAdd`
can find an empty queue full.
-/

namespace CangjieRuntime.ArrayBlockingQueue

open Word Interleave Function List Option

/-! ## Bytes -/

inductive Kind where
  | writeable
  | readable
  | locked
deriving DecidableEq, Repr

def Kind.code : Kind → Nat
  | .writeable => WRITEABLE
  | .readable => READABLE
  | .locked => LOCK

/-- The byte of a slot in the given round. -/
def byte (kind : Kind) (round : Nat) : Nat := kind.code ||| (round % 2) <<< ROUND_BIT

section Bytes

variable {kind kind' : Kind} {round round' : Nat}

theorem byte_congr (h : round % 2 = round' % 2) : byte kind round = byte kind round' := by
  unfold byte
  rw [h]

theorem byte_shift (kind : Kind) (round : Nat) : byte kind round >>> ROUND_BIT = round % 2 := by
  rcases Nat.mod_two_eq_zero_or_one round with h | h <;> cases kind <;> simp only [byte, h] <;> decide

theorem byte_and (kind : Kind) (round : Nat) : byte kind round &&& STATE_BITS = kind.code := by
  rcases Nat.mod_two_eq_zero_or_one round with h | h <;> cases kind <;> simp only [byte, h] <;> decide

theorem code_inj (h : kind.code = kind'.code) : kind = kind' := by
  cases kind <;> cases kind' <;> first | rfl | exact absurd h (by decide)

theorem byte_inj (h : byte kind round = byte kind' round') : kind = kind' ∧ round % 2 = round' % 2 := by
  constructor
  · apply code_inj
    rw [← byte_and kind round, h, byte_and]
  · rw [← byte_shift kind round, h, byte_shift]

theorem readableState_byte (round : Nat) : readableState (round % 2) = byte .readable round := by
  rcases Nat.mod_two_eq_zero_or_one round with h | h <;> simp only [byte, h] <;> decide

theorem lockState_byte (round : Nat) : lockState (round % 2) = byte .locked round := by
  rcases Nat.mod_two_eq_zero_or_one round with h | h <;> simp only [byte, h] <;> decide

theorem writeableState_byte (round : Nat) : writeableState (round % 2) = byte .writeable (round + 1) := by
  have hodd : (round + 1) % 2 = 1 - round % 2 := by omega
  rcases Nat.mod_two_eq_zero_or_one round with h | h <;> simp only [byte, hodd, h] <;> decide

theorem matchState_byte (round : Nat) (kind : Kind) (round' : Nat) (kind' : Kind) :
    matchState round (byte kind round' >>> ROUND_BIT) (byte kind round' &&& STATE_BITS) kind'.code =
      decide (round % 2 = round' % 2 ∧ kind = kind') := by
  have hcode : kind.code = kind'.code ↔ kind = kind' := ⟨code_inj, congrArg Kind.code⟩
  rw [byte_shift, byte_and, matchState, Nat.and_one_is_mod, Bool.decide_and, Bool.beq_eq_decide_eq,
    Bool.beq_eq_decide_eq]
  simp only [hcode]

end Bytes

/-! ## Slots -/

/-- The part of the state that the elements are in. -/
structure Contents (T E : Type) where
  buffer : Nat → E
  state : Nat → Nat
  allocated : Nat
  reserved : Nat
  puts : List E
  takes : List T

def State.contents {T E : Type} (s : State T E) : Contents T E :=
  ⟨s.buffer, s.state, s.allocated, s.reserved, s.puts, s.takes⟩

/-- What the state byte of a slot stands for. -/
structure Slot where
  kind : Kind
  number : Nat

variable {T E : Type} {capacity : Capacity}

def Capacity.slotByte (capacity : Capacity) (slot : Slot) : Nat := byte slot.kind (capacity.getRound slot.number)

/-- A slot and the counters. An element that is not removed yet lies in its slot. -/
structure SlotOk (capacity : Capacity) (q : Contents T E) (i : Nat) (slot : Slot) : Prop where
  state : q.state i = capacity.slotByte slot
  index : capacity.getIndex slot.number = i
  allocated_le : q.allocated ≤ slot.number + capacity.toNat
  lt_reserved : slot.number < q.reserved + capacity.toNat
  writeable : slot.kind = .writeable → q.reserved ≤ slot.number
  filled : slot.kind ≠ .writeable → slot.number < q.allocated
  element : slot.kind ≠ .writeable → q.reserved ≤ slot.number → q.puts[slot.number]? = some (q.buffer i)

structure Slots (capacity : Capacity) (q : Contents T E) (slots : Nat → Slot) : Prop where
  puts : q.puts.length = q.allocated
  takes : q.takes.length = q.reserved
  reserved_le : q.reserved ≤ q.allocated
  allocated_le : q.allocated ≤ q.reserved + capacity.toNat
  slot : ∀ i, i < capacity.toNat → SlotOk capacity q i (slots i)

/-! ## Threads -/

/-- Number `r` was taken by this thread from a slot that still is in its round. -/
structure Taking (capacity : Capacity) (q : Contents T E) (slots : Nat → Slot) (t : T) (r st : Nat) : Prop where
  lt : r < q.reserved
  number : (slots (capacity.getIndex r)).number = r
  kind : (slots (capacity.getIndex r)).kind ≠ .writeable
  byte : st = byte .readable (capacity.getRound r)
  taker : q.takes[r]? = some t

/-- Number `r` was given to this thread, which has not made the slot readable yet. -/
structure Writing (capacity : Capacity) (q : Contents T E) (slots : Nat → Slot) (r st : Nat) : Prop where
  lt : r < q.allocated
  slot : slots (capacity.getIndex r) = ⟨.writeable, r⟩
  byte : st = byte .writeable (capacity.getRound r)

/-- The thread holds the lock of the slot. -/
structure Locking (capacity : Capacity) (slots : Nat → Slot) (r st : Nat) : Prop where
  kind : (slots (capacity.getIndex r)).kind = .locked
  byte : st = byte .readable (capacity.getRound (slots (capacity.getIndex r)).number)

/-- Element `e` was added as number `r`, and this thread has taken it. -/
def Took (puts : List E) (takes : List T) (t : T) (r : Nat) (e : E) : Prop := puts[r]? = some e ∧ takes[r]? = some t

/-- What is true of a result. -/
def Returned (puts : List E) (takes : List T) (t : T) (full empty : Bool) : Ret E → Prop
  | .added false => full = true
  | .removed none => empty = true
  | .removed (some (r, e)) => Took puts takes t r e
  | _ => True

theorem Returned.mono {puts puts' : List E} {takes takes' : List T} {t : T} {full full' empty empty' : Bool}
    {last : Ret E} (h : Returned puts takes t full empty last) (hfull : full = true → full' = true)
    (hempty : empty = true → empty' = true) (htook : ∀ r e, Took puts takes t r e → Took puts' takes' t r e) :
    Returned puts' takes' t full' empty' last := by
  rcases last with _ | b | r | r
  · trivial
  · cases b with
    | false => exact hfull h
    | true => trivial
  · cases r with
    | none => exact hempty h
    | some r => exact htook _ _ h
  · trivial

/-- What a thread can rely on at each point. -/
def Held (capacity : Capacity) (q : Contents T E) (slots : Nat → Slot) (t : T) (full empty : Bool) : Pc E → Prop
  | .idle last => Returned q.puts q.takes t full empty last
  | .addState _ _ r => r ≤ q.allocated ∧ (full = true ∨ r < q.reserved + capacity.toNat)
  | .addFull _ _ r => r ≤ q.allocated ∧ (full = true ∨ r < q.reserved + capacity.toNat)
  | .addCas _ _ r st =>
    r ≤ q.allocated ∧
      (q.allocated = r → slots (capacity.getIndex r) = ⟨.writeable, r⟩ ∧ st = byte .writeable (capacity.getRound r))
  | .addWrite e r st => Writing capacity q slots r st ∧ q.puts[r]? = some e
  | .addPublish r st => Writing capacity q slots r st ∧ q.puts[r]? = some (q.buffer (capacity.getIndex r))
  | .addLock _ _ => full = true
  | .removeState _ r => r ≤ q.reserved ∧ (empty = true ∨ r < q.allocated)
  | .removeEmpty _ r => r ≤ q.reserved ∧ (empty = true ∨ r < q.allocated)
  | .removeCas _ r st =>
    r ≤ q.reserved ∧
      (q.reserved = r → (slots (capacity.getIndex r)).number = r ∧ (slots (capacity.getIndex r)).kind ≠ .writeable ∧
        st = byte .readable (capacity.getRound r))
  | .removeRead r st => Taking capacity q slots t r st ∧ q.puts[r]? = some (q.buffer (capacity.getIndex r))
  | .removeClear r st e => Taking capacity q slots t r st ∧ q.puts[r]? = some e
  | .removeRelease r st e => Taking capacity q slots t r st ∧ q.puts[r]? = some e
  | .removeWaiters r e => Took q.puts q.takes t r e
  | .removeNotifyLock r e => Took q.puts q.takes t r e
  | .removeNotify r e => Took q.puts q.takes t r e
  | .removeNotifyUnlock r e => Took q.puts q.takes t r e
  | .removeLock _ => empty = true
  | .peekCas _ st => ∃ round, st = byte .readable round
  | .peekCheck r st => Locking capacity slots r st
  | .peekRead r st => Locking capacity slots r st
  | .peekStore r st _ => Locking capacity slots r st
  | .outside => False
  | _ => True

/-- The number whose slot a thread is writing. -/
def Pc.writing : Pc E → Option Nat
  | .addWrite _ r _ => some r
  | .addPublish r _ => some r
  | _ => none

/-- The number that a thread is taking out of its slot. -/
def Pc.taking : Pc E → Option Nat
  | .removeRead r _ => some r
  | .removeClear r _ _ => some r
  | .removeRelease r _ _ => some r
  | _ => none

/-- The slot that a thread has locked. -/
def Pc.locking (capacity : Capacity) : Pc E → Option Nat
  | .peekCheck r _ => some (capacity.getIndex r)
  | .peekRead r _ => some (capacity.getIndex r)
  | .peekStore r _ _ => some (capacity.getIndex r)
  | _ => none

/-- The points where a thread relies on nothing. -/
def Pc.free : Pc E → Bool
  | .idle (.added true) | .idle .unit | .idle (.peeked _) => true
  | .addLoad .. | .addWaiters | .addNotifyLock | .addNotify | .addNotifyUnlock => true
  | .addCount .. | .fullAllocated .. | .fullReserved .. | .addWait .. | .addAsleep .. | .addWoken .. | .addUncount ..
  | .addUnlock .. => true
  | .removeLoad .. => true
  | .removeCount .. | .sizeReserved .. | .sizeAllocated .. | .removeWait .. | .removeAsleep | .removeWoken
  | .removeUncount .. | .removeUnlock .. => true
  | .peekLoad | .peekState .. | .peekEmpty .. => true
  | _ => false

/-- The number and the element with which a thread leaves `tryRemove`. -/
def Pc.took : Pc E → Option (Nat × E)
  | .idle (.removed r) => r
  | .removeWaiters r e => some (r, e)
  | .removeNotifyLock r e => some (r, e)
  | .removeNotify r e => some (r, e)
  | .removeNotifyUnlock r e => some (r, e)
  | _ => none

/-- No two threads have the same of something. -/
def Unique {α : Type} (f : Pc E → Option α) (pc : T → Pc E) : Prop :=
  ∀ t u a, f (pc t) = some a → f (pc u) = some a → t = u

structure Inv (capacity : Capacity) (slots : Nat → Slot) (s : State T E) : Prop where
  ring : Slots capacity s.contents slots
  held : ∀ t, Held capacity s.contents slots t (s.sawFull t) (s.sawEmpty t) (s.pc t)
  writers : Unique Pc.writing s.pc
  takers : Unique Pc.taking s.pc
  lockers : Unique (Pc.locking capacity) s.pc

theorem Inv.held_at {slots : Nat → Slot} {s : State T E} (h : Inv capacity slots s) {t : T} {c : Pc E}
    (hpc : s.pc t = c) :
    Held capacity s.contents slots t (s.sawFull t) (s.sawEmpty t) c :=
  hpc ▸ h.held t

theorem Inv.counters {slots : Nat → Slot} {s : State T E} (h : Inv capacity slots s) :
    s.puts.length = s.allocated ∧ s.takes.length = s.reserved ∧ s.reserved ≤ s.allocated ∧
      s.allocated ≤ s.reserved + capacity.toNat :=
  ⟨h.ring.puts, h.ring.takes, h.ring.reserved_le, h.ring.allocated_le⟩

/-! ## Lemmas about slots -/

section Slot

variable {q : Contents T E} {slots : Nat → Slot} {r : Nat}

theorem getIndex_lt (capacity : Capacity) (r : Nat) : capacity.getIndex r < capacity.toNat := Nat.mod_lt r capacity.pos

theorem casIndex_eq {i : Nat} (hi : i < 2 ^ 31) : casIndex i = some i := by
  unfold casIndex
  rw [Nat.mod_eq_of_lt (hi.trans (by decide)), if_pos hi]

/-- With at most `2 ^ 31` slots every index fits into an `int`. -/
theorem casIndex_getIndex (hcap : capacity.toNat ≤ 2 ^ 31) (r : Nat) :
    casIndex (capacity.getIndex r) = some (capacity.getIndex r) :=
  casIndex_eq ((getIndex_lt capacity r).trans_le hcap)

theorem getIndex_ne {m n : Nat} (hlt : n < m) (hm : m < n + capacity.toNat) :
    capacity.getIndex m ≠ capacity.getIndex n := by
  intro heq
  have hsame := Ring.eq_of_slot_eq heq hm (by omega)
  omega

variable (h : Slots capacity q slots)
include h

theorem Slots.at (r : Nat) : SlotOk capacity q (capacity.getIndex r) (slots (capacity.getIndex r)) :=
  h.slot _ (getIndex_lt capacity r)

/-- What `tryAdd` and `tryRemove` learn from the state of a slot. -/
theorem Slots.of_matchState (kind : Kind) (hmatch : matchState (capacity.getRound r)
      (q.state (capacity.getIndex r) >>> ROUND_BIT) (q.state (capacity.getIndex r) &&& STATE_BITS) kind.code = true) :
    capacity.getRound r % 2 = capacity.getRound (slots (capacity.getIndex r)).number % 2 ∧
      (slots (capacity.getIndex r)).kind = kind ∧ q.state (capacity.getIndex r) = byte kind (capacity.getRound r) := by
  rw [(h.at r).state] at hmatch ⊢
  obtain ⟨hround, hkind⟩ := of_decide_eq_true ((matchState_byte ..).symm.trans hmatch)
  refine ⟨hround, hkind, ?_⟩
  rw [Capacity.slotByte, hkind]
  exact byte_congr hround.symm

/-- A slot with the parity of the round of a number that is next is the slot for this number. -/
theorem Slots.number_eq (hle : q.reserved ≤ r) (hge : r ≤ q.allocated)
    (hround : capacity.getRound r % 2 = capacity.getRound (slots (capacity.getIndex r)).number % 2) :
    (slots (capacity.getIndex r)).number = r := by
  have hslot := h.at r
  have hlt := hslot.lt_reserved
  have hup := hslot.allocated_le
  exact Ring.eq_of_slot_parity capacity.pos hslot.index (by omega) (by omega) hround.symm

theorem Slots.eq_writeable
    (hround : capacity.getRound q.allocated % 2 = capacity.getRound (slots (capacity.getIndex q.allocated)).number % 2)
    (hkind : (slots (capacity.getIndex q.allocated)).kind = .writeable) :
    slots (capacity.getIndex q.allocated) = ⟨.writeable, q.allocated⟩ := by
  have hnumber := h.number_eq h.reserved_le (Nat.le_refl _) hround
  cases hslot : slots (capacity.getIndex q.allocated) with
  | mk kind number =>
    rw [hslot] at hkind hnumber
    subst hkind hnumber
    rfl

theorem Slots.eq_readable
    (hround : capacity.getRound q.reserved % 2 = capacity.getRound (slots (capacity.getIndex q.reserved)).number % 2) :
    (slots (capacity.getIndex q.reserved)).number = q.reserved :=
  h.number_eq (Nat.le_refl _) h.reserved_le hround

/-- A number is given out. -/
theorem Slots.put (e : E) (hslot : slots (capacity.getIndex q.allocated) = ⟨.writeable, q.allocated⟩) :
    Slots capacity { q with allocated := q.allocated + 1, puts := q.puts ++ [e] } slots := by
  have hnext : q.allocated < q.reserved + capacity.toNat := by
    have hlt := (h.at q.allocated).lt_reserved
    rwa [hslot] at hlt
  refine ⟨?_, h.takes, Nat.le_succ_of_le h.reserved_le, hnext, fun i hi => ?_⟩
  · rw [length_append, h.puts, length_singleton]
  have hi := h.slot i hi
  refine { hi with
    allocated_le := ?_, filled := fun hkind => Nat.lt_succ_of_lt (hi.filled hkind), element := fun hkind hle => ?_ }
  · -- the only slot that is a whole round behind is the one of this number
    rcases Nat.lt_or_eq_of_le hi.allocated_le with hlt | heq
    · exact hlt
    · have hindex : capacity.getIndex q.allocated = i := by
        rw [← hi.index, heq]
        exact Nat.add_mod_right _ _
      rw [hindex] at hslot
      rw [hslot] at heq
      exact absurd heq (Nat.ne_of_lt (Nat.lt_add_of_pos_right capacity.pos))
  · rw [getElem?_append_left (by rw [h.puts]; exact hi.filled hkind)]
    exact hi.element hkind hle

/-- The element with the next number is taken. -/
theorem Slots.take (t : T) (hnumber : (slots (capacity.getIndex q.reserved)).number = q.reserved)
    (hkind : (slots (capacity.getIndex q.reserved)).kind ≠ .writeable) :
    Slots capacity { q with reserved := q.reserved + 1, takes := q.takes ++ [t] } slots := by
  have hfilled : q.reserved < q.allocated := by
    have hlt := (h.at q.reserved).filled hkind
    rwa [hnumber] at hlt
  have hle := h.allocated_le
  refine ⟨h.puts, ?_, hfilled, by dsimp only; omega, fun i hi => ?_⟩
  · rw [length_append, h.takes, length_singleton]
  have hi := h.slot i hi
  have hlt := hi.lt_reserved
  refine { hi with
    lt_reserved := by dsimp only; omega, writeable := fun hw => ?_,
    element := fun hk hr => hi.element hk (Nat.le_of_succ_le hr) }
  rcases Nat.lt_or_eq_of_le (hi.writeable hw) with hlt | heq
  · exact hlt
  · have hindex : capacity.getIndex q.reserved = i := by rw [heq, hi.index]
    rw [hindex] at hkind
    exact absurd hw hkind

/-- The buffer is written at a slot that holds no element. -/
theorem Slots.setBuffer {i : Nat} (x : E)
    (hfree : (slots i).kind ≠ .writeable → (slots i).number < q.reserved) :
    Slots capacity { q with buffer := update q.buffer i x } slots := by
  refine { h with slot := fun j hj => { h.slot j hj with element := fun hkind hle => ?_ } }
  have hne : j ≠ i := by
    rintro rfl
    exact absurd (hfree hkind) (Nat.not_lt.mpr hle)
  dsimp only
  rw [update_of_ne hne]
  exact (h.slot j hj).element hkind hle

/-- One slot changes. -/
theorem Slots.set {i x : Nat} {slot : Slot}
    (hslot : SlotOk capacity { q with state := update q.state i x } i slot) :
    Slots capacity { q with state := update q.state i x } (update slots i slot) := by
  refine { h with slot := fun j hj => ?_ }
  by_cases hne : j = i
  · subst hne
    rw [update_self]
    exact hslot
  · rw [update_of_ne hne]
    exact { h.slot j hj with state := (update_of_ne hne _ _).trans (h.slot j hj).state }

end Slot

/-! ## What the threads have claimed -/

section Claims

variable {q : Contents T E} {slots : Nat → Slot} {t : T} {full empty : Bool} {c : Pc E}

variable (h : Held capacity q slots t full empty c)
include h

theorem Held.of_writing {r : Nat} (hr : c.writing = some r) :
    r < q.allocated ∧ slots (capacity.getIndex r) = ⟨.writeable, r⟩ := by
  cases c with
  | addWrite e r' st | addPublish r' st =>
    obtain rfl := some.inj hr
    exact ⟨h.1.lt, h.1.slot⟩
  | _ => exact absurd hr nofun

theorem Held.of_taking {r : Nat} (hr : c.taking = some r) :
    r < q.reserved ∧ (slots (capacity.getIndex r)).number = r ∧ (slots (capacity.getIndex r)).kind ≠ .writeable := by
  cases c with
  | removeRead r' st | removeClear r' st e | removeRelease r' st e =>
    obtain rfl := some.inj hr
    exact ⟨h.1.lt, h.1.number, h.1.kind⟩
  | _ => exact absurd hr nofun

theorem Held.of_locking {i : Nat} (hi : c.locking capacity = some i) :
    (slots i).kind = .locked := by
  cases c with
  | peekCheck r st | peekRead r st | peekStore r st e =>
    obtain rfl := some.inj hi
    exact h.kind
  | _ => exact absurd hi nofun

omit h

theorem Pc.claims_of_free (capacity : Capacity) (h : c.free = true) :
    c.writing = none ∧ c.taking = none ∧ c.locking capacity = none := by
  cases c <;> first | exact ⟨rfl, rfl, rfl⟩ | exact absurd h nofun

theorem Pc.claims_of_took (capacity : Capacity) {r : Nat × E} (h : c.took = some r) :
    c.writing = none ∧ c.taking = none ∧ c.locking capacity = none := by
  cases c <;> first | exact ⟨rfl, rfl, rfl⟩ | exact absurd h nofun

theorem held_of_free (h : c.free = true) : Held capacity q slots t full empty c := by
  cases c with
  | idle last =>
    rcases last with _ | b | r | r
    · trivial
    · cases b with
      | false => exact absurd h nofun
      | true => trivial
    · exact absurd h nofun
    · trivial
  | _ => trivial

theorem held_of_took {r : Nat} {e : E} (h : c.took = some (r, e)) :
    Held capacity q slots t full empty c ↔ Took q.puts q.takes t r e := by
  cases c with
  | idle last =>
    cases last with
    | removed r' =>
      have hr : r' = some (r, e) := h
      subst hr
      exact Iff.rfl
    | _ => exact absurd h nofun
  | removeWaiters r' e' | removeNotifyLock r' e' | removeNotify r' e' | removeNotifyUnlock r' e' =>
    obtain ⟨rfl, rfl⟩ := Prod.mk.inj (some.inj h)
    exact Iff.rfl
  | _ => exact absurd h nofun

end Claims

/-! ## What the others do

Each lemma is about one kind of change to the contents, and a thread that does not make it. -/

section Others

variable {q q' : Contents T E} {slots : Nat → Slot} {t : T} {full empty : Bool} {c : Pc E} {r st : Nat}

theorem Held.mono {full' empty' : Bool} (h : Held capacity q slots t full empty c) (hfull : full = true → full' = true)
    (hempty : empty = true → empty' = true) : Held capacity q slots t full' empty' c := by
  cases c with
  | idle last => exact Returned.mono h hfull hempty fun _ _ => id
  | addState caller e r | addFull caller e r => exact ⟨h.1, h.2.imp_left hfull⟩
  | addLock e n => exact hfull h
  | removeState caller r | removeEmpty caller r => exact ⟨h.1, h.2.imp_left hempty⟩
  | removeLock n => exact hempty h
  | _ => exact h

/-- Numbers are given out or taken. -/
structure Grows (q q' : Contents T E) : Prop where
  buffer : q'.buffer = q.buffer
  allocated : q.allocated ≤ q'.allocated
  reserved : q.reserved ≤ q'.reserved
  puts : q.puts <+: q'.puts
  takes : q.takes <+: q'.takes

theorem getElem?_of_isPrefix {α : Type} {xs ys : List α} {x : α} (h : xs <+: ys) (hx : xs[r]? = some x) :
    ys[r]? = some x := by
  obtain ⟨zs, rfl⟩ := h
  rw [List.getElem?_append_left (List.getElem?_eq_some_iff.mp hx).1]
  exact hx

theorem Took.grow (hgrow : Grows q q') {e : E} (h : Took q.puts q.takes t r e) : Took q'.puts q'.takes t r e :=
  ⟨getElem?_of_isPrefix hgrow.puts h.1, getElem?_of_isPrefix hgrow.takes h.2⟩

theorem Taking.grow (hgrow : Grows q q') (h : Taking capacity q slots t r st) : Taking capacity q' slots t r st :=
  ⟨h.lt.trans_le hgrow.reserved, h.number, h.kind, h.byte, getElem?_of_isPrefix hgrow.takes h.taker⟩

theorem Writing.grow (hgrow : Grows q q') (h : Writing capacity q slots r st) : Writing capacity q' slots r st :=
  ⟨h.lt.trans_le hgrow.allocated, h.slot, h.byte⟩

theorem Held.grow (hgrow : Grows q q') (h : Held capacity q slots t full empty c) :
    Held capacity q' slots t full empty c := by
  have hallocated := hgrow.allocated
  have hreserved := hgrow.reserved
  cases c with
  | idle last => exact Returned.mono h id id fun _ _ => Took.grow hgrow
  | addState caller e r | addFull caller e r => exact ⟨h.1.trans hallocated, h.2.imp_right fun hlt => by omega⟩
  | addCas caller e r st =>
    refine ⟨h.1.trans hallocated, fun heq => h.2 (Nat.le_antisymm ?_ h.1)⟩
    exact heq ▸ hallocated
  | addWrite e r st | removeClear r st e | removeRelease r st e =>
    exact ⟨h.1.grow hgrow, getElem?_of_isPrefix hgrow.puts h.2⟩
  | addPublish r st | removeRead r st =>
    refine ⟨h.1.grow hgrow, ?_⟩
    rw [hgrow.buffer]
    exact getElem?_of_isPrefix hgrow.puts h.2
  | removeState caller r | removeEmpty caller r => exact ⟨h.1.trans hreserved, h.2.imp_right fun hlt => by omega⟩
  | removeCas caller r st =>
    refine ⟨h.1.trans hreserved, fun heq => h.2 (Nat.le_antisymm ?_ h.1)⟩
    exact heq ▸ hreserved
  | removeWaiters r e | removeNotifyLock r e | removeNotify r e | removeNotifyUnlock r e => exact Took.grow hgrow h
  | _ => exact h

/-- The buffer is written at slot `i`, which the thread does not use. -/
theorem Held.setBuffer {i : Nat} (x : E) (h : Held capacity q slots t full empty c)
    (hwriting : ∀ r, c.writing = some r → capacity.getIndex r ≠ i)
    (htaking : ∀ r, c.taking = some r → capacity.getIndex r ≠ i) :
    Held capacity { q with buffer := update q.buffer i x } slots t full empty c := by
  cases c with
  | addWrite e r st | removeClear r st e | removeRelease r st e => exact ⟨{ h.1 with }, h.2⟩
  | addPublish r st => exact ⟨{ h.1 with }, h.2.trans (congrArg some (update_of_ne (hwriting r rfl) ..).symm)⟩
  | removeRead r st => exact ⟨{ h.1 with }, h.2.trans (congrArg some (update_of_ne (htaking r rfl) ..).symm)⟩
  | _ => exact h

/-- What a thread must not be doing when slot `i` becomes `slot`. -/
structure Apart (capacity : Capacity) (q : Contents T E) (slots : Nat → Slot) (i : Nat) (slot : Slot) (c : Pc E) :
    Prop where
  writing : (slots i).kind = .writeable → (slots i).number ≠ q.allocated ∧ c.writing ≠ some (slots i).number
  taking : (slots i).kind ≠ .writeable →
    slot.number = (slots i).number ∧ slot.kind ≠ .writeable ∨
      (slots i).number ≠ q.reserved ∧ c.taking ≠ some (slots i).number
  locking : (slots i).kind = .locked → c.locking capacity ≠ some i

variable {i x : Nat} {slot : Slot}

variable (hapart : Apart capacity q slots i slot c)
include hapart

theorem Apart.writeable (hr : r = q.allocated ∨ c.writing = some r)
    (h : slots (capacity.getIndex r) = ⟨.writeable, r⟩) :
    update slots i slot (capacity.getIndex r) = ⟨.writeable, r⟩ := by
  by_cases hi : capacity.getIndex r = i
  · rw [hi] at h
    obtain ⟨hnext, hnot⟩ := hapart.writing (by rw [h])
    rw [h] at hnext hnot
    rcases hr with rfl | hr
    · exact absurd rfl hnext
    · exact absurd hr hnot
  · rw [update_of_ne hi]
    exact h

theorem Apart.readable (hr : r = q.reserved ∨ c.taking = some r)
    (hnumber : (slots (capacity.getIndex r)).number = r) (hkind : (slots (capacity.getIndex r)).kind ≠ .writeable) :
    (update slots i slot (capacity.getIndex r)).number = r ∧
      (update slots i slot (capacity.getIndex r)).kind ≠ .writeable := by
  by_cases hi : capacity.getIndex r = i
  · rw [hi] at hnumber hkind
    rw [hi, update_self]
    rcases hapart.taking hkind with ⟨hsame, hkind'⟩ | ⟨hnext, hnot⟩
    · exact ⟨hsame.trans hnumber, hkind'⟩
    · rw [hnumber] at hnext hnot
      rcases hr with rfl | hr
      · exact absurd rfl hnext
      · exact absurd hr hnot
  · rw [update_of_ne hi]
    exact ⟨hnumber, hkind⟩

theorem Apart.locked (hr : c.locking capacity = some (capacity.getIndex r))
    (h : Locking capacity slots r st) : Locking capacity (update slots i slot) r st := by
  have hi : capacity.getIndex r ≠ i := by
    rintro rfl
    exact hapart.locking h.kind hr
  constructor
  · rw [update_of_ne hi]
    exact h.kind
  · rw [update_of_ne hi]
    exact h.byte

theorem Apart.writer (hr : c.writing = some r)
    (h : Writing capacity q slots r st) :
    Writing capacity { q with state := update q.state i x } (update slots i slot) r st :=
  ⟨h.lt, hapart.writeable (.inr hr) h.slot, h.byte⟩

theorem Apart.taker (hr : c.taking = some r)
    (h : Taking capacity q slots t r st) :
    Taking capacity { q with state := update q.state i x } (update slots i slot) t r st :=
  ⟨h.lt, (hapart.readable (.inr hr) h.number h.kind).1, (hapart.readable (.inr hr) h.number h.kind).2, h.byte, h.taker⟩

omit hapart

theorem Held.set (h : Held capacity q slots t full empty c) (hapart : Apart capacity q slots i slot c) :
    Held capacity { q with state := update q.state i x } (update slots i slot) t full empty c := by
  cases c with
  | addCas caller e r st =>
    refine ⟨h.1, fun heq => ?_⟩
    obtain ⟨hslot, hst⟩ := h.2 heq
    exact ⟨hapart.writeable (.inl heq.symm) hslot, hst⟩
  | addWrite e r st | addPublish r st => exact ⟨hapart.writer rfl h.1, h.2⟩
  | removeCas caller r st =>
    refine ⟨h.1, fun heq => ?_⟩
    obtain ⟨hnumber, hkind, hst⟩ := h.2 heq
    obtain ⟨hnumber', hkind'⟩ := hapart.readable (.inl heq.symm) hnumber hkind
    exact ⟨hnumber', hkind', hst⟩
  | removeRead r st | removeClear r st e | removeRelease r st e => exact ⟨hapart.taker rfl h.1, h.2⟩
  | peekCheck r st | peekRead r st | peekStore r st e => exact hapart.locked rfl h
  | _ => exact h

end Others

/-! ## One step of one thread -/

section Note

variable {before after : Pc E} {saw now : Bool}

theorem note_saw (hsaw : saw = true) (h : before.trying = true ∨ after.trying = false) :
    note before after saw now = true := by
  unfold note
  split
  · next hafter =>
      rcases h with hbefore | hnot
      · rw [hbefore, hsaw]
        rfl
      · rw [hafter] at hnot
        exact absurd hnot nofun
  · exact hsaw

theorem note_now (hnow : now = true) (hafter : after.trying = true) : note before after saw now = true := by
  unfold note
  rw [if_pos hafter, hnow, Bool.or_true]

end Note

section Move

variable {slots slots' : Nat → Slot} {s s' : State T E} {t : T} {b c : Pc E} {u : T} {pc : T → Pc E}

/-- What a thread relied on, it can rely on after the step as far as the notes are concerned. -/
theorem Held.observed (h : Held capacity s'.contents slots' u (s.sawFull u) (s.sawEmpty u) (s.pc u))
    (hpc : s'.pc u = s.pc u) :
    Held capacity (s.observe capacity s').contents slots' u ((s.observe capacity s').sawFull u)
      ((s.observe capacity s').sawEmpty u) ((s.observe capacity s').pc u) := by
  have hpc' : (s.observe capacity s').pc u = s.pc u := hpc
  have hkeep : (s.pc u).trying = true ∨ (s'.pc u).trying = false := hpc ▸ Bool.eq_false_or_eq_true _
  rw [hpc']
  exact h.mono (fun hsaw => note_saw hsaw hkeep) (fun hsaw => note_saw hsaw hkeep)

variable [DecidableEq T]

theorem Unique.update {α : Type} {f : Pc E → Option α} (h : Unique f pc)
    (hnew : ∀ a, f c = some a → ∀ u, u ≠ t → f (pc u) ≠ some a) : Unique f (update pc t c) := by
  intro u v a hu hv
  rw [update_apply] at hu hv
  split_ifs at hu hv with hut hvt hvt
  · rw [hut, hvt]
  · exact absurd hv (hnew a hu v hvt)
  · exact absurd hu (hnew a hv u hut)
  · exact h u v a hu hv

theorem Unique.keep {α : Type} {f : Pc E → Option α} (h : Unique f pc) (hkeep : f c = none ∨ f c = f (pc t)) :
    Unique f (Function.update pc t c) := by
  refine h.update fun a ha u hu hua => ?_
  rcases hkeep with hnone | hsame
  · rw [hnone] at ha
    exact absurd ha nofun
  · exact hu (h u t a hua (hsame ▸ ha))

/-- The point `c` claims nothing that the point `b` does not claim. -/
structure Pc.Keeps (capacity : Capacity) (b c : Pc E) : Prop where
  writing : c.writing = none ∨ c.writing = b.writing
  taking : c.taking = none ∨ c.taking = b.taking
  locking : c.locking capacity = none ∨ c.locking capacity = b.locking capacity

/-- No two threads claim the same. -/
def Claims (capacity : Capacity) (pc : T → Pc E) : Prop :=
  Unique Pc.writing pc ∧ Unique Pc.taking pc ∧ Unique (Pc.locking capacity) pc

theorem Inv.keeps (h : Inv capacity slots s) (hpc : s.pc t = b) (hkeeps : Pc.Keeps capacity b c) :
    Claims capacity (update s.pc t c) := by
  subst hpc
  exact ⟨h.writers.keep hkeeps.writing, h.takers.keep hkeeps.taking, h.lockers.keep hkeeps.locking⟩

theorem Inv.of_move (hpc : s.pc t = b) (hmove : s'.pc = update s.pc t c) (hring : Slots capacity s'.contents slots')
    (hothers : ∀ u, u ≠ t → Held capacity s'.contents slots' u (s.sawFull u) (s.sawEmpty u) (s.pc u))
    (hself : Held capacity s'.contents slots' t (note b c (s.sawFull t) (decide (s'.count = capacity.toNat)))
      (note b c (s.sawEmpty t) (decide (s'.count = 0))) c)
    (hclaims : Claims capacity (update s.pc t c)) : Inv capacity slots' (s.observe capacity s') := by
  have hpc' : (s.observe capacity s').pc = update s.pc t c := hmove
  refine ⟨hring, fun u => ?_, hpc' ▸ hclaims.1, hpc' ▸ hclaims.2.1, hpc' ▸ hclaims.2.2⟩
  by_cases hu : u = t
  · subst hu
    have hc : s'.pc u = c := by rw [hmove, update_self]
    show Held _ _ _ _ (note (s.pc u) (s'.pc u) _ _) (note (s.pc u) (s'.pc u) _ _) (s'.pc u)
    rw [hpc, hc]
    exact hself
  · exact (hothers u hu).observed (by rw [hmove, update_of_ne hu])

/-- A step that leaves the contents as they are. -/
theorem Inv.quiet (h : Inv capacity slots s) (hpc : s.pc t = b) (hcontents : s'.contents = s.contents)
    (hmove : s'.pc = update s.pc t c)
    (hself : Held capacity s.contents slots t (note b c (s.sawFull t) (decide (s.count = capacity.toNat)))
      (note b c (s.sawEmpty t) (decide (s.count = 0))) c)
    (hkeeps : Pc.Keeps capacity b c) : Inv capacity slots (s.observe capacity s') := by
  have hcount : s'.count = s.count := congrArg (fun q : Contents T E => q.puts.length - q.takes.length) hcontents
  refine .of_move hpc hmove (hcontents ▸ h.ring) (fun u _ => hcontents ▸ h.held u) ?_ (h.keeps hpc hkeeps)
  rw [hcontents, hcount]
  exact hself

omit [DecidableEq T] in
/-- A step that changes nothing. -/
theorem Inv.stay (h : Inv capacity slots s) : Inv capacity slots (s.observe capacity s) :=
  ⟨h.ring, fun u => (h.held u).observed rfl, h.writers, h.takers, h.lockers⟩

/-! ### `tryAdd` -/

variable {caller : Caller} {e : E} {r st : Nat}

variable (h : Inv capacity slots s)
include h

theorem addLoad_inv (hpc : s.pc t = .addLoad caller e) :
    Inv capacity slots (s.observe capacity (s.goto t (.addState caller e s.allocated))) := by
  refine h.quiet hpc rfl rfl ⟨Nat.le_refl _, ?_⟩ ⟨.inl rfl, .inl rfl, .inl rfl⟩
  rcases Nat.lt_or_eq_of_le h.ring.allocated_le with hlt | hfull
  · exact .inr hlt
  · refine .inl (note_now (decide_eq_true ?_) rfl)
    obtain ⟨hputs, htakes, -⟩ := h.counters
    have heq : s.allocated = s.reserved + capacity.toNat := hfull
    unfold State.count
    omega

theorem stepAddState_inv (hpc : s.pc t = .addState caller e r) :
    Inv capacity slots (s.observe capacity (stepAddState capacity s t caller e r)) := by
  have hheld := h.held_at hpc
  simp only [stepAddState]
  split
  · next hmatch =>
      obtain ⟨hround, hkind, hbyte⟩ := h.ring.of_matchState .writeable hmatch
      refine h.quiet hpc rfl rfl ⟨hheld.1, fun heq => ?_⟩ ⟨.inl rfl, .inl rfl, .inl rfl⟩
      subst heq
      exact ⟨h.ring.eq_writeable hround hkind, hbyte⟩
  · refine h.quiet hpc rfl rfl ⟨hheld.1, hheld.2.imp_left fun hsaw => ?_⟩ ⟨.inl rfl, .inl rfl, .inl rfl⟩
    exact note_saw hsaw (.inl rfl)

theorem stepAddCas_inv (hpc : s.pc t = .addCas caller e r st)
    (hfits : (stepAddCas s t caller e r st).puts.length + capacity.toNat < 2 ^ 64) :
    Inv capacity slots (s.observe capacity (stepAddCas s t caller e r st)) := by
  have hheld := h.held_at hpc
  unfold stepAddCas at hfits ⊢
  split at hfits
  · next heq =>
      subst heq
      rw [if_pos rfl]
      obtain ⟨hslot, hst⟩ := hheld.2 rfl
      have hputs := h.counters.1
      have hlength : (s.puts ++ [e]).length + capacity.toNat < 2 ^ 64 := hfits
      rw [List.length_append, List.length_singleton, hputs] at hlength
      rw [add64_eq (show s.allocated + 1 < 2 ^ 64 by omega)]
      have hgrow : Grows s.contents { s.contents with allocated := s.allocated + 1, puts := s.puts ++ [e] } :=
        ⟨rfl, Nat.le_succ _, Nat.le_refl _, ⟨[e], rfl⟩, ⟨[], List.append_nil _⟩⟩
      refine .of_move hpc rfl (h.ring.put e hslot) (fun u _ => (h.held u).grow hgrow)
        ⟨⟨Nat.lt_succ_self _, hslot, hst⟩, ?_⟩
        ⟨?_, h.takers.keep (.inl rfl), h.lockers.keep (.inl rfl)⟩
      · exact hputs ▸ List.getElem?_concat_length
      · -- every other writer has an earlier number
        refine h.writers.update fun a ha u _ hu => ?_
        cases ha
        exact Nat.lt_irrefl _ ((h.held u).of_writing hu).1
  · next hne =>
      rw [if_neg hne]
      exact h.quiet hpc rfl rfl trivial ⟨.inl rfl, .inl rfl, .inl rfl⟩

theorem stepAddFull_inv (hpc : s.pc t = .addFull caller e r)
    (hfits : s.puts.length + capacity.toNat < 2 ^ 64) :
    Inv capacity slots (s.observe capacity (stepAddFull capacity s t caller e r)) := by
  have hheld := h.held_at hpc
  obtain ⟨hputs, -, hle, -⟩ := h.counters
  unfold stepAddFull
  rw [add64_eq (show s.reserved + capacity.toNat < 2 ^ 64 by omega)]
  split
  · next hge =>
      have hsaw : s.sawFull t = true := hheld.2.resolve_right (Nat.not_lt.mpr hge)
      cases caller with
      | user | blocking notified => exact h.quiet hpc rfl rfl (note_saw hsaw (.inr rfl)) ⟨.inl rfl, .inl rfl, .inl rfl⟩
  · exact h.quiet hpc rfl rfl trivial ⟨.inl rfl, .inl rfl, .inl rfl⟩

theorem addWrite_inv (hpc : s.pc t = .addWrite e r st) :
    Inv capacity slots (s.observe capacity
      ({ s with buffer := update s.buffer (capacity.getIndex r) e }.goto t (.addPublish r st))) := by
  obtain ⟨hwriting, helement⟩ : Writing capacity s.contents slots r st ∧ s.puts[r]? = some e := h.held_at hpc
  have hslot := hwriting.slot
  refine .of_move hpc rfl (h.ring.setBuffer e fun hkind => absurd (by rw [hslot]) hkind) (fun u hu => ?_) ⟨?_, ?_⟩
    (h.keeps hpc ⟨.inr rfl, .inl rfl, .inl rfl⟩)
  · refine (h.held u).setBuffer e (fun r' hr' hindex => ?_) fun r' hr' hindex => ?_
    · -- another writer of the slot would have the same number
      have hslot' := ((h.held u).of_writing hr').2
      rw [hindex, hslot] at hslot'
      obtain rfl : r = r' := congrArg Slot.number hslot'
      exact hu (h.writers u t r hr' (by rw [hpc]; rfl))
    · have hkind := ((h.held u).of_taking hr').2.2
      rw [hindex, hslot] at hkind
      exact hkind rfl
  · exact { hwriting with }
  · have hread : update s.buffer (capacity.getIndex r) e (capacity.getIndex r) = e := update_self ..
    exact helement.trans (congrArg some hread.symm)

theorem addPublish_inv (hpc : s.pc t = .addPublish r st) :
    Inv capacity (update slots (capacity.getIndex r) ⟨.readable, r⟩) (s.observe capacity
      ({ s with state := update s.state (capacity.getIndex r) (readableState (st >>> ROUND_BIT)) }.goto t
        .addWaiters)) := by
  obtain ⟨hwriting, helement⟩ :
      Writing capacity s.contents slots r st ∧ s.puts[r]? = some (s.buffer (capacity.getIndex r)) := h.held_at hpc
  have hat := h.ring.at r
  have hslot := hwriting.slot
  rw [hslot] at hat
  refine .of_move hpc rfl (h.ring.set ⟨?_, hat.index, hat.allocated_le, hat.lt_reserved, nofun, fun _ => hwriting.lt,
    fun _ _ => helement⟩) (fun u hu => (h.held u).set ⟨fun _ => ?_, fun hkind => ?_, fun hkind => ?_⟩) trivial
    (h.keeps hpc ⟨.inl rfl, .inl rfl, .inl rfl⟩)
  · dsimp only
    rw [update_self, hwriting.byte, byte_shift, readableState_byte]
    rfl
  · rw [hslot]
    refine ⟨Nat.ne_of_lt hwriting.lt, fun hr => ?_⟩
    exact hu (h.writers u t r hr (by rw [hpc]; rfl))
  · rw [hslot] at hkind
    exact absurd rfl hkind
  · rw [hslot] at hkind
    exact absurd hkind nofun

/-! ### `tryRemove` -/

theorem removeLoad_inv (hpc : s.pc t = .removeLoad caller) :
    Inv capacity slots (s.observe capacity (s.goto t (.removeState caller s.reserved))) := by
  refine h.quiet hpc rfl rfl ⟨Nat.le_refl _, ?_⟩ ⟨.inl rfl, .inl rfl, .inl rfl⟩
  rcases Nat.lt_or_eq_of_le h.ring.reserved_le with hlt | hempty
  · exact .inr hlt
  · refine .inl (note_now (decide_eq_true ?_) rfl)
    obtain ⟨hputs, htakes, -⟩ := h.counters
    have heq : s.reserved = s.allocated := hempty
    unfold State.count
    omega

theorem stepRemoveState_inv (hpc : s.pc t = .removeState caller r) :
    Inv capacity slots (s.observe capacity (stepRemoveState capacity s t caller r)) := by
  have hheld := h.held_at hpc
  simp only [stepRemoveState]
  split
  · next hmatch =>
      obtain ⟨hround, hkind, hbyte⟩ := h.ring.of_matchState .readable hmatch
      refine h.quiet hpc rfl rfl ⟨hheld.1, fun heq => ?_⟩ ⟨.inl rfl, .inl rfl, .inl rfl⟩
      subst heq
      exact ⟨h.ring.eq_readable hround, by rw [hkind]; nofun, hbyte⟩
  · refine h.quiet hpc rfl rfl ⟨hheld.1, hheld.2.imp_left fun hsaw => ?_⟩ ⟨.inl rfl, .inl rfl, .inl rfl⟩
    exact note_saw hsaw (.inl rfl)

theorem stepRemoveCas_inv (hpc : s.pc t = .removeCas caller r st)
    (hfits : s.puts.length + capacity.toNat < 2 ^ 64) :
    Inv capacity slots (s.observe capacity (stepRemoveCas s t caller r st)) := by
  have hheld := h.held_at hpc
  unfold stepRemoveCas
  split
  · next heq =>
      subst heq
      obtain ⟨hnumber, hkind, hst⟩ := hheld.2 rfl
      obtain ⟨hputs, htakes, hle, -⟩ := h.counters
      have hpos := capacity.pos
      rw [add64_eq (show s.reserved + 1 < 2 ^ 64 by omega)]
      have hgrow : Grows s.contents { s.contents with reserved := s.reserved + 1, takes := s.takes ++ [t] } :=
        ⟨rfl, Nat.le_refl _, Nat.le_succ _, ⟨[], List.append_nil _⟩, ⟨[t], rfl⟩⟩
      refine .of_move hpc rfl (h.ring.take t hnumber hkind) (fun u _ => (h.held u).grow hgrow)
        ⟨⟨Nat.lt_succ_self _, hnumber, hkind, hst, ?_⟩, ?_⟩ ⟨h.writers.keep (.inl rfl), ?_, h.lockers.keep (.inl rfl)⟩
      · exact htakes ▸ List.getElem?_concat_length
      · have helement := (h.ring.at s.reserved).element hkind (Nat.le_of_eq hnumber.symm)
        rwa [hnumber] at helement
      · -- every other taker has an earlier number
        refine h.takers.update fun a ha u _ hu => ?_
        cases ha
        exact Nat.lt_irrefl _ ((h.held u).of_taking hu).1
  · exact h.quiet hpc rfl rfl trivial ⟨.inl rfl, .inl rfl, .inl rfl⟩

theorem removeEmpty_inv (hpc : s.pc t = .removeEmpty caller r) :
    Inv capacity slots (s.observe capacity
      (s.goto t (if r ≥ s.allocated then caller.removeFailed else .removeLoad caller))) := by
  have hheld := h.held_at hpc
  split
  · next hge =>
      have hsaw : s.sawEmpty t = true := hheld.2.resolve_right (Nat.not_lt.mpr hge)
      cases caller with
      | user | blocking notified => exact h.quiet hpc rfl rfl (note_saw hsaw (.inr rfl)) ⟨.inl rfl, .inl rfl, .inl rfl⟩
  · exact h.quiet hpc rfl rfl trivial ⟨.inl rfl, .inl rfl, .inl rfl⟩

theorem removeRead_inv (hpc : s.pc t = .removeRead r st) :
    Inv capacity slots (s.observe capacity (s.goto t (.removeClear r st (s.buffer (capacity.getIndex r))))) := by
  have hheld := h.held_at hpc
  exact h.quiet hpc rfl rfl hheld ⟨.inl rfl, .inr rfl, .inl rfl⟩

theorem removeClear_inv (hpc : s.pc t = .removeClear r st e) (zeroValue : E) :
    Inv capacity slots (s.observe capacity
      ({ s with buffer := update s.buffer (capacity.getIndex r) zeroValue }.goto t (.removeRelease r st e))) := by
  obtain ⟨htaking, helement⟩ : Taking capacity s.contents slots t r st ∧ s.puts[r]? = some e := h.held_at hpc
  refine .of_move hpc rfl (h.ring.setBuffer zeroValue fun _ => htaking.number.symm ▸ htaking.lt) (fun u hu => ?_)
    ⟨?_, helement⟩
    (h.keeps hpc ⟨.inl rfl, .inr rfl, .inl rfl⟩)
  · refine (h.held u).setBuffer zeroValue (fun r' hr' hindex => ?_) fun r' hr' hindex => ?_
    · have hslot := ((h.held u).of_writing hr').2
      rw [hindex] at hslot
      exact htaking.kind (by rw [hslot])
    · -- another taker from the slot would have the same number
      have hnumber := ((h.held u).of_taking hr').2.1
      rw [hindex, htaking.number] at hnumber
      subst hnumber
      exact hu (h.takers u t r hr' (by rw [hpc]; rfl))
  · exact { htaking with }

theorem stepRemoveRelease_inv (hcap : capacity.toNat ≤ 2 ^ 31) (hpc : s.pc t = .removeRelease r st e) :
    ∃ slots', Inv capacity slots' (s.observe capacity (stepRemoveRelease capacity s t r st e)) := by
  obtain ⟨htaking, helement⟩ : Taking capacity s.contents slots t r st ∧ s.puts[r]? = some e := h.held_at hpc
  have hat := h.ring.at r
  unfold stepRemoveRelease
  rw [casIndex_getIndex hcap]
  dsimp only
  split
  · next hstate =>
      -- the byte has the value that the thread has read, so nobody holds the lock
      have hkind : (slots (capacity.getIndex r)).kind = .readable :=
        (byte_inj (hat.state.symm.trans (hstate.trans htaking.byte))).1
      have hlt : r < s.reserved := htaking.lt
      have hnumber := htaking.number
      have hallocated := hat.allocated_le
      rw [hnumber] at hallocated
      have hle := h.ring.reserved_le
      refine ⟨update slots (capacity.getIndex r) ⟨.writeable, r + capacity.toNat⟩, .of_move hpc rfl
        (h.ring.set ⟨?_, Nat.add_mod_right _ _, ?_, Nat.add_lt_add_right hlt _, fun _ => hle.trans hallocated,
          fun hw => absurd rfl hw, fun hw => absurd rfl hw⟩)
        (fun u hu => (h.held u).set ⟨fun hw => ?_, fun _ => .inr ?_, fun hl => ?_⟩) ⟨helement, htaking.taker⟩
        (h.keeps hpc ⟨.inl rfl, .inl rfl, .inl rfl⟩)⟩
      · dsimp only
        rw [update_self, htaking.byte, byte_shift, writeableState_byte]
        unfold Capacity.slotByte Capacity.getRound
        rw [Nat.add_div_right r capacity.pos]
      · exact hallocated.trans (Nat.le_add_right _ _)
      · rw [hkind] at hw
        exact absurd hw nofun
      · rw [hnumber]
        exact ⟨Nat.ne_of_lt hlt, fun hr => hu (h.takers u t r hr (by rw [hpc]; rfl))⟩
      · rw [hkind] at hl
        exact absurd hl nofun
  · exact ⟨slots, h.stay⟩

/-! ### `peek` -/

theorem stepPeekState_inv (hpc : s.pc t = .peekState r) :
    Inv capacity slots (s.observe capacity (stepPeekState capacity s t r)) := by
  have hbyte : s.state (capacity.getIndex r) = byte _ _ := (h.ring.at r).state
  simp only [stepPeekState]
  rw [hbyte, byte_and]
  split
  · next hcode =>
      have hkind : (slots (capacity.getIndex r)).kind = .readable := code_inj hcode
      exact h.quiet hpc rfl rfl ⟨_, by rw [hkind]⟩ ⟨.inl rfl, .inl rfl, .inl rfl⟩
  · exact h.quiet hpc rfl rfl trivial ⟨.inl rfl, .inl rfl, .inl rfl⟩

theorem stepPeekCas_inv (hcap : capacity.toNat ≤ 2 ^ 31) (hpc : s.pc t = .peekCas r st) :
    ∃ slots', Inv capacity slots' (s.observe capacity (stepPeekCas capacity s t r st)) := by
  obtain ⟨round, hst⟩ : ∃ round, st = byte .readable round := h.held_at hpc
  have hat := h.ring.at r
  unfold stepPeekCas
  rw [casIndex_getIndex hcap]
  dsimp only
  split
  · next hstate =>
      obtain ⟨hkind, hround⟩ := byte_inj (hat.state.symm.trans (hstate.trans hst))
      have hfilled : (slots (capacity.getIndex r)).kind ≠ .writeable := by rw [hkind]; nofun
      refine ⟨update slots (capacity.getIndex r) ⟨.locked, (slots (capacity.getIndex r)).number⟩, .of_move hpc rfl
        (h.ring.set ⟨?_, hat.index, hat.allocated_le, hat.lt_reserved, nofun, fun _ => hat.filled hfilled,
          fun _ => hat.element hfilled⟩)
        (fun u _ => (h.held u).set ⟨fun hw => absurd hw hfilled, fun _ => .inl ⟨rfl, nofun⟩, fun hl => ?_⟩) ⟨?_, ?_⟩
        ⟨h.writers.keep (.inl rfl), h.takers.keep (.inl rfl), ?_⟩⟩
      · dsimp only
        rw [update_self, hst, byte_shift, lockState_byte]
        exact byte_congr hround.symm
      · rw [hkind] at hl
        exact absurd hl nofun
      · rw [update_self]
      · rw [update_self, hst]
        exact byte_congr hround.symm
      · refine h.lockers.update fun a ha u _ hu => ?_
        cases ha
        have hlocked := (h.held u).of_locking hu
        rw [hkind] at hlocked
        exact absurd hlocked nofun
  · exact ⟨slots, h.quiet hpc rfl rfl trivial ⟨.inl rfl, .inl rfl, .inl rfl⟩⟩

theorem peekCheck_inv (hpc : s.pc t = .peekCheck r st) :
    Inv capacity slots (s.observe capacity
      (s.goto t (if s.reserved = r then .peekRead r st else .peekStore r st none))) := by
  have hheld := h.held_at hpc
  split <;> exact h.quiet hpc rfl rfl hheld ⟨.inl rfl, .inl rfl, .inr rfl⟩

theorem peekRead_inv (hpc : s.pc t = .peekRead r st) :
    Inv capacity slots (s.observe capacity (s.goto t (.peekStore r st (some (s.buffer (capacity.getIndex r)))))) := by
  have hheld := h.held_at hpc
  exact h.quiet hpc rfl rfl hheld ⟨.inl rfl, .inl rfl, .inr rfl⟩

theorem stepPeekStore_inv {x : Option E} (hpc : s.pc t = .peekStore r st x) :
    ∃ slots', Inv capacity slots' (s.observe capacity (stepPeekStore capacity s t r st x)) := by
  have hlocking : Locking capacity slots r st := h.held_at hpc
  have hat := h.ring.at r
  have hkind := hlocking.kind
  have hfilled : (slots (capacity.getIndex r)).kind ≠ .writeable := by rw [hkind]; nofun
  have hfree : (if x.isSome then .idle (.peeked x) else .peekLoad : Pc E).free = true := by
    split <;> rfl
  obtain ⟨hw, ht, hl⟩ := Pc.claims_of_free capacity hfree
  refine ⟨update slots (capacity.getIndex r) ⟨.readable, (slots (capacity.getIndex r)).number⟩, .of_move hpc rfl
    (h.ring.set ⟨?_, hat.index, hat.allocated_le, hat.lt_reserved, nofun, fun _ => hat.filled hfilled,
      fun _ => hat.element hfilled⟩)
    (fun u hu => (h.held u).set ⟨fun hw => absurd hw hfilled, fun _ => .inl ⟨rfl, nofun⟩, fun _ hlock => ?_⟩)
    (held_of_free hfree) (h.keeps hpc ⟨.inl hw, .inl ht, .inl hl⟩)⟩
  · dsimp only
    rw [update_self, hlocking.byte]
    rfl
  · exact hu (h.lockers u t _ hlock (by rw [hpc]; rfl))

/-! ### All of them -/

/-- A step to a point where a thread relies on nothing. -/
theorem Inv.free (hcontents : s'.contents = s.contents) (hpc : s'.pc = update s.pc t c)
    (hfree : c.free = true) : Inv capacity slots (s.observe capacity s') := by
  obtain ⟨hwriting, htaking, hlocking⟩ := Pc.claims_of_free capacity hfree
  exact h.quiet rfl hcontents hpc (held_of_free hfree) ⟨.inl hwriting, .inl htaking, .inl hlocking⟩

theorem Inv.setSendQSize (n : Nat) (hfree : c.free = true) :
    Inv capacity slots (s.observe capacity ({ s with sendQSize := n }.goto t c)) :=
  h.free rfl rfl hfree

theorem Inv.setReceiveQSize (n : Nat) (hfree : c.free = true) :
    Inv capacity slots (s.observe capacity ({ s with receiveQSize := n }.goto t c)) :=
  h.free rfl rfl hfree

/-- A step with an element that was taken. -/
theorem Inv.took (hpc : s.pc t = b) (hcontents : s'.contents = s.contents) (hmove : s'.pc = update s.pc t c)
    (hbefore : b.took = some (r, e)) (hafter : c.took = some (r, e)) :
    Inv capacity slots (s.observe capacity s') := by
  obtain ⟨hwriting, htaking, hlocking⟩ := Pc.claims_of_took capacity hafter
  exact h.quiet hpc hcontents hmove ((held_of_took hafter).mpr ((held_of_took hbefore).mp (h.held_at hpc)))
    ⟨.inl hwriting, .inl htaking, .inl hlocking⟩

omit h

theorem stepRemoveCas_puts (s : State T E) (t : T) (caller : Caller) (r st : Nat) :
    (stepRemoveCas s t caller r st).puts = s.puts := by
  unfold stepRemoveCas
  split <;> rfl

variable {zeroValue : E}

variable (h : Inv capacity slots s)
include h

theorem next_inv (hcap : capacity.toNat ≤ 2 ^ 31) (hpc : s.pc t = c) (hstep : next capacity zeroValue s t c = some s')
    (hfits : s'.puts.length + capacity.toNat < 2 ^ 64) : ∃ slots', Inv capacity slots' (s.observe capacity s') := by
  cases c with
  | idle last | addAsleep e | removeAsleep | outside =>
    cases hstep
  | addLoad caller e =>
    cases hstep
    exact ⟨slots, addLoad_inv h hpc⟩
  | addState caller e r =>
    cases hstep
    exact ⟨slots, stepAddState_inv h hpc⟩
  | addCas caller e r st =>
    cases hstep
    exact ⟨slots, stepAddCas_inv h hpc hfits⟩
  | addFull caller e r =>
    cases hstep
    exact ⟨slots, stepAddFull_inv h hpc hfits⟩
  | addWrite e r st =>
    cases hstep
    exact ⟨slots, addWrite_inv h hpc⟩
  | addPublish r st =>
    cases hstep
    exact ⟨_, addPublish_inv h hpc⟩
  | addWaiters | peekEmpty r =>
    cases hstep
    split <;> exact ⟨slots, h.free rfl rfl rfl⟩
  | addNotifyLock | addLock e n | addWoken e | removeLock n | removeWoken =>
    obtain ⟨m, -, rfl⟩ := map_eq_some_iff.mp hstep
    exact ⟨slots, h.free rfl rfl rfl⟩
  | addNotify =>
    simp only [next] at hstep
    split at hstep
    · cases hstep
      exact ⟨slots, h.free rfl rfl rfl⟩
    · cases hstep
  | addNotifyUnlock | fullAllocated e n | addWait e n | addUnlock e n | sizeReserved n | removeWait n | removeUnlock n
  | peekLoad =>
    cases hstep
    exact ⟨slots, h.free rfl rfl rfl⟩
  | addCount e n | addUncount e n =>
    cases hstep
    exact ⟨slots, h.setSendQSize _ rfl⟩
  | fullReserved e n a =>
    cases hstep
    unfold stepFullReserved
    split <;> exact ⟨slots, h.free rfl rfl rfl⟩
  | removeLoad caller =>
    cases hstep
    exact ⟨slots, removeLoad_inv h hpc⟩
  | removeState caller r =>
    cases hstep
    exact ⟨slots, stepRemoveState_inv h hpc⟩
  | removeCas caller r st =>
    cases hstep
    exact ⟨slots, stepRemoveCas_inv h hpc (stepRemoveCas_puts s t caller r st ▸ hfits)⟩
  | removeEmpty caller r =>
    cases hstep
    exact ⟨slots, removeEmpty_inv h hpc⟩
  | removeRead r st =>
    cases hstep
    exact ⟨slots, removeRead_inv h hpc⟩
  | removeClear r st e =>
    cases hstep
    exact ⟨slots, removeClear_inv h hpc zeroValue⟩
  | removeRelease r st e =>
    cases hstep
    exact stepRemoveRelease_inv h hcap hpc
  | removeWaiters r e =>
    cases hstep
    split <;> exact ⟨slots, h.took hpc rfl rfl rfl rfl⟩
  | removeNotifyLock r e =>
    obtain ⟨m, -, rfl⟩ := map_eq_some_iff.mp hstep
    exact ⟨slots, h.took hpc rfl rfl rfl rfl⟩
  | removeNotify r e =>
    simp only [next] at hstep
    split at hstep
    · cases hstep
      exact ⟨slots, h.took hpc rfl rfl rfl rfl⟩
    · cases hstep
  | removeNotifyUnlock r e =>
    cases hstep
    exact ⟨slots, h.took hpc rfl rfl rfl rfl⟩
  | removeCount n | removeUncount n =>
    cases hstep
    exact ⟨slots, h.setReceiveQSize _ rfl⟩
  | sizeAllocated n front =>
    obtain ⟨m, -, rfl⟩ := map_eq_some_iff.mp hstep
    split <;> exact ⟨slots, h.free rfl rfl rfl⟩
  | peekState r =>
    cases hstep
    exact ⟨slots, stepPeekState_inv h hpc⟩
  | peekCas r st =>
    cases hstep
    exact stepPeekCas_inv h hcap hpc
  | peekCheck r st =>
    cases hstep
    exact ⟨slots, peekCheck_inv h hpc⟩
  | peekRead r st =>
    cases hstep
    exact ⟨slots, peekRead_inv h hpc⟩
  | peekStore r st x =>
    cases hstep
    exact stepPeekStore_inv h hpc

/-- A thread that waits is woken, on the way to another step. -/
theorem Inv.wake (hcontents : s'.contents = s.contents) (hpc : s'.pc = update s.pc t c)
    (hfull : s'.sawFull = s.sawFull) (hempty : s'.sawEmpty = s.sawEmpty) (hfree : c.free = true) :
    Inv capacity slots s' := by
  obtain ⟨hwriting, htaking, hlocking⟩ := Pc.claims_of_free capacity hfree
  refine ⟨hcontents ▸ h.ring, fun u => ?_, hpc ▸ h.writers.keep (.inl hwriting), hpc ▸ h.takers.keep (.inl htaking),
    hpc ▸ h.lockers.keep (.inl hlocking)⟩
  rw [hcontents, hpc, hfull, hempty]
  by_cases hu : u = t
  · subst hu
    rw [update_self]
    exact held_of_free hfree
  · rw [update_of_ne hu]
    exact h.held u

omit h in
/-- The notes do not depend on where the thread was woken from. -/
theorem observe_wake {s₁ : State T E} {c' : Pc E} (hne : u ≠ t) (hwake : s₁.pc = update s.pc u c')
    (hpc : s'.pc = update s₁.pc t c) (hfull : s₁.sawFull = s.sawFull) (hempty : s₁.sawEmpty = s.sawEmpty)
    (htrying : c'.trying = false) : s₁.observe capacity s' = s.observe capacity s' := by
  have hnote (v : T) (saw now : Bool) : note (s₁.pc v) (s'.pc v) saw now = note (s.pc v) (s'.pc v) saw now := by
    by_cases hv : v = u
    · have hafter : s'.pc v = c' := by
        rw [hpc, hv, update_of_ne hne, hwake, update_self]
      unfold note
      rw [hafter, htrying]
      rfl
    · rw [hwake, update_of_ne hv]
  unfold State.observe
  simp only [hfull, hempty, hnote]

/-- After the first half of a notification. -/
theorem Inv.woken (s₁ : State T E) {c' : Pc E} (hne : s.pc u ≠ s.pc t)
    (hcontents : s₁.contents = s.contents) (hwake : s₁.pc = update s.pc u c') (hfull : s₁.sawFull = s.sawFull)
    (hempty : s₁.sawEmpty = s.sawEmpty) (hfree : c'.free = true) (htrying : c'.trying = false) :
    Inv capacity slots s₁ ∧ s₁.pc t = s.pc t ∧
      ∀ c, s₁.observe capacity (s₁.goto t c) = s.observe capacity (s₁.goto t c) := by
  have hut : u ≠ t := fun heq => hne (heq ▸ rfl)
  exact ⟨h.wake hcontents hwake hfull hempty hfree, by rw [hwake, update_of_ne hut.symm],
    fun _ => observe_wake hut hwake rfl hfull hempty htrying⟩

theorem notify_inv (hstep : notify s t u = some s') :
    Inv capacity slots (s.observe capacity s') := by
  revert hstep
  fun_cases notify s t u with
  | case1 hpcu hpct =>
    rintro ⟨⟩
    have hne : s.pc u ≠ s.pc t := by rw [hpcu, hpct]; nofun
    obtain ⟨hwoken, -, hobserve⟩ := h.woken ({ s with sendMonitor := s.sendMonitor.remove u }.goto u .removeWoken) hne
      rfl rfl rfl rfl rfl rfl
    rw [← hobserve]
    exact hwoken.free rfl rfl rfl
  | case3 r e e' hpcu hpct =>
    rintro ⟨⟩
    have hne : s.pc u ≠ s.pc t := by rw [hpcu, hpct]; nofun
    obtain ⟨hwoken, hpc₁, hobserve⟩ :=
      h.woken ({ s with receiveMonitor := s.receiveMonitor.remove u }.goto u (.addWoken e'))
      hne rfl rfl rfl rfl rfl rfl
    rw [← hobserve]
    exact hwoken.took (hpc₁.trans hpct) rfl rfl rfl rfl
  | case2 | case4 | case5 => nofun

end Move

/-! ## Whole runs -/

section Runs

variable [DecidableEq T] {zeroValue : E} {slots : Nat → Slot} {s s' : State T E} {t : T} {c : Pc E}

@[simp] theorem goto_puts (s : State T E) (t : T) (c : Pc E) : (s.goto t c).puts = s.puts := rfl

theorem next_puts (hstep : next capacity zeroValue s t c = some s') : s.puts.length ≤ s'.puts.length := by
  cases c with
  | addCas caller e r st =>
    obtain rfl := some.inj hstep
    unfold stepAddCas
    split
    · rw [goto_puts, length_append]
      exact Nat.le_add_right _ _
    · exact Nat.le_refl _
  | idle last | addAsleep e | removeAsleep | outside => exact absurd hstep nofun
  | _ =>
    -- nobody else adds to the history
    simp only [next, stepAddState, stepAddFull, stepFullReserved, stepRemoveState, stepRemoveCas, stepRemoveRelease,
      stepPeekState, stepPeekCas, stepPeekStore, some.injEq, map_eq_some_iff] at hstep
    grind [goto_puts]

theorem notify_puts {u : T} (hstep : notify s t u = some s') : s'.puts = s.puts := by
  revert hstep
  fun_cases notify s t u with
  | case1 | case3 =>
    rintro ⟨⟩
    rfl
  | case2 | case4 | case5 => nofun

omit [DecidableEq T] in
theorem entry_free {a : Act T E} (h : entry a = some c) : c.free = true := by
  cases a with
  | next | notify u => exact absurd h nofun
  | _ =>
    obtain rfl := some.inj h
    rfl

/-- The calls: the thread was idle and is at the beginning of a function. -/
theorem step_call {a : Act T E} (hnext : a ≠ .next) (hnotify : ∀ u, a ≠ .notify u)
    (hstep : step capacity zeroValue s t a = some s') : ∃ c, c.free = true ∧ s' = s.goto t c := by
  cases a with
  | next => exact absurd rfl hnext
  | notify u => exact absurd rfl (hnotify u)
  | _ =>
    simp only [step] at hstep
    split at hstep
    · next c _ hentry _ => exact ⟨c, entry_free hentry, (some.inj hstep).symm⟩
    · cases hstep

theorem act_inv {ta : T × Act T E} (hcap : capacity.toNat ≤ 2 ^ 31)
    (h : s.puts.length + capacity.toNat < 2 ^ 64 → ∃ slots, Inv capacity slots s)
    (hact : act capacity zeroValue s ta = some s') :
    s'.puts.length + capacity.toNat < 2 ^ 64 → ∃ slots, Inv capacity slots s' := by
  obtain ⟨t, a⟩ := ta
  obtain ⟨s₁, hstep, rfl⟩ := map_eq_some_iff.mp hact
  intro hfits
  have hfits₁ : s₁.puts.length + capacity.toNat < 2 ^ 64 := hfits
  by_cases hnext : a = .next
  · subst hnext
    have hgrow := next_puts hstep
    obtain ⟨slots, hinv⟩ := h (by omega)
    exact next_inv hinv hcap rfl hstep hfits₁
  by_cases hnotify : ∃ u, a = .notify u
  · obtain ⟨u, rfl⟩ := hnotify
    obtain ⟨slots, hinv⟩ := h (notify_puts hstep ▸ hfits₁)
    exact ⟨slots, notify_inv hinv hstep⟩
  · obtain ⟨c, hfree, rfl⟩ := step_call hnext (fun u hu => hnotify ⟨u, hu⟩) hstep
    obtain ⟨slots, hinv⟩ := h hfits₁
    exact ⟨slots, hinv.free rfl rfl hfree⟩

omit [DecidableEq T] in
/-- In a new queue every slot is writeable, for the number that is its index. -/
theorem newQueue_inv : Inv capacity (fun i => ⟨.writeable, i⟩) (newQueue zeroValue : State T E) := by
  have hfree (pc : T → Pc E) (h : pc = fun _ => .idle .unit) {α : Type} (f : Pc E → Option α)
      (hf : f (.idle .unit) = none) :
      Unique f pc := by
    subst h
    intro t u a ha _
    exact absurd (hf.symm.trans ha) nofun
  refine ⟨⟨rfl, rfl, Nat.le_refl _, Nat.zero_le _, fun i hi => ?_⟩, fun _ => trivial, hfree _ rfl _ rfl,
    hfree _ rfl _ rfl, hfree _ rfl _ rfl⟩
  have hround : capacity.getRound i = 0 := Nat.div_eq_of_lt hi
  refine ⟨?_, Nat.mod_eq_of_lt hi, Nat.zero_le _, ?_, fun _ => Nat.zero_le _, fun hw => absurd rfl hw,
    fun hw => absurd rfl hw⟩
  · unfold Capacity.slotByte
    rw [hround]
    show 0 = byte .writeable 0
    decide
  · show i < 0 + capacity.toNat
    omega

theorem run_inv (hcap : capacity.toNat ≤ 2 ^ 31)
    (hrun : Run (act capacity zeroValue) (fun _ _ => True) (newQueue zeroValue) s)
    (hfits : s.puts.length + capacity.toNat < 2 ^ 64) : ∃ slots, Inv capacity slots s :=
  run_invariant (I := fun s => s.puts.length + capacity.toNat < 2 ^ 64 → ∃ slots, Inv capacity slots s) hrun
    (fun _ => ⟨_, newQueue_inv⟩) (fun _ _ _ h _ hact => act_inv hcap h hact) hfits

/-- What is claimed of a bounded queue: at most `capacity` elements are present; the `n`-th removal returns the element
    of the `n`-th addition; `tryAdd` fails only if the queue was full at some moment of the call, and `tryRemove` only
    if it was empty. No thread has left the array of the states. -/
structure BoundedFifo (capacity : Capacity) (s : State T E) : Prop where
  puts : s.puts.length = s.allocated
  takes : s.takes.length = s.reserved
  takes_le : s.takes.length ≤ s.puts.length
  bounded : s.count ≤ capacity.toNat
  removed : ∀ t n e, s.pc t = .idle (.removed (some (n, e))) → s.puts[n]? = some e ∧ s.takes[n]? = some t
  full : ∀ t, (s.pc t = .idle (.added false) ∨ ∃ e notified, s.pc t = .addLock e notified) → s.sawFull t = true
  empty : ∀ t, (s.pc t = .idle (.removed none) ∨ ∃ notified, s.pc t = .removeLock notified) → s.sawEmpty t = true
  inside : ∀ t, s.pc t ≠ .outside

omit [DecidableEq T] in
theorem Inv.boundedFifo (h : Inv capacity slots s) : BoundedFifo capacity s := by
  obtain ⟨hputs, htakes, hle, hbound⟩ := h.counters
  refine ⟨hputs, htakes, by omega, by unfold State.count; omega, fun t n e hpc => h.held_at hpc, fun t hpc => ?_,
    fun t hpc => ?_, fun t hpc => h.held_at hpc⟩
  · rcases hpc with hpc | ⟨e, notified, hpc⟩ <;> exact h.held_at hpc
  · rcases hpc with hpc | ⟨notified, hpc⟩ <;> exact h.held_at hpc

end Runs

/-! ## One thread alone -/

section Solo

variable {zeroValue e : E} {t : T} {n a r b a' r' b' : Nat} {c c' : Pc E} {x : Ret E} {s s' : State T E}

/-- Only `t` has made calls, and is at `c` in its work on number `n`. The slots of the next numbers are ready. -/
structure Solo (capacity : Capacity) (t : T) (n a r b : Nat) (c : Pc E) (s : State T E) : Prop where
  allocated : s.allocated = a
  reserved : s.reserved = r
  state : s.state (capacity.getIndex n) = b
  later : ∀ m, n < m → m < n + capacity.toNat → s.state (capacity.getIndex m) = byte .writeable (capacity.getRound m)
  sendQSize : s.sendQSize = 0
  receiveQSize : s.receiveQSize = 0
  puts : s.puts.length = a
  takes : s.takes.length = r
  pc : s.pc t = c
  other : ∀ u, u ≠ t → s.pc u = .idle .unit

theorem Solo.observed (h : Solo capacity t n a r b c s') : Solo capacity t n a r b c (s.observe capacity s') :=
  { h with }

theorem Solo.setBuffer (h : Solo capacity t n a r b c s) (buffer : Nat → E) :
    Solo capacity t n a r b c { s with buffer := buffer } :=
  { h with }

theorem Solo.setState (h : Solo capacity t n a r b c s) (b' : Nat) :
    Solo capacity t n a r b' c { s with state := update s.state (capacity.getIndex n) b' } :=
  { h with
    state := update_self ..
    later := fun m hlt hm => (update_of_ne (getIndex_ne hlt hm) ..).trans (h.later m hlt hm) }

/-- The slot of number `n` is ready for the next round, and the work on the next number begins. -/
theorem Solo.shift (h : Solo capacity t n a r (byte .writeable (capacity.getRound n + 1)) c s) :
    Solo capacity t (n + 1) a r (byte .writeable (capacity.getRound (n + 1))) c s := by
  have hpos := capacity.pos
  have hready (m : Nat) (hlt : n < m) (hm : m ≤ n + capacity.toNat) :
      s.state (capacity.getIndex m) = byte .writeable (capacity.getRound m) := by
    rcases Nat.lt_or_eq_of_le hm with hm | rfl
    · exact h.later m hlt hm
    · unfold Capacity.getIndex Capacity.getRound
      rw [Nat.add_mod_right, Nat.add_div_right n hpos]
      exact h.state
  exact { h with state := hready _ (by omega) (by omega), later := fun m hlt hm => hready m (by omega) (by omega) }

variable [DecidableEq T]

theorem Solo.goto (h : Solo capacity t n a r b c s) (c' : Pc E) : Solo capacity t n a r b c' (s.goto t c') :=
  { h with pc := update_self .., other := fun u hu => (update_of_ne hu ..).trans (h.other u hu) }

/-- Some steps lead to a state with a property. -/
def Reaches (capacity : Capacity) (zeroValue : E) (s : State T E) (P : State T E → Prop) : Prop :=
  ∃ s', Run (act capacity zeroValue) (fun _ _ => True) s s' ∧ P s'

theorem Reaches.bind {P Q : State T E → Prop} (h : Reaches capacity zeroValue s P)
    (hnext : ∀ s', P s' → Reaches capacity zeroValue s' Q) : Reaches capacity zeroValue s Q := by
  obtain ⟨s₁, hrun₁, h₁⟩ := h
  obtain ⟨s₂, hrun₂, h₂⟩ := hnext s₁ h₁
  exact ⟨s₂, hrun₁.trans hrun₂, h₂⟩

theorem Reaches.mono {P Q : State T E → Prop} (h : Reaches capacity zeroValue s P) (hle : ∀ s', P s' → Q s') :
    Reaches capacity zeroValue s Q :=
  h.imp fun s' ⟨hrun, hs'⟩ => ⟨hrun, hle s' hs'⟩

theorem reaches_of_step (t : T) (f : Act T E) {P : State T E → Prop} (hstep : step capacity zeroValue s t f = some s')
    (h : P (s.observe capacity s')) : Reaches capacity zeroValue s P := by
  refine ⟨_, .single ⟨(t, f), trivial, ?_⟩, h⟩
  unfold act
  dsimp only
  rw [hstep]
  rfl

/-- One step of `t`. -/
theorem Solo.advance (h : Solo capacity t n a r b c s) (hnext : next capacity zeroValue s t c = some s')
    (h' : Solo capacity t n a' r' b' c' s') : Reaches capacity zeroValue s (Solo capacity t n a' r' b' c') := by
  refine reaches_of_step t .next ?_ h'.observed
  unfold step
  dsimp only
  rw [h.pc, hnext]

theorem Solo.call (h : Solo capacity t n a r b (.idle x) s) {f : Act T E} (hentry : entry f = some c')
    (hnext : f ≠ .next) (hnotify : ∀ u, f ≠ .notify u) : Reaches capacity zeroValue s (Solo capacity t n a r b c') := by
  refine reaches_of_step t f ?_ (h.goto c').observed
  cases f with
  | next => exact absurd rfl hnext
  | notify u => exact absurd rfl (hnotify u)
  | _ =>
    unfold step
    dsimp only
    rw [hentry, h.pc]

theorem Solo.tryAdd (e : E) (h : Solo capacity t n n n (byte .writeable (capacity.getRound n)) (.idle x) s)
    (hn : n + 1 < 2 ^ 64) :
    Reaches capacity zeroValue s
      (Solo capacity t n (n + 1) n (byte .readable (capacity.getRound n)) (.idle (.added true))) := by
  refine (h.call (f := .tryAdd e) rfl nofun nofun).bind fun s₁ h₁ => ?_
  refine (h₁.advance rfl (h₁.goto (.addState .user e s₁.allocated))).bind fun s₂ h₂ => ?_
  rw [h₁.allocated] at h₂
  have hstate : next capacity zeroValue s₂ t (.addState .user e n) =
      some (s₂.goto t (.addCas .user e n (byte .writeable (capacity.getRound n)))) := by
    have hcode : WRITEABLE = Kind.writeable.code := rfl
    simp only [next, stepAddState]
    rw [h₂.state, hcode, matchState_byte, if_pos (by simp)]
  refine (h₂.advance hstate (h₂.goto _)).bind fun s₃ h₃ => ?_
  have hcas : next capacity zeroValue s₃ t (.addCas .user e n (byte .writeable (capacity.getRound n))) =
      some ({ s₃ with allocated := n + 1, puts := s₃.puts ++ [e] }.goto t
        (.addWrite e n (byte .writeable (capacity.getRound n)))) := by
    simp only [next, stepAddCas]
    rw [if_pos h₃.allocated, add64_eq hn]
  have h₃' : Solo capacity t n (n + 1) n _ _ { s₃ with allocated := n + 1, puts := s₃.puts ++ [e] } :=
    { h₃ with allocated := rfl, puts := length_append.trans (congrArg (· + 1) h₃.puts) }
  refine (h₃.advance hcas (h₃'.goto _)).bind fun s₄ h₄ => ?_
  refine (h₄.advance rfl ((h₄.setBuffer _).goto _)).bind fun s₅ h₅ => ?_
  have hpublish : next capacity zeroValue s₅ t (.addPublish n (byte .writeable (capacity.getRound n))) =
      some ({ s₅ with state := update s₅.state (capacity.getIndex n) (byte .readable (capacity.getRound n)) }.goto t
        .addWaiters) := by
    simp only [next]
    rw [byte_shift, readableState_byte]
  refine (h₅.advance hpublish ((h₅.setState _).goto _)).bind fun s₆ h₆ => ?_
  have hwaiters : next capacity zeroValue s₆ t .addWaiters = some (s₆.goto t (.idle (.added true))) := by
    simp only [next]
    rw [if_neg (not_not.mpr h₆.receiveQSize)]
  exact h₆.advance hwaiters (h₆.goto _)

/-- `tryRemove` up to the compare-and-swap on `reserved`. -/
theorem Solo.reserve (h : Solo capacity t n (n + 1) n (byte .readable (capacity.getRound n)) (.idle x) s)
    (hn : n + 1 < 2 ^ 64) :
    Reaches capacity zeroValue s (Solo capacity t n (n + 1) (n + 1) (byte .readable (capacity.getRound n))
      (.removeRead n (byte .readable (capacity.getRound n)))) := by
  refine (h.call (f := .tryRemove) rfl nofun nofun).bind fun s₁ h₁ => ?_
  refine (h₁.advance rfl (h₁.goto (.removeState .user s₁.reserved))).bind fun s₂ h₂ => ?_
  rw [h₁.reserved] at h₂
  have hstate : next capacity zeroValue s₂ t (.removeState .user n) =
      some (s₂.goto t (.removeCas .user n (byte .readable (capacity.getRound n)))) := by
    have hcode : READABLE = Kind.readable.code := rfl
    simp only [next, stepRemoveState]
    rw [h₂.state, hcode, matchState_byte, if_pos (by simp)]
  refine (h₂.advance hstate (h₂.goto _)).bind fun s₃ h₃ => ?_
  have hcas : next capacity zeroValue s₃ t (.removeCas .user n (byte .readable (capacity.getRound n))) =
      some ({ s₃ with reserved := n + 1, takes := s₃.takes ++ [t] }.goto t
        (.removeRead n (byte .readable (capacity.getRound n)))) := by
    simp only [next, stepRemoveCas]
    rw [if_pos h₃.reserved, add64_eq hn]
  have h₃' : Solo capacity t n (n + 1) (n + 1) _ _ { s₃ with reserved := n + 1, takes := s₃.takes ++ [t] } :=
    { h₃ with reserved := rfl, takes := length_append.trans (congrArg (· + 1) h₃.takes) }
  exact h₃.advance hcas (h₃'.goto _)

/-- The next part of `tryRemove`, up to the compare-and-swap on the slot. -/
theorem Solo.take (h : Solo capacity t n a r b (.removeRead n b') s) :
    Reaches capacity zeroValue s fun s' => ∃ e, Solo capacity t n a r b (.removeRelease n b' e) s' := by
  refine (h.advance rfl (h.goto _)).bind fun s₁ h₁ => ?_
  exact (h₁.advance rfl ((h₁.setBuffer _).goto _)).mono fun s₂ h₂ => ⟨_, h₂⟩

/-- The rest of `tryRemove`. -/
theorem Solo.release (h : Solo capacity t n a r (byte .readable (capacity.getRound n))
      (.removeRelease n (byte .readable (capacity.getRound n)) e) s)
    (hindex : capacity.getIndex n < 2 ^ 31) :
    Reaches capacity zeroValue s
      (Solo capacity t (n + 1) a r (byte .writeable (capacity.getRound (n + 1))) (.idle (.removed (some (n, e))))) := by
  have hrelease : next capacity zeroValue s t (.removeRelease n (byte .readable (capacity.getRound n)) e) =
      some ({ s with state := update s.state (capacity.getIndex n) (byte .writeable (capacity.getRound n + 1)) }.goto t
        (.removeWaiters n e)) := by
    simp only [next, stepRemoveRelease, casIndex_eq hindex]
    rw [if_pos h.state, byte_shift, writeableState_byte]
  refine (h.advance hrelease ((h.setState _).goto _)).bind fun s₁ h₁ => ?_
  have hwaiters : next capacity zeroValue s₁ t (.removeWaiters n e) =
      some (s₁.goto t (.idle (.removed (some (n, e))))) := by
    simp only [next]
    rw [if_neg (not_not.mpr h₁.sendQSize)]
  exact (h₁.advance hwaiters (h₁.goto _)).mono fun s₂ h₂ => h₂.shift

/-- `t` alone adds and removes `n` elements, as long as the indices fit into an `int`. -/
theorem solo_rounds (t : T) (n : Nat) (hn : n < 2 ^ 64) (hindex : ∀ m, m < n → capacity.getIndex m < 2 ^ 31) :
    Reaches capacity zeroValue (newQueue zeroValue) fun s =>
      ∃ x, Solo capacity t n n n (byte .writeable (capacity.getRound n)) (.idle x) s := by
  induction n with
  | zero =>
    have hzero (m : Nat) (hm : m < capacity.toNat) : 0 = byte .writeable (capacity.getRound m) := by
      rw [show capacity.getRound m = 0 from Nat.div_eq_of_lt hm]
      decide
    exact ⟨newQueue zeroValue, .refl, .unit, rfl, rfl, hzero 0 capacity.pos, fun m _ hm => hzero m (by omega), rfl,
      rfl, rfl, rfl, rfl, fun _ _ => rfl⟩
  | succ n ih =>
    refine (ih (Nat.lt_of_succ_lt hn) fun m hm => hindex m (Nat.lt_succ_of_lt hm)).bind fun s₀ ⟨x, h₀⟩ => ?_
    refine (h₀.tryAdd zeroValue hn).bind fun s₁ h₁ => (h₁.reserve hn).bind fun s₂ h₂ =>
      h₂.take.bind fun s₃ ⟨e, h₃⟩ => ?_
    exact (h₃.release (hindex n (Nat.lt_succ_self n))).mono fun s₄ h₄ => ⟨_, h₄⟩

/-- With more than `2 ^ 31` slots, the removal of number `2 ^ 31` leaves the array. -/
theorem leaves_array (capacity : Capacity) (zeroValue : E) (t : T) (hcap : 2 ^ 31 < capacity.toNat) :
    Reaches capacity zeroValue (newQueue zeroValue) fun s => s.puts.length = 2 ^ 31 + 1 ∧ s.pc t = .outside := by
  obtain ⟨n, hn⟩ : ∃ n, n = 2 ^ 31 := ⟨_, rfl⟩
  have hfits : n + 1 < 2 ^ 64 := by omega
  rw [← hn] at hcap ⊢
  have hindex (m : Nat) (hm : m ≤ n) : capacity.getIndex m = m := Nat.mod_eq_of_lt (by omega)
  refine (solo_rounds t n (by omega) fun m hm => ?_).bind fun s₀ ⟨x, h₀⟩ => ?_
  · rw [hindex m hm.le, ← hn]
    exact hm
  refine (h₀.tryAdd zeroValue hfits).bind fun s₁ h₁ => (h₁.reserve hfits).bind fun s₂ h₂ =>
    h₂.take.bind fun s₃ ⟨e, h₃⟩ => ?_
  have houtside : next capacity zeroValue s₃ t (.removeRelease n (byte .readable (capacity.getRound n)) e) =
      some (s₃.goto t .outside) := by
    have hnone : casIndex (capacity.getIndex n) = none := by
      rw [hindex n n.le_refl, hn]
      decide
    simp only [next, stepRemoveRelease, hnone]
  exact (h₃.advance houtside (h₃.goto _)).mono fun s₄ h₄ => ⟨h₄.puts, h₄.pc⟩

end Solo

/-- **The bounded queue**, with any number of threads and any interleaving, as long as fewer than `2 ^ 64 - capacity`
    elements were added: every state reached is that of a bounded queue **if and only if** the capacity is at most
    `2 ^ 31`. -/
theorem array_queue_bounded_fifo [DecidableEq T] (capacity : Capacity) (zeroValue : E) (t : T) :
    (∀ s : State T E, Run (act capacity zeroValue) (fun _ _ => True) (newQueue zeroValue) s →
        s.puts.length < 2 ^ 64 - capacity.toNat → BoundedFifo capacity s) ↔ capacity.toNat ≤ 2 ^ 31 := by
  constructor
  · intro h
    by_contra hcap
    obtain ⟨s, hrun, hputs, hpc⟩ := leaves_array capacity zeroValue t (Nat.lt_of_not_le hcap)
    have hlt := capacity.lt
    exact (h s hrun (by omega)).inside t hpc
  · intro hcap s hrun hfits
    obtain ⟨slots, hinv⟩ := run_inv hcap hrun (Nat.add_lt_of_lt_sub hfits)
    exact hinv.boundedFifo

/-- A queue for two elements. -/
def pair : Capacity := ⟨2, Nat.two_pos, by norm_num⟩

/-- Two elements are added, a third one finds the queue full, and the first one is removed. -/
def pairActs : List (Bool × Act Bool Nat) :=
  (false, .tryAdd 7) :: List.replicate 6 (false, .next) ++ (false, .tryAdd 8) :: List.replicate 6 (false, .next) ++
    (true, .tryAdd 9) :: List.replicate 3 (true, .next) ++ (false, .tryRemove) :: List.replicate 7 (false, .next)

theorem array_queue_bounded_fifo_pair :
    ∃ s : State Bool Nat, s.pc false = .idle (.removed (some (0, 7))) ∧ s.pc true = .idle (.added false) ∧
      s.puts[0]? = some 7 ∧ s.takes[0]? = some false ∧ s.sawFull true = true := by
  have hruns : (runActs (act pair 0) (fun _ _ => True) (newQueue 0) pairActs).map
      (fun s => (s.pc false, s.pc true, s.puts)) =
        some (.idle (.removed (some (0, 7))), .idle (.added false), [7, 8]) := by
    decide +kernel
  obtain ⟨s, hrun, hs⟩ := Option.map_eq_some_iff.mp hruns
  obtain ⟨hfalse, htrue⟩ := Prod.mk.inj hs
  obtain ⟨htrue, hputs⟩ := Prod.mk.inj htrue
  have hfits : s.puts.length < 2 ^ 64 - pair.toNat := by
    rw [hputs]
    decide
  have hqueue := (array_queue_bounded_fifo pair 0 false).mpr (by decide) s (run_of_runActs hrun) hfits
  exact ⟨s, hfalse, htrue, (hqueue.removed _ _ _ hfalse).1, (hqueue.removed _ _ _ hfalse).2, hqueue.full _ (.inl htrue)⟩

/-! ## At the end of the range -/

/-- A queue with one slot more than an `int` can index. -/
def large : Capacity := ⟨2 ^ 31 + 1, Nat.succ_pos _, by norm_num⟩

/-- A queue for one element. -/
def single : Capacity := ⟨1, Nat.one_pos, Nat.one_lt_two_pow (by decide)⟩

section Late

variable {n b : Nat} {c c' : Pc Unit} {s : State Bool Unit}

theorem single_getIndex (n : Nat) : single.getIndex n = 0 := Nat.mod_one n

theorem single_getRound (n : Nat) : single.getRound n = n := Nat.div_one n

/-- `true` calls `tryAdd` while `false` has taken the only element and has not released its slot. -/
structure Late (n : Nat) (c : Pc Unit) (s : State Bool Unit) : Prop where
  allocated : s.allocated = n + 1
  reserved : s.reserved = n + 1
  state : s.state 0 = byte .readable n
  count : s.count = 0
  puts : s.puts.length = n + 1
  pc : s.pc true = c
  sawFull : s.sawFull true = false

theorem Late.advance (h : Late n c s) (hnext : next single () s true c = some (s.goto true c')) :
    Reaches single () s (Late n c') := by
  have hstep : step single () s true .next = some (s.goto true c') := by
    unfold step
    dsimp only
    rw [h.pc, hnext]
  refine reaches_of_step _ _ hstep ⟨h.allocated, h.reserved, h.state, h.count, h.puts, rfl, ?_⟩
  have hcount : (s.goto true c').count = 0 := h.count
  show note _ _ (s.sawFull true) (decide ((s.goto true c').count = 1)) = false
  rw [h.sawFull, hcount]
  unfold note
  split
  · rw [Bool.and_false]
    rfl
  · rfl

theorem Solo.late {m : Nat} (h : Solo single false n (n + 1) (n + 1) (byte .readable n) (.removeRead m b) s) :
    Reaches single () s (Late n (.addLoad .user ())) := by
  have hcount : s.count = 0 := by
    unfold State.count
    rw [h.puts, h.takes, Nat.sub_self]
  have hstep : step single () s true (.tryAdd ()) = some (s.goto true (.addLoad .user ())) := by
    unfold step
    dsimp only [entry]
    rw [h.other true (by decide)]
  refine reaches_of_step _ _ hstep ⟨h.allocated, h.reserved, single_getIndex n ▸ h.state, hcount, h.puts, rfl, ?_⟩
  have hcount' : (s.goto true (.addLoad .user ())).count = 0 := hcount
  show note (s.pc true) (.addLoad .user ()) (s.sawFull true) (decide ((s.goto true (.addLoad .user ())).count = 1)) =
    false
  rw [h.other true (by decide), hcount']
  rfl

/-- A removal leaves the array if it has more than `2 ^ 31` slots. After `2 ^ 64 - 1` additions, `reserved + capacity`
    has wrapped around: `tryAdd` fails although the queue was empty during the whole call. -/
theorem array_queue_fails :
    (∃ s : State Bool Unit, Run (act large ()) (fun _ _ => True) (newQueue ()) s ∧ s.puts.length = 2 ^ 31 + 1 ∧
      s.pc false = .outside) ∧
    (∃ s : State Bool Unit, Run (act single ()) (fun _ _ => True) (newQueue ()) s ∧ s.puts.length < 2 ^ 64 ∧
      s.pc true = .idle (.added false) ∧ s.sawFull true = false) := by
  refine ⟨leaves_array large () false (Nat.lt_succ_self _), ?_⟩
  obtain ⟨n, hn⟩ : ∃ n, n + 2 = 2 ^ 64 := ⟨2 ^ 64 - 2, rfl⟩
  have hlt : n + 1 < 2 ^ 64 := Nat.lt_of_succ_le (Nat.le_of_eq hn)
  suffices hreach : Reaches single () (newQueue ()) (Late n (.idle (.added false))) by
    obtain ⟨s, hrun, h⟩ := hreach
    exact ⟨s, hrun, h.puts ▸ hlt, h.pc, h.sawFull⟩
  have hindex (m : Nat) : single.getIndex m < 2 ^ 31 := by
    rw [single_getIndex]
    decide
  refine (solo_rounds false n (Nat.lt_of_succ_lt hlt) fun m _ => hindex m).bind fun s₀ ⟨x, h₀⟩ => ?_
  refine (h₀.tryAdd () hlt).bind fun s₁ h₁ => (h₁.reserve hlt).bind fun s₂ h₂ => ?_
  rw [single_getRound] at h₂
  refine h₂.late.bind fun s₃ h₃ => ?_
  have hload : next single () s₃ true (.addLoad .user ()) = some (s₃.goto true (.addState .user () (n + 1))) := by
    simp only [next]
    rw [h₃.allocated]
  refine (h₃.advance hload).bind fun s₄ h₄ => ?_
  have hstate : next single () s₄ true (.addState .user () (n + 1)) =
      some (s₄.goto true (.addFull .user () (n + 1))) := by
    have hcode : WRITEABLE = Kind.writeable.code := rfl
    simp only [next, stepAddState]
    rw [single_getIndex, h₄.state, hcode, matchState_byte, if_neg (by simp)]
  refine (h₄.advance hstate).bind fun s₅ h₅ => ?_
  have hfull : next single () s₅ true (.addFull .user () (n + 1)) = some (s₅.goto true (.idle (.added false))) := by
    have hwrap : add64 (n + 1) single.toNat = 0 := by
      unfold add64
      rw [show n + 1 + single.toNat = 2 ^ 64 from hn, Nat.mod_self]
    simp only [next, stepAddFull]
    rw [h₅.reserved, hwrap, if_pos (Nat.zero_le _)]
    rfl
  exact h₅.advance hfull

end Late

end CangjieRuntime.ArrayBlockingQueue
