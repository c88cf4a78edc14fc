import CangjieRuntime.StdSync.Correctness.LockExclusion

/-!
# `StdSync.Correctness.LockWaiters` — does a free lock leave its waiters alone?

An unlocker notifies one of the two lists only, and trusts the threads it wakes with the other. Two promises carry this.

* **Writers** in the list are waited for by the state word: it is not 0, or some thread is going to take the lock or to
  wake a writer (`Pc.forWriters`). A thread that goes to sleep hands its promise over to whoever holds the lock.
* **Readers** in the list are waited for by the writers: there is a write hold, or a writer in the list or on its way
  (`Pc.forReaders`), whose unlock will wake them.

In fair mode a reader also goes to sleep because writers are waiting. If the lock is free at that moment, nobody takes
its promise: the writers it waits for may be asleep themselves.
-/

namespace CangjieRuntime.ReadWriteLock

open Word Interleave Function Option

/-! ## What a control point stands for -/

namespace Pc

/-- Blocked in `readLock` or `writeLock`, and not notified. -/
def blocked : Pc → Bool
  | .asleep _ => true
  | _ => false

/-- Outside all operations of the lock: a thread that waits for a condition has given the lock back. -/
def outside : Pc → Bool
  | .idle _ => true
  | .conditionSleep _ => true
  | _ => false

/-- The list whose monitor the thread is in. -/
def inside : Pc → Option Side
  | .waitRetest w => some w.side
  | .waitAdd w => some w.side
  | .waitUnlock w => some w.side
  | .waitLeave w => some w.side
  | .notifyPop n _ => some n.side
  | .notifyUnlock n _ => some n.side
  | _ => none

/-- The list the thread is in. -/
def queued : Pc → Option Side
  | .waitUnlock w => some w.side
  | .asleep w => some w.side
  | _ => none

/-- The list the thread is about to enter. -/
def adding : Pc → Option Side
  | .waitAdd w => some w.side
  | _ => none

/-- The call of `waitIf` the thread is in. -/
def waiting : Pc → Option Wait
  | .waitTest w => some w
  | .waitLock w => some w
  | .waitRetest w => some w
  | .waitAdd w => some w
  | .waitUnlock w => some w
  | .waitLeave w => some w
  | .asleep w => some w
  | .woken w => some w
  | _ => none

/-- Counted in `waitingWriters`. -/
def counted : Pc → Nat
  | .writeWaited _ => 1
  | c =>
    match c.waiting with
    | some (.writerShare _) => 1
    | _ => 0

/-- Going to take the lock, or to wake a thread that will. -/
def forWriters : Pc → Bool
  | .readLoad => true
  | .readFair _ => true
  | .readCas _ => true
  | .writeLoad _ => true
  | .writeWaiting _ => true
  | .writeWaited _ => true
  | .writeCas _ => true
  | .waitTest _ => true
  | .waitLock _ => true
  | .waitRetest _ => true
  | .waitLeave _ => true
  | .woken _ => true
  | .notifyLock .lastReader => true
  | .notifyLock (.fairReaders _) => true
  | .notifyLock (.fairWriter _) => true
  | .notifyLock (.unfairWriter _) => true
  | .notifyPop .lastReader found => !found
  | .notifyPop (.fairReaders _) found => !found
  | .notifyPop (.fairWriter _) found => !found
  | .notifyPop (.unfairWriter _) found => !found
  | .notifyUnlock (.fairReaders _) found => !found
  | _ => false

/-- Going to take the write lock, or to wake the readers or a writer. -/
def forReaders : Pc → Bool
  | .writeLoad _ => true
  | .writeWaiting _ => true
  | .writeWaited _ => true
  | .writeCas _ => true
  | .waitTest w => decide (w.side = .writer)
  | .waitLock w => decide (w.side = .writer)
  | .waitRetest w => decide (w.side = .writer)
  | .waitAdd w => decide (w.side = .writer)
  | .waitLeave w => decide (w.side = .writer)
  | .woken w => decide (w.side = .writer)
  | .notifyLock (.downgrade _) => true
  | .notifyLock (.fairReaders _) => true
  | .notifyLock (.unfairWriter _) => true
  | .notifyLock (.unfairReaders _) => true
  | .notifyPop (.downgrade _) _ => true
  | .notifyPop (.fairReaders _) _ => true
  | .notifyPop (.unfairWriter _) found => !found
  | .notifyPop (.unfairReaders _) _ => true
  | .notifyUnlock (.unfairWriter _) found => !found
  | _ => false

end Pc

/-! ## The invariant -/

variable {T : Type}

/-- Somebody is in the list, or about to be. -/
def Waited (s : State T) (side : Side) : Prop := s.list side ≠ [] ∨ ∃ t, (s.pc t).adding = some side

/-- The promise to the writers. -/
def WritersServed (s : State T) : Prop := s.state ≠ 0 ∨ ∃ t, (s.pc t).forWriters = true

/-- The promise to the readers. -/
def ReadersServed (s : State T) : Prop :=
  0 < decodeWriteCount s.state ∨ s.list .writer ≠ [] ∨ ∃ t, (s.pc t).forReaders = true

structure Waits [Fintype T] (isFair : Bool) (s : State T) : Prop where
  monitor : ∀ side t, s.monitor side = some t ↔ (s.pc t).inside = some side
  listed : ∀ side t, t ∈ s.list side ↔ (s.pc t).queued = some side
  nodup : ∀ side, (s.list side).Nodup
  counted : s.waitingWriters = tally Pc.counted s.pc
  fair : isFair = false → ∀ t, (s.pc t).waiting ≠ some .readerFair ∧ ∀ c, s.pc t ≠ .readFair c
  writers : Waited s .writer → WritersServed s
  readers : Waited s .reader → ReadersServed s

/-- The state word is 0, a thread is blocked, and nobody is going to wake it. -/
def Stranded (s : State T) : Prop :=
  s.state = 0 ∧ (∃ t, (s.pc t).blocked = true) ∧ ∀ t, (s.pc t).blocked = true ∨ (s.pc t).outside = true

/-- No reader decides to wait for other writers while the lock is free; in unfair mode none does so anyway. -/
def Awake [DecidableEq T] (isFair : Bool) (s : State T) (ta : T × Act) : Prop :=
  Fits s ta ∧ (isFair = true → s.pc ta.1 = .waitRetest .readerFair → s.state ≠ 0)

section Read

variable [Fintype T] {isFair : Bool} {s : State T} {t u : T}

theorem waits_newLock : Waits isFair (newLock : State T) where
  monitor _ _ := iff_of_false nofun nofun
  listed _ _ := iff_of_false nofun nofun
  nodup _ := List.nodup_nil
  counted := (tally_eq_zero.mpr fun _ => rfl).symm
  fair _ _ := ⟨nofun, nofun⟩
  writers h := (h.resolve_left fun hne => hne rfl).elim nofun
  readers h := (h.resolve_left fun hne => hne rfl).elim nofun

/-- A promise is kept by a thread that is still inside an operation. -/
theorem Waits.not_stranded (h : Waits isFair s) : ¬Stranded s := by
  rintro ⟨hzero, ⟨t, ht⟩, hall⟩
  have hnobody : ∀ u, (s.pc u).forWriters = false ∧ (s.pc u).forReaders = false := by
    intro u
    have hu := hall u
    generalize s.pc u = c at hu ⊢
    cases c with
    | asleep w | idle ret | conditionSleep n => exact ⟨rfl, rfl⟩
    | _ => rcases hu with hu | hu <;> exact nomatch hu
  have hwriters : s.list .writer = [] := by
    by_contra hne
    rcases h.writers (Or.inl hne) with hstate | ⟨u, hu⟩
    · exact hstate hzero
    · rw [(hnobody u).1] at hu
      exact nomatch hu
  have hreaders : s.list .reader = [] := by
    by_contra hne
    rcases h.readers (Or.inl hne) with hwrite | hlist | ⟨u, hu⟩
    · rw [(decode_zero_iff.mp hzero).2] at hwrite
      exact Nat.lt_irrefl 0 hwrite
    · exact hlist hwriters
    · rw [(hnobody u).2] at hu
      exact nomatch hu
  -- the blocked thread is in one of the lists
  cases hpc : s.pc t with
  | asleep w =>
      have hmem : t ∈ s.list w.side := (h.listed w.side t).mpr (by rw [hpc]; rfl)
      cases hside : w.side with
      | reader =>
          rw [hside, hreaders] at hmem
          exact nomatch hmem
      | writer =>
          rw [hside, hwriters] at hmem
          exact nomatch hmem
  | _ =>
      rw [hpc] at ht
      exact nomatch ht

/-- Two threads are not in one monitor. -/
theorem Waits.inside_unique (h : Waits isFair s) {side : Side} (ht : (s.pc t).inside = some side)
    (hu : (s.pc u).inside = some side) : u = t :=
  some.inj (((h.monitor side u).mpr hu).symm.trans ((h.monitor side t).mpr ht))

/-- While a thread takes nodes out of a list, nobody is about to enter it. -/
theorem Waits.not_waited (h : Waits isFair s) {n : Notice} {found : Bool} (hpc : s.pc t = .notifyPop n found)
    (hnil : s.list n.side = []) : ¬Waited s n.side := by
  rintro (hne | ⟨u, hu⟩)
  · exact hne hnil
  · have hinside : (s.pc u).inside = some n.side := by
      generalize s.pc u = c at hu ⊢
      cases c with
      | waitAdd w => exact hu
      | _ => exact nomatch hu
    have hut := h.inside_unique (t := t) (by rw [hpc]; rfl) hinside
    rw [hut, hpc] at hu
    exact nomatch hu

/-- Waiting writers are in the list, or on their way. -/
theorem Waits.readers_of_waiting (h : Waits isFair s) (hpos : 0 < s.waitingWriters) : ReadersServed s := by
  rw [h.counted] at hpos
  obtain ⟨u, hu⟩ : ∃ u, (s.pc u).counted ≠ 0 := by
    by_contra hnone
    exact absurd (tally_eq_zero.mpr fun u => not_not.mp fun hu => hnone ⟨u, hu⟩) hpos.ne'
  by_cases hqueued : (s.pc u).queued = some .writer
  · exact Or.inr (Or.inl (List.ne_nil_of_mem ((h.listed .writer u).mpr hqueued)))
  · refine Or.inr (Or.inr ⟨u, ?_⟩)
    generalize s.pc u = c at hu hqueued ⊢
    cases c with
    | writeWaited n => rfl
    | waitTest w | waitLock w | waitRetest w | waitAdd w | waitLeave w | woken w =>
      cases w with
      | writerShare n => rfl
      | _ => exact absurd rfl hu
    | waitUnlock w | asleep w =>
      cases w with
      | writerShare n => exact absurd rfl hqueued
      | _ => exact absurd rfl hu
    | _ => exact absurd rfl hu

end Read

/-! ## Moving one thread -/

section Move

variable [Fintype T] [DecidableEq T] {isFair : Bool} {s s' : State T} {t : T} {c₀ c : Pc}

variable (hmove : s'.pc = update s.pc t c)
include hmove

omit [Fintype T] in
theorem exists_pc_update {P : Pc → Prop} :
    (∃ u, P (s'.pc u)) ↔ P c ∨ ∃ u, u ≠ t ∧ P (s.pc u) := by
  rw [hmove]
  exact exists_update_iff s.pc fun _ x => P x

omit [Fintype T] in
/-- Who is waited for after a move was before, unless the thread itself is about to enter the list. -/
theorem Waited.before {side : Side} (hlist : s'.list side = s.list side)
    (hadding : c.adding ≠ some side) (hwaited : Waited s' side) : Waited s side := by
  rcases hwaited with hne | hex
  · exact Or.inl (hlist ▸ hne)
  · rcases (exists_pc_update (P := fun x => x.adding = some side) hmove).mp hex with hc | ⟨u, -, hu⟩
    · exact absurd hc hadding
    · exact Or.inr ⟨u, hu⟩

omit [Fintype T] in
theorem WritersServed.after (hstate : s.state ≠ 0 → WritersServed s')
    (hfor : (s.pc t).forWriters = true → WritersServed s') (h : WritersServed s) : WritersServed s' := by
  rcases h with hne | ⟨u, hu⟩
  · exact hstate hne
  · by_cases hut : u = t
    · exact hfor (hut ▸ hu)
    · exact Or.inr ((exists_pc_update (P := fun x => x.forWriters = true) hmove).mpr (Or.inr ⟨u, hut, hu⟩))

omit [Fintype T] in
theorem ReadersServed.after (hwrite : 0 < decodeWriteCount s.state → ReadersServed s')
    (hlist : s.list .writer ≠ [] → ReadersServed s') (hfor : (s.pc t).forReaders = true → ReadersServed s')
    (h : ReadersServed s) : ReadersServed s' := by
  rcases h with hpos | hne | ⟨u, hu⟩
  · exact hwrite hpos
  · exact hlist hne
  · by_cases hut : u = t
    · exact hfor (hut ▸ hu)
    · exact Or.inr (Or.inr ((exists_pc_update (P := fun x => x.forReaders = true) hmove).mpr (Or.inr ⟨u, hut, hu⟩)))

omit [Fintype T] in
theorem writersServed_of_for (hc : c.forWriters = true) : WritersServed s' :=
  Or.inr ((exists_pc_update (P := fun x => x.forWriters = true) hmove).mpr (Or.inl hc))

omit [Fintype T] in
theorem readersServed_of_for (hc : c.forReaders = true) : ReadersServed s' :=
  Or.inr (Or.inr ((exists_pc_update (P := fun x => x.forReaders = true) hmove).mpr (Or.inl hc)))

omit hmove

/-- Not a control point of the fair mode. -/
def Pc.Unfair (c : Pc) : Prop := c.waiting ≠ some .readerFair ∧ ∀ x, c ≠ .readFair x

/-- A move from `c₀` to `c` that keeps the place in the lists and the promises. -/
structure Pc.Keeps (isFair : Bool) (c₀ c : Pc) : Prop where
  queued : c.queued = c₀.queued
  adding : c.adding = none
  fair : isFair = false → c.Unfair
  forWriters : c₀.forWriters = true → c.forWriters = true
  forReaders : c₀.forReaders = true → c.forReaders = true

/-- Outside the lists and the monitors, and without a promise. -/
def Pc.bare (c : Pc) : Bool :=
  c.inside.isNone && c.queued.isNone && c.adding.isNone && c.counted == 0 && !c.forWriters && !c.forReaders &&
    c.waiting.isNone

theorem Pc.bare_spec (hc : c.bare = true) : c.inside = none ∧ c.queued = none ∧ c.adding = none ∧ c.counted = 0 ∧
    c.forWriters = false ∧ c.forReaders = false ∧ c.waiting = none := by
  simpa [bare, and_assoc] using hc

theorem Pc.keeps_of_bare (hc : c.bare = true) (hqueued : c₀.queued = none) (hwriters : c₀.forWriters = false)
    (hreaders : c₀.forReaders = false) : c.inside = none ∧ c.counted = 0 ∧ Pc.Keeps isFair c₀ c := by
  obtain ⟨hinside, hq, hadding, hcount, hw, -, hwaiting⟩ := bare_spec hc
  refine ⟨hinside, hcount, hq.trans hqueued.symm, hadding, fun _ => ⟨by rw [hwaiting]; nofun, ?_⟩, ?_, ?_⟩
  · rintro x rfl
    exact nomatch hw
  · rw [hwriters]
    nofun
  · rw [hreaders]
    nofun

omit [Fintype T] in
/-- What the move of `t` does not change about `t`, it does not change about any thread. -/
theorem pc_update_congr {α : Type} (f : Pc → α) (hpc : s.pc t = c₀) (hmove : s'.pc = update s.pc t c)
    (hf : f c = f c₀) (u : T) : f (s'.pc u) = f (s.pc u) := by
  rw [hmove]
  by_cases hut : u = t
  · rw [hut, update_self, hf, hpc]
  · rw [update_of_ne hut]

variable (h : Waits isFair s)
include h

variable (hpc : s.pc t = c₀)
include hpc

/-- **A step of one thread**: what has to be shown. -/
theorem Waits.move (hmove : s'.pc = update s.pc t c)
    (hmonitor : ∀ side u, s'.monitor side = some u ↔ (s'.pc u).inside = some side)
    (hlisted : ∀ side u, u ∈ s'.list side ↔ (s'.pc u).queued = some side) (hnodup : ∀ side, (s'.list side).Nodup)
    (hcount : s'.waitingWriters + c₀.counted = s.waitingWriters + c.counted)
    (hfair : isFair = false → c.Unfair) (hwriters : Waited s' .writer → WritersServed s')
    (hreaders : Waited s' .reader → ReadersServed s') : Waits isFair s' := by
  refine ⟨hmonitor, hlisted, hnodup, ?_, ?_, hwriters, hreaders⟩
  · have htally := tally_update Pc.counted s.pc t c
    rw [← hmove, hpc] at htally
    have hbefore := h.counted
    omega
  · intro hunfair u
    rw [hmove, update_apply]
    split_ifs
    · exact hfair hunfair
    · exact h.fair hunfair u

/-- A step that leaves the lists and the monitors alone. -/
theorem Waits.step (hmove : s'.pc = update s.pc t c)
    (hlist : s'.list = s.list) (hmonitor : s'.monitor = s.monitor) (hinside : c.inside = c₀.inside)
    (hqueued : c.queued = c₀.queued) (hcount : s'.waitingWriters + c₀.counted = s.waitingWriters + c.counted)
    (hfair : isFair = false → c.Unfair) (hwriters : Waited s' .writer → WritersServed s')
    (hreaders : Waited s' .reader → ReadersServed s') : Waits isFair s' := by
  refine h.move hpc hmove ?_ ?_ ?_ hcount hfair hwriters hreaders
  · intro side u
    rw [hmonitor, pc_update_congr Pc.inside hpc hmove hinside u]
    exact h.monitor side u
  · intro side u
    rw [hlist, pc_update_congr Pc.queued hpc hmove hqueued u]
    exact h.listed side u
  · rw [hlist]
    exact h.nodup

/-- A step on the state word after which neither the word nor, if it was positive, the write count is 0. -/
theorem Waits.onWord {state : Nat} (hinside : c.inside = c₀.inside)
    (hqueued : c.queued = c₀.queued) (hadding : c.adding = none) (hcount : c.counted = c₀.counted) (hfair : c.Unfair)
    (hstate : state ≠ 0) (hwrite : 0 < decodeWriteCount s.state → 0 < decodeWriteCount state)
    (hfor : c₀.forReaders = true → c.forReaders = true ∨ 0 < decodeWriteCount state) :
    Waits isFair ({ s with state := state }.goto t c) := by
  have hmove : ({ s with state := state }.goto t c).pc = update s.pc t c := rfl
  refine h.step hpc hmove rfl rfl hinside hqueued (congrArg (s.waitingWriters + ·) hcount.symm) (fun _ => hfair)
    (fun _ => Or.inl hstate) ?_
  intro hwaited
  have hbefore := h.readers (hwaited.before hmove rfl (by rw [hadding]; exact nofun))
  refine hbefore.after hmove (fun hpos => Or.inl (hwrite hpos)) (fun hne => Or.inr (Or.inl hne)) fun hthread => ?_
  rcases hfor (hpc ▸ hthread) with hc | hpos
  · exact readersServed_of_for hmove hc
  · exact Or.inl hpos

/-- The promises after a move that keeps the lists and the word. -/
theorem Waits.promises (hmove : s'.pc = update s.pc t c)
    (hstate : s'.state = s.state) (hlist : s'.list = s.list) (hkeeps : Pc.Keeps isFair c₀ c) :
    (Waited s' .writer → WritersServed s') ∧ (Waited s' .reader → ReadersServed s') := by
  have hbefore : ∀ side, Waited s' side → Waited s side := fun side hwaited =>
    hwaited.before hmove (by rw [hlist]) (by rw [hkeeps.adding]; exact nofun)
  constructor
  · intro hwaited
    exact (h.writers (hbefore _ hwaited)).after hmove (fun hne => Or.inl (hstate ▸ hne)) fun hthread =>
      writersServed_of_for hmove (hkeeps.forWriters (hpc ▸ hthread))
  · intro hwaited
    exact (h.readers (hbefore _ hwaited)).after hmove (fun hpos => Or.inl (hstate ▸ hpos))
      (fun hne => Or.inr (Or.inl (hlist ▸ hne))) fun hthread =>
        readersServed_of_for hmove (hkeeps.forReaders (hpc ▸ hthread))

/-- A step that does not touch the state word. -/
theorem Waits.plain (hmove : s'.pc = update s.pc t c)
    (hstate : s'.state = s.state) (hlist : s'.list = s.list) (hmonitor : s'.monitor = s.monitor)
    (hinside : c.inside = c₀.inside) (hcount : s'.waitingWriters + c₀.counted = s.waitingWriters + c.counted)
    (hkeeps : Pc.Keeps isFair c₀ c) : Waits isFair s' := by
  obtain ⟨hwriters, hreaders⟩ := h.promises hpc hmove hstate hlist hkeeps
  exact h.step hpc hmove hlist hmonitor hinside hkeeps.queued hcount hkeeps.fair hwriters hreaders

/-- A move that touches nothing. -/
theorem Waits.goto (hinside : c.inside = c₀.inside) (hcount : c.counted = c₀.counted)
    (hkeeps : Pc.Keeps isFair c₀ c) : Waits isFair (s.goto t c) :=
  h.plain hpc rfl rfl rfl rfl hinside (by rw [hcount]; rfl) hkeeps

/-- A move outside the lists and the monitors. -/
theorem Waits.bare (hmove : s'.pc = update s.pc t c)
    (hstate : s'.state = s.state) (hlist : s'.list = s.list) (hmonitor : s'.monitor = s.monitor)
    (hwaiting : s'.waitingWriters = s.waitingWriters) (hc₀ : c₀.bare = true) (hc : c.bare = true) :
    Waits isFair s' := by
  obtain ⟨hinside₀, hqueued, -, hcount₀, hwriters, hreaders, -⟩ := Pc.bare_spec hc₀
  obtain ⟨hinside, hcount, hkeeps⟩ := Pc.keeps_of_bare hc hqueued hwriters hreaders
  exact h.plain hpc hmove hstate hlist hmonitor (hinside.trans hinside₀.symm) (by rw [hwaiting, hcount, hcount₀]) hkeeps

end Move

/-! ## Steps on the state word -/

theorem ne_zero_of_share {state : Nat} (hpos : 0 < decodeShareCount state) : state ≠ 0 :=
  fun hzero => absurd (decode_zero_iff.mp hzero).1 hpos.ne'

theorem ne_zero_of_write {state : Nat} (hpos : 0 < decodeWriteCount state) : state ≠ 0 :=
  fun hzero => absurd (decode_zero_iff.mp hzero).2 hpos.ne'

section Word

variable [Fintype T] [DecidableEq T] {ids : ThreadIds T} {isFair : Bool} {s : State T} {t : T} {c₀ : Pc} {ret : Ret}
  {currState state writeCount : Nat} {retry : Pc} {caller : Caller}

variable (h : Waits isFair s)
include h

/-- An addition that takes a read hold. -/
theorem Waits.takeShare (hpc : s.pc t = c₀) (hfits : decodeShareCount s.state + 1 < 2 ^ 32)
    (hinside : c₀.inside = none) (hqueued : c₀.queued = none) (hcount : c₀.counted = 0) (hfor : c₀.forReaders = false) :
    Waits isFair ({ s with state := add64 s.state SHARE_UNIT }.goto t (.incThread ret)) := by
  obtain ⟨-, hwrite, hshare⟩ := add_share hfits
  generalize add64 s.state SHARE_UNIT = state at hwrite hshare
  refine h.onWord (c := .incThread ret) hpc hinside.symm hqueued.symm rfl hcount.symm ⟨nofun, nofun⟩ ?_ ?_ ?_
  · exact ne_zero_of_share (by rw [hshare]; exact Nat.succ_pos _)
  · intro hpos
    exact hwrite.symm ▸ hpos
  · intro hc
    rw [hfor] at hc
    exact nomatch hc

theorem stepShareCas_waits (hpc : s.pc t = c₀)
    (hc : (c₀ = .readCas currState ∧ retry = .readLoad) ∨ (c₀ = .tryReadCas currState ∧ retry = .tryReadLoad))
    (hcurr : decodeWriteCount currState = 0) (hfits : decodeShareCount s.state + 1 < 2 ^ 32) :
    Waits isFair (stepShareCas s t currState ret retry) := by
  unfold stepShareCas
  rw [if_neg (not_not.mpr hcurr)]
  split_ifs with hcas
  · rw [← hcas]
    rcases hc with ⟨rfl, -⟩ | ⟨rfl, -⟩ <;> exact h.takeShare hpc hfits rfl rfl rfl rfl
  · rcases hc with ⟨rfl, rfl⟩ | ⟨rfl, rfl⟩ <;> exact h.goto hpc rfl rfl ⟨rfl, rfl, fun _ => ⟨nofun, nofun⟩, id, id⟩

/-- The owner of the write lock gives a read hold back. -/
theorem decShareCount_waits (hi : Inv ids s) (hpc : s.pc t = .decShareCount) :
    Waits isFair ({ s with state := sub64 s.state SHARE_UNIT }.goto t .decThread) := by
  have hknows := hi.knows_at hpc
  have hholds : 0 < readHolds s t := by
    rw [holds_at hpc]
    exact (Int.add_zero _).symm ▸ hknows.2
  have hle := hi.holds_le_share t
  obtain ⟨-, hwrite, -⟩ := sub_share hi.word (show 0 < decodeShareCount s.state by omega)
  generalize sub64 s.state SHARE_UNIT = state at hwrite
  have hpos := hwrite.symm ▸ hi.owner_write hknows.1
  exact h.onWord (c := .decThread) hpc rfl rfl rfl rfl ⟨nofun, nofun⟩ (ne_zero_of_write hpos) (fun _ => hpos) nofun

/-- The last reader leaves; no writer holds the lock, so the promise to the readers is somebody else's. -/
theorem lastReader_waits (hpc : s.pc t = .readUnlockCas currState)
    (hzero : decodeWriteCount s.state = 0) :
    Waits isFair ({ s with state := state }.goto t (.notifyLock .lastReader)) := by
  have hmove : ({ s with state := state }.goto t (.notifyLock .lastReader)).pc =
      update s.pc t (.notifyLock .lastReader) := rfl
  refine h.step hpc hmove rfl rfl rfl rfl rfl (fun _ => ⟨nofun, nofun⟩) ?_ ?_
  · exact fun _ => writersServed_of_for hmove rfl
  · intro hwaited
    refine (h.readers (hwaited.before hmove rfl nofun)).after hmove ?_ (fun hne => Or.inr (Or.inl hne)) ?_
    · intro hpos
      exact absurd hzero hpos.ne'
    · intro hfor
      rw [hpc] at hfor
      exact nomatch hfor

/-- A reader gives its hold back: other holds are left, or it goes on to notify a writer. -/
theorem stepReadUnlockCas_waits (hi : Inv ids s)
    (hpc : s.pc t = .readUnlockCas currState) : Waits isFair (stepReadUnlockCas s t currState) := by
  obtain ⟨hnot, hholds⟩ := hi.unlocking hpc (Or.inr ⟨_, rfl⟩)
  have hle := hi.holds_le_share t
  have hzero := hi.free (hi.no_writer hnot hholds)
  unfold stepReadUnlockCas
  by_cases hcas : s.state = currState
  · rw [if_pos hcas, ← hcas]
    obtain ⟨-, hwrite, hshare⟩ := sub_share hi.word (show 0 < decodeShareCount s.state by omega)
    split_ifs with hlast
    · exact lastReader_waits h hpc hzero
    · have hmore : sub64 s.state SHARE_UNIT ≠ 0 := by
        intro hstate
        rw [(decode_zero_iff.mp hstate).1, decodeShareCount_eq] at hshare
        rw [decodeWriteCount_eq] at hzero
        unfold SHARE_UNIT at hlast
        omega
      generalize sub64 s.state SHARE_UNIT = state at hwrite hshare hmore
      exact h.onWord (c := .idle .unit) hpc rfl rfl rfl rfl ⟨nofun, nofun⟩ hmore (fun hpos => hwrite.symm ▸ hpos) nofun
  · rw [if_neg hcas]
    exact h.goto hpc rfl rfl ⟨rfl, rfl, fun _ => ⟨nofun, nofun⟩, id, id⟩

/-- A step of the owner, which keeps a write hold. -/
theorem Waits.keepWrite {c : Pc} (hpc : s.pc t = c₀) (hinside : c.inside = c₀.inside)
    (hqueued : c.queued = c₀.queued) (hadding : c.adding = none) (hcount : c.counted = c₀.counted) (hfair : c.Unfair)
    (hpos : 0 < decodeWriteCount state) : Waits isFair ({ s with state := state }.goto t c) :=
  h.onWord hpc hinside hqueued hadding hcount hfair (ne_zero_of_write hpos) (fun _ => hpos) fun _ => Or.inr hpos

theorem stepWriteCas_waits (hpc : s.pc t = c₀)
    (hc : (c₀ = .writeCas writeCount ∧ retry = .writeLoad writeCount) ∨ (c₀ = .tryWriteCas ∧ retry = .tryWriteLoad))
    (hcount : Count writeCount) : Waits isFair (stepWriteCas s t writeCount ret retry) := by
  unfold stepWriteCas
  split_ifs with hzero
  · rw [write_unit_mul hcount.2]
    have hpos : 0 < decodeWriteCount writeCount := by
      rw [decodeWriteCount_eq, Nat.mod_eq_of_lt hcount.2]
      exact hcount.1
    rcases hc with ⟨rfl, -⟩ | ⟨rfl, -⟩ <;>
      exact h.keepWrite (c := .storeOwner ret) hpc rfl rfl rfl rfl ⟨nofun, nofun⟩ hpos
  · rcases hc with ⟨rfl, rfl⟩ | ⟨rfl, rfl⟩ <;> exact h.goto hpc rfl rfl ⟨rfl, rfl, fun _ => ⟨nofun, nofun⟩, id, id⟩

theorem incWriteCount_waits (hi : Inv ids s)
    (hpc : s.pc t = .incWriteCount writeCount ret) (hfits : decodeWriteCount s.state + writeCount < 2 ^ 32) :
    Waits isFair ({ s with state := add64 s.state (mul64 WRITE_UNIT writeCount) }.goto t (.idle ret)) := by
  have hknows := hi.knows_at hpc
  obtain ⟨-, hwrite, -⟩ := add_write hi.word hfits
  have hpos : 0 < decodeWriteCount (add64 s.state (mul64 WRITE_UNIT writeCount)) := by
    rw [hwrite]
    exact Nat.lt_of_lt_of_le (hi.owner_write hknows.1) (Nat.le_add_right _ _)
  generalize add64 s.state (mul64 WRITE_UNIT writeCount) = state at hpos
  exact h.keepWrite (c := .idle ret) hpc rfl rfl rfl rfl ⟨nofun, nofun⟩ hpos

theorem decWriteCount_waits (hi : Inv ids s)
    (hpc : s.pc t = .decWriteCount writeCount caller) :
    Waits isFair ({ s with state := sub64 s.state (mul64 WRITE_UNIT writeCount) }.goto t caller.after) := by
  have hknows := hi.knows_at hpc
  obtain ⟨-, hwrite, -⟩ := sub_write hi.word hknows.2.1.le
  have hpos : 0 < decodeWriteCount (sub64 s.state (mul64 WRITE_UNIT writeCount)) := by
    rw [hwrite]
    exact Nat.sub_pos_of_lt hknows.2.1
  generalize sub64 s.state (mul64 WRITE_UNIT writeCount) = state at hpos
  cases caller with
  | user => exact h.keepWrite (c := .idle .unit) hpc rfl rfl rfl rfl ⟨nofun, nofun⟩ hpos
  | condition n => exact h.keepWrite (c := .conditionSleep n) hpc rfl rfl rfl rfl ⟨nofun, nofun⟩ hpos

/-- The subtraction that gives the write lock back: read holds are left, or the thread goes on to notify writers too. -/
theorem writeUnlockDec_waits (hi : Inv ids s) {shared : Bool}
    (hpc : s.pc t = .writeUnlockDec writeCount shared caller) :
    Waits isFair ({ s with state := sub64 s.state (mul64 WRITE_UNIT writeCount) }.goto t
      (.notifyLock (unlockNotice isFair shared caller))) := by
  obtain ⟨-, hcount, hshared, -⟩ := hi.knows_at hpc
  obtain ⟨-, -, hshare⟩ := sub_write hi.word hcount.le
  have hleft : shared = true → sub64 s.state (mul64 WRITE_UNIT writeCount) ≠ 0 := by
    intro hsh
    have hreads := hshared hsh
    have hle := hi.holds_le_share t
    rw [holds_at hpc] at hle
    have howed : (Pc.writeUnlockDec writeCount shared caller).owed = 0 := rfl
    exact ne_zero_of_share (by omega)
  generalize sub64 s.state (mul64 WRITE_UNIT writeCount) = state at hleft
  have hmove : ({ s with state := state }.goto t (.notifyLock (unlockNotice isFair shared caller))).pc =
      update s.pc t (.notifyLock (unlockNotice isFair shared caller)) := rfl
  refine h.step hpc hmove rfl rfl rfl rfl rfl (fun _ => ⟨nofun, nofun⟩) ?_ ?_
  · intro _
    by_cases hsh : shared = true
    · exact Or.inl (hleft hsh)
    · apply writersServed_of_for hmove
      rw [Bool.not_eq_true] at hsh
      rw [hsh]
      cases isFair <;> rfl
  · intro _
    apply readersServed_of_for hmove
    cases shared with
    | true => rfl
    | false => cases isFair <;> rfl

end Word

/-! ## Steps on the lists -/

section Lists

variable [Fintype T] [DecidableEq T] {isFair : Bool} {s s' : State T} {t : T} {c₀ c : Pc} {side : Side} {w : Wait}
  {n : Notice}
  {found : Bool} {current : T}

omit [Fintype T] in
/-- What a list or monitor and the positions of the threads say of each other stays so when the entry of one side and
    the position of one thread change together. -/
theorem iff_update {V : Type} {A : Side → V} {P : V → T → Prop} {F : Pc → Option Side} {v : V}
    (h : ∀ i u, P (A i) u ↔ F (s.pc u) = some i) (hothers : ∀ u, u ≠ t → (P v u ↔ P (A side) u))
    (hself : P v t ↔ F c = some side) (hrest : ∀ i, i ≠ side → (P (A i) t ↔ F c = some i)) (i : Side) (u : T) :
    P (update A side v i) u ↔ F (update s.pc t c u) = some i := by
  by_cases hut : u = t
  · subst hut
    rw [update_self]
    by_cases hi : i = side
    · subst hi
      rw [update_self]
      exact hself
    · rw [update_of_ne hi]
      exact hrest i hi
  · rw [update_of_ne hut]
    by_cases hi : i = side
    · subst hi
      rw [update_self]
      exact (hothers u hut).trans (h i u)
    · rw [update_of_ne hi]
      exact h i u

variable (h : Waits isFair s)
include h

theorem Waits.enter (hpc : s.pc t = c₀) (henter : s.enter t side c = some s')
    (hinside : c.inside = some side) (hout : c₀.inside = none) (hcount : c.counted = c₀.counted)
    (hkeeps : Pc.Keeps isFair c₀ c) : Waits isFair s' := by
  obtain ⟨hfree, henter⟩ := ite_none_right_eq_some.mp henter
  cases henter
  have hmove : ({ s with monitor := update s.monitor side (some t) }.goto t c).pc = update s.pc t c := rfl
  obtain ⟨hwriters, hreaders⟩ := h.promises hpc hmove rfl rfl hkeeps
  refine h.move hpc hmove ?_ (fun side' u => ?_) h.nodup (congrArg (s.waitingWriters + ·) hcount.symm) hkeeps.fair
    hwriters hreaders
  · refine iff_update (P := fun v u => v = some u) (F := Pc.inside) h.monitor ?_ (iff_of_true rfl hinside) ?_
    · intro u hut
      refine iff_of_false (fun heq => hut (some.inj heq).symm) fun hu => ?_
      rw [hu] at hfree
      exact nomatch hfree
    · intro i hi
      rw [h.monitor, hpc, hout, hinside]
      exact iff_of_false nofun fun heq => hi (some.inj heq).symm
  · rw [pc_update_congr Pc.queued hpc hmove hkeeps.queued u]
    exact h.listed side' u

theorem Waits.leave (hpc : s.pc t = c₀) (hinside : c₀.inside = some side)
    (hout : c.inside = none) (hcount : c.counted = c₀.counted) (hkeeps : Pc.Keeps isFair c₀ c) :
    Waits isFair (s.leave t side c) := by
  have hmove : (s.leave t side c).pc = update s.pc t c := rfl
  obtain ⟨hwriters, hreaders⟩ := h.promises hpc hmove rfl rfl hkeeps
  refine h.move hpc hmove ?_ (fun side' u => ?_) h.nodup (congrArg (s.waitingWriters + ·) hcount.symm) hkeeps.fair
    hwriters hreaders
  · refine iff_update (P := fun v u => v = some u) (F := Pc.inside) h.monitor ?_ (iff_of_false nofun (hout ▸ nofun)) ?_
    · intro u hut
      refine iff_of_false nofun fun hu => ?_
      exact hut (h.inside_unique (by rw [hpc]; exact hinside) ((h.monitor side u).mp hu))
    · intro i hi
      rw [h.monitor, hpc, hinside, hout]
      exact iff_of_false (fun heq => hi (some.inj heq).symm) nofun
  · rw [pc_update_congr Pc.queued hpc hmove hkeeps.queued u]
    exact h.listed side' u

/-- The second look of `waitIf`, taken inside the monitor. A thread that decides to sleep sees a hold, and so somebody
    who will notify; a reader that sleeps because of waiting writers sees the writers. -/
theorem waitRetest_waits (hpc : s.pc t = .waitRetest w) (hpred : w.pred s = true)
    (hawake : isFair = true → w = .readerFair → s.state ≠ 0) : Waits isFair (s.goto t (.waitAdd w)) := by
  have hmove : (s.goto t (.waitAdd w)).pc = update s.pc t (.waitAdd w) := rfl
  have hstate : s.state ≠ 0 := by
    cases w with
    | readerWrite | writerWrite n => exact ne_zero_of_write (of_decide_eq_true hpred)
    | writerShare n => exact ne_zero_of_share (of_decide_eq_true hpred)
    | readerFair =>
      cases isFair with
      | true => exact hawake rfl rfl
      | false =>
        have hunfair := (h.fair rfl t).1
        rw [hpc] at hunfair
        exact absurd rfl hunfair
  have hserved : ReadersServed s → ReadersServed (s.goto t (.waitAdd w)) := by
    intro hbefore
    refine hbefore.after hmove Or.inl (fun hne => Or.inr (Or.inl hne)) fun hfor => readersServed_of_for hmove ?_
    rw [hpc] at hfor
    exact hfor
  refine h.step hpc hmove rfl rfl rfl rfl rfl ?_ (fun _ => Or.inl hstate) ?_
  · intro hunfair
    have hbefore := (h.fair hunfair t).1
    rw [hpc] at hbefore
    exact ⟨hbefore, nofun⟩
  · intro hwaited
    cases w with
    | readerWrite => exact Or.inl (of_decide_eq_true hpred)
    | readerFair => exact hserved (h.readers_of_waiting (of_decide_eq_true hpred))
    | writerWrite n | writerShare n => exact hserved (h.readers (hwaited.before hmove rfl nofun))

/-- The node enters the list, and a writer's promise to the readers goes with it. -/
theorem waitAdd_waits (hpc : s.pc t = .waitAdd w) :
    Waits isFair ({ s with list := update s.list w.side (t :: s.list w.side) }.goto t (.waitUnlock w)) := by
  generalize hs' : ({ s with list := update s.list w.side (t :: s.list w.side) } : State T).goto t (.waitUnlock w) = s'
  have hmove : s'.pc = update s.pc t (.waitUnlock w) := hs' ▸ rfl
  have hlist : s'.list = update s.list w.side (t :: s.list w.side) := hs' ▸ rfl
  have hstate : s'.state = s.state := hs' ▸ rfl
  have hmonitor : s'.monitor = s.monitor := hs' ▸ rfl
  have hwaiting : s'.waitingWriters = s.waitingWriters := hs' ▸ rfl
  have hnotin : ∀ side, t ∉ s.list side := by
    intro side
    rw [h.listed, hpc]
    nofun
  -- whoever is waited for was waited for: `t` was about to enter this very list
  have hbefore : ∀ side, Waited s' side → Waited s side := by
    intro side hwaited
    by_cases hside : side = w.side
    · exact Or.inr ⟨t, by rw [hpc, hside]; rfl⟩
    · refine hwaited.before hmove ?_ nofun
      rw [hlist, update_of_ne hside]
  refine h.move hpc hmove ?_ ?_ ?_ (by rw [hwaiting]; rfl) ?_ ?_ ?_
  · intro side u
    rw [hmonitor, pc_update_congr Pc.inside hpc hmove rfl u]
    exact h.monitor side u
  · rw [hlist, hmove]
    refine iff_update (P := fun l u => u ∈ l) (F := Pc.queued) h.listed ?_ (iff_of_true List.mem_cons_self rfl) ?_
    · intro u hut
      rw [List.mem_cons, or_iff_right hut]
    · exact fun i hi => iff_of_false (hnotin i) fun heq => hi (some.inj heq).symm
  · intro side
    rw [hlist]
    by_cases hside : side = w.side
    · subst hside
      rw [update_self]
      exact List.nodup_cons.mpr ⟨hnotin _, h.nodup _⟩
    · rw [update_of_ne hside]
      exact h.nodup side
  · intro hunfair
    have hfair := (h.fair hunfair t).1
    rw [hpc] at hfair
    exact ⟨hfair, nofun⟩
  · intro hwaited
    refine (h.writers (hbefore _ hwaited)).after hmove (fun hne => Or.inl (hstate ▸ hne)) fun hfor => ?_
    rw [hpc] at hfor
    exact nomatch hfor
  · intro hwaited
    have hwriter : w.side = .writer → s'.list .writer ≠ [] := by
      intro hside
      rw [hlist, hside, update_self]
      exact List.cons_ne_nil _ _
    refine (h.readers (hbefore _ hwaited)).after hmove (fun hpos => Or.inl (hstate ▸ hpos)) ?_ ?_
    · intro hne
      by_cases hside : w.side = .writer
      · exact Or.inr (Or.inl (hwriter hside))
      · refine Or.inr (Or.inl ?_)
        rw [hlist, update_of_ne (fun heq => hside heq.symm)]
        exact hne
    · intro hfor
      rw [hpc] at hfor
      exact Or.inr (Or.inl (hwriter (of_decide_eq_true hfor)))

/-! ### Taking a node out -/

variable (hpc : s.pc t = .notifyPop n found)
include hpc

omit [DecidableEq T] in
/-- The threads of a list are asleep while another thread is in its monitor. -/
theorem Waits.head_asleep {u : T}
    (hmem : u ∈ s.list n.side) : ∃ w, s.pc u = .asleep w ∧ w.side = n.side := by
  have hqueued := (h.listed n.side u).mp hmem
  cases hpcu : s.pc u with
  | asleep w =>
    rw [hpcu] at hqueued
    exact ⟨w, rfl, some.inj hqueued⟩
  | waitUnlock w =>
    rw [hpcu] at hqueued
    have hinside : (s.pc u).inside = some n.side := by rw [hpcu]; exact hqueued
    have hut := h.inside_unique (t := t) (by rw [hpc]; rfl) hinside
    rw [hut, hpc] at hpcu
    exact nomatch hpcu
  | _ =>
    rw [hpcu] at hqueued
    exact nomatch hqueued

/-- A notified thread leaves the list and takes over the promises. The notifier, who is still there, keeps that to the
    other readers. -/
theorem Waits.wake {rest : List T}
    (hlist : s.list n.side = current :: rest) (hcurrent : s.pc current = .asleep w)
    (hside : w.side = n.side) :
    Waits isFair ({ s with list := update s.list n.side rest }.goto current (.woken w)) := by
  generalize hs' : ({ s with list := update s.list n.side rest } : State T).goto current (.woken w) = s'
  have hmove : s'.pc = update s.pc current (.woken w) := hs' ▸ rfl
  have hlist' : s'.list = update s.list n.side rest := hs' ▸ rfl
  have hmonitor : s'.monitor = s.monitor := hs' ▸ rfl
  have hwaiting : s'.waitingWriters = s.waitingWriters := hs' ▸ rfl
  have hnodup := h.nodup n.side
  rw [hlist, List.nodup_cons] at hnodup
  have hne : t ≠ current := by
    rintro rfl
    rw [hpc] at hcurrent
    exact nomatch hcurrent
  refine h.move hcurrent hmove ?_ ?_ ?_ (by rw [hwaiting]; rfl) ?_ ?_ ?_
  · intro side u
    rw [hmonitor, pc_update_congr Pc.inside hcurrent hmove rfl u]
    exact h.monitor side u
  · rw [hlist', hmove]
    refine iff_update (P := fun l u => u ∈ l) (F := Pc.queued) h.listed ?_ (iff_of_false hnodup.1 nofun) ?_
    · intro u hu
      rw [hlist, List.mem_cons, or_iff_right hu]
    · intro i hi
      rw [h.listed, hcurrent]
      exact iff_of_false (fun heq => hi ((some.inj heq).symm.trans hside)) nofun
  · intro side
    rw [hlist']
    by_cases hs : side = n.side
    · subst hs
      rw [update_self]
      exact hnodup.2
    · rw [update_of_ne hs]
      exact h.nodup side
  · intro hunfair
    have hfair := (h.fair hunfair current).1
    rw [hcurrent] at hfair
    exact ⟨hfair, nofun⟩
  · exact fun _ => writersServed_of_for hmove rfl
  · intro _
    cases hs : n.side with
    | writer => exact readersServed_of_for hmove (decide_eq_true (hside.trans hs))
    | reader =>
      refine Or.inr (Or.inr ⟨t, ?_⟩)
      rw [hmove, update_of_ne hne, hpc]
      cases n with
      | downgrade caller | fairReaders caller | unfairReaders caller => rfl
      | _ => exact nomatch hs

/-- The notifier goes on after it has woken `current`. -/
theorem Waits.afterWake
    (hcurrent : s.pc current = .woken w) (hside : w.side = n.side) :
    Waits isFair (s.goto t (if n.all then .notifyPop n true else .notifyUnlock n true)) := by
  generalize hc : (if n.all then Pc.notifyPop n true else .notifyUnlock n true) = c
  have hcases : c = .notifyPop n true ∨ c = .notifyUnlock n true := by
    rw [← hc]
    cases n.all <;> simp
  have hmove : (s.goto t c).pc = update s.pc t c := rfl
  have hne : current ≠ t := by
    rintro rfl
    rw [hpc] at hcurrent
    exact nomatch hcurrent
  have hpc' : (s.goto t c).pc current = .woken w := (update_of_ne hne ..).trans hcurrent
  have hplain : c.inside = some n.side ∧ c.queued = none ∧ c.counted = 0 ∧ c.Unfair := by
    rcases hcases with rfl | rfl <;> exact ⟨rfl, rfl, rfl, nofun, nofun⟩
  refine h.step hpc hmove rfl rfl hplain.1 hplain.2.1 (congrArg (s.waitingWriters + ·) hplain.2.2.1.symm)
    (fun _ => hplain.2.2.2) ?_ ?_
  · exact fun _ => Or.inr ⟨current, by rw [hpc']; rfl⟩
  · intro _
    cases hs : n.side with
    | writer => exact Or.inr (Or.inr ⟨current, by rw [hpc']; exact decide_eq_true (hside.trans hs)⟩)
    | reader =>
      -- it goes on with the next reader
      apply readersServed_of_for hmove
      rw [← hc]
      cases n with
      | downgrade caller | fairReaders caller | unfairReaders caller => rfl
      | _ => exact nomatch hs

theorem stepNotifyPop_waits
    (hstep : stepNotifyPop s t n found = some s') : Waits isFair s' := by
  unfold stepNotifyPop at hstep
  cases hlist : s.list n.side with
  | nil =>
    rw [hlist] at hstep
    cases hstep
    have hmove : (s.goto t (.notifyUnlock n found)).pc = update s.pc t (.notifyUnlock n found) := rfl
    have hempty := h.not_waited hpc hlist
    -- the promise to the other list is kept, if it was the notifier's
    refine h.step hpc hmove rfl rfl rfl rfl rfl (fun _ => ⟨nofun, nofun⟩) ?_ ?_
    · intro hwaited
      have hbefore := hwaited.before hmove rfl nofun
      refine (h.writers hbefore).after hmove Or.inl fun hfor => writersServed_of_for hmove ?_
      rw [hpc] at hfor
      cases n with
      | fairReaders caller => exact hfor
      | downgrade caller | unfairReaders caller => exact nomatch hfor
      | _ => exact absurd hbefore hempty
    · intro hwaited
      have hbefore := hwaited.before hmove rfl nofun
      refine (h.readers hbefore).after hmove Or.inl (fun hne => Or.inr (Or.inl hne)) fun hfor =>
        readersServed_of_for hmove ?_
      rw [hpc] at hfor
      cases n with
      | unfairWriter caller => exact hfor
      | lastReader | fairWriter caller => exact nomatch hfor
      | _ => exact absurd hbefore hempty
  | cons current rest =>
    obtain ⟨w, hcurrent, hside⟩ := h.head_asleep hpc (by rw [hlist]; exact List.mem_cons_self)
    rw [hlist] at hstep
    simp only [hcurrent, some.injEq] at hstep
    subst hstep
    have hne : t ≠ current := by
      rintro rfl
      rw [hpc] at hcurrent
      exact nomatch hcurrent
    exact (h.wake hpc hlist hcurrent hside).afterWake ((update_of_ne hne ..).trans hpc) (update_self ..)
      hside

end Lists

/-! ## All steps -/

section Steps

variable [Fintype T] [DecidableEq T] {ids : ThreadIds T} {isFair : Bool} {s s' : State T} {t : T} {c₀ c : Pc}
  {writeCount : Nat} {w : Wait}
  {n : Notice}

variable (h : Waits isFair s)
include h

theorem stepReadOwner_waits (hpc : s.pc t = .readOwner) : Waits isFair (stepReadOwner ids s t) := by
  unfold stepReadOwner
  split_ifs
  · exact h.bare hpc rfl rfl rfl rfl rfl rfl rfl
  · exact h.bare hpc rfl rfl rfl rfl rfl rfl rfl
  · exact h.goto hpc rfl rfl ⟨rfl, rfl, fun _ => ⟨nofun, nofun⟩, nofun, nofun⟩

theorem stepReadLoad_waits (hpc : s.pc t = .readLoad) : Waits isFair (stepReadLoad isFair s t) := by
  unfold stepReadLoad
  split
  · exact h.goto hpc rfl rfl ⟨rfl, rfl, fun _ => ⟨nofun, nofun⟩, id, nofun⟩
  · cases isFair with
    | true => exact h.goto hpc rfl rfl ⟨rfl, rfl, nofun, id, nofun⟩
    | false => exact h.goto hpc rfl rfl ⟨rfl, rfl, fun _ => ⟨nofun, nofun⟩, id, nofun⟩

theorem stepReadFair_waits {currState : Nat} (hpc : s.pc t = .readFair currState) :
    Waits isFair (stepReadFair s t currState) := by
  unfold stepReadFair
  split
  · refine h.goto hpc rfl rfl ⟨rfl, rfl, ?_, id, nofun⟩
    intro hunfair
    exact absurd hpc ((h.fair hunfair t).2 currState)
  · exact h.goto hpc rfl rfl ⟨rfl, rfl, fun _ => ⟨nofun, nofun⟩, id, nofun⟩

theorem stepWriteOwner_waits (hpc : s.pc t = .writeOwner writeCount) :
    Waits isFair (stepWriteOwner ids s t writeCount) := by
  unfold stepWriteOwner
  split_ifs
  · exact h.bare hpc rfl rfl rfl rfl rfl rfl rfl
  · exact h.bare hpc rfl rfl rfl rfl rfl rfl rfl
  · exact h.goto hpc rfl rfl ⟨rfl, rfl, fun _ => ⟨nofun, nofun⟩, nofun, nofun⟩

/-- The thread goes on to take the lock or to wait: it does not throw, for the word is 0 if its halves are. -/
theorem stepWriteLoad_waits (hpc : s.pc t = .writeLoad writeCount) :
    Waits isFair (stepWriteLoad s t writeCount) := by
  unfold stepWriteLoad
  split_ifs with hwrite hshare hstate
  · exact h.goto hpc rfl rfl ⟨rfl, rfl, fun _ => ⟨nofun, nofun⟩, id, id⟩
  · exact h.goto hpc rfl rfl ⟨rfl, rfl, fun _ => ⟨nofun, nofun⟩, id, id⟩
  · exact absurd (decode_zero_iff.mpr ⟨Nat.eq_zero_of_not_pos hshare, Nat.eq_zero_of_not_pos hwrite⟩) hstate
  · exact h.goto hpc rfl rfl ⟨rfl, rfl, fun _ => ⟨nofun, nofun⟩, id, id⟩

/-! ### `waitIf` -/

omit h

omit [DecidableEq T] in
/-- In unfair mode no thread waits for waiting writers. -/
theorem Waits.unfair_wait (h : Waits isFair s) (hpc : s.pc t = c₀) (hwaiting : c₀.waiting = some w)
    (hunfair : isFair = false) :
    some w ≠ some .readerFair :=
  hwaiting ▸ hpc ▸ (h.fair hunfair t).1

/-- What comes after `waitIf` keeps the promises of the wait. -/
theorem Wait.after_keeps (w : Wait) :
    w.after.inside = none ∧ w.after.counted = (Pc.woken w).counted ∧ Pc.Keeps isFair (.woken w) w.after := by
  cases w <;> exact ⟨rfl, rfl, rfl, rfl, fun _ => ⟨nofun, nofun⟩, fun _ => rfl, id⟩

theorem waitTest_waits (h : Waits isFair s) (hpc : s.pc t = .waitTest w) :
    Waits isFair (s.goto t (if w.pred s then .waitLock w else w.after)) := by
  split
  · refine h.goto hpc rfl rfl ⟨rfl, rfl, ?_, id, id⟩
    exact fun hunfair => ⟨h.unfair_wait hpc rfl hunfair, nofun⟩
  · obtain ⟨hinside, hcount, hkeeps⟩ := w.after_keeps
    exact h.goto hpc hinside hcount { hkeeps with }

theorem woken_waits (h : Waits isFair s) (hpc : s.pc t = .woken w) : Waits isFair (s.goto t w.after) := by
  obtain ⟨hinside, hcount, hkeeps⟩ := w.after_keeps
  exact h.goto hpc hinside hcount hkeeps

theorem waitLeave_waits (h : Waits isFair s) (hpc : s.pc t = .waitLeave w) :
    Waits isFair (s.leave t w.side w.after) := by
  obtain ⟨hinside, hcount, hkeeps⟩ := w.after_keeps
  exact h.leave hpc rfl hinside hcount { hkeeps with }

/-- What comes after a notification: a second one, if it keeps a promise. -/
theorem Notice.after_keeps (n : Notice) (found : Bool) :
    (n.after found).inside = none ∧
    (n.after found).counted = 0 ∧ Pc.Keeps isFair (.notifyUnlock n found) (n.after found) := by
  have hcaller (caller : Caller) : caller.after.bare = true := by cases caller <;> rfl
  cases n with
  | lastReader => exact Pc.keeps_of_bare rfl rfl rfl rfl
  | downgrade caller | fairWriter caller | unfairReaders caller => exact Pc.keeps_of_bare (hcaller caller) rfl rfl rfl
  | fairReaders caller =>
    cases found with
    | false => exact ⟨rfl, rfl, rfl, rfl, fun _ => ⟨nofun, nofun⟩, id, nofun⟩
    | true => exact Pc.keeps_of_bare (hcaller caller) rfl rfl rfl
  | unfairWriter caller =>
    cases found with
    | false => exact ⟨rfl, rfl, rfl, rfl, fun _ => ⟨nofun, nofun⟩, nofun, id⟩
    | true => exact Pc.keeps_of_bare (hcaller caller) rfl rfl rfl

include h

theorem notifyUnlock_waits {found : Bool} (hpc : s.pc t = .notifyUnlock n found) :
    Waits isFair (s.leave t n.side (n.after found)) := by
  obtain ⟨hinside, hcount, hkeeps⟩ := n.after_keeps found
  exact h.leave hpc rfl hinside hcount hkeeps

theorem notifyLock_waits (hpc : s.pc t = .notifyLock n)
    (hstep : s.enter t n.side (.notifyPop n false) = some s') : Waits isFair s' := by
  refine h.enter hpc hstep rfl rfl rfl ⟨rfl, rfl, fun _ => ⟨nofun, nofun⟩, ?_, ?_⟩
  · cases n <;> exact id
  · cases n <;> exact id

/-! ### `waitingWriters` -/

theorem writeWaiting_waits (hpc : s.pc t = .writeWaiting writeCount) :
    Waits isFair ({ s with waitingWriters := s.waitingWriters + 1 }.goto t (.waitTest (.writerShare writeCount))) :=
  h.plain hpc rfl rfl rfl rfl rfl rfl ⟨rfl, rfl, fun _ => ⟨nofun, nofun⟩, id, id⟩

theorem writeWaited_waits (hpc : s.pc t = .writeWaited writeCount) :
    Waits isFair ({ s with waitingWriters := s.waitingWriters - 1 }.goto t (.writeLoad writeCount)) := by
  have hone : 1 ≤ s.waitingWriters := by
    rw [h.counted]
    have hle : (s.pc t).counted ≤ tally Pc.counted s.pc := le_tally t
    rw [hpc] at hle
    exact hle
  refine h.plain hpc rfl rfl rfl rfl rfl ?_ ⟨rfl, rfl, fun _ => ⟨nofun, nofun⟩, id, id⟩
  exact Nat.sub_add_cancel hone

theorem next_waits (hi : Inv ids s) (hawake : Awake isFair s (t, .next)) (hpc : s.pc t = c)
    (hstep : next ids isFair s t c = some s') : Waits isFair s' := by
  have hknows := hi.knows_at hpc
  obtain ⟨hfits, hsleep⟩ := hawake
  unfold Fits at hfits
  rw [hpc] at hfits hsleep
  cases c with
  | idle ret | asleep w => cases hstep
  | readOwner => cases hstep; exact stepReadOwner_waits h hpc
  | readLoad => cases hstep; exact stepReadLoad_waits h hpc
  | readFair currState => cases hstep; exact stepReadFair_waits h hpc
  | readCas currState => cases hstep; exact stepShareCas_waits h hpc (Or.inl ⟨rfl, rfl⟩) hknows hfits.1
  | incShareCount ret =>
    simp only [next, some.injEq] at hstep
    subst hstep
    exact h.takeShare hpc hfits.1 rfl rfl rfl rfl
  | readOwned | readAgain | tryReadLoad | readUnlockOwned | readUnlockLoad | writeOwned writeCount | tryWriteOwned
    | tryWriteLoad
  | writeUnlockLoad writeCount caller =>
    -- the thread reads the state word, and is without a promise before and after
    cases hstep
    simp only [stepReadOwned, stepReadAgain, stepTryReadLoad, stepReadUnlockOwned, stepReadUnlockLoad, stepWriteOwned,
      stepTryWriteLoad, stepWriteUnlockLoad]
    split_ifs <;> exact h.bare hpc rfl rfl rfl rfl rfl rfl rfl
  | incThread ret | decThread | readUnlockDec | storeOwner ret | clearOwner writeCount shared caller | conditionCount
  | conditionSleep writeCount =>
    cases hstep; exact h.bare hpc rfl rfl rfl rfl rfl rfl rfl
  | tryReadOwner | readUnlockOwner | tryWriteOwner | writeUnlockOwner | conditionOwner =>
    cases hstep; split <;> exact h.bare hpc rfl rfl rfl rfl rfl rfl rfl
  | tryReadCas currState => cases hstep; exact stepShareCas_waits h hpc (Or.inr ⟨rfl, rfl⟩) hknows hfits.1
  | decShareCount =>
    simp only [next, some.injEq] at hstep
    subst hstep
    exact decShareCount_waits h hi hpc
  | readUnlockCas currState => cases hstep; exact stepReadUnlockCas_waits h hi hpc
  | writeOwner writeCount => cases hstep; exact stepWriteOwner_waits h hpc
  | incWriteCount writeCount ret => cases hstep; exact incWriteCount_waits h hi hpc hfits.2
  | writeLoad writeCount => cases hstep; exact stepWriteLoad_waits h hpc
  | writeWaiting writeCount => cases hstep; exact writeWaiting_waits h hpc
  | writeWaited writeCount => cases hstep; exact writeWaited_waits h hpc
  | writeCas writeCount => cases hstep; exact stepWriteCas_waits h hpc (Or.inl ⟨rfl, rfl⟩) hknows
  | tryWriteCas => cases hstep; exact stepWriteCas_waits h hpc (Or.inr ⟨rfl, rfl⟩) ⟨Nat.le_refl 1, by decide⟩
  | writeUnlockDec writeCount shared caller => cases hstep; exact writeUnlockDec_waits h hi hpc
  | decWriteCount writeCount caller => cases hstep; exact decWriteCount_waits h hi hpc
  | waitTest w => cases hstep; exact waitTest_waits h hpc
  | waitLock w =>
    exact h.enter hpc hstep rfl rfl rfl ⟨rfl, rfl, fun hunfair => ⟨h.unfair_wait hpc rfl hunfair, by rintro _ ⟨⟩⟩, id,
      id⟩
  | waitRetest w =>
    cases hstep
    split_ifs with hpred
    · exact waitRetest_waits h hpc hpred fun hfair hw => hsleep hfair (congrArg Pc.waitRetest hw)
    · exact h.goto hpc rfl rfl ⟨rfl, rfl, fun hunfair => ⟨h.unfair_wait hpc rfl hunfair, by rintro _ ⟨⟩⟩, id, id⟩
  | waitAdd w => cases hstep; exact waitAdd_waits h hpc
  | waitUnlock w =>
    cases hstep
    exact h.leave hpc rfl rfl rfl ⟨rfl, rfl,
      fun hunfair => ⟨h.unfair_wait hpc rfl hunfair, by rintro _ ⟨⟩⟩, by rintro ⟨⟩, by rintro ⟨⟩⟩
  | waitLeave w => cases hstep; exact waitLeave_waits h hpc
  | woken w => cases hstep; exact woken_waits h hpc
  | notifyLock n => exact notifyLock_waits h hpc hstep
  | notifyPop n found => exact stepNotifyPop_waits h hpc hstep
  | notifyUnlock n found => cases hstep; exact notifyUnlock_waits h hpc

theorem act_waits {ta : T × Act} (hi : Inv ids s) (hawake : Awake isFair s ta)
    (hstep : act ids isFair s ta = some s') : Waits isFair s' := by
  obtain ⟨t, a⟩ := ta
  unfold act at hstep
  split at hstep
  · rename_i c last hentry hpc
    cases hstep
    have hpc : s.pc t = .idle last := hpc
    cases a with
    | next => cases hentry
    | readUnlock => cases hentry; split <;> exact h.bare hpc rfl rfl rfl rfl rfl rfl rfl
    | _ => cases hentry; exact h.bare hpc rfl rfl rfl rfl rfl rfl rfl
  · exact next_waits h hi hawake rfl hstep
  · cases hstep

end Steps

/-! ## Whole runs -/

instance [DecidableEq T] (isFair : Bool) (s : State T) (ta : T × Act) : Decidable (Awake isFair s ta) :=
  inferInstanceAs (Decidable (_ ∧ (_ → _ → _)))

section Runs

variable [Fintype T] [DecidableEq T] {ids : ThreadIds T} {isFair : Bool} {s : State T}

theorem run_waits (hrun : Run (act ids isFair) (Awake isFair) newLock s) : Inv ids s ∧ Waits isFair s :=
  run_invariant (I := fun s => Inv ids s ∧ Waits isFair s) hrun ⟨inv_newLock, waits_newLock⟩ fun _ _ _ hinv
    hawake hstep =>
    ⟨act_inv hinv.1 hawake.1 hstep, act_waits hinv.2 hinv.1 hawake hstep⟩

/-- **A free lock does not strand its waiters**, whatever the interleaving: in unfair mode always, and in fair mode as
    long as every reader that decides to wait because of waiting writers does so while the lock is held. -/
theorem free_lock_not_stranded (hrun : Run (act ids isFair) (Awake isFair) newLock s) : ¬Stranded s :=
  (run_waits hrun).2.not_stranded

end Runs

/-- Two readers and two writers. -/
inductive Party where
  | reader₁
  | reader₂
  | writer₁
  | writer₂
deriving DecidableEq

instance : Fintype Party where
  elems := {.reader₁, .reader₂, .writer₁, .writer₂}
  complete t := by cases t <;> decide

def partyIds : ThreadIds Party where
  id
    | .reader₁ => 1
    | .reader₂ => 2
    | .writer₁ => 3
    | .writer₂ => 4
  pos t := by cases t <;> decide
  inj := by
    intro t u h
    cases t <;> cases u <;> first | rfl | exact absurd h (by decide)

/-- `t` calls `a` and makes `n` steps. -/
def calls (t : Party) (a : Act) (n : Nat) : List (Party × Act) := (t, a) :: List.replicate n (t, .next)

/-- The first reader reads; both writers and the second reader go to sleep; the first reader unlocks, and wakes the
    second writer. -/
def lastReaderRun : List (Party × Act) :=
  calls .reader₁ .readLock 5 ++ calls .writer₁ .writeLock 8 ++ calls .writer₂ .writeLock 8 ++
    calls .reader₂ .readLock 8 ++
    calls .reader₁ .readUnlock 7

/-- The state word is 0 and two threads sleep, but a third one has been notified. -/
theorem free_lock_not_stranded_notified :
    ∃ s : State Party, Run (act partyIds true) (Awake true) newLock s ∧
      (s.state = 0 ∧ s.pc .writer₁ = .asleep (.writerShare 1) ∧ s.pc .writer₂ = .woken (.writerShare 1)) ∧
        ¬Stranded s := by
  have hexec : (runActs (act partyIds true) (Awake true) newLock lastReaderRun).map
      (fun s => (s.state, s.pc .writer₁, s.pc .writer₂)) =
      some (0, .asleep (.writerShare 1), .woken (.writerShare 1)) := by
    decide +kernel
  obtain ⟨s, hs, hvalues⟩ := Option.map_eq_some_iff.mp hexec
  obtain ⟨hstate, hvalues⟩ := Prod.mk.inj hvalues
  obtain ⟨hwriter₁, hwriter₂⟩ := Prod.mk.inj hvalues
  have hrun := run_of_runActs hs
  exact ⟨s, hrun, ⟨hstate, hwriter₁, hwriter₂⟩, free_lock_not_stranded hrun⟩

/-- The second writer takes the lock and gives it back. In fair mode it wakes the readers and no writer; the second
    reader finds the first writer waiting and goes back to sleep. -/
def strandedRun : List (Party × Act) :=
  lastReaderRun ++ List.replicate 5 (.writer₂, .next) ++ calls .writer₂ .writeUnlock 8 ++
    List.replicate 8 (.reader₂, .next)

/-- In fair mode the lock can be free while a writer and a reader sleep forever. -/
theorem fair_lock_stranded : ∃ s : State Party, Run (act partyIds true) Fits newLock s ∧ Stranded s := by
  have hexec : (runActs (act partyIds true) Fits newLock strandedRun).map
      (fun s => (s.state, s.pc .reader₁, s.pc .reader₂, s.pc .writer₁, s.pc .writer₂)) =
      some (0, .idle .unit, .asleep .readerFair, .asleep (.writerShare 1), .idle .unit) := by
    decide +kernel
  obtain ⟨s, hs, hvalues⟩ := Option.map_eq_some_iff.mp hexec
  obtain ⟨hstate, hvalues⟩ := Prod.mk.inj hvalues
  obtain ⟨hreader₁, hvalues⟩ := Prod.mk.inj hvalues
  obtain ⟨hreader₂, hvalues⟩ := Prod.mk.inj hvalues
  obtain ⟨hwriter₁, hwriter₂⟩ := Prod.mk.inj hvalues
  refine ⟨s, run_of_runActs hs, hstate, ⟨.writer₁, by rw [hwriter₁]; rfl⟩, fun t => ?_⟩
  cases t with
  | reader₁ => exact Or.inr (by rw [hreader₁]; rfl)
  | reader₂ => exact Or.inl (by rw [hreader₂]; rfl)
  | writer₁ => exact Or.inl (by rw [hwriter₁]; rfl)
  | writer₂ => exact Or.inr (by rw [hwriter₂]; rfl)

end CangjieRuntime.ReadWriteLock
