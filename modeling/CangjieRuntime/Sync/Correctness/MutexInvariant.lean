import CangjieRuntime.Lib.Bits
import CangjieRuntime.Sync.Mutex

/-!
# `Sync.Correctness.MutexInvariant` — mutual exclusion of `CJMutex`

The bits of the word are *tokens*, and the proof is bookkeeping about who has them.

* `LOCKED` is held by one thread, from the access that set it to the `fetch_sub` that clears it.
* `SPINNING` is one token too. It is with a thread in the loop that has `hasSetSpinFlag`, or it is on its way to one:
  with an `unlock` that has yet to release the semaphore, in a permit, or with a thread just woken.
* `STARVING` without `LOCKED` is the *hand-off*: the one wake-up on its way is then for the mutex itself.

A wake-up on its way is hence either the spinning token or the hand-off, never both, and which of the two is read
off the word. Each token and the number of waiters is a tally over the threads; `Balanced` is the balance sheet, and
every access keeps it. That the "inconsistent" branch is dead is one line of the balance: while the hand-off is on its
way, `LOCKED` and `SPINNING` are clear and the woken thread itself is still counted as a waiter.
-/

namespace CangjieRuntime.Mutex

open Interleave Bits Function

/-! ## The packed word, arithmetically -/

variable (x : Nat)

theorem isSpinning_eq : isSpinning x = decide (x % 2 = 1) := by
  rw [isSpinning, decide_eq_decide]
  simp [SPINNING]

theorem isStarving_eq : isStarving x = decide (x / 2 % 2 = 1) := by
  rw [isStarving, decide_eq_decide]
  exact and_two_pow_ne_zero x 1

theorem isLocked_eq : isLocked x = decide (x / 4 % 2 = 1) := by
  rw [isLocked, decide_eq_decide]
  exact and_two_pow_ne_zero x 2

theorem getWaiters_eq : getWaiters x = x / 8 := Nat.shiftRight_eq_div_pow x 3

theorem or_SPINNING_eq : x ||| SPINNING = x + (1 - x % 2) := or_one_eq x

theorem setStarving_eq : setStarving x = x + 2 * (1 - x / 2 % 2) := or_two_pow_eq x 1

theorem setLocked_eq : setLocked x = x + 4 * (1 - x / 4 % 2) := or_two_pow_eq x 2

theorem unsetSpinning_eq : unsetSpinning x = x - x % 2 := by
  unfold unsetSpinning SPINNING
  rw [Nat.and_one_is_mod]

/-- On a free word the slow path takes the lock. -/
theorem newState_acquire (l : Locals) {x : Nat} (hl : x / 4 % 2 = 0) (hs : x / 2 % 2 = 0) :
    newState l x = x + 4 - (if l.hasSetSpinFlag then x % 2 else 0) := by
  simp only [newState, isStarving_eq, isLocked_eq, setLocked_eq, unsetSpinning_eq, hl, hs]
  cases l.hasSetSpinFlag <;> simp
  omega

/-- On a taken word it becomes a waiter, and a starved thread asks for the hand-off. -/
theorem newState_wait (l : Locals) {x : Nat} (h : x / 2 % 2 = 1 ∨ x / 4 % 2 = 1) :
    newState l x = x + 8 + (if l.isStarved ∧ x / 4 % 2 = 1 then 2 * (1 - x / 2 % 2) else 0) -
      (if l.hasSetSpinFlag then x % 2 else 0) := by
  have hs : x / 2 % 2 = 0 ∨ x / 2 % 2 = 1 := by omega
  have hl : x / 4 % 2 = 0 ∨ x / 4 % 2 = 1 := by omega
  simp only [newState, isStarving_eq, isLocked_eq, setLocked_eq, setStarving_eq, unsetSpinning_eq, incWaiters,
    WAITER_UNIT, WAITER_UNIT_SHIFT]
  -- eight words, with and without each of the two local flags
  rcases hs with hs | hs <;> rcases hl with hl | hl <;> cases l.hasSetSpinFlag <;> cases l.isStarved <;>
    simp [hs, hl] at h ⊢ <;> omega

/-! ## Tokens -/

/-- Holds `LOCKED`: between the access that set it and the one that clears it. -/
def holds (th : Thread) : Nat :=
  match th.pc with
  | .acquired _ _ => 1
  | .counted _ => 1
  | .releasing => 1
  | .subLocked => 1
  | _ => if 0 < th.depth then 1 else 0

/-- In the loop with `hasSetSpinFlag`. -/
def flagged (th : Thread) : Nat :=
  match th.pc with
  | .loop l => l.hasSetSpinFlag.toNat
  | .spinCas l _ => l.hasSetSpinFlag.toNat
  | .lockCas l _ => l.hasSetSpinFlag.toNat
  | _ => 0

/-- Carries a wake-up: about to release the semaphore, or just woken by it. -/
def waking (th : Thread) : Nat :=
  match th.pc with
  | .semRelease => 1
  | .woken _ => 1
  | _ => 0

/-- Has been handed the mutex and not yet set `LOCKED`. -/
def handed (th : Thread) : Nat :=
  match th.pc with
  | .handOff _ _ => 1
  | _ => 0

/-- Has put itself on the waiter count and not returned to the loop. -/
def waits (th : Thread) : Nat :=
  match th.pc with
  | .wait _ => 1
  | .woken _ => 1
  | .handOff _ _ => 1
  | _ => 0

/-- **The balance sheet** of a word and the tallies. While the mutex is being handed over there is one wake-up and
    nobody spins; otherwise every wake-up is the spinning token and has already been taken off the waiter count. -/
def Balanced (state permits hold flag wake hand wait : Nat) : Prop :=
  hold = state / 4 % 2 ∧
  ((state / 2 % 2 = 1 ∧ state / 4 % 2 = 0 ∧ state % 2 = 0 ∧
      flag = 0 ∧ permits + wake + hand = 1 ∧ state / 8 = wait) ∨
   (¬ (state / 2 % 2 = 1 ∧ state / 4 % 2 = 0) ∧ (state / 2 % 2 = 1 → state % 2 = 0) ∧
      hand = 0 ∧ permits + wake + flag = state % 2 ∧ state / 8 + permits + wake = wait))

/-! ### Entries of the balance sheet

What each kind of access does to the word and to the tallies. -/

section Entries

variable {state permits hold flag wake hand wait : Nat}

/-- The balance while the mutex is not being handed over. -/
theorem Balanced.normal (h : Balanced state permits hold flag wake hand wait)
    (hn : ¬ (state / 2 % 2 = 1 ∧ state / 4 % 2 = 0)) :
    hold = state / 4 % 2 ∧ (state / 2 % 2 = 1 → state % 2 = 0) ∧ hand = 0 ∧ permits + wake + flag = state % 2 ∧
      state / 8 + permits + wake = wait := by
  obtain ⟨hhold, ⟨hs, hl, -⟩ | ⟨-, hrest⟩⟩ := h
  · exact absurd ⟨hs, hl⟩ hn
  · exact ⟨hhold, hrest⟩

/-- A loop thread creates the spinning token. -/
theorem Balanced.spin (h : Balanced state permits hold flag wake hand wait) (hspin : state % 2 = 0)
    (hstarve : state / 2 % 2 = 0) (hlock : state / 4 % 2 = 1) :
    Balanced (state + (1 - state % 2)) permits hold (flag + 1) wake hand wait := by
  obtain ⟨hhold, -, hhand, hspins, hwaits⟩ := h.normal (by omega)
  rw [hspin]
  exact ⟨by omega, Or.inr ⟨by omega, by omega, hhand, by omega, by omega⟩⟩

/-- A free word is locked. -/
theorem Balanced.lock (h : Balanced state permits hold flag wake hand wait) (hstarve : state / 2 % 2 = 0)
    (hlock : state / 4 % 2 = 0) : Balanced (state + 4) permits (hold + 1) flag wake hand wait := by
  obtain ⟨hhold, -, hhand, hspins, hwaits⟩ := h.normal (by omega)
  exact ⟨by omega, Or.inr ⟨by omega, by omega, hhand, by omega, by omega⟩⟩

variable (h : Balanced state permits hold (flag + 1) wake hand wait)
include h

/-- … by the spinning thread, whose token ends. -/
theorem Balanced.lockSpun (hstarve : state / 2 % 2 = 0)
    (hlock : state / 4 % 2 = 0) : Balanced (state + 4 - state % 2) permits (hold + 1) flag wake hand wait := by
  obtain ⟨hhold, -, hhand, hspins, hwaits⟩ := h.normal (by omega)
  have hbit : state % 2 = 1 := by omega
  rw [hbit]
  exact ⟨by omega, Or.inr ⟨by omega, by omega, hhand, by omega, by omega⟩⟩

omit h in
/-- A thread puts itself on the waiter count. -/
theorem Balanced.enqueue (h : Balanced state permits hold flag wake hand wait) :
    Balanced (state + 8) permits hold flag wake hand (wait + 1) := by
  obtain ⟨hhold, ⟨hs, hl, hp, hflag, hone, hwaits⟩ | ⟨hn, hstarve, hhand, hspins, hwaits⟩⟩ := h
  · exact ⟨by omega, Or.inl ⟨by omega, by omega, by omega, hflag, hone, by omega⟩⟩
  · exact ⟨by omega, Or.inr ⟨by omega, by omega, hhand, by omega, by omega⟩⟩

/-- Whoever has the spinning token knows that nothing is being handed over. -/
theorem Balanced.normal_of_flag :
    ¬ (state / 2 % 2 = 1 ∧ state / 4 % 2 = 0) := by
  obtain ⟨-, ⟨-, -, -, hflag, -⟩ | ⟨hn, -⟩⟩ := h
  · exact absurd hflag (Nat.succ_ne_zero flag)
  · exact hn

/-- … the spinning thread, whose token ends. -/
theorem Balanced.enqueueSpun :
    Balanced (state + 8 - state % 2) permits hold flag wake hand (wait + 1) := by
  have hn := h.normal_of_flag
  obtain ⟨hhold, hstarve, hhand, hspins, hwaits⟩ := h.normal hn
  have hbit : state % 2 = 1 := by omega
  rw [hbit]
  exact ⟨by omega, Or.inr ⟨by omega, by omega, hhand, by omega, by omega⟩⟩

/-- … and being starved it marks the locked mutex `STARVING`: nobody else spins or is on its way. -/
theorem Balanced.starve (hlock : state / 4 % 2 = 1) :
    Balanced (state + 8 + 2 * (1 - state / 2 % 2) - state % 2) permits hold flag wake hand (wait + 1) := by
  obtain ⟨hhold, hstarve, hhand, hspins, hwaits⟩ := h.normal h.normal_of_flag
  have hbit : state % 2 = 1 := by omega
  have hzero : state / 2 % 2 = 0 := by omega
  rw [hbit, hzero]
  exact ⟨by omega, Or.inr ⟨by omega, by omega, hhand, by omega, by omega⟩⟩

omit h

/-- The spinning token reaches the loop. -/
theorem Balanced.resume (h : Balanced state permits hold flag (wake + 1) hand (wait + 1))
    (hstarve : state / 2 % 2 = 0) : Balanced state permits hold (flag + 1) wake hand wait := by
  obtain ⟨hhold, -, hhand, hspins, hwaits⟩ := h.normal (by omega)
  exact ⟨hhold, Or.inr ⟨by omega, by omega, hhand, by omega, by omega⟩⟩

/-- **The validity check of a thread woken in starvation mode succeeds**, and the wake-up was the hand-off. -/
theorem Balanced.accept (h : Balanced state permits hold flag (wake + 1) hand (wait + 1))
    (hstarve : state / 2 % 2 = 1) : (state / 4 % 2 = 0 ∧ state % 2 = 0 ∧ 0 < state / 8) ∧
      Balanced state permits hold flag wake (hand + 1) (wait + 1) := by
  obtain ⟨hhold, ⟨hs, hl, hp, hflag, hone, hwaits⟩ | ⟨hn, hspin, hhand, hspins, hwaits⟩⟩ := h
  · exact ⟨⟨hl, hp, by omega⟩, hhold, Or.inl ⟨hs, hl, hp, hflag, by omega, hwaits⟩⟩
  · -- in starvation mode nobody spins, but the wake-up would be a spinning token
    exact absurd (hspin hstarve) (by omega)

/-- The hand-off is on its way while a thread has been handed the mutex. -/
theorem Balanced.handOver (h : Balanced state permits hold flag wake (hand + 1) wait) :
    (state / 2 % 2 = 1 ∧ state / 4 % 2 = 0 ∧ state % 2 = 0) ∧ hold = 0 ∧ flag = 0 ∧ permits + wake + hand = 0 ∧
      state / 8 = wait := by
  obtain ⟨hhold, ⟨hs, hl, hp, hflag, hone, hwaits⟩ | ⟨-, -, hhand, -⟩⟩ := h
  · exact ⟨⟨hs, hl, hp⟩, hhold.trans hl, hflag, by omega, hwaits⟩
  · exact absurd hhand (Nat.succ_ne_zero hand)

/-- The hand-off becomes `LOCKED`; starvation goes on or ends. -/
theorem Balanced.fix (h : Balanced state permits hold flag wake (hand + 1) (wait + 1)) (ends : Prop) [Decidable ends] :
    Balanced (if ends then state + 4 - 8 - 2 else state + 4 - 8) permits (hold + 1) flag wake hand wait := by
  obtain ⟨⟨hs, hl, hp⟩, hhold, hflag, hnone, hwaits⟩ := h.handOver
  split <;> exact ⟨by omega, Or.inr ⟨by omega, by omega, by omega, by omega, by omega⟩⟩

/-- `LOCKED` is cleared in normal mode. -/
theorem Balanced.unlock (h : Balanced state permits (hold + 1) flag wake hand wait) (hstarve : state / 2 % 2 = 0) :
    Balanced (state - 4) permits hold flag wake hand wait := by
  obtain ⟨hhold, -, hhand, hspins, hwaits⟩ := h.normal (by omega)
  exact ⟨by omega, Or.inr ⟨by omega, by omega, hhand, by omega, by omega⟩⟩

/-- `LOCKED` is cleared in starvation mode: it becomes the hand-off. -/
theorem Balanced.unlockStarving (h : Balanced state permits (hold + 1) flag wake hand wait)
    (hstarve : state / 2 % 2 = 1) : Balanced (state - 4) permits hold flag (wake + 1) hand wait := by
  have hlock : hold + 1 = state / 4 % 2 := h.1
  obtain ⟨-, hspin, hhand, hspins, hwaits⟩ := h.normal (by omega)
  have hnone := hspin hstarve
  exact ⟨by omega, Or.inl ⟨by omega, by omega, by omega, by omega, by omega, by omega⟩⟩

/-- A waiter is exchanged for the spinning token. -/
theorem Balanced.wakeOne (h : Balanced state permits hold flag wake hand wait) (hspin : state % 2 = 0)
    (hstarve : state / 2 % 2 = 0) (hwaiters : 0 < state / 8) :
    Balanced (state - 8 + (1 - (state - 8) % 2)) permits hold flag (wake + 1) hand wait := by
  obtain ⟨hhold, -, hhand, hspins, hwaits⟩ := h.normal (by omega)
  rw [show (state - 8) % 2 = 0 by omega]
  exact ⟨by omega, Or.inr ⟨by omega, by omega, hhand, by omega, by omega⟩⟩

/-- A wake-up enters the semaphore or leaves it. -/
theorem Balanced.pass {permits' wake' : Nat} (h : Balanced state permits hold flag wake hand wait)
    (hsum : permits' + wake' = permits + wake) : Balanced state permits' hold flag wake' hand wait := by
  obtain ⟨hhold, ⟨hs, hl, hp, hflag, hone, hwaits⟩ | ⟨hn, hstarve, hhand, hspins, hwaits⟩⟩ := h
  · exact ⟨hhold, Or.inl ⟨hs, hl, hp, hflag, by omega, hwaits⟩⟩
  · exact ⟨hhold, Or.inr ⟨hn, hstarve, hhand, by omega, by omega⟩⟩

end Entries

/-- What a thread knows at its control point. -/
def Wf (th : Thread) : Prop :=
  match th.pc with
  | .idle => True
  | .slowEntry count => 0 < count
  | .recur count => 0 < count ∧ 0 < th.depth
  | .loop l => th.depth = 0 ∧ 0 < l.count ∧ (l.isStarved → l.hasSetSpinFlag)
  | .spinCas l currState => th.depth = 0 ∧ 0 < l.count ∧ (l.isStarved → l.hasSetSpinFlag) ∧
      l.hasSetSpinFlag = false ∧ currState % 2 = 0 ∧ currState / 2 % 2 = 0 ∧ currState / 4 % 2 = 1
  | .lockCas l _ => th.depth = 0 ∧ 0 < l.count ∧ (l.isStarved → l.hasSetSpinFlag)
  | .wait l => th.depth = 0 ∧ 0 < l.count
  | .woken l => th.depth = 0 ∧ 0 < l.count
  | .handOff l _ => th.depth = 0 ∧ 0 < l.count
  | .acquired _ count => th.depth = 0 ∧ 0 < count
  | .counted count => th.depth = 0 ∧ 0 < count
  | .tryCas currState => th.depth = 0 ∧ currState / 2 % 2 = 0 ∧ currState / 4 % 2 = 0
  | .inconsistent => False
  | _ => th.depth = 0

variable {T : Type}

/-- What the phase of the holder `t` says about `ownerThreadId` and `ownCount`; `none` for a thread that does not
    hold the mutex. -/
def view (t : T) (th : Thread) : Option (Option T × Nat) :=
  match th.pc with
  | .acquired _ _ => some (none, 0)
  | .counted count => some (none, count)
  | .releasing => some (some t, 0)
  | .subLocked => some (none, 0)
  | _ => if 0 < th.depth then some (some t, th.depth) else none

theorem view_eq_none {t : T} {th : Thread} (h : holds th = 0) : view t th = none := by
  obtain ⟨pc, depth⟩ := th
  cases pc <;> simp_all [holds, view]

/-- The holder's phase names itself or nobody. -/
theorem view_of_holds {t : T} {th : Thread} (h : 0 < holds th) :
    ∃ owner count, view t th = some (owner, count) ∧ (owner = none ∨ owner = some t) := by
  obtain ⟨pc, depth⟩ := th
  by_cases hd : 0 < depth <;> cases pc <;> simp [holds, view, hd] at h ⊢

/-- A thread with acquisitions to its name holds the mutex and says so. -/
theorem Wf.view_of_depth {t : T} {th : Thread} (hwf : Wf th) (hd : 0 < th.depth) :
    holds th = 1 ∧ view t th = some (some t, th.depth) := by
  obtain ⟨pc, depth⟩ := th
  have hne : depth ≠ 0 := Nat.ne_of_gt hd
  cases pc <;> simp_all [Wf, holds, view]

/-- A thread whose phase names itself holds the mutex, as often as its phase says. -/
theorem Wf.depth_of_view {t u : T} {th : Thread} {count : Nat} (hwf : Wf th)
    (hview : view t th = some (some u, count)) : holds th = 1 ∧ count = th.depth := by
  obtain ⟨pc, depth⟩ := th
  by_cases hd : depth = 0 <;> cases pc <;> simp_all [Wf, holds, view, Nat.pos_iff_ne_zero]

variable [Fintype T]

/-- **The invariant.** -/
structure Inv (s : State T) : Prop where
  ledger : Balanced s.state s.permits (tally holds s.thread) (tally flagged s.thread) (tally waking s.thread)
    (tally handed s.thread) (tally waits s.thread)
  wf : ∀ t, Wf (s.thread t)
  own : ∀ t v, view t (s.thread t) = some v → v = (s.ownerThreadId, s.ownCount)
  free : tally holds s.thread = 0 → s.ownerThreadId = none ∧ s.ownCount = 0

theorem inv_init : Inv (init : State T) := by
  have hzero : ∀ w : Thread → Nat, w ⟨.idle, 0⟩ = 0 → tally w (init : State T).thread = 0 :=
    fun w hw => tally_eq_zero.mpr fun _ => hw
  refine ⟨?_, fun _ => trivial, ?_, fun _ => ⟨rfl, rfl⟩⟩
  · rw [hzero holds rfl, hzero flagged rfl, hzero waking rfl, hzero handed rfl, hzero waits rfl]
    simp [Balanced, init]
  · intro t v hv; cases hv

/-- Nobody but the holder holds. -/
theorem Inv.sole {s : State T} (hi : Inv s) [DecidableEq T] {t u : T} (ht : 0 < holds (s.thread t)) (hne : u ≠ t) :
    holds (s.thread u) = 0 := by
  by_contra hu
  have hone : tally holds s.thread ≤ 1 := by rw [hi.ledger.1]; omega
  exact hne (eq_of_tally_le_one hone (Nat.pos_of_ne_zero hu) ht)

/-- `ownerThreadId` names a thread only in a phase of that thread. -/
theorem Inv.view_of_owner {s : State T} (hi : Inv s) {t : T} (h : s.ownerThreadId = some t) :
    view t (s.thread t) = some (some t, s.ownCount) := by
  -- somebody holds the mutex, since a free one has no owner
  have hholder : ∃ u, 0 < holds (s.thread u) := by
    by_contra hnone
    have hzero : tally holds s.thread = 0 :=
      tally_eq_zero.mpr fun u => Nat.eq_zero_of_not_pos fun hu => hnone ⟨u, hu⟩
    rw [(hi.free hzero).1] at h
    cases h
  obtain ⟨u, hu⟩ := hholder
  obtain ⟨owner, count, hview, hown⟩ := view_of_holds (t := u) hu
  have hfields := hi.own u _ hview
  simp only [Prod.mk.injEq] at hfields
  obtain ⟨rfl, rfl⟩ := hfields
  rcases hown with hnone | hsome
  · rw [h] at hnone; cases hnone
  · rw [h, Option.some.injEq] at hsome
    subst hsome
    rw [hview, h]

/-! ## Three kinds of steps

A step moves one thread `t` from `th` to `th'`. What it has to show about the balance sheet is arithmetic in the five
tallies, given that each of them exchanges the weight of `th` for that of `th'`. -/

section Moves

variable [DecidableEq T] {s : State T} {t : T} {th th' : Thread} {state permits : Nat}

/-- The tallies after the move, and that the new word balances them. -/
def Rebalanced (s : State T) (th th' : Thread) (state permits : Nat) : Prop :=
  ∀ hold flag wake hand wait,
    hold + holds th = tally holds s.thread + holds th' → flag + flagged th = tally flagged s.thread + flagged th' →
    wake + waking th = tally waking s.thread + waking th' → hand + handed th = tally handed s.thread + handed th' →
    wait + waits th = tally waits s.thread + waits th' → Balanced state permits hold flag wake hand wait

theorem Rebalanced.ledger (h : Rebalanced s th th' state permits) (hth : s.thread t = th) :
    Balanced state permits (tally holds (update s.thread t th')) (tally flagged (update s.thread t th'))
      (tally waking (update s.thread t th')) (tally handed (update s.thread t th'))
      (tally waits (update s.thread t th')) := by
  subst hth
  exact h _ _ _ _ _ (tally_update ..) (tally_update ..) (tally_update ..) (tally_update ..) (tally_update ..)

omit [Fintype T] in
theorem wf_update (hwf : ∀ u, Wf (s.thread u)) (h : Wf th') : ∀ u, Wf (update s.thread t th' u) := by
  intro u
  by_cases hu : u = t
  · subst hu; rwa [update_self]
  · rw [update_of_ne hu]; exact hwf u

omit [Fintype T] in
/-- What the phases say, of the thread that moves and of the others. -/
theorem own_update {v : Option T × Nat} (hself : ∀ w, view t th' = some w → w = v)
    (hothers : ∀ u, u ≠ t → ∀ w, view u (s.thread u) = some w → w = v) (u : T) (w : Option T × Nat)
    (hw : view u (update s.thread t th' u) = some w) : w = v := by
  by_cases hu : u = t
  · subst hu
    rw [update_self] at hw
    exact hself w hw
  · rw [update_of_ne hu] at hw
    exact hothers u hu w hw

omit [DecidableEq T] [Fintype T] in
/-- A thread that does not hold the mutex says nothing. -/
theorem view_ne_some {v : Option T × Nat} (h : holds th = 0) (w : Option T × Nat) (hw : view t th = some w) :
    w = v := by
  rw [view_eq_none h] at hw
  cases hw

/-- A thread that does not hold the mutex before or after leaves the owner alone. -/
theorem Inv.quiet (hi : Inv s) (hth : s.thread t = th) (hwf : Wf th') (h0 : holds th = 0) (h1 : holds th' = 0)
    (hbal : Rebalanced s th th' state permits) :
    Inv ⟨state, s.ownerThreadId, s.ownCount, permits, update s.thread t th'⟩ := by
  refine ⟨hbal.ledger hth, wf_update hi.wf hwf, own_update (view_ne_some h1) fun u _ => hi.own u, fun hzero => ?_⟩
  have hmove := tally_update holds s.thread t th'
  rw [hth, h0, h1] at hmove
  exact hi.free (by simpa using hmove.symm.trans hzero)

/-- A thread takes the mutex from nobody. -/
theorem Inv.acquire {w : OwnWrite} {count : Nat} (hi : Inv s) (hth : s.thread t = th) (hcount : 0 < count)
    (hdepth : th.depth = 0) (hfree : tally holds s.thread = 0)
    (hbal : Rebalanced s th ⟨.acquired w count, th.depth⟩ state permits) :
    Inv ⟨state, s.ownerThreadId, s.ownCount, permits,
      update s.thread t ⟨.acquired w count, th.depth⟩⟩ := by
  obtain ⟨hnone, hzero⟩ := hi.free hfree
  refine ⟨hbal.ledger hth, wf_update hi.wf ⟨hdepth, hcount⟩,
    own_update (fun v hv => ?_) fun u _ => view_ne_some (tally_eq_zero.mp hfree u), fun _ => ⟨hnone, hzero⟩⟩
  simp only [view, Option.some.injEq] at hv
  rw [← hv, hnone, hzero]

/-- The holder may write the owner and the count, as long as they are what its next phase says. -/
theorem Inv.holder {owner : Option T} {ownCount : Nat} (hi : Inv s) (hth : s.thread t = th) (hwf : Wf th')
    (h0 : holds th = 1) (hview : view t th' = some (owner, ownCount) ∨ holds th' = 0 ∧ owner = none ∧ ownCount = 0)
    (hbal : Rebalanced s th th' state permits) :
    Inv ⟨state, owner, ownCount, permits, update s.thread t th'⟩ := by
  have hother (u : T) (hu : u ≠ t) : holds (s.thread u) = 0 := hi.sole (by rw [hth, h0]; decide) hu
  refine ⟨hbal.ledger hth, wf_update hi.wf hwf, own_update (fun v hv => ?_) fun u hu => view_ne_some (hother u hu),
    fun hzero => ?_⟩
  · rcases hview with h | ⟨h, -⟩
    · exact Option.some.inj (hv.symm.trans h)
    · exact view_ne_some h v hv
  · have hnot := tally_eq_zero.mp hzero t
    simp only [update_self] at hnot
    rcases hview with h | ⟨-, h⟩
    · rw [view_eq_none hnot] at h; cases h
    · exact h

omit [DecidableEq T] in
/-- What a thread can rely on where it is. -/
theorem Inv.wf_at (hi : Inv s) {pc : Pc} (hpc : (s.thread t).pc = pc) : Wf ⟨pc, (s.thread t).depth⟩ := by
  subst hpc
  exact hi.wf t

/-- What a thread adds to the tallies. -/
def shares (th : Thread) : Nat × Nat × Nat × Nat × Nat := (holds th, flagged th, waking th, handed th, waits th)

omit [DecidableEq T] in
/-- A move that leaves the tallies alone. -/
theorem Inv.rebalanced (hi : Inv s) (hsame : shares th' = shares th) : Rebalanced s th th' s.state s.permits := by
  simp only [shares, Prod.mk.injEq] at hsame
  obtain ⟨hhold, hflag, hwake, hhand, hwait⟩ := hsame
  intro hold flag wake hand wait h1 h2 h3 h4 h5
  rw [hhold, Nat.add_right_cancel_iff] at h1
  rw [hflag, Nat.add_right_cancel_iff] at h2
  rw [hwake, Nat.add_right_cancel_iff] at h3
  rw [hhand, Nat.add_right_cancel_iff] at h4
  rw [hwait, Nat.add_right_cancel_iff] at h5
  rw [h1, h2, h3, h4, h5]
  exact hi.ledger

/-- A step that changes nothing but a control point of equal standing. -/
theorem Inv.still (hi : Inv s) (hth : s.thread t = th) (hwf : Wf th')
    (hsame : view t th' = view t th ∧ shares th' = shares th) :
    Inv ⟨s.state, s.ownerThreadId, s.ownCount, s.permits, update s.thread t th'⟩ := by
  refine ⟨(hi.rebalanced hsame.2).ledger hth, wf_update hi.wf hwf, own_update (fun v hv => ?_) fun u _ => hi.own u,
    fun hzero => ?_⟩
  · exact hi.own t v (hth ▸ hsame.1 ▸ hv)
  · have hmove := tally_update holds s.thread t th'
    have hhold : holds th' = holds th := congrArg Prod.fst hsame.2
    rw [hth, hhold, Nat.add_right_cancel_iff] at hmove
    exact hi.free (hmove.symm.trans hzero)

end Moves

end CangjieRuntime.Mutex
