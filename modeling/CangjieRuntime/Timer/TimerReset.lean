import CangjieRuntime.Timer.TimerHeap

/-!
# `Timer.TimerReset` — a new deadline for a timer

`TimerReset` takes a timer into the state `TIMER_MODIFYING`, changes it and puts it into one of the two modified states.
It does not hold the mutex of the heap: while the timer is in a state that another thread will soon leave, it yields.
A list of functions says what the others do in those yields, one for each; when the list is over, the call still spins.
-/

namespace CangjieRuntime.Timer

/-- `F` and `A` are the callbacks and their arguments; a callback may be null. -/
structure ResetPara (F A : Type) where
  ddl : UInt64
  period : UInt64
  func : Option F
  args : A
deriving DecidableEq

/-- The timer and the counters of its heap. -/
structure ResetState (F A : Type) extends TimerNode where
  period : UInt64
  func : Option F
  args : A
  adjustTimers : UInt64
  stoppedTimers : UInt64
deriving DecidableEq

inductive TimerError where
  | handleInvalid | pptr | free | state
deriving DecidableEq, Repr

variable {F A : Type}

def timerDeadlineCheck (now dur : UInt64) : UInt64 :=
  let deadline := now + dur
  if deadline < now then ULLONG_MAX else deadline

def timerResetDoChange (now : UInt64) (s : ResetState F A) (para : ResetPara F A) : ResetState F A :=
  { s with
    newDeadline := timerDeadlineCheck now para.ddl
    period := para.period
    func := if para.func.isSome then para.func else s.func
    args := if para.func.isSome then para.args else s.args }

def timerResetHeapAdjust (now : UInt64) (s : ResetState F A) (wasRemoved : Bool) (init : TimerStatus)
    (para : ResetPara F A) : Option TimerError × ResetState F A :=
  if wasRemoved then (some .free, s)
  else
    let s := timerResetDoChange now s para
    let newStatus := if s.newDeadline < s.deadline then .modifiedAhead else .modifiedDelayed
    let adjustTimers := if init = .modifiedAhead then s.adjustTimers - 1 else s.adjustTimers
    let adjustTimers := if newStatus = .modifiedAhead then adjustTimers + 1 else adjustTimers
    -- the compare-and-exchange out of `TIMER_MODIFYING`; the status is stored either way
    (if s.status = .modifying then none else some .state, { s with adjustTimers, status := newStatus })

/-- The loop of `TimerResetStatusAdjust`: the timer in state `TIMER_MODIFYING`, `wasRemoved`, and the state it was
    in. -/
def timerResetStatusAdjust : List (ResetState F A → ResetState F A) → ResetState F A →
    Option (ResetState F A × Bool × TimerStatus)
  | others, s =>
    match s.status with
    | .modifiedAhead | .waiting | .modifiedDelayed => some ({ s with status := .modifying }, false, s.status)
    | .removed | .idle => some ({ s with status := .modifying }, true, s.status)
    | .stopped => some ({ s with status := .modifying, stoppedTimers := s.stoppedTimers - 1 }, false, s.status)
    | .running | .removing | .modifying | .moving =>
      match others with
      | [] => none
      | other :: others => timerResetStatusAdjust others (other s)

/-- `TimerGetHeap`, of a handle that may be null and a processor that may have no heap. -/
def timerGetHeap (handle hasHeap : Bool) : Option TimerError :=
  if !handle then some .handleInvalid else if !hasHeap then some .pptr else none

/-- `none`: the call still spins. -/
def timerReset (handle hasHeap : Bool) (now : UInt64) (para : ResetPara F A)
    (others : List (ResetState F A → ResetState F A)) (s : ResetState F A) :
    Option (Option TimerError × ResetState F A) :=
  match timerGetHeap handle hasHeap with
  | some e => some (some e, s)
  | none => (timerResetStatusAdjust others s).map fun r => timerResetHeapAdjust now r.1 r.2.1 r.2.2 para

/-! ## What a failed call leaves behind -/

/-- A timer in one of these states is on no heap. -/
def OffHeap (s : ResetState F A) : Prop := s.status = .removed ∨ s.status = .idle

/-- A state that another thread is about to leave. -/
def Passing (s : ResetState F A) : Prop :=
  s.status = .running ∨ s.status = .removing ∨ s.status = .modifying ∨ s.status = .moving

instance (s : ResetState F A) : Decidable (Passing s) := inferInstanceAs (Decidable (_ ∨ _))

/-- The timer as the yields leave it: the first state that no other thread is about to leave. -/
def settle : List (ResetState F A → ResetState F A) → ResetState F A → ResetState F A
  | [], s => s
  | other :: others, s => if Passing s then settle others (other s) else s

/-- The timer as the call finds it: at once if it has no heap to look at, or else after the yields. -/
def found (handle hasHeap : Bool) (others : List (ResetState F A → ResetState F A)) (s : ResetState F A) :
    ResetState F A :=
  if (timerGetHeap handle hasHeap).isSome then s else settle others s

section Failure

variable {handle hasHeap : Bool} {now : UInt64} {para : ResetPara F A} {others : List (ResetState F A → ResetState F A)}
  {s : ResetState F A}

theorem statusAdjust_settle : timerResetStatusAdjust others s = timerResetStatusAdjust [] (settle others s) := by
  induction others generalizing s with
  | nil => rfl
  | cons other others ih =>
    rw [settle]
    split_ifs with hpass
    · rw [← ih]
      conv_lhs => rw [timerResetStatusAdjust]
      rcases hpass with h | h | h | h <;> rw [h]
    · cases hst : s.status with
      | running | removing | modifying | moving => exact absurd (by simp [Passing, hst]) hpass
      | _ =>
        rw [timerResetStatusAdjust, timerResetStatusAdjust]
        simp only [hst]

/-- The timer is taken over by this call, and it was on no heap exactly if its state says so. -/
theorem statusAdjust_spec {r : ResetState F A × Bool × TimerStatus} (h : timerResetStatusAdjust [] s = some r) :
    r.1.status = .modifying ∧ (r.2.1 = true ↔ OffHeap s) := by
  unfold timerResetStatusAdjust at h
  cases hst : s.status <;> simp only [hst, Option.some.injEq, reduceCtorEq] at h <;> subst h <;> simp [OffHeap, hst]

/-- A timer on no heap is taken over, and then refused. -/
theorem reset_offHeap (hoff : OffHeap (settle others s)) :
    timerReset true true now para others s = some (some .free, { settle others s with status := .modifying }) := by
  show (timerResetStatusAdjust others s).map _ = _
  rw [statusAdjust_settle, timerResetStatusAdjust]
  rcases hoff with h | h <;> rw [h] <;> rfl

theorem heapAdjust_ok (now : UInt64) {s : ResetState F A} (init : TimerStatus) (para : ResetPara F A)
    (h : s.status = .modifying) : (timerResetHeapAdjust now s false init para).1 = none :=
  if_pos h

/-- **A failed reset leaves the timer as it found it, if and only if** the call has no heap to look at or does not find
    the timer removed or idle. -/
theorem reset_error_keeps :
    (∀ e s', timerReset handle hasHeap now para others s = some (some e, s') → s' = found handle hasHeap others s) ↔
      handle = false ∨ hasHeap = false ∨ ¬OffHeap (settle others s) := by
  constructor
  · intro hkeeps
    by_contra hnot
    rw [not_or, not_or, Bool.not_eq_false, Bool.not_eq_false, not_not] at hnot
    obtain ⟨rfl, rfl, hoff⟩ := hnot
    -- the refused timer stays in `TIMER_MODIFYING`
    have hstatus : .modifying = (settle others s).status := congrArg (·.status) (hkeeps _ _ (reset_offHeap hoff))
    rcases hoff with h | h <;> exact absurd (hstatus.trans h) (by decide)
  · intro hcond e s' h
    unfold timerReset at h
    unfold found
    cases hheap : timerGetHeap handle hasHeap with
    | some e' =>
      rw [hheap] at h
      cases h
      rfl
    | none =>
      -- past the handle there is no error left: the exchange out of `TIMER_MODIFYING` finds this call's own store
      rw [hheap, statusAdjust_settle] at h
      obtain ⟨r, hr, hadjust⟩ := Option.map_eq_some_iff.mp h
      obtain ⟨hmod, hoff⟩ := statusAdjust_spec hr
      have hon : ¬OffHeap (settle others s) := by
        rcases hcond with rfl | rfl | hon
        · cases hheap
        · cases handle <;> cases hheap
        · exact hon
      rw [Bool.eq_false_iff.mpr (mt hoff.mp hon)] at hadjust
      have hnone := heapAdjust_ok now r.2.2 para hmod
      rw [hadjust] at hnone
      cases hnone

end Failure

/-- A timer left in state `TIMER_MODIFYING` is waited for, however often the call yields. -/
theorem statusAdjust_spins {s : ResetState F A} (h : s.status = .modifying) (n : Nat) :
    timerResetStatusAdjust (List.replicate n id) s = none := by
  induction n with
  | zero => simp [timerResetStatusAdjust, h]
  | succ n ih =>
    rw [List.replicate_succ, timerResetStatusAdjust, h]
    exact ih

/-- **A failed reset of a removed timer leaves it in state `TIMER_MODIFYING`**, and the next one never returns. -/
theorem reset_error_leaves_modifying : ∃ s' : ResetState Unit Nat,
    timerReset true true 5 ⟨10, 0, none, 0⟩ [] ⟨⟨7, 7, .removed, false⟩, 0, none, 3, 0, 0⟩ = some (some .free, s') ∧
      s'.status = .modifying ∧
      ∀ n now para, timerReset true true now para (List.replicate n id) s' = none := by
  refine ⟨_, rfl, rfl, ?_⟩
  intro n now para
  unfold timerReset
  rw [statusAdjust_spins rfl n]
  rfl

end CangjieRuntime.Timer
