import CangjieRuntime.StdSync.TimerScheduler

/-!
# `StdSync.Correctness.TimerCancel` — what `cancel` achieves

A timer that is not enabled is not started by the scheduler, which looks at the flag just before. So `cancel` holds for
good if nobody sets the flag again and nobody has looked at it already: the timer is *at rest* (`AtRest`) when no thread
reloads or adds it, and the scheduler is not between its look at `isEnabled` and the start of the task. Executions that
have started may go on; after `cancel` the timer stays at rest as long as none of them asks for another run (`LastRun`).

An execution that does ask for another run enables the timer again: `reload` does not know that it was cancelled.
-/

namespace CangjieRuntime.TimerScheduler

open Interleave Function Option

variable {T X : Type}

/-! ## What a thread does with a timer -/

/-- The timer that the thread is going to enable again. -/
def Pc.reloads : Pc X → Option X
  | .finish timer (some _) => some timer
  | .reload timer _ => some timer
  | .reloadEnable timer => some timer
  | _ => none

/-- The timer that the thread is adding. -/
def Pc.adds : Pc X → Option X
  | .add timer _ => some timer
  | .addExecute timer _ => some timer
  | .addLock timer _ => some timer
  | .addQueue timer _ => some timer
  | _ => none

/-- The timer that the thread is cancelling. -/
def Pc.cancels : Pc X → Option X
  | .cancelLoad timer _ => some timer
  | .cancelStore timer _ => some timer
  | _ => none

/-- The timer that the scheduler has found enabled and may be about to start. -/
def Sched.commits : Sched X → Option X
  | .loadNow timer => some timer
  | .compare timer _ => some timer
  | .execute timer => some timer
  | _ => none

theorem Pc.back_reloads (ret : Option X) : (Pc.back ret).reloads = none := by
  cases ret <;> rfl

theorem Pc.back_adds (ret : Option X) : (Pc.back ret).adds = none := by
  cases ret <;> rfl

theorem Pc.back_cancels (ret : Option X) : (Pc.back ret).cancels = none := by
  cases ret <;> rfl

/-- Neither reloaded nor added nor about to be started. -/
structure AtRest (s : State T X) (timer : X) : Prop where
  reloads : ∀ t, (s.pc t).reloads ≠ some timer
  adds : ∀ t, (s.pc t).adds ≠ some timer
  commits : s.sched.commits ≠ some timer

/-- Cancelled for good. -/
structure Off (s : State T X) (timer : X) : Prop extends AtRest s timer where
  created : s.created timer = true
  disabled : s.isEnabled timer = false

variable [DecidableEq T] [DecidableEq X] {zeroValue timer : X} {s s' : State T X} {t : T} {c : Pc X} {other : X}
  {e : Event T X}

/-! ## One step -/

omit [DecidableEq X] in
/-- A move of a thread. -/
theorem AtRest.move (h : AtRest s timer) (hpc : s'.pc = update s.pc t c)
    (hreloads : c.reloads ≠ some timer) (hadds : c.adds ≠ some timer) (hcommits : s'.sched.commits ≠ some timer) :
    AtRest s' timer := by
  refine ⟨fun u => ?_, fun u => ?_, hcommits⟩
  · rw [hpc]
    by_cases hut : u = t
    · rw [hut, update_self]
      exact hreloads
    · rw [update_of_ne hut]
      exact h.reloads u
  · rw [hpc]
    by_cases hut : u = t
    · rw [hut, update_self]
      exact hadds
    · rw [update_of_ne hut]
      exact h.adds u

variable (h : Off s timer)
include h

omit [DecidableEq X] in
/-- A move that touches neither the timer's flag nor the scheduler. -/
theorem Off.goto (hreloads : c.reloads ≠ some timer) (hadds : c.adds ≠ some timer) :
    Off (s.goto t c) timer where
  toAtRest := h.toAtRest.move rfl hreloads hadds h.commits
  created := h.created
  disabled := h.disabled

omit [DecidableEq T] in
theorem Off.setEnabled {b : Bool} (hb : b = false ∨ other ≠ timer) :
    Off (s.setEnabled other b) timer where
  toAtRest := ⟨h.reloads, h.adds, h.commits⟩
  created := h.created
  disabled := by
    show update s.isEnabled other b timer = false
    by_cases heq : other = timer
    · rw [heq, update_self]
      exact hb.resolve_right fun hne => hne heq
    · rw [update_of_ne (fun h => heq h.symm)]
      exact h.disabled

omit h [DecidableEq T] in
theorem spawn_starts (hne : other ≠ timer) : (s.spawn other).starts timer = s.starts timer :=
  update_of_ne (fun h => hne h.symm) ..

theorem nextThread_off (hpc : s.pc t = c) (hstep : nextThread s t c = some s') :
    Off s' timer ∧ s'.starts timer = s.starts timer := by
  have hreloads := h.reloads t
  have hadds := h.adds t
  rw [hpc] at hreloads hadds
  have hback : ∀ ret : Option X, (Pc.back ret).reloads ≠ some timer ∧ (Pc.back ret).adds ≠ some timer := by
    intro ret
    rw [Pc.back_reloads, Pc.back_adds]
    exact ⟨nofun, nofun⟩
  cases c with
  | idle | task other => cases hstep
  | finish other duration =>
    cases hstep
    cases duration with
    | none => exact ⟨(h.setEnabled (Or.inl rfl)).goto nofun nofun, rfl⟩
    | some d => exact ⟨(h.setEnabled (Or.inl rfl)).goto hreloads nofun, rfl⟩
  | reload other duration =>
    cases hstep
    exact ⟨⟨h.toAtRest.move rfl hreloads nofun h.commits, h.created, h.disabled⟩, rfl⟩
  | reloadEnable other =>
    cases hstep
    have hne : other ≠ timer := fun heq => hreloads (congrArg some heq)
    exact ⟨(h.setEnabled (Or.inr hne)).goto nofun hreloads, rfl⟩
  | add other ret => cases hstep; split <;> exact ⟨h.goto nofun hadds, rfl⟩
  | addExecute other ret =>
    cases hstep
    have hne : other ≠ timer := fun heq => hadds (congrArg some heq)
    obtain ⟨hr, ha⟩ := hback ret
    exact ⟨⟨h.toAtRest.move rfl hr ha h.commits, h.created, h.disabled⟩, spawn_starts hne⟩
  | addLock other ret =>
    obtain ⟨-, hstep⟩ := ite_none_right_eq_some.mp hstep
    cases hstep
    exact ⟨⟨h.toAtRest.move rfl nofun hadds h.commits, h.created, h.disabled⟩, rfl⟩
  | addQueue other ret =>
    cases hstep
    have hcommits : s.sched.notify.commits ≠ some timer := by
      have hbefore := h.commits
      cases hsched : s.sched with
      | waiting w => exact nofun
      | _ =>
        rw [hsched] at hbefore
        exact hbefore
    exact ⟨⟨h.toAtRest.move rfl nofun nofun hcommits, h.created, h.disabled⟩, rfl⟩
  | addUnlock ret =>
    cases hstep
    exact ⟨⟨h.toAtRest.move rfl nofun nofun h.commits, h.created, h.disabled⟩, rfl⟩
  | start ret =>
    cases hstep
    obtain ⟨hr, ha⟩ := hback ret
    unfold stepStart
    split
    · exact ⟨h.goto hr ha, rfl⟩
    · exact ⟨⟨h.toAtRest.move rfl hr ha nofun, h.created, h.disabled⟩, rfl⟩
  | cancelLoad other ret =>
    cases hstep
    split
    · exact ⟨h.goto nofun nofun, rfl⟩
    · exact ⟨h.goto (hback ret).1 (hback ret).2, rfl⟩
  | cancelStore other ret =>
    cases hstep
    exact ⟨(h.setEnabled (Or.inl rfl)).goto nofun nofun, rfl⟩
  | addCancelCount ret =>
    cases hstep
    obtain ⟨hr, ha⟩ := hback ret
    exact ⟨⟨h.toAtRest.move rfl hr ha h.commits, h.created, h.disabled⟩, rfl⟩

/-- An execution of the timer that is under way does not ask for another run. -/
def LastRun (timer : X) (s : State T X) : Event T X → Prop
  | .thread t (.finish (some _)) => s.pc t ≠ .task timer
  | _ => True

theorem actThread_off {a : Act X} (hlast : LastRun timer s (.thread t a))
    (hstep : actThread s t a = some s') : Off s' timer ∧ s'.starts timer = s.starts timer := by
  cases a with
  | create other delay =>
    simp only [actThread] at hstep
    split at hstep
    · obtain ⟨hfresh, hstep⟩ := ite_none_left_eq_some.mp hstep
      cases hstep
      have hne : other ≠ timer := by
        rintro rfl
        exact hfresh h.created
      refine ⟨⟨h.toAtRest.move rfl nofun (fun heq => hne (some.inj heq)) h.commits, ?_, ?_⟩, rfl⟩
      · exact (update_of_ne (fun heq => hne heq.symm) ..).trans h.created
      · exact (update_of_ne (fun heq => hne heq.symm) ..).trans h.disabled
    · cases hstep
  | cancel other =>
    simp only [actThread] at hstep
    split at hstep
    · obtain ⟨-, hstep⟩ := ite_none_right_eq_some.mp hstep
      cases hstep
      exact ⟨h.goto nofun nofun, rfl⟩
    · cases hstep
  | begin other =>
    obtain ⟨-, hstep⟩ := ite_none_right_eq_some.mp hstep
    cases hstep
    exact ⟨⟨h.toAtRest.move rfl nofun nofun h.commits, h.created, h.disabled⟩, rfl⟩
  | finish duration =>
    simp only [actThread] at hstep
    split at hstep
    · rename_i other hpc
      cases hstep
      refine ⟨h.goto ?_ nofun, rfl⟩
      cases duration with
      | none => exact nofun
      | some d =>
        intro heq
        exact hlast (hpc.trans (congrArg Pc.task (some.inj heq)))
    · cases hstep
  | next => exact nextThread_off h rfl hstep

omit [DecidableEq T] [DecidableEq X] in
/-- A step of the scheduler that starts no task, and commits itself to no disabled timer. -/
theorem Off.sched (hpc : s'.pc = s.pc) (hcreated : s'.created = s.created)
    (henabled : s'.isEnabled = s.isEnabled) (hstarts : s'.starts = s.starts)
    (hcommits : s'.sched.commits ≠ some timer) :
    Off s' timer ∧ s'.starts timer = s.starts timer := by
  refine ⟨⟨⟨?_, ?_, hcommits⟩, ?_, ?_⟩, ?_⟩
  · rw [hpc]
    exact h.reloads
  · rw [hpc]
    exact h.adds
  · rw [hcreated]
    exact h.created
  · rw [henabled]
    exact h.disabled
  · rw [hstarts]

omit h [DecidableEq T] in
/-- What a step of the scheduler has to do with `cancel`: it starts the timer that it has committed itself to, or it
    starts none, and commits itself to an enabled timer only. -/
theorem nextSched_cases (hstep : nextSched zeroValue s = some s') :
    (s'.pc = s.pc ∧ s'.created = s.created ∧ s'.isEnabled = s.isEnabled) ∧
      ((∃ other, s.sched = .execute other ∧ s' = { s.spawn other with sched := .pollTop }) ∨
        s'.starts = s.starts ∧
          ∀ other, s'.sched.commits = some other → s.sched.commits = some other ∨ s.isEnabled other = true) := by
  -- each arm of `nextSched` names the state after it
  revert hstep
  unfold nextSched
  cases hsched : s.sched with
  | off | waiting w => exact nofun
  | consume =>
    rintro ⟨⟩
    unfold stepConsume
    split
    · exact ⟨⟨rfl, rfl, rfl⟩, Or.inr ⟨rfl, nofun⟩⟩
    · exact ⟨⟨rfl, rfl, rfl⟩, Or.inr ⟨rfl, fun _ heq => Or.inl (hsched ▸ heq)⟩⟩
  | schedule =>
    rintro ⟨⟩
    unfold stepSchedule
    split
    · exact ⟨⟨rfl, rfl, rfl⟩, Or.inr ⟨rfl, nofun⟩⟩
    · split
      · exact ⟨⟨rfl, rfl, rfl⟩, Or.inr ⟨rfl, nofun⟩⟩
      · rename_i henabled
        refine ⟨⟨rfl, rfl, rfl⟩, Or.inr ⟨rfl, fun other heq => Or.inr ?_⟩⟩
        rw [← some.inj heq]
        exact not_not.mp henabled
  | loadNow other =>
    rintro ⟨⟩
    exact ⟨⟨rfl, rfl, rfl⟩, Or.inr ⟨rfl, fun _ heq => Or.inl heq⟩⟩
  | compare other time =>
    rintro ⟨⟩
    refine ⟨⟨rfl, rfl, rfl⟩, Or.inr ⟨rfl, fun _ heq => ?_⟩⟩
    dsimp only at heq
    split at heq
    · exact Or.inl heq
    · exact nomatch heq
  | execute other =>
    rintro ⟨⟩
    exact ⟨⟨rfl, rfl, rfl⟩, Or.inl ⟨other, rfl, rfl⟩⟩
  | testEmpty =>
    rintro ⟨⟩
    refine ⟨⟨rfl, rfl, rfl⟩, Or.inr ⟨rfl, ?_⟩⟩
    dsimp only
    split <;> exact nofun
  | lockEmpty | lockTimed other time | woken =>
    intro hstep
    obtain ⟨-, hstep⟩ := ite_none_right_eq_some.mp hstep
    cases hstep
    exact ⟨⟨rfl, rfl, rfl⟩, Or.inr ⟨rfl, nofun⟩⟩
  | loadCount =>
    rintro ⟨⟩
    unfold stepLoadCount
    split <;> exact ⟨⟨rfl, rfl, rfl⟩, Or.inr ⟨rfl, nofun⟩⟩
  | clear =>
    rintro ⟨⟩
    unfold stepClear
    split
    · exact ⟨⟨rfl, rfl, rfl⟩, Or.inr ⟨rfl, nofun⟩⟩
    · exact ⟨⟨rfl, rfl, rfl⟩, Or.inr ⟨rfl, fun _ heq => Or.inl (hsched ▸ heq)⟩⟩
  | dropTop | pollTop | waitEmpty | waitTimed other time | unlock | storeCount =>
    rintro ⟨⟩
    exact ⟨⟨rfl, rfl, rfl⟩, Or.inr ⟨rfl, nofun⟩⟩

omit [DecidableEq T] in
theorem nextSched_off (hstep : nextSched zeroValue s = some s') :
    Off s' timer ∧ s'.starts timer = s.starts timer := by
  obtain ⟨⟨hpc, hcreated, henabled⟩, ⟨other, hsched, rfl⟩ | ⟨hstarts, hcommits⟩⟩ := nextSched_cases hstep
  · have hne : other ≠ timer := by
      rintro rfl
      exact h.commits (by rw [hsched]; rfl)
    exact ⟨⟨⟨h.reloads, h.adds, nofun⟩, h.created, h.disabled⟩, spawn_starts hne⟩
  · refine h.sched hpc hcreated henabled hstarts fun heq => ?_
    rcases hcommits timer heq with hbefore | htrue
    · exact h.commits hbefore
    · rw [h.disabled] at htrue
      exact nomatch htrue

omit h [DecidableEq T] [DecidableEq X] in
/-- A time-out wakes the scheduler. -/
theorem timeout_cases (hstep : timeout s = some s') :
    ∃ w, s.sched = .waiting w ∧ w ≤ s.now ∧ s' = { s with sched := .woken } := by
  unfold timeout at hstep
  split at hstep
  · rename_i w hsched
    obtain ⟨hle, hstep⟩ := ite_none_right_eq_some.mp hstep
    exact ⟨w, hsched, hle, (some.inj hstep).symm⟩
  · cases hstep

/-- A cancelled timer at rest stays so, and is not started. -/
theorem act_off (hlast : LastRun timer s e) (hstep : act zeroValue s e = some s') :
    Off s' timer ∧ s'.starts timer = s.starts timer := by
  cases e with
  | thread t a => exact actThread_off h hlast hstep
  | scheduler => exact nextSched_off h hstep
  | timeout =>
    obtain ⟨w, -, -, rfl⟩ := timeout_cases hstep
    exact h.sched rfl rfl rfl rfl nofun
  | tick n =>
    cases hstep
    exact h.sched rfl rfl rfl rfl h.commits

/-! ## Whole runs -/

omit h

instance (timer : X) (s : State T X) (e : Event T X) : Decidable (LastRun timer s e) :=
  match e with
  | .thread t (.finish (some _)) => inferInstanceAs (Decidable (s.pc t ≠ .task timer))
  | .thread _ (.finish none) => isTrue trivial
  | .thread _ (.create _ _) => isTrue trivial
  | .thread _ (.cancel _) => isTrue trivial
  | .thread _ (.begin _) => isTrue trivial
  | .thread _ .next => isTrue trivial
  | .scheduler => isTrue trivial
  | .timeout => isTrue trivial
  | .tick _ => isTrue trivial

/-- No condition on the interleaving. -/
def Any (_ : State T X) (_ : Event T X) : Prop := True

instance (s : State T X) (e : Event T X) : Decidable (Any s e) := inferInstanceAs (Decidable True)

/-- Only timers that exist are cancelled. -/
def Existing (s : State T X) : Prop := ∀ t timer, (s.pc t).cancels = some timer → s.created timer = true

omit [DecidableEq X] in
theorem Existing.move (h : Existing s) (hpc : s'.pc = update s.pc t c)
    (hcreated : ∀ timer, s.created timer = true → s'.created timer = true)
    (hcancels : ∀ timer, c.cancels = some timer → s.created timer = true) : Existing s' := by
  intro u timer hu
  rw [hpc] at hu
  by_cases hut : u = t
  · rw [hut, update_self] at hu
    exact hcreated timer (hcancels timer hu)
  · rw [update_of_ne hut] at hu
    exact hcreated timer (h u timer hu)

theorem nextThread_existing (h : Existing s) (hpc : s.pc t = c) (hstep : nextThread s t c = some s') :
    Existing s' := by
  have hback : ∀ (ret : Option X) (timer : X), (Pc.back ret).cancels = some timer → s.created timer = true := by
    intro ret timer heq
    rw [Pc.back_cancels] at heq
    exact nomatch heq
  cases c with
  | idle | task other => cases hstep
  | finish other duration => cases hstep; cases duration <;> exact h.move rfl (fun _ => id) nofun
  | reload other duration | reloadEnable other | addQueue other ret | addUnlock ret | cancelStore other ret =>
    cases hstep; exact h.move rfl (fun _ => id) nofun
  | add other ret => cases hstep; split <;> exact h.move rfl (fun _ => id) nofun
  | addExecute other ret | addCancelCount ret => cases hstep; exact h.move rfl (fun _ => id) (hback ret)
  | addLock other ret =>
    obtain ⟨-, hstep⟩ := ite_none_right_eq_some.mp hstep
    cases hstep
    exact h.move rfl (fun _ => id) nofun
  | start ret =>
    cases hstep
    unfold stepStart
    split <;> exact h.move rfl (fun _ => id) (hback ret)
  | cancelLoad other ret =>
    cases hstep
    split
    · exact h.move rfl (fun _ => id) fun timer heq => h t timer (by rw [hpc]; exact heq)
    · exact h.move rfl (fun _ => id) (hback ret)

theorem act_existing (h : Existing s) (hstep : act zeroValue s e = some s') : Existing s' := by
  cases e with
  | thread t a =>
    cases a with
    | create other delay =>
      simp only [act, actThread] at hstep
      split at hstep
      · obtain ⟨-, hstep⟩ := ite_none_left_eq_some.mp hstep
        cases hstep
        refine h.move rfl (fun timer htimer => ?_) nofun
        show update s.created other true timer = true
        by_cases heq : timer = other
        · rw [heq, update_self]
        · rw [update_of_ne heq]
          exact htimer
      · cases hstep
    | cancel other =>
      simp only [act, actThread] at hstep
      split at hstep
      · obtain ⟨hcreated, hstep⟩ := ite_none_right_eq_some.mp hstep
        cases hstep
        exact h.move rfl (fun _ => id) fun timer heq => some.inj heq ▸ hcreated
      · cases hstep
    | begin other =>
      obtain ⟨-, hstep⟩ := ite_none_right_eq_some.mp hstep
      cases hstep
      exact h.move rfl (fun _ => id) nofun
    | finish duration =>
      simp only [act, actThread] at hstep
      split at hstep
      · cases hstep
        exact h.move rfl (fun _ => id) nofun
      · cases hstep
    | next => exact nextThread_existing h rfl hstep
  | scheduler =>
    obtain ⟨⟨hpc, hcreated, -⟩, -⟩ := nextSched_cases hstep
    unfold Existing
    rw [hpc, hcreated]
    exact h
  | timeout =>
    obtain ⟨w, -, -, rfl⟩ := timeout_cases hstep
    exact h
  | tick n =>
    cases hstep
    exact h

/-- The step at which `cancel` is done: it clears the flag, or finds that it is clear. -/
def Cancels (s : State T X) (t : T) (timer : X) : Prop :=
  ∃ ret, s.pc t = .cancelStore timer ret ∨ s.pc t = .cancelLoad timer ret ∧ s.isEnabled timer = false

theorem Cancels.off (hcancels : Cancels s t timer) (hexists : Existing s) (hrest : AtRest s timer)
    (hstep : actThread s t .next = some s') : Off s' timer ∧ s'.starts timer = s.starts timer := by
  obtain ⟨ret, hpc | ⟨hpc, hdisabled⟩⟩ := hcancels
  · have hcreated := hexists t timer (by rw [hpc]; rfl)
    simp only [actThread, hpc, nextThread, some.injEq] at hstep
    subst hstep
    refine ⟨⟨hrest.move rfl nofun nofun hrest.commits, hcreated, ?_⟩, rfl⟩
    exact update_self ..
  · have hoff : Off s timer := ⟨hrest, hexists t timer (by rw [hpc]; rfl), hdisabled⟩
    exact actThread_off (a := .next) hoff trivial hstep

/-- **A timer that is at rest when it is cancelled is never started again**, if no execution that is under way asks for
    another run. -/
theorem cancelled_never_starts {now : Int} {s₁ s₂ : State T X} (hrun : Run (act zeroValue) Any (init zeroValue now) s)
    (hcancels : Cancels s t timer) (hrest : AtRest s timer) (hstep : act zeroValue s (.thread t .next) = some s₁)
    (hafter : Run (act zeroValue) (LastRun timer) s₁ s₂) : s₂.starts timer = s.starts timer := by
  have hexists : Existing s := run_invariant hrun nofun fun _ _ _ hi _ h => act_existing hi h
  obtain ⟨hoff, hstarts⟩ := hcancels.off hexists hrest hstep
  have hall := run_invariant (I := fun s' => Off s' timer ∧ s'.starts timer = s.starts timer) hafter ⟨hoff, hstarts⟩
    fun _ _ _ hi hlast h => ⟨(act_off hi.1 hlast h).1, (act_off hi.1 hlast h).2.trans hi.2⟩
  exact hall.2

/-! ## A timer in the heap, and a timer that is executed -/

/-- A thread creates a timer. -/
def createRun (delay : Int) : List (Event Unit Unit) :=
  .thread () (.create () delay) :: List.replicate 5 (.thread () .next)

/-- The scheduler waits for a timer of one second; the thread cancels it, up to the store. -/
def cancelWaitingRun : List (Event Unit Unit) :=
  createRun 1000000000 ++ List.replicate 7 .scheduler ++ [.thread () (.cancel ()), .thread () .next]

/-- Two seconds pass, and the scheduler goes on. -/
def wakeRun : List (Event Unit Unit) := .tick 2000000000 :: .timeout :: List.replicate 8 .scheduler

theorem cancelled_never_starts_waiting :
    ∃ s s₁ s₂ : State Unit Unit, Run (act ()) Any (init () 0) s ∧ Cancels s () () ∧ AtRest s () ∧
      act () s (.thread () .next) = some s₁ ∧ Run (act ()) (LastRun ()) s₁ s₂ ∧
      (s₂.now = 2000000000 ∧ s₂.sched = .schedule) ∧
      s₂.starts () = s.starts () := by
  have hexec : ((runActs (act ()) Any (init () 0 : State Unit Unit) cancelWaitingRun).bind fun s =>
      (act () s (.thread () .next)).bind fun s₁ => (runActs (act ()) (LastRun ()) s₁ wakeRun).map fun s₂ =>
        (s.pc (), s.sched, s₂.now, s₂.sched)) =
      some (.cancelStore () none, .waiting 1000000000, 2000000000, .schedule) := by
    decide +kernel
  obtain ⟨s, hs, hexec⟩ := Option.bind_eq_some_iff.mp hexec
  obtain ⟨s₁, hstep, hexec⟩ := Option.bind_eq_some_iff.mp hexec
  obtain ⟨s₂, hs₂, hvalues⟩ := Option.map_eq_some_iff.mp hexec
  obtain ⟨hpc, hvalues⟩ := Prod.mk.inj hvalues
  obtain ⟨hsched, hlater⟩ := Prod.mk.inj hvalues
  have hcancels : Cancels s () () := ⟨none, Or.inl hpc⟩
  have hrest : AtRest s () := by
    refine ⟨fun _ => ?_, fun _ => ?_, hsched ▸ nofun⟩
    · rw [hpc]
      exact nofun
    · rw [hpc]
      exact nofun
  have hrun := run_of_runActs hs
  have hafter := run_of_runActs hs₂
  exact ⟨s, s₁, s₂, hrun, hcancels, hrest, hstep, hafter, Prod.mk.inj hlater,
    cancelled_never_starts hrun hcancels hrest hstep hafter⟩

/-- A timer without delay is started; its task cancels it, up to the store. -/
def cancelInsideRun : List (Event Unit Unit) :=
  createRun 0 ++ List.replicate 6 .scheduler ++ [.thread () (.begin ()), .thread () (.cancel ()), .thread () .next]

/-- The task asks for another run; `reload` adds the timer, and the scheduler starts it. -/
def reloadRun : List (Event Unit Unit) :=
  .thread () (.finish (some 0)) :: List.replicate 8 (.thread () .next) ++ List.replicate 8 .scheduler

/-- After `cancel` has returned, inside the task, the scheduler starts the timer once more. -/
theorem cancelled_timer_starts :
    ∃ s s₁ s₂ s₃ : State Unit Unit, Run (act ()) Any (init () 0) s ∧ s.pc () = .cancelStore () (some ()) ∧
      act () s (.thread () .next) = some s₁ ∧ act () s₁ (.thread () .next) = some s₂ ∧ s₂.pc () = .task () ∧
      s₂.isEnabled () = false ∧ Run (act ()) Any s₂ s₃ ∧ s₂.starts () = 1 ∧ s₃.starts () = 2 := by
  have hexec : ((runActs (act ()) Any (init () 0 : State Unit Unit) cancelInsideRun).bind fun s =>
      (act () s (.thread () .next)).bind fun s₁ => (act () s₁ (.thread () .next)).bind fun s₂ =>
        (runActs (act ()) Any s₂ reloadRun).map fun s₃ =>
          (s.pc (), s₂.pc (), s₂.isEnabled (), s₂.starts (), s₃.starts ())) =
      some (.cancelStore () (some ()), .task (), false, 1, 2) := by
    decide +kernel
  obtain ⟨s, hs, hexec⟩ := Option.bind_eq_some_iff.mp hexec
  obtain ⟨s₁, hstep, hexec⟩ := Option.bind_eq_some_iff.mp hexec
  obtain ⟨s₂, hstep', hexec⟩ := Option.bind_eq_some_iff.mp hexec
  obtain ⟨s₃, hs₃, hvalues⟩ := Option.map_eq_some_iff.mp hexec
  obtain ⟨hpc, hvalues⟩ := Prod.mk.inj hvalues
  obtain ⟨hpc₂, hvalues⟩ := Prod.mk.inj hvalues
  obtain ⟨hdisabled, hstarts⟩ := Prod.mk.inj hvalues
  obtain ⟨hone, htwo⟩ := Prod.mk.inj hstarts
  exact ⟨s, s₁, s₂, s₃, run_of_runActs hs, hpc, hstep, hstep', hpc₂, hdisabled, run_of_runActs hs₃, hone, htwo⟩

end CangjieRuntime.TimerScheduler
