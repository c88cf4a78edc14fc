import CangjieRuntime.Sync.Correctness.MutexInvariant

/-!
# `Sync.Correctness.MutexExclusion` — every access keeps the balance

One lemma for each access of the model, in the order of the code, and from them the invariant of whole runs.
-/

namespace CangjieRuntime.Mutex

open Interleave Bits

variable {T : Type} [Fintype T] [DecidableEq T] {s : State T} {t : T} {l : Locals} {cur count : Nat}

attribute [simp] view shares holds flagged waking handed waits

/-! ## The loop of the slow path -/

variable (hi : Inv s)
include hi

theorem stepLoop_inv (hpc : (s.thread t).pc = .loop l) (canSpin : Bool) :
    Inv (stepLoop s t l canSpin) := by
  obtain ⟨(hd : (s.thread t).depth = 0), hcount, hstarved⟩ := hi.wf_at hpc
  unfold stepLoop
  simp only [isStarving_eq, isLocked_eq, isSpinning_eq, getWaiters_eq]
  split
  · rename_i hspin
    simp only [Bool.and_eq_true, Bool.not_eq_true', decide_eq_false_iff_not, decide_eq_true_eq] at hspin
    split
    · -- the word is remembered with what was read off it
      rename_i htry
      simp only [Bool.and_eq_true, Bool.not_eq_true', decide_eq_false_iff_not, decide_eq_true_eq] at htry
      exact hi.still rfl ⟨hd, hcount, hstarved, htry.1.1, by omega, by omega, by omega⟩ (by simp [hpc, hd])
    · exact hi.still rfl ⟨hd, hcount, hstarved⟩ (by simp [hpc, hd])
  · exact hi.still rfl ⟨hd, hcount, hstarved⟩ (by simp [hpc, hd])

theorem stepSpinCas_inv (hpc : (s.thread t).pc = .spinCas l cur) :
    Inv (stepSpinCas s t l cur) := by
  obtain ⟨(hd : (s.thread t).depth = 0), hcount, hstarved, hflag, hspin, hstarving, hlocked⟩ := hi.wf_at hpc
  unfold stepSpinCas
  by_cases hcas : s.state = cur
  · -- the spinning token is created, for this thread
    subst hcas
    rw [if_pos rfl, or_SPINNING_eq]
    refine hi.quiet rfl ⟨hd, hcount, fun _ => rfl⟩ (by simp [hpc, hd]) (by simp [hd]) ?_
    intro hold flag wake hand wait h1 h2 h3 h4 h5
    simp [hpc, hd, hflag] at h1 h2 h3 h4 h5
    rw [h1, h2, h3, h4, h5]
    exact hi.ledger.spin hspin hstarving hlocked
  · rw [if_neg hcas]
    exact hi.still rfl ⟨hd, hcount, hstarved⟩ (by simp [hpc, hd])

theorem stepLockCas_inv (hpc : (s.thread t).pc = .lockCas l cur) :
    Inv (stepLockCas s t l cur) := by
  obtain ⟨(hd : (s.thread t).depth = 0), hcount, hstarved⟩ := hi.wf_at hpc
  have hb := hi.ledger
  unfold stepLockCas
  by_cases hcas : s.state = cur
  · subst hcas
    rw [if_pos rfl]
    simp only [isLocked_eq, isStarving_eq]
    split
    · -- a free word: this thread takes the lock and gives back the spinning token if it has it
      rename_i hfree
      simp only [Bool.and_eq_true, Bool.not_eq_true', decide_eq_false_iff_not] at hfree
      have hl : s.state / 4 % 2 = 0 := by omega
      have hs : s.state / 2 % 2 = 0 := by omega
      rw [newState_acquire l hl hs]
      apply hi.acquire rfl hcount hd (hb.1.trans hl)
      intro hold flag wake hand wait h1 h2 h3 h4 h5
      cases hflag : l.hasSetSpinFlag with
      | false =>
        simp [hpc, hd, hflag] at h1 h2 h3 h4 h5
        rw [h1, h2, h3, h4, h5]
        exact hb.lock hs hl
      | true =>
        simp [hpc, hd, hflag] at h1 h2 h3 h4 h5
        rw [← h2] at hb
        rw [h1, h3, h4, h5]
        exact hb.lockSpun hs hl
    · -- a taken word: this thread waits; if it is starved it had the spinning token and turns it into `STARVING`
      rename_i htaken
      have ht : s.state / 2 % 2 = 1 ∨ s.state / 4 % 2 = 1 := by
        simp only [Bool.and_eq_true, Bool.not_eq_true', decide_eq_false_iff_not] at htaken
        omega
      rw [newState_wait l ht]
      refine hi.quiet rfl ⟨hd, hcount⟩ (by simp [hpc, hd]) (by simp [hd]) ?_
      intro hold flag wake hand wait h1 h2 h3 h4 h5
      cases hflag : l.hasSetSpinFlag with
      | false =>
        have hst : l.isStarved = false := by
          cases h : l.isStarved with
          | false => rfl
          | true => exact absurd (hstarved h) (by simp [hflag])
        simp [hpc, hd, hflag] at h1 h2 h3 h4 h5
        rw [h1, h2, h3, h4, h5]
        simpa [hst] using hb.enqueue
      | true =>
        simp [hpc, hd, hflag] at h1 h2 h3 h4 h5
        rw [← h2] at hb
        rw [h1, h3, h4, h5]
        by_cases hask : l.isStarved ∧ s.state / 4 % 2 = 1
        · rw [if_pos hask]
          exact hb.starve hask.2
        · rw [if_neg hask]
          exact hb.enqueueSpun
  · rw [if_neg hcas]
    exact hi.still rfl ⟨hd, hcount, hstarved⟩ (by simp [hpc, hd])

/-! ## Waiting and waking -/

/-- `MRT_SemAcquire` takes a permit. -/
theorem wait_inv (hpc : (s.thread t).pc = .wait l) (hpos : 0 < s.permits) :
    Inv ({ s with permits := s.permits - 1 }.goto t (.woken l)) := by
  obtain ⟨(hd : (s.thread t).depth = 0), hcount⟩ := hi.wf_at hpc
  refine hi.quiet rfl ⟨hd, hcount⟩ (by simp [hpc, hd]) (by simp [hd]) ?_
  intro hold flag wake hand wait h1 h2 h3 h4 h5
  simp [hpc, hd] at h1 h2 h3 h4 h5
  rw [h1, h2, h3, h4, h5]
  exact hi.ledger.pass (by dsimp only; omega)

/-- A woken thread returns to the loop with the spinning token or accepts the mutex; it never finds an inconsistent
    state. -/
theorem stepWoken_inv (hpc : (s.thread t).pc = .woken l) (tooLong : Bool) :
    Inv (stepWoken s t l tooLong) := by
  obtain ⟨(hd : (s.thread t).depth = 0), hcount⟩ := hi.wf_at hpc
  have hb := hi.ledger
  -- this thread carries the wake-up and is counted among those who wait
  obtain ⟨wake₀, hwake⟩ : ∃ n, tally waking s.thread = n + 1 := tally_succ (t := t) (by simp [hpc])
  obtain ⟨wait₀, hwait⟩ : ∃ n, tally waits s.thread = n + 1 := tally_succ (t := t) (by simp [hpc])
  rw [hwake, hwait] at hb
  unfold stepWoken
  simp only [isStarving_eq, isLocked_eq, isSpinning_eq, getWaiters_eq]
  by_cases hstarve : s.state / 2 % 2 = 1
  · obtain ⟨⟨hlock, hspin, hwaiters⟩, hacc⟩ := hb.accept hstarve
    rw [if_neg (by simp [hstarve]), if_pos (by simp [hlock, hspin, hwaiters])]
    refine hi.quiet rfl ⟨hd, hcount⟩ (by simp [hpc, hd]) (by simp [hd]) ?_
    intro hold flag wake hand wait h1 h2 h3 h4 h5
    simp [hpc, hd, hwake, hwait] at h1 h2 h3 h4 h5
    rw [h1, h2, h3, h4, h5]
    exact hacc
  · rw [if_pos (by simp [hstarve])]
    refine hi.quiet rfl ⟨hd, hcount, fun _ => rfl⟩ (by simp [hpc, hd]) (by simp [hd]) ?_
    intro hold flag wake hand wait h1 h2 h3 h4 h5
    simp [hpc, hd, hwake, hwait] at h1 h2 h3 h4 h5
    rw [h1, h2, h3, h4, h5]
    exact hb.resume (by omega)

theorem stepHandOff_inv (hpc : (s.thread t).pc = .handOff l cur) :
    Inv (stepHandOff s t l cur) := by
  obtain ⟨(hd : (s.thread t).depth = 0), hcount⟩ := hi.wf_at hpc
  have hb := hi.ledger
  -- the hand-off is with this thread, so the mutex is free
  have hhand : handed (s.thread t) ≤ tally handed s.thread := le_tally t
  simp only [handed, hpc] at hhand
  have hfree : tally holds s.thread = 0 := by
    unfold Balanced at hb; omega
  unfold stepHandOff
  apply hi.acquire rfl hcount hd hfree
  intro hold flag wake hand wait h1 h2 h3 h4 h5
  simp [hpc, hd] at h1 h2 h3 h4 h5
  rw [← h4, ← h5] at hb
  rw [h1, h2, h3]
  exact hb.fix ((!l.isStarved || decide (getWaiters cur = 1)) = true)

theorem semRelease_inv (hpc : (s.thread t).pc = .semRelease) :
    Inv ({ s with permits := s.permits + 1 }.goto t .idle) := by
  have hd : (s.thread t).depth = 0 := hi.wf_at hpc
  refine hi.quiet rfl trivial (by simp [hpc, hd]) (by simp [hd]) ?_
  intro hold flag wake hand wait h1 h2 h3 h4 h5
  simp [hpc, hd] at h1 h2 h3 h4 h5
  have hb := hi.ledger
  rw [← h3] at hb
  rw [h1, h2, h4, h5]
  exact hb.pass (by dsimp only; omega)

/-! ## The phases of the holder -/

omit hi

variable (hi : Inv s)
include hi

omit [DecidableEq T] in
/-- A thread that is not the owner has none. -/
theorem Inv.depth_of_not_owner (howner : s.ownerThreadId ≠ some t)
    (hview : (s.thread t).depth ≠ 0 → view t (s.thread t) = some (some t, (s.thread t).depth)) :
    (s.thread t).depth = 0 := by
  by_contra hd
  exact howner (Prod.mk.inj (hi.own t _ (hview hd))).1.symm

omit [DecidableEq T] in
/-- An idle thread, or one at the head of the slow path, that is the owner has acquisitions to its name. -/
theorem Inv.depth_of_owner (howner : s.ownerThreadId = some t)
    (hpc : (s.thread t).pc = .idle ∨ ∃ count, (s.thread t).pc = .slowEntry count) :
    0 < (s.thread t).depth ∧ s.ownCount = (s.thread t).depth := by
  have hview := hi.view_of_owner howner
  by_cases hd : 0 < (s.thread t).depth
  · refine ⟨hd, ?_⟩
    rcases hpc with hpc | ⟨count, hpc⟩ <;> simp [hpc, hd] at hview <;> exact hview.symm
  · rcases hpc with hpc | ⟨count, hpc⟩ <;> simp [hpc, hd] at hview

/-- The owner locks again. -/
theorem recur_inv (hpc : (s.thread t).pc = .recur count) :
    Inv ({ s with ownCount := s.ownCount + count }.ret t ((s.thread t).depth + count)) := by
  obtain ⟨-, (hd : 0 < (s.thread t).depth)⟩ := hi.wf_at hpc
  have hown := Prod.mk.inj (hi.own t (some t, (s.thread t).depth) (by simp [hpc, hd]))
  have hd' : 0 < (s.thread t).depth + count := by omega
  refine hi.holder rfl trivial (by simp [hpc, hd]) (Or.inl ?_) ?_
  · rw [← hown.1, ← hown.2]
    simp [hd']
  · exact hi.rebalanced (by simp [hpc, hd, hd'])

/-- Both ways of writing `ownCount` write the same, since it is zero. -/
theorem acquired_inv {w : OwnWrite} {count ownCount : Nat} (hpc : (s.thread t).pc = .acquired w count)
    (hwrite : ownCount = s.ownCount + count ∨ ownCount = count) :
    Inv ({ s with ownCount := ownCount }.goto t (.counted count)) := by
  obtain ⟨(hd : (s.thread t).depth = 0), hcount⟩ := hi.wf_at hpc
  have hown := Prod.mk.inj (hi.own t (none, 0) (by simp [hpc]))
  refine hi.holder rfl ⟨hd, hcount⟩ (by simp [hpc]) (Or.inl ?_) ?_
  · have hval : ownCount = count := by omega
    rw [← hown.1, hval]
    simp
  · exact hi.rebalanced (by simp [hpc])

theorem counted_inv (hpc : (s.thread t).pc = .counted count) :
    Inv ({ s with ownerThreadId := some t }.ret t ((s.thread t).depth + count)) := by
  obtain ⟨(hd : (s.thread t).depth = 0), hcount⟩ := hi.wf_at hpc
  have hown := Prod.mk.inj (hi.own t (none, count) (by simp [hpc]))
  refine hi.holder rfl trivial (by simp [hpc]) (Or.inl ?_) ?_
  · rw [← hown.2]
    simp [hd, hcount]
  · exact hi.rebalanced (by simp [hpc, hd, hcount])

/-- The owner gives back part of its acquisitions, or all of them and starts to release. -/
theorem stepUnlock_inv (hpc : (s.thread t).pc = .idle)
    (howner : s.ownerThreadId = some t) (hle : count ≤ s.ownCount) : Inv (stepUnlock s t count) := by
  obtain ⟨hd, hcnt⟩ := hi.depth_of_owner howner (Or.inl hpc)
  unfold stepUnlock
  by_cases hpart : count < s.ownCount
  · have hd' : 0 < (s.thread t).depth - count := by omega
    rw [if_pos hpart]
    refine hi.holder rfl trivial (by simp [hpc, hd]) (Or.inl ?_) ?_
    · rw [howner, hcnt]
      simp [hd']
    · exact hi.rebalanced (by simp [hpc, hd, hd'])
  · have hall : (s.thread t).depth - count = 0 := by omega
    have hzero : s.ownCount - count = 0 := by omega
    rw [if_neg hpart, hall, hzero]
    refine hi.holder rfl rfl (by simp [hpc, hd]) (Or.inl ?_) ?_
    · rw [howner]
      simp
    · exact hi.rebalanced (by simp [hpc, hd])

theorem releasing_inv (hpc : (s.thread t).pc = .releasing) :
    Inv ({ s with ownerThreadId := none }.goto t .subLocked) := by
  have hd : (s.thread t).depth = 0 := hi.wf_at hpc
  have hown := Prod.mk.inj (hi.own t (some t, 0) (by simp [hpc]))
  refine hi.holder rfl hd (by simp [hpc]) (Or.inl ?_) ?_
  · rw [← hown.2]
    simp
  · exact hi.rebalanced (by simp [hpc])

/-- `LOCKED` is cleared; in starvation mode it turns into the hand-off. -/
theorem stepSubLocked_inv (hpc : (s.thread t).pc = .subLocked) : Inv (stepSubLocked s t) := by
  have hd : (s.thread t).depth = 0 := hi.wf_at hpc
  have hown := Prod.mk.inj (hi.own t (none, 0) (by simp [hpc]))
  have hb := hi.ledger
  have hlock : holds (s.thread t) ≤ tally holds s.thread := le_tally t
  simp only [holds, hpc] at hlock
  have hbit := hb.1
  have hbits : (s.state - 4) / 2 % 2 = s.state / 2 % 2 := by omega
  unfold stepSubLocked LOCKED
  simp only [isStarving_eq]
  by_cases hstarve : s.state / 2 % 2 = 1
  · rw [if_neg (by omega), if_pos (by simp [hbits, hstarve])]
    refine hi.holder rfl hd (by simp [hpc]) (Or.inr ⟨by simp [hd], hown.1.symm, hown.2.symm⟩) ?_
    intro hold flag wake hand wait h1 h2 h3 h4 h5
    simp [hpc, hd] at h1 h2 h3 h4 h5
    rw [← h1] at hb
    rw [h2, h3, h4, h5]
    exact hb.unlockStarving hstarve
  · -- the two ways on, with nothing to do and with a waiter perhaps to wake, stand equal
    have hgo : ∀ pc, Wf ⟨pc, 0⟩ → holds ⟨pc, 0⟩ = 0 → flagged ⟨pc, 0⟩ = 0 → waking ⟨pc, 0⟩ = 0 →
        handed ⟨pc, 0⟩ = 0 → waits ⟨pc, 0⟩ = 0 → Inv ({ s with state := s.state - 4 }.goto t pc) := by
      intro pc hwf w1 w2 w3 w4 w5
      rw [show ({ s with state := s.state - 4 } : State T).goto t pc =
        ⟨s.state - 4, s.ownerThreadId, s.ownCount, s.permits, Function.update s.thread t ⟨pc, (s.thread t).depth⟩⟩
        from rfl, hd]
      refine hi.holder rfl hwf (by simp [hpc]) (Or.inr ⟨w1, hown.1.symm, hown.2.symm⟩) ?_
      intro hold flag wake hand wait h1 h2 h3 h4 h5
      rw [w1] at h1; rw [w2] at h2; rw [w3] at h3; rw [w4] at h4; rw [w5] at h5
      simp [hpc] at h1 h2 h3 h4 h5
      rw [← h1] at hb
      rw [h2, h3, h4, h5]
      exact hb.unlock (by omega)
    split
    · exact hgo .idle trivial rfl rfl rfl rfl rfl
    · rw [if_neg (by simp [hbits, hstarve])]
      exact hgo (.wakeLoop _) rfl rfl rfl rfl rfl rfl

theorem stepWakeLoop_inv (hpc : (s.thread t).pc = .wakeLoop cur) :
    Inv (stepWakeLoop s t cur) := by
  have hd : (s.thread t).depth = 0 := hi.wf_at hpc
  unfold stepWakeLoop
  simp only [isStarving_eq, isLocked_eq, isSpinning_eq, getWaiters_eq]
  split
  · exact hi.still rfl trivial (by simp [hpc, hd])
  · rename_i hwake
    simp only [Bool.or_eq_true, decide_eq_true_eq, not_or] at hwake
    by_cases hcas : s.state = cur
    · subst hcas
      rw [if_pos rfl, or_SPINNING_eq]
      refine hi.quiet rfl hd (by simp [hpc, hd]) (by simp [hd]) ?_
      intro hold flag wake hand wait h1 h2 h3 h4 h5
      simp [hpc, hd] at h1 h2 h3 h4 h5
      rw [h1, h2, h3, h4, h5]
      exact hi.ledger.wakeOne (by omega) (by omega) (by omega)
    · rw [if_neg hcas]
      exact hi.still rfl hd (by simp [hpc, hd])

/-! ## Entering the calls -/

/-- Only the owner finds itself in `ownerThreadId`. -/
theorem slowEntry_inv (hpc : (s.thread t).pc = .slowEntry count) :
    Inv (s.goto t (if s.ownerThreadId = some t then .recur count else .loop (.start count))) := by
  have hcount := hi.wf t
  simp only [Wf, hpc] at hcount
  split_ifs with howner
  · obtain ⟨hd, -⟩ := hi.depth_of_owner howner (Or.inr ⟨count, hpc⟩)
    exact hi.still rfl ⟨hcount, hd⟩ (by simp [hpc])
  · have hd := hi.depth_of_not_owner howner (by simp [hpc])
    exact hi.still rfl ⟨hd, hcount, fun h => h⟩ (by simp [hpc, hd, Locals.start])

theorem tryLoad_inv (hpc : (s.thread t).pc = .tryLoad) :
    Inv (s.goto t (if isLocked s.state || isStarving s.state then .idle else .tryCas s.state)) := by
  have hd : (s.thread t).depth = 0 := hi.wf_at hpc
  simp only [isLocked_eq, isStarving_eq]
  split
  · exact hi.still rfl trivial (by simp [hpc, hd])
  · rename_i hfree
    simp only [Bool.or_eq_true, decide_eq_true_eq, not_or] at hfree
    exact hi.still rfl ⟨hd, by omega, by omega⟩ (by simp [hpc, hd])

/-- A free word may have waiters and a spinning thread; they stay as they are. -/
theorem tryCas_inv (hpc : (s.thread t).pc = .tryCas cur) :
    Inv (if s.state = cur then { s with state := cur ||| LOCKED }.goto t (.acquired .add 1) else s.goto t .idle) := by
  obtain ⟨(hd : (s.thread t).depth = 0), hstarve, hlock⟩ := hi.wf_at hpc
  by_cases hcas : s.state = cur
  · subst hcas
    have hset : s.state ||| LOCKED = s.state + 4 := by
      have := setLocked_eq s.state
      rw [hlock] at this
      exact this
    rw [if_pos rfl, hset]
    apply hi.acquire rfl Nat.one_pos hd (hi.ledger.1.trans hlock)
    intro hold flag wake hand wait h1 h2 h3 h4 h5
    simp [hpc, hd] at h1 h2 h3 h4 h5
    rw [h1, h2, h3, h4, h5]
    exact hi.ledger.lock hstarve hlock
  · rw [if_neg hcas]
    exact hi.still rfl trivial (by simp [hpc, hd])

theorem reload_inv (hpc : (s.thread t).pc = .reload) : Inv (s.goto t (.wakeLoop s.state)) := by
  have hd : (s.thread t).depth = 0 := hi.wf_at hpc
  exact hi.still rfl hd (by simp [hpc])

/-- The fast path finds the whole word zero, or leaves it alone. -/
theorem lock_inv (hpc : (s.thread t).pc = .idle) (hcount : 0 < count) :
    Inv (if s.state = 0 then { s with state := LOCKED }.goto t (.acquired .add count)
      else s.goto t (.slowEntry count)) := by
  split_ifs with hzero
  · have hfree : tally holds s.thread = 0 := by rw [hi.ledger.1, hzero]
    have hd : (s.thread t).depth = 0 := by
      have hnot := tally_eq_zero.mp hfree t
      by_contra hd
      simp [hpc] at hnot
      exact hd hnot
    apply hi.acquire rfl hcount hd hfree
    intro hold flag wake hand wait h1 h2 h3 h4 h5
    simp [hpc, hd] at h1 h2 h3 h4 h5
    rw [h1, h2, h3, h4, h5]
    have hb := hi.ledger.lock (by rw [hzero]) (by rw [hzero])
    rw [hzero] at hb
    exact hb
  · exact hi.still rfl hcount (by simp [hpc])

theorem tryLock_inv (hpc : (s.thread t).pc = .idle) :
    Inv (if s.ownerThreadId = some t then s.goto t (.recur 1)
      else if s.ownerThreadId = none then s.goto t .tryLoad else s) := by
  by_cases howner : s.ownerThreadId = some t
  · obtain ⟨hd, -⟩ := hi.depth_of_owner howner (Or.inl hpc)
    rw [if_pos howner]
    exact hi.still rfl ⟨Nat.one_pos, hd⟩ (by simp [hpc])
  · rw [if_neg howner]
    by_cases hnone : s.ownerThreadId = none
    · have hd := hi.depth_of_not_owner howner (by simp [hpc])
      rw [if_pos hnone]
      exact hi.still rfl hd (by simp [hpc])
    · rw [if_neg hnone]; exact hi

/-! ## Steps and runs -/

theorem next_inv (choice : Bool) {s' : State T} (h : next s t choice (s.thread t).pc = some s') :
    Inv s' := by
  generalize hpc : (s.thread t).pc = pc at h
  cases pc with
  | idle | inconsistent => cases h
  | slowEntry count => cases h; exact slowEntry_inv hi hpc
  | recur count => cases h; exact recur_inv hi hpc
  | loop l => cases h; exact stepLoop_inv hi hpc choice
  | spinCas l cur => cases h; exact stepSpinCas_inv hi hpc
  | lockCas l cur => cases h; exact stepLockCas_inv hi hpc
  | wait l =>
    simp only [next] at h
    by_cases hpos : 0 < s.permits
    · rw [if_pos hpos] at h; cases h; exact wait_inv hi hpc hpos
    · rw [if_neg hpos] at h; cases h
  | woken l => cases h; exact stepWoken_inv hi hpc choice
  | handOff l cur => cases h; exact stepHandOff_inv hi hpc
  | acquired w count =>
    cases w with
    | add => cases h; exact acquired_inv hi hpc (Or.inl rfl)
    | assign => cases h; exact acquired_inv hi hpc (Or.inr rfl)
  | counted count => cases h; exact counted_inv hi hpc
  | tryLoad => cases h; exact tryLoad_inv hi hpc
  | tryCas cur => cases h; exact tryCas_inv hi hpc
  | releasing => cases h; exact releasing_inv hi hpc
  | subLocked => cases h; exact stepSubLocked_inv hi hpc
  | wakeLoop cur => cases h; exact stepWakeLoop_inv hi hpc
  | reload => cases h; exact reload_inv hi hpc
  | semRelease => cases h; exact semRelease_inv hi hpc

omit hi

theorem act_inv (s : State T) (ta : T × Act) (s' : State T) (hi : Inv s) (hok : Proper s ta)
    (h : act s ta = some s') : Inv s' := by
  obtain ⟨t, a⟩ := ta
  cases a with
  | next choice => exact next_inv hi choice h
  | lock count =>
    cases hpc : (s.thread t).pc <;> simp only [act, hpc] at h <;> cases h
    exact lock_inv hi hpc hok
  | lockSlowPath =>
    cases hpc : (s.thread t).pc <;> simp only [act, hpc] at h <;> cases h
    exact hi.still rfl Nat.one_pos (by simp [hpc])
  | tryLock =>
    cases hpc : (s.thread t).pc <;> simp only [act, hpc] at h <;> cases h
    exact tryLock_inv hi hpc
  | unlock count =>
    cases hpc : (s.thread t).pc <;> simp only [act, hpc] at h <;> cases h
    exact stepUnlock_inv hi hpc hok.1 hok.2

theorem run_inv (hrun : Run act Proper init s) : Inv s := run_invariant hrun inv_init act_inv

/-- The word never exceeds what the threads can put into it, so an `int64_t` holds it for fewer than `2 ^ 60`
    threads. -/
theorem state_lt (hrun : Run act Proper init s) : s.state < 8 * (Fintype.card T + 1) := by
  have hb := (run_inv hrun).ledger
  have hle : tally waits s.thread ≤ Fintype.card T := by
    apply tally_le_card
    rintro ⟨pc, depth⟩
    cases pc <;> simp [waits]
  unfold Balanced at hb
  omega

/-- **`CJMutex` is a mutex.** Whatever the threads do, in every state reached: at most one thread holds it, from the
    access that takes it to the access that frees it; a thread that has acquisitions to its name is the holder and is
    what `ownerThreadId` and `ownCount` say, and they say it of no other; and no thread has found the mutex in an
    inconsistent state. -/
theorem at_most_one_owner (hrun : Run act Proper init s) :
    (∀ t u, 0 < holds (s.thread t) → 0 < holds (s.thread u) → t = u) ∧
    (∀ t, 0 < (s.thread t).depth →
      0 < holds (s.thread t) ∧ s.ownerThreadId = some t ∧ s.ownCount = (s.thread t).depth) ∧
    (∀ t, s.ownerThreadId = some t → 0 < holds (s.thread t) ∧ s.ownCount = (s.thread t).depth) ∧
    (∀ t, (s.thread t).pc ≠ .inconsistent) := by
  have hi := run_inv hrun
  refine ⟨?_, ?_, ?_, ?_⟩
  · intro t u ht hu
    by_contra hne
    exact absurd (hi.sole ht (Ne.symm hne)) (Nat.ne_of_gt hu)
  · intro t hd
    obtain ⟨hholds, hview⟩ := (hi.wf t).view_of_depth (t := t) hd
    have hown := Prod.mk.inj (hi.own t _ hview)
    exact ⟨by rw [hholds]; decide, hown.1.symm, hown.2.symm⟩
  · intro t howner
    obtain ⟨hholds, hcount⟩ := (hi.wf t).depth_of_view (hi.view_of_owner howner)
    exact ⟨by rw [hholds]; decide, hcount⟩
  · intro t hpc
    have hwf := hi.wf t
    simp only [Wf, hpc] at hwf

/-- Thread `b` waits for `a`, is overtaken by `c` when woken, asks for the hand-off and is handed the mutex. -/
def handOffRun (a b c : T) : List (T × Act) :=
  [(a, .lock 1), (a, .next false), (a, .next false),
   (b, .lock 1), (b, .next false), (b, .next false), (b, .next false),
   (a, .unlock 1), (a, .next false), (a, .next false), (a, .next false), (a, .next false),
   (c, .tryLock), (c, .next false), (c, .next false), (c, .next false), (c, .next false),
   (b, .next false), (b, .next true), (b, .next false), (b, .next false),
   (c, .unlock 1), (c, .next false), (c, .next false), (c, .next false),
   (b, .next false), (b, .next false), (b, .next false), (b, .next false), (b, .next false)]

theorem at_most_one_owner_handOff :
    ∃ s : State (Fin 3), Run act Proper init s ∧ s.ownerThreadId = some 1 ∧
      ∀ t u, 0 < holds (s.thread t) → 0 < holds (s.thread u) → t = u := by
  have hexec : (runActs act Proper (init : State (Fin 3)) (handOffRun 0 1 2)).map State.ownerThreadId =
      some (some 1) := by
    decide
  obtain ⟨s, hs, howner⟩ := Option.map_eq_some_iff.mp hexec
  have hrun := run_of_runActs hs
  exact ⟨s, hrun, howner, (at_most_one_owner hrun).1⟩

theorem state_lt_handOff : ∃ s : State (Fin 3), Run act Proper init s ∧ s.state < 32 := by
  have hexec : (runActs act Proper (init : State (Fin 3)) (handOffRun 0 1 2)).isSome := by decide
  obtain ⟨s, hs⟩ := Option.isSome_iff_exists.mp hexec
  exact ⟨s, run_of_runActs hs, state_lt (run_of_runActs hs)⟩

end CangjieRuntime.Mutex
