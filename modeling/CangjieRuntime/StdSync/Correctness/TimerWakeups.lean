import CangjieRuntime.StdSync.Correctness.TimerHeap
import CangjieRuntime.StdSync.Correctness.TimerCancel

/-!
# `StdSync.Correctness.TimerWakeups` — how long the scheduler sleeps

The scheduler decides how long to wait by the first timer of its heap. Two things make this right while it waits: the
heap is in order, and stays so, because nobody changes the `endTime` of a timer in the heap; and a timer that is added
meanwhile notifies the scheduler.

The first one is about who has a timer: the queue, the heap, a thread that executes or adds it, never two of them
(`held`). Only the thread that executes a timer changes its `endTime`. The timer that the scheduler has just started is
in the heap until it is polled, but its slot does not count any more: it is a hole.

The second one fails before the scheduler waits: when the heap is not empty, it does not look at the queue again inside
the monitor. `Prompt` says that no timer is added in this gap and that the clock hardly moves.
-/

namespace CangjieRuntime.TimerScheduler

open Interleave DHeap Function List Option

variable {T X : Type} {c : Pc X} {ret : Option X} {heap : TimerHeap X} {s : State T X}

/-! ## Who has a timer -/

/-- The timer inside whose task the thread is, up to `reload`. -/
def Pc.runs : Pc X → Option X
  | .idle => none
  | .task timer => some timer
  | .finish timer _ => some timer
  | .reload timer _ => some timer
  | .reloadEnable timer => some timer
  | .add _ ret => ret
  | .addExecute _ ret => ret
  | .addLock _ ret => ret
  | .addQueue _ ret => ret
  | .addUnlock ret => ret
  | .start ret => ret
  | .cancelLoad _ ret => ret
  | .cancelStore _ ret => ret
  | .addCancelCount ret => ret

theorem Pc.back_runs (ret : Option X) : (Pc.back ret).runs = ret := by
  cases ret <;> rfl

theorem Pc.caller_runs (h : c.caller = some ret) : c.runs = ret ∧ c.adds = none := by
  cases c with
  | idle | task timer => exact ⟨some.inj h, rfl⟩
  | _ => exact nomatch h

variable [DecidableEq X]

/-- 1 if it is this timer. -/
def one (timer : X) (o : Option X) : Nat := if o = some timer then 1 else 0

/-- How often the thread has the timer. -/
def Pc.has (timer : X) (c : Pc X) : Nat := one timer c.runs + one timer c.adds

/-- The timers in the heap that have not been started. -/
def State.scheduled (s : State T X) : List X := if s.sched = .pollTop then s.heap.timers.tail else s.heap.timers

/-- How often the timer is stored, or is to be executed by a thread that has not begun. -/
def State.stored (s : State T X) (timer : X) : Nat :=
  s.queue.count timer + s.scheduled.count timer + s.source.timers.count timer + s.spawned.count timer

/-- How many have the timer. -/
def State.held [Fintype T] (s : State T X) (timer : X) : Nat := s.stored timer + tally (Pc.has timer) s.pc

/-! ## The invariant -/

def Pc.inside : Pc X → Bool
  | .addQueue _ _ => true
  | .addUnlock _ => true
  | _ => false

def Sched.inside : Sched X → Bool
  | .testEmpty => true
  | .waitEmpty => true
  | .waitTimed _ _ => true
  | .unlock => true
  | _ => false

/-- What the scheduler relies on; `δ` is the time that may pass between its look at the clock and `wait`. -/
def Sched.Ok (δ : Int) (s : State T X) : Sched X → Prop
  | .dropTop => 0 < s.heap.size
  | .loadNow timer => 0 < s.heap.size ∧ s.heap.data 0 = timer
  | .compare timer _ => 0 < s.heap.size ∧ s.heap.data 0 = timer
  | .execute timer => 0 < s.heap.size ∧ s.heap.data 0 = timer
  | .pollTop => 0 < s.heap.size
  | .lockEmpty => s.heap.size = 0
  | .testEmpty => s.heap.size = 0
  | .waitEmpty => s.heap.size = 0 ∧ s.queue = []
  | .lockTimed timer _ => 0 < s.heap.size ∧ s.heap.data 0 = timer
  | .waitTimed timer _ => 0 < s.heap.size ∧ s.heap.data 0 = timer
  | .waiting wakeUp => s.queue = [] ∧ ∀ timer ∈ s.heap.timers, wakeUp ≤ s.endTime timer + δ
  | _ => True

/-- The heap is in order, but for a timer that was started and not polled yet. -/
def InOrder (s : State T X) : Prop :=
  if s.sched = .pollTop then Hole s.endTime NODE_SIZE s.heap.size 0 s.heap.data
  else Ordered s.endTime NODE_SIZE s.heap.size s.heap.data

structure Inv [Fintype T] (δ : Int) (s : State T X) : Prop where
  running : s.isRunning = false → s.sched = .off
  mutexSched : s.sched.inside = true → s.monitor = some .scheduler
  mutexThread : ∀ t, (s.pc t).inside = true → s.monitor = some (.thread t)
  ok : s.sched.Ok δ s
  order : InOrder s
  source : s.sched ≠ .clear → s.source.size = 0
  held : ∀ timer, s.held timer ≤ (s.created timer).toNat

/-! ## Counting -/

theorem count_cons_one (l : List X) (y x : X) : (y :: l).count x = l.count x + one x (some y) := by
  unfold one
  rw [count_cons]
  by_cases heq : y = x
  · rw [if_pos (beq_iff_eq.mpr heq), if_pos (congrArg some heq)]
  · rw [if_neg (fun h => heq (beq_iff_eq.mp h)), if_neg (fun h => heq (some.inj h))]

theorem count_snoc_one (l : List X) (y x : X) : (l ++ [y]).count x = l.count x + one x (some y) := by
  rw [(perm_append_singleton y l).count_eq x]
  exact count_cons_one l y x

theorem count_erase_one {l : List X} {y : X} (hmem : y ∈ l) (x : X) :
    (l.erase y).count x + one x (some y) = l.count x := by
  rw [(perm_cons_erase hmem).count_eq x]
  exact (count_cons_one _ y x).symm

theorem Pc.has_back (x : X) (ret : Option X) : (Pc.back ret).has x = one x ret := by
  unfold Pc.has
  rw [Pc.back_runs, Pc.back_adds]
  rfl

theorem Pc.has_caller (h : c.caller = some ret) (x : X) : c.has x = one x ret := by
  unfold Pc.has
  rw [(Pc.caller_runs h).1, (Pc.caller_runs h).2]
  rfl

omit [DecidableEq X] in
theorem TimerHeap.timers_cons (hpos : 0 < heap.size) :
    heap.timers = heap.data 0 :: heap.timers.tail := by
  obtain ⟨n, hn⟩ : ∃ n, heap.size = n + 1 := ⟨heap.size - 1, (Nat.succ_pred_eq_of_pos hpos).symm⟩
  unfold TimerHeap.timers items
  rw [hn, range_succ_eq_map]
  rfl

omit [DecidableEq X] in
theorem TimerHeap.mem_tail {i : Nat} (hpos : 0 < i) (hi : i < heap.size) : heap.data i ∈ heap.timers.tail := by
  obtain ⟨n, hn⟩ : ∃ n, heap.size = n + 1 := ⟨heap.size - 1, by omega⟩
  obtain ⟨j, rfl⟩ : ∃ j, i = j + 1 := ⟨i - 1, by omega⟩
  unfold TimerHeap.timers items
  rw [hn, List.range_succ_eq_map, List.map_cons, List.tail_cons, List.map_map]
  exact List.mem_map.mpr ⟨j, List.mem_range.mpr (by omega), rfl⟩

theorem State.scheduled_of_ne (h : s.sched ≠ .pollTop) : s.scheduled = s.heap.timers := if_neg h

theorem State.scheduled_pollTop (h : s.sched = .pollTop) : s.scheduled = s.heap.timers.tail := if_pos h

/-! ## Steps of a thread -/

theorem update_of_notMem {α : Type} {f : X → α} {l : List X} {y : X} (hnot : y ∉ l) (v : α) :
    ∀ x ∈ l, update f y v x = f x := by
  intro x hx
  refine update_of_ne ?_ ..
  rintro rfl
  exact hnot hx

theorem of_update_false {f : X → Bool} {y x : X} (htrue : update f y false x = true) : f x = true := by
  by_cases hx : x = y
  · rw [hx, update_self] at htrue
    cases htrue
  · rwa [update_of_ne hx] at htrue

section Thread

variable [Fintype T] [DecidableEq T] {δ : Int} {s s' : State T X} {t : T} {c₀ c : Pc X} {x timer : X} {ret : Option X}

/-- What a thread gives away, somebody gets. -/
theorem held_move (hpc : s.pc t = c₀) (hmove : s'.pc = update s.pc t c) (x : X) :
    s'.held x + (s.stored x + c₀.has x) = s.held x + (s'.stored x + c.has x) := by
  have htally := tally_update (Pc.has x) s.pc t c
  rw [← hmove, hpc] at htally
  unfold State.held
  omega

omit [DecidableEq T] in
/-- A timer that a thread has is not stored. -/
theorem Inv.not_stored (h : Inv δ s) (hhas : 0 < (s.pc t).has x) : s.stored x = 0 := by
  have hheld := h.held x
  have hle : (s.pc t).has x ≤ tally (Pc.has x) s.pc := le_tally t
  have hbool := Bool.toNat_le (s.created x)
  unfold State.held at hheld
  omega

omit [Fintype T] [DecidableEq T] in
theorem not_scheduled_of_stored (h : s.stored x = 0) : x ∉ s.scheduled := by
  unfold State.stored at h
  exact count_eq_zero.mp (by omega)

omit [Fintype T] [DecidableEq T] in
/-- The order depends on the timers that have not been started. -/
theorem InOrder.congr (h : InOrder s) (hsched : s'.sched = .pollTop ↔ s.sched = .pollTop) (hheap : s'.heap = s.heap)
    (hend : ∀ x ∈ s.scheduled, s'.endTime x = s.endTime x) (hfull : s.sched = .pollTop → 0 < s.heap.size) :
    InOrder s' := by
  unfold InOrder at h ⊢
  rw [hheap]
  by_cases hpoll : s.sched = .pollTop
  · rw [if_pos hpoll] at h
    rw [if_pos (hsched.mpr hpoll)]
    rw [State.scheduled_pollTop hpoll] at hend
    exact h.congr (hfull hpoll) fun i hi hne => hend _ (TimerHeap.mem_tail (Nat.pos_of_ne_zero hne) hi)
  · rw [if_neg hpoll] at h
    rw [if_neg (fun heq => hpoll (hsched.mp heq))]
    rw [State.scheduled_of_ne hpoll] at hend
    intro i hpos hi
    rw [hend _ (mem_items.mpr ⟨i, hi, rfl⟩), hend _ (mem_items.mpr ⟨_, (parent_lt hpos).trans hi, rfl⟩)]
    exact h i hpos hi

omit [Fintype T] [DecidableEq T] in
theorem Sched.Ok.congr (h : s.sched.Ok δ s) (hsched : s'.sched = s.sched) (hheap : s'.heap = s.heap)
    (hqueue : s'.queue = s.queue) (hend : ∀ x ∈ s.scheduled, s'.endTime x = s.endTime x) : s'.sched.Ok δ s' := by
  rw [hsched]
  cases hc : s.sched with
  | waiting w =>
    rw [hc] at h
    rw [State.scheduled_of_ne (by rw [hc]; exact nofun)] at hend
    refine ⟨hqueue.trans h.1, fun x hx => ?_⟩
    rw [hheap] at hx
    rw [hend x hx]
    exact h.2 x hx
  | waitEmpty =>
    rw [hc] at h
    exact ⟨hheap ▸ h.1, hqueue.trans h.2⟩
  | dropTop | loadNow timer | compare timer time | execute timer | pollTop | lockEmpty | testEmpty
    | lockTimed timer time
  | waitTimed timer time =>
    rw [hc] at h
    unfold Sched.Ok
    rw [hheap]
    exact h
  | _ => trivial

omit [Fintype T] [DecidableEq T] [DecidableEq X] in
theorem Sched.Ok.full (h : s.sched.Ok δ s) (hpoll : s.sched = .pollTop) : 0 < s.heap.size := by
  rw [hpoll] at h
  exact h

/-- A step of a thread that leaves the scheduler, the heap and the queue alone. -/
theorem Inv.step (h : Inv δ s) (hpc : s.pc t = c₀) (hmove : s'.pc = update s.pc t c) (hsched : s'.sched = s.sched)
    (hheap : s'.heap = s.heap) (hsource : s'.source = s.source) (hqueue : s'.queue = s.queue)
    (hrunning : s'.isRunning = s.isRunning) (hmonitor : s'.monitor = s.monitor) (hinside : c.inside = c₀.inside)
    (hend : ∀ x ∈ s.scheduled, s'.endTime x = s.endTime x) (hcreated : s'.created = s.created)
    (hspawned : ∀ x, s'.spawned.count x + c.has x ≤ s.spawned.count x + c₀.has x) : Inv δ s' := by
  have hscheduled : s'.scheduled = s.scheduled := by
    unfold State.scheduled
    rw [hsched, hheap]
  refine ⟨by rw [hrunning, hsched]; exact h.running, by rw [hsched, hmonitor]; exact h.mutexSched, ?_,
    h.ok.congr hsched hheap hqueue hend, ?_, by rw [hsched, hsource]; exact h.source, ?_⟩
  · rw [hmonitor, hmove]
    exact (forall_update_iff s.pc fun u p => p.inside = true → s.monitor = some (.thread u)).mpr
      ⟨fun hc => h.mutexThread t (by rw [hpc, ← hinside]; exact hc), fun u _ => h.mutexThread u⟩
  · exact h.order.congr (by rw [hsched]) hheap hend h.ok.full
  · intro x
    have hheld := h.held x
    have heq := held_move hpc hmove x
    have hle := hspawned x
    unfold State.stored at heq
    rw [hqueue, hscheduled, hsource] at heq
    rw [hcreated]
    omega

/-- A move that touches nothing but the thread. -/
theorem Inv.goto (h : Inv δ s) (hpc : s.pc t = c₀) (hinside : c.inside = c₀.inside) (hhas : ∀ x, c.has x ≤ c₀.has x) :
    Inv δ (s.goto t c) :=
  h.step hpc rfl rfl rfl rfl rfl rfl rfl hinside (fun _ _ => rfl) rfl fun x => Nat.add_le_add_left (hhas x) _

/-- The monitor is entered: nobody was inside. -/
theorem addLock_inv (h : Inv δ s) (hpc : s.pc t = .addLock timer ret) (hfree : s.monitor = none) :
    Inv δ ({ s with monitor := some (.thread t) }.goto t (.addQueue timer ret)) := by
  have hnone : ∀ u, (s.pc u).inside ≠ true := by
    intro u hu
    rw [h.mutexThread u hu] at hfree
    exact nomatch hfree
  have hmove : ({ s with monitor := some (.thread t) }.goto t (.addQueue timer ret)).pc =
      update s.pc t (.addQueue timer ret) := rfl
  refine { h with mutexSched := fun hinside => ?_, mutexThread := ?_, held := fun x => ?_ }
  · rw [h.mutexSched hinside] at hfree
    exact nomatch hfree
  · exact (forall_update_iff s.pc fun u p => p.inside = true → some (.thread t) = some (Holder.thread u)).mpr
      ⟨fun _ => rfl, fun u _ hu => absurd hu (hnone u)⟩
  · exact (Nat.add_right_cancel (held_move hpc hmove x)).le.trans (h.held x)

omit [DecidableEq T] in
/-- Two threads are not inside the monitor, nor a thread and the scheduler. -/
theorem Inv.alone (h : Inv δ s) (hinside : (s.pc t).inside = true) :
    s.sched.inside = false ∧ ∀ u, (s.pc u).inside = true → u = t := by
  have hmonitor := h.mutexThread t hinside
  refine ⟨Bool.eq_false_iff.mpr fun hs => ?_, fun u hu => ?_⟩
  · have hboth := (h.mutexSched hs).symm.trans hmonitor
    exact nomatch hboth
  · have hboth := (h.mutexThread u hu).symm.trans hmonitor
    exact Holder.thread.inj (some.inj hboth)

theorem addUnlock_inv (h : Inv δ s) (hpc : s.pc t = .addUnlock ret) :
    Inv δ ({ s with monitor := none }.goto t (.start ret)) := by
  obtain ⟨hsched, hothers⟩ := h.alone (t := t) (by rw [hpc]; rfl)
  have hmove : ({ s with monitor := none }.goto t (.start ret)).pc = update s.pc t (.start ret) := rfl
  refine { h with mutexSched := fun hinside => ?_, mutexThread := ?_, held := fun x => ?_ }
  · exact absurd hinside (Bool.eq_false_iff.mp hsched)
  · exact (forall_update_iff s.pc fun u p => p.inside = true → none = some (Holder.thread u)).mpr
      ⟨nofun, fun u hut hu => absurd (hothers u hu) hut⟩
  · exact (Nat.add_right_cancel (held_move hpc hmove x)).le.trans (h.held x)

omit [DecidableEq X] in
/-- A notified scheduler does not wait; everything else about it stays. -/
theorem Sched.notify_cases (c : Sched X) :
    (∃ w, c = .waiting w ∧ c.notify = .woken) ∨ c.notify = c ∧ ∀ w, c ≠ .waiting w := by
  cases c with
  | waiting w => exact Or.inl ⟨w, rfl, rfl⟩
  | _ => exact Or.inr ⟨rfl, nofun⟩

variable (h : Inv δ s)
include h

/-- The timer goes from the thread to the queue, and the scheduler is notified. -/
theorem addQueue_inv (hpc : s.pc t = .addQueue timer ret) :
    Inv δ ({ s with queue := s.queue ++ [timer], sched := s.sched.notify }.goto t (.addUnlock ret)) := by
  obtain ⟨hsched, hothers⟩ := h.alone (t := t) (by rw [hpc]; rfl)
  generalize hs' : ({ s with queue := s.queue ++ [timer], sched := s.sched.notify } : State T X).goto t
    (.addUnlock ret) = s'
  have hmove : s'.pc = update s.pc t (.addUnlock ret) := hs' ▸ rfl
  have hheap : s'.heap = s.heap := hs' ▸ rfl
  have hsource : s'.source = s.source := hs' ▸ rfl
  have hqueue : s'.queue = s.queue ++ [timer] := hs' ▸ rfl
  have hnotify : s'.sched = s.sched.notify := hs' ▸ rfl
  have hpoll : s'.sched = .pollTop ↔ s.sched = .pollTop := by
    rw [hnotify]
    rcases s.sched.notify_cases with ⟨w, hw, heq⟩ | ⟨heq, -⟩
    · rw [hw]
      exact iff_of_false nofun nofun
    · rw [heq]
  have hscheduled : s'.scheduled = s.scheduled := by
    unfold State.scheduled
    rw [hheap]
    exact if_congr hpoll rfl rfl
  refine ⟨?_, ?_, ?_, ?_, ?_, ?_, ?_⟩
  · intro hrun
    have hoff : s.sched = .off := h.running (by rw [← hrun]; exact hs' ▸ rfl)
    rw [hnotify, hoff]
    rfl
  · intro hinside
    rw [hnotify] at hinside
    rcases s.sched.notify_cases with ⟨w, hw, heq⟩ | ⟨heq, -⟩
    · rw [hw] at hinside
      exact nomatch hinside
    · rw [heq, hsched] at hinside
      exact nomatch hinside
  · have hmonitor : s'.monitor = s.monitor := hs' ▸ rfl
    rw [hmove, hmonitor]
    exact (forall_update_iff s.pc fun u p => p.inside = true → s.monitor = some (.thread u)).mpr
      ⟨fun _ => h.mutexThread t (by rw [hpc]; rfl), fun u _ => h.mutexThread u⟩
  · have hok := h.ok
    rw [hnotify]
    cases hc : s.sched with
    | waiting w => trivial
    | waitEmpty =>
      rw [hc] at hsched
      exact nomatch hsched
    | dropTop | loadNow timer | compare timer time | execute timer | pollTop | lockEmpty | testEmpty
      | lockTimed timer time
    | waitTimed timer time =>
      rw [hc] at hok
      unfold Sched.notify Sched.Ok
      rw [hheap]
      exact hok
    | _ => trivial
  · exact h.order.congr hpoll hheap (fun _ _ => hs' ▸ rfl) h.ok.full
  · rw [hsource]
    intro hne
    refine h.source fun hclear => hne ?_
    rw [hnotify, hclear]
    rfl
  · intro x
    have hheld := h.held x
    have heq := held_move hpc hmove x
    have hcreated : s'.created = s.created := hs' ▸ rfl
    have hspawned : s'.spawned = s.spawned := hs' ▸ rfl
    have hgone : (Pc.addQueue timer ret).has x = (Pc.addUnlock ret).has x + one x (some timer) := rfl
    unfold State.stored at heq
    rw [hscheduled, hsource, hspawned, hqueue, count_snoc_one] at heq
    rw [hcreated]
    omega

omit [DecidableEq T] in
/-- The thread that executes a timer changes its `endTime` and sets `isEnabled`: the timer is not in the heap. -/
theorem Inv.notMem_scheduled (hpc : s.pc t = c) (hcaller : c.has timer = one timer (some timer)) :
    timer ∉ s.scheduled := by
  have hone : one timer (some timer) = 1 := if_pos rfl
  exact not_scheduled_of_stored (h.not_stored (t := t) (by rw [hpc]; omega))

theorem reload_inv {duration : Int} (hpc : s.pc t = .reload timer duration) :
    Inv δ ((s.setEndTime timer (s.now + duration)).goto t (.reloadEnable timer)) :=
  h.step hpc rfl rfl rfl rfl rfl rfl rfl rfl (update_of_notMem (h.notMem_scheduled hpc rfl) _) rfl fun _ => le_refl _

omit [DecidableEq T] in
/-- A new timer is nowhere yet. -/
theorem Inv.held_fresh (hfresh : s.created timer ≠ true) : s.held timer = 0 := by
  have hheld := h.held timer
  rw [Bool.eq_false_iff.mpr hfresh] at hheld
  exact Nat.le_zero.mp hheld

omit [DecidableEq T] in
theorem Inv.notMem_fresh (hfresh : s.created timer ≠ true) : timer ∉ s.scheduled := by
  have hzero := h.held_fresh hfresh
  exact not_scheduled_of_stored (by unfold State.held at hzero; omega)

theorem create_inv {delay : Int} (hcaller : (s.pc t).caller = some ret)
    (hfresh : s.created timer ≠ true) : Inv δ ((s.create timer delay).goto t (.add timer ret)) := by
  have hzero := h.held_fresh hfresh
  have hend : ∀ x ∈ s.scheduled, ((s.create timer delay).goto t (.add timer ret)).endTime x = s.endTime x :=
    update_of_notMem (h.notMem_fresh hfresh) _
  have hmove : ((s.create timer delay).goto t (.add timer ret)).pc = update s.pc t (.add timer ret) := rfl
  refine ⟨h.running, h.mutexSched, ?_, h.ok.congr rfl rfl rfl hend,
    h.order.congr Iff.rfl rfl hend h.ok.full, h.source, fun x => ?_⟩
  · exact (forall_update_iff s.pc fun u p => p.inside = true → s.monitor = some (.thread u)).mpr
      ⟨nofun, fun u _ => h.mutexThread u⟩
  · have hheld := h.held x
    have heq := held_move rfl hmove x
    have hbefore := Pc.has_caller hcaller x
    have hafter : (Pc.add timer ret).has x = one x ret + one x (some timer) := rfl
    have hstored : ((s.create timer delay).goto t (.add timer ret)).stored x = s.stored x := rfl
    show _ ≤ (update s.created timer true x).toNat
    by_cases hx : x = timer
    · subst hx
      rw [update_self]
      have hone : one x (some x) = 1 := if_pos rfl
      show _ ≤ 1
      omega
    · rw [update_of_ne hx]
      have hone : one x (some timer) = 0 := if_neg fun heq => hx (some.inj heq).symm
      omega

theorem stepStart_inv (hpc : s.pc t = .start ret) : Inv δ (stepStart s t ret) := by
  have hhas : ∀ x, (Pc.back ret).has x ≤ (Pc.start ret).has x := fun x => (Pc.has_back x ret).le
  have hout : (Pc.back ret).inside = false := by cases ret <;> rfl
  unfold stepStart
  split
  · exact h.goto hpc hout hhas
  · rename_i hrun
    have hoff := h.running (Bool.eq_false_iff.mpr hrun)
    have hgoto := h.goto hpc hout hhas
    have hscheduled : ({ s with isRunning := true, sched := .consume }.goto t (.back ret)).scheduled =
        (s.goto t (.back ret)).scheduled := by
      have hne : (s.goto t (.back ret)).sched ≠ .pollTop := by
        show s.sched ≠ .pollTop
        rw [hoff]
        exact nofun
      rw [State.scheduled_of_ne hne]
      exact if_neg nofun
    refine ⟨nofun, nofun, hgoto.mutexThread, trivial, ?_, fun _ => h.source (by rw [hoff]; exact nofun), fun x => ?_⟩
    · refine h.order.congr (iff_of_false nofun ?_) rfl (fun _ _ => rfl) h.ok.full
      rw [hoff]
      exact nofun
    · have hheld := hgoto.held x
      unfold State.held State.stored at hheld ⊢
      rw [hscheduled]
      exact hheld

theorem begin_inv (hpc : s.pc t = .idle) (hmem : timer ∈ s.spawned) :
    Inv δ ({ s with spawned := s.spawned.erase timer }.goto t (.task timer)) := by
  refine h.step hpc rfl rfl rfl rfl rfl rfl rfl rfl (fun _ _ => rfl) rfl fun x => ?_
  have hcount := count_erase_one hmem x
  have hhas : (Pc.task timer).has x = one x (some timer) := rfl
  show (s.spawned.erase timer).count x + _ ≤ _
  omega

theorem addExecute_inv (hpc : s.pc t = .addExecute timer ret) :
    Inv δ ((s.spawn timer).goto t (.back ret)) := by
  refine h.step hpc rfl rfl rfl rfl rfl rfl rfl (by cases ret <;> rfl) (fun _ _ => rfl) rfl fun x => ?_
  have hcount := count_snoc_one s.spawned timer x
  have hbefore : (Pc.addExecute timer ret).has x = one x ret + one x (some timer) := rfl
  have hafter := Pc.has_back x ret
  show (s.spawned ++ [timer]).count x + _ ≤ _
  omega

theorem nextThread_inv (hpc : s.pc t = c) (hstep : nextThread s t c = some s') : Inv δ s' := by
  have hback : ∀ ret : Option X, (Pc.back ret).inside = false := by
    intro ret
    cases ret <;> rfl
  cases c with
  | idle | task timer => cases hstep
  | finish timer duration =>
    cases hstep
    cases duration with
    | none =>
      exact h.step hpc rfl rfl rfl rfl rfl rfl rfl rfl (fun _ _ => rfl) rfl fun x =>
        Nat.add_le_add_left (Nat.zero_le _) _
    | some d => exact h.step hpc rfl rfl rfl rfl rfl rfl rfl rfl (fun _ _ => rfl) rfl fun x => le_refl _
  | reload timer duration => cases hstep; exact reload_inv h hpc
  | reloadEnable timer =>
    cases hstep
    refine h.step hpc rfl rfl rfl rfl rfl rfl rfl rfl (fun _ _ => rfl) rfl fun x => Nat.add_le_add_left ?_ _
    exact (Nat.add_comm (one x none) (one x (some timer))).le
  | add timer ret => cases hstep; split <;> exact h.goto hpc rfl fun x => le_refl _
  | addExecute timer ret => cases hstep; exact addExecute_inv h hpc
  | addLock timer ret =>
    obtain ⟨hfree, hstep⟩ := ite_none_right_eq_some.mp hstep
    cases hstep
    exact addLock_inv h hpc hfree
  | addQueue timer ret => cases hstep; exact addQueue_inv h hpc
  | addUnlock ret => cases hstep; exact addUnlock_inv h hpc
  | start ret => cases hstep; exact stepStart_inv h hpc
  | cancelLoad timer ret =>
    cases hstep
    split
    · exact h.goto hpc rfl fun x => le_refl _
    · exact h.goto hpc (hback ret) fun x => (Pc.has_back x ret).le
  | cancelStore timer ret =>
    cases hstep
    exact h.step hpc rfl rfl rfl rfl rfl rfl rfl rfl (fun _ _ => rfl) rfl fun x => le_refl _
  | addCancelCount ret =>
    cases hstep
    exact h.step hpc rfl rfl rfl rfl rfl rfl rfl (hback ret) (fun _ _ => rfl) rfl fun x =>
      Nat.add_le_add_left (Pc.has_back x ret).le _

theorem actThread_inv {a : Act X} (hstep : actThread s t a = some s') : Inv δ s' := by
  cases a with
  | create timer delay =>
    simp only [actThread] at hstep
    split at hstep
    · rename_i ret hcaller
      obtain ⟨hfresh, hstep⟩ := ite_none_left_eq_some.mp hstep
      cases hstep
      exact create_inv h hcaller hfresh
    · cases hstep
  | cancel timer =>
    simp only [actThread] at hstep
    split at hstep
    · rename_i ret hcaller
      obtain ⟨-, hstep⟩ := ite_none_right_eq_some.mp hstep
      cases hstep
      refine h.goto rfl ?_ fun x => (Pc.has_caller hcaller x).ge
      cases hpc : s.pc t with
      | addQueue other ret' | addUnlock ret' =>
        rw [hpc] at hcaller
        cases hcaller
      | _ => rfl
    · cases hstep
  | begin timer =>
    obtain ⟨⟨hpc, hmem⟩, hstep⟩ := ite_none_right_eq_some.mp hstep
    cases hstep
    exact begin_inv h hpc hmem
  | finish duration =>
    simp only [actThread] at hstep
    split at hstep
    · rename_i timer hpc
      cases hstep
      exact h.goto hpc rfl fun x => le_refl _
    · cases hstep
  | next => exact nextThread_inv h rfl hstep

end Thread

/-! ## Steps of the scheduler -/

section Scheduler

variable [Fintype T] {δ : Int} {zeroValue : X} {s s' : State T X} {c₀ c : Sched X}

variable (h : Inv δ s)
include h

theorem Inv.ordered (hne : s.sched ≠ .pollTop) : Ordered s.endTime NODE_SIZE s.heap.size s.heap.data := by
  have horder := h.order
  unfold InOrder at horder
  rwa [if_neg hne] at horder

omit [DecidableEq X] [Fintype T] h in
theorem Sched.Ok.at (hok : s.sched.Ok δ s) (hsched : s.sched = c) : c.Ok δ s := hsched ▸ hok

/-- A step after which the heap is in order, and no timer is had more often than before. -/
theorem Inv.sched (hpc : s'.pc = s.pc) (hcreated : s'.created = s.created) (hrunning : s'.isRunning = s.isRunning)
    (hon : s.sched ≠ .off) (hmutexSched : s'.sched.inside = true → s'.monitor = some .scheduler)
    (hmutexThread : ∀ t, (s.pc t).inside = true → s'.monitor = some (.thread t)) (hok : s'.sched.Ok δ s')
    (horder : InOrder s') (hsource : s'.sched ≠ .clear → s'.source.size = 0) (hstored : ∀ x, s'.stored x ≤ s.stored x) :
    Inv δ s' := by
  refine ⟨fun hrun => ?_, hmutexSched, fun t => ?_, hok, horder, hsource, fun x => ?_⟩
  · rw [hrunning] at hrun
    exact absurd (h.running hrun) hon
  · rw [hpc]
    exact hmutexThread t
  · have hheld := h.held x
    have hle := hstored x
    unfold State.held at hheld ⊢
    rw [hpc, hcreated]
    omega

/-- A step away from the polled slot: the heap stays in order, and no timer is held more often. -/
theorem Inv.schedOrdered (hsched : s.sched = c₀) (hon : c₀ ≠ .off) (hpoll : c₀ ≠ .pollTop)
    (hpoll' : s'.sched ≠ .pollTop) (hpc : s'.pc = s.pc) (hcreated : s'.created = s.created)
    (hrunning : s'.isRunning = s.isRunning) (hmutexSched : s'.sched.inside = true → s'.monitor = some .scheduler)
    (hmutexThread : ∀ t, (s.pc t).inside = true → s'.monitor = some (.thread t)) (hok : s'.sched.Ok δ s')
    (hordered : Ordered s.endTime NODE_SIZE s.heap.size s.heap.data →
      Ordered s'.endTime NODE_SIZE s'.heap.size s'.heap.data)
    (hsource : s'.sched ≠ .clear → s'.source.size = 0)
    (hcount : ∀ x, s'.queue.count x + s'.heap.timers.count x + s'.source.timers.count x + s'.spawned.count x ≤
      s.queue.count x + s.heap.timers.count x + s.source.timers.count x + s.spawned.count x) : Inv δ s' := by
  subst hsched
  refine h.sched hpc hcreated hrunning hon hmutexSched hmutexThread hok ?_ hsource fun x => ?_
  · unfold InOrder
    rw [if_neg hpoll']
    exact hordered (h.ordered hpoll)
  · unfold State.stored
    rw [State.scheduled_of_ne hpoll, State.scheduled_of_ne hpoll']
    exact hcount x

/-- A move of the scheduler that touches nothing else. -/
theorem Inv.gotoSched (hsched : s.sched = c₀) (hon : c₀ ≠ .off) (hinside : c.inside = c₀.inside)
    (hpoll : c₀ ≠ .pollTop) (hpoll' : c ≠ .pollTop) (hclear : c₀ ≠ .clear) (hok : c.Ok δ { s with sched := c }) :
    Inv δ { s with sched := c } :=
  h.schedOrdered hsched hon hpoll hpoll' rfl rfl rfl (fun hin => h.mutexSched (by rw [hsched, ← hinside]; exact hin))
    h.mutexThread hok id (fun _ => h.source (hsched ▸ hclear)) fun _ => Nat.le_refl _

/-- A move that enters the monitor. -/
theorem Inv.enterSched (hsched : s.sched = c₀) (henter : s.enterSched c = some s') (hon : c₀ ≠ .off)
    (hpoll : c₀ ≠ .pollTop) (hpoll' : c ≠ .pollTop) (hclear : c₀ ≠ .clear)
    (hok : c.Ok δ { s with monitor := some .scheduler, sched := c }) : Inv δ s' := by
  obtain ⟨hfree, henter⟩ := ite_none_right_eq_some.mp henter
  cases henter
  refine h.schedOrdered hsched hon hpoll hpoll' rfl rfl rfl (fun _ => rfl) (fun t ht => ?_) hok id
    (fun _ => h.source (hsched ▸ hclear)) fun _ => Nat.le_refl _
  rw [h.mutexThread t ht] at hfree
  exact nomatch hfree

/-- A move that leaves the monitor. -/
theorem Inv.leaveSched (hsched : s.sched = c₀) (hinside : c₀.inside = true) (hout : c.inside = false)
    (hpoll' : c ≠ .pollTop) (hok : c.Ok δ { s with monitor := none, sched := c }) :
    Inv δ { s with monitor := none, sched := c } := by
  have hne : ∀ c₁ : Sched X, c₁.inside = false → c₀ ≠ c₁ := by
    rintro c₁ hc₁ rfl
    rw [hc₁] at hinside
    exact nomatch hinside
  refine h.schedOrdered hsched (hne _ rfl) (hne _ rfl) hpoll' rfl rfl rfl (fun hin => ?_) (fun t ht => ?_) hok id
    (fun _ => h.source (hsched ▸ hne _ rfl)) fun _ => Nat.le_refl _
  · exact absurd hin (Bool.eq_false_iff.mp hout)
  · have hboth := (h.mutexSched (hsched ▸ hinside)).symm.trans (h.mutexThread t ht)
    exact nomatch hboth

/-- A timer moves from the queue to the heap. -/
theorem stepConsume_inv (hsched : s.sched = .consume) : Inv δ (stepConsume s) := by
  unfold stepConsume
  split
  · exact h.gotoSched hsched nofun rfl nofun nofun nofun trivial
  · rename_i timer rest hqueue
    obtain ⟨-, hperm, hordered⟩ := s.heap.add_spec s.endTime timer
    refine h.schedOrdered hsched nofun nofun (hsched ▸ nofun) rfl rfl rfl h.mutexSched h.mutexThread ?_ hordered
      (fun _ => h.source (hsched ▸ nofun)) fun x => ?_
    · show s.sched.Ok δ _
      rw [hsched]
      trivial
    · rw [hperm.count_eq x, hqueue, count_cons_one, count_cons_one]
      dsimp only
      omega

theorem stepSchedule_inv (hsched : s.sched = .schedule) : Inv δ (stepSchedule s) := by
  unfold stepSchedule
  split_ifs with hempty
  · exact h.gotoSched hsched nofun rfl nofun nofun nofun hempty
  · exact h.gotoSched hsched nofun rfl nofun nofun nofun ⟨Nat.pos_of_ne_zero hempty, rfl⟩
  · exact h.gotoSched hsched nofun rfl nofun nofun nofun (Nat.pos_of_ne_zero hempty)

/-- The first timer leaves the heap. -/
theorem dropTop_inv (hsched : s.sched = .dropTop) :
    Inv δ
      { s with
        heap := s.heap.poll zeroValue s.endTime
        cancelCount := s.cancelCount - 1
        sched := .loadCount } := by
  have hpos : 0 < s.heap.size := h.ok.at hsched
  obtain ⟨-, hperm, hordered⟩ := s.heap.poll_spec zeroValue s.endTime hpos
  refine h.schedOrdered hsched nofun nofun nofun rfl rfl rfl nofun h.mutexThread trivial
    (fun hbefore => hordered (hbefore.hole 0 hpos)) (fun _ => h.source (hsched ▸ nofun)) fun x => ?_
  have hcount := hperm.count_eq x
  rw [count_cons_one] at hcount
  dsimp only
  omega

/-- The first timer is started, and its slot becomes a hole. -/
theorem execute_inv {timer : X} (hsched : s.sched = .execute timer) :
    Inv δ { s.spawn timer with sched := .pollTop } := by
  obtain ⟨hpos, htop⟩ : 0 < s.heap.size ∧ s.heap.data 0 = timer := h.ok.at hsched
  refine h.sched rfl rfl rfl (hsched ▸ nofun) nofun h.mutexThread hpos ?_ (fun _ => h.source (hsched ▸ nofun)) ?_
  · unfold InOrder
    rw [if_pos rfl]
    exact (h.ordered (hsched ▸ nofun)).hole 0 hpos
  · intro x
    have hafter : ({ s.spawn timer with sched := .pollTop } : State T X).scheduled = s.heap.timers.tail := if_pos rfl
    have hcount := congrArg (count x) (TimerHeap.timers_cons hpos)
    rw [count_cons_one, htop] at hcount
    unfold State.stored
    rw [hafter, State.scheduled_of_ne (hsched ▸ nofun)]
    show s.queue.count x + _ + s.source.timers.count x + (s.spawned ++ [timer]).count x ≤ _
    rw [count_snoc_one]
    omega

/-- The hole is filled. -/
theorem pollTop_inv (hsched : s.sched = .pollTop) :
    Inv δ { s with heap := s.heap.poll zeroValue s.endTime, sched := .loadCount } := by
  have hpos := h.ok.full hsched
  have hhole := h.order
  unfold InOrder at hhole
  rw [if_pos hsched] at hhole
  obtain ⟨-, hperm, hordered⟩ := s.heap.poll_spec zeroValue s.endTime hpos
  refine h.sched rfl rfl rfl (hsched ▸ nofun) nofun h.mutexThread trivial ?_ (fun _ => h.source (hsched ▸ nofun)) ?_
  · unfold InOrder
    rw [if_neg nofun]
    exact hordered hhole
  · intro x
    have hafter : ({ s with heap := s.heap.poll zeroValue s.endTime, sched := .loadCount } : State T X).scheduled =
        (s.heap.poll zeroValue s.endTime).timers := if_neg nofun
    rw [TimerHeap.timers_cons hpos] at hperm
    have hcount := (hperm.cons_inv).count_eq x
    unfold State.stored
    rw [hafter, State.scheduled_pollTop hsched, ← hcount]

theorem stepLoadCount_inv (hsched : s.sched = .loadCount) : Inv δ (stepLoadCount s) := by
  unfold stepLoadCount
  split <;> exact h.gotoSched hsched nofun rfl nofun nofun nofun trivial

/-- All timers move from the heap to the local variable. -/
theorem storeCount_inv (hsched : s.sched = .storeCount) :
    Inv δ { s with cancelCount := 0, source := s.heap, heap := .new zeroValue, sched := .clear } := by
  refine h.schedOrdered hsched nofun nofun nofun rfl rfl rfl nofun h.mutexThread trivial
    (fun _ i _ hi => absurd hi (Nat.not_lt_zero i)) (fun hno => absurd rfl hno) fun x => ?_
  show s.queue.count x + 0 + s.heap.timers.count x + s.spawned.count x ≤ _
  omega

/-- An enabled timer moves back to the heap, the others are dropped. -/
theorem stepClear_inv (hsched : s.sched = .clear) : Inv δ (stepClear zeroValue s) := by
  unfold stepClear
  split
  · rename_i hempty
    exact h.schedOrdered hsched nofun nofun nofun rfl rfl rfl nofun h.mutexThread trivial id (fun _ => hempty)
      fun _ => Nat.le_refl _
  · rename_i hfull
    obtain ⟨-, hpoll, -⟩ := s.source.poll_spec zeroValue s.endTime (Nat.pos_of_ne_zero hfull)
    obtain ⟨-, hadd, hordered⟩ := s.heap.add_spec s.endTime (s.source.data 0)
    refine h.schedOrdered hsched nofun nofun (hsched ▸ nofun) rfl rfl rfl h.mutexSched h.mutexThread ?_
      (fun hbefore => ?_)
      (fun hno => absurd hsched hno) fun x => ?_
    · show s.sched.Ok δ _
      rw [hsched]
      trivial
    · dsimp only
      split
      · exact hordered hbefore
      · exact hbefore
    · have hpolled := hpoll.count_eq x
      have hadded := hadd.count_eq x
      rw [count_cons_one] at hpolled hadded
      dsimp only
      split <;> omega

omit h

omit [DecidableEq X] in
/-- The wake-up time, if the clock has gone on by `δ` at most since the scheduler looked at it. -/
theorem wakeUp_le {now time δ : Int} {endTime : X → Int} {heap : TimerHeap X} (hnow : now ≤ time + δ)
    (hordered : Ordered endTime NODE_SIZE heap.size heap.data) {x : X} (hx : x ∈ heap.timers) :
    now + min (endTime (heap.data 0) - time) MAX_TIMEOUT_NS ≤ endTime x + δ := by
  have hmin : min (endTime (heap.data 0) - time) MAX_TIMEOUT_NS ≤ endTime (heap.data 0) - time := min_le_left _ _
  have htop := TimerHeap.top_le hordered hx
  omega

end Scheduler

/-! ## All steps -/

/-- The scheduler has found the queue empty, and as things stand it goes on to wait for the first timer of the heap. -/
def State.heads (s : State T X) : Bool :=
  match s.sched with
  | .schedule => 0 < s.heap.size ∧ s.isEnabled (s.heap.data 0) ∧ s.now < s.endTime (s.heap.data 0)
  | .loadNow timer => s.now < s.endTime timer
  | .compare timer time => time < s.endTime timer
  | .lockTimed .. => true
  | .waitTimed .. => true
  | _ => false

/-- The time at which it has looked at the clock. -/
def Sched.looked : Sched X → Option Int
  | .compare _ time => some time
  | .lockTimed _ time => some time
  | .waitTimed _ time => some time
  | _ => none

/-- The thread is about to add a timer to the queue. -/
def Pc.queues : Pc X → Bool
  | .addQueue .. => true
  | _ => false

/-- While the scheduler goes from its look at the queue to the wait for the first timer of the heap, no timer is added,
    and the clock goes on by `δ` at most after the scheduler has looked at it. -/
def Prompt (δ : Nat) (s : State T X) : Event T X → Prop
  | .thread t a => s.heads = true → ¬ (a = .next ∧ (s.pc t).queues = true)
  | .tick n => s.heads = true → ∀ time ∈ s.sched.looked, s.now + n ≤ time + δ
  | _ => True

instance (δ : Nat) (s : State T X) : (e : Event T X) → Decidable (Prompt δ s e)
  | .thread t a => inferInstanceAs (Decidable (s.heads = true → ¬ (a = .next ∧ (s.pc t).queues = true)))
  | .tick n => inferInstanceAs (Decidable (s.heads = true → ∀ time ∈ s.sched.looked, s.now + n ≤ time + δ))
  | .scheduler => inferInstanceAs (Decidable True)
  | .timeout => inferInstanceAs (Decidable True)

/-- So the queue is still empty when the scheduler begins to wait. -/
def Quiet (δ : Nat) (s : State T X) : Prop :=
  s.heads = true → s.queue = [] ∧ ∀ time ∈ s.sched.looked, s.now ≤ time + δ

/-- A step of another thread leaves the timers of the heap alone, but for `cancel`. -/
structure LeavesHeap (s s' : State T X) : Prop where
  heap : s'.heap = s.heap
  endTime : ∀ x ∈ s.scheduled, s'.endTime x = s.endTime x
  isEnabled : ∀ x ∈ s.scheduled, s'.isEnabled x = true → s.isEnabled x = true
  now : s.now ≤ s'.now

section Gap

variable [Fintype T] {d : Int} {δ : Nat} {zeroValue : X} {s s' : State T X}

omit [DecidableEq X] [Fintype T] in
theorem Quiet.of_not (hheads : s.heads = false) : Quiet δ s := fun hyes => absurd hyes (Bool.eq_false_iff.mp hheads)

omit [DecidableEq X] [Fintype T] in
theorem heads_of_out (hout : s.sched = .consume ∨ s.sched = .woken) : s.heads = false := by
  unfold State.heads
  rcases hout with hsched | hsched
  · rw [hsched]
  · rw [hsched]

omit [Fintype T] in
/-- A step away from the scheduler's thread, after which no more time has gone and the queue is still empty. -/
theorem Quiet.congr (hquiet : Quiet δ s) (hok : s.sched.Ok d s) (hsched : s'.sched = s.sched) (hleaves : LeavesHeap s s')
    (hqueue : s.heads = true → s'.queue = s.queue)
    (hclock : s.heads = true → ∀ time ∈ s.sched.looked, s'.now ≤ time + δ) : Quiet δ s' := by
  intro hheads
  -- A timer that is enabled and not due after the step was so before it.
  have hbefore : s.heads = true := by
    have hnow := hleaves.now
    have hmem (hne : s.sched ≠ .pollTop) (hpos : 0 < s.heap.size) : s.heap.data 0 ∈ s.scheduled := by
      rw [State.scheduled_of_ne hne]
      exact mem_items.mpr ⟨0, hpos, rfl⟩
    unfold State.heads at hheads ⊢
    rw [hsched, hleaves.heap] at hheads
    cases hc : s.sched with
    | loadNow timer | compare timer time =>
      rw [hc] at hheads hok
      obtain ⟨hpos, rfl⟩ := hok
      have htime := of_decide_eq_true hheads
      rw [hleaves.endTime _ (hmem (by rw [hc]; exact nofun) hpos)] at htime
      exact decide_eq_true (by omega)
    | schedule =>
      rw [hc] at hheads
      obtain ⟨hpos, henabled, htime⟩ := of_decide_eq_true hheads
      have htop := hmem (by rw [hc]; exact nofun) hpos
      rw [hleaves.endTime _ htop] at htime
      exact decide_eq_true ⟨hpos, hleaves.isEnabled _ htop henabled, by omega⟩
    | lockTimed | waitTimed => rfl
    | _ =>
      rw [hc] at hheads
      cases hheads
  refine ⟨(hqueue hbefore).trans (hquiet hbefore).1, fun time htime => ?_⟩
  rw [hsched] at htime
  exact hclock hbefore time htime

variable [DecidableEq T] {t : T} {c : Pc X}

/-- What a thread changes in the eyes of the scheduler: it may add to the queue, and notify or start the scheduler. -/
theorem nextThread_frame (h : Inv d s) (hpc : s.pc t = c) (hstep : nextThread s t c = some s') :
    s'.now = s.now ∧ LeavesHeap s s' ∧
      (s'.sched = s.sched ∧ (s'.queue = s.queue ∨ c.queues = true) ∨ s'.sched = .consume ∨ s'.sched = .woken) := by
  cases c with
  | idle | task timer => cases hstep
  | reload timer duration =>
    cases hstep
    have hnot := h.notMem_scheduled hpc rfl
    exact ⟨rfl, ⟨rfl, update_of_notMem hnot _, fun _ _ => id, le_refl _⟩, Or.inl ⟨rfl, Or.inl rfl⟩⟩
  | reloadEnable timer =>
    cases hstep
    have hsame := update_of_notMem (f := s.isEnabled) (h.notMem_scheduled hpc rfl) true
    exact ⟨rfl, ⟨rfl, fun _ _ => rfl, fun x hx => (hsame x hx ▸ ·), le_refl _⟩, Or.inl ⟨rfl, Or.inl rfl⟩⟩
  | cancelStore timer ret | finish timer duration =>
    cases hstep
    exact ⟨rfl, ⟨rfl, fun _ _ => rfl, fun _ _ => of_update_false, le_refl _⟩, Or.inl ⟨rfl, Or.inl rfl⟩⟩
  | addLock timer ret =>
    obtain ⟨-, hstep⟩ := ite_none_right_eq_some.mp hstep
    cases hstep
    exact ⟨rfl, ⟨rfl, fun _ _ => rfl, fun _ _ => id, le_refl _⟩, Or.inl ⟨rfl, Or.inl rfl⟩⟩
  | addQueue timer ret =>
    cases hstep
    refine ⟨rfl, ⟨rfl, fun _ _ => rfl, fun _ _ => id, le_refl _⟩, ?_⟩
    rcases s.sched.notify_cases with ⟨w, -, heq⟩ | ⟨heq, -⟩
    · exact Or.inr (Or.inr heq)
    · exact Or.inl ⟨heq, Or.inr rfl⟩
  | start ret =>
    cases hstep
    unfold stepStart
    split
    · exact ⟨rfl, ⟨rfl, fun _ _ => rfl, fun _ _ => id, le_refl _⟩, Or.inl ⟨rfl, Or.inl rfl⟩⟩
    · exact ⟨rfl, ⟨rfl, fun _ _ => rfl, fun _ _ => id, le_refl _⟩, Or.inr (Or.inl rfl)⟩
  | _ =>
    cases hstep
    exact ⟨rfl, ⟨rfl, fun _ _ => rfl, fun _ _ => id, le_refl _⟩, Or.inl ⟨rfl, Or.inl rfl⟩⟩

theorem actThread_quiet (h : Inv d s) (hquiet : Quiet δ s) {a : Act X} (hprompt : Prompt δ s (.thread t a))
    (hstep : actThread s t a = some s') : Quiet δ s' := by
  have hcall (hsched : s'.sched = s.sched) (hnow : s'.now = s.now) (hleaves : LeavesHeap s s')
      (hqueue : s.heads = true → s'.queue = s.queue) : Quiet δ s' :=
    hquiet.congr h.ok hsched hleaves hqueue fun hheads => by rw [hnow]; exact (hquiet hheads).2
  cases a with
  | create timer delay =>
    simp only [actThread] at hstep
    split at hstep
    · obtain ⟨hfresh, hstep⟩ := ite_none_left_eq_some.mp hstep
      cases hstep
      have hnot := h.notMem_fresh hfresh
      have hsame := update_of_notMem (f := s.isEnabled) hnot true
      exact hcall rfl rfl ⟨rfl, update_of_notMem hnot _, fun x hx => (hsame x hx ▸ ·), le_refl _⟩ fun _ => rfl
    · cases hstep
  | cancel timer =>
    simp only [actThread] at hstep
    split at hstep
    · obtain ⟨-, hstep⟩ := ite_none_right_eq_some.mp hstep
      cases hstep
      exact hcall rfl rfl ⟨rfl, fun _ _ => rfl, fun _ _ => id, le_refl _⟩ fun _ => rfl
    · cases hstep
  | begin timer =>
    obtain ⟨-, hstep⟩ := ite_none_right_eq_some.mp hstep
    cases hstep
    exact hcall rfl rfl ⟨rfl, fun _ _ => rfl, fun _ _ => id, le_refl _⟩ fun _ => rfl
  | finish duration =>
    simp only [actThread] at hstep
    split at hstep
    · cases hstep
      exact hcall rfl rfl ⟨rfl, fun _ _ => rfl, fun _ _ => id, le_refl _⟩ fun _ => rfl
    · cases hstep
  | next =>
    obtain ⟨hnow, hleaves, ⟨hsched, hqueue⟩ | hout⟩ := nextThread_frame h rfl hstep
    · refine hcall hsched hnow hleaves fun hheads => hqueue.resolve_right fun hadds => ?_
      exact hprompt hheads ⟨rfl, hadds⟩
    · exact .of_not (heads_of_out hout)

omit [DecidableEq X] [DecidableEq T] [Fintype T] in
/-- The gap begins when the queue is found empty. -/
theorem stepConsume_quiet (hsched : s.sched = .consume) : Quiet δ (stepConsume s) := by
  unfold stepConsume
  split
  · rename_i hqueue
    exact fun _ => ⟨hqueue, nofun⟩
  · exact .of_not (heads_of_out (.inl hsched))

omit [DecidableEq X] [DecidableEq T] [Fintype T] in
theorem stepSchedule_quiet (hquiet : Quiet δ s) (hsched : s.sched = .schedule) : Quiet δ (stepSchedule s) := by
  unfold stepSchedule
  split_ifs with hempty henabled
  · exact .of_not rfl
  · intro hdue
    have hheads : s.heads = true := by
      unfold State.heads
      rw [hsched]
      exact decide_eq_true ⟨Nat.pos_of_ne_zero hempty, henabled, of_decide_eq_true hdue⟩
    exact ⟨(hquiet hheads).1, nofun⟩
  · exact .of_not rfl

omit [DecidableEq T] [Fintype T] in
/-- The scheduler reads the clock in the gap and changes nothing else that matters. -/
theorem nextSched_quiet (hquiet : Quiet δ s) (hstep : nextSched zeroValue s = some s') : Quiet δ s' := by
  unfold nextSched at hstep
  cases hsched : s.sched with
  | off | waiting w => simp only [hsched, reduceCtorEq] at hstep
  | consume =>
    rw [hsched] at hstep
    cases hstep
    exact stepConsume_quiet hsched
  | schedule =>
    rw [hsched] at hstep
    cases hstep
    exact stepSchedule_quiet hquiet hsched
  | loadNow timer =>
    rw [hsched] at hstep
    cases hstep
    intro hheads
    have hbefore : s.heads = true := by
      unfold State.heads
      rw [hsched]
      exact hheads
    refine ⟨(hquiet hbefore).1, ?_⟩
    rintro time ⟨⟩
    exact Int.le_add_of_nonneg_right (Int.natCast_nonneg δ)
  | compare timer time =>
    rw [hsched] at hstep
    cases hstep
    split_ifs with hdue
    · exact .of_not rfl
    · have hbefore : s.heads = true := by
        unfold State.heads
        rw [hsched]
        exact decide_eq_true (by omega)
      have hafter := hquiet hbefore
      rw [hsched] at hafter
      exact fun _ => hafter
  | lockTimed timer time =>
    rw [hsched] at hstep
    obtain ⟨-, hstep⟩ := ite_none_right_eq_some.mp hstep
    cases hstep
    have hafter := hquiet (by unfold State.heads; rw [hsched])
    rw [hsched] at hafter
    exact fun _ => hafter
  | lockEmpty | woken =>
    rw [hsched] at hstep
    obtain ⟨-, hstep⟩ := ite_none_right_eq_some.mp hstep
    cases hstep
    exact .of_not rfl
  | testEmpty =>
    rw [hsched] at hstep
    cases hstep
    split <;> exact .of_not rfl
  | loadCount =>
    rw [hsched] at hstep
    cases hstep
    unfold stepLoadCount
    split <;> exact .of_not rfl
  | clear =>
    rw [hsched] at hstep
    cases hstep
    unfold stepClear
    split
    · exact .of_not rfl
    · refine .of_not ?_
      unfold State.heads
      rw [hsched]
  | _ =>
    rw [hsched] at hstep
    cases hstep
    exact .of_not rfl

theorem act_quiet (h : Inv d s) (hquiet : Quiet δ s) {e : Event T X} (hprompt : Prompt δ s e)
    (hstep : act zeroValue s e = some s') : Quiet δ s' := by
  cases e with
  | thread t a => exact actThread_quiet h hquiet hprompt hstep
  | scheduler => exact nextSched_quiet hquiet hstep
  | timeout =>
    obtain ⟨w, -, -, rfl⟩ := timeout_cases hstep
    exact .of_not (heads_of_out (.inr rfl))
  | tick n =>
    cases hstep
    have hnow : s.now ≤ s.now + n := Int.le_add_of_nonneg_right (Int.natCast_nonneg n)
    exact hquiet.congr h.ok rfl ⟨rfl, fun _ _ => rfl, fun _ _ => id, hnow⟩ (fun _ => rfl) hprompt

end Gap

section Steps

variable [Fintype T] {δ : Nat} {zeroValue : X} {s s' : State T X}

theorem nextSched_inv (h : Inv δ s) (hquiet : Quiet δ s) (hstep : nextSched zeroValue s = some s') :
    Inv δ s' := by
  have hok := h.ok
  unfold nextSched at hstep
  cases hsched : s.sched with
  | off | waiting w => simp only [hsched, reduceCtorEq] at hstep
  | consume =>
    rw [hsched] at hstep
    cases hstep
    exact stepConsume_inv h hsched
  | schedule =>
    rw [hsched] at hstep
    cases hstep
    exact stepSchedule_inv h hsched
  | dropTop =>
    rw [hsched] at hstep
    cases hstep
    exact dropTop_inv h hsched
  | loadNow timer =>
    rw [hsched] at hok hstep
    cases hstep
    exact h.gotoSched hsched nofun rfl nofun nofun nofun hok
  | compare timer time =>
    rw [hsched] at hok hstep
    cases hstep
    split <;> exact h.gotoSched hsched nofun rfl nofun nofun nofun hok
  | execute timer =>
    rw [hsched] at hstep
    cases hstep
    exact execute_inv h hsched
  | pollTop =>
    rw [hsched] at hstep
    cases hstep
    exact pollTop_inv h hsched
  | lockEmpty | lockTimed timer time =>
    rw [hsched] at hok hstep
    exact h.enterSched hsched hstep nofun nofun nofun nofun hok
  | testEmpty =>
    rw [hsched] at hok hstep
    cases hstep
    split
    · rename_i hempty
      exact h.gotoSched hsched nofun rfl nofun nofun nofun ⟨hok, isEmpty_iff.mp hempty⟩
    · exact h.gotoSched hsched nofun rfl nofun nofun nofun trivial
  | waitEmpty =>
    rw [hsched] at hok hstep
    cases hstep
    refine h.leaveSched hsched rfl rfl nofun ⟨hok.2, fun x hx => ?_⟩
    obtain ⟨i, hi, -⟩ := mem_items.mp hx
    exact absurd hi (hok.1 ▸ Nat.not_lt_zero i)
  | waitTimed timer time =>
    obtain ⟨hqueue, hnow⟩ := hquiet (by unfold State.heads; rw [hsched])
    rw [hsched] at hok hstep hnow
    cases hstep
    refine h.leaveSched hsched rfl rfl nofun ⟨hqueue, fun x hx => ?_⟩
    rw [← hok.2]
    exact wakeUp_le (hnow time rfl) (h.ordered (by rw [hsched]; exact nofun)) hx
  | woken =>
    rw [hsched] at hstep
    exact h.enterSched hsched hstep nofun nofun nofun nofun trivial
  | unlock =>
    rw [hsched] at hstep
    cases hstep
    exact h.leaveSched hsched rfl rfl nofun trivial
  | loadCount =>
    rw [hsched] at hstep
    cases hstep
    exact stepLoadCount_inv h hsched
  | storeCount =>
    rw [hsched] at hstep
    cases hstep
    exact storeCount_inv h hsched
  | clear =>
    rw [hsched] at hstep
    cases hstep
    exact stepClear_inv h hsched

variable [DecidableEq T]

theorem act_inv (h : Inv δ s) (hquiet : Quiet δ s) {e : Event T X} (hstep : act zeroValue s e = some s') :
    Inv δ s' := by
  cases e with
  | thread t a => exact actThread_inv h hstep
  | scheduler => exact nextSched_inv h hquiet hstep
  | timeout =>
    obtain ⟨w, hsched, -, rfl⟩ := timeout_cases hstep
    exact h.gotoSched hsched nofun rfl nofun nofun nofun trivial
  | tick n =>
    cases hstep
    exact ⟨h.running, h.mutexSched, h.mutexThread, h.ok.congr rfl rfl rfl fun _ _ => rfl,
      h.order.congr Iff.rfl rfl (fun _ _ => rfl) h.ok.full, h.source, h.held⟩

omit [DecidableEq T] in
theorem inv_init {δ : Int} (now : Int) : Inv δ (init zeroValue now : State T X) where
  running _ := rfl
  mutexSched := nofun
  mutexThread := nofun
  ok := trivial
  order := by
    unfold InOrder
    rw [if_neg nofun]
    exact fun i _ hi => absurd hi (Nat.not_lt_zero i)
  source _ := rfl
  held timer := by
    have hnone : tally (Pc.has timer) (init zeroValue now : State T X).pc = 0 := tally_eq_zero.mpr fun _ => rfl
    have hstored : (init zeroValue now : State T X).stored timer = 0 := rfl
    unfold State.held
    rw [hnone, hstored]
    exact Nat.zero_le _

/-- **The scheduler does not sleep past a timer**: while it is blocked in `wait`, the queue is empty, and it wakes up at
    most `δ` after the time of every timer in the heap, if no timer is added between its look at the queue and its wait
    for a timer, and the clock goes on by `δ` at most between its look at the clock and that wait. -/
theorem scheduler_wakes_in_time {now wakeUp : Int} (hrun : Run (act zeroValue) (Prompt δ) (init zeroValue now) s)
    (hwait : s.sched = .waiting wakeUp) : s.queue = [] ∧ ∀ timer ∈ s.heap.timers, wakeUp ≤ s.endTime timer + δ := by
  have hstep {s s' : State T X} {e : Event T X} (hi : Inv δ s ∧ Quiet δ s) (hprompt : Prompt δ s e)
      (h : act zeroValue s e = some s') : Inv δ s' ∧ Quiet δ s' :=
    ⟨act_inv hi.1 hi.2 h, act_quiet hi.1 hi.2 hprompt h⟩
  have hinv := run_invariant hrun ⟨inv_init now, .of_not rfl⟩ fun _ _ _ hi hprompt h => hstep hi hprompt h
  have hok := hinv.1.ok
  rw [hwait] at hok
  exact hok

end Steps

/-! ## A timer that is added too late to be seen -/

/-- A thread creates a timer. -/
def creates (timer : Bool) (delay : Int) : List (Event Unit Bool) :=
  .thread () (.create timer delay) :: List.replicate 5 (.thread () .next)

/-- Two timers, of 100 ns and of 10 ns, are added before the scheduler looks; it waits for the second one. -/
def promptRun : List (Event Unit Bool) :=
  creates false 100 ++ creates true 10 ++ List.replicate 8 .scheduler

theorem scheduler_wakes_in_time_two :
    ∃ s : State Unit Bool, Run (act false) (Prompt 0) (init false 0) s ∧ s.sched = .waiting 10 ∧
      (s.queue = [] ∧ ∀ timer ∈ s.heap.timers, 10 ≤ s.endTime timer + 0) ∧ s.heap.timers = [true, false] := by
  have hexec : (runActs (act false) (Prompt 0) (init false 0 : State Unit Bool) promptRun).map
      (fun s => (s.sched, s.heap.timers)) = some (.waiting 10, [true, false]) := by
    decide +kernel
  obtain ⟨s, hs, hvalues⟩ := Option.map_eq_some_iff.mp hexec
  obtain ⟨hsched, htimers⟩ := Prod.mk.inj hvalues
  have hrun := run_of_runActs hs
  exact ⟨s, hrun, hsched, scheduler_wakes_in_time hrun hsched, htimers⟩

/-- The scheduler looks at the queue and at the heap, and decides to wait 100 ns; then a timer of 10 ns is added, and
    its notification goes to nobody. -/
def lateRun : List (Event Unit Bool) :=
  creates false 100 ++ List.replicate 5 .scheduler ++ creates true 10 ++ List.replicate 2 .scheduler

/-- The scheduler is blocked until 100 with a timer in the queue that is due at 10, and no other thread has anything to
    do. -/
theorem scheduler_oversleeps :
    ∃ s : State Unit Bool, Run (act false) Any (init false 0) s ∧ s.now = 0 ∧ s.pc () = .idle ∧ s.sched = .waiting 100 ∧
      s.queue = [true] ∧ s.endTime true = 10 := by
  have hexec : (runActs (act false) Any (init false 0 : State Unit Bool) lateRun).map
      (fun s => (s.now, s.pc (), s.sched, s.queue, s.endTime true)) = some (0, .idle, .waiting 100, [true], 10) := by
    decide +kernel
  obtain ⟨s, hs, hvalues⟩ := Option.map_eq_some_iff.mp hexec
  obtain ⟨hnow, hvalues⟩ := Prod.mk.inj hvalues
  obtain ⟨hpc, hvalues⟩ := Prod.mk.inj hvalues
  obtain ⟨hsched, hvalues⟩ := Prod.mk.inj hvalues
  obtain ⟨hqueue, hend⟩ := Prod.mk.inj hvalues
  exact ⟨s, run_of_runActs hs, hnow, hpc, hsched, hqueue, hend⟩

end CangjieRuntime.TimerScheduler
