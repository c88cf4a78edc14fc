import CangjieRuntime.Sync.Sema

/-!
# `Sync.Correctness.SemaWakeups` — the semaphore loses no permit and no wake-up

Every permit that is free while somebody waits is *owed a wake-up*: for each there is a thread between its addition
and its wake-up, or a woken thread that has not finished its new attempt (`Inv.owed`). Three steps could break this,
and each is covered by the other half of the protocol.

* A release that reads `nwait = 0` drops its wake-up: then nobody is linked, nor about to be, since a waiter counts
  itself before it looks for a permit.
* A thread links itself: it saw no permit after it had counted itself, so every permit there is now was added by
  a release that has yet to read `nwait`, or that has read the waiter's own mark and is waiting for the mutex. Hence
  the invariant speaks of a thread that is *about to* link itself too.
* A woken thread gives up: then there was no permit.
-/

namespace CangjieRuntime.Sema

open Interleave Function List

variable {T : Type}

/-! ## What a control point stands for -/

namespace Pc

/-- Is on the count of waiters without being in the list. -/
def counted : Pc T → Nat
  | .tryLoad (.callback _) => 1
  | .tryCas (.callback _) _ => 1
  | .pushLink _ => 1
  | .pushUncount _ => 1
  | .wakeUncount _ => 1
  | _ => 0

/-- Has a wake-up to give, or has been given one. -/
def pending (c : Pc T) : Nat := (c.releasing || c.woken).toNat

def holdsMutex : Pc T → Bool
  | .tryLoad (.callback _) => true
  | .tryCas (.callback _) _ => true
  | .pushCount _ => true
  | .pushLink _ => true
  | .pushUncount _ => true
  | .parkUnlock _ => true
  | .park _ => true
  | .wakeRemove => true
  | .wakeUncount _ => true
  | .wakeReady _ => true
  | .wakeUnlock => true
  | _ => false

/-- In the list, or just out of it. -/
def linked : Pc T → Bool
  | .park _ => true
  | .asleep _ => true
  | _ => false

/-- The waiter a thread has taken off the list and not made ready. -/
def carries : Pc T → Option T
  | .wakeUncount waiter => some waiter
  | .wakeReady waiter => some waiter
  | _ => none

/-- About to link itself, having seen no permit. -/
def linking : Pc T → Bool
  | .pushLink _ => true
  | _ => false

/-- What a compare-and-swap knows about the value it has loaded. -/
def Ok : Pc T → Prop
  | .tryCas _ semVal => semVal ≠ 0
  | .releaseCas oldValue => oldValue ≠ UINT32_MAX
  | _ => True

theorem counted_of_linking {c : Pc T} (h : c.linking = true) : c.counted = 1 := by
  cases c <;> first | rfl | cases h

theorem holdsMutex_of_carries {c : Pc T} {w : T} (h : c.carries = some w) : c.holdsMutex = true := by
  cases c <;> first | rfl | cases h

end Pc

/-- **The invariant**, of a semaphore that started with `start` permits. -/
structure Inv [Fintype T] (start : Nat) (s : State T) : Prop where
  permits : start + s.increments = s.semaVal + s.decrements
  bound : s.semaVal ≤ UINT32_MAX
  ok : ∀ t, (s.pc t).Ok
  mutex : ∀ t, (s.pc t).holdsMutex = true ↔ s.mutex = some t
  count : s.nwait = s.queue.length + tally Pc.counted s.pc
  /-- Free permits are owed a wake-up while a thread is linked or about to be. -/
  owed : (s.queue ≠ [] ∨ ∃ t, (s.pc t).linking = true) → s.semaVal ≤ tally Pc.pending s.pc
  nodup : s.queue.Nodup
  queued : ∀ t ∈ s.queue, (s.pc t).linked = true
  carried : ∀ t w, (s.pc t).carries = some w → (∃ head, s.pc w = .asleep head) ∧ w ∉ s.queue

variable [Fintype T]

theorem inv_semaNew {start : Nat} (h : start ≤ UINT32_MAX) : Inv start (semaNew start : State T) where
  permits := rfl
  bound := h
  ok _ := trivial
  mutex t := by simp [semaNew, Pc.holdsMutex]
  count := by
    have hzero : tally Pc.counted (semaNew start : State T).pc = 0 := tally_eq_zero.mpr fun _ => rfl
    rw [hzero]
    rfl
  owed h := by simp [semaNew, Pc.linking] at h
  nodup := nodup_nil
  queued t ht := absurd ht not_mem_nil
  carried t w h := by cases h

/-! ## Reading the invariant -/

section Read

variable {start : Nat} {s : State T} {t : T}

variable (hi : Inv start s)
include hi

/-- The mutex has one holder. -/
theorem Inv.holder_unique {u : T} (ht : (s.pc t).holdsMutex = true)
    (hu : (s.pc u).holdsMutex = true) : u = t := by
  have h := (hi.mutex t).mp ht
  rw [(hi.mutex u).mp hu] at h
  exact Option.some.inj h

/-- A thread that is on the count keeps it above zero. -/
theorem Inv.nwait_pos (h : (s.pc t).counted = 1) : 0 < s.nwait := by
  have hle : (s.pc t).counted ≤ tally Pc.counted s.pc := le_tally t
  have hcount := hi.count
  omega

/-- With `nwait = 0` nobody is linked or about to be. -/
theorem Inv.nobody (hzero : s.nwait = 0) :
    ¬ (s.queue ≠ [] ∨ ∃ u, (s.pc u).linking = true) := by
  have hcount := hi.count
  rintro (hne | ⟨u, hu⟩)
  · have hpos := length_pos_iff.mpr hne
    omega
  · have hpos := hi.nwait_pos (Pc.counted_of_linking hu)
    omega

theorem Inv.not_queued (h : (s.pc t).linked = false) : t ∉ s.queue := by
  intro ht
  rw [hi.queued t ht] at h
  cases h

/-- While a thread is about to remove, the count is the length of the list. -/
theorem Inv.nwait_eq (hpc : s.pc t = .wakeRemove) : s.nwait = s.queue.length := by
  have hzero : tally Pc.counted s.pc = 0 := by
    rw [tally_eq_zero]
    intro u
    by_contra hne
    -- whoever is on the count without being linked has the mutex
    have hholds : (s.pc u).holdsMutex = true := by
      cases hu : s.pc u with
      | tryLoad site | tryCas site v => cases site <;> first | rfl | (rw [hu] at hne; exact absurd rfl hne)
      | _ => first | rfl | (rw [hu] at hne; exact absurd rfl hne)
    have hut := hi.holder_unique (t := t) (by rw [hpc]; rfl) hholds
    rw [hut, hpc] at hne
    exact hne rfl
  rw [hi.count, hzero]
  rfl

end Read

/-! ## Moving one thread -/

variable [DecidableEq T]

section Move

variable {start : Nat} {s : State T} {t : T} {old c : Pc T}

variable (hi : Inv start s) (hpc : s.pc t = old)
include hi

theorem Inv.mutex_lock (hfree : s.mutex = none) (h : c.holdsMutex = true) :
    ∀ u, (update s.pc t c u).holdsMutex = true ↔ some t = some u := by
  refine (forall_update_iff s.pc fun u p => p.holdsMutex = true ↔
    some t = some u).mpr ⟨iff_of_true h rfl, fun u hu => ?_⟩
  rw [hi.mutex u, hfree]
  exact iff_of_false nofun fun heq => hu (Option.some.inj heq).symm

theorem Inv.ok_move (hc : c.Ok) : ∀ u, (update s.pc t c u).Ok :=
  (forall_update_iff s.pc fun _ p => p.Ok).mpr ⟨hc, fun u _ => hi.ok u⟩

omit [Fintype T] hi in
/-- Who links after a move that does not begin to link. -/
theorem linking_before (hc : c.linking = false) (h : ∃ u, (update s.pc t c u).linking = true) :
    ∃ u, (s.pc u).linking = true := by
  obtain ⟨u, hu⟩ := h
  by_cases hut : u = t
  · subst hut
    rw [update_self, hc] at hu
    cases hu
  · rw [update_of_ne hut] at hu
    exact ⟨u, hu⟩

/-- Whoever is in the list is linked, if the moving thread leaves the list or stays linked. -/
theorem Inv.queued_move {queue : List T} (hsub : ∀ u ∈ queue, u ≠ t → u ∈ s.queue)
    (hc : t ∈ queue → c.linked = true) : ∀ u ∈ queue, (update s.pc t c u).linked = true :=
  (forall_update_iff s.pc fun u p => u ∈ queue → p.linked = true).mpr ⟨hc, fun u hut hu => hi.queued u (hsub u hu hut)⟩

include hpc

/-- A move inside or outside the critical section. -/
theorem Inv.mutex_same (h : c.holdsMutex = old.holdsMutex) :
    ∀ u, (update s.pc t c u).holdsMutex = true ↔ s.mutex = some u :=
  (forall_update_iff s.pc fun u p => p.holdsMutex = true ↔ s.mutex = some u).mpr
    ⟨by rw [h, ← hpc]; exact hi.mutex t, fun u _ => hi.mutex u⟩

theorem Inv.mutex_unlock (hold : old.holdsMutex = true) (h : c.holdsMutex = false) :
    ∀ u, (update s.pc t c u).holdsMutex = true ↔ none = some u := by
  have howner := (hi.mutex t).mp (hpc ▸ hold)
  refine (forall_update_iff s.pc fun u p => p.holdsMutex = true ↔ none = some u).mpr ⟨by simp [h], fun u hu => ?_⟩
  rw [hi.mutex u, howner]
  exact iff_of_false (fun heq => hu (Option.some.inj heq).symm) nofun

/-- A move that does not begin to link keeps what is owed, as far as the permits and the thread's own wake-up go. -/
theorem Inv.owed_move {semaVal : Nat} (hc : c.linking = false) (hle : semaVal + old.pending ≤ s.semaVal + c.pending)
    (h : s.queue ≠ [] ∨ ∃ u, (update s.pc t c u).linking = true) : semaVal ≤ tally Pc.pending (update s.pc t c) := by
  have howed := hi.owed (h.imp id (linking_before hc))
  have hmove := tally_update Pc.pending s.pc t c
  rw [hpc] at hmove
  omega

/-- **A plain move**: the list stays as it is, and neither control point has to do with it. -/
theorem Inv.move {s' : State T} (hpc' : s'.pc = update s.pc t c)
    (hqueue : s'.queue = s.queue) (hold : old.linked = false) (hcarry : c.carries = none)
    (hpermits : start + s'.increments = s'.semaVal + s'.decrements) (hbound : s'.semaVal ≤ UINT32_MAX) (hok : c.Ok)
    (hmutex : ∀ u, (update s.pc t c u).holdsMutex = true ↔ s'.mutex = some u)
    (hcount : s'.nwait + old.counted = s.nwait + c.counted)
    (howed : (s.queue ≠ [] ∨ ∃ u, (update s.pc t c u).linking = true) →
      s'.semaVal ≤ tally Pc.pending (update s.pc t c)) : Inv start s' := by
  have hmove := tally_update Pc.counted s.pc t c
  have hbefore := hi.count
  rw [hpc] at hmove
  have hold' : (s.pc t).linked = false := hpc ▸ hold
  refine ⟨hpermits, hbound, ?_, ?_, ?_, ?_, ?_, ?_, ?_⟩ <;> simp only [hpc', hqueue]
  · exact hi.ok_move hok
  · exact hmutex
  · omega
  · exact howed
  · exact hi.nodup
  · exact hi.queued_move (fun _ hu _ => hu) fun ht => absurd ht (hi.not_queued hold')
  · refine (forall_update_iff s.pc fun _ p => ∀ w, p.carries = some w → (∃ head, update s.pc t c w = .asleep head) ∧
      w ∉ s.queue).mpr
      ⟨by simp [hcarry], fun u _ w huw => ?_⟩
    obtain ⟨⟨head, hw⟩, hnot⟩ := hi.carried u w huw
    have hwt : w ≠ t := by
      rintro rfl
      rw [hw] at hold'
      cases hold'
    exact ⟨⟨head, by rw [update_of_ne hwt]; exact hw⟩, hnot⟩

/-- A plain move that touches no shared field. -/
theorem Inv.goto (hold : old.linked = false) (hcarry : c.carries = none)
    (hmutex : c.holdsMutex = old.holdsMutex) (hcount : c.counted = old.counted)
    (hlink : c.linking = false) (hpending : old.pending ≤ c.pending) (hok : c.Ok) : Inv start (s.goto t c) := by
  refine hi.move hpc rfl rfl hold hcarry hi.permits hi.bound hok (hi.mutex_same hpc hmutex) ?_ ?_
  · rw [hcount]; rfl
  · exact hi.owed_move hpc hlink (Nat.add_le_add_left hpending _)

/-- **A move of the holder of the mutex**, with which the list changes. Nobody else carries a waiter. -/
theorem Inv.relink {queue : List T} {nwait : Nat} {mutex : Option T} (hold : old.holdsMutex = true) (hok : c.Ok)
    (hmutex : ∀ u, (update s.pc t c u).holdsMutex = true ↔ mutex = some u)
    (hcount : nwait + s.queue.length + old.counted = s.nwait + queue.length + c.counted)
    (hpending : old.pending = c.pending)
    (hbefore : queue ≠ [] ∨ (∃ u, (update s.pc t c u).linking = true) → s.queue ≠ [] ∨ ∃ u, (s.pc u).linking = true)
    (hnodup : queue.Nodup) (hsub : ∀ u ∈ queue, u ≠ t → u ∈ s.queue) (hlinked : t ∈ queue → c.linked = true)
    (hcarry : ∀ w, c.carries = some w → (∃ head, s.pc w = .asleep head) ∧ w ∉ queue) :
    Inv start ({ s with queue, nwait, mutex }.goto t c) := by
  have hcounted := tally_update Pc.counted s.pc t c
  have howed := tally_update Pc.pending s.pc t c
  have hlength := hi.count
  rw [hpc] at hcounted howed
  refine ⟨hi.permits, hi.bound, hi.ok_move hok, hmutex, ?_, ?_, hnodup, hi.queued_move hsub hlinked, ?_⟩
  · show nwait = queue.length + tally Pc.counted (update s.pc t c)
    omega
  · intro h
    have hle := hi.owed (hbefore h)
    show s.semaVal ≤ tally Pc.pending (update s.pc t c)
    omega
  · refine (forall_update_iff s.pc fun _ p => ∀ w, p.carries = some w → (∃ head, update s.pc t c w = .asleep head) ∧
      w ∉ queue).mpr
      ⟨fun w hw => ?_, fun u hut w huw => ?_⟩
    · obtain ⟨⟨head, hasleep⟩, hnot⟩ := hcarry w hw
      have hwt : w ≠ t := by
        rintro rfl
        rw [← hpc, hasleep] at hold
        cases hold
      exact ⟨⟨head, by rw [update_of_ne hwt]; exact hasleep⟩, hnot⟩
    · exact absurd (hi.holder_unique (hpc ▸ hold) (Pc.holdsMutex_of_carries huw)) hut

end Move

/-! ## Plain steps -/

section Steps

variable {start : Nat} {s : State T} {t : T} {site : Site} {head : Bool} {ret : Ret} {old c : Pc T} {waiter : T}
  {s' : State T}

variable (hi : Inv start s)
include hi

theorem stepTryLoad_inv (hpc : s.pc t = .tryLoad site) :
    Inv start (stepTryLoad s t site) := by
  unfold stepTryLoad
  split_ifs with hzero
  · -- no permit is free, so none is owed a wake-up
    refine hi.move hpc rfl rfl rfl (by cases site <;> rfl) hi.permits hi.bound (by cases site <;> trivial)
      (hi.mutex_same hpc (by cases site <;> rfl)) (by cases site <;> rfl) ?_
    intro _
    show s.semaVal ≤ _
    rw [hzero]
    exact Nat.zero_le _
  · exact hi.goto hpc rfl rfl (by cases site <;> rfl) (by cases site <;> rfl) rfl
      (by cases site <;> exact Nat.le_refl _) hzero

theorem stepTryCas_inv {semVal : Nat} {spurious : Bool}
    (hpc : s.pc t = .tryCas site semVal) : Inv start (stepTryCas s t site semVal spurious) := by
  unfold stepTryCas
  split_ifs with hcas
  · have hpos : semVal ≠ 0 := by
      have hok := hi.ok t
      rw [hpc] at hok
      exact hok
    have hval := hcas.1
    have hpermits := hi.permits
    have hbound := hi.bound
    refine hi.move hpc rfl rfl rfl (by cases site <;> rfl) ?_ ?_ (by cases site <;> trivial)
      (hi.mutex_same hpc (by cases site <;> rfl)) (by cases site <;> rfl) ?_
    · show start + s.increments = semVal - 1 + (s.decrements + 1)
      omega
    · show semVal - 1 ≤ UINT32_MAX
      omega
    · -- a permit is gone, and at most one wake-up with it
      apply hi.owed_move hpc (by cases site <;> rfl)
      show semVal - 1 + Pc.pending (.tryCas site semVal : Pc T) ≤ s.semaVal + Pc.pending site.acquired
      have hone : Pc.pending (.tryCas site semVal : Pc T) ≤ 1 := Bool.toNat_le _
      omega
  · exact hi.goto hpc rfl rfl (by cases site <;> rfl) (by cases site <;> rfl) rfl
      (by cases site <;> exact Nat.le_refl _) trivial

theorem parkLock_inv (hpc : s.pc t = .parkLock head) (hfree : s.mutex = none) :
    Inv start ({ s with mutex := some t }.goto t (.pushCount head)) :=
  hi.move hpc rfl rfl rfl rfl hi.permits hi.bound trivial (hi.mutex_lock hfree rfl) rfl
    (hi.owed_move hpc rfl (Nat.le_refl _))

theorem stepPushCount_inv (hpc : s.pc t = .pushCount head) :
    Inv start (stepPushCount s t head) := by
  unfold stepPushCount
  split_ifs with hmax
  · exact hi.goto hpc rfl rfl rfl rfl rfl (Nat.le_refl _) trivial
  · exact hi.move hpc rfl rfl rfl rfl hi.permits hi.bound trivial (hi.mutex_same hpc rfl) rfl
      (hi.owed_move hpc rfl (Nat.le_refl _))

theorem pushUncount_inv (hpc : s.pc t = .pushUncount ret) :
    Inv start ({ s with nwait := s.nwait - 1 }.goto t (.parkUnlock ret)) := by
  have hpos : 0 < s.nwait := hi.nwait_pos (by rw [hpc]; rfl)
  exact hi.move hpc rfl rfl rfl rfl hi.permits hi.bound trivial (hi.mutex_same hpc rfl) (Nat.sub_add_cancel hpos)
    (hi.owed_move hpc rfl (Nat.le_refl _))

theorem parkUnlock_inv (hpc : s.pc t = .parkUnlock ret) :
    Inv start ({ s with mutex := none }.goto t (.idle ret)) :=
  hi.move hpc rfl rfl rfl rfl hi.permits hi.bound trivial (hi.mutex_unlock hpc rfl rfl) rfl
    (hi.owed_move hpc rfl (Nat.le_refl _))

theorem stepReleaseLoad_inv (hpc : s.pc t = .releaseLoad) : Inv start (stepReleaseLoad s t) := by
  unfold stepReleaseLoad
  split_ifs with hmax
  · exact hi.goto hpc rfl rfl rfl rfl rfl (Nat.le_refl _) trivial
  · exact hi.goto hpc rfl rfl rfl rfl rfl (Nat.le_refl _) hmax

/-- The new permit and the wake-up it is owed come together. -/
theorem stepReleaseCas_inv {oldValue : Nat} (hpc : s.pc t = .releaseCas oldValue) :
    Inv start (stepReleaseCas s t oldValue) := by
  unfold stepReleaseCas
  split_ifs with hcas
  · have hlt : oldValue ≠ UINT32_MAX := by
      have hok := hi.ok t
      rw [hpc] at hok
      exact hok
    have hpermits := hi.permits
    have hbound := hi.bound
    refine hi.move hpc rfl rfl rfl rfl ?_ ?_ trivial (hi.mutex_same hpc rfl) rfl
      (hi.owed_move hpc rfl (hcas ▸ Nat.le_refl _))
    · show start + (s.increments + 1) = oldValue + 1 + s.decrements
      omega
    · show oldValue + 1 ≤ UINT32_MAX
      omega
  · exact hi.goto hpc rfl rfl rfl rfl rfl (Nat.le_refl _) trivial

/-- A wake-up that is dropped because `nwait = 0` was owed to nobody. -/
theorem Inv.drop (hpc : s.pc t = old) (hzero : s.nwait = 0) (hold : old.linked = false)
    (hcarry : c.carries = none) (hmutex : c.holdsMutex = old.holdsMutex) (hcount : c.counted = old.counted)
    (hlink : c.linking = false) (hok : c.Ok) : Inv start (s.goto t c) := by
  refine hi.move hpc rfl rfl hold hcarry hi.permits hi.bound hok (hi.mutex_same hpc hmutex) (by rw [hcount]; rfl) ?_
  exact fun h => absurd (h.imp id (linking_before hlink)) (hi.nobody hzero)

theorem releaseRead_inv (hpc : s.pc t = .releaseRead) :
    Inv start (s.goto t (if s.nwait = 0 then .idle .success else .wakeLock)) := by
  split_ifs with hzero
  · exact hi.drop hpc hzero rfl rfl rfl rfl rfl trivial
  · exact hi.goto hpc rfl rfl rfl rfl rfl (Nat.le_refl _) trivial

theorem wakeLock_inv (hpc : s.pc t = .wakeLock) (hfree : s.mutex = none) :
    Inv start ({ s with mutex := some t }.goto t .wakeRemove) :=
  hi.move hpc rfl rfl rfl rfl hi.permits hi.bound trivial (hi.mutex_lock hfree rfl) rfl
    (hi.owed_move hpc rfl (Nat.le_refl _))

theorem wakeUnlock_inv (hpc : s.pc t = .wakeUnlock) :
    Inv start ({ s with mutex := none }.goto t (.idle .success)) :=
  hi.move hpc rfl rfl rfl rfl hi.permits hi.bound trivial (hi.mutex_unlock hpc rfl rfl) rfl
    (hi.owed_move hpc rfl (Nat.le_refl _))

/-! ## Steps on the list -/

/-- Linking itself: what is owed was so already when the thread had only decided to. -/
theorem stepPushLink_inv {head mallocFails : Bool} (hpc : s.pc t = .pushLink head) :
    Inv start (stepPushLink s t head mallocFails) := by
  unfold stepPushLink
  by_cases hfail : mallocFails
  · rw [if_pos hfail]
    exact hi.goto hpc rfl rfl rfl rfl rfl (Nat.le_refl _) trivial
  rw [if_neg hfail]
  have hnot : t ∉ s.queue := hi.not_queued (by rw [hpc]; rfl)
  -- at either end, the list has the new thread and the old ones
  have hperm : (if head then t :: s.queue else s.queue ++ [t]).Perm (t :: s.queue) := by
    cases head
    · exact perm_append_singleton t s.queue
    · exact List.Perm.refl _
  refine hi.relink hpc rfl trivial (hi.mutex_same hpc rfl) ?_ rfl (fun _ => .inr ⟨t, by rw [hpc]; rfl⟩) ?_ ?_
    (fun _ => rfl) nofun
  · rw [hperm.length_eq]
    exact Nat.add_assoc ..
  · exact hperm.nodup_iff.mpr (nodup_cons.mpr ⟨hnot, hi.nodup⟩)
  · intro u hu hut
    exact (mem_cons.mp (hperm.mem_iff.mp hu)).resolve_left hut

/-- A linked thread is switched off. -/
theorem park_inv (hpc : s.pc t = .park head) :
    Inv start ({ s with mutex := none }.goto t (.asleep head)) :=
  hi.relink hpc rfl trivial (hi.mutex_unlock hpc rfl rfl) rfl rfl (Or.imp id (linking_before rfl)) hi.nodup
    (fun _ hu _ => hu)
    (fun _ => rfl) nofun

/-- The first waiter is taken off the list. -/
theorem wakeRemove_inv {rest : List T} (hpc : s.pc t = .wakeRemove)
    (hqueue : s.queue = waiter :: rest) : Inv start ({ s with queue := rest }.goto t (.wakeUncount waiter)) := by
  have hnodup := hi.nodup
  rw [hqueue, nodup_cons] at hnodup
  have hrest : ∀ u ∈ rest, u ∈ s.queue := by
    rw [hqueue]
    exact fun u hu => mem_cons_of_mem _ hu
  -- nobody else is in a critical section, so the waiter is switched off
  have hasleep : ∃ head, s.pc waiter = .asleep head := by
    have hwaiter := hi.queued waiter (by rw [hqueue]; exact mem_cons_self)
    generalize hw : s.pc waiter = p at hwaiter
    cases p with
    | asleep head => exact ⟨head, rfl⟩
    | park head =>
      obtain rfl := hi.holder_unique (t := t) (by rw [hpc]; rfl) (u := waiter) (by rw [hw]; rfl)
      rw [hpc] at hw
      cases hw
    | _ => cases hwaiter
  refine hi.relink hpc rfl trivial (hi.mutex_same hpc rfl) ?_ rfl (fun _ => .inl (by simp [hqueue])) hnodup.2
    (fun u hu _ => hrest u hu)
    (fun ht => absurd (hrest t ht) (hi.not_queued (by rw [hpc]; rfl))) ?_
  · rw [hqueue, length_cons]
    simp only [Pc.counted]
    omega
  · rintro w ⟨⟩
    exact ⟨hasleep, hnodup.1⟩

theorem wakeUncount_inv (hpc : s.pc t = .wakeUncount waiter) :
    Inv start ({ s with nwait := s.nwait - 1 }.goto t (.wakeReady waiter)) := by
  have hpos : 0 < s.nwait := hi.nwait_pos (by rw [hpc]; rfl)
  refine hi.relink hpc rfl trivial (hi.mutex_same hpc rfl) ?_ rfl (Or.imp id (linking_before rfl)) hi.nodup
    (fun _ hu _ => hu)
    (fun ht => absurd ht (hi.not_queued (by rw [hpc]; rfl))) ?_
  · simp only [Pc.counted]
    omega
  · rintro w ⟨⟩
    exact hi.carried t waiter (by rw [hpc]; rfl)

/-- The wake-up passes from the release to the waiter. -/
theorem wakeReady_inv (hpc : s.pc t = .wakeReady waiter)
    (hw : s.pc waiter = .asleep head) :
    Inv start ((s.goto waiter (.tryLoad (.retry head))).goto t .wakeUnlock) := by
  obtain ⟨-, hnot⟩ := hi.carried t waiter (by rw [hpc]; rfl)
  have hwt : waiter ≠ t := by
    rintro rfl
    rw [hpc] at hw
    cases hw
  -- the control points of everybody, after the first and after both moves
  let mid := update s.pc waiter (.tryLoad (.retry head))
  have hall {P : T → Pc T → Prop} (ht : P t .wakeUnlock) (hwaiter : P waiter (.tryLoad (.retry head)))
      (hothers : ∀ u, u ≠ t → P u (s.pc u)) : ∀ u, P u (update mid t .wakeUnlock u) := by
    refine (forall_update_iff mid P).mpr ⟨ht, ?_⟩
    exact (forall_update_iff s.pc fun u p => u ≠ t → P u p).mpr ⟨fun _ => hwaiter, fun u _ => hothers u⟩
  have htally (f : Pc T → Nat)
      (hsame : f (.wakeReady waiter) + f (.asleep head) = f .wakeUnlock + f (.tryLoad (.retry head))) :
      tally f (update mid t .wakeUnlock) = tally f s.pc := by
    have hfirst := tally_update f s.pc waiter (.tryLoad (.retry head))
    have hsecond := tally_update f mid t .wakeUnlock
    rw [hw] at hfirst
    rw [show mid t = .wakeReady waiter from (update_of_ne hwt.symm ..).trans hpc] at hsecond
    change tally f mid + _ = _ at hfirst
    omega
  constructor
  · exact hi.permits
  · exact hi.bound
  · exact hall trivial trivial fun u _ => hi.ok u
  · exact hall (P := fun u p => p.holdsMutex = true ↔ s.mutex = some u) (hpc ▸ hi.mutex t :) (hw ▸ hi.mutex waiter :)
      fun u _ => hi.mutex u
  · exact hi.count.trans (congrArg (s.queue.length + ·) (htally Pc.counted rfl).symm)
  · intro h
    refine (hi.owed (h.imp id ?_)).trans (Nat.le_of_eq (htally Pc.pending rfl).symm)
    rintro ⟨u, hu⟩
    exact hall (P := fun u p => p.linking = true → ∃ u, (s.pc u).linking = true) nofun nofun
      (fun u _ hu => ⟨u, hu⟩) u hu
  · exact hi.nodup
  · exact hall (P := fun u p => u ∈ s.queue → p.linked = true) (fun ht => absurd ht (hi.not_queued (by rw [hpc]; rfl)))
      (fun hmem => absurd hmem hnot) fun u _ => hi.queued u
  · intro u w huw
    refine absurd huw (hall (P := fun _ p => p.carries ≠ some w) nofun nofun (fun u hut huw => hut ?_) u)
    exact hi.holder_unique (by rw [hpc]; rfl) (Pc.holdsMutex_of_carries huw)

/-! ## Every step -/

theorem stepWakeRemove_inv (hpc : s.pc t = .wakeRemove)
    (h : stepWakeRemove s t = some s') : Inv start s' := by
  unfold stepWakeRemove at h
  split_ifs at h with hzero
  · cases h
    exact hi.drop hpc hzero rfl rfl rfl rfl rfl trivial
  · cases hqueue : s.queue with
    | nil => rw [hqueue] at h; cases h
    | cons waiter rest =>
      rw [hqueue] at h
      cases h
      exact wakeRemove_inv hi hpc hqueue

theorem stepWakeReady_inv (hpc : s.pc t = .wakeReady waiter)
    (h : stepWakeReady s t waiter = some s') : Inv start s' := by
  unfold stepWakeReady at h
  obtain ⟨⟨head, hw⟩, -⟩ := hi.carried t waiter (by rw [hpc]; rfl)
  rw [hw] at h
  cases h
  exact wakeReady_inv hi hpc hw

theorem next_inv {choice : Bool} (h : next s t choice (s.pc t) = some s') :
    Inv start s' := by
  generalize hpc : s.pc t = pc at h
  cases pc with
  | idle last | asleep head => cases h
  | tryLoad site => cases h; exact stepTryLoad_inv hi hpc
  | tryCas site semVal => cases h; exact stepTryCas_inv hi hpc
  | parkLock head =>
    obtain ⟨hfree, h⟩ := Option.ite_none_right_eq_some.mp h
    cases h
    exact parkLock_inv hi hpc hfree
  | pushCount head => cases h; exact stepPushCount_inv hi hpc
  | pushLink head => cases h; exact stepPushLink_inv hi hpc
  | pushUncount ret => cases h; exact pushUncount_inv hi hpc
  | parkUnlock ret => cases h; exact parkUnlock_inv hi hpc
  | park head => cases h; exact park_inv hi hpc
  | releaseLoad => cases h; exact stepReleaseLoad_inv hi hpc
  | releaseCas oldValue => cases h; exact stepReleaseCas_inv hi hpc
  | releaseRead => cases h; exact releaseRead_inv hi hpc
  | wakeLock =>
    obtain ⟨hfree, h⟩ := Option.ite_none_right_eq_some.mp h
    cases h
    exact wakeLock_inv hi hpc hfree
  | wakeRemove => exact stepWakeRemove_inv hi hpc h
  | wakeUncount waiter => cases h; exact wakeUncount_inv hi hpc
  | wakeReady waiter => exact stepWakeReady_inv hi hpc h
  | wakeUnlock => cases h; exact wakeUnlock_inv hi hpc

/-- A call leaves an idle thread at a point that stands for nothing yet. -/
theorem call_inv {last : Ret} (hpc : s.pc t = .idle last) (hcarry : c.carries = none)
    (hmutex : c.holdsMutex = false) (hcount : c.counted = 0) (hlink : c.linking = false) (hok : c.Ok) :
    Inv start (s.goto t c) :=
  hi.goto hpc rfl hcarry hmutex hcount hlink (Nat.zero_le _) hok

omit hi

theorem act_inv (s : State T) (ta : T × Act) (s' : State T) (hi : Inv start s) (h : act s ta = some s') :
    Inv start s' := by
  obtain ⟨t, a⟩ := ta
  unfold act at h
  cases a with
  | next choice => exact next_inv hi h
  | tryAcquire | acquire head | release =>
    generalize hpc : s.pc t = pc at h
    cases pc with
    | idle last => cases h; exact call_inv hi hpc rfl rfl rfl rfl trivial
    | _ => cases h

end Steps

/-! ## Whole runs -/

variable {start : Nat} {s : State T} (hstart : start ≤ UINT32_MAX) (hrun : Run act (fun _ _ => True) (semaNew start) s)
include hstart hrun

theorem run_inv : Inv start s :=
  run_invariant hrun (inv_semaNew hstart) fun s ta s' hi _ h => act_inv s ta s' hi h

/-- **A wake-up that has begun is completed**: a thread that is about to remove a waiter finds one if `nwait` says so,
    and the waiter it makes ready is switched off. -/
theorem wake_completes (t : T) :
    (s.pc t = .wakeRemove → (stepWakeRemove s t).isSome) ∧
      ∀ waiter, s.pc t = .wakeReady waiter → (stepWakeReady s t waiter).isSome := by
  have hi := run_inv hstart hrun
  constructor
  · intro hpc
    have hlen := hi.nwait_eq hpc
    unfold stepWakeRemove
    by_cases hzero : s.nwait = 0
    · rw [if_pos hzero]; rfl
    · rw [if_neg hzero]
      cases hqueue : s.queue with
      | nil => rw [hqueue] at hlen; exact absurd hlen hzero
      | cons waiter rest => rfl
  · intro waiter hpc
    obtain ⟨⟨head, hw⟩, -⟩ := hi.carried t waiter (by rw [hpc]; rfl)
    unfold stepWakeReady
    rw [hw]
    rfl

omit hstart hrun

/-- **No permit and no wake-up is lost.** In every state that any interleaving reaches, `semaVal` is the initial value
    plus the additions minus the subtractions; and there is never a free permit and a thread in the queue without a
    thread between its addition and its wake-up or a woken thread that has yet to try again. -/
theorem no_lost_wakeup {start : Nat} (hstart : start ≤ UINT32_MAX) {s : State T}
    (hrun : Run act (fun _ _ => True) (semaNew start) s) :
    (s.decrements ≤ start + s.increments ∧ start + s.increments - s.decrements = s.semaVal) ∧
      ¬ (0 < s.semaVal ∧ (∃ t, t ∈ s.queue) ∧ (∀ t, (s.pc t).releasing = false) ∧ ∀ t, (s.pc t).woken = false) := by
  have hi := run_inv hstart hrun
  have hpermits := hi.permits
  constructor
  · omega
  · rintro ⟨hpos, ⟨t, ht⟩, hreleasing, hwoken⟩
    have howed := hi.owed (Or.inl (List.ne_nil_of_mem ht))
    have hnone : tally Pc.pending s.pc = 0 := by
      rw [tally_eq_zero]
      intro u
      unfold Pc.pending
      rw [hreleasing u, hwoken u]
      rfl
    omega

/-- Thread `a` finds no permit and goes to sleep; thread `b` has added one and not yet looked for waiters. -/
def sleepRun (a b : T) : List (T × Act) :=
  [(a, .acquire false), (a, .next false), (a, .next false), (a, .next false), (a, .next false), (a, .next false),
   (a, .next false), (b, .release), (b, .next false), (b, .next false)]

theorem no_lost_wakeup_sleeping :
    ∃ s : State Bool, Run act (fun _ _ => True) (semaNew 0) s ∧ (s.semaVal = 1 ∧ s.queue = [false]) ∧
      ¬ (0 < s.semaVal ∧ (∃ t, t ∈ s.queue) ∧ (∀ t, (s.pc t).releasing = false) ∧ ∀ t, (s.pc t).woken = false) := by
  have hexec : (runActs act (fun _ _ => True) (semaNew 0 : State Bool) (sleepRun false true)).map
      (fun s => (s.semaVal, s.queue)) = some (1, [false]) := by
    decide
  obtain ⟨s, hs, hvalues⟩ := Option.map_eq_some_iff.mp hexec
  have hrun := run_of_runActs hs
  exact ⟨s, hrun, Prod.mk.inj hvalues, (no_lost_wakeup (by decide) hrun).2⟩

/-- Thread `b` has locked the queue in which `a` sleeps. -/
theorem wake_completes_sleeping :
    ∃ s : State Bool, Run act (fun _ _ => True) (semaNew 0) s ∧ s.pc true = .wakeRemove ∧
    (stepWakeRemove s true).isSome := by
  have hexec : (runActs act (fun _ _ => True) (semaNew 0 : State Bool)
      (sleepRun false true ++ [(true, .next false), (true, .next false)])).map (State.pc · true) =
      some .wakeRemove := by
    decide
  obtain ⟨s, hs, hpc⟩ := Option.map_eq_some_iff.mp hexec
  have hrun := run_of_runActs hs
  exact ⟨s, hrun, hpc, (wake_completes (by decide) hrun true).1 hpc⟩

end CangjieRuntime.Sema
