import CangjieRuntime.Sync.Correctness.WaitqueueChain

/-!
# `Sync.Correctness.WakeAll` — whom `WaitqueueWakeAll` leaves behind

`WaitqueueWakeAll` counts down from the length of the queue. A waiter whose timer is firing cannot be woken; it is
passed, and that takes one off the countdown as well. But after each waiter that is woken the search starts at the head
again, so the same firing waiters are passed again and again, each time at the cost of one. The countdown is long enough
exactly when the number of these passes does not exceed the number of firing waiters.
-/

namespace CangjieRuntime

open Chain Word Interleave Link List

namespace Waitqueue

variable {N W : Type}

/-! ## The countdown -/

/-- How often a firing node is passed until all others are woken, if `k` firing nodes come before the list: for each
    node that can be woken, the number of firing nodes before it. -/
def passes (blocked : N → Bool) : Nat → List N → Nat
  | _, [] => 0
  | k, n :: ns => if blocked n then passes blocked (k + 1) ns else k + passes blocked k ns

variable {blocked : N → Bool} {xs ys : List N}

/-- Firing nodes before the list only raise the count for those behind. -/
theorem passes_append (hxs : ∀ n ∈ xs, blocked n = true) (k : Nat) (ys : List N) :
    passes blocked k (xs ++ ys) = passes blocked (k + xs.length) ys := by
  induction xs generalizing k with
  | nil => rfl
  | cons n xs ih =>
    rw [cons_append, passes, if_pos (hxs n (mem_cons_self ..)),
      ih (fun m hm => hxs m (mem_cons_of_mem n hm)), length_cons, Nat.add_right_comm, Nat.add_assoc]

theorem passes_of_all (hys : ∀ n ∈ ys, blocked n = true) (k : Nat) : passes blocked k ys = 0 := by
  have happend := passes_append hys k []
  rw [append_nil] at happend
  rw [happend, passes]

theorem filter_of_all (hxs : ∀ n ∈ xs, blocked n = true) : xs.filter (fun n => !blocked n) = [] := by
  rw [filter_eq_nil_iff]
  intro n hn
  rw [hxs n hn]
  decide

/-- To wake anyone, the firing nodes before it have to be passed once. -/
theorem le_passes (h : ¬∀ n ∈ ys, blocked n = true) (k : Nat) :
    k + 1 ≤ passes blocked k ys + (ys.filter fun n => !blocked n).length := by
  induction ys generalizing k with
  | nil => exact absurd (fun n hn => absurd hn not_mem_nil) h
  | cons n ys ih =>
    rw [passes]
    split_ifs with hn
    · have hrest : ¬∀ m ∈ ys, blocked m = true := fun hall => h (forall_mem_cons.mpr ⟨hn, hall⟩)
      have hle := ih hrest (k + 1)
      rw [filter_cons, hn]
      exact (Nat.le_succ _).trans hle
    · rw [filter_cons, Bool.eq_false_iff.mpr hn]
      simp only [Bool.not_false, if_true, length_cons]
      omega

/-- The countdown `len` is enough for the nodes ahead, when the nodes `xs` have been passed. -/
def Enough (blocked : N → Bool) (k : Nat) (ys : List N) (len : Nat) : Prop :=
  (∀ n ∈ ys, blocked n = true) ∨ passes blocked k ys + (ys.filter fun n => !blocked n).length ≤ len + k

/-- Passing a firing node costs one, and the node counts for all behind it. -/
theorem enough_cons_blocked {n : N} (hn : blocked n = true) {k len : Nat} :
    Enough blocked k (n :: ys) (len + 1) ↔ Enough blocked (k + 1) ys len := by
  have hall : (∀ m ∈ n :: ys, blocked m = true) ↔ ∀ m ∈ ys, blocked m = true := by
    rw [forall_mem_cons]
    exact and_iff_right hn
  have hpasses : passes blocked k (n :: ys) = passes blocked (k + 1) ys := if_pos hn
  have hfilter : (n :: ys).filter (fun m => !blocked m) = ys.filter fun m => !blocked m := by
    rw [filter_cons, hn]
    rfl
  unfold Enough
  rw [hall, hpasses, hfilter, Nat.add_right_comm len 1 k, Nat.add_assoc len k 1]

/-- Waking a node costs one, and then the nodes passed before it are ahead again. -/
theorem enough_cons_free {n : N} (hn : ¬blocked n = true) (hxs : ∀ m ∈ xs, blocked m = true) {len : Nat} :
    Enough blocked xs.length (n :: ys) (len + 1) ↔ Enough blocked 0 (xs ++ ys) len := by
  have hpasses : passes blocked xs.length (n :: ys) = xs.length + passes blocked xs.length ys := if_neg hn
  have hfilter : (n :: ys).filter (fun m => !blocked m) = n :: ys.filter fun m => !blocked m := by
    rw [filter_cons, Bool.eq_false_iff.mpr hn]
    rfl
  have happend := passes_append hxs 0 ys
  rw [Nat.zero_add] at happend
  unfold Enough
  rw [hpasses, hfilter, happend, filter_append, filter_of_all hxs, nil_append, length_cons]
  constructor
  · rintro (hall | hle)
    · exact absurd (hall n (mem_cons_self ..)) hn
    · right
      omega
  · rintro (hall | hle)
    · have hys : ∀ m ∈ ys, blocked m = true := fun m hm => hall m (mem_append_right xs hm)
      right
      rw [passes_of_all hys, filter_of_all hys, length_nil]
      omega
    · right
      omega

/-- With a countdown that is enough, all nodes that are not firing are woken and the others stay. -/
theorem sweep_of_enough (hxs : ∀ n ∈ xs, blocked n = true) {len : Nat} (h : Enough blocked xs.length ys len) :
    sweep blocked xs ys len = (xs ++ ys.filter blocked, ys.filter fun n => !blocked n) := by
  induction len generalizing xs ys with
  | zero =>
    have hys : ∀ n ∈ ys, blocked n = true := by
      by_contra hsome
      rcases h with hall | hle
      · exact hsome hall
      · have hmore := le_passes hsome xs.length
        omega
    rw [sweep, filter_of_all hys, filter_eq_self.mpr hys]
  | succ len ih =>
    cases ys with
    | nil =>
      rw [sweep, filter_nil, filter_nil, append_nil]
    | cons n ys =>
      rw [sweep]
      by_cases hn : blocked n = true
      · have hpassed : ∀ m ∈ xs ++ [n], blocked m = true :=
          forall_mem_append.mpr ⟨hxs, forall_mem_singleton.mpr hn⟩
        have hrest : Enough blocked (xs ++ [n]).length ys len := by
          rw [length_append, length_singleton]
          exact (enough_cons_blocked hn).mp h
        rw [if_pos hn, ih hpassed hrest, filter_cons_of_pos hn, ← append_cons, filter_cons, hn]
        rfl
      · have hrest := ih (forall_mem_nil _) ((enough_cons_free hn hxs).mp h)
        rw [if_neg hn, hrest, nil_append, filter_append, filter_append, filter_of_all hxs,
          filter_eq_self.mpr hxs, filter_cons_of_neg hn, filter_cons, Bool.eq_false_iff.mpr hn]
        rfl

/-- With any other, someone is left. -/
theorem sweep_of_not_enough (hxs : ∀ n ∈ xs, blocked n = true) {len : Nat} (h : ¬Enough blocked xs.length ys len) :
    (sweep blocked xs ys len).2.length < (ys.filter fun n => !blocked n).length := by
  induction len generalizing xs ys with
  | zero =>
    rw [sweep, length_nil, length_pos_iff_ne_nil, Ne, filter_eq_nil_iff]
    intro hnone
    apply h
    left
    intro n hn
    simpa using hnone n hn
  | succ len ih =>
    cases ys with
    | nil => exact absurd (Or.inl fun n hn => absurd hn not_mem_nil) h
    | cons n ys =>
      rw [sweep]
      split_ifs with hn
      · have hpassed : ∀ m ∈ xs ++ [n], blocked m = true :=
          forall_mem_append.mpr ⟨hxs, forall_mem_singleton.mpr hn⟩
        have hrest : ¬Enough blocked (xs ++ [n]).length ys len := by
          rw [length_append, length_singleton]
          exact fun henough => h ((enough_cons_blocked hn).mpr henough)
        have hlt := ih hpassed hrest
        rw [filter_cons, hn]
        exact hlt
      · have hlt := ih (forall_mem_nil _) fun henough => h ((enough_cons_free hn hxs).mpr henough)
        rw [filter_append, filter_of_all hxs, nil_append] at hlt
        rw [filter_cons, Bool.eq_false_iff.mpr hn]
        exact Nat.succ_lt_succ hlt

/-- From the head, with the length of the list: the passes must not exceed the firing nodes. -/
theorem enough_iff (blocked : N → Bool) (ns : List N) :
    Enough blocked 0 ns ns.length ↔ passes blocked 0 ns ≤ (ns.filter blocked).length := by
  have hlen := length_eq_length_filter_add (l := ns) blocked
  unfold Enough
  constructor
  · rintro (hall | hle)
    · rw [passes_of_all hall]
      exact Nat.zero_le _
    · omega
  · intro hle
    right
    omega

/-! ## The call -/

variable [DecidableEq N] {s : State N W} {ns : List N}

/-- Everyone who can be woken has been made ready once, and those with a firing timer are still queued in their
    order. -/
structure AllWoken (s s' : State N W) (ns : List N) : Prop where
  rep : Rep s' (ns.filter fun n => (s.node n).blocked)
  readied : s'.readied = s.readied ++ waiters s (ns.filter fun n => !(s.node n).blocked)

/-- What the call does is the sweep of the list from its length. -/
theorem waitqueueWakeAll_spec (h : Rep s ns) :
    ∃ ret s', waitqueueWakeAll s false = some (ret, s') ∧
      Rep s' (sweep (fun n => (s.node n).blocked) [] ns ns.length).1 ∧
      Swept s s' (sweep (fun n => (s.node n).blocked) [] ns ns.length).2 := by
  unfold waitqueueWakeAll waitqueueWakePreparation
  rw [if_neg Bool.false_ne_true]
  split_ifs with hzero
  · obtain rfl : ns = [] := eq_nil_of_length_eq_zero (h.nwait.symm.trans hzero)
    exact ⟨_, s, rfl, h, Swept.refl s⟩
  · have hrep : Rep s ([] ++ ns) := h
    obtain ⟨s', hloop, hrep', hswept⟩ := wakeAllLoop_spec hrep (le_refl ns.length)
    dsimp only
    rw [h.shape.next_head, h.nwait, hloop]
    exact ⟨_, s', rfl, hrep', hswept⟩

/-- **Whom `WaitqueueWakeAll` wakes.** If the firing waiters are passed at most as often as there are firing waiters,
    the call wakes everyone it can. If not, it leaves someone queued whom it could have woken. -/
theorem wakeAll_complete (h : Rep s ns) :
    ∃ ret s', waitqueueWakeAll s false = some (ret, s') ∧
      (passes (fun n => (s.node n).blocked) 0 ns ≤ (ns.filter fun n => (s.node n).blocked).length → AllWoken s s' ns) ∧
      ((ns.filter fun n => (s.node n).blocked).length < passes (fun n => (s.node n).blocked) 0 ns →
        ∃ ns', Rep s' ns' ∧ ∃ n ∈ ns', (s.node n).blocked = false) := by
  obtain ⟨ret, s', hcall, hrep, hswept⟩ := waitqueueWakeAll_spec h
  refine ⟨ret, s', hcall, fun hle => ?_, fun hlt => ?_⟩
  · have hsweep := sweep_of_enough (List.forall_mem_nil _) ((enough_iff _ ns).mpr hle)
    rw [hsweep] at hrep hswept
    exact ⟨hrep, hswept.readied⟩
  · refine ⟨_, hrep, ?_⟩
    by_contra hnone
    have hfew := sweep_of_not_enough (List.forall_mem_nil _) fun henough =>
      absurd ((enough_iff _ ns).mp henough) (Nat.not_le.mpr hlt)
    have hperm := (sweep_perm (fun n => (s.node n).blocked) [] ns ns.length).filter fun n => !(s.node n).blocked
    have hstay : (sweep (fun n => (s.node n).blocked) [] ns ns.length).1.filter (fun n => !(s.node n).blocked) =
        [] := by
      apply filter_of_all
      intro n hn
      by_contra hfree
      exact hnone ⟨n, hn, Bool.eq_false_iff.mpr hfree⟩
    rw [List.filter_append, hstay, List.append_nil] at hperm
    have hlen := hperm.length_eq
    have hle := List.length_filter_le (fun n => !(s.node n).blocked)
      (sweep (fun n => (s.node n).blocked) [] ns ns.length).2
    rw [List.nil_append] at hlen
    omega

/-- A waiter without a timer, and behind it one whose timer is firing. -/
def twoWaiters : State Nat Nat where
  nwait := 2
  timerNwait := 1
  links :=
    { next := fun
        | .head => some (.listNode 0)
        | .listNode n => if n = 0 then some (.listNode 1) else none
      prev := fun
        | .head => none
        | .listNode n => if n = 0 then some .head else some (.listNode 0) }
  tail := some (.listNode 1)
  node n := if n = 0 then ⟨10, none⟩ else ⟨11, some .firing⟩
  allocated := [0, 1]
  pushed := [10, 11]
  readied := []
  timedOut := []

theorem wakeAll_complete_twoWaiters :
    Rep twoWaiters [0, 1] ∧
      ∃ ret s', waitqueueWakeAll twoWaiters false = some (ret, s') ∧ AllWoken twoWaiters s' [0, 1] := by
  have hpath : twoWaiters.links.Path [.head, .listNode 0, .listNode 1] :=
    List.isChain_cons_cons.mpr ⟨⟨rfl, rfl⟩, List.isChain_pair.mpr ⟨rfl, rfl⟩⟩
  have hlast : ∀ a ∈ ([.head, .listNode 0, .listNode 1] : List (Ptr Nat)).getLast?, twoWaiters.links.next a = none := by
    intro a ha
    obtain rfl : Ptr.listNode 1 = a := Option.some.inj ha
    rfl
  have hrep : Rep twoWaiters [0, 1] := ⟨⟨⟨hpath, by decide, hlast⟩, rfl⟩, rfl, by decide, List.Perm.refl _⟩
  obtain ⟨ret, s', hcall, hall, -⟩ := wakeAll_complete hrep
  exact ⟨hrep, ret, s', hcall, hall (by decide)⟩

/-- Three waiters, and the timer of the first one fires. -/
def firingFirst : List (Op Nat Nat) :=
  [.park ⟨10, some 0, false, true, true, false⟩, .park ⟨11, some 1, false, false, true, false⟩,
   .park ⟨12, some 2, false, false, true, false⟩, .fire 0]

/-- `WaitqueueWakeAll` wakes the second of the three and leaves the third, which has no timer, asleep. -/
theorem wakeAll_leaves_one :
    ∃ s s' : State Nat Nat, Run act Possible (waitqueueNew ⟨fun _ => none, fun _ => none⟩ fun _ => ⟨0, none⟩) s ∧
      s.pushed = [10, 11, 12] ∧ s.node 2 = ⟨12, none⟩ ∧
      waitqueueWakeAll s false = some (.success, s') ∧ s'.readied = [11] ∧ s'.nwait = 2 := by
  have hexec : ((runActs act Possible (waitqueueNew ⟨fun _ => none, fun _ => none⟩ fun _ => ⟨0, none⟩) firingFirst).bind
      fun s => (waitqueueWakeAll s false).map fun r =>
        ((s.pushed, (s.node 2).cjthread, (s.node 2).timer.isNone), decide (r.1 = .success), r.2.readied, r.2.nwait)) =
      some (([10, 11, 12], 12, true), true, [11], 2) := by decide +kernel
  obtain ⟨s, hs, hrest⟩ := Option.bind_eq_some_iff.mp hexec
  obtain ⟨⟨ret, s'⟩, hcall, hvalues⟩ := Option.map_eq_some_iff.mp hrest
  simp only [Prod.mk.injEq, Option.isNone_iff_eq_none, decide_eq_true_eq] at hvalues
  obtain ⟨⟨hpushed, hcjthread, htimer⟩, rfl, hreadied, hnwait⟩ := hvalues
  refine ⟨s, s', run_of_runActs hs, hpushed, ?_, hcall, hreadied, hnwait⟩
  rw [← hcjthread, ← htimer]

end Waitqueue
end CangjieRuntime
