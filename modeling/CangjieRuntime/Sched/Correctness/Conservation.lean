import CangjieRuntime.Sched.Correctness.RunQueues

/-!
# `Sched.Correctness.Conservation` — no cjthread is lost between the run queues

From an empty scheduler, after any sequence of calls, a cjthread that was ever submitted is in exactly one place, and
once: a next slot, a local queue, the global list, or in the hands of whoever got it returned. The specs of
`Sched.Correctness.RunQueues` say how the number of occurrences of a cjthread changes with each call.

One call can break this. `ProcessorGlobalRead` stores its share of the global list in an `unsigned int` before it
compares it with the capacity of the local queue; a share that is a multiple of `2 ^ 32` becomes zero, one is subtracted
from it, and the array of 128 pointers is overrun. All other shares are harmless, so this is the exact condition
(`calls_conserve`).
-/

namespace CangjieRuntime

open Chain Word Interleave Dulink Queue List

namespace Processor

variable {P C : Type} [DecidableEq C] [Fintype P]

/-! ## The invariant -/

/-- The run queues represent `v`, and each cjthread is in one place if it was submitted and in none otherwise. -/
structure Inv (s : State P C) (v : View P C) : Prop where
  rep : Rep s.schedule v
  count : ∀ c, v.count c + s.running.count c = if c ∈ s.submitted then 1 else 0

variable {s : State P C} {v v' : View P C} {cs : List C} {schedule : Schedule P C} {op : Op P C} {p : P}

theorem Inv.count_le_one (h : Inv s v) (c : C) : v.count c + s.running.count c ≤ 1 := by
  rw [h.count c]
  split <;> decide

theorem Inv.global_nodup (h : Inv s v) : v.global.Nodup := by
  rw [nodup_iff_count_le_one]
  intro c
  have hle : v.global.count c ≤ v.count c := Nat.le_add_left ..
  have hone := h.count_le_one c
  omega

/-- A cjthread in its owner's hands is in no run queue. -/
theorem Inv.count_owned (h : Inv s v) {c : C} (howned : s.Owned c) : v.count c = 0 := by
  have hcount := h.count c
  rcases howned with hnew | hrunning
  · rw [if_neg hnew] at hcount
    omega
  · have hpos := count_pos_iff.mpr hrunning
    have hone := h.count_le_one c
    omega

/-- So it can be submitted, in a list that has it once. -/
theorem Inv.count_new (h : Inv s v) (hnodup : cs.Nodup) (howned : ∀ c ∈ cs, s.Owned c) (c : C) :
    v.count c + cs.count c ≤ 1 := by
  by_cases hmem : c ∈ cs
  · have hzero := h.count_owned (howned c hmem)
    have hone := nodup_iff_count_le_one.mp hnodup c
    omega
  · have hzero := count_eq_zero.mpr hmem
    have hone := h.count_le_one c
    omega

theorem inv_init (buf : P → Nat → C) (links : Links (Node C)) :
    Inv (⟨scheduleInit buf links, [], []⟩ : State P C) ⟨fun _ => ⟨none, []⟩, []⟩ := by
  refine ⟨rep_scheduleInit buf links, fun c => ?_⟩
  have hzero : tally (Held.count c) (fun _ : P => (⟨none, []⟩ : Held C)) = 0 := tally_eq_zero.mpr fun _ => rfl
  unfold View.count
  rw [hzero]
  rfl

/-- Cjthreads change from their owners' hands into the run queues. -/
theorem Inv.submit (h : Inv s v) (hnodup : cs.Nodup) (howned : ∀ c ∈ cs, s.Owned c)
    (hrep : Rep schedule v') (hcount : ∀ c, v'.count c = v.count c + cs.count c) :
    Inv (s.submit cs schedule) v' := by
  refine ⟨hrep, fun c => ?_⟩
  show v'.count c + (s.running.filter fun x => x ∉ cs).count c = if c ∈ s.submitted ∪ cs then 1 else 0
  rw [hcount c]
  by_cases hmem : c ∈ cs
  · have hgone : (s.running.filter fun x => x ∉ cs).count c = 0 := by
      rw [count_eq_zero]
      intro hfilter
      have hnot := (mem_filter.mp hfilter).2
      exact of_decide_eq_true hnot hmem
    rw [hgone, h.count_owned (howned c hmem), count_eq_one_of_mem hnodup hmem,
      if_pos (mem_union_iff.mpr (Or.inr hmem))]
  · have hkept : (s.running.filter fun x => x ∉ cs).count c = s.running.count c :=
      count_filter (decide_eq_true hmem)
    have hiff : c ∈ s.submitted ∪ cs ↔ c ∈ s.submitted := by
      rw [mem_union_iff]
      exact or_iff_left hmem
    rw [hkept, count_eq_zero.mpr hmem, Nat.add_zero, h.count c]
    simp only [hiff]

/-- A cjthread is returned. -/
theorem Inv.deliver (h : Inv s v) {r : Option C × View P C} (hrep : Rep schedule r.2)
    (hcount : ∀ c, r.2.count c + r.1.toList.count c = v.count c) : Inv (s.deliver (r.1, schedule)) r.2 := by
  refine ⟨hrep, fun c => ?_⟩
  have hold := h.count c
  have hnew := hcount c
  show r.2.count c + (r.1.toList ++ s.running).count c = if c ∈ s.submitted then 1 else 0
  rw [count_append]
  omega

/-! ## Steps -/

variable [DecidableEq P]

/-- The call of `ProcessorGlobalRead` that goes wrong: nothing is left of the share in 32 bits. -/
def CutOff (s : State P C) : Op P C → Prop
  | .globalRead _ true => 0 < s.schedule.num ∧ 2 ^ 32 ∣ share s.schedule.num (Fintype.card P)
  | _ => False

/-- The view after a call. -/
def View.act (v : View P C) : Op P C → View P C
  | .localWrite p cjthread isReschd => v.localWrite p cjthread isReschd
  | .localWriteBatch p cjthread => v.localWriteBatch p cjthread
  | .globalRead p batch => (v.globalRead p (readNum v.global.length (Fintype.card P) batch)).2
  | .localRead p => (v.localRead p).2
  | .nextRead p => (v.nextRead p).2
  | .steal localProcessor stealProcessor => (v.steal localProcessor stealProcessor).2

/-- **One call.** It is defined unless its share is cut off to nothing, and the run queues keep every cjthread. -/
theorem act_inv (h : Inv s v) (hcall : Callable s op) (hcut : ¬CutOff s op) :
    ∃ s', act s op = some s' ∧ Inv s' (v.act op) := by
  cases op with
  | localWrite p c isReschd =>
    have hnodup : [c].Nodup := nodup_singleton c
    have howned : ∀ x ∈ [c], s.Owned x := fun x hx => mem_singleton.mp hx ▸ hcall
    obtain ⟨schedule, hop, hrep⟩ := processorLocalWrite_spec h.rep (h.count_new hnodup howned) isReschd
    refine ⟨s.submit [c] schedule, ?_, h.submit hnodup howned hrep (count_localWrite v p c isReschd)⟩
    simp only [act, hop, Option.map_some]
  | localWriteBatch p cs =>
    obtain ⟨hnodup, -, howned⟩ := hcall
    obtain ⟨schedule, hop, hrep⟩ := processorLocalWriteBatch_spec h.rep (h.count_new hnodup howned)
    refine ⟨s.submit cs schedule, ?_, h.submit hnodup howned hrep (count_localWriteBatch v p cs)⟩
    simp only [act, hop, Option.map_some]
  | globalRead p batch =>
    have hread : 0 < s.schedule.num → Takes s.schedule.num (readNum s.schedule.num (Fintype.card P) batch) := by
      intro hpos
      apply takes_readNum hpos (Fintype.card_pos_iff.mpr ⟨p⟩)
      rintro rfl hzero
      exact hcut ⟨hpos, Nat.dvd_of_mod_eq_zero hzero⟩
    have hroom : batch = true → (v.procs p).runq = [] := by
      intro hbatch
      have hlen := hcall hbatch
      rw [(h.rep.holds p).queueLength_eq] at hlen
      exact eq_nil_of_length_eq_zero hlen
    obtain ⟨schedule, hop, hrep⟩ := processorGlobalRead_spec h.rep h.global_nodup hread hroom
    rw [h.rep.num] at hop hrep
    refine ⟨_, ?_, h.deliver hrep (count_globalRead v p _)⟩
    simp only [act, hop, Option.map_some]
  | localRead p =>
    obtain ⟨schedule, hop, hrep⟩ := processorLocalRead_spec h.rep p
    refine ⟨_, ?_, h.deliver hrep (count_localRead v p)⟩
    simp only [act, hop]
  | nextRead p =>
    obtain ⟨schedule, hop, hrep⟩ := processorCJThreadNextRead_spec h.rep p
    refine ⟨_, ?_, h.deliver hrep (count_nextRead v p)⟩
    simp only [act, hop]
  | steal p q =>
    have hempty : (v.procs p).runq = [] := by
      have hlen : (s.schedule.processors p).runq.queueLength = 0 := hcall
      rw [(h.rep.holds p).queueLength_eq] at hlen
      exact eq_nil_of_length_eq_zero hlen
    obtain ⟨schedule, hop, hrep⟩ := processorCJThreadSteal_spec h.rep hempty
    refine ⟨_, ?_, h.deliver hrep (count_steal v hempty)⟩
    simp only [act, hop]

theorem act_cutOff (hcut : CutOff s op) : act s op = none := by
  unfold CutOff at hcut
  split at hcut
  · rename_i p
    rw [act, processorGlobalRead_overrun hcut.1 (Nat.mod_eq_zero_of_dvd hcut.2)]
    rfl
  · exact hcut.elim

theorem run_inv {buf : P → Nat → C} {links : Links (Node C)}
    (hrun : Run act Callable ⟨scheduleInit buf links, [], []⟩ s) : ∃ v, Inv s v := by
  refine run_invariant (I := fun s => ∃ v, Inv s v) hrun ⟨_, inv_init buf links⟩ ?_
  rintro s op s' ⟨v, hinv⟩ hcall hact
  have hcut : ¬CutOff s op := by
    intro hcut
    rw [act_cutOff hcut] at hact
    cases hact
  obtain ⟨s₁, hact', hinv'⟩ := act_inv hinv hcall hcut
  obtain rfl : s₁ = s' := Option.some.inj (hact'.symm.trans hact)
  exact ⟨_, hinv'⟩

/-- **Conservation.** After any sequence of calls the rings, the cyclic list and the counter describe lists in which
    every submitted cjthread is in exactly one place and any other in none; and every further call is defined (it
    follows no wild pointer and overruns no array) exactly when the share it reads is not cut off to nothing. -/
theorem calls_conserve {buf : P → Nat → C} {links : Links (Node C)}
    (hrun : Run act Callable ⟨scheduleInit buf links, [], []⟩ s) :
    (∃ v : View P C, Rep s.schedule v ∧
      ∀ c, v.count c + s.running.count c = if c ∈ s.submitted then 1 else 0) ∧
    ∀ op, Callable s op → ((act s op).isSome = true ↔ ¬CutOff s op) := by
  obtain ⟨v, hinv⟩ := run_inv hrun
  refine ⟨⟨v, hinv.rep, hinv.count⟩, fun op hcall => ⟨fun hsome hcut => ?_, fun hcut => ?_⟩⟩
  · rw [act_cutOff hcut] at hsome
    cases hsome
  · obtain ⟨s', hact, -⟩ := act_inv hinv hcall hcut
    rw [hact]
    rfl

/-- One processor is given more than its queue holds, another steals half of it and reads the global list. -/
def spillRun (p q : P) : List (Op P Nat) :=
  [.localWriteBatch p (List.range 130), .localWrite p 200 false, .steal q p, .globalRead q false, .nextRead p]

theorem calls_conserve_spill :
    ∃ s : State Bool Nat, Run act Callable ⟨scheduleInit (fun _ _ => 0) ⟨fun _ => none, fun _ => none⟩, [], []⟩ s ∧
      (s.running = [200, 0, 32] ∧ s.schedule.num = 33) ∧
      ∃ v : View Bool Nat, Rep s.schedule v ∧
        ∀ c, v.count c + s.running.count c = if c ∈ s.submitted then 1 else 0 := by
  have hexec : (runActs act Callable
      (⟨scheduleInit (fun _ _ => 0) ⟨fun _ => none, fun _ => none⟩, [], []⟩ : State Bool Nat)
      (spillRun false true)).map (fun s => (s.running, s.schedule.num)) = some ([200, 0, 32], 33) := by
    decide +kernel
  obtain ⟨s, hs, hvalues⟩ := Option.map_eq_some_iff.mp hexec
  have hrun := run_of_runActs hs
  exact ⟨s, hrun, Prod.mk.inj hvalues, (calls_conserve hrun).1⟩

/-! ## The share that is cut off -/

omit [DecidableEq C] [Fintype P] in
/-- A batch that overflows the queue leaves three quarters of a full one. -/
theorem length_localWriteBatch (v : View P C)
    (hq : (v.procs p).runq.length ≤ PROCESSOR_QUEUE_CAPACITY)
    (hover : PROCESSOR_QUEUE_CAPACITY - (v.procs p).runq.length < cs.length) :
    ((v.localWriteBatch p cs).procs p).runq.length = 96 ∧
      (v.localWriteBatch p cs).global.length + 96 = (v.procs p).runq.length + cs.length + v.global.length := by
  have hfull : ((v.procs p).runq ++ cs.take (PROCESSOR_QUEUE_CAPACITY - (v.procs p).runq.length)).length = 128 := by
    rw [length_append, length_take_of_le hover.le]
    unfold PROCESSOR_QUEUE_CAPACITY at *
    omega
  unfold View.localWriteBatch
  dsimp only
  rw [if_neg (Nat.not_le.mpr hover)]
  unfold View.spill
  simp only [setRunq_runq, hfull]
  constructor
  · show ((View.setRunq _ p _).procs p).runq.length = 96
    rw [setRunq_runq, length_drop, hfull]
    rfl
  · show (_ ++ _ ++ v.global).length + 96 = _
    rw [length_append, length_append, length_take, length_drop, hfull]
    unfold GLOBAL_ADD_RATIO PROCESSOR_QUEUE_CAPACITY at *
    omega

/-- New cjthreads overflow a queue. -/
theorem overflow (h : Inv s v) (hnodup : cs.Nodup) (hlen : cs.length < 2 ^ 32)
    (hnew : ∀ c ∈ cs, c ∉ s.submitted) (hover : PROCESSOR_QUEUE_CAPACITY - (v.procs p).runq.length < cs.length) :
    ∃ s' v', Run act Callable s s' ∧ Inv s' v' ∧ s'.submitted = s.submitted ∪ cs ∧ (v'.procs p).runq.length = 96 ∧
      v'.global.length + 96 = (v.procs p).runq.length + cs.length + v.global.length := by
  have hcall : Callable s (.localWriteBatch p cs) := ⟨hnodup, hlen, fun c hc => Or.inl (hnew c hc)⟩
  obtain ⟨s', hact, hinv⟩ := act_inv h hcall id
  have hq : (v.procs p).runq.length ≤ PROCESSOR_QUEUE_CAPACITY := h.rep.capacity p ▸ (h.rep.holds p).length_le
  have hsubmitted : s'.submitted = s.submitted ∪ cs := by
    obtain ⟨schedule, -, rfl⟩ := Option.map_eq_some_iff.mp hact
    rfl
  exact ⟨s', _, Relation.ReflTransGen.single ⟨_, hcall, hact⟩, hinv, hsubmitted, length_localWriteBatch v hq hover⟩

/-- A local queue can be read empty. -/
theorem drain (p : P) (n : Nat) (h : Inv s v) (hlen : (v.procs p).runq.length = n) :
    ∃ s' v', Run act Callable s s' ∧ Inv s' v' ∧ (v'.procs p).runq = [] ∧ v'.global = v.global := by
  induction n generalizing s v with
  | zero => exact ⟨s, v, Relation.ReflTransGen.refl, h, eq_nil_of_length_eq_zero hlen, rfl⟩
  | succ n ih =>
    obtain ⟨c, rest, hxs⟩ := exists_cons_of_length_eq_add_one hlen
    have hcall : Callable s (.localRead p) := trivial
    obtain ⟨s₁, hact, hinv⟩ := act_inv h hcall id
    have hview : v.act (.localRead p) = v.setRunq p rest := by
      simp only [View.act, View.localRead, hxs]
    have hrest : ((v.setRunq p rest).procs p).runq.length = n := by
      rw [hxs, length_cons] at hlen
      rw [setRunq_runq]
      exact Nat.succ.inj hlen
    rw [hview] at hinv
    obtain ⟨s', v', hrun, hinv', hempty, hglobal⟩ := ih hinv hrest
    exact ⟨s', v', Relation.ReflTransGen.head ⟨_, hcall, hact⟩ hrun, hinv', hempty, hglobal⟩

/-- On a scheduler with one processor, `2 ^ 32 + 96` cjthreads are submitted in two batches, and those that stay in the
    local queue are read: the `2 ^ 32` others are one share. -/
theorem share_cutOff :
    ∃ s : State Unit Nat, Run act Callable ⟨scheduleInit (fun _ _ => 0) ⟨fun _ => none, fun _ => none⟩, [], []⟩ s ∧
      s.schedule.num = 2 ^ 32 ∧ Callable s (.globalRead () true) ∧ act s (.globalRead () true) = none := by
  have hlen₁ : (List.range (2 ^ 32 - 1)).length = 2 ^ 32 - 1 := List.length_range
  have hlen₂ : (List.range' (2 ^ 32) 97).length = 97 := List.length_range'
  have hnodup₁ : (List.range (2 ^ 32 - 1)).Nodup := List.nodup_range
  have hnodup₂ : (List.range' (2 ^ 32) 97).Nodup := List.nodup_range'
  have hapart : ∀ c ∈ List.range' (2 ^ 32) 97, c ∉ [] ∪ List.range (2 ^ 32 - 1) := by
    intro c hc hc'
    rw [List.nil_union] at hc'
    have hge := (List.mem_range'_1.mp hc).1
    have hlt := List.mem_range.mp hc'
    omega
  generalize List.range (2 ^ 32 - 1) = cs₁ at hlen₁ hnodup₁ hapart
  generalize List.range' (2 ^ 32) 97 = cs₂ at hlen₂ hnodup₂ hapart
  obtain ⟨s₁, v₁, hrun₁, hinv₁, hsub₁, hq₁, hglobal₁⟩ := overflow
    (inv_init (fun _ : Unit => fun _ => 0) ⟨fun _ => none, fun _ => none⟩) hnodup₁ (by omega)
      (fun _ _ => List.not_mem_nil)
    (p := ()) (by rw [hlen₁]; decide)
  obtain ⟨s₂, v₂, hrun₂, hinv₂, -, hq₂, hglobal₂⟩ := overflow hinv₁ hnodup₂ (by omega) (hsub₁ ▸ hapart)
    (p := ()) (by rw [hlen₂, hq₁]; decide)
  obtain ⟨s₃, v₃, hrun₃, hinv₃, hempty, hglobal₃⟩ := drain () 96 hinv₂ hq₂
  have hnum : s₃.schedule.num = 2 ^ 32 := by
    rw [hinv₃.rep.num, hglobal₃]
    rw [hlen₁] at hglobal₁
    change v₁.global.length + 96 = 0 + (2 ^ 32 - 1) + 0 at hglobal₁
    omega
  refine ⟨s₃, (hrun₁.trans hrun₂).trans hrun₃, hnum, ?_, ?_⟩
  · intro _
    rw [(hinv₃.rep.holds ()).queueLength_eq, hempty]
    rfl
  · apply act_cutOff
    show 0 < s₃.schedule.num ∧ 2 ^ 32 ∣ share s₃.schedule.num 1
    rw [hnum]
    decide

end Processor
end CangjieRuntime
