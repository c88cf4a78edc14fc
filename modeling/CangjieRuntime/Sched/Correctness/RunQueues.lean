import CangjieRuntime.Sched.Processor

/-!
# `Sched.Correctness.RunQueues` — the run queues as lists

The abstract scheduler is a `View`: for each processor a next slot and a list, and one global list. A concrete scheduler
represents a view (`Rep`) when each ring holds its list, the cyclic list is the global one and the counter is its
length. Every function of `Sched.Processor` is a function on views (the *specs*), and on views it is plain how many
times a cjthread occurs afterwards.
-/

namespace CangjieRuntime

open Chain Word Interleave Dulink Queue List Option

namespace Processor

variable {P C : Type}

/-! ## Views -/

/-- What one processor holds. -/
structure Held (C : Type) where
  next : Option C
  runq : List C

structure View (P C : Type) where
  procs : P → Held C
  global : List C

/-- The scheduler represents the view. -/
structure Rep (s : Schedule P C) (v : View P C) : Prop where
  next : ∀ p, (s.processors p).cjthreadNext = (v.procs p).next
  capacity : ∀ p, (s.processors p).runq.capacity = PROCESSOR_QUEUE_CAPACITY
  holds : ∀ p, Holds (s.processors p).runq (v.procs p).runq
  num : s.num = v.global.length
  cycle : Cycle s.links .runq (v.global.map .cjthread)

variable {s s' : Schedule P C} {v v' : View P C} {p : P}

def View.setGlobal (v : View P C) (xs : List C) : View P C := { v with global := xs }

section Views

variable [DecidableEq P]

def View.setRunq (v : View P C) (p : P) (xs : List C) : View P C :=
  { v with procs := Function.update v.procs p { v.procs p with runq := xs } }

def View.setNext (v : View P C) (p : P) (o : Option C) : View P C :=
  { v with procs := Function.update v.procs p { v.procs p with next := o } }

/-- A quarter of the queue and the list `cs` go to the front of the global list. -/
def View.spill (v : View P C) (p : P) (cs : List C) : View P C :=
  let n := (v.procs p).runq.length / GLOBAL_ADD_RATIO
  (v.setRunq p ((v.procs p).runq.drop n)).setGlobal ((v.procs p).runq.take n ++ cs ++ v.global)

/-- A full queue spills. -/
def View.push (v : View P C) (p : P) (c : C) : View P C :=
  if (v.procs p).runq.length < PROCESSOR_QUEUE_CAPACITY then v.setRunq p ((v.procs p).runq ++ [c]) else v.spill p [c]

def View.localWrite (v : View P C) (p : P) (c : C) (isReschd : Bool) : View P C :=
  if isReschd then v.push p c
  else
    match (v.procs p).next with
    | none => v.setNext p (some c)
    | some obj => (v.setNext p (some c)).push p obj

def View.localWriteBatch (v : View P C) (p : P) (cs : List C) : View P C :=
  let room := PROCESSOR_QUEUE_CAPACITY - (v.procs p).runq.length
  if cs.length ≤ room then v.setRunq p ((v.procs p).runq ++ cs)
  else (v.setRunq p ((v.procs p).runq ++ cs.take room)).spill p (cs.drop room)

/-- Of the first `n` cjthreads of the global list one is returned, and the others go to the local queue. -/
def View.globalRead (v : View P C) (p : P) (n : Nat) : Option C × View P C :=
  match v.global with
  | [] => (none, v)
  | c :: rest =>
    (some c, (v.setRunq p ((v.procs p).runq ++ rest.take (n - 1))).setGlobal (rest.drop (n - 1)))

def View.localRead (v : View P C) (p : P) : Option C × View P C :=
  match (v.procs p).runq with
  | [] => (none, v)
  | c :: rest => (some c, v.setRunq p rest)

def View.nextRead (v : View P C) (p : P) : Option C × View P C := ((v.procs p).next, v.setNext p none)

/-- The older half of the victim's queue: one cjthread is returned, the others become the local queue. -/
def View.steal (v : View P C) (localProcessor stealProcessor : P) : Option C × View P C :=
  let xs := (v.procs stealProcessor).runq
  let n := (xs.length + PROCESSOR_STEAL_RATIO - 1) / PROCESSOR_STEAL_RATIO
  match xs.take n with
  | [] => (none, v)
  | first :: rest => (some first, (v.setRunq stealProcessor (xs.drop n)).setRunq localProcessor rest)

theorem setRunq_self (v : View P C) (p : P) : v.setRunq p (v.procs p).runq = v := by
  unfold View.setRunq
  rw [Function.update_eq_self]

theorem Schedule.setRunq_self (s : Schedule P C) (p : P) : s.setRunq p (s.processors p).runq = s := by
  unfold Schedule.setRunq
  rw [Function.update_eq_self]

@[simp]
theorem setRunq_runq (v : View P C) (p : P) (xs : List C) : ((v.setRunq p xs).procs p).runq = xs := by
  simp [View.setRunq]

@[simp]
theorem setRunq_global (v : View P C) (p : P) (xs : List C) : (v.setRunq p xs).global = v.global := rfl

/-- Both sides change one run queue. -/
theorem Rep.setRunq (h : Rep s v) {q : Queue C} {xs : List C} (hcap : q.capacity = (s.processors p).runq.capacity)
    (hq : Holds q xs) : Rep (s.setRunq p q) (v.setRunq p xs) := by
  refine ⟨fun r => ?_, fun r => ?_, fun r => ?_, h.num, h.cycle⟩ <;> by_cases hr : r = p
  · rw [hr]
    simpa [Schedule.setRunq, View.setRunq] using h.next p
  · simpa [Schedule.setRunq, View.setRunq, hr] using h.next r
  · rw [hr]
    simpa [Schedule.setRunq] using hcap.trans (h.capacity p)
  · simpa [Schedule.setRunq, hr] using h.capacity r
  · rw [hr]
    simpa [Schedule.setRunq, View.setRunq] using hq
  · simpa [Schedule.setRunq, View.setRunq, hr] using h.holds r

/-- Both sides change one next slot. -/
theorem Rep.setNext (h : Rep s v) (p : P) (o : Option C) : Rep (s.setNext p o) (v.setNext p o) := by
  refine ⟨fun r => ?_, fun r => ?_, fun r => ?_, h.num, h.cycle⟩ <;> by_cases hr : r = p
  · rw [hr]
    simp [Schedule.setNext, View.setNext]
  · simpa [Schedule.setNext, View.setNext, hr] using h.next r
  · rw [hr]
    simpa [Schedule.setNext] using h.capacity p
  · simpa [Schedule.setNext, hr] using h.capacity r
  · rw [hr]
    simpa [Schedule.setNext, View.setNext] using h.holds p
  · simpa [Schedule.setNext, View.setNext, hr] using h.holds r

end Views

theorem rep_scheduleInit [DecidableEq C] (buf : P → Nat → C) (links : Links (Node C)) :
    Rep (scheduleInit buf links) (⟨fun _ => ⟨none, []⟩, []⟩ : View P C) where
  next _ := rfl
  capacity _ := rfl
  holds _ := ⟨Nat.zero_le _, Nat.two_pow_pos 32, rfl, Ring.window_nil⟩
  num := rfl
  cycle := cycle_dulinkInit links .runq

/-! ## The list functions -/

/-- The lists of two heads are apart when their cjthreads are. -/
theorem disjoint_heads {head head' : Node C} (hhead : ∀ c, head ≠ .cjthread c) (hhead' : ∀ c, head' ≠ .cjthread c)
    (hne : head ≠ head') {xs ys : List C} (h : List.Disjoint xs ys) :
    List.Disjoint (head :: xs.map Node.cjthread) (head' :: ys.map Node.cjthread) := by
  intro n hn hn'
  rcases mem_cons.mp hn with rfl | hn
  · rcases mem_cons.mp hn' with heq | hmem
    · exact hne heq
    · obtain ⟨c, -, hc⟩ := mem_map.mp hmem
      exact hhead c hc.symm
  · obtain ⟨c, hc, rfl⟩ := mem_map.mp hn
    rcases mem_cons.mp hn' with heq | hmem
    · exact hhead' c heq.symm
    · obtain ⟨c', hc', heq⟩ := mem_map.mp hmem
      exact h hc (Node.cjthread.inj heq ▸ hc')

theorem runq_ne (c : C) : Node.runq ≠ Node.cjthread c := nofun

theorem tempDulink_ne (c : C) : Node.tempDulink ≠ Node.cjthread c := nofun

variable [DecidableEq C] {links : Links (Node C)} {xs cs rest : List C} {head : Node C} {c : C}
  {room n num processorNum : Nat}
  {q : Queue C} {batch : Bool}

/-- The cjthreads of an array are appended. -/
theorem pushAll_spec (h : Cycle links .tempDulink (xs.map .cjthread))
    (hnodup : (xs ++ cs).Nodup) :
    ∃ links', pushAll links cs = some links' ∧ Cycle links' .tempDulink ((xs ++ cs).map .cjthread) ∧
      links.Changes links' (.tempDulink :: (xs ++ cs).map .cjthread) := by
  induction cs generalizing links xs with
  | nil =>
    refine ⟨links, rfl, ?_, fun _ _ => ⟨rfl, rfl⟩⟩
    rw [append_nil]
    exact h
  | cons c rest ih =>
    have hc : Node.cjthread c ∉ Node.tempDulink :: xs.map Node.cjthread := by
      intro hmem
      rcases mem_cons.mp hmem with heq | hmem
      · exact tempDulink_ne c heq.symm
      · obtain ⟨c', hc', heq⟩ := mem_map.mp hmem
        rw [Node.cjthread.inj heq] at hc'
        exact disjoint_of_nodup_append hnodup hc' (mem_cons_self ..)
    obtain ⟨links₁, hpush, hcycle, hchange⟩ := dulinkPushtail_spec h hc
    have hlist : xs.map Node.cjthread ++ [Node.cjthread c] = (xs ++ [c]).map Node.cjthread := by simp
    rw [hlist] at hcycle hchange
    rw [append_cons] at hnodup
    obtain ⟨links₂, hrest, hcycle', hchange'⟩ := ih hcycle hnodup
    rw [← append_cons] at hcycle' hchange'
    refine ⟨links₂, ?_, hcycle', Links.Changes.trans (hchange.mono ?_) hchange'⟩
    · rw [pushAll, hpush]
      exact hrest
    · apply cons_subset_cons
      apply map_subset
      exact append_cons xs c rest ▸ subset_append_left ..

/-- The first cjthread of a list leaves it. -/
theorem removeFirst_spec
    (h : Cycle links head ((c :: xs).map .cjthread)) :
    ∃ links', removeFirst links head = some (c, links') ∧ Cycle links' head (xs.map .cjthread) ∧
      links.Changes links' (head :: (c :: xs).map .cjthread) := by
  obtain ⟨-, hjoined, -⟩ := path_split (p := []).mp h.path
  have hfirst : Cycle links head ([] ++ .cjthread c :: xs.map .cjthread) := h
  obtain ⟨links', hremove, hcycle, hchange⟩ := dulinkRemove_spec hfirst
  refine ⟨links', ?_, hcycle, hchange⟩
  unfold removeFirst
  rw [hjoined.next]
  show (dulinkRemove links (.cjthread c)).bind _ = _
  rw [hremove]
  rfl

/-- The temporary list is emptied into the array, which has room for it. -/
theorem drainLoop_spec
    (h : Cycle links .tempDulink (xs.map .cjthread)) (hroom : xs.length ≤ room) :
    ∃ links', drainLoop links room xs.length = some (xs, links') ∧
      links.Changes links' (.tempDulink :: xs.map .cjthread) := by
  induction xs generalizing links room with
  | nil => exact ⟨links, rfl, fun _ _ => ⟨rfl, rfl⟩⟩
  | cons c rest ih =>
    obtain ⟨links₁, hremove, hcycle, hchange⟩ := removeFirst_spec h
    rw [length_cons] at hroom
    have hroom' : rest.length ≤ room - 1 := by omega
    obtain ⟨links₂, hrest, hchange'⟩ := ih hcycle hroom'
    refine ⟨links₂, ?_, hchange.trans (hchange'.mono ?_)⟩
    · have hne : ¬room = 0 := by omega
      rw [length_cons, drainLoop, if_neg hne, hremove]
      show (drainLoop links₁ (room - 1) rest.length).bind _ = _
      rw [hrest]
      rfl
    · exact cons_subset_cons _ (subset_cons_self ..)

/-- More rounds than entries: the array is overrun, whatever the list is. -/
theorem drainLoop_overrun (links : Links (Node C)) (h : room < n) : drainLoop links room n = none := by
  induction n generalizing links room with
  | zero => cases h
  | succ n ih =>
    rw [drainLoop]
    by_cases hroom : room = 0
    · rw [if_pos hroom]
    · rw [if_neg hroom]
      cases hremove : removeFirst links .tempDulink with
      | none => rfl
      | some r =>
        have hlt : room - 1 < n := by omega
        have hrest := ih r.2 hlt
        show (drainLoop r.2 (room - 1) n).bind _ = _
        rw [hrest]
        rfl

/-! ## Specs on views -/

omit [DecidableEq C] in
theorem popQuarter_spec (h : Holds q xs) :
    ∃ q', popQuarter q = (xs.take (xs.length / GLOBAL_ADD_RATIO), q') ∧ q'.capacity = q.capacity ∧
      Holds q' (xs.drop (xs.length / GLOBAL_ADD_RATIO)) := by
  unfold popQuarter
  rw [h.queueLength_eq]
  by_cases hzero : xs.length / GLOBAL_ADD_RATIO = 0
  · rw [hzero]
    exact ⟨q, rfl, rfl, h⟩
  · simp only [if_pos hzero]
    exact queuePopHeadBatch_spec h _

variable [DecidableEq P]

theorem processorGlobalWrite_spec (h : Rep s v) (hcs : cs ≠ []) (hnodup : (v.spill p cs).global.Nodup) :
    ∃ s', processorGlobalWrite s p cs = some s' ∧ Rep s' (v.spill p cs) := by
  obtain ⟨q, hpop, hcap, hq⟩ := popQuarter_spec (h.holds p)
  generalize hn : (v.procs p).runq.length / GLOBAL_ADD_RATIO = n at hpop hq
  simp only [View.spill, hn] at hnodup ⊢
  generalize hmoved : (v.procs p).runq.take n = moved at hpop hnodup ⊢
  have hmovedcs : (moved ++ cs).Nodup := hnodup.sublist (List.sublist_append_left ..)
  -- the temporary list is built beside the global one
  have hempty : Cycle (dulinkInit s.links .tempDulink) .tempDulink (([] : List C).map .cjthread) := cycle_dulinkInit ..
  obtain ⟨links₁, hpush₁, hcycle₁, hchange₁⟩ :=
    pushAll_spec hempty (hmovedcs.sublist (List.sublist_append_left moved cs))
  rw [List.nil_append] at hcycle₁ hchange₁
  obtain ⟨links₂, hpush₂, hcycle₂, hchange₂⟩ := pushAll_spec hcycle₁ hmovedcs
  have hsub : (Node.tempDulink :: moved.map Node.cjthread) ⊆ .tempDulink :: (moved ++ cs).map .cjthread :=
    List.cons_subset_cons _ (List.map_subset _ (List.subset_append_left ..))
  have hchange : s.links.Changes links₂ (.tempDulink :: (moved ++ cs).map .cjthread) := by
    refine Links.Changes.trans ?_ ((hchange₁.mono hsub).trans hchange₂)
    exact (changes_dulinkInit s.links .tempDulink).mono (List.cons_subset_cons _ (List.nil_subset _))
  have hapart : List.Disjoint (moved ++ cs) v.global := List.disjoint_of_nodup_append hnodup
  have hglobal : Cycle links₂ .runq (v.global.map .cjthread) :=
    h.cycle.congr hchange (disjoint_heads runq_ne tempDulink_ne nofun hapart.symm)
  -- and then moved to its front
  rw [← List.append_nil ((moved ++ cs).map Node.cjthread)] at hcycle₂
  have hsome : (moved ++ cs).map Node.cjthread ≠ [] := by simp [hcs]
  have hapart' : List.Disjoint (.tempDulink :: ((moved ++ cs).map Node.cjthread ++ []))
      (.runq :: v.global.map .cjthread) := by
    rw [List.append_nil]
    exact disjoint_heads tempDulink_ne runq_ne nofun hapart
  have hcount : (0 : Int) = ↑((moved ++ cs).map Node.cjthread).length ∨ (0 : Int) = -↑([] : List (Node C)).length :=
    Or.inr rfl
  obtain ⟨links₃, hmove, -, hcycle₃, -⟩ := dulinkMove_spec hcycle₂ hglobal hsome hapart' hcount
  rw [← List.map_append] at hcycle₃
  have hrep := h.setRunq hcap hq
  refine ⟨{ s.setRunq p q with links := links₃, num := s.num + (moved.length + cs.length) }, ?_,
    ⟨hrep.next, hrep.capacity, hrep.holds, ?_, hcycle₃⟩⟩
  · unfold processorGlobalWrite
    rw [hpop]
    simp only [hpush₁, hpush₂, hmove, Option.bind_eq_bind, Option.bind_some, Option.pure_def]
  · show s.num + (moved.length + cs.length) = (moved ++ cs ++ v.global).length
    rw [h.num, List.length_append, List.length_append, Nat.add_comm]

omit [DecidableEq C] in
theorem processorLocalRead_spec (h : Rep s v) (p : P) :
    ∃ s', processorLocalRead s p = ((v.localRead p).1, s') ∧ Rep s' (v.localRead p).2 := by
  have hq := h.holds p
  unfold processorLocalRead View.localRead
  cases hxs : (v.procs p).runq with
  | nil =>
    rw [hxs] at hq
    rw [queuePopHead_nil hq]
    dsimp only
    rw [Schedule.setRunq_self]
    exact ⟨s, rfl, h⟩
  | cons c rest =>
    rw [hxs] at hq
    obtain ⟨q, hpop, hcap, hq⟩ := queuePopHead_cons hq
    rw [hpop]
    exact ⟨_, rfl, h.setRunq hcap hq⟩

omit [DecidableEq C] in
theorem processorCJThreadNextRead_spec (h : Rep s v) (p : P) :
    ∃ s', processorCJThreadNextRead s p = ((v.nextRead p).1, s') ∧ Rep s' (v.nextRead p).2 := by
  unfold processorCJThreadNextRead View.nextRead
  rw [h.next p]
  exact ⟨_, rfl, h.setNext p none⟩

omit [DecidableEq C] in
theorem processorQueueSteal_spec (h : Holds q xs) (hle : xs.length ≤ PROCESSOR_QUEUE_CAPACITY) :
    ∃ q', processorQueueSteal q PROCESSOR_QUEUE_CAPACITY =
        (xs.take ((xs.length + PROCESSOR_STEAL_RATIO - 1) / PROCESSOR_STEAL_RATIO), q') ∧ q'.capacity = q.capacity ∧
      Holds q' (xs.drop ((xs.length + PROCESSOR_STEAL_RATIO - 1) / PROCESSOR_STEAL_RATIO)) := by
  have hhalf : (xs.length + PROCESSOR_STEAL_RATIO - 1) / PROCESSOR_STEAL_RATIO ≤ PROCESSOR_QUEUE_CAPACITY := by
    unfold PROCESSOR_STEAL_RATIO
    omega
  unfold processorQueueSteal
  rw [h.queueLength_eq]
  generalize (xs.length + PROCESSOR_STEAL_RATIO - 1) / PROCESSOR_STEAL_RATIO = n at hhalf ⊢
  dsimp only
  by_cases hzero : n = 0
  · rw [if_pos hzero, hzero]
    exact ⟨q, rfl, rfl, h⟩
  · rw [if_neg hzero, if_neg (Nat.not_lt.mpr hhalf)]
    exact queuePopHeadBatch_spec h n

omit [DecidableEq C] in
theorem processorCJThreadSteal_spec (h : Rep s v) {p q : P} (hempty : (v.procs p).runq = []) :
    ∃ s', processorCJThreadSteal s p q = ((v.steal p q).1, s') ∧ Rep s' (v.steal p q).2 := by
  have hlen : (v.procs q).runq.length ≤ PROCESSOR_QUEUE_CAPACITY := h.capacity q ▸ (h.holds q).length_le
  obtain ⟨r, hsteal, hcap, hr⟩ := processorQueueSteal_spec (h.holds q) hlen
  unfold processorCJThreadSteal View.steal
  rw [hsteal]
  have hn : (((v.procs q).runq.length + PROCESSOR_STEAL_RATIO - 1) / PROCESSOR_STEAL_RATIO) = 0 →
      (v.procs q).runq = [] := by
    unfold PROCESSOR_STEAL_RATIO
    intro hzero
    apply eq_nil_of_length_eq_zero
    omega
  dsimp only
  generalize ((v.procs q).runq.length + PROCESSOR_STEAL_RATIO - 1) / PROCESSOR_STEAL_RATIO = n at hr hn ⊢
  have hrep := h.setRunq hcap hr
  cases htake : (v.procs q).runq.take n with
  | nil =>
    -- half of a queue is nothing only when the queue is empty
    have hnil : (v.procs q).runq = [] := by
      rcases take_eq_nil_iff.mp htake with hzero | hnil
      · exact hn hzero
      · exact hnil
    rw [hnil, drop_nil] at hrep
    have hself := setRunq_self v q
    rw [hnil] at hself
    rw [hself] at hrep
    exact ⟨_, rfl, hrep⟩
  | cons first rest =>
    have hpq : p ≠ q := by
      rintro rfl
      rw [hempty, take_nil] at htake
      cases htake
    have hkept : ((v.setRunq q ((v.procs q).runq.drop n)).procs p).runq = [] := by
      simpa [View.setRunq, hpq] using hempty
    have hlocal := hrep.holds p
    rw [hkept] at hlocal
    have hrest : rest.length ≤ PROCESSOR_QUEUE_CAPACITY := by
      have hcount := congrArg length htake
      rw [length_take, length_cons] at hcount
      omega
    obtain ⟨r', hpush, hcap', hr'⟩ := queuePushTailBatch_spec hlocal rest
    rw [hrep.capacity p, length_nil, Nat.sub_zero] at hpush hr'
    rw [nil_append, take_of_length_le hrest] at hr'
    rw [Nat.min_eq_left hrest] at hpush
    simp only [hpush, if_true]
    exact ⟨_, rfl, hrep.setRunq hcap' hr'⟩

/-! ### Reading the global list -/

theorem share_le (hnum : 0 < num) (hn : 0 < n) : share num n ≤ num := by
  unfold share
  apply Nat.div_le_of_le_mul
  obtain ⟨k, rfl⟩ := Nat.exists_eq_add_of_lt hnum
  have hmul : k ≤ n * k := Nat.le_mul_of_pos_left k hn
  rw [Nat.zero_add, Nat.mul_add]
  omega

/-- What a call may take: at least one cjthread, not more than the ring holds and not more than there are. -/
structure Takes (num n : Nat) : Prop where
  pos : 0 < n
  le_capacity : n ≤ PROCESSOR_QUEUE_CAPACITY
  le_num : n ≤ num

/-- Unless nothing is left of the share in 32 bits, the batch is what it should be. -/
theorem takes_readNum (hnum : 0 < num) (hn : 0 < n)
    (hcut : batch = true → share num n % 2 ^ 32 ≠ 0) : Takes num (readNum num n batch) := by
  cases batch with
  | false => exact ⟨Nat.one_pos, show 1 ≤ PROCESSOR_QUEUE_CAPACITY by decide, hnum⟩
  | true =>
    have hle := share_le hnum hn
    have hmod := Nat.mod_le (share num n) (2 ^ 32)
    unfold readNum
    simp only [if_true]
    split <;> rename_i hcap
    · exact ⟨by decide, le_refl _, by omega⟩
    · exact ⟨Nat.pos_of_ne_zero (hcut rfl), Nat.not_lt.mp hcap, by omega⟩

theorem readNum_zero (hcut : share num n % 2 ^ 32 = 0) : readNum num n true = 0 := by
  unfold readNum
  rw [hcut]
  rfl

/-- The nodes `rest.take n` go through the temporary list into the array. -/
theorem transfer_spec (h : Cycle links .runq (rest.map .cjthread))
    (hnodup : rest.Nodup) (hpos : 0 < n) (hn : n ≤ rest.length) (hcap : n ≤ PROCESSOR_QUEUE_CAPACITY) :
    ∃ links₁ links₂, dulinkMove (dulinkInit links .tempDulink) .tempDulink .runq (asInt32 n) = some links₁ ∧
      drainLoop links₁ PROCESSOR_QUEUE_CAPACITY n = some (rest.take n, links₂) ∧
      Cycle links₂ .runq ((rest.drop n).map .cjthread) := by
  have hsplit : rest.map Node.cjthread = (rest.take n).map Node.cjthread ++ (rest.drop n).map Node.cjthread := by
    rw [← map_append, take_append_drop]
  have hlen : (rest.take n).length = n := length_take_of_le hn
  have hsome : (rest.take n).map Node.cjthread ≠ [] := by
    intro hnil
    have hzero := congrArg length hnil
    rw [length_map, hlen, length_nil] at hzero
    omega
  have hcount : asInt32 n = ↑((rest.take n).map Node.cjthread).length ∨
      asInt32 n = -↑((rest.drop n).map Node.cjthread).length := by
    left
    have hlt : n < 2 ^ 31 := hcap.trans_lt (by decide)
    rw [length_map, hlen, asInt32, if_pos hlt]
  have hempty : Cycle (dulinkInit links .tempDulink) .tempDulink (([] : List C).map .cjthread) := cycle_dulinkInit ..
  have happart : List.Disjoint (Node.runq :: rest.map .cjthread) (.tempDulink :: ([] : List C).map .cjthread) :=
    disjoint_heads runq_ne tempDulink_ne nofun (disjoint_nil_right rest)
  have hfrom : Cycle (dulinkInit links .tempDulink) .runq (rest.map .cjthread) :=
    h.congr (changes_dulinkInit links .tempDulink) happart
  rw [hsplit] at hfrom happart
  obtain ⟨links₁, hmove, hleft, htemp, -⟩ := dulinkMove_spec hfrom hempty hsome happart hcount
  rw [← map_append, append_nil] at htemp
  obtain ⟨links₂, hdrain, hchange⟩ := drainLoop_spec htemp (hlen ▸ hcap)
  rw [hlen] at hdrain
  refine ⟨links₁, links₂, hmove, hdrain, hleft.congr hchange ?_⟩
  apply disjoint_heads runq_ne tempDulink_ne nofun
  exact (disjoint_of_nodup_append ((take_append_drop n rest).symm ▸ hnodup)).symm

theorem globalTake_spec (h : Rep s v) (hglobal : v.global = c :: rest)
    (hnodup : v.global.Nodup) (hn : Takes s.num n)
    (hroom : (v.procs p).runq.length + (n - 1) ≤ PROCESSOR_QUEUE_CAPACITY) :
    ∃ s', globalTake s p n = some (some c, s') ∧
      Rep s' ((v.setRunq p ((v.procs p).runq ++ rest.take (n - 1))).setGlobal (rest.drop (n - 1))) := by
  have hcycle := h.cycle
  have hnum := h.num
  obtain ⟨hpos, hcap, hle⟩ := hn
  rw [hglobal] at hnodup hcycle hnum
  rw [length_cons] at hnum
  obtain ⟨links₁, hfirst, hcycle₁, -⟩ := removeFirst_spec hcycle
  unfold globalTake
  rw [hfirst]
  dsimp only [bind_eq_bind, bind_some]
  split_ifs with hone
  · rw [hone, Nat.sub_self, take_zero, drop_zero, append_nil, setRunq_self]
    refine ⟨_, rfl, ⟨h.next, h.capacity, h.holds, ?_, hcycle₁⟩⟩
    show s.num - 1 = rest.length
    omega
  · have hsub : sub32 n 1 = n - 1 := sub32_eq hpos (hcap.trans_lt capacity_lt)
    have hlen : n - 1 ≤ rest.length := by omega
    obtain ⟨links₂, links₃, hmove, hdrain, hleft⟩ :=
      transfer_spec hcycle₁ (nodup_cons.mp hnodup).2 (by omega) hlen (by omega)
    obtain ⟨q, hpush, hqcap, hq⟩ := queuePushTailBatch_spec (h.holds p) (rest.take (n - 1))
    have hall : (rest.take (n - 1)).length ≤ (s.processors p).runq.capacity - (v.procs p).runq.length := by
      rw [h.capacity p, length_take_of_le hlen]
      omega
    rw [take_of_length_le hall] at hq
    rw [hsub, hmove, bind_some, hdrain, bind_some, hpush]
    have hrep := h.setRunq hqcap hq
    refine ⟨_, rfl, ⟨hrep.next, hrep.capacity, hrep.holds, ?_, hleft⟩⟩
    show s.num - n = (rest.drop (n - 1)).length
    rw [length_drop]
    omega

theorem processorGlobalRead_spec (h : Rep s v) (hnodup : v.global.Nodup)
    (hread : 0 < s.num → Takes s.num (readNum s.num processorNum batch))
    (hroom : batch = true → (v.procs p).runq = []) :
    ∃ s', processorGlobalRead processorNum s p batch =
        some ((v.globalRead p (readNum s.num processorNum batch)).1, s') ∧
      Rep s' (v.globalRead p (readNum s.num processorNum batch)).2 := by
  have hnum := h.num
  unfold processorGlobalRead View.globalRead
  cases hglobal : v.global with
  | nil =>
    rw [hglobal, length_nil] at hnum
    rw [if_pos hnum]
    exact ⟨s, rfl, h⟩
  | cons c rest =>
    rw [hglobal, length_cons] at hnum
    have hpos : 0 < s.num := hnum ▸ Nat.succ_pos _
    rw [if_neg hpos.ne']
    apply globalTake_spec h hglobal hnodup (hread hpos)
    cases batch with
    | false => exact h.capacity p ▸ (h.holds p).length_le
    | true =>
      have hle := (hread hpos).le_capacity
      rw [hroom rfl, length_nil]
      omega

/-- A share that is a multiple of `2 ^ 32` is read as zero, and the array is overrun. -/
theorem processorGlobalRead_overrun (hnum : 0 < s.num) (hcut : share s.num processorNum % 2 ^ 32 = 0) :
    processorGlobalRead processorNum s p true = none := by
  unfold processorGlobalRead globalTake
  rw [if_neg hnum.ne', readNum_zero hcut]
  cases removeFirst s.links Node.runq with
  | none => rfl
  | some r =>
    cases hmove : dulinkMove (dulinkInit r.2 .tempDulink) .tempDulink .runq (asInt32 (sub32 0 1)) with
    | none => simp [hmove]
    | some links =>
      have hoverrun := drainLoop_overrun links (show PROCESSOR_QUEUE_CAPACITY < sub32 0 1 by decide)
      simp [hmove, hoverrun]

section Counting

variable [Fintype P]

/-! ### Occurrences -/

def Held.count (c : C) (h : Held C) : Nat := h.next.toList.count c + h.runq.count c

/-- How often the cjthread is somewhere in the run queues. -/
def View.count (v : View P C) (c : C) : Nat := tally (Held.count c) v.procs + v.global.count c

theorem count_setRunq (v : View P C) (p : P) (xs : List C) (c : C) :
    (v.setRunq p xs).count c + (v.procs p).runq.count c = v.count c + xs.count c := by
  have hmove := tally_update (Held.count c) v.procs p { v.procs p with runq := xs }
  unfold View.count View.setRunq
  simp only [Held.count] at hmove ⊢
  omega

theorem count_setNext (v : View P C) (p : P) (o : Option C) (c : C) :
    (v.setNext p o).count c + (v.procs p).next.toList.count c = v.count c + o.toList.count c := by
  have hmove := tally_update (Held.count c) v.procs p { v.procs p with next := o }
  unfold View.count View.setNext
  simp only [Held.count] at hmove ⊢
  omega

omit [DecidableEq P] in
theorem count_setGlobal (v : View P C) (xs : List C) (c : C) :
    (v.setGlobal xs).count c + v.global.count c = v.count c + xs.count c := by
  unfold View.count View.setGlobal
  dsimp only
  omega

theorem count_take_add_drop (xs : List C) (n : Nat) (c : C) :
    (xs.take n).count c + (xs.drop n).count c = xs.count c := by
  rw [← count_append, take_append_drop]

theorem count_spill (v : View P C) (p : P) (cs : List C) (c : C) : (v.spill p cs).count c = v.count c + cs.count c := by
  unfold View.spill
  generalize (v.procs p).runq.length / GLOBAL_ADD_RATIO = n
  dsimp only
  have hrunq := count_setRunq v p ((v.procs p).runq.drop n) c
  have hglobal := count_setGlobal (v.setRunq p ((v.procs p).runq.drop n)) ((v.procs p).runq.take n ++ cs ++ v.global) c
  have hsplit := count_take_add_drop (v.procs p).runq n c
  rw [count_append, count_append, setRunq_global] at hglobal
  omega

theorem count_push (v : View P C) (p : P) (x c : C) : (v.push p x).count c = v.count c + [x].count c := by
  unfold View.push
  split
  · have hrunq := count_setRunq v p ((v.procs p).runq ++ [x]) c
    rw [count_append] at hrunq
    omega
  · exact count_spill v p [x] c

theorem count_localWrite (v : View P C) (p : P) (x : C) (isReschd : Bool) (c : C) :
    (v.localWrite p x isReschd).count c = v.count c + [x].count c := by
  unfold View.localWrite
  split
  · exact count_push v p x c
  · have hnext := count_setNext v p (some x) c
    cases hobj : (v.procs p).next with
    | none =>
      rw [hobj] at hnext
      exact hnext
    | some obj =>
      have hpush := count_push (v.setNext p (some x)) p obj c
      rw [hobj] at hnext
      simp only [toList_some] at hnext ⊢
      omega

theorem count_localWriteBatch (v : View P C) (p : P) (cs : List C) (c : C) :
    (v.localWriteBatch p cs).count c = v.count c + cs.count c := by
  unfold View.localWriteBatch
  generalize PROCESSOR_QUEUE_CAPACITY - (v.procs p).runq.length = room
  dsimp only
  split
  · have hrunq := count_setRunq v p ((v.procs p).runq ++ cs) c
    rw [count_append] at hrunq
    omega
  · have hrunq := count_setRunq v p ((v.procs p).runq ++ cs.take room) c
    have hspill := count_spill (v.setRunq p ((v.procs p).runq ++ cs.take room)) p (cs.drop room) c
    have hsplit := count_take_add_drop cs room c
    rw [count_append] at hrunq
    omega

theorem count_globalRead (v : View P C) (p : P) (n : Nat) (c : C) :
    (v.globalRead p n).2.count c + (v.globalRead p n).1.toList.count c = v.count c := by
  unfold View.globalRead
  cases hglobal : v.global with
  | nil => exact Nat.add_zero _
  | cons x rest =>
    have hrunq := count_setRunq v p ((v.procs p).runq ++ rest.take (n - 1)) c
    have hrest := count_setGlobal (v.setRunq p ((v.procs p).runq ++ rest.take (n - 1))) (rest.drop (n - 1)) c
    have hsplit := count_take_add_drop rest (n - 1) c
    have hcons : (x :: rest).count c = rest.count c + [x].count c := by
      rw [count_cons, count_singleton]
    rw [count_append] at hrunq
    rw [setRunq_global, hglobal, hcons] at hrest
    dsimp only [toList_some]
    omega

theorem count_localRead (v : View P C) (p : P) (c : C) :
    (v.localRead p).2.count c + (v.localRead p).1.toList.count c = v.count c := by
  unfold View.localRead
  cases hxs : (v.procs p).runq with
  | nil => exact Nat.add_zero _
  | cons x rest =>
    have hrunq := count_setRunq v p rest c
    rw [hxs, count_cons] at hrunq
    dsimp only [toList_some]
    rw [count_singleton]
    omega

theorem count_nextRead (v : View P C) (p : P) (c : C) :
    (v.nextRead p).2.count c + (v.nextRead p).1.toList.count c = v.count c :=
  count_setNext v p none c

theorem count_steal (v : View P C) {p q : P} (hempty : (v.procs p).runq = []) (c : C) :
    (v.steal p q).2.count c + (v.steal p q).1.toList.count c = v.count c := by
  unfold View.steal
  dsimp only
  generalize ((v.procs q).runq.length + PROCESSOR_STEAL_RATIO - 1) / PROCESSOR_STEAL_RATIO = n
  cases htake : (v.procs q).runq.take n with
  | nil => exact Nat.add_zero _
  | cons first rest =>
    have hpq : p ≠ q := by
      rintro rfl
      rw [hempty, take_nil] at htake
      cases htake
    have hvictim := count_setRunq v q ((v.procs q).runq.drop n) c
    have hlocal := count_setRunq (v.setRunq q ((v.procs q).runq.drop n)) p rest c
    have hkept : ((v.setRunq q ((v.procs q).runq.drop n)).procs p).runq = [] := by
      simpa [View.setRunq, hpq] using hempty
    have hsplit := count_take_add_drop (v.procs q).runq n c
    rw [htake, count_cons] at hsplit
    rw [hkept, count_nil] at hlocal
    dsimp only [toList_some]
    rw [count_singleton]
    omega

/-- New cjthreads, each once, fit into the global list. -/
theorem spill_nodup {cs : List C} (hnew : ∀ c, v.count c + cs.count c ≤ 1) : (v.spill p cs).global.Nodup := by
  rw [nodup_iff_count_le_one]
  intro c
  have hspill := count_spill v p cs c
  have hle : (v.spill p cs).global.count c ≤ (v.spill p cs).count c := Nat.le_add_left ..
  have hnew := hnew c
  omega

/-! ### The functions -/

theorem pushOrSpill_spec (h : Rep s v) {c : C} (hnew : ∀ x, v.count x + [c].count x ≤ 1) :
    ∃ s', pushOrSpill s p c = some s' ∧ Rep s' (v.push p c) := by
  unfold pushOrSpill View.push
  rcases queuePushTail_spec (h.holds p) c with ⟨hroom, q, hpush, hcap, hq⟩ | ⟨hfull, hpush⟩
  · rw [h.capacity p] at hroom
    rw [hpush, if_pos hroom]
    exact ⟨_, rfl, h.setRunq hcap hq⟩
  · rw [h.capacity p] at hfull
    rw [hpush, if_neg hfull.not_lt]
    exact processorGlobalWrite_spec h (cons_ne_nil c []) (spill_nodup hnew)

theorem processorLocalWrite_spec (h : Rep s v) {c : C} (hnew : ∀ x, v.count x + [c].count x ≤ 1) (isReschd : Bool) :
    ∃ s', processorLocalWrite s p c isReschd = some s' ∧ Rep s' (v.localWrite p c isReschd) := by
  unfold processorLocalWrite View.localWrite
  rw [h.next p]
  cases isReschd with
  | true => exact pushOrSpill_spec h hnew
  | false =>
    cases hobj : (v.procs p).next with
    | none => exact ⟨_, rfl, h.setNext p (some c)⟩
    | some obj =>
      -- the two cjthreads have changed places
      apply pushOrSpill_spec (h.setNext p (some c))
      intro x
      have hnext := count_setNext v p (some c) x
      have hnew := hnew x
      rw [hobj] at hnext
      simp only [toList_some] at hnext
      omega

theorem processorLocalWriteBatch_spec (h : Rep s v) {cs : List C} (hnew : ∀ c, v.count c + cs.count c ≤ 1) :
    ∃ s', processorLocalWriteBatch s p cs = some s' ∧ Rep s' (v.localWriteBatch p cs) := by
  obtain ⟨q, hpush, hcap, hq⟩ := queuePushTailBatch_spec (h.holds p) cs
  rw [h.capacity p] at hpush hq
  unfold processorLocalWriteBatch View.localWriteBatch
  rw [hpush]
  generalize PROCESSOR_QUEUE_CAPACITY - (v.procs p).runq.length = room at hq ⊢
  dsimp only
  by_cases hroom : cs.length ≤ room
  · rw [if_pos hroom, if_pos (Nat.min_eq_left hroom)]
    rw [take_of_length_le hroom] at hq
    exact ⟨_, rfl, h.setRunq hcap hq⟩
  · have hmin : min cs.length room = room := Nat.min_eq_right (Nat.le_of_not_le hroom)
    have hne : ¬room = cs.length := by omega
    rw [if_neg hroom, hmin, if_neg hne]
    apply processorGlobalWrite_spec (h.setRunq hcap hq)
    · rw [Ne, drop_eq_nil_iff]
      exact hroom
    · apply spill_nodup
      intro c
      have hrunq := count_setRunq v p ((v.procs p).runq ++ cs.take room) c
      have hsplit := count_take_add_drop cs room c
      have hnew := hnew c
      rw [count_append] at hrunq
      omega

end Counting

end Processor
end CangjieRuntime
