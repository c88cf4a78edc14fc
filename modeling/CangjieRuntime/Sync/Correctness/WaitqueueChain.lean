import CangjieRuntime.Sync.Waitqueue

/-!
# `Sync.Correctness.WaitqueueChain` — the structure of the wait queue

`Rep s ns` says that the queue is the list of nodes `ns`: the links from the head are a doubly linked chain of exactly
these nodes, `nwait` is their number, `tail` is null or the last of them. Each function is a function on lists, and
since every list it leaves is made of the nodes it found, no waiter is lost and none is made ready twice.
-/

namespace CangjieRuntime

open Chain Word Interleave Link Function List

namespace Waitqueue

variable {N W : Type}

/-! ## The queue as a list of nodes -/

/-- The links and the tail pointer describe the list of nodes. -/
structure Shape (links : Links (Ptr N)) (tail : Option (Ptr N)) (ns : List N) : Prop where
  line : Line links .head (ns.map .listNode)
  tail : tail = (ns.map Ptr.listNode).getLast?

/-- The queue is the list of nodes, and `nwait` its length. -/
structure Rep (s : State N W) (ns : List N) : Prop where
  shape : Shape s.links s.tail ns
  nwait : s.nwait = ns.length
  lt : ns.length < 2 ^ 32
  allocated : s.allocated.Perm ns

/-- The waiters in the nodes. -/
def waiters (s : State N W) (ns : List N) : List W := ns.map fun n => (s.node n).cjthread

variable {links : Links (Ptr N)} {tail : Option (Ptr N)} {s : State N W} {n : N} {ns xs ys : List N}

theorem head_ne (n : N) : Ptr.head ≠ Ptr.listNode n := nofun

theorem Shape.nodup (h : Shape links tail ns) : ns.Nodup := (nodup_cons.mp h.line.nodup).2.of_map _

/-- From the head one comes to the first node. -/
theorem Shape.next_head (h : Shape links tail ns) : links.next .head = (ns.map Ptr.listNode).head? := by
  cases ns with
  | nil => exact h.line.last .head rfl
  | cons n rest =>
    obtain ⟨-, hjoined, -⟩ := path_split (p := []).mp h.line.path
    exact hjoined.next

/-- From a node one comes to the next. -/
theorem Shape.next_node (h : Shape links tail (xs ++ n :: ys)) :
    links.next (.listNode n) = (ys.map Ptr.listNode).head? := by
  have hpath := h.line.path
  have hlast := h.line.last
  simp only [map_append, map_cons] at hpath hlast
  rw [← cons_append] at hpath hlast
  cases ys with
  | nil =>
    apply hlast
    rw [map_nil, getLast?_concat]
    rfl
  | cons m rest =>
    obtain ⟨-, hjoined, -⟩ := path_split.mp hpath
    exact hjoined.next

/-- From a node one comes back to the one before it, or to the head. -/
theorem Shape.prev_node (h : Shape links tail (xs ++ n :: ys)) :
    links.prev (.listNode n) = (.head :: xs.map Ptr.listNode).getLast? := by
  obtain ⟨p, a, hp⟩ : ∃ p a, Ptr.head :: xs.map Ptr.listNode = p ++ [a] :=
    ⟨_, _, (dropLast_append_getLast (cons_ne_nil _ _)).symm⟩
  have hpath := h.line.path
  rw [map_append, map_cons, ← cons_append, hp, ← append_cons] at hpath
  obtain ⟨-, hjoined, -⟩ := path_split.mp hpath
  rw [hp, getLast?_concat]
  exact hjoined.prev

variable [DecidableEq N] {s' : State N W} {op : Op N W} {ns' : List N}

/-- The tail is right without the node, whichever node it is. -/
theorem Shape.unlink (h : Shape s.links s.tail (xs ++ n :: ys)) (hnwait : s.nwait = (xs ++ n :: ys).length) :
    Shape (s.unlink n).links (s.unlink n).tail (xs ++ ys) := by
  have hline := h.line
  rw [map_append, map_cons] at hline
  refine ⟨?_, ?_⟩
  · rw [map_append]
    exact (linkRemove_spec hline).1
  · unfold State.unlink
    dsimp only
    rw [h.next_node, h.prev_node, h.tail, hnwait]
    cases ys with
    | nil =>
      rw [map_nil, head?_nil, if_pos rfl, append_nil, length_append, length_singleton]
      cases xs with
      | nil => rfl
      | cons m rest =>
        have hne : ¬(m :: rest).length + 1 = 1 := by simp
        rw [if_neg hne, map_cons, getLast?_cons_cons]
    | cons m rest =>
      have hne : ¬((m :: rest).map Ptr.listNode).head? = none := by simp
      rw [if_neg hne, map_append, map_append, map_cons, map_cons, getLast?_append_cons,
        getLast?_append_cons, getLast?_cons_cons]

omit [DecidableEq N] in
theorem Shape.not_mem (h : Shape links tail (xs ++ n :: ys)) : n ∉ xs ++ ys :=
  (nodup_middle.mp h.nodup |> nodup_cons.mp).1

theorem Shape.linkInit (h : Shape links tail ns) (hn : n ∉ ns) : Shape (linkInit links (.listNode n)) tail ns := by
  refine ⟨h.line.congr (changes_linkInit links (.listNode n)) ?_, h.tail⟩
  intro u hu hu'
  rw [mem_singleton.mp hu'] at hu
  rcases mem_cons.mp hu with heq | hmem
  · exact head_ne n heq.symm
  · obtain ⟨m, hm, heq⟩ := mem_map.mp hmem
    exact hn (Ptr.listNode.inj heq ▸ hm)

theorem erase_middle (h : (xs ++ n :: ys).Nodup) : (xs ++ n :: ys).erase n = xs ++ ys := by
  have hnot : n ∉ xs := fun hmem => disjoint_of_nodup_append h hmem (mem_cons_self ..)
  rw [erase_append_right _ hnot, erase_cons_head]

/-! ## One spec for each function -/

/-- The waiter of one node is made ready, and the other nodes stay in their order. -/
structure Woken (s s' : State N W) (n : N) : Prop where
  node : s'.node = s.node
  pushed : s'.pushed = s.pushed
  readied : s'.readied = s.readied ++ [(s.node n).cjthread]

theorem rep_remove (h : Rep s (xs ++ n :: ys)) (hshape : Shape s'.links s'.tail (xs ++ ys))
    (hnwait : s'.nwait = sub32 s.nwait 1) (halloc : s'.allocated = s.allocated.erase n) : Rep s' (xs ++ ys) := by
  have hlen : (xs ++ n :: ys).length = (xs ++ ys).length + 1 := perm_middle.length_eq
  have hlt := h.lt
  refine ⟨hshape, ?_, by omega, ?_⟩
  · rw [hnwait, h.nwait, sub32_eq (by omega) hlt, hlen]
    rfl
  · rw [halloc, ← erase_middle h.shape.nodup]
    exact h.allocated.erase n

theorem wake_eq (s : State N W) (n : N) :
    wake s n = { s with
      links := linkInit (s.unlink n).links (.listNode n)
      tail := (s.unlink n).tail
      nwait := sub32 s.nwait 1
      timerNwait := if (s.node n).timer ≠ none then sub32 s.timerNwait 1 else s.timerNwait
      readied := s.readied ++ [(s.node n).cjthread]
      allocated := s.allocated.erase n } := by
  unfold wake State.freeNode State.cjthreadReady State.unlink
  rfl

theorem wake_spec (h : Rep s (xs ++ n :: ys)) : Rep (wake s n) (xs ++ ys) ∧ Woken s (wake s n) n := by
  have hshape := (h.shape.unlink h.nwait).linkInit h.shape.not_mem
  rw [wake_eq]
  exact ⟨rep_remove h hshape rfl rfl, rfl, rfl, rfl⟩

theorem waitqueueCallback_eq (h : (s.node n).timer ≠ none) :
    waitqueueCallback s n = { s with
      links := (s.unlink n).links
      tail := (s.unlink n).tail
      nwait := sub32 s.nwait 1
      timerNwait := sub32 s.timerNwait 1
      readied := s.readied ++ [(s.node n).cjthread]
      timedOut := s.timedOut ++ [(s.node n).cjthread]
      allocated := s.allocated.erase n } := by
  have hne : ¬((s.unlink n).node n).timer = none := h
  unfold waitqueueCallback State.freeNode State.cjthreadReady
  dsimp only
  rw [if_neg hne]
  unfold State.unlink
  rfl

theorem waitqueueCallback_spec (h : Rep s (xs ++ n :: ys)) (htimer : (s.node n).timer ≠ none) :
    Rep (waitqueueCallback s n) (xs ++ ys) ∧ Woken s (waitqueueCallback s n) n := by
  rw [waitqueueCallback_eq htimer]
  exact ⟨rep_remove h (h.shape.unlink h.nwait) rfl rfl, rfl, rfl, rfl⟩

omit [DecidableEq N] in
/-- The loop of `WaitqueueWakeOne` comes to the first node that can be woken. -/
theorem findNode_spec (h : Shape s.links s.tail (xs ++ ys)) (hys : ys ≠ []) {fuel : Nat} (hfuel : ys.length ≤ fuel) :
    (findNode s (ys.map Ptr.listNode).head? fuel = some none ∧ ∀ n ∈ ys, (s.node n).blocked = true) ∨
      ∃ firing n rest, ys = firing ++ n :: rest ∧ findNode s (ys.map Ptr.listNode).head? fuel = some (some n) ∧
        (∀ n ∈ firing, (s.node n).blocked = true) ∧ (s.node n).blocked = false := by
  induction ys generalizing xs fuel with
  | nil => exact absurd rfl hys
  | cons n rest ih =>
    obtain ⟨fuel, rfl⟩ : ∃ k, fuel = k + 1 := Nat.exists_eq_succ_of_ne_zero (by rw [length_cons] at hfuel; omega)
    rw [length_cons] at hfuel
    rw [map_cons, head?_cons, findNode, h.next_node]
    by_cases hblocked : (s.node n).blocked = true
    · rw [if_pos hblocked]
      cases rest with
      | nil =>
        have hnone : ([].map Ptr.listNode : List (Ptr N)).head? = none := rfl
        rw [if_pos hnone]
        exact Or.inl ⟨rfl, fun u hu => mem_singleton.mp hu ▸ hblocked⟩
      | cons m rest =>
        have hne : ¬((m :: rest).map Ptr.listNode).head? = none := by simp
        rw [if_neg hne]
        rw [append_cons] at h
        rcases ih h (cons_ne_nil m rest) (Nat.le_of_succ_le_succ hfuel) with
          ⟨hfind, hall⟩ | ⟨firing, k, rest', heq, hfind, hall, hk⟩
        · exact Or.inl ⟨hfind, forall_mem_cons.mpr ⟨hblocked, hall⟩⟩
        · exact Or.inr ⟨n :: firing, k, rest', by rw [heq, cons_append], hfind,
            forall_mem_cons.mpr ⟨hblocked, hall⟩, hk⟩
    · rw [if_neg hblocked]
      exact Or.inr ⟨[], n, rest, rfl, rfl, fun _ hu => absurd hu not_mem_nil, Bool.eq_false_iff.mpr hblocked⟩

/-! ### Waking all -/

/-- The loops of `WaitqueueWakeAll` on lists: `xs` has been passed since the last restart, `ys` is still ahead. The
    results are the nodes that stay and the nodes woken, in order. -/
def sweep (blocked : N → Bool) : List N → List N → Nat → List N × List N
  | xs, ys, 0 => (xs ++ ys, [])
  | xs, [], _ + 1 => (xs, [])
  | xs, n :: ys, len + 1 =>
    if blocked n then sweep blocked (xs ++ [n]) ys len
    else
      let (stay, woken) := sweep blocked [] (xs ++ ys) len
      (stay, n :: woken)

omit [DecidableEq N] in
/-- Every node stays or is woken. -/
theorem sweep_perm (blocked : N → Bool) (xs ys : List N) (len : Nat) :
    ((sweep blocked xs ys len).2 ++ (sweep blocked xs ys len).1).Perm (xs ++ ys) := by
  induction len generalizing xs ys with
  | zero =>
    rw [sweep]
    exact List.Perm.refl _
  | succ len ih =>
    cases ys with
    | nil =>
      rw [sweep, append_nil]
      exact List.Perm.refl _
    | cons n ys =>
      rw [sweep]
      split
      · have hrest := ih (xs ++ [n]) ys
        rw [← append_cons] at hrest
        exact hrest
      · have hrest := ih [] (xs ++ ys)
        rw [nil_append] at hrest
        exact (hrest.cons n).trans perm_middle.symm

omit [DecidableEq N] in
/-- If nothing is firing, the nodes are woken from the front. -/
theorem sweep_inOrder {blocked : N → Bool} (h : ∀ n ∈ ys, blocked n = false) (len : Nat) :
    sweep blocked [] ys len = (ys.drop len, ys.take len) := by
  induction len generalizing ys with
  | zero =>
    rw [sweep]
    rfl
  | succ len ih =>
    cases ys with
    | nil => rfl
    | cons n ys =>
      have hn : ¬blocked n = true := by
        rw [h n (mem_cons_self ..)]
        exact Bool.false_ne_true
      rw [sweep, if_neg hn, nil_append, ih fun m hm => h m (mem_cons_of_mem n hm)]
      rfl

/-- Some nodes are made ready, and the others stay. -/
structure Swept (s s' : State N W) (woken : List N) : Prop where
  node : s'.node = s.node
  pushed : s'.pushed = s.pushed
  readied : s'.readied = s.readied ++ waiters s woken

omit [DecidableEq N] in
theorem Swept.refl (s : State N W) : Swept s s [] := ⟨rfl, rfl, (append_nil _).symm⟩

omit [DecidableEq N] in
theorem Woken.swept {s' s'' : State N W} {woken : List N} (h : Woken s s' n) (h' : Swept s' s'' woken) :
    Swept s s'' (n :: woken) := by
  refine ⟨h'.node.trans h.node, h'.pushed.trans h.pushed, ?_⟩
  have hwaiters : waiters s' woken = waiters s woken := by
    unfold waiters
    rw [h.node]
  rw [h'.readied, h.readied, hwaiters, append_assoc]
  rfl

theorem wakeAllLoop_spec (h : Rep s (xs ++ ys)) {len : Nat} (hlen : len ≤ ys.length) :
    ∃ s', wakeAllLoop s (ys.map Ptr.listNode).head? len = some s' ∧
      Rep s' (sweep (fun n => (s.node n).blocked) xs ys len).1 ∧
      Swept s s' (sweep (fun n => (s.node n).blocked) xs ys len).2 := by
  induction len generalizing s xs ys with
  | zero =>
    rw [sweep]
    exact ⟨s, rfl, h, Swept.refl s⟩
  | succ len ih =>
    cases ys with
    | nil => exact absurd hlen (Nat.not_succ_le_zero len)
    | cons n ys =>
      have hlen : len ≤ ys.length := Nat.le_of_succ_le_succ hlen
      rw [map_cons, head?_cons, wakeAllLoop, sweep, h.shape.next_node]
      by_cases hblocked : (s.node n).blocked = true
      · rw [if_pos hblocked, if_pos hblocked]
        rw [append_cons] at h
        by_cases hzero : len = 0
        · subst hzero
          rw [if_pos rfl, sweep]
          exact ⟨s, rfl, h, Swept.refl s⟩
        · rw [if_neg hzero]
          exact ih h hlen
      · rw [if_neg hblocked, if_neg hblocked]
        obtain ⟨hrep, hwoken⟩ := wake_spec h
        have hlen' : len ≤ (xs ++ ys).length := by
          rw [length_append]
          omega
        rw [← nil_append (xs ++ ys)] at hrep
        obtain ⟨s', hloop, hrep', hswept⟩ := ih hrep hlen'
        rw [nil_append] at hrep
        rw [hwoken.node] at hrep' hswept
        refine ⟨s', ?_, hrep', hwoken.swept hswept⟩
        rw [← hrep.shape.next_head] at hloop
        exact hloop

/-! ### Pushing -/

/-- Where a new node goes. -/
def place (toHead : Bool) (n : N) (ns : List N) : List N := if toHead then n :: ns else ns ++ [n]

omit [DecidableEq N] in
theorem place_perm (toHead : Bool) (n : N) (ns : List N) : (place toHead n ns).Perm (n :: ns) := by
  unfold place
  split
  · exact List.Perm.refl _
  · exact perm_append_singleton n ns

theorem pushNode_spec (h : Shape s.links s.tail ns) (hnwait : s.nwait = ns.length + 1) (hn : n ∉ ns) (toHead : Bool) :
    ∃ links tail, pushNode s n toHead = some { s with links := links, tail := tail } ∧
      Shape links tail (place toHead n ns) := by
  have hfresh : Ptr.listNode n ∉ Ptr.head :: ns.map Ptr.listNode := by
    intro hmem
    rcases mem_cons.mp hmem with heq | hmem
    · exact head_ne n heq.symm
    · obtain ⟨m, hm, heq⟩ := mem_map.mp hmem
      exact hn (Ptr.listNode.inj heq ▸ hm)
  have hhead := (linkPushHead_spec h.line hfresh).1
  unfold pushNode
  cases ns with
  | nil =>
    rw [length_nil] at hnwait
    rw [if_pos hnwait]
    refine ⟨_, _, rfl, ?_⟩
    have hplace : place toHead n [] = [n] := by cases toHead <;> rfl
    rw [hplace]
    exact ⟨hhead, rfl⟩
  | cons m rest =>
    have hne : ¬s.nwait = 1 := by
      rw [hnwait, length_cons]
      omega
    rw [if_neg hne]
    cases toHead with
    | true =>
      refine ⟨_, s.tail, rfl, hhead, ?_⟩
      rw [h.tail]
      exact getLast?_cons_cons.symm
    | false =>
      obtain ⟨a, ha⟩ : ∃ a, ((m :: rest).map Ptr.listNode).getLast? = some a :=
        Option.ne_none_iff_exists'.mp (by simp)
      have hlast : a ∈ (Ptr.head :: (m :: rest).map Ptr.listNode).getLast? := by
        rw [map_cons, getLast?_cons_cons]
        exact ha
      have htail := (linkPushTail_spec h.line hfresh hlast).1
      rw [h.tail, ha]
      refine ⟨_, _, rfl, ?_, ?_⟩
      · show Line _ _ ((m :: rest ++ [n]).map Ptr.listNode)
        rw [map_append]
        exact htail
      · show _ = ((m :: rest ++ [n]).map Ptr.listNode).getLast?
        rw [map_append]
        exact getLast?_concat.symm

/-- A new waiter is in the queue. -/
structure Parked (s s' : State N W) (n : N) (w : W) : Prop where
  pushed : s'.pushed = s.pushed ++ [w]
  readied : s'.readied = s.readied
  cjthread : (s'.node n).cjthread = w
  calm : (s'.node n).blocked = false
  node : ∀ m, m ≠ n → s'.node m = s.node m

/-- A call of `WaitqueuePark` changes nothing, or adds one node at one end. -/
theorem waitqueuePark_spec (h : Rep s ns) {p : Park N W} (hfresh : ∀ n, p.node = some n → n ∉ s.allocated) :
    waitqueuePark s p = some s ∨
      ∃ n s', waitqueuePark s p = some s' ∧ n ∉ ns ∧ Rep s' (place p.toHead n ns) ∧ Parked s s' n p.cjthread := by
  have hnwait := h.nwait
  have hlt := h.lt
  unfold waitqueuePark waitqueuePush
  by_cases hmax : s.nwait = UINT32_MAX
  · rw [if_pos hmax]
    exact Or.inl rfl
  rw [if_neg hmax]
  have hmore : ns.length + 1 < 2 ^ 32 := by
    unfold UINT32_MAX at hmax
    omega
  have hadd : add32 s.nwait 1 = ns.length + 1 := by rw [hnwait, add32_eq hmore]
  have hback : sub32 (add32 s.nwait 1) 1 = s.nwait := by
    rw [hadd, sub32_eq (Nat.succ_le_succ (Nat.zero_le _)) hmore, hnwait]
    rfl
  dsimp only
  by_cases hcallback : p.callback = true
  · rw [if_pos hcallback, hback]
    exact Or.inl rfl
  rw [if_neg hcallback]
  cases hnode : p.node with
  | none =>
    dsimp only
    rw [hback]
    exact Or.inl rfl
  | some n =>
    right
    have hn : n ∉ ns := fun hmem => hfresh n hnode (h.allocated.mem_iff.mpr hmem)
    obtain ⟨links, tail, hpush, hshape⟩ := pushNode_spec (s := { s with
      nwait := add32 s.nwait 1
      node := update s.node n ⟨p.cjthread, none⟩
      allocated := n :: s.allocated }) h.shape hadd hn p.toHead
    have hlen := (place_perm p.toHead n ns).length_eq
    have halloc : (n :: s.allocated).Perm (place p.toHead n ns) :=
      (h.allocated.cons n).trans (place_perm p.toHead n ns).symm
    have hcount : add32 s.nwait 1 = (place p.toHead n ns).length := hadd.trans hlen.symm
    rw [length_cons] at hlen
    simp only [hpush, Option.map_some, Option.bind_eq_bind, Option.bind_some]
    by_cases htimeout : p.timeout = true
    · rw [if_pos htimeout]
      refine ⟨n, _, rfl, hn, ⟨hshape, hcount, hlen ▸ hmore, halloc⟩, rfl, rfl, ?_, ?_, ?_⟩
      · dsimp only
        rw [update_self]
      · dsimp only
        rw [update_self]
        cases p.timerNew <;> rfl
      · intro m hm
        dsimp only
        rw [update_of_ne hm, update_of_ne hm]
    · rw [if_neg htimeout]
      refine ⟨n, _, rfl, hn, ⟨hshape, hcount, hlen ▸ hmore, halloc⟩, rfl, rfl, ?_, ?_, ?_⟩
      · dsimp only
        rw [update_self]
      · dsimp only
        rw [update_self]
        rfl
      · intro m hm
        exact update_of_ne hm ..

/-! ## What a step can do -/

/-- The three kinds of steps. -/
inductive Effect (op : Op N W) (s s' : State N W) (ns ns' : List N) : Prop where
  /-- The list and its waiters stay. -/
  | quiet (list : ns' = ns) (pushed : s'.pushed = s.pushed) (readied : s'.readied = s.readied)
      (cjthread : ∀ n, (s'.node n).cjthread = (s.node n).cjthread) (calm : InOrder op → s'.node = s.node)
  | parked (n : N) (w : W) (toHead : Bool) (new : n ∉ ns ∧ w ∉ s.pushed) (list : ns' = place toHead n ns)
      (effect : Parked s s' n w) (order : InOrder op → toHead = false)
  | woken (woken : List N) (list : (woken ++ ns').Perm ns) (effect : Swept s s' woken)
      (order : InOrder op → (∀ n ∈ ns, (s.node n).blocked = false) → woken ++ ns' = ns)

theorem wakeOne_effect (h : Rep s ns) (callback : Bool) :
    ∃ s' ns', act s (.wakeOne callback) = some s' ∧ Rep s' ns' ∧ Effect (.wakeOne callback) s s' ns ns' := by
  have hquiet : Effect (.wakeOne callback) s s ns ns := .quiet rfl rfl rfl (fun _ => rfl) fun _ => rfl
  show ∃ s' ns', (waitqueueWakeOne s callback).map Prod.snd = some s' ∧ _
  unfold waitqueueWakeOne waitqueueWakePreparation
  by_cases hcallback : callback = true
  · rw [if_pos hcallback]
    exact ⟨s, ns, rfl, h, hquiet⟩
  rw [if_neg hcallback]
  by_cases hzero : s.nwait = 0
  · rw [if_pos hzero]
    exact ⟨s, ns, rfl, h, hquiet⟩
  rw [if_neg hzero]
  dsimp only
  have hns : ns ≠ [] := by
    rintro rfl
    exact hzero h.nwait
  have hshape : Shape s.links s.tail ([] ++ ns) := h.shape
  rw [h.shape.next_head]
  rcases findNode_spec hshape hns h.allocated.length_eq.ge with ⟨hfind, -⟩ | ⟨firing, n, rest, rfl, hfind, hall, -⟩
  · rw [hfind]
    exact ⟨s, ns, rfl, h, hquiet⟩
  · rw [hfind]
    obtain ⟨hrep, hwoken⟩ := wake_spec h
    have hperm : ([n] ++ (firing ++ rest)).Perm (firing ++ n :: rest) := by
      rw [singleton_append]
      exact perm_middle.symm
    refine ⟨wake s n, firing ++ rest, rfl, hrep, .woken [n] hperm (hwoken.swept (Swept.refl _)) ?_⟩
    -- without firing timers the search ends at the first node
    intro _ hcalm
    cases firing with
    | nil => rfl
    | cons m firing =>
      have hblocked := hall m (mem_cons_self ..)
      rw [hcalm m (mem_cons_self ..)] at hblocked
      cases hblocked

theorem wakeAll_effect (h : Rep s ns) (callback : Bool) :
    ∃ s' ns', act s (.wakeAll callback) = some s' ∧ Rep s' ns' ∧ Effect (.wakeAll callback) s s' ns ns' := by
  have hquiet : Effect (.wakeAll callback) s s ns ns := .quiet rfl rfl rfl (fun _ => rfl) fun _ => rfl
  show ∃ s' ns', (waitqueueWakeAll s callback).map Prod.snd = some s' ∧ _
  unfold waitqueueWakeAll waitqueueWakePreparation
  by_cases hcallback : callback = true
  · rw [if_pos hcallback]
    exact ⟨s, ns, rfl, h, hquiet⟩
  rw [if_neg hcallback]
  by_cases hzero : s.nwait = 0
  · rw [if_pos hzero]
    exact ⟨s, ns, rfl, h, hquiet⟩
  rw [if_neg hzero]
  dsimp only
  have hrep : Rep s ([] ++ ns) := h
  obtain ⟨s', hloop, hrep', hswept⟩ := wakeAllLoop_spec hrep h.nwait.le
  rw [h.shape.next_head, hloop]
  refine ⟨s', _, rfl, hrep', .woken _ (sweep_perm _ [] ns _) hswept ?_⟩
  intro _ hcalm
  rw [sweep_inOrder hcalm]
  exact take_append_drop ..

/-- **One step.** It is defined, leaves a well-formed queue, and is of one of the three kinds. -/
theorem act_effect (h : Rep s ns) (hop : Possible s op) :
    ∃ s' ns', act s op = some s' ∧ Rep s' ns' ∧ Effect op s s' ns ns' := by
  cases op with
  | park p =>
    obtain ⟨hnew, hfresh⟩ := hop
    rcases waitqueuePark_spec h hfresh with hpark | ⟨n, s', hpark, hn, hrep, hparked⟩
    · exact ⟨s, ns, hpark, h, .quiet rfl rfl rfl (fun _ => rfl) fun _ => rfl⟩
    · exact ⟨s', _, hpark, hrep, .parked n p.cjthread p.toHead ⟨hn, hnew⟩ rfl hparked id⟩
  | wakeOne callback => exact wakeOne_effect h callback
  | wakeAll callback => exact wakeAll_effect h callback
  | fire n =>
    refine ⟨_, ns, rfl, ⟨h.shape, h.nwait, h.lt, h.allocated⟩, .quiet rfl rfl rfl ?_ False.elim⟩
    intro m
    dsimp only
    by_cases hm : m = n
    · rw [hm, update_self]
    · rw [update_of_ne hm]
  | callback n =>
    obtain ⟨hmem, htimer⟩ := hop
    obtain ⟨xs, ys, rfl⟩ := append_of_mem (h.allocated.mem_iff.mp hmem)
    obtain ⟨hrep, hwoken⟩ := waitqueueCallback_spec h (by rw [htimer]; exact Option.some_ne_none _)
    have hperm : ([n] ++ (xs ++ ys)).Perm (xs ++ n :: ys) := by
      rw [singleton_append]
      exact perm_middle.symm
    exact ⟨_, _, rfl, hrep, .woken [n] hperm (hwoken.swept (Swept.refl _)) False.elim⟩

/-! ## Invariants of runs -/

omit [DecidableEq N] in
theorem waiters_congr (h : ∀ n ∈ ns, (s'.node n).cjthread = (s.node n).cjthread) :
    waiters s' ns = waiters s ns :=
  map_congr_left h

omit [DecidableEq N] in
theorem Parked.waiters_eq {w : W} (h : Parked s s' n w) (hn : n ∉ ns) : waiters s' ns = waiters s ns := by
  apply waiters_congr
  intro m hm
  rw [h.node m fun heq => hn (heq ▸ hm)]

/-- Every waiter is waiting or has been made ready, and none is both or twice. -/
structure Inv (s : State N W) (ns : List N) : Prop where
  rep : Rep s ns
  perm : (s.readied ++ waiters s ns).Perm s.pushed
  nodup : s.pushed.Nodup

omit [DecidableEq N] in
theorem Inv.step (h : Inv s ns) (hrep : Rep s' ns')
    (heffect : Effect op s s' ns ns') : Inv s' ns' := by
  cases heffect with
  | quiet list pushed readied cjthread _ =>
    subst list
    refine ⟨hrep, ?_, pushed ▸ h.nodup⟩
    rw [pushed, readied, waiters_congr fun n _ => cjthread n]
    exact h.perm
  | parked n w toHead new list effect _ =>
    subst list
    have hplace : (waiters s' (place toHead n ns)).Perm (w :: waiters s ns) := by
      have hperm := (place_perm toHead n ns).map fun n => (s'.node n).cjthread
      rw [map_cons, effect.cjthread] at hperm
      rw [← effect.waiters_eq new.1]
      exact hperm
    refine ⟨hrep, ?_, ?_⟩
    · rw [effect.pushed, effect.readied]
      calc (s.readied ++ waiters s' (place toHead n ns)).Perm (s.readied ++ w :: waiters s ns) := hplace.append_left _
        List.Perm _ (w :: (s.readied ++ waiters s ns)) := perm_middle
        List.Perm _ (w :: s.pushed) := h.perm.cons w
        List.Perm _ (s.pushed ++ [w]) := (perm_append_singleton w s.pushed).symm
    · rw [effect.pushed]
      exact (perm_append_singleton w s.pushed).nodup_iff.mpr (nodup_cons.mpr ⟨new.2, h.nodup⟩)
  | woken woken list effect _ =>
    refine ⟨hrep, ?_, effect.pushed ▸ h.nodup⟩
    have hsame : waiters s' ns' = waiters s ns' := by
      unfold waiters
      rw [effect.node]
    rw [effect.pushed, effect.readied, hsame, append_assoc]
    have hsplit : (waiters s woken ++ waiters s ns').Perm (waiters s ns) := by
      have hperm := list.map fun n => (s.node n).cjthread
      rw [map_append] at hperm
      exact hperm
    exact (hsplit.append_left _).trans h.perm

/-- As long as nobody pushes to the head and no timer fires. -/
structure Fifo (s : State N W) (ns : List N) : Prop where
  rep : Rep s ns
  order : s.readied ++ waiters s ns = s.pushed
  calm : ∀ n ∈ ns, (s.node n).blocked = false

omit [DecidableEq N] in
theorem Fifo.step (h : Fifo s ns) (hop : InOrder op) (hrep : Rep s' ns')
    (heffect : Effect op s s' ns ns') : Fifo s' ns' := by
  cases heffect with
  | quiet list pushed readied cjthread calm =>
    subst list
    refine ⟨hrep, ?_, ?_⟩
    · rw [pushed, readied, waiters_congr fun n _ => cjthread n]
      exact h.order
    · rw [calm hop]
      exact h.calm
  | parked n w toHead new list effect order =>
    rw [order hop] at list
    obtain rfl : ns' = ns ++ [n] := list
    refine ⟨hrep, ?_, ?_⟩
    · have hwaiters : waiters s' (ns ++ [n]) = waiters s ns ++ [w] := by
        rw [← effect.waiters_eq new.1, ← effect.cjthread]
        exact map_append
      rw [effect.pushed, effect.readied, hwaiters, ← append_assoc, h.order]
    · intro m hm
      by_cases heq : m = n
      · rw [heq]
        exact effect.calm
      · rw [effect.node m heq]
        rcases mem_append.mp hm with hmem | hmem
        · exact h.calm m hmem
        · exact absurd (mem_singleton.mp hmem) heq
  | woken woken list effect order =>
    have hlist := order hop h.calm
    have hsame : waiters s' ns' = waiters s ns' := by
      unfold waiters
      rw [effect.node]
    refine ⟨hrep, ?_, ?_⟩
    · have hsplit : waiters s woken ++ waiters s ns' = waiters s ns := by
        rw [← hlist]
        exact map_append.symm
      rw [effect.pushed, effect.readied, hsame, append_assoc, hsplit]
      exact h.order
    · intro m hm
      rw [effect.node]
      exact h.calm m (hlist ▸ mem_append_right woken hm)

theorem rep_waitqueueNew (links : Links (Ptr N)) (node : N → WaitqueueNode W) : Rep (waitqueueNew links node) [] :=
  ⟨⟨line_linkInit links .head, rfl⟩, rfl, Nat.two_pow_pos 32, List.Perm.refl []⟩

/-- **The structure of the queue.** In every state that calls in any order lead to, the queue is a well-formed chain of
    nodes with the right count and tail, each waiter waits in it or has been made ready once, and every further call
    is defined. Without pushes to the head and timeouts the waiters are made ready in the order they came. -/
theorem queue_well_formed (links : Links (Ptr N)) (node : N → WaitqueueNode W) (s : State N W) :
    (Run act Possible (waitqueueNew links node) s →
      (∃ ns, Rep s ns ∧ (s.readied ++ waiters s ns).Perm s.pushed) ∧ s.readied.Nodup ∧
        ∀ op, Possible s op → (act s op).isSome = true) ∧
    (Run act (fun s op => Possible s op ∧ InOrder op) (waitqueueNew links node) s →
      ∃ ns, Rep s ns ∧ s.readied ++ waiters s ns = s.pushed) := by
  constructor
  · intro hrun
    obtain ⟨ns, hinv⟩ : ∃ ns, Inv s ns := by
      refine run_invariant (I := fun s => ∃ ns, Inv s ns) hrun
        ⟨[], rep_waitqueueNew links node, List.Perm.refl [], List.nodup_nil⟩ ?_
      rintro s op s' ⟨ns, hinv⟩ hop hact
      obtain ⟨s₁, ns', hact', hrep, heffect⟩ := act_effect hinv.rep hop
      obtain rfl : s₁ = s' := Option.some.inj (hact'.symm.trans hact)
      exact ⟨ns', hinv.step hrep heffect⟩
    refine ⟨⟨ns, hinv.rep, hinv.perm⟩, ?_, fun op hop => ?_⟩
    · exact (hinv.perm.nodup_iff.mpr hinv.nodup).sublist (List.sublist_append_left ..)
    · obtain ⟨s', -, hact, -⟩ := act_effect hinv.rep hop
      rw [hact]
      rfl
  · intro hrun
    obtain ⟨ns, hfifo⟩ : ∃ ns, Fifo s ns := by
      refine run_invariant (I := fun s => ∃ ns, Fifo s ns) hrun
        ⟨[], rep_waitqueueNew links node, rfl, fun _ hn => absurd hn List.not_mem_nil⟩ ?_
      rintro s op s' ⟨ns, hfifo⟩ ⟨hop, horder⟩ hact
      obtain ⟨s₁, ns', hact', hrep, heffect⟩ := act_effect hfifo.rep hop
      obtain rfl : s₁ = s' := Option.some.inj (hact'.symm.trans hact)
      exact ⟨ns', hfifo.step horder hrep heffect⟩
    exact ⟨ns, hfifo.rep, hfifo.order⟩

/-- Three waiters, the last one at the head; the timer of the first fires before the queue is emptied. -/
def mixedRun : List (Op Nat Nat) :=
  [.park ⟨10, some 0, false, true, true, false⟩, .park ⟨11, some 1, false, false, true, false⟩,
   .park ⟨12, some 2, false, false, true, true⟩, .fire 0, .wakeOne false, .wakeAll false, .callback 0]

/-- Two waiters, in order. -/
def orderedRun : List (Op Nat Nat) :=
  [.park ⟨10, some 0, false, true, true, false⟩, .park ⟨11, some 1, false, false, true, false⟩, .wakeOne false]

theorem queue_well_formed_runs :
    (∃ s : State Nat Nat, Run act Possible (waitqueueNew ⟨fun _ => none, fun _ => none⟩ fun _ => ⟨0, none⟩) s ∧
      s.readied = [12, 11, 10] ∧ ∃ ns, Rep s ns ∧ (s.readied ++ waiters s ns).Perm s.pushed) ∧
    ∃ s : State Nat Nat, Run act (fun s op => Possible s op ∧ InOrder op)
        (waitqueueNew ⟨fun _ => none, fun _ => none⟩ fun _ => ⟨0, none⟩) s ∧
      s.readied = [10] ∧ ∃ ns, Rep s ns ∧ s.readied ++ waiters s ns = s.pushed := by
  have hmixed : (runActs act Possible (waitqueueNew ⟨fun _ => none, fun _ => none⟩ fun _ => ⟨0, none⟩) mixedRun).map
      State.readied = some [12, 11, 10] := by decide +kernel
  have hordered : (runActs act (fun s op => Possible s op ∧ InOrder op)
      (waitqueueNew ⟨fun _ => none, fun _ => none⟩ fun _ => ⟨0, none⟩) orderedRun).map State.readied = some [10] := by
    decide +kernel
  obtain ⟨s, hs, hreadied⟩ := Option.map_eq_some_iff.mp hmixed
  obtain ⟨s', hs', hreadied'⟩ := Option.map_eq_some_iff.mp hordered
  have hrun := run_of_runActs hs
  have hrun' := run_of_runActs hs'
  exact ⟨⟨s, hrun, hreadied, ((queue_well_formed _ _ s).1 hrun).1⟩,
    ⟨s', hrun', hreadied', (queue_well_formed _ _ s').2 hrun'⟩⟩

end Waitqueue
end CangjieRuntime
