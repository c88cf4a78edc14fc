import CangjieRuntime.Collection.LinkedList

/-!
# `Collection.Correctness.ListSequences` — linked lists are sequences

`Rep` ties the heap to the sequences: every sequence is a segment of nodes between null pointers, the two ends and the
size of the list are those of the sequence, and a node is in the sequence of the list that its owner pointer names. The
calls keep it, and return what they return on sequences.

There are two exceptions. `clear` does not detach the nodes, which still pass the owner check of the list afterwards;
and `splitOff` at the first node leaves the head of the list on that node. Runs that do not use a dropped node refine
sequences all the same; runs without either exception keep every owner pointer right as well.
-/

namespace CangjieRuntime.LinkedList

open Chain Function List Option

variable {T : Type}

/-! ## Representation -/

structure Rep (h : Heap T) (a : Seqs T) : Prop where
  nodes : h.nodes = a.nodes
  lists : h.lists = a.lists
  item : h.item = a.item
  seg : ∀ l, h.links.Seg none (a.seq l) none
  nodup : ∀ l, (a.seq l).Nodup
  head : ∀ l, h.head l = (a.seq l).head?
  tail : ∀ l, h.tail l = (a.seq l).getLast?
  size : ∀ l, h.size l = (a.seq l).length
  member : ∀ l n, n ∈ a.seq l ↔ h.list n = some l ∧ n ∉ a.dropped
  fresh : ∀ n, a.nodes ≤ n → h.list n = none ∧ n ∉ a.dropped
  alloc : ∀ n, n < a.nodes → (a.item n).isSome
  unborn : ∀ l, a.lists ≤ l → a.seq l = []

section Rep

variable {h h' : Heap T} {a : Seqs T} {l l' n : Nat} {xs p q : List Nat}

theorem rep_empty : Rep (Heap.empty : Heap T) Seqs.empty where
  nodes := rfl
  lists := rfl
  item := rfl
  seg _ := trivial
  nodup _ := nodup_nil
  head _ := rfl
  tail _ := rfl
  size _ := rfl
  member _ _ := ⟨nofun, nofun⟩
  fresh _ _ := ⟨rfl, nofun⟩
  alloc _ hn := absurd hn (Nat.not_lt_zero _)
  unborn _ _ := rfl

/-- The sequences of two lists have no node in common. -/
theorem Rep.disjoint (hrep : Rep h a) (hne : l ≠ l') : List.Disjoint (a.seq l) (a.seq l') := by
  intro n hn hn'
  have heq := ((hrep.member l n).mp hn).1.symm.trans ((hrep.member l' n).mp hn').1
  exact hne (some.inj heq)

theorem Rep.lt_nodes (hrep : Rep h a) (hn : n ∈ a.seq l) : n < a.nodes := by
  by_contra hge
  have hlist := ((hrep.member l n).mp hn).1
  rw [(hrep.fresh n (Nat.le_of_not_lt hge)).1] at hlist
  exact absurd hlist nofun

theorem Rep.item_some (hrep : Rep h a) (hn : n ∈ a.seq l) : ∃ x, a.item n = some x :=
  isSome_iff_exists.mp (hrep.alloc n (hrep.lt_nodes hn))

/-- List `l` of the heap is a sequence. -/
structure IsSeq (h : Heap T) (l : Nat) (xs : List Nat) : Prop where
  seg : h.links.Seg none xs none
  nodup : xs.Nodup
  head : h.head l = xs.head?
  tail : h.tail l = xs.getLast?
  size : h.size l = xs.length

theorem Rep.of_isSeq (hseq : ∀ l, IsSeq h l (a.seq l)) (hnodes : h.nodes = a.nodes) (hlists : h.lists = a.lists)
    (hitem : h.item = a.item) (hmember : ∀ l n, n ∈ a.seq l ↔ h.list n = some l ∧ n ∉ a.dropped)
    (hfresh : ∀ n, a.nodes ≤ n → h.list n = none ∧ n ∉ a.dropped) (halloc : ∀ n, n < a.nodes → (a.item n).isSome)
    (hunborn : ∀ l, a.lists ≤ l → a.seq l = []) : Rep h a :=
  ⟨hnodes, hlists, hitem, fun l => (hseq l).seg, fun l => (hseq l).nodup, fun l => (hseq l).head,
    fun l => (hseq l).tail, fun l => (hseq l).size, hmember, hfresh, halloc, hunborn⟩

/-- The part of the heap that belongs to one list changes. -/
structure Replaces (h h' : Heap T) (l : Nat) (old new : List Nat) : Prop where
  links : h.links.Changes h'.links (old ++ new)
  head : h'.head = Function.update h.head l new.head?
  tail : h'.tail = Function.update h.tail l new.getLast?
  size : h'.size = Function.update h.size l (new.length : Int)
  seg : h'.links.Seg none new none
  nodup : new.Nodup

/-- A list gets another sequence, which takes nothing from the other lists. -/
theorem Rep.replace (hrep : Rep h a) (l : Nat) (xs : List Nat) (hrepl : Replaces h h' l (a.seq l) xs) {a' : Seqs T}
    (hseq : a'.seq = update a.seq l xs) (hnodes : h'.nodes = a'.nodes) (hlists : h'.lists = a'.lists)
    (hitem : h'.item = a'.item) (hmember : ∀ l' n, n ∈ a'.seq l' ↔ h'.list n = some l' ∧ n ∉ a'.dropped)
    (hfresh : ∀ n, a'.nodes ≤ n → h'.list n = none ∧ n ∉ a'.dropped) (halloc : ∀ n, n < a'.nodes → (a'.item n).isSome)
    (hunborn : ∀ l', a'.lists ≤ l' → a'.seq l' = []) : Rep h' a' := by
  have hself : a'.seq l = xs := by rw [hseq, update_self]
  have hother (l' : Nat) (hne : l' ≠ l) : a'.seq l' = a.seq l' := by rw [hseq, update_of_ne hne]
  refine .of_isSeq (fun l' => ?_) hnodes hlists hitem hmember hfresh halloc hunborn
  by_cases hne : l' = l
  · subst hne
    rw [hself]
    exact ⟨hrepl.seg, hrepl.nodup, by rw [hrepl.head, update_self], by rw [hrepl.tail, update_self],
      by rw [hrepl.size, update_self]⟩
  · rw [hother l' hne]
    refine ⟨(hrep.seg l').congr hrepl.links fun n hn hn' => ?_, hrep.nodup l', ?_, ?_, ?_⟩
    · rcases mem_append.mp hn' with hold | hnew
      · exact hrep.disjoint hne hn hold
      · -- the node would be in two of the new sequences
        have h₁ := ((hmember l' n).mp (by rw [hother l' hne]; exact hn)).1
        have h₂ := ((hmember l n).mp (by rw [hself]; exact hnew)).1
        exact hne (some.inj (h₁.symm.trans h₂))
    · rw [hrepl.head, update_of_ne hne, hrep.head]
    · rw [hrepl.tail, update_of_ne hne, hrep.tail]
    · rw [hrepl.size, update_of_ne hne, hrep.size]

end Rep

/-! ## New nodes -/

/-- A new node with an element between the nodes `p` and the nodes `q` of list `l`. -/
def Heap.inserted (h : Heap T) (l : Nat) (p q : List Nat) (e : T) : Heap T :=
  { h with
    links := h.links.insert p h.nodes q
    item := Function.update h.item h.nodes (some e)
    list := Function.update h.list h.nodes (some l)
    nodes := h.nodes + 1
    head := Function.update h.head l (p ++ h.nodes :: q).head?
    tail := Function.update h.tail l (p ++ h.nodes :: q).getLast? }

section Insert

variable {h h' : Heap T} {a : Seqs T} {l n : Nat} {p q : List Nat} {e : T}

theorem insertBefore_run (hlist : h.list n = some l) (hprev : h.links.prev n = p.getLast?)
    (hhead : h.head l = (p ++ n :: q).head?) (htail : h.tail l = (p ++ n :: q).getLast?) :
    (insertBefore n e).run h = .ok h.nodes (h.inserted l p (n :: q) e) := by
  have htail' : update h.tail l (p ++ h.nodes :: n :: q).getLast? = h.tail := by
    refine update_eq_self_iff.mpr ?_
    rw [htail, getLast?_append_cons, getLast?_append_cons, getLast?_cons_cons]
  unfold Heap.inserted Links.insert
  rw [htail']
  cases hlast : p.getLast? with
  | none =>
    obtain rfl := getLast?_eq_none_iff.mp hlast
    rw [hlast] at hprev
    simp [insertBefore, newNode, setHead, setPrev, getOrThrow, hprev, hlist, Links.setNextOf, Links.setPrevOf]
  | some b =>
    have hhead' : update h.head l (p ++ h.nodes :: n :: q).head? = h.head := by
      refine update_eq_self_iff.mpr ?_
      have hne : p ≠ [] := by
        rintro rfl
        exact absurd hlast nofun
      rw [hhead, head?_append_of_ne_nil _ hne, head?_append_of_ne_nil _ hne]
    rw [hhead']
    rw [hlast] at hprev
    simp [insertBefore, newNode, setNext, setPrev, hprev, hlist, Links.setNextOf, Links.setPrevOf]

theorem insertAfter_run (hlist : h.list n = some l) (hnext : h.links.next n = q.head?)
    (hhead : h.head l = (p ++ n :: q).head?) (htail : h.tail l = (p ++ n :: q).getLast?) :
    (insertAfter n e).run h = .ok h.nodes (h.inserted l (p ++ [n]) q e) := by
  have hhead' : update h.head l (p ++ [n] ++ h.nodes :: q).head? = h.head := by
    refine update_eq_self_iff.mpr ?_
    rw [hhead, append_assoc]
    cases p <;> rfl
  unfold Heap.inserted Links.insert
  rw [hhead', getLast?_concat]
  cases q with
  | nil =>
    rw [getLast?_concat]
    have hnext' : h.links.next n = none := hnext
    simp [insertAfter, newNode, setNext, setTail, getOrThrow, hnext', hlist, Links.setNextOf, Links.setPrevOf]
  | cons b q =>
    have htail' : update h.tail l (p ++ [n] ++ h.nodes :: b :: q).getLast? = h.tail := by
      refine update_eq_self_iff.mpr ?_
      rw [htail, getLast?_append_cons, getLast?_append_cons, getLast?_cons_cons, getLast?_cons_cons]
    rw [htail']
    have hnext' : h.links.next n = some b := hnext
    simp [insertAfter, newNode, setNext, setPrev, hnext', hlist, Links.setNextOf, Links.setPrevOf, setPrev_setNext]

variable (hrep : Rep h a)
include hrep

/-- The list has one more node, and its size and version are adjusted. -/
theorem Rep.inserted (hl : l < a.lists) (hseq : a.seq l = p ++ q) {v : Nat → Int} (e : T) :
    Rep { h.inserted l p q e with size := update h.size l (h.size l + 1), version := v }
      (a.add l e (p ++ a.nodes :: q)) := by
  have hfresh := hrep.fresh a.nodes (Nat.le_refl _)
  have hnew : a.nodes ∉ p ++ q := by
    rw [← hseq]
    exact fun hmem => Nat.lt_irrefl _ (hrep.lt_nodes hmem)
  have hnodup : (p ++ a.nodes :: q).Nodup := by
    rw [nodup_middle, nodup_cons, ← hseq]
    exact ⟨hseq ▸ hnew, hrep.nodup l⟩
  refine hrep.replace l (p ++ a.nodes :: q) ?_ rfl (congrArg (· + 1) hrep.nodes) hrep.lists ?_ ?_ ?_ ?_ ?_
  · unfold Heap.inserted
    rw [hrep.nodes]
    refine ⟨(h.links.changes_insert p a.nodes q).mono (subset_append_right _ _), rfl, rfl, ?_, ?_, hnodup⟩
    · rw [hrep.size l, hseq, length_append, length_append, length_cons]
      push_cast
      rw [add_assoc]
    · refine Links.Seg.insert ?_ hnodup
      rw [← hseq]
      exact hrep.seg l
  · show update h.item h.nodes (some e) = update a.item a.nodes (some e)
    rw [hrep.nodes, hrep.item]
  · intro l' n
    show n ∈ update a.seq l (p ++ a.nodes :: q) l' ↔ update h.list h.nodes (some l) n = some l' ∧ n ∉ a.dropped
    have hold := hrep.member l' n
    have hlt : a.nodes ∉ a.seq l' := fun hmem => Nat.lt_irrefl _ (hrep.lt_nodes hmem)
    rw [hrep.nodes]
    by_cases hn : n = a.nodes <;> by_cases hl' : l' = l
    · simp [hn, hl', hfresh.2]
    · simp [hn, hl', Ne.symm hl', hlt]
    · subst hl'
      rw [hseq] at hold
      simpa [hn] using hold
    · simpa [hn, hl'] using hold
  · intro n hn
    have hn' : a.nodes + 1 ≤ n := hn
    obtain ⟨hlist, hkept⟩ := hrep.fresh n (Nat.le_of_succ_le hn')
    refine ⟨?_, hkept⟩
    show update h.list h.nodes (some l) n = none
    rw [hrep.nodes, update_of_ne (Nat.ne_of_gt hn'), hlist]
  · intro n hn
    show (update a.item a.nodes (some e) n).isSome
    by_cases hn' : n = a.nodes
    · simp [hn']
    · rw [update_of_ne hn']
      exact hrep.alloc n (Nat.lt_of_le_of_ne (Nat.le_of_lt_succ hn) hn')
  · intro l' hl'
    show update a.seq l (p ++ a.nodes :: q) l' = []
    rw [update_of_ne (Nat.ne_of_gt (Nat.lt_of_lt_of_le hl hl'))]
    exact hrep.unborn l' hl'

/-- What a node of a list and the ends of the list look like. -/
theorem Rep.around (hseq : a.seq l = p ++ n :: q) :
    h.list n = some l ∧ h.links.prev n = p.getLast? ∧ h.links.next n = q.head? ∧ h.head l = (p ++ n :: q).head? ∧
      h.tail l = (p ++ n :: q).getLast? := by
  have hmem : n ∈ a.seq l := by simp [hseq]
  have hseg := hrep.seg l
  rw [hseq] at hseg
  obtain ⟨hprev, hnext⟩ := hseg.pointers
  rw [or_none] at hprev hnext
  exact ⟨((hrep.member l n).mp hmem).1, hprev, hnext, hseq ▸ hrep.head l, hseq ▸ hrep.tail l⟩

theorem addBefore_spec (hl : l < a.lists) (hseq : a.seq l = p ++ n :: q) (e : T) :
    ∃ h', (addBefore l n e).run h = .ok a.nodes h' ∧ Rep h' (a.add l e (p ++ a.nodes :: n :: q)) := by
  obtain ⟨hlist, hprev, -, hhead, htail⟩ := hrep.around hseq
  refine ⟨_, ?_, hrep.inserted hl hseq (v := update h.version l (h.version l + 1)) e⟩
  rw [← hrep.nodes]
  simp only [addBefore, checkNode, addSize, incVersion, EStateM.run_bind, EStateM.run_get, EStateM.run_modify,
    hlist, if_true, EStateM.run_pure]
  exact insertBefore_run hlist hprev hhead htail

theorem addAfter_spec (hl : l < a.lists) (hseq : a.seq l = p ++ n :: q) (e : T) :
    ∃ h', (addAfter l n e).run h = .ok a.nodes h' ∧ Rep h' (a.add l e (p ++ [n] ++ a.nodes :: q)) := by
  obtain ⟨hlist, -, hnext, hhead, htail⟩ := hrep.around hseq
  have hseq' : a.seq l = p ++ [n] ++ q := by rw [hseq, append_assoc]; rfl
  refine ⟨_, ?_, hrep.inserted hl hseq' (v := update h.version l (h.version l + 1)) e⟩
  rw [← hrep.nodes]
  simp only [addAfter, checkNode, addSize, incVersion, EStateM.run_bind, EStateM.run_get, EStateM.run_modify,
    hlist, if_true, EStateM.run_pure]
  exact insertAfter_run hlist hnext hhead htail

theorem addFirst_spec (hl : l < a.lists) (e : T) :
    ∃ h', (addFirst l e).run h = .ok a.nodes h' ∧ Rep h' (a.add l e (a.nodes :: a.seq l)) := by
  have hrep' := hrep.inserted (p := []) (q := a.seq l) hl rfl (v := update h.version l (h.version l + 1)) e
  refine ⟨_, ?_, hrep'⟩
  rw [← hrep.nodes]
  cases hseq : a.seq l with
  | nil =>
    have hhead : h.head l = none := by rw [hrep.head, hseq]; rfl
    simp [addFirst, newNode, setHead, setTail, addSize, incVersion, getOrThrow, hhead, Heap.inserted, Links.insert,
      Links.setNextOf, Links.setPrevOf]
  | cons n q =>
    obtain ⟨hlist, hprev, -, hhead, htail⟩ := hrep.around (p := []) hseq
    have hhead' : h.head l = some n := hhead
    have hinsert := insertBefore_run (e := e) hlist hprev hhead htail
    simp [addFirst, setHead, addSize, incVersion, getOrThrow, hhead', hinsert, Heap.inserted]

theorem addLast_spec (hl : l < a.lists) (e : T) :
    ∃ h', (addLast l e).run h = .ok a.nodes h' ∧ Rep h' (a.add l e (a.seq l ++ [a.nodes])) := by
  have hrep' := hrep.inserted (q := []) hl (append_nil _).symm (v := update h.version l (h.version l + 1)) e
  refine ⟨_, ?_, hrep'⟩
  rw [← hrep.nodes]
  rcases eq_nil_or_concat (a.seq l) with hseq | ⟨p, n, hseq⟩
  · have htail : h.tail l = none := by rw [hrep.tail, hseq]; rfl
    simp [addLast, newNode, setHead, setTail, addSize, incVersion, getOrThrow, htail, hseq, Heap.inserted, Links.insert,
      Links.setNextOf, Links.setPrevOf]
  · rw [concat_eq_append] at hseq
    obtain ⟨hlist, -, hnext, hhead, htail⟩ := hrep.around hseq
    have htail' : h.tail l = some n := by rw [htail, getLast?_concat]
    have hinsert := insertAfter_run (e := e) hlist hnext hhead htail
    simp [addLast, setTail, addSize, incVersion, getOrThrow, htail', hinsert, hseq, Heap.inserted]

end Insert

/-! ## Removed nodes -/

/-- Node `n` between the nodes `p` and the nodes `q` of list `l` is taken out. -/
def Heap.removed (h : Heap T) (l : Nat) (p : List Nat) (n : Nat) (q : List Nat) : Heap T :=
  { h with
    links := h.links.connect p q
    list := Function.update h.list n none
    head := Function.update h.head l (p ++ q).head?
    tail := Function.update h.tail l (p ++ q).getLast? }

section Remove

variable {h h' : Heap T} {a : Seqs T} {l n : Nat} {p q : List Nat} {x : T}

theorem removeNode_run (hlist : h.list n = some l) (hprev : h.links.prev n = p.getLast?)
    (hnext : h.links.next n = q.head?) (hhead : h.head l = (p ++ n :: q).head?)
    (htail : h.tail l = (p ++ n :: q).getLast?) (hitem : h.item n = some x) :
    (removeNode n).run h = .ok x (h.removed l p n q) := by
  have hhead' (hne : p ≠ []) : update h.head l (p ++ q).head? = h.head := by
    refine update_eq_self_iff.mpr ?_
    rw [hhead, head?_append_of_ne_nil _ hne, head?_append_of_ne_nil _ hne]
  have htail' (b : Nat) (q' : List Nat) (hq : q = b :: q') : update h.tail l (p ++ q).getLast? = h.tail := by
    refine update_eq_self_iff.mpr ?_
    rw [htail, hq, getLast?_append_cons, getLast?_append_cons, getLast?_cons_cons]
  unfold Heap.removed Links.connect
  rcases eq_nil_or_concat p with rfl | ⟨p', b, rfl⟩
  · cases q with
    | nil =>
      have hprev' : h.links.prev n = none := hprev
      have hnext' : h.links.next n = none := hnext
      simp [removeNode, setTail, setHead, setList, getOrThrow, hprev', hnext', hlist, hitem, Links.setNextOf,
        Links.setPrevOf]
    | cons c q =>
      have hprev' : h.links.prev n = none := hprev
      have hnext' : h.links.next n = some c := hnext
      rw [htail' c q rfl]
      simp [removeNode, setPrev, setHead, setList, getOrThrow, hprev', hnext', hlist, hitem, Links.setNextOf,
        Links.setPrevOf]
  · rw [concat_eq_append] at hprev hhead' ⊢
    rw [getLast?_concat] at hprev
    rw [hhead' (by simp), getLast?_concat]
    cases q with
    | nil =>
      have hnext' : h.links.next n = none := hnext
      simp [removeNode, setNext, setTail, setList, getOrThrow, hprev, hnext', hlist, hitem, Links.setNextOf,
        Links.setPrevOf]
    | cons c q =>
      have hnext' : h.links.next n = some c := hnext
      rw [concat_eq_append] at htail'
      rw [htail' c q rfl]
      simp [removeNode, setNext, setPrev, setList, getOrThrow, hprev, hnext', hitem, Links.setNextOf, Links.setPrevOf]

variable (hrep : Rep h a) (hseq : a.seq l = p ++ n :: q)
include hrep hseq

/-- The list has one node less, and its size and version are adjusted. -/
theorem Rep.removed {v : Nat → Int} :
    Rep { h.removed l p n q with size := update h.size l (h.size l + -1), version := v } (a.set l (p ++ q)) := by
  have hnodup : (p ++ n :: q).Nodup := hseq ▸ hrep.nodup l
  obtain ⟨hn, hpq⟩ := nodup_cons.mp (nodup_middle.mp hnodup)
  refine hrep.replace l (p ++ q) ?_ rfl hrep.nodes hrep.lists hrep.item (fun l' m => ?_) (fun m hm => ?_) hrep.alloc
    fun l' hl' => ?_
  · refine ⟨(h.links.changes_connect p q).mono (subset_append_right _ _), rfl, rfl, ?_, ?_, hpq⟩
    · rw [hrep.size l, hseq, length_append, length_append, length_cons]
      push_cast
      congr 1
      omega
    · have hseg := hrep.seg l
      rw [hseq] at hseg
      obtain ⟨hp, hq⟩ := seg_append.mp hseg
      exact hp.connect hq.2.2 hpq
  · show m ∈ update a.seq l (p ++ q) l' ↔ update h.list n none m = some l' ∧ m ∉ a.dropped
    have hold := hrep.member l' m
    by_cases hm : m = n <;> by_cases hl' : l' = l
    · simp_all
    · have hother : n ∉ a.seq l' := fun hmem => hrep.disjoint hl' hmem (by simp [hseq])
      simp [hm, hl', hother]
    · subst hl'
      rw [hseq] at hold
      simpa [hm] using hold
    · simpa [hm, hl'] using hold
  · refine ⟨?_, (hrep.fresh m hm).2⟩
    show update h.list n none m = none
    by_cases hm' : m = n
    · rw [hm', update_self]
    · rw [update_of_ne hm', (hrep.fresh m hm).1]
  · have hempty := hrep.unborn l' hl'
    show update a.seq l (p ++ q) l' = []
    by_cases hl : l' = l
    · simp [hl, hseq] at hempty
    · rw [update_of_ne hl, hempty]

/-- The size and the version may already be adjusted when the node is taken out. -/
theorem Rep.removeNode_run (hitem : a.item n = some x) (w v : Nat → Int) :
    (removeNode n).run { h with size := w, version := v } =
      .ok x { h.removed l p n q with size := w, version := v } := by
  obtain ⟨hlist, hprev, hnext, hhead, htail⟩ := hrep.around hseq
  exact LinkedList.removeNode_run hlist hprev hnext hhead htail (hrep.item ▸ hitem)

theorem remove_spec (hitem : a.item n = some x) : ∃ h', (remove l n).run h = .ok x h' ∧ Rep h' (a.set l (p ++ q)) := by
  obtain ⟨hlist, -⟩ := hrep.around hseq
  refine ⟨_, ?_, hrep.removed hseq (v := update h.version l (h.version l + 1))⟩
  simp only [remove, checkNode, addSize, incVersion, EStateM.run_bind, EStateM.run_get, EStateM.run_modify,
    hlist, if_true, EStateM.run_pure]
  exact hrep.removeNode_run hseq hitem _ _

omit hrep hseq

theorem removeFirst_spec (hrep : Rep h a) (hseq : a.seq l = n :: q) (hitem : a.item n = some x) :
    ∃ h', (removeFirst l).run h = .ok (some x) h' ∧ Rep h' (a.set l q) := by
  have hhead : h.head l = some n := by rw [hrep.head, hseq]; rfl
  refine ⟨_, ?_, hrep.removed (p := []) hseq (v := update h.version l (h.version l + 1))⟩
  simp only [removeFirst, addSize, incVersion, EStateM.run_bind, EStateM.run_get, EStateM.run_modify, hhead]
  rw [hrep.removeNode_run (p := []) hseq hitem]
  rfl

theorem removeLast_spec (hrep : Rep h a) (hseq : a.seq l = p ++ [n]) (hitem : a.item n = some x) :
    ∃ h', (removeLast l).run h = .ok (some x) h' ∧ Rep h' (a.set l p) := by
  have htail : h.tail l = some n := by rw [hrep.tail, hseq, getLast?_concat]
  have hrep' := hrep.removed hseq (v := update h.version l (h.version l + 1))
  rw [append_nil] at hrep'
  refine ⟨_, ?_, hrep'⟩
  simp only [removeLast, addSize, incVersion, EStateM.run_bind, EStateM.run_get, EStateM.run_modify, htail]
  rw [hrep.removeNode_run hseq hitem]
  rfl

/-- The loop of `removeIf` has kept the nodes `p` and has the nodes `q` in front of it. -/
theorem removeIfLoop_spec (predicate : T → Bool) (fuel : Nat) (hrep : Rep h a) (hseq : a.seq l = p ++ q)
    (hfuel : q.length ≤ fuel) :
    ∃ h', (removeIfLoop l predicate fuel q.head?).run h = .ok () h' ∧
      Rep h' (a.set l (p ++ q.filter fun n => !((a.item n).any predicate))) := by
  induction q generalizing h a p fuel with
  | nil =>
    refine ⟨h, by cases fuel <;> rfl, ?_⟩
    have hsame : a.set l (p ++ [].filter fun n => !((a.item n).any predicate)) = a := by
      unfold Seqs.set
      rw [filter_nil, ← hseq, update_eq_self]
    rw [hsame]
    exact hrep
  | cons n q ih =>
    obtain ⟨fuel, rfl⟩ : ∃ k, fuel = k + 1 := ⟨fuel - 1, by rw [length_cons] at hfuel; omega⟩
    rw [length_cons, Nat.add_le_add_iff_right] at hfuel
    obtain ⟨hlist, -, hnext, -⟩ := hrep.around hseq
    have hmem : n ∈ a.seq l := by simp [hseq]
    obtain ⟨x, hitem⟩ := hrep.item_some hmem
    have hitem' : h.item n = some x := hrep.item ▸ hitem
    have hvalue : (value n).run h = .ok x h := by simp [value, checkNodeState, getOrThrow, hlist, hitem']
    have hnextRun : (next n).run h = .ok q.head? h := by simp [next, checkNodeState, hlist, hnext]
    cases hp : predicate x with
    | true =>
      obtain ⟨h', hrun, hrep'⟩ := ih fuel (hrep.removed hseq (v := update h.version l (h.version l + 1)))
        (update_self ..) hfuel
      refine ⟨h', ?_, ?_⟩
      · simp only [head?_cons, removeIfLoop, EStateM.run_bind, hnextRun, hvalue, hp, if_true, addSize, incVersion,
          EStateM.run_modify]
        rw [hrep.removeNode_run hseq hitem]
        exact hrun
      · have hdrop : (n :: q).filter (fun n => !((a.item n).any predicate)) =
            q.filter fun n => !((a.item n).any predicate) :=
          filter_cons_of_neg (by simp [hitem, hp])
        have hset : (a.set l (p ++ q)).set l (p ++ q.filter fun n => !(((a.set l (p ++ q)).item n).any predicate)) =
            a.set l (p ++ q.filter fun n => !((a.item n).any predicate)) := by
          unfold Seqs.set
          rw [update_idem]
        rw [hdrop, ← hset]
        exact hrep'
    | false =>
      have hseq' : a.seq l = p ++ [n] ++ q := by rw [hseq, append_assoc]; rfl
      obtain ⟨h', hrun, hrep'⟩ := ih fuel hrep hseq' hfuel
      refine ⟨h', ?_, ?_⟩
      · simp only [head?_cons, removeIfLoop, EStateM.run_bind, hnextRun, hvalue, hp]
        exact hrun
      · have hkeep : (n :: q).filter (fun n => !((a.item n).any predicate)) =
            n :: q.filter fun n => !((a.item n).any predicate) := filter_cons_of_pos (by simp [hitem, hp])
        rw [hkeep]
        rw [append_assoc] at hrep'
        exact hrep'

end Remove

/-! ## Whole lists -/

section Whole

variable {h h' : Heap T} {a : Seqs T} {l n : Nat} {p q xs : List Nat} {x : T}

/-- The loop of `reverse` swaps the pointers of the nodes in front of it. -/
theorem reverseLoop_spec (fuel : Nat) {before : Option Nat} (hseg : h.links.Seg before q none) (hnodup : q.Nodup)
    (hlist : ∀ n ∈ q, (h.list n).isSome) (hfuel : q.length ≤ fuel) :
    ∃ m : Links Nat, (reverseLoop fuel q.head?).run h = .ok () { h with links := m } ∧ h.links.Changes m q ∧
      ∀ n ∈ q, m.next n = h.links.prev n ∧ m.prev n = h.links.next n := by
  induction q generalizing h before fuel with
  | nil => exact ⟨h.links, by cases fuel <;> rfl, fun _ _ => ⟨rfl, rfl⟩, nofun⟩
  | cons n q ih =>
    obtain ⟨fuel, rfl⟩ : ∃ k, fuel = k + 1 := ⟨fuel - 1, by rw [length_cons] at hfuel; omega⟩
    rw [length_cons, Nat.add_le_add_iff_right] at hfuel
    obtain ⟨hn, hq⟩ := nodup_cons.mp hnodup
    obtain ⟨hprev, hnext, hrest⟩ := hseg
    rw [or_none] at hnext
    -- the two pointers of `n`
    let m₁ := (h.links.setPrev n (h.links.next n)).setNext n (h.links.prev n)
    have hm₁ (u : Nat) (hu : u ≠ n) : m₁.next u = h.links.next u ∧ m₁.prev u = h.links.prev u :=
      ⟨next_setNext_of_ne _ _ hu, prev_setPrev_of_ne _ _ hu⟩
    have hsame (u : Nat) (hu : u ∈ q) : u ≠ n := fun heq => hn (heq ▸ hu)
    obtain ⟨m, hrun, hchange, hswap⟩ :=
      ih (h := { h with links := m₁ }) fuel (hrest.frame fun u hu => hm₁ u (hsame u hu)) hq
      (fun u hu => hlist u (mem_cons_of_mem n hu)) hfuel
    obtain ⟨k, hk⟩ := isSome_iff_exists.mp (hlist n (mem_cons_self ..))
    refine ⟨m, ?_, fun u hu => ?_, fun u hu => ?_⟩
    · rw [← hrun]
      simp [reverseLoop, next, checkNodeState, reverseNode, setNext, setPrev, hk, hnext, m₁]
    · rw [mem_cons, not_or] at hu
      obtain ⟨hnext', hprev'⟩ := hchange u hu.2
      exact ⟨hnext'.trans (hm₁ u hu.1).1, hprev'.trans (hm₁ u hu.1).2⟩
    · rcases mem_cons.mp hu with rfl | hu
      · obtain ⟨hnext', hprev'⟩ := hchange u hn
        exact ⟨hnext'.trans (next_setNext_self ..), hprev'.trans (prev_setPrev_self ..)⟩
      · obtain ⟨hnext', hprev'⟩ := hswap u hu
        exact ⟨hnext'.trans (hm₁ u (hsame u hu)).2, hprev'.trans (hm₁ u (hsame u hu)).1⟩

theorem Rep.list_isSome (hrep : Rep h a) (hn : n ∈ a.seq l) : (h.list n).isSome := by
  rw [((hrep.member l n).mp hn).1]
  rfl

theorem Rep.length_le (hrep : Rep h a) (l : Nat) : (a.seq l).length ≤ h.nodes := by
  have hsub : (a.seq l).toFinset ⊆ Finset.range a.nodes := by
    intro n hn
    exact Finset.mem_range.mpr (hrep.lt_nodes (mem_toFinset.mp hn))
  have hcard := Finset.card_le_card hsub
  rw [toFinset_card_of_nodup (hrep.nodup l), Finset.card_range] at hcard
  rw [hrep.nodes]
  exact hcard

theorem reverse_spec (hrep : Rep h a) : ∃ h', (reverse l).run h = .ok () h' ∧ Rep h' (a.set l (a.seq l).reverse) := by
  obtain ⟨m, hrun, hchange, hswap⟩ := reverseLoop_spec (h := { h with version := update h.version l (h.version l + 1) })
    h.nodes (hrep.seg l) (hrep.nodup l) (fun n hn => hrep.list_isSome hn) (hrep.length_le l)
  rw [← hrep.head l] at hrun
  have hresult : (reverse l).run h = .ok () { h with
      links := m, version := update h.version l (h.version l + 1)
      head := update h.head l (h.tail l), tail := update h.tail l (h.head l) } := by
    simp [reverse, incVersion, setHead, setTail, hrun]
  refine ⟨_, hresult, hrep.replace l (a.seq l).reverse ?_ rfl hrep.nodes hrep.lists hrep.item (fun l' n => ?_)
    hrep.fresh hrep.alloc
    fun l' hl' => ?_⟩
  · refine ⟨Links.Changes.mono hchange (subset_append_left _ _), ?_, ?_, ?_, (hrep.seg l).reverse hswap,
      nodup_reverse.mpr (hrep.nodup l)⟩
    · rw [head?_reverse, hrep.tail l]
    · rw [getLast?_reverse, hrep.head l]
    · rw [length_reverse, ← hrep.size l, update_eq_self]
  · refine Iff.trans ?_ (hrep.member l' n)
    show n ∈ update a.seq l (a.seq l).reverse l' ↔ _
    by_cases hl : l' = l <;> simp [hl]
  · show update a.seq l (a.seq l).reverse l' = []
    have hempty := hrep.unborn l' hl'
    by_cases hl : l' = l
    · subst hl
      simp [hempty]
    · rw [update_of_ne hl, hempty]

/-- The nodes are dropped. -/
theorem clear_spec (hrep : Rep h a) :
    ∃ h', (clear l).run h = .ok () h' ∧ Rep h' { a.set l [] with dropped := a.dropped ++ a.seq l } := by
  refine ⟨_, rfl, ?_⟩
  refine hrep.replace l [] ?_ rfl hrep.nodes hrep.lists hrep.item (fun l' n => ?_)
    (fun n hn => ⟨(hrep.fresh n hn).1, ?_⟩)
    hrep.alloc fun l' hl' => ?_
  · exact ⟨fun _ _ => ⟨rfl, rfl⟩, rfl, rfl, rfl, trivial, nodup_nil⟩
  · show n ∈ update a.seq l [] l' ↔ h.list n = some l' ∧ n ∉ a.dropped ++ a.seq l
    have hold := hrep.member l' n
    by_cases hl : l' = l
    · subst hl
      rw [update_self, mem_append, not_or]
      tauto
    · have hother (hmem : n ∈ a.seq l') : n ∉ a.seq l := hrep.disjoint hl hmem
      rw [update_of_ne hl, mem_append, not_or]
      tauto
  · rw [mem_append, not_or]
    exact ⟨(hrep.fresh n hn).2, fun hmem => absurd (hrep.lt_nodes hmem) (Nat.not_lt.mpr hn)⟩
  · show update a.seq l [] l' = []
    by_cases hl : l' = l
    · rw [hl, update_self]
    · rw [update_of_ne hl, hrep.unborn l' hl']

theorem newList_spec (hrep : Rep h a) :
    ∃ h', (newList : M T Nat).run h = .ok a.lists h' ∧ Rep h' { a with lists := a.lists + 1 } := by
  have hempty : a.seq a.lists = [] := hrep.unborn a.lists (Nat.le_refl _)
  have hrun : (newList : M T Nat).run h = .ok a.lists { h with
      size := update h.size a.lists 0, head := update h.head a.lists none
      tail := update h.tail a.lists none, version := update h.version a.lists 0, lists := a.lists + 1 } := by
    simp [newList, hrep.lists]
  refine ⟨_, hrun, ?_⟩
  refine hrep.replace a.lists [] ?_ ?_ hrep.nodes rfl hrep.item hrep.member hrep.fresh hrep.alloc fun l' hl' => ?_
  · exact ⟨fun _ _ => ⟨rfl, rfl⟩, rfl, rfl, rfl, trivial, nodup_nil⟩
  · rw [← hempty, update_eq_self]
  · exact hrep.unborn l' (Nat.le_of_succ_le hl')

/-- The nodes `n :: q` change their list. -/
theorem list_cons_eq (f : Nat → Option Nat) (n k : Nat) (q : List Nat) :
    (fun m => if m ∈ q then some k else update f n (some k) m) = fun m => if m ∈ n :: q then some k else f m := by
  funext m
  by_cases hmn : m = n
  · rw [hmn, update_self, if_pos (mem_cons_self ..), ite_self]
  · rw [update_of_ne hmn]
    simp only [mem_cons, hmn, false_or]

theorem isSome_update {f : Nat → Option Nat} {m : Nat} (n k : Nat) (hm : (f m).isSome) :
    (update f n (some k) m).isSome := by
  by_cases hmn : m = n
  · rw [hmn, update_self]
    rfl
  · rw [update_of_ne hmn]
    exact hm

/-- The loop of `splitOff` hands over the nodes `q` behind the cursor. -/
theorem splitOffLoop_run (k fuel : Nat) {c : Nat} {before : Option Nat} (hseg : h.links.Seg before (c :: q) none)
    (hlist : ∀ n ∈ c :: q, (h.list n).isSome) (hfuel : q.length < fuel) :
    (splitOffLoop k fuel c).run h = .ok () { h with
      list := fun m => if m ∈ q then some k else h.list m, size := update h.size k (h.size k + q.length) } := by
  induction q generalizing h c before fuel with
  | nil =>
    obtain ⟨fuel, rfl⟩ : ∃ j, fuel = j + 1 := ⟨fuel - 1, by omega⟩
    obtain ⟨j, hj⟩ := isSome_iff_exists.mp (hlist c (mem_cons_self ..))
    obtain ⟨-, hnext, -⟩ := hseg
    have hnext' : h.links.next c = none := hnext
    simp [splitOffLoop, next, checkNodeState, hj, hnext']
  | cons n q ih =>
    obtain ⟨fuel, rfl⟩ : ∃ j, fuel = j + 1 := ⟨fuel - 1, by omega⟩
    rw [length_cons, Nat.add_lt_add_iff_right] at hfuel
    obtain ⟨j, hj⟩ := isSome_iff_exists.mp (hlist c (mem_cons_self ..))
    obtain ⟨-, hnext, hrest⟩ := hseg
    have hnext' : h.links.next c = some n := hnext
    have hrun := ih (h := { h with
      size := update h.size k (h.size k + 1), list := update h.list n (some k) }) fuel hrest
      (fun m hm => isSome_update n k (hlist m (mem_cons_of_mem c hm))) hfuel
    have hsizes : update (update h.size k (h.size k + 1)) k
        (update h.size k (h.size k + 1) k + q.length) =
        update h.size k (h.size k + ((n :: q).length : Nat)) := by
      rw [update_idem, update_self, length_cons]
      push_cast
      congr 1
      omega
    simp only at hrun
    rw [list_cons_eq, hsizes] at hrun
    simp only [splitOffLoop, next, checkNodeState, hj, hnext', addSize, setList, EStateM.run_bind, EStateM.run_get,
      EStateM.run_modify, isNone_some, Bool.false_eq_true, if_false, EStateM.run_pure]
    exact hrun

/-- The state after `splitOff` at a node `n` that has the nodes `p` in front of it. -/
def Heap.split (h : Heap T) (l : Nat) (p : List Nat) (n : Nat) (q : List Nat) : Heap T :=
  { h with
    links := (h.links.setPrev n none).setNextOf p.getLast? none
    list := fun m => if m ∈ n :: q then some h.lists else h.list m
    size := Function.update (Function.update h.size h.lists ((n :: q).length : Nat)) l (p.length : Nat)
    head := Function.update h.head h.lists (some n)
    tail := Function.update (Function.update h.tail h.lists (h.tail l)) l p.getLast?
    version := Function.update (Function.update h.version l (h.version l + 1)) h.lists 0
    lists := h.lists + 1 }

theorem splitOff_run (hrep : Rep h a) (hl : l < a.lists) (hseq : a.seq l = p ++ n :: q) :
    (splitOff l n).run h = .ok a.lists (h.split l p n q) := by
  obtain ⟨hlist, hprev, -, -, htail⟩ := hrep.around hseq
  have hne : l ≠ h.lists := Nat.ne_of_lt (hrep.lists ▸ hl)
  have hmem (m : Nat) (hm : m ∈ n :: q) : m ∈ a.seq l := by
    rw [hseq]
    exact mem_append_right p hm
  have hseg := hrep.seg l
  rw [hseq] at hseg
  have hnodup : (n :: q).Nodup := (nodup_append.mp (hseq ▸ hrep.nodup l)).2.1
  have hlength : q.length < h.nodes := by
    have hle := hrep.length_le l
    rw [hseq, length_append, length_cons] at hle
    omega
  have hloop := splitOffLoop_run (h := { h with
      list := update h.list n (some h.lists), size := update h.size h.lists 1
      head := update h.head h.lists (some n), tail := update h.tail h.lists (h.tail l)
      version := update (update h.version l (h.version l + 1)) h.lists 0, lists := h.lists + 1 })
    h.lists h.nodes (seg_append.mp hseg).2 (fun m hm => isSome_update n h.lists (hrep.list_isSome (hmem m hm))) hlength
  have hlists := list_cons_eq h.list n h.lists q
  have hsize : h.size l = (p.length : Int) + (q.length + 1) := by
    rw [hrep.size, hseq, length_append, length_cons]
    push_cast
    rfl
  unfold Heap.split
  rw [← hrep.lists]
  simp only [splitOff, checkNode, incVersion, newList, setHead, setTail, setList, EStateM.run_bind, EStateM.run_get,
    EStateM.run_modify, EStateM.run_pure, hlist, if_true, update_idem, update_of_ne hne]
  simp only at hloop
  rw [hloop, hlists]
  have hsizes : update (update h.size h.lists 1) h.lists
      (update h.size h.lists 1 h.lists + q.length) = update h.size h.lists ((n :: q).length : Nat) := by
    rw [update_idem, update_self, length_cons]
    push_cast
    rw [add_comm]
  have hrest : h.size l + -(((n :: q).length : Nat) : Int) = (p.length : Nat) := by
    rw [hsize, length_cons]
    push_cast
    omega
  rw [hsizes]
  cases hlast : p.getLast? with
  | none =>
    rw [hlast] at hprev
    simp [prev, checkNodeState, setPrev, addSize, hprev, Links.setNextOf, update_of_ne hne, ← hrest]
  | some b =>
    rw [hlast] at hprev
    simp [prev, checkNodeState, setPrev, setNext, addSize, hprev, Links.setNextOf, update_of_ne hne, ← hrest]

/-- The nodes from `n` on are a list of their own now. -/
theorem Rep.split (hrep : Rep h a) (hl : l < a.lists) (hseq : a.seq l = p ++ n :: q) (hp : p ≠ []) :
    Rep (h.split l p n q) { (a.set l p).set a.lists (n :: q) with lists := a.lists + 1 } := by
  have hlk : l ≠ a.lists := Nat.ne_of_lt hl
  have hnodup : (p ++ n :: q).Nodup := hseq ▸ hrep.nodup l
  obtain ⟨hpn, hqn, hdisj⟩ := nodup_append'.mp hnodup
  have hself : update (update a.seq l p) a.lists (n :: q) a.lists = n :: q := update_self ..
  have hold : update (update a.seq l p) a.lists (n :: q) l = p := by
    rw [update_of_ne hlk, update_self]
  have hother (l' : Nat) (hl' : l' ≠ l) (hk : l' ≠ a.lists) :
      update (update a.seq l p) a.lists (n :: q) l' = a.seq l' := by
    rw [update_of_ne hk, update_of_ne hl']
  have hmem (m : Nat) (hm : m ∈ p ∨ m ∈ n :: q) : m ∈ a.seq l := by
    rw [hseq]
    exact mem_append.mpr hm
  have hseg := hrep.seg l
  rw [hseq] at hseg
  obtain ⟨hleft, hright⟩ := seg_append.mp hseg
  have hright' : (h.links.setPrev n none).Seg none (n :: q) none := hright.setPrevOf_head hqn none
  have hleft' : (h.links.setPrev n none).Seg none p ((n :: q).head?.or none) :=
    hleft.frame fun u hu => ⟨rfl, prev_setPrev_of_ne _ _ fun heq => hdisj (heq ▸ hu) (mem_cons_self ..)⟩
  unfold Heap.split
  rw [hrep.lists]
  refine .of_isSeq (fun l' => ?_) hrep.nodes rfl hrep.item (fun l' m => ?_) (fun m hm => ?_) hrep.alloc fun l' hl' => ?_
  · show IsSeq _ l' (update (update a.seq l p) a.lists (n :: q) l')
    by_cases hk : l' = a.lists
    · rw [hk, hself]
      exact ⟨hright'.frame fun u hu =>
          ⟨next_setNextOf_of_ne _ _ (getLast?_ne_of_disjoint hdisj hu), congrFun (prev_setNextOf _ _ _) u⟩,
        hqn, by simp, by simp [hlk.symm, hrep.tail, hseq, getLast?_cons], by simp [hlk.symm]⟩
    by_cases hl' : l' = l
    · rw [hl', hold]
      refine ⟨hleft'.setNextOf_last hpn none, hpn, ?_, by simp, by simp⟩
      dsimp only
      rw [update_of_ne hlk, hrep.head, hseq, head?_append_of_ne_nil _ hp]
    · rw [hother l' hl' hk]
      refine ⟨(hrep.seg l').frame fun u hu => ?_, hrep.nodup l', by simp [hk, hrep.head], by simp [hk, hl', hrep.tail],
        by simp [hk, hl', hrep.size]⟩
      have hu' : u ∉ a.seq l := hrep.disjoint hl' hu
      have hun : u ≠ n := by
        rintro rfl
        exact hu' (hmem u (.inr (mem_cons_self ..)))
      constructor
      · rw [next_setNextOf_of_ne _ _ fun heq => hu' (hmem u (.inl (mem_of_getLast? heq)))]
        rfl
      · rw [prev_setNextOf, prev_setPrev_of_ne _ _ hun]
  · show m ∈ update (update a.seq l p) a.lists (n :: q) l' ↔
      (if m ∈ n :: q then some a.lists else h.list m) = some l' ∧ m ∉ a.dropped
    split_ifs with hm
    · have hkept := ((hrep.member l m).mp (hmem m (.inr hm))).2
      by_cases hk : l' = a.lists
      · rw [hk, hself]
        exact ⟨fun _ => ⟨rfl, hkept⟩, fun _ => hm⟩
      refine ⟨fun hmem' => ?_, fun hlist => absurd (some.inj hlist.1).symm hk⟩
      by_cases hl' : l' = l
      · rw [hl', hold] at hmem'
        exact absurd hm (hdisj hmem')
      · rw [hother l' hl' hk] at hmem'
        exact absurd (hmem m (.inr hm)) (hrep.disjoint hl' hmem')
    · by_cases hk : l' = a.lists
      · rw [hk, hself, ← hrep.member, hrep.unborn a.lists (Nat.le_refl _)]
        exact ⟨fun hmem' => absurd hmem' hm, nofun⟩
      by_cases hl' : l' = l
      · rw [hl', hold, ← hrep.member, hseq, mem_append]
        exact ⟨.inl, fun hmem' => hmem'.resolve_right hm⟩
      · rw [hother l' hl' hk]
        exact hrep.member l' m
  · obtain ⟨hlist, hkept⟩ := hrep.fresh m hm
    refine ⟨?_, hkept⟩
    show (if m ∈ n :: q then some a.lists else h.list m) = none
    rw [if_neg fun hmem' => absurd (hrep.lt_nodes (hmem m (.inr hmem'))) (Nat.not_lt.mpr hm)]
    exact hlist
  · have hlt : a.lists < l' := hl'
    show update (update a.seq l p) a.lists (n :: q) l' = []
    rw [hother l' (Nat.ne_of_gt (hl.trans hlt)) (Nat.ne_of_gt hlt)]
    exact hrep.unborn l' (Nat.le_of_lt hlt)

end Whole

/-! ## Reading a list -/

section Read

variable {h : Heap T} {a : Seqs T} {l n : Nat} {p q : List Nat}

variable (hrep : Rep h a)
include hrep

theorem Rep.value_run (hn : n ∈ a.seq l) {x : T} (hitem : a.item n = some x) : (value n).run h = .ok x h := by
  have hlist := ((hrep.member l n).mp hn).1
  have hitem' : h.item n = some x := hrep.item ▸ hitem
  simp [value, checkNodeState, getOrThrow, hlist, hitem']

theorem Rep.next_run (hseq : a.seq l = p ++ n :: q) : (next n).run h = .ok q.head? h := by
  obtain ⟨hlist, -, hnext, -⟩ := hrep.around hseq
  simp [next, checkNodeState, hlist, hnext]

theorem Rep.prev_run (hseq : a.seq l = p ++ n :: q) : (prev n).run h = .ok p.getLast? h := by
  obtain ⟨hlist, hprev, -⟩ := hrep.around hseq
  simp [prev, checkNodeState, hlist, hprev]

variable (fuel : Nat)

theorem iterate_node (hseq : a.seq l = p ++ n :: q) (hfuel : q.length < fuel) :
    (iterate fuel (.node n)).run h = .ok (q.filterMap a.item) h := by
  induction q generalizing p n fuel with
  | nil =>
    obtain ⟨fuel, rfl⟩ : ∃ k, fuel = k + 1 := ⟨fuel - 1, by omega⟩
    simp [iterate, iteratorNext, hrep.next_run hseq]
  | cons b q ih =>
    obtain ⟨fuel, rfl⟩ : ∃ k, fuel = k + 1 := ⟨fuel - 1, by omega⟩
    rw [length_cons, Nat.add_lt_add_iff_right] at hfuel
    have hseq' : a.seq l = (p ++ [n]) ++ b :: q := by rw [hseq, append_assoc]; rfl
    have hmem : b ∈ a.seq l := by simp [hseq]
    obtain ⟨x, hx⟩ := hrep.item_some hmem
    rw [filterMap_cons_some hx]
    simp [iterate, iteratorNext, hrep.next_run hseq, hrep.value_run hmem hx, ih fuel hseq' hfuel]

/-- Iteration gives the sequence. -/
theorem elements_spec : (elements l).run h = .ok (a.toList l) h := by
  unfold Seqs.toList
  cases hseq : a.seq l with
  | nil =>
    have hhead : h.head l = none := by rw [hrep.head, hseq]; rfl
    simp [elements, iterate, iteratorNext, hhead]
  | cons b q =>
    have hmem : b ∈ a.seq l := by simp [hseq]
    have hlength : q.length < h.nodes := by
      have hle := hrep.length_le l
      rw [hseq, length_cons] at hle
      omega
    have hhead : h.head l = some b := by rw [hrep.head, hseq]; rfl
    obtain ⟨x, hx⟩ := hrep.item_some hmem
    rw [filterMap_cons_some hx]
    simp [elements, iterate, iteratorNext, hhead, hrep.value_run hmem hx,
      iterate_node (p := []) hrep h.nodes hseq hlength]

/-- One round of the loop of `toArray`, at node `n` with the nodes `p` in front of it. -/
theorem toArrayLoop_step (hseq : a.seq l = p ++ n :: q) (arr : List T) (harr : p.length < arr.length) :
    ∃ x, a.item n = some x ∧ (toArrayLoop (fuel + 1) n (p.length : Nat) arr).run h =
      (match p.getLast? with
      | some b => toArrayLoop fuel b ((p.length : Nat) - 1) (arr.set p.length x)
      | none => pure (arr.set p.length x)).run h := by
  have hmem : n ∈ a.seq l := by simp [hseq]
  obtain ⟨x, hx⟩ := hrep.item_some hmem
  have hrange : ¬((p.length : Int) < 0 ∨ (arr.length : Int) ≤ (p.length : Nat)) := by omega
  refine ⟨x, hx, ?_⟩
  cases hlast : p.getLast? <;>
    simp only [toArrayLoop, hrange, if_false, EStateM.run_bind, hrep.value_run hmem hx, hrep.prev_run hseq, hlast,
      Int.toNat_natCast]

/-- The loop fills the array up to the place of node `n`. -/
theorem toArrayLoop_run (hseq : a.seq l = p ++ n :: q) (hfuel : p.length < fuel) (arr : List T)
    (harr : p.length < arr.length) :
    (toArrayLoop fuel n (p.length : Nat) arr).run h =
      .ok ((p ++ [n]).filterMap a.item ++ arr.drop (p.length + 1)) h := by
  induction p using reverseRecOn generalizing n q fuel arr with
  | nil =>
    obtain ⟨fuel, rfl⟩ : ∃ k, fuel = k + 1 := ⟨fuel - 1, by omega⟩
    obtain ⟨x, hx, hstep⟩ := toArrayLoop_step hrep fuel hseq arr harr
    rw [hstep]
    cases arr with
    | nil => exact absurd harr (Nat.lt_irrefl 0)
    | cons y arr => simp [hx]
  | append_singleton p b ih =>
    obtain ⟨fuel, rfl⟩ : ∃ k, fuel = k + 1 := ⟨fuel - 1, by omega⟩
    obtain ⟨x, hx, hstep⟩ := toArrayLoop_step hrep fuel hseq arr harr
    have hlength : ((p ++ [b]).length : Int) - 1 = (p.length : Nat) := by
      rw [length_append, length_singleton]
      push_cast
      omega
    rw [hstep, getLast?_concat, hlength]
    rw [length_append, length_singleton] at hfuel harr ⊢
    have hseq' : a.seq l = p ++ b :: (n :: q) := by rw [hseq, append_assoc]; rfl
    have hrest := ih (n := b) fuel hseq' (by omega) (arr.set (p.length + 1) x) (by rw [length_set]; omega)
    -- what was written lies behind the place of `b`
    have hdrop : (arr.set (p.length + 1) x).drop (p.length + 1) = x :: arr.drop (p.length + 1 + 1) := by
      have hlt : p.length + 1 < (arr.set (p.length + 1) x).length := by rwa [length_set]
      rw [drop_eq_getElem_cons hlt, getElem_set_self, drop_set_of_lt (Nat.lt_succ_self _)]
    have hitems : (p ++ [b] ++ [n]).filterMap a.item = (p ++ [b]).filterMap a.item ++ [x] := by
      rw [filterMap_append, filterMap_cons_some hx, filterMap_nil]
    rw [hrest, hdrop, hitems, append_assoc]
    rfl

theorem toArray_spec (zeroValue : T) : (toArray zeroValue l).run h = .ok (a.toList l) h := by
  unfold Seqs.toList
  rcases eq_nil_or_concat (a.seq l) with hseq | ⟨p, n, hseq⟩
  · have hsize : h.size l = 0 := by rw [hrep.size, hseq]; rfl
    simp [toArray, hsize, hseq]
  · rw [concat_eq_append] at hseq
    have hsize : h.size l = (p.length : Int) + 1 := by
      rw [hrep.size, hseq, length_append]
      rfl
    have hlength : p.length < h.nodes := by
      have hle := hrep.length_le l
      rw [hseq, length_append, length_singleton] at hle
      omega
    have htail : h.tail l = some n := by rw [hrep.tail, hseq, getLast?_concat]
    have hne : h.size l ≠ 0 := by omega
    have hcount : (h.size l).toNat = p.length + 1 := by omega
    have hlast : h.size l - 1 = (p.length : Nat) := by omega
    have hloop := toArrayLoop_run hrep h.nodes hseq hlength (replicate (p.length + 1) zeroValue)
      (by rw [length_replicate]; omega)
    rw [hseq]
    simp only [toArray, EStateM.run_bind, EStateM.run_get, hne, if_false, htail, getOrThrow, EStateM.run_pure, hcount,
      hlast, hloop]
    rw [drop_replicate, Nat.sub_self, replicate_zero, append_nil]

/-- The nodes that a chain of pointers leads through. -/
def follow (pointer : Nat → Option Nat) : Nat → Option Nat → List Nat
  | _, none => []
  | 0, some _ => []
  | fuel + 1, some n => n :: follow pointer fuel (pointer n)

theorem follow_next (hseq : a.seq l = p ++ q) (hfuel : q.length ≤ fuel) :
    follow h.links.next fuel q.head? = q := by
  induction q generalizing p fuel with
  | nil => cases fuel <;> rfl
  | cons n q ih =>
    obtain ⟨fuel, rfl⟩ : ∃ k, fuel = k + 1 := ⟨fuel - 1, by rw [length_cons] at hfuel; omega⟩
    rw [length_cons, Nat.add_le_add_iff_right] at hfuel
    obtain ⟨-, -, hnext, -⟩ := hrep.around hseq
    have hseq' : a.seq l = p ++ [n] ++ q := by rw [hseq, append_assoc]; rfl
    rw [head?_cons, follow, hnext, ih fuel hseq' hfuel]

theorem follow_prev (hseq : a.seq l = p ++ q) (hfuel : p.length ≤ fuel) :
    follow h.links.prev fuel p.getLast? = p.reverse := by
  induction p using reverseRecOn generalizing q fuel with
  | nil => cases fuel <;> rfl
  | append_singleton p n ih =>
    rw [length_append, length_singleton] at hfuel
    obtain ⟨fuel, rfl⟩ : ∃ k, fuel = k + 1 := ⟨fuel - 1, by omega⟩
    have hseq' : a.seq l = p ++ n :: q := by rw [hseq, append_assoc]; rfl
    obtain ⟨-, hprev, -⟩ := hrep.around hseq'
    rw [getLast?_concat, follow, hprev, ih fuel hseq' (by omega), reverse_concat]

end Read

/-! ## Runs -/

section Runs

/-- The calls that the results are about. The lists exist; a handle was not dropped by `clear`; `splitOff` is not at the
    first node. -/
def Admitted (a : Seqs T) : Op T → Prop
  | .newList => True
  | .addFirst l _ => l < a.lists
  | .addLast l _ => l < a.lists
  | .addBefore l n _ => l < a.lists ∧ n ∉ a.dropped
  | .addAfter l n _ => l < a.lists ∧ n ∉ a.dropped
  | .remove l n => l < a.lists ∧ n ∉ a.dropped
  | .removeFirst l => l < a.lists
  | .removeLast l => l < a.lists
  | .removeIf l _ => l < a.lists
  | .reverse l => l < a.lists
  | .clear l => l < a.lists
  | .splitOff l n => l < a.lists ∧ n ∉ a.dropped ∧ (a.seq l).head? ≠ some n

variable {h h' : Heap T} {a : Seqs T} {l n : Nat} {p q : List Nat} {op : Op T} {r : Ret T} {e : Exn}

theorem call_ok (hrun : (exec op).run h = .ok r h') : call op h = (.ok r, h') := by
  unfold call
  rw [hrun]

theorem call_error (hrun : (exec op).run h = .error e h') : call op h = (.error e, h') := by
  unfold call
  rw [hrun]

/-- A handle that is not a member is refused, and nothing happens. -/
theorem Rep.checkNode_run (hrep : Rep h a) (hn : n ∉ a.seq l) (hkept : n ∉ a.dropped) :
    (checkNode l n : M T Unit).run h = .error .illegalArgument h := by
  have hlist : h.list n ≠ some l := fun hlist => hn ((hrep.member l n).mpr ⟨hlist, hkept⟩)
  simp [checkNode, hlist]

/-- The other nodes stay as they are. -/
theorem flatMap_middle {f : Nat → List Nat} (hf : ∀ x, x ≠ n → f x = [x]) (hp : n ∉ p) (hq : n ∉ q) :
    (p ++ n :: q).flatMap f = p ++ f n ++ q := by
  have hsame (xs : List Nat) (hxs : n ∉ xs) : xs.flatMap f = xs := by
    induction xs with
    | nil => rfl
    | cons x xs ih =>
      rw [mem_cons, not_or] at hxs
      rw [flatMap_cons, ih hxs.2, hf x (Ne.symm hxs.1)]
      rfl
  rw [flatMap_append, flatMap_cons, hsame p hp, hsame q hq, append_assoc]

theorem insertBeforeIn_eq (new : Nat) (hp : n ∉ p) (hq : n ∉ q) :
    insertBeforeIn new n (p ++ n :: q) = p ++ new :: n :: q := by
  rw [insertBeforeIn, flatMap_middle (fun x hx => if_neg hx) hp hq, if_pos rfl, append_assoc]
  rfl

theorem insertAfterIn_eq (new : Nat) (hp : n ∉ p) (hq : n ∉ q) :
    insertAfterIn new n (p ++ n :: q) = p ++ [n] ++ new :: q := by
  rw [insertAfterIn, flatMap_middle (fun x hx => if_neg hx) hp hq, if_pos rfl, append_assoc, append_assoc]
  rfl

/-- A member and the nodes on its two sides. -/
theorem Rep.sides (hrep : Rep h a) (hn : n ∈ a.seq l) : ∃ p q, a.seq l = p ++ n :: q ∧ n ∉ p ∧ n ∉ q := by
  obtain ⟨p, q, hseq⟩ := append_of_mem hn
  have hnodup := hrep.nodup l
  rw [hseq, nodup_middle, nodup_cons, mem_append, not_or] at hnodup
  exact ⟨p, q, hseq, hnodup.1⟩

/-- A call that agrees with the sequences: result, heap afterwards, and no change at an exception. -/
def Agrees (h : Heap T) (a : Seqs T) (op : Op T) : Prop :=
  (call op h).1 = (a.apply op).1 ∧ Rep (call op h).2 (a.apply op).2 ∧
    ((∃ e, (call op h).1 = .error e) → (call op h).2 = h)

theorem Agrees.of_ok {a' : Seqs T} (hrun : (exec op).run h = .ok r h') (happ : a.apply op = (.ok r, a'))
    (hrep' : Rep h' a') : Agrees h a op := by
  unfold Agrees
  rw [call_ok hrun, happ]
  exact ⟨rfl, hrep', nofun⟩

variable (hrep : Rep h a)
include hrep

theorem Agrees.of_error (hrun : (exec op).run h = .error e h)
    (happ : a.apply op = (.error e, a)) : Agrees h a op := by
  unfold Agrees
  rw [call_error hrun, happ]
  exact ⟨rfl, hrep, fun _ => rfl⟩

/-- One call. -/
theorem call_agrees (op : Op T) (hok : Admitted a op) : Agrees h a op := by
  cases op with
  | newList =>
    obtain ⟨h', hrun, hrep'⟩ := newList_spec hrep
    exact .of_ok (by simp [exec, hrun]) rfl hrep'
  | addFirst l e =>
    obtain ⟨h', hrun, hrep'⟩ := addFirst_spec hrep hok e
    exact .of_ok (by simp [exec, hrun]) rfl hrep'
  | addLast l e =>
    obtain ⟨h', hrun, hrep'⟩ := addLast_spec hrep hok e
    exact .of_ok (by simp [exec, hrun]) rfl hrep'
  | addBefore l n e =>
    by_cases hn : n ∈ a.seq l
    · obtain ⟨p, q, hseq, hp, hq⟩ := hrep.sides hn
      obtain ⟨h', hrun, hrep'⟩ := addBefore_spec hrep hok.1 hseq e
      rw [← insertBeforeIn_eq a.nodes hp hq, ← hseq] at hrep'
      exact .of_ok (by simp [exec, hrun]) (if_pos hn) hrep'
    · exact .of_error hrep (by simp [exec, addBefore, hrep.checkNode_run hn hok.2]) (if_neg hn)
  | addAfter l n e =>
    by_cases hn : n ∈ a.seq l
    · obtain ⟨p, q, hseq, hp, hq⟩ := hrep.sides hn
      obtain ⟨h', hrun, hrep'⟩ := addAfter_spec hrep hok.1 hseq e
      rw [← insertAfterIn_eq a.nodes hp hq, ← hseq] at hrep'
      exact .of_ok (by simp [exec, hrun]) (if_pos hn) hrep'
    · exact .of_error hrep (by simp [exec, addAfter, hrep.checkNode_run hn hok.2]) (if_neg hn)
  | remove l n =>
    by_cases hn : n ∈ a.seq l
    · obtain ⟨p, q, hseq, hp, -⟩ := hrep.sides hn
      obtain ⟨x, hx⟩ := hrep.item_some hn
      obtain ⟨h', hrun, hrep'⟩ := remove_spec hrep hseq hx
      have herase : (a.seq l).erase n = p ++ q := by
        rw [hseq, erase_append_right _ hp, erase_cons_head]
      rw [← herase] at hrep'
      exact .of_ok (r := .element x) (by simp [exec, hrun]) (by simp only [Seqs.apply, hx, if_pos hn]) hrep'
    · refine .of_error (e := .illegalArgument) hrep (by simp [exec, remove, hrep.checkNode_run hn hok.2]) ?_
      cases hitem : a.item n with
      | none => simp only [Seqs.apply, hitem]
      | some x => simp only [Seqs.apply, hitem, if_neg hn]
  | removeFirst l =>
    cases hseq : a.seq l with
    | nil =>
      have hhead : h.head l = none := by rw [hrep.head, hseq]; rfl
      exact .of_ok (r := .option none) (by simp [exec, removeFirst, hhead]) (by simp only [Seqs.apply, hseq]) hrep
    | cons n q =>
      obtain ⟨x, hx⟩ := hrep.item_some (l := l) (n := n) (by rw [hseq]; exact mem_cons_self ..)
      obtain ⟨h', hrun, hrep'⟩ := removeFirst_spec hrep hseq hx
      exact .of_ok (r := .option (some x)) (by simp [exec, hrun]) (by simp only [Seqs.apply, hseq, hx]) hrep'
  | removeLast l =>
    rcases eq_nil_or_concat (a.seq l) with hseq | ⟨p, n, hseq⟩
    · have htail : h.tail l = none := by rw [hrep.tail, hseq]; rfl
      have hsame : a.set l [] = a := by
        have heq : update a.seq l [] = a.seq := update_eq_self_iff.mpr hseq.symm
        simp only [Seqs.set, heq]
      refine .of_ok (r := .option none) (by simp [exec, removeLast, htail]) ?_ hrep
      simp only [Seqs.apply, hseq, dropLast_nil, hsame]
      rfl
    · rw [concat_eq_append] at hseq
      obtain ⟨x, hx⟩ := hrep.item_some (l := l) (n := n) (by rw [hseq]; simp)
      obtain ⟨h', hrun, hrep'⟩ := removeLast_spec hrep hseq hx
      exact .of_ok (r := .option (some x)) (by simp [exec, hrun]) (by simp [Seqs.apply, hseq, hx]) hrep'
  | removeIf l p =>
    obtain ⟨h', hrun, hrep'⟩ := removeIfLoop_spec p h.nodes hrep (p := []) rfl (hrep.length_le l)
    rw [← hrep.head l] at hrun
    exact .of_ok (by simp [exec, removeIf, hrun]) rfl hrep'
  | reverse l =>
    obtain ⟨h', hrun, hrep'⟩ := reverse_spec (l := l) hrep
    exact .of_ok (by simp [exec, hrun]) rfl hrep'
  | clear l =>
    obtain ⟨h', hrun, hrep'⟩ := clear_spec (l := l) hrep
    exact .of_ok (by simp [exec, hrun]) rfl hrep'
  | splitOff l n =>
    obtain ⟨hl, hkept, hfirst⟩ := hok
    by_cases hn : n ∈ a.seq l
    · obtain ⟨p, q, hseq, hp, -⟩ := hrep.sides hn
      have hne : p ≠ [] := by
        rintro rfl
        exact hfirst (by rw [hseq]; rfl)
      have hother : ∀ m ∈ p, decide (m ≠ n) = true := by
        intro m hm
        exact decide_eq_true fun heq => hp (heq ▸ hm)
      have htake : (a.seq l).takeWhile (fun m => decide (m ≠ n)) = p := by
        rw [hseq, takeWhile_append_of_pos hother, takeWhile_cons_of_neg (by simp), append_nil]
      have hdrop : (a.seq l).dropWhile (fun m => decide (m ≠ n)) = n :: q := by
        rw [hseq, dropWhile_append_of_pos hother, dropWhile_cons_of_neg (by simp)]
      refine .of_ok (r := .ref a.lists) (by simp [exec, splitOff_run hrep hl hseq]) ?_ (hrep.split hl hseq hne)
      simp only [Seqs.apply, if_pos hn, htake, hdrop]
    · exact .of_error hrep (by simp [exec, splitOff, hrep.checkNode_run hn hkept]) (if_neg hn)

/-- The results of a sequence of calls, and the heap after it. -/
def runCalls : Heap T → List (Op T) → List (Except Exn (Ret T)) × Heap T
  | h, [] => ([], h)
  | h, op :: ops =>
    let (r, h) := call op h
    let (rs, h) := runCalls h ops
    (r :: rs, h)

def Seqs.run : Seqs T → List (Op T) → List (Except Exn (Ret T)) × Seqs T
  | a, [] => ([], a)
  | a, op :: ops =>
    let (r, a) := a.apply op
    let (rs, a) := a.run ops
    (r :: rs, a)

/-- Every call of the sequence meets the condition where it is made. -/
def Meets (P : Seqs T → Op T → Prop) : Seqs T → List (Op T) → Prop
  | _, [] => True
  | a, op :: ops => P a op ∧ Meets P (a.apply op).2 ops

theorem runCalls_agrees (ops : List (Op T)) (hok : Meets Admitted a ops) :
    (runCalls h ops).1 = (a.run ops).1 ∧ Rep (runCalls h ops).2 (a.run ops).2 := by
  induction ops generalizing h a with
  | nil => exact ⟨rfl, hrep⟩
  | cons op ops ih =>
    obtain ⟨hresult, hrep', -⟩ := call_agrees hrep op hok.1
    obtain ⟨hresults, hrep''⟩ := ih hrep' hok.2
    refine ⟨?_, hrep''⟩
    show (call op h).1 :: (runCalls (call op h).2 ops).1 = (a.apply op).1 :: ((a.apply op).2.run ops).1
    rw [hresult, hresults]

/-- The nodes from the head on. A chain that had not ended after all nodes would run in circles. -/
def nextChain (h : Heap T) (l : Nat) : List Nat := follow h.links.next (h.nodes + 1) (h.head l)

/-- The nodes from the tail back. -/
def prevChain (h : Heap T) (l : Nat) : List Nat := follow h.links.prev (h.nodes + 1) (h.tail l)

theorem Rep.nextChain_eq (l : Nat) : nextChain h l = a.seq l := by
  unfold nextChain
  rw [hrep.head l]
  exact follow_next (p := []) hrep _ rfl (Nat.le_succ_of_le (hrep.length_le l))

theorem Rep.prevChain_eq (l : Nat) : prevChain h l = (a.seq l).reverse := by
  unfold prevChain
  rw [hrep.tail l]
  exact follow_prev (q := []) hrep _ (append_nil _).symm (Nat.le_succ_of_le (hrep.length_le l))

/-- List `l` of the heap is its sequence. -/
structure Sound (h : Heap T) (a : Seqs T) (l : Nat) : Prop where
  chain : nextChain h l = a.seq l
  back : nextChain h l = (prevChain h l).reverse
  ends : (nextChain h l).length ≤ h.nodes
  size : h.size l = (nextChain h l).length
  member : ∀ n, n ∈ nextChain h l ↔ h.list n = some l ∧ n ∉ a.dropped
  alone : ∀ l', l' ≠ l → List.Disjoint (nextChain h l) (nextChain h l')
  toArray : ∀ zeroValue, (toArray zeroValue l).run h = .ok (a.toList l) h
  elements : (elements l).run h = .ok (a.toList l) h

theorem Rep.sound (l : Nat) : Sound h a l where
  chain := hrep.nextChain_eq l
  back := by rw [hrep.nextChain_eq, hrep.prevChain_eq, reverse_reverse]
  ends := by
    rw [hrep.nextChain_eq]
    exact hrep.length_le l
  size := by rw [hrep.nextChain_eq, hrep.size]
  member n := by
    rw [hrep.nextChain_eq]
    exact hrep.member l n
  alone l' hne := by
    rw [hrep.nextChain_eq, hrep.nextChain_eq]
    exact hrep.disjoint hne.symm
  toArray := toArray_spec hrep
  elements := elements_spec hrep

/-- The list and the handle of a call that has one. -/
def Op.handle : Op T → Option (Nat × Nat)
  | .addBefore l n _ | .addAfter l n _ | .remove l n | .splitOff l n => some (l, n)
  | _ => none

/-- A call with the handle of another list, or of a removed node, throws and changes nothing. -/
theorem Rep.call_stale (hhandle : op.handle = some (l, n)) (hok : Admitted a op) (hn : n ∉ a.seq l) :
    call op h = (.error .illegalArgument, h) := by
  cases op with
  | addBefore l' n' e | addAfter l' n' e | remove l' n' =>
    cases hhandle
    exact call_error (by simp [exec, addBefore, addAfter, remove, hrep.checkNode_run hn hok.2])
  | splitOff l' n' =>
    cases hhandle
    exact call_error (by simp [exec, splitOff, hrep.checkNode_run hn hok.2.1])
  | _ => cases hhandle

omit hrep

/-- The lists refine sequences over whole runs, up to the owner pointers of dropped nodes. -/
theorem list_refines_kept (ops : List (Op T)) (hok : Meets Admitted Seqs.empty ops) :
    (runCalls Heap.empty ops).1 = (Seqs.empty.run ops).1 ∧
      (∀ l, Sound (runCalls Heap.empty ops).2 (Seqs.empty.run ops).2 l) ∧
      ∀ op l n, op.handle = some (l, n) → Admitted (Seqs.empty.run ops).2 op →
        n ∉ nextChain (runCalls Heap.empty ops).2 l →
        call op (runCalls Heap.empty ops).2 = (.error .illegalArgument, (runCalls Heap.empty ops).2) := by
  obtain ⟨hresults, hrep⟩ := runCalls_agrees rep_empty ops hok
  refine ⟨hresults, hrep.sound, ?_⟩
  intro op l n hhandle hadm hn
  rw [hrep.nextChain_eq] at hn
  exact hrep.call_stale hhandle hadm hn

/-- No node is dropped: a list that is cleared is empty. -/
def DropsNone (a : Seqs T) : Op T → Prop
  | .clear l => a.seq l = []
  | _ => True

/-- The calls that keep the owner pointers right. -/
def Intact (a : Seqs T) (op : Op T) : Prop := Admitted a op ∧ DropsNone a op

theorem DropsNone.dropped_eq (hnone : DropsNone a op) : (a.apply op).2.dropped = a.dropped := by
  cases op with
  | clear l =>
    show a.dropped ++ a.seq l = a.dropped
    rw [show a.seq l = [] from hnone, append_nil]
  | remove l n | removeFirst l | addBefore l n e | addAfter l n e | splitOff l n =>
    dsimp only [Seqs.apply]
    repeat' split
    all_goals rfl
  | _ => rfl

theorem intact_run {ops : List (Op T)} (hok : Meets Intact a ops) :
    Meets Admitted a ops ∧ (a.run ops).2.dropped = a.dropped := by
  induction ops generalizing a with
  | nil => exact ⟨trivial, rfl⟩
  | cons op ops ih =>
    obtain ⟨⟨hadm, hnone⟩, hrest⟩ := hok
    obtain ⟨hadms, hdropped⟩ := ih hrest
    exact ⟨⟨hadm, hadms⟩, hdropped.trans hnone.dropped_eq⟩

/-- **The lists refine sequences over whole runs** in which no list with nodes is cleared and no list is split at its
    first node: results, both chains, sizes, owners, `toArray` and iteration are those of the sequences, and a call with
    a handle that is no longer a member throws and changes nothing. -/
theorem list_refines_sequence (ops : List (Op T)) (hok : Meets Intact Seqs.empty ops) :
    (runCalls Heap.empty ops).1 = (Seqs.empty.run ops).1 ∧
      (∀ l, Sound (runCalls Heap.empty ops).2 (Seqs.empty.run ops).2 l ∧
        ∀ n, n ∈ nextChain (runCalls Heap.empty ops).2 l ↔ (runCalls Heap.empty ops).2.list n = some l) ∧
      ∀ op l n, op.handle = some (l, n) → Admitted (Seqs.empty.run ops).2 op →
        n ∉ nextChain (runCalls Heap.empty ops).2 l →
        call op (runCalls Heap.empty ops).2 = (.error .illegalArgument, (runCalls Heap.empty ops).2) := by
  obtain ⟨hadm, hdropped⟩ := intact_run hok
  obtain ⟨hresults, hsound, hstale⟩ := list_refines_kept ops hadm
  refine ⟨hresults, fun l => ⟨hsound l, fun n => ?_⟩, hstale⟩
  rw [(hsound l).member n, hdropped]
  exact and_iff_left List.not_mem_nil

instance (a : Seqs T) : DecidablePred (Intact a) := by
  intro op
  cases op <;> unfold Intact Admitted DropsNone <;> infer_instance

instance decidableMeets (P : Seqs T → Op T → Prop) [∀ a, DecidablePred (P a)] :
    (a : Seqs T) → (ops : List (Op T)) → Decidable (Meets P a ops)
  | _, [] => inferInstanceAs (Decidable True)
  | a, op :: ops =>
    have := decidableMeets P (a.apply op).2 ops
    inferInstanceAs (Decidable (P a op ∧ Meets P (a.apply op).2 ops))

/-- Five nodes 10, 11, 12, 13, 14 of one list; the last three move to a second list, which is reversed. -/
def sampleCalls : List (Op Nat) :=
  [.newList, .addLast 0 11, .addFirst 0 10, .addLast 0 13, .addBefore 0 2 12, .addAfter 0 2 14,
    .splitOff 0 3, .reverse 1, .remove 0 3]

/-- The last call of the sample is given a node that has moved away, and throws. -/
theorem list_refines_sequence_sample :
    Meets Intact Seqs.empty sampleCalls ∧
      (runCalls Heap.empty sampleCalls).1.getLast? = some (.error .illegalArgument) ∧
      nextChain (runCalls Heap.empty sampleCalls).2 1 = [4, 2, 3] ∧
      (elements 1).run (runCalls Heap.empty sampleCalls).2 = .ok [14, 13, 12] (runCalls Heap.empty sampleCalls).2 := by
  have hok : Meets Intact Seqs.empty sampleCalls := by decide +kernel
  obtain ⟨hresults, hsound, -⟩ := list_refines_sequence sampleCalls hok
  refine ⟨hok, ?_, ?_, ?_⟩
  · rw [hresults]
    decide +kernel
  · rw [(hsound 1).1.chain]
    decide +kernel
  · rw [(hsound 1).1.elements]
    have hitems : (Seqs.empty.run sampleCalls).2.toList 1 = [14, 13, 12] := by decide +kernel
    rw [hitems]

/-- A handle dropped by `clear` is still accepted: `remove` returns the element and the size becomes negative. And
    `splitOff` at the first node leaves the old list with its head: its size is 0, and it still yields the elements of
    the new list. -/
theorem clear_and_splitOff_break_lists :
    let cleared := runCalls Heap.empty [.newList, .addLast 0 7, .clear 0, .remove 0 0]
    let split := runCalls Heap.empty [.newList, .addLast 0 7, .addLast 0 8, .splitOff 0 0]
    cleared.1 = [.ok (.ref 0), .ok (.ref 0), .ok .unit, .ok (.element 7)] ∧ cleared.2.size 0 = -1 ∧
      split.2.size 0 = 0 ∧ nextChain split.2 0 = [0, 1] ∧ prevChain split.2 0 = [] ∧ split.2.list 0 = some 1 ∧
      nextChain split.2 1 = [0, 1] ∧ ((elements 0).run split.2 matches .ok [7, 8] _) := by
  decide +kernel

end Runs

end CangjieRuntime.LinkedList
