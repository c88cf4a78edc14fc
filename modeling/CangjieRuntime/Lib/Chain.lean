import Mathlib

/-!
# `Lib.Chain` — doubly linked lists in a memory

A memory of nodes with two nullable pointers each. A list of nodes is a *path* when neighbours point at each other;
nothing is said about what lies before its first and behind its last node, so a path is as good a description of a
list that ends in null pointers as of one that closes over its head.

All surgery on such lists comes down to one operation, `link a b`: the two writes that make `b` follow `a`. It joins
the path that ends in `a` to the path that begins with `b` (`Links.Path.join`), and it leaves alone every path that does
not use the two pointers it overwrites (`Links.Path.frame`).
-/

namespace Chain

open List

variable {A : Type*}

/-- The pointers of all nodes; `none` is the null pointer. -/
structure Links (A : Type*) where
  next : A → Option A
  prev : A → Option A

/-- `u` and `v` are neighbours, and both know it. -/
structure Links.Joined (m : Links A) (u v : A) : Prop where
  next : m.next u = some v
  prev : m.prev v = some u

/-- Neighbours in the list are neighbours in memory. -/
def Links.Path (m : Links A) (l : List A) : Prop := l.IsChain m.Joined

/-- Only nodes of the list have other pointers in `m'` than in `m`. -/
def Links.Changes (m m' : Links A) (l : List A) : Prop := ∀ u, u ∉ l → m'.next u = m.next u ∧ m'.prev u = m.prev u

variable {m m' : Links A} {l p q : List A} {a b u v : A}

theorem Links.Changes.mono (h : m.Changes m' l) (hsub : l ⊆ q) : m.Changes m' q :=
  fun u hu => h u fun hmem => hu (hsub hmem)

theorem Links.Changes.trans {m'' : Links A} (h : m.Changes m' l) (h' : m'.Changes m'' l) : m.Changes m'' l :=
  fun u hu => ⟨(h' u hu).1.trans (h u hu).1, (h' u hu).2.trans (h u hu).2⟩

/-! ## Paths -/

theorem path_singleton (m : Links A) (a : A) : m.Path [a] := isChain_singleton a

/-- A path splits between any two neighbours. -/
theorem path_split : m.Path (p ++ a :: b :: q) ↔ m.Path (p ++ [a]) ∧ m.Joined a b ∧ m.Path (b :: q) :=
  isChain_append_cons_cons

/-- A path uses the `next` pointers of all nodes but the last and the `prev` pointers of all but the first. -/
theorem Links.Path.frame (h : m.Path l) (hnext : ∀ u ∈ l.dropLast, m'.next u = m.next u)
    (hprev : ∀ v ∈ l.tail, m'.prev v = m.prev v) : m'.Path l := by
  induction l with
  | nil => exact isChain_nil
  | cons x rest ih =>
    cases rest with
    | nil => exact path_singleton m' x
    | cons y rest =>
      obtain ⟨hxy, hrest⟩ := isChain_cons_cons.mp h
      refine isChain_cons_cons.mpr ⟨⟨?_, ?_⟩, ih hrest ?_ ?_⟩
      · rw [hnext x (mem_cons_self ..)]
        exact hxy.next
      · rw [hprev y (mem_cons_self ..)]
        exact hxy.prev
      · intro u hu
        exact hnext u (mem_cons_of_mem x hu)
      · intro v hv
        exact hprev v (mem_cons_of_mem y hv)

/-- Paths elsewhere stay. -/
theorem Links.Path.congr (h : m.Path l) (hchange : m.Changes m' q) (hdisj : List.Disjoint l q) : m'.Path l := by
  apply h.frame
  · intro u hu
    exact (hchange u (hdisj (mem_of_mem_dropLast hu))).1
  · intro v hv
    exact (hchange v (hdisj (mem_of_mem_tail hv))).2

/-- Walking along `next` walks along the list. -/
theorem Links.Path.next_getElem? (h : m.Path l) {i : Nat} (hu : l[i]? = some u) (hv : l[i + 1]? = some v) :
    m.next u = some v ∧ m.prev v = some u := by
  obtain ⟨hi, hu⟩ := List.getElem?_eq_some_iff.mp hu
  obtain ⟨hi', hv⟩ := List.getElem?_eq_some_iff.mp hv
  have hjoined := List.IsChain.getElem h i hi'
  rw [hu, hv] at hjoined
  exact ⟨hjoined.next, hjoined.prev⟩

/-! ## Writing pointers -/

section Writing

variable [DecidableEq A]

def Links.setNext (m : Links A) (a : A) (v : Option A) : Links A := { m with next := Function.update m.next a v }

def Links.setPrev (m : Links A) (a : A) (v : Option A) : Links A := { m with prev := Function.update m.prev a v }

@[simp]
theorem next_setPrev (m : Links A) (a : A) (v : Option A) : (m.setPrev a v).next = m.next := rfl

@[simp]
theorem prev_setNext (m : Links A) (a : A) (v : Option A) : (m.setNext a v).prev = m.prev := rfl

@[simp]
theorem next_setNext_self (m : Links A) (a : A) (v : Option A) : (m.setNext a v).next a = v :=
  Function.update_self ..

@[simp]
theorem prev_setPrev_self (m : Links A) (a : A) (v : Option A) : (m.setPrev a v).prev a = v :=
  Function.update_self ..

theorem next_setNext_of_ne (m : Links A) (v : Option A) (h : u ≠ a) : (m.setNext a v).next u = m.next u :=
  Function.update_of_ne h ..

theorem prev_setPrev_of_ne (m : Links A) (v : Option A) (h : u ≠ a) : (m.setPrev a v).prev u = m.prev u :=
  Function.update_of_ne h ..

/-- A pointer and a back pointer are different memory cells. -/
theorem setPrev_setNext (m : Links A) (a b : A) (v w : Option A) :
    (m.setNext a v).setPrev b w = (m.setPrev b w).setNext a v := rfl

/-- `b` is made to follow `a`. -/
def Links.link (m : Links A) (a b : A) : Links A := (m.setNext a (some b)).setPrev b (some a)

theorem next_link_self (m : Links A) (a b : A) : (m.link a b).next a = some b := next_setNext_self ..

theorem prev_link_self (m : Links A) (a b : A) : (m.link a b).prev b = some a := prev_setPrev_self ..

theorem next_link_of_ne (m : Links A) (b : A) (h : u ≠ a) : (m.link a b).next u = m.next u :=
  next_setNext_of_ne m _ h

theorem prev_link_of_ne (m : Links A) (a : A) (h : u ≠ b) : (m.link a b).prev u = m.prev u :=
  prev_setPrev_of_ne m _ h

/-- Other nodes keep their pointers. -/
theorem changes_link (m : Links A) (ha : a ∈ l) (hb : b ∈ l) : m.Changes (m.link a b) l := by
  intro u hu
  exact ⟨next_link_of_ne m b fun heq => hu (heq ▸ ha), prev_link_of_ne m a fun heq => hu (heq ▸ hb)⟩

/-- A path that does not use the overwritten pointers stays a path. -/
theorem Links.Path.link (h : m.Path l) (ha : a ∉ l.dropLast) (hb : b ∉ l.tail) : (m.link a b).Path l :=
  h.frame (fun _ hu => next_link_of_ne m b fun heq => ha (heq ▸ hu)) fun _ hv =>
    prev_link_of_ne m a fun heq => hb (heq ▸ hv)

/-- The path that ends in `a` and the path that begins with `b` become one. -/
theorem Links.Path.join (hleft : m.Path (p ++ [a])) (hright : m.Path (b :: q)) (hap : a ∉ p)
    (haq : a ∉ (b :: q).dropLast) (hbp : b ∉ (p ++ [a]).tail) (hbq : b ∉ q) : (m.link a b).Path (p ++ a :: b :: q) := by
  refine path_split.mpr ⟨?_, ⟨next_link_self m a b, prev_link_self m a b⟩, ?_⟩
  · apply hleft.link
    · rw [dropLast_concat]
      exact hap
    · exact hbp
  · exact hright.link haq hbq

end Writing

/-! ## Segments

A segment is a path together with the two pointers that lead out of it. The pointers of its nodes are determined by the
list, so a list that ends in null pointers is a segment between `none` and `none`. -/

/-- The nodes of the list in this order, between `before` and `after`. -/
def Links.Seg (m : Links A) (before : Option A) : List A → Option A → Prop
  | [], _ => True
  | a :: l, after => m.prev a = before ∧ m.next a = l.head?.or after ∧ m.Seg (some a) l after

section Segments

variable {before after before' after' : Option A}

theorem seg_append : m.Seg before (p ++ q) after ↔ m.Seg before p (q.head?.or after) ∧
    m.Seg (p.getLast?.or before) q after := by
  induction p generalizing before with
  | nil =>
    rw [nil_append, getLast?_nil, Option.none_or]
    exact ⟨fun h => ⟨trivial, h⟩, fun h => h.2⟩
  | cons a p ih =>
    have hhead : (p ++ q).head?.or after = p.head?.or (q.head?.or after) := by
      rw [head?_append, Option.or_assoc]
    have hlast : (a :: p).getLast?.or before = p.getLast?.or (some a) := by
      cases p with
      | nil => rfl
      | cons x p => rw [getLast?_cons_cons, getLast?_eq_some_getLast (cons_ne_nil x p)]; rfl
    rw [cons_append, hlast]
    show _ ∧ _ ∧ _ ↔ (_ ∧ _ ∧ _) ∧ _
    rw [hhead, ih, and_assoc, and_assoc]

/-- The pointers of a node in the middle. -/
theorem Links.Seg.pointers (h : m.Seg before (p ++ a :: q) after) :
    m.prev a = p.getLast?.or before ∧ m.next a = q.head?.or after :=
  ⟨(seg_append.mp h).2.1, (seg_append.mp h).2.2.1⟩

theorem Links.Seg.frame (h : m.Seg before l after) (hframe : ∀ u ∈ l, m'.next u = m.next u ∧ m'.prev u = m.prev u) :
    m'.Seg before l after := by
  induction l generalizing before with
  | nil => trivial
  | cons a l ih =>
    obtain ⟨hprev, hnext, hrest⟩ := h
    obtain ⟨hnext', hprev'⟩ := hframe a (mem_cons_self ..)
    exact ⟨hprev'.trans hprev, hnext'.trans hnext, ih hrest fun u hu => hframe u (mem_cons_of_mem a hu)⟩

theorem Links.Seg.congr (h : m.Seg before l after) (hchange : m.Changes m' q) (hdisj : List.Disjoint l q) :
    m'.Seg before l after :=
  h.frame fun u hu => hchange u (hdisj hu)

/-- Swapping the two pointers of every node reverses the segment. -/
theorem Links.Seg.reverse (h : m.Seg before l after) (hswap : ∀ u ∈ l, m'.next u = m.prev u ∧ m'.prev u = m.next u) :
    m'.Seg after l.reverse before := by
  induction l generalizing before with
  | nil => trivial
  | cons a l ih =>
    obtain ⟨hprev, hnext, hrest⟩ := h
    obtain ⟨hnext', hprev'⟩ := hswap a (mem_cons_self ..)
    rw [reverse_cons]
    refine seg_append.mpr ⟨ih hrest fun u hu => hswap u (mem_cons_of_mem a hu), ?_, hnext'.trans hprev, trivial⟩
    rw [hprev', hnext, getLast?_reverse]

/-- The node that `l` begins with is not in `q`, nor is the one that it ends with. -/
theorem head?_ne_of_disjoint (h : List.Disjoint l q) (hu : u ∈ q) : l.head? ≠ some u :=
  fun heq => h (mem_of_head? heq) hu

theorem getLast?_ne_of_disjoint (h : List.Disjoint l q) (hu : u ∈ q) : l.getLast? ≠ some u :=
  fun heq => h (mem_of_getLast? heq) hu

variable [DecidableEq A]

/-- The assignment `o.next = v`, if there is such a node. -/
def Links.setNextOf (m : Links A) (o v : Option A) : Links A :=
  match o with
  | some a => m.setNext a v
  | none => m

/-- The assignment `o.prev = v`, if there is such a node. -/
def Links.setPrevOf (m : Links A) (o v : Option A) : Links A :=
  match o with
  | some a => m.setPrev a v
  | none => m

@[simp]
theorem prev_setNextOf (m : Links A) (o v : Option A) : (m.setNextOf o v).prev = m.prev := by cases o <;> rfl

@[simp]
theorem next_setPrevOf (m : Links A) (o v : Option A) : (m.setPrevOf o v).next = m.next := by cases o <;> rfl

theorem next_setNextOf_of_ne (m : Links A) {o : Option A} (v : Option A) (h : o ≠ some u) :
    (m.setNextOf o v).next u = m.next u := by
  cases o with
  | none => rfl
  | some a => exact next_setNext_of_ne m v fun heq => h (congrArg some heq.symm)

theorem prev_setPrevOf_of_ne (m : Links A) {o : Option A} (v : Option A) (h : o ≠ some u) :
    (m.setPrevOf o v).prev u = m.prev u := by
  cases o with
  | none => rfl
  | some a => exact prev_setPrev_of_ne m v fun heq => h (congrArg some heq.symm)

/-- The segment is led out to somewhere else. -/
theorem Links.Seg.setNextOf_last (h : m.Seg before l after) (hnodup : l.Nodup) (v : Option A) :
    (m.setNextOf l.getLast? v).Seg before l v := by
  rcases eq_nil_or_concat l with rfl | ⟨l, a, rfl⟩
  · trivial
  · rw [concat_eq_append] at h hnodup ⊢
    have ha : a ∉ l := fun hmem => (nodup_append.mp hnodup).2.2 a hmem a (mem_singleton_self a) rfl
    obtain ⟨hl, hprev, hnext, -⟩ := seg_append.mp h
    rw [getLast?_concat]
    refine seg_append.mpr ⟨hl.frame fun u hu => ⟨?_, rfl⟩, hprev, ?_, trivial⟩
    · exact next_setNext_of_ne m v fun heq => ha (heq ▸ hu)
    · exact next_setNext_self m a v

theorem Links.Seg.setPrevOf_head (h : m.Seg before l after) (hnodup : l.Nodup) (v : Option A) :
    (m.setPrevOf l.head? v).Seg v l after := by
  cases l with
  | nil => trivial
  | cons a l =>
    obtain ⟨-, hnext, hrest⟩ := h
    refine ⟨prev_setPrev_self m a v, hnext, hrest.frame fun u hu => ⟨rfl, ?_⟩⟩
    exact prev_setPrev_of_ne m v fun heq => (nodup_cons.mp hnodup).1 (heq ▸ hu)

/-- The two writes that make `q` follow `p`. -/
def Links.connect (m : Links A) (p q : List A) : Links A :=
  (m.setNextOf p.getLast? q.head?).setPrevOf q.head? p.getLast?

theorem Links.changes_connect (m : Links A) (p q : List A) : m.Changes (m.connect p q) (p ++ q) := by
  intro u hu
  rw [mem_append, not_or] at hu
  unfold Links.connect
  rw [next_setPrevOf]
  constructor
  · exact next_setNextOf_of_ne m _ fun heq => hu.1 (mem_of_getLast? heq)
  · rw [prev_setPrevOf_of_ne _ _ fun heq => hu.2 (mem_of_head? heq), prev_setNextOf]

/-- What lies between `p` and `q` is taken out. -/
theorem Links.Seg.connect {c d : Option A} (hp : m.Seg none p c) (hq : m.Seg d q none) (hnodup : (p ++ q).Nodup) :
    (m.connect p q).Seg none (p ++ q) none := by
  have hdisj : List.Disjoint p q := disjoint_of_nodup_append hnodup
  have hpn := (nodup_append.mp hnodup).1
  have hqn := (nodup_append.mp hnodup).2.1
  refine seg_append.mpr ⟨?_, ?_⟩
  · rw [Option.or_none]
    refine (hp.setNextOf_last hpn q.head?).frame fun u hu => ⟨?_, ?_⟩
    · exact congrFun (next_setPrevOf _ _ _) u
    · exact prev_setPrevOf_of_ne _ _ (head?_ne_of_disjoint hdisj.symm hu)
  · rw [Option.or_none]
    have hq' : (m.setNextOf p.getLast? q.head?).Seg d q none := hq.frame fun u hu =>
      ⟨next_setNextOf_of_ne m _ (getLast?_ne_of_disjoint hdisj hu), congrFun (prev_setNextOf _ _ _) u⟩
    exact hq'.setPrevOf_head hqn p.getLast?

/-- A new node `a` is put between `p` and `q`. -/
def Links.insert (m : Links A) (p : List A) (a : A) (q : List A) : Links A :=
  (((m.setPrev a p.getLast?).setNext a q.head?).setNextOf p.getLast? (some a)).setPrevOf q.head? (some a)

theorem Links.changes_insert (m : Links A) (p : List A) (a : A) (q : List A) :
    m.Changes (m.insert p a q) (p ++ a :: q) := by
  intro u hu
  rw [mem_append, mem_cons, not_or, not_or] at hu
  unfold Links.insert
  rw [next_setPrevOf]
  constructor
  · rw [next_setNextOf_of_ne _ _ fun heq => hu.1 (mem_of_getLast? heq), next_setNext_of_ne _ _ hu.2.1]
    rfl
  · rw [prev_setPrevOf_of_ne _ _ fun heq => hu.2.2 (mem_of_head? heq), prev_setNextOf, prev_setNext,
      prev_setPrev_of_ne _ _ hu.2.1]

theorem Links.Seg.insert (h : m.Seg none (p ++ q) none) (hnodup : (p ++ a :: q).Nodup) :
    (m.insert p a q).Seg none (p ++ a :: q) none := by
  obtain ⟨hp, hq⟩ := seg_append.mp h
  obtain ⟨hpn, haq, hdisj⟩ := nodup_append'.mp hnodup
  obtain ⟨ha, hqn⟩ := nodup_cons.mp haq
  have hap : a ∉ p := fun hmem => hdisj hmem (mem_cons_self ..)
  have hpq : List.Disjoint p q := fun u hu hu' => hdisj hu (mem_cons_of_mem a hu')
  -- the two writes to the new node do not concern the others
  have hframe (l : List A) (hl : a ∉ l) (u : A) (hu : u ∈ l) :
      ((m.setPrev a p.getLast?).setNext a q.head?).next u = m.next u ∧
        ((m.setPrev a p.getLast?).setNext a q.head?).prev u = m.prev u :=
    ⟨next_setNext_of_ne _ _ fun heq => hl (heq ▸ hu), prev_setPrev_of_ne _ _ fun heq => hl (heq ▸ hu)⟩
  refine seg_append.mpr ⟨?_, ?_, ?_, ?_⟩
  · refine ((hp.frame (hframe p hap)).setNextOf_last hpn (some a)).frame fun u hu => ⟨?_, ?_⟩
    · exact congrFun (next_setPrevOf _ _ _) u
    · exact prev_setPrevOf_of_ne _ _ (head?_ne_of_disjoint hpq.symm hu)
  · unfold Links.insert
    rw [prev_setPrevOf_of_ne _ _ fun heq => ha (mem_of_head? heq), prev_setNextOf, prev_setNext, prev_setPrev_self,
      Option.or_none]
  · unfold Links.insert
    rw [next_setPrevOf, next_setNextOf_of_ne _ _ fun heq => hap (mem_of_getLast? heq), next_setNext_self,
      Option.or_none]
  · have hq' : (((m.setPrev a p.getLast?).setNext a q.head?).setNextOf p.getLast? (some a)).Seg
        (p.getLast?.or none) q none :=
      (hq.frame (hframe q ha)).frame fun u hu =>
        ⟨next_setNextOf_of_ne _ _ (getLast?_ne_of_disjoint hpq hu), congrFun (prev_setNextOf _ _ _) u⟩
    exact hq'.setPrevOf_head hqn (some a)

end Segments

end Chain
