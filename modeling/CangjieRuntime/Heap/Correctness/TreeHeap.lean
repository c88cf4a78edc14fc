import CangjieRuntime.Heap.Correctness.TreeOrder

/-!
# `Heap.Correctness.TreeHeap` — the max-heap order on the counts

`Below b n` says that `n` is a heap whose root count is at most `b`; `HeapPath b fs` that any such node may sit
in the open child of the frames `fs`. The two fit together (`plugAll_maxHeap`, `maxHeap_plugAll`), so each loop
has a one-line invariant:

* **bubbling up**: the child that grew is a heap, and its own children are still below the bound its parent
  had (`bubbleUp_maxHeap`);
* **lowering**: both children of the node that shrank are heaps below the bound of the path (`Lowerable`).
-/

namespace CangjieRuntime.CartesianTree

open Runs Word Node Option

/-- Every node's count is at least the counts of its children. -/
def MaxHeap : Node → Prop
  | .null => True
  | .node l _ c r => l.getCount ≤ c ∧ r.getCount ≤ c ∧ MaxHeap l ∧ MaxHeap r

/-- A heap whose largest count is at most `b`. -/
def Below (b : Nat) (n : Node) : Prop := n.getCount ≤ b ∧ MaxHeap n

/-- Any node `Below b` may sit in the open child of the frames. -/
def HeapPath : Nat → List Frame → Prop
  | _, [] => True
  | b, f :: fs => b ≤ f.count ∧ Below f.count f.sibling ∧ HeapPath f.count fs

theorem below_null (b : Nat) : Below b .null := ⟨Nat.zero_le _, trivial⟩

variable {b b' i c e idx num : Nat} {n l r n' : Node} {fs : List Frame} {k : Link}

theorem Below.mono (h : Below b n) (hb : b ≤ b') : Below b' n := ⟨h.1.trans hb, h.2⟩

theorem maxHeap_node : MaxHeap (.node l i c r) ↔ Below c l ∧ Below c r := by
  constructor
  · rintro ⟨h1, h2, h3, h4⟩; exact ⟨⟨h1, h3⟩, ⟨h2, h4⟩⟩
  · rintro ⟨⟨h1, h3⟩, ⟨h2, h4⟩⟩; exact ⟨h1, h2, h3, h4⟩

theorem below_node :
    Below b (.node l i c r) ↔ c ≤ b ∧ Below c l ∧ Below c r := by
  rw [Below, maxHeap_node]; rfl

theorem HeapPath.mono (h : HeapPath b' fs) (hb : b ≤ b') : HeapPath b fs := by
  cases fs with
  | nil => trivial
  | cons f fs => exact ⟨hb.trans h.1, h.2.1, h.2.2⟩

/-- A frame is a heap exactly when its sibling and its open child are below its count. -/
theorem below_plug {f : Frame} :
    Below b (f.plug n) ↔ f.count ≤ b ∧ Below f.count f.sibling ∧ Below f.count n := by
  obtain ⟨d, i, c, s⟩ := f
  cases d with
  | l => simp only [Frame.plug, Frame.lchild, Frame.rchild, below_node]; tauto
  | r => exact below_node

theorem plugAll_maxHeap (hp : HeapPath b fs) (hn : Below b n) :
    MaxHeap (plugAll fs n) := by
  induction fs generalizing b n with
  | nil => exact hn.2
  | cons f fs ih => exact ih hp.2.2 (below_plug.mpr ⟨Nat.le_refl _, hp.2.1, hn.mono hp.1⟩)

theorem maxHeap_plugAll (h : MaxHeap (plugAll fs n)) :
    HeapPath n.getCount fs ∧ MaxHeap n := by
  induction fs generalizing n with
  | nil => exact ⟨trivial, h⟩
  | cons f fs ih =>
    obtain ⟨hp, hf⟩ := ih h
    have hb : Below f.count (f.plug n) := ⟨Nat.le_refl _, hf⟩
    obtain ⟨-, hs, hn⟩ := below_plug.mp hb
    exact ⟨⟨hn.1, hs, hp⟩, hn.2⟩

/-! ## Merging -/

/-- Taking the nearest node off a spine leaves a heap with no larger root. -/
theorem nearestRight_below {found : Option Nat} (h : Below b n)
    (hn : nearestRight e n = some (n', found)) : Below b n' := by
  fun_induction nearestRight e n generalizing b n' found with
  | case1 => cases hn; exact h
  | case2 => cases hn
  | case3 l c r hl =>
    cases hn
    obtain ⟨hcb, -, hr⟩ := below_node.mp h
    exact hr.mono hcb
  | case4 => cases hn
  | case5 => cases hn
  | case6 l i c r _ _ l' found hrec ih =>
    cases hn
    obtain ⟨hcb, hl, hr⟩ := below_node.mp h
    exact below_node.mpr ⟨hcb, ih hl hrec, hr⟩

theorem nearestLeft_below {found : Option (Nat × Nat)} (h : Below b n)
    (hn : nearestLeft e n = some (n', found)) : Below b n' := by
  fun_induction nearestLeft e n generalizing b n' found with
  | case1 => cases hn; exact h
  | case2 | case4 | case5 => cases hn
  | case3 l i c r _ _ =>
    cases hn
    obtain ⟨hcb, hl, -⟩ := below_node.mp h
    exact hl.mono hcb
  | case6 l i c r _ _ r' found hrec ih =>
    cases hn
    obtain ⟨hcb, hl, hr⟩ := below_node.mp h
    exact below_node.mpr ⟨hcb, hl, ih hr hrec⟩

/-- A node that may have outgrown its parent: both children are below the bound `b` of the path and below the
    node itself. -/
def Grown (b : Nat) (n : Node) : Prop :=
  ∃ l i c r, n = .node l i c r ∧ Below b l ∧ Below b r ∧ Below c l ∧ Below c r

theorem Grown.maxHeap (h : Grown b n) : MaxHeap n := by
  obtain ⟨l, i, c, r, rfl, -, -, hl, hr⟩ := h
  exact maxHeap_node.mpr ⟨hl, hr⟩

/-- A node whose count only rose. -/
theorem Grown.of_le {c' : Nat} (hc : c ≤ c') (hl : Below c l) (hr : Below c r) : Grown c (.node l i c' r) :=
  ⟨l, i, c', r, rfl, hl, hr, hl.mono hc, hr.mono hc⟩

/-- The grown node a merge produces: its count only rose (no sum of counts wraps in a canonical tree). -/
theorem mergeAt_grown {idx num total total' : Nat}
    (hc : Canonical (2 ^ 32) (Node.node l i c r).inorder) (hlt : idx + num < 2 ^ 32)
    (hh : MaxHeap (.node l i c r))
    (hm : mergeAt l i c r idx num total = (.mergeSuccess, n, total')) : Grown c n := by
  obtain ⟨hl, hr, hb, -, -⟩ := spaced_node hc.spaced
  obtain ⟨hBl, hBr⟩ := maxHeap_node.mp hh
  simp only [mergeAt, add32_eq hb, add32_eq hlt] at hm
  split_ifs at hm with hright hleft
  · have hspec := nearestRight_spec (idx + num) hr
    unfold mergeToRight at hm
    rcases hnear : nearestRight (idx + num) r with - | ⟨r', - | cnt⟩ <;> rw [hnear] at hm hspec <;> cases hm
    · refine .of_le ?_ hBl (nearestRight_below hBr hnear)
      rw [add32_eq (by omega)]
      omega
    · have hcnt : idx + num + cnt < 2 ^ 32 := hr.lt ⟨idx + num, cnt⟩ (by rw [hspec]; simp)
      refine .of_le ?_ hBl (nearestRight_below hBr hnear)
      simp (disch := omega) only [add32_eq]
      omega
  · have hspec := nearestLeft_spec idx hl
    unfold mergeToLeft at hm
    rcases hnear : nearestLeft idx l with - | ⟨l', - | ⟨i', c'⟩⟩ <;> rw [hnear] at hm hspec <;> cases hm
    · refine .of_le ?_ (nearestLeft_below hBl hnear) hBr
      rw [add32_eq (by omega)]
      omega
    · obtain ⟨-, he⟩ := hspec
      refine .of_le ?_ (nearestLeft_below hBl hnear) hBr
      simp (disch := omega) only [add32_eq]
      omega
  · cases hm

/-- After the first loop the link holds a grown node under a path that is in order. -/
theorem insertLoop_grown (hlt : idx + num < 2 ^ 32)
    (n : Node) (fs : List Frame) (total : Nat) (hc : Canonical (2 ^ 32) (plugAll fs n).inorder)
      (hh : MaxHeap (plugAll fs n)) (hok : (insertLoop idx num n fs total).ok = true) :
      ∃ b, HeapPath b (insertLoop idx num n fs total).link.path ∧
        Grown b (insertLoop idx num n fs total).link.node := by
  fun_induction insertLoop idx num n fs total with
  | case1 fs total => exact ⟨0, (maxHeap_plugAll hh).1, .of_le (Nat.zero_le _) (below_null _) (below_null _)⟩
  | case2 l i c r fs total n' total' hm =>
    obtain ⟨hp, hn⟩ := maxHeap_plugAll hh
    rw [inorder_plugAll] at hc
    exact ⟨c, hp, mergeAt_grown (canonical_append.mp (canonical_append.mp hc).1).2.1 hlt hn hm⟩
  | case3 | case6 => cases hok
  | case4 _ _ _ _ _ _ _ _ _ _ ih | case5 _ _ _ _ _ _ _ _ _ _ _ ih => exact ih hc hh hok

/-! ## Bubbling up -/

/-- **The second loop of `MergeInsertInternal` restores the heap.** Rotating the grown child above its parent
    leaves a node whose children are below the parent's old count, which is what the next parent needs. -/
theorem bubbleUp_maxHeap (hlt : idx + num < 2 ^ 32) (fs : List Frame) (n : Node) (b : Nat)
    (hb : ∀ f ∈ fs, f.index + f.count < 2 ^ 32) (hclear : PathClear idx num fs) (hp : HeapPath b fs) (hg : Grown b n) :
    MaxHeap (bubbleUp idx num fs n).2 := by
  induction fs generalizing n b with
  | nil => exact hg.maxHeap
  | cons f fs ih =>
    obtain ⟨hclear', hL, hR⟩ := hclear.cons
    obtain ⟨hbf, hsib, hp'⟩ := hp
    obtain ⟨hf, hb'⟩ := List.forall_mem_cons.mp hb
    -- without a rotation the child is below the parent after all
    have hstop : n.getCount ≤ f.count → MaxHeap (plugAll fs (f.plug n)) := fun hle =>
      plugAll_maxHeap hp' (below_plug.mpr ⟨Nat.le_refl _, hsib, hle, hg.maxHeap⟩)
    obtain ⟨l, i, c, r, rfl, hbl, hbr, hcl, hcr⟩ := hg
    obtain ⟨d, fi, fc, s⟩ := f
    simp only [bubbleUp, add32_eq hlt, add32_eq hf]
    cases d with
    | l =>
      rw [if_pos (hL rfl)]
      split_ifs with hrot
      · have hle : fc ≤ c := Nat.le_of_lt hrot
        refine ih _ fc hb' hclear' hp' ⟨l, i, c, .node r fi fc s, rfl, hbl.mono hbf, ?_, hcl, ?_⟩
        · exact below_node.mpr ⟨Nat.le_refl _, hbr.mono hbf, hsib⟩
        · exact below_node.mpr ⟨hle, hbr.mono hbf, hsib⟩
      · exact hstop (Nat.le_of_not_lt hrot)
    | r =>
      have hright : fi + fc < idx := hR rfl
      rw [if_neg (by omega), if_pos hright]
      split_ifs with hrot
      · have hle : fc ≤ c := Nat.le_of_lt hrot
        refine ih _ fc hb' hclear' hp' ⟨.node s fi fc l, i, c, r, rfl, ?_, hbr.mono hbf, ?_, hcr⟩
        · exact below_node.mpr ⟨Nat.le_refl _, hsib, hbl.mono hbf⟩
        · exact below_node.mpr ⟨hle, hsib, hbl.mono hbf⟩
      · exact hstop (Nat.le_of_not_lt hrot)

/-! ## Lowering -/

/-- A node that may have shrunk below its children: they are heaps below the bound of the path. -/
def Lowerable (b : Nat) (k : Link) : Prop :=
  HeapPath b k.path ∧ k.node.getCount ≤ b ∧ Below b k.node.left ∧ Below b k.node.right

/-- The child `LowerImproperNodeOnce` rotates up is the larger one, so its count bounds everything below. -/
theorem lowerImproperNodeOnce_lowerable (h : Lowerable b k)
    (hcnt : k.node.getCount ≤ max k.node.left.getCount k.node.right.getCount) :
    ∃ b', Lowerable b' (lowerImproperNodeOnce k) := by
  obtain ⟨path, n⟩ := k
  obtain ⟨hp, hb, hl, hr⟩ := h
  have hrotR : ∀ l i c rl ri rc rr, Below b (.node rl ri rc rr) → Below rc l → c ≤ rc →
      ∃ b', Lowerable b' (Link.goLeft ⟨path, rotateRightChild (.node l i c (.node rl ri rc rr))⟩) := by
    intro l i c rl ri rc rr hr' hl' hc
    obtain ⟨hrb, hrl, hrr⟩ := below_node.mp hr'
    exact ⟨rc, ⟨Nat.le_refl _, hrr, hp.mono hrb⟩, hc, hl', hrl⟩
  have hrotL : ∀ ll li lc lr i c r, Below b (.node ll li lc lr) → Below lc r → c ≤ lc →
      ∃ b', Lowerable b' (Link.goRight ⟨path, rotateLeftChild (.node (.node ll li lc lr) i c r)⟩) := by
    intro ll li lc lr i c r hl' hr' hc
    obtain ⟨hlb, hll, hlr⟩ := below_node.mp hl'
    exact ⟨lc, ⟨Nat.le_refl _, hll, hp.mono hlb⟩, hc, hlr, hr'⟩
  match n with
  | .null => exact ⟨b, hp, hb, hl, hr⟩
  | .node .null i c .null => exact ⟨b, hp, hb, hl, hr⟩
  | .node .null i c (.node rl ri rc rr) =>
    apply hrotR .null i c rl ri rc rr hr (below_null _)
    simpa [Node.getCount, Node.left, Node.right] using hcnt
  | .node (.node ll li lc lr) i c .null =>
    apply hrotL ll li lc lr i c .null hl (below_null _)
    simpa [Node.getCount, Node.left, Node.right] using hcnt
  | .node (.node ll li lc lr) i c (.node rl ri rc rr) =>
    simp only [Node.getCount, Node.left, Node.right] at hcnt hl hr
    unfold lowerImproperNodeOnce
    rw [if_pos (by simp [Node.left])]
    by_cases hge : lc ≤ rc
    · rw [if_pos ⟨by simp [Node.right], hge⟩]
      exact hrotR _ i c rl ri rc rr hr ⟨hge, hl.2⟩ (by rwa [max_eq_right hge] at hcnt)
    · rw [if_neg (fun hcon => hge hcon.2)]
      have hle : rc ≤ lc := Nat.le_of_not_le hge
      exact hrotL ll li lc lr i c _ hl ⟨hle, hr.2⟩ (by rwa [max_eq_left hle] at hcnt)

theorem maintainHeapPropertyForZeroNode_lowerable (k : Link) (h : Lowerable b k)
    (hz : k.node.getCount = 0) : ∃ b', Lowerable b' (maintainHeapPropertyForZeroNode k) := by
  fun_induction maintainHeapPropertyForZeroNode k generalizing b with
  | case1 k hchild ih =>
    obtain ⟨b', h'⟩ := lowerImproperNodeOnce_lowerable h (by rw [hz]; exact Nat.zero_le _)
    apply ih h'
    -- lowering keeps the node's own run
    cases hn : k.node with
    | null => rw [hn] at hchild; simp [Node.left, Node.right] at hchild
    | node l i c r =>
      obtain ⟨l', r', hn'⟩ := (lowerImproperNodeOnce_lowered k).key hn
      rw [hn] at hz
      rw [hn']; exact hz
  | case2 k hchild => exact ⟨b, h⟩

theorem maintainHeapPropertyForNonZeroNode_lowerable (k : Link) (h : Lowerable b k) :
    ∃ b', Lowerable b' (maintainHeapPropertyForNonZeroNode k) ∧
      (maintainHeapPropertyForNonZeroNode k).node.isProperNode = true := by
  fun_induction maintainHeapPropertyForNonZeroNode k generalizing b with
  | case1 k himp ih =>
    have hcnt : k.node.getCount ≤ max k.node.left.getCount k.node.right.getCount := by
      by_contra hlt
      simp only [not_le, max_lt_iff] at hlt
      simp [Node.isProperNode, Nat.le_of_lt hlt.1, Nat.le_of_lt hlt.2] at himp
    obtain ⟨b', h'⟩ := lowerImproperNodeOnce_lowerable h hcnt
    exact ih h'
  | case2 k hprop => exact ⟨b, h, by simpa using hprop⟩

theorem removeZeroNode_maxHeap {root : Node} (h : Lowerable b k)
    (hz : k.node.getCount = 0) (hroot : removeZeroNode k = some root) : MaxHeap root := by
  obtain ⟨b', hp, -⟩ := maintainHeapPropertyForZeroNode_lowerable k h hz
  simp only [removeZeroNode] at hroot
  rw [if_pos (maintainHeapPropertyForZeroNode_leaf k), some.injEq] at hroot
  rw [← hroot]
  exact plugAll_maxHeap hp (below_null _)

theorem lowerNonZeroNode_maxHeap (h : Lowerable b k) : MaxHeap (lowerNonZeroNode k) := by
  obtain ⟨b', ⟨hp, hc, hl, hr⟩, hprop⟩ := maintainHeapPropertyForNonZeroNode_lowerable k h
  refine plugAll_maxHeap hp ⟨hc, ?_⟩
  cases hn : (maintainHeapPropertyForNonZeroNode k).node with
  | null => trivial
  | node l i c r =>
    rw [hn] at hl hr hprop
    simp only [Node.isProperNode, Bool.and_eq_true, decide_eq_true_eq] at hprop
    exact ⟨hprop.1, hprop.2, hl.2, hr.2⟩

/-- **Cutting units off a node of a heap leaves a heap.** -/
theorem takeFrom_maxHeap {t t' : CartesianTree}
    (hk : k.node = .node l i c r) (hh : MaxHeap k.top) (hlt : c < 2 ^ 32) (hle : num ≤ c)
    (h : takeFrom t num k = some (idx, t')) : MaxHeap t'.root := by
  obtain ⟨hp, hn⟩ := maxHeap_plugAll hh
  rw [hk] at hp hn
  obtain ⟨hl, hr⟩ := maxHeap_node.mp hn
  have hsub : sub32 c num = c - num := sub32_eq hle hlt
  have hlow : Lowerable c ⟨k.path, .node l (add32 i num) (c - num) r⟩ :=
    ⟨hp, Nat.sub_le _ _, hl, hr⟩
  unfold takeFrom at h
  rw [hk] at h
  simp only [hsub, Node.getCount, bind_eq_bind, bind_eq_some_iff] at h
  obtain ⟨total, -, h⟩ := h
  by_cases hz : c - num = 0
  · rw [if_pos hz, bind_eq_some_iff] at h
    obtain ⟨root, hroot, hres⟩ := h
    simp only [some.injEq, Prod.mk.injEq] at hres
    rw [← hres.2]
    exact removeZeroNode_maxHeap hlow hz hroot
  · rw [if_neg hz, bind_some] at h
    simp only [some.injEq, Prod.mk.injEq] at h
    rw [← h.2]
    exact lowerNonZeroNode_maxHeap hlow

end CangjieRuntime.CartesianTree
