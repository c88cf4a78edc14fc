import CangjieRuntime.Lib.Runs
import CangjieRuntime.Lib.Word

/-!
# `Heap.CartesianTree` — the free-unit tree of the region allocator

A node holds a run `[index, index + count)` of free units. The tree is a search tree on the runs and a
max-heap on the counts. This file is the executable embedding of `CartesianTree.h` / `CartesianTree.cpp`.

How the pointers are modelled:

* a `Node*` is a `Node`, with `.null` for `nullptr`; two nodes never share a child, so the pointer graph below
  the root is the inductive tree;
* a `Node**` (`pn`, `nodePtr`, the `Node*&` of the lowering functions) is a `Link`: the node it refers to,
  together with the frames between that field and the root. Writing through the pointer replaces the node
  of the link; `Link.top` is the root as seen after the write;
* the stack `pnStack` of `Node**` that `MergeInsertInternal` records is the list of frames of the link.

`none` stands for a run that aborts: a failed `CHECK_DETAIL`, the `RTLOG_FATAL` of `DecTotalCount` or a null
dereference. `Index` and `Count` are `uint32_t`; every sum of them wraps (`add32`). The `refreshRegionInfo`
flag only makes a node rewrite the region metadata of its units and has no part in the tree, so it is left
out, as are the debug-only `CTREE_ASSERT`s.
-/

namespace CangjieRuntime

open Runs Word

/-- `CartesianTree::Node*`. -/
inductive CartesianTree.Node where
  | null
  | node (l : CartesianTree.Node) (index count : Nat) (r : CartesianTree.Node)
deriving DecidableEq, Repr

/-- The tree object: `totalCount` caches the sum of all node counts. -/
structure CartesianTree where
  totalCount : Nat
  root : CartesianTree.Node
deriving DecidableEq, Repr

namespace CartesianTree

namespace Node

def getCount : Node → Nat
  | null => 0
  | node _ _ c _ => c

def left : Node → Node
  | null => null
  | node l _ _ _ => l

def right : Node → Node
  | null => null
  | node _ _ _ r => r

/-- Number of nodes, the measure of every loop below. -/
def size : Node → Nat
  | null => 0
  | node l _ _ r => l.size + r.size + 1

/-- `IsProperNode`: no child has a larger count (a missing child counts as `0`). -/
def isProperNode (n : Node) : Bool :=
  decide (n.left.getCount ≤ n.getCount) && decide (n.right.getCount ≤ n.getCount)

/-- The runs of the tree in order. -/
def inorder : Node → List Run
  | null => []
  | node l i c r => l.inorder ++ ⟨i, c⟩ :: r.inorder

end Node

open Node

/-! ## Links — pointers to child fields -/

/-- Which field of the parent a `Node**` points to. -/
inductive Dir where
  | l | r
deriving DecidableEq, Repr

/-- A parent node without the child a `Node**` inside it refers to. -/
structure Frame where
  dir : Dir
  index : Nat
  count : Nat
  sibling : Node
deriving DecidableEq, Repr

/-- The parent's `l` field when `n` sits in the child the frame leaves open. -/
def Frame.lchild (f : Frame) (n : Node) : Node := match f.dir with | .l => n | .r => f.sibling

/-- The parent's `r` field when `n` sits in the child the frame leaves open. -/
def Frame.rchild (f : Frame) (n : Node) : Node := match f.dir with | .l => f.sibling | .r => n

/-- The parent, with `n` in the child the frame leaves open. -/
def Frame.plug (f : Frame) (n : Node) : Node := .node (f.lchild n) f.index f.count (f.rchild n)

/-- The root above a node, following the frames outwards. -/
def plugAll : List Frame → Node → Node
  | [], n => n
  | f :: fs, n => plugAll fs (f.plug n)

/-- `Node**`: the node referred to and the frames from it to the root, innermost first. -/
structure Link where
  path : List Frame
  node : Node
deriving DecidableEq, Repr

/-- The root of the tree the link points into. -/
def Link.top (k : Link) : Node := plugAll k.path k.node

/-- `&(*k)->l` -/
def Link.goLeft (k : Link) : Link :=
  match k.node with
  | .null => k
  | .node l i c r => ⟨⟨.l, i, c, r⟩ :: k.path, l⟩

/-- `&(*k)->r` -/
def Link.goRight (k : Link) : Link :=
  match k.node with
  | .null => k
  | .node l i c r => ⟨⟨.r, i, c, l⟩ :: k.path, r⟩

/-! ## Merging a new run into a node -/

/-- `MergeResult` -/
inductive MergeResult where
  | mergeSuccess | mergeMiss | mergeError
deriving DecidableEq, Repr

/-- The `while` loop of `MergeToRight`, walking from `n.r` down the left spine, together with the unlinking
    of the node it stops at. `none` is a clash. Otherwise the result is the new `n.r` and, when a node that
    starts at `endIdx` was found, that node's count: its link is overwritten with its right child. -/
def nearestRight (endIdx : Nat) : Node → Option (Node × Option Nat)
  | .null => some (.null, none)
  | .node l i c r =>
    if i = endIdx then
      if l ≠ .null then none else some (r, some c)
    else if i < endIdx then none
    else
      match nearestRight endIdx l with
      | none => none
      | some (l', found) => some (.node l' i c r, found)

/-- The `while` loop of `MergeToLeft`, the mirror image: from `n.l` down the right spine to the node that
    ends at `startIdx`. That node's index and count are returned. -/
def nearestLeft (startIdx : Nat) : Node → Option (Node × Option (Nat × Nat))
  | .null => some (.null, none)
  | .node l i c r =>
    if add32 i c = startIdx then
      if r ≠ .null then none else some (l, some (i, c))
    else if startIdx < add32 i c then none
    else
      match nearestLeft startIdx r with
      | none => none
      | some (r', found) => some (.node l i c r', found)

/-- `MergeToRight(n, endIdx, num)` on the node `n = (l, i, c, r)`; also returns the new `totalCount`. -/
def mergeToRight (l : Node) (i c : Nat) (r : Node) (endIdx num total : Nat) : MergeResult × Node × Nat :=
  match nearestRight endIdx r with
  | none => (.mergeError, .node l i c r, total)
  | some (r', none) => (.mergeSuccess, .node l i (add32 c num) r', add32 total num)
  | some (r', some cnt) =>
    (.mergeSuccess, .node l i (add32 (add32 c num) cnt) r', add32 total num)

/-- `MergeToLeft(n, startIdx, num)` -/
def mergeToLeft (l : Node) (i c : Nat) (r : Node) (startIdx num total : Nat) : MergeResult × Node × Nat :=
  match nearestLeft startIdx l with
  | none => (.mergeError, .node l i c r, total)
  | some (l', none) => (.mergeSuccess, .node l' startIdx (add32 c num) r, add32 total num)
  | some (l', some (idx', cnt)) =>
    (.mergeSuccess, .node l' idx' (add32 (add32 c num) cnt) r, add32 total num)

/-- `MergeAt(n, idx, num)` -/
def mergeAt (l : Node) (i c : Nat) (r : Node) (idx num total : Nat) : MergeResult × Node × Nat :=
  let endIdx := add32 idx num
  if idx = add32 i c then mergeToRight l i c r endIdx num total
  else if endIdx = i then mergeToLeft l i c r idx num total
  else (.mergeMiss, .node l i c r, total)

/-! ## Rotations -/

/-- `RotateLeftChild(n)`; the callers have checked that `n.l` is not null. -/
def rotateLeftChild : Node → Node
  | .node (.node ll li lc lr) i c r => .node ll li lc (.node lr i c r)
  | n => n

/-- `RotateRightChild(n)`; the callers have checked that `n.r` is not null. -/
def rotateRightChild : Node → Node
  | .node l i c (.node rl ri rc rr) => .node (.node l i c rl) ri rc rr
  | n => n

/-! ## `MergeInsert` -/

/-- Where the first loop of `MergeInsertInternal` ends: `ok` is false when it returns `false`, `link` is `pn`
    with `n` written to it. -/
structure InsertResult where
  ok : Bool
  link : Link
  totalCount : Nat
deriving Repr

/-- The first loop of `MergeInsertInternal`: find the place of `(idx, num)` and put it there. -/
def insertLoop (idx num : Nat) : Node → List Frame → Nat → InsertResult
  | .null, pnStack, total => ⟨true, ⟨pnStack, .node .null idx num .null⟩, add32 total num⟩
  | .node l i c r, pnStack, total =>
    match mergeAt l i c r idx num total with
    | (.mergeSuccess, n, total') => ⟨true, ⟨pnStack, n⟩, total'⟩
    | (.mergeError, n, total') => ⟨false, ⟨pnStack, n⟩, total'⟩
    | (.mergeMiss, n, total') =>
      if add32 idx num < i then insertLoop idx num l (⟨.l, i, c, r⟩ :: pnStack) total'
      else if add32 i c < idx then insertLoop idx num r (⟨.r, i, c, l⟩ :: pnStack) total'
      else ⟨false, ⟨pnStack, n⟩, total'⟩

/-- The second loop of `MergeInsertInternal`: pop the recorded links and rotate the child that received the
    run above its parent until the counts are in order. -/
def bubbleUp (idx num : Nat) : List Frame → Node → Bool × Node
  | [], child => (true, child)
  | f :: pnStack, child =>
    let n := f.plug child
    if add32 idx num < f.index then
      if f.count < n.left.getCount then bubbleUp idx num pnStack (rotateLeftChild n)
      else (true, plugAll pnStack n)
    else if add32 f.index f.count < idx then
      if f.count < n.right.getCount then bubbleUp idx num pnStack (rotateRightChild n)
      else (true, plugAll pnStack n)
    else (false, plugAll pnStack n)

/-- `MergeInsertInternal(idx, num)` -/
def mergeInsertInternal (t : CartesianTree) (idx num : Nat) : Bool × CartesianTree :=
  let res := insertLoop idx num t.root [] t.totalCount
  if res.ok then
    let (ok, root) := bubbleUp idx num res.link.path res.link.node
    (ok, ⟨res.totalCount, root⟩)
  else (false, ⟨res.totalCount, res.link.top⟩)

/-- `MergeInsert(idx, num)` -/
def mergeInsert (t : CartesianTree) (idx num : Nat) : Bool × CartesianTree :=
  if t.root = .null then (true, ⟨add32 t.totalCount num, .node .null idx num .null⟩)
  else if num = 0 then (false, t)
  else mergeInsertInternal t idx num

/-! ## Lowering a node -/

/-- `LowerImproperNodeOnce(n)`: rotate the child with the larger count above `n` (the right one on a tie) and
    return the new position of `n`. -/
def lowerImproperNodeOnce (k : Link) : Link :=
  if k.node.left ≠ .null then
    if k.node.right ≠ .null ∧ k.node.left.getCount ≤ k.node.right.getCount then
      (Link.mk k.path (rotateRightChild k.node)).goLeft
    else (Link.mk k.path (rotateLeftChild k.node)).goRight
  else if k.node.right ≠ .null then (Link.mk k.path (rotateRightChild k.node)).goLeft
  else k

theorem lowerImproperNodeOnce_size {k : Link} (h : k.node.left ≠ .null ∨ k.node.right ≠ .null) :
    (lowerImproperNodeOnce k).node.size < k.node.size := by
  obtain ⟨path, n⟩ := k
  match n, h with
  | .node (.node ll li lc lr) i c (.node rl ri rc rr), _ =>
    unfold lowerImproperNodeOnce
    simp only [Node.left, Node.right, ne_eq, reduceCtorEq, not_false_eq_true, true_and, ite_true]
    split <;> simp only [rotateRightChild, rotateLeftChild, Link.goLeft, Link.goRight, Node.size] <;> omega
  | .node (.node ll li lc lr) i c .null, _ =>
    simp only [lowerImproperNodeOnce, Node.left, Node.right, rotateLeftChild, Link.goRight, Node.size, ne_eq,
      reduceCtorEq, not_false_eq_true, not_true_eq_false, false_and, ite_true, ite_false]
    omega
  | .node .null i c (.node rl ri rc rr), _ =>
    simp only [lowerImproperNodeOnce, Node.left, Node.right, rotateRightChild, Link.goLeft, Node.size, ne_eq,
      reduceCtorEq, not_false_eq_true, not_true_eq_false, ite_true, ite_false]
    omega
  | .node .null i c .null, h => simp [Node.left, Node.right] at h
  | .null, h => simp [Node.left, Node.right] at h

/-- `MaintainHeapPropertyForZeroNode(n)`: lower `n` until it has no children. -/
def maintainHeapPropertyForZeroNode (k : Link) : Link :=
  if _h : k.node.left ≠ .null ∨ k.node.right ≠ .null then
    maintainHeapPropertyForZeroNode (lowerImproperNodeOnce k)
  else k
termination_by k.node.size
decreasing_by exact lowerImproperNodeOnce_size _h

theorem exists_child_of_not_isProperNode {n : Node} (h : n.isProperNode = false) :
    n.left ≠ .null ∨ n.right ≠ .null := by
  by_contra hcon
  simp only [not_or, not_not] at hcon
  simp [Node.isProperNode, hcon.1, hcon.2, Node.getCount] at h

/-- `MaintainHeapPropertyForNonZeroNode(n)`: lower `n` until no child has a larger count. -/
def maintainHeapPropertyForNonZeroNode (k : Link) : Link :=
  if _h : k.node.isProperNode = false then
    maintainHeapPropertyForNonZeroNode (lowerImproperNodeOnce k)
  else k
termination_by k.node.size
decreasing_by exact lowerImproperNodeOnce_size (exists_child_of_not_isProperNode _h)

/-- `RemoveZeroNode(n)`: the new root. The `CHECK_DETAIL` asks that the node has become a leaf. -/
def removeZeroNode (k : Link) : Option Node :=
  let nodeRef := maintainHeapPropertyForZeroNode k
  if nodeRef.node.left = .null ∧ nodeRef.node.right = .null then some (plugAll nodeRef.path .null) else none

/-- `LowerNonZeroNode(n)`: the new root. -/
def lowerNonZeroNode (k : Link) : Node := (maintainHeapPropertyForNonZeroNode k).top

/-- `DecTotalCount(cnt)` -/
def decTotalCount (total cnt : Nat) : Option Nat := if total < cnt then none else some (sub32 total cnt)

/-! ## `TakeUnits` -/

/-- What `ForwardIterator::Next` pushes when it visits `k`: the right child first. -/
def Link.pushed (k : Link) : List Link :=
  (if k.node.right ≠ .null then [k.goRight] else []) ++ (if k.node.left ≠ .null then [k.goLeft] else [])

/-- Termination measure of a level-order walk over a queue of links. -/
def queueMeasure (q : List Link) : Nat := (q.map (fun k => 2 * k.node.size + 1)).sum

theorem queueMeasure_pushed (k : Link) (q : List Link) :
    queueMeasure (q ++ k.pushed) < queueMeasure (k :: q) := by
  obtain ⟨path, n⟩ := k
  have hp : queueMeasure (Link.mk path n).pushed < 2 * n.size + 1 := by
    cases n with
    | null => simp [Link.pushed, queueMeasure, Node.left, Node.right, Node.size]
    | node l i c r =>
      by_cases hl : l = .null <;> by_cases hr : r = .null <;>
        simp [Link.pushed, queueMeasure, Node.left, Node.right, Link.goLeft, Link.goRight, Node.size, hl, hr]
      omega
  simp only [queueMeasure, List.map_append, List.sum_append, List.map_cons, List.sum_cons] at hp ⊢
  omega

/-- The loop of `TakeUnitsImpl` over the rest of the level-order walk: `nodePtr` moves on until the first
    visited node with fewer than `num` units. -/
def takeLoop (num : Nat) (nodePtr : Link) (queue : List Link) : Link :=
  match queue with
  | [] => nodePtr
  | next :: rest =>
    if next.node ≠ .null ∧ next.node.getCount < num then nodePtr
    else takeLoop num next (rest ++ next.pushed)
termination_by queueMeasure queue
decreasing_by exact queueMeasure_pushed next rest

/-- The part of `TakeUnitsImpl` after the search: cut `num` units off the node at `nodePtr` and restore the
    heap. Returns the index of the first unit taken. -/
def takeFrom (t : CartesianTree) (num : Nat) (nodePtr : Link) : Option (Nat × CartesianTree) :=
  match nodePtr.node with
  | .null => none
  | .node l i c r => do
    let total ← decTotalCount t.totalCount num
    let k : Link := ⟨nodePtr.path, .node l (add32 i num) (sub32 c num) r⟩
    let root ← if k.node.getCount = 0 then removeZeroNode k else some (lowerNonZeroNode k)
    some (i, ⟨total, root⟩)

/-- `TakeUnitsImpl(num, idx)`; the inner `none` is the result `false`, which leaves `idx` alone. -/
def takeUnitsImpl (t : CartesianTree) (num : Nat) : Option (Option Nat × CartesianTree) :=
  let nodePtr : Link := ⟨[], t.root⟩
  if t.root ≠ .null ∧ t.root.getCount < num then some (none, t)
  else do
    let (idx, t') ← takeFrom t num (takeLoop num nodePtr nodePtr.pushed)
    some (some idx, t')

/-- `TakeUnits(num, idx)` -/
def takeUnits (t : CartesianTree) (num : Nat) : Option (Option Nat × CartesianTree) :=
  if t.root = .null ∨ num = 0 then some (none, t) else takeUnitsImpl t num

/-! ## `ReleaseRootNode` -/

/-- `RemoveNode(n)` applied to the root. -/
def removeNode (t : CartesianTree) : Option CartesianTree :=
  match t.root with
  | .null => none
  | .node l i c r => do
    let total ← decTotalCount t.totalCount c
    let root ← removeZeroNode ⟨[], .node l i 0 r⟩
    some ⟨total, root⟩

/-- `ReleaseRootNode()`; `root->ReleaseMemory()` gives the pages back and does not touch the tree. -/
def releaseRootNode (t : CartesianTree) : Option CartesianTree := removeNode t

/-- The tree `CartesianTree()` constructs. -/
def empty : CartesianTree := ⟨0, .null⟩

/-! ## Runs of calls -/

/-- The mutating calls on a tree. -/
inductive Op where
  | mergeInsert (idx num : Nat)
  | takeUnits (num : Nat)
  | releaseRootNode
deriving DecidableEq, Repr

/-- What the caller of an operation owes: a non-empty range below `2 ^ 32`, nothing, a non-null root. -/
def Op.Valid (t : CartesianTree) : Op → Prop
  | .mergeInsert idx num => 0 < num ∧ idx + num < 2 ^ 32
  | .takeUnits _ => True
  | .releaseRootNode => t.root ≠ .null

instance (t : CartesianTree) : (op : Op) → Decidable (op.Valid t)
  | .mergeInsert idx num => inferInstanceAs (Decidable (0 < num ∧ idx + num < 2 ^ 32))
  | .takeUnits _ => inferInstanceAs (Decidable True)
  | .releaseRootNode => inferInstanceAs (Decidable (t.root ≠ .null))

/-- The tree after a call, or `none` when the call aborts. -/
def Op.exec (t : CartesianTree) : Op → Option CartesianTree
  | .mergeInsert idx num => some (CartesianTree.mergeInsert t idx num).2
  | .takeUnits num => (CartesianTree.takeUnits t num).map Prod.snd
  | .releaseRootNode => CartesianTree.releaseRootNode t

/-- A sequence of calls. -/
def execAll : CartesianTree → List Op → Option CartesianTree
  | t, [] => some t
  | t, op :: ops => (op.exec t).bind (fun t' => execAll t' ops)

/-- Every call of the sequence is valid in the state it is made in. -/
def ValidCalls : CartesianTree → List Op → Prop
  | _, [] => True
  | t, op :: ops => op.Valid t ∧ ∀ t', op.exec t = some t' → ValidCalls t' ops

/-- A tree some valid sequence of calls leads to from the empty one. -/
def Reachable (t : CartesianTree) : Prop := ∃ ops, ValidCalls empty ops ∧ execAll empty ops = some t

end CartesianTree
end CangjieRuntime
