import CangjieRuntime.Heap.CartesianTree

/-!
# `Heap.NodeStorage` — the memory of the free-unit tree

The nodes of a `CartesianTree` come from an `RTAllocatorT`, and the walks over the tree push pointers into a deque.
`Init` reserves both for `(blockCount >> 1) + 1` nodes, and neither checks its bounds in a release build.

An operation on the tree is here paired with the calls that it makes to the allocator (`Op.allocCalls`), and each walk
with the number of pointers that it pushes. The allocator does not look into its slots, so it is the number of slots in
its free list and the number of slots that it has cut off its mapping.
-/

namespace CangjieRuntime

/-! ## The allocator -/

/-- `RTAllocatorT`. -/
structure RTAllocator where
  freeSlots : Nat
  cutSlots : Nat
deriving DecidableEq, Repr

inductive AllocCall where
  | allocate
  | deallocate
deriving DecidableEq, Repr

namespace RTAllocator

/-- The free list is used before the mapping. -/
def allocate (a : RTAllocator) : RTAllocator :=
  if a.freeSlots = 0 then { a with cutSlots := a.cutSlots + 1 } else { a with freeSlots := a.freeSlots - 1 }

def deallocate (a : RTAllocator) : RTAllocator := { a with freeSlots := a.freeSlots + 1 }

def call (a : RTAllocator) : AllocCall → RTAllocator
  | .allocate => a.allocate
  | .deallocate => a.deallocate

def calls (a : RTAllocator) (cs : List AllocCall) : RTAllocator := cs.foldl call a

/-- The slots that are handed out. -/
def inUse (a : RTAllocator) : Nat := a.cutSlots - a.freeSlots

def empty : RTAllocator := ⟨0, 0⟩

end RTAllocator

namespace CartesianTree

open Word Node

/-- The nodes that `Init` reserves memory for. -/
def nodeCount (memoryBlockCount : Nat) : Nat := (memoryBlockCount >>> 1) + 1

/-! ## The calls of an operation -/

def mergeToRightCalls (endIdx : Nat) (r : Node) : List AllocCall :=
  match nearestRight endIdx r with
  | some (_, some _) => [.deallocate]
  | _ => []

def mergeToLeftCalls (startIdx : Nat) (l : Node) : List AllocCall :=
  match nearestLeft startIdx l with
  | some (_, some _) => [.deallocate]
  | _ => []

def mergeAtCalls (l : Node) (i c : Nat) (r : Node) (idx num : Nat) : List AllocCall :=
  if idx = add32 i c then mergeToRightCalls (add32 idx num) r
  else if add32 idx num = i then mergeToLeftCalls idx l
  else []

/-- The first loop of `MergeInsertInternal`: only a run without neighbours needs a new node. -/
def insertLoopCalls (idx num : Nat) : Node → List AllocCall
  | .null => [.allocate]
  | .node l i c r =>
    match (mergeAt l i c r idx num 0).1 with
    | .mergeSuccess => mergeAtCalls l i c r idx num
    | .mergeError => []
    | .mergeMiss =>
      if add32 idx num < i then insertLoopCalls idx num l
      else if add32 i c < idx then insertLoopCalls idx num r
      else []

def mergeInsertCalls (t : CartesianTree) (idx num : Nat) : List AllocCall :=
  if t.root = .null then [.allocate] else if num = 0 then [] else insertLoopCalls idx num t.root

/-- A node whose units are all taken is removed. -/
def takeUnitsCalls (t : CartesianTree) (num : Nat) : List AllocCall :=
  if t.root = .null ∨ num = 0 then []
  else if t.root.getCount < num then []
  else if sub32 (takeLoop num ⟨[], t.root⟩ (Link.pushed ⟨[], t.root⟩)).node.getCount num = 0 then [.deallocate]
  else []

def Op.allocCalls (t : CartesianTree) : Op → List AllocCall
  | .mergeInsert idx num => mergeInsertCalls t idx num
  | .takeUnits num => takeUnitsCalls t num
  | .releaseRootNode => [.deallocate]

/-! ## The pointers of a walk -/

/-- What the calls of `Next` push until the queue is empty. -/
def walkPushes (queue : List Link) : Nat :=
  match queue with
  | [] => 0
  | front :: rest => front.pushed.length + walkPushes (rest ++ front.pushed)
termination_by queueMeasure queue
decreasing_by exact queueMeasure_pushed front rest

/-- All pushes of an `Iterator` that is run to the end. Its queue holds the nodes that a `ForwardIterator` would hold
    links to. -/
def iteratorPushes (t : CartesianTree) : Nat := if t.root = .null then 0 else 1 + walkPushes [⟨[], t.root⟩]

/-- The pushes of the `ForwardIterator` in the loop of `TakeUnitsImpl`: those of a node come before its count is looked
    at. -/
def takeLoopPushes (num : Nat) (queue : List Link) : Nat :=
  match queue with
  | [] => 0
  | next :: rest =>
    next.pushed.length +
      if next.node ≠ .null ∧ next.node.getCount < num then 0 else takeLoopPushes num (rest ++ next.pushed)
termination_by queueMeasure queue
decreasing_by exact queueMeasure_pushed next rest

def takeUnitsPushes (t : CartesianTree) (num : Nat) : Nat :=
  if t.root = .null ∨ num = 0 then 0
  else
    1 + (Link.pushed ⟨[], t.root⟩).length +
      if t.root.getCount < num then 0 else takeLoopPushes num (Link.pushed ⟨[], t.root⟩)

/-- The pushes onto `pnStack`: one for each step down. -/
def mergeInsertPushes (t : CartesianTree) (idx num : Nat) : Nat :=
  if t.root = .null then 0 else if num = 0 then 0 else (insertLoop idx num t.root [] t.totalCount).link.path.length

/-! ## Runs -/

/-- A tree with its allocator. -/
structure Storage where
  tree : CartesianTree
  nodeAllocator : RTAllocator
deriving DecidableEq, Repr

namespace Storage

def empty : Storage := ⟨CartesianTree.empty, RTAllocator.empty⟩

def exec (s : Storage) (op : Op) : Option Storage :=
  (op.exec s.tree).map fun tree => ⟨tree, s.nodeAllocator.calls (op.allocCalls s.tree)⟩

def execAll : Storage → List Op → Option Storage
  | s, [] => some s
  | s, op :: ops => (s.exec op).bind fun s' => execAll s' ops

end Storage

/-- The range that is inserted lies in the blocks, and may be empty. -/
def Op.Within (blockCount : Nat) : Op → Prop
  | .mergeInsert idx num => idx + num ≤ blockCount
  | .takeUnits _ => True
  | .releaseRootNode => True

end CartesianTree
end CangjieRuntime
