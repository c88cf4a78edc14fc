import Mathlib

/-!
# `Collection.TreeMap` — the B-tree behind `TreeMap`

The classes `TreeMap` and `Node` of `tree_map.cj`. A tree is a B-tree of degree 6: a node holds up to 11 entries, and an
inner node one child more than it has entries. Nodes have parent links; an addition splits the full nodes on its way
down, a removal takes the entry out of a leaf and then fills up or merges nodes on the way up.

A node is a number into the heap. An entry belongs to one node and is a pair of the heap's value. The functions run in a
state monad with exceptions, in which the changes made before an exception stay. A walk down or up the tree gets as much
fuel as there are nodes; when it is used up (`Exn.diverges`), the source runs for ever.
-/

namespace CangjieRuntime.TreeMap

/-- Degree of the B-tree. -/
def DEGREE : Nat := 6

def MIN_ENTRY_SIZE : Nat := DEGREE - 1

def MAX_ENTRY_SIZE : Nat := 2 * DEGREE - 1

def MAX_CHILD_SIZE : Nat := 2 * DEGREE

/-! ## Heap -/

inductive Exn where
  /-- `NoneValueException`, of `getOrThrow`. -/
  | noneValue
  /-- `IndexOutOfBoundsException`, of the array list. -/
  | indexOutOfBounds
  /-- The loop never ends. -/
  | diverges
deriving DecidableEq, Repr

/-- The fields of a node. -/
structure Node (K V : Type) where
  entries : List (K × V)
  parent : Option Nat
  children : List Nat
deriving DecidableEq, Repr

/-- The nodes, of which the first `nodes` are allocated, and the fields of the map. -/
structure Heap (K V : Type) where
  node : Nat → Node K V
  nodes : Nat
  root : Nat
  size : Int
  modCount : Int

variable {K V : Type}

abbrev M (K V : Type) := EStateM Exn (Heap K V)

/-- `TreeMap()`. -/
def Heap.empty : Heap K V := ⟨fun _ => ⟨[], none, []⟩, 1, 0, 0, 0⟩

def getOrThrow {α : Type} (o : Option α) : M K V α :=
  match o with
  | some a => pure a
  | none => throw .noneValue

/-! ### `ArrayList` -/

section ArrayList

variable {α : Type}

/-- `get(index)`. -/
def arrayGet (xs : List α) (index : Int) : Option α := if index < 0 then none else xs[index.toNat]?

/-- The operator `[]`. -/
def arrayAt (xs : List α) (index : Int) : M K V α :=
  match arrayGet xs index with
  | some x => pure x
  | none => throw .indexOutOfBounds

/-- `add(element, at: index)`. -/
def arrayAdd (xs : List α) (element : α) (index : Int) : M K V (List α) := do
  if index < 0 ∨ xs.length < index then throw .indexOutOfBounds
  return xs.insertIdx index.toNat element

/-- `remove(at: index)`. -/
def arrayRemove (xs : List α) (index : Int) : M K V (List α) := do
  if index < 0 ∨ xs.length ≤ index then throw .indexOutOfBounds
  return xs.eraseIdx index.toNat

end ArrayList

/-! ### Field assignments -/

def setEntries (n : Nat) (es : List (K × V)) : M K V Unit :=
  modify fun h => { h with node := Function.update h.node n { h.node n with entries := es } }

def setParent (n : Nat) (p : Option Nat) : M K V Unit :=
  modify fun h => { h with node := Function.update h.node n { h.node n with parent := p } }

def setChildren (n : Nat) (cs : List Nat) : M K V Unit :=
  modify fun h => { h with node := Function.update h.node n { h.node n with children := cs } }

/-! ## `Node` -/

/-- A place in a node. For a key that is not in the node it is the place where it belongs, without the node. -/
structure SearchResult where
  index : Int
  replaceNode : Option Nat
deriving DecidableEq, Repr

namespace Node

/-- The constructor. -/
def new (parent : Option Nat) : M K V Nat := do
  let n := (← get).nodes
  modify fun h => { h with node := Function.update h.node n ⟨[], parent, []⟩, nodes := n + 1 }
  return n

def isLeaf (this : Nat) : M K V Bool := return ((← get).node this).children.length = 0

def entrySize (this : Nat) : M K V Nat := return ((← get).node this).entries.length

def childrenSize (this : Nat) : M K V Nat := return ((← get).node this).children.length

def isEmpty (this : Nat) : M K V Bool := return (← entrySize this) = 0

def getEntry (this : Nat) (index : Int) : M K V (Option (K × V)) := return arrayGet ((← get).node this).entries index

def getChild (this : Nat) (index : Int) : M K V (Option Nat) := return arrayGet ((← get).node this).children index

/-- `insertEntry(index, entry)`. -/
def insertEntryAt (this : Nat) (index : Int) (entry : K × V) : M K V Unit := do
  setEntries this (← arrayAdd ((← get).node this).entries entry index)

def deleteEntry (this : Nat) (index : Int) : M K V Unit := do
  setEntries this (← arrayRemove ((← get).node this).entries index)

def deleteChild (this : Nat) (index : Int) : M K V Unit := do
  setChildren this (← arrayRemove ((← get).node this).children index)

def insertChild (this : Nat) (index : Int) (node : Nat) : M K V Unit := do
  setChildren this (← arrayAdd ((← get).node this).children node index)

/-- `entries[index].value = value`. -/
def setValue (this : Nat) (index : Int) (value : V) : M K V Unit := do
  let es := ((← get).node this).entries
  let entry ← arrayAt es index
  setEntries this (es.set index.toNat (entry.1, value))

/-- `entries[index].reset(key, value)`. -/
def resetEntry (this : Nat) (index : Int) (entry : K × V) : M K V Unit := do
  setEntries this (((← get).node this).entries.set index.toNat entry)

variable [LinearOrder K]

def quickEquals (this that : Nat) : M K V Bool := do
  let h ← get
  if (h.node this).entries.length = (h.node that).entries.length ∧ (h.node this).entries.length ≠ 0 then
    return (← arrayAt (h.node this).entries 0).1 = (← arrayAt (h.node that).entries 0).1
  return false

/-- The loop of the binary search. It ends with the values of `begin`, `end` and `mid`. -/
def searchLoop (entries : List (K × V)) (key : K) : Nat → Int → Int → Int → M K V (Int × Int × Int)
  | 0, _, _, _ => throw .diverges
  | fuel + 1, begin, end_, mid => do
      if begin < end_ then
        let mid := begin + (end_ - begin) / 2
        let midKey := (← arrayAt entries mid).1
        if key = midKey then return (begin, end_, mid)
        else if midKey < key then searchLoop entries key fuel (mid + 1) end_ mid
        else searchLoop entries key fuel begin (mid - 1) mid
      else return (begin, end_, mid)

def searchEntry (this : Nat) (key : K) : M K V SearchResult := do
  let entries := ((← get).node this).entries
  if entries.length = 0 then return ⟨0, none⟩
  let (begin, end_, mid) ← searchLoop entries key (entries.length + 1) 0 (entries.length - 1) 0
  if begin < end_ then return ⟨mid, some this⟩
  else if begin = end_ then
    let midKey := (← arrayAt entries begin).1
    if key = midKey then return ⟨begin, some this⟩
    else if midKey < key then return ⟨begin + 1, none⟩
    else return ⟨begin, none⟩
  else return ⟨begin, none⟩

/-- `insertEntry(entry)`. -/
def insertEntry (this : Nat) (entry : K × V) : M K V (Option V) := do
  let sr ← searchEntry this entry.1
  match sr.replaceNode with
  | some v =>
    let oldValue := (← arrayAt ((← get).node v).entries sr.index).2
    setValue v sr.index entry.2
    return some oldValue
  | none =>
    setEntries this (← arrayAdd ((← get).node this).entries entry sr.index)
    return none

end Node

/-! ## Search -/

section Map

variable [LinearOrder K]

def searchEntry : Nat → Option Nat → K → M K V SearchResult
  | _, none, _ => return ⟨-1, none⟩
  | 0, some _, _ => throw .diverges
  | fuel + 1, some node, key => do
      let sr ← Node.searchEntry node key
      match sr.replaceNode with
      | some _ => return sr
      | none =>
        if ← Node.isLeaf (← get).root then return sr
        else searchEntry fuel (← Node.getChild node sr.index) key

def searchEntryFromRoot (key : K) : M K V SearchResult := do
  let h ← get
  searchEntry (h.nodes + 1) (some h.root) key

/-- `get`. -/
def getValue (key : K) : M K V (Option V) := do
  let sr ← searchEntryFromRoot key
  match sr.replaceNode with
  | some v => return some (← getOrThrow (← Node.getEntry v sr.index)).2
  | none => return none

/-- `isEmpty`. -/
def isEmpty : M K V Bool := do Node.isEmpty (← get).root

/-- The loop of `getFirstEntry`. -/
def firstLeaf : Nat → Nat → M K V Nat
  | 0, _ => throw .diverges
  | fuel + 1, curNode => do
      if ← Node.isLeaf curNode then return curNode
      firstLeaf fuel (← getOrThrow (← Node.getChild curNode 0))

def getFirstEntry : M K V SearchResult := do
  let h ← get
  if ← Node.isEmpty h.root then return ⟨-1, none⟩
  let curNode ← firstLeaf h.nodes h.root
  return ⟨0, some curNode⟩

/-- The loop of `getLastEntry`. -/
def lastLeaf : Nat → Nat → M K V Nat
  | 0, _ => throw .diverges
  | fuel + 1, curNode => do
      if ← Node.isLeaf curNode then return curNode
      lastLeaf fuel (← getOrThrow (← Node.getChild curNode (← Node.entrySize curNode)))

def getLastEntry : M K V SearchResult := do
  let h ← get
  if ← Node.isEmpty h.root then return ⟨-1, none⟩
  let curNode ← lastLeaf h.nodes h.root
  return ⟨(← Node.entrySize curNode) - 1, some curNode⟩

/-! ## Neighbours -/

/-- The loop of `parentOf` over the children that are left: the index of the first that is `node`, else 0. -/
def parentOfLoop (node : Nat) : Int → List Nat → M K V Int
  | _, [] => return 0
  | i, c :: cs => do
      if ← Node.quickEquals c node then return i
      parentOfLoop node (i + 1) cs

def parentOf (node : Nat) : M K V SearchResult := do
  let h ← get
  let parent ← getOrThrow (h.node node).parent
  let index ← parentOfLoop node 0 (h.node parent).children
  return ⟨index, some parent⟩

/-- The walk up of `predecessor`. -/
def predecessorUp : Nat → SearchResult → Nat → M K V (SearchResult × Nat)
  | 0, _, _ => throw .diverges
  | fuel + 1, curSr, curNode => do
      if curSr.index < 1 ∧ ((← get).node curNode).parent.isSome then
        let curSr ← parentOf curNode
        predecessorUp fuel curSr (← getOrThrow curSr.replaceNode)
      else return (curSr, curNode)

/-- The walk down of `predecessor`. -/
def rightmost : Nat → Nat → M K V Nat
  | 0, _ => throw .diverges
  | fuel + 1, leftChild => do
      if ← Node.isLeaf leftChild then return leftChild
      rightmost fuel (← getOrThrow (← Node.getChild leftChild ((← Node.childrenSize leftChild) - 1)))

def predecessor (sr : SearchResult) : M K V SearchResult := do
  let nodes := (← get).nodes
  let curNode ← getOrThrow sr.replaceNode
  if ← Node.isLeaf curNode then
    let (curSr, curNode) ← predecessorUp nodes sr curNode
    if curSr.index < 1 then return ⟨-1, none⟩
    return ⟨curSr.index - 1, some curNode⟩
  let leftChild ← rightmost nodes (← getOrThrow (← Node.getChild curNode sr.index))
  return ⟨(← Node.entrySize leftChild) - 1, some leftChild⟩

/-- The walk up of `successor`. -/
def successorUp : Nat → SearchResult → Nat → M K V (SearchResult × Nat)
  | 0, _, _ => throw .diverges
  | fuel + 1, curSr, curNode => do
      if curSr.index > (← Node.entrySize curNode) - 1 ∧ ((← get).node curNode).parent.isSome then
        let curSr ← parentOf curNode
        successorUp fuel curSr (← getOrThrow curSr.replaceNode)
      else return (curSr, curNode)

/-- The successor of the last entry of a leaf. -/
def successorAbove (curNode : Nat) : M K V SearchResult := do
  let nodes := (← get).nodes
  if ((← get).node curNode).parent.isNone then return ⟨-1, none⟩
  let curSr ← parentOf curNode
  let (curSr, curNode) ← successorUp nodes curSr (← getOrThrow curSr.replaceNode)
  if curSr.index > (← Node.entrySize curNode) - 1 then return ⟨-1, none⟩
  return ⟨curSr.index, some curNode⟩

/-- The walk down of `successor` is that of `getFirstEntry`, from the right child on. -/
def successor (sr : SearchResult) : M K V SearchResult := do
  let nodes := (← get).nodes
  let curNode ← getOrThrow sr.replaceNode
  if ← Node.isLeaf curNode then
    if sr.index < (← Node.entrySize curNode) - 1 then return ⟨sr.index + 1, some curNode⟩
    else successorAbove curNode
  else
    let rightChild ← firstLeaf nodes (← getOrThrow (← Node.getChild curNode (sr.index + 1)))
    return ⟨0, some rightChild⟩

/-! ## Addition -/

/-- The right half of the entries goes to the right node. Returns the middle entry, which leaves the node as well. -/
def splitEntries (rightNode splitNode : Nat) : M K V (K × V) := do
  let entries := ((← get).node splitNode).entries
  (List.range' DEGREE (MAX_ENTRY_SIZE - DEGREE)).forM fun i => do
    setEntries rightNode (((← get).node rightNode).entries ++ [← arrayAt entries i])
  let midEntry ← arrayAt entries (DEGREE - 1 : Nat)
  (List.range' (DEGREE - 1) (MAX_ENTRY_SIZE - DEGREE + 1)).reverse.forM fun (i : Nat) => Node.deleteEntry splitNode i
  return midEntry

/-- Unless the node is a leaf, the right half of its children goes to the right node. -/
def splitChildren (rightNode splitNode : Nat) : M K V Unit := do
  if !(← Node.isLeaf splitNode) then
    let children := ((← get).node splitNode).children
    (List.range' DEGREE (MAX_CHILD_SIZE - DEGREE)).forM fun i => do
      let child ← arrayAt children i
      setChildren rightNode (((← get).node rightNode).children ++ [child])
      setParent child (some rightNode)
    (List.range' DEGREE (MAX_CHILD_SIZE - DEGREE)).reverse.forM fun (i : Nat) => Node.deleteChild splitNode i

/-- A full child of `node` is split; the middle entry goes up to `node`. -/
def splitNode (node splitNode : Nat) (index : Int) : M K V Unit := do
  let rightNode ← Node.new (some node)
  let midEntry ← splitEntries rightNode splitNode
  splitChildren rightNode splitNode
  let _ ← Node.insertEntry node midEntry
  Node.insertChild node (index + 1) rightNode

def inserEntry : Nat → Nat → K × V → M K V (Option V)
  | 0, _, _ => throw .diverges
  | fuel + 1, node, entry => do
      let sr ← Node.searchEntry node entry.1
      match sr.replaceNode with
      | some node =>
        let tmp ← getOrThrow (← Node.getEntry node sr.index)
        Node.setValue node sr.index entry.2
        return some tmp.2
      | none =>
        if ← Node.isLeaf node then
          modify fun h => { h with size := h.size + 1, modCount := h.modCount + 1 }
          Node.insertEntryAt node sr.index entry
          return none
        let childNode ← getOrThrow (← Node.getChild node sr.index)
        if (← Node.entrySize childNode) = MAX_ENTRY_SIZE then
          splitNode node childNode sr.index
          if (← getOrThrow (← Node.getEntry node sr.index)).1 < entry.1 then
            inserEntry fuel (← getOrThrow (← Node.getChild node (sr.index + 1))) entry
          else inserEntry fuel childNode entry
        else inserEntry fuel childNode entry

def add (key : K) (value : V) : M K V (Option V) := do
  let h ← get
  if (← Node.entrySize h.root) = MAX_ENTRY_SIZE then
    let newNode ← Node.new none
    Node.insertChild newNode 0 h.root
    setParent h.root (some newNode)
    splitNode newNode h.root 0
    modify fun h => { h with root := newNode }
  inserEntry (h.nodes + 1) (← get).root (key, value)

/-! ## Removal -/

/-- The entry at `sr` and its predecessor change places; the place of the predecessor is where to delete. -/
def swapPredecessor (node : Nat) (sr : SearchResult) : M K V SearchResult := do
  let psr ← predecessor sr
  match psr.replaceNode with
  | some rNode =>
    let entry ← getOrThrow (← Node.getEntry node sr.index)
    let rEntry ← getOrThrow (← Node.getEntry rNode psr.index)
    Node.resetEntry node sr.index rEntry
    Node.resetEntry rNode psr.index entry
    return psr
  | none => return sr

/-- The last child of the left brother, if it is not a leaf, goes to the node; its last entry is deleted. -/
def giveLast (curNode broNode : Nat) : M K V Unit := do
  if !(← Node.isLeaf broNode) then
    let child ← getOrThrow (← Node.getChild broNode (← Node.entrySize broNode))
    Node.insertChild curNode 0 child
    setParent child (some curNode)
    Node.deleteChild broNode (← Node.entrySize broNode)
  Node.deleteEntry broNode ((← Node.entrySize broNode) - 1)

/-- An entry comes from the left brother, through the parent. -/
def borrowLeft (curNode parent : Nat) (index : Int) : M K V Unit := do
  let broNode ← getOrThrow (← Node.getChild parent (index - 1))
  Node.insertEntryAt curNode 0 (← getOrThrow (← Node.getEntry parent (index - 1)))
  Node.deleteEntry parent (index - 1)
  Node.insertEntryAt parent (index - 1) (← getOrThrow (← Node.getEntry broNode ((← Node.entrySize broNode) - 1)))
  giveLast curNode broNode

/-- The first child of the right brother, if it is not a leaf, goes to the node; its first entry is deleted. -/
def giveFirst (curNode broNode : Nat) : M K V Unit := do
  if !(← Node.isLeaf broNode) then
    let child ← getOrThrow (← Node.getChild broNode 0)
    Node.insertChild curNode (← Node.entrySize curNode) child
    setParent child (some curNode)
    Node.deleteChild broNode 0
  Node.deleteEntry broNode 0

/-- An entry comes from the right brother, through the parent. -/
def borrowRight (curNode parent : Nat) (index : Int) : M K V Unit := do
  let broNode ← getOrThrow (← Node.getChild parent (index + 1))
  Node.insertEntryAt curNode (← Node.entrySize curNode) (← getOrThrow (← Node.getEntry parent index))
  Node.deleteEntry parent index
  Node.insertEntryAt parent index (← getOrThrow (← Node.getEntry broNode 0))
  giveFirst curNode broNode

/-- All entries of `source` are added at the end of `target`. -/
def moveEntries (target source : Nat) : M K V Unit := do
  (List.range (← Node.entrySize source)).forM fun (i : Nat) => do
    Node.insertEntryAt target (← Node.entrySize target) (← getOrThrow (← Node.getEntry source i))

/-- Unless `source` is a leaf, all its children are added at the end of `target`. -/
def moveChildren (target source : Nat) : M K V Unit := do
  if !(← Node.isLeaf source) then
    (List.range (← Node.childrenSize source)).forM fun (i : Nat) => do
      let child ← getOrThrow (← Node.getChild source i)
      Node.insertChild target (← Node.childrenSize target) child
      setParent child (some target)

/-- The node, with the entry between them, goes into its left brother, which is returned. -/
def mergeLeft (curNode parent : Nat) (index : Int) : M K V Nat := do
  let broNode ← getOrThrow (← Node.getChild parent (index - 1))
  let _ ← Node.insertEntry broNode (← getOrThrow (← Node.getEntry parent (index - 1)))
  moveEntries broNode curNode
  moveChildren broNode curNode
  Node.deleteEntry parent (index - 1)
  Node.deleteChild parent index
  return broNode

/-- The right brother, which is returned, goes into the node. -/
def mergeRight (curNode parent : Nat) (index : Int) : M K V Nat := do
  let broNode ← getOrThrow (← Node.getChild parent (index + 1))
  let _ ← Node.insertEntry curNode (← getOrThrow (← Node.getEntry parent index))
  moveEntries curNode broNode
  (List.range (← Node.entrySize broNode)).reverse.forM fun (i : Nat) => Node.deleteEntry broNode i
  moveChildren curNode broNode
  Node.deleteEntry parent index
  Node.deleteChild parent (index + 1)
  return broNode

/-- Whether the child at `index` has an entry to give away. -/
def hasExtra (parent : Nat) (index : Int) : M K V Bool := do
  return MIN_ENTRY_SIZE < (← Node.entrySize (← getOrThrow (← Node.getChild parent index)))

/-- Whether there is a left brother with an entry to give away. -/
def hasExtraLeft (parent : Nat) (index : Int) : M K V Bool := do
  if index > 0 then hasExtra parent (index - 1) else return false

/-- Whether there is a right brother with an entry to give away. -/
def hasExtraRight (parent : Nat) (index : Int) : M K V Bool := do
  if index < (← Node.childrenSize parent) - 1 then hasExtra parent (index + 1) else return false

/-- After a merge: an empty root is replaced by the brother that has the entries, and the loop ends; else it goes on
    with the parent. -/
def replaceRoot (curNode broNode parent : Nat) : M K V (Option Nat) := do
  let h ← get
  if (h.node parent).parent.isNone ∧ (h.node parent).entries.length = 0 then
    let root := if ← Node.isEmpty broNode then curNode else broNode
    modify fun h => { h with root := root }
    setParent root none
    return none
  return some parent

/-- The body of the loop of `deleteEntry`, for a node with too few entries. Returns the node with which the loop goes
    on. -/
def fillNode (curNode parent : Nat) (index : Int) : M K V (Option Nat) := do
  if ← hasExtraLeft parent index then
    borrowLeft curNode parent index
    return some curNode
  if ← hasExtraRight parent index then
    borrowRight curNode parent index
    return some curNode
  let broNode ← if index > 0 then mergeLeft curNode parent index else mergeRight curNode parent index
  replaceRoot curNode broNode parent

/-- The loop of `deleteEntry` that fills up nodes. -/
def rebalance : Nat → Nat → M K V Unit
  | 0, _ => throw .diverges
  | fuel + 1, curNode => do
      if MIN_ENTRY_SIZE ≤ (← Node.entrySize curNode) then return
      if ((← get).node curNode).parent.isNone then return
      let psr ← parentOf curNode
      match ← fillNode curNode (← getOrThrow psr.replaceNode) psr.index with
      | some curNode => rebalance fuel curNode
      | none => return

/-- The entry at `sr`, in a leaf, is deleted. -/
def deleteAt (sr : SearchResult) : M K V (Option V) := do
  let curNode ← getOrThrow sr.replaceNode
  let oldValue := (← getOrThrow (← Node.getEntry curNode sr.index)).2
  Node.deleteEntry curNode sr.index
  modify fun h => { h with size := h.size - 1, modCount := h.modCount + 1 }
  rebalance ((← get).nodes + 1) curNode
  return some oldValue

def deleteEntry : Nat → Nat → K → M K V (Option V)
  | 0, _, _ => throw .diverges
  | fuel + 1, node, key => do
      let sr ← Node.searchEntry node key
      match sr.replaceNode with
      | some v =>
        if ← Node.isLeaf v then deleteAt sr
        else deleteAt (← swapPredecessor node sr)
      | none => deleteEntry fuel (← getOrThrow (← Node.getChild node sr.index)) key

def remove (key : K) : M K V (Option V) := do
  if ← isEmpty then return none
  match ← getValue key with
  | some _ => deleteEntry ((← get).nodes + 1) (← get).root key
  | none => return none

def removeFirst : M K V (Option (K × V)) := do
  let sr ← getFirstEntry
  match sr.replaceNode with
  | some v =>
    let item ← getOrThrow (← Node.getEntry v sr.index)
    let _ ← deleteEntry ((← get).nodes + 1) v item.1
    return some item
  | none => return none

def removeLast : M K V (Option (K × V)) := do
  let sr ← getLastEntry
  match sr.replaceNode with
  | some v =>
    let item ← getOrThrow (← Node.getEntry v sr.index)
    let _ ← deleteEntry ((← get).nodes + 1) v item.1
    return some item
  | none => return none

/-! ## Iteration -/

/-- The entries that the iterator yields from a place on, while the map is not modified. -/
def iterate : Nat → SearchResult → M K V (List (K × V))
  | 0, _ => throw .diverges
  | fuel + 1, sr => do
      match sr.replaceNode with
      | some node =>
        let item ← getOrThrow (← Node.getEntry node sr.index)
        return item :: (← iterate fuel (← successor sr))
      | none => return []

/-- All entries, by iteration. -/
def elements : M K V (List (K × V)) := do
  let h ← get
  iterate (h.size.toNat + 1) (← getFirstEntry)

end Map

end CangjieRuntime.TreeMap
