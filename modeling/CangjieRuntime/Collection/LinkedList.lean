import CangjieRuntime.Lib.Chain

/-!
# `Collection.LinkedList` — the doubly linked list with node handles

The class `LinkedList` of `linked_list.cj` and its nodes. A node carries an owner pointer `_list`, which is how a list
recognises its own nodes: `checkNode` compares it with the list, and a node whose owner is `None` has been removed.

The heap holds any number of lists and nodes; a handle is the number of a node, a list reference the number of a list.
The functions run in a state monad with exceptions, in which the changes made before an exception stay. A loop over
nodes gets as much fuel as there are nodes; when it is used up (`Exn.diverges`), the source runs in circles.

`Seqs` is what the lists are for: for each list the sequence of its nodes. Its operations are on sequences.
-/

namespace CangjieRuntime.LinkedList

open Chain

/-! ## Heap -/

inductive Exn where
  /-- `IllegalArgumentException`, of `checkNode`. -/
  | illegalArgument
  /-- `IllegalStateException`, of `checkNodeState`. -/
  | illegalState
  /-- `NoneValueException`, of `getOrThrow`. -/
  | noneValue
  /-- `IndexOutOfBoundsException`. -/
  | indexOutOfBounds
  /-- The loop never ends. -/
  | diverges
deriving DecidableEq, Repr

/-- The fields of all nodes and lists. The pointers `_next` and `_prev` are in `links`. -/
structure Heap (T : Type) where
  links : Links Nat
  item : Nat → Option T
  list : Nat → Option Nat
  nodes : Nat
  size : Nat → Int
  head : Nat → Option Nat
  tail : Nat → Option Nat
  version : Nat → Int
  lists : Nat

variable {T : Type}

def Heap.empty : Heap T where
  links := ⟨fun _ => none, fun _ => none⟩
  item _ := none
  list _ := none
  nodes := 0
  size _ := 0
  head _ := none
  tail _ := none
  version _ := 0
  lists := 0

abbrev M (T : Type) := EStateM Exn (Heap T)

def getOrThrow {α : Type} (o : Option α) : M T α :=
  match o with
  | some a => pure a
  | none => throw .noneValue

/-! ### Field assignments -/

def setNext (n : Nat) (v : Option Nat) : M T Unit := modify fun h => { h with links := h.links.setNext n v }

def setPrev (n : Nat) (v : Option Nat) : M T Unit := modify fun h => { h with links := h.links.setPrev n v }

def setList (n : Nat) (v : Option Nat) : M T Unit := modify fun h => { h with list := Function.update h.list n v }

def setHead (l : Nat) (v : Option Nat) : M T Unit := modify fun h => { h with head := Function.update h.head l v }

def setTail (l : Nat) (v : Option Nat) : M T Unit := modify fun h => { h with tail := Function.update h.tail l v }

def addSize (l : Nat) (d : Int) : M T Unit := modify fun h => { h with size := Function.update h.size l (h.size l + d) }

def incVersion (l : Nat) : M T Unit :=
  modify fun h => { h with version := Function.update h.version l (h.version l + 1) }

/-! ## `LinkedListNode` -/

/-- The constructor. -/
def newNode (element : T) (prev next belongs : Option Nat) : M T Nat := do
  let node := (← get).nodes
  modify fun h =>
    { h with
      links := (h.links.setPrev node prev).setNext node next
      item := Function.update h.item node (some element)
      list := Function.update h.list node belongs
      nodes := node + 1 }
  return node

def checkNodeState (n : Nat) : M T Unit := do
  if ((← get).list n).isNone then throw .illegalState

/-- The property `value`. -/
def value (n : Nat) : M T T := do
  checkNodeState n
  getOrThrow ((← get).item n)

/-- The property `next`. -/
def next (n : Nat) : M T (Option Nat) := do
  checkNodeState n
  return (← get).links.next n

/-- The property `prev`. -/
def prev (n : Nat) : M T (Option Nat) := do
  checkNodeState n
  return (← get).links.prev n

def insertBefore (this : Nat) (element : T) : M T Nat := do
  let h ← get
  let node ← newNode element (h.links.prev this) (some this) (h.list this)
  match h.links.prev this with
  | some prev => setNext prev (some node)
  | none => setHead (← getOrThrow (h.list this)) (some node)
  setPrev this (some node)
  return node

def insertAfter (this : Nat) (element : T) : M T Nat := do
  let h ← get
  let node ← newNode element (some this) (h.links.next this) (h.list this)
  match h.links.next this with
  | some next => setPrev next (some node)
  | none => setTail (← getOrThrow (h.list this)) (some node)
  setNext this (some node)
  return node

def removeNode (this : Nat) : M T T := do
  let h ← get
  match h.links.prev this, h.links.next this with
  | some p, some n =>
    setNext p (some n)
    setPrev n (some p)
  | some p, none =>
    setNext p none
    setTail (← getOrThrow (h.list this)) (some p)
  | none, some n =>
    setPrev n none
    setHead (← getOrThrow (h.list this)) (some n)
  | none, none =>
    setTail (← getOrThrow (h.list this)) none
    setHead (← getOrThrow (h.list this)) none
  setList this none
  getOrThrow ((← get).item this)

def reverseNode (this : Nat) : M T Unit := do
  let tmp := (← get).links.prev this
  setPrev this ((← get).links.next this)
  setNext this tmp

/-! ## `LinkedList` -/

/-- `LinkedList()`. -/
def newList : M T Nat := do
  let l := (← get).lists
  modify fun h =>
    { h with
      size := Function.update h.size l 0
      head := Function.update h.head l none
      tail := Function.update h.tail l none
      version := Function.update h.version l 0
      lists := l + 1 }
  return l

def checkNode (l node : Nat) : M T Unit := do
  if (← get).list node = some l then return
  throw .illegalArgument

def addFirst (l : Nat) (element : T) : M T Nat := do
  match (← get).head l with
  | some node => setHead l (some (← insertBefore node element))
  | none =>
    setHead l (some (← newNode element none none (some l)))
    setTail l ((← get).head l)
  addSize l 1
  incVersion l
  getOrThrow ((← get).head l)

def addLast (l : Nat) (element : T) : M T Nat := do
  match (← get).tail l with
  | some node => setTail l (some (← insertAfter node element))
  | none =>
    setTail l (some (← newNode element none none (some l)))
    setHead l ((← get).tail l)
  addSize l 1
  incVersion l
  getOrThrow ((← get).tail l)

def addBefore (l node : Nat) (element : T) : M T Nat := do
  checkNode l node
  addSize l 1
  incVersion l
  insertBefore node element

def addAfter (l node : Nat) (element : T) : M T Nat := do
  checkNode l node
  addSize l 1
  incVersion l
  insertAfter node element

def remove (l node : Nat) : M T T := do
  checkNode l node
  addSize l (-1)
  incVersion l
  removeNode node

/-- The loop of `removeIf`, from the node `n` on. A pure predicate cannot change the version. -/
def removeIfLoop (l : Nat) (predicate : T → Bool) : Nat → Option Nat → M T Unit
  | _, none => return
  | 0, some _ => throw .diverges
  | fuel + 1, some n => do
      let node ← next n
      if predicate (← value n) then
        addSize l (-1)
        incVersion l
        let _ ← removeNode n
      removeIfLoop l predicate fuel node

def removeIf (l : Nat) (predicate : T → Bool) : M T Unit := do
  let h ← get
  removeIfLoop l predicate h.nodes (h.head l)

def clear (l : Nat) : M T Unit := do
  modify fun h => { h with size := Function.update h.size l 0 }
  setHead l none
  setTail l none
  incVersion l

def reverseLoop : Nat → Option Nat → M T Unit
  | _, none => return
  | 0, some _ => throw .diverges
  | fuel + 1, some n => do
      let node ← next n
      reverseNode n
      reverseLoop fuel node

def reverse (l : Nat) : M T Unit := do
  incVersion l
  let h ← get
  reverseLoop h.nodes (h.head l)
  let tmp := (← get).head l
  setHead l ((← get).tail l)
  setTail l tmp

def removeFirst (l : Nat) : M T (Option T) := do
  match (← get).head l with
  | some v =>
    incVersion l
    addSize l (-1)
    return some (← removeNode v)
  | none => return none

def removeLast (l : Nat) : M T (Option T) := do
  match (← get).tail l with
  | some v =>
    incVersion l
    addSize l (-1)
    return some (← removeNode v)
  | none => return none

/-- The loop of `splitOff`: the nodes behind `cursor` move to `subList`. -/
def splitOffLoop (subList : Nat) : Nat → Nat → M T Unit
  | 0, _ => throw .diverges
  | fuel + 1, cursor => do
      match ← next cursor with
      | some n =>
        addSize subList 1
        setList n (some subList)
        splitOffLoop subList fuel n
      | none => return

def splitOff (l node : Nat) : M T Nat := do
  checkNode l node
  incVersion l
  let subList ← newList
  setHead subList (some node)
  setTail subList ((← get).tail l)
  modify fun h => { h with size := Function.update h.size subList 1 }
  setList node (some subList)
  splitOffLoop subList (← get).nodes node
  setTail l (← prev node)
  setPrev node none
  match (← get).tail l with
  | some v => setNext v none
  | none => pure ()
  addSize l (-((← get).size subList))
  return subList

/-- The loop of `toArray`, backwards from `node`. -/
def toArrayLoop : Nat → Nat → Int → List T → M T (List T)
  | 0, _, _, _ => throw .diverges
  | fuel + 1, node, index, arr => do
      if index < 0 ∨ arr.length ≤ index then throw .indexOutOfBounds
      let arr := arr.set index.toNat (← value node)
      match ← prev node with
      | some p => toArrayLoop fuel p (index - 1) arr
      | none => return arr

def toArray (zeroValue : T) (l : Nat) : M T (List T) := do
  let h ← get
  if h.size l = 0 then return []
  let arr := List.replicate (h.size l).toNat zeroValue
  toArrayLoop h.nodes (← getOrThrow (h.tail l)) (h.size l - 1) arr

/-! ### Iteration -/

/-- The current node of an iterator: at first a node of its own, whose `next` is the head of the list. -/
inductive Cursor where
  | start (next : Option Nat)
  | node (n : Nat)
deriving DecidableEq, Repr

/-- `LinkedListIterator.next` of a list that is not modified. -/
def iteratorNext : Cursor → M T (Option (T × Cursor))
  | .start next => do
      match next with
      | some n => return some (← value n, .node n)
      | none => return none
  | .node c => do
      match ← next c with
      | some n => return some (← value n, .node n)
      | none => return none

/-- The elements that a loop over the iterator sees. -/
def iterate : Nat → Cursor → M T (List T)
  | 0, _ => throw .diverges
  | fuel + 1, cursor => do
      match ← iteratorNext cursor with
      | some (x, cursor) => return x :: (← iterate fuel cursor)
      | none => return []

/-- All elements, by iteration. -/
def elements (l : Nat) : M T (List T) := do
  let h ← get
  iterate (h.nodes + 1) (.start (h.head l))

/-! ## Calls -/

inductive Op (T : Type) where
  | newList
  | addFirst (l : Nat) (element : T)
  | addLast (l : Nat) (element : T)
  | addBefore (l node : Nat) (element : T)
  | addAfter (l node : Nat) (element : T)
  | remove (l node : Nat)
  | removeFirst (l : Nat)
  | removeLast (l : Nat)
  | removeIf (l : Nat) (predicate : T → Bool)
  | reverse (l : Nat)
  | clear (l : Nat)
  | splitOff (l node : Nat)

/-- What a call returns: a handle or a list reference, an element, or an optional element. -/
inductive Ret (T : Type) where
  | unit
  | ref (n : Nat)
  | element (x : T)
  | option (x : Option T)
deriving DecidableEq, Repr

def exec : Op T → M T (Ret T)
  | .newList => return .ref (← newList)
  | .addFirst l e => return .ref (← addFirst l e)
  | .addLast l e => return .ref (← addLast l e)
  | .addBefore l n e => return .ref (← addBefore l n e)
  | .addAfter l n e => return .ref (← addAfter l n e)
  | .remove l n => return .element (← remove l n)
  | .removeFirst l => return .option (← removeFirst l)
  | .removeLast l => return .option (← removeLast l)
  | .removeIf l p => do removeIf l p; return .unit
  | .reverse l => do reverse l; return .unit
  | .clear l => do clear l; return .unit
  | .splitOff l n => return .ref (← splitOff l n)

/-- The result of a call; the heap is the one after it, also when it threw. -/
def call (op : Op T) (h : Heap T) : Except Exn (Ret T) × Heap T :=
  match (exec op).run h with
  | .ok r h => (.ok r, h)
  | .error e h => (.error e, h)

/-! ## Sequences -/

/-- The sequence of nodes of each list. `dropped` are the nodes that `clear` has dropped. -/
structure Seqs (T : Type) where
  seq : Nat → List Nat
  item : Nat → Option T
  dropped : List Nat
  nodes : Nat
  lists : Nat

def Seqs.empty : Seqs T := ⟨fun _ => [], fun _ => none, [], 0, 0⟩

def Seqs.set (a : Seqs T) (l : Nat) (xs : List Nat) : Seqs T := { a with seq := Function.update a.seq l xs }

/-- A new node with an element, in list `l`, which becomes `xs`. -/
def Seqs.add (a : Seqs T) (l : Nat) (e : T) (xs : List Nat) : Seqs T :=
  { a with seq := Function.update a.seq l xs, item := Function.update a.item a.nodes (some e), nodes := a.nodes + 1 }

/-- The elements of a list. -/
def Seqs.toList (a : Seqs T) (l : Nat) : List T := (a.seq l).filterMap a.item

/-- The new node is put in front of `n`. -/
def insertBeforeIn (new n : Nat) (xs : List Nat) : List Nat := xs.flatMap fun x => if x = n then [new, x] else [x]

def insertAfterIn (new n : Nat) (xs : List Nat) : List Nat := xs.flatMap fun x => if x = n then [x, new] else [x]

/-- A call on sequences. -/
def Seqs.apply (a : Seqs T) : Op T → Except Exn (Ret T) × Seqs T
  | .newList => (.ok (.ref a.lists), { a with lists := a.lists + 1 })
  | .addFirst l e => (.ok (.ref a.nodes), a.add l e (a.nodes :: a.seq l))
  | .addLast l e => (.ok (.ref a.nodes), a.add l e (a.seq l ++ [a.nodes]))
  | .addBefore l n e =>
    if n ∈ a.seq l then (.ok (.ref a.nodes), a.add l e (insertBeforeIn a.nodes n (a.seq l)))
    else (.error .illegalArgument, a)
  | .addAfter l n e =>
    if n ∈ a.seq l then (.ok (.ref a.nodes), a.add l e (insertAfterIn a.nodes n (a.seq l)))
    else (.error .illegalArgument, a)
  | .remove l n =>
    match a.item n with
    | some x => if n ∈ a.seq l then (.ok (.element x), a.set l ((a.seq l).erase n)) else (.error .illegalArgument, a)
    | none => (.error .illegalArgument, a)
  | .removeFirst l =>
    match a.seq l with
    | n :: xs => (.ok (.option (a.item n)), a.set l xs)
    | [] => (.ok (.option none), a)
  | .removeLast l => (.ok (.option ((a.seq l).getLast?.bind a.item)), a.set l (a.seq l).dropLast)
  | .removeIf l p => (.ok .unit, a.set l ((a.seq l).filter fun n => !((a.item n).any p)))
  | .reverse l => (.ok .unit, a.set l (a.seq l).reverse)
  | .clear l => (.ok .unit, { a.set l [] with dropped := a.dropped ++ a.seq l })
  | .splitOff l n =>
    if n ∈ a.seq l then
      (.ok (.ref a.lists),
        { (a.set l ((a.seq l).takeWhile (· ≠ n))).set a.lists ((a.seq l).dropWhile (· ≠ n)) with lists := a.lists + 1 })
    else (.error .illegalArgument, a)

end CangjieRuntime.LinkedList
