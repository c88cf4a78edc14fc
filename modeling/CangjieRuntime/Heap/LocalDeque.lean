import Mathlib

/-!
# `Heap.LocalDeque` — a deque of 512 local slots over a shared backing store

`LocalDeque` and `SingleUseDeque` of `LocalDeque.h`. The values at the back of the deque spill into the backing store
when the local array has been filled once. Addresses of the backing store are counted in values from its beginning.
`none` stands for an access outside of the array or of the store; the debug assertions are off.

Seen from outside, the slots of the array and the addresses of the store make one row of cells (`cell`), and the values
are those from `lo` to `hi`. Every call moves an end by one, or starts over with an empty deque.
-/

namespace CangjieRuntime

/-! ## The backing store -/

structure SingleUseDeque (α : Type) where
  memory : Int → α
  frontAddr : Int
  topAddr : Int
  endAddr : Int

namespace SingleUseDeque

variable {α : Type} (s : SingleUseDeque α)

def empty : Bool := s.topAddr < s.frontAddr

/-- `*reinterpret_cast<ValType*>(addr)` -/
def load (addr : Int) : Option α := if 0 ≤ addr ∧ addr < s.endAddr then some (s.memory addr) else none

def push (v : α) : Option (SingleUseDeque α) :=
  let topAddr := s.topAddr + 1
  if 0 ≤ topAddr ∧ topAddr < s.endAddr then
    some { s with topAddr, memory := fun addr => if addr = topAddr then v else s.memory addr }
  else none

def pop : SingleUseDeque α := { s with topAddr := s.topAddr - 1 }

def popFront : SingleUseDeque α := { s with frontAddr := s.frontAddr + 1 }

def clear : SingleUseDeque α := { s with frontAddr := 0, topAddr := -1 }

end SingleUseDeque

/-! ## The deque -/

/-- A page of values. -/
def LOCAL_LENGTH : Int := 512

structure LocalDeque (α : Type) where
  front : Int := 0
  top : Int := -1
  sud : SingleUseDeque α
  array : Int → α

namespace LocalDeque

variable {α : Type} (d : LocalDeque α)

def empty : Bool := d.top < d.front || (d.front = LOCAL_LENGTH && d.sud.empty)

def load (i : Int) : Option α := if 0 ≤ i ∧ i < LOCAL_LENGTH then some (d.array i) else none

def push (v : α) : Option (LocalDeque α) :=
  if d.top < LOCAL_LENGTH - 1 then
    if 0 ≤ d.top + 1 then some { d with top := d.top + 1, array := fun i => if i = d.top + 1 then v else d.array i }
    else none
  else if d.top = LOCAL_LENGTH - 1 then (d.sud.clear.push v).map fun sud => { d with top := d.top + 1, sud }
  else (d.sud.push v).map fun sud => { d with sud }

/-- `Top()` -/
def readTop : Option α := if d.top < LOCAL_LENGTH then d.load d.top else d.sud.load d.sud.topAddr

def pop : LocalDeque α :=
  if d.top < LOCAL_LENGTH then { d with top := d.top - 1 }
  else if d.sud.pop.empty then
    if d.front = LOCAL_LENGTH then { d with front := 0, top := -1, sud := d.sud.pop }
    else if d.front < LOCAL_LENGTH then { d with top := d.top - 1, sud := d.sud.pop }
    else { d with sud := d.sud.pop }
  else { d with sud := d.sud.pop }

/-- `Front()` -/
def readFront : Option α := if d.front < LOCAL_LENGTH then d.load d.front else d.sud.load d.sud.frontAddr

def popFront : LocalDeque α :=
  if d.front < LOCAL_LENGTH then { d with front := d.front + 1 } else { d with sud := d.sud.popFront }

/-! ## Calls -/

inductive Call (α : Type) where
  | push (v : α)
  | pop | popFront | top | front | empty

inductive Answer (α : Type) where
  | done
  | value (v : α)
  | flag (b : Bool)
deriving DecidableEq

def exec : Call α → Option (Answer α × LocalDeque α)
  | .push v => (d.push v).map (.done, ·)
  | .pop => some (.done, d.pop)
  | .popFront => some (.done, d.popFront)
  | .top => d.readTop.map (.value ·, d)
  | .front => d.readFront.map (.value ·, d)
  | .empty => some (.flag d.empty, d)

/-- The same calls on a sequence of values; `none` for a call that an empty sequence does not allow. -/
def abstractExec (xs : List α) : Call α → Option (Answer α × List α)
  | .push v => some (.done, xs ++ [v])
  | .pop => xs.getLast?.map fun _ => (.done, xs.dropLast)
  | .popFront => xs.head?.map fun _ => (.done, xs.tail)
  | .top => xs.getLast?.map (.value ·, xs)
  | .front => xs.head?.map (.value ·, xs)
  | .empty => some (.flag xs.isEmpty, xs)

/-- The answers to a sequence of calls. -/
def answers {σ : Type} (exec : σ → Call α → Option (Answer α × σ)) : σ → List (Call α) → Option (List (Answer α))
  | _, [] => some []
  | s, c :: cs => do
    let (a, s') ← exec s c
    let as ← answers exec s' cs
    some (a :: as)

/-- The number of values that a call pushes. -/
def Call.pushes : Call α → Nat
  | .push _ => 1
  | _ => 0

/-! ## Slices -/

/-- The values in the cells from `lo` to `hi`. -/
def slice (a : Int → α) (lo hi : Int) : List α := (List.range (hi + 1 - lo).toNat).map fun (i : Nat) => a (lo + i)

section Slice

variable {a b : Int → α} {lo hi : Int} {v : α}

theorem slice_of_lt (h : hi < lo) : slice a lo hi = [] := by
  rw [slice, Int.toNat_eq_zero.mpr (by omega), List.range_zero, List.map_nil]

theorem slice_cons (h : lo ≤ hi) : slice a lo hi = a lo :: slice a (lo + 1) hi := by
  have hlen : (hi + 1 - lo).toNat = (hi + 1 - (lo + 1)).toNat + 1 := by omega
  rw [slice, hlen, List.range_succ_eq_map, List.map_cons, List.map_map, Nat.cast_zero, Int.add_zero]
  congr 2
  funext i
  simp [Int.add_assoc, Int.add_comm 1]

theorem slice_snoc (h : lo ≤ hi) : slice a lo hi = slice a lo (hi - 1) ++ [a hi] := by
  have hlen : (hi + 1 - lo).toNat = (hi - 1 + 1 - lo).toNat + 1 := by omega
  rw [slice, hlen, List.range_succ, List.map_append, List.map_singleton]
  congr 3
  omega

theorem slice_congr (h : ∀ i, lo ≤ i → i ≤ hi → a i = b i) : slice a lo hi = slice b lo hi := by
  refine List.map_congr_left fun i hi => ?_
  rw [List.mem_range] at hi
  exact h _ (by omega) (by omega)

end Slice

/-! ## The row of cells -/

/-- The slots of the array, and behind them the addresses of the store. -/
def cell (i : Int) : α := if i < LOCAL_LENGTH then d.array i else d.sud.memory (i - LOCAL_LENGTH)

def lo : Int := if d.top < LOCAL_LENGTH ∨ d.front < LOCAL_LENGTH then d.front else LOCAL_LENGTH + d.sud.frontAddr

def hi : Int := if d.top < LOCAL_LENGTH then d.top else LOCAL_LENGTH + d.sud.topAddr

/-- The number of values in the store, with those that have left it at the front. -/
def used : Int := if d.top < LOCAL_LENGTH then 0 else d.sud.topAddr + 1

/-- What the cursors keep. While the deque has not spilled, the store may be in any state; while the front is in the
    array, nothing has left the front of the store. -/
def Cursors : Prop :=
  0 ≤ d.front ∧ d.front ≤ LOCAL_LENGTH ∧ d.front ≤ d.top + 1 ∧ d.top ≤ LOCAL_LENGTH ∧
    (d.top = LOCAL_LENGTH → 0 ≤ d.sud.frontAddr ∧ d.sud.frontAddr ≤ d.sud.topAddr + 1 ∧ d.sud.topAddr < d.sud.endAddr ∧
      (d.front < LOCAL_LENGTH → d.sud.frontAddr = 0 ∧ 0 ≤ d.sud.topAddr))

variable {d} {a : Answer α} {c : Call α}

variable (h : d.Cursors)
include h

theorem Cursors.lo_le : d.lo ≤ d.hi + 1 := by
  unfold Cursors lo hi at *
  split_ifs <;> omega

theorem Cursors.empty_eq : d.empty = decide (d.hi < d.lo) := by
  unfold Cursors lo hi at *
  rw [Bool.eq_iff_iff, decide_eq_true_eq]
  simp only [empty, SingleUseDeque.empty, Bool.or_eq_true, Bool.and_eq_true, decide_eq_true_eq]
  split_ifs <;> omega

theorem Cursors.readTop (hne : d.lo ≤ d.hi) : d.readTop = some (d.cell d.hi) := by
  unfold Cursors lo hi at *
  fun_cases LocalDeque.readTop d with
  | case1 => grind [load, cell]
  | case2 => grind [SingleUseDeque.load, cell]

theorem Cursors.readFront (hne : d.lo ≤ d.hi) : d.readFront = some (d.cell d.lo) := by
  unfold Cursors lo hi at *
  fun_cases LocalDeque.readFront d with
  | case1 => grind [load, cell]
  | case2 => grind [SingleUseDeque.load, cell]

/-- What a successful push does to the cells. -/
structure Pushed (d d' : LocalDeque α) (v : α) : Prop where
  cursors : d'.Cursors
  endAddr : d'.sud.endAddr = d.sud.endAddr
  used : d'.used ≤ d.used + 1
  lo : d'.lo = d.lo
  hi : d'.hi = d.hi + 1
  last : d'.cell (d.hi + 1) = v
  others : ∀ i ≤ d.hi, d'.cell i = d.cell i

/-- A new value goes to the cell behind the last one, unless the store is full. -/
theorem Cursors.push (v : α) :
    (d.push v = none ∧ d.sud.endAddr ≤ d.used) ∨ ∃ d', d.push v = some d' ∧ Pushed d d' v := by
  have hL : 0 < LOCAL_LENGTH := by decide
  unfold Cursors at h
  fun_cases LocalDeque.push d v with
  | case1 hlocal _ =>
    refine .inr ⟨_, rfl, ?_⟩
    constructor <;> grind [Cursors, used, lo, hi, cell]
  | case2 => omega
  | case3 =>
    -- the deque spills
    fun_cases SingleUseDeque.push d.sud.clear v with
    | case1 =>
      refine .inr ⟨_, rfl, ?_⟩
      constructor <;> grind [Cursors, used, lo, hi, cell, SingleUseDeque.clear]
    | case2 => exact .inl ⟨rfl, by grind [used, SingleUseDeque.clear]⟩
  | case4 =>
    fun_cases SingleUseDeque.push d.sud v with
    | case1 =>
      refine .inr ⟨_, rfl, ?_⟩
      constructor <;> grind [Cursors, used, lo, hi, cell]
    | case2 => exact .inl ⟨rfl, by grind [used]⟩

/-- The last cell is given up. When this was the only value, and it was in the store, the deque starts over. -/
theorem Cursors.pop (hne : d.lo ≤ d.hi) :
    d.pop.Cursors ∧ d.pop.sud.endAddr = d.sud.endAddr ∧ d.pop.used ≤ d.used ∧ d.pop.cell = d.cell ∧
      (d.pop.lo = d.lo ∧ d.pop.hi = d.hi - 1 ∨ d.pop.hi < d.pop.lo ∧ d.hi - 1 < d.lo) := by
  have hL : 0 < LOCAL_LENGTH := by decide
  unfold Cursors lo hi at *
  fun_cases LocalDeque.pop d with
  | case1 | case2 | case3 | case4 | case5 =>
    refine ⟨?_, rfl, ?_, rfl, ?_⟩ <;> grind [used, SingleUseDeque.empty, SingleUseDeque.pop]

/-- The first cell is given up. -/
theorem Cursors.popFront (hne : d.lo ≤ d.hi) :
    d.popFront.Cursors ∧ d.popFront.sud.endAddr = d.sud.endAddr ∧ d.popFront.used ≤ d.used ∧ d.popFront.cell = d.cell ∧
      d.popFront.lo = d.lo + 1 ∧ d.popFront.hi = d.hi := by
  unfold Cursors lo hi at *
  fun_cases LocalDeque.popFront d with
  | case1 | case2 =>
    refine ⟨?_, rfl, ?_, rfl, ?_, ?_⟩ <;> grind [used, SingleUseDeque.popFront]

/-! ## The sequence of values -/

/-- The values of the deque. -/
def items (d : LocalDeque α) : List α := slice d.cell d.lo d.hi

/-- **One call** gives the answer of the sequence, unless it is a push and the store is full. -/
theorem Cursors.exec {xs : List α} (hcall : abstractExec d.items c = some (a, xs)) :
    (d.exec c = none ∧ c.pushes = 1 ∧ d.sud.endAddr ≤ d.used) ∨
      ∃ d', d.exec c = some (a, d') ∧ d'.Cursors ∧ d'.items = xs ∧ d'.sud.endAddr = d.sud.endAddr ∧
        d'.used ≤ d.used + c.pushes := by
  have hempty (hlt : ¬ d.lo ≤ d.hi) : d.items = [] := slice_of_lt (Int.lt_of_not_ge hlt)
  -- a call that needs a value
  have hne (hneeds : abstractExec ([] : List α) c = none) : d.lo ≤ d.hi := by
    by_contra hlt
    rw [hempty hlt, hneeds] at hcall
    cases hcall
  cases c with
  | push v =>
    cases hcall
    rcases h.push v with ⟨hnone, hfull⟩ | ⟨d', hpush, hpushed⟩
    · exact .inl ⟨by rw [LocalDeque.exec, hnone]; rfl, rfl, hfull⟩
    · refine .inr ⟨d', by rw [LocalDeque.exec, hpush]; rfl, hpushed.cursors, ?_, hpushed.endAddr, hpushed.used⟩
      rw [items, hpushed.lo, hpushed.hi, slice_snoc h.lo_le, Int.add_sub_cancel, hpushed.last]
      exact congrArg (· ++ [v]) (slice_congr fun i _ => hpushed.others i)
  | pop =>
    obtain ⟨hcursors, hend, hused, hcell, hmoved⟩ := h.pop (hne rfl)
    rw [abstractExec, items, slice_snoc (hne rfl), List.getLast?_concat, List.dropLast_concat] at hcall
    cases hcall
    refine .inr ⟨d.pop, rfl, hcursors, ?_, hend, by simpa [Call.pushes] using hused⟩
    rw [items, hcell]
    rcases hmoved with ⟨hlo, hhi⟩ | ⟨hnone, hnone'⟩
    · rw [hlo, hhi]
    · rw [slice_of_lt hnone, slice_of_lt hnone']
  | popFront =>
    obtain ⟨hcursors, hend, hused, hcell, hlo, hhi⟩ := h.popFront (hne rfl)
    rw [abstractExec, items, slice_cons (hne rfl)] at hcall
    cases hcall
    refine .inr ⟨d.popFront, rfl, hcursors, ?_, hend, by simpa [Call.pushes] using hused⟩
    rw [items, hcell, hlo, hhi, List.tail_cons]
  | top =>
    have hlast : d.items.getLast? = some (d.cell d.hi) := by
      rw [items, slice_snoc (hne rfl), List.getLast?_concat]
    rw [abstractExec, hlast] at hcall
    cases hcall
    exact .inr ⟨d, by rw [LocalDeque.exec, h.readTop (hne rfl)]; rfl, h, rfl, rfl, by simp [Call.pushes]⟩
  | front =>
    have hhead : d.items.head? = some (d.cell d.lo) := by
      rw [items, slice_cons (hne rfl), List.head?_cons]
    rw [abstractExec, hhead] at hcall
    cases hcall
    exact .inr ⟨d, by rw [LocalDeque.exec, h.readFront (hne rfl)]; rfl, h, rfl, rfl, by simp [Call.pushes]⟩
  | empty =>
    have hflag : d.empty = d.items.isEmpty := by
      rw [h.empty_eq]
      by_cases hlt : d.hi < d.lo
      · rw [hempty (by omega), decide_eq_true hlt, List.isEmpty_nil]
      · rw [items, slice_cons (by omega), decide_eq_false hlt, List.isEmpty_cons]
    cases hcall
    exact .inr ⟨d, by rw [LocalDeque.exec, hflag], h, rfl, rfl, by simp [Call.pushes]⟩

/-- **Sequences of calls.** -/
theorem Cursors.answers {cs : List (Call α)} {as : List (Answer α)}
    (hcalls : LocalDeque.answers abstractExec d.items cs = some as) :
    (∀ as', LocalDeque.answers LocalDeque.exec d cs = some as' → as' = as) ∧
      (d.used + (cs.map Call.pushes).sum ≤ d.sud.endAddr → LocalDeque.answers LocalDeque.exec d cs = some as) := by
  induction cs generalizing d as with
  | nil =>
    cases hcalls
    exact ⟨fun as' hrun => (Option.some.inj hrun).symm, fun _ => rfl⟩
  | cons c cs ih =>
    simp only [LocalDeque.answers, Option.bind_eq_bind, Option.bind_eq_some_iff, Option.some.injEq] at hcalls
    obtain ⟨⟨a, xs⟩, hcall, as, hrest, rfl⟩ := hcalls
    rw [List.map_cons, List.sum_cons, Nat.cast_add, LocalDeque.answers]
    rcases h.exec hcall with ⟨hnone, hpush, hfull⟩ | ⟨d', hexec, hcursors, rfl, hend, hused⟩
    · rw [hnone]
      exact ⟨nofun, fun hroom => by omega⟩
    · obtain ⟨hsame, hdone⟩ := ih hcursors hrest
      simp only [hexec, Option.bind_eq_bind, Option.bind_some, Option.bind_eq_some_iff, Option.some.injEq]
      refine ⟨?_, ?_⟩
      · rintro as' ⟨as₁, hrun, rfl⟩
        rw [hsame as₁ hrun]
      · intro hroom
        exact ⟨as, hdone (by omega), rfl⟩

omit h

/-- **The deque is a double-ended queue.** A new deque over a store of its own, in any state, answers calls as the
    sequence of values does, as long as no call asks an empty sequence for a value; and it does answer them if the store
    has an address for every value pushed. -/
theorem local_deque_refines (sud : SingleUseDeque α) (array : Int → α) (cs : List (Call α)) (as : List (Answer α))
    (hcalls : answers abstractExec [] cs = some as) :
    (∀ as', answers exec { sud, array } cs = some as' → as' = as) ∧
      ((cs.map Call.pushes).sum ≤ sud.endAddr → answers exec { sud, array } cs = some as) := by
  have hnew : Cursors ({ sud, array } : LocalDeque α) := by
    simp [Cursors, LOCAL_LENGTH]
  have hitems : items ({ sud, array } : LocalDeque α) = [] := slice_of_lt (by simp [lo, hi, LOCAL_LENGTH])
  obtain ⟨hsame, hdone⟩ := hnew.answers (hitems ▸ hcalls)
  refine ⟨hsame, fun hroom => hdone ?_⟩
  simpa [used, LOCAL_LENGTH] using hroom

/-- More values than the local array has room for, taken from both ends. -/
theorem local_deque_refines_sample :
    answers exec { sud := ⟨fun _ => 0, 7, 3, 600⟩, array := fun _ => 0 }
      (.push 1 :: List.replicate 512 (.push 2) ++ [.push 3, .popFront, .front, .top, .pop, .top, .empty]) =
        some (.done :: List.replicate 512 .done ++
          [.done, .done, .value 2, .value 3, .done, .value 2, .flag false]) :=
  (local_deque_refines _ _ _ _ (by decide +kernel)).2 (by decide +kernel)

end LocalDeque
end CangjieRuntime
