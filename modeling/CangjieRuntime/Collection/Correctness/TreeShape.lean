import CangjieRuntime.Lib.Assoc
import CangjieRuntime.Collection.TreeMap

/-!
# `Collection.Correctness.TreeShape` — B-trees in the heap

What a tree in the heap is, and what the functions that only read it do.
-/

namespace CangjieRuntime.TreeMap

open Assoc List Multiset

variable {K V : Type}

/-! ## Steps -/

/-- A step that returns is followed by the rest, from the heap that it leaves. -/
theorem run_bind_ok {α β : Type} {x : M K V α} {f : α → M K V β} {h h' : Heap K V} {a : α}
    {r : EStateM.Result Exn (Heap K V) β} (hx : x.run h = .ok a h') (hf : (f a).run h' = r) : (x >>= f).run h = r := by
  rw [EStateM.run_bind, hx]
  exact hf

section ArrayList

variable {α : Type} {l r : List α} {x : α} {i : Int} {h : Heap K V}

theorem arrayGet_append (hi : i = l.length) : arrayGet (l ++ x :: r) i = some x := by
  subst hi
  unfold arrayGet
  rw [if_neg (by omega), Int.toNat_natCast, getElem?_append_right (Nat.le_refl _), Nat.sub_self]
  rfl

theorem arrayAt_run (hi : i = l.length) : (arrayAt (l ++ x :: r) i : M K V α).run h = .ok x h := by
  unfold arrayAt
  rw [arrayGet_append hi]
  rfl

theorem arrayAt_run_of_get {xs : List α} {j : Nat} (hi : i = j) (hx : xs[j]? = some x) :
    (arrayAt xs i : M K V α).run h = .ok x h := by
  subst hi
  unfold arrayAt arrayGet
  rw [if_neg (by omega), Int.toNat_natCast, hx]
  rfl

theorem insertIdx_append_length (l r : List α) (x : α) : (l ++ r).insertIdx l.length x = l ++ x :: r := by
  induction l with
  | nil => rfl
  | cons a l ih => rw [cons_append, length_cons, insertIdx_succ_cons, ih, cons_append]

theorem arrayAdd_run (hi : i = l.length) : (arrayAdd (l ++ r) x i : M K V (List α)).run h = .ok (l ++ x :: r) h := by
  subst hi
  unfold arrayAdd
  rw [if_neg (by rw [length_append]; omega), Int.toNat_natCast, insertIdx_append_length]
  rfl

theorem arrayRemove_run (hi : i = l.length) :
    (arrayRemove (l ++ x :: r) i : M K V (List α)).run h = .ok (l ++ r) h := by
  subst hi
  unfold arrayRemove
  rw [if_neg (by rw [length_append, length_cons]; omega), Int.toNat_natCast,
    eraseIdx_append_of_length_le (Nat.le_refl _), Nat.sub_self]
  rfl

theorem getOrThrow_run (a : α) : (getOrThrow (some a) : M K V α).run h = .ok a h := rfl

/-- What was read is there. -/
theorem run_bind_some {β : Type} {o : M K V (Option α)} {f : α → M K V β} {h' : Heap K V}
    {res : EStateM.Result Exn (Heap K V) β} (ho : o.run h = .ok (some x) h') (hf : (f x).run h' = res) :
    (o >>= fun a => getOrThrow a >>= f).run h = res :=
  run_bind_ok ho (run_bind_ok (getOrThrow_run x) hf)

end ArrayList

/-- The heap with another record for node `n`. -/
def Heap.set (h : Heap K V) (n : Nat) (x : Node K V) : Heap K V := { h with node := Function.update h.node n x }

section Set

variable (h : Heap K V) (n : Nat) (x : Node K V)

@[simp] theorem Heap.set_node_self : (h.set n x).node n = x := Function.update_self ..

@[simp] theorem Heap.set_node_of_ne {m : Nat} (hne : m ≠ n) : (h.set n x).node m = h.node m :=
  Function.update_of_ne hne ..

theorem node_set {h : Heap K V} {m n : Nat} {x y : Node K V} (hm : h.node m = y) (hne : m ≠ n) :
    (h.set n x).node m = y :=
  (Function.update_of_ne hne ..).trans hm

@[simp] theorem Heap.set_set (y : Node K V) : (h.set n x).set n y = h.set n y := by
  unfold Heap.set
  rw [Function.update_idem]

end Set

namespace Node

variable {h : Heap K V} {n c : Nat} {i : Int} {e : K × V} {l r es : List (K × V)} {p q cs : List Nat} {par : Option Nat}
  {v : V} {b t : Int}
  {j : Nat}

theorem getEntry_run_of_entries (hes : (h.node n).entries = l ++ e :: r) (hi : i = l.length) :
    (getEntry n i : M K V _).run h = .ok (some e) h := by
  show EStateM.Result.ok (arrayGet (h.node n).entries i) h = _
  rw [hes, arrayGet_append hi]

theorem getEntry_run (hn : h.node n = ⟨l ++ e :: r, par, cs⟩) (hi : i = l.length) :
    (getEntry n i : M K V _).run h = .ok (some e) h := getEntry_run_of_entries (by rw [hn]) hi

theorem getChild_run (hn : h.node n = ⟨es, par, p ++ c :: q⟩) (hi : i = p.length) :
    (getChild n i : M K V _).run h = .ok (some c) h := by
  show EStateM.Result.ok (arrayGet (h.node n).children i) h = _
  rw [hn, arrayGet_append hi]

theorem setEntries_run (hn : h.node n = ⟨es, par, cs⟩) (es' : List (K × V)) :
    (setEntries n es').run h = .ok () (h.set n ⟨es', par, cs⟩) := by
  have hrec : ({ h.node n with entries := es' } : Node K V) = ⟨es', par, cs⟩ := by rw [hn]
  rw [← hrec]
  rfl

theorem setChildren_run (hn : h.node n = ⟨es, par, cs⟩) (cs' : List Nat) :
    (setChildren n cs' : M K V Unit).run h = .ok () (h.set n ⟨es, par, cs'⟩) := by
  have hrec : ({ h.node n with children := cs' } : Node K V) = ⟨es, par, cs'⟩ := by rw [hn]
  rw [← hrec]
  rfl

theorem insertEntryAt_run (hn : h.node n = ⟨l ++ r, par, cs⟩) (hi : i = l.length) :
    (insertEntryAt n i e).run h = .ok () (h.set n ⟨l ++ e :: r, par, cs⟩) := by
  refine run_bind_ok rfl ?_
  rw [hn]
  exact run_bind_ok (arrayAdd_run hi) (setEntries_run hn _)

theorem deleteEntry_run (hn : h.node n = ⟨l ++ e :: r, par, cs⟩) (hi : i = l.length) :
    (deleteEntry n i : M K V Unit).run h = .ok () (h.set n ⟨l ++ r, par, cs⟩) := by
  refine run_bind_ok rfl ?_
  rw [hn]
  exact run_bind_ok (arrayRemove_run hi) (setEntries_run hn _)

theorem insertChild_run (hn : h.node n = ⟨es, par, p ++ q⟩) (hi : i = p.length) :
    (insertChild n i c : M K V Unit).run h = .ok () (h.set n ⟨es, par, p ++ c :: q⟩) := by
  refine run_bind_ok rfl ?_
  rw [hn]
  exact run_bind_ok (arrayAdd_run hi) (setChildren_run hn _)

theorem deleteChild_run (hn : h.node n = ⟨es, par, p ++ c :: q⟩) (hi : i = p.length) :
    (deleteChild n i : M K V Unit).run h = .ok () (h.set n ⟨es, par, p ++ q⟩) := by
  refine run_bind_ok rfl ?_
  rw [hn]
  exact run_bind_ok (arrayRemove_run hi) (setChildren_run hn _)

theorem resetEntry_run {e' : K × V} (hn : h.node n = ⟨l ++ e :: r, par, cs⟩) (hi : i = l.length) :
    (resetEntry n i e').run h = .ok () (h.set n ⟨l ++ e' :: r, par, cs⟩) := by
  refine run_bind_ok rfl ?_
  rw [hn, hi, Int.toNat_natCast, set_append_right _ _ (Nat.le_refl _), Nat.sub_self]
  exact setEntries_run hn _

theorem setValue_run (hn : h.node n = ⟨l ++ e :: r, par, cs⟩) (hi : i = l.length) :
    (setValue n i v).run h = .ok () (h.set n ⟨l ++ (e.1, v) :: r, par, cs⟩) := by
  refine run_bind_ok rfl ?_
  rw [hn]
  refine run_bind_ok (arrayAt_run hi) ?_
  rw [hi, Int.toNat_natCast, set_append_right _ _ (Nat.le_refl _), Nat.sub_self]
  exact setEntries_run hn _

variable (hn : h.node n = ⟨es, par, cs⟩)
include hn

theorem isLeaf_run : (isLeaf n : M K V Bool).run h = .ok (decide (cs.length = 0)) h := by
  show EStateM.Result.ok (decide ((h.node n).children.length = 0)) h = _
  rw [hn]

theorem entrySize_run : (entrySize n : M K V Nat).run h = .ok es.length h := by
  show EStateM.Result.ok (h.node n).entries.length h = _
  rw [hn]

theorem childrenSize_run : (childrenSize n : M K V Nat).run h = .ok cs.length h := by
  show EStateM.Result.ok (h.node n).children.length h = _
  rw [hn]

theorem setParent_run (par' : Option Nat) :
    (setParent n par' : M K V Unit).run h = .ok () (h.set n ⟨es, par', cs⟩) := by
  have hrec : ({ h.node n with parent := par' } : Node K V) = ⟨es, par', cs⟩ := by rw [hn]
  rw [← hrec]
  rfl

/-! ## Binary search -/

omit hn

/-- The key at the middle of the part searched. -/
theorem mid_key (hb : 0 ≤ b) (hbt : b < t) (ht : t < es.length) :
    ∃ (j : Nat) (x : K × V), b + (t - b) / 2 = j ∧ b ≤ j ∧ j < t ∧ es[j]? = some x := by
  have hmid : 0 ≤ b + (t - b) / 2 ∧ b ≤ b + (t - b) / 2 ∧ b + (t - b) / 2 < t := by omega
  obtain ⟨j, hj⟩ := Int.eq_ofNat_of_zero_le hmid.1
  have hlt : j < es.length := by omega
  exact ⟨j, es[j], hj, by omega, by omega, getElem?_eq_getElem hlt⟩

variable [LinearOrder K] {k : K}

theorem lt_of_getElem?_append (hl : Below k l) (hj : j < l.length) (he : (l ++ r)[j]? = some e) : e.1 < k := by
  rw [getElem?_append_left hj] at he
  exact hl e (mem_of_getElem? he)

theorem gt_of_getElem?_append (hr : Above k r) (hj : l.length ≤ j) (he : (l ++ r)[j]? = some e) : k < e.1 := by
  rw [getElem?_append_right hj] at he
  exact hr e (mem_of_getElem? he)

/-- An absent key: its place stays between `begin` and `end + 1`. -/
theorem searchLoop_absent (hl : Below k l) (hr : Above k r) (fuel : Nat) (m : Int) (hb : 0 ≤ b) (hbl : b ≤ l.length)
    (hlt : l.length ≤ t + 1) (ht : t < (l ++ r).length) (hfuel : t - b < fuel) (hpos : 0 < fuel) :
    ∃ b' t' m', (searchLoop (l ++ r) k fuel b t m : M K V _).run h = .ok (b', t', m') h ∧ t' ≤ b' ∧ 0 ≤ b' ∧
      b' ≤ l.length ∧
      l.length ≤ t' + 1 ∧ t' < (l ++ r).length := by
  induction fuel generalizing b t m with
  | zero => exact absurd hpos (Nat.lt_irrefl 0)
  | succ fuel ih =>
    unfold searchLoop
    split_ifs with hbt
    · obtain ⟨j, x, hj, hbj, hjt, hx⟩ := mid_key hb hbt ht
      rcases Nat.lt_or_ge j l.length with hjl | hjl
      · have hxk := lt_of_getElem?_append hl hjl hx
        obtain ⟨b', t', m', hrun, hrest⟩ :=
          ih (b + (t - b) / 2) (b := b + (t - b) / 2 + 1) (t := t) (by omega) (by omega) hlt ht
          (by omega) (by omega)
        refine ⟨b', t', m', run_bind_ok (arrayAt_run_of_get hj hx) ?_, hrest⟩
        rw [if_neg hxk.ne', if_pos hxk]
        exact hrun
      · have hxk := gt_of_getElem?_append hr hjl hx
        obtain ⟨b', t', m', hrun, hrest⟩ :=
          ih (b + (t - b) / 2) (b := b) (t := b + (t - b) / 2 - 1) hb hbl (by omega) (by omega)
          (by omega) (by omega)
        refine ⟨b', t', m', run_bind_ok (arrayAt_run_of_get hj hx) ?_, hrest⟩
        rw [if_neg hxk.ne, if_neg (lt_asymm hxk)]
        exact hrun
    · exact ⟨b, t, m, rfl, by omega, hb, hbl, hlt, ht⟩

/-- A key that is present: it stays between `begin` and `end`, until it is found. -/
theorem searchLoop_present (hl : Below k l) (hr : Above k r) (fuel : Nat) (m : Int) (hb : 0 ≤ b)
    (hbl : b ≤ l.length) (hlt : l.length ≤ t) (ht : t < (l ++ (k, v) :: r).length) (hfuel : t - b < fuel) :
    ∃ b' t' m', (searchLoop (l ++ (k, v) :: r) k fuel b t m : M K V _).run h = .ok (b', t', m') h ∧
      (b' < t' ∧ m' = l.length ∨ b' = t' ∧ b' = l.length) := by
  induction fuel generalizing b t m with
  | zero => omega
  | succ fuel ih =>
    unfold searchLoop
    split_ifs with hbt
    · obtain ⟨j, x, hj, hbj, hjt, hx⟩ := mid_key hb hbt ht
      rcases lt_trichotomy j l.length with hjl | hjl | hjl
      · have hxk := lt_of_getElem?_append hl hjl hx
        obtain ⟨b', t', m', hrun, hrest⟩ :=
          ih (b + (t - b) / 2) (b := b + (t - b) / 2 + 1) (t := t) (by omega) (by omega) hlt ht
          (by omega)
        refine ⟨b', t', m', run_bind_ok (arrayAt_run_of_get hj hx) ?_, hrest⟩
        rw [if_neg hxk.ne', if_pos hxk]
        exact hrun
      · subst hjl
        rw [getElem?_append_right (Nat.le_refl _), Nat.sub_self] at hx
        cases hx
        refine ⟨b, t, b + (t - b) / 2, run_bind_ok (arrayAt_run hj) ?_, .inl ⟨hbt, hj⟩⟩
        rw [if_pos rfl]
        rfl
      · have hxk : k < x.1 := by
          rw [append_cons] at hx
          refine gt_of_getElem?_append hr ?_ hx
          rw [length_append, length_singleton]
          exact hjl
        obtain ⟨b', t', m', hrun, hrest⟩ :=
          ih (b + (t - b) / 2) (b := b) (t := b + (t - b) / 2 - 1) hb hbl (by omega) (by omega)
          (by omega)
        refine ⟨b', t', m', run_bind_ok (arrayAt_run_of_get hj hx) ?_, hrest⟩
        rw [if_neg hxk.ne, if_neg (lt_asymm hxk)]
        exact hrun
    · exact ⟨b, t, m, rfl, .inr (by omega)⟩

/-- The search of an absent key ends at its place. -/
theorem searchEntry_absent (hes : (h.node n).entries = l ++ r) (hl : Below k l) (hr : Above k r) :
    (searchEntry n k : M K V SearchResult).run h = .ok ⟨l.length, none⟩ h := by
  refine run_bind_ok rfl ?_
  rw [hes]
  by_cases hempty : (l ++ r).length = 0
  · rw [if_pos hempty]
    have hlen : l.length = 0 := by rw [length_append] at hempty; omega
    rw [hlen]
    rfl
  · rw [if_neg hempty]
    have hlen : l.length ≤ (l ++ r).length := by rw [length_append]; omega
    obtain ⟨b, t, m, hrun, htb, hb, hbl, hlt, ht⟩ := searchLoop_absent (h := h) hl hr ((l ++ r).length + 1) (b := 0)
      (t := (l ++ r).length - 1) 0 (Int.le_refl 0) (by omega) (by omega) (by omega) (by omega) (by omega)
    refine run_bind_ok hrun ?_
    dsimp only
    rw [if_neg (by omega)]
    split_ifs with hbt
    · obtain ⟨j, hj⟩ := Int.eq_ofNat_of_zero_le hb
      have hjlt : j < (l ++ r).length := by omega
      refine run_bind_ok (arrayAt_run_of_get hj (getElem?_eq_getElem hjlt)) ?_
      have hx := getElem?_eq_getElem hjlt
      rcases Nat.lt_or_ge j l.length with hjl | hjl
      · have hxk := lt_of_getElem?_append hl hjl hx
        rw [if_neg hxk.ne', if_pos hxk]
        have heq : b + 1 = l.length := by omega
        rw [heq]
        rfl
      · have hxk := gt_of_getElem?_append hr hjl hx
        rw [if_neg hxk.ne, if_neg (lt_asymm hxk)]
        have heq : b = l.length := by omega
        rw [heq]
        rfl
    · have heq : b = l.length := by omega
      rw [heq]
      rfl

/-- The search of a key that is present finds it. -/
theorem searchEntry_present (hes : (h.node n).entries = l ++ (k, v) :: r) (hl : Below k l) (hr : Above k r) :
    (searchEntry n k : M K V SearchResult).run h = .ok ⟨l.length, some n⟩ h := by
  refine run_bind_ok rfl ?_
  have hlen : (l ++ (k, v) :: r).length = l.length + r.length + 1 := by
    rw [length_append, length_cons]
    omega
  rw [hes, if_neg (by omega)]
  obtain ⟨b, t, m, hrun, hend⟩ := searchLoop_present (h := h) (v := v) hl hr ((l ++ (k, v) :: r).length + 1) (b := 0)
    (t := (l ++ (k, v) :: r).length - 1) 0 (Int.le_refl 0) (by omega) (by omega) (by omega) (by omega)
  refine run_bind_ok hrun ?_
  dsimp only
  rcases hend with ⟨hbt, rfl⟩ | ⟨hbt, hbl⟩
  · rw [if_pos hbt]
    rfl
  · rw [if_neg (by omega), if_pos hbt]
    refine run_bind_ok (arrayAt_run hbl) ?_
    rw [if_pos rfl, hbl]
    rfl

/-- An entry with a new key is inserted at its place. -/
theorem insertEntry_run (hn : h.node n = ⟨l ++ r, par, cs⟩) (hl : Below e.1 l) (hr : Above e.1 r) :
    (insertEntry n e).run h = .ok none (h.set n ⟨l ++ e :: r, par, cs⟩) := by
  have hes : (h.node n).entries = l ++ r := by rw [hn]
  refine run_bind_ok (searchEntry_absent hes hl hr) ?_
  refine run_bind_ok rfl ?_
  rw [hes]
  exact run_bind_ok (arrayAdd_run rfl) (run_bind_ok (setEntries_run hn _) rfl)

end Node

/-! ## Trees -/

/-- A subtree: its root node, its entries in order, and its nodes. -/
structure Part (K V : Type) where
  addr : Nat
  items : List (K × V)
  foot : Multiset Nat

/-- Subtrees, each with the entry behind it. -/
abbrev Lefts (K V : Type) := List (Part K V × (K × V))

/-- Subtrees, each with the entry in front of it. -/
abbrev Rights (K V : Type) := List ((K × V) × Part K V)

def Lefts.items (L : Lefts K V) : List (K × V) := L.flatMap fun x => x.1.items ++ [x.2]

def Rights.items (R : Rights K V) : List (K × V) := R.flatMap fun x => x.1 :: x.2.items

def Lefts.foot (L : Lefts K V) : Multiset Nat := (L.map (·.1.foot)).sum

def Rights.foot (R : Rights K V) : Multiset Nat := (R.map (·.2.foot)).sum

/-- The record of an inner node with a child `c` between the children of `L` and those of `R`. -/
def inner (L : Lefts K V) (c : Nat) (R : Rights K V) (par : Option Nat) : Node K V :=
  ⟨L.map (·.2) ++ R.map (·.1), par, L.map (·.1.addr) ++ c :: R.map (·.2.addr)⟩

/-- A node that is not the root has 5 to 11 entries. -/
def Sized (n : Node K V) : Prop := MIN_ENTRY_SIZE ≤ n.entries.length ∧ n.entries.length ≤ MAX_ENTRY_SIZE

instance (n : Node K V) : Decidable (Sized n) :=
  inferInstanceAs (Decidable (MIN_ENTRY_SIZE ≤ n.entries.length ∧ n.entries.length ≤ MAX_ENTRY_SIZE))

/-- The subtree `t` of height `h` under the parent `par`. All leaves are at the same depth, parent links are right, and
    the nodes below `t.addr` have 5 to 11 entries. -/
def Sub (node : Nat → Node K V) : Nat → Option Nat → Part K V → Prop
  | 0, par, t => node t.addr = ⟨t.items, par, []⟩ ∧ t.foot = {t.addr}
  | h + 1, par, t => ∃ (L : Lefts K V) (c : Part K V) (R : Rights K V), node t.addr = inner L c.addr R par ∧
      (∀ p ∈ L.map (·.1) ++ c :: R.map (·.2), Sub node h (some t.addr) p ∧ Sized (node p.addr)) ∧
      t.items = L.items ++ c.items ++ R.items ∧ t.foot = {t.addr} + (L.foot + c.foot + R.foot)

/-- A subtree below node `a`. -/
def Kid (node : Nat → Node K V) (h a : Nat) (p : Part K V) : Prop := Sub node h (some a) p ∧ Sized (node p.addr)

/-- The root of the subtree is an inner node, with `c` between `L` and `R`. -/
structure Inner (node : Nat → Node K V) (h : Nat) (par : Option Nat) (t : Part K V) (L : Lefts K V) (c : Part K V)
    (R : Rights K V) :
    Prop where
  record : node t.addr = inner L c.addr R par
  kids : ∀ p ∈ L.map (·.1) ++ c :: R.map (·.2), Kid node h t.addr p
  items : t.items = L.items ++ c.items ++ R.items
  foot : t.foot = {t.addr} + (L.foot + c.foot + R.foot)

section Shape

variable {node node' : Nat → Node K V} {h a : Nat} {par : Option Nat} {t c d p : Part K V} {L : Lefts K V}
  {R : Rights K V} {e : K × V}
  {x : Part K V × (K × V)} {ps : List (Part K V)}

@[simp] theorem Lefts.items_nil : Lefts.items ([] : Lefts K V) = [] := rfl

@[simp] theorem Rights.items_nil : Rights.items ([] : Rights K V) = [] := rfl

@[simp] theorem Rights.items_cons : Rights.items ((e, d) :: R) = e :: d.items ++ R.items := rfl

@[simp] theorem Lefts.items_append (L L' : Lefts K V) : Lefts.items (L ++ L') = L.items ++ L'.items := flatMap_append

@[simp] theorem Lefts.items_singleton : Lefts.items [(c, e)] = c.items ++ [e] := flatMap_singleton ..

@[simp] theorem Lefts.foot_nil : Lefts.foot ([] : Lefts K V) = 0 := rfl

@[simp] theorem Rights.foot_nil : Rights.foot ([] : Rights K V) = 0 := rfl

@[simp] theorem Rights.foot_cons : Rights.foot ((e, d) :: R) = d.foot + R.foot := sum_cons

@[simp] theorem Lefts.foot_append (L L' : Lefts K V) : Lefts.foot (L ++ L') = L.foot + L'.foot := by
  unfold Lefts.foot
  rw [map_append, sum_append]

@[simp] theorem Lefts.foot_singleton : Lefts.foot [(c, e)] = c.foot := sum_singleton

theorem Lefts.eq_nil_or_append (L : Lefts K V) :
    L = [] ∨ ∃ (L' : Lefts K V) (x : Part K V) (e : K × V), L = L' ++ [(x, e)] := by
  induction L using reverseRecOn with
  | nil => exact .inl rfl
  | append_singleton L x _ => exact .inr ⟨L, x.1, x.2, rfl⟩

theorem Rights.eq_nil_or_cons (R : Rights K V) :
    R = [] ∨ ∃ (e : K × V) (x : Part K V) (R' : Rights K V), R = (e, x) :: R' := by
  cases R with
  | nil => exact .inl rfl
  | cons x R => exact .inr ⟨x.1, x.2, R, rfl⟩

theorem sub_succ : Sub node (h + 1) par t ↔ ∃ L c R, Inner node h par t L c R :=
  ⟨fun ⟨L, c, R, h1, h2, h3, h4⟩ => ⟨L, c, R, ⟨h1, h2, h3, h4⟩⟩,
    fun ⟨L, c, R, hin⟩ => ⟨L, c, R, hin.1, hin.2, hin.3, hin.4⟩⟩

variable (hin : Inner node h par t L c R)
include hin

theorem Inner.sub : Sub node (h + 1) par t := sub_succ.mpr ⟨L, c, R, hin⟩

theorem Inner.kid : Kid node h t.addr c :=
  hin.kids c (mem_append_right _ (mem_cons_self ..))

theorem Inner.left (hx : x ∈ L) : Kid node h t.addr x.1 :=
  hin.kids x.1 (mem_append_left _ (mem_map_of_mem hx))

/-- The subtrees beside `c`. -/
theorem Inner.beside : ∀ p ∈ L.map (·.1) ++ R.map (·.2), Kid node h t.addr p := by
  intro p hp
  refine hin.kids p ?_
  rcases mem_append.mp hp with hp | hp
  · exact mem_append_left _ hp
  · exact mem_append_right _ (mem_cons_of_mem _ hp)

omit hin

theorem Sized.ne_nil {n : Node K V} (hsized : Sized n) : n.entries ≠ [] := by
  intro hnil
  have hle := hsized.1
  rw [hnil, length_nil] at hle
  exact absurd hle (by decide)

/-! ### The view moves to another child -/

theorem inner_shift (L : Lefts K V) (x y : Part K V) (e : K × V) (R : Rights K V) (par : Option Nat) :
    inner L x.addr ((e, y) :: R) par = inner (L ++ [(x, e)]) y.addr R par := by
  simp [inner]

theorem inner_shift_iff : Inner node h par t L c ((e, d) :: R) ↔ Inner node h par t (L ++ [(c, e)]) d R := by
  have hkids : (L ++ [(c, e)]).map (·.1) ++ d :: R.map (·.2) = L.map (·.1) ++ c :: ((e, d) :: R).map (·.2) := by simp
  constructor
  all_goals
    rintro ⟨hrec, hk, hi, hf⟩
    exact ⟨inner_shift .. ▸ hrec, hkids ▸ hk, by simpa using hi, by simpa [add_assoc] using hf⟩

theorem Inner.first (hin : Inner node h par t L c R) : ∃ c' R', Inner node h par t [] c' R' := by
  induction L using reverseRecOn generalizing c R with
  | nil => exact ⟨c, R, hin⟩
  | append_singleton L x ih => exact ih (inner_shift_iff.mpr hin)

theorem Inner.length_entries (hin : Inner node h par t L c R) : (node t.addr).entries.length = L.length + R.length := by
  rw [hin.record]
  simp [inner]

/-- Every child can be looked at. -/
theorem Sub.focus (hsub : Sub node (h + 1) par t) {i : Nat} (hi : i ≤ (node t.addr).entries.length) :
    ∃ L c R, Inner node h par t L c R ∧ L.length = i := by
  obtain ⟨L, c, R, hin⟩ := sub_succ.mp hsub
  obtain ⟨c, R, hin⟩ := hin.first
  induction i with
  | zero => exact ⟨[], c, R, hin, rfl⟩
  | succ i ih =>
    obtain ⟨L, c, R, hin, rfl⟩ := ih (Nat.le_of_succ_le hi)
    have hlen := hin.length_entries
    cases R with
    | nil =>
      rw [length_nil] at hlen
      omega
    | cons x R => exact ⟨_, _, _, inner_shift_iff.mp hin, by rw [length_append, length_singleton]⟩

theorem Sub.focus_first (hsub : Sub node (h + 1) par t) : ∃ c R, Inner node h par t [] c R := by
  obtain ⟨L, c, R, hin⟩ := sub_succ.mp hsub
  exact hin.first

theorem Sub.focus_last (hsub : Sub node (h + 1) par t) : ∃ L c, Inner node h par t L c [] := by
  obtain ⟨L, c, R, hin, hlen⟩ := hsub.focus (Nat.le_refl _)
  have hR : R = [] := by
    rw [hin.length_entries] at hlen
    exact length_eq_zero_iff.mp (by omega)
  subst hR
  exact ⟨L, c, hin⟩

/-! ### Nodes and entries of a subtree -/

theorem Sub.addr_mem (hsub : Sub node h par t) : t.addr ∈ t.foot := by
  cases h with
  | zero =>
    rw [hsub.2]
    exact Multiset.mem_singleton_self _
  | succ h =>
    obtain ⟨L, c, R, hin⟩ := sub_succ.mp hsub
    rw [hin.foot]
    exact Multiset.mem_add.mpr (.inl (Multiset.mem_singleton_self _))

/-- The nodes of some subtrees. -/
def footOf (ps : List (Part K V)) : Multiset Nat := (ps.map (·.foot)).sum

theorem mem_footOf (hp : p ∈ ps) : p.foot ≤ footOf ps :=
  single_le_sum (fun _ _ => zero_le _) _ (mem_map_of_mem hp)

theorem footOf_kids (L : Lefts K V) (c : Part K V) (R : Rights K V) :
    footOf (L.map (·.1) ++ c :: R.map (·.2)) = L.foot + c.foot + R.foot := by
  unfold footOf Lefts.foot Rights.foot
  simp only [List.map_append, List.map_cons, List.map_map, List.sum_append, List.sum_cons, add_assoc]
  rfl

theorem foot_le_of_mem_kids (hp : p ∈ L.map (·.1) ++ c :: R.map (·.2)) : p.foot ≤ L.foot + c.foot + R.foot :=
  footOf_kids L c R ▸ mem_footOf hp

theorem kid_foot_le (hp : p ∈ L.map (·.1) ++ R.map (·.2)) : p.foot ≤ L.foot + R.foot := by
  have hle := mem_footOf hp
  unfold footOf at hle
  rw [map_append, sum_append, List.map_map, List.map_map] at hle
  exact hle

theorem notMem_of_nodup {F : Multiset Nat} (hnodup : ({a} + F).Nodup) : a ∉ F :=
  Multiset.disjoint_left.mp (Multiset.nodup_add.mp hnodup).2.2 (Multiset.mem_singleton_self a)

/-- The nodes below the root of a subtree. -/
theorem Inner.mem_foot (hin : Inner node h par t L c R) (hp : p ∈ L.map (·.1) ++ c :: R.map (·.2)) (ha : a ∈ p.foot) :
    a ∈ t.foot := by
  rw [hin.foot]
  exact mem_add.mpr (.inr (mem_of_le (foot_le_of_mem_kids hp) ha))

theorem Inner.mem_ne (hin : Inner node h par t L c R) (hnodup : t.foot.Nodup) (hp : p ∈ L.map (·.1) ++ c :: R.map (·.2))
    (ha : a ∈ p.foot) : a ≠ t.addr := by
  rintro rfl
  rw [hin.foot] at hnodup
  exact notMem_of_nodup hnodup (mem_of_le (foot_le_of_mem_kids hp) ha)

/-- Only the nodes of a subtree matter for it. -/
theorem Sub.congr (hsub : Sub node h par t) (hsame : ∀ a ∈ t.foot, node' a = node a) : Sub node' h par t := by
  induction h generalizing par t with
  | zero => exact ⟨(hsame _ (Sub.addr_mem hsub)).trans hsub.1, hsub.2⟩
  | succ h ih =>
    obtain ⟨L, c, R, hin⟩ := sub_succ.mp hsub
    refine sub_succ.mpr ⟨L, c, R, (hsame _ hsub.addr_mem).trans hin.record, ?_, hin.items, hin.foot⟩
    intro p hp
    obtain ⟨hkid, hsized⟩ := hin.kids p hp
    have hle : ∀ a ∈ p.foot, node' a = node a := fun a ha => hsame a (hin.mem_foot hp ha)
    refine ⟨ih hkid hle, ?_⟩
    rw [hle _ hkid.addr_mem]
    exact hsized

theorem Kid.congr (hkid : Kid node h a p) (hsame : ∀ b ∈ p.foot, node' b = node b) : Kid node' h a p := by
  refine ⟨hkid.1.congr hsame, ?_⟩
  rw [hsame _ hkid.1.addr_mem]
  exact hkid.2

theorem Inner.congr (hin : Inner node h par t L c R) (hsame : ∀ a ∈ t.foot, node' a = node a) :
    Inner node' h par t L c R := by
  refine ⟨(hsame _ hin.sub.addr_mem).trans hin.record, ?_, hin.items, hin.foot⟩
  exact fun p hp => (hin.kids p hp).congr fun n hn => hsame n (hin.mem_foot hp hn)

/-- The parent link of a subtree changes. -/
theorem Sub.reparent (hsub : Sub node h par t) (hnodup : t.foot.Nodup) {par' : Option Nat}
    (hroot : node' t.addr = { node t.addr with parent := par' }) (hsame : ∀ b ∈ t.foot, b ≠ t.addr → node' b = node b) :
    Sub node' h par' t := by
  cases h with
  | zero =>
    refine ⟨?_, hsub.2⟩
    rw [hroot, hsub.1]
  | succ h =>
    obtain ⟨L, c, R, hin⟩ := sub_succ.mp hsub
    refine sub_succ.mpr ⟨L, c, R, ?_, ?_, hin.items, hin.foot⟩
    · rw [hroot, hin.record]
      rfl
    · intro p hp
      exact (hin.kids p hp).congr fun b hb => hsame b (hin.mem_foot hp hb) (hin.mem_ne hnodup hp hb)

/-- A node of one of several disjoint subtrees that is the root of one of them is the root of the first. -/
theorem addr_eq_of_mem_foot (hroots : ∀ q ∈ ps, q.addr ∈ q.foot) (hnodup : (footOf ps).Nodup)
    {q q' : Part K V} (hq : q ∈ ps) (hq' : q' ∈ ps) (hmem : q'.addr ∈ q.foot) : q'.addr = q.addr := by
  induction ps with
  | nil => exact absurd hq not_mem_nil
  | cons p ps ih =>
    have hsplit : footOf (p :: ps) = p.foot + footOf ps := sum_cons
    rw [hsplit, nodup_add] at hnodup
    have hin (z : Part K V) (hz : z ∈ ps) (n : Nat) (hn : n ∈ z.foot) : n ∈ footOf ps := mem_of_le (mem_footOf hz) hn
    rcases mem_cons.mp hq with rfl | hqs
    · rcases mem_cons.mp hq' with rfl | hqs'
      · rfl
      · have hroot := hin q' hqs' _ (hroots q' hq')
        exact absurd hroot (disjoint_left.mp hnodup.2.2 hmem)
    · rcases mem_cons.mp hq' with rfl | hqs'
      · have hroot := hroots q' (mem_cons_self ..)
        exact absurd (hin q hqs _ hmem) (disjoint_left.mp hnodup.2.2 hroot)
      · exact ih (fun z hz => hroots z (mem_cons_of_mem _ hz)) hnodup.2.1 hqs hqs'

/-- Subtrees get a new parent. -/
theorem Kid.adopt {b : Nat} (hkids : ∀ q ∈ ps, Kid node h a q) (hnodup : (footOf ps).Nodup)
    (hmoved : ∀ q ∈ ps, node' q.addr = { node q.addr with parent := some b })
    (hkeep : ∀ n ∈ footOf ps, n ∉ ps.map (·.addr) → node' n = node n) : ∀ q ∈ ps, Kid node' h b q := by
  intro q hq
  obtain ⟨hsub, hsized⟩ := hkids q hq
  refine ⟨hsub.reparent (nodup_of_le (mem_footOf hq) hnodup) (hmoved q hq) ?_, ?_⟩
  · intro n hn hne
    refine hkeep n (mem_of_le (mem_footOf hq) hn) ?_
    intro hmem
    obtain ⟨q', hq', rfl⟩ := mem_map.mp hmem
    exact hne (addr_eq_of_mem_foot (fun z hz => (hkids z hz).1.addr_mem) hnodup hq hq' hn)
  · rw [hmoved q hq]
    exact hsized

/-- The children of the root are other nodes of the subtree. -/
theorem Sub.children_mem (hsub : Sub node h par t) (hnodup : t.foot.Nodup) {n : Nat} (hn : n ∈ (node t.addr).children) :
    n ∈ t.foot ∧ n ≠ t.addr := by
  cases h with
  | zero =>
    rw [hsub.1] at hn
    exact absurd hn not_mem_nil
  | succ h =>
    obtain ⟨L, c, R, hin⟩ := sub_succ.mp hsub
    have hchildren : (node t.addr).children = (L.map (·.1) ++ c :: R.map (·.2)).map (·.addr) := by
      rw [hin.record]
      simp [inner, Function.comp_def]
    rw [hchildren] at hn
    obtain ⟨q, hq, rfl⟩ := mem_map.mp hn
    have hmem := (hin.kids q hq).1.addr_mem
    exact ⟨hin.mem_foot hq hmem, hin.mem_ne hnodup hq hmem⟩

theorem Lefts.entries_sublist (L : Lefts K V) : List.Sublist (L.map (·.2)) L.items := by
  induction L with
  | nil => exact List.Sublist.slnil
  | cons x L ih =>
    show List.Sublist ([x.2] ++ L.map (·.2)) (x.1.items ++ [x.2] ++ Lefts.items L)
    exact List.Sublist.append (sublist_append_right _ _) ih

theorem Rights.entries_sublist (R : Rights K V) : List.Sublist (R.map (·.1)) R.items := by
  induction R with
  | nil => exact List.Sublist.slnil
  | cons x R ih =>
    show List.Sublist (x.1 :: R.map (·.1)) (x.1 :: (x.2.items ++ Rights.items R))
    exact List.Sublist.cons_cons _ (List.Sublist.trans ih (sublist_append_right _ _))

theorem Sub.entries_sublist (hsub : Sub node h par t) : List.Sublist (node t.addr).entries t.items := by
  cases h with
  | zero => rw [hsub.1]
  | succ h =>
    obtain ⟨L, c, R, hin⟩ := sub_succ.mp hsub
    rw [hin.record, hin.items]
    exact List.Sublist.append (L.entries_sublist.trans (sublist_append_left _ _)) R.entries_sublist

theorem Sub.parent_eq (hsub : Sub node h par t) : (node t.addr).parent = par := by
  cases h with
  | zero => rw [hsub.1]
  | succ h =>
    obtain ⟨L, c, R, hin⟩ := sub_succ.mp hsub
    rw [hin.record]
    rfl

/-! ### Reading a node -/

variable {s : Heap K V}

theorem Inner.getChild_run (hin : Inner s.node h par t L c R) {i : Int} (hi : i = L.length) :
    (Node.getChild t.addr i).run s = .ok (some c.addr) s := by
  exact Node.getChild_run (p := L.map (·.1.addr)) (q := R.map (·.2.addr)) hin.record (by rw [length_map, hi])

theorem Inner.isLeaf_run (hin : Inner s.node h par t L c R) : (Node.isLeaf t.addr).run s = .ok false s := by
  show EStateM.Result.ok (decide _) s = _
  rw [hin.record]
  simp [inner]

theorem Sub.isLeaf_run (hsub : Sub s.node h par t) : (Node.isLeaf t.addr).run s = .ok (decide (h = 0)) s := by
  cases h with
  | zero =>
    show EStateM.Result.ok (decide _) s = _
    rw [hsub.1]
    rfl
  | succ h =>
    obtain ⟨L, c, R, hin⟩ := sub_succ.mp hsub
    exact hin.isLeaf_run

end Shape

/-! ## Search in a tree -/

section Search

variable [LinearOrder K] {s : Heap K V} {node : Nat → Node K V} {h : Nat} {par : Option Nat} {t c : Part K V}
  {L : Lefts K V}
  {R : Rights K V} {k : K} {v : V}

theorem Lefts.below (hinc : Increasing L.items) (hk : Below k (L.map (·.2))) : Below k L.items := by
  intro e he
  obtain ⟨x, hx, he⟩ := mem_flatMap.mp he
  have hxk : x.2.1 < k := hk x.2 (mem_map_of_mem hx)
  rcases mem_append.mp he with he | he
  · have hsub : List.Sublist (x.1.items ++ [x.2]) L.items := sublist_flatten_of_mem (mem_map_of_mem hx)
    exact ((increasing_append.mp (hinc.sublist hsub)).2.2 e he x.2 (List.mem_singleton_self _)).trans hxk
  · rw [List.mem_singleton.mp he]
    exact hxk

theorem Rights.above (hinc : Increasing R.items) (hk : Above k (R.map (·.1))) : Above k R.items := by
  intro e he
  obtain ⟨x, hx, he⟩ := mem_flatMap.mp he
  have hxk : k < x.1.1 := hk x.1 (mem_map_of_mem hx)
  rcases mem_cons.mp he with rfl | he
  · exact hxk
  · have hsub : List.Sublist (x.1 :: x.2.items) R.items := sublist_flatten_of_mem (mem_map_of_mem hx)
    exact hxk.trans (rel_of_pairwise_cons (hinc.sublist hsub) he)

/-- The search in an inner node finds the key, or the child under which it belongs. -/
theorem Sub.locate (hsub : Sub s.node (h + 1) par t) (hinc : Increasing t.items) (k : K) :
    (∃ (L : Lefts K V) (c : Part K V) (v : V) (d : Part K V) (R : Rights K V),
      Inner s.node h par t L c (((k, v), d) :: R) ∧
      (Node.searchEntry t.addr k).run s = .ok ⟨L.length, some t.addr⟩ s) ∨
    ∃ L c R, Inner s.node h par t L c R ∧ Below k L.items ∧ Above k R.items ∧
      (Node.searchEntry t.addr k).run s = .ok ⟨L.length, none⟩ s := by
  have hentries := hinc.sublist hsub.entries_sublist
  rcases hentries.place k with ⟨l, v, r, hes⟩ | ⟨l, r, hes, hl, hr⟩
  · obtain ⟨-, -, hl, hr⟩ := increasing_middle.mp (hes ▸ hentries)
    have hrun := Node.searchEntry_present hes hl hr
    obtain ⟨L, c, R, hin, hlen⟩ := hsub.focus (i := l.length) (by rw [hes, length_append]; omega)
    have hes' : L.map (·.2) ++ R.map (·.1) = l ++ (k, v) :: r := by
      rw [← hes, hin.record]
      rfl
    obtain ⟨-, hR⟩ := append_inj hes' (by rw [length_map, hlen])
    cases R with
    | nil => exact absurd hR nofun
    | cons x R =>
      obtain ⟨e, d⟩ := x
      obtain ⟨rfl, -⟩ := cons.inj hR
      rw [← hlen] at hrun
      exact .inl ⟨L, c, v, d, R, hin, hrun⟩
  · have hrun := Node.searchEntry_absent hes hl hr
    obtain ⟨L, c, R, hin, hlen⟩ := hsub.focus (i := l.length) (by rw [hes, length_append]; omega)
    have hes' : L.map (·.2) ++ R.map (·.1) = l ++ r := by
      rw [← hes, hin.record]
      rfl
    obtain ⟨hL, hR⟩ := append_inj hes' (by rw [length_map, hlen])
    rw [← hlen] at hrun
    rw [hin.items] at hinc
    obtain ⟨hLinc, hRinc, -⟩ := increasing_append.mp hinc
    exact .inr ⟨L, c, R, hin, Lefts.below (increasing_append.mp hLinc).1 (hL ▸ hl), Rights.above hRinc (hR ▸ hr), hrun⟩

/-- The place that the search returns: an entry with the key, or nothing if the key is absent. -/
def Found (s : Heap K V) (k : K) (o : Option V) (sr : SearchResult) : Prop :=
  match sr.replaceNode with
  | some n => ∃ l v r, (s.node n).entries = l ++ (k, v) :: r ∧ sr.index = l.length ∧ o = some v
  | none => o = none

/-- The search from a subtree on. In a tree that is a leaf the search does not look for children. -/
theorem searchEntry_spec {H : Nat} {root : Part K V} (hroot : Sub s.node H none root) (haddr : root.addr = s.root)
    (hsub : Sub s.node h par t) (hinc : Increasing t.items) (hH : h ≠ 0 → H ≠ 0) (k : K) (fuel : Nat)
    (hfuel : h < fuel) :
    ∃ sr, (searchEntry fuel (some t.addr) k).run s = .ok sr s ∧ Found s k (t.items.lookup k) sr := by
  have hleaf : (Node.isLeaf s.root).run s = .ok (decide (H = 0)) s := haddr ▸ hroot.isLeaf_run
  induction h generalizing par t fuel with
  | zero =>
    obtain ⟨fuel, rfl⟩ : ∃ j, fuel = j + 1 := ⟨fuel - 1, by omega⟩
    have hes : (s.node t.addr).entries = t.items := by rw [hsub.1]
    rcases hinc.place k with ⟨l, v, r, hitems⟩ | ⟨l, r, hitems, hl, hr⟩
    · obtain ⟨-, -, hl, hr⟩ := increasing_middle.mp (hitems ▸ hinc)
      rw [hitems] at hes
      refine ⟨_, run_bind_ok (Node.searchEntry_present hes hl hr) rfl, l, v, r, hes, rfl, ?_⟩
      rw [hitems, lookup_middle hl]
    · rw [hitems] at hes
      have hnone : t.items.lookup k = none := by
        rw [hitems, lookup_append, hl.lookup, hr.lookup]
        rfl
      rw [hnone]
      by_cases hH0 : H = 0
      · refine ⟨⟨l.length, none⟩, run_bind_ok (Node.searchEntry_absent hes hl hr) ?_, rfl⟩
        refine run_bind_ok rfl (run_bind_ok hleaf ?_)
        rw [decide_eq_true hH0]
        rfl
      · refine ⟨⟨-1, none⟩, run_bind_ok (Node.searchEntry_absent hes hl hr) ?_, rfl⟩
        refine run_bind_ok rfl (run_bind_ok hleaf ?_)
        rw [decide_eq_false hH0]
        -- a leaf has no child to go on with
        have hchild : (Node.getChild t.addr l.length).run s = .ok none s := by
          show EStateM.Result.ok (arrayGet (s.node t.addr).children l.length) s = _
          rw [hsub.1]
          unfold arrayGet
          split <;> rfl
        exact run_bind_ok hchild (by cases fuel <;> rfl)
  | succ h ih =>
    obtain ⟨fuel, rfl⟩ : ∃ j, fuel = j + 1 := ⟨fuel - 1, by omega⟩
    have hH0 : H ≠ 0 := hH (Nat.succ_ne_zero h)
    rcases hsub.locate hinc k with ⟨L, c, v, d, R, hin, hrun⟩ | ⟨L, c, R, hin, hL, hR, hrun⟩
    · refine ⟨_, run_bind_ok hrun rfl, L.map (·.2), v, R.map (·.1), ?_, ?_, ?_⟩
      · rw [hin.record]
        rfl
      · rw [length_map]
      · rw [hin.items] at hinc ⊢
        exact lookup_middle (increasing_middle.mp hinc).2.2.1
    · have hinc' := hinc
      rw [hin.items] at hinc'
      have hc : Increasing c.items := (increasing_append.mp (increasing_append.mp hinc').1).2.1
      obtain ⟨sr, hrest, hfound⟩ := ih hin.kid.1 hc (fun _ => hH0) fuel (by omega)
      refine ⟨sr, run_bind_ok hrun (run_bind_ok rfl (run_bind_ok hleaf ?_)), ?_⟩
      · rw [decide_eq_false hH0]
        exact run_bind_ok (hin.getChild_run rfl) hrest
      · rw [hin.items, lookup_around hL hR]
        exact hfound

end Search

/-! ## Valid maps -/

theorem Sub.lt_card {node : Nat → Node K V} {h : Nat} {par : Option Nat} {t : Part K V} (hsub : Sub node h par t) :
    h < t.foot.card := by
  induction h generalizing par t with
  | zero =>
    rw [hsub.2, card_singleton]
    exact Nat.zero_lt_one
  | succ h ih =>
    obtain ⟨L, c, R, hin⟩ := sub_succ.mp hsub
    have hc := ih hin.kid.1
    simp only [hin.foot, card_add, card_singleton]
    omega

theorem card_le_of_allocated {F : Multiset Nat} {n : Nat} (hnodup : F.Nodup) (hlt : ∀ a ∈ F, a < n) : F.card ≤ n := by
  have hle : F ≤ Multiset.range n := (Multiset.le_iff_subset hnodup).mpr fun a ha => Multiset.mem_range.mpr (hlt a ha)
  exact (card_le_card hle).trans (card_range n).le

section Valid

variable [LinearOrder K] {s : Heap K V} {items : List (K × V)}

/-- The map is a B-tree with these entries: keys increase in order, each node except the root has 5 to 11 entries, an
    inner node has one child more than entries, all leaves are at one depth, parent links and the size are right. The
    nodes are distinct and allocated. -/
structure Valid (s : Heap K V) (items : List (K × V)) : Prop where
  tree : ∃ H foot, Sub s.node H none ⟨s.root, items, foot⟩ ∧ foot.Nodup ∧ ∀ a ∈ foot, a < s.nodes
  increasing : Increasing items
  size : s.size = items.length

/-- The root is a leaf or has an entry. -/
def RootFilled (s : Heap K V) : Prop := (s.node s.root).children = [] ∨ (s.node s.root).entries ≠ []

theorem searchEntryFromRoot_spec (hvalid : Valid s items) (k : K) :
    ∃ sr, (searchEntryFromRoot k).run s = .ok sr s ∧ Found s k (items.lookup k) sr := by
  obtain ⟨H, foot, hsub, hnodup, hlt⟩ := hvalid.tree
  have hfuel : H < s.nodes + 1 := Nat.lt_succ_of_le (hsub.lt_card.le.trans (card_le_of_allocated hnodup hlt))
  obtain ⟨sr, hrun, hfound⟩ := searchEntry_spec hsub rfl hsub hvalid.increasing id k (s.nodes + 1) hfuel
  exact ⟨sr, run_bind_ok rfl hrun, hfound⟩

/-- `get` returns the value of the key, and changes nothing. -/
theorem getValue_spec (hvalid : Valid s items) (k : K) : (getValue k).run s = .ok (items.lookup k) s := by
  obtain ⟨sr, hrun, hfound⟩ := searchEntryFromRoot_spec hvalid k
  refine run_bind_ok hrun ?_
  obtain ⟨index, replaceNode⟩ := sr
  cases replaceNode with
  | none =>
    have hnone : items.lookup k = none := hfound
    rw [hnone]
    rfl
  | some n =>
    obtain ⟨l, v, r, hes, hindex, hsome⟩ := hfound
    rw [hsome]
    exact run_bind_ok (Node.getEntry_run_of_entries hes hindex) rfl

end Valid

/-! ## Contexts -/

/-- What is asked of the number of entries of a node with parent `par`: 5 to 11, and for the root only a bound `m`. -/
structure Fits (m : Nat) (par : Option Nat) (n : Node K V) : Prop where
  sized : par ≠ none → Sized n
  small : n.entries.length ≤ m

/-- What is around a subtree of height `h` at node `a` with parent `par`: the path up to the root, the entries in front
    and behind, and the nodes outside. -/
inductive Ctx (node : Nat → Node K V) (root m : Nat) : Nat → Option Nat → Nat → List (K × V) → List (K × V) →
    Multiset Nat → Prop
  | top (h : Nat) : Ctx node root m h none root [] [] 0
  | child {h : Nat} {par : Option Nat} {p : Nat} {l r : List (K × V)} {F : Multiset Nat} (L : Lefts K V) (a : Nat)
    (R : Rights K V)
      (up : Ctx node root m (h + 1) par p l r F) (record : node p = inner L a R par)
      (kids : ∀ q ∈ L.map (·.1) ++ R.map (·.2), Kid node h p q) (fits : Fits m par (node p))
        (filled : (node p).entries ≠ []) :
      Ctx node root m h (some p) a (l ++ L.items) (R.items ++ r) ({p} + (L.foot + R.foot) + F)

section Ctx

variable {node node' : Nat → Node K V} {root m h a : Nat} {par : Option Nat} {l r : List (K × V)} {F : Multiset Nat}
  {t c : Part K V} {L : Lefts K V} {R : Rights K V}

theorem Sized.fits {n : Node K V} (hsized : Sized n) (hm : MAX_ENTRY_SIZE ≤ m) : Fits m par n :=
  ⟨fun _ => hsized, hsized.2.trans hm⟩

theorem Fits.of_length {n n' : Node K V} (hfits : Fits m par n) (hlen : n'.entries.length = n.entries.length) :
    Fits m par n' := by
  refine ⟨fun hpar => ?_, hlen.le.trans hfits.small⟩
  unfold Sized
  rw [hlen]
  exact hfits.sized hpar

theorem Ctx.congr (hctx : Ctx node root m h par a l r F) (hsame : ∀ b ∈ F, node' b = node b) :
    Ctx node' root m h par a l r F := by
  induction hctx with
  | top h => exact .top h
  | @child h par p l r F L a R up record kids fits filled ih =>
    have hp : node' p = node p := hsame p (by simp)
    refine .child L a R (ih ?_) (hp.trans record) ?_ ?_ ?_
    · intro b hb
      exact hsame b (mem_add.mpr (.inr hb))
    · intro q hq
      refine (kids q hq).congr ?_
      intro b hb
      refine hsame b (mem_add.mpr (.inl (mem_add.mpr (.inr ?_))))
      exact mem_of_le (kid_foot_le hq) hb
    · rw [hp]
      exact fits
    · rw [hp]
      exact filled

/-- The way down into a child. -/
theorem Ctx.down (hctx : Ctx node root m (h + 1) par t.addr l r F) (hin : Inner node h par t L c R)
    (hfits : Fits m par (node t.addr)) (hfilled : (node t.addr).entries ≠ []) :
    Ctx node root m h (some t.addr) c.addr (l ++ L.items) (R.items ++ r) ({t.addr} + (L.foot + R.foot) + F) :=
  .child L c.addr R hctx hin.record hin.beside hfits hfilled

/-- A whole tree: one whose root is a leaf or has an entry. -/
def Whole (node : Nat → Node K V) (root m : Nat) (items : List (K × V)) (foot : Multiset Nat) : Prop :=
  ∃ H, Sub node H none ⟨root, items, foot⟩ ∧ (H ≠ 0 → (node root).entries ≠ []) ∧ (node root).entries.length ≤ m

/-- A subtree in its context is the whole tree. -/
theorem Ctx.plug (hctx : Ctx node root m h par a l r F) {items : List (K × V)} {foot : Multiset Nat}
    (hsub : Sub node h par ⟨a, items, foot⟩) (hfits : Fits m par (node a)) (hfilled : h ≠ 0 → (node a).entries ≠ []) :
    Whole node root m (l ++ items ++ r) (foot + F) := by
  induction hctx generalizing items foot with
  | top h =>
    refine ⟨h, ?_, hfilled, hfits.small⟩
    rw [nil_append, append_nil, add_zero]
    exact hsub
  | @child h par p l r F L a R up record kids fits filled ih =>
    have hin : Inner node h par ⟨p, L.items ++ items ++ R.items, {p} + (L.foot + foot + R.foot)⟩ L
        ⟨a, items, foot⟩ R := by
      refine ⟨record, ?_, rfl, rfl⟩
      intro q hq
      rw [List.mem_append, List.mem_cons] at hq
      rcases hq with hq | rfl | hq
      · exact kids q (mem_append_left _ hq)
      · exact ⟨hsub, hfits.sized nofun⟩
      · exact kids q (mem_append_right _ hq)
    have hwhole := ih hin.sub fits fun _ => filled
    have hitems : l ++ L.items ++ items ++ (R.items ++ r) = l ++ (L.items ++ items ++ R.items) ++ r := by simp
    have hfoot : foot + ({p} + (L.foot + R.foot) + F) = {p} + (L.foot + foot + R.foot) + F := by abel
    rw [hitems, hfoot]
    exact hwhole

end Ctx

/-! ## The place of a node in its parent -/

section ParentOf

variable [LinearOrder K] {s : Heap K V} {h a p : Nat} {par : Option Nat} {t : Part K V} {L : Lefts K V} {R : Rights K V}

theorem quickEquals_self (hne : (s.node a).entries ≠ []) : (Node.quickEquals a a : M K V Bool).run s = .ok true s := by
  obtain ⟨e, es, hes⟩ := exists_cons_of_ne_nil hne
  simp [Node.quickEquals, arrayAt, arrayGet, hes]

/-- Nodes with different first keys are told apart. -/
theorem quickEquals_of_ne {b : Nat} {e e' : K × V} {es es' : List (K × V)} (ha : (s.node a).entries = e :: es)
    (hb : (s.node b).entries = e' :: es') (hne : e.1 ≠ e'.1) :
    (Node.quickEquals a b : M K V Bool).run s = .ok false s := by
  by_cases hlen : es.length = es'.length <;> simp [Node.quickEquals, arrayAt, arrayGet, ha, hb, hlen, hne]

theorem parentOfLoop_run (hkids : ∀ x ∈ L, Kid s.node h p x.1) (hsub : Sub s.node h (some p) t)
    (hne : (s.node t.addr).entries ≠ []) (hinc : Increasing (L.items ++ t.items)) (i : Int) (cs : List Nat) :
    (parentOfLoop t.addr i (L.map (·.1.addr) ++ t.addr :: cs) : M K V Int).run s = .ok (i + L.length) s := by
  induction L generalizing i with
  | nil =>
    refine run_bind_ok (quickEquals_self hne) ?_
    rw [if_pos rfl, length_nil, Nat.cast_zero, Int.add_zero]
    rfl
  | cons x L ih =>
    obtain ⟨hkid, hsized⟩ := hkids x (mem_cons_self ..)
    obtain ⟨e, es, hes⟩ := exists_cons_of_ne_nil hne
    obtain ⟨e', es', hes'⟩ := exists_cons_of_ne_nil hsized.ne_nil
    have hsplit : Lefts.items (x :: L) ++ t.items = x.1.items ++ [x.2] ++ (Lefts.items L ++ t.items) := by
      rw [← append_assoc]
      rfl
    rw [hsplit] at hinc
    obtain ⟨-, hrest, hacross⟩ := increasing_append.mp hinc
    have hlt : e'.1 < e.1 := by
      refine hacross e' (mem_append_left _ (hkid.entries_sublist.subset ?_)) e
        (mem_append_right _ (hsub.entries_sublist.subset ?_))
      · rw [hes']
        exact mem_cons_self ..
      · rw [hes]
        exact mem_cons_self ..
    refine run_bind_ok (quickEquals_of_ne hes' hes hlt.ne) ?_
    have hrun := ih (fun y hy => hkids y (mem_cons_of_mem _ hy)) hrest (i + 1)
    rw [length_cons, Nat.cast_succ, ← Int.add_assoc, Int.add_right_comm]
    exact hrun

theorem parentOf_run (hrec : s.node p = inner L t.addr R par) (hkids : ∀ x ∈ L, Kid s.node h p x.1)
    (hsub : Sub s.node h (some p) t) (hne : (s.node t.addr).entries ≠ []) (hinc : Increasing (L.items ++ t.items)) :
    (parentOf t.addr : M K V SearchResult).run s = .ok ⟨L.length, some p⟩ s := by
  refine run_bind_ok rfl ?_
  rw [hsub.parent_eq]
  refine run_bind_ok (getOrThrow_run p) ?_
  rw [hrec]
  have hrun := parentOfLoop_run hkids hsub hne hinc 0 (R.map (·.2.addr))
  rw [Int.zero_add] at hrun
  exact run_bind_ok hrun rfl

end ParentOf

end CangjieRuntime.TreeMap
