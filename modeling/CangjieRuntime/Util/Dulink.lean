import CangjieRuntime.Lib.Chain

/-!
# `Util.Dulink` — bidirectional cyclic lists

The functions on `struct Dulink` in `list.h`: a list is a head node and the nodes reached from it, the last one pointing
back at the head. The functions here are sequences of pointer writes, in the order of the source; each dereference of a
pointer can fail (`none`) on a null pointer.

A head with its list is a `Cycle`. The specs below say which list each function leaves, and that it touches no node
outside the lists it is given.
-/

namespace CangjieRuntime

open Chain List Option

namespace Dulink

variable {A : Type} [DecidableEq A]

/-! ## The functions -/

def dulinkInit (m : Links A) (dulink : A) : Links A := (m.setPrev dulink (some dulink)).setNext dulink (some dulink)

def dulinkRemove (m : Links A) (item : A) : Option (Links A) := do
  let prev ← m.prev item
  let m := m.setNext prev (m.next item)
  let next ← m.next item
  return m.setPrev next (m.prev item)

/-- `DulinkPushtail`: the head's predecessor is the tail. -/
def dulinkPushtail (m : Links A) (dulink object : A) : Option (Links A) := do
  let last ← m.prev dulink
  let m := m.setNext last (some object)
  let m := m.setPrev object (m.prev dulink)
  let m := m.setNext object (some dulink)
  return m.setPrev dulink (some object)

def dulinkGetIndexByNext (m : Links A) (link : A) : Nat → Option A
  | 0 => some link
  | index + 1 => do dulinkGetIndexByNext m (← m.next link) index

def dulinkGetIndexByPrev (m : Links A) (link : A) : Nat → Option A
  | 0 => some link
  | index + 1 => do dulinkGetIndexByPrev m (← m.prev link) index

/-- `DulinkInsertHead`: the nodes from `first` to `last` become the first nodes of the list of `head`. -/
def dulinkInsertHead (m : Links A) (head first last : A) : Option (Links A) := do
  let m := m.setPrev (← m.next head) (some last)
  let m := m.setNext last (m.next head)
  let m := m.setNext head (some first)
  return m.setPrev first (some head)

/-- The last node to move. A positive count is the number of nodes to move, any other the negated number to keep. -/
def moveEnd (m : Links A) (fromHead : A) (countOfMoveOrReserve : Int) : Option A :=
  if countOfMoveOrReserve > 0 then dulinkGetIndexByNext m fromHead countOfMoveOrReserve.toNat
  else dulinkGetIndexByPrev m fromHead (-countOfMoveOrReserve + 1).toNat

def dulinkMove (m : Links A) (toHead fromHead : A) (countOfMoveOrReserve : Int) : Option (Links A) := do
  let first ← m.next fromHead
  let last ← moveEnd m fromHead countOfMoveOrReserve
  let m := m.setNext fromHead (m.next last)
  let m := m.setPrev (← m.next last) (some fromHead)
  dulinkInsertHead m toHead first last

/-! ## Cycles -/

/-- The list of `head` is `xs`. -/
structure Cycle (m : Links A) (head : A) (xs : List A) : Prop where
  path : m.Path (head :: xs ++ [head])
  nodup : (head :: xs).Nodup

variable {m m' : Links A} {head : A} {xs ys zs p q : List A} {a b x : A}

omit [DecidableEq A] in
/-- Lists elsewhere stay. -/
theorem Cycle.congr (h : Cycle m head xs) (hchange : m.Changes m' ys) (hdisj : List.Disjoint (head :: xs) ys) :
    Cycle m' head xs := by
  refine ⟨h.path.congr hchange ?_, h.nodup⟩
  intro u hu
  apply hdisj
  grind

omit [DecidableEq A] in
theorem exists_concat (x : A) (xs : List A) : ∃ p a, x :: xs = p ++ [a] :=
  ⟨_, _, (dropLast_append_getLast (cons_ne_nil x xs)).symm⟩

omit [DecidableEq A] in
theorem exists_cons (xs : List A) (x : A) : ∃ b q, xs ++ [x] = b :: q :=
  exists_cons_of_ne_nil (append_ne_nil_of_right_ne_nil xs (cons_ne_nil x []))

omit [DecidableEq A] in
theorem not_mem_of_nodup_concat (h : (p ++ [a]).Nodup) : a ∉ p := by
  intro hmem
  exact disjoint_of_nodup_append h hmem (mem_singleton_self a)

/-- One `link` joins a path to the way back to the head, which the path may start from. -/
theorem path_link_back (hleft : m.Path (p ++ [a])) (hright : m.Path (ys ++ [head])) (hnodup : (p ++ [a] ++ ys).Nodup)
    (hys : (head :: ys).Nodup) (hhead : head ∉ (p ++ [a]).tail) (hq : ys ++ [head] = b :: q) :
    (m.link a b).Path (p ++ [a] ++ ys ++ [head]) := by
  have hapart : List.Disjoint (p ++ [a]) ys := disjoint_of_nodup_append hnodup
  have hb : b ∈ ys ++ [head] := hq ▸ mem_cons_self ..
  have hback : (b :: q).Nodup := by
    rw [← hq]
    exact (perm_append_singleton head ys).nodup_iff.mpr hys
  rw [append_assoc, hq, ← append_cons]
  apply hleft.join (hq ▸ hright)
  · exact not_mem_of_nodup_concat (hnodup.sublist (sublist_append_left ..))
  · rw [← hq, dropLast_concat]
    exact hapart (mem_append_right p (mem_singleton_self a))
  · intro hmem
    rcases mem_append.mp hb with hmem' | hmem'
    · exact hapart (mem_of_mem_tail hmem) hmem'
    · rw [mem_singleton.mp hmem'] at hmem
      exact hhead hmem
  · exact (nodup_cons.mp hback).1

/-- **Closing a cycle.** One `link` between the path from the head and the path to the head. -/
theorem cycle_link (hleft : m.Path (head :: xs)) (hright : m.Path (ys ++ [head])) (hnodup : (head :: (xs ++ ys)).Nodup)
    (hp : head :: xs = p ++ [a]) (hq : ys ++ [head] = b :: q) : Cycle (m.link a b) head (xs ++ ys) := by
  refine ⟨?_, hnodup⟩
  have hlist : head :: (xs ++ ys) = p ++ [a] ++ ys := by rw [← hp, cons_append]
  have hhead : head ∉ (p ++ [a]).tail := by
    rw [← hp, tail_cons]
    exact fun hmem => (nodup_cons.mp hnodup).1 (mem_append_left ys hmem)
  rw [hlist]
  apply path_link_back (hp ▸ hleft) hright (hlist ▸ hnodup) _ hhead hq
  exact hnodup.sublist (List.Sublist.cons_cons head (sublist_append_right xs ys))

/-! ## One spec for each function -/

theorem cycle_dulinkInit (m : Links A) (head : A) : Cycle (dulinkInit m head) head [] :=
  ⟨isChain_pair.mpr ⟨next_setNext_self .., prev_setPrev_self ..⟩, nodup_singleton head⟩

theorem changes_dulinkInit (m : Links A) (head : A) : m.Changes (dulinkInit m head) [head] :=
  changes_link m (mem_singleton_self head) (mem_singleton_self head)

theorem dulinkRemove_spec (h : Cycle m head (xs ++ x :: ys)) :
    ∃ m', dulinkRemove m x = some m' ∧ Cycle m' head (xs ++ ys) ∧ m.Changes m' (head :: (xs ++ x :: ys)) := by
  obtain ⟨p, a, hp⟩ := exists_concat head xs
  obtain ⟨b, q, hq⟩ := exists_cons ys head
  have hlist : head :: (xs ++ x :: ys) ++ [head] = p ++ a :: x :: b :: q := by
    rw [← hq, append_cons p a, ← hp]
    simp only [cons_append, append_assoc]
  have hpath := h.path
  rw [hlist] at hpath
  obtain ⟨hleft, hax, hpath⟩ := path_split.mp hpath
  obtain ⟨-, hxb, hright⟩ := path_split (p := []).mp hpath
  have ha : a ∈ head :: xs := hp ▸ mem_append_right p (mem_singleton_self a)
  have hb : b ∈ ys ++ [head] := hq ▸ mem_cons_self ..
  have hxa : x ≠ a := by
    rintro rfl
    have hnodup : ((head :: xs) ++ x :: ys).Nodup := h.nodup
    exact disjoint_of_nodup_append hnodup ha (mem_cons_self ..)
  refine ⟨m.link a b, ?_, ?_, ?_⟩
  · simp only [dulinkRemove, hax.prev, hxb.next, Option.bind_eq_bind, Option.bind_some, prev_setNext,
      next_setNext_of_ne m _ hxa, Links.link, Option.pure_def]
  · apply cycle_link (hp ▸ hleft) (hq ▸ hright) _ hp hq
    exact h.nodup.sublist (List.Sublist.cons_cons head (List.Sublist.append_left (sublist_cons_self x ys) xs))
  · exact changes_link _ (by grind) (by grind)

theorem dulinkPushtail_spec (h : Cycle m head xs) (hx : x ∉ head :: xs) :
    ∃ m', dulinkPushtail m head x = some m' ∧ Cycle m' head (xs ++ [x]) ∧ m.Changes m' (head :: (xs ++ [x])) := by
  obtain ⟨p, a, hp⟩ := exists_concat head xs
  have hpath := h.path
  rw [hp, append_assoc] at hpath
  obtain ⟨hleft, hahead, -⟩ := path_split.mp hpath
  have ha : a ∈ head :: xs := hp ▸ mem_append_right p (mem_singleton_self a)
  have hxhead : head ≠ x := fun heq => hx (heq ▸ mem_cons_self ..)
  have hfront : (p ++ [a]).Nodup := hp ▸ h.nodup
  have hlong : (m.link a x).Path (p ++ a :: x :: []) := by
    apply hleft.join (path_singleton m x) (not_mem_of_nodup_concat hfront) not_mem_nil _ not_mem_nil
    rw [← hp]
    exact fun hmem => hx (mem_of_mem_tail hmem)
  have hlist : head :: (xs ++ [x]) = p ++ [a] ++ [x] := by rw [← hp, cons_append]
  refine ⟨(m.link a x).link x head, ?_, ?_, ?_⟩
  · simp only [dulinkPushtail, hahead.prev, Option.bind_eq_bind, Option.bind_some, prev_setNext, Links.link,
      Option.pure_def]
  · have hpath' : (m.link a x).Path (head :: (xs ++ [x])) := by
      rw [hlist, ← append_cons]
      exact hlong
    have hnodup : (head :: (xs ++ [x] ++ [])).Nodup := by
      rw [append_nil]
      exact (perm_append_singleton x (head :: xs)).nodup_iff.mpr (nodup_cons.mpr ⟨hx, h.nodup⟩)
    have hcycle := cycle_link hpath' (path_singleton _ head) hnodup hlist rfl
    rw [append_nil] at hcycle
    exact hcycle
  · exact (changes_link m (by grind) (by grind)).trans (changes_link _ (by grind) (by grind))

omit [DecidableEq A] in
theorem getIndexByNext_path {l : List A} {u v : A} {i n : Nat} (h : m.Path l) (hu : l[i]? = some u)
    (hv : l[i + n]? = some v) : dulinkGetIndexByNext m u n = some v := by
  induction n generalizing i u with
  | zero =>
    rw [Nat.add_zero, hu] at hv
    exact hv
  | succ n ih =>
    have hlt : i + 1 < l.length := by grind
    obtain ⟨hnext, -⟩ := h.next_getElem? hu (getElem?_eq_getElem hlt)
    rw [dulinkGetIndexByNext, hnext]
    apply ih (getElem?_eq_getElem hlt)
    rw [Nat.add_assoc, Nat.add_comm 1 n]
    exact hv

omit [DecidableEq A] in
theorem getIndexByPrev_path {l : List A} {u v : A} {i n : Nat} (h : m.Path l) (hu : l[i + n]? = some u)
    (hv : l[i]? = some v) : dulinkGetIndexByPrev m u n = some v := by
  induction n generalizing u with
  | zero =>
    rw [Nat.add_zero, hv] at hu
    exact hu.symm
  | succ n ih =>
    have hlt : i + n < l.length := by grind
    obtain ⟨-, hprev⟩ := h.next_getElem? (getElem?_eq_getElem hlt) hu
    rw [dulinkGetIndexByPrev, hprev]
    exact ih (getElem?_eq_getElem hlt)

omit [DecidableEq A] in
/-- Both ways of counting arrive at the last of the nodes to be moved. -/
theorem moveEnd_eq (h : Cycle m head (p ++ a :: ys)) {count : Int}
    (hcount : count = ↑(p.length + 1) ∨ count = -↑ys.length) :
    moveEnd m head count = some a := by
  have hlast : (head :: (p ++ a :: ys) ++ [head])[p.length + 1]? = some a := by simp
  have hback : (head :: (p ++ a :: ys) ++ [head])[p.length + 1 + (ys.length + 1)]? = some head := by grind
  unfold moveEnd
  split_ifs with hpos
  · have hn : count.toNat = p.length + 1 := by omega
    rw [hn]
    apply getIndexByNext_path (i := 0) h.path rfl
    rw [Nat.zero_add]
    exact hlast
  · have hn : (-count + 1).toNat = ys.length + 1 := by omega
    rw [hn]
    exact getIndexByPrev_path h.path hback hlast

/-- The path `p ++ [a]` from `x` to `a` becomes the front of a list. -/
theorem dulinkInsertHead_spec (h : Cycle m head zs) (hpath : m.Path (p ++ [a])) (hx : p ++ [a] = x :: q)
    (hnodup : (head :: (p ++ [a] ++ zs)).Nodup) :
    ∃ m', dulinkInsertHead m head x a = some m' ∧ Cycle m' head (p ++ [a] ++ zs) ∧
      m.Changes m' (head :: (p ++ [a] ++ zs)) := by
  obtain ⟨b, r, hr⟩ := exists_cons zs head
  have hcycle := h.path
  rw [cons_append, hr] at hcycle
  obtain ⟨-, hheadb, hright⟩ := path_split (p := []).mp hcycle
  obtain ⟨hhead, hrest⟩ := nodup_cons.mp hnodup
  have hb : b ∈ zs ++ [head] := hr ▸ mem_cons_self ..
  have hjoin : (m.link a b).Path (p ++ [a] ++ zs ++ [head]) :=
    path_link_back hpath (hr ▸ hright) hrest h.nodup (fun hmem => hhead (mem_append_left zs (mem_of_mem_tail hmem))) hr
  have hfirst : p ++ [a] ++ zs ++ [head] = x :: (q ++ (zs ++ [head])) := by
    rw [hx, append_assoc, cons_append]
  have hxmem : x ∈ p ++ [a] := hx ▸ mem_cons_self ..
  refine ⟨(m.link a b).link head x, ?_, ?_, ?_⟩
  · simp only [dulinkInsertHead, hheadb.next, Option.bind_eq_bind, Option.bind_some, next_setPrev, Links.link,
      Option.pure_def, setPrev_setNext]
  · have hclose := cycle_link (path_singleton _ head) hjoin hnodup (nil_append [head]).symm hfirst
    exact hclose
  · exact (changes_link m (by grind) (by grind)).trans (changes_link _ (by grind) (by grind))

/-- The nodes `xs`, counted from the front or by what stays behind, move to the front of another list. -/
theorem dulinkMove_spec {toHead fromHead : A} (hfrom : Cycle m fromHead (xs ++ ys)) (hto : Cycle m toHead zs)
    (hxs : xs ≠ []) (hdisj : List.Disjoint (fromHead :: (xs ++ ys)) (toHead :: zs)) {count : Int}
    (hcount : count = ↑xs.length ∨ count = -↑ys.length) :
    ∃ m', dulinkMove m toHead fromHead count = some m' ∧ Cycle m' fromHead ys ∧ Cycle m' toHead (xs ++ zs) ∧
      m.Changes m' (fromHead :: (xs ++ ys) ++ toHead :: zs) := by
  obtain ⟨x, q, rfl⟩ := exists_cons_of_ne_nil hxs
  obtain ⟨p, a, hp⟩ := exists_concat x q
  obtain ⟨b, r, hr⟩ := exists_cons ys fromHead
  have hlist : fromHead :: (x :: q ++ ys) ++ [fromHead] = fromHead :: p ++ a :: b :: r := by
    rw [hp, ← hr]
    simp only [cons_append, append_assoc, nil_append]
  have hpath := hfrom.path
  have hnext : m.next fromHead = some x := by
    obtain ⟨-, hjoined, -⟩ := path_split (p := []).mp hpath
    exact hjoined.next
  rw [hlist] at hpath
  obtain ⟨hleft, hab, hright⟩ := path_split.mp hpath
  have hcountp : count = ↑(p.length + 1) ∨ count = -↑ys.length := by
    rw [hp, length_append, length_singleton] at hcount
    exact hcount
  have hfrom' : Cycle m fromHead (p ++ a :: ys) := by
    rw [append_cons, ← hp]
    exact hfrom
  have hlast := moveEnd_eq hfrom' hcountp
  obtain ⟨hhead, hnodup⟩ := nodup_cons.mp hfrom.nodup
  have ha : a ∈ x :: q := hp ▸ mem_append_right p (mem_singleton_self a)
  have hb : b ∈ ys ++ [fromHead] := hr ▸ mem_cons_self ..
  have hafrom : a ≠ fromHead := fun heq => hhead (heq ▸ mem_append_left ys ha)
  have hstay : List.Disjoint (x :: q) (fromHead :: ys) :=
    disjoint_cons_right.mpr ⟨fun hmem => hhead (mem_append_left ys hmem), disjoint_of_nodup_append hnodup⟩
  have hbmem : b ∈ fromHead :: (x :: q ++ ys) := by grind
  -- the rest closes over the head
  have hchange := changes_link m (mem_cons_self (a := fromHead) (l := x :: q ++ ys)) hbmem
  have hrest : Cycle (m.link fromHead b) fromHead ys := by
    have hnodup' : (fromHead :: ([] ++ ys)).Nodup :=
      hfrom.nodup.sublist (List.Sublist.cons_cons fromHead (sublist_append_right _ ys))
    exact cycle_link (path_singleton m fromHead) (hr ▸ hright) hnodup' (nil_append [fromHead]).symm hr
  have hseg : (m.link fromHead b).Path (p ++ [a]) := by
    have htail : m.Path (p ++ [a]) := List.IsChain.tail hleft
    apply htail.link
    · rw [← hp]
      exact fun hmem => hhead (mem_append_left ys (mem_of_mem_dropLast hmem))
    · rw [← hp]
      exact fun hmem => hstay (mem_of_mem_tail hmem) ((perm_append_singleton fromHead ys).subset hb)
  have hto' : Cycle (m.link fromHead b) toHead zs := hto.congr hchange hdisj.symm
  have hnodup' : (toHead :: (p ++ [a] ++ zs)).Nodup := by
    rw [← hp, nodup_cons, nodup_append]
    obtain ⟨htoHead, hzs⟩ := nodup_cons.mp hto.nodup
    have hx : (x :: q).Nodup := hnodup.sublist (sublist_append_left ..)
    refine ⟨?_, hx, hzs, ?_⟩
    · intro hmem
      rcases mem_append.mp hmem with hmem | hmem
      · exact hdisj (mem_cons_of_mem fromHead (mem_append_left ys hmem)) (mem_cons_self ..)
      · exact htoHead hmem
    · rintro u hu v hv rfl
      exact hdisj (mem_cons_of_mem fromHead (mem_append_left ys hu)) (mem_cons_of_mem toHead hv)
  obtain ⟨m', hinsert, hcycle, hchange'⟩ := dulinkInsertHead_spec hto' hseg hp.symm hnodup'
  rw [← hp] at hcycle hchange'
  refine ⟨m', ?_, ?_, hcycle, ?_⟩
  · simp only [dulinkMove, hnext, hlast, hab.next, bind_eq_bind, bind_some,
      next_setNext_of_ne m _ hafrom]
    exact hinsert
  · -- what stays behind was part of the old list, and none of it moves
    have hold : fromHead :: ys ⊆ fromHead :: (x :: q ++ ys) := cons_subset_cons fromHead (subset_append_right ..)
    apply hrest.congr hchange'
    intro u hu hu'
    rcases mem_cons.mp hu' with rfl | hmem
    · exact hdisj (hold hu) (mem_cons_self ..)
    · rcases mem_append.mp hmem with hmem | hmem
      · exact hstay hmem hu
      · exact hdisj (hold hu) (mem_cons_of_mem toHead hmem)
  · exact (hchange.mono (subset_append_left ..)).trans (hchange'.mono (by grind))

end CangjieRuntime.Dulink
