import CangjieRuntime.Collection.Correctness.TreeBalance

/-!
# `Collection.Correctness.TreeRemove` — removal keeps the B-tree

`remove`, `removeFirst` and `removeLast` of a valid map: the entry is found in a leaf, or swapped with its predecessor
in a leaf, deleted there, and the nodes on the way up are filled.
-/

namespace CangjieRuntime.TreeMap

open Assoc List Multiset

variable {K V : Type} {s s' : Heap K V}

/-! ## Removal -/

section Remove

variable {m h : Nat} {par : Option Nat} {l r : List (K × V)} {F : Multiset Nat} {t : Part K V} {root : Nat}
  {foot : Multiset Nat}

/-- The walk to the last leaf, and the context of that leaf. The context may be that of a heap that is the same below
    `t`. -/
theorem rightmost_spec {node' : Nat → Node K V} (fuel : Nat) (hsub : Sub s.node h par t)
    (hsame : ∀ n ∈ t.foot, node' n = s.node n) (hctx : Ctx node' root m h par t.addr l r F)
    (hfits : Fits m par (s.node t.addr)) (hne : (s.node t.addr).entries ≠ []) (hm : MAX_ENTRY_SIZE ≤ m)
    (hfuel : h < fuel) :
    ∃ leaf par' es e l' F', (rightmost fuel t.addr : M K V Nat).run s = .ok leaf s ∧
      s.node leaf = ⟨es ++ [e], par', []⟩ ∧
      Ctx node' root m 0 par' leaf l' r F' ∧ l' ++ es ++ [e] = l ++ t.items ∧ F' + {leaf} = F + t.foot ∧ leaf ∈ t.foot ∧
      Fits m par' (s.node leaf) := by
  induction h generalizing par t l F fuel with
  | zero =>
    obtain ⟨fuel, rfl⟩ : ∃ j, fuel = j + 1 := ⟨fuel - 1, by omega⟩
    have hitems : t.items ≠ [] := by
      intro hnil
      refine hne ?_
      rw [hsub.1, hnil]
    rcases eq_nil_or_concat t.items with hnil | ⟨es, e, hes⟩
    · exact absurd hnil hitems
    rw [concat_eq_append] at hes
    refine ⟨t.addr, par, es, e, l, F, ?_, ?_, hctx, ?_, ?_, Sub.addr_mem hsub, hfits⟩
    · exact run_bind_ok (Sub.isLeaf_run hsub) rfl
    · rw [hsub.1, hes]
    · rw [hes, append_assoc]
    · rw [hsub.2]
  | succ h ih =>
    obtain ⟨fuel, rfl⟩ : ∃ j, fuel = j + 1 := ⟨fuel - 1, by omega⟩
    obtain ⟨L, c, hin⟩ := hsub.focus_last
    have hc : ∀ n ∈ c.foot, n ∈ t.foot := by
      intro n hn
      rw [hin.foot]
      simp [hn]
    have hroot : node' t.addr = s.node t.addr := hsame _ hsub.addr_mem
    have hdown := hctx.down (hin.congr hsame) (hroot ▸ hfits) (hroot ▸ hne)
    obtain ⟨leaf, par', es, e, l', F', hrun, hrec, hctx', hitems, hfoot, hmem, hleaf⟩ := ih fuel hin.kid.1
      (fun n hn => hsame n (hc n hn)) hdown (hin.kid.2.fits hm) hin.kid.2.ne_nil (by omega)
    refine ⟨leaf, par', es, e, l', F', ?_, hrec, hctx', ?_, ?_, hc leaf hmem, hleaf⟩
    · refine run_bind_ok hin.isLeaf_run ?_
      refine run_bind_ok rfl ?_
      refine run_bind_some (hin.getChild_run ?_) hrun
      rw [hin.record]
      simp [inner]
    · rw [hitems, hin.items]
      simp
    · rw [hfoot, hin.foot]
      simp only [Rights.foot_nil, add_zero]
      abel

/-- `getLastEntry` finds the last child by the number of entries, `predecessor` by the number of children. -/
theorem lastLeaf_eq (fuel : Nat) (hsub : Sub s.node h par t) :
    (lastLeaf fuel t.addr : M K V Nat).run s = (rightmost fuel t.addr).run s := by
  induction fuel generalizing h par t with
  | zero => rfl
  | succ fuel ih =>
    cases h with
    | zero =>
      have hleaf : (Node.isLeaf t.addr : M K V Bool).run s = .ok true s := Sub.isLeaf_run hsub
      have hlast : (lastLeaf (fuel + 1) t.addr : M K V Nat).run s = .ok t.addr s := run_bind_ok hleaf rfl
      have hright : (rightmost (fuel + 1) t.addr : M K V Nat).run s = .ok t.addr s := run_bind_ok hleaf rfl
      rw [hlast, hright]
    | succ h =>
      obtain ⟨L, c, hin⟩ := hsub.focus_last
      have hlast : (lastLeaf (fuel + 1) t.addr : M K V Nat).run s = (lastLeaf fuel c.addr).run s := by
        refine run_bind_ok hin.isLeaf_run (run_bind_ok rfl ?_)
        refine run_bind_some (hin.getChild_run ?_) rfl
        rw [hin.length_entries]
        rfl
      have hright : (rightmost (fuel + 1) t.addr : M K V Nat).run s = (rightmost fuel c.addr).run s := by
        refine run_bind_ok hin.isLeaf_run (run_bind_ok rfl ?_)
        refine run_bind_some (hin.getChild_run ?_) rfl
        rw [hin.record]
        simp [inner]
      rw [hlast, hright, ih hin.kid.1]

/-- The walk to the first leaf. -/
theorem firstLeaf_spec (fuel : Nat) (hsub : Sub s.node h par t) (hctx : Ctx s.node root m h par t.addr l r F)
    (hfits : Fits m par (s.node t.addr)) (hne : (s.node t.addr).entries ≠ []) (hm : MAX_ENTRY_SIZE ≤ m)
    (hfuel : h < fuel) :
    ∃ leaf par' e es r' F', (firstLeaf fuel t.addr : M K V Nat).run s = .ok leaf s ∧ s.node leaf = ⟨e :: es, par', []⟩ ∧
      Ctx s.node root m 0 par' leaf l r' F' ∧ e :: es ++ r' = t.items ++ r ∧ {leaf} + F' = t.foot + F ∧
      Fits m par' (s.node leaf) := by
  induction h generalizing par t r F fuel with
  | zero =>
    obtain ⟨fuel, rfl⟩ : ∃ j, fuel = j + 1 := ⟨fuel - 1, by omega⟩
    obtain ⟨e, es, hes⟩ : ∃ e es, t.items = e :: es := by
      refine exists_cons_of_ne_nil ?_
      intro hnil
      refine hne ?_
      rw [hsub.1, hnil]
    refine ⟨t.addr, par, e, es, r, F, run_bind_ok (Sub.isLeaf_run hsub) rfl, ?_, hctx, ?_, ?_, hfits⟩
    · rw [hsub.1, hes]
    · rw [hes]
    · rw [hsub.2]
  | succ h ih =>
    obtain ⟨fuel, rfl⟩ : ∃ j, fuel = j + 1 := ⟨fuel - 1, by omega⟩
    obtain ⟨c, R, hin⟩ := hsub.focus_first
    have hdown := hctx.down hin hfits hne
    rw [Lefts.items_nil, append_nil] at hdown
    obtain ⟨leaf, par', e, es, r', F', hrun, hrec, hctx', hitems, hfoot, hleaf⟩ :=
      ih fuel hin.kid.1 hdown (hin.kid.2.fits hm)
      hin.kid.2.ne_nil (by omega)
    refine ⟨leaf, par', e, es, r', F', ?_, hrec, hctx', ?_, ?_, hleaf⟩
    · refine run_bind_ok hin.isLeaf_run ?_
      exact run_bind_some (hin.getChild_run rfl) hrun
    · rw [hitems, hin.items]
      simp
    · rw [hfoot, hin.foot]
      simp only [Lefts.foot_nil, zero_add]
      abel

variable [LinearOrder K] {a : Nat} {es₁ es₂ : List (K × V)} {k : K} {v : V}

theorem deleteAt_spec (hrec : s.node a = ⟨es₁ ++ (k, v) :: es₂, par, []⟩) (hctx : Ctx s.node s.root m 0 par a l r F)
    (hnodup : ({a} + F).Nodup) (hcard : F.card ≤ s.nodes) (hinc : Increasing (l ++ (es₁ ++ es₂) ++ r))
    (hfits : Fits m par (s.node a)) (hm : MAX_ENTRY_SIZE ≤ m) :
    ∃ s' foot', (deleteAt ⟨es₁.length, some a⟩ : M K V _).run s = .ok (some v) s' ∧
      Whole s'.node s'.root m (l ++ (es₁ ++ es₂) ++ r) foot' ∧ foot' ≤ {a} + F ∧ s'.nodes = s.nodes ∧
        s'.size = s.size - 1 := by
  have hlen : (s.node a).entries.length = (es₁ ++ es₂).length + 1 := by
    rw [hrec, length_append, length_append, length_cons]
    omega
  have haF : ∀ n ∈ F, n ≠ a := by
    rintro n hn rfl
    exact notMem_of_nodup hnodup hn
  let s₁ : Heap K V := { s.set a ⟨es₁ ++ es₂, par, []⟩ with size := s.size - 1, modCount := s.modCount + 1 }
  have hrec₁ : s₁.node a = ⟨es₁ ++ es₂, par, []⟩ := Heap.set_node_self ..
  have hctx₁ : Ctx s₁.node s₁.root m 0 par a l r F := hctx.congr fun n hn => Heap.set_node_of_ne _ _ _ (haF n hn)
  have hsub₁ : Sub s₁.node 0 par ⟨a, es₁ ++ es₂, {a}⟩ := ⟨hrec₁, rfl⟩
  obtain ⟨s', foot', hrun, hwhole, hle, hnodes, hsize⟩ := rebalance_spec (s := s₁) (s.nodes + 1) hctx₁ hsub₁ hnodup hinc
    (fun hpar => by rw [hrec₁]; exact hlen ▸ (hfits.sized hpar).1)
      (fun hpar => by rw [hrec₁]; exact Nat.le_of_succ_le (hlen.ge.trans (hfits.sized hpar).2))
    (absurd rfl) (by rw [hrec₁]; exact Nat.le_of_succ_le (hlen.ge.trans hfits.small)) hm (Nat.lt_succ_of_le hcard)
  refine ⟨s', foot', ?_, hwhole, hle, hnodes, hsize⟩
  refine run_bind_ok (getOrThrow_run a) ?_
  refine run_bind_some (Node.getEntry_run hrec rfl) ?_
  refine run_bind_ok (Node.deleteEntry_run hrec rfl) ?_
  exact run_bind_ok rfl (run_bind_ok rfl (run_bind_ok hrun rfl))

/-- The entry of an inner node is swapped with its predecessor, the last entry of the last leaf in front of it. -/
theorem swapPredecessor_spec {L : Lefts K V} {R : Rights K V} {c d : Part K V}
    (hin : Inner s.node h par t L c (((k, v), d) :: R)) (hctx : Ctx s.node s.root m (h + 1) par t.addr l r F)
    (hfits : Fits m par (s.node t.addr)) (hnodup : (t.foot + F).Nodup) (hm : MAX_ENTRY_SIZE ≤ m) (hfuel : h < s.nodes) :
    ∃ s' leaf par' es l' r' F', (swapPredecessor t.addr ⟨L.length, some t.addr⟩ : M K V _).run s =
      .ok ⟨es.length, some leaf⟩ s' ∧
      s'.node leaf = ⟨es ++ [(k, v)], par', []⟩ ∧ Ctx s'.node s'.root m 0 par' leaf l' r' F' ∧
      l' ++ es ++ r' = l ++ (L.items ++ c.items ++ (d.items ++ R.items)) ++ r ∧ {leaf} + F' = t.foot + F ∧
      Fits m par' (s'.node leaf) ∧ s'.nodes = s.nodes ∧ s'.size = s.size := by
  have hfoot : t.foot = {t.addr} + (L.foot + c.foot + (d.foot + R.foot)) := by rw [hin.foot, Rights.foot_cons]
  have htmem (n : Nat) (hn : n ∈ L.foot + c.foot + (d.foot + R.foot) + F) : n ≠ t.addr := by
    rintro rfl
    rw [hfoot, add_assoc] at hnodup
    exact notMem_of_nodup hnodup hn
  -- the predecessor is the last entry below `c`
  obtain ⟨cs, e, hcs⟩ : ∃ cs e, c.items = cs ++ [e] := by
    rcases eq_nil_or_concat c.items with hnil | ⟨cs, e, hcs⟩
    · have hsub := hin.kid.1.entries_sublist
      rw [hnil, sublist_nil] at hsub
      exact absurd hsub hin.kid.2.ne_nil
    · exact ⟨cs, e, hcs.trans (concat_eq_append ..)⟩
  have hrec : s.node t.addr =
      ⟨L.map (·.2) ++ (k, v) :: R.map (·.1), par, L.map (·.1.addr) ++ c.addr :: d.addr :: R.map (·.2.addr)⟩ :=
    hin.record
  -- the node with the predecessor in place of the entry
  let s₁ := s.set t.addr ⟨L.map (·.2) ++ e :: R.map (·.1), par,
    L.map (·.1.addr) ++ c.addr :: d.addr :: R.map (·.2.addr)⟩
  have hkeep (n : Nat) (hn : n ∈ L.foot + c.foot + (d.foot + R.foot) + F) : s₁.node n = s.node n :=
    Heap.set_node_of_ne _ _ _ (htmem n hn)
  have hlen : (s₁.node t.addr).entries.length = (s.node t.addr).entries.length := by
    rw [hrec, Heap.set_node_self]
    simp
  have hin₁ : Inner s₁.node h par ⟨t.addr, L.items ++ c.items ++ Rights.items ((e, d) :: R), t.foot⟩ L c
      ((e, d) :: R) := by
    refine ⟨Heap.set_node_self .., ?_, rfl, hfoot.trans (by rw [Rights.foot_cons])⟩
    intro q hq
    refine (hin.kids q hq).congr fun n hn => hkeep n (mem_add.mpr (.inl ?_))
    have hle := foot_le_of_mem_kids hq
    rw [Rights.foot_cons] at hle
    exact mem_of_le hle hn
  have hctx₁ : Ctx s₁.node s₁.root m (h + 1) par t.addr l r F :=
    hctx.congr fun n hn => hkeep n (mem_add.mpr (.inr hn))
  have hne : (s₁.node t.addr).entries ≠ [] := by
    rw [Heap.set_node_self]
    simp
  have hfits₁ : Fits m par (s₁.node t.addr) := hfits.of_length hlen
  have hdown : Ctx s₁.node s₁.root m h (some t.addr) c.addr (l ++ L.items) (Rights.items ((e, d) :: R) ++ r)
      ({t.addr} + (L.foot + Rights.foot ((e, d) :: R)) + F) :=
    .child L c.addr ((e, d) :: R) hctx₁ hin₁.record hin₁.beside hfits₁ hne
  obtain ⟨leaf, par', es, e', l', F', hrun, hleaf, hctx', hitems, hfoot', hmem, hsized'⟩ :=
    rightmost_spec s.nodes hin.kid.1
    (fun n hn => hkeep n (by simp [hn])) hdown (hin.kid.2.fits hm) hin.kid.2.ne_nil hm hfuel
  obtain ⟨hitems, rfl⟩ : l' ++ es = l ++ L.items ++ cs ∧ e' = e := by
    rw [hcs, ← append_assoc] at hitems
    exact append_inj' hitems rfl |>.imp_right fun heq => (singleton_injective heq)
  have hlt : leaf ≠ t.addr := htmem leaf (by simp [hmem])
  have hall : {leaf} + F' = t.foot + F := by
    rw [add_comm, hfoot', hfoot, Rights.foot_cons]
    abel
  have hF' : ∀ n ∈ F', n ≠ leaf := by
    rintro n hn rfl
    rw [← hall] at hnodup
    exact notMem_of_nodup hnodup hn
  refine ⟨s₁.set leaf ⟨es ++ [(k, v)], par', []⟩, leaf, par', es, l', _, F', ?_, Heap.set_node_self ..,
    hctx'.congr fun n hn => Heap.set_node_of_ne _ _ _ (hF' n hn), ?_, hall, ?_, rfl, rfl⟩
  · have hpred : (predecessor ⟨L.length, some t.addr⟩ : M K V _).run s = .ok ⟨es.length, some leaf⟩ s := by
      refine run_bind_some rfl (run_bind_ok hin.isLeaf_run ?_)
      refine run_bind_some (hin.getChild_run rfl) (run_bind_ok hrun ?_)
      refine run_bind_ok (Node.entrySize_run hleaf) ?_
      rw [length_append, length_singleton, Nat.cast_succ, Int.add_sub_cancel]
      rfl
    refine run_bind_ok hpred ?_
    refine run_bind_some (Node.getEntry_run hrec (by simp)) ?_
    refine run_bind_some (Node.getEntry_run hleaf rfl) ?_
    refine run_bind_ok (Node.resetEntry_run hrec (by simp)) ?_
    exact run_bind_ok (Node.resetEntry_run (node_set hleaf hlt) rfl) rfl
  · rw [hitems, hcs]
    simp
  · refine hsized'.of_length ?_
    rw [Heap.set_node_self, hleaf, length_append, length_append]
    rfl

/-- An entry below `t` is deleted. -/
theorem deleteEntry_spec (fuel : Nat) (hctx : Ctx s.node s.root m h par t.addr l r F) (hsub : Sub s.node h par t)
    (hnodup : (t.foot + F).Nodup) (hlt : ∀ n ∈ t.foot + F, n < s.nodes) (hinc : Increasing (l ++ t.items ++ r))
    (hfits : Fits m par (s.node t.addr)) (hfilled : h ≠ 0 → (s.node t.addr).entries ≠ [])
    (hk : t.items.lookup k = some v) (hm : MAX_ENTRY_SIZE ≤ m) (hfuel : h < fuel) :
    ∃ s' foot', (deleteEntry fuel t.addr k).run s = .ok (some v) s' ∧
      Whole s'.node s'.root m (erase k (l ++ t.items ++ r)) foot' ∧
      foot' ≤ t.foot + F ∧ s'.nodes = s.nodes ∧ s'.size = s.size - 1 := by
  have hcard : (t.foot + F).card ≤ s.nodes := card_le_of_allocated hnodup hlt
  induction h generalizing par t l r F fuel with
  | zero =>
    obtain ⟨fuel, rfl⟩ : ∃ j, fuel = j + 1 := ⟨fuel - 1, by omega⟩
    have hitems : Increasing t.items := (increasing_append.mp (increasing_append.mp hinc).1).2.1
    obtain ⟨es₁, es₂, hes⟩ := hitems.exists_of_lookup hk
    have hrec : s.node t.addr = ⟨es₁ ++ (k, v) :: es₂, par, []⟩ := by rw [hsub.1, hes]
    have hsplit : l ++ t.items ++ r = (l ++ es₁) ++ (k, v) :: (es₂ ++ r) := by rw [hes]; simp
    rw [hsplit] at hinc ⊢
    obtain ⟨-, -, hl, hr⟩ := increasing_middle.mp hinc
    have hjoin : l ++ es₁ ++ (es₂ ++ r) = l ++ (es₁ ++ es₂) ++ r := by simp
    rw [erase_middle hl hr, hjoin]
    have hinc' : Increasing (l ++ (es₁ ++ es₂) ++ r) := by
      rw [← hjoin]
      exact hinc.sublist ((sublist_cons_self _ _).append_left _)
    have hfoot : t.foot = {t.addr} := hsub.2
    rw [hfoot] at hnodup hcard ⊢
    have hF : F.card ≤ s.nodes := by
      rw [card_add] at hcard
      omega
    obtain ⟨s', foot', hrun, hrest⟩ := deleteAt_spec hrec hctx hnodup hF hinc' hfits hm
    refine ⟨s', foot', ?_, hrest⟩
    refine run_bind_ok (Node.searchEntry_present (l := es₁) (r := es₂) (v := v) (by rw [hrec]) ?_ ?_) ?_
    · exact fun e he => hl e (mem_append_right _ he)
    · exact fun e he => hr e (mem_append_left _ he)
    · exact run_bind_ok (Node.isLeaf_run hrec) hrun
  | succ h ih =>
    obtain ⟨fuel, rfl⟩ : ∃ j, fuel = j + 1 := ⟨fuel - 1, by omega⟩
    have hitems : Increasing t.items := (increasing_append.mp (increasing_append.mp hinc).1).2.1
    have hcard' := hsub.lt_card
    rw [card_add] at hcard
    rcases hsub.locate hitems k with ⟨L, c, w, d, R, hin, hsearch⟩ | ⟨L, c, R, hin, hL, hR, hsearch⟩
    · -- the entry is in this node
      have hsplit : l ++ t.items ++ r = (l ++ (L.items ++ c.items)) ++ (k, w) :: (d.items ++ R.items ++ r) := by
        rw [hin.items]
        simp
      rw [hsplit] at hinc ⊢
      obtain ⟨-, -, hl, hr⟩ := increasing_middle.mp hinc
      have hw : w = v := by
        rw [hin.items, Rights.items_cons, cons_append, lookup_middle fun e he => hl e (mem_append_right _ he)] at hk
        exact Option.some.inj hk
      subst hw
      obtain ⟨s₁, leaf, par', es, l', r', F', hswap, hrec, hctx', hsame, hfoot, hleaf, hnodes, hsize⟩ :=
        swapPredecessor_spec hin hctx hfits hnodup hm (by omega)
      have hrest : l' ++ es ++ r' = (l ++ (L.items ++ c.items)) ++ (d.items ++ R.items ++ r) := by
        rw [hsame]
        simp
      have hinc' : Increasing (l' ++ (es ++ []) ++ r') := by
        rw [append_nil, hrest]
        exact hinc.sublist ((sublist_cons_self _ _).append_left _)
      have hF : F'.card ≤ s₁.nodes := by
        have hcardF := congrArg card hfoot
        rw [card_add, card_add] at hcardF
        omega
      obtain ⟨s', foot', hrun, hwhole, hle, hnodes', hsize'⟩ :=
        deleteAt_spec hrec hctx' (hfoot ▸ hnodup) hF hinc' hleaf hm
      rw [append_nil, hrest, ← erase_middle (v := w) hl hr] at hwhole
      refine ⟨s', foot', ?_, hwhole, hle.trans hfoot.le, hnodes'.trans hnodes, hsize'.trans (by rw [hsize])⟩
      exact run_bind_ok hsearch (run_bind_ok hin.isLeaf_run (run_bind_ok hswap hrun))
    · -- the entry is below a child
      have hdown := hctx.down hin hfits (hfilled (Nat.succ_ne_zero h))
      have hsplit : l ++ t.items ++ r = l ++ L.items ++ c.items ++ (R.items ++ r) := by
        rw [hin.items]
        simp
      have hfoot : c.foot + ({t.addr} + (L.foot + R.foot) + F) = t.foot + F := by
        rw [hin.foot]
        abel
      rw [hsplit] at hinc ⊢
      rw [← hfoot] at hnodup hlt ⊢
      rw [hin.items, lookup_around hL hR] at hk
      have hcard'' : (c.foot + ({t.addr} + (L.foot + R.foot) + F)).card ≤ s.nodes := by
        rw [hfoot, card_add]
        exact hcard
      obtain ⟨s', foot', hrun, hrest⟩ :=
        ih fuel hdown hin.kid.1 hnodup hlt hinc (hin.kid.2.fits hm) (fun _ => hin.kid.2.ne_nil) hk
        (by omega) hcard''
      exact ⟨s', foot', run_bind_ok hsearch (run_bind_some (hin.getChild_run rfl) hrun), hrest⟩

/-! ## Whole calls -/

variable {items : List (K × V)}

omit [LinearOrder K] in
theorem Whole.rootFilled (hwhole : Whole s.node s.root m items foot) : RootFilled s := by
  obtain ⟨H, hsub, hfilled⟩ := hwhole
  cases H with
  | zero =>
    refine .inl ?_
    rw [hsub.1]
  | succ H => exact .inr (hfilled.1 (Nat.succ_ne_zero H))

omit [LinearOrder K] in
theorem Whole.small (hwhole : Whole s.node s.root m items foot) : (s.node s.root).entries.length ≤ m := by
  obtain ⟨H, -, -, hsmall⟩ := hwhole
  exact hsmall

/-- A whole tree on nodes of a valid map, with one entry less. -/
theorem Whole.valid {foot foot' : Multiset Nat} {items' : List (K × V)} (hwhole : Whole s'.node s'.root m items' foot')
    (hle : foot' ≤ foot) (hnodup : foot.Nodup) (hlt : ∀ n ∈ foot, n < s.nodes) (hnodes : s'.nodes = s.nodes)
    (hinc : Increasing items') (hsize : s'.size = items'.length) : Valid s' items' := by
  obtain ⟨H, hsub, -⟩ := hwhole
  refine ⟨⟨H, foot', hsub, nodup_of_le hle hnodup, ?_⟩, hinc, hsize⟩
  intro n hn
  rw [hnodes]
  exact hlt n (mem_of_le hle hn)

omit [LinearOrder K] in
/-- In a filled tree of height `H` the root has no entry only if there is none at all. -/
theorem entries_eq_nil_iff {H : Nat} (hsub : Sub s.node H none ⟨s.root, items, foot⟩) (hroot : RootFilled s) :
    (s.node s.root).entries = [] ↔ items = [] := by
  cases H with
  | zero => rw [hsub.1]
  | succ H =>
    have hne : (s.node s.root).entries ≠ [] := by
      rcases hroot with hleaf | hne
      · obtain ⟨L, c, R, hin⟩ := sub_succ.mp hsub
        have hrec : s.node s.root = inner L c.addr R none := hin.record
        rw [hrec] at hleaf
        simp [inner] at hleaf
      · exact hne
    refine ⟨fun hnil => absurd hnil hne, fun hnil => ?_⟩
    have hsublist := hsub.entries_sublist
    dsimp only at hsublist
    rw [hnil] at hsublist
    exact sublist_nil.mp hsublist

theorem length_erase_of_lookup (hinc : Increasing items) (hk : items.lookup k = some v) :
    ((erase k items).length : Int) = items.length - 1 := by
  obtain ⟨l, r, rfl⟩ := hinc.exists_of_lookup hk
  obtain ⟨-, -, hl, hr⟩ := increasing_middle.mp hinc
  rw [erase_middle hl hr, length_append, length_append, length_cons]
  omega

/-- `remove` takes out the key, and nothing else. -/
theorem remove_spec (hvalid : Valid s items) (hroot : RootFilled s) (hm : MAX_ENTRY_SIZE ≤ m)
    (hsmall : (s.node s.root).entries.length ≤ m) (k : K) :
    ∃ s', (remove k).run s = .ok (items.lookup k) s' ∧ Valid s' (erase k items) ∧ RootFilled s' ∧
      (s'.node s'.root).entries.length ≤ m ∧ (items.lookup k = none → s' = s) := by
  obtain ⟨H, foot, hsub, hnodup, hlt⟩ := hvalid.tree
  have hempty := entries_eq_nil_iff hsub hroot
  cases hk : items.lookup k with
  | none =>
    refine ⟨s, ?_, by rw [erase_of_lookup_none hk]; exact hvalid, hroot, hsmall, fun _ => rfl⟩
    refine run_bind_ok rfl ?_
    by_cases hnil : (s.node s.root).entries.length = 0
    · rw [if_pos (decide_eq_true hnil)]
      rfl
    · rw [if_neg (by simpa using hnil)]
      refine run_bind_ok (getValue_spec hvalid k) ?_
      rw [hk]
      rfl
  | some v =>
    have hne : (s.node s.root).entries ≠ [] := by
      intro hnil
      rw [hempty.mp hnil] at hk
      exact absurd hk nofun
    have hitems : [] ++ items ++ [] = items := append_nil _
    have hfuel : H < s.nodes + 1 := Nat.lt_succ_of_le (hsub.lt_card.le.trans (card_le_of_allocated hnodup hlt))
    obtain ⟨s', foot', hrun, hwhole, hle, hnodes, hsize⟩ := deleteEntry_spec (s.nodes + 1) (Ctx.top H) hsub
      (by rw [add_zero]; exact hnodup) (by rw [add_zero]; exact hlt) (by rw [hitems]; exact hvalid.increasing)
        ⟨absurd rfl, hsmall⟩
      (fun _ => hne) hk hm hfuel
    rw [add_zero] at hle
    dsimp only at hwhole
    rw [hitems] at hwhole
    refine ⟨s', ?_, ?_, hwhole.rootFilled, hwhole.small, nofun⟩
    · refine run_bind_ok rfl ?_
      rw [if_neg (by simpa using hne)]
      refine run_bind_ok (getValue_spec hvalid k) ?_
      rw [hk]
      exact run_bind_ok rfl (run_bind_ok rfl hrun)
    · refine hwhole.valid hle hnodup hlt hnodes (hvalid.increasing.sublist filter_sublist) ?_
      rw [hsize, hvalid.size, length_erase_of_lookup hvalid.increasing hk]

/-- An entry at the end of a leaf is deleted through the leaf. -/
theorem deleteEntry_leaf {leaf : Nat} {es : List (K × V)} {e : K × V} (hvalid : Valid s items)
    (hnodup : foot.Nodup) (hlt : ∀ n ∈ foot, n < s.nodes) (hrec : s.node leaf = ⟨es, par, []⟩)
    (hctx : Ctx s.node s.root m 0 par leaf l r F) (hitems : l ++ es ++ r = items) (hfoot : {leaf} + F = foot)
    (hfits : Fits m par (s.node leaf)) (hm : MAX_ENTRY_SIZE ≤ m) (he : e ∈ es) :
    ∃ s', (deleteEntry (s.nodes + 1) leaf e.1).run s = .ok (some e.2) s' ∧ Valid s' (erase e.1 items) ∧
      RootFilled s' := by
  have hinc : Increasing es := by
    have hall := hvalid.increasing
    rw [← hitems] at hall
    exact (increasing_append.mp (increasing_append.mp hall).1).2.1
  have hlookup : es.lookup e.1 = some e.2 := by
    obtain ⟨es₁, es₂, hes⟩ := append_of_mem he
    rw [hes] at hinc ⊢
    exact lookup_middle (increasing_middle.mp hinc).2.2.1
  have hall : items.lookup e.1 = some e.2 := by
    obtain ⟨es₁, es₂, hes⟩ := append_of_mem he
    have hincr := hvalid.increasing
    have hsplit : items = (l ++ es₁) ++ e :: (es₂ ++ r) := by rw [← hitems, hes]; simp
    rw [hsplit] at hincr ⊢
    exact lookup_middle (increasing_middle.mp hincr).2.2.1
  obtain ⟨s', foot', hrun, hwhole, hle, hnodes, hsize⟩ :=
    deleteEntry_spec (t := ⟨leaf, es, {leaf}⟩) (s.nodes + 1) hctx ⟨hrec, rfl⟩
    (by rw [hfoot]; exact hnodup) (by rw [hfoot]; exact hlt) (by rw [hitems]; exact hvalid.increasing) hfits
      (absurd rfl) hlookup
    hm (Nat.succ_pos _)
  dsimp only at hwhole hle
  rw [hitems] at hwhole
  rw [hfoot] at hle
  refine ⟨s', hrun, ?_, hwhole.rootFilled⟩
  refine hwhole.valid hle hnodup hlt hnodes (hvalid.increasing.sublist filter_sublist) ?_
  rw [hsize, hvalid.size, length_erase_of_lookup hvalid.increasing hall]

/-- `removeFirst` takes out the first entry. -/
theorem removeFirst_spec (hvalid : Valid s items) (hroot : RootFilled s) :
    ∃ s', (removeFirst : M K V _).run s = .ok items.head? s' ∧ Valid s' items.tail ∧ RootFilled s' ∧
    (items = [] → s' = s) := by
  obtain ⟨H, foot, hsub, hnodup, hlt⟩ := hvalid.tree
  have hempty := entries_eq_nil_iff hsub hroot
  by_cases hnil : items = []
  · have hfirst : (getFirstEntry : M K V _).run s = .ok ⟨-1, none⟩ s := by
      refine run_bind_ok rfl (run_bind_ok rfl ?_)
      rw [hempty.mpr hnil]
      rfl
    subst hnil
    exact ⟨s, run_bind_ok hfirst rfl, hvalid, hroot, fun _ => rfl⟩
  · have hne : (s.node s.root).entries ≠ [] := fun h => hnil (hempty.mp h)
    have hfuel : H < s.nodes := hsub.lt_card.trans_le (card_le_of_allocated hnodup hlt)
    obtain ⟨leaf, par, e, es, r, F, hrun, hrec, hctx, hitems, hfoot, hsized⟩ :=
      firstLeaf_spec (m := max MAX_ENTRY_SIZE _) s.nodes
      hsub (Ctx.top H) ⟨absurd rfl, le_max_right _ _⟩ hne (le_max_left _ _) hfuel
    rw [add_zero] at hfoot
    rw [append_nil] at hitems
    dsimp only at hitems
    obtain ⟨s', hdel, hvalid', hroot'⟩ :=
      deleteEntry_leaf hvalid hnodup hlt hrec hctx hitems hfoot hsized (le_max_left _ _) (mem_cons_self ..)
    have herase : erase e.1 items = items.tail := by
      have hinc := hvalid.increasing
      rw [← hitems] at hinc ⊢
      have hmid : Increasing ([] ++ e :: (es ++ r)) := hinc
      exact erase_middle (l := []) nofun (increasing_middle.mp hmid).2.2.2
    rw [herase] at hvalid'
    refine ⟨s', ?_, hvalid', hroot', fun h => absurd h hnil⟩
    have hfirst : (getFirstEntry : M K V _).run s = .ok ⟨0, some leaf⟩ s := by
      refine run_bind_ok rfl (run_bind_ok rfl ?_)
      rw [if_neg (by simpa using hne)]
      exact run_bind_ok hrun rfl
    have hhead : items.head? = some e := by rw [← hitems]; rfl
    rw [hhead]
    refine run_bind_ok hfirst ?_
    refine run_bind_some (Node.getEntry_run (l := []) hrec rfl) ?_
    exact run_bind_ok rfl (run_bind_ok hdel rfl)

/-- `removeLast` takes out the last entry. -/
theorem removeLast_spec (hvalid : Valid s items) (hroot : RootFilled s) :
    ∃ s', (removeLast : M K V _).run s = .ok items.getLast? s' ∧ Valid s' items.dropLast ∧ RootFilled s' ∧
    (items = [] → s' = s) := by
  obtain ⟨H, foot, hsub, hnodup, hlt⟩ := hvalid.tree
  have hempty := entries_eq_nil_iff hsub hroot
  by_cases hnil : items = []
  · have hlast : (getLastEntry : M K V _).run s = .ok ⟨-1, none⟩ s := by
      refine run_bind_ok rfl (run_bind_ok rfl ?_)
      rw [hempty.mpr hnil]
      rfl
    subst hnil
    exact ⟨s, run_bind_ok hlast rfl, hvalid, hroot, fun _ => rfl⟩
  · have hne : (s.node s.root).entries ≠ [] := fun h => hnil (hempty.mp h)
    have hfuel : H < s.nodes := hsub.lt_card.trans_le (card_le_of_allocated hnodup hlt)
    obtain ⟨leaf, par, es, e, l, F, hrun, hrec, hctx, hitems, hfoot, -, hsized⟩ :=
      rightmost_spec (m := max MAX_ENTRY_SIZE _) s.nodes
      hsub (fun _ _ => rfl) (Ctx.top H) ⟨absurd rfl, le_max_right _ _⟩ hne (le_max_left _ _) hfuel
    rw [zero_add, add_comm] at hfoot
    rw [nil_append] at hitems
    dsimp only at hitems
    have hitems' : l ++ (es ++ [e]) ++ [] = items := by rw [← hitems]; simp
    obtain ⟨s', hdel, hvalid', hroot'⟩ :=
      deleteEntry_leaf hvalid hnodup hlt hrec hctx hitems' hfoot hsized (le_max_left _ _) (e := e) (by simp)
    have herase : erase e.1 items = items.dropLast := by
      have hinc := hvalid.increasing
      rw [← hitems] at hinc ⊢
      rw [erase_middle (r := []) (increasing_middle.mp hinc).2.2.1 nofun, append_nil, dropLast_concat]
    rw [herase] at hvalid'
    refine ⟨s', ?_, hvalid', hroot', fun h => absurd h hnil⟩
    have hlast : (getLastEntry : M K V _).run s = .ok ⟨es.length, some leaf⟩ s := by
      refine run_bind_ok rfl (run_bind_ok rfl ?_)
      rw [if_neg (by simpa using hne)]
      refine run_bind_ok ((lastLeaf_eq s.nodes hsub).trans hrun) (run_bind_ok (Node.entrySize_run hrec) ?_)
      rw [length_append, length_singleton, Nat.cast_succ, Int.add_sub_cancel]
      rfl
    have hget : items.getLast? = some e := by rw [← hitems, getLast?_concat]
    rw [hget]
    refine run_bind_ok hlast ?_
    refine run_bind_some (Node.getEntry_run hrec rfl) ?_
    exact run_bind_ok rfl (run_bind_ok hdel rfl)

/-- Removal preserves the B-tree and takes out exactly one key. -/
theorem remove_preserves_tree (hvalid : Valid s items) (hroot : RootFilled s) :
    (∀ k, ∃ s', (remove k).run s = .ok (items.lookup k) s' ∧ Valid s' (erase k items) ∧ RootFilled s' ∧
      (items.lookup k = none → s' = s)) ∧
    (∃ s', (removeFirst : M K V _).run s = .ok items.head? s' ∧ Valid s' items.tail ∧ RootFilled s' ∧
      (items = [] → s' = s)) ∧
    ∃ s', (removeLast : M K V _).run s = .ok items.getLast? s' ∧ Valid s' items.dropLast ∧ RootFilled s' ∧
    (items = [] → s' = s) := by
  refine ⟨fun k => ?_, removeFirst_spec hvalid hroot, removeLast_spec hvalid hroot⟩
  obtain ⟨s', hrun, hvalid', hroot', -, hsame⟩ :=
    remove_spec (m := max MAX_ENTRY_SIZE _) hvalid hroot (le_max_left _ _) (le_max_right _ _) k
  exact ⟨s', hrun, hvalid', hroot', hsame⟩

end Remove

section Sample

/-- Entries with the keys from `n` on. -/
def sampleEntries (n count : Nat) : List (Nat × Nat) := (List.range' n count).map fun k => (k, 10 * k)

/-- A root with two leaves, of which neither has an entry to spare. -/
def sampleTree : Heap Nat Nat where
  node := fun
    | 0 => ⟨[(5, 50)], none, [1, 2]⟩
    | 1 => ⟨sampleEntries 0 5, some 0, []⟩
    | 2 => ⟨sampleEntries 6 5, some 0, []⟩
    | _ => ⟨[], none, []⟩
  nodes := 3
  root := 0
  size := 11
  modCount := 11

theorem sampleTree_valid : Valid sampleTree (sampleEntries 0 11) := by
  refine ⟨⟨1, {0, 1, 2},
    sub_succ.mpr ⟨[(⟨1, sampleEntries 0 5, {1}⟩, (5, 50))], ⟨2, sampleEntries 6 5, {2}⟩, [], rfl, ?_, rfl, ?_⟩, ?_,
    ?_⟩, ?_, rfl⟩
  · intro p hp
    rcases mem_cons.mp hp with rfl | hp
    · exact ⟨⟨rfl, rfl⟩, by decide⟩
    · rw [List.mem_singleton.mp hp]
      exact ⟨⟨rfl, rfl⟩, by decide⟩
  · decide
  · decide
  · decide
  · unfold Increasing
    decide

/-- The first entry is removed: the two leaves are merged and become the root. -/
theorem remove_preserves_tree_sample :
    Valid sampleTree (sampleEntries 0 11) ∧ RootFilled sampleTree ∧
      ∃ s', (removeFirst : M Nat Nat _).run sampleTree = .ok (some (0, 0)) s' ∧ Valid s' (sampleEntries 1 10) := by
  have hroot : RootFilled sampleTree := .inr nofun
  obtain ⟨-, ⟨s', hrun, hvalid, -⟩, -⟩ := remove_preserves_tree sampleTree_valid hroot
  exact ⟨sampleTree_valid, hroot, s', hrun, hvalid⟩

/-- A root without entries above one leaf. -/
def hollowTree : Heap Nat Nat where
  node := fun
    | 0 => ⟨[], none, [1]⟩
    | 1 => ⟨sampleEntries 0 5, some 0, []⟩
    | _ => ⟨[], none, []⟩
  nodes := 2
  root := 0
  size := 5
  modCount := 5

/-- Under a root without entries nothing is found: all conditions on nodes other than the root hold, and the key 2 is
    present, but `remove` takes the map for empty. -/
theorem remove_misses_key :
    Valid hollowTree (sampleEntries 0 5) ∧ (sampleEntries 0 5).lookup 2 = some 20 ∧
      (remove 2 : M Nat Nat _).run hollowTree = .ok none hollowTree := by
  refine ⟨⟨⟨1, {0, 1}, sub_succ.mpr ⟨[], ⟨1, sampleEntries 0 5, {1}⟩, [], rfl, ?_, rfl, ?_⟩, ?_, ?_⟩, ?_, rfl⟩, rfl,
    rfl⟩
  · intro p hp
    rw [List.mem_singleton.mp hp]
    exact ⟨⟨rfl, rfl⟩, by decide⟩
  · decide
  · decide
  · decide
  · unfold Increasing
    decide

end Sample

end CangjieRuntime.TreeMap
