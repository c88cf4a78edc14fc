import CangjieRuntime.Collection.Correctness.TreeIteration

/-!
# `Collection.Correctness.TreeAdd` — addition, with the splitting of full nodes on the way down
-/

namespace CangjieRuntime.TreeMap

open Assoc Function List Multiset

variable {K V : Type} {s s' : Heap K V}

/-! ## Splitting -/

section Split

variable {b c n p : Nat} {i : Int} {pc par : Option Nat} {mid : K × V} {as bs es es₁ es₂ : List (K × V)}
  {cs cs₁ cs₂ xs ys : List Nat}

/-- The loop that adds entries to the right node, behind those of `d`. -/
theorem addEntries_loop {d rest : List (K × V)} (hn : s.node n = ⟨es, par, cs⟩) :
    ((range' d.length rest.length).forM fun (i : Nat) => do
      setEntries n (((← get).node n).entries ++ [← arrayAt (d ++ rest) i]) :
      M K V Unit).run s = .ok () (s.set n ⟨es ++ rest, par, cs⟩) := by
  induction rest generalizing s d es with
  | nil =>
    have hsame : s.set n ⟨es ++ [], par, cs⟩ = s := by
      unfold Heap.set
      rw [append_nil, ← hn, update_eq_self]
    rw [hsame]
    rfl
  | cons e rest ih =>
    rw [List.length_cons, List.range'_succ, List.forM]
    refine run_bind_ok (run_bind_ok rfl (run_bind_ok (arrayAt_run rfl) (Node.setEntries_run hn _))) ?_
    have hrun := ih (d := d ++ [e]) (Heap.set_node_self s n ⟨es ++ [e], par, cs⟩)
    rw [Heap.set_set, append_assoc, append_assoc, length_append] at hrun
    rw [hn]
    exact hrun

theorem splitEntries_run (hn : s.node n = ⟨[], par, cs⟩) (hc : s.node c = ⟨as ++ mid :: bs, pc, xs⟩) (hnc : n ≠ c)
    (has : as.length = DEGREE - 1) (hbs : bs.length = DEGREE - 1) :
    (splitEntries n c : M K V _).run s = .ok mid ((s.set n ⟨bs, par, cs⟩).set c ⟨as, pc, xs⟩) := by
  refine run_bind_ok rfl ?_
  rw [hc]
  have hadd : ((range' (as ++ [mid]).length bs.length).forM fun (i : Nat) => do
      setEntries n (((← get).node n).entries ++ [← arrayAt (as ++ [mid] ++ bs) i]) : M K V Unit).run s =
        .ok () (s.set n ⟨[] ++ bs, par, cs⟩) := addEntries_loop hn
  rw [append_assoc, length_append, length_singleton, has, hbs] at hadd
  refine run_bind_ok hadd (run_bind_ok (arrayAt_run (by rw [has])) ?_)
  have hdel := deleteEntries_loop (node_set (x := ⟨bs, par, cs⟩) hc hnc.symm)
  rw [length_cons, has, hbs] at hdel
  exact run_bind_ok hdel rfl

/-- The loop that adds children to the right node, behind those of `d`. -/
theorem addChildren_loop {d rest : List Nat} (hn : s.node n = ⟨es, par, cs⟩) (hrest : n ∉ rest) :
    ∃ s', ((range' d.length rest.length).forM fun (i : Nat) => do
        let child ← arrayAt (d ++ rest) i
        setChildren n (((← get).node n).children ++ [child])
        setParent child (some n) : M K V Unit).run s = .ok () s' ∧ Adopts s s' n es par cs rest := by
  induction rest generalizing s d cs with
  | nil => exact ⟨s, rfl, .nil hn⟩
  | cons c rest ih =>
    rw [List.mem_cons, not_or] at hrest
    obtain ⟨s', hrun, hadopts⟩ := ih (d := d ++ [c]) (node_set (Heap.set_node_self ..) hrest.1) hrest.2
    refine ⟨s', ?_, hadopts.cons hrest.1 hrest.2⟩
    rw [List.length_cons, List.range'_succ, List.forM]
    have hadd : (setChildren n ((s.node n).children ++ [c]) : M K V Unit).run s =
        .ok () (s.set n ⟨es, par, cs ++ [c]⟩) := by
      rw [hn]
      exact Node.setChildren_run hn _
    refine run_bind_ok (run_bind_ok (arrayAt_run rfl) (run_bind_ok rfl (run_bind_ok hadd
      (Node.setParent_run (node_set rfl (Ne.symm hrest.1)) _)))) ?_
    rw [append_assoc, length_append] at hrun
    exact hrun

theorem deleteChildren_loop {d rest : List Nat} (hc : s.node c = ⟨es, pc, d ++ rest⟩) :
    ((range' d.length rest.length).reverse.forM fun (i : Nat) => Node.deleteChild c i : M K V Unit).run s =
      .ok () (s.set c ⟨es, pc, d⟩) := by
  refine delete_loop (g := fun cs => ⟨es, pc, cs⟩) (fun s l a hl => ?_) hc
  rw [Node.deleteChild_run hl rfl, append_nil]

/-- The children of a full node: none, or twice the degree. -/
def Halves (xs ys : List Nat) : Prop := xs = [] ∧ ys = [] ∨ xs.length = DEGREE ∧ ys.length = DEGREE

theorem splitChildren_run (hn : s.node n = ⟨bs, par, []⟩) (hc : s.node c = ⟨as, pc, xs ++ ys⟩) (hnc : n ≠ c)
    (hnys : n ∉ ys) (hcys : c ∉ ys) (hhalves : Halves xs ys) :
    ∃ s', (splitChildren n c : M K V Unit).run s = .ok () s' ∧ s'.node c = ⟨as, pc, xs⟩ ∧ s'.node n = ⟨bs, par, ys⟩ ∧
      (∀ d ∈ ys, s'.node d = { s.node d with parent := some n }) ∧
      (∀ a, a ≠ c → a ≠ n → a ∉ ys → s'.node a = s.node a) ∧ s'.nodes = s.nodes ∧ s'.root = s.root ∧
        s'.size = s.size := by
  rcases hhalves with ⟨rfl, rfl⟩ | ⟨hxs, hys⟩
  · exact ⟨s, run_bind_ok (Node.isLeaf_run hc) rfl, hc, hn, nofun, fun _ _ _ _ => rfl, rfl, rfl, rfl⟩
  · obtain ⟨s', hrun, hn', hmoved, hkeep, hsame⟩ := addChildren_loop (d := xs) hn hnys
    rw [hxs, hys] at hrun
    have hc' : s'.node c = ⟨as, pc, xs ++ ys⟩ := (hkeep c hnc.symm hcys).trans hc
    have hdel := deleteChildren_loop hc'
    rw [hxs, hys] at hdel
    refine ⟨s'.set c ⟨as, pc, xs⟩, ?_, Heap.set_node_self .., node_set hn' hnc, ?_, ?_, hsame⟩
    · refine run_bind_ok (Node.isLeaf_run hc) ?_
      rw [decide_eq_false (by rw [length_append, hxs]; exact Nat.ne_of_gt (Nat.add_pos_left (by decide) _))]
      refine run_bind_ok rfl ?_
      rw [hc]
      exact run_bind_ok hrun hdel
    · intro d hd
      refine node_set (hmoved d hd) ?_
      rintro rfl
      exact hcys hd
    · intro a hac han hays
      exact node_set (hkeep a han hays) hac

variable [LinearOrder K]

theorem splitNode_run (hp : s.node p = ⟨es₁ ++ es₂, par, cs₁ ++ c :: cs₂⟩)
    (hc : s.node c = ⟨as ++ mid :: bs, pc, xs ++ ys⟩) (has : as.length = DEGREE - 1) (hbs : bs.length = DEGREE - 1)
    (hhalves : Halves xs ys) (hpc : p ≠ c) (hpys : p ∉ ys) (hcys : c ∉ ys) (hpn : p ≠ s.nodes) (hcn : c ≠ s.nodes)
    (hysn : s.nodes ∉ ys) (hl : Below mid.1 es₁) (hr : Above mid.1 es₂) (hi : i = cs₁.length) :
    ∃ s', (splitNode p c i).run s = .ok () s' ∧ s'.node p = ⟨es₁ ++ mid :: es₂, par, cs₁ ++ c :: s.nodes :: cs₂⟩ ∧
      s'.node c = ⟨as, pc, xs⟩ ∧ s'.node s.nodes = ⟨bs, some p, ys⟩ ∧
      (∀ d ∈ ys, s'.node d = { s.node d with parent := some s.nodes }) ∧
      (∀ a, a ≠ p → a ≠ c → a ≠ s.nodes → a ∉ ys → s'.node a = s.node a) ∧
      s'.nodes = s.nodes + 1 ∧ s'.root = s.root ∧ s'.size = s.size := by
  let s₁ : Heap K V := { s with node := update s.node s.nodes ⟨[], some p, []⟩, nodes := s.nodes + 1 }
  have hold (a : Nat) (ha : a ≠ s.nodes) : s₁.node a = s.node a := update_of_ne ha ..
  have hn₁ : s₁.node s.nodes = ⟨[], some p, []⟩ := update_self ..
  have hentries := splitEntries_run hn₁ ((hold c hcn).trans hc) hcn.symm has hbs
  obtain ⟨s₂, hchildren, hc₂, hn₂, hmoved, hkeep, hnodes, hroot, hsize⟩ := splitChildren_run
    (s := (s₁.set s.nodes ⟨bs, some p, []⟩).set c ⟨as, pc, xs ++ ys⟩) (node_set (Heap.set_node_self ..) hcn.symm)
    (Heap.set_node_self ..) hcn.symm hysn hcys hhalves
  have hstay (a : Nat) (hac : a ≠ c) (han : a ≠ s.nodes) (hays : a ∉ ys) : s₂.node a = s.node a :=
    (hkeep a hac han hays).trans (node_set (node_set (hold a han) han) hac)
  have hp₂ : s₂.node p = ⟨es₁ ++ es₂, par, cs₁ ++ c :: cs₂⟩ := (hstay p hpc hpn hpys).trans hp
  have hp₂' : (s₂.set p ⟨es₁ ++ mid :: es₂, par, cs₁ ++ c :: cs₂⟩).node p =
      ⟨es₁ ++ mid :: es₂, par, (cs₁ ++ [c]) ++ cs₂⟩ := by
    rw [Heap.set_node_self, append_assoc]
    rfl
  refine ⟨s₂.set p ⟨es₁ ++ mid :: es₂, par, cs₁ ++ c :: s.nodes :: cs₂⟩, ?_, Heap.set_node_self ..,
    node_set hc₂ hpc.symm, node_set hn₂ hpn.symm, ?_, ?_, hnodes, hroot, hsize⟩
  · refine run_bind_ok (show (Node.new (some p) : M K V Nat).run s = .ok s.nodes s₁ from rfl) ?_
    refine run_bind_ok hentries (run_bind_ok hchildren (run_bind_ok (Node.insertEntry_run hp₂ hl hr) ?_))
    have hinsert := Node.insertChild_run (c := s.nodes) (i := i + 1) hp₂' (by simp [hi])
    rw [Heap.set_set, append_assoc] at hinsert
    exact hinsert
  · intro d hd
    have hdp : d ≠ p := by
      rintro rfl
      exact hpys hd
    have hdc : d ≠ c := by
      rintro rfl
      exact hcys hd
    have hdn : d ≠ s.nodes := by
      rintro rfl
      exact hysn hd
    refine node_set ?_ hdp
    rw [hmoved d hd, node_set (node_set (hold d hdn) hdn) hdc]
  · intro a hap hac han hays
    exact node_set (hstay a hac han hays) hap

end Split

/-- What `splitNode` has made of a full child `c`: two subtrees, with the middle entry between them. -/
structure Split (s s' : Heap K V) (h p : Nat) (par : Option Nat) (L : Lefts K V) (c : Part K V) (R : Rights K V)
    (x : Part K V) (mid : K × V) (y : Part K V) : Prop where
  addr_left : x.addr = c.addr
  addr_right : y.addr = s.nodes
  left : Sub s'.node h (some p) x
  right : Sub s'.node h (some p) y
  length_left : (s'.node x.addr).entries.length = DEGREE - 1
  length_right : (s'.node y.addr).entries.length = DEGREE - 1
  items : c.items = x.items ++ mid :: y.items
  foot : x.foot + y.foot = c.foot + {s.nodes}
  record : s'.node p = inner L x.addr ((mid, y) :: R) par
  middle : (s.node c.addr).entries[DEGREE - 1]? = some mid
  keep : ∀ n, n ∉ {p} + c.foot → n ≠ s.nodes → s'.node n = s.node n
  entries : ∀ n ∈ c.foot, n ≠ c.addr → (s'.node n).entries = (s.node n).entries
  nodes : s'.nodes = s.nodes + 1
  root : s'.root = s.root
  size : s'.size = s.size

section SplitNode

variable {h p : Nat} {par : Option Nat} {L : Lefts K V} {c : Part K V} {R : Rights K V}

/-- A full node has a middle entry. -/
theorem full_entries {es : List (K × V)} (hfull : es.length = MAX_ENTRY_SIZE) :
    ∃ as mid bs, es = as ++ mid :: bs ∧ as.length = DEGREE - 1 ∧ bs.length = DEGREE - 1 := by
  have hlt : DEGREE - 1 < es.length := by rw [hfull]; decide
  refine ⟨es.take (DEGREE - 1), es[DEGREE - 1], es.drop DEGREE, ?_, ?_, ?_⟩
  · exact (take_append_drop (DEGREE - 1) es).symm.trans (by rw [drop_eq_getElem_cons hlt]; rfl)
  · rw [length_take, hfull]
    decide
  · rw [length_drop, hfull]
    decide

theorem getElem?_middle {as bs : List (K × V)} {mid : K × V} (has : as.length = DEGREE - 1) :
    (as ++ mid :: bs)[DEGREE - 1]? = some mid := by
  rw [← has, getElem?_append_right (Nat.le_refl _), Nat.sub_self]
  rfl

variable [LinearOrder K]

/-- An entry below `c` lies between the entries around `c`. -/
theorem between_entries (hinc : Increasing (L.items ++ c.items ++ R.items)) {e : K × V} (he : e ∈ c.items) :
    Below e.1 (L.map (·.2)) ∧ Above e.1 (R.map (·.1)) := by
  obtain ⟨hleft, -, hright⟩ := increasing_append.mp hinc
  refine ⟨fun a ha => ?_, fun b hb => ?_⟩
  · exact (increasing_append.mp hleft).2.2 a (L.entries_sublist.subset ha) e he
  · exact hright e (mem_append_right _ he) b (R.entries_sublist.subset hb)

theorem splitNode_spec (hrec : s.node p = inner L c.addr R par) (hc : Sub s.node h (some p) c)
    (hfull : (s.node c.addr).entries.length = MAX_ENTRY_SIZE) (hnodup : ({p} + c.foot).Nodup)
    (hlt : ∀ n ∈ {p} + c.foot, n < s.nodes) (hinc : Increasing (L.items ++ c.items ++ R.items)) :
    ∃ s' x mid y, (splitNode p c.addr L.length).run s = .ok () s' ∧ Split s s' h p par L c R x mid y := by
  have hpc : p ∉ c.foot := notMem_of_nodup hnodup
  have hcfoot : c.foot.Nodup := (Multiset.nodup_add.mp hnodup).2.1
  have hfresh : s.nodes ∉ {p} + c.foot := fun hmem => Nat.lt_irrefl _ (hlt _ hmem)
  rw [Multiset.mem_add, not_or, Multiset.mem_singleton] at hfresh
  have hne : p ≠ c.addr := fun heq => hpc (heq ▸ hc.addr_mem)
  have hcn : c.addr ≠ s.nodes := fun heq => hfresh.2 (heq ▸ hc.addr_mem)
  obtain ⟨as, mid, bs, hes, has, hbs⟩ := full_entries hfull
  have hmid : mid ∈ c.items := hc.entries_sublist.subset (by rw [hes]; simp)
  obtain ⟨hbelow, habove⟩ := between_entries hinc hmid
  have hmiddle : (s.node c.addr).entries[DEGREE - 1]? = some mid := by rw [hes, getElem?_middle has]
  cases h with
  | zero =>
    have hrecc : s.node c.addr = ⟨as ++ mid :: bs, some p, [] ++ []⟩ := by
      rw [← hes, hc.1]
      rfl
    have hitems : c.items = as ++ mid :: bs := by rw [← hes, hc.1]
    obtain ⟨s', hrun, hp', hc', hn', -, hkeep, hnodes, hroot, hsize⟩ :=
      splitNode_run hrec hrecc has hbs (.inl ⟨rfl, rfl⟩) hne
      List.not_mem_nil List.not_mem_nil (Ne.symm hfresh.1) hcn List.not_mem_nil hbelow habove (by rw [List.length_map])
    refine ⟨s', ⟨c.addr, as, {c.addr}⟩, mid, ⟨s.nodes, bs, {s.nodes}⟩, hrun, rfl, rfl, ⟨hc', rfl⟩, ⟨hn', rfl⟩, ?_, ?_,
      hitems, ?_, hp', hmiddle, ?_, ?_, hnodes, hroot, hsize⟩
    · rw [hc', has]
    · rw [hn', hbs]
    · rw [hc.2]
    · intro n hn hnn
      rw [Multiset.mem_add, not_or, Multiset.mem_singleton] at hn
      exact hkeep n hn.1 (fun heq => hn.2 (heq ▸ hc.addr_mem)) hnn List.not_mem_nil
    · intro n hn hnc
      rw [hc.2, Multiset.mem_singleton] at hn
      exact absurd hn hnc
  | succ h =>
    -- the child in front of the middle entry, and the one behind it
    obtain ⟨Lc, d, Rc, hin, hlen⟩ := hc.focus (i := DEGREE - 1) (by rw [hfull]; decide)
    have hentries : Lc.map (·.2) ++ Rc.map (·.1) = as ++ mid :: bs := by
      rw [← hes, hin.record]
      rfl
    obtain ⟨hLc, hRc⟩ := List.append_inj hentries (by rw [List.length_map, hlen, has])
    obtain rfl | ⟨e, d', Rc, rfl⟩ := Rights.eq_nil_or_cons Rc
    · exact absurd hRc nofun
    obtain ⟨hmideq, hRs⟩ : e = mid ∧ Rc.map (·.1) = bs := List.cons.inj hRc
    subst hmideq
    have hys : ∀ n ∈ d'.addr :: Rc.map (·.2.addr), n ∈ c.foot ∧ n ≠ c.addr := by
      intro n hn
      refine hc.children_mem hcfoot ?_
      rw [hin.record]
      exact List.mem_append_right _ (List.mem_cons_of_mem _ hn)
    have hrecc : s.node c.addr =
        ⟨as ++ e :: bs, some p, (Lc.map (·.1.addr) ++ [d.addr]) ++ (d'.addr :: Rc.map (·.2.addr))⟩ := by
      rw [← hes, hin.record, List.append_assoc]
      rfl
    have hlenR : Rc.length = DEGREE - 1 := by rw [← hbs, ← hRs, List.length_map]
    have hhalves : Halves (Lc.map (·.1.addr) ++ [d.addr]) (d'.addr :: Rc.map (·.2.addr)) := by
      refine .inr ⟨?_, ?_⟩
      · rw [List.length_append, List.length_map, hlen]
        rfl
      · rw [List.length_cons, List.length_map, hlenR]
        rfl
    obtain ⟨s', hrun, hp', hc', hn', hmoved, hkeep, hnodes, hroot, hsize⟩ :=
      splitNode_run hrec hrecc has hbs hhalves hne
      (fun hmem => hpc (hys p hmem).1) (fun hmem => (hys _ hmem).2 rfl) (Ne.symm hfresh.1) hcn
      (fun hmem => hfresh.2 (hys _ hmem).1) hbelow habove (by rw [List.length_map])
    have hfoot : c.foot = {c.addr} + (Lc.foot + d.foot) + (d'.foot + Rc.foot) := by
      rw [hin.foot, Rights.foot_cons, add_assoc, add_assoc, add_assoc]
    have hfootOf : footOf (d' :: Rc.map (·.2)) = d'.foot + Rc.foot :=
      (footOf_kids [] d' Rc).trans (by rw [Lefts.foot_nil, zero_add])
    obtain ⟨hstay, hmove, hdisj⟩ := Multiset.nodup_add.mp (hfoot ▸ hcfoot)
    have hroot_mem : ∀ n ∈ d'.addr :: Rc.map (·.2.addr), n ∈ d'.foot + Rc.foot := by
      intro n hn
      have hn' : n ∈ (d' :: Rc.map (·.2)).map (·.addr) := by
        rw [List.map_cons, List.map_map]
        exact hn
      obtain ⟨q, hq, rfl⟩ := List.mem_map.mp hn'
      rw [← hfootOf]
      exact Multiset.mem_of_le (mem_footOf hq)
        (hin.kids q (List.mem_append_right _ (List.mem_cons_of_mem _ hq))).1.addr_mem
    -- the nodes of the left half do not change
    have hkeepL : ∀ n ∈ Lc.foot + d.foot, s'.node n = s.node n := by
      intro n hn
      have hnc : n ∈ c.foot := by
        rw [hfoot]
        exact Multiset.mem_add.mpr (.inl (Multiset.mem_add.mpr (.inr hn)))
      refine hkeep n (fun heq => hpc (heq ▸ hnc)) ?_ (fun heq => hfresh.2 (heq ▸ hnc)) ?_
      · rintro rfl
        exact notMem_of_nodup hstay hn
      · exact fun hmem => Multiset.disjoint_left.mp hdisj (Multiset.mem_add.mpr (.inr hn)) (hroot_mem n hmem)
    -- the subtrees of the right half get the new node as their parent
    have hkidsR : ∀ q ∈ d' :: Rc.map (·.2), Kid s'.node h s.nodes q := by
      refine Kid.adopt (a := c.addr) (fun q hq => hin.kids q (List.mem_append_right _ (List.mem_cons_of_mem _ hq))) ?_
        ?_ ?_
      · rw [hfootOf]
        exact hmove
      · intro q hq
        refine hmoved q.addr ?_
        have hmem := List.mem_map_of_mem (f := fun q : Part K V => q.addr) hq
        rw [List.map_cons, List.map_map] at hmem
        exact hmem
      · intro n hn hnotin
        rw [hfootOf] at hn
        have hnc : n ∈ c.foot := by
          rw [hfoot]
          exact Multiset.mem_add.mpr (.inr hn)
        rw [List.map_cons, List.map_map] at hnotin
        refine hkeep n (fun heq => hpc (heq ▸ hnc)) ?_ (fun heq => hfresh.2 (heq ▸ hnc)) hnotin
        rintro rfl
        exact Multiset.disjoint_left.mp hdisj (Multiset.mem_add.mpr (.inl (Multiset.mem_singleton_self _))) hn
    refine ⟨s', ⟨c.addr, Lc.items ++ d.items, {c.addr} + (Lc.foot + d.foot)⟩, e,
      ⟨s.nodes, d'.items ++ Rc.items, {s.nodes} + (d'.foot + Rc.foot)⟩, hrun, rfl, rfl,
      Inner.sub (L := Lc) (c := d) (R := []) ⟨?_, ?_, by simp, by simp⟩,
      Inner.sub (L := []) (c := d') (R := Rc) ⟨?_, hkidsR, by simp, by simp⟩, ?_, ?_, ?_, ?_, hp', hmiddle, ?_, ?_,
      hnodes, hroot, hsize⟩
    · rw [hc', ← hLc]
      simp [inner]
    · intro q hq
      have hle := foot_le_of_mem_kids hq
      rw [Rights.foot_nil, add_zero] at hle
      have hq' : q ∈ Lc.map (·.1) ++ d :: ((e, d') :: Rc).map (·.2) := by
        rw [List.mem_append, List.map_nil, List.mem_singleton] at hq
        rw [List.mem_append, List.mem_cons]
        exact hq.imp_right .inl
      exact (hin.kids q hq').congr fun n hn => hkeepL n (Multiset.mem_of_le hle hn)
    · rw [hn', ← hRs]
      rfl
    · rw [hc', has]
    · rw [hn', hbs]
    · rw [hin.items]
      simp
    · rw [hfoot]
      dsimp only
      abel
    · intro n hn hnn
      rw [Multiset.mem_add, not_or, Multiset.mem_singleton] at hn
      exact hkeep n hn.1 (fun heq => hn.2 (heq ▸ hc.addr_mem)) hnn fun hmem => hn.2 (hys n hmem).1
    · intro n hn hnc
      by_cases hmem : n ∈ d'.addr :: Rc.map (·.2.addr)
      · rw [hmoved n hmem]
      · rw [hkeep n (fun heq => hpc (heq ▸ hn)) hnc (fun heq => hfresh.2 (heq ▸ hn)) hmem]

end SplitNode

section Descent

variable {m h p : Nat} {par : Option Nat} {l r : List (K × V)} {F : Multiset Nat} {L : Lefts K V} {c x y : Part K V}
  {mid : K × V}
  {R : Rights K V}

/-- What is around the node that was split stays. -/
theorem Split.around (hsplit : Split s s' h p par L c R x mid y) (hup : Ctx s.node s.root m (h + 1) par p l r F)
    (hothers : ∀ q ∈ L.map (·.1) ++ R.map (·.2), Kid s.node h p q)
    (hnodup : ({p} + c.foot + (L.foot + R.foot + F)).Nodup) (hlt : ∀ n ∈ L.foot + R.foot + F, n < s.nodes) :
    Ctx s'.node s'.root m (h + 1) par p l r F ∧ ∀ q ∈ L.map (·.1) ++ R.map (·.2), Kid s'.node h p q := by
  have hout (n : Nat) (hn : n ∈ L.foot + R.foot + F) : s'.node n = s.node n :=
    hsplit.keep n (disjoint_right.mp (nodup_add.mp hnodup).2.2 hn) (hlt n hn).ne
  rw [hsplit.root]
  refine ⟨hup.congr fun n hn => hout n (mem_add.mpr (.inr hn)), ?_⟩
  intro q hq
  refine (hothers q hq).congr fun n hn => ?_
  exact hout n (mem_add.mpr (.inl (mem_of_le (kid_foot_le hq) hn)))

theorem sized_of_length {n : Node K V} (hlen : n.entries.length = DEGREE - 1) : Sized n := by
  unfold Sized
  rw [hlen]
  decide

variable (hsplit : Split s s' h p par L c R x mid y)
include hsplit

theorem Split.kid_left : Kid s'.node h p x :=
  ⟨hsplit.left, sized_of_length hsplit.length_left⟩

theorem Split.kid_right : Kid s'.node h p y :=
  ⟨hsplit.right, sized_of_length hsplit.length_right⟩

theorem Split.length_entries (hrec : s.node p = inner L c.addr R par) :
    (s'.node p).entries.length = (s.node p).entries.length + 1 := by
  rw [hsplit.record, hrec]
  simp only [inner, length_append, length_map, length_cons]
  omega

/-- The parent of the split node, which had room for one more entry. -/
theorem Split.fits (hrec : s.node p = inner L c.addr R par)
    (hfits : Fits m par (s.node p)) (hroom : (s.node p).entries.length < MAX_ENTRY_SIZE) (hm : MAX_ENTRY_SIZE ≤ m) :
    Fits m par (s'.node p) := by
  have hlen := hsplit.length_entries hrec
  refine ⟨fun hpar => ⟨?_, ?_⟩, ?_⟩
  · rw [hlen]
    exact Nat.le_succ_of_le (hfits.sized hpar).1
  · rw [hlen]
    exact hroom
  · rw [hlen]
    exact (Nat.succ_le_of_lt hroom).trans hm

theorem Split.entries_ne_nil : (s'.node p).entries ≠ [] := by
  rw [hsplit.record]
  simp [inner]

variable (hup : Ctx s'.node s'.root m (h + 1) par p l r F)
  (hothers : ∀ q ∈ L.map (·.1) ++ R.map (·.2), Kid s'.node h p q)
  (hfits : Fits m par (s'.node p))
include hup hothers hfits

/-- The way down into the left half. -/
theorem Split.down_left :
    Ctx s'.node s'.root m h (some p) x.addr (l ++ L.items) (Rights.items ((mid, y) :: R) ++ r)
      ({p} + (L.foot + Rights.foot ((mid, y) :: R)) + F) := by
  refine .child L x.addr ((mid, y) :: R) hup hsplit.record ?_ hfits hsplit.entries_ne_nil
  intro q hq
  rw [List.map_cons, List.mem_append, List.mem_cons] at hq
  rcases hq with hq | rfl | hq
  · exact hothers q (List.mem_append_left _ hq)
  · exact hsplit.kid_right
  · exact hothers q (List.mem_append_right _ hq)

/-- The way down into the right half. -/
theorem Split.down_right :
    Ctx s'.node s'.root m h (some p) y.addr (l ++ Lefts.items (L ++ [(x, mid)])) (R.items ++ r)
      ({p} + (Lefts.foot (L ++ [(x, mid)]) + R.foot) + F) := by
  refine .child (L ++ [(x, mid)]) y.addr R hup ?_ ?_ hfits hsplit.entries_ne_nil
  · rw [hsplit.record]
    simp [inner]
  · intro q hq
    rw [List.map_append, List.append_assoc, List.mem_append, List.mem_append, List.map_singleton,
      List.mem_singleton] at hq
    rcases hq with hq | rfl | hq
    · exact hothers q (mem_append_left _ hq)
    · exact hsplit.kid_left
    · exact hothers q (mem_append_right _ hq)

end Descent

/-! ## The way down -/

/-- The node is not full with `k` in the middle. -/
def NotMiddle (k : K) (n : Node K V) : Prop :=
  n.entries.length = MAX_ENTRY_SIZE → n.entries[DEGREE - 1]?.map Prod.fst ≠ some k

theorem NotMiddle.of_length {k : K} {n : Node K V} (hlen : n.entries.length = DEGREE - 1) : NotMiddle k n := by
  intro hfull
  rw [hlen] at hfull
  exact absurd hfull (by decide)

/-- A split makes no new full nodes. -/
theorem Split.notMiddle {h p : Nat} {par : Option Nat} {L : Lefts K V} {c x y : Part K V} {mid : K × V}
    {R : Rights K V} {k : K} (hsplit : Split s s' h p par L c R x mid y)
    (hfree : ∀ n ∈ c.foot, n ≠ c.addr → NotMiddle k (s.node n)) :
    ∀ n ∈ x.foot + y.foot, NotMiddle k (s'.node n) := by
  intro n hn
  rw [hsplit.foot, Multiset.mem_add, Multiset.mem_singleton] at hn
  by_cases hnc : n = c.addr
  · subst hnc
    rw [← hsplit.addr_left]
    exact .of_length hsplit.length_left
  · rcases hn with hn | rfl
    · unfold NotMiddle
      rw [hsplit.entries n hn hnc]
      exact hfree n hn hnc
    · rw [← hsplit.addr_right]
      exact .of_length hsplit.length_right

section Insert

variable [LinearOrder K] {m h : Nat} {par : Option Nat} {l r : List (K × V)} {F : Multiset Nat} {t : Part K V}
  {k : K} {v : V}
  {old : Option V} {n : Nat} {foot : Multiset Nat}

/-- What an addition below a subtree leaves: a whole tree, with the key put. -/
structure Inserted (s s' : Heap K V) (m : Nat) (k : K) (v : V) (items : List (K × V)) (old : Option V) : Prop where
  tree : ∃ foot, Whole s'.node s'.root m (put k v items) foot ∧ foot.Nodup ∧ ∀ n ∈ foot, n < s'.nodes
  size : s'.size = s.size + if old.isSome then 0 else 1

/-- The way down to the place of the addition keeps the size. -/
theorem Inserted.of_size {s₁ : Heap K V} {items : List (K × V)} (hins : Inserted s₁ s' m k v items old)
    (hsize : s₁.size = s.size) : Inserted s s' m k v items old :=
  ⟨hins.tree, by rw [hins.size, hsize]⟩

omit [LinearOrder K] in
/-- The record of the node at the top of a subtree changes, and nothing else. -/
theorem Ctx.plug_set {rec : Node K V} {items : List (K × V)} (hctx : Ctx s.node s.root m h par t.addr l r F)
    (hnodup : (t.foot + F).Nodup) (hmem : t.addr ∈ t.foot)
    (hsub : Sub (s.set t.addr rec).node h par ⟨t.addr, items, t.foot⟩) (hfits : Fits m par rec)
    (hfilled : h ≠ 0 → rec.entries ≠ []) :
    Whole (s.set t.addr rec).node s.root m (l ++ items ++ r) (t.foot + F) := by
  have hF : ∀ n ∈ F, (s.set t.addr rec).node n = s.node n := by
    intro n hn
    refine Heap.set_node_of_ne _ _ _ ?_
    rintro rfl
    exact disjoint_left.mp (nodup_add.mp hnodup).2.2 hmem hn
  refine (hctx.congr hF).plug hsub ?_ ?_
  · rw [Heap.set_node_self]
    exact hfits
  · rw [Heap.set_node_self]
    exact hfilled

/-- An addition on its way down: it goes on below `t`, whose node has room for one more entry. -/
structure Way (s : Heap K V) (m h : Nat) (par : Option Nat) (t : Part K V) (l r : List (K × V)) (F : Multiset Nat)
    (k : K) : Prop where
  ctx : Ctx s.node s.root m h par t.addr l r F
  sub : Sub s.node h par t
  nodup : (t.foot + F).Nodup
  allocated : ∀ n ∈ t.foot + F, n < s.nodes
  increasing : Increasing t.items
  below : Below k l
  above : Above k r
  fits : Fits m par (s.node t.addr)
  filled : h ≠ 0 → (s.node t.addr).entries ≠ []
  room : (s.node t.addr).entries.length < MAX_ENTRY_SIZE
  notMiddle : ∀ n ∈ t.foot, n ≠ t.addr → NotMiddle k (s.node n)

/-- The addition in a leaf. -/
theorem Way.inserEntry_leaf (hway : Way s m 0 par t l r F k) (hm : MAX_ENTRY_SIZE ≤ m) (fuel : Nat) :
    ∃ s', (inserEntry (fuel + 1) t.addr (k, v)).run s = .ok (t.items.lookup k) s' ∧
      Inserted s s' m k v (l ++ t.items ++ r) (t.items.lookup k) := by
  obtain ⟨hctx, hsub, hnodup, hlt, hinc, hl, hr, hfits, -, hroom, -⟩ := hway
  have hrec : s.node t.addr = ⟨t.items, par, []⟩ := hsub.1
  rw [hrec] at hfits hroom
  rcases hinc.place k with ⟨a, w, b, hitems⟩ | ⟨a, b, hitems, ha, hb⟩
  · obtain ⟨-, -, ha, hb⟩ := increasing_middle.mp (hitems ▸ hinc)
    have hlookup : t.items.lookup k = some w := by rw [hitems, lookup_middle ha]
    have hput : put k v t.items = a ++ (k, v) :: b := by rw [hitems, put_present ha hb]
    have hrec' : s.node t.addr = ⟨a ++ (k, w) :: b, par, []⟩ := by rw [hrec, hitems]
    rw [hlookup]
    refine ⟨s.set t.addr ⟨a ++ (k, v) :: b, par, []⟩, ?_, ⟨t.foot + F, ?_, hnodup, hlt⟩, (Int.add_zero _).symm⟩
    · refine run_bind_ok (Node.searchEntry_present (by rw [hrec']) ha hb) ?_
      refine run_bind_some (Node.getEntry_run hrec' rfl) ?_
      exact run_bind_ok (Node.setValue_run hrec' rfl) rfl
    · rw [put_around hl hr, hput]
      refine hctx.plug_set hnodup hsub.addr_mem ⟨Heap.set_node_self .., hsub.2⟩ (hfits.of_length ?_) (absurd rfl)
      rw [hitems]
      simp
  · have hlookup : t.items.lookup k = none := by
      rw [hitems, lookup_append, ha.lookup, hb.lookup]
      rfl
    have hput : put k v t.items = a ++ (k, v) :: b := by rw [hitems, put_absent ha hb]
    have hlen : (a ++ (k, v) :: b).length = t.items.length + 1 := by
      rw [hitems]
      simp only [length_append, length_cons]
      omega
    have hrec' : s.node t.addr = ⟨a ++ b, par, []⟩ := by rw [hrec, hitems]
    let s₁ : Heap K V := { s with size := s.size + 1, modCount := s.modCount + 1 }
    rw [hlookup]
    refine ⟨s₁.set t.addr ⟨a ++ (k, v) :: b, par, []⟩, ?_, ⟨t.foot + F, ?_, hnodup, hlt⟩, rfl⟩
    · refine run_bind_ok (Node.searchEntry_absent (by rw [hrec']) ha hb) ?_
      refine run_bind_ok hsub.isLeaf_run ?_
      refine run_bind_ok (show _ = EStateM.Result.ok () s₁ from rfl) ?_
      exact run_bind_ok (Node.insertEntryAt_run (h := s₁) hrec' rfl) rfl
    · rw [put_around hl hr, hput]
      refine Ctx.plug_set (s := s₁) hctx hnodup hsub.addr_mem ⟨Heap.set_node_self .., hsub.2⟩ ⟨fun hpar => ⟨?_, ?_⟩, ?_⟩
        (absurd rfl)
      · rw [hlen]
        exact Nat.le_succ_of_le (hfits.sized hpar).1
      · rw [hlen]
        exact hroom
      · rw [hlen]
        exact (Nat.succ_le_of_lt hroom).trans hm

variable {L : Lefts K V} {R : Rights K V} {c d : Part K V}

omit [LinearOrder K] in
/-- The nodes below a child are below the node, and others. -/
theorem Inner.mem_kid (hin : Inner s.node h par t L c R) (hnodup : t.foot.Nodup) (hn : n ∈ c.foot) :
    n ∈ t.foot ∧ n ≠ t.addr := by
  have hc : c ∈ L.map (·.1) ++ c :: R.map (·.2) := mem_append_right _ (mem_cons_self ..)
  exact ⟨hin.mem_foot hc hn, hin.mem_ne hnodup hc hn⟩

/-- The key is that of an entry of an inner node. -/
theorem Way.inserEntry_present {w : V} (hway : Way s m (h + 1) par t l r F k)
    (hin : Inner s.node h par t L c (((k, w), d) :: R))
    (hrun : (Node.searchEntry t.addr k).run s = .ok ⟨L.length, some t.addr⟩ s) (fuel : Nat) :
    ∃ s', (inserEntry (fuel + 1) t.addr (k, v)).run s = .ok (t.items.lookup k) s' ∧
      Inserted s s' m k v (l ++ t.items ++ r) (t.items.lookup k) := by
  have hitems : t.items = (L.items ++ c.items) ++ (k, w) :: (d.items ++ R.items) := by
    rw [hin.items]
    rfl
  obtain ⟨-, -, ha, hb⟩ := increasing_middle.mp (hitems ▸ hway.increasing)
  have hlookup : t.items.lookup k = some w := by rw [hitems, lookup_middle ha]
  have hput : put k v t.items = (L.items ++ c.items) ++ (k, v) :: (d.items ++ R.items) := by
    rw [hitems, put_present ha hb]
  have hrec : s.node t.addr =
      ⟨L.map (·.2) ++ (k, w) :: R.map (·.1), par, L.map (·.1.addr) ++ c.addr :: d.addr :: R.map (·.2.addr)⟩ :=
    hin.record
  rw [hlookup]
  refine ⟨s.set t.addr (inner L c.addr (((k, v), d) :: R) par), ?_, ⟨t.foot + F, ?_, hway.nodup, hway.allocated⟩,
    (Int.add_zero _).symm⟩
  · refine run_bind_ok hrun ?_
    refine run_bind_some (Node.getEntry_run hrec (by simp)) ?_
    exact run_bind_ok (Node.setValue_run hrec (by simp)) rfl
  · rw [put_around hway.below hway.above, hput]
    refine hway.ctx.plug_set hway.nodup hin.sub.addr_mem ?_ (hway.fits.of_length ?_) ?_
    · refine Inner.sub (L := L) (c := c) (R := ((k, v), d) :: R) ⟨Heap.set_node_self .., ?_, rfl, hin.foot⟩
      intro q hq
      refine (hin.kids q hq).congr fun n hn => Heap.set_node_of_ne _ _ _ ?_
      exact hin.mem_ne (nodup_add.mp hway.nodup).1 hq hn
    · rw [hrec]
      simp [inner]
    · intro _
      simp [inner]

variable (hway : Way s m (h + 1) par t l r F k) (hin : Inner s.node h par t L c R) (hL : Below k L.items)
  (hR : Above k R.items)
include hway hin hL hR

/-- The way goes on in a child that is not full. -/
theorem Way.child (hfull : (s.node c.addr).entries.length ≠ MAX_ENTRY_SIZE) (hm : MAX_ENTRY_SIZE ≤ m) :
    Way s m h (some t.addr) c (l ++ L.items) (R.items ++ r) ({t.addr} + (L.foot + R.foot) + F) k := by
  have hall : c.foot + ({t.addr} + (L.foot + R.foot) + F) = t.foot + F := by
    rw [hin.foot]
    abel
  have hinc := hway.increasing
  rw [hin.items] at hinc
  refine ⟨hway.ctx.down hin hway.fits (hway.filled (Nat.succ_ne_zero h)), hin.kid.1, hall ▸ hway.nodup,
    hall ▸ hway.allocated, (increasing_append.mp (increasing_append.mp hinc).1).2.1,
    forall_mem_append.mpr ⟨hway.below, hL⟩, forall_mem_append.mpr ⟨hR, hway.above⟩, hin.kid.2.fits hm,
    fun _ => hin.kid.2.ne_nil, Nat.lt_of_le_of_ne hin.kid.2.2 hfull, ?_⟩
  intro n hn _
  obtain ⟨hnt, hne⟩ := hin.mem_kid (nodup_add.mp hway.nodup).1 hn
  exact hway.notMiddle n hnt hne

/-- A full child is split; the way goes on in one of the halves. -/
theorem Way.split (hfull : (s.node c.addr).entries.length = MAX_ENTRY_SIZE) (hm : MAX_ENTRY_SIZE ≤ m) :
    ∃ s' x mid y, (splitNode t.addr c.addr L.length).run s = .ok () s' ∧
      Split s s' h t.addr par L c R x mid y ∧ mid.1 ≠ k ∧
      (mid.1 < k → Way s' m h (some t.addr) y (l ++ Lefts.items (L ++ [(x, mid)])) (R.items ++ r)
        ({t.addr} + (Lefts.foot (L ++ [(x, mid)]) + R.foot) + F) k ∧ t.items.lookup k = y.items.lookup k) ∧
      (k < mid.1 → Way s' m h (some t.addr) x (l ++ L.items) (Rights.items ((mid, y) :: R) ++ r)
        ({t.addr} + (L.foot + Rights.foot ((mid, y) :: R)) + F) k ∧ t.items.lookup k = x.items.lookup k) := by
  have hmem (n : Nat) (hn : n ∈ c.foot) := hin.mem_kid (nodup_add.mp hway.nodup).1 hn
  have hparts : {t.addr} + c.foot + (L.foot + R.foot + F) = t.foot + F := by
    rw [hin.foot]
    abel
  have hnodup := hway.nodup
  have hlt := hway.allocated
  have hinc := hway.increasing
  rw [← hparts] at hnodup hlt
  rw [hin.items] at hinc
  obtain ⟨s', x, mid, y, hrun, hsplit⟩ := splitNode_spec hin.record hin.kid.1 hfull (nodup_add.mp hnodup).1
    (fun n hn => hlt n (mem_add.mpr (.inl hn))) hinc
  obtain ⟨hup, hothers⟩ := hsplit.around hway.ctx hin.beside hnodup fun n hn => hlt n (mem_add.mpr (.inr hn))
  have hfits := hsplit.fits hin.record hway.fits hway.room hm
  have hfree := hsplit.notMiddle fun n hn _ => hway.notMiddle n (hmem n hn).1 (hmem n hn).2
  have hmid : mid.1 ≠ k := by
    have hnot := hway.notMiddle c.addr (hmem _ hin.kid.1.addr_mem).1 (hmem _ hin.kid.1.addr_mem).2 hfull
    rw [hsplit.middle] at hnot
    exact fun heq => hnot (congrArg some heq)
  -- the nodes are those from before and the new one
  have hsum : {t.addr} + (L.foot + R.foot + F) + (x.foot + y.foot) =
      {t.addr} + c.foot + (L.foot + R.foot + F) + {s.nodes} := by
    rw [hsplit.foot]
    abel
  have hfresh : ({t.addr} + (L.foot + R.foot + F) + (x.foot + y.foot)).Nodup := by
    rw [hsum]
    refine Multiset.nodup_add.mpr ⟨hnodup, Multiset.nodup_singleton _, ?_⟩
    exact disjoint_singleton.mpr fun hn => Nat.lt_irrefl _ (hlt _ hn)
  have hlt' : ∀ n ∈ {t.addr} + (L.foot + R.foot + F) + (x.foot + y.foot), n < s'.nodes := by
    intro n hn
    rw [hsum] at hn
    rw [hsplit.nodes]
    rcases mem_add.mp hn with hn | hn
    · exact Nat.lt_succ_of_lt (hlt n hn)
    · rw [Multiset.mem_singleton.mp hn]
      exact Nat.lt_succ_self _
  have hroom : DEGREE - 1 < MAX_ENTRY_SIZE := by decide
  have hincc : Increasing c.items := (increasing_append.mp (increasing_append.mp hinc).1).2.1
  rw [hsplit.items] at hincc
  obtain ⟨hincx, hincy, hxmid, hymid⟩ := increasing_middle.mp hincc
  refine ⟨s', x, mid, y, hrun, hsplit, hmid, ?_, ?_⟩
  · intro hk
    have hbelow : Below k (Lefts.items (L ++ [(x, mid)])) := by
      rw [Lefts.items_append, Lefts.items_singleton]
      refine forall_mem_append.mpr ⟨hL, forall_mem_append.mpr ⟨fun e he => (hxmid e he).trans hk, ?_⟩⟩
      intro e he
      rw [List.mem_singleton.mp he]
      exact hk
    have hall : y.foot + ({t.addr} + (Lefts.foot (L ++ [(x, mid)]) + R.foot) + F) =
        {t.addr} + (L.foot + R.foot + F) + (x.foot + y.foot) := by
      rw [Lefts.foot_append, Lefts.foot_singleton]
      abel
    refine ⟨⟨hsplit.down_right hup hothers hfits, hsplit.right, hall ▸ hfresh, hall ▸ hlt', hincy,
      forall_mem_append.mpr ⟨hway.below, hbelow⟩, forall_mem_append.mpr ⟨hR, hway.above⟩, hsplit.kid_right.2.fits hm,
      fun _ => hsplit.kid_right.2.ne_nil, hsplit.length_right ▸ hroom, ?_⟩, ?_⟩
    · exact fun n hn _ => hfree n (mem_add.mpr (.inr hn))
    · have hitems : t.items = Lefts.items (L ++ [(x, mid)]) ++ y.items ++ R.items := by
        rw [hin.items, hsplit.items]
        simp
      rw [hitems, lookup_around hbelow hR]
  · intro hk
    have habove : Above k (Rights.items ((mid, y) :: R)) := by
      rw [Rights.items_cons]
      refine forall_mem_append.mpr ⟨forall_mem_cons.mpr ⟨hk, fun e he => hk.trans (hymid e he)⟩, hR⟩
    have hall : x.foot + ({t.addr} + (L.foot + Rights.foot ((mid, y) :: R)) + F) =
        {t.addr} + (L.foot + R.foot + F) + (x.foot + y.foot) := by
      rw [Rights.foot_cons]
      abel
    refine ⟨⟨hsplit.down_left hup hothers hfits, hsplit.left, hall ▸ hfresh, hall ▸ hlt', hincx,
      forall_mem_append.mpr ⟨hway.below, hL⟩, forall_mem_append.mpr ⟨habove, hway.above⟩, hsplit.kid_left.2.fits hm,
      fun _ => hsplit.kid_left.2.ne_nil, hsplit.length_left ▸ hroom, ?_⟩, ?_⟩
    · exact fun n hn _ => hfree n (mem_add.mpr (.inl hn))
    · have hitems : t.items = L.items ++ x.items ++ Rights.items ((mid, y) :: R) := by
        rw [hin.items, hsplit.items]
        simp
      rw [hitems, lookup_around hL habove]

omit hway hin hL hR

/-- The addition below `t`. The induction is on the height; each step may split the child. -/
theorem Way.inserEntry_spec (hway : Way s m h par t l r F k) (hm : MAX_ENTRY_SIZE ≤ m) (fuel : Nat) (hfuel : h < fuel) :
    ∃ s', (inserEntry fuel t.addr (k, v)).run s = .ok (t.items.lookup k) s' ∧
      Inserted s s' m k v (l ++ t.items ++ r) (t.items.lookup k) := by
  induction h generalizing s par t l r F fuel with
  | zero =>
    obtain ⟨fuel, rfl⟩ : ∃ j, fuel = j + 1 := ⟨fuel - 1, by omega⟩
    exact hway.inserEntry_leaf hm fuel
  | succ h ih =>
    obtain ⟨fuel, rfl⟩ : ∃ j, fuel = j + 1 := ⟨fuel - 1, by omega⟩
    rcases hway.sub.locate hway.increasing k with ⟨L, c, w, d, R, hin, hrun⟩ | ⟨L, c, R, hin, hL, hR, hrun⟩
    · exact hway.inserEntry_present hin hrun fuel
    have hsize : (Node.entrySize c.addr : M K V Nat).run s = .ok (s.node c.addr).entries.length s := rfl
    by_cases hfull : (s.node c.addr).entries.length = MAX_ENTRY_SIZE
    · obtain ⟨s₁, x, mid, y, hsplitrun, hsplit, hmid, hright, hleft⟩ := hway.split hin hL hR hfull hm
      have hrec : s₁.node t.addr =
          ⟨L.map (·.2) ++ mid :: R.map (·.1), par, (L.map (·.1.addr) ++ [x.addr]) ++ y.addr :: R.map (·.2.addr)⟩ := by
        rw [hsplit.record]
        simp [inner]
      have hstart {r : EStateM.Result Exn (Heap K V) (Option V)}
          (hrest : (if mid.1 < k then (do inserEntry fuel (← getOrThrow (← Node.getChild t.addr (L.length + 1))) (k, v))
            else inserEntry fuel c.addr (k, v) : M K V (Option V)).run s₁ = r) :
          (inserEntry (fuel + 1) t.addr (k, v)).run s = r := by
        refine run_bind_ok hrun (run_bind_ok hin.isLeaf_run (run_bind_ok (hin.getChild_run rfl) ?_))
        refine run_bind_ok (getOrThrow_run c.addr) (run_bind_ok hsize ?_)
        rw [if_pos hfull]
        refine run_bind_ok hsplitrun (run_bind_ok (Node.getEntry_run hrec (by simp)) ?_)
        exact run_bind_ok (getOrThrow_run mid) hrest
      rcases lt_or_gt_of_ne hmid with hk | hk
      · obtain ⟨hway', hlookup⟩ := hright hk
        obtain ⟨s', hrest, hins⟩ := ih hway' fuel (by omega)
        have happend : l ++ t.items ++ r = l ++ Lefts.items (L ++ [(x, mid)]) ++ y.items ++ (R.items ++ r) := by
          rw [hin.items, hsplit.items]
          simp
        rw [hlookup, happend]
        refine ⟨s', hstart ?_, hins.of_size hsplit.size⟩
        rw [if_pos hk]
        exact run_bind_some (Node.getChild_run hrec (by simp)) hrest
      · obtain ⟨hway', hlookup⟩ := hleft hk
        obtain ⟨s', hrest, hins⟩ := ih hway' fuel (by omega)
        have happend : l ++ t.items ++ r = l ++ L.items ++ x.items ++ (Rights.items ((mid, y) :: R) ++ r) := by
          rw [hin.items, hsplit.items]
          simp
        rw [hlookup, happend]
        refine ⟨s', hstart ?_, hins.of_size hsplit.size⟩
        rw [if_neg (lt_asymm hk), ← hsplit.addr_left]
        exact hrest
    · obtain ⟨s', hrest, hins⟩ := ih (hway.child hin hL hR hfull hm) fuel (by omega)
      have hlookup : t.items.lookup k = c.items.lookup k := by rw [hin.items, lookup_around hL hR]
      have happend : l ++ t.items ++ r = l ++ L.items ++ c.items ++ (R.items ++ r) := by
        rw [hin.items]
        simp
      rw [hlookup, happend]
      refine ⟨s', ?_, hins⟩
      refine run_bind_ok hrun (run_bind_ok hin.isLeaf_run (run_bind_ok (hin.getChild_run rfl) ?_))
      refine run_bind_ok (getOrThrow_run c.addr) (run_bind_ok hsize ?_)
      rw [if_neg hfull]
      exact hrest

/-! ## Whole calls -/

/-- The nodes from `n` down, as far as the fuel goes. -/
def nodesFrom (node : Nat → Node K V) : Nat → Nat → List Nat
  | 0, n => [n]
  | fuel + 1, n => n :: (node n).children.flatMap (nodesFrom node fuel)

/-- No node below the root is full with `k` in the middle. -/
def Spared (s : Heap K V) (k : K) : Prop := ∀ n ∈ nodesFrom s.node s.nodes s.root, n ≠ s.root → NotMiddle k (s.node n)

omit [LinearOrder K] in
theorem exists_of_mem_footOf {ps : List (Part K V)} (hn : n ∈ footOf ps) : ∃ q ∈ ps, n ∈ q.foot := by
  induction ps with
  | nil => exact absurd hn (notMem_zero n)
  | cons p ps ih =>
    have hsplit : footOf (p :: ps) = p.foot + footOf ps := sum_cons
    rw [hsplit, mem_add] at hn
    rcases hn with hn | hn
    · exact ⟨p, mem_cons_self .., hn⟩
    · obtain ⟨q, hq, hnq⟩ := ih hn
      exact ⟨q, mem_cons_of_mem _ hq, hnq⟩

omit [LinearOrder K] in
theorem Sub.mem_nodesFrom (hsub : Sub s.node h par t) (fuel : Nat) (hfuel : h ≤ fuel) :
    ∀ n ∈ t.foot, n ∈ nodesFrom s.node fuel t.addr := by
  induction h generalizing par t fuel with
  | zero =>
    intro n hn
    rw [hsub.2, Multiset.mem_singleton] at hn
    subst hn
    cases fuel <;> exact mem_cons_self ..
  | succ h ih =>
    obtain ⟨fuel, rfl⟩ : ∃ j, fuel = j + 1 := ⟨fuel - 1, by omega⟩
    obtain ⟨L, c, R, hin⟩ := sub_succ.mp hsub
    intro n hn
    rw [hin.foot, Multiset.mem_add, Multiset.mem_singleton, ← footOf_kids] at hn
    rcases hn with rfl | hn
    · exact mem_cons_self ..
    · obtain ⟨q, hq, hnq⟩ := exists_of_mem_footOf hn
      refine mem_cons_of_mem _ (mem_flatMap.mpr ⟨q.addr, ?_, ih (hin.kids q hq).1 fuel (by omega) n hnq⟩)
      rw [hin.record]
      have hmem := mem_map_of_mem (f := fun q : Part K V => q.addr) hq
      simpa [inner] using hmem

variable {items : List (K × V)}

/-- What an addition leaves of a valid map. -/
theorem Inserted.valid (hins : Inserted s s' m k v items old) (hinc : Increasing items)
    (hold : old = items.lookup k) (hsize : s.size = items.length) :
    Valid s' (put k v items) ∧ RootFilled s' ∧ (s'.node s'.root).entries.length ≤ m := by
  obtain ⟨foot, hwhole, hnodup, hlt⟩ := hins.tree
  have ⟨H, hsub, _⟩ := hwhole
  refine ⟨⟨⟨H, foot, hsub, hnodup, hlt⟩, hinc.put, ?_⟩, hwhole.rootFilled, hwhole.small⟩
  rw [hins.size, hsize, hinc.length_put, hold]
  split
  · rw [Int.add_zero]
  · rfl

variable (hsub : Sub s.node h none ⟨s.root, items, foot⟩)
include hsub

omit [LinearOrder K] in
theorem Sub.entries_ne_nil (hfilled : RootFilled s) :
    h ≠ 0 → (s.node s.root).entries ≠ [] := by
  intro hh
  obtain ⟨h, rfl⟩ := Nat.exists_eq_succ_of_ne_zero hh
  obtain ⟨L, c, R, hin⟩ := sub_succ.mp hsub
  refine hfilled.resolve_left ?_
  rw [hin.record]
  simp [inner]

/-- The way down from a root with room. -/
theorem Way.start (hnodup : foot.Nodup)
    (hlt : ∀ n ∈ foot, n < s.nodes) (hinc : Increasing items) (hfilled : h ≠ 0 → (s.node s.root).entries ≠ [])
    (hroom : (s.node s.root).entries.length < MAX_ENTRY_SIZE)
    (hfree : ∀ n ∈ foot, n ≠ s.root → NotMiddle k (s.node n)) :
    Way s MAX_ENTRY_SIZE h none ⟨s.root, items, foot⟩ [] [] 0 k :=
  ⟨.top h, hsub, by rwa [add_zero], by rwa [add_zero], hinc, nofun, nofun, ⟨absurd rfl, hroom.le⟩, hfilled,
    hroom, hfree⟩

/-- The heap with a new node. -/
def Heap.alloc (s : Heap K V) (rec : Node K V) : Heap K V :=
  { s with node := Function.update s.node s.nodes rec, nodes := s.nodes + 1 }

/-- The heap in which a full root has got a new node, still empty, as its parent. -/
def newRoot (s : Heap K V) : Heap K V :=
  ((s.alloc ⟨[], none, []⟩).set s.nodes ⟨[], none, [s.root]⟩).set s.root { s.node s.root with parent := some s.nodes }

/-- A full root is split under a new root. -/
theorem Way.start_split (hnodup : foot.Nodup)
    (hlt : ∀ n ∈ foot, n < s.nodes) (hinc : Increasing items) (hfull : (s.node s.root).entries.length = MAX_ENTRY_SIZE)
    (hfree : ∀ n ∈ foot, n ≠ s.root → NotMiddle k (s.node n)) :
    ∃ s₁ foot', (splitNode s.nodes s.root 0).run (newRoot s) = .ok () s₁ ∧ s₁.size = s.size ∧
      Way { s₁ with root := s.nodes } MAX_ENTRY_SIZE (h + 1) none ⟨s.nodes, items, foot'⟩ [] [] 0 k := by
  have hroot : s.root ∈ foot := hsub.addr_mem
  have hne : s.nodes ≠ s.root := (hlt _ hroot).ne'
  have hnew : (newRoot s).node s.nodes = inner [] s.root [] none := node_set (Heap.set_node_self ..) hne
  have hold : (newRoot s).node s.root = { s.node s.root with parent := some s.nodes } := Heap.set_node_self ..
  have hkeep (n : Nat) (hn : n ∈ foot) (hnr : n ≠ s.root) : (newRoot s).node n = s.node n :=
    node_set (node_set (update_of_ne (hlt n hn).ne ..) (hlt n hn).ne) hnr
  have hsub' : Sub (newRoot s).node h (some s.nodes) ⟨s.root, items, foot⟩ := hsub.reparent hnodup hold hkeep
  have hfresh : ({s.nodes} + foot).Nodup := by
    refine Multiset.nodup_add.mpr ⟨Multiset.nodup_singleton _, hnodup, ?_⟩
    exact singleton_disjoint.mpr fun hn => Nat.lt_irrefl _ (hlt _ hn)
  have hlt' : ∀ n ∈ {s.nodes} + foot, n < (newRoot s).nodes := by
    intro n hn
    rcases mem_add.mp hn with hn | hn
    · rw [Multiset.mem_singleton.mp hn]
      exact Nat.lt_succ_self _
    · exact Nat.lt_succ_of_lt (hlt n hn)
  have hinc' : Increasing (Lefts.items ([] : Lefts K V) ++ items ++ Rights.items ([] : Rights K V)) := by
    rw [Lefts.items_nil, Rights.items_nil, nil_append, append_nil]
    exact hinc
  obtain ⟨s₁, x, mid, y, hrun, hsplit⟩ := splitNode_spec hnew hsub' (by rw [hold]; exact hfull) hfresh hlt' hinc'
  have hfoot : {s.nodes} + (x.foot + y.foot) = {s.nodes} + foot + {s.nodes + 1} := by
    rw [hsplit.foot, add_assoc]
    rfl
  have hin : Inner s₁.node h none ⟨s.nodes, items, {s.nodes} + (x.foot + y.foot)⟩ [] x [(mid, y)] := by
    refine ⟨hsplit.record, ?_, ?_, ?_⟩
    · intro q hq
      have hq' : q = x ∨ q = y := by simpa using hq
      rcases hq' with rfl | rfl
      · exact hsplit.kid_left
      · exact hsplit.kid_right
    · have hitems : items = x.items ++ mid :: y.items := hsplit.items
      rw [hitems]
      simp
    · simp
  have hlen : (s₁.node s.nodes).entries.length = 1 := by
    rw [hsplit.record]
    rfl
  refine ⟨s₁, {s.nodes} + (x.foot + y.foot), hrun, hsplit.size, ?_⟩
  refine Way.start (s := { s₁ with root := s.nodes }) hin.sub ?_ ?_ hinc (fun _ => ?_) ?_ ?_
  · rw [hfoot]
    refine Multiset.nodup_add.mpr ⟨hfresh, Multiset.nodup_singleton _, ?_⟩
    exact disjoint_singleton.mpr fun hn => Nat.lt_irrefl _ (hlt' _ hn)
  · intro n hn
    rw [hfoot] at hn
    show n < s₁.nodes
    rw [hsplit.nodes]
    rcases mem_add.mp hn with hn | hn
    · exact Nat.lt_succ_of_lt (hlt' n hn)
    · rw [Multiset.mem_singleton.mp hn]
      exact Nat.lt_succ_self _
  · intro hnil
    rw [show (s₁.node s.nodes).entries = [] from hnil] at hlen
    exact absurd hlen Nat.zero_ne_one
  · show (s₁.node s.nodes).entries.length < MAX_ENTRY_SIZE
    rw [hlen]
    decide
  · intro n hn hnr
    refine hsplit.notMiddle ?_ n ((Multiset.mem_add.mp hn).resolve_left fun heq => hnr (Multiset.mem_singleton.mp heq))
    intro n hn hnr
    rw [hkeep n hn hnr]
    exact hfree n hn hnr

omit hsub

/-- `add` of a key that is not in the middle of a full node below the root. -/
theorem add_spec (hvalid : Valid s items) (hfilled : RootFilled s)
    (hsmall : (s.node s.root).entries.length ≤ MAX_ENTRY_SIZE) (hspared : Spared s k) :
    ∃ s', (add k v).run s = .ok (items.lookup k) s' ∧ Valid s' (put k v items) ∧ RootFilled s' ∧
      (s'.node s'.root).entries.length ≤ MAX_ENTRY_SIZE ∧
        s'.size = s.size + if (items.lookup k).isSome then 0 else 1 := by
  obtain ⟨H, foot, hsub, hnodup, hlt⟩ := hvalid.tree
  have hH : H < s.nodes := hsub.lt_card.trans_le (card_le_of_allocated hnodup hlt)
  have hfree : ∀ n ∈ foot, n ≠ s.root → NotMiddle k (s.node n) := fun n hn =>
    hspared n (hsub.mem_nodesFrom s.nodes hH.le n hn)
  suffices hdown : ∃ s', (add k v).run s = .ok (items.lookup k) s' ∧
      Inserted s s' MAX_ENTRY_SIZE k v items (items.lookup k) by
    obtain ⟨s', hrun, hins⟩ := hdown
    obtain ⟨hvalid', hfilled', hsmall'⟩ := hins.valid hvalid.increasing rfl hvalid.size
    exact ⟨s', hrun, hvalid', hfilled', hsmall', hins.size⟩
  by_cases hfull : (s.node s.root).entries.length = MAX_ENTRY_SIZE
  · obtain ⟨s₁, foot', hsplit, hsize, hway⟩ := Way.start_split hsub hnodup hlt hvalid.increasing hfull hfree
    obtain ⟨s', hrun, hins⟩ := hway.inserEntry_spec (v := v) (Nat.le_refl _) (s.nodes + 1) (by omega)
    rw [nil_append, append_nil] at hins
    refine ⟨s', ?_, hins.of_size hsize⟩
    refine run_bind_ok rfl (run_bind_ok (show _ = EStateM.Result.ok (s.node s.root).entries.length s from rfl) ?_)
    rw [if_pos hfull]
    refine run_bind_ok (show _ = EStateM.Result.ok s.nodes (s.alloc ⟨[], none, []⟩) from rfl) ?_
    refine run_bind_ok (Node.insertChild_run (p := []) (q := []) (update_self ..) rfl) ?_
    have hne : s.root ≠ s.nodes := (hlt _ hsub.addr_mem).ne
    refine run_bind_ok (Node.setParent_run (node_set (update_of_ne hne ..) hne) _) ?_
    exact run_bind_ok hsplit (run_bind_ok rfl (run_bind_ok rfl hrun))
  · have hroom := Nat.lt_of_le_of_ne hsmall hfull
    have hway := Way.start hsub hnodup hlt hvalid.increasing ?_ hroom hfree
    · obtain ⟨s', hrun, hins⟩ := hway.inserEntry_spec (v := v) (Nat.le_refl _) (s.nodes + 1) (by omega)
      rw [nil_append, append_nil] at hins
      refine ⟨s', ?_, hins⟩
      refine run_bind_ok rfl (run_bind_ok (show _ = EStateM.Result.ok (s.node s.root).entries.length s from rfl) ?_)
      rw [if_neg hfull]
      exact run_bind_ok rfl hrun
    · exact hsub.entries_ne_nil hfilled

end Insert

/-! ## Sequences of calls -/

section Calls

inductive Call (K V : Type) where
  | add (key : K) (value : V)
  | remove (key : K)

variable [LinearOrder K]

def Call.exec : Call K V → M K V (Option V)
  | .add key value => TreeMap.add key value
  | .remove key => TreeMap.remove key

/-- The calls one after the other. -/
def execAll : List (Call K V) → M K V Unit
  | [] => return
  | c :: calls => do
      let _ ← c.exec
      execAll calls

instance (k : K) (n : Node K V) : Decidable (NotMiddle k n) :=
  inferInstanceAs (Decidable (n.entries.length = MAX_ENTRY_SIZE → n.entries[DEGREE - 1]?.map Prod.fst ≠ some k))

instance (s : Heap K V) (k : K) : Decidable (Spared s k) :=
  inferInstanceAs (Decidable (∀ n ∈ nodesFrom s.node s.nodes s.root, n ≠ s.root → NotMiddle k (s.node n)))

/-- An addition is that of a key which is not in the middle of a full node below the root. -/
def Call.spared (s : Heap K V) : Call K V → Bool
  | .add k _ => Spared s k
  | .remove _ => true

/-- All calls are, each on the map that the calls before it leave. -/
def allSpared : Heap K V → List (Call K V) → Bool
  | _, [] => true
  | s, c :: calls => c.spared s && match c.exec.run s with
      | .ok _ s' => allSpared s' calls
      | .error .. => true

/-- A map as additions and removals leave it. -/
structure Kept (s : Heap K V) (items : List (K × V)) : Prop where
  valid : Valid s items
  filled : RootFilled s
  small : (s.node s.root).entries.length ≤ MAX_ENTRY_SIZE

theorem Kept.empty : Kept (Heap.empty : Heap K V) [] := by
  refine ⟨⟨⟨0, {0}, ⟨rfl, rfl⟩, Multiset.nodup_singleton 0, ?_⟩, .nil, rfl⟩, .inl rfl, Nat.zero_le _⟩
  intro n hn
  rw [Multiset.mem_singleton.mp hn]
  exact Nat.zero_lt_one

theorem Kept.exec {c : Call K V} {items : List (K × V)} (hkept : Kept s items) (hspared : c.spared s) :
    ∃ o s' items', c.exec.run s = .ok o s' ∧ Kept s' items' := by
  cases c with
  | add k v =>
    obtain ⟨s', hrun, hvalid, hfilled, hsmall, -⟩ :=
      add_spec hkept.valid hkept.filled hkept.small (of_decide_eq_true hspared) (v := v)
    exact ⟨_, s', _, hrun, hvalid, hfilled, hsmall⟩
  | remove k =>
    obtain ⟨s', hrun, hvalid, hfilled, hsmall, -⟩ := remove_spec hkept.valid hkept.filled (Nat.le_refl _) hkept.small k
    exact ⟨_, s', _, hrun, hvalid, hfilled, hsmall⟩

/-- No call throws, and the map stays a tree. -/
theorem Kept.execAll {calls : List (Call K V)} {items : List (K × V)} (hkept : Kept s items)
    (hspared : allSpared s calls) :
    ∃ s' items', (execAll calls).run s = .ok () s' ∧ Kept s' items' := by
  induction calls generalizing s items with
  | nil => exact ⟨s, items, rfl, hkept⟩
  | cons c calls ih =>
    obtain ⟨hc, hcalls⟩ := Bool.and_eq_true_iff.mp hspared
    obtain ⟨o, s₁, items₁, hrun, hkept₁⟩ := hkept.exec hc
    rw [hrun] at hcalls
    obtain ⟨s', items', hrest, hkept'⟩ := ih hkept₁ hcalls
    exact ⟨s', items', run_bind_ok hrun hrest, hkept'⟩

/-- After any additions and removals, `add` updates the map at one key: it returns the previous value, sets the new one
    and keeps the others; the size grows by one for a new key, and no key comes up twice in the iteration. -/
theorem add_updates_map (calls : List (Call K V)) (hcalls : allSpared Heap.empty calls) :
    ∃ s, (execAll calls).run Heap.empty = .ok () s ∧ ∀ k v, Spared s k →
      ∃ s' old es, (getValue k).run s = .ok old s ∧ (add k v).run s = .ok old s' ∧
      (getValue k).run s' = .ok (some v) s' ∧
        (∀ k', k' ≠ k → ∃ o, (getValue k').run s = .ok o s ∧ (getValue k').run s' = .ok o s') ∧
        s'.size = s.size + (if old.isSome then 0 else 1) ∧ (elements : M K V _).run s' = .ok es s' ∧
        (es.map Prod.fst).Nodup := by
  obtain ⟨s, items, hrun, hkept⟩ := Kept.empty.execAll hcalls
  refine ⟨s, hrun, ?_⟩
  intro k v hspared
  obtain ⟨s', hadd, hvalid, hfilled, -, hsize⟩ := add_spec hkept.valid hkept.filled hkept.small hspared (v := v)
  refine ⟨s', items.lookup k, put k v items, getValue_spec hkept.valid k, hadd, ?_, ?_, hsize,
    elements_spec hvalid hfilled, hvalid.increasing.nodup_keys⟩
  · rw [getValue_spec hvalid k, lookup_put_self]
  · intro k' hne
    refine ⟨items.lookup k', getValue_spec hkept.valid k', ?_⟩
    rw [getValue_spec hvalid k', lookup_put_of_ne hne]

/-! ## Samples -/

/-- The result of a computation that returns. -/
def result? {α : Type} (x : M K V α) (s : Heap K V) : Option α :=
  match x.run s with
  | .ok a _ => some a
  | .error .. => none

/-- The additions of the numbers below `n`. -/
def ascending (n : Nat) : List (Call Nat Nat) := (List.range n).map fun i => .add i i

/-- The heap after some calls. -/
def heapAfter (calls : List (Call Nat Nat)) : Heap Nat Nat :=
  match (execAll calls).run Heap.empty with
  | .ok _ s => s
  | .error _ s => s

theorem heapAfter_eq {calls : List (Call Nat Nat)} {s : Heap Nat Nat}
    (hrun : (execAll calls).run Heap.empty = .ok () s) :
    heapAfter calls = s := by
  unfold heapAfter
  rw [hrun]

/-- A full root is split, and a removal leaves one of the leaves without an entry to spare. -/
def sampleCalls : List (Call Nat Nat) := ascending 13 ++ [.remove 7]

theorem sampleCalls_spared : allSpared Heap.empty sampleCalls := by decide +kernel

theorem add_updates_map_sample : allSpared Heap.empty sampleCalls ∧
    ∃ s, (execAll sampleCalls).run Heap.empty = .ok () s ∧ Spared s 7 ∧
      ∃ s' old, (add 7 70).run s = .ok old s' ∧ (getValue 7).run s' = .ok (some 70) s' := by
  refine ⟨sampleCalls_spared, ?_⟩
  obtain ⟨s, hrun, hadd⟩ := add_updates_map sampleCalls sampleCalls_spared
  have hspared : Spared (heapAfter sampleCalls) 7 := by decide +kernel
  have hs : heapAfter sampleCalls = s := heapAfter_eq hrun
  generalize heapAfter sampleCalls = after at hs hspared
  subst hs
  obtain ⟨s', old, -, -, hrun', hget', -⟩ := hadd 7 70 hspared
  exact ⟨after, hrun, hspared, s', old, hrun', hget'⟩

/-- After the additions of 0 to 16 the key 11 is in the middle of a full leaf. Another addition of 11 returns `None`,
    and then the key is there twice. -/
theorem add_duplicates_key :
    result? (getValue 11) (heapAfter (ascending 17)) = some (some 11) ∧
      result? (add 11 100 >>= fun old => return (old, (← get).size, (← elements).map Prod.fst))
      (heapAfter (ascending 17)) =
        some (none, 18, [0, 1, 2, 3, 4, 5, 6, 7, 8, 9, 10, 11, 11, 12, 13, 14, 15, 16]) := by
  decide +kernel

end Calls

end CangjieRuntime.TreeMap
