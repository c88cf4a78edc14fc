import CangjieRuntime.Collection.Correctness.TreeShape

/-!
# `Collection.Correctness.TreeBalance` — nodes with too few entries are filled up

The loop of `deleteEntry` that goes up from a leaf. A node that is short of an entry borrows one from a brother, or is
merged with a brother; then the parent has lost an entry. For each of the four cases there is a lemma about the records
of the nodes involved and one about the subtrees; `Shared` and `Merged` say what has become of two brothers. The loop
ends with a whole tree.
-/

namespace CangjieRuntime.TreeMap

open Assoc List Multiset

variable {K V : Type} {s s' : Heap K V}

/-- Only the records of some nodes change. -/
structure Keeps (s s' : Heap K V) (F : Multiset Nat) : Prop where
  node : ∀ a, a ∉ F → s'.node a = s.node a
  nodes : s'.nodes = s.nodes
  root : s'.root = s.root
  size : s'.size = s.size

theorem Keeps.refl (s : Heap K V) (F : Multiset Nat) : Keeps s s F := ⟨fun _ _ => rfl, rfl, rfl, rfl⟩

theorem Keeps.set {F : Multiset Nat} (hkeeps : Keeps s s' F) {n : Nat} (hn : n ∈ F) (x : Node K V) :
    Keeps s (s'.set n x) F := by
  refine ⟨?_, hkeeps.nodes, hkeeps.root, hkeeps.size⟩
  intro a ha
  refine node_set (hkeeps.node a ha) ?_
  rintro rfl
  exact ha hn

section Borrow

variable {a b p d : Nat} {i : Int} {pa pb par : Option Nat} {k e : K × V} {as bs es₁ es₂ : List (K × V)}
  {acs bcs cs₁ cs₂ : List Nat}
  {dn : Node K V} {L : Lefts K V} {R : Rights K V} {x y : Part K V}

variable (hp : s.node p = ⟨es₁ ++ k :: es₂, par, cs₁ ++ b :: a :: cs₂⟩) (hlen : es₁.length = cs₁.length)
  (hap : a ≠ p) (hbp : b ≠ p) (hab : a ≠ b)
include hp hlen hap hbp hab

/-- The entries move; then comes the brother's turn. -/
theorem borrowLeft_run (hb : s.node b = ⟨bs ++ [e], pb, bcs⟩) (ha : s.node a = ⟨as, pa, acs⟩)
    (hi : i = cs₁.length + 1) :
    (borrowLeft a p i : M K V Unit).run s =
      (giveLast a b).run ((s.set a ⟨k :: as, pa, acs⟩).set p ⟨es₁ ++ e :: es₂, par, cs₁ ++ b :: a :: cs₂⟩) := by
  refine run_bind_some (Node.getChild_run hp (by omega)) ?_
  refine run_bind_some (Node.getEntry_run hp (by omega)) ?_
  refine run_bind_ok (Node.insertEntryAt_run (l := []) (r := as) ha rfl) ?_
  refine run_bind_ok (Node.deleteEntry_run (node_set hp hap.symm) (by omega)) ?_
  refine run_bind_ok (Node.entrySize_run (node_set (node_set hb hab.symm) hbp)) ?_
  refine run_bind_some (Node.getEntry_run (node_set (node_set hb hab.symm) hbp) (by simp)) ?_
  refine run_bind_ok (Node.insertEntryAt_run (Heap.set_node_self ..) (by omega)) ?_
  rw [Heap.set_set]
  rfl

theorem borrowRight_run (ha : s.node a = ⟨e :: as, pa, acs⟩) (hb : s.node b = ⟨bs, pb, bcs⟩) (hi : i = cs₁.length) :
    (borrowRight b p i : M K V Unit).run s =
      (giveFirst b a).run ((s.set b ⟨bs ++ [k], pb, bcs⟩).set p ⟨es₁ ++ e :: es₂, par, cs₁ ++ b :: a :: cs₂⟩) := by
  have hp' : s.node p = ⟨es₁ ++ k :: es₂, par, (cs₁ ++ [b]) ++ a :: cs₂⟩ := by rw [hp, append_assoc]; rfl
  refine run_bind_some (Node.getChild_run hp' (by simp [hi])) ?_
  refine run_bind_ok (Node.entrySize_run hb) ?_
  refine run_bind_some (Node.getEntry_run hp (by omega)) ?_
  rw [← append_nil bs] at hb
  refine run_bind_ok (Node.insertEntryAt_run hb rfl) ?_
  refine run_bind_ok (Node.deleteEntry_run (node_set hp hbp.symm) (by omega)) ?_
  refine run_bind_some (Node.getEntry_run (l := []) (node_set (node_set ha hab) hap) rfl) ?_
  refine run_bind_ok (Node.insertEntryAt_run (Heap.set_node_self ..) (by omega)) ?_
  rw [Heap.set_set]

omit hp hlen hap hbp hab

theorem giveLast_leaf (hb : s.node b = ⟨bs ++ [e], pb, []⟩) :
    (giveLast a b : M K V Unit).run s = .ok () (s.set b ⟨bs, pb, []⟩) := by
  refine run_bind_ok (Node.isLeaf_run hb) ?_
  refine run_bind_ok (Node.entrySize_run hb) ?_
  refine (Node.deleteEntry_run hb (by simp)).trans ?_
  rw [append_nil]

theorem giveLast_inner (hb : s.node b = ⟨bs ++ [e], pb, bcs ++ [d]⟩) (hlen : bcs.length = bs.length + 1)
    (ha : s.node a = ⟨as, pa, acs⟩) (hd : s.node d = dn) (hab : a ≠ b) (had : a ≠ d) (hbd : b ≠ d) :
    (giveLast a b : M K V Unit).run s =
      .ok () (((s.set a ⟨as, pa, d :: acs⟩).set d { dn with parent := some a }).set b ⟨bs, pb, bcs⟩) := by
  refine run_bind_ok (Node.isLeaf_run hb) ?_
  have hnil : (!decide ((bcs ++ [d]).length = 0)) = true := by simp
  dsimp only
  rw [if_pos hnil]
  refine run_bind_ok (Node.entrySize_run hb) ?_
  refine run_bind_some (Node.getChild_run hb (by simp [hlen])) ?_
  refine run_bind_ok (Node.insertChild_run (p := []) ha rfl) ?_
  refine run_bind_ok (Node.setParent_run (node_set hd had.symm) _) ?_
  have hb' := node_set (x := { dn with parent := some a }) (node_set (x := ⟨as, pa, [] ++ d :: acs⟩) hb hab.symm) hbd
  refine run_bind_ok (Node.entrySize_run hb') ?_
  refine run_bind_ok (Node.deleteChild_run hb' (by simp [hlen])) ?_
  refine run_bind_ok (Node.entrySize_run (Heap.set_node_self ..)) ?_
  refine (Node.deleteEntry_run (r := []) (Heap.set_node_self ..) (by simp)).trans ?_
  rw [Heap.set_set, append_nil, append_nil]
  rfl

theorem giveFirst_leaf (hb : s.node b = ⟨e :: bs, pb, []⟩) :
    (giveFirst a b : M K V Unit).run s = .ok () (s.set b ⟨bs, pb, []⟩) := by
  refine run_bind_ok (Node.isLeaf_run hb) ?_
  exact Node.deleteEntry_run (l := []) hb rfl

theorem giveFirst_inner (hb : s.node b = ⟨e :: bs, pb, d :: bcs⟩) (hlen : as.length = acs.length)
    (ha : s.node a = ⟨as, pa, acs⟩) (hd : s.node d = dn) (hab : a ≠ b) (had : a ≠ d) (hbd : b ≠ d) :
    (giveFirst a b : M K V Unit).run s =
      .ok () (((s.set a ⟨as, pa, acs ++ [d]⟩).set d { dn with parent := some a }).set b ⟨bs, pb, bcs⟩) := by
  refine run_bind_ok (Node.isLeaf_run hb) ?_
  dsimp only
  rw [if_pos (by simp)]
  refine run_bind_some (Node.getChild_run (p := []) hb rfl) ?_
  refine run_bind_ok (Node.entrySize_run ha) ?_
  rw [← append_nil acs] at ha
  refine run_bind_ok (Node.insertChild_run ha (by rw [hlen])) ?_
  refine run_bind_ok (Node.setParent_run (node_set hd had.symm) _) ?_
  refine run_bind_ok (Node.deleteChild_run (p := []) (node_set (node_set hb hab.symm) hbd) rfl) ?_
  refine (Node.deleteEntry_run (l := []) (Heap.set_node_self ..) rfl).trans ?_
  rw [Heap.set_set]
  rfl

/-! ### Two brothers -/

/-- The nodes of two brothers `b` and `a` under `p` are different ones. `D` are the nodes of a child of `b`, `X` the
    other nodes below `b` and `Y` the nodes below `a`. -/
structure Apart (p b a : Nat) (X D Y : Multiset Nat) : Prop where
  bp : b ≠ p
  ap : a ≠ p
  ab : a ≠ b
  stays : ∀ c ∈ X, c ≠ p ∧ c ≠ b ∧ c ≠ a ∧ c ∉ D ∧ c ∉ Y
  moves : ∀ c ∈ D, c ≠ p ∧ c ≠ b ∧ c ≠ a
  below : ∀ c ∈ Y, c ≠ p ∧ c ≠ b ∧ c ≠ a ∧ c ∉ D
  nodup : D.Nodup

theorem Apart.of_nodup {X D Y : Multiset Nat} (hnodup : ({p} + ({b} + (X + D) + ({a} + Y))).Nodup) :
    Apart p b a X D Y := by
  simp only [Multiset.nodup_add, Multiset.disjoint_add_left, Multiset.disjoint_add_right, Multiset.singleton_disjoint,
    Multiset.disjoint_singleton, Multiset.mem_singleton, Multiset.mem_add, not_or] at hnodup
  constructor <;> grind [Multiset.disjoint_left]

variable {node node' : Nat → Node K V} {h : Nat} {d : Part K V} {X D Y : Multiset Nat}

/-- What the change of `a`, `b`, `p` and of the child that moves means for the children. -/
theorem Apart.kids (hapart : Apart p b a X d.foot Y) (hd : Kid node h b d)
    (hkeep : ∀ c, c ≠ a → c ≠ b → c ≠ p → c ≠ d.addr → node' c = node c)
    (hmoved : node' d.addr = { node d.addr with parent := some a }) :
    (∀ q, Kid node h b q → q.foot ≤ X → Kid node' h b q) ∧ Kid node' h a d ∧
      ∀ q, Kid node h a q → q.foot ≤ Y → Kid node' h a q := by
  have hdmem : d.addr ∈ d.foot := hd.1.addr_mem
  refine ⟨?_, ⟨?_, ?_⟩, ?_⟩
  · intro q hq hle
    refine hq.congr fun c hc => ?_
    obtain ⟨hcp, hcb, hca, hcd, -⟩ := hapart.stays c (mem_of_le hle hc)
    exact hkeep c hca hcb hcp fun heq => hcd (heq ▸ hdmem)
  · refine hd.1.reparent hapart.nodup hmoved fun c hc hne => ?_
    obtain ⟨hcp, hcb, hca⟩ := hapart.moves c hc
    exact hkeep c hca hcb hcp hne
  · rw [hmoved]
    exact hd.2
  · intro q hq hle
    refine hq.congr fun c hc => ?_
    obtain ⟨hcp, hcb, hca, hcd⟩ := hapart.below c (mem_of_le hle hc)
    exact hkeep c hca hcb hcp fun heq => hcd (heq ▸ hdmem)

/-- What two brothers `x` and `y`, with the entry `e` between them, are after an entry has gone from one to the
    other. -/
structure Shared (s s' : Heap K V) (h p : Nat) (par : Option Nat) (L : Lefts K V) (x : Part K V) (e : K × V)
    (y : Part K V) (R : Rights K V) (x' : Part K V) (e' : K × V) (y' : Part K V) : Prop where
  left : x'.addr = x.addr
  right : y'.addr = y.addr
  kidLeft : Kid s'.node h p x'
  kidRight : Kid s'.node h p y'
  items : x'.items ++ e' :: y'.items = x.items ++ e :: y.items
  foot : x'.foot + y'.foot = x.foot + y.foot
  record : s'.node p = inner (L ++ [(x', e')]) y'.addr R par
  keeps : Keeps s s' ({p} + (x.foot + y.foot))

/-- Leaves share their entries and the one between them in another way. -/
theorem Shared.of_leaf (xs ys : List (K × V)) (e' : K × V) (hx : Sub s.node 0 (some p) x) (hy : Sub s.node 0 (some p) y)
    (hitems : xs ++ e' :: ys = x.items ++ e :: y.items) (hrecx : s'.node x.addr = ⟨xs, some p, []⟩)
    (hrecy : s'.node y.addr = ⟨ys, some p, []⟩) (hsizex : MIN_ENTRY_SIZE ≤ xs.length ∧ xs.length ≤ MAX_ENTRY_SIZE)
    (hsizey : MIN_ENTRY_SIZE ≤ ys.length ∧ ys.length ≤ MAX_ENTRY_SIZE)
    (hrecp : s'.node p = inner (L ++ [(x, e')]) y.addr R par) (hkeeps : Keeps s s' ({p} + (x.foot + y.foot))) :
    ∃ x' e' y', Shared s s' 0 p par L x e y R x' e' y' := by
  refine ⟨⟨x.addr, xs, {x.addr}⟩, e', ⟨y.addr, ys, {y.addr}⟩, rfl, rfl, ⟨⟨hrecx, rfl⟩, ?_⟩, ⟨⟨hrecy, rfl⟩, ?_⟩, hitems,
    ?_, ?_, hkeeps⟩
  · rw [hrecx]
    exact hsizex
  · rw [hrecy]
    exact hsizey
  · rw [hx.2, hy.2]
  · rw [hrecp]
    simp [inner]

/-- Inner nodes share their entries, the one between them and their children in another way. -/
theorem Shared.of_inner {Lx Ly : Lefts K V} {c z : Part K V} (Lx' Ly' : Lefts K V) (c' : Part K V) (e' : K × V)
    (hinx : Inner s.node h (some p) x Lx c []) (hiny : Inner s.node h (some p) y Ly z [])
    (hsplit : Lx' ++ [(c', e')] ++ Ly' = Lx ++ [(c, e)] ++ Ly) (hrecx : s'.node x.addr = inner Lx' c'.addr [] (some p))
    (hrecy : s'.node y.addr = inner Ly' z.addr [] (some p))
    (hkidsx : ∀ q ∈ Lx'.map (·.1) ++ [c'], Kid s'.node h x.addr q)
    (hkidsy : ∀ q ∈ Ly'.map (·.1) ++ [z], Kid s'.node h y.addr q)
    (hsizex : MIN_ENTRY_SIZE ≤ Lx'.length ∧ Lx'.length ≤ MAX_ENTRY_SIZE)
    (hsizey : MIN_ENTRY_SIZE ≤ Ly'.length ∧ Ly'.length ≤ MAX_ENTRY_SIZE)
    (hrecp : s'.node p = inner (L ++ [(x, e')]) y.addr R par) (hkeeps : Keeps s s' ({p} + (x.foot + y.foot))) :
    ∃ x' e' y', Shared s s' (h + 1) p par L x e y R x' e' y' := by
  have hitems := congrArg Lefts.items hsplit
  have hfoot := congrArg Lefts.foot hsplit
  simp only [Lefts.items_append, Lefts.items_singleton, Lefts.foot_append, Lefts.foot_singleton] at hitems hfoot
  refine ⟨⟨x.addr, Lx'.items ++ c'.items, {x.addr} + (Lx'.foot + c'.foot)⟩, e',
    ⟨y.addr, Ly'.items ++ z.items, {y.addr} + (Ly'.foot + z.foot)⟩, rfl, rfl,
    ⟨Inner.sub (R := []) ⟨hrecx, hkidsx, by simp, by simp⟩, ?_⟩,
    ⟨Inner.sub (R := []) ⟨hrecy, hkidsy, by simp, by simp⟩, ?_⟩, ?_, ?_, ?_, hkeeps⟩
  · rw [hrecx]
    simpa [Sized, inner] using hsizex
  · rw [hrecy]
    simpa [Sized, inner] using hsizey
  · rw [hinx.items, hiny.items]
    simpa using congrArg (· ++ z.items) hitems
  · rw [hinx.foot, hiny.foot, Rights.foot_nil, add_zero, add_zero]
    dsimp only
    have hall : Lx'.foot + c'.foot + (Ly'.foot + z.foot) = Lx.foot + c.foot + (Ly.foot + z.foot) := by
      rw [← add_assoc, ← add_assoc, hfoot]
    rw [add_add_add_comm, hall, add_add_add_comm]
  · rw [hrecp]
    simp [inner]

/-- The record of a node at two neighbouring children. -/
theorem inner_brothers (L : Lefts K V) (x : Part K V) (e : K × V) (a : Nat) (R : Rights K V) (par : Option Nat) :
    inner (L ++ [(x, e)]) a R par =
      ⟨L.map (·.2) ++ e :: R.map (·.1), par, L.map (·.1.addr) ++ x.addr :: a :: R.map (·.2.addr)⟩ := by
  simp [inner]

theorem borrowLeft_spec (hrec : s.node p = inner (L ++ [(x, e)]) y.addr R par)
    (hx : Kid s.node h p x) (hy : Sub s.node h (some p) y) (hextra : MIN_ENTRY_SIZE < (s.node x.addr).entries.length)
    (hshort : (s.node y.addr).entries.length + 1 = MIN_ENTRY_SIZE) (hnodup : ({p} + (x.foot + y.foot)).Nodup)
    (hi : i = L.length + 1) :
    ∃ s', (borrowLeft y.addr p i).run s = .ok () s' ∧ ∃ x' e' y', Shared s s' h p par L x e y R x' e' y' := by
  rw [inner_brothers] at hrec
  have hpmem : p ∈ {p} + (x.foot + y.foot) := by simp
  have hxmem : x.addr ∈ {p} + (x.foot + y.foot) := by simp [hx.1.addr_mem]
  have hymem : y.addr ∈ {p} + (x.foot + y.foot) := by simp [hy.addr_mem]
  have hmax := hx.2.2
  cases h with
  | zero =>
    have hapart : Apart p x.addr y.addr 0 0 0 := .of_nodup (by simpa [hx.1.2, hy.2] using hnodup)
    have hxrec := hx.1.1
    rw [hxrec] at hextra hmax
    rw [hy.1] at hshort
    rcases eq_nil_or_concat x.items with hnil | ⟨bs, e', hbs⟩
    · rw [hnil] at hextra
      exact absurd hextra (Nat.not_lt_zero _)
    rw [concat_eq_append] at hbs
    simp only [hbs, length_append, length_singleton] at hxrec hextra hmax
    refine ⟨_, (borrowLeft_run hrec (by simp) hapart.ap hapart.bp hapart.ab hxrec hy.1 (by simp [hi])).trans
      (giveLast_leaf (node_set (node_set hxrec hapart.ab.symm) hapart.bp)), ?_⟩
    refine Shared.of_leaf bs (e :: y.items) e' hx.1 hy (by rw [hbs, append_assoc]; rfl)
      (Heap.set_node_self ..) (node_set (node_set (Heap.set_node_self ..) hapart.ap) hapart.ab)
      ⟨Nat.le_of_lt_succ hextra, Nat.le_of_succ_le hmax⟩ ⟨hshort.ge, hshort.le.trans (by decide)⟩ ?_
      ((((Keeps.refl s _).set hymem _).set hpmem _).set hxmem _)
    rw [inner_brothers]
    exact node_set (Heap.set_node_self ..) hapart.bp.symm
  | succ h =>
    obtain ⟨Lx, c, hinx⟩ := hx.1.focus_last
    obtain ⟨Ly, z, hiny⟩ := hy.focus_last
    rw [hinx.length_entries] at hextra hmax
    rw [hiny.length_entries] at hshort
    rcases Lx.eq_nil_or_append with rfl | ⟨Lx, c', e', rfl⟩
    · exact absurd hextra (Nat.not_lt_zero _)
    simp only [length_append, length_singleton, length_nil, Nat.add_zero] at hextra hmax hshort
    have hxrec : s.node x.addr = ⟨Lx.map (·.2) ++ [e'], some p, Lx.map (·.1.addr) ++ [c'.addr] ++ [c.addr]⟩ := by
      rw [hinx.record]
      simp [inner]
    have hyrec : s.node y.addr = ⟨Ly.map (·.2), some p, Ly.map (·.1.addr) ++ [z.addr]⟩ := by
      rw [hiny.record]
      simp [inner]
    have hxfoot : x.foot = {x.addr} + (Lx.foot + c'.foot + c.foot) := by simp [hinx.foot]
    have hyfoot : y.foot = {y.addr} + (Ly.foot + z.foot) := by simp [hiny.foot]
    have hapart : Apart p x.addr y.addr (Lx.foot + c'.foot) c.foot (Ly.foot + z.foot) :=
      .of_nodup (by rwa [hxfoot, hyfoot] at hnodup)
    obtain ⟨hcp, hcx, hcy⟩ := hapart.moves c.addr hinx.kid.1.addr_mem
    have hcmem : c.addr ∈ {p} + (x.foot + y.foot) := by simp [hxfoot, hinx.kid.1.addr_mem]
    refine ⟨_, (borrowLeft_run hrec (by simp) hapart.ap hapart.bp hapart.ab hxrec hyrec (by simp [hi])).trans
      (giveLast_inner (node_set (node_set hxrec hapart.ab.symm) hapart.bp) (by simp)
        (node_set (Heap.set_node_self ..) hapart.ap) (node_set (node_set rfl hcy) hcp) hapart.ab hcy.symm hcx.symm), ?_⟩
    obtain ⟨hstay, hckid, hbelow⟩ := hapart.kids hinx.kid
      (fun n hny hnx hnp hnc => node_set (node_set (node_set (node_set (node_set rfl hny) hnp) hny) hnc) hnx)
      (node_set (Heap.set_node_self ..) hcx)
    refine Shared.of_inner Lx ((c, e) :: Ly) c' e' hinx hiny (by simp)
      ((Heap.set_node_self ..).trans (by simp [inner]))
      ((node_set (node_set (Heap.set_node_self ..) hcy.symm) hapart.ab).trans (by simp [inner])) ?_ ?_
      ⟨Nat.le_of_lt_succ hextra, Nat.le_of_succ_le hmax⟩ ⟨hshort.ge, hshort.le.trans (by decide)⟩ ?_
      ((((((Keeps.refl s _).set hymem _).set hpmem _).set hymem _).set hcmem _).set hxmem _)
    · intro q hq
      refine hstay q (hinx.kids q ?_) (by simpa using foot_le_of_mem_kids (R := []) hq)
      rw [map_append, append_assoc]
      exact (append_sublist_append_left _).mpr (sublist_append_left [c'] [c]) |>.subset hq
    · intro q hq
      rcases mem_cons.mp hq with rfl | hq
      · exact hckid
      · exact hbelow q (hiny.kids q hq) (by simpa using foot_le_of_mem_kids (R := []) hq)
    · rw [inner_brothers]
      exact node_set (node_set (node_set (Heap.set_node_self ..) hapart.ap.symm) hcp.symm) hapart.bp.symm

theorem borrowRight_spec (hrec : s.node p = inner (L ++ [(x, e)]) y.addr R par)
    (hx : Sub s.node h (some p) x) (hy : Kid s.node h p y) (hextra : MIN_ENTRY_SIZE < (s.node y.addr).entries.length)
    (hshort : (s.node x.addr).entries.length + 1 = MIN_ENTRY_SIZE) (hnodup : ({p} + (x.foot + y.foot)).Nodup)
    (hi : i = L.length) :
    ∃ s', (borrowRight x.addr p i).run s = .ok () s' ∧ ∃ x' e' y', Shared s s' h p par L x e y R x' e' y' := by
  rw [inner_brothers] at hrec
  have hpmem : p ∈ {p} + (x.foot + y.foot) := by simp
  have hxmem : x.addr ∈ {p} + (x.foot + y.foot) := by simp [hx.addr_mem]
  have hymem : y.addr ∈ {p} + (x.foot + y.foot) := by simp [hy.1.addr_mem]
  have hmax := hy.2.2
  rw [add_comm x.foot] at hnodup
  cases h with
  | zero =>
    have hapart : Apart p y.addr x.addr 0 0 0 := .of_nodup (by simpa [hx.2, hy.1.2] using hnodup)
    have hyrec := hy.1.1
    rw [hyrec] at hextra hmax
    rw [hx.1, ← length_concat (a := e), concat_eq_append] at hshort
    cases hbs : y.items with
    | nil =>
      rw [hbs] at hextra
      exact absurd hextra (Nat.not_lt_zero _)
    | cons e' bs =>
      simp only [hbs, length_cons] at hyrec hextra hmax
      refine ⟨_, (borrowRight_run hrec (by simp) hapart.bp hapart.ap hapart.ab.symm hyrec hx.1 (by simp [hi])).trans
        (giveFirst_leaf (node_set (node_set hyrec hapart.ab.symm) hapart.bp)), ?_⟩
      refine Shared.of_leaf (x.items ++ [e]) bs e' hx hy.1 (by rw [hbs, append_assoc]; rfl)
        (node_set (node_set (Heap.set_node_self ..) hapart.ap) hapart.ab) (Heap.set_node_self ..)
        ⟨hshort.ge, hshort.le.trans (by decide)⟩ ⟨Nat.le_of_lt_succ hextra, Nat.le_of_succ_le hmax⟩ ?_
        ((((Keeps.refl s _).set hxmem _).set hpmem _).set hymem _)
      rw [inner_brothers]
      exact node_set (Heap.set_node_self ..) hapart.bp.symm
  | succ h =>
    obtain ⟨Lx, c, hinx⟩ := hx.focus_last
    obtain ⟨Ly, z, hiny⟩ := hy.1.focus_last
    rw [hinx.length_entries] at hshort
    rw [hiny.length_entries] at hextra hmax
    rcases Ly with _ | ⟨⟨c', e'⟩, Ly⟩
    · exact absurd hextra (Nat.not_lt_zero _)
    simp only [length_cons, length_nil, Nat.add_zero] at hextra hmax hshort
    rw [← length_concat (a := (c, e)), concat_eq_append] at hshort
    have hxrec : s.node x.addr = ⟨Lx.map (·.2), some p, Lx.map (·.1.addr) ++ [c.addr]⟩ := by
      rw [hinx.record]
      simp [inner]
    have hyrec : s.node y.addr = ⟨e' :: Ly.map (·.2), some p, c'.addr :: (Ly.map (·.1.addr) ++ [z.addr])⟩ := by
      rw [hiny.record]
      simp [inner]
    have hxfoot : x.foot = {x.addr} + (Lx.foot + c.foot) := by simp [hinx.foot]
    have hyfoot : y.foot = {y.addr} + (Lefts.foot Ly + z.foot + c'.foot) := by
      rw [hiny.foot, ← singleton_append, Lefts.foot_append, Lefts.foot_singleton, Rights.foot_nil]
      abel
    have hapart : Apart p y.addr x.addr (Lefts.foot Ly + z.foot) c'.foot (Lx.foot + c.foot) :=
      .of_nodup (by rwa [hxfoot, hyfoot] at hnodup)
    have hckid : Kid s.node h y.addr c' := hiny.left (mem_cons_self ..)
    obtain ⟨hcp, hcy, hcx⟩ := hapart.moves c'.addr hckid.1.addr_mem
    have hcmem : c'.addr ∈ {p} + (x.foot + y.foot) := by simp [hyfoot, hckid.1.addr_mem]
    refine ⟨_, (borrowRight_run hrec (by simp) hapart.bp hapart.ap hapart.ab.symm hyrec hxrec (by simp [hi])).trans
      (giveFirst_inner (node_set (node_set hyrec hapart.ab.symm) hapart.bp) (by simp)
        (node_set (Heap.set_node_self ..) hapart.ap) (node_set (node_set rfl hcx) hcp) hapart.ab hcx.symm hcy.symm), ?_⟩
    obtain ⟨hstay, hckid', hbelow⟩ := hapart.kids hckid
      (fun n hnx hny hnp hnc => node_set (node_set (node_set (node_set (node_set rfl hnx) hnp) hnx) hnc) hny)
      (node_set (Heap.set_node_self ..) hcy)
    refine Shared.of_inner (Lx ++ [(c, e)]) Ly c' e' hinx hiny (by simp)
      ((node_set (node_set (Heap.set_node_self ..) hcx.symm) hapart.ab).trans (by simp [inner]))
      ((Heap.set_node_self ..).trans (by simp [inner])) ?_ ?_
      ⟨hshort.ge, hshort.le.trans (by decide)⟩ ⟨Nat.le_of_lt_succ hextra, Nat.le_of_succ_le hmax⟩ ?_
      ((((((Keeps.refl s _).set hxmem _).set hpmem _).set hxmem _).set hcmem _).set hymem _)
    · intro q hq
      rw [List.mem_append, List.mem_singleton] at hq
      rcases hq with hq | rfl
      · rw [map_append] at hq
        exact hbelow q (hinx.kids q hq) (by simpa using foot_le_of_mem_kids (R := []) hq)
      · exact hckid'
    · intro q hq
      exact hstay q (hiny.kids q (mem_cons_of_mem _ hq)) (by simpa using foot_le_of_mem_kids (R := []) hq)
    · rw [inner_brothers]
      exact node_set (node_set (node_set (Heap.set_node_self ..) hapart.ap.symm) hcp.symm) hapart.bp.symm

end Borrow

/-! ## Merging -/

section Merge

variable {a b p : Nat} {i : Int} {pa pb par : Option Nat} {k : K × V} {as bs es₁ es₂ : List (K × V)}
  {acs bcs cs₁ cs₂ : List Nat}

/-- The loop of `moveEntries`, with the entries `d` moved. -/
theorem moveEntries_loop {d rest ts : List (K × V)} {ptr : Option Nat} {tcs : List Nat} (hne : b ≠ a)
    (ha : s.node a = ⟨d ++ rest, pa, acs⟩) (hb : s.node b = ⟨ts, ptr, tcs⟩) :
    ((range' d.length rest.length).forM fun (i : Nat) => do
      Node.insertEntryAt b (← Node.entrySize b) (← getOrThrow (← Node.getEntry a i)) : M K V Unit).run s =
      .ok () (s.set b ⟨ts ++ rest, ptr, tcs⟩) := by
  induction rest generalizing s d ts with
  | nil =>
    have hsame : s.set b ⟨ts ++ [], ptr, tcs⟩ = s := by
      unfold Heap.set
      rw [append_nil, ← hb, Function.update_eq_self]
    rw [hsame]
    rfl
  | cons e rest ih =>
    rw [List.length_cons, List.range'_succ, List.forM]
    refine run_bind_ok (run_bind_ok (Node.entrySize_run hb)
      (run_bind_some (Node.getEntry_run ha rfl) (Node.insertEntryAt_run (r := []) (hb.trans (by rw [append_nil])) rfl)))
      ?_
    have ha' : s.node a = ⟨(d ++ [e]) ++ rest, pa, acs⟩ := by rw [ha, append_assoc]; rfl
    have hrun := ih (node_set ha' hne.symm) (Heap.set_node_self s b ⟨ts ++ [e], ptr, tcs⟩)
    rw [Heap.set_set, append_assoc, length_append] at hrun
    exact hrun

theorem moveEntries_run (hne : b ≠ a) (ha : s.node a = ⟨as, pa, acs⟩) (hb : s.node b = ⟨bs, pb, bcs⟩) :
    (moveEntries b a : M K V Unit).run s = .ok () (s.set b ⟨bs ++ as, pb, bcs⟩) := by
  refine run_bind_ok (Node.entrySize_run ha) ?_
  rw [range_eq_range']
  exact moveEntries_loop (d := []) hne ha hb

/-- What `s'` is after `n`, which had the children `cs`, has become the parent of `rest` as well. -/
structure Adopts (s s' : Heap K V) (n : Nat) (es : List (K × V)) (par : Option Nat) (cs rest : List Nat) : Prop where
  record : s'.node n = ⟨es, par, cs ++ rest⟩
  moved : ∀ c ∈ rest, s'.node c = { s.node c with parent := some n }
  keep : ∀ a, a ≠ n → a ∉ rest → s'.node a = s.node a
  same : s'.nodes = s.nodes ∧ s'.root = s.root ∧ s'.size = s.size

theorem Adopts.nil (hb : s.node b = ⟨bs, pb, bcs⟩) : Adopts s s b bs pb bcs [] :=
  ⟨by rw [hb, append_nil], nofun, fun _ _ _ => rfl, rfl, rfl, rfl⟩

theorem Adopts.cons {c : Nat} {rest : List Nat} (hbc : b ≠ c) (hrest : b ∉ rest)
    (hadopts : Adopts ((s.set b ⟨bs, pb, bcs ++ [c]⟩).set c { s.node c with parent := some b }) s' b bs pb
      (bcs ++ [c]) rest) :
    Adopts s s' b bs pb bcs (c :: rest) := by
  refine ⟨?_, ?_, ?_, hadopts.same⟩
  · rw [hadopts.record, append_assoc]
    rfl
  · intro n hn
    by_cases hnr : n ∈ rest
    · rw [hadopts.moved n hnr]
      by_cases hnc : n = c
      · subst hnc
        rw [Heap.set_node_self]
      · have hnb : n ≠ b := by
          rintro rfl
          exact hrest hnr
        rw [node_set (node_set rfl hnb) hnc]
    · have hnc : n = c := (mem_cons.mp hn).resolve_right hnr
      subst hnc
      rw [hadopts.keep n hbc.symm hnr, Heap.set_node_self]
  · intro n hnb hn
    rw [List.mem_cons, not_or] at hn
    rw [hadopts.keep n hnb hn.2]
    exact node_set (node_set rfl hnb) hn.1

/-- The loop of `moveChildren`, with the children `d` moved. -/
theorem moveChildren_loop {d rest tcs : List Nat} (hne : b ≠ a) (ha : s.node a = ⟨as, pa, d ++ rest⟩)
    (hb : s.node b = ⟨bs, pb, tcs⟩) (harest : a ∉ rest) (hbrest : b ∉ rest) :
    ∃ s', ((range' d.length rest.length).forM fun (i : Nat) => do
        let child ← getOrThrow (← Node.getChild a i)
        Node.insertChild b (← Node.childrenSize b) child
        setParent child (some b) : M K V Unit).run s = .ok () s' ∧ Adopts s s' b bs pb tcs rest := by
  induction rest generalizing s d tcs with
  | nil => exact ⟨s, rfl, .nil hb⟩
  | cons c rest ih =>
    rw [List.mem_cons, not_or] at harest hbrest
    have ha' : s.node a = ⟨as, pa, (d ++ [c]) ++ rest⟩ := by rw [ha, append_assoc]; rfl
    obtain ⟨s', hrun, hadopts⟩ :=
      ih (node_set (node_set ha' hne.symm) harest.1) (node_set (Heap.set_node_self ..) hbrest.1)
      harest.2 hbrest.2
    refine ⟨s', ?_, hadopts.cons hbrest.1 hbrest.2⟩
    rw [List.length_cons, List.range'_succ, List.forM]
    refine run_bind_ok (run_bind_some (Node.getChild_run ha rfl) (run_bind_ok (Node.childrenSize_run hb) (run_bind_ok
      (Node.insertChild_run (q := []) (hb.trans (by rw [append_nil])) rfl)
      (Node.setParent_run (node_set rfl (Ne.symm hbrest.1)) _)))) ?_
    rw [length_append] at hrun
    exact hrun

theorem moveChildren_run (hne : b ≠ a) (ha : s.node a = ⟨as, pa, acs⟩) (hb : s.node b = ⟨bs, pb, bcs⟩) (haa : a ∉ acs)
    (hba : b ∉ acs) :
    ∃ s', (moveChildren b a : M K V Unit).run s = .ok () s' ∧ Adopts s s' b bs pb bcs acs := by
  obtain ⟨s', hrun, hadopts⟩ := moveChildren_loop (d := []) hne ha hb haa hba
  refine ⟨s', run_bind_ok (Node.isLeaf_run ha) ?_, hadopts⟩
  cases acs with
  | nil => exact hrun
  | cons c cs =>
    refine run_bind_ok (Node.childrenSize_run ha) ?_
    rw [range_eq_range']
    exact hrun

/-- A loop that deletes the elements of a list in the record of a node, from the last one down, as far as `d`. `g` is
    the record with a given list. -/
theorem delete_loop {α : Type} {g : List α → Node K V} {f : Nat → M K V Unit} {d rest : List α}
    (hf : ∀ (s : Heap K V) (l : List α) (x : α), s.node b = g (l ++ [x]) → (f l.length).run s = .ok () (s.set b (g l)))
    (hb : s.node b = g (d ++ rest)) :
    ((range' d.length rest.length).reverse.forM f).run s = .ok () (s.set b (g d)) := by
  induction rest using reverseRecOn generalizing s with
  | nil =>
    have hsame : s.set b (g d) = s := by
      unfold Heap.set
      rw [← append_nil d, ← hb, Function.update_eq_self]
    rw [hsame]
    rfl
  | append_singleton rest e ih =>
    rw [length_append, length_singleton, range'_concat, reverse_append, reverse_singleton,
      List.singleton_append, List.forM]
    rw [← append_assoc] at hb
    have hrun := ih (s := s.set b (g (d ++ rest))) (Heap.set_node_self ..)
    rw [Heap.set_set] at hrun
    have hfirst := hf s _ e hb
    rw [length_append] at hfirst
    exact run_bind_ok (by simpa using hfirst) hrun

theorem deleteEntries_loop {d rest : List (K × V)} (hb : s.node b = ⟨d ++ rest, pb, bcs⟩) :
    ((range' d.length rest.length).reverse.forM fun (i : Nat) => Node.deleteEntry b i : M K V Unit).run s =
      .ok () (s.set b ⟨d, pb, bcs⟩) := by
  refine delete_loop (g := fun es => ⟨es, pb, bcs⟩) (fun s l e hl => ?_) hb
  rw [Node.deleteEntry_run hl rfl, append_nil]

theorem deleteEntries_run (hb : s.node b = ⟨bs, pb, bcs⟩) :
    ((List.range bs.length).reverse.forM fun (i : Nat) => Node.deleteEntry b i : M K V Unit).run s =
      .ok () (s.set b ⟨[], pb, bcs⟩) := by
  rw [range_eq_range']
  exact deleteEntries_loop (d := []) hb

variable [LinearOrder K]

section Run

variable (hp : s.node p = ⟨es₁ ++ k :: es₂, par, cs₁ ++ b :: a :: cs₂⟩) (hlen : es₁.length = cs₁.length)
  (hb : s.node b = ⟨bs, pb, bcs⟩) (ha : s.node a = ⟨as, pa, acs⟩) (hbp : b ≠ p) (hab : a ≠ b)
  (hpa : p ∉ acs) (haa : a ∉ acs) (hba : b ∉ acs) (hbelow : Below k.1 bs)
include hp hlen hb ha hbp hab hpa haa hba hbelow

theorem mergeLeft_run (hi : i = cs₁.length + 1) :
    ∃ s', (mergeLeft a p i : M K V Nat).run s = .ok b s' ∧ s'.node p = ⟨es₁ ++ es₂, par, cs₁ ++ b :: cs₂⟩ ∧
      s'.node b = ⟨bs ++ k :: as, pb, bcs ++ acs⟩ ∧ (∀ c ∈ acs, s'.node c = { s.node c with parent := some b }) ∧
      (∀ n, n ≠ p → n ≠ b → n ∉ acs → s'.node n = s.node n) ∧ s'.nodes = s.nodes ∧ s'.root = s.root ∧
        s'.size = s.size := by
  have hb₁ := Heap.set_node_self s b ⟨bs ++ [k], pb, bcs⟩
  have hb₂ := Heap.set_node_self s b ⟨bs ++ [k] ++ as, pb, bcs⟩
  obtain ⟨s₃, hrun, hb₃, hmoved, hkeep, hsame⟩ := moveChildren_run hab.symm (node_set ha hab) hb₂ haa hba
  have hp₃ : s₃.node p = ⟨es₁ ++ k :: es₂, par, (cs₁ ++ [b]) ++ a :: cs₂⟩ := by
    rw [hkeep p hbp.symm hpa, node_set hp hbp.symm, append_assoc]
    rfl
  refine ⟨s₃.set p ⟨es₁ ++ es₂, par, cs₁ ++ b :: cs₂⟩, ?_, Heap.set_node_self .., ?_, ?_, ?_, hsame⟩
  · refine run_bind_some (Node.getChild_run hp (by omega)) ?_
    refine run_bind_some (Node.getEntry_run hp (by omega)) ?_
    refine run_bind_ok (Node.insertEntry_run (r := []) (hb.trans (by rw [append_nil])) hbelow nofun) ?_
    refine run_bind_ok (moveEntries_run hab.symm (node_set ha hab) hb₁) ?_
    rw [Heap.set_set]
    refine run_bind_ok hrun ?_
    refine run_bind_ok (Node.deleteEntry_run hp₃ (by omega)) ?_
    refine run_bind_ok (Node.deleteChild_run (Heap.set_node_self ..) (by simp [hi])) ?_
    rw [Heap.set_set, append_assoc]
    rfl
  · rw [node_set hb₃ hbp, append_assoc]
    rfl
  · intro c hc
    have hcp : c ≠ p := fun heq => hpa (heq ▸ hc)
    have hcb : c ≠ b := fun heq => hba (heq ▸ hc)
    rw [node_set (hmoved c hc) hcp, node_set rfl hcb]
  · intro n hnp hnb hn
    rw [node_set (hkeep n hnb hn) hnp, node_set rfl hnb]

theorem mergeRight_run (hap : a ≠ p) (hi : i = cs₁.length) :
    ∃ s', (mergeRight b p i : M K V Nat).run s = .ok a s' ∧ s'.node p = ⟨es₁ ++ es₂, par, cs₁ ++ b :: cs₂⟩ ∧
      s'.node b = ⟨bs ++ k :: as, pb, bcs ++ acs⟩ ∧ (s'.node a).entries = [] ∧
      (∀ c ∈ acs, s'.node c = { s.node c with parent := some b }) ∧
      (∀ n, n ≠ p → n ≠ b → n ≠ a → n ∉ acs → s'.node n = s.node n) ∧ s'.nodes = s.nodes ∧ s'.root = s.root ∧
        s'.size = s.size := by
  have hp' : s.node p = ⟨es₁ ++ k :: es₂, par, (cs₁ ++ [b]) ++ a :: cs₂⟩ := by rw [hp, List.append_assoc]; rfl
  have hb₁ := Heap.set_node_self s b ⟨bs ++ [k], pb, bcs⟩
  have hb₂ := node_set (x := ⟨[], pa, acs⟩) (Heap.set_node_self s b ⟨bs ++ [k] ++ as, pb, bcs⟩) hab.symm
  have ha₂ := Heap.set_node_self (s.set b ⟨bs ++ [k] ++ as, pb, bcs⟩) a ⟨[], pa, acs⟩
  obtain ⟨s₃, hrun, hb₃, hmoved, hkeep, hsame⟩ := moveChildren_run hab.symm ha₂ hb₂ haa hba
  have hp₃ : s₃.node p = ⟨es₁ ++ k :: es₂, par, (cs₁ ++ [b]) ++ a :: cs₂⟩ := by
    rw [hkeep p hbp.symm hpa, node_set (node_set hp' hbp.symm) hap.symm]
  refine ⟨s₃.set p ⟨es₁ ++ es₂, par, cs₁ ++ b :: cs₂⟩, ?_, Heap.set_node_self .., ?_, ?_, ?_, ?_, hsame⟩
  · refine run_bind_some (Node.getChild_run hp' (by simp [hi])) ?_
    refine run_bind_some (Node.getEntry_run hp (by omega)) ?_
    refine run_bind_ok (Node.insertEntry_run (r := []) (hb.trans (by rw [List.append_nil])) hbelow nofun) ?_
    refine run_bind_ok (moveEntries_run hab.symm (node_set ha hab) hb₁) ?_
    rw [Heap.set_set]
    refine run_bind_ok (Node.entrySize_run (node_set ha hab)) ?_
    refine run_bind_ok (deleteEntries_run (node_set ha hab)) ?_
    refine run_bind_ok hrun ?_
    refine run_bind_ok (Node.deleteEntry_run hp₃ (by omega)) ?_
    refine run_bind_ok (Node.deleteChild_run (Heap.set_node_self ..) (by simp [hi])) ?_
    rw [Heap.set_set, List.append_assoc]
    rfl
  · rw [node_set hb₃ hbp, List.append_assoc]
    rfl
  · rw [node_set (hkeep a hab haa) hap, ha₂]
  · intro c hc
    have hcp : c ≠ p := fun heq => hpa (heq ▸ hc)
    have hcb : c ≠ b := fun heq => hba (heq ▸ hc)
    have hca : c ≠ a := fun heq => haa (heq ▸ hc)
    rw [node_set (hmoved c hc) hcp, node_set (node_set rfl hcb) hca]
  · intro n hnp hnb hna hn
    rw [node_set (hkeep n hnb hn) hnp, node_set (node_set rfl hnb) hna]

end Run

/-- The right one of two brothers `x` and `y` has gone into the left one, which is now `m`. -/
structure Merged (s s' : Heap K V) (h p : Nat) (par : Option Nat) (L : Lefts K V) (x : Part K V) (e : K × V)
    (y : Part K V) (R : Rights K V) (m : Part K V) : Prop where
  addr : m.addr = x.addr
  sub : Sub s'.node h (some p) m
  length : (s'.node x.addr).entries.length = (s.node x.addr).entries.length + 1 + (s.node y.addr).entries.length
  items : m.items = x.items ++ e :: y.items
  foot : m.foot + {y.addr} = x.foot + y.foot
  record : s'.node p = inner L x.addr R par
  keeps : Keeps s s' ({p} + (x.foot + y.foot))

variable {h : Nat} {L : Lefts K V} {R : Rights K V} {x y : Part K V} {e : K × V} (hx : Sub s.node h (some p) x)
  (hy : Sub s.node h (some p) y) (hnodup : ({p} + (x.foot + y.foot)).Nodup)
include hx hy hnodup

omit [LinearOrder K] in
theorem Merged.of_records (hp : s'.node p = inner L x.addr R par)
    (hx' : s'.node x.addr = ⟨(s.node x.addr).entries ++ e :: (s.node y.addr).entries, some p,
      (s.node x.addr).children ++ (s.node y.addr).children⟩)
    (hmoved : ∀ c ∈ (s.node y.addr).children, s'.node c = { s.node c with parent := some x.addr })
    (hkeep : ∀ n, n ≠ p → n ≠ x.addr → n ≠ y.addr → n ∉ (s.node y.addr).children → s'.node n = s.node n)
    (hsame : s'.nodes = s.nodes ∧ s'.root = s.root ∧ s'.size = s.size) : ∃ m, Merged s s' h p par L x e y R m := by
  have hlength : (s'.node x.addr).entries.length =
      (s.node x.addr).entries.length + 1 + (s.node y.addr).entries.length := by
    rw [hx', List.length_append, List.length_cons]
    omega
  have hkeeps (hsub : ∀ c ∈ (s.node y.addr).children, c ∈ y.foot) : Keeps s s' ({p} + (x.foot + y.foot)) := by
    refine ⟨?_, hsame.1, hsame.2.1, hsame.2.2⟩
    intro n hn
    simp only [Multiset.mem_add, Multiset.mem_singleton, not_or] at hn
    obtain ⟨hnp, hnx, hny⟩ := hn
    refine hkeep n hnp ?_ ?_ fun hmem => hny (hsub n hmem)
    · exact fun heq => hnx (heq ▸ hx.addr_mem)
    · exact fun heq => hny (heq ▸ hy.addr_mem)
  cases h with
  | zero =>
    obtain ⟨hxrec, hxfoot⟩ := hx
    obtain ⟨hyrec, hyfoot⟩ := hy
    have hnil : ∀ c ∈ (s.node y.addr).children, c ∈ y.foot := by
      rw [hyrec]
      nofun
    rw [hxrec, hyrec] at hx'
    exact ⟨⟨x.addr, x.items ++ e :: y.items, {x.addr}⟩, rfl, ⟨hx', rfl⟩, hlength, rfl, by rw [hxfoot, hyfoot], hp,
      hkeeps hnil⟩
  | succ h =>
    obtain ⟨Lx, c, hinx⟩ := hx.focus_last
    obtain ⟨d, Ry, hiny⟩ := hy.focus_first
    have hxfoot : x.foot = {x.addr} + (Lx.foot + c.foot) := by
      rw [hinx.foot]
      simp
    have hyfoot : y.foot = {y.addr} + footOf (d :: Ry.map (·.2)) := by
      rw [hiny.foot, ← footOf_kids]
      rfl
    have hapart : Apart p x.addr y.addr (Lx.foot + c.foot) 0 (footOf (d :: Ry.map (·.2))) := by
      refine .of_nodup ?_
      rw [add_zero, ← hxfoot, ← hyfoot]
      exact hnodup
    have hchildren : (s.node y.addr).children = (d :: Ry.map (·.2)).map (·.addr) := by
      rw [hiny.record]
      simp [inner]
    have hroots : ∀ n ∈ (s.node y.addr).children, n ∈ footOf (d :: Ry.map (·.2)) := by
      intro n hn
      rw [hchildren] at hn
      obtain ⟨q, hq, rfl⟩ := List.mem_map.mp hn
      exact Multiset.mem_of_le (mem_footOf hq) (hiny.kids q hq).1.addr_mem
    have hadopted : ∀ q ∈ d :: Ry.map (·.2), Kid s'.node h x.addr q := by
      refine Kid.adopt hiny.kids ?_ ?_ ?_
      · refine Multiset.nodup_of_le ?_ hnodup
        rw [hyfoot]
        exact (Multiset.le_add_left _ _).trans ((Multiset.le_add_left _ _).trans (Multiset.le_add_left _ _))
      · intro q hq
        refine hmoved q.addr ?_
        rw [hchildren]
        exact List.mem_map_of_mem hq
      · intro n hn hne
        obtain ⟨hnp, hnx, hny, -⟩ := hapart.below n hn
        exact hkeep n hnp hnx hny (hchildren ▸ hne)
    have hrec : s'.node x.addr = inner Lx c.addr ((e, d) :: Ry) (some p) := by
      rw [hx', hinx.record, hiny.record]
      simp [inner]
    refine ⟨⟨x.addr, Lx.items ++ c.items ++ e :: d.items ++ Ry.items,
      {x.addr} + (Lx.foot + c.foot + (d.foot + Ry.foot))⟩, rfl,
      Inner.sub (L := Lx) (c := c) (R := (e, d) :: Ry) ⟨hrec, ?_, by simp, by simp⟩, hlength, ?_, ?_, hp, hkeeps ?_⟩
    · intro q hq
      have hor : q ∈ Lx.map (·.1) ++ c :: ([] : Rights K V).map (·.2) ∨ q ∈ d :: Ry.map (·.2) := by
        simp only [List.map_cons, List.mem_append, List.mem_cons] at hq
        simp only [List.mem_append, List.mem_cons]
        tauto
      rcases hor with hq | hq
      · refine (hinx.kids q hq).congr fun n hn => ?_
        have hle := foot_le_of_mem_kids hq
        rw [Rights.foot_nil, add_zero] at hle
        obtain ⟨hnp, hnx, hny, -, hn'⟩ := hapart.stays n (Multiset.mem_of_le hle hn)
        exact hkeep n hnp hnx hny fun hmem => hn' (hroots n hmem)
      · exact hadopted q hq
    · rw [hinx.items, hiny.items]
      simp
    · rw [hxfoot, hiny.foot, Lefts.foot_nil, zero_add]
      dsimp only
      abel
    · intro n hn
      rw [hyfoot]
      exact Multiset.mem_add.mpr (.inr (hroots n hn))

omit [LinearOrder K] in
/-- The nodes at the top of two brothers and their parent. -/
theorem brothers_ne : y.addr ≠ p ∧ x.addr ≠ p ∧ y.addr ≠ x.addr ∧
      ∀ n ∈ (s.node y.addr).children, n ≠ p ∧ n ≠ x.addr ∧ n ≠ y.addr := by
  obtain ⟨-, hxy, -⟩ := nodup_add.mp hnodup
  obtain ⟨-, hynodup, hdisj⟩ := nodup_add.mp hxy
  obtain ⟨hpx, hpy⟩ : p ∉ x.foot ∧ p ∉ y.foot :=
    not_or.mp fun hmem => notMem_of_nodup hnodup (Multiset.mem_add.mpr hmem)
  have hxy' : x.addr ∉ y.foot := disjoint_left.mp hdisj hx.addr_mem
  refine ⟨?_, ?_, ?_, ?_⟩
  · exact fun heq => hpy (heq ▸ hy.addr_mem)
  · exact fun heq => hpx (heq ▸ hx.addr_mem)
  · exact fun heq => hxy' (heq ▸ hy.addr_mem)
  · intro n hn
    obtain ⟨hmem, hne⟩ := hy.children_mem hynodup hn
    exact ⟨fun heq => hpy (heq ▸ hmem), fun heq => hxy' (heq ▸ hmem), hne⟩

omit [LinearOrder K] hy hnodup in
theorem Sub.record_eq :
    s.node x.addr = ⟨(s.node x.addr).entries, some p, (s.node x.addr).children⟩ := by
  rw [← hx.parent_eq]

variable (hrec : s.node p = inner (L ++ [(x, e)]) y.addr R par) (hbelow : Below e.1 x.items)
include hrec hbelow

theorem mergeLeft_spec (hi : i = L.length + 1) :
    ∃ s' m, (mergeLeft y.addr p i).run s = .ok x.addr s' ∧ Merged s s' h p par L x e y R m := by
  rw [inner_brothers] at hrec
  obtain ⟨hyp, hxp, hyx, hchild⟩ := brothers_ne hx hy hnodup
  obtain ⟨s', hrun, hp', hx', hmoved, hkeep, hsame⟩ := mergeLeft_run hrec (by simp) hx.record_eq hy.record_eq hxp hyx
    (fun hmem => (hchild p hmem).1 rfl) (fun hmem => (hchild _ hmem).2.2 rfl) (fun hmem => (hchild _ hmem).2.1 rfl)
    (fun a ha => hbelow a (hx.entries_sublist.subset ha)) (i := i) (by simp [hi])
  obtain ⟨m, hm⟩ := Merged.of_records (e := e) hx hy hnodup hp' hx' hmoved
    (fun n hnp hnx _ hn => hkeep n hnp hnx hn) hsame
  exact ⟨s', m, hrun, hm⟩

theorem mergeRight_spec (hi : i = L.length) :
    ∃ s' m, (mergeRight x.addr p i).run s = .ok y.addr s' ∧ Merged s s' h p par L x e y R m ∧
    (s'.node y.addr).entries = [] := by
  rw [inner_brothers] at hrec
  obtain ⟨hyp, hxp, hyx, hchild⟩ := brothers_ne hx hy hnodup
  obtain ⟨s', hrun, hp', hx', hempty, hmoved, hkeep, hsame⟩ :=
    mergeRight_run hrec (by simp) hx.record_eq hy.record_eq hxp hyx
    (fun hmem => (hchild p hmem).1 rfl) (fun hmem => (hchild _ hmem).2.2 rfl) (fun hmem => (hchild _ hmem).2.1 rfl)
    (fun a ha => hbelow a (hx.entries_sublist.subset ha)) hyp (i := i) (by simp [hi])
  obtain ⟨m, hm⟩ := Merged.of_records (e := e) hx hy hnodup hp' hx' hmoved hkeep hsame
  exact ⟨s', m, hrun, hm, hempty⟩

end Merge

/-! ## Rebalancing -/

section Rebalance

variable {m h p : Nat} {par : Option Nat} {l r : List (K × V)} {F : Multiset Nat} {L : Lefts K V} {R : Rights K V}
  {x y : Part K V}
  {e : K × V}

theorem Keeps.outside {W G : Multiset Nat} (hkeeps : Keeps s s' W) (hnodup : (W + G).Nodup) :
    ∀ n ∈ G, s'.node n = s.node n :=
  fun n hn => hkeeps.node n (disjoint_right.mp (nodup_add.mp hnodup).2.2 hn)

/-- What is around two brothers stays when only they and their parent change. -/
theorem Keeps.around {W : Multiset Nat} (hkeeps : Keeps s s' W) (hup : Ctx s.node s.root m (h + 1) par p l r F)
    (hothers : ∀ q ∈ L.map (·.1) ++ R.map (·.2), Kid s.node h p q) (hnodup : (W + (L.foot + R.foot + F)).Nodup) :
    Ctx s'.node s'.root m (h + 1) par p l r F ∧ ∀ q ∈ L.map (·.1) ++ R.map (·.2), Kid s'.node h p q := by
  have hout := hkeeps.outside hnodup
  rw [hkeeps.root]
  refine ⟨hup.congr fun n hn => hout n (mem_add.mpr (.inr hn)), ?_⟩
  intro q hq
  refine (hothers q hq).congr fun n hn => ?_
  exact hout n (mem_add.mpr (.inl (mem_of_le (kid_foot_le hq) hn)))

theorem hasExtra_run {c : Nat} {i : Int} (hchild : (Node.getChild p i : M K V _).run s = .ok (some c) s) :
    (hasExtra p i : M K V Bool).run s = .ok (decide (MIN_ENTRY_SIZE < (s.node c).entries.length)) s :=
  run_bind_some hchild rfl

theorem hasExtraLeft_nil : (hasExtraLeft p (([] : Lefts K V).length : Nat) : M K V Bool).run s = .ok false s := rfl

theorem hasExtraLeft_append {a : Nat} (hrec : s.node p = inner (L ++ [(x, e)]) a R par) :
    (hasExtraLeft p (L.length + 1 : Nat) : M K V Bool).run s =
      .ok (decide (MIN_ENTRY_SIZE < (s.node x.addr).entries.length)) s := by
  have hchild : (Node.getChild p ((L.length + 1 : Nat) - 1) : M K V _).run s = .ok (some x.addr) s := by
    exact Node.getChild_run (hrec.trans (inner_brothers ..)) (by simp)
  unfold hasExtraLeft
  rw [if_pos (by simp)]
  exact hasExtra_run hchild

theorem hasExtraRight_nil {a : Nat} (hrec : s.node p = inner L a [] par) :
    (hasExtraRight p (L.length : Nat) : M K V Bool).run s = .ok false s := by
  refine run_bind_ok (Node.childrenSize_run hrec) ?_
  rw [if_neg (by simp)]
  rfl

theorem hasExtraRight_brother {a : Nat} (hrec : s.node p = inner (L ++ [(x, e)]) a R par) :
    (hasExtraRight p (L.length : Nat) : M K V Bool).run s =
      .ok (decide (MIN_ENTRY_SIZE < (s.node a).entries.length)) s := by
  have hchild : (Node.getChild p ((L.length : Nat) + 1) : M K V _).run s = .ok (some a) s :=
    Node.getChild_run hrec (by simp)
  refine run_bind_ok (Node.childrenSize_run hrec) ?_
  rw [if_pos (by simp; omega)]
  exact hasExtra_run hchild

/-- A merge of two brothers, one short of an entry and one without an entry to spare, fits into a node. -/
theorem Merged.sized {w : Part K V} (hmerged : Merged s s' h p par L x e y R w)
    (hlen : (s.node x.addr).entries.length + (s.node y.addr).entries.length + 1 = MIN_ENTRY_SIZE + MIN_ENTRY_SIZE) :
    Sized (s'.node x.addr) := by
  unfold Sized
  rw [hmerged.length, Nat.add_right_comm, hlen]
  decide

/-- What the body of the loop leaves, with the node that it goes on with: nothing more to do (`none`), the same node,
    which now has enough entries, or the parent, which has lost an entry. -/
def Filled (s' : Heap K V) (m h a p : Nat) (par : Option Nat) (l r items : List (K × V)) (F total : Multiset Nat)
    (size : Nat) :
    Option Nat → Prop
  | none => ∃ foot', Whole s'.node s'.root m (l ++ items ++ r) foot' ∧ foot' ≤ total
  | some c => (c = a ∧ MIN_ENTRY_SIZE ≤ (s'.node a).entries.length ∧
    ∃ foot', Whole s'.node s'.root m (l ++ items ++ r) foot' ∧ foot' ≤ total) ∨
      (c = p ∧ ∃ foot', Ctx s'.node s'.root m (h + 1) par p l r F ∧ Sub s'.node (h + 1) par ⟨p, items, foot'⟩ ∧
        foot' + F ≤ total ∧
        (s'.node p).entries.length + 1 = size ∧ (par = none → (s'.node p).entries ≠ []))

variable {a : Nat} {items : List (K × V)} {foot : Multiset Nat} (hup : Ctx s.node s.root m (h + 1) par p l r F)
  (hothers : ∀ q ∈ L.map (·.1) ++ R.map (·.2), Kid s.node h p q)
  (hnodup : ({p} + (x.foot + y.foot) + (L.foot + R.foot + F)).Nodup)
include hup hothers hnodup

/-- After an entry was borrowed the tree is whole. -/
theorem Shared.whole {x' y' : Part K V} {e' : K × V} (hshared : Shared s s' h p par L x e y R x' e' y')
    (hfits : Fits m par (inner (L ++ [(x, e)]) y.addr R par)) :
    Whole s'.node s'.root m (l ++ (L.items ++ (x.items ++ e :: y.items) ++ R.items) ++ r)
      ({p} + (x.foot + y.foot) + (L.foot + R.foot + F)) := by
  obtain ⟨hctx, hkids⟩ := hshared.keeps.around hup hothers hnodup
  have hin : Inner s'.node h par ⟨p, L.items ++ (x'.items ++ e' :: y'.items) ++ R.items,
      {p} + (L.foot + (x'.foot + y'.foot) + R.foot)⟩
      (L ++ [(x', e')]) y' R := by
    refine ⟨hshared.record, ?_, by simp, by simp [add_assoc]⟩
    intro q hq
    simp only [List.map_append, List.map_cons, List.map_nil, List.mem_append, List.mem_cons, List.not_mem_nil,
      or_false] at hq
    rcases hq with (hq | rfl) | rfl | hq
    · exact hkids q (List.mem_append_left _ hq)
    · exact hshared.kidLeft
    · exact hshared.kidRight
    · exact hkids q (List.mem_append_right _ hq)
  have hlength : (s'.node p).entries.length = L.length + (R.length + 1) := by
    rw [hshared.record]
    simp [inner]
  have hwhole := hctx.plug hin.sub ?_ ?_
  · rw [hshared.items, hshared.foot] at hwhole
    have hfoot : {p} + (L.foot + (x.foot + y.foot) + R.foot) + F = {p} + (x.foot + y.foot) + (L.foot + R.foot + F) := by
      abel
    rw [hfoot] at hwhole
    exact hwhole
  · refine hfits.of_length ?_
    rw [hlength]
    simp [inner]
  · intro _ hnil
    rw [hnil] at hlength
    simp only [List.length_nil] at hlength
    omega

/-- After two brothers were merged the parent is a subtree in the same context, with one entry less. -/
theorem Merged.up {w : Part K V} (hmerged : Merged s s' h p par L x e y R w) (hsized : Sized (s'.node x.addr)) :
    Ctx s'.node s'.root m (h + 1) par p l r F ∧
      Sub s'.node (h + 1) par ⟨p, L.items ++ (x.items ++ e :: y.items) ++ R.items,
        {p} + (L.foot + w.foot + R.foot)⟩ := by
  obtain ⟨hctx, hkids⟩ := hmerged.keeps.around hup hothers hnodup
  refine ⟨hctx, Inner.sub (L := L) (c := w) (R := R) ⟨?_, ?_, ?_, rfl⟩⟩
  · rw [hmerged.addr]
    exact hmerged.record
  · intro q hq
    rw [List.mem_append, List.mem_cons] at hq
    rcases hq with hq | rfl | hq
    · exact hkids q (mem_append_left _ hq)
    · refine ⟨hmerged.sub, ?_⟩
      rw [hmerged.addr]
      exact hsized
    · exact hkids q (mem_append_right _ hq)
  · rw [hmerged.items]

/-- The end of a merge into the left brother `x`. -/
theorem Merged.replaceRoot_spec {w : Part K V} {c b : Nat} (hmerged : Merged s s' h p par L x e y R w)
    (hsized : Sized (s'.node x.addr))
    (hkept : (if (s'.node b).entries.length = 0 then c else b) = x.addr) (hm : MAX_ENTRY_SIZE ≤ m) :
    ∃ s'' next, (replaceRoot c b p : M K V _).run s' = .ok next s'' ∧ s''.nodes = s.nodes ∧ s''.size = s.size ∧
      Filled s'' m h a p par l r (L.items ++ (x.items ++ e :: y.items) ++ R.items) F
        ({p} + (x.foot + y.foot) + (L.foot + R.foot + F)) (L.length + (R.length + 1)) next := by
  obtain ⟨hctx, hsub⟩ := hmerged.up hup hothers hnodup hsized
  have hmfoot : w.foot ≤ x.foot + y.foot := hmerged.foot ▸ le_add_right _ _
  have hlength : (s'.node p).entries.length = L.length + R.length := by
    rw [hmerged.record]
    simp [inner]
  have hparent : (s'.node p).parent = par := by
    rw [hmerged.record]
    rfl
  by_cases hroot : (s'.node p).parent.isNone ∧ (s'.node p).entries.length = 0
  · -- the parent is the root and has become empty
    rw [hlength] at hroot
    obtain rfl : L = [] := length_eq_zero_iff.mp (by omega)
    obtain rfl : R = [] := length_eq_zero_iff.mp (by omega)
    rw [hparent, Option.isNone_iff_eq_none] at hroot
    obtain ⟨rfl, -⟩ := hroot
    have htop : l = [] ∧ r = [] := by
      cases hctx
      exact ⟨rfl, rfl⟩
    obtain ⟨rfl, rfl⟩ := htop
    refine ⟨{ s' with root := x.addr }.set x.addr { s'.node x.addr with parent := none }, none, ?_, hmerged.keeps.nodes,
      hmerged.keeps.size, w.foot, ⟨h, ?_, ?_, ?_⟩, hmfoot.trans ?_⟩
    · refine run_bind_ok rfl ?_
      rw [if_pos ⟨by rw [hparent]; rfl, by rw [hlength]; rfl⟩]
      refine run_bind_ok rfl ?_
      simp only [decide_eq_true_eq]
      rw [hkept]
      rfl
    · have hnodup' : w.foot.Nodup := by
        refine nodup_of_le (hmfoot.trans ?_) hnodup
        exact (le_add_left _ _).trans (le_add_right _ _)
      have hw : w = ⟨x.addr, x.items ++ e :: y.items, w.foot⟩ := by
        rw [← hmerged.addr, ← hmerged.items]
      have hitems : [] ++ (Lefts.items [] ++ (x.items ++ e :: y.items) ++ Rights.items []) ++ [] =
          x.items ++ e :: y.items := by simp
      rw [hitems]
      refine (hw ▸ hmerged.sub).reparent hnodup' (Heap.set_node_self ..) ?_
      intro n _ hne
      exact Heap.set_node_of_ne _ _ _ hne
    · intro _
      show (Heap.node (Heap.set _ x.addr _) x.addr).entries ≠ []
      rw [Heap.set_node_self]
      exact hsized.ne_nil
    · show (Heap.node (Heap.set _ x.addr _) x.addr).entries.length ≤ m
      rw [Heap.set_node_self]
      exact hsized.2.trans hm
    · exact (le_add_left _ _).trans (le_add_right _ _)
  · refine ⟨s', some p, ?_, hmerged.keeps.nodes, hmerged.keeps.size, .inr ⟨rfl, _, hctx, hsub, ?_, ?_, ?_⟩⟩
    · refine run_bind_ok rfl ?_
      rw [if_neg hroot]
      rfl
    · have hle : {p} + (L.foot + w.foot + R.foot) + F ≤ {p} + (L.foot + (x.foot + y.foot) + R.foot) + F := by gcongr
      refine hle.trans (le_of_eq ?_)
      abel
    · rw [hlength]
      rfl
    · intro hpar hnil
      refine hroot ⟨?_, by rw [hnil]; rfl⟩
      rw [hparent, hpar]
      rfl

variable [LinearOrder K]

/-- The body of the loop, for the child `a` of `p` with number `i`. -/
def Fills (s : Heap K V) (m h a i p : Nat) (par : Option Nat) (l r items : List (K × V)) (F total : Multiset Nat)
    (size : Nat) : Prop :=
  ∃ s' next, (fillNode a p i).run s = .ok next s' ∧ s'.nodes = s.nodes ∧ s'.size = s.size ∧
    Filled s' m h a p par l r items F total size next

section Fill

variable (hrec : s.node p = inner (L ++ [(x, e)]) y.addr R par)
include hrec

/-- The node is short of an entry, and its left brother `x` has one to spare. -/
theorem fillNode_borrowLeft (hfits : Fits m par (s.node p)) (hx : Kid s.node h p x) (hy : Sub s.node h (some p) y)
    (hshort : (s.node y.addr).entries.length + 1 = MIN_ENTRY_SIZE)
    (hextra : MIN_ENTRY_SIZE < (s.node x.addr).entries.length) :
    Fills s m h y.addr (L.length + 1) p par l r (L.items ++ (x.items ++ e :: y.items) ++ R.items) F
      ({p} + (x.foot + y.foot) + (L.foot + R.foot + F)) (L.length + (R.length + 1)) := by
  obtain ⟨s', hrun, x', e', y', hshared⟩ := borrowLeft_spec hrec hx hy hextra hshort (nodup_add.mp hnodup).1
    (i := (L.length + 1 : Nat)) (by simp)
  refine ⟨s', some y.addr, ?_, hshared.keeps.nodes, hshared.keeps.size, .inl ⟨rfl, ?_, _, ?_, le_rfl⟩⟩
  · refine run_bind_ok (hasExtraLeft_append hrec) ?_
    rw [decide_eq_true hextra]
    exact run_bind_ok hrun rfl
  · rw [← hshared.right]
    exact hshared.kidRight.2.1
  · exact hshared.whole hup hothers hnodup (hrec ▸ hfits)

/-- The node is short of an entry, and its right brother `y` has one to spare. -/
theorem fillNode_borrowRight (hfits : Fits m par (s.node p)) (hx : Sub s.node h (some p) x) (hy : Kid s.node h p y)
    (hshort : (s.node x.addr).entries.length + 1 = MIN_ENTRY_SIZE)
    (hextra : MIN_ENTRY_SIZE < (s.node y.addr).entries.length)
    (hleft : (hasExtraLeft p (L.length : Nat) : M K V Bool).run s = .ok false s) :
    Fills s m h x.addr L.length p par l r (L.items ++ (x.items ++ e :: y.items) ++ R.items) F
      ({p} + (x.foot + y.foot) + (L.foot + R.foot + F)) (L.length + (R.length + 1)) := by
  obtain ⟨s', hrun, x', e', y', hshared⟩ := borrowRight_spec hrec hx hy hextra hshort (nodup_add.mp hnodup).1
    (i := (L.length : Nat)) rfl
  refine ⟨s', some x.addr, ?_, hshared.keeps.nodes, hshared.keeps.size, .inl ⟨rfl, ?_, _, ?_, le_rfl⟩⟩
  · refine run_bind_ok hleft (run_bind_ok (hasExtraRight_brother hrec) ?_)
    rw [decide_eq_true hextra]
    exact run_bind_ok hrun rfl
  · rw [← hshared.left]
    exact hshared.kidLeft.2.1
  · exact hshared.whole hup hothers hnodup (hrec ▸ hfits)

/-- The node is short of an entry, and no brother has one to spare: it goes into its left brother `x`. -/
theorem fillNode_mergeLeft (hx : Kid s.node h p x) (hy : Sub s.node h (some p) y)
    (hshort : (s.node y.addr).entries.length + 1 = MIN_ENTRY_SIZE) (hbelow : Below e.1 x.items)
    (hextra : ¬ MIN_ENTRY_SIZE < (s.node x.addr).entries.length)
    (hright : (hasExtraRight p (L.length + 1 : Nat) : M K V Bool).run s = .ok false s) (hm : MAX_ENTRY_SIZE ≤ m) :
    Fills s m h y.addr (L.length + 1) p par l r (L.items ++ (x.items ++ e :: y.items) ++ R.items) F
      ({p} + (x.foot + y.foot) + (L.foot + R.foot + F)) (L.length + (R.length + 1)) := by
  obtain ⟨s', m, hrun, hmerged⟩ := mergeLeft_spec hx.1 hy (nodup_add.mp hnodup).1 hrec hbelow
    (i := (L.length + 1 : Nat)) (by simp)
  have hmin := hx.2.1
  have hsized : Sized (s'.node x.addr) := hmerged.sized (by omega)
  have hkept : (if (s'.node x.addr).entries.length = 0 then y.addr else x.addr) = x.addr :=
    if_neg fun hzero => hsized.ne_nil (length_eq_zero_iff.mp hzero)
  obtain ⟨s'', next, hrun', hrest⟩ := hmerged.replaceRoot_spec (a := y.addr) hup hothers hnodup hsized hkept hm
  refine ⟨s'', next, ?_, hrest⟩
  refine run_bind_ok (hasExtraLeft_append hrec) ?_
  rw [decide_eq_false hextra]
  refine run_bind_ok hright ?_
  have hpos : ((L.length + 1 : Nat) : Int) > 0 := by omega
  dsimp only
  rw [if_neg Bool.false_ne_true, if_pos hpos]
  exact run_bind_ok hrun hrun'

/-- The first node is short of an entry, and its right brother `y` has none to spare: the brother goes into it. -/
theorem fillNode_mergeRight (hL : L = []) (hx : Sub s.node h (some p) x) (hy : Kid s.node h p y)
    (hshort : (s.node x.addr).entries.length + 1 = MIN_ENTRY_SIZE) (hbelow : Below e.1 x.items)
    (hextra : ¬ MIN_ENTRY_SIZE < (s.node y.addr).entries.length) (hm : MAX_ENTRY_SIZE ≤ m) :
    Fills s m h x.addr L.length p par l r (L.items ++ (x.items ++ e :: y.items) ++ R.items) F
      ({p} + (x.foot + y.foot) + (L.foot + R.foot + F)) (L.length + (R.length + 1)) := by
  obtain ⟨s', m, hrun, hmerged, hempty⟩ :=
    mergeRight_spec hx hy.1 (nodup_add.mp hnodup).1 hrec hbelow (i := (L.length : Nat)) rfl
  have hmin := hy.2.1
  have hsized : Sized (s'.node x.addr) := hmerged.sized (by omega)
  have hkept : (if (s'.node y.addr).entries.length = 0 then x.addr else y.addr) = x.addr := if_pos (by rw [hempty]; rfl)
  obtain ⟨s'', next, hrun', hrest⟩ := hmerged.replaceRoot_spec (a := x.addr) hup hothers hnodup hsized hkept hm
  refine ⟨s'', next, ?_, hrest⟩
  have hright := hasExtraRight_brother hrec
  subst hL
  refine run_bind_ok hasExtraLeft_nil (run_bind_ok hright ?_)
  rw [decide_eq_false hextra]
  exact run_bind_ok hrun hrun'

end Fill

omit hup hothers hnodup

theorem rebalance_enough (fuel : Nat) (henough : MIN_ENTRY_SIZE ≤ (s.node a).entries.length) :
    (rebalance (fuel + 1) a : M K V Unit).run s = .ok () s := by
  refine run_bind_ok rfl ?_
  rw [if_pos henough]
  rfl

/-- The body of the loop, for a node that is short of an entry. -/
theorem fillNode_spec {t : Part K V} (hup : Ctx s.node s.root m (h + 1) par p l r F)
    (hrec : s.node p = inner L t.addr R par) (hkids : ∀ q ∈ L.map (·.1) ++ R.map (·.2), Kid s.node h p q)
    (hfits : Fits m par (s.node p)) (hfilled : (s.node p).entries ≠ []) (hsub : Sub s.node h (some p) t)
    (hshort : (s.node t.addr).entries.length + 1 = MIN_ENTRY_SIZE)
    (hnodup : (t.foot + ({p} + (L.foot + R.foot) + F)).Nodup) (hinc : Increasing (L.items ++ t.items ++ R.items))
    (hm : MAX_ENTRY_SIZE ≤ m) :
    Fills s m h t.addr L.length p par l r (L.items ++ t.items ++ R.items) F (t.foot + ({p} + (L.foot + R.foot) + F))
      (s.node p).entries.length := by
  have hlength : (s.node p).entries.length = L.length + R.length := by
    rw [hrec]
    simp [inner]
  rw [hlength]
  -- a right brother that has an entry to spare, or takes part in a merge
  have hright (e : K × V) (y : Part K V) (R' : Rights K V) (hR : R = (e, y) :: R') :
      L.items ++ t.items ++ R.items = L.items ++ (t.items ++ e :: y.items) ++ R'.items ∧
        t.foot + ({p} + (L.foot + R.foot) + F) = {p} + (t.foot + y.foot) + (L.foot + R'.foot + F) ∧
        s.node p = inner (L ++ [(t, e)]) y.addr R' par ∧ Kid s.node h p y ∧
        ∀ q ∈ L.map (·.1) ++ R'.map (·.2), Kid s.node h p q := by
    subst hR
    refine ⟨by simp, ?_, hrec.trans (inner_shift ..), hkids y (by simp), fun q hq => hkids q ?_⟩
    · rw [Rights.foot_cons]
      abel
    · rw [mem_append] at hq
      rw [List.map_cons, List.mem_append, List.mem_cons]
      tauto
  rcases L.eq_nil_or_append with hL | ⟨L', x, e, rfl⟩
  · rcases R.eq_nil_or_cons with rfl | ⟨e, y, R', hR⟩
    · subst hL
      rw [hrec] at hfilled
      exact absurd rfl hfilled
    · obtain ⟨hitems, hfoot, hrec', hy, hothers⟩ := hright e y R' hR
      rw [hitems] at hinc ⊢
      rw [hfoot] at hnodup ⊢
      subst hR
      by_cases hextra : MIN_ENTRY_SIZE < (s.node y.addr).entries.length
      · refine fillNode_borrowRight hup hothers hnodup hrec' hfits hsub hy hshort hextra ?_
        subst hL
        exact hasExtraLeft_nil
      · have hmid : Increasing (t.items ++ e :: y.items) := (increasing_append.mp (increasing_append.mp hinc).1).2.1
        exact fillNode_mergeRight hup hothers hnodup hrec' hL hsub hy hshort (increasing_middle.mp hmid).2.2.1 hextra hm
  · have hitems : (L' ++ [(x, e)] : Lefts K V).items ++ t.items ++ R.items = L'.items ++ (x.items ++ e :: t.items) ++
        R.items := by simp
    have hfoot : t.foot + ({p} + ((L' ++ [(x, e)] : Lefts K V).foot + R.foot) + F) =
        {p} + (x.foot + t.foot) + (L'.foot + R.foot + F) := by
      rw [Lefts.foot_append, Lefts.foot_singleton]
      abel
    have hlen : (L' ++ [(x, e)]).length = L'.length + 1 := by rw [length_append, length_singleton]
    have hsize : (L' ++ [(x, e)]).length + R.length = L'.length + (R.length + 1) := by omega
    have hx : Kid s.node h p x := hkids x (by simp)
    have hothers : ∀ q ∈ L'.map (·.1) ++ R.map (·.2), Kid s.node h p q := by
      intro q hq
      refine hkids q ?_
      rw [mem_append] at hq
      rw [map_append, mem_append, mem_append]
      tauto
    by_cases hextra : MIN_ENTRY_SIZE < (s.node x.addr).entries.length
    · rw [hitems, hfoot, hsize, hlen]
      rw [hfoot] at hnodup
      exact fillNode_borrowLeft hup hothers hnodup hrec hfits hx hsub hshort hextra
    · have hno := hasExtraLeft_append hrec
      rw [decide_eq_false hextra, ← hlen] at hno
      by_cases hspare : ∃ e' y R', R = (e', y) :: R' ∧ MIN_ENTRY_SIZE < (s.node (Part.addr y)).entries.length
      · obtain ⟨e', y, R', hR, hextra'⟩ := hspare
        obtain ⟨hitems', hfoot', hrec', hy, hothers'⟩ := hright e' y R' hR
        rw [hitems', hfoot', hR]
        rw [hfoot'] at hnodup
        exact fillNode_borrowRight hup hothers' hnodup hrec' hfits hsub hy hshort hextra' hno
      · have hright' : (hasExtraRight p (L'.length + 1 : Nat) : M K V Bool).run s = .ok false s := by
          rw [← hlen]
          rcases R.eq_nil_or_cons with rfl | ⟨e', y, R', rfl⟩
          · exact hasExtraRight_nil hrec
          · rw [hasExtraRight_brother (hrec.trans (inner_shift ..)),
              decide_eq_false fun hlt => hspare ⟨_, _, _, rfl, hlt⟩]
        rw [hitems] at hinc
        have hmid : Increasing (x.items ++ e :: t.items) := (increasing_append.mp (increasing_append.mp hinc).1).2.1
        rw [hitems, hfoot, hsize, hlen]
        rw [hfoot] at hnodup
        exact fillNode_mergeLeft hup hothers hnodup hrec hx hsub hshort (increasing_middle.mp hmid).2.2.1
          hextra hright' hm

/-- The loop ends with a whole tree with the same entries. -/
theorem rebalance_spec (fuel : Nat) (hctx : Ctx s.node s.root m h par a l r F)
    (hsub : Sub s.node h par ⟨a, items, foot⟩) (hnodup : (foot + F).Nodup) (hinc : Increasing (l ++ items ++ r))
    (hmin : par ≠ none → MIN_ENTRY_SIZE ≤ (s.node a).entries.length + 1)
    (hmax : par ≠ none → (s.node a).entries.length ≤ MAX_ENTRY_SIZE) (hfilled : h ≠ 0 → (s.node a).entries ≠ [])
    (hsmall : (s.node a).entries.length ≤ m) (hm : MAX_ENTRY_SIZE ≤ m) (hfuel : F.card < fuel) :
    ∃ s' foot', (rebalance fuel a).run s = .ok () s' ∧ Whole s'.node s'.root m (l ++ items ++ r) foot' ∧
      foot' ≤ foot + F ∧
      s'.nodes = s.nodes ∧ s'.size = s.size := by
  induction fuel generalizing s h par a l r F items foot with
  | zero => exact absurd hfuel (Nat.not_lt_zero _)
  | succ fuel ih =>
    by_cases henough : MIN_ENTRY_SIZE ≤ (s.node a).entries.length
    · exact ⟨s, foot + F, rebalance_enough fuel henough,
        hctx.plug hsub ⟨fun hpar => ⟨henough, hmax hpar⟩, hsmall⟩ hfilled, le_rfl, rfl, rfl⟩
    · cases hctx with
      | top h =>
        refine ⟨s, foot + 0, ?_, (Ctx.top h).plug hsub ⟨absurd rfl, hsmall⟩ hfilled, le_rfl, rfl, rfl⟩
        refine run_bind_ok rfl ?_
        rw [if_neg henough]
        refine run_bind_ok rfl ?_
        rw [hsub.parent_eq]
        rfl
      | @child h par p l r F L a R hup hrec hkids hfits hfilledp =>
        have hshort : (s.node a).entries.length + 1 = MIN_ENTRY_SIZE := by
          have hle := hmin nofun
          omega
        have hne : (s.node a).entries ≠ [] := by
          intro hnil
          rw [hnil, length_nil] at hshort
          exact absurd hshort (by decide)
        have hsplit : l ++ L.items ++ items ++ (R.items ++ r) = l ++ (L.items ++ items ++ R.items) ++ r := by simp
        rw [hsplit] at hinc ⊢
        have hmid : Increasing (L.items ++ items ++ R.items) := (increasing_append.mp (increasing_append.mp hinc).1).2.1
        obtain ⟨s₁, next, hrun, hnodes, hsize, hfill⟩ :=
          fillNode_spec (t := ⟨a, items, foot⟩) hup hrec hkids hfits hfilledp hsub
          hshort hnodup hmid hm
        have hparent := parentOf_run (t := ⟨a, items, foot⟩) hrec
          (fun x hx => hkids x.1 (mem_append_left _ (mem_map_of_mem hx))) hsub hne (increasing_append.mp hmid).1
        have hstart : (rebalance (fuel + 1) a : M K V Unit).run s = (next.elim (pure ()) (rebalance fuel)).run s₁ := by
          refine run_bind_ok rfl ?_
          rw [if_neg henough]
          refine run_bind_ok rfl ?_
          rw [hsub.parent_eq]
          refine run_bind_ok hparent (run_bind_ok (getOrThrow_run p) (run_bind_ok hrun ?_))
          cases next <;> rfl
        rw [hstart]
        have hcard : F.card < fuel := by
          simp only [card_add, card_singleton] at hfuel
          omega
        cases next with
        | none =>
          obtain ⟨foot', hwhole, hle⟩ := hfill
          exact ⟨s₁, foot', rfl, hwhole, hle, hnodes, hsize⟩
        | some c =>
          rcases hfill with ⟨rfl, henough', foot', hwhole, hle⟩ | ⟨rfl, foot', hctx', hsub', hle, hlen, hroot⟩
          · obtain ⟨fuel, rfl⟩ : ∃ j, fuel = j + 1 := ⟨fuel - 1, by omega⟩
            exact ⟨s₁, foot', rebalance_enough fuel henough', hwhole, hle, hnodes, hsize⟩
          · have hfilled' : (s₁.node c).entries ≠ [] := by
              by_cases hpar : par = none
              · exact hroot hpar
              · intro hnil
                have hle' := (hfits.sized hpar).1
                rw [← hlen, hnil, length_nil] at hle'
                exact absurd hle' (by decide)
            obtain ⟨s₂, foot₂, hrun₂, hwhole, hle₂, hnodes₂, hsize₂⟩ := ih hctx' hsub' (nodup_of_le hle hnodup) hinc
              (fun hpar => (hfits.sized hpar).1.trans hlen.ge)
                (fun hpar => Nat.le_of_succ_le (hlen.le.trans (hfits.sized hpar).2))
              (fun _ => hfilled') (Nat.le_of_succ_le (hlen.le.trans hfits.small)) hcard
            exact ⟨s₂, foot₂, hrun₂, hwhole, hle₂.trans hle, hnodes₂.trans hnodes, hsize₂.trans hsize⟩

end Rebalance

end CangjieRuntime.TreeMap
