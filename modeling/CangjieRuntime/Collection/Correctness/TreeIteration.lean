import CangjieRuntime.Collection.Correctness.TreeRemove

/-!
# `Collection.Correctness.TreeIteration` — iteration goes through the entries in order

The iterator keeps the place of an entry and asks for its successor: the next entry of the leaf, the first entry below
the right child, or the first entry behind on the way up.
-/

namespace CangjieRuntime.TreeMap

open Assoc List Multiset

variable {K V : Type} [LinearOrder K] {s : Heap K V} {m h p : Nat} {par : Option Nat} {l r items : List (K × V)}
  {F foot : Multiset Nat}
  {L : Lefts K V} {c : Part K V} {R : Rights K V} {e : K × V} {sr : SearchResult}

omit [LinearOrder K] in
/-- The place `sr` is that of the entry `e`, with `l` in front and `r` behind. -/
inductive At (s : Heap K V) (m : Nat) : SearchResult → List (K × V) → K × V → List (K × V) → Prop
  | leaf {n : Nat} {par : Option Nat} {l r es₁ es₂ : List (K × V)} {F : Multiset Nat} {e : K × V}
      (ctx : Ctx s.node s.root m 0 par n l r F) (record : s.node n = ⟨es₁ ++ e :: es₂, par, []⟩)
        (fits : Fits m par (s.node n))
      (card : F.card < s.nodes) :
      At s m ⟨es₁.length, some n⟩ (l ++ es₁) e (es₂ ++ r)
  | inner {h : Nat} {par : Option Nat} {t c d : Part K V} {l r : List (K × V)} {F : Multiset Nat} {L : Lefts K V}
    {R : Rights K V}
      {e : K × V} (ctx : Ctx s.node s.root m (h + 1) par t.addr l r F) (node : Inner s.node h par t L c ((e, d) :: R))
      (fits : Fits m par (s.node t.addr)) (card : t.foot.card + F.card ≤ s.nodes) :
      At s m ⟨L.length, some t.addr⟩ (l ++ (L.items ++ c.items)) e (d.items ++ R.items ++ r)

/-- The place of the first entry of `r`, if there is one. -/
def Next (s : Heap K V) (m : Nat) (l r : List (K × V)) (sr : SearchResult) : Prop :=
  match r with
  | [] => sr.replaceNode = none
  | e :: r => At s m sr l e r

omit [LinearOrder K] in
/-- A node and its children around one of them. -/
theorem Inner.around {par : Option Nat} {t : Part K V} (hrec : s.node p = TreeMap.inner L t.addr R par)
    (hkids : ∀ q ∈ L.map (·.1) ++ R.map (·.2), Kid s.node h p q) (ht : Kid s.node h p t) :
    Inner s.node h par ⟨p, L.items ++ t.items ++ R.items, {p} + (L.foot + t.foot + R.foot)⟩ L t R := by
  refine ⟨hrec, ?_, rfl, rfl⟩
  intro q hq
  rw [List.mem_append, List.mem_cons] at hq
  rcases hq with hq | rfl | hq
  · exact hkids q (List.mem_append_left _ hq)
  · exact ht
  · exact hkids q (List.mem_append_right _ hq)

/-- The way up from the child `c` of `p`, until there is an entry behind. -/
theorem successorUp_spec (fuel : Nat) (hctx : Ctx s.node s.root m (h + 1) par p l r F)
    (hin : Inner s.node h par ⟨p, items, foot⟩ L c R) (hfits : Fits m par (s.node p))
    (hfilled : (s.node p).entries ≠ []) (hinc : Increasing (l ++ items ++ r)) (hcard : foot.card + F.card ≤ s.nodes)
    (hfuel : F.card < fuel) :
    ∃ i n, (successorUp fuel ⟨L.length, some p⟩ p : M K V _).run s = .ok (⟨i, some n⟩, n) s ∧
      (R.items ++ r = [] ∧ i > ((s.node n).entries.length : Int) - 1 ∨
        ∃ e r', R.items ++ r = e :: r' ∧ i ≤ ((s.node n).entries.length : Int) - 1 ∧
          At s m ⟨i, some n⟩ (l ++ (L.items ++ c.items)) e r') := by
  induction fuel generalizing h p par l r F items foot L c R with
  | zero => exact absurd hfuel (Nat.not_lt_zero _)
  | succ fuel ih =>
    have hlen : ((s.node p).entries.length : Int) = L.length + R.length := by rw [hin.length_entries, Nat.cast_add]
    have hsize : (Node.entrySize p : M K V Nat).run s = .ok (s.node p).entries.length s := rfl
    obtain rfl | ⟨e, d, R, rfl⟩ := Rights.eq_nil_or_cons R
    · rw [length_nil] at hlen
      have hitems : items = L.items ++ c.items := hin.items.trans (by rw [Rights.items_nil, append_nil])
      cases hctx with
      | top =>
        refine ⟨L.length, s.root, ?_, .inl ⟨rfl, by omega⟩⟩
        refine run_bind_ok hsize (run_bind_ok rfl ?_)
        have hroot : (s.node s.root).parent = none := hin.sub.parent_eq
        rw [if_neg]
        · rfl
        · rw [hroot]
          exact fun hand => absurd hand.2 (by decide)
      | @child h par' p' l r F L' _ R' up record kids fits filled =>
        have hin' := Inner.around record kids ⟨hin.sub, hfits.sized nofun⟩
        have hup : (parentOf p : M K V _).run s = .ok ⟨L'.length, some p'⟩ s := by
          refine parentOf_run (t := ⟨p, items, foot⟩) record (fun x hx => hin'.left hx) hin.sub hfilled ?_
          rw [append_assoc l] at hinc
          exact hinc.sublist ((sublist_append_right l _).trans (sublist_append_left _ _))
        have hsame : l ++ L'.items ++ items ++ (R'.items ++ r) = l ++ (L'.items ++ items ++ R'.items) ++ r := by simp
        simp only [card_add, card_singleton] at hcard hfuel
        obtain ⟨i, n, hrun, hnext⟩ := ih up hin' fits filled (hsame ▸ hinc)
          (by simp only [card_add, card_singleton]; omega) (by omega)
        refine ⟨i, n, ?_, ?_⟩
        · refine run_bind_ok hsize (run_bind_ok rfl ?_)
          have hparent : (s.node p).parent = some p' := hin.sub.parent_eq
          rw [if_pos]
          · exact run_bind_ok hup (run_bind_ok (getOrThrow_run p') hrun)
          · rw [hparent]
            exact ⟨by dsimp only; omega, rfl⟩
        · rw [Rights.items_nil, nil_append, append_assoc, ← hitems]
          exact hnext
    · refine ⟨L.length, p, ?_, .inr ⟨e, d.items ++ R.items ++ r, rfl, ?_, .inner hctx hin hfits hcard⟩⟩
      · refine run_bind_ok hsize (run_bind_ok rfl ?_)
        rw [if_neg]
        · rfl
        · dsimp only
          rw [length_cons] at hlen
          omega
      · rw [length_cons] at hlen
        omega

/-- The successor of the last entry of a leaf. -/
theorem successorAbove_spec {n : Nat} {es : List (K × V)} (hctx : Ctx s.node s.root m 0 par n l r F)
    (hrec : s.node n = ⟨es ++ [e], par, []⟩) (hfits : Fits m par (s.node n)) (hinc : Increasing (l ++ es ++ e :: r))
    (hcard : F.card < s.nodes) : ∃ sr', (successorAbove n : M K V _).run s = .ok sr' s ∧
      Next s m (l ++ es ++ [e]) r sr' := by
  have hsub : Sub s.node 0 par ⟨n, es ++ [e], {n}⟩ := ⟨hrec, rfl⟩
  have hne : (s.node n).entries ≠ [] := by
    rw [hrec]
    simp
  cases hctx with
  | top =>
    refine ⟨⟨-1, none⟩, run_bind_ok rfl (run_bind_ok rfl ?_), rfl⟩
    rw [hrec]
    rfl
  | @child _ par' p' l r F L' _ R' up record kids fits filled =>
    have hin' := Inner.around record kids ⟨hsub, hfits.sized nofun⟩
    have hinc' : Increasing (l ++ (L'.items ++ (es ++ [e]) ++ R'.items) ++ r) := by
      have hsame : l ++ L'.items ++ es ++ e :: (R'.items ++ r) = l ++ (L'.items ++ (es ++ [e]) ++ R'.items) ++ r := by
        simp
      exact hsame ▸ hinc
    have hup : (parentOf n : M K V _).run s = .ok ⟨L'.length, some p'⟩ s := by
      refine parentOf_run (t := ⟨n, es ++ [e], {n}⟩) record (fun x hx => hin'.left hx) hsub hne (hinc'.sublist ?_)
      exact (sublist_append_left _ _).trans ((sublist_append_right l _).trans (sublist_append_left _ _))
    simp only [card_add, card_singleton] at hcard
    obtain ⟨i, a, hrun, hnext⟩ := successorUp_spec s.nodes up hin' fits filled hinc'
      (by simp only [card_add, card_singleton]; omega) (by omega)
    have hstart : ∃ sr', (successorAbove n : M K V _).run s = .ok sr' s ∧
        sr' = if i > ((s.node a).entries.length : Int) - 1 then ⟨-1, none⟩ else ⟨i, some a⟩ := by
      refine ⟨_, run_bind_ok rfl (run_bind_ok rfl ?_), rfl⟩
      rw [hrec]
      refine run_bind_ok hup (run_bind_ok (getOrThrow_run p') (run_bind_ok hrun ?_))
      refine run_bind_ok (show _ = EStateM.Result.ok (s.node a).entries.length s from rfl) ?_
      dsimp only
      split <;> rfl
    obtain ⟨sr', hrun', hsr⟩ := hstart
    refine ⟨sr', hrun', ?_⟩
    rcases hnext with ⟨hnil, hlast⟩ | ⟨e', r', hcons, hlast, hat⟩
    · rw [hnil, hsr, if_pos hlast]
      rfl
    · rw [hcons, hsr, if_neg (by omega)]
      have hfront : l ++ L'.items ++ es ++ [e] = l ++ (L'.items ++ (es ++ [e])) := by simp
      rw [hfront]
      exact hat

/-- The successor of a place is the place of the next entry. -/
theorem successor_spec {l r : List (K × V)} (hat : At s m sr l e r) (hinc : Increasing (l ++ e :: r))
    (hm : MAX_ENTRY_SIZE ≤ m) :
    ∃ sr', (successor sr : M K V _).run s = .ok sr' s ∧ Next s m (l ++ [e]) r sr' := by
  cases hat with
  | @leaf n par l r es₁ es₂ F e ctx record fits card =>
    have hleaf : (Node.isLeaf n : M K V Bool).run s = .ok true s := Node.isLeaf_run record
    have hsize : (Node.entrySize n : M K V Nat).run s = .ok (es₁ ++ e :: es₂).length s := Node.entrySize_run record
    cases es₂ with
    | cons e' es₂ =>
      refine ⟨⟨es₁.length + 1, some n⟩, ?_, ?_⟩
      · refine run_bind_some rfl (run_bind_ok hleaf (run_bind_ok hsize ?_))
        rw [if_pos]
        · rfl
        · simp only [length_append, length_cons]
          omega
      · have hrec : s.node n = ⟨(es₁ ++ [e]) ++ e' :: es₂, par, []⟩ := by rw [record, append_assoc]; rfl
        have hplace := At.leaf ctx hrec fits card
        rw [length_append, ← append_assoc] at hplace
        exact hplace
    | nil =>
      obtain ⟨sr', hrun, hnext⟩ := successorAbove_spec ctx record fits hinc card
      refine ⟨sr', ?_, hnext⟩
      refine run_bind_some rfl (run_bind_ok hleaf (run_bind_ok hsize ?_))
      rw [if_neg]
      · exact hrun
      · simp only [length_append, length_singleton]
        omega
  | @inner h par t c d l r F L R e ctx node fits card =>
    have hright := inner_shift_iff.mp node
    have hcard := hright.kid.1.lt_card
    have hfoot := congrArg Multiset.card node.foot
    simp only [Rights.foot_cons, card_add, card_singleton] at hfoot
    obtain ⟨leaf, par', e', es, r', F', hrun, hrec, hctx, hitems, hnodes, hfits⟩ := firstLeaf_spec s.nodes hright.kid.1
      (ctx.down hright fits (by rw [node.record]; simp [TreeMap.inner])) (hright.kid.2.fits hm) hright.kid.2.ne_nil
        hm (by omega)
    refine ⟨⟨0, some leaf⟩, ?_, ?_⟩
    · refine run_bind_some rfl (run_bind_ok node.isLeaf_run ?_)
      refine run_bind_some (hright.getChild_run ?_) (run_bind_ok hrun rfl)
      rw [length_append]
      rfl
    · have hcard' := congrArg Multiset.card hnodes
      simp only [Lefts.foot_append, Lefts.foot_singleton, card_add, card_singleton] at hcard'
      have hplace := At.leaf (l := l ++ Lefts.items (L ++ [(c, e)])) hctx
        (show s.node leaf = ⟨[] ++ e' :: es, par', []⟩ from hrec) hfits (by omega)
      rw [append_nil] at hplace
      have hrest : d.items ++ R.items ++ r = e' :: (es ++ r') := by
        rw [append_assoc, ← hitems]
        rfl
      have hfront : l ++ (L.items ++ c.items) ++ [e] = l ++ Lefts.items (L ++ [(c, e)]) := by simp
      rw [hrest, hfront]
      exact hplace

omit [LinearOrder K] in
theorem At.getEntry_run (hat : At s m sr l e r) :
    ∃ n, sr.replaceNode = some n ∧ (Node.getEntry n sr.index : M K V _).run s = .ok (some e) s := by
  cases hat with
  | leaf ctx record fits card => exact ⟨_, rfl, Node.getEntry_run record rfl⟩
  | inner ctx node fits card => exact ⟨_, rfl, Node.getEntry_run node.record (by rw [length_map])⟩

theorem iterate_none {fuel : Nat} (hnone : sr.replaceNode = none) :
    (iterate (fuel + 1) sr : M K V _).run s = .ok [] s := by
  unfold iterate
  rw [hnone]
  rfl

/-- The entries from a place on. -/
theorem iterate_spec (hat : At s m sr l e r) (hinc : Increasing (l ++ e :: r)) (hm : MAX_ENTRY_SIZE ≤ m) (fuel : Nat)
    (hfuel : r.length + 1 < fuel) : (iterate fuel sr : M K V _).run s = .ok (e :: r) s := by
  induction r generalizing l e sr fuel with
  | nil =>
    obtain ⟨fuel, rfl⟩ : ∃ j, fuel = j + 1 + 1 := ⟨fuel - 2, by omega⟩
    obtain ⟨n, hn, hentry⟩ := hat.getEntry_run
    obtain ⟨sr', hsucc, hnext⟩ := successor_spec hat hinc hm
    rw [iterate, hn]
    exact run_bind_some hentry (run_bind_ok hsucc (run_bind_ok (iterate_none hnext) rfl))
  | cons e' r ih =>
    obtain ⟨fuel, rfl⟩ : ∃ j, fuel = j + 1 := ⟨fuel - 1, by omega⟩
    obtain ⟨n, hn, hentry⟩ := hat.getEntry_run
    obtain ⟨sr', hsucc, hnext⟩ := successor_spec hat hinc hm
    have hinc' : Increasing (l ++ [e] ++ e' :: r) := by
      rw [append_assoc]
      exact hinc
    rw [length_cons] at hfuel
    have hrest := ih hnext hinc' fuel (by omega)
    rw [iterate, hn]
    exact run_bind_some hentry (run_bind_ok hsucc (run_bind_ok hrest rfl))

/-- The iterator yields the entries in order. -/
theorem elements_spec (hvalid : Valid s items) (hfilled : RootFilled s) : (elements : M K V _).run s = .ok items s := by
  obtain ⟨H, foot, hsub, hnodup, hlt⟩ := hvalid.tree
  have hcard := card_le_of_allocated hnodup hlt
  have hsize : s.size.toNat = items.length := by rw [hvalid.size, Int.toNat_natCast]
  have hempty := entries_eq_nil_iff hsub hfilled
  have hroot : (Node.isEmpty s.root : M K V Bool).run s = .ok (decide ((s.node s.root).entries.length = 0)) s := rfl
  refine run_bind_ok rfl ?_
  rw [hsize]
  by_cases hnil : items = []
  · subst hnil
    have hfirst : (getFirstEntry : M K V _).run s = .ok ⟨-1, none⟩ s := by
      refine run_bind_ok rfl (run_bind_ok hroot ?_)
      rw [hempty.mpr rfl]
      rfl
    exact run_bind_ok hfirst (iterate_none rfl)
  · have hne : (s.node s.root).entries ≠ [] := fun heq => hnil (hempty.mp heq)
    -- no bound on the number of entries of the root is needed here
    have hm : MAX_ENTRY_SIZE ≤ max MAX_ENTRY_SIZE (s.node s.root).entries.length := le_max_left ..
    obtain ⟨leaf, par, e, es, r, F, hleaf, hrec, hctx, hitems, hfoot, hfits⟩ := firstLeaf_spec s.nodes hsub (.top H)
      ⟨absurd rfl, le_max_right MAX_ENTRY_SIZE _⟩ hne hm (hsub.lt_card.trans_le hcard)
    have hfirst : (getFirstEntry : M K V _).run s = .ok ⟨0, some leaf⟩ s := by
      refine run_bind_ok rfl (run_bind_ok hroot ?_)
      rw [decide_eq_false (fun heq => hne (length_eq_zero_iff.mp heq))]
      exact run_bind_ok hleaf rfl
    have hcard' := congrArg card hfoot
    simp only [card_add, card_singleton, card_zero] at hcard'
    have hat := At.leaf (l := []) (e := e) hctx (show s.node leaf = ⟨[] ++ e :: es, par, []⟩ from hrec) hfits (by omega)
    have hall : items = e :: (es ++ r) := by
      rw [append_nil] at hitems
      exact hitems.symm
    have hinc := hvalid.increasing
    rw [hall] at hinc ⊢
    exact run_bind_ok hfirst (iterate_spec hat hinc hm _ (by rw [length_cons]; omega))

end CangjieRuntime.TreeMap
