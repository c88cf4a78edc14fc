import Mathlib

/-!
# `Lib.Assoc` — association lists with increasing keys

A finite map as the list of its entries in increasing order of their keys: lookup, update and removal, and how they work
on a list that is cut into a part below the key, a part around it and a part above it.
-/

namespace CangjieRuntime.Assoc

open List

variable {K V : Type} [LinearOrder K] {k k' : K} {v v' : V} {l m r es : List (K × V)}

/-- The keys increase strictly. -/
def Increasing (es : List (K × V)) : Prop := es.Pairwise fun a b => a.1 < b.1

/-- All keys are below `k`. -/
def Below (k : K) (es : List (K × V)) : Prop := ∀ e ∈ es, e.1 < k

/-- All keys are above `k`. -/
def Above (k : K) (es : List (K × V)) : Prop := ∀ e ∈ es, k < e.1

/-- The entry of `k` is added, or replaced. -/
def put (k : K) (v : V) (es : List (K × V)) : List (K × V) := es.filter (·.1 < k) ++ (k, v) :: es.filter (k < ·.1)

/-- The entry of `k` is taken out. -/
def erase (k : K) (es : List (K × V)) : List (K × V) := es.filter (·.1 ≠ k)

/-! ## Order -/

theorem increasing_append : Increasing (l ++ r) ↔ Increasing l ∧ Increasing r ∧ ∀ a ∈ l, ∀ b ∈ r, a.1 < b.1 :=
  pairwise_append

theorem increasing_middle : Increasing (l ++ (k, v) :: r) ↔ Increasing l ∧ Increasing r ∧ Below k l ∧ Above k r := by
  unfold Increasing Below Above
  rw [pairwise_append, pairwise_cons]
  constructor
  · rintro ⟨hl, ⟨hk, hr⟩, hlr⟩
    exact ⟨hl, hr, fun a ha => hlr a ha (k, v) (mem_cons_self ..), hk⟩
  · rintro ⟨hl, hr, hlk, hkr⟩
    refine ⟨hl, ⟨hkr, hr⟩, ?_⟩
    intro a ha b hb
    rcases mem_cons.mp hb with rfl | hb
    · exact hlk a ha
    · exact (hlk a ha).trans (hkr b hb)

theorem Increasing.sublist (hes : Increasing es) (hsub : List.Sublist l es) : Increasing l :=
  List.Pairwise.sublist hsub hes

theorem Increasing.nodup_keys (hes : Increasing es) : (es.map Prod.fst).Nodup :=
  pairwise_map.mpr (hes.imp fun hlt => hlt.ne)

/-- A key is in an increasing list, or has a place in it. -/
theorem Increasing.place (hes : Increasing es) (k : K) :
    (∃ l v r, es = l ++ (k, v) :: r) ∨ ∃ l r, es = l ++ r ∧ Below k l ∧ Above k r := by
  induction es with
  | nil => exact .inr ⟨[], [], rfl, nofun, nofun⟩
  | cons e es ih =>
    obtain ⟨hlt, hes⟩ := pairwise_cons.mp hes
    rcases lt_trichotomy e.1 k with hek | hek | hek
    · rcases ih hes with ⟨l, v, r, rfl⟩ | ⟨l, r, rfl, hl, hr⟩
      · exact .inl ⟨e :: l, v, r, rfl⟩
      · refine .inr ⟨e :: l, r, rfl, ?_, hr⟩
        exact forall_mem_cons.mpr ⟨hek, hl⟩
    · subst hek
      exact .inl ⟨[], e.2, es, rfl⟩
    · refine .inr ⟨[], e :: es, rfl, nofun, ?_⟩
      exact forall_mem_cons.mpr ⟨hek, fun b hb => hek.trans (hlt b hb)⟩

/-! ## Lookup -/

variable (hl : Below k l)
include hl

theorem Below.lookup : l.lookup k = none := by
  rw [lookup_eq_none_iff]
  intro e he
  exact bne_iff_ne.mpr (hl e he).ne'

omit hl in
theorem Above.lookup (hr : Above k r) : r.lookup k = none := by
  rw [lookup_eq_none_iff]
  intro e he
  exact bne_iff_ne.mpr (hr e he).ne

theorem lookup_around (hr : Above k r) : (l ++ m ++ r).lookup k = m.lookup k := by
  rw [lookup_append, lookup_append, hl.lookup, hr.lookup, Option.none_or, Option.or_none]

theorem lookup_middle : (l ++ (k, v) :: r).lookup k = some v := by
  rw [lookup_append, hl.lookup, Option.none_or, lookup_cons_self]

omit hl in
theorem Increasing.exists_of_lookup (hes : Increasing es) (hk : es.lookup k = some v) :
    ∃ l r, es = l ++ (k, v) :: r := by
  rcases hes.place k with ⟨l, w, r, rfl⟩ | ⟨l, r, rfl, hl, hr⟩
  · obtain ⟨-, -, hl, -⟩ := increasing_middle.mp hes
    rw [lookup_middle hl] at hk
    cases hk
    exact ⟨l, r, rfl⟩
  · rw [lookup_append, hl.lookup, hr.lookup] at hk
    exact absurd hk nofun

/-! ## Update and removal -/

theorem Below.filter_lt : l.filter (·.1 < k) = l :=
  filter_eq_self.mpr fun e he => decide_eq_true (hl e he)

theorem Below.filter_gt : l.filter (k < ·.1) = [] :=
  filter_eq_nil_iff.mpr fun e he hlt => (lt_asymm (hl e he)) (of_decide_eq_true hlt)

omit hl in
theorem Above.filter_lt (hr : Above k r) : r.filter (·.1 < k) = [] :=
  filter_eq_nil_iff.mpr fun e he hlt => (lt_asymm (hr e he)) (of_decide_eq_true hlt)

omit hl in
theorem Above.filter_gt (hr : Above k r) : r.filter (k < ·.1) = r :=
  filter_eq_self.mpr fun e he => decide_eq_true (hr e he)

theorem put_around (hr : Above k r) : put k v (l ++ m ++ r) = l ++ put k v m ++ r := by
  unfold put
  simp only [filter_append, hl.filter_lt, hl.filter_gt, hr.filter_lt, hr.filter_gt, nil_append, append_nil,
    append_assoc, cons_append]

theorem put_absent (hr : Above k r) : put k v (l ++ r) = l ++ (k, v) :: r := by
  unfold put
  simp only [filter_append, hl.filter_lt, hl.filter_gt, hr.filter_lt, hr.filter_gt, nil_append, append_nil]

theorem put_present (hr : Above k r) : put k v (l ++ (k, v') :: r) = l ++ (k, v) :: r := by
  have hmid : put k v [(k, v')] = [(k, v)] := by simp [put]
  have happend : l ++ (k, v') :: r = l ++ [(k, v')] ++ r := by rw [append_assoc]; rfl
  rw [happend, put_around hl hr, hmid, append_assoc]
  rfl

omit hl

theorem Increasing.put (hes : Increasing es) : Increasing (put k v es) := by
  refine increasing_middle.mpr ⟨hes.sublist filter_sublist, hes.sublist filter_sublist, ?_, ?_⟩
  · intro e he
    exact of_decide_eq_true (mem_filter.mp he).2
  · intro e he
    exact of_decide_eq_true (mem_filter.mp he).2

theorem lookup_put_self : (put k v es).lookup k = some v := by
  refine lookup_middle ?_
  intro e he
  exact of_decide_eq_true (mem_filter.mp he).2

theorem lookup_filter_of_key {p : K × V → Bool} (hp : ∀ w, p (k, w) = true) : (es.filter p).lookup k = es.lookup k := by
  induction es with
  | nil => rfl
  | cons e es ih =>
    by_cases hk : k = e.1
    · subst hk
      rw [filter_cons_of_pos (hp e.2), lookup_cons, lookup_cons]
      simp
    · have hne : (k == e.1) = false := beq_false_of_ne hk
      cases he : p e with
      | true => rw [filter_cons_of_pos he, lookup_cons, lookup_cons, hne, ih]
      | false =>
        rw [filter_cons_of_neg (by rw [he]; nofun), lookup_cons, hne, ih]

theorem lookup_filter_of_not_key {p : K × V → Bool} (hp : ∀ w, p (k, w) = false) : (es.filter p).lookup k = none := by
  rw [lookup_eq_none_iff]
  intro e he
  refine bne_iff_ne.mpr ?_
  rintro rfl
  rw [mem_filter] at he
  exact absurd (he.2.symm.trans (hp e.2)) nofun

theorem lookup_put_of_ne (hne : k' ≠ k) : (put k v es).lookup k' = es.lookup k' := by
  have hk : (k' == k) = false := beq_false_of_ne hne
  unfold put
  rw [lookup_append, lookup_cons, hk]
  dsimp only
  rcases lt_or_gt_of_ne hne with hlt | hgt
  · rw [lookup_filter_of_key (fun _ => decide_eq_true hlt),
      lookup_filter_of_not_key (fun _ => decide_eq_false (lt_asymm hlt)), Option.or_none]
  · rw [lookup_filter_of_not_key (fun _ => decide_eq_false (lt_asymm hgt)),
      lookup_filter_of_key (fun _ => decide_eq_true hgt), Option.none_or]

theorem Increasing.length_put (hes : Increasing es) :
    (Assoc.put k v es).length = if (es.lookup k).isSome then es.length else es.length + 1 := by
  rcases hes.place k with ⟨l, w, r, rfl⟩ | ⟨l, r, rfl, hl, hr⟩
  · obtain ⟨-, -, hl, hr⟩ := increasing_middle.mp hes
    rw [put_present hl hr, lookup_middle hl, length_append, length_append]
    rfl
  · rw [put_absent hl hr, lookup_append, hl.lookup, hr.lookup, length_append, length_append]
    rfl

theorem Below.erase (hl : Below k l) : erase k l = l :=
  filter_eq_self.mpr fun e he => decide_eq_true (hl e he).ne

theorem Above.erase (hr : Above k r) : erase k r = r :=
  filter_eq_self.mpr fun e he => decide_eq_true (hr e he).ne'

theorem erase_around (hl : Below k l) (hr : Above k r) : erase k (l ++ m ++ r) = l ++ erase k m ++ r := by
  unfold erase
  rw [filter_append, filter_append]
  exact congrArg₂ (fun a b => a ++ m.filter (·.1 ≠ k) ++ b) hl.erase hr.erase

theorem erase_middle (hl : Below k l) (hr : Above k r) : erase k (l ++ (k, v) :: r) = l ++ r := by
  have hmid : erase k [(k, v)] = [] := by simp [erase]
  have happend : l ++ (k, v) :: r = l ++ [(k, v)] ++ r := by rw [append_assoc]; rfl
  rw [happend, erase_around hl hr, hmid, append_nil]

theorem erase_of_lookup_none (hk : es.lookup k = none) : erase k es = es := by
  rw [lookup_eq_none_iff] at hk
  refine filter_eq_self.mpr ?_
  intro e he
  refine decide_eq_true ?_
  rintro rfl
  exact absurd (hk e he) (by simp)

end CangjieRuntime.Assoc
