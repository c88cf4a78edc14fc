import CangjieRuntime.Native.PageCache

/-!
# `Native.Correctness.PageOwnership` — every page belongs to one span

At any time the spans are disjoint and make up the pages got from the system; free spans lie in the bucket of their
length; the table has all pages of a span in use, and whatever it says about a page is true: the span exists and the
page is in it.

While a span is taken, split or merged, this holds up to that one span, which is *held*: it lies in no bucket, and the
table may be wrong about its pages (entries of neighbours that were merged into it, or of the span it was split from).
Each function ends with writing these entries anew.
-/

namespace CangjieRuntime.Native

open Word Function Option

variable {S : Type} {a b : S} {x : Span} {buckets : Nat → List S} {m n : Nat} {f : S → Option Span}

/-- The page is one of the span's. -/
def Span.Has (x : Span) (p : Nat) : Prop := x.pageId ≤ p ∧ p < x.pageId + x.pageNum

/-- The span exists and the page is one of its pages. -/
def Owns (pc : PageCache S) (a : S) (p : Nat) : Prop := ∃ x, pc.span a = some x ∧ x.Has p

/-- The page was got from the system. -/
def Obtained (pc : PageCache S) (p : Nat) : Prop := ∃ first ∈ pc.systemPages, first ≤ p ∧ p < first + (MAX_NPAGES - 1)

/-- The span exists, is free, and has `n` pages. -/
def FreeOf (pc : PageCache S) (n : Nat) (a : S) : Prop := ∃ x, pc.span a = some x ∧ x.isUse = false ∧ x.pageNum = n

/-- The span exists and is in use. -/
def InUse (pc : PageCache S) (a : S) : Prop := ∃ x, pc.span a = some x ∧ x.isUse = true

/-- **Ownership of pages**, up to a span that is held. -/
structure Owned (pc : PageCache S) (held : Option S) : Prop where
  size : ∀ {a x}, pc.span a = some x → 0 < x.pageNum ∧ x.pageNum < MAX_NPAGES
  disjoint : ∀ {a b p}, Owns pc a p → Owns pc b p → a = b
  cover : ∀ p, (∃ a, Owns pc a p) ↔ Obtained pc p
  bound : ∀ first ∈ pc.systemPages, first + (MAX_NPAGES - 1) ≤ 2 ^ 52
  bucket : ∀ {n a}, a ∈ pc.pageCacheSpans n ↔ held ≠ some a ∧ FreeOf pc n a
  nodup : ∀ n, (pc.pageCacheSpans n).Nodup
  table : ∀ {p a}, pc.idSpanMap p = some a → Owns pc a p ∨ ∃ b, held = some b ∧ Owns pc b p
  used : ∀ {p a}, held ≠ some a → InUse pc a → Owns pc a p → pc.idSpanMap p = some a

theorem owned_empty : Owned (PageCache.empty : PageCache S) none where
  size h := nomatch h
  disjoint := fun ⟨_, h, _⟩ => nomatch h
  cover _ := ⟨fun ⟨_, _, h, _⟩ => (nomatch h), fun ⟨_, h, _⟩ => (nomatch h)⟩
  bound _ h := nomatch h
  bucket := ⟨fun h => (nomatch h), fun ⟨_, _, h, _⟩ => (nomatch h)⟩
  nodup _ := List.nodup_nil
  table h := nomatch h
  used := fun _ ⟨_, h, _⟩ => nomatch h

theorem none_ne_some (a : S) : (none : Option S) ≠ some a := (some_ne_none a).symm

section Owned

variable {pc : PageCache S} {held : Option S} {a b : S} {x : Span} {p n : Nat}

theorem owns_iff (hx : pc.span a = some x) : Owns pc a p ↔ x.Has p :=
  ⟨fun ⟨_, hy, hp⟩ => some.inj (hy.symm.trans hx) ▸ hp, fun hp => ⟨x, hx, hp⟩⟩

theorem freeOf_iff (hx : pc.span a = some x) : FreeOf pc n a ↔ x.isUse = false ∧ x.pageNum = n :=
  ⟨fun ⟨_, hy, hp⟩ => some.inj (hy.symm.trans hx) ▸ hp, fun hp => ⟨x, hx, hp⟩⟩

theorem Owned.lt_bound (h : Owned pc held) (hp : Owns pc a p) : p < 2 ^ 52 := by
  obtain ⟨first, hmem, -, hlt⟩ := (h.cover p).mp ⟨a, hp⟩
  exact hlt.trans_le (h.bound first hmem)

/-- The first page of a span is its own. -/
theorem Owned.owns_first (h : Owned pc held) (hx : pc.span a = some x) : Owns pc a x.pageId :=
  ⟨x, hx, Nat.le_refl _, Nat.lt_add_of_pos_right (h.size hx).1⟩

/-- A span in use can be held. -/
theorem Owned.hold (h : Owned pc none) (huse : InUse pc a) : Owned pc (some a) where
  size := h.size
  disjoint := h.disjoint
  cover := h.cover
  bound := h.bound
  bucket := by
    intro n b
    rw [h.bucket]
    constructor
    · rintro ⟨-, hfree⟩
      refine ⟨?_, hfree⟩
      rintro ⟨⟩
      obtain ⟨x, hx, htrue⟩ := huse
      exact Bool.noConfusion (((freeOf_iff hx).mp hfree).1.symm.trans htrue)
    · rintro ⟨-, hfree⟩
      exact ⟨none_ne_some b, hfree⟩
  nodup := h.nodup
  table := fun hp => (h.table hp).imp_right fun ⟨_, hnone, _⟩ => nomatch hnone
  used := fun _ => h.used (none_ne_some _)

/-- An entry for a page that is not the held span's names the owner of the page. -/
theorem Owned.owner (h : Owned pc (some a)) (hnot : ¬Owns pc a p) (hp : pc.idSpanMap p = some b) :
    Owns pc b p ∧ a ≠ b := by
  have howner : Owns pc b p := by
    refine (h.table hp).resolve_right ?_
    rintro ⟨c, hc, hown⟩
    exact hnot (some.inj hc ▸ hown)
  exact ⟨howner, fun heq => hnot (heq ▸ howner)⟩

/-- The span before the held one ends where that begins. -/
theorem Owned.prev (h : Owned pc (some a)) (hx : pc.span a = some x) (hp : pc.idSpanMap (sub64 x.pageId 1) = some b) :
    ∃ y, pc.span b = some y ∧ a ≠ b ∧ y.pageId + y.pageNum = x.pageId := by
  have hfirst := h.owns_first hx
  have hlt := h.lt_bound hfirst
  -- before page zero there is none: its predecessor is the greatest number
  have hnot : ¬Owns pc a (sub64 x.pageId 1) := by
    intro hown
    have hhas := (owns_iff hx).mp hown
    have hbound := h.lt_bound hown
    unfold Span.Has sub64 at *
    omega
  obtain ⟨⟨y, hy, hhas⟩, hab⟩ := h.owner hnot hp
  refine ⟨y, hy, hab, ?_⟩
  by_contra hne
  refine hab (h.disjoint hfirst ⟨y, hy, ?_⟩)
  have hbound := h.lt_bound ⟨y, hy, hhas⟩
  unfold Span.Has sub64 at *
  omega

/-- The span after the held one begins where that ends. -/
theorem Owned.next (h : Owned pc (some a)) (hx : pc.span a = some x)
    (hp : pc.idSpanMap (x.pageId + x.pageNum) = some b) :
    ∃ y, pc.span b = some y ∧ a ≠ b ∧ y.pageId = x.pageId + x.pageNum := by
  have hpos := (h.size hx).1
  have hnot : ¬Owns pc a (x.pageId + x.pageNum) := fun hown => absurd ((owns_iff hx).mp hown).2 (lt_irrefl _)
  have hlast : Owns pc a (x.pageId + x.pageNum - 1) := by
    refine (owns_iff hx).mpr ?_
    unfold Span.Has
    omega
  obtain ⟨⟨y, hy, hhas⟩, hab⟩ := h.owner hnot hp
  refine ⟨y, hy, hab, ?_⟩
  by_contra hne
  refine hab (h.disjoint hlast ⟨y, hy, ?_⟩)
  unfold Span.Has at *
  omega

end Owned

/-! ## The table -/

theorem mapPages_apply (idSpanMap : Nat → Option S) (a : S) (pageId n p : Nat) :
    mapPages idSpanMap a pageId n p = if pageId ≤ p ∧ p < pageId + n then some a else idSpanMap p := by
  induction n with
  | zero => rw [if_neg (by omega)]; rfl
  | succ n ih =>
    unfold mapPages
    by_cases hp : p = pageId + n
    · rw [hp, update_self, if_pos (by omega)]
    · rw [update_of_ne hp, ih]
      exact if_congr (by omega) rfl rfl

/-- The loop writes the entries of the pages of the span. -/
theorem mapPages_eq_some {idSpanMap : Nat → Option S} {p : Nat} :
    mapPages idSpanMap a x.pageId x.pageNum p = some b ↔ x.Has p ∧ a = b ∨ ¬x.Has p ∧ idSpanMap p = some b := by
  rw [mapPages_apply, ite_eq_iff, some.injEq]
  rfl

/-! ## Buckets -/

theorem mem_pushed :
    b ∈ update buckets m (a :: buckets m) n ↔ b ∈ buckets n ∨ b = a ∧ n = m := by
  by_cases hn : n = m
  · subst hn
    rw [update_self, List.mem_cons, or_comm, and_iff_left rfl]
  · rw [update_of_ne hn]
    exact (or_iff_left fun h => hn h.2).symm

theorem nodup_pushed (hnot : a ∉ buckets m) (hnodup : ∀ n, (buckets n).Nodup) :
    (update buckets m (a :: buckets m) n).Nodup := by
  by_cases hn : n = m
  · subst hn
    rw [update_self]
    exact List.nodup_cons.mpr ⟨hnot, hnodup n⟩
  · rw [update_of_ne hn]
    exact hnodup n

theorem Owned.held_not_mem {pc : PageCache S} (h : Owned pc (some a)) (n : Nat) : a ∉ pc.pageCacheSpans n := fun hmem =>
  (h.bucket.mp hmem).1 rfl

variable [DecidableEq S]

/-! ## Writing a span -/

theorem update_eq_some {x y : Span} :
    update f a (some x) b = some y ↔ b = a ∧ x = y ∨ b ≠ a ∧ f b = some y := by
  rw [update_apply, ite_eq_iff, some.injEq]

/-- A fact about a span, after one span has been written. -/
theorem exists_update {P : Span → Prop} :
    (∃ y, update f a (some x) b = some y ∧ P y) ↔ b = a ∧ P x ∨ b ≠ a ∧ ∃ y, f b = some y ∧ P y := by
  by_cases hb : b = a
  · subst hb
    simp only [update_self, some.injEq, exists_eq_left', ne_eq, not_true, true_and, false_and, or_false]
  · simp only [update_of_ne hb, hb, ne_eq, not_false_eq_true, true_and, false_and, false_or]

/-! ## Putting a span in its place -/

section Settle

variable {pc : PageCache S} {a : S} {x : Span}

/-- The mark of a span is no matter of pages. -/
theorem owns_setUse (hx : pc.span a = some x) (use : Bool) {b : S} {p : Nat} :
    Owns (pc.setSpan a { x with isUse := use }) b p ↔ Owns pc b p := by
  refine exists_update.trans ?_
  by_cases hb : b = a
  · subst hb
    simp only [ne_eq, not_true, true_and, false_and, or_false, owns_iff hx]
    rfl
  · simp only [hb, ne_eq, not_false_eq_true, true_and, false_and, false_or]
    rfl

variable (h : Owned pc (some a)) (hx : pc.span a = some x)
include h hx

/-- The held span is put where it belongs, with its entries in the table. -/
theorem Owned.settle (use : Bool) {buckets : Nat → List S} (hnodup : ∀ n, (buckets n).Nodup)
    (hbuckets : ∀ n b, b ∈ buckets n ↔ b ∈ pc.pageCacheSpans n ∨ use = false ∧ b = a ∧ n = x.pageNum) :
    Owned { (pc.setSpan a { x with isUse := use }).mapAll a x with pageCacheSpans := buckets } none where
  size hy := by
    rcases update_eq_some.mp hy with ⟨-, rfl⟩ | ⟨-, hy⟩
    · exact ⟨(h.size hx).1, (h.size hx).2⟩
    · exact h.size hy
  disjoint hb hc := h.disjoint ((owns_setUse hx use).mp hb) ((owns_setUse hx use).mp hc)
  cover p := (exists_congr fun _ => owns_setUse hx use).trans (h.cover p)
  bound := h.bound
  bucket := by
    intro n b
    have hfree : FreeOf (pc.setSpan a { x with isUse := use }) n b ↔
        b = a ∧ use = false ∧ x.pageNum = n ∨ b ≠ a ∧ FreeOf pc n b := exists_update
    refine (hbuckets n b).trans (Iff.trans ?_ (and_iff_right (none_ne_some b)).symm)
    rw [h.bucket, ne_eq, some.injEq, eq_comm (a := a)]
    refine Iff.trans ?_ hfree.symm
    constructor
    · rintro (hother | ⟨hu, rfl, rfl⟩)
      · exact Or.inr hother
      · exact Or.inl ⟨rfl, hu, rfl⟩
    · rintro (⟨rfl, hu, rfl⟩ | hother)
      · exact Or.inr ⟨hu, rfl, rfl⟩
      · exact Or.inl hother
  nodup := hnodup
  table := by
    intro p b hp
    rcases mapPages_eq_some.mp hp with ⟨hhas, rfl⟩ | ⟨hnot, hp⟩
    · exact Or.inl ((owns_setUse hx use).mpr ((owns_iff hx).mpr hhas))
    · rcases h.table hp with howns | ⟨c, hc, howns⟩
      · exact Or.inl ((owns_setUse hx use).mpr howns)
      · obtain rfl := some.inj hc
        exact absurd ((owns_iff hx).mp howns) hnot
  used := by
    intro p b _ huse howns
    have howns' := (owns_setUse hx use).mp howns
    apply mapPages_eq_some.mpr
    by_cases hb : b = a
    · subst hb
      exact Or.inl ⟨(owns_iff hx).mp howns', rfl⟩
    · refine Or.inr ⟨fun hhas => hb (h.disjoint howns' ((owns_iff hx).mpr hhas)), ?_⟩
      have huse' : InUse pc b := ((exists_update.mp huse).resolve_left fun h => hb h.1).2
      exact h.used (fun heq => hb (some.inj heq).symm) huse' howns'

/-- A held span is given away. -/
theorem Owned.give : Owned ((pc.mapAll a x).setSpan a { x with isUse := true }) none := by
  exact h.settle hx true h.nodup fun _ _ => (or_iff_left fun hfalse => Bool.noConfusion hfalse.1).symm

/-- A held span is put into the bucket of its length. -/
theorem Owned.hang : ∃ pc', hangSpan pc a = some pc' ∧ Owned pc' none ∧
    pc'.span a = some { x with isUse := false } := by
  have hsettle := h.settle hx false (fun _ => nodup_pushed (h.held_not_mem x.pageNum) h.nodup) fun n b =>
    mem_pushed.trans (or_congr_right (and_iff_right rfl).symm)
  refine ⟨_, ?_, hsettle, update_self ..⟩
  unfold hangSpan PageCache.pushFront
  rw [hx, bind_eq_bind, bind_some, if_pos (h.size hx).2]
  rfl

end Settle

/-! ## Merging -/

section Merge

variable {pc : PageCache S} {a b : S} {x y merged : Span} {c : S} {buckets : Nat → List S} {m n fuel : Nat}

theorem exists_update_none {f : S → Option Span} {P : Span → Prop} :
    (∃ z, update f b none c = some z ∧ P z) ↔ c ≠ b ∧ ∃ z, f c = some z ∧ P z := by
  by_cases hc : c = b
  · subst hc
    simp only [update_self, reduceCtorEq, false_and, exists_false, ne_eq, not_true]
  · simp only [update_of_ne hc, ne_eq, hc, not_false_eq_true, true_and]

/-- A fact about a span, after `a` has been written and `b` deleted. -/
theorem exists_absorbed {P : Span → Prop} (hab : a ≠ b) :
    (∃ z, update (update pc.span a (some merged)) b none c = some z ∧ P z) ↔
      c = a ∧ P merged ∨ c ≠ a ∧ c ≠ b ∧ ∃ z, pc.span c = some z ∧ P z := by
  rw [exists_update_none, exists_update]
  constructor
  · rintro ⟨hcb, ⟨rfl, hP⟩ | ⟨hca, hz⟩⟩
    · exact Or.inl ⟨rfl, hP⟩
    · exact Or.inr ⟨hca, hcb, hz⟩
  · rintro (⟨rfl, hP⟩ | ⟨hca, hcb, hz⟩)
    · exact ⟨hab, Or.inl ⟨rfl, hP⟩⟩
    · exact ⟨hcb, Or.inr ⟨hca, hz⟩⟩

/-- Taking a span out of the only bucket in which it is. -/
theorem mem_erased (hnodup : ∀ n, (buckets n).Nodup)
    (honly : ∀ n, b ∈ buckets n → n = m) :
    c ∈ update buckets m ((buckets m).erase b) n ↔ c ≠ b ∧ c ∈ buckets n := by
  by_cases hn : n = m
  · subst hn
    rw [update_self]
    exact (hnodup n).mem_erase_iff
  · rw [update_of_ne hn]
    refine (and_iff_right_of_imp ?_).symm
    rintro hmem rfl
    exact hn (honly n hmem)

theorem nodup_erased (hnodup : ∀ n, (buckets n).Nodup) :
    (update buckets m ((buckets m).erase b) n).Nodup := by
  by_cases hn : n = m
  · subst hn
    rw [update_self]
    exact (hnodup n).erase b
  · rw [update_of_ne hn]
    exact hnodup n

/-- What a merge makes of the cache. -/
def absorbed (pc : PageCache S) (a b : S) (merged y : Span) : PageCache S :=
  ((pc.setSpan a merged).setBucket y.pageNum ((pc.pageCacheSpans y.pageNum).erase b)).deleteSpan b

variable (h : Owned pc (some a)) (hx : pc.span a = some x)
include h hx

/-- The held span takes the pages of a free neighbour, which is deleted. -/
theorem Owned.absorbed (hy : pc.span b = some y) (hab : a ≠ b) (hlt : merged.pageNum < MAX_NPAGES)
    (hhas : ∀ p, merged.Has p ↔ x.Has p ∨ y.Has p) (hpos : 0 < merged.pageNum) :
    Owned (absorbed pc a b merged y) (some a) := by
  have howns : ∀ {c p}, Owns (Native.absorbed pc a b merged y) c p ↔
      c = a ∧ (Owns pc a p ∨ Owns pc b p) ∨ c ≠ a ∧ c ≠ b ∧ Owns pc c p := by
    intro c p
    rw [owns_iff hx, owns_iff hy, ← hhas]
    exact exists_absorbed hab
  refine ⟨?_, ?_, ?_, h.bound, ?_, fun n => nodup_erased h.nodup, ?_, ?_⟩
  · intro c z hz
    rcases (exists_absorbed (P := fun w => w = z) hab).mp ⟨z, hz, rfl⟩ with ⟨-, rfl⟩ | ⟨-, -, w, hw, rfl⟩
    · exact ⟨hpos, hlt⟩
    · exact h.size hw
  · intro c d p hc hd
    rcases howns.mp hc with ⟨rfl, hp⟩ | ⟨hca, hcb, hp⟩ <;> rcases howns.mp hd with ⟨rfl, hq⟩ | ⟨hda, hdb, hq⟩
    · rfl
    · rcases hp with hp | hp
      · exact absurd (h.disjoint hq hp) hda
      · exact absurd (h.disjoint hq hp) hdb
    · rcases hq with hq | hq
      · exact absurd (h.disjoint hp hq) hca
      · exact absurd (h.disjoint hp hq) hcb
    · exact h.disjoint hp hq
  · intro p
    refine Iff.trans ?_ (h.cover p)
    constructor
    · rintro ⟨c, hc⟩
      rcases howns.mp hc with ⟨-, hp | hp⟩ | ⟨-, -, hp⟩
      · exact ⟨a, hp⟩
      · exact ⟨b, hp⟩
      · exact ⟨c, hp⟩
    · rintro ⟨c, hp⟩
      by_cases hca : c = a
      · exact ⟨a, howns.mpr (Or.inl ⟨rfl, Or.inl (hca ▸ hp)⟩)⟩
      · by_cases hcb : c = b
        · exact ⟨a, howns.mpr (Or.inl ⟨rfl, Or.inr (hcb ▸ hp)⟩)⟩
        · exact ⟨c, howns.mpr (Or.inr ⟨hca, hcb, hp⟩)⟩
  · intro n c
    have honly : ∀ m, b ∈ pc.pageCacheSpans m → m = y.pageNum := fun m hmem =>
      ((freeOf_iff hy).mp (h.bucket.mp hmem).2).2.symm
    have hfree : FreeOf (Native.absorbed pc a b merged y) n c ↔
        c = a ∧ merged.isUse = false ∧ merged.pageNum = n ∨ c ≠ a ∧ c ≠ b ∧ FreeOf pc n c := exists_absorbed hab
    refine (mem_erased h.nodup honly).trans ?_
    rw [h.bucket, hfree]
    constructor
    · rintro ⟨hcb, hheld, hc⟩
      exact ⟨hheld, Or.inr ⟨fun heq => hheld (heq ▸ rfl), hcb, hc⟩⟩
    · rintro ⟨hheld, hc⟩
      obtain ⟨-, hcb, hc⟩ := hc.resolve_left fun heq => hheld (heq.1 ▸ rfl)
      exact ⟨hcb, hheld, hc⟩
  · intro p c hp
    rcases h.table hp with howner | ⟨d, hd, howner⟩
    · by_cases hc : c = a ∨ c = b
      · refine Or.inr ⟨a, rfl, howns.mpr (Or.inl ⟨rfl, ?_⟩)⟩
        rcases hc with rfl | rfl
        · exact Or.inl howner
        · exact Or.inr howner
      · obtain ⟨hca, hcb⟩ := not_or.mp hc
        exact Or.inl (howns.mpr (Or.inr ⟨hca, hcb, howner⟩))
    · obtain rfl := some.inj hd
      exact Or.inr ⟨_, rfl, howns.mpr (Or.inl ⟨rfl, Or.inl howner⟩)⟩
  · intro p c hheld huse howner
    have hca : c ≠ a := fun heq => hheld (heq ▸ rfl)
    obtain ⟨-, -, huse'⟩ := ((exists_absorbed hab).mp huse).resolve_left fun heq => hca heq.1
    obtain ⟨-, -, howner'⟩ := (howns.mp howner).resolve_left fun heq => hca heq.1
    exact h.used hheld huse' howner'

/-- A free neighbour can be merged. -/
theorem Owned.absorb (hy : pc.span b = some y) (hab : a ≠ b) (hfree : y.isUse = false)
    (hlt : x.pageNum + y.pageNum < MAX_NPAGES) (pageId : Nat)
    (hhas : ∀ p, Span.Has ⟨x.pageNum + y.pageNum, pageId, x.isUse⟩ p ↔ x.Has p ∨ y.Has p) :
    ∃ pc', absorb pc a b ⟨x.pageNum + y.pageNum, pageId, x.isUse⟩ y = some pc' ∧
      pc'.span a = some ⟨x.pageNum + y.pageNum, pageId, x.isUse⟩ ∧ Owned pc' (some a) := by
  have hmem : b ∈ pc.pageCacheSpans y.pageNum :=
    h.bucket.mpr ⟨fun heq => hab (some.inj heq), (freeOf_iff hy).mpr ⟨hfree, rfl⟩⟩
  refine ⟨Native.absorbed pc a b _ y, ?_, ?_, h.absorbed hx hy hab hlt hhas (Nat.add_pos_left (h.size hx).1 _)⟩
  · unfold Native.absorb PageCache.erase
    rw [if_pos ⟨(h.size hy).2, hmem⟩]
    rfl
  · exact (update_of_ne hab ..).trans (update_self ..)

theorem mergeForward_spec (hfuel : MAX_NPAGES ≤ fuel + x.pageNum) :
    ∃ pc', mergeForward fuel pc a = some pc' ∧ Owned pc' (some a) ∧
      ∃ x', pc'.span a = some x' ∧ ∀ p, x.Has p → x'.Has p := by
  induction fuel generalizing pc x with
  | zero => exact absurd (h.size hx).2 (Nat.not_lt.mpr (Nat.zero_add x.pageNum ▸ hfuel))
  | succ fuel ih =>
    unfold mergeForward
    rw [hx, bind_eq_bind, bind_some]
    cases hp : pc.idSpanMap (sub64 x.pageId 1) with
    | none => exact ⟨pc, rfl, h, x, hx, fun _ => id⟩
    | some b =>
      obtain ⟨y, hy, hab, hadj⟩ := h.prev hx hp
      dsimp only
      rw [hy, bind_some]
      split_ifs with huse hlong
      · exact ⟨pc, rfl, h, x, hx, fun _ => id⟩
      · exact ⟨pc, rfl, h, x, hx, fun _ => id⟩
      have hpos := (h.size hy).1
      have hlt : x.pageNum + y.pageNum < MAX_NPAGES := by
        unfold MAX_NPAGES at *
        omega
      have hhas (p : Nat) : Span.Has ⟨x.pageNum + y.pageNum, y.pageId, x.isUse⟩ p ↔ x.Has p ∨ y.Has p := by
        dsimp only [Span.Has]
        omega
      obtain ⟨pc', habsorb, hx', h'⟩ := h.absorb hx hy hab (Bool.eq_false_iff.mpr huse) hlt y.pageId hhas
      rw [habsorb, bind_eq_bind, bind_some]
      obtain ⟨pc'', hmerge, h'', x'', hx'', hkeeps⟩ := ih h' hx' (by dsimp only; omega)
      exact ⟨pc'', hmerge, h'', x'', hx'', fun p hp => hkeeps p ((hhas p).mpr (Or.inl hp))⟩

theorem mergeBackward_spec (hfuel : MAX_NPAGES ≤ fuel + x.pageNum) :
    ∃ pc', mergeBackward fuel pc a = some pc' ∧ Owned pc' (some a) ∧
      ∃ x', pc'.span a = some x' ∧ ∀ p, x.Has p → x'.Has p := by
  induction fuel generalizing pc x with
  | zero => exact absurd (h.size hx).2 (Nat.not_lt.mpr (Nat.zero_add x.pageNum ▸ hfuel))
  | succ fuel ih =>
    unfold mergeBackward
    rw [hx, bind_eq_bind, bind_some]
    cases hp : pc.idSpanMap (x.pageId + x.pageNum) with
    | none => exact ⟨pc, rfl, h, x, hx, fun _ => id⟩
    | some b =>
      obtain ⟨y, hy, hab, hadj⟩ := h.next hx hp
      dsimp only
      rw [hy, bind_some]
      split_ifs with huse hlong
      · exact ⟨pc, rfl, h, x, hx, fun _ => id⟩
      · exact ⟨pc, rfl, h, x, hx, fun _ => id⟩
      have hpos := (h.size hy).1
      have hlt : x.pageNum + y.pageNum < MAX_NPAGES := by
        unfold MAX_NPAGES at *
        omega
      have hhas (p : Nat) : Span.Has ⟨x.pageNum + y.pageNum, x.pageId, x.isUse⟩ p ↔ x.Has p ∨ y.Has p := by
        dsimp only [Span.Has]
        omega
      obtain ⟨pc', habsorb, hx', h'⟩ := h.absorb hx hy hab (Bool.eq_false_iff.mpr huse) hlt x.pageId hhas
      rw [habsorb, bind_eq_bind, bind_some]
      obtain ⟨pc'', hmerge, h'', x'', hx'', hkeeps⟩ := ih h' hx' (by dsimp only; omega)
      exact ⟨pc'', hmerge, h'', x'', hx'', fun p hp => hkeeps p ((hhas p).mpr (Or.inl hp))⟩

omit h hx

/-- Releasing a span in use works, and keeps the pages in order. The span is free afterwards and still has its pages. -/
theorem releaseSpan_spec (h : Owned pc none) (huse : InUse pc a) :
    ∃ pc', releaseSpanToPageCache pc a = some pc' ∧ Owned pc' none ∧ ¬InUse pc' a ∧
      ∀ p, Owns pc a p → Owns pc' a p := by
  obtain ⟨x, hx, -⟩ := id huse
  obtain ⟨pc₁, heq₁, h₁, x₁, hx₁, hkeeps₁⟩ := mergeForward_spec (h.hold huse) hx (Nat.le_add_right MAX_NPAGES _)
  obtain ⟨pc₂, heq₂, h₂, x₂, hx₂, hkeeps₂⟩ := mergeBackward_spec h₁ hx₁ (Nat.le_add_right MAX_NPAGES _)
  obtain ⟨pc₃, heq₃, h₃, hx₃⟩ := h₂.hang hx₂
  refine ⟨pc₃, ?_, h₃, ?_, fun p hp => ?_⟩
  · unfold releaseSpanToPageCache
    rw [heq₁, bind_eq_bind, bind_some, heq₂, bind_some, heq₃]
  · rintro ⟨z, hz, hzuse⟩
    obtain rfl := some.inj (hx₃.symm.trans hz)
    cases hzuse
  · exact ⟨_, hx₃, hkeeps₂ p (hkeeps₁ p ((owns_iff hx).mp hp))⟩

end Merge

end CangjieRuntime.Native
