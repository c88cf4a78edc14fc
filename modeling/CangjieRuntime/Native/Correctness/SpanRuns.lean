import CangjieRuntime.Lib.Interleave
import CangjieRuntime.Native.Correctness.PageOwnership

/-!
# `Native.Correctness.SpanRuns` — the page cache over all runs

`NewSpan` takes a free span of the right length, or splits a longer one, or gets new pages first. In each case the span
that is handed out was held, and its entries in the table are written at the end, so the pages stay in order; together
with `ReleaseSpanToPageCache` this gives the ownership of pages in every state that calls can reach.
-/

namespace CangjieRuntime.Native

variable {S : Type} [DecidableEq S]

/-! ## `NewSpan` -/

section New

variable {pc : PageCache S} {a b : S} {x : Span} {k n : Nat} {rest : List S}

variable (h : Owned pc none)
include h

/-- The front of a bucket is taken out and held. -/
theorem Owned.pop (hbucket : pc.pageCacheSpans n = a :: rest) :
    ∃ x, pc.span a = some x ∧ (x.isUse = false ∧ x.pageNum = n) ∧ Owned (pc.setBucket n rest) (some a) := by
  have hmem : a ∈ pc.pageCacheSpans n := hbucket ▸ List.mem_cons_self ..
  obtain ⟨-, x, hx, hfree⟩ := h.bucket.mp hmem
  have herase : rest = (pc.pageCacheSpans n).erase a := by rw [hbucket, List.erase_cons_head]
  have honly : ∀ m, a ∈ pc.pageCacheSpans m → m = n := fun m hm =>
    ((freeOf_iff hx).mp (h.bucket.mp hm).2).2.symm.trans hfree.2
  refine ⟨x, hx, hfree, h.size, h.disjoint, h.cover, h.bound, ?_, fun m => ?_, fun hp => ?_, fun _ => ?_⟩
  · intro m c
    rw [herase]
    refine (mem_erased h.nodup honly).trans ?_
    rw [h.bucket, and_iff_right (none_ne_some c), ne_comm, ne_eq, ne_eq, Option.some.injEq]
    rfl
  · rw [herase]
    exact nodup_erased h.nodup
  · exact (h.table hp).imp_right fun ⟨_, hnone, _⟩ => nomatch hnone
  · exact h.used (none_ne_some _)

/-- What a split makes of the cache, before the table is written. -/
def splitOff (pc : PageCache S) (n : Nat) (rest : List S) (kSpan nSpan : S) (new left : Span) : PageCache S :=
  (((pc.setBucket n rest).setSpan kSpan new).setSpan nSpan left).setBucket left.pageNum
    (nSpan :: (pc.setBucket n rest).pageCacheSpans left.pageNum)

omit h in
/-- A fact about a span after a split. -/
theorem exists_splitOff {P : Span → Prop} {c : S} {new left : Span} (hab : a ≠ b) :
    (∃ z, Function.update (Function.update pc.span a (some new)) b (some left) c = some z ∧ P z) ↔
      c = b ∧ P left ∨ c = a ∧ P new ∨ (c ≠ a ∧ c ≠ b) ∧ ∃ z, pc.span c = some z ∧ P z := by
  rw [exists_update, exists_update]
  constructor
  · rintro (hb | ⟨hcb, hnew | ⟨hca, hz⟩⟩)
    · exact Or.inl hb
    · exact Or.inr (Or.inl hnew)
    · exact Or.inr (Or.inr ⟨⟨hca, hcb⟩, hz⟩)
  · rintro (hb | ⟨rfl, hnew⟩ | ⟨⟨hca, hcb⟩, hz⟩)
    · exact Or.inl hb
    · exact Or.inr ⟨hab, Or.inl ⟨rfl, hnew⟩⟩
    · exact Or.inr ⟨hcb, Or.inr ⟨hca, hz⟩⟩

/-- The new span has the first `k` pages and is held; the rest lies in the bucket of its length. -/
theorem Owned.splitOff (hbucket : pc.pageCacheSpans n = b :: rest) (hx : pc.span b = some x)
    (hk : 0 < k) (hkn : k < n) (hnew : pc.span a = none) :
    Owned (splitOff pc n rest a b ⟨k, x.pageId, false⟩ ⟨x.pageNum - k, x.pageId + k, x.isUse⟩) (some a) := by
  obtain ⟨x', hx', ⟨hfree, hnum⟩, hpop⟩ := h.pop hbucket
  obtain rfl : x' = x := Option.some.inj (hx'.symm.trans hx)
  have hab : a ≠ b := by
    rintro rfl
    exact nomatch hnew.symm.trans hx
  have hsize := h.size hx
  generalize hpc' : Native.splitOff pc n rest a b ⟨k, x'.pageId, false⟩ ⟨x'.pageNum - k, x'.pageId + k, x'.isUse⟩ = pc'
  have hleft : ∀ {p}, Span.Has ⟨x'.pageNum - k, x'.pageId + k, x'.isUse⟩ p ↔ x'.Has p ∧ x'.pageId + k ≤ p := by
    intro p
    dsimp only [Span.Has]
    omega
  have hfirst : ∀ {p}, Span.Has ⟨k, x'.pageId, false⟩ p ↔ x'.Has p ∧ p < x'.pageId + k := by
    intro p
    dsimp only [Span.Has]
    omega
  have hspan : ∀ {P : Span → Prop} {c}, (∃ z, pc'.span c = some z ∧ P z) ↔
      c = b ∧ P ⟨x'.pageNum - k, x'.pageId + k, x'.isUse⟩ ∨ c = a ∧ P ⟨k, x'.pageId, false⟩ ∨
        (c ≠ a ∧ c ≠ b) ∧ ∃ z, pc.span c = some z ∧ P z := by
    intro P c
    rw [← hpc']
    exact exists_splitOff hab
  have howns : ∀ {c p}, Owns pc' c p ↔
      c = b ∧ Owns pc b p ∧ x'.pageId + k ≤ p ∨ c = a ∧ Owns pc b p ∧ p < x'.pageId + k ∨ (c ≠ a ∧ c ≠ b) ∧
        Owns pc c p := by
    intro c p
    rw [owns_iff hx, ← hleft, ← hfirst]
    exact hspan
  -- nothing is known of the new span
  have hfresh : ∀ {P : Span → Prop}, ¬∃ z, pc.span a = some z ∧ P z := fun ⟨_, hy, _⟩ => nomatch hnew.symm.trans hy
  refine ⟨?_, ?_, ?_, ?_, ?_, ?_, ?_, ?_⟩
  · intro c z hz
    rcases (hspan (P := fun w => w = z)).mp ⟨z, hz, rfl⟩ with ⟨-, rfl⟩ | ⟨-, rfl⟩ | ⟨-, w, hw, rfl⟩
    · exact ⟨Nat.sub_pos_of_lt (hnum ▸ hkn), (Nat.sub_le _ _).trans_lt hsize.2⟩
    · exact ⟨hk, hkn.trans (hnum ▸ hsize.2)⟩
    · exact h.size hw
  · intro c d p hc hd
    rcases howns.mp hc with ⟨rfl, hp, hle⟩ | ⟨rfl, hp, hlt⟩ | ⟨hne, hp⟩ <;>
      rcases howns.mp hd with ⟨rfl, hq, hle'⟩ | ⟨rfl, hq, hlt'⟩ | ⟨hne', hq⟩
    · rfl
    · exact absurd hle (Nat.not_le.mpr hlt')
    · exact absurd (h.disjoint hq hp) hne'.2
    · exact absurd hle' (Nat.not_le.mpr hlt)
    · rfl
    · exact absurd (h.disjoint hq hp) hne'.2
    · exact absurd (h.disjoint hp hq) hne.2
    · exact absurd (h.disjoint hp hq) hne.2
    · exact h.disjoint hp hq
  · intro p
    have hobt : Obtained pc' p ↔ Obtained pc p := by rw [← hpc']; rfl
    rw [hobt, ← h.cover p]
    constructor
    · rintro ⟨c, hc⟩
      rcases howns.mp hc with ⟨-, hp, -⟩ | ⟨-, hp, -⟩ | ⟨-, hp⟩
      · exact ⟨b, hp⟩
      · exact ⟨b, hp⟩
      · exact ⟨c, hp⟩
    · rintro ⟨c, hp⟩
      by_cases hcb : c = b
      · rcases Nat.lt_or_ge p (x'.pageId + k) with hlt | hge
        · exact ⟨a, howns.mpr (Or.inr (Or.inl ⟨rfl, hcb ▸ hp, hlt⟩))⟩
        · exact ⟨b, howns.mpr (Or.inl ⟨rfl, hcb ▸ hp, hge⟩)⟩
      · exact ⟨c, howns.mpr (Or.inr (Or.inr ⟨⟨fun hca => hfresh (hca ▸ hp), hcb⟩, hp⟩))⟩
  · rw [← hpc']
    exact h.bound
  · intro m c
    have hmem : c ∈ pc'.pageCacheSpans m ↔ (some b ≠ some c ∧ FreeOf pc m c) ∨ c = b ∧ m = x'.pageNum - k := by
      rw [← hpc']
      exact mem_pushed.trans (or_congr_left hpop.bucket)
    rw [hmem]
    refine Iff.trans ?_ (and_congr_right' hspan).symm
    constructor
    · rintro (⟨hcb, hc⟩ | ⟨rfl, rfl⟩)
      · have hca : c ≠ a := fun heq => hfresh (heq ▸ hc)
        exact ⟨fun heq => hca (Option.some.inj heq).symm,
          Or.inr (Or.inr ⟨⟨hca, fun heq => hcb (heq ▸ rfl)⟩, hc⟩)⟩
      · exact ⟨fun heq => hab (Option.some.inj heq), Or.inl ⟨rfl, hfree, rfl⟩⟩
    · rintro ⟨hheld, ⟨rfl, -, hm⟩ | ⟨rfl, -⟩ | ⟨⟨-, hcb⟩, hc⟩⟩
      · exact Or.inr ⟨rfl, hm.symm⟩
      · exact absurd rfl hheld
      · exact Or.inl ⟨fun heq => hcb (Option.some.inj heq).symm, hc⟩
  · intro m
    rw [← hpc']
    exact nodup_pushed (hpop.held_not_mem _) hpop.nodup
  · intro p c hp
    have hp' : pc.idSpanMap p = some c := by
      rw [← hpc'] at hp
      exact hp
    have howner : Owns pc c p := (h.table hp').resolve_right fun ⟨_, hnone, _⟩ => nomatch hnone
    by_cases hcb : c = b
    · subst hcb
      rcases Nat.lt_or_ge p (x'.pageId + k) with hlt | hge
      · exact Or.inr ⟨a, rfl, howns.mpr (Or.inr (Or.inl ⟨rfl, howner, hlt⟩))⟩
      · exact Or.inl (howns.mpr (Or.inl ⟨rfl, howner, hge⟩))
    · exact Or.inl (howns.mpr (Or.inr (Or.inr ⟨⟨fun hca => hfresh (hca ▸ howner), hcb⟩, howner⟩)))
  · intro p c hheld huse howner
    have hca : c ≠ a := fun heq => hheld (heq ▸ rfl)
    have hcb : c ≠ b := by
      rintro rfl
      rcases hspan.mp huse with ⟨-, htrue⟩ | ⟨hc, -⟩ | ⟨hne, -⟩
      · exact Bool.noConfusion (hfree.symm.trans htrue)
      · exact hca hc
      · exact hne.2 rfl
    have huse' : InUse pc c :=
      (((hspan.mp huse).resolve_left fun heq => hcb heq.1).resolve_left fun heq => hca heq.1).2
    have howner' : Owns pc c p :=
      (((howns.mp howner).resolve_left fun heq => hcb heq.1).resolve_left fun heq => hca heq.1).2
    rw [← hpc']
    exact h.used (none_ne_some c) huse' howner'

/-- A span of new pages. -/
theorem Owned.grow (hnew : pc.span a = none) {pageId : Nat} (hfresh : PageOp.FreshPages pc pageId) :
    ∃ pc', growCache pc a pageId = some pc' ∧ Owned pc' none ∧
      (∃ rest, pc'.pageCacheSpans (MAX_NPAGES - 1) = a :: rest) ∧
      (∀ n, n ≠ MAX_NPAGES - 1 → pc'.pageCacheSpans n = pc.pageCacheSpans n) ∧
      ∀ c, c ≠ a → pc'.span c = pc.span c := by
  have hbig : ∀ {p}, Span.Has ⟨MAX_NPAGES - 1, pageId, false⟩ p → ¬∃ c, Owns pc c p := by
    rintro p hp hc
    obtain ⟨first, hmem, hge, hlt⟩ := (h.cover p).mp hc
    have hapart := hfresh.2 first hmem
    dsimp only [Span.Has] at hp
    omega
  have hout : ∀ {P : Span → Prop}, ¬∃ z, pc.span a = some z ∧ P z := fun ⟨_, hy, _⟩ => nomatch hnew.symm.trans hy
  generalize hpc' : ((({ pc with systemPages := pageId :: pc.systemPages } : PageCache S).setSpan a
    ⟨MAX_NPAGES - 1, pageId, false⟩).setBucket (MAX_NPAGES - 1) (a :: pc.pageCacheSpans (MAX_NPAGES - 1))) = pc'
  have hspan : ∀ {P : Span → Prop} {c}, (∃ z, pc'.span c = some z ∧ P z) ↔
      c = a ∧ P ⟨MAX_NPAGES - 1, pageId, false⟩ ∨ c ≠ a ∧ ∃ z, pc.span c = some z ∧ P z := by
    intro P c
    rw [← hpc']
    exact exists_update
  have hownsA : ∀ {c p}, Owns pc c p → Owns pc' c p := fun {c p} hc =>
    hspan.mpr (Or.inr ⟨fun heq => hout (heq ▸ hc), hc⟩)
  have hbucket : ∀ m, pc'.pageCacheSpans m =
      Function.update pc.pageCacheSpans (MAX_NPAGES - 1) (a :: pc.pageCacheSpans (MAX_NPAGES - 1)) m := by
    intro m
    rw [← hpc']
    rfl
  have hsys : pc'.systemPages = pageId :: pc.systemPages := by rw [← hpc']; rfl
  refine ⟨pc', ?_, ⟨?_, ?_, ?_, ?_, ?_, ?_, ?_, ?_⟩, ⟨_, (hbucket _).trans (Function.update_self ..)⟩,
    fun m hm => (hbucket m).trans (Function.update_of_ne hm ..), fun c hc => ?_⟩
  · rw [← hpc']
    rfl
  · intro c z hz
    rcases (hspan (P := fun w => w = z)).mp ⟨z, hz, rfl⟩ with ⟨-, rfl⟩ | ⟨-, w, hw, rfl⟩
    · exact ⟨Nat.succ_pos 127, Nat.lt_succ_self 128⟩
    · exact h.size hw
  · intro c d p hc hd
    rcases hspan.mp hc with ⟨rfl, hp⟩ | ⟨-, hp⟩ <;> rcases hspan.mp hd with ⟨rfl, hq⟩ | ⟨-, hq⟩
    · rfl
    · exact absurd ⟨d, hq⟩ (hbig hp)
    · exact absurd ⟨c, hp⟩ (hbig hq)
    · exact h.disjoint hp hq
  · intro p
    have hobt : Obtained pc' p ↔ Span.Has ⟨MAX_NPAGES - 1, pageId, false⟩ p ∨ Obtained pc p := by
      unfold Obtained
      rw [hsys]
      simp only [List.mem_cons, exists_eq_or_imp]
      rfl
    rw [hobt, ← h.cover p]
    constructor
    · rintro ⟨c, hc⟩
      rcases hspan.mp hc with ⟨-, hp⟩ | ⟨-, hp⟩
      · exact Or.inl hp
      · exact Or.inr ⟨c, hp⟩
    · rintro (hp | ⟨c, hp⟩)
      · exact ⟨a, hspan.mpr (Or.inl ⟨rfl, hp⟩)⟩
      · exact ⟨c, hownsA hp⟩
  · rw [hsys]
    exact List.forall_mem_cons.mpr ⟨hfresh.1, h.bound⟩
  · intro m c
    rw [hbucket, mem_pushed, h.bucket, and_iff_right (none_ne_some c), and_iff_right (none_ne_some c)]
    refine Iff.trans ?_ hspan.symm
    constructor
    · rintro (hc | ⟨rfl, rfl⟩)
      · exact Or.inr ⟨fun heq => hout (heq ▸ hc), hc⟩
      · exact Or.inl ⟨rfl, rfl, rfl⟩
    · rintro (⟨rfl, -, rfl⟩ | ⟨-, hc⟩)
      · exact Or.inr ⟨rfl, rfl⟩
      · exact Or.inl hc
  · intro m
    rw [hbucket]
    exact nodup_pushed (fun hmem => hout (h.bucket.mp hmem).2) h.nodup
  · intro p c hp
    have hp' : pc.idSpanMap p = some c := by
      rw [← hpc'] at hp
      exact hp
    exact Or.inl (hownsA ((h.table hp').resolve_right fun ⟨_, hnone, _⟩ => nomatch hnone))
  · intro p c _ huse howner
    have hca : c ≠ a := by
      rintro rfl
      rcases hspan.mp huse with ⟨-, htrue⟩ | ⟨hne, -⟩
      · exact Bool.noConfusion htrue
      · exact hne rfl
    have huse' : InUse pc c := ((hspan.mp huse).resolve_left fun heq => hca heq.1).2
    have howner' : Owns pc c p := ((hspan.mp howner).resolve_left fun heq => hca heq.1).2
    rw [← hpc']
    exact h.used (none_ne_some c) huse' howner'
  · rw [← hpc']
    exact Function.update_of_ne hc ..

omit h [DecidableEq S] in
theorem findBucket_spec (pc : PageCache S) (count n : Nat) :
    match findBucket pc count n with
    | some m => (n ≤ m ∧ m < n + count) ∧ pc.pageCacheSpans m ≠ []
    | none => ∀ m, n ≤ m → m < n + count → pc.pageCacheSpans m = [] := by
  induction count generalizing n with
  | zero => exact fun m hge hlt => absurd hge (Nat.not_le.mpr hlt)
  | succ count ih =>
    unfold findBucket
    split_ifs with hn
    · exact ⟨⟨Nat.le_refl n, Nat.lt_add_of_pos_right (Nat.succ_pos count)⟩, hn⟩
    · have hrest := ih (n + 1)
      cases hfind : findBucket pc count (n + 1) with
      | some m =>
        rw [hfind] at hrest
        exact ⟨⟨by omega, by omega⟩, hrest.2⟩
      | none =>
        rw [hfind] at hrest
        intro m hge hlt
        rcases Nat.eq_or_lt_of_le hge with rfl | hgt
        · exact not_not.mp hn
        · exact hrest m hgt (by omega)

/-- A held span of `k` pages, with its entries in the table. -/
def Handed (k : Nat) (r : S × PageCache S) : Prop :=
  ∃ pc₀ x, Owned pc₀ (some r.1) ∧ pc₀.span r.1 = some x ∧ x.pageNum = k ∧ r.2 = pc₀.mapAll r.1 x

theorem takeSpan_spec (hbucket : pc.pageCacheSpans k = a :: rest) :
    ∃ r, takeSpan pc k a rest = some r ∧ Handed k r := by
  obtain ⟨x, hx, ⟨-, hnum⟩, hpop⟩ := h.pop hbucket
  refine ⟨(a, (pc.setBucket k rest).mapAll a x), ?_, pc.setBucket k rest, x, hpop, hx, hnum, rfl⟩
  unfold takeSpan
  rw [hx]
  rfl

theorem splitSpan_spec (hk : 0 < k) (hkn : k < n) (hn : pc.pageCacheSpans n ≠ [])
    (hnew : pc.span a = none) (objs : List S) :
    ∃ r, splitSpan pc n k (a :: objs) = some r ∧ Handed k r := by
  obtain ⟨b, rest, hbucket⟩ := List.exists_cons_of_ne_nil hn
  obtain ⟨x, hx, ⟨-, hnum⟩, -⟩ := h.pop hbucket
  have howned := h.splitOff hbucket hx hk hkn hnew
  have hab : a ≠ b := by
    rintro rfl
    exact nomatch hnew.symm.trans hx
  have hspan : (splitOff pc n rest a b ⟨k, x.pageId, false⟩ ⟨x.pageNum - k, x.pageId + k, x.isUse⟩).span a =
      some ⟨k, x.pageId, false⟩ :=
    (Function.update_of_ne hab ..).trans (Function.update_self ..)
  have hroom : x.pageNum - k < MAX_NPAGES := (Nat.sub_le _ _).trans_lt (h.size hx).2
  refine ⟨(a, (splitOff pc n rest a b ⟨k, x.pageId, false⟩ ⟨x.pageNum - k, x.pageId + k, x.isUse⟩).mapAll a
    ⟨k, x.pageId, false⟩), ?_, _, _, howned, hspan, rfl, rfl⟩
  unfold splitSpan
  rw [hbucket]
  dsimp only
  rw [hx, Option.bind_eq_bind, Option.bind_some]
  unfold PageCache.pushFront
  rw [if_pos hroom]
  rfl

omit h [DecidableEq S] in
/-- The search finds a bucket, or there is none. -/
theorem exists_bucket_iff (pc : PageCache S) (hk : k < MAX_NPAGES) :
    (∃ m, k ≤ m ∧ m < MAX_NPAGES ∧ pc.pageCacheSpans m ≠ []) ↔
      pc.pageCacheSpans k ≠ [] ∨ (findBucket pc (MAX_NPAGES - (k + 1)) (k + 1)).isSome := by
  have hfind := findBucket_spec pc (MAX_NPAGES - (k + 1)) (k + 1)
  have hend : k + 1 + (MAX_NPAGES - (k + 1)) = MAX_NPAGES := Nat.add_sub_of_le hk
  rw [hend] at hfind
  cases hsome : findBucket pc (MAX_NPAGES - (k + 1)) (k + 1) with
  | some m =>
    rw [hsome] at hfind
    exact ⟨fun _ => Or.inr rfl, fun _ => ⟨m, Nat.le_of_succ_le hfind.1.1, hfind.1.2, hfind.2⟩⟩
  | none =>
    rw [hsome] at hfind
    constructor
    · rintro ⟨m, hge, hlt, hm⟩
      rcases Nat.eq_or_lt_of_le hge with rfl | hgt
      · exact Or.inl hm
      · exact absurd (hfind m hgt hlt) hm
    · rintro (hm | hfalse)
      · exact ⟨k, Nat.le_refl k, hk, hm⟩
      · exact nomatch hfalse

/-- `NewSpan`, when no further pages are needed. -/
theorem newSpanCall_of_bucket (hk : 0 < k ∧ k < MAX_NPAGES) {objs : List S} (page : Option Nat)
    (hobjs : ∀ c ∈ objs, pc.span c = none) (depth : Nat)
    (hbucket : ∃ m, k ≤ m ∧ m < MAX_NPAGES ∧ pc.pageCacheSpans m ≠ []) :
    match newSpanCall (depth + 1) pc k objs page with
    | some r => Handed k r
    | none => objs = [] := by
  unfold newSpanCall
  rw [if_pos hk]
  cases hbk : pc.pageCacheSpans k with
  | cons b rest =>
    obtain ⟨r, heq, hr⟩ := takeSpan_spec h hbk
    dsimp only
    rw [heq]
    exact hr
  | nil =>
    have hfound := ((exists_bucket_iff pc hk.2).mp hbucket).resolve_left (not_not.mpr hbk)
    obtain ⟨m, hsome⟩ := Option.isSome_iff_exists.mp hfound
    have hfind := findBucket_spec pc (MAX_NPAGES - (k + 1)) (k + 1)
    rw [hsome] at hfind
    dsimp only
    rw [hsome]
    dsimp only
    cases objs with
    | nil => rfl
    | cons c objs =>
      obtain ⟨r, heq, hr⟩ := splitSpan_spec h hk.1 hfind.1.1 hfind.2 (hobjs c (List.mem_cons_self ..)) objs
      rw [heq]
      exact hr

/-- **`NewSpan`** hands out a span of `k` pages; two objects and new pages are always enough. -/
theorem newSpan_spec (hk : 0 < k ∧ k < MAX_NPAGES) {objs : List S} {page : Option Nat}
    (hnodup : objs.Nodup) (hobjs : ∀ c ∈ objs, pc.span c = none)
    (hpage : ∀ pageId ∈ page, PageOp.FreshPages pc pageId) :
    match newSpan pc k objs page with
    | some r => Handed k r
    | none => objs.length < 2 ∨ page = none := by
  unfold newSpan
  by_cases hbucket : ∃ m, k ≤ m ∧ m < MAX_NPAGES ∧ pc.pageCacheSpans m ≠ []
  · have hcall := newSpanCall_of_bucket h hk page hobjs 1 hbucket
    cases hsome : newSpanCall 2 pc k objs page with
    | some r =>
      rw [hsome] at hcall
      exact hcall
    | none =>
      rw [hsome] at hcall
      exact Or.inl (hcall ▸ Nat.two_pos)
  · -- pages are needed
    obtain ⟨hbk, hnone⟩ := not_or.mp ((exists_bucket_iff pc hk.2).not.mp hbucket)
    unfold newSpanCall
    rw [if_pos hk, not_not.mp hbk, Option.not_isSome_iff_eq_none.mp hnone]
    dsimp only
    rcases objs with _ | ⟨bigSpan, objs⟩
    · exact Or.inl Nat.two_pos
    rcases page with _ | pageId
    · exact Or.inr rfl
    obtain ⟨hnot, hnodup'⟩ := List.nodup_cons.mp hnodup
    obtain ⟨pc', hgrow, h', ⟨rest, hbig⟩, -, hkeep⟩ := h.grow (hobjs bigSpan (List.mem_cons_self ..)) (hpage pageId rfl)
    have hobjs' : ∀ c ∈ objs, pc'.span c = none := by
      intro c hc
      rw [hkeep c fun heq => hnot (heq ▸ hc)]
      exact hobjs c (List.mem_cons_of_mem _ hc)
    have hcall := newSpanCall_of_bucket h' hk none hobjs' 0
      ⟨MAX_NPAGES - 1, Nat.le_sub_one_of_lt hk.2, Nat.lt_succ_self 128, hbig ▸ List.cons_ne_nil _ _⟩
    dsimp only
    rw [hgrow, Option.bind_eq_bind, Option.bind_some]
    cases hsome : newSpanCall 1 pc' k objs none with
    | some r =>
      rw [hsome] at hcall
      exact hcall
    | none =>
      rw [hsome] at hcall
      exact Or.inl (hcall ▸ Nat.one_lt_two)

omit h

/-- The caller marks the span. -/
theorem Handed.mark {r : S × PageCache S} (hr : Handed k r) :
    ∃ pc', markUse r.2 r.1 = some pc' ∧ Owned pc' none ∧
      ∃ x, pc'.span r.1 = some x ∧ x.isUse = true ∧ x.pageNum = k := by
  obtain ⟨pc₀, x, howned, hx, hnum, heq⟩ := hr
  refine ⟨(pc₀.mapAll r.1 x).setSpan r.1 { x with isUse := true }, ?_, howned.give hx,
    _, Function.update_self .., rfl, hnum⟩
  unfold markUse
  rw [heq, show (pc₀.mapAll r.1 x).span r.1 = some x from hx]
  rfl

end New

/-! ## Runs -/

section Runs

open PageOp Function Option

omit [DecidableEq S] in
theorem inUse_of_any {pc : PageCache S} {a : S} (hany : (pc.span a).any (·.isUse) = true) : InUse pc a := by
  cases hx : pc.span a with
  | none =>
    rw [hx] at hany
    exact nomatch hany
  | some x =>
    rw [hx] at hany
    exact ⟨x, hx, hany⟩

theorem newSpan_of_callable {pc : PageCache S} {k : Nat} {objs : List S} {page : Option Nat} (h : Owned pc none)
    (hcall : Callable pc (.newSpan k objs page)) :
    match Native.newSpan pc k objs page with
    | some r => Handed k r
    | none => objs.length < 2 ∨ page = none :=
  newSpan_spec h hcall.1 hcall.2.1.1 (fun c hc => isNone_iff_eq_none.mp (hcall.2.1.2 c hc)) hcall.2.2

theorem act_owned {pc pc' : PageCache S} {op : PageOp S} (h : Owned pc none) (hcall : Callable pc op)
    (hact : act pc op = some pc') : Owned pc' none := by
  cases op with
  | newSpan k objs page =>
    obtain ⟨r, hnew, hmark⟩ := bind_eq_some_iff.mp hact
    have hspec := newSpan_of_callable h hcall
    rw [hnew] at hspec
    obtain ⟨pc₁, hmark₁, howned, -⟩ := hspec.mark
    obtain rfl : pc₁ = pc' := some.inj (hmark₁.symm.trans hmark)
    exact howned
  | release a =>
    obtain ⟨pc₁, hrelease, howned, -⟩ := releaseSpan_spec h (inUse_of_any hcall)
    obtain rfl : pc₁ = pc' := some.inj (hrelease.symm.trans hact)
    exact howned

theorem run_owned {pc : PageCache S} (hrun : Interleave.Run act Callable PageCache.empty pc) : Owned pc none :=
  Interleave.run_invariant (I := fun pc => Owned pc none) hrun owned_empty fun _ _ _ => act_owned

/-- **Ownership of pages.** After any calls of `NewSpan` and `ReleaseSpanToPageCache`: the spans are disjoint and make
    up the pages got from the system; a free span lies in the bucket of its length, once, and nothing else does; the
    table has every page of a span in use; what it says about a page is true, so it names no deleted span. Then
    `NewSpan` returns a span of `k` pages, and the next release finds only neighbours that exist and lie in their
    buckets, and leaves the pages of its span with a span that is not in use. -/
theorem pages_owned {pc : PageCache S} (hrun : Interleave.Run act Callable PageCache.empty pc) :
    ((∀ a b p, Owns pc a p → Owns pc b p → a = b) ∧ ∀ p, (∃ a, Owns pc a p) ↔ Obtained pc p) ∧
      (∀ n, (pc.pageCacheSpans n).Nodup ∧ ∀ a, a ∈ pc.pageCacheSpans n ↔ FreeOf pc n a) ∧
      (∀ n a, FreeOf pc n a → 1 ≤ n ∧ n ≤ 128) ∧
      (∀ a p, InUse pc a → Owns pc a p → pc.idSpanMap p = some a) ∧
      (∀ p a, pc.idSpanMap p = some a → Owns pc a p) ∧
      (∀ k objs page, Callable pc (.newSpan k objs page) →
        (∀ r, Native.newSpan pc k objs page = some r → ∃ x, r.2.span r.1 = some x ∧ x.pageNum = k) ∧
          (2 ≤ objs.length → page.isSome → (Native.newSpan pc k objs page).isSome)) ∧
      ∀ a, Callable pc (.release a) →
        ∃ pc', releaseSpanToPageCache pc a = some pc' ∧ ¬InUse pc' a ∧ ∀ p, Owns pc a p → Owns pc' a p := by
  have h := run_owned hrun
  refine ⟨⟨fun _ _ _ => h.disjoint, h.cover⟩, fun n => ⟨h.nodup n, fun a => ?_⟩, ?_,
    fun a p => h.used (none_ne_some a), ?_, ?_, ?_⟩
  · rw [h.bucket]
    exact and_iff_right (none_ne_some a)
  · rintro n a ⟨x, hx, -, rfl⟩
    exact ⟨(h.size hx).1, Nat.le_of_lt_succ (h.size hx).2⟩
  · intro p a hp
    exact (h.table hp).resolve_right fun ⟨_, hnone, _⟩ => nomatch hnone
  · intro k objs page hcall
    have hspec := newSpan_of_callable h hcall
    cases hnew : Native.newSpan pc k objs page with
    | some r =>
      rw [hnew] at hspec
      refine ⟨fun r' hr' => ?_, fun _ _ => rfl⟩
      obtain rfl := Option.some.inj hr'
      obtain ⟨pc₀, x, -, hx, hnum, heq⟩ := hspec
      exact ⟨x, heq ▸ hx, hnum⟩
    | none =>
      rw [hnew] at hspec
      refine ⟨fun _ hr => (nomatch hr), fun hlen hpage => ?_⟩
      rcases hspec with hshort | hnone
      · exact absurd hlen (Nat.not_le.mpr hshort)
      · exact absurd hpage (hnone ▸ Bool.false_ne_true)
  · intro a hcall
    obtain ⟨pc', hrelease, -, hfree⟩ := releaseSpan_spec h (inUse_of_any hcall)
    exact ⟨pc', hrelease, hfree⟩

end Runs

/-- Two spans are split off 128 new pages, come back, and are merged. -/
def mergeRun : List (PageOp Nat) :=
  [.newSpan 3 [0, 1] (some 1000), .newSpan 5 [2] none, .release 1, .release 2]

theorem pages_owned_merge : ∃ pc : PageCache Nat, Interleave.Run PageOp.act PageOp.Callable PageCache.empty pc ∧
    (pc.pageCacheSpans 8 = [2] ∧ pc.span 2 = some ⟨8, 1000, false⟩ ∧ pc.span 1 = none) ∧
    ((∀ a b p, Owns pc a p → Owns pc b p → a = b) ∧ ∀ p, (∃ a, Owns pc a p) ↔ Obtained pc p) := by
  have hexec : (Interleave.runActs PageOp.act PageOp.Callable PageCache.empty mergeRun).map
      (fun pc => (pc.pageCacheSpans 8, pc.span 2, pc.span 1)) = some ([2], some ⟨8, 1000, false⟩, none) := by
    decide +kernel
  obtain ⟨pc, hpc, hvalues⟩ := Option.map_eq_some_iff.mp hexec
  have hrun := Interleave.run_of_runActs hpc
  obtain ⟨hbucket, hspans⟩ := Prod.mk.inj hvalues
  exact ⟨pc, hrun, ⟨hbucket, Prod.mk.inj hspans⟩, (pages_owned hrun).1⟩

end CangjieRuntime.Native
