import CangjieRuntime.Heap.Correctness.Routing

/-!
# `Heap.Correctness.Compaction` — compaction agrees with routing

When a to-region is missing, the survivors are copied while `RouteOrCompactRegionImpl` runs, and the routes computed
afterwards have to lead to where they were copied. Both follow the same plan, so they agree (`follows_of_routes`);
and since a survivor only ever slides down (`total_le_offset`), a copy does not touch a survivor that is still to be
copied. The agreement rests on the counters of the bitmaps: it holds exactly as long as no survivor is past their end.
-/

namespace CangjieRuntime

open Packing List
open Runs (Run mem_elems)

variable {heap : UnitInfo}

/-- The copy `c` does not touch the source of `c'`. -/
def Copy.Clear (c c' : Copy) : Prop := Disjoint (Run.mk c.dest c.size).elems (Run.mk c'.source c'.size).elems

/-- `c` is the copy of the survivor `v`, to where its route leads. -/
structure Follows (t : Tracing heap) (r : FromRegion heap) (out : Outcome heap) (v : Located) (c : Copy) : Prop where
  source : c.source = t.info.regionStart + v.1
  size : c.size = v.2.size
  route : r.route out v.1 = some c.dest

/-- **Compaction agrees with routing.** With no new region to be had, the region is traced and compacted; each survivor
    is copied, in address order, to where its route leads; no copy touches a survivor that is still to be
    copied; and the loop that fills the thread's region stops before the allocation pointer. -/
def CompactionAgrees (t : Tracing heap) (buffer : Option (RegionInfo heap)) : Prop :=
  ∃ r out, t.fromRegion = some r ∧ r.routeOrCompactRegionImpl buffer none = some out ∧
    List.Forall₂ (Follows t r out) t.survivors out.copies ∧ out.copies.Pairwise Copy.Clear ∧
    ∀ toRegion1 ∈ buffer, ∃ full stop left copies,
      compactUntilFull r.trace.liveInfo.isSurvivedObject r.info.regionStart toRegion1 0 r.sizes =
        some (full, stop, left, copies) ∧ t.info.regionStart + stop < t.info.allocPtr

section

variable {t : Tracing heap} {r : FromRegion heap} {out : Outcome heap}

/-! ## Copies and routes -/

/-- Copies to the places of a stowed group follow its routes. -/
theorem follows_of_routes {base : Nat} {vs : List Located}
    (hroutes : ∀ p ∈ stack Located.size base vs, r.route out p.2.1 = some p.1) :
    List.Forall₂ (Follows t r out) vs (copiesTo t.info.regionStart base vs) := by
  have hsnd : (stack Located.size base vs).map Prod.snd = vs := map_snd_stack _ _
  have hforall : List.Forall₂ (Follows t r out) ((stack Located.size base vs).map Prod.snd)
      (copiesTo t.info.regionStart base vs) := by
    unfold copiesTo
    rw [forall₂_map_left_iff, forall₂_map_right_iff, forall₂_same]
    exact fun p hp => ⟨rfl, rfl, hroutes p hp⟩
  rwa [hsnd] at hforall

/-! ## What a copy leaves alone -/

/-- The survivors before one take no more than the room below it, so that it slides down. -/
theorem total_le_offset {front back : List Located} {v : Located} (hsurv : t.survivors = front ++ v :: back) :
    total Located.size front ≤ v.1 := by
  have hord : t.survivors.Pairwise fun v w => v.1 + v.2.size ≤ w.1 := t.laidOut.ordered.filter _
  rw [hsurv] at hord
  obtain ⟨hfront, -, hcross⟩ := pairwise_append.mp hord
  have hle : 0 + total Located.size front ≤ v.1 := total_le_of_ordered front (Nat.zero_le v.1) hfront
    fun w hw => ⟨Nat.zero_le _, hcross w hw v mem_cons_self⟩
  omega

/-- Copies inside the region, of a last part of the survivors, leave the later ones alone. -/
theorem slide_clear {first second : List Located} (hsplit : first ++ second = t.survivors) :
    (copiesTo t.info.regionStart t.info.regionStart second).Pairwise Copy.Clear := by
  have hord : t.survivors.Pairwise fun v w => v.1 + v.2.size ≤ w.1 := t.laidOut.ordered.filter _
  rw [← hsplit] at hord
  have hsecond := (pairwise_append.mp hord).2.1
  have hsnd : (stack Located.size t.info.regionStart second).map Prod.snd = second := map_snd_stack _ _
  rw [← hsnd, pairwise_map] at hsecond
  unfold copiesTo
  rw [pairwise_map]
  apply hsecond.imp_of_mem
  intro p q hp _ hpq
  -- the destination ends at or below the end of the source, which is at or below the next source
  obtain ⟨front, back, hback, haddr⟩ := mem_stack.mp hp
  have hsurv : t.survivors = (first ++ front) ++ p.2 :: back := by rw [← hsplit, hback, append_assoc]
  have hdown := total_le_offset hsurv
  rw [total_append] at hdown
  apply disjoint_of_le
  show p.1 + p.2.2.size ≤ t.info.regionStart + q.2.1
  omega

/-- Copies into another region leave the whole region alone. -/
theorem away_clear {base : Nat} {first : List Located} {toRegion1 : RegionInfo heap} (hapart : toRegion1.Apart t.info)
    (hlo : toRegion1.regionStart ≤ base) (hhi : base + total Located.size first ≤ toRegion1.regionEnd) {c c' : Copy}
    (hc : c ∈ copiesTo t.info.regionStart base first) {v : Located} (hv : v ∈ t.survivors)
    (hsource : c'.source = t.info.regionStart + v.1) (hsize : c'.size = v.2.size) : c.Clear c' := by
  obtain ⟨p, hp, rfl⟩ := mem_map.mp hc
  obtain ⟨h1, h2⟩ := stack_bounds hp
  have hloc : Located.size p.2 = p.2.2.size := rfl
  have hin := t.laidOut.inside v (mem_of_mem_filter hv)
  have hend := t.info.regionEnd_eq
  rw [hloc] at h2
  unfold Copy.Clear
  rw [hsource, hsize]
  rcases hapart.ends with h | h
  · apply disjoint_of_le
    show p.1 + p.2.2.size ≤ t.info.regionStart + v.1
    omega
  · refine (disjoint_of_le ?_).symm
    show t.info.regionStart + v.1 + v.2.size ≤ p.1
    omega

/-! ## The two compactions -/

theorem compactRegion_agrees (hr : t.fromRegion = some r) (ht : t.Traced r) : CompactionAgrees t none := by
  obtain ⟨out, after, hout, hcopies, -, hstowed⟩ := route_compacted ht
  refine ⟨r, out, hr, hout, ?_, ?_, ?_⟩
  · rw [hcopies]
    exact follows_of_routes hstowed.routes
  · rw [hcopies]
    exact slide_clear (nil_append t.survivors)
  · intro toRegion1 h
    cases h

theorem compactRegionTo_agrees (hr : t.fromRegion = some r) (ht : t.Traced r) {b : RegionInfo heap}
    (hapart : b.Apart t.info) (hmore : b.getAvailableSize < total Located.size t.survivors) :
    CompactionAgrees t (some b) := by
  obtain ⟨out, after₁, after₂, first, second, hout, hsplit, hcopies, -, -, hb₁, h₁, h₂⟩ :=
    route_compactedTo ht hapart hmore
  have hfollows₁ : List.Forall₂ (Follows t r out) first (copiesTo t.info.regionStart b.allocPtr first) :=
    follows_of_routes h₁.routes
  have hfollows₂ : List.Forall₂ (Follows t r out) second (copiesTo t.info.regionStart t.info.regionStart second) :=
    follows_of_routes h₂.routes
  have hfollows : List.Forall₂ (Follows t r out) t.survivors out.copies := by
    rw [hcopies, ← hsplit]
    exact rel_append hfollows₁ hfollows₂
  have hroom : b.allocPtr + total Located.size first ≤ b.regionEnd := by
    rw [← hb₁.ptr, ← hb₁.regionEnd_eq]
    exact after₁.le_end
  refine ⟨r, out, hr, hout, hfollows, ?_, ?_⟩
  · rw [hcopies]
    refine pairwise_append.mpr ⟨?_, slide_clear hsplit, ?_⟩
    · -- copies into the thread's region touch nothing of this one
      refine pairwise_of_forall_mem_list fun c hc c' hc' => ?_
      obtain ⟨v, hv, hsource, hsize⟩ := mem_copiesTo hc'
      exact away_clear hapart b.start_le hroom hc (hsplit ▸ mem_append_left _ hv) hsource hsize
    · intro c hc c' hc'
      obtain ⟨v, hv, hsource, hsize⟩ := mem_copiesTo hc'
      exact away_clear hapart b.start_le hroom hc (hsplit ▸ mem_append_right _ hv) hsource hsize
  · intro toRegion1 h
    obtain rfl := Option.some.inj h
    obtain ⟨-, -, -, -, -, -, -, -, hstop⟩ := compactRegionTo_spec ht hmore
    exact hstop

end

/-! ## Compaction and routing -/

/-- **Compaction agrees with routing exactly inside the counters.** There is no current to-region, or one that has no
    room for all survivors, and no new one. -/
theorem compaction_agrees_iff (t : Tracing heap) (buffer : Option (RegionInfo heap))
    (hbuffer : ∀ b ∈ buffer, b.Apart t.info ∧ b.getAvailableSize < total Located.size t.survivors) :
    CompactionAgrees t buffer ↔ t.PartsInRange := by
  constructor
  · rintro ⟨r, -, hr, -⟩
    exact t.partsInRange_of_fromRegion hr
  · intro hparts
    obtain ⟨r, hr, ht⟩ := t.traced hparts
    cases buffer with
    | none => exact compactRegion_agrees hr ht
    | some b =>
      obtain ⟨hapart, hmore⟩ := hbuffer b rfl
      exact compactRegionTo_agrees hr ht hapart hmore

/-- The thread's region has room for the first two survivors only. -/
theorem compaction_agrees_spill : CompactionAgrees spillTracing spillRegions.buffer :=
  (compaction_agrees_iff spillTracing spillRegions.buffer (by decide)).mpr
    (spillTracing.partsInRange_of_words (by decide))

/-- Four pages, the last three of which are one region of 24 words: one word to a part, and parts up to 23. -/
def fourPages : UnitInfo :=
  { threePages with totalUnitCount := 4, count_lt := by decide, end_lt := by decide }

/-- After a dead object of sixteen words, two marked ones with their first granules in words 16 and 17. -/
def oversizedTracing : Tracing fourPages where
  info := ⟨1, 3, 2 ^ 20 + 4096 + 8712, by decide, by decide, by decide, by decide⟩
  objects := [⟨8192, .dead⟩, ⟨8, .marked⟩, ⟨504, .dead⟩, ⟨8, .marked⟩]
  visits := [(8192, ⟨8, .marked⟩), (8704, ⟨8, .marked⟩)]
  aligned := by decide
  contiguous := by decide
  size_le := by decide
  visits_live := by decide
  live_visited := by decide

/-- **Past the counters.** Marking the two objects adds to `partLiveBytes[16]` and `partLiveBytes[17]`, and the live
    bytes before the second would be read from the former. -/
theorem oversized_words : ¬ CompactionAgrees oversizedTracing none := by
  rintro ⟨r, -, hr, -⟩
  have hnone : oversizedTracing.fromRegion.isSome = false := by decide
  rw [hr] at hnone
  cases hnone

end CangjieRuntime
