import CangjieRuntime.Heap.Correctness.Walks
import CangjieRuntime.Lib.Runs

/-!
# `Heap.Correctness.Routing` — where the survivors of a region go

Whatever the to-regions are — the thread's own with enough room, that one and a new one, a new one alone, or none, so
that the region is compacted — the survivors are divided into two consecutive groups and each group is stacked up in one
destination. `Plan` says so of a call and of the routes computed after it; everything about the routes follows
from the plan (`Plan.routesSound`), and everything about the copies from the two compactions doing what the plan
says (`compactRegion_spec`, `compactRegionTo_spec`).

The addresses follow the order of the survivors inside each destination only: a second to-region may lie below the
first.
-/

namespace CangjieRuntime

open Packing List
open Runs (Run mem_elems)

variable {heap : UnitInfo}

/-! ## The to-regions -/

/-- What the thread and the allocator offer: regions without a common unit. A new region is empty and as large as
    any small region, all of which have `maxUnitCountPerRegion` units. -/
structure ToRegions (t : Tracing heap) where
  buffer : Option (RegionInfo heap)
  allocated : Option (RegionInfo heap)
  buffer_apart : ∀ b ∈ buffer, b.Apart t.info
  allocated_apart : ∀ a ∈ allocated, a.Apart t.info ∧ ∀ b ∈ buffer, b.Apart a
  allocated_empty : ∀ a ∈ allocated, a.allocPtr = a.regionStart ∧ t.info.unitCount ≤ a.unitCount

/-- The range lies inside the region, and inside what the call reserved there. -/
structure Destination.Reserves (d : Destination heap) (addr size : Nat) : Prop where
  reserved : d.reservedFrom ≤ addr ∧ addr + size ≤ d.region.allocPtr
  inside : d.region.regionStart ≤ addr ∧ addr + size ≤ d.region.regionEnd

/-- **What routing promises.** Every survivor has a route, inside the space reserved in one destination; the ranges are
    disjoint; within a destination they are in the order of the survivors; and the first destination gets the
    survivors that come first. -/
structure RoutesSound (t : Tracing heap) (r : FromRegion heap) (out : Outcome heap) : Prop where
  complete : ∀ v ∈ t.survivors, ∃ addr, r.route out v.1 = some addr ∧
    ∃ d ∈ out.destinations, d.Reserves addr v.2.size
  disjoint : t.survivors.Pairwise fun v w => ∀ a b, r.route out v.1 = some a → r.route out w.1 = some b →
    Disjoint (Run.mk a v.2.size).elems (Run.mk b w.2.size).elems
  ordered : t.survivors.Pairwise fun v w => ∀ a b, r.route out v.1 = some a → r.route out w.1 = some b →
    ∀ d ∈ out.destinations, d.Reserves a v.2.size → d.Reserves b w.2.size → a + v.2.size ≤ b
  firstFirst : t.survivors.Pairwise fun v w => ∀ a b, r.route out v.1 = some a → r.route out w.1 = some b →
    ∀ d, out.destinations.head? = some d → d.Reserves b w.2.size → d.Reserves a v.2.size

/-! ## Plans -/

/-- The group `vs` is stacked up in the space `d` reserves, which it fills. -/
structure Stowed (r : FromRegion heap) (out : Outcome heap) (d : Destination heap) (vs : List Located) : Prop where
  routes : ∀ p ∈ stack Located.size d.reservedFrom vs, r.route out p.2.1 = some p.1
  room : d.region.allocPtr = d.reservedFrom + total Located.size vs
  start : d.region.regionStart ≤ d.reservedFrom

/-- The survivors are divided into two groups; when there is one destination the second group is empty. -/
inductive Plan (t : Tracing heap) (r : FromRegion heap) (out : Outcome heap) : Prop where
  | one (d : Destination heap) (dests : out.destinations = [d]) (all : Stowed r out d t.survivors)
  | two (d₁ d₂ : Destination heap) (first second : List Located) (split : first ++ second = t.survivors)
      (dests : out.destinations = [d₁, d₂]) (stowed₁ : Stowed r out d₁ first) (stowed₂ : Stowed r out d₂ second)
      (apart : d₁.region.Apart d₂.region)

section

variable {t : Tracing heap} {r : FromRegion heap} {out : Outcome heap} {v w : Located} {d d₁ d₂ : Destination heap}
  {vs first second : List Located} {a m b n size : Nat} {before after before₁ after₁ before₂ after₂ : RegionInfo heap}

theorem survivor_pos (hv : v ∈ t.survivors) : 0 < v.2.size :=
  (t.laidOut.whole v (mem_of_mem_filter hv)).2.2

/-- A stowed object's route, inside the reserved space. -/
theorem Stowed.reserves (h : Stowed r out d vs) {p : Nat × Located}
    (hp : p ∈ stack Located.size d.reservedFrom vs) : d.Reserves p.1 p.2.2.size := by
  obtain ⟨hlo, hhi⟩ := stack_bounds hp
  have hsize : Located.size p.2 = p.2.2.size := rfl
  have hend : d.region.allocPtr ≤ d.region.regionEnd := d.region.le_end
  have hroom := h.room
  have hstart := h.start
  rw [hsize] at hhi
  exact ⟨⟨hlo, by omega⟩, by omega, by omega⟩

theorem Stowed.complete (h : Stowed r out d vs)
    (hv : v ∈ vs) : ∃ addr, r.route out v.1 = some addr ∧ d.Reserves addr v.2.size := by
  have hmem : v ∈ (stack Located.size d.reservedFrom vs).map Prod.snd := by rw [map_snd_stack]; exact hv
  obtain ⟨p, hp, rfl⟩ := mem_map.mp hmem
  exact ⟨p.1, h.routes p hp, h.reserves hp⟩

/-- Inside one destination the routes are in order. -/
theorem Stowed.pairwise (h : Stowed r out d vs) :
    vs.Pairwise fun v w => ∀ a b, r.route out v.1 = some a → r.route out w.1 = some b →
      a + v.2.size ≤ b ∧ d.Reserves a v.2.size ∧ d.Reserves b w.2.size := by
  have hsnd : (stack Located.size d.reservedFrom vs).map Prod.snd = vs := map_snd_stack _ _
  rw [← hsnd, pairwise_map]
  apply (stack_pairwise d.reservedFrom vs).imp_of_mem
  intro p q hp hq hlt a b ha hb
  rw [h.routes p hp, Option.some.injEq] at ha
  rw [h.routes q hq, Option.some.injEq] at hb
  subst ha hb
  exact ⟨hlt, h.reserves hp, h.reserves hq⟩

/-- Destinations apart have no range in common. -/
theorem Destination.Reserves.not_both (hapart : d₁.region.Apart d₂.region) {addr size : Nat}
    (hpos : 0 < size) (h₁ : d₁.Reserves addr size) (h₂ : d₂.Reserves addr size) : False := by
  have hin₁ := h₁.inside
  have hin₂ := h₂.inside
  rcases hapart.ends with h | h <;> omega

theorem disjoint_of_le (h : a + m ≤ b) : Disjoint (Run.mk a m).elems (Run.mk b n).elems := by
  rw [Set.disjoint_left]
  intro u hu hu'
  rw [mem_elems] at hu hu'
  exact absurd (hu.2.trans_le h) (Nat.not_lt.mpr hu'.1)

/-! ## What follows from a plan -/

/-- What is to be shown of two survivors, the first before the second. -/
structure PairSound (out : Outcome heap) (v w : Located) (a b : Nat) : Prop where
  disjoint : Disjoint (Run.mk a v.2.size).elems (Run.mk b w.2.size).elems
  ordered : ∀ d ∈ out.destinations, d.Reserves a v.2.size → d.Reserves b w.2.size → a + v.2.size ≤ b
  firstFirst : ∀ d, out.destinations.head? = some d → d.Reserves b w.2.size → d.Reserves a v.2.size

/-- Two survivors of one group. -/
theorem pairSound_same (hle : a + v.2.size ≤ b)
    (ha : d.Reserves a v.2.size) (hsole : ∀ d' ∈ out.destinations, d'.Reserves b w.2.size → d' = d) :
    PairSound out v w a b := by
  refine ⟨disjoint_of_le hle, fun _ _ _ _ => hle, ?_⟩
  intro d' hd' hb
  rw [hsole d' (mem_of_head? hd') hb]
  exact ha

/-- A survivor of the first group and one of the second. -/
theorem pairSound_cross (hdests : out.destinations = [d₁, d₂])
    (hapart : d₁.region.Apart d₂.region) (hv : 0 < v.2.size) (hw : 0 < w.2.size)
    (ha : d₁.Reserves a v.2.size) (hb : d₂.Reserves b w.2.size) : PairSound out v w a b := by
  have hina := ha.inside
  have hinb := hb.inside
  refine ⟨?_, ?_, ?_⟩
  · rcases hapart.ends with h | h
    · exact disjoint_of_le (by omega)
    · exact (disjoint_of_le (by omega)).symm
  · -- no destination has both
    intro d hd hda hdb
    rw [hdests] at hd
    rcases mem_cons.mp hd with rfl | hd
    · exact (hdb.not_both hapart hw hb).elim
    · obtain rfl := mem_singleton.mp hd
      exact (ha.not_both hapart hv hda).elim
  · intro d hd _
    rw [hdests, head?_cons, Option.some.injEq] at hd
    exact hd ▸ ha

theorem Plan.pairSound (h : Plan t r out) : t.survivors.Pairwise fun v w => ∀ a b,
    r.route out v.1 = some a → r.route out w.1 = some b → PairSound out v w a b := by
  cases h with
  | one d hdests hall =>
    apply hall.pairwise.imp
    intro v w hvw a b ha hb
    obtain ⟨hle, hra, -⟩ := hvw a b ha hb
    apply pairSound_same hle hra
    intro d' hd' _
    rw [hdests] at hd'
    exact mem_singleton.mp hd'
  | two d₁ d₂ first second hsplit hdests h₁ h₂ hapart =>
    have hpos : ∀ v, v ∈ first ++ second → 0 < v.2.size := fun v hv => survivor_pos (hsplit ▸ hv)
    rw [← hsplit]
    refine pairwise_append.mpr ⟨?_, ?_, ?_⟩
    · apply h₁.pairwise.imp_of_mem
      intro v w _ hw hvw a b ha hb
      obtain ⟨hle, hra, hrb⟩ := hvw a b ha hb
      apply pairSound_same hle hra
      intro d' hd' hd'b
      rw [hdests] at hd'
      rcases mem_cons.mp hd' with rfl | hd'
      · rfl
      · obtain rfl := mem_singleton.mp hd'
        exact (hrb.not_both hapart (hpos w (mem_append_left _ hw)) hd'b).elim
    · apply h₂.pairwise.imp_of_mem
      intro v w _ hw hvw a b ha hb
      obtain ⟨hle, hra, hrb⟩ := hvw a b ha hb
      apply pairSound_same hle hra
      intro d' hd' hd'b
      rw [hdests] at hd'
      rcases mem_cons.mp hd' with rfl | hd'
      · exact (hd'b.not_both hapart (hpos w (mem_append_right _ hw)) hrb).elim
      · exact mem_singleton.mp hd'
    · intro v hv w hw a b ha hb
      obtain ⟨a', ha', hra⟩ := h₁.complete hv
      obtain ⟨b', hb', hrb⟩ := h₂.complete hw
      rw [ha', Option.some.injEq] at ha
      rw [hb', Option.some.injEq] at hb
      subst ha hb
      exact pairSound_cross hdests hapart (hpos v (mem_append_left _ hv)) (hpos w (mem_append_right _ hw))
        hra hrb

theorem Plan.complete (h : Plan t r out) : ∀ v ∈ t.survivors, ∃ addr, r.route out v.1 = some addr ∧
    ∃ d ∈ out.destinations, d.Reserves addr v.2.size := by
  intro v hv
  cases h with
  | one d hdests hall =>
    obtain ⟨addr, hroute, hres⟩ := hall.complete hv
    exact ⟨addr, hroute, d, by rw [hdests]; exact mem_cons_self, hres⟩
  | two d₁ d₂ first second hsplit hdests h₁ h₂ hapart =>
    rw [← hsplit] at hv
    rcases mem_append.mp hv with hv | hv
    · obtain ⟨addr, hroute, hres⟩ := h₁.complete hv
      exact ⟨addr, hroute, d₁, by rw [hdests]; exact mem_cons_self, hres⟩
    · obtain ⟨addr, hroute, hres⟩ := h₂.complete hv
      exact ⟨addr, hroute, d₂, by rw [hdests]; exact mem_cons_of_mem _ mem_cons_self, hres⟩

theorem Plan.routesSound (h : Plan t r out) : RoutesSound t r out := by
  refine ⟨h.complete, ?_, ?_, ?_⟩
  · exact h.pairSound.imp fun hvw a b ha hb => (hvw a b ha hb).disjoint
  · exact h.pairSound.imp fun hvw a b ha hb => (hvw a b ha hb).ordered
  · exact h.pairSound.imp fun hvw a b ha hb => (hvw a b ha hb).firstFirst

/-! ## Routes -/

variable (ht : t.Traced r)
include ht

variable (hsplit : first ++ second = t.survivors) (hused : out.routeInfo.toRegion1UsedBytes = total Located.size first)
include hsplit hused

/-- A survivor of the first group has fewer live bytes before it than the group has. -/
theorem routes_first :
    ∀ p ∈ stack Located.size out.routeInfo.toRegion1StartAddress first, r.route out p.2.1 = some p.1 := by
  intro p hp
  obtain ⟨front, back, hfirst, haddr⟩ := mem_stack.mp hp
  have hsurv : t.survivors = front ++ p.2 :: (back ++ second) := by
    rw [← hsplit, hfirst, append_assoc, cons_append]
  have hpos : 0 < p.2.2.size := survivor_pos (hsurv ▸ mem_append_right _ mem_cons_self)
  have hlt : total Located.size front < out.routeInfo.toRegion1UsedBytes := by
    rw [hused, hfirst, total_append, total_cons]
    show _ < _ + (p.2.2.size + _)
    omega
  unfold FromRegion.route
  rw [ht.info, ht.pre front p.2 _ hsurv, Option.bind_some, RouteInfo.getRoute, if_pos hlt, haddr]

/-- A survivor of the second group has the whole first group before it. -/
theorem routes_second (hvalid : out.routeInfo.toRegion2Idx ≠ RouteInfo.INVALID_VALUE) :
    ∀ p ∈ stack Located.size (heap.getUnitAddress out.routeInfo.toRegion2Idx) second,
      r.route out p.2.1 = some p.1 := by
  intro p hp
  obtain ⟨front, back, hsecond, haddr⟩ := mem_stack.mp hp
  have hsurv : t.survivors = (first ++ front) ++ p.2 :: back := by
    rw [← hsplit, hsecond, append_assoc]
  have hge : ¬ total Located.size (first ++ front) < out.routeInfo.toRegion1UsedBytes := by
    rw [hused, total_append]; omega
  unfold FromRegion.route
  rw [ht.info, ht.pre _ p.2 _ hsurv, Option.bind_some, RouteInfo.getRoute, if_neg hge, if_pos hvalid, hused, haddr,
    total_append, Nat.add_sub_cancel_left]

/-! ## Compaction -/

omit hsplit hused

omit ht in
theorem total_survivors_le (t : Tracing heap) : total Located.size t.survivors ≤ t.info.regionSize := by
  have hlayout : total Located.size t.layout = total Obj.size t.objects := by
    have hsnd : t.layout.map Prod.snd = t.objects := map_snd_stack _ _
    have hsize : t.layout.map Located.size = (t.layout.map Prod.snd).map Obj.size := by rw [map_map]; rfl
    unfold total
    rw [hsize, hsnd]
  calc total Located.size t.survivors ≤ total Located.size t.layout := total_filter_le _ _
    _ = total Obj.size t.objects := hlayout
    _ ≤ t.info.regionSize := t.total_le

/-- `CompactRegion(region)` stacks the survivors up at the start of the region. -/
theorem compactRegion_spec :
    ∃ after, r.compactRegion = some (after, copiesTo t.info.regionStart t.info.regionStart t.survivors) ∧
      RegionInfo.Bumped t.info.reset after (total Located.size t.survivors) := by
  have hroom : t.info.reset.allocPtr + total Located.size t.survivors ≤ t.info.reset.regionEnd := by
    show t.info.regionStart + _ ≤ t.info.regionEnd
    rw [t.info.regionEnd_eq]
    exact Nat.add_le_add_left (total_survivors_le t) _
  obtain ⟨after, hrun, hb⟩ := compactLoop_spec t.info.regionStart t.objects ht.survived hroom
  refine ⟨after, ?_, hb⟩
  unfold FromRegion.compactRegion
  rw [ht.info, ht.sizes]
  exact hrun

/-- `CompactRegion(region, toRegion1)` stacks up in `toRegion1` what fits, and the others at the start of the region.
    Its first loop ends before the allocation pointer. -/
theorem compactRegionTo_spec {toRegion1 : RegionInfo heap}
    (hmore : toRegion1.getAvailableSize < total Located.size t.survivors) :
    ∃ first second after₁ after₂, fit Located.size toRegion1.getAvailableSize t.survivors = (first, second) ∧
      r.compactRegionTo toRegion1 = some (after₁, after₂, copiesTo t.info.regionStart toRegion1.allocPtr first ++
        copiesTo t.info.regionStart t.info.regionStart second) ∧
      RegionInfo.Bumped toRegion1 after₁ (total Located.size first) ∧
      RegionInfo.Bumped t.info.reset after₂ (total Located.size second) ∧
      ∃ full stop left copies,
        compactUntilFull r.trace.liveInfo.isSurvivedObject r.info.regionStart toRegion1 0 r.sizes =
        some (full, stop, left, copies) ∧ t.info.regionStart + stop < t.info.allocPtr := by
  rw [RegionInfo.getAvailableSize_eq] at hmore ⊢
  obtain ⟨after₁, front, left, hrun, hb₁, hobj, hstop, hleft⟩ :=
    compactUntilFull_spec t.info.regionStart t.objects ht.survived (fun o ho => (t.aligned o ho).2) hmore
  have hsurv : surviving (stack Obj.size 0 t.objects) = t.survivors := rfl
  rw [hsurv] at hrun hb₁ hleft
  -- the second loop goes on with the objects from the one that did not fit
  have hlayout : t.layout = stack Obj.size 0 front ++ stack Obj.size (0 + total Obj.size front) left := by
    rw [← stack_append, ← hobj]
    rfl
  have hknows : Knows r.trace.liveInfo.isSurvivedObject (stack Obj.size (0 + total Obj.size front) left) :=
    fun v hv => ht.survived v (by rw [hlayout]; exact mem_append_right _ hv)
  have hroom : t.info.reset.allocPtr +
      total Located.size (surviving (stack Obj.size (0 + total Obj.size front) left)) ≤ t.info.reset.regionEnd := by
    have hle := total_survivors_le t
    rw [← fit_append (toRegion1.regionEnd - toRegion1.allocPtr) t.survivors, total_append, ← hleft] at hle
    show t.info.regionStart + _ ≤ t.info.regionEnd
    rw [t.info.regionEnd_eq]
    omega
  obtain ⟨after₂, hrun₂, hb₂⟩ := compactLoop_spec t.info.regionStart left hknows hroom
  rw [hleft] at hrun₂ hb₂
  rw [← ht.sizes] at hrun
  refine ⟨_, _, after₁, after₂, rfl, ?_, hb₁, hb₂, after₁, _, _, _, ht.info ▸ hrun, ?_⟩
  · unfold FromRegion.compactRegionTo
    rw [ht.info]
    show Option.bind (compactUntilFull _ _ _ _ _) _ = _
    rw [hrun]
    show Option.bind (compactLoop _ _ _ _ _) _ = _
    rw [hrun₂]
    rfl
  · rw [t.contiguous, Nat.zero_add]
    exact Nat.add_lt_add_left hstop _

/-! ## Every outcome follows a plan -/

omit ht in
theorem allocUnchecked_bumped (toRegion : RegionInfo heap)
    (h : toRegion.allocPtr + size ≤ toRegion.regionEnd) :
    RegionInfo.Bumped toRegion (toRegion.allocUnchecked size) size := by
  obtain ⟨after, halloc, hb⟩ := toRegion.alloc_fits h
  unfold RegionInfo.allocUnchecked
  rw [halloc]
  exact hb

omit ht in
/-- A region that was bumped by the size of a group is filled by it. -/
theorem stowed_of_bumped
    (hb : RegionInfo.Bumped before after (total Located.size vs))
    (hroutes : ∀ p ∈ stack Located.size before.allocPtr vs, r.route out p.2.1 = some p.1) :
    Stowed r out ⟨after, before.allocPtr⟩ vs := by
  refine ⟨hroutes, hb.ptr, ?_⟩
  show after.regionStart ≤ before.allocPtr
  rw [hb.regionStart_eq]
  exact before.start_le

/-- One destination: all routes come from the first half of the route information. -/
theorem stowed_one
    (hb : RegionInfo.Bumped before after (total Located.size t.survivors))
    (hroute : out.routeInfo =
      .setRouteInfo before.allocPtr (total Located.size t.survivors) RouteInfo.INVALID_VALUE) :
    Stowed r out ⟨after, before.allocPtr⟩ t.survivors := by
  have hsmall : total Located.size t.survivors < 2 ^ 32 := by
    have := total_survivors_le t
    have := t.size_le
    omega
  have hused : out.routeInfo.toRegion1UsedBytes = total Located.size t.survivors := by
    rw [hroute]; exact Nat.mod_eq_of_lt hsmall
  have hfirst := routes_first ht (append_nil t.survivors) hused
  rw [hroute] at hfirst
  exact stowed_of_bumped hb hfirst

/-- Two destinations, the second from its start on. -/
theorem stowed_two
    (hsplit : first ++ second = t.survivors) (hb₁ : RegionInfo.Bumped before₁ after₁ (total Located.size first))
    (hb₂ : RegionInfo.Bumped before₂ after₂ (total Located.size second))
    (hempty : before₂.allocPtr = before₂.regionStart)
    (hroute : out.routeInfo = .setRouteInfo before₁.allocPtr (total Located.size first) before₂.unitIdx) :
    Stowed r out ⟨after₁, before₁.allocPtr⟩ first ∧ Stowed r out ⟨after₂, before₂.allocPtr⟩ second := by
  have hsmall : total Located.size first < 2 ^ 32 := by
    have h1 := total_survivors_le t
    have h2 := t.size_le
    rw [← hsplit, total_append] at h1
    omega
  have hused : out.routeInfo.toRegion1UsedBytes = total Located.size first := by
    rw [hroute]; exact Nat.mod_eq_of_lt hsmall
  have hidx : before₂.unitIdx < 2 ^ 32 - 1 := by
    have h1 := before₂.idx_le
    have h2 := before₂.count_pos
    have h3 := heap.count_lt
    omega
  have hto2 : out.routeInfo.toRegion2Idx = before₂.unitIdx := by
    rw [hroute]; exact Nat.mod_eq_of_lt (by omega)
  have hfirst := routes_first ht hsplit hused
  have hsecond := routes_second ht hsplit hused (by rw [hto2]; exact Nat.ne_of_lt hidx)
  rw [hroute] at hfirst
  rw [hto2] at hsecond
  refine ⟨stowed_of_bumped hb₁ hfirst, stowed_of_bumped hb₂ ?_⟩
  rw [hempty]
  exact hsecond

omit ht in
theorem RegionInfo.Bumped.apart
    (hb₁ : RegionInfo.Bumped before₁ after₁ m) (hb₂ : RegionInfo.Bumped before₂ after₂ n)
    (h : before₁.Apart before₂) : after₁.Apart after₂ := by
  unfold RegionInfo.Apart
  rw [hb₁.idx, hb₁.count, hb₂.idx, hb₂.count]
  exact h

/-- The two numbers the greedy visit yields: what goes into the first to-region, and what is left. -/
theorem usedBytes_eq {cap : Nat} (hcap : cap < 2 ^ 64) (hmore : cap < r.trace.liveByteCount) :
    Word.sub64 cap (r.visitLiveObjectsUntilFalse fillToRegion1 cap).2 =
        total Located.size (fit Located.size cap t.survivors).1 ∧
      Word.sub64 r.trace.liveByteCount (total Located.size (fit Located.size cap t.survivors).1) =
        total Located.size (fit Located.size cap t.survivors).2 := by
  have hle : total Located.size (fit Located.size cap t.survivors).1 ≤ cap := total_fit_le _ _
  have hsum : total Located.size (fit Located.size cap t.survivors).1 +
      total Located.size (fit Located.size cap t.survivors).2 = total Located.size t.survivors := by
    rw [← total_append, fit_append]
  have hsize := total_survivors_le t
  have hmax := t.size_le
  have hlive := ht.liveBytes
  constructor
  · unfold FromRegion.visitLiveObjectsUntilFalse
    rw [if_neg (by omega), ht.sizes, visitLoop_fill t.objects hcap ht.survived]
    show Word.sub64 cap (cap - total Located.size (fit Located.size cap t.survivors).1) = _
    rw [Word.sub64_eq (Nat.sub_le _ _) hcap]
    omega
  · rw [Word.sub64_eq (by omega) (by omega)]
    omega

omit ht in
/-- A new region has room for all survivors. -/
theorem ToRegions.room (regions : ToRegions t) {a : RegionInfo heap} (ha : a ∈ regions.allocated)
    (hn : n ≤ t.info.regionSize) : a.allocPtr + n ≤ a.regionEnd := by
  obtain ⟨hptr, hcount⟩ := regions.allocated_empty a ha
  have hsize : t.info.regionSize ≤ a.regionSize := by
    rw [RegionInfo.regionSize_eq, RegionInfo.regionSize_eq]
    exact Nat.mul_le_mul_right _ hcount
  rw [hptr, a.regionEnd_eq]
  omega

/-- No region to be had: the region is compacted into itself. -/
theorem route_compacted :
    ∃ out after, r.routeOrCompactRegionImpl none none = some out ∧
      out.copies = copiesTo t.info.regionStart t.info.regionStart t.survivors ∧
      out.destinations = [⟨after, t.info.regionStart⟩] ∧
      Stowed r out ⟨after, t.info.regionStart⟩ t.survivors := by
  obtain ⟨after, hrun, hb⟩ := compactRegion_spec ht
  unfold FromRegion.routeOrCompactRegionImpl
  refine ⟨_, after, by rw [hrun]; rfl, rfl, by rw [ht.info], stowed_one ht hb ?_⟩
  rw [ht.liveBytes, hb.regionStart_eq]
  rfl

/-- No new region, and too many survivors for the thread's: the region is compacted partly into itself. -/
theorem route_compactedTo {b : RegionInfo heap} (hapart : b.Apart t.info)
    (hmore : b.getAvailableSize < total Located.size t.survivors) :
    ∃ out after₁ after₂ first second, r.routeOrCompactRegionImpl (some b) none = some out ∧
      first ++ second = t.survivors ∧
      out.copies = copiesTo t.info.regionStart b.allocPtr first ++
        copiesTo t.info.regionStart t.info.regionStart second ∧
      out.destinations = [⟨after₁, b.allocPtr⟩, ⟨after₂, t.info.regionStart⟩] ∧ after₁.Apart after₂ ∧
      RegionInfo.Bumped b after₁ (total Located.size first) ∧
      Stowed r out ⟨after₁, b.allocPtr⟩ first ∧ Stowed r out ⟨after₂, t.info.regionStart⟩ second := by
  have hlive := ht.liveBytes
  have hne : b.unitIdx ≠ r.info.unitIdx := by rw [ht.info]; exact hapart.unitIdx_ne
  obtain ⟨first, second, after₁, after₂, hfits, hrun, hb₁, hb₂, -⟩ := compactRegionTo_spec ht hmore
  have hsplit : (fit Located.size b.getAvailableSize t.survivors).1 ++
      (fit Located.size b.getAvailableSize t.survivors).2 = t.survivors := fit_append _ _
  obtain ⟨hused, -⟩ := usedBytes_eq ht b.getAvailableSize_lt (show b.getAvailableSize < _ by omega)
  rw [hfits] at hsplit hused
  have happart : after₁.Apart after₂ := hb₁.apart hb₂ hapart
  unfold FromRegion.routeOrCompactRegionImpl
  simp only [if_neg hne, if_neg (show ¬ r.trace.liveByteCount ≤ b.getAvailableSize by omega)]
  refine ⟨_, after₁, after₂, first, second, by rw [hrun]; rfl, hsplit, rfl, by rw [ht.info], happart, hb₁, ?_⟩
  apply stowed_two ht hsplit hb₁ hb₂ rfl
  rw [hused, hb₂.idx]

/-- **Every outcome follows a plan**: the five ways through `RouteOrCompactRegionImpl`. -/
theorem exists_plan (regions : ToRegions t) :
    ∃ out, r.routeOrCompactRegionImpl regions.buffer regions.allocated = some out ∧ Plan t r out := by
  have hlive := ht.liveBytes
  cases hb : regions.buffer with
  | none =>
    cases ha : regions.allocated with
    | none =>
      obtain ⟨out, after, hout, -, hdests, hstowed⟩ := route_compacted ht
      exact ⟨out, hout, .one _ hdests hstowed⟩
    | some a =>
      obtain ⟨hptr, -⟩ := regions.allocated_empty a ha
      have hbump := allocUnchecked_bumped a (regions.room ha (total_survivors_le t))
      rw [← hlive] at hbump
      refine ⟨_, rfl, .one _ rfl (stowed_one ht (hlive ▸ hbump) ?_)⟩
      rw [hlive, hptr]
  | some b =>
    have hapart := regions.buffer_apart b hb
    have hne : b.unitIdx ≠ r.info.unitIdx := by rw [ht.info]; exact hapart.unitIdx_ne
    have hend : b.allocPtr ≤ b.regionEnd := b.le_end
    by_cases hfit : r.trace.liveByteCount ≤ b.getAvailableSize
    · -- all survivors fit into the current to-region
      unfold FromRegion.routeOrCompactRegionImpl
      simp only [if_neg hne, if_pos hfit]
      rw [b.getAvailableSize_eq] at hfit
      have hroom : b.allocPtr + r.trace.liveByteCount ≤ b.regionEnd := by omega
      refine ⟨_, rfl, .one _ rfl (stowed_one ht (hlive ▸ allocUnchecked_bumped b hroom) ?_)⟩
      rw [hlive]
    · have hmore : b.getAvailableSize < total Located.size t.survivors := by omega
      cases ha : regions.allocated with
      | none =>
        obtain ⟨out, after₁, after₂, first, second, hout, hsplit, -, hdests, happart, -, h₁, h₂⟩ :=
          route_compactedTo ht hapart hmore
        exact ⟨out, hout, .two _ _ first second hsplit hdests h₁ h₂ happart⟩
      | some a =>
        obtain ⟨haway, hapart'⟩ := regions.allocated_apart a ha
        obtain ⟨hptr, -⟩ := regions.allocated_empty a ha
        have hne' : a.unitIdx ≠ r.info.unitIdx := by rw [ht.info]; exact haway.unitIdx_ne
        obtain ⟨hused₁, hused₂⟩ := usedBytes_eq ht b.getAvailableSize_lt (Nat.lt_of_not_le hfit)
        have hsplit : (fit Located.size b.getAvailableSize t.survivors).1 ++
            (fit Located.size b.getAvailableSize t.survivors).2 = t.survivors := fit_append _ _
        have hroom₁ : b.allocPtr + total Located.size (fit Located.size b.getAvailableSize t.survivors).1 ≤
            b.regionEnd := by
          have hle : total Located.size (fit Located.size b.getAvailableSize t.survivors).1 ≤
              b.getAvailableSize := total_fit_le _ _
          rw [b.getAvailableSize_eq] at hle ⊢
          omega
        have hroom₂ : total Located.size (fit Located.size b.getAvailableSize t.survivors).2 ≤
            t.info.regionSize := by
          have hle := total_survivors_le t
          rw [← hsplit, total_append] at hle
          omega
        have hb₁ := allocUnchecked_bumped b hroom₁
        obtain ⟨after₂, halloc, hb₂⟩ := a.alloc_fits (regions.room ha hroom₂)
        unfold FromRegion.routeOrCompactRegionImpl
        simp only [if_neg hne, if_neg hfit, if_neg hne', hused₁, hused₂, halloc]
        exact ⟨_, rfl, .two _ _ _ _ hsplit rfl (stowed_two ht hsplit hb₁ hb₂ hptr rfl).1
          (stowed_two ht hsplit hb₁ hb₂ hptr rfl).2 (hb₁.apart hb₂ (hapart' b hb))⟩

end

/-! ## Routing -/

/-- **Routing is injective and complete.** For every traced region that stays inside the counters of its bitmaps, and
    whatever to-regions there are, the call succeeds and the routes it leaves are sound. -/
theorem routes_sound (t : Tracing heap) (regions : ToRegions t) (hparts : t.PartsInRange) :
    ∃ r out, t.fromRegion = some r ∧ r.routeOrCompactRegionImpl regions.buffer regions.allocated = some out ∧
      RoutesSound t r out := by
  obtain ⟨r, hr, ht⟩ := t.traced hparts
  obtain ⟨out, hout, hplan⟩ := exists_plan ht regions
  exact ⟨r, out, hr, hout, hplan.routesSound⟩

/-- Three pages from 1 MB on. -/
def threePages : UnitInfo := ⟨.page4K, 2 ^ 20, 3, by decide, by decide, by decide, by decide⟩

/-- The third page: four objects, one of them dead and one resurrected, visited backwards and one of them twice. -/
def spillTracing : Tracing threePages where
  info := ⟨2, 1, 2 ^ 20 + 8192 + 80, by decide, by decide, by decide, by decide⟩
  objects := [⟨16, .marked⟩, ⟨24, .dead⟩, ⟨8, .resurrected⟩, ⟨32, .marked⟩]
  visits := [(48, ⟨32, .marked⟩), (40, ⟨8, .resurrected⟩), (48, ⟨32, .marked⟩), (0, ⟨16, .marked⟩)]
  aligned := by decide
  contiguous := by decide
  size_le := by decide
  visits_live := by decide
  live_visited := by decide

/-- The thread's region is the second page, with 24 bytes left; the new one is the first page. -/
def spillRegions : ToRegions spillTracing where
  buffer := some ⟨1, 1, 2 ^ 20 + 8192 - 24, by decide, by decide, by decide, by decide⟩
  allocated := some ⟨0, 1, 2 ^ 20, by decide, by decide, by decide, by decide⟩
  buffer_apart := by decide
  allocated_apart := by decide
  allocated_empty := by decide

theorem routes_sound_spill : ∃ r out, spillTracing.fromRegion = some r ∧
    r.routeOrCompactRegionImpl spillRegions.buffer spillRegions.allocated = some out ∧
    RoutesSound spillTracing r out :=
  routes_sound spillTracing spillRegions (spillTracing.partsInRange_of_words (by decide))

/-- **Not in address order.** The first two survivors go to the end of the second page and the third to the start of
    the first page, below both. -/
theorem spill_below : ∃ r out a b, spillTracing.fromRegion = some r ∧
    r.routeOrCompactRegionImpl spillRegions.buffer spillRegions.allocated = some out ∧
    spillTracing.survivors.map Prod.fst = [0, 40, 48] ∧ r.route out 40 = some a ∧ r.route out 48 = some b ∧ b < a := by
  have hexec : (spillTracing.fromRegion.bind fun r =>
      (r.routeOrCompactRegionImpl spillRegions.buffer spillRegions.allocated).bind fun out =>
        (r.route out 40).bind fun a => (r.route out 48).map fun b => (a, b)) =
      some (2 ^ 20 + 8192 - 8, 2 ^ 20) := by decide
  obtain ⟨r, hr, hexec⟩ := Option.bind_eq_some_iff.mp hexec
  obtain ⟨out, hout, hexec⟩ := Option.bind_eq_some_iff.mp hexec
  obtain ⟨a, ha, hexec⟩ := Option.bind_eq_some_iff.mp hexec
  obtain ⟨b, hb, hab⟩ := Option.map_eq_some_iff.mp hexec
  obtain ⟨rfl, rfl⟩ := Prod.mk.inj hab
  exact ⟨r, out, _, _, hr, hout, by decide, ha, hb, by decide⟩

end CangjieRuntime
