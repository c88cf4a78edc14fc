import CangjieRuntime.Heap.Correctness.BitmapCount
import CangjieRuntime.Heap.FromRegion
import CangjieRuntime.Lib.Packing

/-!
# `Heap.Correctness.Tracing` — what a traced region knows about its objects

A `Tracing` is a region full of objects, some of which tracing marks or resurrects — in any order, and any number
of times each. Once every survivor has been visited, the two bitmaps and the byte count describe exactly the survivors
(`Traced`): an object's first bit says whether it survives, and the live bytes before a survivor are the sizes of
the survivors before it.

`PartsInRange` is what the counters of the bitmaps ask of the layout. It is necessary as well as sufficient
(`partsInRange_of_fromRegion`): a survivor outside sends the marking past the end of the counters.
-/

namespace CangjieRuntime

open BitSet Packing RegionBitmap List Finset

/-! ## Objects -/

/-- What tracing finds out about an object. -/
inductive Liveness where
  | dead
  | marked
  | resurrected
deriving DecidableEq, Repr

structure Obj where
  size : Nat
  liveness : Liveness
deriving DecidableEq, Repr

def Obj.survives (o : Obj) : Bool := o.liveness ≠ .dead

/-- An object with its offset in the region. -/
abbrev Located := Nat × Obj

def Located.size (v : Located) : Nat := v.2.size

@[simp] theorem Located.size_mk (offset : Nat) (o : Obj) : Located.size (offset, o) = o.size := rfl

/-- The granules of an object. -/
def granules (v : Located) : Finset Nat := Finset.Ico (v.1 / 8) (v.1 / 8 + v.2.size / 8)

/-- The granules of all objects of one kind. -/
def cells (l : Liveness) : List Located → Finset Nat
  | [] => ∅
  | v :: vs => if v.2.liveness = l then cells l vs ∪ granules v else cells l vs

/-- The part of an object's last word is one of the sixteen. -/
def InRange (regionSize : Nat) (v : Located) : Prop := partOf regionSize ((v.1 + v.2.size - 1) / 512) < factor

instance (regionSize : Nat) (v : Located) : Decidable (InRange regionSize v) := inferInstanceAs (Decidable (_ < _))

/-! ## Tracing a region -/

/-- A visit of the collector to an object. -/
def TraceInfo.visit (regionSize : Nat) (t : TraceInfo) (v : Located) : Option TraceInfo :=
  match v.2.liveness with
  | .dead => some t
  | .marked => t.markObject regionSize v.1 v.2.size
  | .resurrected => t.resurrectObject regionSize v.1 v.2.size

def TraceInfo.visitAll (regionSize : Nat) (t : TraceInfo) : List Located → Option TraceInfo
  | [] => some t
  | v :: vs => (t.visit regionSize v).bind fun t' => t'.visitAll regionSize vs

/-- **A region and the tracing of it.** The objects have positive sizes that are multiples of eight and lie without
    gaps from the start of the region to its allocation pointer; the visits are to the survivors, to each at least
    once. Regions of the sizes the runtime accepts have at most 2048 KB. -/
structure Tracing (heap : UnitInfo) where
  info : RegionInfo heap
  objects : List Obj
  visits : List Located
  aligned : ∀ o ∈ objects, 8 ∣ o.size ∧ 0 < o.size
  contiguous : info.allocPtr = info.regionStart + total Obj.size objects
  size_le : info.regionSize ≤ 2048 * 1024
  visits_live : ∀ v ∈ visits, v ∈ stack Obj.size 0 objects ∧ v.2.survives = true
  live_visited : ∀ v ∈ stack Obj.size 0 objects, v.2.survives = true → v ∈ visits

namespace Tracing

variable {heap : UnitInfo}

def layout (t : Tracing heap) : List Located := stack Obj.size 0 t.objects

/-- The objects that are marked or resurrected, in address order. -/
def survivors (t : Tracing heap) : List Located := t.layout.filter fun v => v.2.survives

/-- The region as tracing leaves it. -/
def fromRegion (t : Tracing heap) : Option (FromRegion heap) :=
  (TraceInfo.empty.visitAll t.info.regionSize t.visits).map fun trace => ⟨t.info, t.objects.map Obj.size, trace⟩

/-- No survivor reaches past the counters of the bitmaps. -/
def PartsInRange (t : Tracing heap) : Prop := ∀ v ∈ t.layout, v.2.survives = true → InRange t.info.regionSize v

end Tracing

/-! ## Sets of objects -/

/-- What a contiguous layout gives: objects of whole granules inside the region, apart from each other. -/
structure LaidOut (regionSize : Nat) (L : List Located) : Prop where
  whole : ∀ v ∈ L, 8 ∣ v.1 ∧ 8 ∣ v.2.size ∧ 0 < v.2.size
  ordered : L.Pairwise fun v w => v.1 + v.2.size ≤ w.1
  inside : ∀ v ∈ L, v.1 + v.2.size ≤ regionSize

theorem mem_cells {l : Liveness} {vs : List Located} {g : Nat} :
    g ∈ cells l vs ↔ ∃ v ∈ vs, v.2.liveness = l ∧ g ∈ granules v := by
  induction vs with
  | nil => simp [cells]
  | cons w vs ih =>
    unfold cells
    split_ifs with h
    · rw [mem_union, ih]
      constructor
      · rintro (⟨v, hv, hl, hg⟩ | hg)
        · exact ⟨v, mem_cons_of_mem _ hv, hl, hg⟩
        · exact ⟨w, mem_cons_self, h, hg⟩
      · rintro ⟨v, hv, hl, hg⟩
        rcases mem_cons.mp hv with rfl | hv
        · exact Or.inr hg
        · exact Or.inl ⟨v, hv, hl, hg⟩
    · rw [ih]
      constructor
      · rintro ⟨v, hv, hl, hg⟩
        exact ⟨v, mem_cons_of_mem _ hv, hl, hg⟩
      · rintro ⟨v, hv, hl, hg⟩
        rcases mem_cons.mp hv with rfl | hv
        · exact absurd hl h
        · exact ⟨v, hv, hl, hg⟩

/-- Only which objects of the kind are in the list matters. -/
theorem cells_congr {l : Liveness} {vs ws : List Located}
    (h : ∀ v : Located, v.2.liveness = l → (v ∈ vs ↔ v ∈ ws)) : cells l vs = cells l ws := by
  ext g
  rw [mem_cells, mem_cells]
  constructor
  · rintro ⟨v, hv, hl, hg⟩; exact ⟨v, (h v hl).mp hv, hl, hg⟩
  · rintro ⟨v, hv, hl, hg⟩; exact ⟨v, (h v hl).mpr hv, hl, hg⟩

theorem cells_append (l : Liveness) (vs ws : List Located) : cells l (vs ++ ws) = cells l vs ∪ cells l ws := by
  ext g
  simp only [mem_union, mem_cells, mem_append]
  constructor
  · rintro ⟨v, hv | hv, hl, hg⟩
    · exact Or.inl ⟨v, hv, hl, hg⟩
    · exact Or.inr ⟨v, hv, hl, hg⟩
  · rintro (⟨v, hv, hl, hg⟩ | ⟨v, hv, hl, hg⟩)
    · exact ⟨v, Or.inl hv, hl, hg⟩
    · exact ⟨v, Or.inr hv, hl, hg⟩

section

variable {regionSize : Nat} {L : List Located} {l : Liveness} {v : Located} {done : List Located}
  {b : Option RegionBitmap} {t : TraceInfo}
  {G : Finset Nat} {s : Nat}

/-- Two objects with a common granule are one. -/
theorem LaidOut.eq_of_granule (hL : LaidOut regionSize L) {v w : Located} {g : Nat} (hv : v ∈ L) (hw : w ∈ L)
    (hgv : g ∈ granules v) (hgw : g ∈ granules w) : v = w := by
  have happart : v = w ∨ v.1 + v.2.size ≤ w.1 ∨ w.1 + w.2.size ≤ v.1 :=
    List.Pairwise.forall_of_forall_of_flip
      (R := fun v w : Located => v = w ∨ v.1 + v.2.size ≤ w.1 ∨ w.1 + w.2.size ≤ v.1)
      (fun _ _ => Or.inl rfl) (hL.ordered.imp fun h => Or.inr (Or.inl h))
      (hL.ordered.imp fun h => Or.inr (Or.inr h)) hv hw
  obtain ⟨h1, h2, -⟩ := hL.whole v hv
  obtain ⟨h3, h4, -⟩ := hL.whole w hw
  rw [granules, mem_Ico] at hgv hgw
  rcases happart with h | h | h
  · exact h
  · omega
  · omega

/-- All granules of objects in the region are below its end. -/
theorem LaidOut.card_le (hL : LaidOut regionSize L) {vs : List Located} (hvs : ∀ v ∈ vs, v ∈ L) :
    (cells l vs).card ≤ regionSize / 8 := by
  have hsub : cells l vs ⊆ range (regionSize / 8) := by
    intro g hg
    obtain ⟨v, hv, -, hgv⟩ := mem_cells.mp hg
    obtain ⟨h1, h2, -⟩ := hL.whole v (hvs v hv)
    have := hL.inside v (hvs v hv)
    rw [granules, mem_Ico] at hgv
    rw [Finset.mem_range]
    omega
  calc (cells l vs).card ≤ (Finset.range (regionSize / 8)).card := Finset.card_le_card hsub
    _ = regionSize / 8 := card_range _

theorem LaidOut.tail (hL : LaidOut regionSize (v :: L)) : LaidOut regionSize L :=
  ⟨fun w hw => hL.whole w (mem_cons_of_mem _ hw), (pairwise_cons.mp hL.ordered).2,
    fun w hw => hL.inside w (mem_cons_of_mem _ hw)⟩

theorem LaidOut.front {M : List Located} (hL : LaidOut regionSize (L ++ M)) : LaidOut regionSize L :=
  ⟨fun w hw => hL.whole w (mem_append_left _ hw), (pairwise_append.mp hL.ordered).1,
    fun w hw => hL.inside w (mem_append_left _ hw)⟩

/-- The granules of one kind of objects are an eighth of their bytes. -/
theorem LaidOut.card_cells (hL : LaidOut regionSize L) (l : Liveness) :
    8 * (cells l L).card = total Located.size (L.filter fun v => v.2.liveness = l) := by
  induction L with
  | nil => rfl
  | cons v vs ih =>
    have hvs := ih hL.tail
    unfold cells
    by_cases h : v.2.liveness = l
    · have hdisj : Disjoint (cells l vs) (granules v) := by
        rw [Finset.disjoint_left]
        intro g hg hgv
        obtain ⟨w, hw, -, hgw⟩ := mem_cells.mp hg
        have heq := hL.eq_of_granule (mem_cons_of_mem _ hw) mem_cons_self hgw hgv
        have hlt := (pairwise_cons.mp hL.ordered).1 w hw
        have hpos := (hL.whole v mem_cons_self).2.2
        rw [heq] at hlt
        omega
      obtain ⟨-, h8, -⟩ := hL.whole v mem_cons_self
      rw [if_pos h, Finset.card_union_of_disjoint hdisj, List.filter_cons_of_pos (by simp [h]), total_cons, ← hvs,
        granules, Nat.card_Ico]
      show _ = v.2.size + _
      omega
    · rw [if_neg h, filter_cons_of_neg (by simp [h])]
      exact hvs

/-! ## One visit -/

/-- The bitmaps and the byte count after the objects `done` have been visited. -/
structure TraceInv (regionSize : Nat) (done : List Located) (t : TraceInfo) : Prop where
  marked : Represents regionSize (t.liveInfo.markBitmap.getD RegionBitmap.empty) (cells .marked done)
  resurrected : Represents regionSize (t.liveInfo.resurrectBitmap.getD RegionBitmap.empty) (cells .resurrected done)
  count : t.liveByteCount = 8 * ((cells .marked done).card + (cells .resurrected done).card)

theorem traceInv_empty : TraceInv regionSize [] TraceInfo.empty :=
  ⟨represents_empty, represents_empty, rfl⟩

variable (hL : LaidOut regionSize L)
include hL

/-- Marking in granules. -/
theorem LaidOut.markBitmap_eq (hv : v ∈ L) (b : Option RegionBitmap) :
    TraceInfo.markBitmap regionSize b v.1 v.2.size =
      (b.getD RegionBitmap.empty).markBits regionSize (8 * (v.1 / 8)) (8 * (v.2.size / 8)) := by
  obtain ⟨h1, h2, -⟩ := hL.whole v hv
  unfold TraceInfo.markBitmap
  rw [Nat.mul_div_cancel' h1, Nat.mul_div_cancel' h2]

/-- The last word of an object, in granules. -/
theorem LaidOut.lastWord_eq (hv : v ∈ L) :
    (v.1 / 8 + v.2.size / 8 - 1) / 64 = (v.1 + v.2.size - 1) / 512 := by
  obtain ⟨h1, h2, h3⟩ := hL.whole v hv
  omega

/-- None of the granules of an object that was not visited is marked. -/
theorem LaidOut.fresh (hv : v ∈ L)
    (hdone : ∀ w ∈ done, w ∈ L) (hnew : v ∉ done) (l : Liveness) :
    ∀ g, v.1 / 8 ≤ g → g < v.1 / 8 + v.2.size / 8 → g ∉ cells l done := by
  intro g hlo hhi hg
  obtain ⟨w, hw, -, hgw⟩ := mem_cells.mp hg
  have heq := hL.eq_of_granule hv (hdone w hw) (mem_Ico.mpr ⟨hlo, hhi⟩) hgw
  exact hnew (heq ▸ hw)

/-- What marking an object does to the bitmap of its kind, and to the count of the granules. -/
theorem LaidOut.markBitmap_spec (hs : Sized regionSize)
    (hv : v ∈ L) (hdone : ∀ w ∈ done, w ∈ L)
    (hrep : Represents regionSize (b.getD RegionBitmap.empty) (cells v.2.liveness done))
    (hrange : InRange regionSize v) :
    ∃ seen bm, TraceInfo.markBitmap regionSize b v.1 v.2.size = some (seen, bm) ∧
      Represents regionSize bm (cells v.2.liveness (v :: done)) ∧
      8 * (cells v.2.liveness (v :: done)).card =
        8 * (cells v.2.liveness done).card + (if seen then 0 else v.2.size) := by
  obtain ⟨-, h8, hpos⟩ := hL.whole v hv
  have hn : 0 < v.2.size / 8 := by omega
  rw [hL.markBitmap_eq hv]
  by_cases hold : v ∈ done
  · -- the object was visited before
    have hcells : cells v.2.liveness (v :: done) = cells v.2.liveness done := by
      refine cells_congr fun w _ => ⟨fun h => ?_, mem_cons_of_mem _⟩
      rcases mem_cons.mp h with rfl | h
      · exact hold
      · exact h
    have hfirst : v.1 / 8 ∈ cells v.2.liveness done :=
      mem_cells.mpr ⟨v, hold, rfl, mem_Ico.mpr ⟨Nat.le_refl _, Nat.lt_add_of_pos_right hn⟩⟩
    refine ⟨true, _, markBits_again hrep hn hfirst, ?_, ?_⟩
    · rw [hcells]; exact hrep
    · rw [hcells, if_pos rfl, Nat.add_zero]
  · have hcells : cells v.2.liveness (v :: done) = cells v.2.liveness done ∪ granules v := if_pos rfl
    have hfree := hL.fresh hv hdone hold v.2.liveness
    unfold InRange at hrange
    rw [← hL.lastWord_eq hv] at hrange
    obtain ⟨bm, hmark, hrep'⟩ := markBits_fresh hs hrep hn hfree hrange
    have hdisj : Disjoint (cells v.2.liveness done) (granules v) := by
      rw [Finset.disjoint_right]
      intro g hg
      obtain ⟨hlo, hhi⟩ := mem_Ico.mp hg
      exact hfree g hlo hhi
    refine ⟨false, bm, hmark, ?_, ?_⟩
    · rw [hcells]; exact hrep'
    · rw [hcells, card_union_of_disjoint hdisj, granules, Nat.card_Ico]
      simp only [Bool.false_eq_true, if_false]
      omega

/-- The byte count follows the granules; it stays far from wrapping. -/
theorem LaidOut.countLiveObject_eq (hle : regionSize ≤ 2048 * 1024)
    (hv : v ∈ L) {n k : Nat} {seen : Bool} (hn : n ≤ regionSize / 8) (hk : k ≤ regionSize / 8) :
    TraceInfo.countLiveObject (8 * (n + k)) v.2.size seen = 8 * n + (if seen then 0 else v.2.size) + 8 * k := by
  have := hL.inside v hv
  cases seen with
  | true => simp [TraceInfo.countLiveObject, Nat.mul_add]
  | false =>
    simp only [TraceInfo.countLiveObject, Bool.false_eq_true, if_false]
    rw [Word.add32_eq (by omega)]
    omega

omit hL

/-- The granules of the other kinds stay. -/
theorem cells_other (h : v.2.liveness ≠ l) :
    cells l (v :: done) = cells l done := if_neg h

include hL

variable (hs : Sized regionSize) (hle : regionSize ≤ 2048 * 1024)
include hs hle

/-- **One visit** to a survivor whose last word is in range. -/
theorem TraceInv.visit (hi : TraceInv regionSize done t) (hdone : ∀ w ∈ done, w ∈ L) (hv : v ∈ L)
    (hrange : InRange regionSize v) :
    ∃ t', t.visit regionSize v = some t' ∧ TraceInv regionSize (v :: done) t' := by
  have hcm : (cells .marked done).card ≤ regionSize / 8 := hL.card_le hdone
  have hcr : (cells .resurrected done).card ≤ regionSize / 8 := hL.card_le hdone
  unfold TraceInfo.visit
  cases hl : v.2.liveness with
  | dead =>
    refine ⟨t, rfl, ?_, ?_, ?_⟩
    · rw [cells_other (by simp [hl])]; exact hi.marked
    · rw [cells_other (by simp [hl])]; exact hi.resurrected
    · rw [cells_other (by simp [hl]), cells_other (by simp [hl])]; exact hi.count
  | marked =>
    obtain ⟨seen, bm, hmark, hrep, hcard⟩ := hL.markBitmap_spec hs hv hdone (hl ▸ hi.marked) hrange
    rw [hl] at hrep hcard
    refine ⟨⟨{ t.liveInfo with markBitmap := some bm }, TraceInfo.countLiveObject t.liveByteCount v.2.size seen⟩,
      ?_, hrep, ?_, ?_⟩
    · simp only [TraceInfo.markObject, hmark]
      rfl
    · rw [cells_other (by simp [hl])]; exact hi.resurrected
    · show TraceInfo.countLiveObject t.liveByteCount v.2.size seen = _
      rw [cells_other (l := .resurrected) (by simp [hl]), hi.count, hL.countLiveObject_eq hle hv hcm hcr,
        Nat.mul_add, hcard]
  | resurrected =>
    obtain ⟨seen, bm, hmark, hrep, hcard⟩ := hL.markBitmap_spec hs hv hdone (hl ▸ hi.resurrected) hrange
    rw [hl] at hrep hcard
    -- the check after marking: the object's first granule is among those just added
    obtain ⟨h8, h8', hpos⟩ := hL.whole v hv
    have hset : bm.isMarked v.1 = true := by
      rw [← Nat.mul_div_cancel' h8, isMarked_iff hrep]
      exact mem_cells.mpr ⟨v, mem_cons_self, hl, mem_Ico.mpr ⟨Nat.le_refl _, by omega⟩⟩
    refine ⟨⟨{ t.liveInfo with resurrectBitmap := some bm },
      TraceInfo.countLiveObject t.liveByteCount v.2.size seen⟩, ?_, ?_, hrep, ?_⟩
    · simp only [TraceInfo.resurrectObject, hmark]
      exact if_pos hset
    · rw [cells_other (by simp [hl])]; exact hi.marked
    · show TraceInfo.countLiveObject t.liveByteCount v.2.size seen = _
      rw [cells_other (l := .marked) (by simp [hl]), hi.count, Nat.add_comm (cells .marked done).card,
        hL.countLiveObject_eq hle hv hcr hcm, Nat.add_comm (cells .marked done).card, Nat.mul_add, hcard]

omit hs hle in
/-- A first visit to a survivor outside the range goes past the counters. -/
theorem TraceInv.visit_outside
    (hi : TraceInv regionSize done t) (hdone : ∀ w ∈ done, w ∈ L) (hv : v ∈ L) (hlive : v.2.survives = true)
    (hnew : v ∉ done) (hout : ¬ InRange regionSize v) : t.visit regionSize v = none := by
  obtain ⟨-, h8, hpos⟩ := hL.whole v hv
  have hn : 0 < v.2.size / 8 := by omega
  unfold InRange at hout
  rw [← hL.lastWord_eq hv] at hout
  have hpart := Nat.le_of_not_lt hout
  have hfree := hL.fresh hv hdone hnew
  unfold TraceInfo.visit
  cases hl : v.2.liveness with
  | dead => simp [Obj.survives, hl] at hlive
  | marked =>
    simp only [TraceInfo.markObject, hL.markBitmap_eq hv, markBits_outside hi.marked hn (hfree .marked) hpart]
    rfl
  | resurrected =>
    simp only [TraceInfo.resurrectObject, hL.markBitmap_eq hv,
      markBits_outside hi.resurrected hn (hfree .resurrected) hpart]
    rfl

/-! ## All visits -/

theorem TraceInv.visitAll (vs : List Located) : ∀ {done : List Located} {t : TraceInfo}, TraceInv regionSize done t →
    (∀ w ∈ done, w ∈ L) → (∀ v ∈ vs, v ∈ L ∧ InRange regionSize v) →
    ∃ t', t.visitAll regionSize vs = some t' ∧ TraceInv regionSize (vs.reverse ++ done) t' := by
  induction vs with
  | nil => intro done t hi _ _; exact ⟨t, rfl, hi⟩
  | cons v vs ih =>
    intro done t hi hdone hvs
    obtain ⟨hv, hrange⟩ := hvs v mem_cons_self
    obtain ⟨t₁, h₁, hi₁⟩ := hi.visit hL hs hle hdone hv hrange
    have hdone₁ : ∀ w ∈ v :: done, w ∈ L := forall_mem_cons.mpr ⟨hv, hdone⟩
    obtain ⟨t', h', hi'⟩ := ih hi₁ hdone₁ fun w hw => hvs w (mem_cons_of_mem _ hw)
    refine ⟨t', ?_, ?_⟩
    · unfold TraceInfo.visitAll
      rw [h₁]
      exact h'
    · rw [reverse_cons, append_assoc]
      exact hi'

/-- Visits that all succeed are to objects in range: the first one outside would have failed. -/
theorem TraceInv.inRange_of_visitAll (vs : List Located) : ∀ {done : List Located} {t t' : TraceInfo},
    TraceInv regionSize done t → (∀ w ∈ done, w ∈ L ∧ InRange regionSize w) →
    (∀ v ∈ vs, v ∈ L ∧ v.2.survives = true) → t.visitAll regionSize vs = some t' →
    ∀ v ∈ vs, InRange regionSize v := by
  induction vs with
  | nil => intro done t t' _ _ _ _ v hv; cases hv
  | cons v vs ih =>
    intro done t t' hi hdone hvs hall
    obtain ⟨hv, hlive⟩ := hvs v mem_cons_self
    have hdoneL : ∀ w ∈ done, w ∈ L := fun w hw => (hdone w hw).1
    have hrange : InRange regionSize v := by
      by_contra hout
      by_cases hold : v ∈ done
      · exact hout (hdone v hold).2
      · unfold TraceInfo.visitAll at hall
        rw [hi.visit_outside hL hdoneL hv hlive hold hout] at hall
        cases hall
    obtain ⟨t₁, h₁, hi₁⟩ := hi.visit hL hs hle hdoneL hv hrange
    unfold TraceInfo.visitAll at hall
    rw [h₁] at hall
    have hdone₁ : ∀ w ∈ v :: done, w ∈ L ∧ InRange regionSize w :=
      forall_mem_cons.mpr ⟨⟨hv, hrange⟩, hdone⟩
    exact forall_mem_cons.mpr
      ⟨hrange, ih hi₁ hdone₁ (fun w hw => hvs w (mem_cons_of_mem _ hw)) hall⟩

/-! ## Reading the bitmaps -/

omit hs hle

omit hL

theorem bitmapIsMarked_iff
    (hrep : Represents regionSize (b.getD RegionBitmap.empty) G) :
    LiveInfo.bitmapIsMarked b (8 * s) = true ↔ s ∈ G := by
  rw [← isMarked_iff hrep]
  cases b with
  | none => simp [LiveInfo.bitmapIsMarked, isMarked, RegionBitmap.empty]
  | some bm => rfl

theorem bitmapPreLiveBytes_eq (hs : Sized regionSize)
    (hrep : Represents regionSize (b.getD RegionBitmap.empty) G) (hpart : partOf regionSize (s / 64) ≤ factor) :
    LiveInfo.bitmapPreLiveBytes regionSize b (8 * s) = some (BitSet.count G 0 s * 8) := by
  cases b with
  | none =>
    rw [eq_empty_of_represents hrep, count_empty]
    rfl
  | some bm => exact getPreLiveBytes_eq hs hrep hpart

/-- An object's first granule belongs to the objects of its own kind only. -/
theorem LaidOut.first_mem_cells (hL : LaidOut regionSize L) (hv : v ∈ L) (l : Liveness) :
    v.1 / 8 ∈ cells l L ↔ v.2.liveness = l := by
  obtain ⟨-, h8, hpos⟩ := hL.whole v hv
  have hfirst : v.1 / 8 ∈ granules v := mem_Ico.mpr ⟨Nat.le_refl _, by omega⟩
  rw [mem_cells]
  constructor
  · rintro ⟨w, hw, hl, hgw⟩
    rw [hL.eq_of_granule hv hw hfirst hgw]
    exact hl
  · intro hl
    exact ⟨v, hv, hl, hfirst⟩

/-- The granules of one kind below an object are those of the objects before it. -/
theorem LaidOut.count_before {front back : List Located}
    (hL : LaidOut regionSize (front ++ v :: back)) (l : Liveness) :
    BitSet.count (cells l (front ++ v :: back)) 0 (v.1 / 8) * 8 =
      total Located.size (front.filter fun w => w.2.liveness = l) := by
  obtain ⟨-, hafter, hbefore⟩ := pairwise_append.mp hL.ordered
  have hcut : cells l (front ++ v :: back) ∩ Finset.Ico 0 (v.1 / 8) = cells l front := by
    ext g
    rw [mem_inter, cells_append, mem_union, mem_Ico]
    constructor
    · rintro ⟨h | h, -, hlt⟩
      · exact h
      · -- objects from `v` on start at `v`'s offset or above
        obtain ⟨w, hw, -, hgw⟩ := mem_cells.mp h
        obtain ⟨hlo, -⟩ := mem_Ico.mp hgw
        rcases mem_cons.mp hw with rfl | hw
        · omega
        · have := (pairwise_cons.mp hafter).1 w hw
          omega
    · intro h
      obtain ⟨w, hw, -, hgw⟩ := mem_cells.mp h
      obtain ⟨-, hhi⟩ := mem_Ico.mp hgw
      obtain ⟨h1, h2, -⟩ := hL.whole w (mem_append_left _ hw)
      have := hbefore w hw v mem_cons_self
      exact ⟨Or.inl h, Nat.zero_le _, by omega⟩
  rw [BitSet.count, hcut, Nat.mul_comm, hL.front.card_cells l]

/-- A survivor is marked or resurrected. -/
theorem total_survivors (vs : List Located) :
    total Located.size (vs.filter fun v => v.2.liveness = .marked) +
      total Located.size (vs.filter fun v => v.2.liveness = .resurrected) =
      total Located.size (vs.filter fun v => v.2.survives) := by
  induction vs with
  | nil => rfl
  | cons v vs ih =>
    have hsurv : v.2.survives = decide (v.2.liveness ≠ .dead) := rfl
    simp only [List.filter_cons, hsurv]
    cases hl : v.2.liveness <;>
      simp only [ne_eq, reduceCtorEq, not_false_eq_true, not_true_eq_false, decide_true, decide_false, if_true,
        Bool.false_eq_true, if_false, total_cons] <;>
      omega

end

/-! ## The traced region -/

namespace Tracing

variable {heap : UnitInfo}

variable (t : Tracing heap)

theorem sized : Sized t.info.regionSize :=
  sized_of_le ((by decide : 512 ≤ 4096).trans t.info.page_le_regionSize) t.size_le

theorem total_le : total Obj.size t.objects ≤ t.info.regionSize := by
  have h1 := t.contiguous
  have h2 : t.info.allocPtr ≤ t.info.regionEnd := t.info.le_end
  have h3 := t.info.regionEnd_eq
  omega

theorem laidOut : LaidOut t.info.regionSize t.layout := by
  refine ⟨?_, stack_pairwise 0 t.objects, ?_⟩
  · intro v hv
    obtain ⟨front, back, hobj, hoff⟩ := mem_stack.mp hv
    have hmem : v.2 ∈ t.objects := by rw [hobj]; exact mem_append_right _ mem_cons_self
    obtain ⟨h8, hpos⟩ := t.aligned v.2 hmem
    refine ⟨?_, h8, hpos⟩
    rw [hoff, Nat.zero_add]
    refine dvd_total fun o ho => (t.aligned o ?_).1
    rw [hobj]
    exact mem_append_left _ ho
  · intro v hv
    have h1 := (stack_bounds hv).2
    have h2 := t.total_le
    omega

/-- **What a traced region knows.** -/
structure Traced (t : Tracing heap) (r : FromRegion heap) : Prop where
  info : r.info = t.info
  sizes : r.sizes = t.objects.map Obj.size
  liveBytes : r.trace.liveByteCount = total Located.size t.survivors
  survived : ∀ v ∈ t.layout, r.trace.liveInfo.isSurvivedObject v.1 = v.2.survives
  pre : ∀ front v back, t.survivors = front ++ v :: back →
    r.trace.liveInfo.getPreLiveBytes t.info.regionSize v.1 = some (total Located.size front)

/-- The visits and the layout have the same survivors. -/
theorem cells_visits {l : Liveness} (hl : l ≠ .dead) :
    cells l (t.visits.reverse ++ []) = cells l t.layout := by
  refine cells_congr fun v hv => ?_
  rw [append_nil, mem_reverse]
  have hlive : v.2.survives = true := by simp [Obj.survives, hv, hl]
  exact ⟨fun h => (t.visits_live v h).1, fun h => t.live_visited v h hlive⟩

/-- A survivor of the list of survivors, in the layout. -/
theorem layout_split {front back : List Located} {v : Located}
    (h : t.survivors = front ++ v :: back) :
    ∃ before after, t.layout = before ++ v :: after ∧ (before.filter fun w => w.2.survives) = front ∧
      v.2.survives = true := by
  obtain ⟨l₁, l₂, hlayout, hfront, hrest⟩ := filter_eq_append_iff.mp h
  obtain ⟨m₁, m₂, rfl, hdead, hv, -⟩ := filter_eq_cons_iff.mp hrest
  refine ⟨l₁ ++ m₁, m₂, by rw [hlayout, append_assoc], ?_, hv⟩
  rw [filter_append, hfront, filter_eq_nil_iff.mpr hdead, append_nil]

/-- **Tracing leaves the survivors in the bitmaps**, when they stay inside the counters. -/
theorem traced (hparts : t.PartsInRange) : ∃ r, t.fromRegion = some r ∧ Traced t r := by
  have hL := t.laidOut
  have hs := t.sized
  have hvisits : ∀ v ∈ t.visits, v ∈ t.layout ∧ InRange t.info.regionSize v := fun v hv =>
    ⟨(t.visits_live v hv).1, hparts v (t.visits_live v hv).1 (t.visits_live v hv).2⟩
  obtain ⟨trace, htrace, hi⟩ := traceInv_empty.visitAll hL hs t.size_le t.visits (fun _ h => by cases h) hvisits
  have hm := hi.marked
  have hr := hi.resurrected
  have hcount := hi.count
  rw [t.cells_visits (by decide)] at hm hr
  rw [t.cells_visits (by decide), t.cells_visits (by decide), Nat.mul_add, hL.card_cells, hL.card_cells,
    total_survivors] at hcount
  refine ⟨⟨t.info, t.objects.map Obj.size, trace⟩, ?_, rfl, rfl, hcount, ?_, ?_⟩
  · unfold fromRegion
    rw [htrace]
    rfl
  · intro v hv
    have h8 := (hL.whole v hv).1
    have hmark := bitmapIsMarked_iff (s := v.1 / 8) hm
    have hres := bitmapIsMarked_iff (s := v.1 / 8) hr
    rw [Nat.mul_div_cancel' h8, hL.first_mem_cells hv] at hmark hres
    rw [Bool.eq_iff_iff, LiveInfo.isSurvivedObject, Bool.or_eq_true]
    unfold LiveInfo.isMarkedObject LiveInfo.isResurrectedObject
    rw [hmark, hres]
    cases hl : v.2.liveness <;> simp [Obj.survives, hl]
  · intro front v back hsplit
    obtain ⟨before, after, hlayout, hfront, hlive⟩ := t.layout_split hsplit
    have hv : v ∈ t.layout := by rw [hlayout]; exact mem_append_right _ mem_cons_self
    obtain ⟨h8, h8', hpos⟩ := hL.whole v hv
    -- the part of the object's first word is not above that of its last
    have hpart : partOf t.info.regionSize (v.1 / 8 / 64) ≤ factor := by
      refine Nat.le_of_lt (Nat.lt_of_le_of_lt (partOf_mono ?_) (hparts v hv hlive))
      omega
    have hpm := bitmapPreLiveBytes_eq hs hm hpart
    have hpr := bitmapPreLiveBytes_eq hs hr hpart
    have hsplitL : LaidOut t.info.regionSize (before ++ v :: after) := hlayout ▸ hL
    rw [hlayout, hsplitL.count_before, Nat.mul_div_cancel' h8] at hpm hpr
    simp only [LiveInfo.getPreLiveBytes, hpm, hpr]
    show some (_ + _) = _
    rw [total_survivors, hfront]

/-- A traced region stayed inside the counters. -/
theorem partsInRange_of_fromRegion {r : FromRegion heap} (h : t.fromRegion = some r) :
    t.PartsInRange := by
  obtain ⟨trace, htrace, -⟩ := Option.map_eq_some_iff.mp h
  intro v hv hlive
  exact traceInv_empty.inRange_of_visitAll t.laidOut t.sized t.size_le t.visits (fun _ h => by cases h)
    t.visits_live htrace v (t.live_visited v hv hlive)

/-- **Sizes without a remainder.** In a region of at most sixteen words, or of a multiple of sixteen, no object
    reaches past the counters. -/
theorem partsInRange_of_words
    (hwords : markWordSize t.info.regionSize ≤ 16 ∨ 16 ∣ markWordSize t.info.regionSize) : t.PartsInRange := by
  intro v hv _
  have hlast : (v.1 + v.2.size - 1) / 512 < markWordSize t.info.regionSize := by
    obtain ⟨-, -, hpos⟩ := t.laidOut.whole v hv
    have hin := t.laidOut.inside v hv
    obtain ⟨k, hk⟩ := t.info.page_dvd_regionSize
    unfold markWordSize kMarkedBytesPerBit kBitsPerWord
    omega
  have hpos := t.sized.pos
  unfold InRange partOf
  rw [Nat.div_lt_iff_lt_mul hpos]
  unfold wordsPerPart calFactor factor at *
  split_ifs at * with h
  · rw [Nat.div_self (by omega)]
    omega
  · rcases hwords with hle | ⟨k, hk⟩
    · rw [show markWordSize t.info.regionSize = 16 by omega] at hlast ⊢
      omega
    · rw [hk, Nat.mul_div_cancel_left _ (by decide : 0 < 16), ← hk]
      exact hlast

end Tracing

end CangjieRuntime
