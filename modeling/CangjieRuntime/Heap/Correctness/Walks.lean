import CangjieRuntime.Heap.Correctness.Tracing

/-!
# `Heap.Correctness.Walks` — the walks over a from-region

Four loops of the source walk the objects of a region and skip the dead ones. Here each is put in terms of the list of
survivors: the greedy visit computes what `Packing.fit` takes (`visitLoop_fill`), the compacting loops copy each
survivor to its place in a `Packing.stack` (`compactLoop_spec`, `compactUntilFull_spec`).

All lemmas are about a walk that has come to some offset, with the objects that are left.
-/

namespace CangjieRuntime

open Packing List

variable {heap : UnitInfo}

/-- The survivors of a layout. -/
def surviving (vs : List Located) : List Located := vs.filter fun v => v.2.survives

/-- The bitmaps say of the objects at hand what is true. -/
def Knows (survived : Nat → Bool) (vs : List Located) : Prop := ∀ v ∈ vs, survived v.1 = v.2.survives

/-- The copies of objects to consecutive places from `base` on. -/
def copiesTo (regionStart base : Nat) (vs : List Located) : List Copy :=
  (stack Located.size base vs).map fun p => ⟨regionStart + p.2.1, p.1, p.2.2.size⟩

section

variable {survived : Nat → Bool} {o : Obj} {objs : List Obj} {offset : Nat}

theorem Knows.head (h : Knows survived (stack Obj.size offset (o :: objs))) : survived offset = o.survives :=
  h (offset, o) mem_cons_self

theorem Knows.tail (h : Knows survived (stack Obj.size offset (o :: objs))) :
    Knows survived (stack Obj.size (offset + o.size) objs) :=
  fun v hv => h v (mem_cons_of_mem _ hv)

theorem surviving_live (h : o.survives = true) : surviving (stack Obj.size offset (o :: objs)) =
    (offset, o) :: surviving (stack Obj.size (offset + o.size) objs) := filter_cons_of_pos h

theorem surviving_dead (h : ¬ o.survives = true) : surviving (stack Obj.size offset (o :: objs)) =
    surviving (stack Obj.size (offset + o.size) objs) := filter_cons_of_neg h

end

/-! ## The greedy visit -/

theorem visitLoop_fill {survived : Nat → Bool} (objs : List Obj) : ∀ {offset cap : Nat}, cap < 2 ^ 64 →
    Knows survived (stack Obj.size offset objs) →
    (visitLoop survived fillToRegion1 offset cap (objs.map Obj.size)).2 =
      cap - total Located.size (fit Located.size cap (surviving (stack Obj.size offset objs))).1 := by
  induction objs with
  | nil => intro offset cap _ _; rfl
  | cons o objs ih =>
    intro offset cap hcap hk
    rw [map_cons, visitLoop, hk.head]
    split_ifs with hlive
    · rw [surviving_live hlive, fit, Located.size_mk]
      by_cases hfit : o.size ≤ cap
      · rw [fillToRegion1, if_pos hfit, if_pos hfit, Word.sub64_eq hfit hcap]
        show (visitLoop survived fillToRegion1 (offset + o.size) (cap - o.size) (objs.map Obj.size)).2 = _
        rw [ih (by omega) hk.tail, total_cons, Located.size_mk, Nat.sub_sub]
      · -- the walk stops at the first survivor that does not fit
        rw [fillToRegion1, if_neg hfit, if_neg hfit]
        rfl
    · rw [surviving_dead hlive]
      exact ih hcap hk.tail

/-! ## Compaction -/

theorem copiesTo_cons (regionStart base : Nat) (v : Located) (vs : List Located) :
    copiesTo regionStart base (v :: vs) =
      ⟨regionStart + v.1, base, v.2.size⟩ :: copiesTo regionStart (base + v.2.size) vs := rfl

/-- A copy is the copy of an object. -/
theorem mem_copiesTo {regionStart base : Nat} {vs : List Located} {c : Copy} (h : c ∈ copiesTo regionStart base vs) :
    ∃ v ∈ vs, c.source = regionStart + v.1 ∧ c.size = v.2.size := by
  obtain ⟨p, hp, rfl⟩ := mem_map.mp h
  obtain ⟨front, back, hvs, -⟩ := mem_stack.mp hp
  refine ⟨p.2, ?_, rfl, rfl⟩
  rw [hvs]
  exact mem_append_right _ mem_cons_self

/-- A loop with enough room copies every survivor to the next free place. -/
theorem compactLoop_spec {survived : Nat → Bool} (regionStart : Nat) (objs : List Obj) :
    ∀ {toRegion : RegionInfo heap} {offset : Nat}, Knows survived (stack Obj.size offset objs) →
    toRegion.allocPtr + total Located.size (surviving (stack Obj.size offset objs)) ≤ toRegion.regionEnd →
    ∃ after, compactLoop survived regionStart toRegion offset (objs.map Obj.size) =
        some (after, copiesTo regionStart toRegion.allocPtr (surviving (stack Obj.size offset objs))) ∧
      RegionInfo.Bumped toRegion after (total Located.size (surviving (stack Obj.size offset objs))) := by
  induction objs with
  | nil => intro toRegion offset _ _; exact ⟨toRegion, rfl, .zero toRegion⟩
  | cons o objs ih =>
    intro toRegion offset hk hroom
    rw [map_cons, compactLoop, hk.head]
    split_ifs with hlive
    · rw [surviving_live hlive, total_cons, Located.size_mk] at hroom ⊢
      obtain ⟨r₁, halloc, hb₁⟩ := toRegion.alloc_fits (show toRegion.allocPtr + o.size ≤ _ by omega)
      obtain ⟨after, hrest, hb₂⟩ := @ih r₁ (offset + o.size) hk.tail (by rw [hb₁.ptr, hb₁.regionEnd_eq]; omega)
      refine ⟨after, ?_, hb₁.trans hb₂⟩
      rw [halloc, copiesTo_cons, ← hb₁.ptr]
      show Option.bind (compactLoop survived regionStart r₁ (offset + o.size) (objs.map Obj.size)) _ = _
      rw [hrest]
      rfl
    · rw [surviving_dead hlive] at hroom ⊢
      exact ih hk.tail hroom

/-- The unbounded loop, when the survivors are more than fits: it copies what `fit` takes and stops **inside** the
    region, at the first survivor that is left. -/
theorem compactUntilFull_spec {survived : Nat → Bool} (regionStart : Nat) (objs : List Obj) :
    ∀ {toRegion1 : RegionInfo heap} {offset : Nat}, Knows survived (stack Obj.size offset objs) →
    (∀ o ∈ objs, 0 < o.size) →
    toRegion1.regionEnd - toRegion1.allocPtr < total Located.size (surviving (stack Obj.size offset objs)) →
    ∃ after front left,
      compactUntilFull survived regionStart toRegion1 offset (objs.map Obj.size) =
        some (after, offset + total Obj.size front, left.map Obj.size, copiesTo regionStart toRegion1.allocPtr
          (fit Located.size (toRegion1.regionEnd - toRegion1.allocPtr) (surviving (stack Obj.size offset objs))).1) ∧
      RegionInfo.Bumped toRegion1 after (total Located.size
        (fit Located.size (toRegion1.regionEnd - toRegion1.allocPtr) (surviving (stack Obj.size offset objs))).1) ∧
      objs = front ++ left ∧ total Obj.size front < total Obj.size objs ∧
      surviving (stack Obj.size (offset + total Obj.size front) left) =
        (fit Located.size (toRegion1.regionEnd - toRegion1.allocPtr) (surviving (stack Obj.size offset objs))).2 := by
  induction objs with
  | nil => intro toRegion1 offset _ _ hmore; exact absurd hmore (Nat.not_lt_zero _)
  | cons o objs ih =>
    intro toRegion1 offset hk hpos hmore
    have hpos' : ∀ x ∈ objs, 0 < x.size := fun x hx => hpos x (mem_cons_of_mem _ hx)
    have ho := hpos o mem_cons_self
    rw [map_cons, compactUntilFull, hk.head]
    split_ifs with hlive
    · rw [surviving_live hlive] at hmore ⊢
      rw [total_cons, Located.size_mk] at hmore
      have hend : toRegion1.allocPtr ≤ toRegion1.regionEnd := toRegion1.le_end
      rw [fit, Located.size_mk]
      by_cases hfit : o.size ≤ toRegion1.regionEnd - toRegion1.allocPtr
      · -- copied; the loop goes on with a region that has that much less room
        rw [if_pos hfit]
        obtain ⟨r₁, halloc, hb₁⟩ := toRegion1.alloc_fits (show toRegion1.allocPtr + o.size ≤ _ by omega)
        have hroom : r₁.regionEnd - r₁.allocPtr = toRegion1.regionEnd - toRegion1.allocPtr - o.size := by
          rw [hb₁.ptr, hb₁.regionEnd_eq, Nat.sub_sub]
        obtain ⟨after, front, left, hrun, hb, hsplit, hlt, hleft⟩ :=
          @ih r₁ (offset + o.size) hk.tail hpos' (by rw [hroom]; omega)
        rw [hroom] at hrun hb hleft
        refine ⟨after, o :: front, left, ?_, ?_, congrArg (o :: ·) hsplit, ?_, ?_⟩
        · rw [halloc, copiesTo_cons, ← hb₁.ptr, total_cons, ← Nat.add_assoc]
          show Option.bind (compactUntilFull survived regionStart r₁ (offset + o.size) (objs.map Obj.size)) _ = _
          rw [hrun]
          rfl
        · rw [total_cons, Located.size_mk]
          exact hb₁.trans hb
        · rw [total_cons, total_cons]; omega
        · rw [total_cons, ← Nat.add_assoc]
          exact hleft
      · -- does not fit: the loop is left here
        rw [if_neg hfit, RegionInfo.alloc_full (by omega)]
        refine ⟨toRegion1, [], o :: objs, rfl, .zero toRegion1, rfl, ?_, surviving_live hlive⟩
        rw [total_cons, total_nil]; omega
    · rw [surviving_dead hlive] at hmore ⊢
      obtain ⟨after, front, left, hrun, hb, hsplit, hlt, hleft⟩ := ih hk.tail hpos' hmore
      refine ⟨after, o :: front, left, ?_, hb, congrArg (o :: ·) hsplit, ?_, ?_⟩
      · rw [total_cons, ← Nat.add_assoc]
        exact hrun
      · rw [total_cons, total_cons]; omega
      · rw [total_cons, ← Nat.add_assoc]
        exact hleft

end CangjieRuntime
