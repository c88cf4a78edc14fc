import CangjieRuntime.Lib.DHeap
import CangjieRuntime.StdSync.TimerScheduler

/-!
# `StdSync.Correctness.TimerHeap` — the scheduler's heap

The loops of `siftUp` and `siftDown` exchange a timer with its parent or with its smallest child. The timer that moves
is an element in hand, and its slot a hole: the loops are `DHeap.Rises` and `DHeap.Sinks`. From that follow the
specifications of `add` and `poll`: what the heap holds, and that it is in order.

`poll` does not look at the first slot, so it needs no order there: the timer in it may have a new `endTime` already.
-/

namespace CangjieRuntime.TimerScheduler

open DHeap Function

variable {X : Type} {endTime : X → Int}

theorem NODE_SIZE_pos : 0 < NODE_SIZE := Nat.succ_pos 3

/-- The timers in the heap. -/
def TimerHeap.timers (heap : TimerHeap X) : List X := items heap.size heap.data

/-- Exchanging the element in hand with another moves the hole. -/
theorem swap_update {f : Nat → X} {i p : Nat} (hne : p ≠ i) (x : X) :
    swap (update f i x) p i = update (update f i (f p)) p x := by
  unfold swap
  rw [update_self, update_of_ne hne, update_comm hne.symm, update_idem,
    update_comm hne]

/-! ## `siftUp` -/

theorem siftUpLoop_spec (endTime : X → Int) (x : X) {fuel i : Nat} (hfuel : i ≤ fuel) (f : Nat → X) :
    ∃ g j, siftUpLoop endTime fuel (update f i x) i = update g j x ∧
      Rises endTime NODE_SIZE x f i g j ∧ Above endTime NODE_SIZE j g x := by
  induction fuel generalizing f i with
  | zero =>
    obtain rfl : i = 0 := Nat.le_zero.mp hfuel
    exact ⟨f, 0, rfl, Rises.refl _ _, fun hpos => absurd hpos (lt_irrefl 0)⟩
  | succ fuel ih =>
    unfold siftUpLoop
    split_ifs with hpos
    · have hup : parent NODE_SIZE i < i := parent_lt hpos
      show ∃ g j, (if ¬endTime (update f i x i) < endTime (update f i x (parent NODE_SIZE i)) then _
        else siftUpLoop endTime fuel (swap (update f i x) (parent NODE_SIZE i) i) (parent NODE_SIZE i)) = _ ∧ _
      rw [update_self, update_of_ne hup.ne, swap_update hup.ne]
      by_cases hlt : endTime x < endTime (f (parent NODE_SIZE i))
      · rw [if_neg (not_not.mpr hlt)]
        obtain ⟨g, j, heq, hrises, habove⟩ := ih (Nat.le_of_lt_succ (hup.trans_le hfuel))
          (update f i (f (parent NODE_SIZE i)))
        exact ⟨g, j, heq, Rises.up hpos hlt hrises, habove⟩
      · rw [if_pos hlt]
        exact ⟨f, i, rfl, Rises.refl _ _, fun _ => not_lt.mp hlt⟩
    · exact ⟨f, i, rfl, Rises.refl _ _, fun hpos' => absurd hpos' hpos⟩

/-- What `add` does. -/
theorem TimerHeap.add_spec (heap : TimerHeap X) (endTime : X → Int) (e : X) :
    (heap.add endTime e).size = heap.size + 1 ∧ (heap.add endTime e).timers.Perm (e :: heap.timers) ∧
      (Ordered endTime NODE_SIZE heap.size heap.data →
        Ordered endTime NODE_SIZE (heap.add endTime e).size (heap.add endTime e).data) := by
  obtain ⟨g, j, heq, hrises, habove⟩ := siftUpLoop_spec endTime e (le_refl heap.size) heap.data
  have hdata : (heap.add endTime e).data = update g j e := heq
  have hlast : heap.size < heap.size + 1 := Nat.lt_succ_self _
  refine ⟨rfl, ?_, fun hordered => ?_⟩
  · unfold TimerHeap.timers
    rw [hdata]
    refine (hrises.items hlast).trans ?_
    show (items (heap.size + 1) (update heap.data heap.size e)).Perm _
    rw [items_succ, update_self]
    rw [items_congr (g := heap.data) fun i hi => update_of_ne hi.ne ..]
    exact List.perm_append_singleton e _
  · rw [hdata]
    obtain ⟨hhole, hbelow⟩ := hrises.hole hlast hordered.extend below_last
    exact hhole.fill hbelow habove

/-! ## `siftDown` -/

theorem getMinIndexLoop_spec (endTime : X → Int) (data : Nat → X) (size : Nat) {k i min : Nat} (hmin : min < size) :
    let r := getMinIndexLoop endTime data size k i min
    r < size ∧ (r = min ∨ i ≤ r ∧ r < i + k) ∧ endTime (data r) ≤ endTime (data min) ∧
      ∀ c, i ≤ c → c < i + k → c < size → endTime (data r) ≤ endTime (data c) := by
  induction k generalizing i min with
  | zero => exact ⟨hmin, Or.inl rfl, le_refl _, fun c hge hlt => absurd hge (Nat.not_le.mpr hlt)⟩
  | succ k ih =>
    dsimp only
    unfold getMinIndexLoop
    split_ifs with hless
    · obtain ⟨hlt, hfrom, hle, hall⟩ := ih (i := i + 1) hless.1
      refine ⟨hlt, Or.inr ?_, hle.trans hless.2.le, fun c hge hc hsize => ?_⟩
      · rcases hfrom with heq | ⟨hge, hlt'⟩
        · rw [heq]
          exact ⟨le_refl i, Nat.lt_add_of_pos_right (Nat.succ_pos k)⟩
        · exact ⟨(Nat.le_succ i).trans hge, by rw [← Nat.add_assoc, Nat.add_right_comm]; exact hlt'⟩
      · rcases Nat.eq_or_lt_of_le hge with rfl | hgt
        · exact hle
        · exact hall c hgt (by omega) hsize
    · obtain ⟨hlt, hfrom, hle, hall⟩ := ih (i := i + 1) hmin
      refine ⟨hlt, hfrom.imp_right fun ⟨hge, hlt'⟩ => ⟨(Nat.le_succ i).trans hge, by omega⟩, hle,
        fun c hge hc hsize => ?_⟩
      rcases Nat.eq_or_lt_of_le hge with rfl | hgt
      · exact hle.trans (not_lt.mp fun hlt' => hless ⟨hsize, hlt'⟩)
      · exact hall c hgt (by omega) hsize

/-- The smallest child of slot `h`, if it has a child. -/
theorem getMinIndex_spec (endTime : X → Int) (data : Nat → X) {size h : Nat} (hchild : NODE_SIZE * h + 1 < size) :
    let m := getMinIndex endTime data size (NODE_SIZE * h + 1)
    0 < m ∧ m < size ∧ parent NODE_SIZE m = h ∧ Below endTime NODE_SIZE size h data (data m) := by
  obtain ⟨hlt, hfrom, hle, hall⟩ := getMinIndexLoop_spec endTime data size (k := NODE_SIZE - 1)
    (i := NODE_SIZE * h + 1 + 1) hchild
  change getMinIndex endTime data size (NODE_SIZE * h + 1) < size at hlt
  change getMinIndex endTime data size (NODE_SIZE * h + 1) = _ ∨ _ ≤ getMinIndex endTime data size (NODE_SIZE * h + 1) ∧
    _ at hfrom
  dsimp only
  generalize hm : getMinIndex endTime data size (NODE_SIZE * h + 1) = m at hlt hfrom
  have hm' : getMinIndexLoop endTime data size (NODE_SIZE - 1) (NODE_SIZE * h + 1 + 1) (NODE_SIZE * h + 1) = m := hm
  rw [hm'] at hle hall hfrom
  have hsize : NODE_SIZE = 4 := rfl
  have hpos : 0 < m := by omega
  refine ⟨hpos, hlt, (parent_eq_iff NODE_SIZE_pos hpos).mpr (by omega), fun c hc hcn hparent => ?_⟩
  obtain ⟨hge, hle'⟩ := (parent_eq_iff NODE_SIZE_pos hc).mp hparent
  rcases Nat.eq_or_lt_of_le hge with rfl | hgt
  · exact hle
  · exact hall c hgt (by omega) hcn

theorem siftDownLoop_spec (endTime : X → Int) (x : X) {n fuel h : Nat} (hfuel : n ≤ h + fuel) (f : Nat → X) :
    ∃ g j, siftDownLoop endTime n fuel (update f h x) h = update g j x ∧
      Sinks endTime NODE_SIZE n x f h g j ∧ Below endTime NODE_SIZE n j g x := by
  -- a slot without a child below `n` is the last of its path
  have hstop : ∀ (f : Nat → X) (h : Nat), n ≤ NODE_SIZE * h + 1 → Below endTime NODE_SIZE n h f x := by
    intro f h hend c hc hcn hparent
    have hge := ((parent_eq_iff NODE_SIZE_pos hc).mp hparent).1
    omega
  induction fuel generalizing f h with
  | zero =>
    refine ⟨f, h, rfl, Sinks.refl _ _, hstop f h ?_⟩
    unfold NODE_SIZE
    omega
  | succ fuel ih =>
    unfold siftDownLoop
    dsimp only
    by_cases hend : NODE_SIZE * h + 1 > n - 1
    · rw [if_pos hend]
      exact ⟨f, h, rfl, Sinks.refl _ _, hstop f h (by omega)⟩
    rw [if_neg hend]
    obtain ⟨hpos, hmn, hparent, hmin⟩ := getMinIndex_spec endTime (update f h x)
      (show NODE_SIZE * h + 1 < n by omega)
    generalize getMinIndex endTime (update f h x) n (NODE_SIZE * h + 1) = m at *
    have hdown : h < m := hparent ▸ parent_lt hpos
    rw [update_of_ne hdown.ne'] at hmin
    have hmin' : Below endTime NODE_SIZE n h f (f m) := by
      intro c hc hcn hchild
      have hle := hmin c hc hcn hchild
      rw [update_of_ne (hchild ▸ parent_lt hc : h < c).ne'] at hle
      exact hle
    rw [update_self, update_of_ne hdown.ne', swap_update hdown.ne']
    by_cases hlt : endTime (f m) < endTime x
    · rw [if_neg (not_not.mpr hlt)]
      obtain ⟨g, j, heq, hsinks, hbelow⟩ := ih (show n ≤ m + fuel by omega) (update f h (f m))
      exact ⟨g, j, heq, Sinks.down hpos hmn hparent hmin' hlt hsinks, hbelow⟩
    · rw [if_pos hlt]
      refine ⟨f, h, rfl, Sinks.refl _ _, fun c hc hcn hchild => ?_⟩
      exact (not_lt.mp hlt).trans (hmin' c hc hcn hchild)

/-- What `poll` does to a heap that is not empty: the first timer leaves it. It does not matter what the first timer
    is. -/
theorem TimerHeap.poll_spec (heap : TimerHeap X) (zeroValue : X) (endTime : X → Int) (hpos : 0 < heap.size) :
    (heap.poll zeroValue endTime).size = heap.size - 1 ∧
      heap.timers.Perm (heap.data 0 :: (heap.poll zeroValue endTime).timers) ∧
      (Hole endTime NODE_SIZE heap.size 0 heap.data →
        Ordered endTime NODE_SIZE (heap.poll zeroValue endTime).size (heap.poll zeroValue endTime).data) := by
  obtain ⟨n, hn⟩ : ∃ n, heap.size = n + 1 := ⟨heap.size - 1, (Nat.succ_pred_eq_of_pos hpos).symm⟩
  have hsize : heap.size - 1 = n := by omega
  rcases Nat.eq_zero_or_pos n with hzero | hn0
  · -- the only timer
    subst hzero
    have htimers : heap.timers = [heap.data 0] := by
      unfold TimerHeap.timers
      rw [hn]
      rfl
    have hleft : (heap.poll zeroValue endTime).size = 0 := hsize
    have hnone : (heap.poll zeroValue endTime).timers = [] := by
      unfold TimerHeap.timers
      rw [hleft]
      rfl
    refine ⟨rfl, ?_, fun _ i _ hi => ?_⟩
    · rw [htimers, hnone]
    · rw [hleft] at hi
      exact absurd hi (Nat.not_lt_zero i)
  · -- the last timer is in hand, and slot 0 is the hole
    let f : Nat → X := update heap.data n zeroValue
    have hstart : update (update heap.data 0 (heap.data n)) n zeroValue = update f 0 (heap.data n) :=
      update_comm hn0.ne ..
    obtain ⟨g, j, heq, hsinks, hbelow⟩ := siftDownLoop_spec endTime (heap.data n) (Nat.le_add_left n 0) f
    have hdata : (heap.poll zeroValue endTime).data = update g j (heap.data n) := by
      rw [← heq, ← hstart]
      unfold TimerHeap.poll siftDown
      dsimp only
      rw [hsize]
    have hpoll : (heap.poll zeroValue endTime).size = n := hsize
    have hagree : ∀ i < n, f i = heap.data i := fun i hi => update_of_ne hi.ne ..
    refine ⟨rfl, ?_, fun hhole => ?_⟩
    · unfold TimerHeap.timers
      rw [hpoll, hdata, hn]
      have hsunk := hsinks.items hn0
      have hcongr : items n (update f 0 (heap.data n)) = items n (update heap.data 0 (heap.data n)) := by
        apply items_congr
        intro i hi
        by_cases hi0 : i = 0
        · rw [hi0, update_self, update_self]
        · rw [update_of_ne hi0, update_of_ne hi0, hagree i hi]
      rw [hcongr] at hsunk
      exact ((hsunk.cons _).trans (items_replace hn0 heap.data)).symm
    · rw [hn] at hhole
      have hhole' : Hole endTime NODE_SIZE n 0 f := hhole.shrink.congr hn0 fun i hi _ => by rw [hagree i hi]
      obtain ⟨hhole'', habove⟩ := hsinks.hole hhole' fun hpos => absurd hpos (lt_irrefl 0)
      rw [hpoll, hdata]
      exact hhole''.fill hbelow habove

/-- The first timer of a heap is due first. -/
theorem TimerHeap.top_le {heap : TimerHeap X} (hordered : Ordered endTime NODE_SIZE heap.size heap.data) {x : X}
    (hx : x ∈ heap.timers) : endTime (heap.data 0) ≤ endTime x := by
  obtain ⟨i, hi, rfl⟩ := mem_items.mp hx
  exact hordered.extend.root_le ((Nat.zero_le i).trans_lt hi) (hi.trans (Nat.lt_succ_self _)) hi.ne

/-! ## Adding and polling -/

/-- The timers that `n` calls of `poll` return. -/
def TimerHeap.polls (zeroValue : X) (endTime : X → Int) : Nat → TimerHeap X → List X
  | 0, _ => []
  | n + 1, heap => heap.data 0 :: polls zeroValue endTime n (heap.poll zeroValue endTime)

variable (zeroValue : X) (endTime)

theorem TimerHeap.polls_spec {n : Nat} {heap : TimerHeap X} (hn : heap.size = n)
    (hordered : Ordered endTime NODE_SIZE heap.size heap.data) :
    (heap.polls zeroValue endTime n).Perm heap.timers ∧
      (heap.polls zeroValue endTime n).Pairwise (endTime · ≤ endTime ·) := by
  induction n generalizing heap with
  | zero =>
    unfold TimerHeap.timers
    rw [hn]
    exact ⟨.refl _, .nil⟩
  | succ n ih =>
    have hpos : 0 < heap.size := hn ▸ n.succ_pos
    obtain ⟨hsize, hperm, hkeep⟩ := heap.poll_spec zeroValue endTime hpos
    obtain ⟨hrest, hsorted⟩ := ih (hsize.trans (by omega)) (hkeep (hordered.hole 0 hpos))
    refine ⟨(hrest.cons _).trans hperm.symm, List.pairwise_cons.mpr ⟨fun x hx => ?_, hsorted⟩⟩
    exact top_le hordered (hperm.mem_iff.mpr (.tail _ (hrest.mem_iff.mp hx)))

/-- The timers that are added join those in the heap. -/
theorem TimerHeap.foldl_add_spec (timers : List X) (heap : TimerHeap X)
    (hordered : Ordered endTime NODE_SIZE heap.size heap.data) :
    let heap' := timers.foldl (TimerHeap.add endTime) heap
    heap'.size = heap.size + timers.length ∧ heap'.timers.Perm (timers ++ heap.timers) ∧
      Ordered endTime NODE_SIZE heap'.size heap'.data := by
  induction timers generalizing heap with
  | nil => exact ⟨rfl, .refl _, hordered⟩
  | cons e timers ih =>
    obtain ⟨hsize, hperm, hkeep⟩ := heap.add_spec endTime e
    obtain ⟨hsize', hperm', hordered'⟩ := ih _ (hkeep hordered)
    refine ⟨hsize'.trans (by rw [hsize, List.length_cons]; omega), hperm'.trans ?_, hordered'⟩
    exact (hperm.append_left timers).trans List.perm_middle

/-- **The heap sorts.** Timers added in any order leave it by `endTime`, each as often as it was added. -/
theorem polls_sorted (timers : List X) :
    let polled := (timers.foldl (TimerHeap.add endTime) (.new zeroValue)).polls zeroValue endTime timers.length
    polled.Perm timers ∧ polled.Pairwise (endTime · ≤ endTime ·) := by
  have hnew : Ordered endTime NODE_SIZE 0 fun _ => zeroValue := fun i _ hi => absurd hi (Nat.not_lt_zero i)
  obtain ⟨hsize, hperm, hordered⟩ := TimerHeap.foldl_add_spec endTime timers (.new zeroValue) hnew
  obtain ⟨hpolls, hsorted⟩ := TimerHeap.polls_spec endTime zeroValue (hsize.trans (Nat.zero_add _)) hordered
  exact ⟨hpolls.trans (hperm.trans (.of_eq (List.append_nil _))), hsorted⟩

end CangjieRuntime.TimerScheduler
