import CangjieRuntime.Heap.RegionInfo
import CangjieRuntime.Lib.Bump
import CangjieRuntime.Lib.Interleave

/-!
# `Heap.InactiveZone` — growing the heap

When the free units do not suffice, `RegionManager::TakeRegion` takes never-used units from the *inactive zone*:
it compares the request with the units left, `fetch_add`s the size to the cursor and, when the fetched address
leaves too little room, `fetch_sub`s the size again.

The roll-back is relative, so it undoes the call's own addition only as long as nobody was granted a range above
it. `overlapRun` is a run of three threads that breaks this: a rolled-back failure lets a third call
succeed *while a second failure is still pending*, and the second roll-back then moves the cursor below the range
just granted. What the design needs is therefore `Settled`: no grant while a roll-back is pending. Under it the
cursor is always the end of the last range plus the pending roll-backs (`Inv.zone`), and everything follows.
-/

namespace CangjieRuntime.InactiveZone

open Runs Word Bump Interleave Function

/-- The constant fields of `RegionManager`. -/
structure RegionHeap where
  unit : UnitSize
  regionHeapStart : Nat
  regionHeapEnd : Nat
  le : regionHeapStart ≤ regionHeapEnd
  lt : regionHeapEnd < 2 ^ 64

/-- Where a thread is in `TakeRegion`. -/
inductive Pc where
  | idle
  /-- Passed the comparison with the inactive units. -/
  | add (num : Nat)
  /-- Was fetched an address with too little room; about to take the size back. -/
  | sub (size : Nat)
deriving DecidableEq, Repr

/-- The shared cursor, the threads, and every range granted (newest first). -/
structure State (T : Type) where
  inactiveZone : Nat
  pc : T → Pc
  regions : List Run

/-- The atomic steps of a call. -/
inductive Act where
  | load (num : Nat)
  | fetchAdd
  | fetchSub
deriving DecidableEq, Repr

variable {T : Type} (m : RegionHeap)

def init : State T := ⟨m.regionHeapStart, fun _ => .idle, []⟩

/-- The pointer difference is unsigned: a cursor past the end reads as an enormous room. -/
def getInactiveUnitCount (inactiveZone : Nat) : Nat := sub64 m.regionHeapEnd inactiveZone / m.unit.UNIT_SIZE

/-- The byte size of a request. -/
def byteSize (num : Nat) : Nat := mul64 num m.unit.UNIT_SIZE

/-- One atomic step of thread `ta.1`. -/
def act [DecidableEq T] (s : State T) (ta : T × Act) : Option (State T) :=
  match ta.2, s.pc ta.1 with
  | .load num, .idle =>
    -- a request that is too large returns `nullptr` at once
    if num ≤ getInactiveUnitCount m s.inactiveZone then some { s with pc := Function.update s.pc ta.1 (.add num) }
    else some s
  | .fetchAdd, .add num =>
    let addr := s.inactiveZone
    let size := byteSize m num
    if addr < sub64 m.regionHeapEnd size then
      some
        { inactiveZone := add64 addr size
          pc := Function.update s.pc ta.1 .idle
          regions := ⟨addr, size⟩ :: s.regions }
    else some { s with inactiveZone := add64 addr size, pc := Function.update s.pc ta.1 (.sub size) }
  | .fetchSub, .sub size =>
    some { s with inactiveZone := sub64 s.inactiveZone size, pc := Function.update s.pc ta.1 .idle }
  | _, _ => none

/-- What a thread still has to take back. -/
def rollBack : Pc → Nat
  | .sub size => size
  | _ => 0

/-- The request of a thread that is about to add. -/
def request : Pc → Nat
  | .add num => byteSize m num
  | _ => 0

/-- The condition on an addition: the size is at most the heap's end and does not wrap the cursor, and if the
    addition is about to be granted no other call has anything left to take back. -/
def Settled (s : State T) (ta : T × Act) : Prop :=
  match ta.2 with
  | .fetchAdd =>
    let size := request m (s.pc ta.1)
    size ≤ m.regionHeapEnd ∧ s.inactiveZone + size < 2 ^ 64 ∧
      (s.inactiveZone < m.regionHeapEnd - size → ∀ u, rollBack (s.pc u) = 0)
  | _ => True

instance [Fintype T] (s : State T) : (ta : T × Act) → Decidable (Settled m s ta)
  | (t, .fetchAdd) => inferInstanceAs (Decidable (request m (s.pc t) ≤ m.regionHeapEnd ∧
      s.inactiveZone + request m (s.pc t) < 2 ^ 64 ∧
      (s.inactiveZone < m.regionHeapEnd - request m (s.pc t) → ∀ u, rollBack (s.pc u) = 0)))
  | (_, .load _) => inferInstanceAs (Decidable True)
  | (_, .fetchSub) => inferInstanceAs (Decidable True)

/-- What the allocator promises: disjoint ranges, inside the heap, below the cursor. -/
structure Safe (s : State T) : Prop where
  disjoint : s.regions.Pairwise (fun r r' => Disjoint r.elems r'.elems)
  inside : ∀ r ∈ s.regions, m.regionHeapStart ≤ r.start ∧ r.stop ≤ m.regionHeapEnd
  below : ∀ r ∈ s.regions, r.stop ≤ s.inactiveZone

/-! ## The invariant -/

section

variable [Fintype T]

/-- The cursor is the end of the last range plus what is still to be taken back. -/
structure Inv (s : State T) : Prop where
  stacked : Stacked m.regionHeapStart s.regions
  top_le : top m.regionHeapStart s.regions ≤ m.regionHeapEnd
  zone : s.inactiveZone = top m.regionHeapStart s.regions + tally rollBack s.pc
  lt : s.inactiveZone < 2 ^ 64

theorem inv_init : Inv m (init m : State T) := by
  have hzero : tally rollBack (init m : State T).pc = 0 := tally_eq_zero.mpr fun _ => rfl
  exact ⟨trivial, m.le, by rw [hzero]; rfl, lt_of_le_of_lt m.le m.lt⟩

theorem Inv.safe {s : State T} (hi : Inv m s) : Safe m s := by
  refine ⟨hi.stacked.disjoint, ?_, ?_⟩
  · intro r hr
    obtain ⟨hlo, hhi⟩ := hi.stacked.bounds r hr
    exact ⟨hlo, hhi.trans hi.top_le⟩
  · intro r hr
    have hhi := (hi.stacked.bounds r hr).2
    rw [hi.zone]
    exact hhi.trans (Nat.le_add_right _ _)

end

/-! ## What a step does -/

variable [DecidableEq T]

/-- The five things a step can do: pass or fail the comparison, be granted a range or not, and roll back. -/
theorem act_cases {s s' : State T} {ta : T × Act} (h : act m s ta = some s') :
    (∃ num, s.pc ta.1 = .idle ∧ s' = { s with pc := update s.pc ta.1 (.add num) }) ∨
    s' = s ∨
    (∃ num, ta.2 = .fetchAdd ∧ s.pc ta.1 = .add num ∧ s.inactiveZone < sub64 m.regionHeapEnd (byteSize m num) ∧
      s' = ⟨add64 s.inactiveZone (byteSize m num), update s.pc ta.1 .idle,
        ⟨s.inactiveZone, byteSize m num⟩ :: s.regions⟩) ∨
    (∃ num, ta.2 = .fetchAdd ∧ s.pc ta.1 = .add num ∧
      s' = { s with inactiveZone := add64 s.inactiveZone (byteSize m num),
                    pc := update s.pc ta.1 (.sub (byteSize m num)) }) ∨
    (∃ size, s.pc ta.1 = .sub size ∧
      s' = { s with inactiveZone := sub64 s.inactiveZone size, pc := update s.pc ta.1 .idle }) := by
  obtain ⟨t, a⟩ := ta
  unfold act at h
  cases a with
  | load num =>
    cases hpc : s.pc t with
    | idle =>
      simp only [hpc] at h
      by_cases hroom : num ≤ getInactiveUnitCount m s.inactiveZone
      · rw [if_pos hroom, Option.some.injEq] at h
        exact Or.inl ⟨num, rfl, h.symm⟩
      · rw [if_neg hroom, Option.some.injEq] at h
        exact Or.inr (Or.inl h.symm)
    | add n | sub n => simp only [hpc] at h; cases h
  | fetchAdd =>
    cases hpc : s.pc t with
    | idle | sub n => simp only [hpc] at h; cases h
    | add num =>
      simp only [hpc] at h
      by_cases hroom : s.inactiveZone < sub64 m.regionHeapEnd (byteSize m num)
      · rw [if_pos hroom, Option.some.injEq] at h
        exact Or.inr (Or.inr (Or.inl ⟨num, rfl, rfl, hroom, h.symm⟩))
      · rw [if_neg hroom, Option.some.injEq] at h
        exact Or.inr (Or.inr (Or.inr (Or.inl ⟨num, rfl, rfl, h.symm⟩)))
  | fetchSub =>
    cases hpc : s.pc t with
    | idle | add n => simp only [hpc] at h; cases h
    | sub size =>
      simp only [hpc, Option.some.injEq] at h
      exact Or.inr (Or.inr (Or.inr (Or.inr ⟨size, rfl, h.symm⟩)))

variable [Fintype T]

theorem act_inv (s : State T) (ta : T × Act) (s' : State T) (hi : Inv m s) (hok : Settled m s ta)
    (h : act m s ta = some s') : Inv m s' := by
  rcases act_cases m h with ⟨num, hpc, rfl⟩ | rfl | ⟨num, ha, hpc, hroom, rfl⟩ | ⟨num, ha, hpc, rfl⟩ | ⟨size, hpc, rfl⟩
  · -- only the control point moves, and neither point has anything to take back
    have hmove := tally_update rollBack s.pc ta.1 (.add num)
    simp only [hpc, rollBack] at hmove
    refine ⟨hi.stacked, hi.top_le, ?_, hi.lt⟩
    show s.inactiveZone =
      top m.regionHeapStart s.regions + tally rollBack (update s.pc ta.1 (.add num))
    rw [hi.zone]; omega
  · exact hi
  · -- granted: nothing is pending, so the range starts at the end of the last one
    simp only [Settled, ha, hpc, request] at hok
    obtain ⟨hle, hnowrap, hsettled⟩ := hok
    rw [sub64_eq hle m.lt] at hroom
    have hnone : tally rollBack s.pc = 0 := tally_eq_zero.mpr (hsettled hroom)
    have hzone : s.inactiveZone = top m.regionHeapStart s.regions := by rw [hi.zone, hnone]; rfl
    have hmove := tally_update rollBack s.pc ta.1 .idle
    simp only [hpc, rollBack] at hmove
    refine ⟨⟨Nat.le_of_eq hzone.symm, hi.stacked⟩, ?_, ?_, add64_lt _ _⟩
    · show s.inactiveZone + byteSize m num ≤ m.regionHeapEnd; omega
    · show add64 s.inactiveZone (byteSize m num) =
        s.inactiveZone + byteSize m num + tally rollBack (update s.pc ta.1 .idle)
      rw [add64_eq hnowrap]; omega
  · -- refused: the cursor and the pending roll-backs grow by the same size
    simp only [Settled, ha, hpc, request] at hok
    obtain ⟨-, hnowrap, -⟩ := hok
    have hmove := tally_update rollBack s.pc ta.1 (.sub (byteSize m num))
    simp only [hpc, rollBack] at hmove
    refine ⟨hi.stacked, hi.top_le, ?_, add64_lt _ _⟩
    show add64 s.inactiveZone (byteSize m num) =
      top m.regionHeapStart s.regions + tally rollBack (update s.pc ta.1 (.sub (byteSize m num)))
    rw [add64_eq hnowrap, hi.zone]; omega
  · -- rolled back: what is taken back was pending
    have hmove := tally_update rollBack s.pc ta.1 .idle
    have hle : rollBack (s.pc ta.1) ≤ tally rollBack s.pc := le_tally ta.1
    have hzone := hi.zone
    simp only [hpc, rollBack] at hmove hle
    refine ⟨hi.stacked, hi.top_le, ?_, sub64_lt _ _⟩
    show sub64 s.inactiveZone size =
      top m.regionHeapStart s.regions + tally rollBack (update s.pc ta.1 .idle)
    rw [sub64_eq (by omega) hi.lt]; omega

/-! ## Whole runs -/

/-- **Heap growth hands out disjoint regions** in every run whose additions are all settled. -/
theorem regions_safe_of_settled {s : State T} (hrun : Run (act m) (Settled m) (init m) s) : Safe m s :=
  Inv.safe m (run_invariant hrun (inv_init m) (act_inv m))

/-! ## Grants while something is pending -/

omit [DecidableEq T] [Fintype T] in
/-- The addition does not wrap the cursor. -/
def NoWrap (s : State T) (ta : T × Act) : Prop :=
  match ta.2 with
  | .fetchAdd => s.inactiveZone + request m (s.pc ta.1) < 2 ^ 64
  | _ => True

instance (s : State T) : (ta : T × Act) → Decidable (NoWrap m s ta)
  | (t, .fetchAdd) => inferInstanceAs (Decidable (s.inactiveZone + request m (s.pc t) < 2 ^ 64))
  | (_, .load _) => inferInstanceAs (Decidable True)
  | (_, .fetchSub) => inferInstanceAs (Decidable True)

/-- A heap of 100 units. -/
def heap100 : RegionHeap := ⟨.page4K, 0x10000, 0x10000 + 100 * 4096, by decide, by decide⟩

/-- Thread 0 asks for 90 units and thread 1 for 5; both pass the comparison on the fresh heap. Thread 2 takes 20.
    Threads 0 and 1 then fail, thread 0 rolls back, thread 2 is granted 10 units while thread 1 is still to roll
    back, thread 1 rolls back, and thread 2 asks again. -/
def overlapRun : List (Fin 3 × Act) :=
  [(0, .load 90), (1, .load 5), (2, .load 20), (2, .fetchAdd), (0, .fetchAdd), (1, .fetchAdd), (0, .fetchSub),
   (2, .load 10), (2, .fetchAdd), (1, .fetchSub), (2, .load 10), (2, .fetchAdd)]

/-- **The allocator hands out overlapping regions**: units 25 to 35 and then units 30 to 40. -/
theorem overlapping_regions :
    ∃ s : State (Fin 3), Run (act heap100) (fun _ _ => True) (init heap100) s ∧
      ⟨0x10000 + 25 * 4096, 10 * 4096⟩ ∈ s.regions ∧ ⟨0x10000 + 30 * 4096, 10 * 4096⟩ ∈ s.regions ∧
      ¬ Safe heap100 s := by
  have hexec : (runActs (act heap100) (fun _ _ => True) (init heap100) overlapRun).map State.regions =
      some [⟨0x10000 + 30 * 4096, 10 * 4096⟩, ⟨0x10000 + 25 * 4096, 10 * 4096⟩, ⟨0x10000, 20 * 4096⟩] := by decide
  obtain ⟨s, hs, hregions⟩ := Option.map_eq_some_iff.mp hexec
  refine ⟨s, run_of_runActs hs, by simp [hregions], by simp [hregions], ?_⟩
  intro hsafe
  have hdis := hsafe.disjoint
  rw [hregions, List.pairwise_cons] at hdis
  -- unit 30 is in both
  have hapart := Set.disjoint_left.mp (hdis.1 _ (List.mem_cons_self ..))
  exact hapart (show 0x10000 + 30 * 4096 ∈ _ by simp) (by simp)

/-- A settled run: one thread is granted 20 units, another is refused and rolls back. -/
theorem regions_safe_of_settled_sample :
    ∃ s : State (Fin 2), Run (act heap100) (Settled heap100) (init heap100) s ∧
      s.regions = [⟨0x10000, 20 * 4096⟩] ∧ Safe heap100 s := by
  have hexec : (runActs (act heap100) (Settled heap100) (init heap100)
      [((0 : Fin 2), Act.load 90), (1, .load 20), (1, .fetchAdd), (0, .fetchAdd), (0, .fetchSub)]).map
        State.regions = some [⟨0x10000, 20 * 4096⟩] := by decide
  obtain ⟨s, hs, hregions⟩ := Option.map_eq_some_iff.mp hexec
  have hrun := run_of_runActs hs
  exact ⟨s, hrun, hregions, regions_safe_of_settled heap100 hrun⟩

end CangjieRuntime.InactiveZone
