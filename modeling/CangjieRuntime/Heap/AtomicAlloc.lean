import CangjieRuntime.Lib.Bump
import CangjieRuntime.Lib.Interleave
import CangjieRuntime.Lib.Word

/-!
# `Heap.AtomicAlloc` — lock-free bump allocation in a shared region

`RegionInfo::AtomicAlloc` adds the size to `allocPtr` and takes what it fetched. When the block does not fit it
stores the fetched address back — a *blind* store, which would lose any update made in between. It loses
nothing, because while such a store is pending the pointer is past the end, so every other call fails as well
and, having fetched an address past the end, stores nothing.
-/

namespace CangjieRuntime.AtomicAlloc

open Runs Word Bump Interleave Function

/-- The bounds of the region, and where its pointer stands when the calls begin. -/
structure Region where
  regionStart : Nat
  regionEnd : Nat
  allocPtr : Nat
  start_le : regionStart ≤ allocPtr
  le_end : allocPtr ≤ regionEnd
  lt : regionEnd < 2 ^ 64

/-- Where a thread is in its call. -/
inductive Pc where
  | idle
  /-- The block did not fit; the fetched address is about to be stored back. -/
  | store (addr : Nat)
deriving DecidableEq, Repr

/-- The shared pointer, the threads, and every block handed out (newest first). -/
structure State (T : Type) where
  allocPtr : Nat
  pc : T → Pc
  blocks : List Run

/-- The atomic steps of a call. -/
inductive Act where
  | fetchAdd (size : Nat)
  | storeBack
deriving DecidableEq, Repr

variable {T : Type} (r : Region)

def init : State T := ⟨r.allocPtr, fun _ => .idle, []⟩

/-- One atomic step of thread `ta.1`. -/
def act [DecidableEq T] (s : State T) (ta : T × Act) : Option (State T) :=
  match ta.2, s.pc ta.1 with
  | .fetchAdd size, .idle =>
    let addr := s.allocPtr
    let allocPtr := add64 addr size
    if addr < r.regionEnd ∧ size ≤ sub64 r.regionEnd addr then
      some { s with allocPtr := allocPtr, blocks := ⟨addr, size⟩ :: s.blocks }
    else if addr ≤ r.regionEnd then
      some { s with allocPtr := allocPtr, pc := Function.update s.pc ta.1 (.store addr) }
    else
      some { s with allocPtr := allocPtr }
  | .storeBack, .store addr =>
    some { s with allocPtr := addr, pc := Function.update s.pc ta.1 .idle }
  | _, _ => none

/-- Sizes are positive and the sum does not wrap. -/
def NoWrap (s : State T) (ta : T × Act) : Prop :=
  match ta.2 with
  | .fetchAdd size => 0 < size ∧ s.allocPtr + size < 2 ^ 64
  | .storeBack => True

instance (s : State T) : (ta : T × Act) → Decidable (NoWrap s ta)
  | (_, .fetchAdd size) => inferInstanceAs (Decidable (0 < size ∧ s.allocPtr + size < 2 ^ 64))
  | (_, .storeBack) => inferInstanceAs (Decidable True)

/-- One for a thread between its two steps. -/
def pending : Pc → Nat
  | .idle => 0
  | .store _ => 1

/-- The end of the last block, or the initial pointer. -/
def lastEnd (s : State T) : Nat := top r.allocPtr s.blocks

/-! ## The invariant -/

section

variable [Fintype T]

/-- Either nobody is about to store and the pointer is the end of the last block, or exactly one thread is about
    to store exactly that and the pointer is past the end. -/
structure Inv (s : State T) : Prop where
  stacked : Stacked r.allocPtr s.blocks
  last_le : lastEnd r s ≤ r.regionEnd
  addr : ∀ t addr, s.pc t = .store addr → addr = lastEnd r s
  ptr : (tally pending s.pc = 0 ∧ s.allocPtr = lastEnd r s) ∨
    (tally pending s.pc = 1 ∧ r.regionEnd < s.allocPtr)

theorem inv_init : Inv r (init r : State T) := by
  refine ⟨trivial, r.le_end, ?_, Or.inl ⟨?_, rfl⟩⟩
  · intro t addr h; cases h
  · exact tally_eq_zero.mpr fun _ => rfl

/-- While the pointer is inside the region nobody is about to store. -/
theorem Inv.settled {s : State T} (hi : Inv r s) (hle : s.allocPtr ≤ r.regionEnd) :
    tally pending s.pc = 0 ∧ s.allocPtr = lastEnd r s := by
  rcases hi.ptr with h | ⟨-, hgt⟩
  · exact h
  · exact absurd hgt (Nat.not_lt.mpr hle)

end

/-! ## What a step does -/

variable [DecidableEq T]

/-- The four things a step can do: hand out a block, fail and remember where the pointer was, fail past the
    end, and store back. -/
theorem act_cases {s s' : State T} {ta : T × Act} (h : act r s ta = some s') :
    (∃ size, ta.2 = .fetchAdd size ∧ s.allocPtr < r.regionEnd ∧ size ≤ sub64 r.regionEnd s.allocPtr ∧
      s' = { s with allocPtr := add64 s.allocPtr size, blocks := ⟨s.allocPtr, size⟩ :: s.blocks }) ∨
    (∃ size, ta.2 = .fetchAdd size ∧ s.pc ta.1 = .idle ∧ s.allocPtr ≤ r.regionEnd ∧
      ¬ (s.allocPtr < r.regionEnd ∧ size ≤ sub64 r.regionEnd s.allocPtr) ∧
      s' = { s with allocPtr := add64 s.allocPtr size, pc := update s.pc ta.1 (.store s.allocPtr) }) ∨
    (∃ size, ta.2 = .fetchAdd size ∧ r.regionEnd < s.allocPtr ∧ s' = { s with allocPtr := add64 s.allocPtr size }) ∨
    (∃ addr, s.pc ta.1 = .store addr ∧ s' = { s with allocPtr := addr, pc := update s.pc ta.1 .idle }) := by
  obtain ⟨t, a⟩ := ta
  unfold act at h
  cases a with
  | fetchAdd size =>
    cases hpc : s.pc t with
    | idle =>
      simp only [hpc] at h
      by_cases hfit : s.allocPtr < r.regionEnd ∧ size ≤ sub64 r.regionEnd s.allocPtr
      · rw [if_pos hfit, Option.some.injEq] at h
        exact Or.inl ⟨size, rfl, hfit.1, hfit.2, h.symm⟩
      · rw [if_neg hfit] at h
        by_cases hle : s.allocPtr ≤ r.regionEnd
        · rw [if_pos hle, Option.some.injEq] at h
          exact Or.inr (Or.inl ⟨size, rfl, rfl, hle, hfit, h.symm⟩)
        · rw [if_neg hle, Option.some.injEq] at h
          exact Or.inr (Or.inr (Or.inl ⟨size, rfl, Nat.lt_of_not_le hle, h.symm⟩))
    | store addr => simp only [hpc] at h; cases h
  | storeBack =>
    cases hpc : s.pc t with
    | idle => simp only [hpc] at h; cases h
    | store addr =>
      simp only [hpc, Option.some.injEq] at h
      exact Or.inr (Or.inr (Or.inr ⟨addr, rfl, h.symm⟩))

variable [Fintype T]

theorem act_inv (s : State T) (ta : T × Act) (s' : State T) (hi : Inv r s) (hok : NoWrap s ta)
    (h : act r s ta = some s') : Inv r s' := by
  rcases act_cases r h with ⟨size, ha, hlt, hfit, rfl⟩ | ⟨size, ha, hpc, hle, hfit, rfl⟩ | ⟨size, ha, hgt, rfl⟩ |
    ⟨addr, hpc, rfl⟩
  · -- the block starts at the end of the last one, since nobody has moved the pointer away from there
    obtain ⟨hnone, hptr⟩ := hi.settled r (Nat.le_of_lt hlt)
    simp only [NoWrap, ha] at hok
    rw [sub64_eq (Nat.le_of_lt hlt) r.lt] at hfit
    refine ⟨⟨hptr.symm ▸ Nat.le_refl _, hi.stacked⟩, ?_, ?_, Or.inl ⟨hnone, add64_eq hok.2⟩⟩
    · show s.allocPtr + size ≤ r.regionEnd; omega
    · intro t addr ht
      have hzero := tally_eq_zero.mp hnone t
      rw [ht] at hzero; cases hzero
  · -- this thread becomes the one that stores
    obtain ⟨hnone, hptr⟩ := hi.settled r hle
    simp only [NoWrap, ha] at hok
    refine ⟨hi.stacked, hi.last_le, ?_, Or.inr ⟨?_, ?_⟩⟩
    · intro t addr ht
      by_cases hts : t = ta.1
      · subst hts
        simp only [update_self, Pc.store.injEq] at ht
        exact ht ▸ hptr
      · simp only [update_of_ne hts] at ht
        exact hi.addr t addr ht
    · have hmove := tally_update pending s.pc ta.1 (.store s.allocPtr)
      simp only [hpc, pending] at hmove
      show tally pending (update s.pc ta.1 (.store s.allocPtr)) = 1
      omega
    · show r.regionEnd < add64 s.allocPtr size
      rw [add64_eq hok.2]
      by_contra hge
      refine hfit ⟨by omega, ?_⟩
      rw [sub64_eq hle r.lt]; omega
  · -- past the end the fetched address is not stored
    simp only [NoWrap, ha] at hok
    refine ⟨hi.stacked, hi.last_le, hi.addr, Or.inr ?_⟩
    rcases hi.ptr with ⟨-, hptr⟩ | ⟨hone, -⟩
    · have := hi.last_le; omega
    · refine ⟨hone, ?_⟩
      show r.regionEnd < add64 s.allocPtr size
      rw [add64_eq hok.2]; omega
  · -- the only pending store puts the pointer back
    have hmove := tally_update pending s.pc ta.1 .idle
    have hle : pending (s.pc ta.1) ≤ tally pending s.pc := le_tally ta.1
    simp only [hpc, pending] at hmove hle
    refine ⟨hi.stacked, hi.last_le, ?_, Or.inl ⟨?_, hi.addr ta.1 addr hpc⟩⟩
    · intro t a ht
      by_cases hts : t = ta.1
      · subst hts; simp only [update_self] at ht; cases ht
      · simp only [update_of_ne hts] at ht
        exact hi.addr t a ht
    · show tally pending (update s.pc ta.1 .idle) = 0
      rcases hi.ptr with ⟨hzero, -⟩ | ⟨hone, -⟩ <;> omega

/-! ## Whole runs -/

theorem run_inv {s : State T} (hrun : Run (act r) NoWrap (init r) s) : Inv r s :=
  run_invariant hrun (inv_init r) (act_inv r)

/-- **`AtomicAlloc` is a bump allocator.** In every state reached by any number of threads in any interleaving,
    the blocks handed out are pairwise disjoint sub-ranges of the region, and whenever no failing call
    is between its two steps the pointer is the end of the last block. -/
theorem blocks_disjoint {s : State T} (hrun : Run (act r) NoWrap (init r) s) :
    s.blocks.Pairwise (fun b b' => Disjoint b.elems b'.elems) ∧
    (∀ b ∈ s.blocks, r.regionStart ≤ b.start ∧ b.stop ≤ r.regionEnd) ∧
    ((∀ t, s.pc t = .idle) → s.allocPtr = lastEnd r s) := by
  have hi := run_inv r hrun
  refine ⟨hi.stacked.disjoint, ?_, ?_⟩
  · intro b hb
    obtain ⟨hlo, hhi⟩ := hi.stacked.bounds b hb
    exact ⟨r.start_le.trans hlo, hhi.trans hi.last_le⟩
  · intro hidle
    have hnone : tally pending s.pc = 0 := tally_eq_zero.mpr fun t => by rw [hidle t]; rfl
    rcases hi.ptr with ⟨-, hptr⟩ | ⟨hone, -⟩
    · exact hptr
    · omega

/-- One block is handed out, a second thread crosses the end, a third fails past it, the second stores back. -/
theorem blocks_disjoint_sample :
    ∃ s : State (Fin 3), Run (act ⟨4096, 8192, 4096, by decide, by decide, by decide⟩) NoWrap
        (init ⟨4096, 8192, 4096, by decide, by decide, by decide⟩) s ∧
      s.blocks = [⟨4096, 4000⟩] ∧ ∀ b ∈ s.blocks, 4096 ≤ b.start ∧ b.stop ≤ 8192 := by
  have hexec : (runActs (act ⟨4096, 8192, 4096, by decide, by decide, by decide⟩) NoWrap
      (init ⟨4096, 8192, 4096, by decide, by decide, by decide⟩)
      [((0 : Fin 3), Act.fetchAdd 4000), (1, .fetchAdd 200), (2, .fetchAdd 8), (1, .storeBack)]).map State.blocks =
        some [⟨4096, 4000⟩] := by decide
  obtain ⟨s, hs, hblocks⟩ := Option.map_eq_some_iff.mp hexec
  have hrun := run_of_runActs hs
  exact ⟨s, hrun, hblocks, (blocks_disjoint _ hrun).2.1⟩

end CangjieRuntime.AtomicAlloc
