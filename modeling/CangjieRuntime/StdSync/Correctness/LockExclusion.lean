import CangjieRuntime.StdSync.ReadWriteLock

/-!
# `StdSync.Correctness.LockExclusion` — readers and writers of the read-write lock

A thread *is a writer* from the compare-and-swap that takes the write lock to the subtraction that gives it back: at
first the owner field does not say so yet, and at last no longer. Its *read holds* are its own count, corrected by the
hold that it has entered in only one of the two places.

The invariant says that the write count is positive exactly if there is a writer, that a writer is alone, and that the
share count is the sum of the read holds. What a thread has read can be relied upon because it is about the thread
itself, or because the thread is a writer, and then nobody else changes it.
-/

namespace CangjieRuntime.ReadWriteLock

open Word Interleave Function

/-! ## The two halves of the state word -/

section Decode

variable {state : Nat}

theorem decodeWriteCount_eq (state : Nat) : decodeWriteCount state = state % 2 ^ 32 :=
  Nat.and_two_pow_sub_one_eq_mod state 32

theorem decodeShareCount_eq (state : Nat) : decodeShareCount state = state / 2 ^ 32 :=
  Nat.shiftRight_eq_div_pow state 32

theorem decodeWriteCount_lt (state : Nat) : decodeWriteCount state < 2 ^ 32 := by
  rw [decodeWriteCount_eq]
  exact Nat.mod_lt _ (by decide)

theorem decode_zero_iff : state = 0 ↔ decodeShareCount state = 0 ∧ decodeWriteCount state = 0 := by
  rw [decodeWriteCount_eq, decodeShareCount_eq]
  omega

theorem add_share (hfits : decodeShareCount state + 1 < 2 ^ 32) :
    add64 state SHARE_UNIT < 2 ^ 64 ∧ decodeWriteCount (add64 state SHARE_UNIT) = decodeWriteCount state ∧
      decodeShareCount (add64 state SHARE_UNIT) = decodeShareCount state + 1 := by
  simp only [decodeWriteCount_eq, decodeShareCount_eq] at hfits ⊢
  rw [add64_eq (by unfold SHARE_UNIT; omega)]
  unfold SHARE_UNIT
  omega

theorem sub_share (hstate : state < 2 ^ 64) (hpos : 0 < decodeShareCount state) :
    sub64 state SHARE_UNIT < 2 ^ 64 ∧ decodeWriteCount (sub64 state SHARE_UNIT) = decodeWriteCount state ∧
      decodeShareCount (sub64 state SHARE_UNIT) + 1 = decodeShareCount state := by
  simp only [decodeWriteCount_eq, decodeShareCount_eq] at hpos ⊢
  rw [sub64_eq (by unfold SHARE_UNIT; omega) hstate]
  unfold SHARE_UNIT
  omega

theorem write_unit_mul {writeCount : Nat} (h : writeCount < 2 ^ 32) : mul64 WRITE_UNIT writeCount = writeCount := by
  rw [mul64_eq (by unfold WRITE_UNIT; omega)]
  exact Nat.one_mul _

theorem add_write {writeCount : Nat} (hstate : state < 2 ^ 64) (hfits : decodeWriteCount state + writeCount < 2 ^ 32) :
    add64 state (mul64 WRITE_UNIT writeCount) < 2 ^ 64 ∧
      decodeWriteCount (add64 state (mul64 WRITE_UNIT writeCount)) = decodeWriteCount state + writeCount ∧
      decodeShareCount (add64 state (mul64 WRITE_UNIT writeCount)) = decodeShareCount state := by
  simp only [decodeWriteCount_eq, decodeShareCount_eq] at hfits ⊢
  rw [write_unit_mul (by omega), add64_eq (by omega)]
  omega

theorem sub_write {writeCount : Nat} (hstate : state < 2 ^ 64) (hle : writeCount ≤ decodeWriteCount state) :
    sub64 state (mul64 WRITE_UNIT writeCount) < 2 ^ 64 ∧
      decodeWriteCount (sub64 state (mul64 WRITE_UNIT writeCount)) = decodeWriteCount state - writeCount ∧
      decodeShareCount (sub64 state (mul64 WRITE_UNIT writeCount)) = decodeShareCount state := by
  simp only [decodeWriteCount_eq, decodeShareCount_eq] at hle ⊢
  rw [write_unit_mul (by omega), sub64_eq (by omega) hstate]
  omega

end Decode

/-! ## What a control point stands for -/

/-- A hold that is in the state word and not in the thread's own count, or the other way round. -/
def Pc.owed : Pc → Int
  | .incThread _ => 1
  | .decThread => -1
  | .readUnlockLoad => 1
  | .readUnlockCas _ => 1
  | _ => 0

/-- Has the write lock, and the owner field does not say so. -/
def Pc.acquired : Pc → Bool
  | .storeOwner _ => true
  | .writeUnlockDec _ _ _ => true
  | _ => false

/-- A number of write holds. -/
def Count (writeCount : Nat) : Prop := 1 ≤ writeCount ∧ writeCount < 2 ^ 32

def Ret.Ok (ret : Ret) : Prop := ret ≠ .throw .inconsistent

def Wait.Ok : Wait → Prop
  | .writerWrite writeCount => Count writeCount
  | .writerShare writeCount => Count writeCount
  | _ => True

def Caller.Ok : Caller → Prop
  | .condition writeCount => Count writeCount
  | .user => True

/-- A thread that downgrades has read holds. -/
def Notice.Ok (reads : Int) : Notice → Prop
  | .lastReader => True
  | .downgrade caller => 0 < reads ∧ caller.Ok
  | .fairReaders caller => caller.Ok
  | .fairWriter caller => caller.Ok
  | .unfairWriter caller => caller.Ok
  | .unfairReaders caller => caller.Ok

/-- What a thread may rely on: whether it is the owner, its own read count, and, if it is a writer, the write count. -/
def Pc.Knows (owner : Prop) (reads : Int) (write : Nat) : Pc → Prop
  | .idle ret => ret.Ok
  | .readOwned => owner
  | .readAgain => ¬owner ∧ 0 < reads
  | .readFair currState => decodeWriteCount currState = 0
  | .readCas currState => decodeWriteCount currState = 0
  | .incShareCount ret => (owner ∨ 0 < reads) ∧ ret.Ok
  | .incThread ret => ret.Ok
  | .tryReadCas currState => decodeWriteCount currState = 0
  | .readUnlockOwner => 0 < reads
  | .readUnlockOwned => owner ∧ 0 < reads
  | .decShareCount => owner ∧ 0 < reads
  | .decThread => owner ∧ 0 < reads
  | .readUnlockDec => ¬owner ∧ 0 < reads
  | .readUnlockLoad => ¬owner
  | .readUnlockCas _ => ¬owner
  | .writeOwner writeCount => Count writeCount
  | .writeOwned writeCount => owner ∧ Count writeCount
  | .incWriteCount writeCount ret => owner ∧ Count writeCount ∧ ret.Ok
  | .writeLoad writeCount => Count writeCount
  | .writeWaiting writeCount => Count writeCount
  | .writeWaited writeCount => Count writeCount
  | .writeCas writeCount => Count writeCount
  | .storeOwner ret => ret.Ok
  | .tryWriteOwned => owner
  | .writeUnlockLoad writeCount caller => owner ∧ (1 ≤ writeCount ∧ writeCount ≤ write) ∧ caller.Ok
  | .clearOwner writeCount shared caller =>
    owner ∧ (1 ≤ writeCount ∧ writeCount = write) ∧ (shared = true → 0 < reads) ∧ caller.Ok
  | .writeUnlockDec writeCount shared caller => ¬owner ∧ writeCount = write ∧ (shared = true → 0 < reads) ∧ caller.Ok
  | .decWriteCount writeCount caller => owner ∧ writeCount < write ∧ caller.Ok
  | .conditionCount => owner
  | .conditionSleep writeCount => Count writeCount
  | .waitTest w => w.Ok
  | .waitLock w => w.Ok
  | .waitRetest w => w.Ok
  | .waitAdd w => w.Ok
  | .waitUnlock w => w.Ok
  | .waitLeave w => w.Ok
  | .asleep w => w.Ok
  | .woken w => w.Ok
  | .notifyLock n => ¬owner ∧ n.Ok reads
  | .notifyPop n _ => ¬owner ∧ n.Ok reads
  | .notifyUnlock n _ => ¬owner ∧ n.Ok reads
  | _ => True

/-- Who is no writer does not rely on the write count. -/
theorem Pc.Knows.write {c : Pc} {owner : Prop} {reads : Int} {write write' : Nat} (h : c.Knows owner reads write)
    (howner : ¬owner) (hacquired : c.acquired = false) : c.Knows owner reads write' := by
  cases c with
  | writeUnlockLoad | clearOwner | decWriteCount => exact absurd h.1 howner
  | writeUnlockDec => exact nomatch hacquired
  | _ => exact h

theorem Wait.after_knows {w : Wait} (h : w.Ok) (owner : Prop) (reads : Int) (write : Nat) :
    w.after.Knows owner reads write := by
  cases w <;> exact h

theorem Caller.after_knows {caller : Caller} (h : caller.Ok) (owner : Prop) (reads : Int) (write : Nat) :
    caller.after.Knows owner reads write := by
  cases caller with
  | user => exact nofun
  | condition => exact h

theorem Notice.after_knows {n : Notice} {owner : Prop} {reads : Int} (hnot : ¬owner) (h : n.Ok reads) (found : Bool)
    (write : Nat) : (n.after found).Knows owner reads write := by
  cases n with
  | lastReader => exact nofun
  | downgrade caller => exact Caller.after_knows h.2 _ _ _
  | fairWriter caller | unfairReaders caller => exact Caller.after_knows h _ _ _
  | fairReaders caller | unfairWriter caller =>
    cases found
    · exact ⟨hnot, h⟩
    · exact Caller.after_knows h _ _ _

/-! ## The invariant -/

section Inv

variable {T : Type}

/-- From the compare-and-swap that takes the write lock to the subtraction that gives it back. -/
def IsWriter (ids : ThreadIds T) (s : State T) (t : T) : Prop := s.writeOwner = ids.id t ∨ (s.pc t).acquired = true

/-- The read holds of a thread. -/
def readHolds (s : State T) (t : T) : Int := (s.threadReadCount t).getD 0 + (s.pc t).owed

structure Inv [Fintype T] (ids : ThreadIds T) (s : State T) : Prop where
  word : s.state < 2 ^ 64
  /-- A writer is alone. -/
  alone : ∀ {t}, IsWriter ids s t → 0 < decodeWriteCount s.state ∧ ∀ u, u ≠ t → ¬IsWriter ids s u ∧ readHolds s u = 0
  free : (∀ t, ¬IsWriter ids s t) → decodeWriteCount s.state = 0
  sum : (decodeShareCount s.state : Int) = ∑ t, readHolds s t
  nonneg : ∀ t, 0 ≤ (s.threadReadCount t).getD 0
  knows : ∀ t, (s.pc t).Knows (s.writeOwner = ids.id t) ((s.threadReadCount t).getD 0) (decodeWriteCount s.state)

/-- What `t` knows at `c` is so in `s`. -/
abbrev Pc.KnowsIn (ids : ThreadIds T) (s : State T) (t : T) (c : Pc) : Prop :=
  c.Knows (s.writeOwner = ids.id t) ((s.threadReadCount t).getD 0) (decodeWriteCount s.state)

variable [Fintype T] {ids : ThreadIds T}

theorem inv_newLock : Inv ids (newLock : State T) where
  word := Nat.two_pow_pos 64
  alone := by
    rintro t (howner | hacquired)
    · exact absurd howner (ids.pos t).ne
    · exact nomatch hacquired
  free _ := show decodeWriteCount 0 = 0 by decide
  sum := by
    have hzero : ∑ t : T, readHolds newLock t = 0 := Finset.sum_eq_zero fun _ _ => rfl
    rw [hzero]
    exact congrArg Nat.cast (show decodeShareCount 0 = 0 by decide)
  nonneg _ := Int.le_refl 0
  knows _ := nofun

variable {s : State T} {t u : T} {c : Pc}

omit [Fintype T] in
theorem holds_at (hpc : s.pc t = c) : readHolds s t = (s.threadReadCount t).getD 0 + c.owed := by
  rw [readHolds, hpc]

omit [Fintype T] in
theorem not_writer_at (hpc : s.pc t = c) (hacquired : c.acquired = false) (hnot : s.writeOwner ≠ ids.id t) :
    ¬IsWriter ids s t := by
  rintro (ho | ha)
  · exact hnot ho
  · rw [hpc, hacquired] at ha
    cases ha

variable (hi : Inv ids s)
include hi

theorem Inv.knows_at (hpc : s.pc t = c) :
    c.KnowsIn ids s t :=
  hpc ▸ hi.knows t

/-- Who is no writer does not rely on the write count. -/
theorem Inv.knows_write (hnot : ¬IsWriter ids s t) (write : Nat) :
    (s.pc t).Knows (s.writeOwner = ids.id t) ((s.threadReadCount t).getD 0) write :=
  (hi.knows t).write (fun ho => hnot (Or.inl ho)) (Bool.eq_false_iff.mpr fun ha => hnot (Or.inr ha))

theorem Inv.holds_nonneg (t : T) : 0 ≤ readHolds s t := by
  have hnonneg := hi.nonneg t
  have hknows := hi.knows t
  unfold readHolds
  generalize s.pc t = c at hknows ⊢
  cases c with
  | decThread => exact Int.sub_nonneg.mpr hknows.2
  | incThread | readUnlockLoad | readUnlockCas => exact Int.le_add_one hnonneg
  | _ => exact (Int.add_zero _).symm ▸ hnonneg

theorem Inv.holds_le_share (t : T) : readHolds s t ≤ decodeShareCount s.state := by
  rw [hi.sum]
  exact Finset.single_le_sum (f := readHolds s) (fun u _ => hi.holds_nonneg u) (Finset.mem_univ t)

/-- A thread with a read hold that is no writer keeps writers out. -/
theorem Inv.no_writer (hnot : ¬IsWriter ids s t) (hpos : 0 < readHolds s t) (u : T) : ¬IsWriter ids s u := by
  intro hu
  have hut : t ≠ u := by
    rintro rfl
    exact hnot hu
  have hzero := ((hi.alone hu).2 t hut).2
  omega

/-- The shares of a writer's state word are its own. -/
theorem Inv.share_of_writer (hw : IsWriter ids s t) : (decodeShareCount s.state : Int) = readHolds s t := by
  rw [hi.sum]
  exact Finset.sum_eq_single t (fun u _ hu => ((hi.alone hw).2 u hu).2) fun hnot => absurd (Finset.mem_univ t) hnot

end Inv

/-! ## Steps of one thread -/

section Change

variable {T : Type} {s s' : State T} {t u : T}

/-- The other threads are where they were, up to a notification. -/
def Same (s s' : State T) (t : T) : Prop :=
  ∀ u, u ≠ t → s'.threadReadCount u = s.threadReadCount u ∧
    (s'.pc u = s.pc u ∨ ∃ w, s.pc u = .asleep w ∧ s'.pc u = .woken w)

theorem Same.acquired (h : Same s s' t) (hu : u ≠ t) : (s'.pc u).acquired = (s.pc u).acquired := by
  rcases (h u hu).2 with hpc | ⟨w, hpc, hpc'⟩
  · rw [hpc]
  · rw [hpc, hpc']
    rfl

theorem Same.holds (h : Same s s' t) (hu : u ≠ t) : readHolds s' u = readHolds s u := by
  unfold readHolds
  rw [(h u hu).1]
  rcases (h u hu).2 with hpc | ⟨w, hpc, hpc'⟩
  · rw [hpc]
  · rw [hpc, hpc']
    rfl

theorem Same.knows (h : Same s s' t) (hu : u ≠ t) {owner : Prop} {reads : Int} {write : Nat}
    (hknows : (s.pc u).Knows owner reads write) : (s'.pc u).Knows owner reads write := by
  rcases (h u hu).2 with hpc | ⟨w, hpc, hpc'⟩
  · rw [hpc]
    exact hknows
  · rw [hpc']
    rw [hpc] at hknows
    exact hknows

variable [Fintype T] [DecidableEq T] {ids : ThreadIds T} {c c₀ : Pc}

omit [Fintype T] in
/-- One thread moves, and no own count changes. -/
theorem Same.of_move (hpc : s'.pc = update s.pc t c) (hcount : s'.threadReadCount = s.threadReadCount) :
    Same s s' t := by
  intro u hu
  rw [hpc, hcount]
  exact ⟨rfl, Or.inl (update_of_ne hu ..)⟩

variable (hi : Inv ids s)
include hi

/-- The parts of the invariant that do not tell who is a writer: a thread that is one sees the write count it knows. -/
theorem Inv.step (hsame : Same s s' t) (hword : s'.state < 2 ^ 64)
    (hshare : (decodeShareCount s'.state : Int) + readHolds s t = decodeShareCount s.state + readHolds s' t)
    (hnonneg : 0 ≤ (s'.threadReadCount t).getD 0)
    (hknows : (s'.pc t).Knows (s'.writeOwner = ids.id t) ((s'.threadReadCount t).getD 0) (decodeWriteCount s'.state))
    (howner : ∀ u, u ≠ t → (s'.writeOwner = ids.id u ↔ s.writeOwner = ids.id u))
    (hwrite : ∀ u, u ≠ t → IsWriter ids s u → decodeWriteCount s'.state = decodeWriteCount s.state)
    (halone : ∀ {v}, IsWriter ids s' v →
      0 < decodeWriteCount s'.state ∧ ∀ u, u ≠ v → ¬IsWriter ids s' u ∧ readHolds s' u = 0)
    (hfree : (∀ v, ¬IsWriter ids s' v) → decodeWriteCount s'.state = 0) : Inv ids s' := by
  refine ⟨hword, halone, hfree, ?_, fun u => ?_, fun u => ?_⟩
  · have hsum := sum_update (f := readHolds s) (g := readHolds s') t fun u hu => hsame.holds hu
    have hbefore := hi.sum
    omega
  · by_cases hu : u = t
    · exact hu ▸ hnonneg
    · exact (hsame u hu).1 ▸ hi.nonneg u
  · by_cases hu : u = t
    · exact hu ▸ hknows
    · rw [(hsame u hu).1, propext (howner u hu)]
      apply hsame.knows hu
      by_cases hw : IsWriter ids s u
      · exact hwrite u hu hw ▸ hi.knows u
      · exact hi.knows_write hw _

/-- **A step after which the same threads are writers.** A thread that changes the write count is the writer, and a
    thread that has read holds afterwards is alone or there is no writer. -/
theorem Inv.change (hsame : Same s s' t) (howner : s'.writeOwner = s.writeOwner)
    (hacquired : (s'.pc t).acquired = (s.pc t).acquired) (hword : s'.state < 2 ^ 64)
    (hwrite : 0 < decodeWriteCount s'.state ↔ 0 < decodeWriteCount s.state)
    (hmine : IsWriter ids s t ∨ decodeWriteCount s'.state = decodeWriteCount s.state)
    (hshare : (decodeShareCount s'.state : Int) + readHolds s t = decodeShareCount s.state + readHolds s' t)
    (hholds : ∀ u, u ≠ t → IsWriter ids s u → readHolds s' t = 0)
    (hnonneg : 0 ≤ (s'.threadReadCount t).getD 0)
    (hknows : (s'.pc t).Knows (s.writeOwner = ids.id t) ((s'.threadReadCount t).getD 0) (decodeWriteCount s'.state)) :
    Inv ids s' := by
  have hwriter : ∀ u, IsWriter ids s' u ↔ IsWriter ids s u := by
    intro u
    unfold IsWriter
    rw [howner]
    by_cases hu : u = t
    · rw [hu, hacquired]
    · rw [hsame.acquired hu]
  refine hi.step hsame hword hshare hnonneg (howner ▸ hknows) (fun u _ => by rw [howner]) ?_ ?_ ?_
  · exact fun u hu hw => hmine.resolve_left fun ht => ((hi.alone ht).2 u hu).1 hw
  · intro v hv
    obtain ⟨hpos, hothers⟩ := hi.alone ((hwriter v).mp hv)
    refine ⟨hwrite.mpr hpos, fun u hu => ⟨fun hwu => (hothers u hu).1 ((hwriter u).mp hwu), ?_⟩⟩
    by_cases hut : u = t
    · subst hut
      exact hholds v hu.symm ((hwriter v).mp hv)
    · exact (hsame.holds hut).trans (hothers u hu).2
  · intro hnone
    have hzero := hi.free fun u hu => hnone u ((hwriter u).mpr hu)
    exact Nat.eq_zero_of_not_pos fun hpos => absurd (hwrite.mp hpos) (hzero ▸ Nat.lt_irrefl 0)

/-- A step that touches none of the variables. -/
theorem Inv.plain (hsame : Same s s' t) (hpc : s.pc t = c₀) (hpc' : s'.pc t = c) (hstate : s'.state = s.state)
    (howner : s'.writeOwner = s.writeOwner) (hcount : s'.threadReadCount t = s.threadReadCount t)
    (hacquired : c.acquired = c₀.acquired) (howed : c.owed = c₀.owed)
    (hknows : c.KnowsIn ids s t) : Inv ids s' := by
  have hholds : readHolds s' t = readHolds s t := by
    rw [holds_at hpc, holds_at hpc', hcount, howed]
  apply hi.change hsame howner
  · rw [hpc, hpc', hacquired]
  · exact hstate ▸ hi.word
  · rw [hstate]
  · exact Or.inr (by rw [hstate])
  · rw [hstate, hholds]
  · exact fun u hu hw => hholds.trans ((hi.alone hw).2 t hu.symm).2
  · exact hcount ▸ hi.nonneg t
  · rw [hpc', hcount, hstate]
    exact hknows

/-- A step of one thread that moves to `c`, with its new own count. -/
theorem Inv.move {count : Option Int} (hpc : s.pc t = c₀) (hmove : s'.pc = update s.pc t c)
    (hcount : s'.threadReadCount = update s.threadReadCount t count) (howner : s'.writeOwner = s.writeOwner)
    (hacquired : c.acquired = c₀.acquired) (hword : s'.state < 2 ^ 64)
    (hwrite : 0 < decodeWriteCount s'.state ↔ 0 < decodeWriteCount s.state)
    (hmine : IsWriter ids s t ∨ decodeWriteCount s'.state = decodeWriteCount s.state)
    (hshare : (decodeShareCount s'.state : Int) + readHolds s t = decodeShareCount s.state + (count.getD 0 + c.owed))
    (hholds : ∀ u, u ≠ t → IsWriter ids s u → count.getD 0 + c.owed = 0) (hnonneg : 0 ≤ count.getD 0)
    (hknows : c.Knows (s.writeOwner = ids.id t) (count.getD 0) (decodeWriteCount s'.state)) : Inv ids s' := by
  have hpct : s'.pc t = c := hmove ▸ update_self ..
  have hcountt : s'.threadReadCount t = count := hcount ▸ update_self ..
  have hsame : Same s s' t := by
    intro u hu
    rw [hmove, hcount]
    exact ⟨update_of_ne hu .., Or.inl (update_of_ne hu ..)⟩
  have hholdst : readHolds s' t = count.getD 0 + c.owed := by
    rw [holds_at hpct, hcountt]
  apply hi.change hsame howner _ hword hwrite hmine
  · exact hholdst ▸ hshare
  · exact hholdst ▸ hholds
  · exact hcountt ▸ hnonneg
  · rw [hpct, hcountt]
    exact hknows
  · rw [hpct, hpc, hacquired]

/-- A step that changes the state word only. -/
theorem Inv.moveWord {state : Nat} (hpc : s.pc t = c₀) (hacquired : c.acquired = c₀.acquired)
    (hword : state < 2 ^ 64) (hwrite : 0 < decodeWriteCount state ↔ 0 < decodeWriteCount s.state)
    (hmine : IsWriter ids s t ∨ decodeWriteCount state = decodeWriteCount s.state)
    (hshare : (decodeShareCount state : Int) + c₀.owed = decodeShareCount s.state + c.owed)
    (hholds : ∀ u, u ≠ t → IsWriter ids s u → (s.threadReadCount t).getD 0 + c.owed = 0)
    (hknows : c.Knows (s.writeOwner = ids.id t) ((s.threadReadCount t).getD 0) (decodeWriteCount state)) :
    Inv ids ({ s with state := state }.goto t c) := by
  have hcount : ({ s with state := state }.goto t c).threadReadCount =
      update s.threadReadCount t (s.threadReadCount t) := (update_eq_self t _).symm
  apply hi.move hpc rfl hcount rfl hacquired hword hwrite hmine _ hholds (hi.nonneg t) hknows
  rw [holds_at hpc]
  show (decodeShareCount state : Int) + _ = _
  omega

/-- A move that touches none of the variables. The lists, the monitors and `waitingWriters` are no part of the
    invariant. -/
theorem Inv.atList (hpc : s.pc t = c₀) (hstate : s'.state = s.state) (howner : s'.writeOwner = s.writeOwner)
    (hcount : s'.threadReadCount = s.threadReadCount) (hmove : s'.pc = update s.pc t c)
    (hacquired : c.acquired = c₀.acquired) (howed : c.owed = c₀.owed)
    (hknows : c.KnowsIn ids s t) : Inv ids s' :=
  hi.plain (.of_move hmove hcount) hpc (hmove ▸ update_self ..) hstate howner (congrFun hcount t) hacquired howed hknows

theorem Inv.at (hpc : s.pc t = c₀) (hacquired : c.acquired = c₀.acquired) (howed : c.owed = c₀.owed)
    (hknows : c.KnowsIn ids s t) :
    Inv ids (s.goto t c) :=
  hi.atList hpc rfl rfl rfl rfl hacquired howed hknows

end Change

section Steps

variable {T : Type} [Fintype T] [DecidableEq T] {ids : ThreadIds T} {s : State T} {t : T} {ret : Ret}
  {currState writeCount : Nat}
  {retry c c₀ : Pc} {s' : State T} {shared isFair : Bool} {caller : Caller}

variable (hi : Inv ids s)
include hi

omit [DecidableEq T] in
/-- The owner is a writer. -/
theorem Inv.owner_write (howner : s.writeOwner = ids.id t) : 0 < decodeWriteCount s.state :=
  (hi.alone (Or.inl howner)).1

/-! ### Steps on the share count -/

variable (hpc : s.pc t = c₀)
include hpc

/-- A compare-and-swap or an addition that takes a read hold. -/
theorem Inv.takeShare (hfits : decodeShareCount s.state + 1 < 2 ^ 32)
    (hacquired : c₀.acquired = false) (howed : c₀.owed = 0) (hret : ret.Ok) (hfree : ∀ u, u ≠ t → ¬IsWriter ids s u) :
    Inv ids ({ s with state := add64 s.state SHARE_UNIT }.goto t (.incThread ret)) := by
  obtain ⟨hword, hwrite, hshare⟩ := add_share hfits
  apply hi.moveWord hpc (c := .incThread ret) hacquired.symm hword (by rw [hwrite]) (Or.inr hwrite)
  · rw [hshare, howed]
    show _ = _ + (1 : Int)
    omega
  · exact fun u hu hw => absurd hw (hfree u hu)
  · exact hret

theorem stepShareCas_inv (hacquired : c₀.acquired = false) (howed : c₀.owed = 0)
    (hret : ret.Ok) (hcurr : decodeWriteCount currState = 0) (hfits : decodeShareCount s.state + 1 < 2 ^ 32)
    (hretry : retry = .readLoad ∨ retry = .tryReadLoad) : Inv ids (stepShareCas s t currState ret retry) := by
  unfold stepShareCas
  rw [if_neg (not_not.mpr hcurr)]
  split_ifs with hcas
  · rw [← hcas]
    apply hi.takeShare hpc hfits hacquired howed hret
    intro u _ hw
    have hpos := (hi.alone hw).1
    rw [hcas, hcurr] at hpos
    exact Nat.lt_irrefl 0 hpos
  · rcases hretry with rfl | rfl <;> exact hi.at hpc hacquired.symm howed.symm trivial

omit hpc in
/-- The thread's own count follows. -/
theorem incThread_inv (hpc : s.pc t = .incThread ret) :
    Inv ids ((s.incThreadReadCount t).goto t (.idle ret)) := by
  -- the hold is now in both places
  have hholds : (some (s.getThreadReadCount t + 1)).getD 0 + (Pc.idle ret).owed = readHolds s t :=
    (Int.add_zero _).trans (holds_at hpc).symm
  refine hi.move hpc rfl rfl rfl rfl hi.word Iff.rfl (Or.inr rfl) (by rw [hholds]; rfl) ?_ ?_ (hi.knows_at hpc)
  · exact fun u hu hw => hholds.trans ((hi.alone hw).2 t hu.symm).2
  · exact Int.le_add_one (hi.nonneg t)

omit hpc hi in
/-- The count after `decThreadReadCount`. -/
theorem dec_getD {count : Option Int} (hpos : 0 < count.getD 0) : (count.map (· - 1)).getD 0 = count.getD 0 - 1 := by
  cases count with
  | none => exact absurd hpos (lt_irrefl 0)
  | some v => rfl

/-- A step that decrements the thread's own count, before or after the share count. -/
theorem Inv.decCount (hacquired : c.acquired = c₀.acquired)
    (howed : c.owed = c₀.owed + 1) (hpos : 0 < (s.threadReadCount t).getD 0)
    (hknows : c.Knows (s.writeOwner = ids.id t) ((s.threadReadCount t).getD 0 - 1) (decodeWriteCount s.state)) :
    Inv ids ((s.decThreadReadCount t).goto t c) := by
  have hcount := dec_getD hpos
  have hholds : ((s.threadReadCount t).map (· - 1)).getD 0 + c.owed = readHolds s t := by
    rw [holds_at hpc, hcount, howed]
    omega
  refine hi.move hpc rfl rfl rfl hacquired hi.word Iff.rfl (Or.inr rfl) (by rw [hholds]; rfl) ?_ ?_ ?_
  · exact fun u hu hw => hholds.trans ((hi.alone hw).2 t hu.symm).2
  · omega
  · rw [hcount]
    exact hknows

/-- A step that gives a share back. -/
theorem Inv.giveShare (hacquired : c.acquired = c₀.acquired)
    (howed : c.owed = c₀.owed - 1) (hholds : 0 < readHolds s t)
    (hknows : c.KnowsIn ids s t) :
    Inv ids ({ s with state := sub64 s.state SHARE_UNIT }.goto t c) := by
  have hle := hi.holds_le_share t
  obtain ⟨hword, hwrite, hsub⟩ := sub_share hi.word (show 0 < decodeShareCount s.state by omega)
  apply hi.moveWord hpc hacquired hword (by rw [hwrite]) (Or.inr hwrite)
  · omega
  · intro u hu hw
    have hzero := ((hi.alone hw).2 t hu.symm).2
    omega
  · rw [hwrite]
    exact hknows

/-! ### Steps of a writer -/

/-- Any number of write holds more or less, of a thread that keeps at least one. -/
theorem Inv.changeWrite {state : Nat} (howner : s.writeOwner = ids.id t)
    (hword : state < 2 ^ 64) (hpos : 0 < decodeWriteCount state)
    (hshare : decodeShareCount state = decodeShareCount s.state) (hacquired : c.acquired = c₀.acquired)
    (howed : c.owed = c₀.owed)
    (hknows : c.Knows (s.writeOwner = ids.id t) ((s.threadReadCount t).getD 0) (decodeWriteCount state)) :
    Inv ids ({ s with state := state }.goto t c) := by
  have hw : IsWriter ids s t := Or.inl howner
  apply hi.moveWord hpc hacquired hword (iff_of_true hpos (hi.owner_write howner)) (Or.inl hw)
  · rw [hshare, howed]
  · exact fun u hu hu' => absurd hu' ((hi.alone hw).2 u hu).1
  · exact hknows

/-- A move after which `t` is the only writer, and its holds are as before. -/
theorem Inv.onlyWriter (hmove : s'.pc = update s.pc t c)
    (hcount : s'.threadReadCount = s.threadReadCount) (hword : s'.state < 2 ^ 64)
    (hshare : decodeShareCount s'.state = decodeShareCount s.state) (hpos : 0 < decodeWriteCount s'.state)
    (hwriter : s'.writeOwner = ids.id t ∨ c.acquired = true) (howner : ∀ u, u ≠ t → s'.writeOwner ≠ ids.id u)
    (hothers : ∀ u, u ≠ t → ¬IsWriter ids s u ∧ readHolds s u = 0) (howed : c.owed = c₀.owed)
    (hknows : c.Knows (s'.writeOwner = ids.id t) ((s.threadReadCount t).getD 0) (decodeWriteCount s'.state)) :
    Inv ids s' := by
  have hsame := Same.of_move hmove hcount
  have hpc' : s'.pc t = c := hmove ▸ update_self ..
  have hnot : ∀ u, u ≠ t → ¬IsWriter ids s' u := by
    rintro u hu (ho | ha)
    · exact howner u hu ho
    · exact (hothers u hu).1 (Or.inr (hsame.acquired hu ▸ ha))
  apply hi.step hsame hword
  · rw [hshare, holds_at hpc, holds_at hpc', hcount, howed]
  · exact hcount ▸ hi.nonneg t
  · rw [hpc', hcount]
    exact hknows
  · exact fun u hu => iff_of_false (howner u hu) fun ho => (hothers u hu).1 (Or.inl ho)
  · exact fun u hu hw => absurd hw (hothers u hu).1
  · intro v hv
    have hvt : v = t := by
      by_contra hne
      exact hnot v hne hv
    subst hvt
    exact ⟨hpos, fun u hu => ⟨hnot u hu, (hsame.holds hu).trans (hothers u hu).2⟩⟩
  · exact fun hno => absurd (hwriter.imp id fun ha => hpc' ▸ ha) (hno t)

/-- The compare-and-swap that takes the write lock: there was no hold at all. -/
theorem stepWriteCas_inv (hacquired : c₀.acquired = false) (howed : c₀.owed = 0)
    (hcount : Count writeCount) (hret : ret.Ok) (hretry : retry = .writeLoad writeCount ∨ retry = .tryWriteLoad) :
    Inv ids (stepWriteCas s t writeCount ret retry) := by
  unfold stepWriteCas
  split_ifs with hzero
  · rw [write_unit_mul hcount.2]
    obtain ⟨hshare, hwrite⟩ := decode_zero_iff.mp hzero
    have hnone : ∀ u, ¬IsWriter ids s u := fun u hu => absurd (hi.alone hu).1 (hwrite ▸ Nat.lt_irrefl 0)
    have hholds : ∀ u, readHolds s u = 0 := by
      intro u
      have hle := hi.holds_le_share u
      rw [hshare] at hle
      exact le_antisymm hle (hi.holds_nonneg u)
    have hnew : decodeWriteCount writeCount = writeCount ∧ decodeShareCount writeCount = 0 := by
      have hlt := hcount.2
      rw [decodeWriteCount_eq, decodeShareCount_eq]
      omega
    refine hi.onlyWriter hpc rfl rfl ?_ ?_ ?_ (Or.inr rfl) (fun u _ ho => hnone u (Or.inl ho))
      (fun u _ => ⟨hnone u, hholds u⟩)
      howed.symm hret
    · exact hcount.2.trans (by decide)
    · exact hnew.2.trans hshare.symm
    · exact hnew.1.symm ▸ hcount.1
  · rcases hretry with rfl | rfl
    · exact hi.at hpc hacquired.symm howed.symm hcount
    · exact hi.at hpc hacquired.symm howed.symm trivial

omit hpc

theorem storeOwner_inv (hpc : s.pc t = .storeOwner ret) :
    Inv ids ({ s with writeOwner := ids.id t }.goto t (.idle ret)) := by
  have hw : IsWriter ids s t := Or.inr (by rw [hpc]; rfl)
  exact hi.onlyWriter hpc rfl rfl hi.word rfl (hi.alone hw).1 (Or.inl rfl) (fun u hu heq => hu (ids.inj heq).symm)
    (hi.alone hw).2 rfl (hi.knows_at hpc)

omit hi [Fintype T] [DecidableEq T] in
theorem no_thread_ne (ids : ThreadIds T) (u : T) : NO_THREAD ≠ ids.id u := by
  have hpos := ids.pos u
  unfold NO_THREAD
  omega

theorem clearOwner_inv (hpc : s.pc t = .clearOwner writeCount shared caller) :
    Inv ids ({ s with writeOwner := NO_THREAD }.goto t (.writeUnlockDec writeCount shared caller)) := by
  obtain ⟨howner, ⟨-, hcount⟩, hshared⟩ := hi.knows_at hpc
  have hw : IsWriter ids s t := Or.inl howner
  exact hi.onlyWriter hpc rfl rfl hi.word rfl (hi.alone hw).1 (Or.inr rfl) (fun u _ => no_thread_ne ids u)
    (hi.alone hw).2 rfl
    ⟨no_thread_ne ids t, hcount, hshared⟩

/-- The subtraction that gives the write lock back. -/
theorem writeUnlockDec_inv (isFair : Bool)
    (hpc : s.pc t = .writeUnlockDec writeCount shared caller) :
    Inv ids ({ s with state := sub64 s.state (mul64 WRITE_UNIT writeCount) }.goto t
      (.notifyLock (unlockNotice isFair shared caller))) := by
  obtain ⟨hnot, hcount, hshared, hcaller⟩ := hi.knows_at hpc
  have hothers := (hi.alone (Or.inr (by rw [hpc]; rfl) : IsWriter ids s t)).2
  obtain ⟨hword, hwrite, hshare⟩ := sub_write hi.word hcount.le
  rw [hcount, Nat.sub_self, ← hcount] at hwrite
  generalize hs' : ({ s with state := sub64 s.state (mul64 WRITE_UNIT writeCount) } : State T).goto t
    (.notifyLock (unlockNotice isFair shared caller)) = s'
  have hmove : s'.pc = update s.pc t (.notifyLock (unlockNotice isFair shared caller)) := hs' ▸ rfl
  have hpc' : s'.pc t = .notifyLock (unlockNotice isFair shared caller) := hmove ▸ update_self ..
  have hsame : Same s s' t := .of_move hmove (hs' ▸ rfl)
  have hstate : s'.state = sub64 s.state (mul64 WRITE_UNIT writeCount) := hs' ▸ rfl
  have howner : s'.writeOwner = s.writeOwner := hs' ▸ rfl
  have hcounts : s'.threadReadCount t = s.threadReadCount t := hs' ▸ rfl
  have hnone : ∀ u, ¬IsWriter ids s' u := by
    intro u
    by_cases hu : u = t
    · subst hu
      exact not_writer_at hpc' rfl (howner ▸ hnot)
    · rintro (ho | ha)
      · exact (hothers u hu).1 (Or.inl (howner ▸ ho))
      · exact (hothers u hu).1 (Or.inr (hsame.acquired hu ▸ ha))
  apply hi.step hsame (hstate ▸ hword)
  · rw [hstate, hshare, holds_at hpc, holds_at hpc', hcounts]
    rfl
  · exact hcounts ▸ hi.nonneg t
  · rw [hpc', hcounts, howner]
    refine ⟨hnot, ?_⟩
    unfold unlockNotice
    cases shared with
    | true => exact ⟨hshared rfl, hcaller⟩
    | false => cases isFair <;> exact hcaller
  · exact fun u _ => by rw [howner]
  · exact fun u hu hw => absurd hw (hothers u hu).1
  · exact fun hv => absurd hv (hnone _)
  · exact fun _ => hstate ▸ hwrite

/-! ### All steps -/

omit hi

variable (hi : Inv ids s)
include hi

theorem stepReadOwner_inv (hpc : s.pc t = .readOwner) : Inv ids (stepReadOwner ids s t) := by
  unfold stepReadOwner
  split_ifs with howner hpos
  · exact hi.at hpc rfl rfl howner
  · exact hi.at hpc rfl rfl ⟨howner, hpos⟩
  · exact hi.at hpc rfl rfl trivial

theorem stepReadOwned_inv (hpc : s.pc t = .readOwned) : Inv ids (stepReadOwned s t) := by
  have howner := hi.knows_at hpc
  unfold stepReadOwned
  rw [if_neg (Nat.not_lt.mpr (hi.owner_write howner))]
  exact hi.at hpc rfl rfl ⟨Or.inl howner, nofun⟩

omit [DecidableEq T] in
/-- A thread that is no writer and has read holds finds shares and no writer. -/
theorem Inv.consistent (hnot : ¬IsWriter ids s t) (hholds : 0 < readHolds s t) :
    ¬(decodeShareCount s.state = 0 ∨ decodeWriteCount s.state ≠ 0) := by
  have hle := hi.holds_le_share t
  have hwrite := hi.free (hi.no_writer hnot hholds)
  omega

theorem stepReadAgain_inv (hpc : s.pc t = .readAgain) : Inv ids (stepReadAgain s t) := by
  obtain ⟨hnot, hreads⟩ := hi.knows_at hpc
  have hholds : 0 < readHolds s t := by
    rw [holds_at hpc]
    exact (Int.add_zero _).symm ▸ hreads
  unfold stepReadAgain
  rw [if_neg (hi.consistent (not_writer_at hpc rfl hnot) hholds)]
  exact hi.at hpc rfl rfl ⟨Or.inr hreads, nofun⟩

theorem stepReadLoad_inv (isFair : Bool) (hpc : s.pc t = .readLoad) : Inv ids (stepReadLoad isFair s t) := by
  unfold stepReadLoad
  split_ifs with hwrite
  · exact hi.at hpc rfl rfl trivial
  all_goals exact hi.at hpc rfl rfl (Nat.eq_zero_of_not_pos hwrite)

theorem stepReadFair_inv (hpc : s.pc t = .readFair currState) : Inv ids (stepReadFair s t currState) := by
  have hknows := hi.knows_at hpc
  unfold stepReadFair
  split_ifs with hwaiting
  · exact hi.at hpc rfl rfl trivial
  · exact hi.at hpc rfl rfl hknows

theorem incShareCount_inv (hpc : s.pc t = .incShareCount ret) (hfits : decodeShareCount s.state + 1 < 2 ^ 32) :
    Inv ids ({ s with state := add64 s.state SHARE_UNIT }.goto t (.incThread ret)) := by
  obtain ⟨howner | hreads, hret⟩ := hi.knows_at hpc
  · exact hi.takeShare hpc hfits rfl rfl hret fun u hu => ((hi.alone (Or.inl howner)).2 u hu).1
  · apply hi.takeShare hpc hfits rfl rfl hret
    intro u hu hw
    -- a reader keeps other writers out
    have hzero := ((hi.alone hw).2 t hu.symm).2
    rw [holds_at hpc] at hzero
    exact hreads.ne' ((Int.add_zero _).symm.trans hzero)

theorem stepTryReadLoad_inv (hpc : s.pc t = .tryReadLoad) : Inv ids (stepTryReadLoad s t) := by
  unfold stepTryReadLoad
  split_ifs with hwrite
  · exact hi.at hpc rfl rfl nofun
  · exact hi.at hpc rfl rfl (Nat.eq_zero_of_not_pos hwrite)

theorem stepReadUnlockOwned_inv (hpc : s.pc t = .readUnlockOwned) : Inv ids (stepReadUnlockOwned s t) := by
  obtain ⟨howner, hreads⟩ := hi.knows_at hpc
  have hshare := hi.holds_le_share t
  have hwrite := hi.owner_write howner
  have howed : Pc.readUnlockOwned.owed = 0 := rfl
  rw [holds_at hpc] at hshare
  unfold stepReadUnlockOwned
  rw [if_neg (by omega)]
  exact hi.at hpc rfl rfl ⟨howner, hreads⟩

theorem decShareCount_inv (hpc : s.pc t = .decShareCount) :
    Inv ids ({ s with state := sub64 s.state SHARE_UNIT }.goto t .decThread) := by
  have hknows := hi.knows_at hpc
  refine hi.giveShare hpc (c := .decThread) rfl rfl ?_ hknows
  rw [holds_at hpc]
  exact (Int.add_zero _).symm ▸ hknows.2

omit [DecidableEq T] in
/-- What `readUnlock` relies on after the thread has taken the hold out of its own count. -/
theorem Inv.unlocking (hpc : s.pc t = c) (hc : c = .readUnlockLoad ∨ ∃ v, c = .readUnlockCas v) :
    ¬IsWriter ids s t ∧ 0 < readHolds s t := by
  have hnonneg := hi.nonneg t
  rw [holds_at hpc]
  rcases hc with rfl | ⟨v, rfl⟩
  all_goals exact ⟨not_writer_at hpc rfl (hi.knows_at hpc), Int.lt_add_one_of_le hnonneg⟩

theorem stepReadUnlockLoad_inv (hpc : s.pc t = .readUnlockLoad) : Inv ids (stepReadUnlockLoad s t) := by
  have hknows := hi.knows_at hpc
  obtain ⟨hnot, hholds⟩ := hi.unlocking hpc (Or.inl rfl)
  unfold stepReadUnlockLoad
  rw [if_neg (hi.consistent hnot hholds)]
  exact hi.at hpc rfl rfl hknows

theorem stepReadUnlockCas_inv (hpc : s.pc t = .readUnlockCas currState) :
    Inv ids (stepReadUnlockCas s t currState) := by
  have hknows := hi.knows_at hpc
  obtain ⟨-, hholds⟩ := hi.unlocking hpc (Or.inr ⟨_, rfl⟩)
  unfold stepReadUnlockCas
  split_ifs with hcas hlast
  · exact hcas ▸ hi.giveShare hpc rfl rfl hholds ⟨hknows, trivial⟩
  · exact hcas ▸ hi.giveShare hpc rfl rfl hholds nofun
  · exact hi.at hpc rfl rfl hknows

theorem stepWriteOwner_inv (hpc : s.pc t = .writeOwner writeCount) : Inv ids (stepWriteOwner ids s t writeCount) := by
  have hcount := hi.knows_at hpc
  unfold stepWriteOwner
  split_ifs with howner hreads
  · exact hi.at hpc rfl rfl ⟨howner, hcount⟩
  · exact hi.at hpc rfl rfl nofun
  · exact hi.at hpc rfl rfl hcount

theorem stepWriteOwned_inv (hpc : s.pc t = c)
    (hacquired : c.acquired = false) (howed : c.owed = 0) (howner : s.writeOwner = ids.id t) (hcount : Count writeCount)
    (hret : ret.Ok) : Inv ids (stepWriteOwned s t writeCount ret) := by
  unfold stepWriteOwned
  rw [if_neg (hi.owner_write howner).ne']
  exact hi.at hpc hacquired.symm howed.symm ⟨howner, hcount, hret⟩

theorem incWriteCount_inv (hpc : s.pc t = .incWriteCount writeCount ret)
    (hfits : decodeWriteCount s.state + writeCount < 2 ^ 32) :
    Inv ids ({ s with state := add64 s.state (mul64 WRITE_UNIT writeCount) }.goto t (.idle ret)) := by
  obtain ⟨howner, hcount, hret⟩ := hi.knows_at hpc
  obtain ⟨hword, hwrite, hshare⟩ := add_write hi.word hfits
  have hpos := hi.owner_write howner
  exact hi.changeWrite hpc howner hword (by omega) hshare rfl rfl hret

theorem stepWriteLoad_inv (hpc : s.pc t = .writeLoad writeCount) : Inv ids (stepWriteLoad s t writeCount) := by
  have hcount := hi.knows_at hpc
  unfold stepWriteLoad
  split_ifs with hwrite hshare hstate
  · exact hi.at hpc rfl rfl hcount
  · exact hi.at hpc rfl rfl hcount
  · exact absurd (decode_zero_iff.mpr ⟨Nat.eq_zero_of_not_pos hshare, Nat.eq_zero_of_not_pos hwrite⟩) hstate
  · exact hi.at hpc rfl rfl hcount

theorem stepTryWriteLoad_inv (hpc : s.pc t = .tryWriteLoad) : Inv ids (stepTryWriteLoad s t) := by
  unfold stepTryWriteLoad
  split_ifs with hwrite hshare hstate
  · exact hi.at hpc rfl rfl nofun
  · exact hi.at hpc rfl rfl nofun
  · exact absurd (decode_zero_iff.mpr ⟨Nat.eq_zero_of_not_pos hshare, Nat.eq_zero_of_not_pos hwrite⟩) hstate
  · exact hi.at hpc rfl rfl trivial

theorem stepWriteUnlockLoad_inv (hpc : s.pc t = .writeUnlockLoad writeCount caller) :
    Inv ids (stepWriteUnlockLoad s t writeCount caller) := by
  obtain ⟨howner, ⟨hone, hle⟩, hcaller⟩ := hi.knows_at hpc
  unfold stepWriteUnlockLoad
  split_ifs with hlast
  · refine hi.at hpc rfl rfl ⟨howner, ⟨hone, hlast.symm⟩, fun hshared => ?_, hcaller⟩
    -- the shares are the writer's own
    have hshare := hi.share_of_writer (Or.inl howner : IsWriter ids s t)
    have hpos := of_decide_eq_true hshared
    have howed : (Pc.writeUnlockLoad writeCount caller).owed = 0 := rfl
    rw [holds_at hpc] at hshare
    omega
  · exact hi.at hpc rfl rfl ⟨howner, by omega, hcaller⟩

omit [Fintype T] [DecidableEq T] hi in
theorem Caller.after_plain (caller : Caller) : caller.after.acquired = false ∧ caller.after.owed = 0 := by
  cases caller <;> exact ⟨rfl, rfl⟩

theorem decWriteCount_inv (hpc : s.pc t = .decWriteCount writeCount caller) :
    Inv ids ({ s with state := sub64 s.state (mul64 WRITE_UNIT writeCount) }.goto t caller.after) := by
  obtain ⟨howner, hlt, hcaller⟩ := hi.knows_at hpc
  obtain ⟨hword, hwrite, hshare⟩ := sub_write hi.word hlt.le
  exact hi.changeWrite hpc howner hword (by omega) hshare caller.after_plain.1 caller.after_plain.2
    (Caller.after_knows hcaller _ _ _)

/-- A notification moves two threads. -/
theorem stepNotifyPop_inv {n : Notice} {found : Bool} (hpc : s.pc t = .notifyPop n found)
    (h : stepNotifyPop s t n found = some s') : Inv ids s' := by
  have hknows := hi.knows_at hpc
  revert h
  fun_cases stepNotifyPop s t n found with
  | case1 =>
    rintro ⟨⟩
    exact hi.at hpc rfl rfl hknows
  | case2 current rest hlist w hcurrent =>
    rintro ⟨⟩
    have hne : current ≠ t := by
      rintro rfl
      exact nomatch hcurrent.symm.trans hpc
    refine hi.plain ?_ hpc (update_self ..) rfl rfl rfl ?_ ?_ ?_
    · intro u hu
      refine ⟨rfl, ?_⟩
      by_cases hcu : u = current
      · exact Or.inr ⟨w, hcu ▸ hcurrent, (update_of_ne hu ..).trans (hcu ▸ update_self ..)⟩
      · exact Or.inl ((update_of_ne hu ..).trans (update_of_ne hcu ..))
    all_goals split_ifs
    all_goals first | rfl | exact hknows
  | case3 => nofun

omit hi

theorem next_inv (hi : Inv ids s) (hfits : Fits s (t, .next)) (hpc : s.pc t = c)
    (h : next ids isFair s t c = some s') : Inv ids s' := by
  have hknows := hi.knows_at hpc
  unfold Fits at hfits
  rw [hpc] at hfits
  cases c with
  | idle ret | asleep w => cases h
  | readOwner => cases h; exact stepReadOwner_inv hi hpc
  | readOwned => cases h; exact stepReadOwned_inv hi hpc
  | readAgain => cases h; exact stepReadAgain_inv hi hpc
  | readLoad => cases h; exact stepReadLoad_inv hi isFair hpc
  | readFair currState => cases h; exact stepReadFair_inv hi hpc
  | readCas currState =>
    cases h
    exact stepShareCas_inv hi hpc rfl rfl nofun hknows hfits.1 (Or.inl rfl)
  | incShareCount ret =>
    simp only [next, Option.some.injEq] at h
    subst h
    exact incShareCount_inv hi hpc hfits.1
  | incThread ret => cases h; exact incThread_inv hi hpc
  | tryReadOwner =>
    cases h
    split_ifs with howner
    · exact hi.at hpc rfl rfl ⟨Or.inl howner, nofun⟩
    · exact hi.at hpc rfl rfl trivial
  | tryReadLoad => cases h; exact stepTryReadLoad_inv hi hpc
  | tryReadCas currState =>
    cases h
    exact stepShareCas_inv hi hpc rfl rfl nofun hknows hfits.1 (Or.inr rfl)
  | readUnlockOwner =>
    cases h
    split_ifs with howner
    · exact hi.at hpc rfl rfl ⟨howner, hknows⟩
    · exact hi.at hpc rfl rfl ⟨howner, hknows⟩
  | readUnlockOwned => cases h; exact stepReadUnlockOwned_inv hi hpc
  | decShareCount =>
    simp only [next, Option.some.injEq] at h
    subst h
    exact decShareCount_inv hi hpc
  | decThread => cases h; exact hi.decCount hpc rfl rfl hknows.2 nofun
  | readUnlockDec => cases h; exact hi.decCount hpc rfl rfl hknows.2 hknows.1
  | readUnlockLoad => cases h; exact stepReadUnlockLoad_inv hi hpc
  | readUnlockCas currState => cases h; exact stepReadUnlockCas_inv hi hpc
  | writeOwner writeCount => cases h; exact stepWriteOwner_inv hi hpc
  | writeOwned writeCount => cases h; exact stepWriteOwned_inv hi hpc rfl rfl hknows.1 hknows.2 nofun
  | incWriteCount writeCount ret => cases h; exact incWriteCount_inv hi hpc hfits.2
  | writeLoad writeCount => cases h; exact stepWriteLoad_inv hi hpc
  | writeWaiting writeCount | writeWaited writeCount | waitAdd w | waitUnlock w =>
    cases h; exact hi.atList hpc rfl rfl rfl rfl rfl rfl hknows
  | writeCas writeCount =>
    cases h
    exact stepWriteCas_inv hi hpc rfl rfl hknows nofun (Or.inl rfl)
  | storeOwner ret => cases h; exact storeOwner_inv hi hpc
  | tryWriteOwner =>
    cases h
    split_ifs with howner
    · exact hi.at hpc rfl rfl howner
    · exact hi.at hpc rfl rfl trivial
  | tryWriteOwned => cases h; exact stepWriteOwned_inv hi hpc rfl rfl hknows ⟨Nat.le_refl 1, by decide⟩ nofun
  | tryWriteLoad => cases h; exact stepTryWriteLoad_inv hi hpc
  | tryWriteCas =>
    cases h
    exact stepWriteCas_inv hi hpc rfl rfl ⟨Nat.le_refl 1, by decide⟩ nofun (Or.inr rfl)
  | writeUnlockOwner =>
    cases h
    split_ifs with howner
    · exact hi.at hpc rfl rfl nofun
    · have heq := not_not.mp howner
      exact hi.at hpc rfl rfl ⟨heq, ⟨Nat.le_refl 1, hi.owner_write heq⟩, trivial⟩
  | writeUnlockLoad writeCount caller => cases h; exact stepWriteUnlockLoad_inv hi hpc
  | clearOwner writeCount shared caller => cases h; exact clearOwner_inv hi hpc
  | writeUnlockDec writeCount shared caller => cases h; exact writeUnlockDec_inv hi isFair hpc
  | decWriteCount writeCount caller => cases h; exact decWriteCount_inv hi hpc
  | conditionOwner =>
    cases h
    split_ifs with howner
    · exact hi.at hpc rfl rfl nofun
    · exact hi.at hpc rfl rfl (not_not.mp howner)
  | conditionCount =>
    cases h
    have hpos := hi.owner_write hknows
    exact hi.at hpc rfl rfl ⟨hknows, ⟨hpos, Nat.le_refl _⟩, hpos, decodeWriteCount_lt _⟩
  | conditionSleep writeCount => cases h; exact hi.at hpc rfl rfl hknows
  | waitTest w =>
    cases h
    split_ifs with hpred
    · exact hi.at hpc rfl rfl hknows
    · exact hi.at hpc (by cases w <;> rfl) (by cases w <;> rfl) (Wait.after_knows hknows _ _ _)
  | waitLock w | notifyLock n =>
    obtain ⟨-, h⟩ := Option.ite_none_right_eq_some.mp h
    cases h
    exact hi.atList hpc rfl rfl rfl rfl rfl rfl hknows
  | waitRetest w =>
    cases h
    split_ifs with hpred
    · exact hi.at hpc rfl rfl hknows
    · exact hi.at hpc rfl rfl hknows
  | waitLeave w =>
    cases h
    exact hi.atList hpc rfl rfl rfl rfl (by cases w <;> rfl) (by cases w <;> rfl) (Wait.after_knows hknows _ _ _)
  | woken w => cases h; exact hi.at hpc (by cases w <;> rfl) (by cases w <;> rfl) (Wait.after_knows hknows _ _ _)
  | notifyPop n found => exact stepNotifyPop_inv hi hpc h
  | notifyUnlock n found =>
    cases h
    have hplain : (n.after found).acquired = false ∧ (n.after found).owed = 0 := by
      cases n <;> cases found <;> first | exact ⟨rfl, rfl⟩ | exact Caller.after_plain _
    exact hi.atList hpc rfl rfl rfl rfl hplain.1 hplain.2 (Notice.after_knows hknows.1 hknows.2 _ _)

theorem act_inv {ta : T × Act} (hi : Inv ids s) (hfits : Fits s ta)
    (h : act ids isFair s ta = some s') : Inv ids s' := by
  obtain ⟨t, a⟩ := ta
  unfold act at h
  split at h
  · rename_i c last hentry hpc
    cases h
    cases a with
    | readLock | tryReadLock | tryWriteLock | writeUnlock | conditionWait =>
      cases hentry; exact hi.at hpc rfl rfl trivial
    | readUnlock =>
      cases hentry
      split_ifs with hreads
      · exact hi.at hpc rfl rfl nofun
      · exact hi.at hpc rfl rfl (not_le.mp fun hle => hreads (Int.lt_add_one_of_le hle))
    | writeLock => cases hentry; exact hi.at hpc rfl rfl ⟨Nat.le_refl 1, by decide⟩
    | next => cases hentry
  · exact next_inv hi hfits rfl h
  · cases h

end Steps

/-! ## Whole runs -/

section Runs

variable {T : Type} [Fintype T] [DecidableEq T] {ids : ThreadIds T} {isFair : Bool} {s : State T}

theorem run_inv (hrun : Run (act ids isFair) Fits newLock s) : Inv ids s :=
  run_invariant hrun inv_newLock fun _ _ _ hi hfits h => act_inv hi hfits h

/-- **Readers and writers exclude each other.** In fair and in unfair mode, in every state that any interleaving
    reaches: there is at most one writer; while there is one, no other thread has read holds; the write count is
    positive exactly if there is one. The share count is the sum of the read holds, and so that of the threads' own
    counts whenever no thread is between its two updates. A thread that gives up the write lock and keeps the read lock
    has read holds then and nobody is a writer. No call throws "Inconsistent state". -/
theorem read_write_exclusion (hrun : Run (act ids isFair) Fits newLock s) :
    (∀ t u, IsWriter ids s t → IsWriter ids s u → t = u) ∧
      (∀ t u, IsWriter ids s t → u ≠ t → readHolds s u = 0) ∧
      (0 < decodeWriteCount s.state ↔ ∃ t, IsWriter ids s t) ∧
      (decodeShareCount s.state : Int) = ∑ t, readHolds s t ∧
      ((∀ t, (s.pc t).owed = 0) → (decodeShareCount s.state : Int) = ∑ t, s.getThreadReadCount t) ∧
      (∀ t caller, s.pc t = .notifyLock (.downgrade caller) → 0 < readHolds s t ∧ ∀ u, ¬IsWriter ids s u) ∧
      ∀ t, s.pc t ≠ .idle (.throw .inconsistent) := by
  have hi := run_inv hrun
  refine ⟨fun t u ht hu => ?_, fun t u ht hu => ((hi.alone ht).2 u hu).2,
    ⟨fun hpos => ?_, fun ⟨t, ht⟩ => (hi.alone ht).1⟩, hi.sum, fun hsettled => ?_, fun t caller hpc => ?_,
    fun t hpc => ?_⟩
  · by_contra hne
    exact ((hi.alone hu).2 t hne).1 ht
  · by_contra hnone
    have hzero := hi.free fun t ht => hnone ⟨t, ht⟩
    omega
  · rw [hi.sum]
    refine Finset.sum_congr rfl fun t _ => ?_
    unfold readHolds State.getThreadReadCount
    rw [hsettled t, Int.add_zero]
  · obtain ⟨hnot, hreads, -⟩ := hi.knows_at hpc
    have hholds : 0 < readHolds s t := by
      rw [holds_at hpc]
      exact (Int.add_zero _).symm ▸ hreads
    exact ⟨hholds, hi.no_writer (not_writer_at hpc rfl hnot) hholds⟩
  · exact hi.knows_at hpc rfl

end Runs

/-- Two threads. -/
def twoIds : ThreadIds Bool where
  id t := if t then 2 else 1
  pos t := by cases t <;> decide
  inj := by
    intro t u h
    cases t <;> cases u <;> first | rfl | exact absurd h (by decide)

/-- A thread takes the write lock, then the read lock, and gives the write lock back. -/
def downgradeRun : List (Bool × Act) :=
  (false, .writeLock) :: List.replicate 4 (false, .next) ++ (false, .readLock) :: List.replicate 4 (false, .next) ++
    (false, .writeUnlock) :: List.replicate 4 (false, .next)

theorem read_write_exclusion_downgrade :
    ∃ s : State Bool, Run (act twoIds true) Fits newLock s ∧
      (s.pc false = .notifyLock (.downgrade .user) ∧ s.state = SHARE_UNIT) ∧
      0 < readHolds s false ∧ ∀ u, ¬IsWriter twoIds s u := by
  have hexec : (runActs (act twoIds true) Fits (newLock : State Bool) downgradeRun).map
      (fun s => (s.pc false, s.state)) =
      some (.notifyLock (.downgrade .user), SHARE_UNIT) := by
    decide +kernel
  obtain ⟨s, hs, hvalues⟩ := Option.map_eq_some_iff.mp hexec
  obtain ⟨hpc, hstate⟩ := Prod.mk.inj hvalues
  have hrun := run_of_runActs hs
  exact ⟨s, hrun, ⟨hpc, hstate⟩, (read_write_exclusion hrun).2.2.2.2.2.1 false .user hpc⟩

end CangjieRuntime.ReadWriteLock
