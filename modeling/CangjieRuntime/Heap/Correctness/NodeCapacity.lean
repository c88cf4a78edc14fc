import CangjieRuntime.Heap.NodeStorage
import CangjieRuntime.Heap.Correctness.TreeInvariant

/-!
# `Heap.Correctness.NodeCapacity` — the tree stays within the memory that `Init` reserves

Runs that keep a gap between them are few: below a bound `b`, all but the empty ones need two places each
(`Runs.Spaced.length_le`). The tree has one node for each run, and at most one run is empty, the one that an insertion
of nothing into the empty tree leaves. So the tree never has more than `(blockCount >> 1) + 1` nodes.

`Accounts` ties the allocator to the tree: an operation makes at most one call, and the call is the change in the number
of nodes. A walk pushes every node once, and a path has no more frames than the tree has nodes.

All of this needs the ends of the runs to fit in 32 bits. The end of the last block of `2 ^ 32` wraps to zero, and then
one and the same unit is inserted again and again.
-/

namespace CangjieRuntime.CartesianTree

open Runs Word Node List Option

/-! ## Nodes and runs -/

theorem size_eq_length (n : Node) : n.size = n.inorder.length := by
  induction n with
  | null => rfl
  | node l i c r ihl ihr =>
    rw [Node.size, Node.inorder, length_append, length_cons, ← ihl, ← ihr]
    omega

theorem size_plug (f : Frame) (n : Node) : (f.plug n).size = n.size + (f.sibling.size + 1) := by
  obtain ⟨d, i, c, s⟩ := f
  cases d <;> simp only [Frame.plug, Frame.lchild, Frame.rchild, Node.size] <;> omega

/-- The part of a tree that lies above a link does not depend on what the link refers to. -/
theorem size_plugAll (fs : List Frame) : ∃ above, ∀ n, (plugAll fs n).size = n.size + above := by
  induction fs with
  | nil => exact ⟨0, fun n => rfl⟩
  | cons f fs ih =>
    obtain ⟨above, habove⟩ := ih
    refine ⟨f.sibling.size + 1 + above, ?_⟩
    intro n
    rw [plugAll, habove, size_plug]
    omega

/-! ## Calls and nodes -/

/-- The calls make `n'` nodes out of `n`. -/
inductive Accounts : List AllocCall → Nat → Nat → Prop where
  | same (n) : Accounts [] n n
  | more (n) : Accounts [.allocate] n (n + 1)
  | fewer (n) : Accounts [.deallocate] (n + 1) n

variable {cs : List AllocCall} {n n' e blockCount : Nat} {k : Link}

theorem Accounts.add (h : Accounts cs n n') (k : Nat) : Accounts cs (n + k) (n' + k) := by
  cases h with
  | same => exact .same _
  | more => rw [Nat.add_right_comm]; exact .more _
  | fewer => rw [Nat.add_right_comm]; exact .fewer _

/-- The slots outside the free list hold the nodes, and a slot is cut only when every other one holds a node. -/
theorem Accounts.slots (h : Accounts cs n n') {a : RTAllocator} (ha : a.cutSlots = a.freeSlots + n) :
    (a.calls cs).cutSlots = (a.calls cs).freeSlots + n' ∧ (a.calls cs).cutSlots ≤ max a.cutSlots n' := by
  cases h with
  | same => exact ⟨ha, Nat.le_max_left _ _⟩
  | more =>
    simp only [RTAllocator.calls, foldl_cons, foldl_nil, RTAllocator.call, RTAllocator.allocate]
    split
    · simp only
      omega
    · simp only
      omega
  | fewer =>
    simp only [RTAllocator.calls, foldl_cons, foldl_nil, RTAllocator.call, RTAllocator.deallocate]
    omega

/-! ## Insertion -/

theorem nearestRight_size {n n' : Node} {found : Option Nat} (h : nearestRight e n = some (n', found)) :
    n.size = n'.size + found.toList.length := by
  fun_induction nearestRight e n generalizing n' found with
  | case1 => cases h; rfl
  | case2 | case4 | case5 => cases h
  | case3 l c r hl =>
    cases h
    simp [Node.size, not_not.mp hl]
  | case6 l i c r _ _ l' found hrec ih =>
    cases h
    have := ih hrec
    simp only [Node.size]
    omega

theorem nearestLeft_size {n n' : Node} {found : Option (Nat × Nat)} (h : nearestLeft e n = some (n', found)) :
    n.size = n'.size + found.toList.length := by
  fun_induction nearestLeft e n generalizing n' found with
  | case1 => cases h; rfl
  | case2 | case4 | case5 => cases h
  | case3 l i c r _ hr =>
    cases h
    simp [Node.size, not_not.mp hr]
  | case6 l i c r _ _ r' found hrec ih =>
    cases h
    have := ih hrec
    simp only [Node.size]
    omega

section Insert
variable {idx num : Nat} {l r : Node} {i c : Nat}

theorem mergeToRight_accounts {e total : Nat} (h : (mergeToRight l i c r e num total).1 = .mergeSuccess) :
    Accounts (mergeToRightCalls e r) (Node.node l i c r).size (mergeToRight l i c r e num total).2.1.size := by
  unfold mergeToRight at h ⊢
  unfold mergeToRightCalls
  rcases hn : nearestRight e r with - | ⟨r', - | cnt⟩ <;> rw [hn] at h
  · cases h
  · simp only [Node.size, nearestRight_size hn]
    exact .same _
  · simp only [Node.size, nearestRight_size hn]
    exact .fewer _

theorem mergeToLeft_accounts {e total : Nat} (h : (mergeToLeft l i c r e num total).1 = .mergeSuccess) :
    Accounts (mergeToLeftCalls e l) (Node.node l i c r).size (mergeToLeft l i c r e num total).2.1.size := by
  unfold mergeToLeft at h ⊢
  unfold mergeToLeftCalls
  rcases hn : nearestLeft e l with - | ⟨l', - | run⟩ <;> rw [hn] at h
  · cases h
  · simp only [Node.size, nearestLeft_size hn]
    exact .same _
  · simp only [Node.size, nearestLeft_size hn, toList_some, length_cons, length_nil]
    rw [show l'.size + (0 + 1) + r.size + 1 = l'.size + r.size + 1 + 1 by omega]
    exact .fewer _

theorem mergeAt_accounts {total : Nat} (h : (mergeAt l i c r idx num total).1 = .mergeSuccess) :
    Accounts (mergeAtCalls l i c r idx num) (Node.node l i c r).size (mergeAt l i c r idx num total).2.1.size := by
  simp only [mergeAt, mergeAtCalls] at h ⊢
  split_ifs at h ⊢ with hright hleft
  · exact mergeToRight_accounts h
  · exact mergeToLeft_accounts h

/-- Whether a run merges does not depend on the total. -/
theorem mergeAt_result (total : Nat) : (mergeAt l i c r idx num 0).1 = (mergeAt l i c r idx num total).1 := by
  simp only [mergeAt, mergeToRight, mergeToLeft]
  split
  · split <;> rfl
  · split
    · split <;> rfl
    · rfl

end Insert

/-- **The first loop of `MergeInsertInternal`** makes the calls for the nodes that it adds or unlinks, and none if it
    fails. -/
theorem insertLoop_accounts (idx num : Nat) (n : Node) (fs : List Frame) (total : Nat) :
    ((insertLoop idx num n fs total).ok = true →
        Accounts (insertLoopCalls idx num n) (plugAll fs n).size (insertLoop idx num n fs total).link.top.size) ∧
      ((insertLoop idx num n fs total).ok = false → insertLoopCalls idx num n = []) := by
  induction n generalizing fs total with
  | null =>
    obtain ⟨above, habove⟩ := size_plugAll fs
    refine ⟨?_, fun h => by cases h⟩
    intro _
    rw [insertLoop, insertLoopCalls, Link.top, habove, habove]
    exact (Accounts.more 0).add above
  | node l i c r ihl ihr =>
    obtain ⟨above, habove⟩ := size_plugAll fs
    unfold insertLoop insertLoopCalls
    rw [mergeAt_result total]
    have hmerge : (mergeAt l i c r idx num total).1 = .mergeSuccess → Accounts (mergeAtCalls l i c r idx num)
        (Node.node l i c r).size (mergeAt l i c r idx num total).2.1.size := mergeAt_accounts
    rcases hm : mergeAt l i c r idx num total with ⟨res, n, total'⟩
    rw [hm] at hmerge
    cases res with
    | mergeSuccess =>
      refine ⟨?_, fun h => by cases h⟩
      intro _
      rw [Link.top, habove, habove]
      exact (hmerge rfl).add above
    | mergeError => exact ⟨(by intro h; cases h), fun _ => rfl⟩
    | mergeMiss =>
      -- the node that the loop goes down from becomes a frame, and the tree around the link stays the same
      simp only
      split
      · exact ihl (⟨.l, i, c, r⟩ :: fs) total'
      · split
        · exact ihr (⟨.r, i, c, l⟩ :: fs) total'
        · exact ⟨(by intro h; cases h), fun _ => rfl⟩

theorem insertLoop_path_length (idx num : Nat) (n : Node) (fs : List Frame) (total : Nat) :
    (insertLoop idx num n fs total).link.path.length ≤ fs.length + n.size := by
  fun_induction insertLoop idx num n fs total with
  | case1 => exact Nat.le_refl _
  | case2 | case3 | case6 => exact Nat.le_add_right _ _
  | case4 _ _ _ _ _ _ _ _ _ _ ih | case5 _ _ _ _ _ _ _ _ _ _ _ ih =>
    simp only [length_cons, Node.size] at ih ⊢
    omega

/-! ## Walks -/

theorem pushed_size (h : k.node ≠ .null) : (k.pushed.map (fun k => k.node.size)).sum + 1 = k.node.size := by
  obtain ⟨path, n⟩ := k
  cases n with
  | null => exact absurd rfl h
  | node l i c r =>
    by_cases hl : l = .null <;> by_cases hr : r = .null <;>
      simp [Link.pushed, Node.left, Node.right, Link.goLeft, Link.goRight, Node.size, hl, hr]
    omega

theorem pushed_ne_null {k k' : Link} (h : k' ∈ k.pushed) : k'.node ≠ .null := by
  obtain ⟨path, n⟩ := k
  cases n with
  | null => simp [Link.pushed, Node.left, Node.right] at h
  | node l i c r =>
    rcases mem_pushed.mp h with ⟨hr, rfl⟩ | ⟨hl, rfl⟩
    · exact hr
    · exact hl

/-- A walk from a queue pushes every node below the queue. -/
theorem walkPushes_eq (queue : List Link) (h : ∀ k ∈ queue, k.node ≠ .null) :
    walkPushes queue + queue.length = (queue.map (fun k => k.node.size)).sum := by
  fun_induction walkPushes queue with
  | case1 => rfl
  | case2 front rest ih =>
    obtain ⟨hfront, hrest⟩ := forall_mem_cons.mp h
    have hsize := pushed_size hfront
    have ih := ih (forall_mem_append.mpr ⟨hrest, fun _ => pushed_ne_null⟩)
    simp only [length_append, map_append, sum_append, length_cons, map_cons, sum_cons] at ih ⊢
    omega

/-- The search of `TakeUnitsImpl` is the start of such a walk. -/
theorem takeLoopPushes_le (num : Nat) (queue : List Link) : takeLoopPushes num queue ≤ walkPushes queue := by
  induction queue using walkPushes.induct with
  | case1 => rw [takeLoopPushes]; exact Nat.zero_le _
  | case2 front rest ih =>
    rw [takeLoopPushes, walkPushes]
    split
    · exact Nat.add_le_add_left (Nat.zero_le _) _
    · exact Nat.add_le_add_left ih _

theorem iteratorPushes_eq (t : CartesianTree) : iteratorPushes t = t.root.size := by
  unfold iteratorPushes
  split
  · rename_i hroot
    rw [hroot]
    rfl
  · rename_i hroot
    have h := walkPushes_eq [⟨[], t.root⟩] (by simpa using hroot)
    simp only [length_cons, length_nil, map_cons, map_nil, sum_cons, sum_nil] at h
    omega

theorem takeUnitsPushes_le (t : CartesianTree) (num : Nat) : takeUnitsPushes t num ≤ t.root.size := by
  rw [← iteratorPushes_eq]
  unfold takeUnitsPushes iteratorPushes
  by_cases hroot : t.root = .null
  · rw [if_pos (Or.inl hroot)]
    exact Nat.zero_le _
  · rw [if_neg hroot, walkPushes, nil_append]
    have hle := takeLoopPushes_le num (Link.pushed ⟨[], t.root⟩)
    split_ifs <;> omega

theorem mergeInsertPushes_le (t : CartesianTree) (idx num : Nat) : mergeInsertPushes t idx num ≤ t.root.size := by
  have h := insertLoop_path_length idx num t.root [] t.totalCount
  rw [length_nil, Nat.zero_add] at h
  unfold mergeInsertPushes
  split_ifs
  · exact Nat.zero_le _
  · exact Nat.zero_le _
  · exact h

/-! ## One operation -/

/-- What the operations keep about a tree over `blockCount` blocks. -/
structure Roomy (blockCount : Nat) (t : CartesianTree) : Prop where
  runs : Spaced (blockCount + 1) t.root.inorder
  empty_le : empties t.root.inorder ≤ 1
  sum : t.totalCount = total t.root.inorder

/-- **The bound that `Init` uses.** -/
theorem Roomy.size_le {t : CartesianTree} (h : Roomy blockCount t) : t.root.size ≤ nodeCount blockCount := by
  have hlen := h.runs.length_le
  have hempty := h.empty_le
  rw [size_eq_length, nodeCount, Nat.shiftRight_one]
  omega

theorem roomy_empty (blockCount : Nat) : Roomy blockCount empty :=
  ⟨⟨List.Pairwise.nil, by simp [empty, inorder]⟩, by simp [empty, inorder, empties], rfl⟩

/-- An operation keeps the runs apart and makes the calls for the nodes that come and go. -/
def Kept (blockCount : Nat) (t : CartesianTree) (cs : List AllocCall) (t' : CartesianTree) : Prop :=
  Roomy blockCount t' ∧ Accounts cs t.root.size t'.root.size

section Operation
variable {blockCount : Nat} {t : CartesianTree}

variable (hb : blockCount < 2 ^ 32)
include hb

variable (h : Roomy blockCount t)
include h

/-- The sum after units have been added. -/
theorem Roomy.coalesce {x : Run} {t' : CartesianTree} (hx : x.stop ≤ blockCount)
    (hco : Coalesce t.root.inorder x t'.root.inorder) (htot : t'.totalCount = add32 t.totalCount x.len)
    (hempty : empties t'.root.inorder ≤ 1) : Roomy blockCount t' := by
  have hruns := hco.spaced h.runs (Nat.lt_succ_of_le hx)
  refine ⟨hruns, hempty, ?_⟩
  have hsum := hco.total
  have hlt := hruns.total_lt (Nat.succ_pos _)
  rw [htot, h.sum, hsum, add32_eq (by omega)]

theorem mergeInsertInternal_kept {idx num : Nat} (hnum : 0 < num)
    (hle : idx + num ≤ blockCount) :
    Kept blockCount t (insertLoopCalls idx num t.root) (mergeInsertInternal t idx num).2 := by
  have hlt : idx + num < 2 ^ 32 := by omega
  have hstop : (Run.mk idx num).stop ≤ blockCount := hle
  have hruns : Spaced (2 ^ 32) t.root.inorder := h.runs.mono (by omega)
  have hclear : PathClear idx num [] := ⟨by simp [beforeAll], by simp [afterAll]⟩
  obtain ⟨hok, hfail⟩ := insertLoop_spec hlt t.root [] t.totalCount hruns hclear
  obtain ⟨hcalls, hnone⟩ := insertLoop_accounts idx num t.root [] t.totalCount
  unfold mergeInsertInternal
  generalize insertLoop idx num t.root [] t.totalCount = res at hok hfail hcalls hnone
  simp only
  cases hres : res.ok with
  | false =>
    obtain ⟨htop, htot, -⟩ := hfail hres
    rw [if_neg (by simp), htot, htop, hnone hres]
    exact ⟨h, .same _⟩
  | true =>
    obtain ⟨hco, htot, hclear'⟩ := hok hres
    have hco : Coalesce t.root.inorder ⟨idx, num⟩ res.link.top.inorder := hco
    have hframes : ∀ f ∈ res.link.path, f.index + f.count < 2 ^ 32 := by
      intro f hf
      exact (hco.spaced hruns (Nat.lt_of_le_of_lt hstop hb)).lt ⟨f.index, f.count⟩ (frame_mem hf _)
    -- the second loop only rotates, so the runs are those that the first one left
    have hin : (bubbleUp idx num res.link.path res.link.node).2.inorder = res.link.top.inorder :=
      (bubbleUp_inorder hlt _ res.link.node hframes hclear').2
    generalize bubbleUp idx num res.link.path res.link.node = bubbled at hin
    obtain ⟨ok, root⟩ := bubbled
    rw [if_pos rfl]
    refine ⟨h.coalesce hb hstop (hin ▸ hco) htot ?_, ?_⟩
    · rw [show root.inorder = res.link.top.inorder from hin]
      exact (hco.empties_le hnum).trans h.empty_le
    · have hsize : root.size = res.link.top.size := by
        rw [size_eq_length, size_eq_length]
        exact congrArg length hin
      show Accounts _ _ root.size
      rw [hsize]
      exact hcalls hres

/-- **`MergeInsert`.** An empty range makes a node only in the empty tree. -/
theorem mergeInsert_kept {idx num : Nat} (hle : idx + num ≤ blockCount) :
    Kept blockCount t (mergeInsertCalls t idx num) (mergeInsert t idx num).2 := by
  unfold mergeInsertCalls mergeInsert
  by_cases hroot : t.root = .null
  · rw [if_pos hroot, if_pos hroot, Kept, hroot]
    have hco : Coalesce t.root.inorder ⟨idx, num⟩ (Node.node .null idx num .null).inorder :=
      ⟨[], [], [], ⟨idx, num⟩, by rw [hroot]; rfl, rfl, Glue.none _, by simp, by simp⟩
    have hstop : (Run.mk idx num).stop ≤ blockCount := hle
    refine ⟨h.coalesce hb hstop hco rfl ?_, .more _⟩
    exact countP_le_length
  · rw [if_neg hroot, if_neg hroot]
    by_cases hnum : num = 0
    · rw [if_pos hnum, if_pos hnum]
      exact ⟨h, .same _⟩
    · rw [if_neg hnum, if_neg hnum]
      exact mergeInsertInternal_kept hb h (Nat.pos_of_ne_zero hnum) hle

omit hb in
/-- Cutting units off a run removes its node exactly when none are left. -/
theorem Roomy.carve {r : Run} {num : Nat} {t' : CartesianTree} (hle : num ≤ r.len)
    (hcarve : Carve t.root.inorder r num t'.root.inorder) (htot : t'.totalCount + num = t.totalCount) :
    Kept blockCount t (if r.len = num then [.deallocate] else []) t' := by
  refine ⟨⟨hcarve.spaced h.runs hle, (hcarve.empties_le hle).trans h.empty_le, ?_⟩, ?_⟩
  · have hsum := hcarve.total hle
    have := h.sum
    omega
  · have hlen := hcarve.length
    rw [← size_eq_length, ← size_eq_length] at hlen
    unfold Run.rest at hlen
    split
    · rename_i heq
      rw [if_pos heq] at hlen
      rw [show t.root.size = t'.root.size + 1 from hlen.symm]
      exact .fewer _
    · rename_i hne
      rw [if_neg hne] at hlen
      rw [show t.root.size = t'.root.size from (Nat.succ.inj hlen).symm]
      exact .same _

/-- **`TakeUnits`.** -/
theorem takeUnits_kept (num : Nat) :
    ∃ res t', takeUnits t num = some (res, t') ∧ Kept blockCount t (takeUnitsCalls t num) t' := by
  unfold takeUnitsCalls
  by_cases hgo : t.root = .null ∨ num = 0
  · rw [takeUnits, if_pos hgo, if_pos hgo]
    exact ⟨none, t, rfl, h, .same _⟩
  rw [if_neg hgo]
  rw [not_or] at hgo
  rcases takeUnits_cases (Nat.pos_of_ne_zero hgo.2) (h.runs.mono (by omega)) h.sum with
    ⟨hnone, hsmall⟩ | ⟨k, l, i, c, r, t', hloop, -, hle, hk, hcnt, hclt, -, hres, hcarve, htot⟩
  · rw [if_pos hsmall]
    exact ⟨none, t, hnone, h, .same _⟩
  · refine ⟨some i, t', hres, ?_⟩
    have hkept := h.carve hcnt hcarve htot
    have hiff : c - num = 0 ↔ c = num := by omega
    rw [if_neg (Nat.not_lt.mpr hle), hloop, hk, Node.getCount, sub32_eq hcnt hclt]
    simpa only [hiff] using hkept

/-- **`ReleaseRootNode`** on a non-empty tree. -/
theorem releaseRootNode_kept (hroot : t.root ≠ .null) :
    ∃ t', releaseRootNode t = some t' ∧ Kept blockCount t [.deallocate] t' := by
  cases hn : t.root with
  | null => exact absurd hn hroot
  | node l i c r =>
    obtain ⟨root, -, hrel, hcarve, hge⟩ := releaseRootNode_carve (h.runs.mono (by omega)) h.sum hn
    have hkept : Kept blockCount t _ ⟨t.totalCount - c, root⟩ :=
      h.carve (Nat.le_refl c) hcarve (Nat.sub_add_cancel hge)
    rw [if_pos rfl] at hkept
    exact ⟨_, hrel, hkept⟩

end Operation

/-! ## Whole runs -/

/-- The tree is roomy, and its nodes are the slots in use. -/
structure Storage.Fits (blockCount : Nat) (s : Storage) : Prop where
  tree : Roomy blockCount s.tree
  slots : s.nodeAllocator.cutSlots = s.nodeAllocator.freeSlots + s.tree.root.size
  cut_le : s.nodeAllocator.cutSlots ≤ nodeCount blockCount

theorem Storage.fits_empty (blockCount : Nat) : Storage.empty.Fits blockCount :=
  ⟨roomy_empty blockCount, rfl, Nat.zero_le _⟩

theorem Kept.fits {s : Storage} {t' : CartesianTree} (h : s.Fits blockCount)
    (hk : Kept blockCount s.tree cs t') : Storage.Fits blockCount ⟨t', s.nodeAllocator.calls cs⟩ := by
  obtain ⟨hroomy, hacc⟩ := hk
  obtain ⟨hslots, hcut⟩ := hacc.slots h.slots
  refine ⟨hroomy, hslots, hcut.trans ?_⟩
  exact max_le h.cut_le hroomy.size_le

section Run
variable {blockCount : Nat}

/-- The only operation that aborts is `ReleaseRootNode` on the empty tree. -/
theorem exec_fits (hb : blockCount < 2 ^ 32) {s : Storage} (h : s.Fits blockCount) {op : Op} (hw : op.Within blockCount)
    (hroot : op = .releaseRootNode → s.tree.root ≠ .null) : ∃ s', s.exec op = some s' ∧ s'.Fits blockCount := by
  cases op with
  | mergeInsert idx num => exact ⟨_, rfl, (mergeInsert_kept hb h.tree hw).fits h⟩
  | takeUnits num =>
    obtain ⟨res, t', htake, hk⟩ := takeUnits_kept hb h.tree num
    exact ⟨_, by simp [Storage.exec, Op.exec, Op.allocCalls, htake], hk.fits h⟩
  | releaseRootNode =>
    obtain ⟨t', hrel, hk⟩ := releaseRootNode_kept hb h.tree (hroot rfl)
    exact ⟨_, by simp [Storage.exec, Op.exec, Op.allocCalls, hrel], hk.fits h⟩

theorem exec_releaseRootNode_null {s : Storage} (h : s.tree.root = .null) : s.exec .releaseRootNode = none := by
  simp [Storage.exec, Op.exec, releaseRootNode, removeNode, h]

theorem execAll_fits (hb : blockCount < 2 ^ 32) {ops : List Op} (hw : ∀ op ∈ ops, op.Within blockCount) {s s' : Storage}
    (h : s.Fits blockCount) (hrun : s.execAll ops = some s') : s'.Fits blockCount := by
  induction ops generalizing s with
  | nil => cases hrun; exact h
  | cons op ops ih =>
    rw [Storage.execAll, bind_eq_some_iff] at hrun
    obtain ⟨s1, hstep, hrest⟩ := hrun
    have hroot : op = .releaseRootNode → s.tree.root ≠ .null := by
      rintro rfl hnull
      rw [exec_releaseRootNode_null hnull] at hstep
      cases hstep
    obtain ⟨s1', hstep', hfits⟩ := exec_fits hb h (hw op (by simp)) hroot
    rw [hstep, some.injEq] at hstep'
    subst hstep'
    exact ih (fun op hop => hw op (by simp [hop])) hfits hrest

end Run

/-- **The node storage never runs out.** After any calls whose ranges lie in fewer than `2 ^ 32` blocks, the slots in
    use are the nodes of the tree, no more slots have been cut than `Init` reserves, and no walk and no insertion pushes
    more pointers than that. Every further call returns, but for `ReleaseRootNode` on the empty tree. -/
theorem node_storage_suffices (blockCount : Nat) (hb : blockCount < 2 ^ 32) (ops : List Op)
    (hw : ∀ op ∈ ops, op.Within blockCount) (s : Storage) (hrun : Storage.empty.execAll ops = some s) :
    s.nodeAllocator.inUse = s.tree.root.size ∧
      s.nodeAllocator.inUse ≤ nodeCount blockCount ∧
      s.nodeAllocator.cutSlots ≤ nodeCount blockCount ∧
      iteratorPushes s.tree ≤ nodeCount blockCount ∧
      (∀ num, takeUnitsPushes s.tree num ≤ nodeCount blockCount) ∧
      (∀ idx num, mergeInsertPushes s.tree idx num ≤ nodeCount blockCount) ∧
      ∀ op : Op, op.Within blockCount → (op = .releaseRootNode → s.tree.root ≠ .null) → ∃ s', s.exec op = some s' := by
  have hfits := execAll_fits hb hw (Storage.fits_empty blockCount) hrun
  have hsize := hfits.tree.size_le
  have huse : s.nodeAllocator.inUse = s.tree.root.size := by
    rw [RTAllocator.inUse, hfits.slots, Nat.add_sub_cancel_left]
  refine ⟨huse, huse ▸ hsize, hfits.cut_le, ?_, ?_, ?_, ?_⟩
  · rw [iteratorPushes_eq]
    exact hsize
  · intro num
    exact (takeUnitsPushes_le s.tree num).trans hsize
  · intro idx num
    exact (mergeInsertPushes_le s.tree idx num).trans hsize
  · intro op hop hroot
    obtain ⟨s', hexec, -⟩ := exec_fits hb hfits hop hroot
    exact ⟨s', hexec⟩

/-- Two of three blocks need both nodes that are reserved for three. -/
theorem node_storage_suffices_three :
    ∃ s, Storage.empty.execAll [.mergeInsert 0 1, .mergeInsert 2 1] = some s ∧ s.nodeAllocator.inUse = 2 ∧
      nodeCount 3 = 2 ∧
      iteratorPushes s.tree ≤ nodeCount 3 := by
  refine ⟨⟨⟨2, .node .null 0 1 (.node .null 2 1 .null)⟩, ⟨0, 2⟩⟩, by decide, by decide, by decide, ?_⟩
  exact (node_storage_suffices 3 (by decide) [.mergeInsert 0 1, .mergeInsert 2 1] (by
    intro op hop
    simp only [List.mem_cons, List.not_mem_nil, or_false] at hop
    rcases hop with rfl | rfl
    · exact Nat.le_succ_of_le (Nat.le_succ 1)
    · exact Nat.le_refl 3) _ (by decide)).2.2.2.1

/-! ## The last of `2 ^ 32` blocks -/

/-- A left spine of nodes that all hold the last unit. -/
def lastUnitSpine : Nat → Node
  | 0 => .null
  | k + 1 => .node (lastUnitSpine k) (2 ^ 32 - 1) 1 .null

/-- The frames of a path down the spine. -/
def lastUnitFrames (k : Nat) : List Frame := List.replicate k ⟨.l, 2 ^ 32 - 1, 1, .null⟩

theorem plugAll_lastUnitFrames (k j : Nat) : plugAll (lastUnitFrames k) (lastUnitSpine j) = lastUnitSpine (j + k) := by
  induction k generalizing j with
  | zero => rfl
  | succ k ih =>
    show plugAll (lastUnitFrames k) (lastUnitSpine (j + 1)) = _
    rw [ih, Nat.add_right_comm, Nat.add_assoc]

/-- The end of the last unit wraps to zero. It is neither the start of the last unit nor a node's end that it could
    merge with, and it is smaller than every start. -/
theorem insertLoop_lastUnit (j k total : Nat) :
    insertLoop (2 ^ 32 - 1) 1 (lastUnitSpine j) (lastUnitFrames k) total =
      ⟨true, ⟨lastUnitFrames (k + j), lastUnitSpine 1⟩, add32 total 1⟩ ∧
    insertLoopCalls (2 ^ 32 - 1) 1 (lastUnitSpine j) = [.allocate] := by
  induction j generalizing k with
  | zero => exact ⟨rfl, rfl⟩
  | succ j ih =>
    have hmiss : ∀ l total, mergeAt l (2 ^ 32 - 1) 1 .null (2 ^ 32 - 1) 1 total =
        (.mergeMiss, .node l (2 ^ 32 - 1) 1 .null, total) :=
      fun _ _ => rfl
    have hless : add32 (2 ^ 32 - 1) 1 < 2 ^ 32 - 1 := by decide
    obtain ⟨hloop, hcalls⟩ := ih (k + 1)
    rw [lastUnitSpine, insertLoop, insertLoopCalls, hmiss, hmiss]
    simp only [if_pos hless]
    refine ⟨?_, hcalls⟩
    rw [Nat.add_right_comm] at hloop
    exact hloop

/-- All counts are one, so that nothing rotates. -/
theorem bubbleUp_lastUnit (k : Nat) :
    bubbleUp (2 ^ 32 - 1) 1 (lastUnitFrames k) (lastUnitSpine 1) = (true, lastUnitSpine (k + 1)) := by
  cases k with
  | zero => rfl
  | succ k =>
    have hless : add32 (2 ^ 32 - 1) 1 < 2 ^ 32 - 1 := by decide
    show bubbleUp (2 ^ 32 - 1) 1 (⟨.l, 2 ^ 32 - 1, 1, .null⟩ :: lastUnitFrames k) (lastUnitSpine 1) = _
    rw [bubbleUp]
    simp only [if_pos hless]
    rw [if_neg (by decide)]
    show (true, plugAll (lastUnitFrames k) (lastUnitSpine 2)) = _
    rw [plugAll_lastUnitFrames, Nat.add_comm]

theorem exec_lastUnit (k total : Nat) :
    Storage.exec ⟨⟨total, lastUnitSpine k⟩, ⟨0, k⟩⟩ (.mergeInsert (2 ^ 32 - 1) 1) =
      some ⟨⟨add32 total 1, lastUnitSpine (k + 1)⟩, ⟨0, k + 1⟩⟩ := by
  cases k with
  | zero => rfl
  | succ k =>
    obtain ⟨hloop, hcalls⟩ := insertLoop_lastUnit (k + 1) 0 total
    have hne : lastUnitSpine (k + 1) ≠ .null := by
      rw [lastUnitSpine]
      simp
    rw [Nat.zero_add] at hloop
    have hins : mergeInsert ⟨total, lastUnitSpine (k + 1)⟩ (2 ^ 32 - 1) 1 =
        (true, ⟨add32 total 1, lastUnitSpine (k + 1 + 1)⟩) := by
      rw [mergeInsert, if_neg hne, if_neg (by decide), mergeInsertInternal]
      simp only
      rw [show insertLoop (2 ^ 32 - 1) 1 (lastUnitSpine (k + 1)) [] total = _ from hloop]
      simp only [bubbleUp_lastUnit, if_true]
    have hmi : mergeInsertCalls ⟨total, lastUnitSpine (k + 1)⟩ (2 ^ 32 - 1) 1 = [.allocate] := by
      rw [mergeInsertCalls, if_neg hne, if_neg (by decide)]
      exact hcalls
    simp only [Storage.exec, Op.exec, Op.allocCalls, hins, hmi, map_some]
    rfl

theorem execAll_lastUnit (n k total : Nat) :
    ∃ total', Storage.execAll ⟨⟨total, lastUnitSpine k⟩, ⟨0, k⟩⟩ (replicate n (.mergeInsert (2 ^ 32 - 1) 1)) =
      some ⟨⟨total', lastUnitSpine (k + n)⟩, ⟨0, k + n⟩⟩ := by
  induction n generalizing k total with
  | zero => exact ⟨total, rfl⟩
  | succ n ih =>
    obtain ⟨total', hrest⟩ := ih (k + 1) (add32 total 1)
    refine ⟨total', ?_⟩
    rw [replicate_succ, Storage.execAll, exec_lastUnit, bind_some, hrest, Nat.add_right_comm, Nat.add_assoc]

/-- With `2 ^ 32` blocks, freeing the last one over and over takes one node each time. -/
theorem node_storage_overrun :
    ∃ (ops : List Op) (s : Storage), (∀ op ∈ ops, op.Within (2 ^ 32)) ∧ Storage.empty.execAll ops = some s ∧
      nodeCount (2 ^ 32) < s.nodeAllocator.inUse := by
  obtain ⟨total', hrun⟩ := execAll_lastUnit (2 ^ 31 + 2) 0 0
  refine ⟨List.replicate (2 ^ 31 + 2) (.mergeInsert (2 ^ 32 - 1) 1), _, ?_, hrun, ?_⟩
  · intro op hop
    rw [List.eq_of_mem_replicate hop, Op.Within]
    decide
  · rw [nodeCount, RTAllocator.inUse, Nat.shiftRight_one, Nat.zero_add]
    exact Nat.lt_succ_self (2 ^ 31 + 1)

end CangjieRuntime.CartesianTree
