import CangjieRuntime.Heap.CartesianTree

/-!
# `Heap.Correctness.TreeOrder` — what the tree operations do to the in-order list of runs

Everything about search order, coalescing and totals is a statement about the list `Node.inorder`. A link
splits that list into the runs before it, the runs of the node it refers to, and the runs after it
(`inorder_plugAll`); rotations do not change it at all. With these two facts:

* the insertion loop either realises `Coalesce` or finds a run that overlaps the new one and has changed
  nothing (`insertLoop_spec`);
* bubbling up and lowering keep the list (`bubbleUp_inorder`, `lowerImproperNodeOnce_inorder`);
* taking units realises `Carve` at whatever node the search stops (`takeFrom_spec`).

The heap order, which the list does not see, is the subject of `TreeHeap`.
-/

namespace CangjieRuntime.CartesianTree

open Runs Word Node List

/-! ## The list around a link -/

/-- The runs a frame puts before its open child. -/
def Frame.before (f : Frame) : List Run := match f.dir with | .l => [] | .r => f.sibling.inorder ++ [⟨f.index, f.count⟩]

/-- The runs a frame puts after its open child. -/
def Frame.after (f : Frame) : List Run := match f.dir with | .l => ⟨f.index, f.count⟩ :: f.sibling.inorder | .r => []

def beforeAll : List Frame → List Run
  | [] => []
  | f :: fs => beforeAll fs ++ f.before

def afterAll : List Frame → List Run
  | [] => []
  | f :: fs => f.after ++ afterAll fs

theorem inorder_plug (f : Frame) (n : Node) : (f.plug n).inorder = f.before ++ n.inorder ++ f.after := by
  obtain ⟨d, i, c, s⟩ := f
  cases d <;> simp [Frame.plug, Frame.lchild, Frame.rchild, Frame.before, Frame.after, Node.inorder]

/-- **A link cuts the in-order list in three.** -/
theorem inorder_plugAll (fs : List Frame) (n : Node) :
    (plugAll fs n).inorder = beforeAll fs ++ n.inorder ++ afterAll fs := by
  induction fs generalizing n with
  | nil => simp [plugAll, beforeAll, afterAll]
  | cons f fs ih =>
    rw [plugAll, ih, inorder_plug]
    simp [beforeAll, afterAll]

theorem inorder_rotateLeftChild (n : Node) : (rotateLeftChild n).inorder = n.inorder := by
  unfold rotateLeftChild
  split
  · simp [Node.inorder]
  · rfl

theorem inorder_rotateRightChild (n : Node) : (rotateRightChild n).inorder = n.inorder := by
  unfold rotateRightChild
  split
  · simp [Node.inorder]
  · rfl

variable {n l r root : Node} {b i c idx num : Nat} {rs : List Run} {x : Run} {fs : List Frame} {k k' : Link}

theorem inorder_ne_nil (h : n ≠ .null) : ∃ r, r ∈ n.inorder := by
  cases n with
  | null => exact absurd rfl h
  | node l i c r => exact ⟨⟨i, c⟩, by simp [Node.inorder]⟩

/-- The pieces of a node whose runs keep gaps. -/
theorem spaced_node (h : Spaced b (Node.node l i c r).inorder) :
    Spaced b l.inorder ∧ Spaced b r.inorder ∧ i + c < b ∧ (∀ s ∈ l.inorder, s.stop < i) ∧
      ∀ s ∈ r.inorder, i + c < s.start := by
  obtain ⟨hl, hr, hlr⟩ := spaced_append.mp h
  obtain ⟨hb, hgap, hr⟩ := spaced_cons.mp hr
  exact ⟨hl, hr, hb, fun s hs => hlr s hs ⟨i, c⟩ (by simp), hgap⟩

/-! ## The walks to the far neighbour -/

/-- What `nearestRight` finds in a subtree whose runs all start after `idx`: a run starting before `endIdx`,
    or no run starting at `endIdx` (then nothing moves), or the first run of the subtree, which it removes. -/
theorem nearestRight_spec (endIdx : Nat) (hc : Spaced b n.inorder) :
    match nearestRight endIdx n with
    | none => ∃ s ∈ n.inorder, s.start < endIdx
    | some (n', none) => n' = n ∧ ∀ s ∈ n.inorder, endIdx < s.start
    | some (n', some c) => n.inorder = ⟨endIdx, c⟩ :: n'.inorder := by
  fun_induction nearestRight endIdx n with
  | case1 => simp [Node.inorder]
  | case2 l c r hl =>
    obtain ⟨s, hs⟩ := inorder_ne_nil hl
    obtain ⟨-, -, -, hlt, -⟩ := spaced_node hc
    exact ⟨s, by simp [Node.inorder, hs], Nat.lt_of_le_of_lt (Nat.le_add_right _ _) (hlt s hs)⟩
  | case3 l c r hl => simp [Node.inorder, not_not.mp hl]
  | case4 l i c r _ hlt => exact ⟨⟨i, c⟩, by simp [Node.inorder], hlt⟩
  | case5 l i c r _ _ hrec ih =>
    have ih := ih (spaced_node hc).1
    rw [hrec] at ih
    obtain ⟨s, hs, hse⟩ := ih
    exact ⟨s, by simp [Node.inorder, hs], hse⟩
  | case6 l i c r hi hlt l' found hrec ih =>
    obtain ⟨hl, -, -, -, hgt⟩ := spaced_node hc
    have ih := ih hl
    rw [hrec] at ih
    cases found with
    | none =>
      obtain ⟨rfl, hall⟩ := ih
      refine ⟨rfl, ?_⟩
      simp only [Node.inorder, forall_mem_append, forall_mem_cons]
      exact ⟨hall, by omega, fun s hs => by have := hgt s hs; omega⟩
    | some cnt => simp [Node.inorder, ih]

/-- The mirror image for `nearestLeft`: a run ending after `startIdx`, or none ending at it, or the last run of
    the subtree. -/
theorem nearestLeft_spec (startIdx : Nat) (hc : Spaced (2 ^ 32) n.inorder) :
    match nearestLeft startIdx n with
    | none => ∃ s ∈ n.inorder, startIdx < s.stop
    | some (n', none) => n' = n ∧ ∀ s ∈ n.inorder, s.stop < startIdx
    | some (n', some (i, c)) => n.inorder = n'.inorder ++ [⟨i, c⟩] ∧ i + c = startIdx := by
  fun_induction nearestLeft startIdx n with
  | case1 => simp [Node.inorder]
  | case2 l i c r hi hr =>
    obtain ⟨s, hs⟩ := inorder_ne_nil hr
    obtain ⟨-, -, hb, -, hgt⟩ := spaced_node hc
    rw [add32_eq hb] at hi
    exact ⟨s, by simp [Node.inorder, hs], hi ▸ Nat.lt_of_lt_of_le (hgt s hs) (Nat.le_add_right _ _)⟩
  | case3 l i c r hi hr => simpa [Node.inorder, not_not.mp hr, add32_eq (spaced_node hc).2.2.1] using hi
  | case4 l i c r _ hlt => exact ⟨⟨i, c⟩, by simp [Node.inorder], by rwa [add32_eq (spaced_node hc).2.2.1] at hlt⟩
  | case5 l i c r _ _ hrec ih =>
    have ih := ih (spaced_node hc).2.1
    rw [hrec] at ih
    obtain ⟨s, hs, hse⟩ := ih
    exact ⟨s, by simp [Node.inorder, hs], hse⟩
  | case6 l i c r hi hlt r' found hrec ih =>
    obtain ⟨-, hr, hb, hgt, -⟩ := spaced_node hc
    rw [add32_eq hb] at hi hlt
    have ih := ih hr
    rw [hrec] at ih
    cases found with
    | none =>
      obtain ⟨rfl, hall⟩ := ih
      refine ⟨rfl, ?_⟩
      simp only [Node.inorder, forall_mem_append, forall_mem_cons, stop_mk]
      exact ⟨fun s hs => by have := hgt s hs; omega, by omega, hall⟩
    | some ic => simp [Node.inorder, ih.1, ih.2]

/-! ## The insertion loop -/

/-- Some run of the list shares a unit with `x`. -/
def Clash (rs : List Run) (x : Run) : Prop := ∃ s ∈ rs, ¬ Disjoint x.elems s.elems

theorem clash_of_overlap {x s : Run} (hs : s ∈ rs) (hx : 0 < x.len) (hp : 0 < s.len)
    (h1 : s.start < x.stop) (h2 : x.start < s.stop) : Clash rs x := by
  refine ⟨s, hs, ?_⟩
  rw [Set.not_disjoint_iff]
  simp only [mem_elems]
  by_cases h : x.start ≤ s.start
  · exact ⟨s.start, ⟨h, h1⟩, Nat.le_refl _, by simp only [Run.stop]; omega⟩
  · exact ⟨x.start, ⟨Nat.le_refl _, by simp only [Run.stop]; omega⟩, by omega, h2⟩

theorem Clash.mono {rs rs' : List Run} (h : Clash rs x) (hsub : ∀ s ∈ rs, s ∈ rs') : Clash rs' x := by
  obtain ⟨s, hs, hd⟩ := h
  exact ⟨s, hsub s hs, hd⟩

/-- A clash means the run is not disjoint from the cover. -/
theorem Clash.not_disjoint (h : Clash rs x) : ¬ Disjoint x.elems (cover rs) := by
  obtain ⟨s, hs, hd⟩ := h
  intro hcon
  exact hd (hcon.mono_right (show s.elems ⊆ cover rs from fun u hu => ⟨s, hs, hu⟩))

section Insert
variable {idx num : Nat} {l r : Node} {i c : Nat}

/-- **One visit of `MergeAt`** at a node of a tree whose runs keep gaps. Success glues `(idx, num)` into the node's
    runs and counts it; a miss or an error leaves the node and the total alone, and an error has met a clash
    when no run is empty. -/
theorem mergeAt_spec (total : Nat) (hc : Spaced (2 ^ 32) (Node.node l i c r).inorder) (hlt : idx + num < 2 ^ 32) :
    match mergeAt l i c r idx num total with
    | (.mergeSuccess, n, total') =>
      Coalesce (Node.node l i c r).inorder ⟨idx, num⟩ n.inorder ∧ total' = add32 total num
    | (.mergeError, n, total') => n = .node l i c r ∧ total' = total ∧
        (0 < num → (∀ s ∈ (Node.node l i c r).inorder, 0 < s.len) → Clash (Node.node l i c r).inorder ⟨idx, num⟩)
    | (.mergeMiss, n, total') => n = .node l i c r ∧ total' = total ∧ idx ≠ i + c ∧ idx + num ≠ i := by
  obtain ⟨hl, hr, hb, hlgt, hrgt⟩ := spaced_node hc
  simp only [mergeAt, add32_eq hb, add32_eq hlt]
  split_ifs with hright hleft
  · have hspec := nearestRight_spec (idx + num) hr
    have hbefore : ∀ a ∈ l.inorder, a.stop < idx := fun a ha => by have := hlgt a ha; omega
    unfold mergeToRight
    rcases hnear : nearestRight (idx + num) r with - | ⟨r', - | cnt⟩ <;> rw [hnear] at hspec
    · obtain ⟨s, hs, hse⟩ := hspec
      have hmem : s ∈ (Node.node l i c r).inorder := by simp [Node.inorder, hs]
      have hgt : idx < s.stop := hright ▸ Nat.lt_of_lt_of_le (hrgt s hs) (Nat.le_add_right _ _)
      exact ⟨rfl, rfl, fun hnum hpos => clash_of_overlap hmem hnum (hpos s hmem) hse hgt⟩
    · obtain ⟨rfl, hall⟩ := hspec
      refine ⟨⟨l.inorder, [⟨i, c⟩], r'.inorder, ⟨i, c + num⟩, by simp [Node.inorder], ?_,
        Glue.left ⟨i, c⟩ ⟨idx, num⟩ hright.symm, hbefore, hall⟩, rfl⟩
      rw [add32_eq (by omega)]; rfl
    · have hcnt : idx + num + cnt < 2 ^ 32 := hr.lt ⟨idx + num, cnt⟩ (by rw [hspec]; simp)
      refine ⟨⟨l.inorder, [⟨i, c⟩, ⟨idx + num, cnt⟩], r'.inorder, ⟨i, c + num + cnt⟩, by simp [Node.inorder, hspec], ?_,
        Glue.both ⟨i, c⟩ ⟨idx, num⟩ ⟨idx + num, cnt⟩ hright.symm rfl, hbefore, ?_⟩, rfl⟩
      · simp (disch := omega) only [add32_eq]; rfl
      · intro s hs
        rw [hspec] at hr
        exact Nat.lt_of_le_of_lt (Nat.le_add_right _ _) ((spaced_cons.mp hr).2.1 s hs)
  · have hspec := nearestLeft_spec idx hl
    have hafter : ∀ s ∈ r.inorder, idx + num < s.start := fun s hs => by have := hrgt s hs; omega
    unfold mergeToLeft
    rcases hnear : nearestLeft idx l with - | ⟨l', - | ⟨i', c'⟩⟩ <;> rw [hnear] at hspec
    · obtain ⟨s, hs, hse⟩ := hspec
      have hmem : s ∈ (Node.node l i c r).inorder := by simp [Node.inorder, hs]
      have hgt : s.start < idx + num := hleft ▸ Nat.lt_of_le_of_lt (Nat.le_add_right _ _) (hlgt s hs)
      exact ⟨rfl, rfl, fun hnum hpos => clash_of_overlap hmem hnum (hpos s hmem) hgt hse⟩
    · obtain ⟨rfl, hall⟩ := hspec
      refine ⟨⟨l'.inorder, [⟨i, c⟩], r.inorder, ⟨idx, num + c⟩, by simp [Node.inorder], ?_,
        Glue.right ⟨i, c⟩ ⟨idx, num⟩ hleft, hall, hafter⟩, rfl⟩
      rw [add32_eq (by omega), Nat.add_comm c num]; rfl
    · obtain ⟨hl', he⟩ := hspec
      refine ⟨⟨l'.inorder, [⟨i', c'⟩, ⟨i, c⟩], r.inorder, ⟨i', c' + num + c⟩, by simp [Node.inorder, hl'], ?_,
        Glue.both ⟨i', c'⟩ ⟨idx, num⟩ ⟨i, c⟩ he hleft, ?_, hafter⟩, rfl⟩
      · simp (disch := omega) only [add32_eq, show c + num + c' = c' + num + c by omega]; rfl
      · intro a ha
        rw [hl'] at hl
        have hai : a.stop < i' := (spaced_append.mp hl).2.2 a ha ⟨i', c'⟩ (by simp)
        show a.stop < idx
        omega
  · exact ⟨rfl, rfl, hright, hleft⟩

end Insert

/-- The new run lies in the gap that the frames of a link leave open. -/
def PathClear (idx num : Nat) (fs : List Frame) : Prop :=
  (∀ a ∈ beforeAll fs, a.stop < idx) ∧ ∀ a ∈ afterAll fs, idx + num < a.start

/-- `Coalesce` inside the open child of a clear path is `Coalesce` in the whole list. -/
theorem Coalesce.plugAll {n n' : Node} (hclear : PathClear idx num fs)
    (h : Coalesce n.inorder ⟨idx, num⟩ n'.inorder) :
    Coalesce (CartesianTree.plugAll fs n).inorder ⟨idx, num⟩ (CartesianTree.plugAll fs n').inorder := by
  obtain ⟨as, ms, bs, g, hn, hn', hglue, ha, hb⟩ := h
  rw [inorder_plugAll, inorder_plugAll, hn, hn']
  refine ⟨beforeAll fs ++ as, ms, bs ++ afterAll fs, g, by simp, by simp, hglue, ?_, ?_⟩
  · intro a haa
    rcases mem_append.mp haa with h | h
    · exact hclear.1 a h
    · exact ha a h
  · intro a haa
    rcases mem_append.mp haa with h | h
    · exact hb a h
    · exact hclear.2 a h

/-- **The first loop of `MergeInsertInternal`.** Either the run was put in its place, counted, and the link
    it stops at is still clear of it; or a clash was met and the tree and the total are as before. -/
theorem insertLoop_spec (hlt : idx + num < 2 ^ 32)
    (n : Node) (fs : List Frame) (total : Nat) (hc : Spaced (2 ^ 32) (plugAll fs n).inorder)
      (hclear : PathClear idx num fs) :
      let res := insertLoop idx num n fs total
      (res.ok = true → Coalesce (plugAll fs n).inorder ⟨idx, num⟩ res.link.top.inorder ∧
          res.totalCount = add32 total num ∧ PathClear idx num res.link.path) ∧
        (res.ok = false → res.link.top = plugAll fs n ∧ res.totalCount = total ∧
          (0 < num → (∀ s ∈ (plugAll fs n).inorder, 0 < s.len) → Clash (plugAll fs n).inorder ⟨idx, num⟩)) := by
  induction n generalizing fs total with
  | null =>
    refine ⟨fun _ => ⟨?_, rfl, hclear⟩, fun h => absurd h (by simp [insertLoop])⟩
    refine Coalesce.plugAll hclear ⟨[], [], [], ⟨idx, num⟩, rfl, ?_, Glue.none _, by simp, by simp⟩
    simp [insertLoop, Node.inorder]
  | node l i c r ihl ihr =>
    have hcn : Spaced (2 ^ 32) (Node.node l i c r).inorder := by
      rw [inorder_plugAll] at hc
      exact (spaced_append.mp (spaced_append.mp hc).1).2.1
    obtain ⟨-, -, hb, hlgt, hrgt⟩ := spaced_node hcn
    have hsub : ∀ s ∈ (Node.node l i c r).inorder, s ∈ (plugAll fs (.node l i c r)).inorder := by
      intro s hs; rw [inorder_plugAll]; simp [hs]
    have hspec := mergeAt_spec total hcn hlt
    unfold insertLoop
    rcases hm : mergeAt l i c r idx num total with ⟨res, n', total'⟩
    rw [hm] at hspec
    cases res with
    | mergeSuccess =>
      exact ⟨fun _ => ⟨Coalesce.plugAll hclear hspec.1, hspec.2, hclear⟩, nofun⟩
    | mergeError =>
      obtain ⟨rfl, rfl, hclash⟩ := hspec
      exact ⟨nofun, fun _ => ⟨rfl, rfl, fun hnum hpos => (hclash hnum fun s hs => hpos s (hsub s hs)).mono hsub⟩⟩
    | mergeMiss =>
      obtain ⟨rfl, rfl, hne1, hne2⟩ := hspec
      simp only [add32_eq hb, add32_eq hlt]
      split_ifs with hgoL hgoR
      · refine ihl (⟨.l, i, c, r⟩ :: fs) total' hc ⟨?_, ?_⟩
        · simpa [beforeAll, Frame.before] using hclear.1
        · simp only [afterAll, Frame.after, cons_append, forall_mem_cons, forall_mem_append]
          exact ⟨hgoL, fun a ha => by have := hrgt a ha; omega, hclear.2⟩
      · refine ihr (⟨.r, i, c, l⟩ :: fs) total' hc ⟨?_, ?_⟩
        · simp only [beforeAll, Frame.before, forall_mem_append, forall_mem_singleton]
          exact ⟨hclear.1, fun a ha => by have := hlgt a ha; omega, hgoR⟩
        · simpa [afterAll, Frame.after] using hclear.2
      · have hmem : ⟨i, c⟩ ∈ (plugAll fs (.node l i c r)).inorder := hsub _ (by simp [Node.inorder])
        refine ⟨nofun, fun _ => ⟨rfl, rfl, fun hnum hpos => ?_⟩⟩
        refine clash_of_overlap hmem hnum (hpos ⟨i, c⟩ hmem) ?_ ?_
        · show i < idx + num; omega
        · show idx < i + c; omega

/-! ## Rotating back up, and down -/

/-- A clear path sends the bubbling loop back the way the descent came. -/
theorem PathClear.cons {f : Frame} (h : PathClear idx num (f :: fs)) :
    PathClear idx num fs ∧ (f.dir = .l → idx + num < f.index) ∧ (f.dir = .r → f.index + f.count < idx) := by
  refine ⟨⟨fun a ha => h.1 a (by simp [beforeAll, ha]), fun a ha => h.2 a (by simp [afterAll, ha])⟩, ?_, ?_⟩
  · intro hd
    exact h.2 ⟨f.index, f.count⟩ (by simp [afterAll, Frame.after, hd])
  · intro hd
    exact h.1 ⟨f.index, f.count⟩ (by simp [beforeAll, Frame.before, hd])

/-- **The second loop of `MergeInsertInternal`** keeps the list and never takes its error branch. -/
theorem bubbleUp_inorder (hlt : idx + num < 2 ^ 32) (fs : List Frame) (n : Node)
    (hb : ∀ f ∈ fs, f.index + f.count < 2 ^ 32) (hclear : PathClear idx num fs) :
    (bubbleUp idx num fs n).1 = true ∧ (bubbleUp idx num fs n).2.inorder = (plugAll fs n).inorder := by
  fun_induction bubbleUp idx num fs n with
  | case1 => exact ⟨rfl, rfl⟩
  | case2 _ _ _ _ _ _ ih =>
    obtain ⟨hok, hin⟩ := ih (forall_mem_cons.mp hb).2 hclear.cons.1
    exact ⟨hok, by rw [hin, plugAll, inorder_plugAll, inorder_plugAll, inorder_rotateLeftChild]⟩
  | case4 _ _ _ _ _ _ _ ih =>
    obtain ⟨hok, hin⟩ := ih (forall_mem_cons.mp hb).2 hclear.cons.1
    exact ⟨hok, by rw [hin, plugAll, inorder_plugAll, inorder_plugAll, inorder_rotateRightChild]⟩
  | case3 | case5 => exact ⟨rfl, rfl⟩
  | case6 f fs n _ hl hr =>
    -- the frame is on one side of the run
    obtain ⟨-, hL, hR⟩ := hclear.cons
    rw [add32_eq hlt] at hl
    rw [add32_eq (hb f mem_cons_self)] at hr
    cases hd : f.dir with
    | l => exact absurd (hL hd) hl
    | r => exact absurd (hR hd) hr

/-- What lowering does to a link: the node keeps its run, and so do the runs to either side of it in order. -/
structure Lowered (k k' : Link) : Prop where
  key : ∀ {l i c r}, k.node = .node l i c r → ∃ l' r', k'.node = .node l' i c r'
  before : beforeAll k'.path ++ k'.node.left.inorder = beforeAll k.path ++ k.node.left.inorder
  after : k'.node.right.inorder ++ afterAll k'.path = k.node.right.inorder ++ afterAll k.path

theorem Lowered.rfl' : Lowered k k := ⟨fun {_ _ _ _} h => ⟨_, _, h⟩, rfl, rfl⟩

theorem Lowered.trans {k k' k'' : Link} (h1 : Lowered k k') (h2 : Lowered k' k'') : Lowered k k'' := by
  refine ⟨?_, h2.before.trans h1.before, h2.after.trans h1.after⟩
  intro l i c r h
  obtain ⟨l', r', h'⟩ := h1.key h
  exact h2.key h'

theorem lowerImproperNodeOnce_lowered (k : Link) : Lowered k (lowerImproperNodeOnce k) := by
  obtain ⟨path, n⟩ := k
  have hrotR : ∀ l i c rl ri rc rr, Lowered ⟨path, .node l i c (.node rl ri rc rr)⟩
      (Link.goLeft ⟨path, rotateRightChild (.node l i c (.node rl ri rc rr))⟩) := by
    intro l i c rl ri rc rr
    refine ⟨fun {_ _ _ _} h => ⟨l, rl, by cases h; rfl⟩, ?_, ?_⟩
    · simp [rotateRightChild, Link.goLeft, Node.left, beforeAll, Frame.before]
    · simp [rotateRightChild, Link.goLeft, Node.right, afterAll, Frame.after, Node.inorder]
  have hrotL : ∀ ll li lc lr i c r, Lowered ⟨path, .node (.node ll li lc lr) i c r⟩
      (Link.goRight ⟨path, rotateLeftChild (.node (.node ll li lc lr) i c r)⟩) := by
    intro ll li lc lr i c r
    refine ⟨fun {_ _ _ _} h => ⟨lr, r, by cases h; rfl⟩, ?_, ?_⟩
    · simp [rotateLeftChild, Link.goRight, Node.left, beforeAll, Frame.before, Node.inorder]
    · simp [rotateLeftChild, Link.goRight, Node.right, afterAll, Frame.after]
  rcases n with - | ⟨- | ⟨ll, li, lc, lr⟩, i, c, - | ⟨rl, ri, rc, rr⟩⟩
  · exact Lowered.rfl'
  · exact Lowered.rfl'
  · exact hrotR .null i c rl ri rc rr
  · exact hrotL ll li lc lr i c .null
  · unfold lowerImproperNodeOnce
    rw [if_pos (by simp [Node.left])]
    split
    · exact hrotR _ i c rl ri rc rr
    · exact hrotL ll li lc lr i c _

theorem maintainHeapPropertyForZeroNode_lowered (k : Link) :
    Lowered k (maintainHeapPropertyForZeroNode k) := by
  fun_induction maintainHeapPropertyForZeroNode k with
  | case1 k h ih => exact (lowerImproperNodeOnce_lowered k).trans ih
  | case2 k h => exact Lowered.rfl'

theorem maintainHeapPropertyForNonZeroNode_lowered (k : Link) :
    Lowered k (maintainHeapPropertyForNonZeroNode k) := by
  fun_induction maintainHeapPropertyForNonZeroNode k with
  | case1 k h ih => exact (lowerImproperNodeOnce_lowered k).trans ih
  | case2 k h => exact Lowered.rfl'

/-- The zero-node loop stops only at a leaf. -/
theorem maintainHeapPropertyForZeroNode_leaf (k : Link) :
    (maintainHeapPropertyForZeroNode k).node.left = .null ∧
      (maintainHeapPropertyForZeroNode k).node.right = .null := by
  fun_induction maintainHeapPropertyForZeroNode k with
  | case1 k h ih => exact ih
  | case2 k h => simpa only [not_or, not_not] using h

/-- The list around a node a link refers to. -/
theorem inorder_top (h : k.node = .node l i c r) :
    k.top.inorder = (beforeAll k.path ++ l.inorder) ++ ⟨i, c⟩ :: (r.inorder ++ afterAll k.path) := by
  rw [Link.top, inorder_plugAll, h]
  simp [Node.inorder]

/-- Lowering a non-zero node changes only its place in the tree. -/
theorem lowerNonZeroNode_inorder (h : k.node = .node l i c r) :
    (lowerNonZeroNode k).inorder = k.top.inorder := by
  have hlow := maintainHeapPropertyForNonZeroNode_lowered k
  obtain ⟨l', r', h'⟩ := hlow.key h
  have hb := hlow.before
  have ha := hlow.after
  rw [h, h'] at hb ha
  simp only [Node.left, Node.right] at hb ha
  rw [lowerNonZeroNode, inorder_top h', inorder_top h, hb, ha]

/-- Removing a zero node passes its check and takes exactly that node's run out of the list. -/
theorem removeZeroNode_spec (h : k.node = .node l i c r) :
    ∃ root, removeZeroNode k = some root ∧
      root.inorder = (beforeAll k.path ++ l.inorder) ++ (r.inorder ++ afterAll k.path) := by
  have hlow := maintainHeapPropertyForZeroNode_lowered k
  have hleaf := maintainHeapPropertyForZeroNode_leaf k
  have hb := hlow.before
  have ha := hlow.after
  rw [hleaf.1, h] at hb
  rw [hleaf.2, h] at ha
  simp only [Node.left, Node.right, Node.inorder, append_nil, nil_append] at hb ha
  refine ⟨plugAll (maintainHeapPropertyForZeroNode k).path .null, ?_, ?_⟩
  · simp only [removeZeroNode]
    rw [if_pos hleaf]
  · rw [inorder_plugAll, hb, ha]
    simp [Node.inorder]

/-! ## Taking units -/

theorem decTotalCount_spec {total cnt : Nat} (h : cnt ≤ total) (hlt : total < 2 ^ 32) :
    decTotalCount total cnt = some (total - cnt) := by
  rw [decTotalCount, if_neg (by omega), sub32_eq h hlt]

/-- **Cutting units off the node at a link** succeeds and realises `Carve`. -/
theorem takeFrom_spec {t : CartesianTree}
    (hk : k.node = .node l i c r) (hc : Spaced (2 ^ 32) k.top.inorder)
    (htot : t.totalCount = total k.top.inorder) (hle : num ≤ c) :
    ∃ t', takeFrom t num k = some (i, t') ∧ Carve k.top.inorder ⟨i, c⟩ num t'.root.inorder ∧
      t'.totalCount + num = t.totalCount := by
  have hin := inorder_top hk
  have hib : i + c < 2 ^ 32 := hc.lt ⟨i, c⟩ (by rw [hin]; simp)
  have hge : num ≤ t.totalCount := by
    rw [htot, hin]; simp only [total_append, total_cons]; omega
  have hlt : t.totalCount < 2 ^ 32 := by
    have := hc.total_lt (by decide)
    omega
  have hsub : sub32 c num = c - num := sub32_eq hle (by omega)
  have hadd : add32 i num = i + num := add32_eq (by omega)
  unfold takeFrom
  rw [hk]
  simp only [decTotalCount_spec hge hlt, hsub, hadd, Node.getCount, Option.bind_eq_bind, Option.bind_some]
  split_ifs with hz
  · obtain ⟨root, hroot, hrin⟩ := removeZeroNode_spec (k := ⟨k.path, .node l (i + num) (c - num) r⟩) rfl
    rw [hroot]
    refine ⟨⟨t.totalCount - num, root⟩, rfl, ⟨_, _, hin, ?_⟩, Nat.sub_add_cancel hge⟩
    rw [Run.rest, if_pos (show c = num by omega), hrin]
    simp
  · refine ⟨⟨t.totalCount - num, _⟩, rfl, ⟨_, _, hin, ?_⟩, Nat.sub_add_cancel hge⟩
    rw [lowerNonZeroNode_inorder (k := ⟨k.path, .node l (i + num) (c - num) r⟩) rfl,
      inorder_top (k := ⟨k.path, .node l (i + num) (c - num) r⟩) rfl, Run.rest,
      if_neg (show ¬ c = num by omega)]
    simp

/-- A link the level-order walk may hold: it points at a node of the tree. -/
def Link.At (root : Node) (k : Link) : Prop := k.top = root ∧ k.node ≠ .null

theorem mem_pushed :
    k' ∈ k.pushed ↔ (k.node.right ≠ .null ∧ k' = k.goRight) ∨ (k.node.left ≠ .null ∧ k' = k.goLeft) := by
  unfold Link.pushed
  by_cases hr : k.node.right = .null <;> by_cases hl : k.node.left = .null <;> simp [hr, hl]

theorem Link.At.pushed (h : k.At root) (hk' : k' ∈ k.pushed) : k'.At root := by
  obtain ⟨path, n⟩ := k
  cases n with
  | null => exact absurd rfl h.2
  | node l i c r =>
    rcases mem_pushed.mp hk' with ⟨hr, rfl⟩ | ⟨hl, rfl⟩
    · exact ⟨h.1, hr⟩
    · exact ⟨h.1, hl⟩

/-- **The search of `TakeUnitsImpl`** ends at a node of the tree with at least `num` units. -/
theorem takeLoop_spec {root : Node} (num : Nat) (k : Link) (q : List Link)
    (hk : k.At root) (hcnt : num ≤ k.node.getCount) (hq : ∀ k' ∈ q, k'.At root) :
    (takeLoop num k q).At root ∧ num ≤ (takeLoop num k q).node.getCount := by
  fun_induction takeLoop num k q with
  | case1 k => exact ⟨hk, hcnt⟩
  | case2 k next rest hstop => exact ⟨hk, hcnt⟩
  | case3 k next rest hgo ih =>
    obtain ⟨hnext, hrest⟩ := forall_mem_cons.mp hq
    refine ih hnext ?_ (forall_mem_append.mpr ⟨hrest, fun _ => hnext.pushed⟩)
    by_contra hlt
    exact hgo ⟨hnext.2, by omega⟩

/-- `TakeUnits` finds no node with `num` units at the root, or cuts them off the node where its search ends. -/
theorem takeUnits_cases {t : CartesianTree} (hnum : 0 < num) (hruns : Spaced (2 ^ 32) t.root.inorder)
    (htot : t.totalCount = total t.root.inorder) :
    (takeUnits t num = some (none, t) ∧ t.root.getCount < num) ∨
      ∃ k l i c r t', takeLoop num ⟨[], t.root⟩ (Link.pushed ⟨[], t.root⟩) = k ∧ k.top = t.root ∧
        num ≤ t.root.getCount ∧
        k.node = .node l i c r ∧ num ≤ c ∧ c < 2 ^ 32 ∧ takeFrom t num k = some (i, t') ∧
        takeUnits t num = some (some i, t') ∧ Carve t.root.inorder ⟨i, c⟩ num t'.root.inorder ∧
        t'.totalCount + num = t.totalCount := by
  unfold takeUnits takeUnitsImpl
  by_cases hroot : t.root = .null
  · exact .inl ⟨if_pos (.inl hroot), by rw [hroot]; exact hnum⟩
  rw [if_neg (by simp [hroot, hnum.ne'])]
  by_cases hsmall : t.root.getCount < num
  · exact .inl ⟨if_pos ⟨hroot, hsmall⟩, hsmall⟩
  rw [if_neg (fun hcon => hsmall hcon.2)]
  have hle : num ≤ t.root.getCount := Nat.le_of_not_lt hsmall
  have hat : Link.At t.root ⟨[], t.root⟩ := ⟨rfl, hroot⟩
  obtain ⟨⟨htop, hne⟩, hcnt⟩ := takeLoop_spec num ⟨[], t.root⟩ (Link.pushed ⟨[], t.root⟩) hat hle (fun _ => hat.pushed)
  generalize takeLoop num ⟨[], t.root⟩ (Link.pushed ⟨[], t.root⟩) = k at htop hne hcnt
  cases hk : k.node with
  | null => exact absurd hk hne
  | node l i c r =>
    rw [hk] at hcnt
    obtain ⟨t', htake, hcarve, hrest⟩ := takeFrom_spec hk (htop ▸ hruns) (by rw [htop]; exact htot) hcnt
    rw [htop] at hcarve
    have hclt : i + c < 2 ^ 32 := hruns.lt _ hcarve.mem
    exact .inr ⟨k, l, i, c, r, t', rfl, htop, hle, hk, hcnt, by omega, htake, by simp [htake], hcarve, hrest⟩

/-- **`ReleaseRootNode`** on a non-empty tree carves the whole run of the root out. -/
theorem releaseRootNode_carve {t : CartesianTree} (hruns : Spaced (2 ^ 32) t.root.inorder)
    (htot : t.totalCount = total t.root.inorder) (hroot : t.root = .node l i c r) :
    ∃ root, removeZeroNode ⟨[], .node l i 0 r⟩ = some root ∧ releaseRootNode t = some ⟨t.totalCount - c, root⟩ ∧
      Carve t.root.inorder ⟨i, c⟩ c root.inorder ∧ c ≤ t.totalCount := by
  have hin : t.root.inorder = l.inorder ++ ⟨i, c⟩ :: r.inorder := by rw [hroot]; rfl
  have hge : c ≤ t.totalCount := by
    rw [htot, hin]; simp only [total_append, total_cons]; omega
  have hlt : t.totalCount < 2 ^ 32 := by
    rw [htot]; exact hruns.total_lt (by decide)
  obtain ⟨root, hrem, hrin⟩ := removeZeroNode_spec (k := ⟨[], .node l i 0 r⟩) rfl
  refine ⟨root, hrem, ?_, ⟨l.inorder, r.inorder, hin, ?_⟩, hge⟩
  · simp [releaseRootNode, removeNode, hroot, decTotalCount_spec hge hlt, hrem]
  · rw [hrin, Run.rest, if_pos rfl]
    simp [beforeAll, afterAll]

end CangjieRuntime.CartesianTree
