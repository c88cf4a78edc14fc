import CangjieRuntime.Lib.Chain

/-!
# `Util.Link` — bidirectional lists that end in null pointers

The functions on `struct Link` in `list.h`. The head is itself a link, the first node points back at it, and the last
node has no successor. The caller keeps a pointer to the last node if it wants one.
-/

namespace CangjieRuntime

open Chain List

namespace Link

variable {A : Type} [DecidableEq A]

/-! ## The functions -/

def linkInit (m : Links A) (link : A) : Links A := (m.setNext link none).setPrev link none

def linkRemove (m : Links A) (item : A) : Links A :=
  let m := match m.prev item with
    | some prev => m.setNext prev (m.next item)
    | none => m
  match m.next item with
  | some next => m.setPrev next (m.prev item)
  | none => m

def linkPushHead (m : Links A) (link object : A) : Links A :=
  let m := m.setNext object (m.next link)
  let m := m.setPrev object (some link)
  let m := m.setNext link (some object)
  match m.next object with
  | some next => m.setPrev next (some object)
  | none => m

def linkPushTail (m : Links A) (linkTail object : A) : Links A :=
  let m := m.setNext object none
  let m := m.setNext linkTail (some object)
  m.setPrev object (some linkTail)

/-! ## Lines -/

/-- The list of `head` is `xs`, and nothing follows. -/
structure Line (m : Links A) (head : A) (xs : List A) : Prop where
  path : m.Path (head :: xs)
  nodup : (head :: xs).Nodup
  last : ∀ a ∈ (head :: xs).getLast?, m.next a = none

variable {m m' : Links A} {head a b x : A} {xs ys p q : List A}

omit [DecidableEq A] in
/-- Lines elsewhere stay. -/
theorem Line.congr (h : Line m head xs) (hchange : m.Changes m' ys) (hdisj : List.Disjoint (head :: xs) ys) :
    Line m' head xs := by
  refine ⟨h.path.congr hchange hdisj, h.nodup, fun a ha => ?_⟩
  rw [(hchange a (hdisj (mem_of_getLast? ha))).1]
  exact h.last a ha

theorem line_linkInit (m : Links A) (head : A) : Line (linkInit m head) head [] := by
  refine ⟨path_singleton _ head, nodup_singleton head, fun a ha => ?_⟩
  obtain rfl : head = a := Option.some.inj ha
  exact next_setNext_self ..

theorem changes_linkInit (m : Links A) (x : A) : m.Changes (linkInit m x) [x] := by
  intro u hu
  have hne : u ≠ x := fun heq => hu (heq ▸ mem_singleton_self x)
  exact ⟨next_setNext_of_ne m none hne, prev_setPrev_of_ne _ none hne⟩

/-- Where a node stands, and what `LinkRemove` makes of its neighbours. -/
theorem linkRemove_spec (h : Line m head (xs ++ x :: ys)) :
    Line (linkRemove m x) head (xs ++ ys) ∧ m.Changes (linkRemove m x) (head :: (xs ++ ys)) := by
  obtain ⟨p, a, hp⟩ : ∃ p a, head :: xs = p ++ [a] := ⟨_, _, (dropLast_append_getLast (cons_ne_nil head xs)).symm⟩
  have ha : a ∈ head :: xs := hp ▸ mem_append_right p (mem_singleton_self a)
  have hpath : m.Path (p ++ a :: x :: ys) := by
    rw [append_cons, ← hp]
    exact h.path
  obtain ⟨hleft, hax, hright⟩ := path_split.mp hpath
  have hnodup : (p ++ a :: x :: ys).Nodup := by
    rw [append_cons, ← hp]
    exact h.nodup
  have hrest : (head :: (xs ++ ys)).Nodup :=
    h.nodup.sublist (List.Sublist.cons_cons head (List.Sublist.append_left (sublist_cons_self x ys) xs))
  have hap : a ∉ p := fun hmem => disjoint_of_nodup_append hnodup hmem (mem_cons_self ..)
  obtain ⟨haxys, hxys⟩ := nodup_cons.mp (hnodup.sublist (sublist_append_right p (a :: x :: ys)))
  have hxa : x ≠ a := fun heq => haxys (heq ▸ mem_cons_self ..)
  have hamem : a ∈ head :: (xs ++ ys) := mem_append_left ys ha
  cases ys with
  | nil =>
    -- the last node goes, and its predecessor becomes the last
    have hnone : m.next x = none := h.last x (getLast?_concat (l := head :: xs))
    have heq : linkRemove m x = m.setNext a none := by
      simp only [linkRemove, hax.prev, hnone, next_setNext_of_ne m _ hxa]
    rw [heq, append_nil]
    refine ⟨⟨?_, ?_, ?_⟩, ?_⟩
    · rw [hp]
      refine Links.Path.frame hleft (fun u hu => ?_) fun _ _ => rfl
      rw [dropLast_concat] at hu
      exact next_setNext_of_ne m none fun heq => hap (heq ▸ hu)
    · rw [append_nil] at hrest
      exact hrest
    · intro a' ha'
      rw [hp, getLast?_concat] at ha'
      obtain rfl : a = a' := Option.some.inj ha'
      exact next_setNext_self ..
    · intro u hu
      exact ⟨next_setNext_of_ne m none fun heq => hu (heq ▸ ha), rfl⟩
  | cons b q =>
    obtain ⟨-, hxb, hright⟩ := path_split (p := []).mp hright
    have heq : linkRemove m x = m.link a b := by
      simp only [linkRemove, hax.prev, hxb.next, next_setNext_of_ne m _ hxa, prev_setNext, Links.link]
    obtain ⟨-, hbq⟩ := nodup_cons.mp hxys
    have hlist : head :: (xs ++ b :: q) = p ++ a :: b :: q := by
      rw [append_cons p a, ← hp, cons_append]
    have hb : b ∉ (p ++ [a]).tail := by
      rw [← hp, tail_cons]
      intro hmem
      exact disjoint_of_nodup_append (nodup_cons.mp hrest).2 hmem (mem_cons_self ..)
    rw [heq]
    refine ⟨⟨?_, hrest, ?_⟩, ?_⟩
    · rw [hlist]
      apply hleft.join hright hap _ hb (nodup_cons.mp hbq).1
      exact fun hmem => haxys (mem_cons_of_mem x (mem_of_mem_dropLast hmem))
    · intro a' ha'
      have hback : a' ∈ (b :: q).getLast? := by
        rw [hlist, append_cons, getLast?_append_cons] at ha'
        exact ha'
      have hne : a' ≠ a := fun heq => haxys (mem_cons_of_mem x (heq ▸ mem_of_getLast? hback))
      rw [next_link_of_ne m b hne]
      apply h.last a'
      rw [← cons_append, getLast?_append_cons, getLast?_cons_cons]
      exact hback
    · exact changes_link m hamem (mem_cons_of_mem head (mem_append_right xs (mem_cons_self ..)))

theorem linkPushHead_spec (h : Line m head xs) (hx : x ∉ head :: xs) :
    Line (linkPushHead m head x) head (x :: xs) ∧ m.Changes (linkPushHead m head x) (head :: x :: xs) := by
  have hxhead : x ≠ head := fun heq => hx (heq ▸ mem_cons_self ..)
  have hxmem : x ∈ head :: x :: xs := mem_cons_of_mem head (mem_cons_self ..)
  have hnodup : (head :: x :: xs).Nodup := by
    rw [nodup_cons, nodup_cons]
    obtain ⟨hhead, hxs⟩ := nodup_cons.mp h.nodup
    refine ⟨?_, fun hmem => hx (mem_cons_of_mem head hmem), hxs⟩
    intro hmem
    rcases mem_cons.mp hmem with heq | hmem
    · exact hxhead heq.symm
    · exact hhead hmem
  cases xs with
  | nil =>
    have hnone : m.next head = none := h.last head rfl
    have heq : linkPushHead m head x = (m.setNext x none).link head x := by
      simp only [linkPushHead, hnone, next_setPrev, next_setNext_of_ne _ _ hxhead, next_setNext_self, Links.link]
      rfl
    rw [heq]
    refine ⟨⟨?_, hnodup, ?_⟩, ?_⟩
    · exact isChain_pair.mpr ⟨next_link_self .., prev_link_self ..⟩
    · intro a ha
      obtain rfl : x = a := Option.some.inj ha
      rw [next_link_of_ne _ _ hxhead]
      exact next_setNext_self ..
    · intro u hu
      obtain ⟨hun, hup⟩ := changes_link (m.setNext x none) (mem_cons_self ..) hxmem u hu
      refine ⟨hun.trans ?_, hup⟩
      exact next_setNext_of_ne m none fun heq => hu (heq ▸ hxmem)
  | cons b q =>
    obtain ⟨-, hheadb, hright⟩ := path_split (p := []).mp h.path
    have hxb : x ≠ b := fun heq => hx (heq ▸ mem_cons_of_mem head (mem_cons_self ..))
    have heq : linkPushHead m head x = (m.link x b).link head x := by
      simp only [linkPushHead, hheadb.next, next_setPrev, next_setNext_of_ne _ _ hxhead, next_setNext_self]
      simp only [Links.link, Links.setNext, Links.setPrev, Links.mk.injEq, true_and]
      exact Function.update_comm hxb ..
    obtain ⟨hhead, hxbq⟩ := nodup_cons.mp hnodup
    obtain ⟨hxbq, hbq⟩ := nodup_cons.mp hxbq
    have htail : (m.link x b).Path ([] ++ x :: b :: q) := by
      apply (path_singleton m x).join hright not_mem_nil _ not_mem_nil (nodup_cons.mp hbq).1
      exact fun hmem => hxbq (mem_of_mem_dropLast hmem)
    rw [heq]
    refine ⟨⟨?_, hnodup, ?_⟩, ?_⟩
    · apply (path_singleton _ head).join htail not_mem_nil _ not_mem_nil hxbq
      exact fun hmem => hhead (mem_of_mem_dropLast hmem)
    · intro a ha
      rw [getLast?_cons_cons, getLast?_cons_cons] at ha
      have hmem := mem_of_getLast? ha
      have hahead : a ≠ head := fun heq => hhead (heq ▸ mem_cons_of_mem x hmem)
      have hax : a ≠ x := fun heq => hxbq (heq ▸ hmem)
      rw [next_link_of_ne _ _ hahead, next_link_of_ne _ _ hax]
      apply h.last a
      rw [getLast?_cons_cons]
      exact ha
    · have hbmem : b ∈ head :: x :: b :: q := mem_cons_of_mem head (mem_cons_of_mem x (mem_cons_self ..))
      exact (changes_link m hxmem hbmem).trans (changes_link _ (mem_cons_self ..) hxmem)

theorem linkPushTail_spec (h : Line m head xs) (hx : x ∉ head :: xs) (ha : a ∈ (head :: xs).getLast?) :
    Line (linkPushTail m a x) head (xs ++ [x]) ∧ m.Changes (linkPushTail m a x) (head :: (xs ++ [x])) := by
  obtain ⟨p, hp⟩ := getLast?_eq_some_iff.mp ha
  have hamem : a ∈ head :: xs := mem_of_getLast? ha
  have hxa : x ≠ a := fun heq => hx (heq ▸ hamem)
  have hap : a ∉ p := by
    intro hmem
    have hnodup := h.nodup
    rw [hp] at hnodup
    exact disjoint_of_nodup_append hnodup hmem (mem_singleton_self a)
  have hleft : (m.setNext x none).Path (p ++ [a]) := by
    rw [← hp]
    refine Links.Path.frame h.path (fun u hu => ?_) fun _ _ => rfl
    exact next_setNext_of_ne m none fun heq => hx (heq ▸ mem_of_mem_dropLast hu)
  have heq : linkPushTail m a x = (m.setNext x none).link a x := rfl
  have hlist : head :: (xs ++ [x]) = p ++ a :: x :: [] := by
    rw [append_cons p a, ← hp, cons_append]
  rw [heq]
  refine ⟨⟨?_, ?_, ?_⟩, ?_⟩
  · rw [hlist]
    apply hleft.join (path_singleton _ x) hap not_mem_nil _ not_mem_nil
    rw [← hp]
    exact fun hmem => hx (mem_of_mem_tail hmem)
  · exact (perm_append_singleton x (head :: xs)).nodup_iff.mpr (nodup_cons.mpr ⟨hx, h.nodup⟩)
  · intro a' ha'
    rw [← cons_append, getLast?_concat] at ha'
    obtain rfl : x = a' := Option.some.inj ha'
    rw [next_link_of_ne _ _ hxa]
    exact next_setNext_self ..
  · intro u hu
    have hxmem : x ∈ head :: (xs ++ [x]) := mem_cons_of_mem head (mem_append_right xs (mem_singleton_self x))
    obtain ⟨hun, hup⟩ := changes_link (m.setNext x none) (mem_append_left [x] hamem) hxmem u hu
    refine ⟨hun.trans ?_, hup⟩
    exact next_setNext_of_ne m none fun heq => hu (heq ▸ hxmem)

end Link
end CangjieRuntime
