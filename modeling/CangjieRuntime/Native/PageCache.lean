import CangjieRuntime.Native.SizeManager

/-!
# `Native.PageCache` — runs of pages

The page cache hands out *spans*, runs of whole pages. Free spans lie in buckets by their length; a table says for a
page which span it belongs to. A longer span is split when there is none of the right length, and a span that comes back
is merged with its free neighbours, which it finds by the table.

* `S` are the addresses of span objects. `span` says which objects exist: to use one that was deleted has no result, and
  so has taking a span out of a bucket in which it is not.
* `new Span` may return any address that is not in use, also that of an object deleted before; `SystemAlloc` returns
  pages. Both are arguments: `objs` are the addresses to come, and `page` is the page number of what the system returns.
* A page number is an address divided by the page size, so sums of page numbers do not wrap around; `pageId - 1` may.
-/

namespace CangjieRuntime.Native

open Word

/-- `next`, `prev`, `useCount` and `freeBlocks` are not used by the page cache. -/
structure Span where
  pageNum : Nat
  pageId : Nat
  isUse : Bool
deriving DecidableEq, Repr

/-- `pageCacheSpans` are the buckets, from front to back. `systemPages` records the first pages of what `SystemAlloc`
    has returned. -/
structure PageCache (S : Type) where
  span : S → Option Span
  pageCacheSpans : Nat → List S
  idSpanMap : Nat → Option S
  systemPages : List Nat

variable {S : Type}

def PageCache.empty : PageCache S where
  span _ := none
  pageCacheSpans _ := []
  idSpanMap _ := none
  systemPages := []

variable [DecidableEq S]

/-! ## Parts -/

/-- The loop `idSpanMap[pageId + i] = span`, for `i < n`. -/
def mapPages (idSpanMap : Nat → Option S) (span : S) (pageId : Nat) : Nat → Nat → Option S
  | 0 => idSpanMap
  | i + 1 => Function.update (mapPages idSpanMap span pageId i) (pageId + i) (some span)

namespace PageCache

def setSpan (pc : PageCache S) (a : S) (x : Span) : PageCache S :=
  { pc with span := Function.update pc.span a (some x) }

def deleteSpan (pc : PageCache S) (a : S) : PageCache S := { pc with span := Function.update pc.span a none }

def setBucket (pc : PageCache S) (n : Nat) (bucket : List S) : PageCache S :=
  { pc with pageCacheSpans := Function.update pc.pageCacheSpans n bucket }

/-- `pageCacheSpans[n].PushFront(a)`. -/
def pushFront (pc : PageCache S) (n : Nat) (a : S) : Option (PageCache S) :=
  if n < MAX_NPAGES then some (pc.setBucket n (a :: pc.pageCacheSpans n)) else none

/-- `pageCacheSpans[n].Erase(a)`. -/
def erase (pc : PageCache S) (n : Nat) (a : S) : Option (PageCache S) :=
  if n < MAX_NPAGES ∧ a ∈ pc.pageCacheSpans n then some (pc.setBucket n ((pc.pageCacheSpans n).erase a)) else none

def mapAll (pc : PageCache S) (a : S) (x : Span) : PageCache S :=
  { pc with idSpanMap := mapPages pc.idSpanMap a x.pageId x.pageNum }

end PageCache

/-! ## `NewSpan` -/

/-- The first bucket from `n` on that is not empty, among the next `count` ones. -/
def findBucket (pc : PageCache S) : Nat → Nat → Option Nat
  | 0, _ => none
  | count + 1, n => if pc.pageCacheSpans n ≠ [] then some n else findBucket pc count (n + 1)

/-- The bucket of the right length is not empty. -/
def takeSpan (pc : PageCache S) (k : Nat) (kSpan : S) (rest : List S) : Option (S × PageCache S) := do
  let x ← pc.span kSpan
  some (kSpan, (pc.setBucket k rest).mapAll kSpan x)

/-- A longer span is split: a new object gets the first `k` pages. -/
def splitSpan (pc : PageCache S) (n k : Nat) (objs : List S) : Option (S × PageCache S) :=
  match objs, pc.pageCacheSpans n with
  | kSpan :: _, nSpan :: rest => do
      let x ← pc.span nSpan
      let pc := pc.setBucket n rest
      let new : Span := { pageNum := k, pageId := x.pageId, isUse := false }
      let pc := pc.setSpan kSpan new
      let left : Span := { x with pageNum := x.pageNum - k, pageId := x.pageId + k }
      let pc ← (pc.setSpan nSpan left).pushFront left.pageNum nSpan
      some (kSpan, pc.mapAll kSpan new)
  | _, _ => none

/-- A span of all the pages that `SystemAlloc` returned. -/
def growCache (pc : PageCache S) (bigSpan : S) (pageId : Nat) : Option (PageCache S) :=
  let pc := { pc with systemPages := pageId :: pc.systemPages }
  (pc.setSpan bigSpan { pageNum := MAX_NPAGES - 1, pageId := pageId, isUse := false }).pushFront
    (MAX_NPAGES - 1) bigSpan

/-- `NewSpan`; `depth` bounds the calls of itself. -/
def newSpanCall : Nat → PageCache S → Nat → List S → Option Nat → Option (S × PageCache S)
  | 0, _, _, _, _ => none
  | depth + 1, pc, k, objs, page =>
    if 0 < k ∧ k < MAX_NPAGES then
      match pc.pageCacheSpans k with
      | kSpan :: rest => takeSpan pc k kSpan rest
      | [] =>
        match findBucket pc (MAX_NPAGES - (k + 1)) (k + 1) with
        | some n => splitSpan pc n k objs
        | none =>
          match objs, page with
          | bigSpan :: objs, some pageId => do
              let pc ← growCache pc bigSpan pageId
              newSpanCall depth pc k objs none
          | _, _ => none
    else none

def newSpan (pc : PageCache S) (k : Nat) (objs : List S) (page : Option Nat) : Option (S × PageCache S) :=
  newSpanCall 2 pc k objs page

/-! ## `ReleaseSpanToPageCache` -/

/-- `span` becomes `merged`, and its neighbour goes. -/
def absorb (pc : PageCache S) (span neighbour : S) (merged y : Span) : Option (PageCache S) := do
  let pc ← (pc.setSpan span merged).erase y.pageNum neighbour
  some (pc.deleteSpan neighbour)

/-- The first loop. -/
def mergeForward : Nat → PageCache S → S → Option (PageCache S)
  | 0, _, _ => none
  | fuel + 1, pc, span => do
      let x ← pc.span span
      match pc.idSpanMap (sub64 x.pageId 1) with
      | none => some pc
      | some prevSpan => do
          let y ← pc.span prevSpan
          if y.isUse then some pc
          else if y.pageNum + x.pageNum > MAX_NPAGES - 1 then some pc
          else do
            let pc ← absorb pc span prevSpan { x with pageNum := x.pageNum + y.pageNum, pageId := y.pageId } y
            mergeForward fuel pc span

/-- The second loop. -/
def mergeBackward : Nat → PageCache S → S → Option (PageCache S)
  | 0, _, _ => none
  | fuel + 1, pc, span => do
      let x ← pc.span span
      match pc.idSpanMap (x.pageId + x.pageNum) with
      | none => some pc
      | some nextSpan => do
          let y ← pc.span nextSpan
          if y.isUse then some pc
          else if x.pageNum + y.pageNum > MAX_NPAGES - 1 then some pc
          else do
            let pc ← absorb pc span nextSpan { x with pageNum := x.pageNum + y.pageNum } y
            mergeBackward fuel pc span

/-- The span is put into the bucket of its length. -/
def hangSpan (pc : PageCache S) (span : S) : Option (PageCache S) := do
  let x ← pc.span span
  let pc ← pc.pushFront x.pageNum span
  some ((pc.setSpan span { x with isUse := false }).mapAll span x)

/-- Each round of a loop makes the span longer, so there are fewer than `MAX_NPAGES`. -/
def releaseSpanToPageCache (pc : PageCache S) (span : S) : Option (PageCache S) := do
  let pc ← mergeForward MAX_NPAGES pc span
  let pc ← mergeBackward MAX_NPAGES pc span
  hangSpan pc span

/-! ## Runs -/

/-- `NewSpan`, whose result the caller marks as used, and `ReleaseSpanToPageCache`. -/
inductive PageOp (S : Type) where
  | newSpan (k : Nat) (objs : List S) (page : Option Nat)
  | release (span : S)

/-- The caller of `NewSpan` sets `isUse`. -/
def markUse (pc : PageCache S) (a : S) : Option (PageCache S) := do
  let x ← pc.span a
  some (pc.setSpan a { x with isUse := true })

namespace PageOp

def act (pc : PageCache S) : PageOp S → Option (PageCache S)
  | newSpan k objs page => do
      let r ← Native.newSpan pc k objs page
      markUse r.2 r.1
  | release span => releaseSpanToPageCache pc span

/-- What the system returns is new: 128 pages of the address space that it has not returned before. -/
def FreshPages (pc : PageCache S) (pageId : Nat) : Prop :=
  pageId + (MAX_NPAGES - 1) ≤ 2 ^ 52 ∧
    ∀ first ∈ pc.systemPages, pageId + (MAX_NPAGES - 1) ≤ first ∨ first + (MAX_NPAGES - 1) ≤ pageId

/-- Between 1 and 128 pages are asked for, and new objects are new; a span in use is released. -/
def Callable (pc : PageCache S) : PageOp S → Prop
  | newSpan k objs page =>
    (0 < k ∧ k < MAX_NPAGES) ∧ (objs.Nodup ∧ ∀ a ∈ objs, (pc.span a).isNone) ∧ ∀ pageId ∈ page, FreshPages pc pageId
  | release span => (pc.span span).any (·.isUse)

instance (pc : PageCache S) (pageId : Nat) : Decidable (FreshPages pc pageId) := inferInstanceAs (Decidable (_ ∧ _))

instance (pc : PageCache S) (op : PageOp S) : Decidable (Callable pc op) :=
  match op with
  | newSpan k objs page =>
    inferInstanceAs (Decidable ((0 < k ∧ k < MAX_NPAGES) ∧ (objs.Nodup ∧ ∀ a ∈ objs, (pc.span a).isNone) ∧
      ∀ pageId ∈ page, FreshPages pc pageId))
  | release span => inferInstanceAs (Decidable ((pc.span span).any (·.isUse) = true))

end PageOp

end CangjieRuntime.Native
