import CangjieRuntime.Native.PageCache

/-!
# `Native.CentralCache` — spans cut into blocks

For each size class the central cache keeps spans that are cut into blocks. The free blocks of a span are linked through
their first words; here they are a list of addresses.
-/

namespace CangjieRuntime.Native

structure CentralCache (S : Type) where
  pageCache : PageCache S
  centralCacheSpans : Nat → List S
  freeBlocks : S → List Nat

/-- The loop `while (start < end)`: the blocks that are linked. A block has at least one byte, so `stop - start` rounds
    are enough. -/
def carveLoop (alignBytes stop : Nat) : Nat → Nat → List Nat
  | 0, _ => []
  | fuel + 1, start => if start < stop then start :: carveLoop alignBytes stop fuel (start + alignBytes) else []

/-- The blocks of a span: the first is linked unconditionally. -/
def carve (x : Span) (alignBytes : Nat) : List Nat :=
  let start := x.pageId <<< PAGE_SHIFT
  let bytes := x.pageNum <<< PAGE_SHIFT
  start :: carveLoop alignBytes (start + bytes) bytes (start + alignBytes)

variable {S : Type} [DecidableEq S]

/-- `GetOneSpan` on the list `index`; `objs` and `page` are for `NewSpan`. -/
def getOneSpan (cc : CentralCache S) (index alignBytes : Nat) (objs : List S) (page : Option Nat) :
    Option (S × CentralCache S) :=
  if alignBytes ≥ MIN_ALIGN_NUM then
    match (cc.centralCacheSpans index).find? fun it => !(cc.freeBlocks it).isEmpty with
    | some it => some (it, cc)
    | none => do
        let npage ← calculatePageNum alignBytes
        let r ← newSpan cc.pageCache npage objs page
        let pageCache ← markUse r.2 r.1
        let x ← pageCache.span r.1
        some (r.1, {
          pageCache := pageCache
          centralCacheSpans :=
            Function.update cc.centralCacheSpans index (r.1 :: cc.centralCacheSpans index)
          freeBlocks := Function.update cc.freeBlocks r.1 (carve x alignBytes) })
  else none

end CangjieRuntime.Native
