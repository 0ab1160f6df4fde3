import Alpine.Lib.DList
import Alpine.Lib.Run

/-!
# The fully associative tag store (`mem/cache/tags/fa_lru.cc`)

`FALRU` keeps its blocks in one doubly linked list, most recently used first, with a hash table from lines to
blocks.  `CacheTracking` counts the hits of smaller caches along with it: each block has a mask of the caches it
would be in, and each cache a pointer to its last block.

* The fields of the blocks are functions of the block's number; a pointer is a number or null.
* Following a null pointer and a failed assertion are `none`.
* `fill` is what the cache does on a miss (`BaseCache::allocateBlock`, then the block is made valid): evict the
  victim if it is valid, insert the line.
* `check` is the self-check of the tracking, which the source compiles for debugging only.
-/

namespace Alpine.Mem

def MaxAddr : Nat := 2 ^ 64 - 1

def MaxTick : Nat := 2 ^ 64 - 1

/-- A line: its tag and whether it is in the secure space. -/
abbrev LineKey : Type := Nat × Bool

/-- Sizes that the constructors accept. -/
structure FALRUParams where
  size : Nat
  blkSize : Nat
  minTrackedSize : Nat
  lookupLatency : Nat := 0
  accessLatency : Nat := 0
  clockPeriod : Nat := 1
  fits : size < 2 ^ 32 ∧ blkSize < 2 ^ 32 ∧ minTrackedSize < 2 ^ 32
  blkPow : ∃ k, blkSize = 2 ^ k
  sizePow : ∃ k, size = 2 ^ k
  minPos : minTrackedSize < size → 0 < minTrackedSize

namespace FALRUParams

variable (p : FALRUParams)

def numBlocks : Nat := p.size / p.blkSize

def numTrackedCaches : Nat :=
  if p.size > p.minTrackedSize then Nat.log2 p.size - Nat.log2 p.minTrackedSize else 0

/-- `mask(numTrackedCaches)`. -/
def inAllCachesMask : BitVec 32 := BitVec.ofNat 32 (2 ^ p.numTrackedCaches - 1)

/-- `blkAlign(addr)`. -/
def extractTag (addr : Nat) : Nat := addr - addr % p.blkSize

end FALRUParams

/-- The fields of `CacheBlk` that the tags use. -/
structure CacheBlk where
  tag : Nat
  isValid : Bool
  isSecure : Bool
  whenReady : Nat

/-- `CacheBlk::invalidate`. -/
def CacheBlk.invalidated : CacheBlk where
  tag := MaxAddr
  isValid := false
  isSecure := false
  whenReady := MaxTick

/-- `CacheBlk::insert`; the block is not made valid. -/
def CacheBlk.insert (blk : CacheBlk) (tag : Nat) (isSecure : Bool) : CacheBlk :=
  { blk with tag := tag, isValid := false, isSecure := isSecure }

/-- The tag store: the list, the blocks, the hash table and the tracking. -/
structure FALRU extends Links Nat where
  blks : Nat → CacheBlk
  inCachesMask : Nat → BitVec 32
  tagHash : LineKey → Option Nat
  boundaries : Nat → Option Nat
  hits : Nat → Nat
  misses : Nat → Nat
  accesses : Nat

/-! ## Tracking -/

/-- The position of the loops in `init` and `check`. -/
structure TrackPos where
  currSize : Nat
  trackedCacheSize : Nat
  inCachesMask : BitVec 32
  j : Nat

namespace TrackPos

variable (p : FALRUParams)

def start : TrackPos where
  currSize := 0
  trackedCacheSize := p.minTrackedSize
  inCachesMask := p.inAllCachesMask
  j := 0

/-- The block at this position is the last of a tracked cache. -/
def atBoundary (t : TrackPos) (isTail : Bool) : Bool :=
  (t.currSize + p.blkSize) % 2 ^ 32 = t.trackedCacheSize && !isTail

def advance (t : TrackPos) (isTail : Bool) : TrackPos :=
  if t.atBoundary p isTail then
    { currSize := (t.currSize + p.blkSize) % 2 ^ 32
      trackedCacheSize := (t.trackedCacheSize <<< 1) % 2 ^ 32
      inCachesMask := t.inCachesMask &&& ~~~(1#32 <<< t.j)
      j := t.j + 1 }
  else { t with currSize := (t.currSize + p.blkSize) % 2 ^ 32 }

end TrackPos

namespace FALRU

variable (p : FALRUParams)

/-- The loop of `CacheTracking::init`. -/
def initLoop : Nat → FALRU → Option Nat → TrackPos → FALRU
  | 0, s, _, _ => s
  | _ + 1, s, none, _ => s
  | fuel + 1, s, some blk, t =>
    initLoop fuel
      { s with
        inCachesMask := Function.update s.inCachesMask blk t.inCachesMask
        boundaries :=
          if t.atBoundary p (blk = s.tail) then Function.update s.boundaries t.j (some blk)
          else s.boundaries }
      (s.next blk) (t.advance p (blk = s.tail))

/-- `CacheTracking::init`. -/
def init (s : FALRU) : FALRU :=
  initLoop p (p.numBlocks + 1) s (if p.numTrackedCaches ≠ 0 then some s.head else none) (.start p)

/-- The constructor up to `cacheTracking.init`; the masks and boundaries of the allocated memory are
arbitrary. -/
def linkedBlocks (mask : Nat → BitVec 32) (boundaries : Nat → Option Nat) : FALRU where
  next := fun i => if i + 1 = p.numBlocks then none else some (i + 1)
  prev := fun i =>
    if i + 1 = p.numBlocks then some ((p.numBlocks + 2 ^ 32 - 2) % 2 ^ 32)
    else if i = 0 then none else some (i - 1)
  head := 0
  tail := p.numBlocks - 1
  blks := fun _ => .invalidated
  inCachesMask := mask
  tagHash := fun _ => none
  boundaries := boundaries
  hits := fun _ => 0
  misses := fun _ => 0
  accesses := 0

/-- The constructor. -/
def new (mask : Nat → BitVec 32) (boundaries : Nat → Option Nat) : FALRU :=
  init p (linkedBlocks p mask boundaries)

/-- The loop of `CacheTracking::check`. -/
def checkLoop (s : FALRU) : Nat → Option Nat → TrackPos → Bool
  | 0, _, _ => true
  | _ + 1, none, _ => true
  | fuel + 1, some blk, t =>
    s.inCachesMask blk = t.inCachesMask &&
      (!t.atBoundary p (blk = s.tail) || s.boundaries t.j = some blk) &&
      checkLoop s fuel (s.next blk) (t.advance p (blk = s.tail))

/-- `CacheTracking::check`: whether no `panic_if` fires. -/
def check (s : FALRU) : Bool := checkLoop p s (p.numBlocks + 1) (some s.head) (.start p)

/-- One iteration of `CacheTracking::moveBlockToHead`. -/
def boundaryToHead (blk : Nat) (updateCachesMask : BitVec 32) (s : FALRU) (i : Nat) : Option FALRU :=
  let currentCacheMask := 1#32 <<< i
  if currentCacheMask &&& updateCachesMask ≠ 0 then do
    let boundary ← s.boundaries i
    some { s with
      inCachesMask :=
        Function.update s.inCachesMask boundary (s.inCachesMask boundary &&& ~~~currentCacheMask)
      boundaries := Function.update s.boundaries i (s.prev boundary) }
  else if s.boundaries i = some blk then
    some { s with boundaries := Function.update s.boundaries i (s.prev blk) }
  else some s

def moveBlockToHead (s : FALRU) (blk : Nat) : Option FALRU := do
  let updateCachesMask := p.inAllCachesMask ^^^ s.inCachesMask blk
  let s ← (List.range p.numTrackedCaches).foldlM (boundaryToHead blk updateCachesMask) s
  some { s with inCachesMask := Function.update s.inCachesMask blk p.inAllCachesMask }

/-- One iteration of `CacheTracking::moveBlockToTail`. -/
def boundaryToTail (blk : Nat) (updateCachesMask : BitVec 32) (s : FALRU) (i : Nat) : Option FALRU :=
  let currentCacheMask := 1#32 <<< i
  if currentCacheMask &&& updateCachesMask ≠ 0 then do
    let boundary ← s.boundaries i
    let boundary' := if s.next boundary = some blk then s.next blk else s.next boundary
    let b ← boundary'
    some { s with
      boundaries := Function.update s.boundaries i boundary'
      inCachesMask := Function.update s.inCachesMask b (s.inCachesMask b ||| currentCacheMask) }
  else some s

def moveBlockToTail (s : FALRU) (blk : Nat) : Option FALRU := do
  let updateCachesMask := s.inCachesMask blk
  let s ← (List.range p.numTrackedCaches).foldlM (boundaryToTail blk updateCachesMask) s
  some { s with inCachesMask := Function.update s.inCachesMask blk 0 }

/-- `CacheTracking::recordAccess`; the caches that are counted are tracked ones and the cache itself. -/
def recordAccess (s : FALRU) (blk : Option Nat) : FALRU :=
  let hit (i : Nat) : Bool :=
    if i < p.numTrackedCaches then blk.any fun b => 1#32 <<< i &&& s.inCachesMask b ≠ 0
    else blk.any fun b => (s.blks b).isValid
  { s with
    hits := fun i => if i ≤ p.numTrackedCaches ∧ hit i = true then s.hits i + 1 else s.hits i
    misses := fun i => if i ≤ p.numTrackedCaches ∧ hit i = false then s.misses i + 1 else s.misses i
    accesses := s.accesses + 1 }

/-! ## The tag store -/

def moveToHead (s : FALRU) (blk : Nat) : Option FALRU :=
  if blk ≠ s.head then do
    let s ← s.moveBlockToHead p blk
    let l ← s.toLinks.moveToHead blk
    some { s with toLinks := l }
  else some s

def moveToTail (s : FALRU) (blk : Nat) : Option FALRU :=
  if blk ≠ s.tail then do
    let s ← s.moveBlockToTail p blk
    let l ← s.toLinks.moveToTail blk
    some { s with toLinks := l }
  else some s

/-- `findBlock(addr, is_secure)` for the line of the address; `none` when an assertion fails. -/
def findBlock (s : FALRU) (k : LineKey) : Option (Option Nat) :=
  match s.tagHash k with
  | none => some none
  | some blk =>
    if (s.blks blk).isValid then
      if (s.blks blk).tag = k.1 ∧ (s.blks blk).isSecure = k.2 then some (some blk) else none
    else some (some blk)

/-- `divCeil(t, clockPeriod())`. -/
def ticksToCycles (t : Nat) : Nat := (t + p.clockPeriod - 1) / p.clockPeriod

/-- `accessBlock`: the store, the block, the latency and the mask that is returned. -/
def accessBlock (s : FALRU) (curTick : Nat) (k : LineKey) : Option (FALRU × Option Nat × Nat × BitVec 32) := do
  let blk ← s.findBlock k
  match blk.filter fun b => (s.blks b).isValid with
  | some b =>
    let wait := ticksToCycles p ((s.blks b).whenReady - curTick)
    let lat :=
      if (s.blks b).whenReady > curTick ∧ wait > p.accessLatency then wait + p.accessLatency
      else p.accessLatency
    let mask := s.inCachesMask b
    let s ← s.moveToHead p b
    some (s.recordAccess p blk, blk, lat, mask)
  | none => some (s.recordAccess p blk, blk, p.lookupLatency, 0)

/-- `FALRU::invalidate`: the block is reset before its entry is erased from the hash table. -/
def invalidate (s : FALRU) (blk : Nat) : Option FALRU :=
  if (s.blks blk).isValid then do
    let s := { s with blks := Function.update s.blks blk .invalidated }
    let s ← s.moveToTail p blk
    some { s with
      tagHash := Function.update s.tagHash ((s.blks blk).tag, (s.blks blk).isSecure) none }
  else none

/-- `BaseCache::invalidateBlock` for a block of the tag store. -/
def invalidateBlock (s : FALRU) (blk : Nat) : Option FALRU := do
  let s ← s.invalidate p blk
  some { s with blks := Function.update s.blks blk .invalidated }

def findVictim (s : FALRU) : Nat := s.tail

/-- `insertBlock(pkt, blk)` for a packet to the line. -/
def insertBlock (s : FALRU) (k : LineKey) (blk : Nat) : Option FALRU :=
  if s.inCachesMask blk = 0 ∧ (s.blks blk).isValid = false then do
    let s := { s with blks := Function.update s.blks blk ((s.blks blk).insert k.1 k.2) }
    let s ← s.moveToHead p blk
    some { s with
      tagHash := Function.update s.tagHash ((s.blks blk).tag, (s.blks blk).isSecure) (some blk) }
  else none

/-- Evict the victim if it is valid, insert the line in it, and make the block valid. -/
def fill (s : FALRU) (k : LineKey) (whenReady : Nat) : Option FALRU := do
  let victim := s.findVictim
  let s ← if (s.blks victim).isValid then s.invalidateBlock p victim else some s
  let s ← s.insertBlock p k victim
  some { s with
    blks := Function.update s.blks victim
      { s.blks victim with isValid := true, whenReady := whenReady } }

end FALRU

end Alpine.Mem
