import Alpine.Lib.Tokens
import Alpine.Mem.Packet

/-!
# Miss status holding registers (`mem/cache/mshr.{hh,cc}`, `mem/cache/mshr_queue.cc`)

The MSHRs of a whole memory system, `n` of them over all caches, with the parts of
`BaseCache::recvTimingResp` and `Cache::serviceMSHRTargets` that work on an MSHR.  A packet carries
what `findNextSenderState<MSHR>()` finds on its sender state stack: the MSHR of the cache above that
sent it, or none.  Orders and times are left out; nothing here reads them.

A function that fails names the assertion: `addPending` in `TargetList::add`, `clearPending` in
`MSHR::clearDownstreamPending`, `assertion` for every other one.
-/

namespace Alpine.Mem.MSHR

open Alpine Alpine.Mem

/-! ## Packets and targets -/

/-- A request packet; the flags below the request's are the packet's own. -/
structure Pkt (n : Nat) where
  cmd : MemCmd
  isRequest : cmd.testCmdAttrib .IsRequest = true
  mshr : Option (Fin n)
  reqClean : Bool := false
  reqInvalidate : Bool := false
  reqUncacheable : Bool := false
  isExpressSnoop : Bool := false
  cacheResponding : Bool := false
  responderHadWritable : Bool := false
  hasSharers : Bool := false
  satisfied : Bool := false
  deriving DecidableEq

variable {n : Nat}

namespace Pkt

variable (pkt : Pkt n)

def needsWritable : Bool := pkt.cmd.testCmdAttrib .NeedsWritable
def needsResponse : Bool := pkt.cmd.testCmdAttrib .NeedsResponse
def isInvalidate : Bool := pkt.cmd.testCmdAttrib .IsInvalidate
def isClean : Bool := pkt.cmd.testCmdAttrib .IsClean
def isUpgrade : Bool := pkt.cmd.testCmdAttrib .IsUpgrade
def fromCache : Bool := pkt.cmd.testCmdAttrib .FromCache
def isSWPrefetch : Bool := pkt.cmd.testCmdAttrib .IsSWPrefetch

/-- `Request::isCacheMaintenance` and `Request::isCacheInvalidate`. -/
def isCacheMaintenance : Bool := pkt.reqClean || pkt.reqInvalidate
def isCacheInvalidate : Bool := pkt.reqInvalidate

end Pkt

inductive Source where
  | FromCPU
  | FromSnoop
  | FromPrefetcher
  deriving DecidableEq

structure Target (n : Nat) where
  pkt : Pkt n
  source : Source
  markedPending : Bool
  allocOnFill : Bool
  deriving DecidableEq

structure TargetList (n : Nat) where
  list : List (Target n)
  needsWritable : Bool
  hasUpgrade : Bool
  allocOnFill : Bool
  hasFromCache : Bool

inductive Failure where
  | addPending
  | clearPending
  | depth
  | assertion
  deriving DecidableEq

def check (b : Bool) : Except Failure Unit := if b then .ok () else .error .assertion

namespace TargetList

def resetFlags (l : TargetList n) : TargetList n :=
  { l with needsWritable := false, hasUpgrade := false, allocOnFill := false, hasFromCache := false }

def isReset (l : TargetList n) : Bool :=
  !l.needsWritable && !l.hasUpgrade && !l.allocOnFill && !l.hasFromCache

def empty : TargetList n := ⟨[], false, false, false, false⟩

def withList (l : TargetList n) (ts : List (Target n)) : TargetList n := { l with list := ts }

def updateFlags (l : TargetList n) (pkt : Pkt n) (source : Source) (alloc_on_fill : Bool) : TargetList n :=
  if source ≠ .FromSnoop then
    { l with
      needsWritable := l.needsWritable || pkt.needsWritable
      hasUpgrade := l.hasUpgrade || (pkt.isUpgrade || pkt.cmd = .StoreCondReq)
      allocOnFill := l.allocOnFill || alloc_on_fill
      hasFromCache := l.hasFromCache || (source ≠ .FromPrefetcher && pkt.fromCache) }
  else l

def populateFlags (l : TargetList n) : TargetList n :=
  l.list.foldl (fun l t => l.updateFlags t.pkt t.source t.allocOnFill) l.resetFlags

end TargetList

/-- The command `replaceUpgrade` gives a packet. -/
def replaceUpgradeCmd : MemCmd → MemCmd
  | .UpgradeReq => .ReadExReq
  | .SCUpgradeReq => .SCUpgradeFailReq
  | .StoreCondReq => .StoreCondFailReq
  | cmd => cmd

theorem replaceUpgradeCmd_isRequest (cmd : MemCmd) (h : cmd.testCmdAttrib .IsRequest = true) :
    (replaceUpgradeCmd cmd).testCmdAttrib .IsRequest = true := by
  cases cmd <;> exact h

def replaceUpgrade (pkt : Pkt n) : Pkt n :=
  { pkt with
    cmd := replaceUpgradeCmd pkt.cmd
    isRequest := replaceUpgradeCmd_isRequest pkt.cmd pkt.isRequest }

def TargetList.replaceUpgrades (l : TargetList n) : TargetList n :=
  if l.hasUpgrade then
    { l with list := l.list.map fun t => { t with pkt := replaceUpgrade t.pkt }, hasUpgrade := false }
  else l

/-! ## MSHRs -/

/-- `allocated` tells whether the MSHR is on the queue's `allocatedList` or on its `freeList`. -/
structure Entry (n : Nat) where
  allocated : Bool
  inService : Bool
  downstreamPending : Bool
  pendingModified : Bool
  postInvalidate : Bool
  postDowngrade : Bool
  isForward : Bool
  targets : TargetList n
  deferredTargets : TargetList n

/-- The constructor. -/
def Entry.new : Entry n :=
  { allocated := false, inService := false, downstreamPending := false, pendingModified := false,
    postInvalidate := false, postDowngrade := false, isForward := false, targets := .empty,
    deferredTargets := .empty }

/-- The MSHRs of all caches. -/
abbrev Heap (n : Nat) := Fin n → Entry n

inductive Which where
  | targets
  | deferredTargets
  deriving DecidableEq

instance : Fintype Which where
  elems := {.targets, .deferredTargets}
  complete w := by cases w <;> decide

def Entry.list (e : Entry n) : Which → TargetList n
  | .targets => e.targets
  | .deferredTargets => e.deferredTargets

def Entry.setList (e : Entry n) (w : Which) (l : TargetList n) : Entry n :=
  match w with
  | .targets => { e with targets := l }
  | .deferredTargets => { e with deferredTargets := l }

def Heap.setList (h : Heap n) (m : Fin n) (w : Which) (l : TargetList n) : Heap n :=
  Function.update h m ((h m).setList w l)

def Heap.setDownstreamPending (h : Heap n) (m : Fin n) (b : Bool) : Heap n :=
  Function.update h m { h m with downstreamPending := b }

/-! ## Adding a target -/

/-- `TargetList::add`. -/
def add (h : Heap n) (m : Fin n) (w : Which) (pkt : Pkt n) (source : Source)
    (markPending alloc_on_fill : Bool) : Except Failure (Heap n) :=
  let l := ((h m).list w).updateFlags pkt source alloc_on_fill
  match markPending, pkt.mshr with
  | true, some k =>
    if (h k).downstreamPending then .error .addPending
    else
      .ok ((h.setDownstreamPending k true).setList m w
        { l with list := l.list ++ [⟨pkt, source, true, alloc_on_fill⟩] })
  | _, _ => .ok (h.setList m w { l with list := l.list ++ [⟨pkt, source, false, alloc_on_fill⟩] })

/-! ## Clearing `downstreamPending` -/

def Target.unmark (t : Target n) : Target n := { t with markedPending := false }

/-- What the loop does for the MSHR a marked target points to. -/
def clearSender (clear : Fin n → Heap n → Except Failure (Heap n)) (t : Target n) (h : Heap n) :
    Except Failure (Heap n) :=
  match t.markedPending, t.pkt.mshr with
  | true, some k => clear k h
  | _, _ => .ok h

/-- `TargetList::clearDownstreamPending(begin, end)` on the list `before ++ todo ++ after`, where
`before` is done; `clear` is `MSHR::clearDownstreamPending`. -/
def clearTargets (clear : Fin n → Heap n → Except Failure (Heap n)) (m : Fin n) (w : Which)
    (after : List (Target n)) : List (Target n) → List (Target n) → Heap n → Except Failure (Heap n)
  | _, [], h => .ok h
  | before, t :: todo, h => do
    let h1 ← clearSender clear t h
    clearTargets clear m w after (before ++ [t.unmark]) todo
      (h1.setList m w (((h1 m).list w).withList (before ++ t.unmark :: todo ++ after)))

/-- `MSHR::clearDownstreamPending`, with a bound on the depth of its recursion. -/
def clearDownstreamPending : Nat → Fin n → Heap n → Except Failure (Heap n)
  | 0, _, _ => .error .depth
  | fuel + 1, m, h =>
    if (h m).downstreamPending then
      clearTargets (clearDownstreamPending fuel) m .targets [] [] (h m).targets.list
        (h.setDownstreamPending m false)
    else .error .clearPending

/-- `n` nested calls are enough: every one clears another MSHR. -/
def clear (m : Fin n) (h : Heap n) : Except Failure (Heap n) := clearDownstreamPending n m h

/-! ## The operations -/

/-- `MSHRQueue::allocate` and `MSHR::allocate`. -/
def allocate (m : Fin n) (pkt : Pkt n) (alloc_on_fill : Bool) (h : Heap n) : Except Failure (Heap n) := do
  check (!(h m).allocated)
  check ((h m).targets.list.length + (h m).deferredTargets.list.length = 0)
  check (h m).targets.isReset
  let source := if pkt.cmd = .HardPFReq then Source.FromPrefetcher else .FromCPU
  let h1 := Function.update h m
    { h m with allocated := true, isForward := false, inService := false, downstreamPending := false }
  let h2 ← add h1 m .targets pkt source true alloc_on_fill
  check (h2 m).deferredTargets.isReset
  return h2

/-- `MSHRQueue::markInService` and `MSHR::markInService`. -/
def markInService (m : Fin n) (pending_modified_resp : Bool) (h : Heap n) : Except Failure (Heap n) := do
  check (!(h m).inService)
  let h1 := Function.update h m
    { h m with
      inService := true
      pendingModified := (h m).targets.needsWritable || pending_modified_resp
      postInvalidate := false
      postDowngrade := false }
  if !(h m).downstreamPending then clearTargets clear m .targets [] [] (h m).targets.list h1
  else return h1

/-- The condition of `allocateTarget` for putting a packet on the deferred list. -/
def defers (e : Entry n) (front pkt : Pkt n) : Bool :=
  pkt.isCacheMaintenance || front.isCacheMaintenance || !e.deferredTargets.list.isEmpty ||
    (e.inService && (e.postInvalidate ||
      (pkt.needsWritable && (!e.pendingModified || e.postDowngrade || e.isForward))))

def allocateTarget (m : Fin n) (pkt : Pkt n) (alloc_on_fill : Bool) (h : Heap n) : Except Failure (Heap n) := do
  check (pkt.cmd ≠ .HardPFReq)
  match (h m).targets.list with
  | [] => .error .assertion
  | front :: _ =>
    if defers (h m) front.pkt pkt then
      let pkt := if (h m).inService && (h m).postInvalidate then replaceUpgrade pkt else pkt
      add h m .deferredTargets pkt .FromCPU true alloc_on_fill
    else add h m .targets pkt .FromCPU (!(h m).inService) alloc_on_fill

/-- The copy of a snooped packet that `handleSnoop` keeps: of the packet, or of its request. -/
def snoopCopy (pkt : Pkt n) (will_respond : Bool) : Pkt n :=
  { cmd := pkt.cmd
    isRequest := pkt.isRequest
    mshr := if will_respond then pkt.mshr else none
    reqClean := pkt.reqClean
    reqInvalidate := pkt.reqInvalidate
    reqUncacheable := pkt.reqUncacheable }

/-- `Packet::setCacheResponding` and `Packet::setResponderHadWritable`. -/
def setResponding (will_respond : Bool) (pkt : Pkt n) : Except Failure (Pkt n) :=
  if will_respond then do
    check (!pkt.cacheResponding)
    check (!pkt.responderHadWritable)
    return { pkt with cacheResponding := true, responderHadWritable := true }
  else .ok pkt

def Heap.replaceUpgrades (h : Heap n) (m : Fin n) (w : Which) : Heap n :=
  h.setList m w ((h m).list w).replaceUpgrades

def Heap.setPostInvalidate (h : Heap n) (m : Fin n) : Heap n :=
  Function.update h m { h m with postInvalidate := true }

def Heap.setPostDowngrade (h : Heap n) (m : Fin n) : Heap n :=
  Function.update h m { h m with postDowngrade := true }

/-- The packet is saved and replayed after the response. -/
def saveSnoop (m : Fin n) (pkt : Pkt n) (h : Heap n) : Except Failure (Heap n × Pkt n) := do
  let will_respond := (h m).pendingModified && pkt.needsResponse && !pkt.isClean
  let pkt1 ← setResponding will_respond pkt
  let h1 ← add h m .targets (snoopCopy pkt will_respond) .FromSnoop
    ((h m).downstreamPending && (h m).targets.needsWritable) false
  let h2 := if pkt.needsWritable || pkt.isInvalidate then h1.setPostInvalidate m else h1
  return (h2, { pkt1 with satisfied := pkt1.satisfied || ((h2 m).pendingModified && pkt.isClean) })

/-- `MSHR::handleSnoop`: the MSHRs, the packet and the result. -/
def handleSnoop (m : Fin n) (pkt : Pkt n) (h : Heap n) : Except Failure (Heap n × Pkt n × Bool) := do
  check (pkt.needsWritable = pkt.isInvalidate || pkt.isCacheMaintenance)
  let invalidates := pkt.needsWritable || pkt.isCacheInvalidate
  if !(h m).inService || (pkt.isExpressSnoop && (h m).downstreamPending) then
    if invalidates then
      return ((h.replaceUpgrades m .targets).replaceUpgrades m .deferredTargets, pkt, false)
    else return (h, pkt, false)
  else
    let h1 := if invalidates then h.replaceUpgrades m .deferredTargets else h
    match (h1 m).targets.list with
    | [] => .error .assertion
    | front :: _ =>
      if (h1 m).postInvalidate || front.pkt.isCacheInvalidate then return (h1, pkt, true)
      else
        let (h2, pkt2) ← (if (h1 m).pendingModified || pkt.isInvalidate then saveSnoop m pkt h1
          else .ok (h1, pkt))
        if !pkt.needsWritable && !pkt.reqUncacheable then
          return (h2.setPostDowngrade m, { pkt2 with hasSharers := true }, true)
        else return (h2, pkt2, true)

/-! ## Responses -/

/-- `find_if_not` with a predicate that asserts on every target it looks at: the prefix and the rest. -/
def splitFromCPU (pred : Target n → Bool) : List (Target n) → Except Failure (List (Target n) × List (Target n))
  | [] => .ok ([], [])
  | t :: ts => do
    check (t.source = .FromCPU)
    if pred t then
      let (pre, rest) ← splitFromCPU pred ts
      return (t :: pre, rest)
    else return ([], t :: ts)

def promoteIf (pred : Target n → Bool) (m : Fin n) (h : Heap n) : Except Failure (Heap n) := do
  check (!(h m).downstreamPending)
  let (pre, rest) ← splitFromCPU pred (h m).deferredTargets.list
  let h1 ← clearTargets clear m .deferredTargets rest [] pre h
  let e := h1 m
  return Function.update h1 m
    { e with
      targets := { e.targets with list := e.targets.list ++ e.deferredTargets.list.take pre.length }
      deferredTargets :=
        { e.deferredTargets with list := e.deferredTargets.list.drop pre.length }.populateFlags }

def promoteReadable (m : Fin n) (h : Heap n) : Except Failure (Heap n) :=
  if !(h m).deferredTargets.list.isEmpty && !(h m).postInvalidate then
    promoteIf (fun t => !t.pkt.isCacheInvalidate && !t.pkt.needsWritable) m h
  else .ok h

def promoteWritable (m : Fin n) (h : Heap n) : Except Failure (Heap n) :=
  if (h m).deferredTargets.needsWritable && !((h m).postInvalidate || (h m).postDowngrade) then do
    check (!(h m).targets.needsWritable)
    promoteIf (fun t => !t.pkt.isCacheInvalidate) m
      (h.setList m .targets { (h m).targets with needsWritable := true })
  else .ok h

/-- The targets that are ready, and those that stay, of a target list behind its first target. -/
def takeSnoops : List (Target n) → Except Failure (List (Target n) × List (Target n))
  | [] => .ok ([], [])
  | t :: ts => do
    let (ready, stay) ← takeSnoops ts
    if t.source = .FromCPU then return (ready, t :: stay)
    else do
      check (t.source = .FromSnoop)
      return (t :: ready, stay)

def extractServiceableTargets (cmd : MemCmd) (e : Entry n) : Except Failure (TargetList n × Entry n) := do
  if cmd = .ReadRespWithInvalidate then
    match e.targets.list with
    | [] => .error .assertion
    | t :: ts =>
      check (t.source = .FromCPU || t.source = .FromPrefetcher)
      let (ready, stay) ← takeSnoops ts
      return ({ (TargetList.empty : TargetList n) with list := t :: ready }.populateFlags,
        { e with targets := { e.targets with list := stay }.populateFlags })
  else return (e.targets, { e with targets := TargetList.empty.populateFlags })

def promoteDeferredTargets (e : Entry n) : Bool × Entry n :=
  if e.targets.list.isEmpty && e.deferredTargets.list.isEmpty then (false, e)
  else
    let it := e.deferredTargets.list.findIdx fun t => t.pkt.isCacheMaintenance
    let k := if it = 0 then (if e.targets.list.isEmpty then 1 else 0) else it
    (true, { e with
      targets := { e.targets with
        list := e.targets.list ++ e.deferredTargets.list.take k }.populateFlags
      deferredTargets :=
        { e.deferredTargets with list := e.deferredTargets.list.drop k }.populateFlags })

/-- `MSHRQueue::deallocate` and `MSHR::deallocate`. -/
def deallocate (e : Entry n) : Except Failure (Entry n) := do
  check e.targets.list.isEmpty
  check e.deferredTargets.isReset
  return { e with targets := e.targets.resetFlags, inService := false, allocated := false }

/-- `MSHRQueue::markPending`. -/
def markPending (e : Entry n) : Except Failure (Entry n) := do
  check e.inService
  return { e with inService := false }

/-- What `recvTimingResp` reads: the response, the invalidate flag of its request, and whether the
block is valid and writable once the response has filled it. -/
structure Resp where
  cmd : MemCmd
  reqInvalidate : Bool
  blkValid : Bool
  blkWritable : Bool

def Resp.isError (r : Resp) : Bool := r.cmd.testCmdAttrib .IsError
def Resp.isClean (r : Resp) : Bool := r.cmd.testCmdAttrib .IsClean
def Resp.isInvalidate (r : Resp) : Bool := r.cmd.testCmdAttrib .IsInvalidate

/-- The loop body of `serviceMSHRTargets`, as far as it works on the MSHR. -/
def serviceTarget (r : Resp) (m : Fin n) (h : Heap n) (t : Target n) : Except Failure (Heap n) :=
  match t.source with
  | .FromCPU =>
    if t.pkt.isSWPrefetch then .ok h
    else if t.pkt.cmd = .WriteLineReq then do
      check (!r.isError)
      promoteWritable m h
    else .ok h
  | .FromPrefetcher => do
    check (t.pkt.cmd = .HardPFReq)
    return h
  | .FromSnoop => do
    check (!r.isError)
    return h

def serviceMSHRTargets (r : Resp) (m : Fin n) (h : Heap n) : Except Failure (Heap n) := do
  let (ready, e) ← extractServiceableTargets r.cmd (h m)
  ready.list.foldlM (serviceTarget r m) (Function.update h m e)

/-- The end of `recvTimingResp`: back to the queue's ready list, or free. -/
def requeue (m : Fin n) (h : Heap n) : Except Failure (Heap n) := do
  let (promoted, e) := promoteDeferredTargets (h m)
  let e1 ← (if promoted then markPending e else deallocate e)
  return Function.update h m e1

def recvTimingResp (r : Resp) (m : Fin n) (h : Heap n) : Except Failure (Heap n) := do
  check (!(h m).targets.list.isEmpty)
  let h1 ← (if r.blkValid && r.isClean && !r.isInvalidate then promoteReadable m h else .ok h)
  let h2 ← (if r.blkWritable && !r.reqInvalidate then promoteWritable m h1 else .ok h1)
  let h3 ← serviceMSHRTargets r m h2
  requeue m h3

/-- `MSHRQueue::forceDeallocateTarget`, called for a prefetch that is not needed any more. -/
def forceDeallocateTarget (m : Fin n) (h : Heap n) : Except Failure (Heap n) := do
  check (!(h m).targets.list.isEmpty)
  let e := { h m with targets := { (h m).targets with list := (h m).targets.list.tail } }
  if e.targets.list.isEmpty then
    let (promoted, e1) := promoteDeferredTargets e
    let e2 ← (if promoted then .ok e1 else deallocate e1)
    return Function.update h m e2
  else return Function.update h m e

end Alpine.Mem.MSHR
