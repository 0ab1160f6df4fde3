import Mathlib

/-!
# The memory checker (`mem/mem_checker.hh`, `mem/mem_checker.cc`)

`MemChecker::ByteTracker`: the outstanding reads, the completed reads and the clusters of overlapping
writes of one byte.  A failed assertion is an outcome of its own.  The two lists are kept newest first, so
that the scans from the back of the source start at their heads; the writes of a cluster are an unordered
map, and no scan depends on their order.

* `WriteCluster.startWrite`, `completeWrite`, `abortWrite` as in the source.
* `ByteTracker.startRead`, `inExpectedData`, `completeRead`, `startWrite`, `completeWrite`, `abortWrite`,
  `pruneTransactions` as in the source.
* `ByteTracker.step` — a call at a tick.
-/

namespace Alpine.Mem

/-- `TICK_INITIAL`. -/
def tickInitial : Nat := 0

/-- `TICK_FUTURE`, the largest tick. -/
def tickFuture : Nat := 2 ^ 64 - 1

/-- `MemChecker::Transaction`. -/
structure Transaction where
  serial : Nat
  start : Nat
  complete : Nat
  data : UInt8 := 0
  deriving DecidableEq

/-- An assertion that failed. -/
inductive CheckerFault where
  | assertion (text : String)

def checkThat (text : String) (p : Prop) [Decidable p] : Except CheckerFault Unit :=
  if p then .ok () else .error (.assertion text)

/-- `MemChecker::WriteCluster`. -/
structure WriteCluster where
  start : Nat := tickFuture
  complete : Nat := tickFuture
  writes : List Transaction := []
  completeMax : Nat := tickInitial
  numIncomplete : Nat := 0

namespace WriteCluster

def isComplete (c : WriteCluster) : Bool :=
  c.complete != tickFuture

/-- The write with a serial. -/
def find (c : WriteCluster) (serial : Nat) : Option Transaction :=
  c.writes.find? (·.serial == serial)

def startWrite (c : WriteCluster) (serial start : Nat) (data : UInt8) : Except CheckerFault WriteCluster := do
  checkThat "!isComplete()" (¬ c.isComplete)
  let c := { c with start := if c.start = tickFuture then start else c.start }
  checkThat "WriteClusters must filled in order!" (c.start ≤ start)
  let c := { c with numIncomplete := c.numIncomplete + 1 }
  let c ←
    if c.complete ≠ tickFuture then do
      checkThat "_start < complete" (start < c.complete)
      pure { c with complete := tickFuture }
    else pure c
  if (c.find serial).isSome then return c
  else return { c with writes := c.writes ++ [{ serial, start, complete := tickFuture, data }] }

def completeWrite (c : WriteCluster) (serial complete : Nat) : Except CheckerFault WriteCluster := do
  match c.find serial with
  | none => return c
  | some it =>
    checkThat "it->second.complete == TICK_FUTURE" (it.complete = tickFuture)
    let writes := c.writes.map fun w => if w.serial = serial then { w with complete := complete } else w
    let completeMax := if c.completeMax < complete then complete else c.completeMax
    let numIncomplete := c.numIncomplete - 1
    if numIncomplete = 0 then
      return { c with writes := writes, completeMax := completeMax, numIncomplete := numIncomplete,
                      complete := completeMax }
    else return { c with writes := writes, completeMax := completeMax, numIncomplete := numIncomplete }

def abortWrite (c : WriteCluster) (serial : Nat) : WriteCluster :=
  match c.find serial with
  | none => c
  | some _ =>
    let writes := c.writes.filter (·.serial != serial)
    let numIncomplete := c.numIncomplete - 1
    if numIncomplete = 0 ∧ writes ≠ [] then
      { c with writes := writes, numIncomplete := numIncomplete, complete := c.completeMax }
    else { c with writes := writes, numIncomplete := numIncomplete }

end WriteCluster

/-- `lastCompletedTransaction` on a list kept newest first: the first element that is complete before the
tick, or the oldest one. -/
def lastCompletedTransaction {α : Type} (complete : α → Nat) (before : Nat) : List α → Option α
  | [] => none
  | [x] => some x
  | x :: y :: rest =>
    if complete x ≥ before then lastCompletedTransaction complete before (y :: rest) else some x

/-- The list without what is older than its last completed transaction. -/
def eraseBefore {α : Type} (complete : α → Nat) (before : Nat) : List α → List α
  | [] => []
  | [x] => [x]
  | x :: y :: rest =>
    if complete x ≥ before then x :: eraseBefore complete before (y :: rest) else [x]

/-- `MemChecker::ByteTracker`. -/
structure ByteTracker where
  /-- By serial. -/
  outstandingReads : List Transaction := []
  /-- Newest first. -/
  readObservations : List Transaction := [{ serial := 0, start := tickInitial, complete := tickInitial }]
  /-- Newest first. -/
  writeClusters : List WriteCluster := []
  lastExpectedData : List UInt8 := []

/-- The locals of `inExpectedData`. -/
structure Scan where
  wcOverlap : Bool
  lastObsValid : Bool
  lastExpectedData : List UInt8

namespace ByteTracker

/-- `std::map::insert`. -/
def insertRead (t : Transaction) : List Transaction → List Transaction
  | [] => [t]
  | x :: xs =>
    if t.serial < x.serial then t :: x :: xs
    else if t.serial = x.serial then x :: xs
    else x :: insertRead t xs

def startRead (b : ByteTracker) (serial start : Nat) : ByteTracker :=
  { b with outstandingReads :=
      insertRead { serial, start, complete := tickFuture } b.outstandingReads }

/-- One write of the scan; a match ends it, with the data recorded so far. -/
def scanWrite (lastObs : Transaction) (start : Nat) (data : UInt8) (s : Scan) (write : Transaction) :
    Except (List UInt8) Scan :=
  if write.complete < lastObs.start then .ok s
  else if write.data = data then .error s.lastExpectedData
  else
    let s := { s with lastExpectedData := s.lastExpectedData ++ [write.data] }
    if write.complete > start then .ok s
    else
      let s := { s with wcOverlap := false }
      if lastObs.complete < write.start then .ok { s with lastObsValid := false } else .ok s

/-- The scan backwards through the write clusters, while they overlap. -/
def scanClusters (lastObs : Transaction) (start : Nat) (data : UInt8) :
    List WriteCluster → Scan → Except (List UInt8) Scan
  | [], s => .ok s
  | cluster :: older, s =>
    if s.wcOverlap then
      match cluster.writes.foldlM (scanWrite lastObs start data) s with
      | .error expected => .error expected
      | .ok s => scanClusters lastObs start data older s
    else .ok s

def inExpectedData (b : ByteTracker) (start complete : Nat) (data : UInt8) :
    Except CheckerFault (Bool × List UInt8) := do
  match lastCompletedTransaction Transaction.complete start b.readObservations with
  | none => throw (.assertion "!l->empty()")
  | some lastObs =>
    let lastObsValid := lastObs.complete != tickInitial
    match scanClusters lastObs start data b.writeClusters ⟨true, lastObsValid, []⟩ with
    | .error expected => return (true, expected)
    | .ok s =>
      if s.lastObsValid then
        checkThat "last_obs.complete <= start" (lastObs.complete ≤ start)
        if lastObs.data = data then return (true, s.lastExpectedData)
        else return (false, s.lastExpectedData ++ [lastObs.data])
      else
        match b.writeClusters.getLast?, b.writeClusters.head?, s.wcOverlap with
        | some begin_, some rbegin, true =>
          checkThat "writeClusters.begin()->start < complete && writeClusters.rbegin()->complete > start"
            (begin_.start < complete ∧ rbegin.complete > start)
          return (true, s.lastExpectedData)
        | _, _, _ =>
          if s.lastExpectedData = [] then
            checkThat "last_obs.complete == TICK_INITIAL" (lastObs.complete = tickInitial)
            return (true, s.lastExpectedData)
          else return (false, s.lastExpectedData)

/-- The tick before which transactions are no longer needed. -/
def pruneTick (b : ByteTracker) (curTick : Nat) : Nat :=
  match b.outstandingReads with
  | [] => curTick
  | first :: _ => first.start

def pruneTransactions (b : ByteTracker) (curTick : Nat) : Except CheckerFault ByteTracker := do
  checkThat "!l->empty()" (b.readObservations ≠ [])
  return { b with
    readObservations := eraseBefore Transaction.complete (b.pruneTick curTick) b.readObservations
    writeClusters := eraseBefore WriteCluster.complete (b.pruneTick curTick) b.writeClusters }

def completeRead (b : ByteTracker) (curTick serial complete : Nat) (data : UInt8) :
    Except CheckerFault (ByteTracker × Bool) := do
  match b.outstandingReads.find? (·.serial == serial) with
  | none => return (b, true)
  | some it =>
    let b := { b with outstandingReads := b.outstandingReads.filter (·.serial != serial) }
    let (result, expected) ← b.inExpectedData it.start complete data
    let b := { b with
      readObservations := { serial, start := it.start, complete, data } :: b.readObservations
      lastExpectedData := expected }
    let b ← b.pruneTransactions curTick
    return (b, result)

/-- `getIncompleteWriteCluster`, as the clusters with an incomplete one in front. -/
def incompleteWriteCluster (b : ByteTracker) : WriteCluster × List WriteCluster :=
  match b.writeClusters with
  | [] => ({}, [])
  | c :: cs => if c.isComplete then ({}, c :: cs) else (c, cs)

def startWrite (b : ByteTracker) (serial start : Nat) (data : UInt8) : Except CheckerFault ByteTracker := do
  let c ← b.incompleteWriteCluster.1.startWrite serial start data
  return { b with writeClusters := c :: b.incompleteWriteCluster.2 }

def completeWrite (b : ByteTracker) (curTick serial complete : Nat) : Except CheckerFault ByteTracker := do
  let c ← b.incompleteWriteCluster.1.completeWrite serial complete
  pruneTransactions { b with writeClusters := c :: b.incompleteWriteCluster.2 } curTick

def abortWrite (b : ByteTracker) (serial : Nat) : ByteTracker :=
  { b with writeClusters := b.incompleteWriteCluster.1.abortWrite serial :: b.incompleteWriteCluster.2 }

end ByteTracker

/-- The calls for a byte, each at its tick. -/
inductive MemCall where
  | startRead (serial tick : Nat)
  | completeRead (serial tick : Nat) (data : UInt8)
  | startWrite (serial tick : Nat) (data : UInt8)
  | completeWrite (serial tick : Nat)
  | abortWrite (serial tick : Nat)

namespace MemCall

def tick : MemCall → Nat
  | .startRead _ t => t
  | .completeRead _ t _ => t
  | .startWrite _ t _ => t
  | .completeWrite _ t => t
  | .abortWrite _ t => t

end MemCall

namespace ByteTracker

/-- A call at the current tick, and the result that it returns, true for a call without one. -/
def step (b : ByteTracker) : MemCall → Except CheckerFault (ByteTracker × Bool)
  | .startRead serial tick => .ok (b.startRead serial tick, true)
  | .completeRead serial tick data => b.completeRead tick serial tick data
  | .startWrite serial tick data => (b.startWrite serial tick data).map (·, true)
  | .completeWrite serial tick => (b.completeWrite tick serial tick).map (·, true)
  | .abortWrite serial _ => .ok (b.abortWrite serial, true)

/-- The calls one after the other, and their results. -/
def run (b : ByteTracker) : List MemCall → Except CheckerFault (ByteTracker × List Bool)
  | [] => .ok (b, [])
  | c :: cs => do
    let (b, r) ← b.step c
    let (b, rs) ← run b cs
    return (b, r :: rs)

end ByteTracker

end Alpine.Mem
