import Mathlib

/-!
# The issue order list of the instruction queue

Ready instructions wait in one priority queue for each op class (`readyInsts`), and `listOrder` has an entry
for each queue that is not empty, with the sequence number of its oldest instruction.
`scheduleReadyInsts` walks along this list, and the list changes under its hands.

A priority queue is the list of its instructions in the order of `pqCompare`, which puts the oldest on top.
The nodes of `listOrder` are numbered, and an iterator is the number of its node.  The pool of functional
units is a parameter.  Left out is what these functions only write: the count of free entries, the status
bits of an issued instruction, and statistics other than `statFuBusy`.
-/

namespace Alpine.Cpu.Issue

/-- What the queue reads of an instruction that does not change. -/
structure DynInst (C : Type) where
  seqNum : Nat
  opClass : C
  isMemRef : Bool
deriving DecidableEq

/-- An entry of the list, with the number of its node. -/
structure ListOrderEntry (C : Type) where
  node : Nat
  queueType : C
  oldestInst : Nat
deriving DecidableEq

/-- The pool of functional units, and `No_OpClass`, which needs none. -/
class FUPool (F C : Type) where
  noOpClass : C
  getUnit : F → C → Int × F
  getOpLatency : F → C → Nat
  isPipelined : F → C → Bool
  freeUnitNextCycle : F → Int → F

/-- `FUPool::NoCapableFU` and `FUPool::NoFreeFU`. -/
def NoCapableFU : Int := -2

def NoFreeFU : Int := -1

/-- The event at the end of the execution of an instruction that takes more than a cycle. -/
structure FUCompletion (C : Type) where
  inst : DynInst C
  fuIdx : Int
  opLatency : Nat
  freeFU : Bool

structure InstructionQueue (C F : Type) where
  readyInsts : C → List (DynInst C)
  listOrder : List (ListOrderEntry C)
  /-- The number of the next node. -/
  nextNode : Nat
  queueOnList : C → Bool
  /-- `none` is `listOrder.end()`. -/
  readyIt : C → Option Nat
  deferredMemInsts : List (DynInst C)
  blockedMemInsts : List (DynInst C)
  retryMemInsts : List (DynInst C)
  instsToExecute : List (DynInst C)
  completions : List (FUCompletion C)
  fuPool : F
  statFuBusy : C → Nat
  /-- The status bits of the instructions, by sequence number. -/
  canIssue : Nat → Bool
  squashed : Nat → Bool
  translationCompleted : Nat → Bool

namespace InstructionQueue

variable {C F : Type} [DecidableEq C]

def new (fuPool : F) : InstructionQueue C F where
  readyInsts _ := []
  listOrder := []
  nextNode := 0
  queueOnList _ := false
  readyIt _ := none
  deferredMemInsts := []
  blockedMemInsts := []
  retryMemInsts := []
  instsToExecute := []
  completions := []
  fuPool := fuPool
  statFuBusy _ := 0
  canIssue _ := false
  squashed _ := false
  translationCompleted _ := false

/-! ## New ready instructions -/

def push (q : InstructionQueue C F) (inst : DynInst C) : InstructionQueue C F :=
  { q with
    readyInsts := Function.update q.readyInsts inst.opClass
      ((q.readyInsts inst.opClass).orderedInsert (fun i j => i.seqNum < j.seqNum) inst) }

/-- The entry goes before the first one with a younger instruction. -/
def addToOrderList (q : InstructionQueue C F) (op_class : C) : Option (InstructionQueue C F) :=
  (q.readyInsts op_class).head?.map fun top =>
    { q with
      listOrder := q.listOrder.orderedInsert (fun new e => e.oldestInst > new.oldestInst)
        ⟨q.nextNode, op_class, top.seqNum⟩
      nextNode := q.nextNode + 1
      readyIt := Function.update q.readyIt op_class (some q.nextNode)
      queueOnList := Function.update q.queueOnList op_class true }

/-- The common part of `addReadyMemInst` and `addIfReady`: the list has to be reordered if the queue is not
on it, or has an older instruction than before. -/
def pushReady (q : InstructionQueue C F) (inst : DynInst C) : Option (InstructionQueue C F) :=
  let q := q.push inst
  if q.queueOnList inst.opClass = false then q.addToOrderList inst.opClass
  else
    (q.readyInsts inst.opClass).head?.bind fun top => (q.readyIt inst.opClass).bind fun node =>
      (q.listOrder.find? (·.node = node)).bind fun e =>
        if top.seqNum < e.oldestInst then
          addToOrderList { q with listOrder := q.listOrder.filter (·.node ≠ node) } inst.opClass
        else some q

def addReadyMemInst (q : InstructionQueue C F) (ready_inst : DynInst C) : Option (InstructionQueue C F) :=
  q.pushReady ready_inst

/-- A memory reference is left to the memory dependence unit. -/
def addIfReady (q : InstructionQueue C F) (inst : DynInst C) : Option (InstructionQueue C F) :=
  if q.canIssue inst.seqNum then if inst.isMemRef then some q else q.pushReady inst else some q

/-! ## Memory references that wait for a translation or for the cache -/

def deferMemInst (q : InstructionQueue C F) (deferred_inst : DynInst C) : InstructionQueue C F :=
  { q with deferredMemInsts := q.deferredMemInsts ++ [deferred_inst] }

def blockMemInst (q : InstructionQueue C F) (blocked_inst : DynInst C) : InstructionQueue C F :=
  { q with
    translationCompleted := Function.update q.translationCompleted blocked_inst.seqNum false
    canIssue := Function.update q.canIssue blocked_inst.seqNum false
    blockedMemInsts := q.blockedMemInsts ++ [blocked_inst] }

def cacheUnblocked (q : InstructionQueue C F) : InstructionQueue C F :=
  { q with retryMemInsts := q.retryMemInsts ++ q.blockedMemInsts, blockedMemInsts := [] }

/-- What `getDeferredMemInstToExecute` takes. -/
def translated (q : InstructionQueue C F) (inst : DynInst C) : Bool :=
  q.translationCompleted inst.seqNum || q.squashed inst.seqNum

/-- The loops at the start of `scheduleReadyInsts`, which take the deferred instructions that are translated
or squashed, and then those to retry, one after the other. -/
def addWaiting (q : InstructionQueue C F) : Option (InstructionQueue C F) :=
  ((q.deferredMemInsts.filter q.translated).foldlM addReadyMemInst
    { q with deferredMemInsts := q.deferredMemInsts.filter fun i => !q.translated i }).bind fun q =>
      q.retryMemInsts.foldlM addReadyMemInst { q with retryMemInsts := [] }

/-! ## Scheduling -/

/-- The oldest instruction of the queue of the current entry leaves: `moveToYoungerInst`, or the end of the
queue, and then the erasure of the entry.  `rest` are the entries behind it, and what is returned is what is
then behind the iterator. -/
def popTop (q : InstructionQueue C F) (op_class : C) (rest : List (ListOrderEntry C)) :
    InstructionQueue C F × List (ListOrderEntry C) :=
  let q := { q with readyInsts := Function.update q.readyInsts op_class (q.readyInsts op_class).tail }
  match q.readyInsts op_class with
  | [] =>
    ({ q with
        readyIt := Function.update q.readyIt op_class none
        queueOnList := Function.update q.queueOnList op_class false }, rest)
  | top :: _ =>
    ({ q with
        nextNode := q.nextNode + 1
        readyIt := Function.update q.readyIt op_class (some q.nextNode) },
      rest.orderedInsert (fun new e => ¬ e.oldestInst < new.oldestInst) ⟨q.nextNode, op_class, top.seqNum⟩)

variable [FUPool F C]

/-- The unit that the instruction gets; `No_OpClass` asks for none. -/
def getUnit (q : InstructionQueue C F) (op_class : C) : Int × F :=
  if op_class = FUPool.noOpClass F then (NoCapableFU, q.fuPool) else FUPool.getUnit q.fuPool op_class

def opLatency (q : InstructionQueue C F) (op_class : C) (idx : Int) : Nat :=
  if op_class ≠ FUPool.noOpClass F ∧ idx > NoFreeFU then FUPool.getOpLatency q.fuPool op_class else 1

/-- The instruction is sent to execute, or its completion is scheduled; a unit that is not kept until then is
freed in the next cycle. -/
def execute (q : InstructionQueue C F) (issuing_inst : DynInst C) (op_class : C) (idx : Int) : InstructionQueue C F :=
  let op_latency := q.opLatency op_class idx
  if op_latency = 1 then
    { q with
      instsToExecute := q.instsToExecute ++ [issuing_inst]
      fuPool := if 0 ≤ idx then FUPool.freeUnitNextCycle C q.fuPool idx else q.fuPool }
  else
    let pipelined := FUPool.isPipelined q.fuPool op_class
    { q with
      completions := q.completions ++ [⟨issuing_inst, idx, op_latency, !pipelined⟩]
      fuPool := if pipelined then FUPool.freeUnitNextCycle C q.fuPool idx else q.fuPool }

/-- The loop of `scheduleReadyInsts`: `passed` are the entries before the iterator, `rest` those from it on,
and `listOrder` is written when the loop ends.  It returns the instructions that it issues, in their order. -/
def scheduleLoop (totalWidth : Nat) : Nat → List (ListOrderEntry C) → List (ListOrderEntry C) → Nat →
    InstructionQueue C F → Option (InstructionQueue C F × List (DynInst C))
  | _, passed, [], _, q => some ({ q with listOrder := passed }, [])
  | fuel, passed, e :: rest, total_issued, q =>
    if total_issued < totalWidth then
      match fuel, q.readyInsts e.queueType with
      | 0, _ => none
      | _, [] => none
      | fuel + 1, issuing_inst :: _ =>
        if issuing_inst.seqNum ≠ e.oldestInst then none
        else if q.squashed issuing_inst.seqNum then
          let (q, rest) := q.popTop e.queueType rest
          scheduleLoop totalWidth fuel passed rest total_issued q
        else
          let (idx, fuPool) := q.getUnit e.queueType
          let q := { q with fuPool := fuPool }
          if idx ≠ NoFreeFU then
            let (q, rest) := (q.execute issuing_inst e.queueType idx).popTop e.queueType rest
            (scheduleLoop totalWidth fuel passed rest (total_issued + 1) q).map fun r =>
              (r.1, issuing_inst :: r.2)
          else
            scheduleLoop totalWidth fuel (passed ++ [e]) rest total_issued
              { q with statFuBusy := Function.update q.statFuBusy e.queueType (q.statFuBusy e.queueType + 1) }
    else some ({ q with listOrder := passed ++ e :: rest }, [])

/-- The instructions of the queues on the list and the entries: each turn takes one of them. -/
def turns (q : InstructionQueue C F) (rest : List (ListOrderEntry C)) : Nat :=
  (rest.map fun e => (q.readyInsts e.queueType).length + 1).sum

def scheduleReadyInsts (q : InstructionQueue C F) (totalWidth : Nat) :
    Option (InstructionQueue C F × List (DynInst C)) :=
  q.addWaiting.bind fun q => scheduleLoop totalWidth (q.turns q.listOrder) [] q.listOrder 0 q

end InstructionQueue

end Alpine.Cpu.Issue
