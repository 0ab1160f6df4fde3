import Alpine.Cpu.Rename

/-!
# The rename stage (`cpu/o3/rename.hh`, `cpu/o3/rename_impl.hh`)

`DefaultRename` for one thread: the queue of instructions from decode, the skid buffer, the instruction
that waits for serialization, and the stage's status.  A `DynInstPtr` is the instruction itself, which the
stage keeps in one place at a time.  How many registers of each class are free is an input of every attempt
to rename; the maps and the free list are the subject of `Alpine.Cpu.Rename`.  Statistics and the CPU's
activity bookkeeping (`_status`, `wroteToTimeBuffer`, and the results that only they read) are left out.  A
failed assertion, a panic and a null pointer are outcomes of their own.

* `skidInsert`, `block`, `unblock`, `squash`, `renameInsts`, `rename`, `checkSignalsAndUpdate`, `tick` as
  in the source.
* `System.step` — a cycle of rename and of the queue of decode, which obeys `renameBlock` and
  `renameUnblock` as `DefaultDecode::readStallSignals` does.
-/

namespace Alpine.Cpu

open Rename (RegClass VecMode)

/-- What the stage reads and sets of a `DynInst`; the last four fields are bits of its status. -/
structure DynInst where
  seqNum : Nat
  isLoad : Bool := false
  isStore : Bool := false
  isIprAccess : Bool := false
  isStoreConditional : Bool := false
  staticSerializeBefore : Bool := false
  staticSerializeAfter : Bool := false
  numIntDestRegs : Nat := 0
  numFPDestRegs : Nat := 0
  numVecDestRegs : Nat := 0
  numVecElemDestRegs : Nat := 0
  numCCDestRegs : Nat := 0
  serializeBefore : Bool := false
  serializeAfter : Bool := false
  serializeHandled : Bool := false
  squashed : Bool := false

namespace DynInst

def isSerializeBefore (x : DynInst) : Bool := x.staticSerializeBefore || x.serializeBefore

def isSerializeAfter (x : DynInst) : Bool := x.staticSerializeAfter || x.serializeAfter

def isTempSerializeBefore (x : DynInst) : Bool := x.serializeBefore

def setSerializeBefore (x : DynInst) : DynInst := { x with serializeBefore := true }

def clearSerializeBefore (x : DynInst) : DynInst := { x with serializeBefore := false }

def setSerializeHandled (x : DynInst) : DynInst := { x with serializeHandled := true }

def setSquashed (x : DynInst) : DynInst := { x with squashed := true }

end DynInst

/-- `DefaultRename::ThreadStatus`. -/
inductive ThreadStatus where
  | Running
  | Idle
  | StartSquash
  | Squashing
  | Blocked
  | Unblocking
  | SerializeStall
  deriving DecidableEq

/-- `DefaultRename::FreeEntries`. -/
structure FreeEntries where
  iqEntries : Nat
  robEntries : Nat
  lqEntries : Nat
  sqEntries : Nat

inductive RenameFault where
  | assertion (text : String)
  | panic (text : String)
  | null (pointer : String)

def renameAssert (text : String) (p : Prop) [Decidable p] : Except RenameFault Unit :=
  if p then .ok () else .error (.assertion text)

/-- What the stage reads of `DerivO3CPUParams`. -/
structure RenameParams where
  decodeToRenameDelay : Nat
  decodeWidth : Nat
  renameWidth : Nat
  vecMode : VecMode := .Full

/-- As the constructor computes it. -/
def RenameParams.skidBufferMax (p : RenameParams) : Nat :=
  (p.decodeToRenameDelay + 1) * p.decodeWidth

/-- What IEW tells rename. -/
structure FromIEW where
  iewBlock : Bool := false
  iewUnblock : Bool := false
  usedIQ : Bool := false
  freeIQEntries : Nat := 0
  usedLSQ : Bool := false
  freeLQEntries : Nat := 0
  freeSQEntries : Nat := 0
  dispatched : Nat := 0
  dispatchedToLQ : Nat := 0
  dispatchedToSQ : Nat := 0

/-- What commit tells rename. -/
structure FromCommit where
  squash : Bool := false
  doneSeqNum : Nat := 0
  usedROB : Bool := false
  freeROBEntries : Nat := 0
  emptyROB : Bool := false

/-- The inputs of a tick other than the instructions: `freeRegs n` are the registers that are free when `n`
instructions have been renamed in it. -/
structure Wires where
  fromIEW : FromIEW := {}
  fromCommit : FromCommit := {}
  freeRegs : Nat → RegClass → Nat

/-- `UnifiedRenameMap::numFreeEntries`. -/
def numFreeEntries (mode : VecMode) (free : RegClass → Nat) : Nat :=
  min (min (free .IntRegClass) (free .FloatRegClass))
    (if mode = .Full then free .VecRegClass else free .VecElemClass)

/-- `UnifiedRenameMap::canRename`. -/
def canRename (free : RegClass → Nat) (x : DynInst) : Bool :=
  x.numIntDestRegs ≤ free .IntRegClass && x.numFPDestRegs ≤ free .FloatRegClass &&
    x.numVecDestRegs ≤ free .VecRegClass && x.numVecElemDestRegs ≤ free .VecElemClass &&
    x.numCCDestRegs ≤ free .CCRegClass

/-- The stage of a thread.  The last group of fields is written anew in every tick. -/
structure DefaultRename where
  renameStatus : ThreadStatus := .Idle
  insts : List DynInst := []
  skidBuffer : List DynInst := []
  serializeInst : Option DynInst := none
  serializeOnNextInst : Bool := false
  resumeSerialize : Bool := false
  resumeUnblocking : Bool := false
  freeEntries : FreeEntries
  emptyROB : Bool := true
  stallsIew : Bool := false
  instsInProgress : Int := 0
  loadsInProgress : Int := 0
  storesInProgress : Int := 0
  fromDecode : List DynInst := []
  toIEW : List DynInst := []
  renameBlock : Bool := false
  renameUnblock : Bool := false
  blockThisCycle : Bool := false

namespace DefaultRename

def calcFreeROBEntries (s : DefaultRename) (w : Wires) : Int :=
  s.freeEntries.robEntries - (s.instsInProgress - w.fromIEW.dispatched)

def calcFreeIQEntries (s : DefaultRename) (w : Wires) : Int :=
  s.freeEntries.iqEntries - (s.instsInProgress - w.fromIEW.dispatched)

def calcFreeLQEntries (s : DefaultRename) (w : Wires) : Int :=
  s.freeEntries.lqEntries - (s.loadsInProgress - w.fromIEW.dispatchedToLQ)

def calcFreeSQEntries (s : DefaultRename) (w : Wires) : Int :=
  s.freeEntries.sqEntries - (s.storesInProgress - w.fromIEW.dispatchedToSQ)

def validInsts (s : DefaultRename) : Nat :=
  (s.fromDecode.filter (!·.squashed)).length

def skidInsert (p : RenameParams) (s : DefaultRename) : Except RenameFault DefaultRename :=
  if (s.skidBuffer ++ s.insts).length > p.skidBufferMax then .error (.panic "Skidbuffer Exceeded Max Size")
  else .ok { s with skidBuffer := s.skidBuffer ++ s.insts, insts := [] }

def block (p : RenameParams) (s : DefaultRename) : Except RenameFault DefaultRename := do
  let s ← s.skidInsert p
  if s.renameStatus ≠ .Blocked then
    -- earlier stages think that rename is blocked while it is unblocking
    let s :=
      if s.resumeUnblocking ∨ s.renameStatus ≠ .Unblocking then
        { s with renameBlock := true, renameUnblock := false }
      else s
    if s.renameStatus ≠ .SerializeStall then return { s with renameStatus := .Blocked } else return s
  else return s

def unblock (s : DefaultRename) : DefaultRename :=
  if s.skidBuffer = [] ∧ s.renameStatus ≠ .SerializeStall then
    { s with renameUnblock := true, renameStatus := .Running }
  else s

/-- `squash` without `doSquash`, which is about the history buffer. -/
def squash (squash_seq_num : Nat) (s : DefaultRename) : Except RenameFault DefaultRename := do
  let s ←
    if s.renameStatus = .Blocked ∨ s.renameStatus = .Unblocking then
      pure { s with renameUnblock := true, resumeSerialize := false, serializeInst := none }
    else if s.renameStatus = .SerializeStall then
      match s.serializeInst with
      | none => throw (.null "serializeInst")
      | some x =>
        if x.seqNum ≤ squash_seq_num then pure { s with resumeSerialize := true }
        else pure { s with resumeSerialize := false, renameUnblock := true, serializeInst := none }
    else pure s
  return { s with
    renameStatus := .Squashing
    fromDecode := s.fromDecode.map fun x => if x.seqNum > squash_seq_num then x.setSquashed else x
    insts := []
    skidBuffer := [] }

/-- `serializeAfter`: the queue with its front marked. -/
def serializeAfter (queue : List DynInst) (s : DefaultRename) : List DynInst × DefaultRename :=
  match queue with
  | [] => ([], { s with serializeOnNextInst := true })
  | x :: rest => (x.setSerializeBefore :: rest, s)

/-- The loop of `renameInsts` over the queue that it renames: the instructions that were available and are
left, and the queue. -/
def renameLoop (p : RenameParams) (w : Wires) : Nat → List DynInst → DefaultRename →
    Except RenameFault (Nat × List DynInst × DefaultRename)
  | 0, queue, s => .ok (0, queue, s)
  | n + 1, queue, s =>
    if s.toIEW.length < p.renameWidth then
      match queue with
      | [] => .error (.assertion "!insts_to_rename.empty()")
      | inst :: rest =>
        if inst.isLoad ∧ s.calcFreeLQEntries w ≤ 0 then .ok (n + 1, inst :: rest, s)
        else if inst.isStore ∧ s.calcFreeSQEntries w ≤ 0 then .ok (n + 1, inst :: rest, s)
        else if inst.squashed then renameLoop p w n rest s
        else if ¬ canRename (w.freeRegs s.toIEW.length) inst then
          .ok (n + 1, inst :: rest, { s with blockThisCycle := true })
        else if (inst.isIprAccess ∨ inst.isSerializeBefore) ∧ ¬ inst.serializeHandled then
          let inst := if inst.isTempSerializeBefore then inst else inst.setSerializeHandled
          .ok (n + 1, rest,
            { s with renameStatus := .SerializeStall, serializeInst := some inst, blockThisCycle := true })
        else
          let serialize : Bool := (inst.isStoreConditional || inst.isSerializeAfter) && !inst.serializeHandled
          let inst := if serialize then inst.setSerializeHandled else inst
          let (rest, s) := if serialize then serializeAfter rest s else (rest, s)
          renameLoop p w n rest
            { s with
              loadsInProgress := if inst.isLoad then s.loadsInProgress + 1 else s.loadsInProgress
              storesInProgress := if inst.isStore then s.storesInProgress + 1 else s.storesInProgress
              toIEW := s.toIEW ++ [inst] }
    else .ok (n + 1, queue, s)

/-- The serialization that an earlier group asked for. -/
def serializeNext (queue : List DynInst) (s : DefaultRename) : List DynInst × DefaultRename :=
  if s.serializeOnNextInst then
    if s.emptyROB ∧ s.instsInProgress = 0 then (queue, { s with serializeOnNextInst := false })
    else
      match queue with
      | [] => ([], s)
      | x :: rest => (x.setSerializeBefore :: rest, s)
  else (queue, s)

def renameInsts (p : RenameParams) (w : Wires) (s : DefaultRename) : Except RenameFault DefaultRename := do
  let unblocking : Bool := s.renameStatus = .Unblocking
  let queue := if unblocking then s.skidBuffer else s.insts
  if queue = [] then return s
  else
    let min_free_entries := min (s.calcFreeROBEntries w) (s.calcFreeIQEntries w)
    if min_free_entries ≤ 0 then block p { s with blockThisCycle := true }
    else
      let s := if min_free_entries < queue.length then { s with blockThisCycle := true } else s
      let insts_available := if min_free_entries < queue.length then min_free_entries.toNat else queue.length
      let (queue, s) := serializeNext queue s
      let (insts_available, queue, s') ← renameLoop p w insts_available queue s
      let s := if unblocking then { s' with skidBuffer := queue } else { s' with insts := queue }
      let s := { s with
        instsInProgress := s.instsInProgress + (s.toIEW.length : Int)
        blockThisCycle := s.blockThisCycle || insts_available != 0 }
      if s.blockThisCycle then
        let s ← s.block p
        return { s with renameUnblock := false }
      else return s

def rename (p : RenameParams) (w : Wires) (s : DefaultRename) : Except RenameFault DefaultRename := do
  let s ←
    if s.renameStatus = .SerializeStall ∧ s.resumeSerialize then do
      let s ← block p { s with resumeSerialize := false }
      pure { s with renameUnblock := false }
    else if s.renameStatus = .Unblocking ∧ s.resumeUnblocking then do
      let s ← s.block p
      pure { s with resumeUnblocking := false, renameUnblock := false }
    else pure s
  if s.renameStatus = .Running ∨ s.renameStatus = .Idle then renameInsts p w s
  else if s.renameStatus = .Unblocking then do
    let s ← renameInsts p w s
    let s ← if s.validInsts ≠ 0 then s.skidInsert p else pure s
    return s.unblock
  else return s

def readFreeEntries (w : Wires) (s : DefaultRename) : DefaultRename :=
  let s :=
    if w.fromIEW.usedIQ then
      { s with freeEntries := { s.freeEntries with iqEntries := w.fromIEW.freeIQEntries } }
    else s
  let s :=
    if w.fromIEW.usedLSQ then
      { s with freeEntries := { s.freeEntries with
          lqEntries := w.fromIEW.freeLQEntries, sqEntries := w.fromIEW.freeSQEntries } }
    else s
  if w.fromCommit.usedROB then
    { s with
      freeEntries := { s.freeEntries with robEntries := w.fromCommit.freeROBEntries }
      emptyROB := w.fromCommit.emptyROB }
  else s

def readStallSignals (w : Wires) (s : DefaultRename) : Except RenameFault DefaultRename := do
  let s := if w.fromIEW.iewBlock then { s with stallsIew := true } else s
  if w.fromIEW.iewUnblock then
    renameAssert "stalls[tid].iew" (s.stallsIew = true)
    return { s with stallsIew := false }
  else return s

def checkStall (p : RenameParams) (w : Wires) (s : DefaultRename) : Bool :=
  s.stallsIew || decide (s.calcFreeROBEntries w ≤ 0) || decide (s.calcFreeIQEntries w ≤ 0) ||
    decide (s.calcFreeLQEntries w ≤ 0 ∧ s.calcFreeSQEntries w ≤ 0) ||
    decide (numFreeEntries p.vecMode (w.freeRegs 0) ≤ 0) ||
    decide (s.renameStatus = .SerializeStall ∧ (s.emptyROB = false ∨ s.instsInProgress ≠ 0))

/-- The stall for serialization is over: its instruction goes back to the front. -/
def resumeSerialization (s : DefaultRename) : Except RenameFault DefaultRename :=
  let s := unblock { s with renameStatus := .Unblocking }
  match s.serializeInst with
  | none => .error (.null "serial_inst")
  | some serial_inst =>
    let serial_inst := serial_inst.clearSerializeBefore
    if s.skidBuffer ≠ [] then
      .ok { s with skidBuffer := serial_inst :: s.skidBuffer, serializeInst := none }
    else .ok { s with insts := serial_inst :: s.insts, serializeInst := none }

def checkSignalsAndUpdate (p : RenameParams) (w : Wires) (s : DefaultRename) : Except RenameFault DefaultRename := do
  let s ← readStallSignals w (s.readFreeEntries w)
  if w.fromCommit.squash then s.squash w.fromCommit.doneSeqNum
  else if s.checkStall p w then s.block p
  else if s.renameStatus = .Blocked then return unblock { s with renameStatus := .Unblocking }
  else if s.renameStatus = .Squashing then
    if s.resumeSerialize then return { s with renameStatus := .SerializeStall }
    else if s.resumeUnblocking then return { s with renameStatus := .Unblocking }
    else return { s with renameStatus := .Running }
  else if s.renameStatus = .SerializeStall then s.resumeSerialization
  else return s

/-- The end of `tick`: what IEW has dispatched is no longer in progress. -/
def updateProgress (w : Wires) (s : DefaultRename) : Except RenameFault DefaultRename := do
  let s := { s with
    instsInProgress := s.instsInProgress - w.fromIEW.dispatched
    loadsInProgress := s.loadsInProgress - w.fromIEW.dispatchedToLQ
    storesInProgress := s.storesInProgress - w.fromIEW.dispatchedToSQ }
  renameAssert "loadsInProgress[tid] >= 0" (s.loadsInProgress ≥ 0)
  renameAssert "storesInProgress[tid] >= 0" (s.storesInProgress ≥ 0)
  renameAssert "instsInProgress[tid] >=0" (s.instsInProgress ≥ 0)
  return s

/-- The beginning of `tick`, with `sortInsts`. -/
def sortInsts (fromDecode : List DynInst) (s : DefaultRename) : DefaultRename :=
  { s with
    fromDecode := fromDecode
    insts := s.insts ++ fromDecode
    toIEW := []
    renameBlock := false
    renameUnblock := false
    blockThisCycle := false }

/-- `tick`, without `removeFromHistory`, which is about the history buffer. -/
def tick (p : RenameParams) (fromDecode : List DynInst) (w : Wires) (s : DefaultRename) :
    Except RenameFault DefaultRename := do
  let s ← (s.sortInsts fromDecode).checkSignalsAndUpdate p w
  let s ← s.rename p w
  s.updateProgress w

end DefaultRename

/-! ## With decode -/

/-- Rename, the stall that decode has read, and what it has written that has not arrived yet. -/
structure System where
  rename : DefaultRename
  stallsRename : Bool
  decodeQueue : List (List DynInst)

/-- What rename received, what commit squashed, and what rename sent in a cycle. -/
structure RenameCycle where
  fromDecode : List DynInst
  squash : Option Nat
  toIEW : List DynInst

namespace System

/-- After `resetStage`, with the numbers of free entries of the other stages. -/
def start (p : RenameParams) (entries : FreeEntries) : System where
  rename := { freeEntries := entries }
  stallsRename := false
  decodeQueue := List.replicate p.decodeToRenameDelay []

/-- `stalls.rename` once decode has read the signals of the last cycle. -/
def decodeStalled (y : System) : Bool :=
  !y.rename.renameUnblock && (y.rename.renameBlock || y.stallsRename)

/-- A cycle in which decode writes `group`, `decodeToRenameDelay` cycles before rename reads it. -/
def step (p : RenameParams) (y : System) (group : List DynInst) (w : Wires) :
    Except RenameFault (System × RenameCycle) := do
  renameAssert "stalls[tid].rename"
    (y.rename.renameUnblock = true → y.rename.renameBlock = true ∨ y.stallsRename = true)
  let arriving := (y.decodeQueue ++ [group]).headD []
  let rename ← y.rename.tick p arriving w
  return (
    { rename, stallsRename := y.decodeStalled, decodeQueue := (y.decodeQueue ++ [group]).tail },
    { fromDecode := arriving
      squash := if w.fromCommit.squash then some w.fromCommit.doneSeqNum else none
      toIEW := rename.toIEW })

def run (p : RenameParams) (y : System) : List (List DynInst × Wires) → Except RenameFault (System × List RenameCycle)
  | [] => .ok (y, [])
  | (group, w) :: rest => do
    let (y, c) ← y.step p group w
    let (y, cs) ← run p y rest
    return (y, c :: cs)

end System

end Alpine.Cpu
