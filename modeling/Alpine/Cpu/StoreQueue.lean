import Alpine.Lib.Ring
import Mathlib

/-!
# The store queue of a load/store unit

The store queue is a circular array with one slot more than it holds stores.  Stores are inserted at `storeTail`,
may write back when they have committed (`canWB`), are sent to the cache at `storeWBIdx`, and leave at `storeHead`
when they have completed.  A store that is split is sent as two packets, and the cache may refuse each of them:
the packet to be sent again is in `retryPkt`, the second half that waits for the first in the sender state, and
the second half that waits for a port in `pendingPkt`.

The cache answers the packets of a call as a function says.  `inFlight` are the packets for which it still owes a
response, and `log` is what has happened to the stores.  The functions return `none` where an assertion fails.
The load queue, the record of a stalled load and the data are left out, `isSplit` stands for it together with
`HasUnalignedMemAcc`, and the requests of the halves are those of the whole.
-/

namespace Alpine.Cpu.Lsq

structure DynInst where
  seqNum : Nat
  isStoreConditional : Bool
  isDataPrefetch : Bool

structure Request where
  size : Nat
  isSplit : Bool
  isMmappedIpr : Bool

structure SQEntry where
  inst : Option DynInst
  req : Option Request
  /-- One byte. -/
  size : Nat
  isSplit : Bool
  canWB : Bool
  committed : Bool
  completed : Bool

/-- The constructor `SQEntry(DynInstPtr &)`. -/
def SQEntry.new (inst : DynInst) : SQEntry where
  inst := some inst
  req := none
  size := 0
  isSplit := false
  canWB := false
  committed := false
  completed := false

/-- The packet of a store that is not split, or its first half, has number 0. -/
structure Packet where
  seqNum : Nat
  half : Nat
deriving DecidableEq

structure LSQSenderState where
  /-- One byte. -/
  idx : Nat
  outstanding : Nat
  isSplit : Bool
  pktToSend : Bool
  pendingPacket : Option Packet

/-- What happens to a store. -/
inductive Event where
  | accepted (pkt : Packet)
  | failed (seqNum : Nat)
  | completed (seqNum : Nat)
deriving DecidableEq

structure LSQUnit where
  storeQueue : Nat → SQEntry
  storeHead : Nat
  storeWBIdx : Nat
  storeTail : Nat
  stores : Int
  storesToWB : Int
  usedStorePorts : Nat
  storeInFlight : Bool
  isStoreBlocked : Bool
  retryPkt : Option Packet
  hasPendingPkt : Bool
  pendingPkt : Option Packet
  /-- The sender state of the packets of a store. -/
  senderState : Nat → LSQSenderState
  sqIdx : Nat → Nat
  isSquashed : Nat → Bool
  inFlight : List Packet
  log : List Event

structure Config where
  SQEntries : Nat
  cacheStorePorts : Nat
  needsTSO : Bool

/-- What `initiateAcc` comes to. -/
inductive InitiateAcc where
  | translationDelayed
  | predicateFalse
  | fault
  | write (req : Request)

namespace LSQUnit

variable (c : Config)

def incrStIdx (store_idx : Nat) : Nat := Ring.next c.SQEntries store_idx

def decrStIdx (store_idx : Nat) : Nat := Ring.prev c.SQEntries store_idx

def setEntry (s : LSQUnit) (store_idx : Nat) (e : SQEntry) : LSQUnit :=
  { s with storeQueue := Function.update s.storeQueue store_idx e }

def setState (s : LSQUnit) (i : Nat) (state : LSQSenderState) : LSQUnit :=
  { s with senderState := Function.update s.senderState i state }

/-! ## From insertion to commit -/

def numFreeStoreEntries (s : LSQUnit) : Int := c.SQEntries - s.stores - 1

def insertStore (s : LSQUnit) (inst : DynInst) : Option LSQUnit :=
  if incrStIdx c s.storeTail = s.storeHead ∨ c.SQEntries ≤ s.stores then none
  else some { s.setEntry s.storeTail (SQEntry.new inst) with
    sqIdx := Function.update s.sqIdx inst.seqNum s.storeTail
    storeTail := incrStIdx c s.storeTail
    stores := s.stores + 1 }

/-- The store queue part of `executeStore` and of `write`, without the assertion on the size. -/
def executeStore (s : LSQUnit) (inst : DynInst) (acc : InitiateAcc) : Option LSQUnit :=
  let store_idx := s.sqIdx inst.seqNum
  let e := s.storeQueue store_idx
  if s.stores = 0 ∨ s.isSquashed inst.seqNum then none
  else
    match acc with
    | .translationDelayed => some s
    | .predicateFalse => some s
    | .fault => if e.size = 0 then some s else none
    | .write req =>
      if e.inst.isNone then none
      else
        let e := { e with req := some req, size := req.size % 256, isSplit := e.isSplit || req.isSplit }
        if e.size ≠ 0 ∧ inst.isStoreConditional then
          some { s.setEntry store_idx { e with canWB := true } with storesToWB := s.storesToWB + 1 }
        else some (s.setEntry store_idx e)

/-- The loop of `commitStores` from `store_idx` on. -/
def commitFrom (youngest_inst : Nat) : Nat → Nat → LSQUnit → Option LSQUnit
  | 0, _, _ => none
  | fuel + 1, store_idx, s =>
    if store_idx = s.storeTail then some s
    else
      (s.storeQueue store_idx).inst.bind fun inst =>
        if (s.storeQueue store_idx).canWB then commitFrom youngest_inst fuel (incrStIdx c store_idx) s
        else if inst.seqNum > youngest_inst then some s
        else commitFrom youngest_inst fuel (incrStIdx c store_idx)
          { s.setEntry store_idx { s.storeQueue store_idx with canWB := true } with storesToWB := s.storesToWB + 1 }

def commitStores (s : LSQUnit) (youngest_inst : Nat) : Option LSQUnit :=
  if s.stores ≠ 0 ∧ (s.storeQueue s.storeHead).inst.isNone then none
  else commitFrom c youngest_inst c.SQEntries s.storeHead s

/-- The loop of `squash` over the store queue. -/
def squashFrom (squashed_num : Nat) : Nat → LSQUnit → Option LSQUnit
  | 0, _ => none
  | fuel + 1, s =>
    let store_idx := decrStIdx c s.storeTail
    if s.stores = 0 then some s
    else
      (s.storeQueue store_idx).inst.bind fun inst =>
        if inst.seqNum > squashed_num then
          if (s.storeQueue store_idx).canWB then some s
          else squashFrom squashed_num fuel
            { s.setEntry store_idx { s.storeQueue store_idx with inst := none, canWB := false, req := none } with
              isSquashed := Function.update s.isSquashed inst.seqNum true
              stores := s.stores - 1
              storeTail := store_idx }
        else some s

def squash (s : LSQUnit) (squashed_num : Nat) : Option LSQUnit := squashFrom c squashed_num c.SQEntries s

/-! ## Completion -/

/-- The loop that moves the head. -/
def moveHead : Nat → LSQUnit → Option LSQUnit
  | 0, _ => none
  | fuel + 1, s =>
    let s := { s with storeHead := incrStIdx c s.storeHead, stores := s.stores - 1 }
    if (s.storeQueue s.storeHead).completed ∧ s.storeHead ≠ s.storeTail then moveHead fuel s else some s

def completeStore (s : LSQUnit) (store_idx : Nat) : Option LSQUnit :=
  (s.storeQueue store_idx).inst.bind fun inst =>
    let s := { s.setEntry store_idx { s.storeQueue store_idx with completed := true } with
      storesToWB := s.storesToWB - 1
      log := s.log ++ [.completed inst.seqNum] }
    (if store_idx = s.storeHead then moveHead c c.SQEntries s else some s).map fun s =>
      { s with storeInFlight := s.storeInFlight && !c.needsTSO }

/-- A response for a packet of a store. -/
def completeDataAccess (s : LSQUnit) (pkt : Packet) : Option LSQUnit :=
  let state := s.senderState pkt.seqNum
  let s := { s.setState pkt.seqNum { state with outstanding := state.outstanding - 1 } with
    inFlight := s.inFlight.erase pkt }
  if state.outstanding - 1 ≠ 0 then some s
  else if s.isSquashed pkt.seqNum then some s
  else s.completeStore c state.idx

/-! ## Write-back -/

variable (accept : Packet → Bool)

/-- The cache takes the packet. -/
def take (s : LSQUnit) (pkt : Packet) : LSQUnit :=
  { s with inFlight := s.inFlight ++ [pkt], log := s.log ++ [.accepted pkt] }

def sendStore (s : LSQUnit) (data_pkt : Packet) : Option (LSQUnit × Bool) :=
  if accept data_pkt then some (s.take data_pkt, true)
  else if s.retryPkt ≠ none then none
  else some ({ s with isStoreBlocked := true, retryPkt := some data_pkt }, false)

def storePostSend (s : LSQUnit) : LSQUnit :=
  { s with storeInFlight := s.storeInFlight || c.needsTSO, storeWBIdx := incrStIdx c s.storeWBIdx }

/-- `if (sendStore(pkt)) storePostSend(pkt)`. -/
def sendLast (s : LSQUnit) (pkt : Packet) : Option LSQUnit :=
  (s.sendStore accept pkt).map fun (s, sent) => if sent then s.storePostSend c else s

def writebackPendingStore (s : LSQUnit) : Option LSQUnit :=
  if s.hasPendingPkt then
    s.pendingPkt.bind fun pkt =>
      (s.sendLast c accept pkt).map fun s => { s with pendingPkt := none, hasPendingPkt := false }
  else some s

/-- The packets of a store at `storeWBIdx`, the second one if there is a port for it. -/
def sendPackets (s : LSQUnit) (i : Nat) (split : Bool) : Option LSQUnit :=
  (s.sendStore accept ⟨i, 0⟩).bind fun (s, sent) =>
    if !sent then
      some (if split then s.setState i { s.senderState i with pktToSend := true, pendingPacket := some ⟨i, 1⟩ } else s)
    else if split then
      if s.usedStorePorts < c.cacheStorePorts then
        { s with usedStorePorts := s.usedStorePorts + 1 }.sendLast c accept ⟨i, 1⟩
      else if s.pendingPkt ≠ none then none
      else some { s with pendingPkt := some ⟨i, 1⟩, hasPendingPkt := true }
    else some (s.storePostSend c)

-- whether a store conditional succeeds
variable (handleLockedWrite : Nat → Bool)

/-- The store at `storeWBIdx` completes at once. -/
def completeHere (s : LSQUnit) : Option LSQUnit :=
  (s.completeStore c s.storeWBIdx).map fun s => { s with storeWBIdx := incrStIdx c s.storeWBIdx }

/-- The store at `storeWBIdx` is marked, and gets a sender state. -/
def startStore (s : LSQUnit) (e : SQEntry) (i : Nat) : LSQUnit :=
  ({ s with usedStorePorts := s.usedStorePorts + 1 }.setEntry s.storeWBIdx { e with committed := true }).setState i
    ⟨s.storeWBIdx % 256, if e.isSplit then 2 else 1, e.isSplit, false, none⟩

/-- What becomes of a store at `storeWBIdx` that has been started. -/
def finishStore (s : LSQUnit) (inst : DynInst) (req : Request) (isSplit : Bool) : Option LSQUnit :=
  if inst.isStoreConditional ∧ isSplit then none
  else if inst.isStoreConditional ∧ !handleLockedWrite inst.seqNum then
    { s with log := s.log ++ [Event.failed inst.seqNum] }.completeHere c
  else if req.isMmappedIpr then
    if inst.isStoreConditional then none else s.completeHere c
  else s.sendPackets c accept inst.seqNum isSplit

/-- One iteration of `writebackStores`. -/
def writebackStore (s : LSQUnit) : Option LSQUnit :=
  let e := s.storeQueue s.storeWBIdx
  if e.size = 0 then s.completeHere c
  else
    e.inst.bind fun inst =>
      if inst.isDataPrefetch then
        some { s with usedStorePorts := s.usedStorePorts + 1, storeWBIdx := incrStIdx c s.storeWBIdx }
      else
        e.req.bind fun req =>
          if e.committed then none
          else (s.startStore e inst.seqNum).finishStore c accept handleLockedWrite inst req e.isSplit

/-- The condition of the loop. -/
def canWriteBack (s : LSQUnit) : Prop :=
  0 < s.storesToWB ∧ s.storeWBIdx ≠ s.storeTail ∧ (s.storeQueue s.storeWBIdx).inst.isSome ∧
    (s.storeQueue s.storeWBIdx).canWB ∧ (c.needsTSO = false ∨ s.storeInFlight = false) ∧
    s.usedStorePorts < c.cacheStorePorts

instance (s : LSQUnit) : Decidable (s.canWriteBack c) := inferInstanceAs (Decidable (_ ∧ _))

def writebackLoop : Nat → LSQUnit → Option LSQUnit
  | 0, _ => none
  | fuel + 1, s =>
    if s.canWriteBack c then
      if s.isStoreBlocked then some s
      else (s.writebackStore c accept handleLockedWrite).bind (writebackLoop fuel)
    else some s

def writebackStores (s : LSQUnit) : Option LSQUnit :=
  (s.writebackPendingStore c accept).bind fun s =>
    (writebackLoop c accept handleLockedWrite (c.SQEntries + 1) s).bind fun s =>
      if 0 ≤ s.stores ∧ 0 ≤ s.storesToWB then some { s with usedStorePorts := 0 } else none

def recvRetry (s : LSQUnit) : Option LSQUnit :=
  if s.isStoreBlocked then
    s.retryPkt.bind fun pkt =>
      let state := s.senderState pkt.seqNum
      if accept pkt then
        let s := s.take pkt
        -- the store is not finished unless this is the last packet
        let s := if !state.pktToSend ∨ state.pendingPacket = some pkt
          then (s.setState pkt.seqNum { state with pktToSend := false }).storePostSend c else s
        let s := { s with retryPkt := none, isStoreBlocked := false }
        if (s.senderState pkt.seqNum).pktToSend then state.pendingPacket.bind (s.sendLast c accept) else some s
      else some s
  else some s

end LSQUnit

end Alpine.Cpu.Lsq
