import Alpine.Cpu.StoreQueue
import Alpine.Lib.EventLog
import Alpine.Lib.Run

/-!
# Runs of the store queue and what holds in them

`System` is the unit with what has been asked of it: the stores that were inserted and not squashed, in program
order, those released to write back, and the request of each.

* `Permitted` — what the rest of the CPU promises: stores are inserted in program order while there is room, and
  each is executed at most once, before it commits; a store conditional after all older stores have committed.
* `Correct` — what the queue is for.
* `Core` — the invariant.  The stores have positions in program order: those before `H` have left, those before
  `W` have been sent, and if `busy` the one at `W` has been started.  `Layout` says where their entries are,
  `Flags` which bits these have, and `Traffic` what has been sent for them.
* `Held` — where the next packet of the store at `W` is kept.
-/

namespace Alpine.Cpu.Lsq

/-- How many packets a store has. -/
def numPackets : Option Request → Nat
  | none => 0
  | some req => if req.size % 256 = 0 ∨ req.isMmappedIpr = true then 0 else if req.isSplit then 2 else 1

def Event.isAccepted (i : Nat) : Event → Bool
  | .accepted pkt => pkt.seqNum == i
  | _ => false

/-- How many packets of store `i` have been accepted. -/
def numSent (log : List Event) (i : Nat) : Nat := log.countP (·.isAccepted i)

structure Program where
  order : List Nat
  next : Nat
  released : Finset Nat
  request : Nat → Option Request

namespace Program

variable (p : Program)

/-- The store at position `a`. -/
def sn (a : Nat) : Nat := p.order.getD a 0

def packets (a : Nat) : Nat := numPackets (p.request (p.sn a))

end Program

structure System extends Program where
  lsq : LSQUnit

inductive Call where
  | insertStore (inst : DynInst)
  | executeStore (inst : DynInst) (acc : InitiateAcc)
  | commitStores (youngest_inst : Nat)
  | writebackStores (accept : Packet → Bool) (handleLockedWrite : Nat → Bool)
  | recvRetry (accept : Packet → Bool)
  | completeDataAccess (pkt : Packet)
  | squash (squashed_num : Nat)
  | setSquashed (i : Nat)

namespace System

variable (c : Config) (s : System)

def new (storeQueue : Nat → SQEntry) (senderState : Nat → LSQSenderState) : System where
  lsq :=
    { storeQueue := storeQueue
      storeHead := 0
      storeWBIdx := 0
      storeTail := 0
      stores := 0
      storesToWB := 0
      usedStorePorts := 0
      storeInFlight := false
      isStoreBlocked := false
      retryPkt := none
      hasPendingPkt := false
      pendingPkt := none
      senderState := senderState
      sqIdx := fun _ => 0
      isSquashed := fun _ => false
      inFlight := []
      log := [] }
  order := []
  next := 0
  released := ∅
  request _ := none

def step (s : System) : Call → Option System
  | .insertStore inst => (s.lsq.insertStore c inst).map fun lsq =>
    { s with lsq := lsq, order := s.order ++ [inst.seqNum], next := inst.seqNum + 1 }
  | .executeStore inst acc => (s.lsq.executeStore inst acc).map fun lsq =>
    match acc with
    | .write req => { s with
        lsq := lsq
        request := Function.update s.request inst.seqNum (some req)
        released := if req.size % 256 ≠ 0 ∧ inst.isStoreConditional = true
          then insert inst.seqNum s.released else s.released }
    | _ => { s with lsq := lsq }
  | .commitStores n => (s.lsq.commitStores c n).map fun lsq =>
    { s with lsq := lsq, released := s.released ∪ (s.order.filter (· ≤ n)).toFinset }
  | .writebackStores accept handleLockedWrite =>
    (s.lsq.writebackStores c accept handleLockedWrite).map fun lsq => { s with lsq := lsq }
  | .recvRetry accept => (s.lsq.recvRetry c accept).map fun lsq => { s with lsq := lsq }
  | .completeDataAccess pkt => (s.lsq.completeDataAccess c pkt).map fun lsq => { s with lsq := lsq }
  | .squash n => (s.lsq.squash c n).map fun lsq =>
    { s with lsq := lsq, order := s.order.filter fun i => i ≤ n || i ∈ s.released }
  | .setSquashed i => some { s with lsq := { s.lsq with isSquashed := Function.update s.lsq.isSquashed i true } }

/-- The stores in the queue: the oldest one has not completed. -/
def live : List Nat := s.order.dropWhile (.completed · ∈ s.lsq.log)

def Permitted (s : System) : Call → Prop
  | .insertStore inst => 0 < s.lsq.numFreeStoreEntries c ∧ s.next ≤ inst.seqNum ∧ inst.isDataPrefetch = false
  | .executeStore inst acc =>
    inst.seqNum ∈ s.live ∧ (s.lsq.storeQueue (s.lsq.sqIdx inst.seqNum)).inst = some inst ∧
    inst.seqNum ∉ s.released ∧ s.request inst.seqNum = none ∧ s.lsq.isSquashed inst.seqNum = false ∧
    (inst.isStoreConditional = true → (∀ i ∈ s.order, i < inst.seqNum → i ∈ s.released) ∧
      ∀ req, acc = .write req → req.isSplit = false ∧ req.isMmappedIpr = false)
  | .completeDataAccess pkt => pkt ∈ s.lsq.inFlight
  | _ => True

/-- All packets of the store have been accepted, or it has failed. -/
def Sent (log : List Event) (i : Nat) : Prop :=
  (∀ half < numPackets (s.request i), .accepted ⟨i, half⟩ ∈ log) ∨ .failed i ∈ log

def entryAt (k : Nat) : SQEntry := s.lsq.storeQueue ((s.lsq.storeHead + k) % c.SQEntries)

structure Correct : Prop where
  stores : s.lsq.stores = s.live.length
  entries : ∀ k < s.live.length, (s.entryAt c k).inst.map DynInst.seqNum = s.live[k]?
  storeTail : s.lsq.storeTail = (s.lsq.storeHead + s.live.length) % c.SQEntries
  storeWBIdx : ∃ w ≤ s.live.length, s.lsq.storeWBIdx = (s.lsq.storeHead + w) % c.SQEntries
  storesToWB : s.lsq.storesToWB = (List.range s.live.length).countP fun k =>
    (s.entryAt c k).canWB && !(s.entryAt c k).completed
  once : ∀ pkt, s.lsq.log.count (.accepted pkt) ≤ 1
  released : ∀ pkt, .accepted pkt ∈ s.lsq.log → pkt.seqNum ∈ s.released ∧ pkt.half < numPackets (s.request pkt.seqNum)
  inOrder : ∀ before pkt after, s.lsq.log = before ++ .accepted pkt :: after → ∀ i ∈ s.order, i < pkt.seqNum →
    s.Sent before i ∧ (c.needsTSO = true → .completed i ∈ before)
  completed : ∀ i ∈ s.order, .completed i ∈ s.lsq.log → s.Sent s.lsq.log i

end System

/-! ## The invariant -/

section

variable (c : Config) (p : Program) (lsq : LSQUnit)

structure EntryOk (a : Nat) (e : SQEntry) : Prop where
  inst : ∃ inst, e.inst = some inst ∧ inst.seqNum = p.sn a ∧ inst.isDataPrefetch = false ∧
    (inst.isStoreConditional = true → ∀ req, p.request (p.sn a) = some req →
      req.isSplit = false ∧ req.isMmappedIpr = false)
  req : e.req = p.request (p.sn a)
  size : e.size = ((p.request (p.sn a)).map (·.size % 256)).getD 0
  isSplit : e.isSplit = ((p.request (p.sn a)).map (·.isSplit)).getD false

structure Layout (e : Nat → SQEntry) (H W : Nat) : Prop where
  le : H ≤ W ∧ W ≤ p.order.length ∧ p.order.length < H + c.SQEntries
  idx : lsq.storeHead = H % c.SQEntries ∧ lsq.storeWBIdx = W % c.SQEntries ∧
    lsq.storeTail = p.order.length % c.SQEntries
  stores : lsq.stores = (p.order.length : Int) - H
  holds : Ring.Holds c.SQEntries lsq.storeQueue e H p.order.length
  entry : ∀ a < p.order.length, EntryOk p a (e a)
  sorted : ∀ a b, a < b → b < p.order.length → p.sn a < p.sn b
  next : (∀ a < p.order.length, p.sn a < p.next) ∧ (∀ i ∈ p.released, i < p.next) ∧
    ∀ i, p.next ≤ i → p.request i = none
  sqIdx : ∀ a, H ≤ a → a < p.order.length → lsq.sqIdx (p.sn a) = a % c.SQEntries

/-- How many stores may write back and have not completed. -/
def toWB (e : Nat → SQEntry) (T : Nat) : Nat := (List.range T).countP fun a => (e a).canWB && !(e a).completed

structure Flags (e : Nat → SQEntry) (H W : Nat) (busy : Bool) : Prop where
  released : ∀ a < p.order.length, (e a).canWB = true ↔ p.sn a ∈ p.released
  closed : ∀ a b, a ≤ b → b < p.order.length → (e b).canWB = true → (e a).canWB = true
  canWB : ∀ a < W, (e a).canWB = true
  started : busy = true → W < p.order.length ∧ (e W).canWB = true
  committed : ∀ a, W ≤ a → a < p.order.length → ((e a).committed = true ↔ a = W ∧ busy = true)
  left : ∀ a < H, (e a).completed = true
  waiting : ∀ a, W ≤ a → a < p.order.length → (e a).completed = false
  head : H < p.order.length → (e H).completed = false
  storesToWB : lsq.storesToWB = toWB e p.order.length

/-- A store of which packets may have been accepted. -/
def Started (W : Nat) (busy : Bool) (a : Nat) : Prop := a < W ∨ a = W ∧ busy = true

/-- What stood in the log when a packet was accepted: the older stores have been sent. -/
def SentBefore (sn pk : Nat → Nat) (W : Nat) (busy : Bool) (before : List Event) (ev : Event) : Prop :=
  ∀ pkt, ev = .accepted pkt → ∀ a b, b < a → Started W busy a → pkt.seqNum = sn a →
    ((∀ half < pk b, .accepted ⟨sn b, half⟩ ∈ before) ∨ .failed (sn b) ∈ before) ∧
      (c.needsTSO = true → .completed (sn b) ∈ before)

/-- The store at position `a` has number `sn a` and `pk a` packets, and is `done` when it has completed. -/
structure Traffic (sn pk : Nat → Nat) (done : Nat → Bool) (W : Nat) (busy : Bool) : Prop where
  sorted : ∀ a b, a < b → Started W busy b → sn a < sn b
  accepted : ∀ pkt, .accepted pkt ∈ lsq.log → ∃ a, Started W busy a ∧ pkt.seqNum = sn a
  failed : ∀ i, .failed i ∈ lsq.log → ∃ a < W, i = sn a ∧ numSent lsq.log i = 0
  completed : ∀ i, .completed i ∈ lsq.log ↔ ∃ a < W, i = sn a ∧ done a = true
  count : ∀ i half, lsq.log.count (.accepted ⟨i, half⟩) = if half < numSent lsq.log i then 1 else 0
  sent : ∀ a < W, .failed (sn a) ∉ lsq.log → numSent lsq.log (sn a) = pk a
  partly : busy = true → numSent lsq.log (sn W) ≤ pk W
  inOrder : EventLog.Always (SentBefore c sn pk W busy) lsq.log
  inFlight : ∀ pkt, lsq.inFlight.count pkt ≤ lsq.log.count (.accepted pkt)
  outstanding : ∀ a, Started W busy a → 0 < pk a → .failed (sn a) ∉ lsq.log →
    (lsq.senderState (sn a)).outstanding + numSent lsq.log (sn a) =
      pk a + lsq.inFlight.countP (·.seqNum == sn a) ∧ (lsq.senderState (sn a)).idx = a % c.SQEntries
  responded : ∀ a < W, done a = true → ∀ pkt ∈ lsq.inFlight, pkt.seqNum ≠ sn a
  needsTSO : c.needsTSO = true → (lsq.storeInFlight = false → ∀ a < W, done a = true) ∧
    (∀ a, a + 1 < W → done a = true) ∧ (busy = true → lsq.storeInFlight = false)

structure Core (e : Nat → SQEntry) (H W : Nat) (busy : Bool) : Prop where
  layout : Layout c p lsq e H W
  flags : Flags p lsq e H W busy
  traffic : Traffic c lsq p.sn p.packets (fun a => (e a).completed) W busy

end

/-- The next packet of store `i`, of which `k` have been accepted: refused by the cache, or without a port. -/
inductive Held (lsq : LSQUnit) (i : Nat) (split : Bool) (k : Nat) : Prop where
  | first (hk : k = 0) (blocked : lsq.isStoreBlocked = true) (retry : lsq.retryPkt = some ⟨i, 0⟩)
      (pending : lsq.hasPendingPkt = false ∧ lsq.pendingPkt = none)
      (state : (lsq.senderState i).pktToSend = split ∧ (split = true → (lsq.senderState i).pendingPacket = some ⟨i, 1⟩))
  | second (hk : k = 1) (hsplit : split = true) (blocked : lsq.isStoreBlocked = true)
      (retry : lsq.retryPkt = some ⟨i, 1⟩) (pending : lsq.hasPendingPkt = false ∧ lsq.pendingPkt = none)
      (state : (lsq.senderState i).pktToSend = false ∨ (lsq.senderState i).pendingPacket = some ⟨i, 1⟩)
  | port (hk : k = 1) (hsplit : split = true) (blocked : lsq.isStoreBlocked = false) (retry : lsq.retryPkt = none)
      (pending : lsq.hasPendingPkt = true ∧ lsq.pendingPkt = some ⟨i, 1⟩)
      (state : (lsq.senderState i).pktToSend = false)

/-- No packet is kept. -/
structure Idle (lsq : LSQUnit) : Prop where
  blocked : lsq.isStoreBlocked = false
  retry : lsq.retryPkt = none
  pending : lsq.hasPendingPkt = false ∧ lsq.pendingPkt = none

/-- The registers of the unit: the store at `W` is not being sent, or some of its packets have been. -/
def Registers (p : Program) (lsq : LSQUnit) (W : Nat) : Bool → Prop
  | false => Idle lsq
  | true => Held lsq (p.sn W) (((p.request (p.sn W)).map Request.isSplit).getD false) (numSent lsq.log (p.sn W)) ∧
      numSent lsq.log (p.sn W) < p.packets W

def System.Inv (c : Config) (s : System) : Prop :=
  ∃ e H W busy, Core c s.toProgram s.lsq e H W busy ∧ Registers s.toProgram s.lsq W busy

end Alpine.Cpu.Lsq
