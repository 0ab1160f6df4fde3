import Mathlib

/-!
# The request queues of the DRAM controller

A read or write packet is split into bursts.  The bursts of a write go to the write queue, unless they
merge with one that is there, and the packet is answered at once; those of a read are found in the write
queue or go to the read queue and from there to the response queue, and a `BurstHelper` counts them.

Addresses are 64 bits wide and sizes 32 bits, and the arithmetic of the source wraps around.  A function
returns `none` where an assertion fails or a queue is read that is empty.  The choice of the scheduler, and
whether all ranks are busy, are inputs of `processNextReqEvent`; the decoded rank, bank and row, the power
states and all times are left out, and so are the events other than `respondEvent`, as `nextReqEvent` may
fire at any time.  `answered` is the list of the packets given to `accessAndRespond`.
-/

namespace Alpine.Mem.Dram

structure Params where
  burstSize : Nat
  readBufferSize : Nat
  writeBufferSize : Nat
  writeHighThreshold : Nat
  writeLowThreshold : Nat
  minWritesPerSwitch : Nat
  /-- The constructor checks that the burst size is a power of two. -/
  burst_pow2 : ∃ b < 32, burstSize = 2 ^ b

theorem sixtyFour_pow2 : ∃ b < 32, 64 = 2 ^ b := ⟨6, by decide, rfl⟩

structure Packet where
  id : Nat
  addr : Nat
  size : Nat
  isRead : Bool
  isWrite : Bool
  fits : addr < 2 ^ 64 ∧ size < 2 ^ 32
deriving DecidableEq

structure Burst where
  addr : Nat
  size : Nat

structure BurstHelper where
  burstCount : Nat
  burstsServiced : Nat

structure DRAMPacket where
  pkt : Packet
  isRead : Bool
  addr : Nat
  size : Nat
  burstHelper : Option Nat

def DRAMPacket.burst (d : DRAMPacket) : Burst := ⟨d.addr, d.size⟩

inductive BusState where
  | READ
  | WRITE
deriving DecidableEq

structure DRAMCtrl where
  readQueue : List DRAMPacket
  writeQueue : List DRAMPacket
  respQueue : List DRAMPacket
  isInWriteQueue : Finset Nat
  /-- The burst helpers on the heap, and the address of the next one. -/
  helpers : Nat → Option BurstHelper
  nextHelper : Nat
  busState : BusState
  busStateNext : BusState
  readsThisTime : Nat
  writesThisTime : Nat
  retryRdReq : Bool
  retryWrReq : Bool
  /-- `respondEvent.scheduled()`. -/
  respondScheduled : Bool
  answered : List Packet

def DRAMCtrl.new : DRAMCtrl where
  readQueue := []
  writeQueue := []
  respQueue := []
  isInWriteQueue := ∅
  helpers _ := none
  nextHelper := 0
  busState := .READ
  busStateNext := .READ
  readsThisTime := 0
  writesThisTime := 0
  retryRdReq := false
  retryWrReq := false
  respondScheduled := false
  answered := []

/-! ## Bursts -/

variable (p : Params)

/-- `divCeil` on 32-bit numbers. -/
def divCeil (a b : Nat) : Nat := (a + b - 1) % 2 ^ 32 / b

def burstAlign (addr : Nat) : Nat := addr &&& ((p.burstSize - 1) ^^^ (2 ^ 64 - 1))

/-- `(addr | (burstSize - 1)) + 1`, where the next burst starts. -/
def nextBurst (addr : Nat) : Nat := ((addr ||| (p.burstSize - 1)) + 1) % 2 ^ 64

/-- The size of the burst of the packet that starts at `addr`. -/
def burstLen (pkt : Packet) (addr : Nat) : Nat :=
  (min (nextBurst p addr) ((pkt.addr + pkt.size) % 2 ^ 64) + 2 ^ 64 - addr) % 2 ^ 32

/-- The bursts that the loops of `addToReadQueue` and `addToWriteQueue` go through. -/
def bursts (pkt : Packet) : Nat → Nat → List Burst
  | 0, _ => []
  | cnt + 1, addr => ⟨addr, burstLen p pkt addr⟩ :: bursts pkt cnt (nextBurst p addr)

/-- `dram_pkt_count` of `recvTimingReq`. -/
def dramPktCount (pkt : Packet) : Nat :=
  divCeil (((pkt.addr &&& (p.burstSize - 1)) + pkt.size) % 2 ^ 32) p.burstSize

/-- The bursts of a packet. -/
def Packet.bursts (pkt : Packet) : List Burst := Dram.bursts p pkt (dramPktCount p pkt) pkt.addr

namespace DRAMCtrl

def readQueueFull (s : DRAMCtrl) (neededEntries : Nat) : Bool :=
  s.readQueue.length + s.respQueue.length + neededEntries > p.readBufferSize

def writeQueueFull (s : DRAMCtrl) (neededEntries : Nat) : Bool :=
  s.writeQueue.length + neededEntries > p.writeBufferSize

def accessAndRespond (s : DRAMCtrl) (pkt : Packet) : DRAMCtrl := { s with answered := s.answered ++ [pkt] }

/-! ## Reads -/

/-- The burst is subsumed by a packet in the write queue. -/
def foundInWrQ (s : DRAMCtrl) (b : Burst) : Bool :=
  burstAlign p b.addr ∈ s.isInWriteQueue &&
    s.writeQueue.any fun w => w.addr ≤ b.addr && (b.addr + b.size) % 2 ^ 64 ≤ (w.addr + w.size) % 2 ^ 64

/-- The state of the loop of `addToReadQueue`: the helper, and the bursts serviced by the write queue. -/
structure ReadLoop where
  ctrl : DRAMCtrl
  burstHelper : Option Nat
  servicedByWrQ : List Burst

/-- A helper is made for the first burst of a split packet that is not in the write queue. -/
def ReadLoop.makeHelper (l : ReadLoop) (pktCount : Nat) : ReadLoop :=
  if pktCount > 1 ∧ l.burstHelper = none then
    { l with
      burstHelper := some l.ctrl.nextHelper
      ctrl := { l.ctrl with
        helpers := Function.update l.ctrl.helpers l.ctrl.nextHelper (some ⟨pktCount, 0⟩)
        nextHelper := l.ctrl.nextHelper + 1 } }
  else l

def readBurst (pkt : Packet) (pktCount : Nat) (l : ReadLoop) (b : Burst) : Option ReadLoop :=
  if l.ctrl.foundInWrQ p b then some { l with servicedByWrQ := l.servicedByWrQ ++ [b] }
  else
    let l := l.makeHelper pktCount
    if l.ctrl.readQueueFull p 1 then none
    else
      some { l with ctrl := { l.ctrl with
        readQueue := l.ctrl.readQueue ++ [⟨pkt, true, b.addr, b.size, l.burstHelper⟩] } }

/-- It returns the bursts that the write queue has serviced, too. -/
def addToReadQueue (s : DRAMCtrl) (pkt : Packet) (pktCount : Nat) : Option (DRAMCtrl × List Burst) :=
  if pkt.isWrite ∨ pktCount = 0 then none
  else
    ((Dram.bursts p pkt pktCount pkt.addr).foldlM (readBurst p pkt pktCount) ⟨s, none, []⟩).map fun l =>
      if l.servicedByWrQ.length = pktCount then (l.ctrl.accessAndRespond pkt, l.servicedByWrQ)
      else match l.burstHelper with
        | none => (l.ctrl, l.servicedByWrQ)
        | some h =>
          let helper := (l.ctrl.helpers h).map ({ · with burstsServiced := l.servicedByWrQ.length })
          ({ l.ctrl with helpers := Function.update l.ctrl.helpers h helper }, l.servicedByWrQ)

/-! ## Writes -/

def writeBurst (pkt : Packet) (s : DRAMCtrl) (b : Burst) : Option DRAMCtrl :=
  if burstAlign p b.addr ∈ s.isInWriteQueue then some s
  else if s.writeQueue.length < p.writeBufferSize then
    let s := { s with
      writeQueue := s.writeQueue ++ [⟨pkt, false, b.addr, b.size, none⟩]
      isInWriteQueue := insert (burstAlign p b.addr) s.isInWriteQueue }
    if s.writeQueue.length = s.isInWriteQueue.card then some s else none
  else none

def addToWriteQueue (s : DRAMCtrl) (pkt : Packet) (pktCount : Nat) : Option DRAMCtrl :=
  if pkt.isWrite then
    ((Dram.bursts p pkt pktCount pkt.addr).foldlM (writeBurst p pkt) s).map (·.accessAndRespond pkt)
  else none

/-- Whether the packet is accepted, and the bursts of a read that the write queue has serviced. -/
def recvTimingReq (s : DRAMCtrl) (pkt : Packet) : Option (DRAMCtrl × Bool × List Burst) :=
  let dram_pkt_count := dramPktCount p pkt
  if pkt.size = 0 then none
  else if pkt.isRead then
    if s.readQueueFull p dram_pkt_count then some ({ s with retryRdReq := true }, false, [])
    else (s.addToReadQueue p pkt dram_pkt_count).map fun r => (r.1, true, r.2)
  else if pkt.isWrite then
    if s.writeQueueFull p dram_pkt_count then some ({ s with retryWrReq := true }, false, [])
    else (s.addToWriteQueue p pkt dram_pkt_count).map fun s => (s, true, [])
  else none

/-! ## Events -/

/-- The end of the service of one DRAM packet: a helper answers for the last of its bursts and is deleted,
without one the packet is answered. -/
def respond (s : DRAMCtrl) (dram_pkt : DRAMPacket) : Option DRAMCtrl :=
  match dram_pkt.burstHelper with
  | none => some (s.accessAndRespond dram_pkt.pkt)
  | some h => (s.helpers h).map fun helper =>
    if helper.burstsServiced + 1 = helper.burstCount then
      ({ s with helpers := Function.update s.helpers h none }).accessAndRespond dram_pkt.pkt
    else
      let helper := { helper with burstsServiced := helper.burstsServiced + 1 }
      { s with helpers := Function.update s.helpers h (some helper) }

/-- It returns the DRAM packet that it deletes, too. -/
def processRespondEvent (s : DRAMCtrl) : Option (DRAMCtrl × DRAMPacket) :=
  match s.respQueue with
  | [] => none
  | dram_pkt :: respQueue => (s.respond dram_pkt).map fun s =>
    ({ s with respQueue := respQueue, respondScheduled := !respQueue.isEmpty, retryRdReq := false }, dram_pkt)

/-- The packet that the scheduler chooses is moved to the head of the queue; `some none` if none is for an
available rank. -/
def chooseNext (queue : List DRAMPacket) (choice : Option Nat) : Option (Option (List DRAMPacket)) :=
  if queue = [] then none
  else some (choice.bind fun i => (queue[i]?).map fun dram_pkt => dram_pkt :: queue.eraseIdx i)

/-- The switch of the bus, at the start of `processNextReqEvent`. -/
def switchBus (s : DRAMCtrl) : DRAMCtrl :=
  match s.busState, s.busStateNext with
  | .READ, .WRITE => { s with readsThisTime := 0, busState := .WRITE }
  | .WRITE, .READ => { s with writesThisTime := 0, busState := .READ }
  | _, _ => s

/-- A read from the head of the read queue to the end of the response queue. -/
def serveRead (s : DRAMCtrl) (readQueue : List DRAMPacket) : Option DRAMCtrl :=
  match readQueue with
  | [] => none
  | dram_pkt :: readQueue =>
    if dram_pkt.size > p.burstSize then none
    else if s.respondScheduled = s.respQueue.isEmpty then none
    else
      some { s with
        readQueue := readQueue
        respQueue := s.respQueue ++ [dram_pkt]
        readsThisTime := s.readsThisTime + 1
        respondScheduled := true
        busStateNext := if s.writeQueue.length > p.writeHighThreshold then .WRITE else s.busStateNext }

/-- A write from the head of the write queue. -/
def serveWrite (s : DRAMCtrl) (writeQueue : List DRAMPacket) (draining : Bool) : Option DRAMCtrl :=
  match writeQueue with
  | [] => none
  | dram_pkt :: writeQueue =>
    if dram_pkt.size > p.burstSize then none
    else
      let writesThisTime := s.writesThisTime + 1
      some { s with
        writeQueue := writeQueue
        isInWriteQueue := s.isInWriteQueue.erase (burstAlign p dram_pkt.addr)
        writesThisTime := writesThisTime
        busStateNext :=
          if writeQueue = [] ∨
              (writeQueue.length + p.minWritesPerSwitch < p.writeLowThreshold ∧ draining = false) ∨
              (s.readQueue ≠ [] ∧ writesThisTime ≥ p.minWritesPerSwitch) then .READ
          else s.busStateNext }

/-- A write that had to wait is retried, if there is space. -/
def retryWrite (s : DRAMCtrl) : DRAMCtrl :=
  { s with retryWrReq := s.retryWrReq && !(s.writeQueue.length < p.writeBufferSize) }

/-- The part of `processNextReqEvent` for a bus that reads. -/
def nextRead (s : DRAMCtrl) (choice : Option Nat) (draining : Bool) : Option DRAMCtrl :=
  if s.readQueue = [] then
    if s.writeQueue ≠ [] ∧ (draining ∨ s.writeQueue.length > p.writeLowThreshold) then
      some ({ s with busStateNext := .WRITE }.retryWrite p)
    else some s
  else (chooseNext s.readQueue choice).bind fun found => match found with
    | none => some s
    | some queue => (s.serveRead p queue).map (·.retryWrite p)

/-- The part for a bus that writes. -/
def nextWrite (s : DRAMCtrl) (choice : Option Nat) (draining : Bool) : Option DRAMCtrl :=
  (chooseNext s.writeQueue choice).bind fun found => match found with
    | none => some s
    | some queue => (s.serveWrite p queue draining).map (·.retryWrite p)

/-- `busy` if all ranks are refreshing. -/
def processNextReqEvent (s : DRAMCtrl) (busy : Bool) (choice : Option Nat) (draining : Bool) : Option DRAMCtrl :=
  if busy then some s
  else match s.switchBus.busState with
    | .READ => s.switchBus.nextRead p choice draining
    | .WRITE => s.switchBus.nextWrite p choice draining

end DRAMCtrl

end Alpine.Mem.Dram
