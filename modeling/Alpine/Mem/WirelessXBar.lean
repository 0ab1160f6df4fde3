import Alpine.Lib.Sweep
import Alpine.Mem.Packet

/-!
# Medium access of the wireless crossbar (`mem/wireless_xbar.cc`, `mem/wireless_xbar.hh`)

The state that `WirelessLayer::tryTiming`, `WirelessXBar::expBackoffCollisionCheck` and
`WirelessXBar::tokenChange` share, and these functions.  Statistics are left out.

* Ticks are natural numbers.  `bandwidth` is the conversion of `size * bandwidth` (a `double`) to a tick.
* A layer is the one its type and destination select from `reqLayers`, `respLayers` and `snoopLayers`.
* `random_mt` is a parameter of the functions that draw from it.
* A search loop `while (*i != x && i != end) ++i` tests an element before the bound; whatever it reads
  past the end, it stops there, so it is a search.
* `expBackoffCollisionCheck` calls `sendRetry` before its last statement, and the peer may call
  `tryTiming` from inside that call: `Control` says where the code stands.
-/

namespace Alpine.Mem

open Alpine.Sweep

abbrev PortID := Int16

def InvalidPortID : PortID := -1

inductive MacProtocol where
  | exp_backoff
  | token_pass

inductive LayerType where
  | REQ
  | RESP
  | SNOOP
  deriving DecidableEq

/-- The port objects, which are compared by address. -/
inductive Port where
  | master (i : Nat)
  | slave (i : Nat)
  | snoopResp (i : Nat)
  deriving DecidableEq

structure ExpBackoffPkt where
  tickStart : Nat
  tickSched : Nat
  txLength : Nat
  timesResched : UInt8
  overlap : Bool
  layerType : LayerType
  srcPort : Port
  destPort : PortID
  masterId : Nat

/-- The time an attempt occupies. -/
def ExpBackoffPkt.attempt (i : ExpBackoffPkt) : Slot Nat := ⟨i.tickSched - i.txLength, i.tickSched⟩

structure TokenPassPkt where
  tickStart : Nat
  layerType : LayerType
  srcPort : Port
  srcId : PortID
  destPort : PortID
  masterId : Nat

inductive BusState where
  | IDLE
  | BUSY
  deriving DecidableEq

structure Layer where
  state : BusState := .IDLE
  waitingForLayer : List Port := []

/-- The parameters of the crossbar that do not change. -/
structure Params where
  macProto : MacProtocol
  bandwidth : Nat → Nat
  retrySlot : Nat
  backoffCeil : UInt8
  masterConnections : Nat
  hasDefault : Bool
  slaveConnections : Nat
  clockPeriod : Nat

/-- `running`: between two event handlers or calls; `checking`: inside the call of `sendRetry` that
`expBackoffCollisionCheck` makes; `panicked`: the simulation has ended. -/
inductive Control where
  | running
  | checking
  | panicked
  deriving DecidableEq

/-- `attempts` is history: the attempts that were ever put into `pktToTransmitEBList`. -/
structure XBar where
  curTick : Nat := 0
  tick : Nat := 0
  layers : LayerType → PortID → Layer := fun _ _ => {}
  backoffIndex : UInt8 := 0
  pktToTransmitEBList : List ExpBackoffPkt := []
  pktReadyEBList : List ExpBackoffPkt := []
  collisionCheckEvent : Option Nat := none
  attempts : List (Slot Nat) := []
  tokenID : UInt16 := 0
  channelState : BusState := .IDLE
  pktToTransmitTPList : List TokenPassPkt := []
  tokenChangeEvent : Option Nat := none
  control : Control := .running

variable (p : Params)

namespace XBar

def setLayer (s : XBar) (type : LayerType) (dest : PortID) (l : Layer) : XBar :=
  { s with layers := fun type' dest' => if type' = type ∧ dest' = dest then l else s.layers type' dest' }

def panic (s : XBar) : XBar := { s with control := .panicked }

/-! ## Port numbers -/

/-- The member `idOffset`. -/
def idOffset : UInt16 := UInt16.ofNat p.masterConnections

/-- The member `numTokens`. -/
def numTokens : UInt16 := UInt16.ofNat (p.masterConnections + p.slaveConnections)

/-- The member `defaultPortID`: the default port comes after the other master ports. -/
def defaultPortID : PortID :=
  if p.hasDefault then Int16.ofNat p.masterConnections else InvalidPortID

/-! ## The clock of the crossbar (`sim/clocked_object.hh`) -/

def divCeil (a b : Nat) : Nat := (a + b - 1) / b

/-- `Clocked::update`. -/
def update (s : XBar) : XBar :=
  if s.curTick ≤ s.tick then s
  else
    let tick := s.tick + p.clockPeriod
    if s.curTick ≤ tick then { s with tick := tick }
    else { s with tick := tick + divCeil (s.curTick - tick) p.clockPeriod * p.clockPeriod }

def clockEdge (s : XBar) (cycles : Nat) : Nat := (s.update p).tick + p.clockPeriod * cycles

def nextCycle (s : XBar) : Nat := s.clockEdge p 1

def ticksToCycles (t : Nat) : Nat := divCeil t p.clockPeriod

end XBar

/-- The arguments of `tryTiming`; the layer it is called on is the one of `layerType` and `destPort`. -/
structure Call where
  srcPort : Port
  srcId : PortID
  destPort : PortID
  pkt : Packet
  layerType : LayerType

/-- Transmission length; a packet without payload counts as one byte. -/
def Params.txLength (pkt : Packet) : Nat :=
  if pkt.hasData then p.bandwidth pkt.size else p.bandwidth 1

namespace XBar

/-! ## Exponential backoff -/

/-- The first refusal of a packet: the attempt it schedules. -/
def newAttempt (s : XBar) (c : Call) (rnd_slots_delay : UInt16) : ExpBackoffPkt :=
  { tickStart := s.curTick
    tickSched := s.curTick + rnd_slots_delay.toNat * p.retrySlot + p.txLength c.pkt
    txLength := p.txLength c.pkt
    timesResched := 0
    overlap := false
    layerType := c.layerType
    srcPort := c.srcPort
    destPort := c.destPort
    masterId := c.pkt.req.masterId }

/-- Insertion into `pktToTransmitEBList`, and the collision check moved to the first end of it. -/
def schedule (s : XBar) (curPkt : ExpBackoffPkt) : XBar :=
  let l := insertSched ExpBackoffPkt.tickSched curPkt s.pktToTransmitEBList
  { s with
    pktToTransmitEBList := l
    collisionCheckEvent := l.head?.map ExpBackoffPkt.tickSched
    attempts := s.attempts ++ [curPkt.attempt] }

/-- `tryTiming`, case `exp_backoff`. -/
def tryTimingEB (s : XBar) (c : Call) (rnd_slots_delay : UInt16) : XBar × Bool :=
  let l : Layer := { s.layers c.layerType c.destPort with state := .BUSY }
  if c.srcPort ∈ l.waitingForLayer then
    let s := s.setLayer c.layerType c.destPort
      { l with waitingForLayer := l.waitingForLayer.erase c.srcPort }
    if s.pktReadyEBList.any fun i => i.srcPort = c.srcPort then
      ({ s with pktReadyEBList := s.pktReadyEBList.eraseP fun i => i.srcPort = c.srcPort }, true)
    else (s.panic, false)
  else
    let s := s.setLayer c.layerType c.destPort
      { l with waitingForLayer := l.waitingForLayer ++ [c.srcPort] }
    (s.schedule (s.newAttempt p c rnd_slots_delay), false)

/-- `checkOverlap`. -/
def checkOverlap (firstPkt laterPkt : ExpBackoffPkt) : Bool :=
  laterPkt.tickSched - laterPkt.txLength < firstPkt.tickSched

/-- The list after the loop of `expBackoffCollisionCheck`. -/
def markOverlaps (curPkt : ExpBackoffPkt) (l : List ExpBackoffPkt) : List ExpBackoffPkt :=
  l.map fun i => if checkOverlap curPkt i then { i with overlap := true } else i

/-- `newOverlap` after the loop: what the last packet that overlaps says. -/
def newOverlap (curPkt : ExpBackoffPkt) (l : List ExpBackoffPkt) : Bool :=
  l.foldl (fun new i => if checkOverlap curPkt i then !i.overlap else new) false

/-- The attempt that replaces one that met another. -/
def retried (s : XBar) (curPkt : ExpBackoffPkt) (rnd_slots_delay : UInt16) : ExpBackoffPkt :=
  { curPkt with
    tickSched := s.curTick + rnd_slots_delay.toNat * p.retrySlot + curPkt.txLength
    timesResched := curPkt.timesResched + 1
    overlap := false }

/-- `triggerSendRetry` in exponential backoff: the port has to be waiting for its layer. -/
def triggerSendRetryEB (s : XBar) (curPkt : ExpBackoffPkt) : XBar :=
  if curPkt.srcPort ∈ (s.layers curPkt.layerType curPkt.destPort).waitingForLayer then
    { s with control := .checking }
  else s.panic

/-- The branch of `expBackoffCollisionCheck` for an attempt that met another. -/
def collided (s : XBar) (curPkt : ExpBackoffPkt) (newOverlap : Bool) (rnd_slots_delay : UInt16) : XBar :=
  let next := if s.backoffIndex + 1 ≤ p.backoffCeil then s.backoffIndex + 1 else p.backoffCeil
  let s := { s with backoffIndex := if newOverlap then next else s.backoffIndex }
  s.schedule (s.retried p curPkt rnd_slots_delay)

/-- The branch of `expBackoffCollisionCheck` for an attempt that met no other. -/
def transmitted (s : XBar) (curPkt : ExpBackoffPkt) : XBar :=
  let s := { s with
    backoffIndex := if s.backoffIndex = 0 then 0 else s.backoffIndex - 1
    pktReadyEBList := curPkt :: s.pktReadyEBList }
  s.triggerSendRetryEB curPkt

/-- `expBackoffCollisionCheck`, up to the call of `sendRetry` or to its end; `none` when the list is empty
or the assertion fails. -/
def expBackoffCollisionCheck (s : XBar) (rnd_slots_delay : UInt16) : Option XBar :=
  match s.pktToTransmitEBList with
  | [] => none
  | curPkt :: rest =>
    if curPkt.tickSched ≠ s.curTick then none
    else
      let s := { s with pktToTransmitEBList := markOverlaps curPkt rest }
      if curPkt.overlap || rest.any (checkOverlap curPkt) then
        some (s.collided p curPkt (newOverlap curPkt rest) rnd_slots_delay)
      else some (s.transmitted curPkt)

/-- The last statement of `expBackoffCollisionCheck`, after `sendRetry` has returned. -/
def collisionCheckReturn (s : XBar) : XBar :=
  match s.pktToTransmitEBList with
  | [] => { s with control := .running }
  | i :: _ => { s with control := .running, collisionCheckEvent := some i.tickSched }

/-! ## Token passing -/

/-- The packet waits for its turn. -/
def newTokenPkt (s : XBar) (c : Call) : TokenPassPkt :=
  { tickStart := s.curTick
    layerType := c.layerType
    srcPort := c.srcPort
    srcId := c.srcId
    destPort := c.destPort
    masterId := c.pkt.req.masterId }

/-- The first token change is scheduled in case the first cycle is silent. -/
def startTokens (s : XBar) : XBar :=
  if s.tokenChangeEvent.isSome then s
  else { s.update p with tokenChangeEvent := some (s.nextCycle p) }

/-- `tryTiming`, case `token_pass`. -/
def tryTimingTP (s : XBar) (c : Call) : XBar × Bool :=
  let l : Layer := { s.layers c.layerType c.destPort with state := .BUSY }
  let s := (s.setLayer c.layerType c.destPort l).startTokens p
  if c.srcId = defaultPortID p ∧ c.layerType = .RESP then (s, true)
  else if s.channelState = .IDLE ∧ (s.tokenID.toNat : Int) = c.srcId.toInt then
    ({ s.update p with
        channelState := .BUSY
        tokenChangeEvent := some (s.clockEdge p (ticksToCycles p (p.txLength c.pkt))) }, true)
  else if c.srcPort ∈ l.waitingForLayer then (s.panic, false)
  else
    let s := s.setLayer c.layerType c.destPort
      { l with waitingForLayer := l.waitingForLayer ++ [c.srcPort] }
    ({ s with pktToTransmitTPList := s.pktToTransmitTPList ++ [s.newTokenPkt c] }, false)

/-- `triggerSendRetry` in token passing, up to the call of `sendRetry`, which is its last statement. -/
def triggerSendRetryTP (s : XBar) (i : TokenPassPkt) : XBar :=
  let l := s.layers i.layerType i.destPort
  if i.srcPort ∈ l.waitingForLayer then
    let s := s.setLayer i.layerType i.destPort
      { l with waitingForLayer := l.waitingForLayer.erase i.srcPort }
    if s.pktToTransmitTPList.any fun j => j.srcPort = i.srcPort then
      { s with pktToTransmitTPList := s.pktToTransmitTPList.eraseP fun j => j.srcPort = i.srcPort }
    else s.panic
  else s.panic

/-- `tokenChange`; the division by `numTokens` is undefined without ports. -/
def tokenChange (s : XBar) : Option XBar :=
  if numTokens p = 0 then none
  else
    let s := { s.update p with
      channelState := .IDLE
      tokenID := UInt16.ofNat ((s.tokenID.toNat + 1) % (numTokens p).toNat)
      tokenChangeEvent := some (s.nextCycle p) }
    match s.pktToTransmitTPList.find? fun i => i.srcId.toInt = (s.tokenID.toNat : Int) with
    | none => some s
    | some i => some (s.triggerSendRetryTP i)

/-- `WirelessLayer::tryTiming`. -/
def tryTiming (s : XBar) (c : Call) (rnd_slots_delay : UInt16) : XBar × Bool :=
  match p.macProto with
  | .exp_backoff => s.tryTimingEB p c rnd_slots_delay
  | .token_pass => s.tryTimingTP p c

/-! ## Time -/

/-- Time moves to `t` without passing an event that is scheduled. -/
def CanAdvance (s : XBar) (t : Nat) : Prop :=
  s.control = .running ∧ s.curTick ≤ t ∧ (∀ w ∈ s.collisionCheckEvent, t ≤ w) ∧
    ∀ w ∈ s.tokenChangeEvent, t ≤ w

instance (s : XBar) (t : Nat) : Decidable (s.CanAdvance t) := inferInstanceAs (Decidable (_ ∧ _))

end XBar

end Alpine.Mem
