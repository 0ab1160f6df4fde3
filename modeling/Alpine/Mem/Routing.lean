import Alpine.Mem.WirelessXBar

/-!
# Packets through the wireless crossbar (`mem/wireless_xbar.cc`)

`recvTimingReq`, `recvTimingResp`, `recvTimingSnoopReq` and `recvTimingSnoopResp` with the tables that
they keep: `routeTo`, `outstandingSnoop` and `outstandingCMO`.

* What the rest of the system answers is an argument: whether a layer's `tryTiming` accepts (see
  `Alpine.Mem.XBar.tryTiming`), what the snooped caches and the snoop filter say, whether the port below
  takes the packet.  The layers' occupancy and the statistics are left out.
* Until `sendTimingReq` returns, `recvTimingReq` does not touch the tables, so a snoop that comes up
  from inside that call is one that came before.
* A failed assertion about `routeTo` or `outstandingSnoop` is told apart from the others.
-/

namespace Alpine.Mem

/-- How a call can fail. -/
inductive Fault where
  | route
  | assertion
  | panic (msg : String)

structure RouteParams where
  pointOfCoherency : Bool
  pointOfUnification : Bool
  bypassCaches : Bool
  snoopFilter : Bool
  frontendLatency : UInt32
  forwardLatency : UInt32
  responseLatency : UInt32
  snoopResponseLatency : UInt32
  clockPeriod : UInt32
  macProto : MacProtocol
  bandwidth : Nat → Nat
  masters : Nat
  slaves : Nat

/-- An unordered map is a list of pairs, an unordered set a list; requests are keys by address. -/
structure Tables where
  routeTo : List (Nat × PortID) := []
  outstandingSnoop : List Nat := []
  outstandingCMO : List (Nat × Option Packet) := []

variable (p : RouteParams)

/-! ## Packets -/

/-- `Packet::makeResponse`, after its assertions. -/
def Packet.makeResponse (pkt : Packet) : Packet :=
  { pkt with cmd := pkt.cmd.responseCommand, isExpressSnoop := false }

namespace RouteParams

def isDestination (pkt : Packet) : Bool :=
  (pkt.req.isToPOC && p.pointOfCoherency) || (pkt.req.isToPOU && p.pointOfUnification)

def sinkPacket (pkt : Packet) : Bool :=
  (p.pointOfCoherency && pkt.cacheResponding) ||
    (p.pointOfCoherency && !(pkt.isRead || pkt.isWrite) && !pkt.needsResponse) ||
    (pkt.isCleanEviction && pkt.isBlockCached) ||
    (pkt.cacheResponding && (!pkt.needsWritable || pkt.responderHadWritable))

def forwardPacket (pkt : Packet) : Bool :=
  if pkt.isClean then !p.isDestination pkt else pkt.isRead || pkt.isWrite || !p.pointOfCoherency

/-- `calcPacketWirelessTiming`; `offset` is the time to the next clock edge. -/
def calcPacketWirelessTiming (pkt : Packet) (offset header_delay : UInt32) : Packet :=
  { pkt with
    headerDelay := pkt.headerDelay + (offset + header_delay)
    payloadDelay :=
      if pkt.hasData then
        match p.macProto with
        | .exp_backoff => 0
        | .token_pass => UInt32.ofNat (max pkt.payloadDelay.toNat (p.bandwidth pkt.size))
      else pkt.payloadDelay }

end RouteParams

/-! ## Snooping -/

/-- What one snooped cache does to the packet. -/
structure SnoopEffect where
  setCacheResponding : Bool := false
  setResponderHadWritable : Bool := false
  setSatisfied : Bool := false
  setBlockCached : Bool := false
  snoopDelay : UInt32 := 0

def SnoopEffect.apply (e : SnoopEffect) (pkt : Packet) : Packet :=
  { pkt with
    cacheResponding := pkt.cacheResponding || e.setCacheResponding
    responderHadWritable := pkt.responderHadWritable || e.setResponderHadWritable
    satisfied := pkt.satisfied || e.setSatisfied
    isBlockCached := pkt.isBlockCached || e.setBlockCached
    snoopDelay := max pkt.snoopDelay e.snoopDelay }

/-- The ports that a snoop goes to. -/
def snoopedPorts (exclude_slave_port_id : PortID) (dests : List (PortID × SnoopEffect)) :
    List (PortID × SnoopEffect) :=
  dests.filter fun d => exclude_slave_port_id = InvalidPortID || d.1 ≠ exclude_slave_port_id

/-- `forwardTiming`. -/
def forwardTiming (pkt : Packet) (exclude_slave_port_id : PortID) (dests : List (PortID × SnoopEffect)) : Packet :=
  (snoopedPorts exclude_slave_port_id dests).foldl (fun pkt d => d.2.apply pkt) pkt

/-- The answers during one call of `recvTimingReq`. -/
structure ReqEnv where
  layerAccepts : Bool
  offset : UInt32 := 0
  portReady : Bool := true
  lookupLatency : UInt32 := 0
  dests : List (PortID × SnoopEffect) := []
  sendAccepted : Bool := true
  answeredInPlace : Bool := false

/-- The snooping part of `recvTimingReq`. -/
def snoopCaches (pkt : Packet) (slave_port_id : PortID) (env : ReqEnv) : Packet :=
  let pkt :=
    if p.snoopFilter then
      let pkt := { pkt with headerDelay := pkt.headerDelay + env.lookupLatency * p.clockPeriod }
      if pkt.isEviction then
        if env.dests.isEmpty then pkt else { pkt with isBlockCached := true }
      else forwardTiming pkt slave_port_id env.dests
    else forwardTiming pkt slave_port_id env.dests
  { pkt with headerDelay := pkt.headerDelay + pkt.snoopDelay, snoopDelay := 0 }

/-! ## The tables -/

/-- The index is one of a vector of `n` ports or layers. -/
def InRange (id : PortID) (n : Nat) : Prop := id ≠ InvalidPortID ∧ 0 ≤ id.toInt ∧ id.toInt < n

instance (id : PortID) (n : Nat) : Decidable (InRange id n) := inferInstanceAs (Decidable (_ ∧ _))

namespace Tables

def findRoute (t : Tables) (req : Nat) : Option PortID := t.routeTo.lookup req

def eraseRoute (t : Tables) (req : Nat) : Tables :=
  { t with routeTo := t.routeTo.filter fun e => e.1 ≠ req }

/-- `assert(routeTo.find(pkt->req) == routeTo.end()); routeTo[pkt->req] = id;` -/
def insertRoute (t : Tables) (req : Nat) (id : PortID) : Except Fault Tables :=
  if (t.findRoute req).isSome then .error .route
  else .ok { t with routeTo := (req, id) :: t.routeTo }

def checkRoutes (t : Tables) : Except Fault Tables :=
  if t.routeTo.length > 512 then .error (.panic "Routing table exceeds 512 packets\n") else .ok t

/-- The same for `outstandingSnoop`, with its size check. -/
def insertSnoop (t : Tables) (req : Nat) : Except Fault Tables :=
  if req ∈ t.outstandingSnoop then .error .route
  else if t.outstandingSnoop.length + 1 > 512 then
    .error (.panic "Outstanding snoop requests exceeded 512\n")
  else .ok { t with outstandingSnoop := req :: t.outstandingSnoop }

def eraseSnoop (t : Tables) (req : Nat) : Tables :=
  { t with outstandingSnoop := t.outstandingSnoop.filter fun q => q ≠ req }

def findCMO (t : Tables) (id : Nat) : Option (Option Packet) := t.outstandingCMO.lookup id

def eraseCMO (t : Tables) (id : Nat) : Tables :=
  { t with outstandingCMO := t.outstandingCMO.filter fun e => e.1 ≠ id }

def insertCMO (t : Tables) (id : Nat) (deferred_rsp : Option Packet) : Tables :=
  { t with outstandingCMO := (id, deferred_rsp) :: t.outstandingCMO }

end Tables

/-! ## `recvTimingReq` -/

/-- The packet after it was sunk, sent on or turned around. -/
structure Sending where
  pkt : Packet
  success : Bool
  forwarded : Bool
  expect_response : Bool
  respond_directly : Bool

/-- Sink the packet, send it on, or answer it here. -/
def sendOn (pkt : Packet) (expect_snoop_resp : Bool) (env : ReqEnv) : Except Fault Sending :=
  let expect_response := pkt.needsResponse && !pkt.cacheResponding
  if p.sinkPacket pkt then .ok ⟨pkt, true, false, expect_response, false⟩
  else if p.forwardPacket pkt then
    let pkt := if pkt.cacheResponding then { pkt with isExpressSnoop := true } else pkt
    let pkt := if pkt.isWrite && p.isDestination pkt then { pkt with writeThrough := false } else pkt
    let answered := env.sendAccepted && env.answeredInPlace && pkt.needsResponse
    .ok ⟨if answered then pkt.makeResponse else pkt, env.sendAccepted, env.sendAccepted, expect_response,
      false⟩
  else if !pkt.needsResponse || expect_snoop_resp then .error .assertion
  else .ok ⟨pkt, true, false, false, true⟩

/-- Remember that a snoop response is expected. -/
def recordSnoop (t : Tables) (req : Nat) (expect_snoop_resp : Bool) : Except Fault Tables :=
  if expect_snoop_resp then t.insertSnoop req else .ok t

/-- Remember where the response goes. -/
def recordRoute (t : Tables) (req : Nat) (slave_port_id : PortID) (expect : Bool) : Except Fault Tables :=
  if expect then t.insertRoute req slave_port_id >>= Tables.checkRoutes else .ok t

/-- Express snoops bypass the crossbar state. -/
def record (t : Tables) (req : Nat) (slave_port_id : PortID)
    (is_express_snoop expect_snoop_resp expect_response : Bool) : Except Fault Tables :=
  if is_express_snoop then .ok t
  else do
    let t ← recordSnoop t req expect_snoop_resp
    recordRoute t req slave_port_id (expect_response || expect_snoop_resp)

/-- The second half of a cache clean at its destination has arrived, or the first one has to wait: the
tables, and the packet to answer with its port. -/
def rendezvous (t : Tables) (pkt : Packet) (slave_port_id : PortID) :
    Except Fault (Tables × Option (Packet × PortID)) :=
  match t.findCMO pkt.id with
  | some deferred =>
    if pkt.isWrite then
      match deferred with
      | none => .error .assertion
      | some rsp_pkt =>
        match t.findRoute rsp_pkt.req.ptr with
        | none => .error .route
        | some rsp_port_id =>
          if InRange rsp_port_id p.slaves then
            .ok ((t.eraseRoute rsp_pkt.req.ptr).eraseCMO pkt.id, some (rsp_pkt, rsp_port_id))
          else .error .route
    else .ok (t.eraseCMO pkt.id, some (pkt, slave_port_id))
  | none =>
    if pkt.isWrite then .ok (t.insertCMO pkt.id none, none)
    else do
      let t ← recordRoute (t.insertCMO pkt.id (some pkt)) pkt.req.ptr slave_port_id true
      .ok (t, none)

/-- The packet that the crossbar answers itself, with its port. -/
def answer (t : Tables) (s : Sending) (slave_port_id : PortID) (is_destination : Bool) :
    Except Fault (Tables × Option (Packet × PortID)) :=
  if ((s.pkt.isClean && s.pkt.satisfied) || s.pkt.cmd = .WriteClean) && is_destination then
    rendezvous p t s.pkt slave_port_id
  else .ok (t, if s.respond_directly then some (s.pkt, slave_port_id) else none)

/-- A response that leaves the crossbar: the request it answers, and the port. -/
inductive Delivery where
  | slave (req : Nat) (id : PortID)
  | master (req : Nat) (id : PortID)

def Delivery.req : Delivery → Nat
  | .slave req _ => req
  | .master req _ => req

structure ReqResult where
  tables : Tables
  pkt : Packet
  success : Bool
  forwarded : Bool := false
  direct : Option Delivery := none

/-- The response that the crossbar sends itself. -/
def respondDirectly : Option (Packet × PortID) → Except Fault (Option Delivery)
  | none => .ok none
  | some (rsp_pkt, id) =>
    if rsp_pkt.needsResponse then .ok (some (.slave rsp_pkt.req.ptr id)) else .error .assertion

/-- `recvTimingReq` after the snooping. -/
def finishReq (t : Tables) (pkt : Packet) (slave_port_id : PortID) (is_express_snoop cache_responding : Bool)
    (old_header_delay : UInt32) (env : ReqEnv) : Except Fault ReqResult := do
  let expect_snoop_resp := !cache_responding && pkt.cacheResponding
  let s ← sendOn p pkt expect_snoop_resp env
  if !s.success then
    if is_express_snoop then .error .assertion
    else .ok { tables := t, pkt := { s.pkt with headerDelay := old_header_delay }, success := false }
  else
    let t ← record t pkt.req.ptr slave_port_id is_express_snoop expect_snoop_resp s.expect_response
    let q ← answer p t s slave_port_id (p.isDestination pkt)
    let direct ← respondDirectly q.2
    .ok { tables := q.1, pkt := s.pkt, success := true, forwarded := s.forwarded, direct := direct }

/-- Whether the caches above are snooped. -/
def RouteParams.snoopsCaches (pkt : Packet) : Bool := !p.bypassCaches && pkt.cmd ≠ .WriteClean

/-- The packet with its delays. -/
def RouteParams.timed (pkt : Packet) (env : ReqEnv) : Packet :=
  p.calcPacketWirelessTiming pkt env.offset ((p.frontendLatency + p.forwardLatency) * p.clockPeriod)

/-- The packet as the snooped caches leave it. -/
def RouteParams.snooped (pkt : Packet) (slave_port_id : PortID) (env : ReqEnv) : Packet :=
  if p.snoopsCaches pkt then snoopCaches p (p.timed pkt env) slave_port_id env else p.timed pkt env

def recvTimingReq (t : Tables) (pkt : Packet) (slave_port_id : PortID) (env : ReqEnv) : Except Fault ReqResult :=
  let is_express_snoop := pkt.isExpressSnoop
  let cache_responding := pkt.cacheResponding
  if is_express_snoop ≠ cache_responding then .error .assertion
  else if !is_express_snoop && !env.layerAccepts then .ok { tables := t, pkt := pkt, success := false }
  else if p.snoopsCaches pkt && pkt.snoopDelay ≠ 0 then .error .assertion
  else if p.snoopsCaches pkt && pkt.isClean && !p.isDestination pkt && !env.portReady then
    .ok { tables := t, pkt := p.timed pkt env, success := false }
  else
    finishReq p t (p.snooped pkt slave_port_id env) slave_port_id is_express_snoop cache_responding
      pkt.headerDelay env

/-! ## Responses and snoops -/

/-- `recvTimingResp`: whether it accepts, and what it delivers. -/
def recvTimingResp (t : Tables) (pkt : Packet) (layerAccepts : Bool) : Except Fault (Tables × Option Delivery) :=
  match t.findRoute pkt.req.ptr with
  | none => .error .route
  | some slave_port_id =>
    if InRange slave_port_id p.slaves then
      if layerAccepts then .ok (t.eraseRoute pkt.req.ptr, some (.slave pkt.req.ptr slave_port_id))
      else .ok (t, none)
    else .error .route

/-- If we can expect a response, remember how to route it. -/
def recordForwarded (t : Tables) (pkt : Packet) (cache_responding : Bool) (master_port_id : PortID) :
    Except Fault Tables :=
  if !cache_responding && pkt.cacheResponding then t.insertRoute pkt.req.ptr master_port_id else .ok t

/-- `recvTimingSnoopReq`; `ownRange`: the address belongs to the port. -/
def recvTimingSnoopReq (t : Tables) (pkt : Packet) (master_port_id : PortID)
    (dests : List (PortID × SnoopEffect)) (ownRange : Bool) : Except Fault Tables :=
  if !pkt.isExpressSnoop || pkt.snoopDelay ≠ 0 || p.bypassCaches then .error .assertion
  else do
    let t ← recordForwarded t (forwardTiming pkt InvalidPortID dests) pkt.cacheResponding master_port_id
    if ownRange then .ok t else .error .assertion

/-- `recvTimingSnoopResp`: the response is forwarded as a snoop response, or becomes a normal response. -/
def recvTimingSnoopResp (t : Tables) (pkt : Packet) (slave_port_id : PortID)
    (layerAccepts sendAccepted : Bool) : Except Fault (Tables × Option Delivery) :=
  match t.findRoute pkt.req.ptr with
  | none => .error .route
  | some dest_port_id =>
    let forwardAsSnoop := pkt.req.ptr ∉ t.outstandingSnoop
    if ¬ InRange dest_port_id (if forwardAsSnoop then p.masters else p.slaves) then .error .route
    else if !layerAccepts then .ok (t, none)
    else if pkt.isExpressSnoop then .error .assertion
    else if forwardAsSnoop then
      if sendAccepted then .ok (t.eraseRoute pkt.req.ptr, some (.master pkt.req.ptr dest_port_id))
      else .error .assertion
    else if slave_port_id = dest_port_id then .error .route
    else
      .ok ((t.eraseSnoop pkt.req.ptr).eraseRoute pkt.req.ptr, some (.slave pkt.req.ptr dest_port_id))

end Alpine.Mem
