import Mathlib
import Alpine.Mem.Packet

/-!
# The snoop filter (`mem/snoop_filter.hh`, `mem/snoop_filter.cc`)

Which slave ports of a crossbar may hold a line, from the requests and responses that pass by.

* `setSlavePorts`, `portToMask`, `maskToPortList` — the snooping ports are numbered from 0 and stand for
  one bit each of a 64-bit mask.
* `lookupRequest`, `finishRequest`, `lookupSnoop`, `updateSnoopResponse`, `updateSnoopForward`,
  `updateResponse` — the six operations; a failed assertion or a panic is an error.  The iterator
  `reqLookupResult` is the key it stands at.  Statistics are left out.
-/

namespace Alpine.Mem

/-! ## Packets -/

/-- A packet with the flags that the coherence protocol reads: of the packet, and of its request. -/
structure CohPacket extends Packet where
  isSecure : Bool := false
  hasSharers : Bool := false
  isUncacheable : Bool := false
  isCacheMaintenance : Bool := false

namespace Packet

variable (pkt : Packet)

def isInvalidate : Bool := pkt.cmd.testCmdAttrib .IsInvalidate
def isResponse : Bool := pkt.cmd.testCmdAttrib .IsResponse
def fromCache : Bool := pkt.cmd.testCmdAttrib .FromCache
def isWriteback : Bool := pkt.cmd.testCmdAttrib .IsEviction && pkt.cmd.testCmdAttrib .HasData

end Packet

/-! ## Ports -/

abbrev SnoopMask := BitVec 64

/-- `localSlavePortIds`: the snooping ports get the numbers from `id` on. -/
def localIds : Nat → List Bool → List (Option Nat)
  | _, [] => []
  | id, true :: ports => some id :: localIds (id + 1) ports
  | id, false :: ports => none :: localIds id ports

/-- The slave ports of the crossbar, after `setSlavePorts` has accepted them. -/
structure SlavePorts where
  isSnooping : List Bool
  fits : isSnooping.count true ≤ 64

namespace SlavePorts

variable (ports : SlavePorts)

/-- A slave port: its `getId()`. -/
abbrev Port := Fin ports.isSnooping.length

def snooping (p : ports.Port) : Bool := ports.isSnooping.get p

/-- `localSlavePortIds[p]`. -/
def localId (p : ports.Port) : Option Nat := ((localIds 0 ports.isSnooping)[p.val]?).join

def portToMask (p : ports.Port) : SnoopMask :=
  match ports.localId p with
  | none => 0
  | some id => 1#64 <<< id

def maskToPortList (port_mask : SnoopMask) : List ports.Port :=
  (List.finRange _).filter fun p => ports.snooping p && port_mask &&& ports.portToMask p ≠ 0

end SlavePorts

/-! ## The filter -/

/-- An entry of `cachedLocations`. -/
structure SnoopItem where
  requested : SnoopMask := 0
  holder : SnoopMask := 0

/-- A line is at least two bytes, so that bit 0 of its address is free for `LineSecure`. -/
structure SnoopFilterParams where
  lineBits : Nat
  lineBits_pos : 0 < lineBits
  lookupLatency : Nat
  maxEntryCount : Nat
  ports : SlavePorts

structure SnoopFilter where
  cachedLocations : Finmap (fun _ : Nat => SnoopItem) := ∅
  reqLookupResult : Option Nat := none
  retryItem : SnoopItem := {}

/-- How an operation can fail. -/
inductive FilterFault where
  | assertion
  | panic (msg : String)

namespace SnoopFilter

variable (p : SnoopFilterParams)

/-- `getBlockAddr(linesize)`; the line size is a power of two. -/
def blockAddr (addr : Nat) : Nat := addr / 2 ^ p.lineBits * 2 ^ p.lineBits

/-- The key of `cachedLocations`. -/
def lineAddr (addr : Nat) (is_secure : Bool) : Nat :=
  if is_secure then blockAddr p addr ||| 1 else blockAddr p addr

variable {p}

def put (s : SnoopFilter) (line_addr : Nat) (item : SnoopItem) : SnoopFilter :=
  { s with cachedLocations := s.cachedLocations.insert line_addr item }

/-- `eraseIfNullEntry`, for the entry that was just written. -/
def eraseIfNullEntry (s : SnoopFilter) (line_addr : Nat) : SnoopFilter :=
  match s.cachedLocations.lookup line_addr with
  | none => s
  | some sf_item =>
    if sf_item.requested ||| sf_item.holder = 0 then
      { s with cachedLocations := s.cachedLocations.erase line_addr }
    else s

/-- The ports to snoop, with the latency. -/
abbrev Snoops (p : SnoopFilterParams) := List p.ports.Port × Nat

def snoopDown : Snoops p := ([], p.lookupLatency)

def snoopSelected (mask : SnoopMask) : Snoops p := (p.ports.maskToPortList mask, p.lookupLatency)

/-- Whether a request is to be tracked. -/
def allocates (cpkt : CohPacket) (slave_port : p.ports.Port) : Bool :=
  !cpkt.isUncacheable && p.ports.snooping slave_port && cpkt.fromCache

/-- What a tracked request does to its entry. -/
def track (cpkt : CohPacket) (req_port : SnoopMask) (sf_item : SnoopItem) : Except FilterFault SnoopItem :=
  if cpkt.needsResponse then
    if !cpkt.cacheResponding then
      if sf_item.requested &&& req_port ≠ 0 then .error (.panic "double request :( SF value %x.%x\n")
      else .ok { sf_item with requested := sf_item.requested ||| req_port }
    else if sf_item.holder &&& req_port = 0 then .error (.panic "Need to hold the value!")
    else .ok sf_item
  else if !cpkt.isEviction then .error .assertion
  else if sf_item.holder &&& req_port = 0 then
    .error (.panic "requester %x is not a holder :( SF value %x.%x\n")
  else if !cpkt.isBlockCached then .ok { sf_item with holder := sf_item.holder &&& ~~~req_port }
  else .ok sf_item

def lookupRequest (s : SnoopFilter) (cpkt : CohPacket) (slave_port : p.ports.Port) :
    Except FilterFault (SnoopFilter × Snoops p) :=
  let allocate := allocates cpkt slave_port
  let line_addr := lineAddr p cpkt.addr cpkt.isSecure
  let req_port := p.ports.portToMask slave_port
  let found := s.cachedLocations.lookup line_addr
  if found.isNone && !allocate then .ok ({ s with reqLookupResult := none }, snoopDown)
  else
    let sf_item := found.getD {}
    let s := { s.put line_addr sf_item with reqLookupResult := some line_addr, retryItem := sf_item }
    let snoops := snoopSelected ((sf_item.holder ||| sf_item.requested) &&& ~~~req_port)
    if !allocate then .ok (s, snoops)
    else do
      let item ← track cpkt req_port sf_item
      .ok (s.put line_addr item, snoops)

def finishRequest (p : SnoopFilterParams) (s : SnoopFilter) (will_retry : Bool) (addr : Nat)
    (is_secure : Bool) : Except FilterFault SnoopFilter :=
  match s.reqLookupResult with
  | none => .ok s
  | some line_addr =>
    if line_addr ≠ lineAddr p addr is_secure then .error .assertion
    else
      let s := if will_retry then s.put line_addr s.retryItem else s
      .ok (s.eraseIfNullEntry line_addr)

def lookupSnoop (s : SnoopFilter) (cpkt : CohPacket) : Except FilterFault (SnoopFilter × Snoops p) :=
  if !cpkt.isRequest then .error .assertion
  else
    let line_addr := lineAddr p cpkt.addr cpkt.isSecure
    match s.cachedLocations.lookup line_addr with
    | none =>
      if s.cachedLocations.keys.card ≥ p.maxEntryCount then
        .error (.panic "snoop filter exceeded capacity of %d cache blocks\n")
      else .ok (s, snoopDown)
    | some sf_item =>
      if !(cpkt.isWriteback || cpkt.isUncacheable || (cpkt.isInvalidate == cpkt.needsWritable) ||
          cpkt.isCacheMaintenance) then .error .assertion
      else
        let item : SnoopItem :=
          if cpkt.isInvalidate && sf_item.requested = 0 then { sf_item with holder := 0 } else sf_item
        .ok ((s.put line_addr item).eraseIfNullEntry line_addr,
          snoopSelected (sf_item.holder ||| sf_item.requested))

def updateSnoopResponse (s : SnoopFilter) (cpkt : CohPacket) (rsp_port req_port : p.ports.Port) :
    Except FilterFault SnoopFilter :=
  if !cpkt.isResponse || !cpkt.cacheResponding then .error .assertion
  else if cpkt.isUncacheable || !p.ports.snooping req_port then .ok s
  else
    let line_addr := lineAddr p cpkt.addr cpkt.isSecure
    let rsp_mask := p.ports.portToMask rsp_port
    let req_mask := p.ports.portToMask req_port
    let sf_item := (s.cachedLocations.lookup line_addr).getD {}
    if sf_item.holder &&& rsp_mask = 0 then .error (.panic "SF value %x.%x does not have the line\n")
    else if sf_item.requested &&& req_mask = 0 then
      .error (.panic "SF value %x.%x missing the original request\n")
    else if cpkt.isWriteback then .error .assertion
    else
      let holder := if !cpkt.hasSharers then 0 else sf_item.holder
      let item : SnoopItem := ⟨sf_item.requested &&& ~~~req_mask, holder ||| req_mask⟩
      if item.requested ||| item.holder = 0 then .error .assertion else .ok (s.put line_addr item)

def updateSnoopForward (p : SnoopFilterParams) (s : SnoopFilter) (cpkt : CohPacket) :
    Except FilterFault SnoopFilter :=
  if !cpkt.isResponse || !cpkt.cacheResponding then .error .assertion
  else
    let line_addr := lineAddr p cpkt.addr cpkt.isSecure
    match s.cachedLocations.lookup line_addr with
    | none => .ok s
    | some sf_item =>
      let item : SnoopItem := if !cpkt.hasSharers then { sf_item with holder := 0 } else sf_item
      .ok ((s.put line_addr item).eraseIfNullEntry line_addr)

def updateResponse (s : SnoopFilter) (cpkt : CohPacket) (slave_port : p.ports.Port) :
    Except FilterFault SnoopFilter :=
  if !cpkt.isResponse then .error .assertion
  else if cpkt.isUncacheable || !p.ports.snooping slave_port then .ok s
  else
    let line_addr := lineAddr p cpkt.addr cpkt.isSecure
    match s.cachedLocations.lookup line_addr with
    | none => .ok s
    | some sf_item =>
      let slave_mask := p.ports.portToMask slave_port
      if sf_item.requested &&& slave_mask = 0 then .error (.panic "SF value %x.%x missing request bit\n")
      else
        let requested := sf_item.requested &&& ~~~slave_mask
        if cpkt.isCacheMaintenance then
          let holder := if cpkt.isInvalidate then sf_item.holder &&& ~~~slave_mask else sf_item.holder
          .ok ((s.put line_addr ⟨requested, holder⟩).eraseIfNullEntry line_addr)
        else
          let item : SnoopItem := ⟨requested, sf_item.holder ||| slave_mask⟩
          if item.holder ||| item.requested = 0 then .error .assertion else .ok (s.put line_addr item)

end SnoopFilter

end Alpine.Mem
