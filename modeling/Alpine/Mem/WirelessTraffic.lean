import Alpine.Mem.BackoffQueue
import Alpine.Mem.TokenPass

/-!
# Ports, layers and retries of the wireless crossbar

The crossbar with what surrounds its layers: the ports that wait for a peer, the events that release a
layer, and the port protocol.  A port that is refused on a channel is silent there until it gets a retry:
from a collision check, a token change, or the port below.

* A slave port sends requests and snoop responses, each on a channel of its own; the snoop response port
  that mirrors it shares the second one.
* `recvRetry` takes the waiting ports one by one, and the port may answer before the next is taken, so that
  a step takes one of them.
* `Seated` — who waits for which layer, as one list.
* `Owed` — a blocked channel is owed one retry, and no other channel is owed any.
-/

namespace Alpine.Mem

open Alpine.Run XBar

/-! ## Channels -/

inductive Channel where
  | req (slave_port_id : Nat)
  | resp (master_port_id : Nat)
  | snoopResp (slave_port_id : Nat)
  deriving DecidableEq

def Entry.channel : Entry → Channel
  | .req i => .req i
  | .resp i => .resp i
  | .snoop i => .snoopResp i
  | .snoopResp i => .snoopResp i

/-- The channel that `sendRetry` of a layer opens again: `sendRetryReq`, `sendRetryResp` or
`sendRetrySnoopResp`; the snoop response port passes `sendRetryResp` on as the last of them. -/
def retryChannel : LayerType → Port → Channel
  | .REQ, .slave i => .req i
  | .REQ, .master i => .req i
  | .REQ, .snoopResp i => .req i
  | .RESP, .master i => .resp i
  | .RESP, .slave i => .resp i
  | .RESP, .snoopResp i => .snoopResp i
  | .SNOOP, .slave i => .snoopResp i
  | .SNOOP, .master i => .snoopResp i
  | .SNOOP, .snoopResp i => .snoopResp i

theorem retryChannel_entry (e : Entry) : retryChannel e.layerType e.srcPort = e.channel := by
  cases e <;> rfl

/-- Only requests are sent on to a port that can refuse them. -/
def Entry.sendsOn : Entry → Bool
  | .req _ => true
  | _ => false

/-! ## The system -/

/-- A packet that a layer has accepted, and the attempt it has taken for it. -/
structure Grant where
  entry : Entry
  dest : PortID
  attempt : ExpBackoffPkt

/-- The `waitingForPeer` deques of the request layers are one list, the release events of all layers
another; `blocked` channels have been refused and have had no retry; `grants` is history. -/
structure Traffic where
  xbar : XBar := {}
  waitingForPeer : List (PortID × Port) := []
  releaseEvents : List ((LayerType × PortID) × Nat) := []
  blocked : Channel → Bool := fun _ => false
  grants : List Grant := []

namespace Traffic

def setBlocked (r : Traffic) (c : Channel) (b : Bool) : Traffic :=
  { r with blocked := Function.update r.blocked c b }

/-- `occupyLayer`. -/
def occupyLayer (r : Traffic) (type : LayerType) (dest : PortID) (until_ : Nat) : Traffic :=
  { r with
    releaseEvents := ((type, dest), until_) :: r.releaseEvents.filter fun e => e.1 ≠ (type, dest) }

/-- `failedTiming`, apart from `occupyLayer`. -/
def awaitPeer (r : Traffic) (dest : PortID) (srcPort : Port) : Traffic :=
  { r with waitingForPeer := r.waitingForPeer ++ [(dest, srcPort)] }

/-- The attempt that an accepted call takes. -/
def taken (p : Params) (s : XBar) (srcPort : Port) : Option ExpBackoffPkt :=
  match p.macProto with
  | .exp_backoff => s.pktReadyEBList.find? fun i => i.srcPort = srcPort
  | .token_pass => none

/-- A packet comes in at `e` and tries its layer; where the layer accepts it, it is sent on, and the port
below may refuse a request.  The layer is then busy for a while. -/
def recv (p : Params) (r : Traffic) (e : Entry) (dest : PortID) (pkt : Packet) (rnd_slots_delay : UInt16)
    (portAccepts : Bool) (busy : Nat) : Traffic :=
  let q := r.xbar.tryTiming p (e.call p dest pkt) rnd_slots_delay
  if q.2 then
    let r := ({ r with
      xbar := q.1
      grants := r.grants ++ (taken p r.xbar e.srcPort).toList.map (Grant.mk e dest) }).occupyLayer
        e.layerType dest (r.xbar.curTick + busy)
    if e.sendsOn && !portAccepts then (r.awaitPeer dest e.srcPort).setBlocked e.channel true else r
  else ({ r with xbar := q.1 }).setBlocked e.channel true

/-- A collision check; the retry of an attempt that met no other opens its channel. -/
def collisionCheck (p : Params) (r : Traffic) (rnd_slots_delay : UInt16) : Option Traffic :=
  match r.xbar.pktToTransmitEBList,
      expBackoffCollisionCheck p { r.xbar with collisionCheckEvent := none } rnd_slots_delay with
  | curPkt :: _, some s =>
    if s.control = .checking then
      some (({ r with xbar := s }).setBlocked (retryChannel curPkt.layerType curPkt.srcPort) false)
    else some { r with xbar := s }
  | _, _ => none

/-- The entry that `tokenChange` sends a retry to. -/
def selected (p : Params) (s : XBar) : Option TokenPassPkt :=
  s.pktToTransmitTPList.find? fun i =>
    i.srcId.toInt = ((UInt16.ofNat ((s.tokenID.toNat + 1) % (numTokens p).toNat)).toNat : Int)

def tokenChange (p : Params) (r : Traffic) : Option Traffic :=
  (({ r.xbar with tokenChangeEvent := none } : XBar).tokenChange p).map fun s =>
    match selected p r.xbar with
    | some i => ({ r with xbar := s }).setBlocked (retryChannel i.layerType i.srcPort) false
    | none => { r with xbar := s }

/-- One round of the loop of `recvRetry`. -/
def recvRetry (r : Traffic) (dest : PortID) : Option Traffic :=
  (r.waitingForPeer.find? fun w => w.1 = dest).map fun w =>
    ({ r with waitingForPeer := r.waitingForPeer.eraseP fun w => w.1 = dest }).setBlocked
      (retryChannel .REQ w.2) false

/-- The state of a layer that is released. -/
def released (p : Params) (l : Layer) : BusState :=
  match p.macProto with
  | .exp_backoff => if l.waitingForLayer.isEmpty then .IDLE else l.state
  | .token_pass => .IDLE

/-- `releaseLayer`. -/
def releaseLayer (p : Params) (r : Traffic) (type : LayerType) (dest : PortID) : Option Traffic :=
  let l := r.xbar.layers type dest
  if l.state = .BUSY then
    some { r with
      xbar := r.xbar.setLayer type dest { l with state := released p l }
      releaseEvents := r.releaseEvents.filter fun e => e.1 ≠ (type, dest) }
  else none

end Traffic

inductive DrainState where
  | Draining
  | Drained

/-- `WirelessLayer::drain`. -/
def Layer.drain (l : Layer) : DrainState := if l.state ≠ .IDLE then .Draining else .Drained

inductive TrafficInput where
  | recv (e : Entry) (dest : PortID) (pkt : Packet) (rnd_slots_delay : UInt16) (portAccepts : Bool)
    (busy : Nat)
  | collisionCheck (rnd_slots_delay : UInt16)
  | collisionCheckReturn
  | tokenChange
  | recvRetry (dest : PortID)
  | releaseLayer (type : LayerType) (dest : PortID)
  | advance (t : Nat)

/-- A handler runs at the tick its event is scheduled at. -/
def trafficStep (p : Params) (r : Traffic) : TrafficInput → Option Traffic
  | .recv e dest pkt rnd ok busy =>
    if r.xbar.control = .panicked ∨ ¬ e.Valid p then none else some (r.recv p e dest pkt rnd ok busy)
  | .collisionCheck rnd =>
    if r.xbar.control = .running ∧ r.xbar.collisionCheckEvent = some r.xbar.curTick then
      r.collisionCheck p rnd
    else none
  | .collisionCheckReturn =>
    if r.xbar.control = .checking then some { r with xbar := r.xbar.collisionCheckReturn } else none
  | .tokenChange =>
    if r.xbar.control = .running ∧ r.xbar.tokenChangeEvent = some r.xbar.curTick then r.tokenChange p
    else none
  | .recvRetry dest => if r.xbar.control = .panicked then none else r.recvRetry dest
  | .releaseLayer type dest =>
    if r.xbar.control = .running ∧ ((type, dest), r.xbar.curTick) ∈ r.releaseEvents then
      r.releaseLayer p type dest
    else none
  | .advance t =>
    if r.xbar.CanAdvance t ∧ ∀ e ∈ r.releaseEvents, t ≤ e.2 then
      some { r with xbar := { r.xbar with curTick := t } }
    else none

/-- The port protocol: silent on a blocked channel. -/
def Traffic.Obeys (r : Traffic) : TrafficInput → Prop
  | .recv e _ _ _ _ _ => r.blocked e.channel = false
  | _ => True

/-! ## Who waits for which layer -/

structure Seat where
  layerType : LayerType
  destPort : PortID
  port : Port
  deriving DecidableEq

def Seat.channel (w : Seat) : Channel := retryChannel w.layerType w.port

def seatsOf (g : List Seat) (type : LayerType) (dest : PortID) : List Port :=
  (g.filter fun w => w.layerType = type ∧ w.destPort = dest).map Seat.port

variable {g : List Seat} {type : LayerType} {dest : PortID}

theorem mem_seatsOf {port : Port} : port ∈ seatsOf g type dest ↔ (⟨type, dest, port⟩ : Seat) ∈ g := by
  unfold seatsOf
  constructor
  · intro h
    obtain ⟨w, hw, rfl⟩ := List.mem_map.1 h
    obtain ⟨hmem, hlayer⟩ := List.mem_filter.1 hw
    obtain ⟨rfl, rfl⟩ : w.layerType = type ∧ w.destPort = dest := by simpa using hlayer
    exact hmem
  · intro h
    refine List.mem_map.2 ⟨⟨type, dest, port⟩, List.mem_filter.2 ⟨h, ?_⟩, rfl⟩
    simp

theorem seatsOf_append (g : List Seat) (w : Seat) (type : LayerType) (dest : PortID) : seatsOf (g ++ [w]) type dest =
      if w.layerType = type ∧ w.destPort = dest then seatsOf g type dest ++ [w.port] else seatsOf g type dest := by
  unfold seatsOf
  rw [List.filter_append, List.map_append]
  split
  · rename_i h
    rw [List.filter_cons_of_pos (by simpa using h)]
    rfl
  · rename_i h
    rw [List.filter_cons_of_neg (by simpa using h)]
    exact List.append_nil _

theorem seatsOf_cons (g : List Seat) (w : Seat) (type : LayerType) (dest : PortID) : seatsOf (w :: g) type dest =
      if w.layerType = type ∧ w.destPort = dest then w.port :: seatsOf g type dest else seatsOf g type dest := by
  unfold seatsOf
  split
  · rename_i h
    rw [List.filter_cons_of_pos (by simpa using h)]
    rfl
  · rename_i h
    rw [List.filter_cons_of_neg (by simpa using h)]

theorem seatsOf_erase (w : Seat) (type : LayerType) (dest : PortID) : ∀ g : List Seat, seatsOf (g.erase w) type dest =
      if w.layerType = type ∧ w.destPort = dest then (seatsOf g type dest).erase w.port else seatsOf g type dest
  | [] => by
    split
    · rfl
    · rfl
  | v :: g => by
    have ih := seatsOf_erase w type dest g
    by_cases hvw : v = w
    · subst hvw
      rw [List.erase_cons_head, seatsOf_cons]
      split
      · rw [List.erase_cons_head]
      · rfl
    · rw [List.erase_cons_tail (by simpa using hvw), seatsOf_cons, seatsOf_cons, ih]
      by_cases hv : v.layerType = type ∧ v.destPort = dest
      · rw [if_pos hv, if_pos hv]
        split
        · -- same layer, so another port
          rename_i hw
          have hport : v.port ≠ w.port := by
            intro hport
            refine hvw ?_
            obtain ⟨vt, vd, vp⟩ := v
            obtain ⟨wt, wd, wp⟩ := w
            obtain ⟨rfl, rfl⟩ := hv
            obtain ⟨rfl, rfl⟩ := hw
            cases hport
            rfl
          rw [List.erase_cons_tail (by simpa using hport)]
        · rfl
      · rw [if_neg hv, if_neg hv]

/-- The waiting lists of all layers, as one list in the order in which the ports came. -/
def Seated (s : XBar) (g : List Seat) : Prop :=
  ∀ type dest, (s.layers type dest).waitingForLayer = seatsOf g type dest

theorem seated_init : Seated {} [] := fun _ _ => rfl

theorem Seated.mem {s : XBar} (h : Seated s g) {port : Port} :
    port ∈ (s.layers type dest).waitingForLayer ↔ (⟨type, dest, port⟩ : Seat) ∈ g := by
  rw [h type dest]
  exact mem_seatsOf

theorem Seated.congr {s s' : XBar} (h : Seated s g) (hs : s'.layers = s.layers) : Seated s' g := by
  intro type dest
  rw [hs]
  exact h type dest

theorem Seated.setLayer {s : XBar} (h : Seated s g) {g' : List Seat} {l : Layer}
    (hlayer : seatsOf g' type dest = l.waitingForLayer)
    (hother : ∀ type' dest', ¬ (type = type' ∧ dest = dest') → seatsOf g' type' dest' = seatsOf g type' dest') :
    Seated (s.setLayer type dest l) g' := by
  intro type' dest'
  show (if type' = type ∧ dest' = dest then l else s.layers type' dest').waitingForLayer = _
  by_cases heq : type' = type ∧ dest' = dest
  · obtain ⟨rfl, rfl⟩ := heq
    rw [if_pos ⟨rfl, rfl⟩, hlayer]
  · rw [if_neg heq, hother type' dest' fun hc => heq ⟨hc.1.symm, hc.2.symm⟩, h]

theorem Seated.append {s : XBar} (h : Seated s g) (type : LayerType) (dest : PortID) (port : Port)
    (state : BusState) : Seated (s.setLayer type dest ⟨state, (s.layers type dest).waitingForLayer ++ [port]⟩)
      (g ++ [⟨type, dest, port⟩]) := by
  refine h.setLayer ?_ fun type' dest' hne => ?_
  · rw [seatsOf_append, if_pos ⟨rfl, rfl⟩, h]
  · rw [seatsOf_append, if_neg hne]

theorem Seated.erase {s : XBar} (h : Seated s g) (type : LayerType) (dest : PortID) (port : Port) (state : BusState) :
    Seated (s.setLayer type dest ⟨state, (s.layers type dest).waitingForLayer.erase port⟩)
      (g.erase ⟨type, dest, port⟩) := by
  refine h.setLayer ?_ fun type' dest' hne => ?_
  · rw [seatsOf_erase, if_pos ⟨rfl, rfl⟩, h]
  · rw [seatsOf_erase, if_neg hne]

theorem Seated.setState {s : XBar} (h : Seated s g) (type : LayerType) (dest : PortID) (state : BusState) :
    Seated (s.setLayer type dest { s.layers type dest with state := state }) g :=
  h.setLayer (h type dest).symm fun _ _ _ => rfl

/-! ## Who is owed a retry -/

/-- The retries that the ports of `g` and those of `peers` wait for. -/
def retriesOn (g : List Seat) (peers : List (PortID × Port)) (c : Channel) : Nat :=
  (g.countP fun w => w.channel = c) + peers.countP fun w => retryChannel .REQ w.2 = c

/-- A blocked channel is owed one retry, and no other channel is owed any. -/
def Owed (g : List Seat) (peers : List (PortID × Port)) (blocked : Channel → Bool) : Prop :=
  ∀ c, retriesOn g peers c = (blocked c).toNat

section Owed

variable {g g' : List Seat} {peers peers' : List (PortID × Port)} {blocked : Channel → Bool} {w : Seat}
  {q : PortID × Port}

theorem owed_init : Owed [] [] (fun _ => false) := fun _ => rfl

/-- A free channel has no port of it waiting. -/
theorem Owed.free (h : Owed g peers blocked) (hfree : blocked w.channel = false) : w ∉ g := by
  intro hw
  have hpos : 0 < g.countP fun v => v.channel = w.channel :=
    List.countP_pos_iff.2 ⟨w, hw, decide_eq_true rfl⟩
  have := h w.channel
  rw [hfree, retriesOn, Bool.toNat_false] at this
  omega

theorem retriesOn_cons (hg : g'.Perm (w :: g)) (c : Channel) :
    retriesOn g' peers c = retriesOn g peers c + if w.channel = c then 1 else 0 := by
  unfold retriesOn
  rw [hg.countP_eq, List.countP_cons]
  simp only [decide_eq_true_eq]
  omega

theorem retriesOn_consPeer (hpeers : peers'.Perm (q :: peers)) (c : Channel) :
    retriesOn g peers' c = retriesOn g peers c + if retryChannel .REQ q.2 = c then 1 else 0 := by
  unfold retriesOn
  rw [hpeers.countP_eq, List.countP_cons]
  simp only [decide_eq_true_eq]
  omega

/-- One retry more for a free channel. -/
theorem Owed.more (h : Owed g peers blocked) {d : Channel} (hfree : blocked d = false)
    (hmore : ∀ c, retriesOn g' peers' c = retriesOn g peers c + if d = c then 1 else 0) :
    Owed g' peers' (Function.update blocked d true) := by
  intro c
  rw [hmore, h c]
  by_cases hd : d = c
  · subst hd
    rw [hfree, if_pos rfl, Function.update_self]
    rfl
  · rw [if_neg hd, Function.update_of_ne (Ne.symm hd), Nat.add_zero]

/-- One retry less for a channel. -/
theorem Owed.less (h : Owed g peers blocked) {d : Channel}
    (hless : ∀ c, retriesOn g peers c = retriesOn g' peers' c + if d = c then 1 else 0) :
    Owed g' peers' (Function.update blocked d false) := by
  intro c
  have hc := h c
  rw [hless] at hc
  by_cases hd : d = c
  · subst hd
    have hle := Bool.toNat_le (blocked d)
    rw [if_pos rfl] at hc
    rw [Function.update_self, Bool.toNat_false]
    omega
  · rw [if_neg hd, Nat.add_zero] at hc
    rw [Function.update_of_ne (Ne.symm hd), hc]

theorem Owed.add (h : Owed g peers blocked) (hfree : blocked w.channel = false)
    (hg : g'.Perm (w :: g)) : Owed g' peers (Function.update blocked w.channel true) :=
  h.more hfree (retriesOn_cons hg)

theorem Owed.remove (h : Owed g peers blocked) (hg : g.Perm (w :: g')) :
    Owed g' peers (Function.update blocked w.channel false) :=
  h.less (retriesOn_cons hg)

theorem Owed.reorder (h : Owed g peers blocked) (hg : g'.Perm g) : Owed g' peers blocked := by
  intro c
  unfold retriesOn
  rw [hg.countP_eq]
  exact h c

theorem Owed.addPeer (h : Owed g peers blocked) (hfree : blocked (retryChannel .REQ q.2) = false)
    (hpeers : peers'.Perm (q :: peers)) : Owed g peers' (Function.update blocked (retryChannel .REQ q.2) true) :=
  h.more hfree (retriesOn_consPeer hpeers)

theorem Owed.removePeer (h : Owed g peers blocked) (hpeers : peers.Perm (q :: peers')) :
    Owed g peers' (Function.update blocked (retryChannel .REQ q.2) false) :=
  h.less (retriesOn_consPeer hpeers)

end Owed

/-! ## What a step leaves alone -/

theorem setLayer_twice {s t : XBar} {l : Layer} (h : t.layers = (s.setLayer type dest l).layers) (l' : Layer) :
    (t.setLayer type dest l').layers = (s.setLayer type dest l').layers := by
  funext type' dest'
  show (if type' = type ∧ dest' = dest then l' else t.layers type' dest') =
    if type' = type ∧ dest' = dest then l' else s.layers type' dest'
  split
  · rfl
  · rename_i hother
    rw [h]
    exact if_neg hother

theorem startTokens_layers {p : Params} (s : XBar) : (s.startTokens p).layers = s.layers := by
  unfold startTokens
  split
  · rfl
  · obtain ⟨tick, htick⟩ := update_eq (p := p) s
    rw [htick]

theorem recvRetry_cases {r r' : Traffic} (h : r.recvRetry dest = some r') :
    ∃ q, r.waitingForPeer.Perm (q :: r'.waitingForPeer) ∧ r'.xbar = r.xbar ∧ r'.grants = r.grants ∧
      r'.blocked = Function.update r.blocked (retryChannel .REQ q.2) false := by
  unfold Traffic.recvRetry at h
  obtain ⟨q, hq, rfl⟩ := Option.map_eq_some_iff.1 h
  exact ⟨q, find?_cons_eraseP_perm _ hq, rfl, rfl, rfl⟩

theorem releaseLayer_cases {p : Params} {r r' : Traffic} (h : r.releaseLayer p type dest = some r') :
    ∃ state, r'.xbar = r.xbar.setLayer type dest { r.xbar.layers type dest with state := state } ∧
      r'.waitingForPeer = r.waitingForPeer ∧ r'.grants = r.grants ∧ r'.blocked = r.blocked := by
  unfold Traffic.releaseLayer at h
  dsimp only at h
  split at h
  · cases h
    exact ⟨_, rfl, rfl, rfl, rfl⟩
  · cases h

end Alpine.Mem
