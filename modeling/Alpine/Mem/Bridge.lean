import Alpine.Lib.Run
import Alpine.Lib.SendQueue
import Mathlib.Algebra.Order.Group.Nat
import Mathlib.Data.List.Nodup
import Mathlib.Data.List.Perm.Subperm

/-!
# The bridge (`mem/bridge.cc`, `mem/bridge.hh`)

`Bridge` with the timing calls that its two ports get.  A send to a peer returns in a step of its own, so that calls from
inside of it come between; nothing follows `sendRetryReq`, so a call from inside of it is the next step.

* `step` — one call, the return of a send, a firing of an event, or the passing of time; `none` where an assertion or
  a panic is met.
* `Permitted` — a peer sends a new packet, a response to a request that it was sent, once, and a retry after a refusal.
* `Inv` — the invariant at every call and return: each port is `Sound`, and the counter is that of the requests
  without a response.
* `Correct`, `bridge_correct` — in every run no call fails, nothing is lost, and a stalled master is not forgotten.
-/

namespace Alpine.Mem.Bridge

open Alpine.SendQueue Alpine.Run

/-- What the bridge reads of a packet, and which packet it is; a response is for the request with its number. -/
structure Packet where
  id : Nat
  needsResponse : Bool
  cacheResponding : Bool
  headerDelay : Nat
  payloadDelay : Nat

structure Params where
  delay : Nat
  reqQueueLimit : Nat
  respQueueLimit : Nat
  reqQueueLimit_pos : 1 ≤ reqQueueLimit
  respQueueLimit_pos : 1 ≤ respQueueLimit

/-- The clock of the bridge, at a tick and so many cycles later: an edge is never in the past. -/
structure Clock where
  clockEdge : Nat → Nat → Nat
  le_clockEdge : ∀ t cycles, t ≤ clockEdge t cycles

/-- The clock of a period. -/
def Clock.ofPeriod (clockPeriod : Nat) (hpos : 0 < clockPeriod) : Clock where
  clockEdge t cycles := (t + clockPeriod - 1) / clockPeriod * clockPeriod + clockPeriod * cycles
  le_clockEdge t cycles := by
    have hmod := Nat.mod_lt (t + clockPeriod - 1) hpos
    have hdiv := Nat.div_add_mod (t + clockPeriod - 1) clockPeriod
    rw [Nat.mul_comm] at hdiv
    omega

/-- The lists of the two ports, the fields of the slave port, and the time. -/
structure World where
  masterPort : SendQueue Packet
  slavePort : SendQueue Packet
  outstandingResponses : Nat
  retryReq : Bool
  curTick : Nat
  /-- The master has been refused, and no retry was sent to it since. -/
  stalled : Bool

variable (clock : Clock) (p : Params)

def start : World := ⟨.empty, .empty, 0, false, 0, false⟩

namespace World

def respQueueFull (w : World) : Bool := w.outstandingResponses == p.respQueueLimit

def reqQueueFull (w : World) : Bool := w.masterPort.transmitList.length == p.reqQueueLimit

/-- The packet without its delays, with the tick that it may be sent from. -/
def defer (w : World) (pkt : Packet) : Deferred Packet :=
  ⟨clock.clockEdge w.curTick p.delay + (pkt.headerDelay + pkt.payloadDelay),
    { pkt with headerDelay := 0, payloadDelay := 0 }⟩

def schedTimingReq (w : World) (d : Deferred Packet) : Option World :=
  if w.masterPort.transmitList.length ≠ p.reqQueueLimit then
    (w.masterPort.push w.curTick d).map fun q => { w with masterPort := q }
  else none

def schedTimingResp (w : World) (d : Deferred Packet) : Option World :=
  (w.slavePort.push w.curTick d).map fun q => { w with slavePort := q }

def recvTimingResp (w : World) (pkt : Packet) : Option World := w.schedTimingResp (w.defer clock p pkt)

/-- The request is refused; a retry is due. -/
def stall (w : World) : World := { w with retryReq := true, stalled := true }

/-- The bridge and the result. -/
def recvTimingReq (w : World) (pkt : Packet) : Option (World × Bool) :=
  if pkt.cacheResponding then none
  else if w.retryReq then some ({ w with stalled := true }, false)
  else if w.reqQueueFull p then some (w.stall, false)
  else if pkt.needsResponse then
    if w.respQueueFull p then some (w.stall, false)
    else
      ({ w with outstandingResponses := w.outstandingResponses + 1 }.schedTimingReq p (w.defer clock p pkt)).map
        fun w => (w, true)
  else (w.schedTimingReq p (w.defer clock p pkt)).map fun w => (w, true)

def sendRetryReq (w : World) : World := { w with retryReq := false, stalled := false }

def retryStalledReq (w : World) : World := if w.retryReq then w.sendRetryReq else w

/-- `trySendTiming` of the master port after the send. -/
def sendTimingReqReturns (w : World) (success : Bool) : Option World :=
  if success then
    (w.masterPort.sent w.curTick (clock.clockEdge w.curTick 0)).map fun q => { w with masterPort := q }.retryStalledReq
  else some { w with masterPort := w.masterPort.refuse }

/-- `trySendTiming` of the slave port after the send. -/
def sendTimingRespReturns (w : World) (success : Bool) : Option World :=
  if success then
    if w.outstandingResponses ≠ 0 then
      (w.slavePort.sent w.curTick (clock.clockEdge w.curTick 0)).map fun q =>
        let w := { w with slavePort := q, outstandingResponses := w.outstandingResponses - 1 }
        if !w.reqQueueFull p && w.retryReq then w.sendRetryReq else w
    else none
  else some { w with slavePort := w.slavePort.refuse }

end World

inductive Call where
  | recvTimingReq (pkt : Packet)
  | recvTimingResp (pkt : Packet)
  | sendReqEvent
  | recvReqRetry
  | sendTimingReqReturns (success : Bool)
  | sendRespEvent
  | recvRespRetry
  | sendTimingRespReturns (success : Bool)
  | advance (t : Nat)

def step (w : World) : Call → Option World
  | .recvTimingReq pkt => (w.recvTimingReq clock p pkt).map Prod.fst
  | .recvTimingResp pkt => w.recvTimingResp clock p pkt
  | .sendReqEvent => (w.masterPort.fire w.curTick).map fun q => { w with masterPort := q }
  | .recvReqRetry => (w.masterPort.retry w.curTick).map fun q => { w with masterPort := q }
  | .sendTimingReqReturns success => w.sendTimingReqReturns clock success
  | .sendRespEvent => (w.slavePort.fire w.curTick).map fun q => { w with slavePort := q }
  | .recvRespRetry => (w.slavePort.retry w.curTick).map fun q => { w with slavePort := q }
  | .sendTimingRespReturns success => w.sendTimingRespReturns clock p success
  | .advance t => some { w with curTick := t }

/-! ## Runs -/

namespace World

/-- The requests that the peer has been offered. -/
def offered (w : World) : List (Deferred Packet) :=
  w.masterPort.left.map Prod.fst ++ if w.masterPort.sending then w.masterPort.transmitList.take 1 else []

/-- The requests that were accepted. -/
def accepted (w : World) : List Packet := w.masterPort.came.map Deferred.item

/-- The responses that have been delivered. -/
def delivered (w : World) : List Packet := w.slavePort.left.map fun x => x.1.item

/-- The accepted requests whose response has not been delivered. -/
def undelivered (w : World) : List Packet :=
  w.accepted.filter fun pkt => pkt.needsResponse && !(w.delivered.map Packet.id).contains pkt.id

end World

def Permitted (w : World) : Call → Prop
  | .recvTimingReq pkt => pkt.cacheResponding = false ∧ ∀ a ∈ w.accepted, a.id ≠ pkt.id
  | .recvTimingResp pkt => (∃ d ∈ w.offered, d.item.needsResponse = true ∧ d.item.id = pkt.id) ∧
    ∀ d ∈ w.slavePort.came, d.item.id ≠ pkt.id
  | .sendReqEvent => w.curTick ∈ w.masterPort.sendEvent
  | .recvReqRetry => w.masterPort.refused = true
  | .sendTimingReqReturns _ => w.masterPort.sending = true
  | .sendRespEvent => w.curTick ∈ w.slavePort.sendEvent
  | .recvRespRetry => w.slavePort.refused = true
  | .sendTimingRespReturns _ => w.slavePort.sending = true
  | .advance t => w.curTick ≤ t ∧ (∀ e ∈ w.masterPort.sendEvent, t ≤ e) ∧ ∀ e ∈ w.slavePort.sendEvent, t ≤ e

/-! ## The invariant -/

structure Inv (w : World) : Prop where
  requests : w.masterPort.Sound w.curTick
  responses : w.slavePort.Sound w.curTick
  accepted_nodup : (w.accepted.map Packet.id).Nodup
  came_nodup : (w.slavePort.came.map fun d => d.item.id).Nodup
  /-- A response is for an accepted request. -/
  answers : ∀ d ∈ w.slavePort.came, ∃ pkt ∈ w.accepted, pkt.needsResponse = true ∧ pkt.id = d.item.id
  outstanding : w.outstandingResponses + w.slavePort.left.length = w.accepted.countP Packet.needsResponse
  reqs_le : w.masterPort.transmitList.length ≤ p.reqQueueLimit
  outstanding_le : w.outstandingResponses ≤ p.respQueueLimit
  owed : w.retryReq = true → w.masterPort.transmitList ≠ [] ∨ 0 < w.outstandingResponses
  stalled : w.stalled = w.retryReq

variable {p} {w w' : World}

theorem inv_start : Inv p start where
  requests := sound_empty
  responses := sound_empty
  accepted_nodup := List.nodup_nil
  came_nodup := List.nodup_nil
  answers _ hd := absurd hd List.not_mem_nil
  outstanding := rfl
  reqs_le := Nat.zero_le _
  outstanding_le := Nat.zero_le _
  owed hretry := absurd hretry Bool.false_ne_true
  stalled := rfl

/-- No more responses come in than requests were accepted for one. -/
theorem Inv.came_le (h : Inv p w) : w.slavePort.came.length ≤ w.accepted.countP Packet.needsResponse := by
  have hsub : w.slavePort.came.map (fun d => d.item.id) ⊆ (w.accepted.filter Packet.needsResponse).map Packet.id := by
    intro i hi
    obtain ⟨d, hd, rfl⟩ := List.mem_map.1 hi
    obtain ⟨pkt, hpkt, hneeds, hid⟩ := h.answers d hd
    exact List.mem_map.2 ⟨pkt, List.mem_filter.2 ⟨hpkt, hneeds⟩, hid⟩
  have hle := (h.came_nodup.subperm hsub).length_le
  rwa [List.length_map, List.length_map, ← List.countP_eq_length_filter] at hle

/-- A response that is held has space reserved. -/
theorem Inv.outstanding_pos (h : Inv p w) (hne : w.slavePort.transmitList ≠ []) : w.outstandingResponses ≠ 0 := by
  have hle := h.came_le
  have hout := h.outstanding
  have hpos := List.length_pos_iff.2 hne
  have hfifo := congrArg List.length h.responses.fifo
  rw [List.length_append, List.length_map] at hfifo
  omega

/-- The requests with a delivered response are as many as those responses. -/
theorem length_filter_not_mem {ids done : List Nat} (hids : ids.Nodup) (hdone : done.Nodup) (hsub : done ⊆ ids) :
    (ids.filter fun i => !done.contains i).length + done.length = ids.length := by
  have hperm : (ids.filter fun i => done.contains i).Perm done := by
    refine (List.perm_ext_iff_of_nodup (hids.filter _) hdone).2 fun i => ?_
    rw [List.mem_filter, List.contains_iff_mem]
    exact ⟨fun hi => hi.2, fun hi => ⟨hsub hi, hi⟩⟩
  rw [← hperm.length_eq, Nat.add_comm]
  exact (List.length_eq_length_filter_add _).symm

theorem Inv.undelivered_length (h : Inv p w) : w.outstandingResponses = w.undelivered.length := by
  have hleft : w.slavePort.left.map Prod.fst ⊆ w.slavePort.came := by
    rw [h.responses.fifo]
    exact List.subset_append_left _ _
  have hdone : (w.delivered.map Packet.id).Nodup := by
    have hnodup := h.came_nodup
    rw [h.responses.fifo, List.map_append, List.nodup_append, List.map_map] at hnodup
    rw [World.delivered, List.map_map]
    exact hnodup.1
  have hsub : w.delivered.map Packet.id ⊆ (w.accepted.filter Packet.needsResponse).map Packet.id := by
    intro i hi
    obtain ⟨a, ha, rfl⟩ := List.mem_map.1 hi
    obtain ⟨x, hx, rfl⟩ := List.mem_map.1 ha
    obtain ⟨pkt, hpkt, hneeds, hid⟩ := h.answers x.1 (hleft (List.mem_map_of_mem hx))
    exact List.mem_map.2 ⟨pkt, List.mem_filter.2 ⟨hpkt, hneeds⟩, hid⟩
  have hids : ((w.accepted.filter Packet.needsResponse).map Packet.id).Nodup :=
    h.accepted_nodup.sublist (List.filter_sublist.map _)
  have hcount := length_filter_not_mem hids hdone hsub
  have hundelivered : w.undelivered.length =
      (((w.accepted.filter Packet.needsResponse).map Packet.id).filter
        fun i => !(w.delivered.map Packet.id).contains i).length := by
    rw [List.filter_map, List.length_map, List.filter_filter, World.undelivered]
    refine congrArg List.length (List.filter_congr fun pkt _ => ?_)
    exact Bool.and_comm _ _
  have hout := h.outstanding
  rw [List.countP_eq_length_filter] at hout
  rw [List.length_map, List.length_map, World.delivered, List.length_map] at hcount
  rw [← World.delivered] at hcount
  omega

/-! ## The calls -/

theorem le_defer (clock : Clock) (p : Params) (w : World) (pkt : Packet) : w.curTick ≤ (w.defer clock p pkt).tick :=
  (clock.le_clockEdge _ _).trans (Nat.le_add_right _ _)

theorem Inv.accept (h : Inv p w) (clock : Clock) {pkt : Packet} (hfresh : ∀ a ∈ w.accepted, a.id ≠ pkt.id)
    (hfull : w.masterPort.transmitList.length ≠ p.reqQueueLimit) (hretry : w.retryReq = false) {n : Nat}
    (hn : n = w.outstandingResponses + pkt.needsResponse.toNat) (hle : n ≤ p.respQueueLimit) :
    ∃ w', { w with outstandingResponses := n }.schedTimingReq p (w.defer clock p pkt) = some w' ∧ Inv p w' := by
  obtain ⟨q, hq, hsound, hlist, hcame, -, -⟩ := h.requests.push (le_defer clock p w pkt)
  have haccepted : ∀ w1 : World, w1.masterPort = q →
      w1.accepted = w.accepted ++ [{ pkt with headerDelay := 0, payloadDelay := 0 }] := by
    intro w1 hw1
    rw [World.accepted, hw1, hcame, List.map_append]
    rfl
  refine ⟨{ w with outstandingResponses := n, masterPort := q }, ?_, ?_⟩
  · rw [World.schedTimingReq, if_pos hfull, hq]
    rfl
  constructor
  case requests => exact hsound
  case responses => exact h.responses
  case accepted_nodup =>
    rw [haccepted _ rfl, List.map_append, List.nodup_append]
    refine ⟨h.accepted_nodup, List.nodup_singleton _, fun i hi j hj => ?_⟩
    obtain ⟨a, ha, rfl⟩ := List.mem_map.1 hi
    rw [List.map_cons, List.map_nil, List.mem_singleton] at hj
    exact hj ▸ hfresh a ha
  case came_nodup => exact h.came_nodup
  case answers =>
    intro d hd
    obtain ⟨a, ha, hneeds, hid⟩ := h.answers d hd
    refine ⟨a, ?_, hneeds, hid⟩
    rw [haccepted _ rfl]
    exact List.mem_append_left _ ha
  case outstanding =>
    have hout := h.outstanding
    rw [haccepted _ rfl, List.countP_append, List.countP_singleton, hn]
    cases hneeds : pkt.needsResponse <;> simp only [Bool.toNat_true, Bool.toNat_false, if_true, Bool.false_eq_true,
      if_false] <;> omega
  case reqs_le =>
    have hle := h.reqs_le
    show q.transmitList.length ≤ _
    rw [hlist, List.length_append, List.length_singleton]
    omega
  case outstanding_le => exact hle
  case owed => exact fun hr => absurd (hretry.symm.trans hr) Bool.false_ne_true
  case stalled => exact h.stalled

theorem Inv.stall (h : Inv p w) (hfull : w.reqQueueFull p = true ∨ w.respQueueFull p = true) : Inv p w.stall := by
  refine { h with owed := fun _ => ?_, stalled := rfl }
  rcases hfull with hfull | hfull
  · refine .inl (List.ne_nil_of_length_pos ?_)
    have hlen : w.masterPort.transmitList.length = p.reqQueueLimit := eq_of_beq hfull
    show 0 < w.masterPort.transmitList.length
    rw [hlen]
    exact p.reqQueueLimit_pos
  · have hlen : w.outstandingResponses = p.respQueueLimit := eq_of_beq hfull
    refine .inr ?_
    show 0 < w.outstandingResponses
    rw [hlen]
    exact p.respQueueLimit_pos

theorem Inv.recvTimingReq (h : Inv p w) (clock : Clock) {pkt : Packet} (hp : Permitted w (.recvTimingReq pkt)) :
    ∃ r, w.recvTimingReq clock p pkt = some r ∧ Inv p r.1 := by
  obtain ⟨hresponding, hfresh⟩ := hp
  unfold World.recvTimingReq
  rw [if_neg (by rw [hresponding]; exact Bool.false_ne_true)]
  by_cases hretry : w.retryReq = true
  · rw [if_pos hretry]
    exact ⟨_, rfl, { h with stalled := hretry.symm }⟩
  rw [if_neg hretry]
  rw [Bool.not_eq_true] at hretry
  by_cases hreq : w.reqQueueFull p = true
  · rw [if_pos hreq]
    exact ⟨_, rfl, h.stall (.inl hreq)⟩
  rw [if_neg hreq]
  have hspace : w.masterPort.transmitList.length ≠ p.reqQueueLimit := fun heq => hreq (beq_iff_eq.2 heq)
  by_cases hneeds : pkt.needsResponse = true
  · rw [if_pos hneeds]
    by_cases hresp : w.respQueueFull p = true
    · rw [if_pos hresp]
      exact ⟨_, rfl, h.stall (.inr hresp)⟩
    · rw [if_neg hresp]
      have hroom : w.outstandingResponses ≠ p.respQueueLimit := fun heq => hresp (beq_iff_eq.2 heq)
      have hle := h.outstanding_le
      obtain ⟨w', hw', hinv⟩ := h.accept clock hfresh hspace hretry (n := w.outstandingResponses + 1)
        (by rw [hneeds]; rfl) (by omega)
      exact ⟨(w', true), congrArg _ hw', hinv⟩
  · rw [if_neg hneeds]
    rw [Bool.not_eq_true] at hneeds
    obtain ⟨w', hw', hinv⟩ := h.accept clock hfresh hspace hretry (n := w.outstandingResponses)
      (by rw [hneeds]; rfl) h.outstanding_le
    exact ⟨(w', true), congrArg _ hw', hinv⟩

/-- A request that the peer was offered is an accepted one. -/
theorem Inv.accepted_of_offered (h : Inv p w) {d : Deferred Packet} (hd : d ∈ w.offered) : d.item ∈ w.accepted := by
  refine List.mem_map_of_mem ?_
  rw [h.requests.fifo]
  rcases List.mem_append.1 hd with hd | hd
  · exact List.mem_append_left _ hd
  · split at hd
    · exact List.mem_append_right _ (List.mem_of_mem_take hd)
    · exact absurd hd List.not_mem_nil

theorem Inv.recvTimingResp (h : Inv p w) (clock : Clock) {pkt : Packet} (hp : Permitted w (.recvTimingResp pkt)) :
    ∃ w', w.recvTimingResp clock p pkt = some w' ∧ Inv p w' := by
  obtain ⟨⟨d, hd, hneeds, hid⟩, hfresh⟩ := hp
  obtain ⟨q, hq, hsound, -, hcame, hleft, -⟩ := h.responses.push (le_defer clock p w pkt)
  refine ⟨{ w with slavePort := q }, by rw [World.recvTimingResp, World.schedTimingResp, hq]; rfl, ?_⟩
  constructor
  case requests => exact h.requests
  case responses => exact hsound
  case accepted_nodup => exact h.accepted_nodup
  case came_nodup =>
    show (q.came.map fun d => d.item.id).Nodup
    rw [hcame, List.map_append, List.nodup_append]
    refine ⟨h.came_nodup, List.nodup_singleton _, fun i hi j hj => ?_⟩
    obtain ⟨a, ha, rfl⟩ := List.mem_map.1 hi
    rw [List.map_cons, List.map_nil, List.mem_singleton] at hj
    exact hj ▸ hfresh a ha
  case answers =>
    intro a ha
    have ha : a ∈ w.slavePort.came ++ [w.defer clock p pkt] := hcame ▸ ha
    rcases List.mem_append.1 ha with ha | ha
    · exact h.answers a ha
    · rw [List.mem_singleton.1 ha]
      exact ⟨d.item, h.accepted_of_offered hd, hneeds, hid⟩
  case outstanding =>
    show w.outstandingResponses + q.left.length = _
    rw [hleft]
    exact h.outstanding
  case reqs_le => exact h.reqs_le
  case outstanding_le => exact h.outstanding_le
  case owed => exact h.owed
  case stalled => exact h.stalled

/-- The master port offers or holds the same requests in another way. -/
theorem Inv.masterPort_eq (h : Inv p w) {q : SendQueue Packet} (hsound : q.Sound w.curTick)
    (hcame : q.came = w.masterPort.came) (hlist : q.transmitList = w.masterPort.transmitList) :
    Inv p { w with masterPort := q } := by
  have haccepted : ({ w with masterPort := q } : World).accepted = w.accepted := by
    rw [World.accepted, hcame]
    rfl
  exact { h with
    requests := hsound
    accepted_nodup := haccepted ▸ h.accepted_nodup
    answers := haccepted ▸ h.answers
    outstanding := haccepted ▸ h.outstanding
    reqs_le := hlist ▸ h.reqs_le
    owed := hlist ▸ h.owed }

theorem Inv.slavePort_eq (h : Inv p w) {q : SendQueue Packet} (hsound : q.Sound w.curTick)
    (hcame : q.came = w.slavePort.came) (hleft : q.left = w.slavePort.left) : Inv p { w with slavePort := q } :=
  { h with
    responses := hsound
    came_nodup := hcame ▸ h.came_nodup
    answers := hcame ▸ h.answers
    outstanding := hleft ▸ h.outstanding }

/-- A request has been taken: the master that was refused is sent a retry. -/
theorem Inv.sendTimingReqReturns (h : Inv p w) (clock : Clock) {success : Bool} (hsending : w.masterPort.sending = true) :
    ∃ w', w.sendTimingReqReturns clock success = some w' ∧ Inv p w' := by
  cases success with
  | false => exact ⟨_, rfl, h.masterPort_eq (h.requests.refuse hsending) rfl rfl⟩
  | true =>
    obtain ⟨d, ds, q, hlist, hq, hsound, hds, hcame, -, -⟩ := h.requests.sent hsending (clock.le_clockEdge w.curTick 0)
    refine ⟨{ w with masterPort := q }.retryStalledReq, by rw [World.sendTimingReqReturns, if_pos rfl, hq]; rfl, ?_⟩
    have haccepted : ({ w with masterPort := q } : World).accepted = w.accepted := by
      rw [World.accepted, hcame]
      rfl
    have hlen : q.transmitList.length ≤ p.reqQueueLimit := by
      have hle := h.reqs_le
      rw [hlist, List.length_cons] at hle
      rw [hds]
      exact (Nat.le_succ _).trans hle
    -- the retry flag is off afterwards, whether it was set or not
    have hoff : ({ w with masterPort := q } : World).retryStalledReq =
        { w with masterPort := q, retryReq := false, stalled := false } := by
      have hstalled := h.stalled
      unfold World.retryStalledReq
      split
      · rfl
      next hretry =>
        rw [Bool.not_eq_true] at hretry
        obtain ⟨masterPort, slavePort, outstandingResponses, retryReq, curTick, stalled⟩ := w
        obtain rfl : retryReq = false := hretry
        obtain rfl : stalled = false := hstalled
        rfl
    rw [hoff]
    exact { h with
      requests := hsound
      accepted_nodup := haccepted ▸ h.accepted_nodup
      answers := haccepted ▸ h.answers
      outstanding := haccepted ▸ h.outstanding
      reqs_le := hlen
      owed := fun hretry => absurd hretry Bool.false_ne_true
      stalled := rfl }

/-- A response has been delivered: a master that was refused is sent a retry, unless the requests still fill their list. -/
theorem Inv.sendTimingRespReturns (h : Inv p w) (clock : Clock) {success : Bool} (hsending : w.slavePort.sending = true) :
    ∃ w', w.sendTimingRespReturns clock p success = some w' ∧ Inv p w' := by
  cases success with
  | false => exact ⟨_, rfl, h.slavePort_eq (h.responses.refuse hsending) rfl rfl⟩
  | true =>
    obtain ⟨d, ds, q, hlist, hq, hsound, -, hcame, hleft, -⟩ :=
      h.responses.sent hsending (clock.le_clockEdge w.curTick 0)
    have hpos := h.outstanding_pos (hlist ▸ List.cons_ne_nil d ds)
    have hbase : Inv p { w with
        slavePort := q, outstandingResponses := w.outstandingResponses - 1, retryReq := false, stalled := false } := by
      have hout : w.outstandingResponses - 1 + q.left.length = w.accepted.countP Packet.needsResponse := by
        have hout := h.outstanding
        rw [hleft, List.length_append, List.length_singleton]
        omega
      exact { h with
        responses := hsound
        came_nodup := hcame ▸ h.came_nodup
        answers := hcame ▸ h.answers
        outstanding := hout
        outstanding_le := (Nat.sub_le _ _).trans h.outstanding_le
        owed := fun hretry => absurd hretry Bool.false_ne_true
        stalled := rfl }
    simp only [World.sendTimingRespReturns, if_true, if_pos hpos, hq, Option.map_some]
    refine ⟨_, rfl, ?_⟩
    split
    · exact hbase
    next hkeep =>
      refine { hbase with owed := fun hretry => .inl ?_, stalled := h.stalled }
      have hretry : w.retryReq = true := hretry
      have hfull : w.reqQueueFull p = true := by
        by_contra hnot
        rw [Bool.not_eq_true] at hnot
        refine hkeep (Bool.and_eq_true_iff.2 ⟨?_, hretry⟩)
        show (!w.reqQueueFull p) = true
        rw [hnot]
        rfl
      have hlen : w.masterPort.transmitList.length = p.reqQueueLimit := eq_of_beq hfull
      refine List.ne_nil_of_length_pos ?_
      show 0 < w.masterPort.transmitList.length
      rw [hlen]
      exact p.reqQueueLimit_pos

theorem Inv.step (h : Inv p w) (clock : Clock) {c : Call} (hp : Permitted w c) :
    ∃ w', step clock p w c = some w' ∧ Inv p w' := by
  cases c with
  | recvTimingReq pkt =>
    obtain ⟨r, hr, hinv⟩ := h.recvTimingReq clock hp
    exact ⟨r.1, by rw [Bridge.step, hr]; rfl, hinv⟩
  | recvTimingResp pkt => exact h.recvTimingResp clock hp
  | sendReqEvent =>
    obtain ⟨hq, hsound⟩ := h.requests.fire hp
    exact ⟨_, by rw [Bridge.step, hq]; rfl, h.masterPort_eq hsound rfl rfl⟩
  | recvReqRetry =>
    obtain ⟨hq, hsound⟩ := h.requests.retry hp
    exact ⟨_, by rw [Bridge.step, hq]; rfl, h.masterPort_eq hsound rfl rfl⟩
  | sendTimingReqReturns success => exact h.sendTimingReqReturns clock hp
  | sendRespEvent =>
    obtain ⟨hq, hsound⟩ := h.responses.fire hp
    exact ⟨_, by rw [Bridge.step, hq]; rfl, h.slavePort_eq hsound rfl rfl⟩
  | recvRespRetry =>
    obtain ⟨hq, hsound⟩ := h.responses.retry hp
    exact ⟨_, by rw [Bridge.step, hq]; rfl, h.slavePort_eq hsound rfl rfl⟩
  | sendTimingRespReturns success => exact h.sendTimingRespReturns clock hp
  | advance t =>
    obtain ⟨hle, hreq, hresp⟩ := hp
    exact ⟨_, rfl, { h with requests := h.requests.wait hle hreq, responses := h.responses.wait hle hresp }⟩

/-! ## Every run -/

/-- Items leave in the order in which they came in, each once and not before its tick; a list that is not empty is waited
for, by its event or a retry of the peer, unless its first item is being sent. -/
structure Relayed (q : SendQueue Packet) : Prop where
  fifo : q.came = q.left.map Prod.fst ++ q.transmitList
  once : (q.came.map fun d => d.item.id).Nodup
  in_time : ∀ x ∈ q.left, x.1.tick ≤ x.2
  awake : q.transmitList ≠ [] → q.sending = false → q.sendEvent ≠ none ∨ q.refused = true

structure Correct (p : Params) (w : World) : Prop where
  requests : Relayed w.masterPort
  responses : Relayed w.slavePort
  outstanding : w.outstandingResponses = w.undelivered.length
  outstanding_le : w.outstandingResponses ≤ p.respQueueLimit
  /-- The flag is set just if a master waits for a retry, and then something is to come that sends it. -/
  stalled : w.stalled = w.retryReq
  owed : w.retryReq = true → w.masterPort.transmitList ≠ [] ∨ 0 < w.outstandingResponses

theorem relayed {q : SendQueue Packet} {now : Nat} (h : q.Sound now) (honce : (q.came.map fun d => d.item.id).Nodup) :
    Relayed q where
  fifo := h.fifo
  once := honce
  in_time := h.in_time
  awake hne hsending := by
    rcases h.awake hne with hevent | hrefused | hs
    · exact .inl hevent
    · exact .inr hrefused
    · exact absurd (hsending.symm.trans hs) Bool.false_ne_true

theorem Inv.correct (h : Inv p w) : Correct p w where
  requests := relayed h.requests (by
    have hnodup := h.accepted_nodup
    rwa [World.accepted, List.map_map] at hnodup)
  responses := relayed h.responses h.came_nodup
  outstanding := h.undelivered_length
  outstanding_le := h.outstanding_le
  stalled := h.stalled
  owed := h.owed

theorem bridge_correct (clock : Clock) (p : Params) {w : World} (h : Reaches (step clock p) Permitted start w) :
    Correct p w ∧ ∀ c, Permitted w c → (step clock p w c).isSome := by
  have hinv : Inv p w := by
    refine Reaches.inv (P := Inv p) inv_start (fun s c t hs hp ht => ?_) h
    obtain ⟨t', ht', hinv⟩ := hs.step clock hp
    exact Option.some.inj (ht'.symm.trans ht) ▸ hinv
  refine ⟨hinv.correct, fun c hp => ?_⟩
  obtain ⟨w', hw', -⟩ := hinv.step clock hp
  exact Option.isSome_iff_exists.2 ⟨w', hw'⟩

/-! ### A response that is delivered while a request is refused -/

def oneEach : Params := ⟨1, 1, 1, by decide, by decide⟩

def everyTick : Clock := .ofPeriod 1 (by decide)

def request (id : Nat) : Packet := ⟨id, true, false, 0, 0⟩

def response (id : Nat) : Packet := ⟨id, false, false, 0, 0⟩

/-- From inside of the delivery of the response the master sends a request, which is refused; it is sent a retry. -/
theorem bridge_correct_delivery : ∃ w, w.delivered.map Packet.id = [1] ∧ w.stalled = false ∧
    Correct oneEach w ∧ ∀ c, Permitted w c → (step everyTick oneEach w c).isSome := by
  have h1 : Reaches (step everyTick oneEach) Permitted start _ :=
    .step .refl (i := Call.recvTimingReq (request 1)) ⟨rfl, fun _ ha => absurd ha List.not_mem_nil⟩ rfl
  have h2 := h1.step (i := Call.advance 1) ⟨Nat.le_succ 0, fun _ he => (Option.some.inj he).le,
    fun _ he => absurd he (Option.not_mem_none _)⟩ rfl
  have h3 := h2.step (i := Call.sendReqEvent) rfl rfl
  have h4 := h3.step (i := Call.sendTimingReqReturns true) rfl rfl
  have h5 := h4.step (i := Call.recvTimingResp (response 1))
    ⟨⟨_, List.mem_cons_self, rfl, rfl⟩, fun _ ha => absurd ha List.not_mem_nil⟩ rfl
  have h6 := h5.step (i := Call.advance 2) ⟨Nat.le_succ 1, fun _ he => absurd he (Option.not_mem_none _),
    fun _ he => (Option.some.inj he).le⟩ rfl
  have h7 := h6.step (i := Call.sendRespEvent) rfl rfl
  have h8 := h7.step (i := Call.recvTimingReq (request 2))
    ⟨rfl, fun a ha => by
      rw [List.mem_singleton.1 ha]
      exact Nat.succ_ne_self 1 ∘ Eq.symm⟩ rfl
  have h9 := h8.step (i := Call.sendTimingRespReturns true) rfl rfl
  exact ⟨_, rfl, rfl, bridge_correct everyTick oneEach h9⟩

end Alpine.Mem.Bridge
