import Alpine.Lib.BackInsert
import Alpine.Lib.Outcome
import Alpine.Lib.Run
import Mathlib

/-!
# Packet queues (`mem/packet_queue.cc`, `mem/packet_queue.hh`)

`PacketQueue` with the calls it gets.  `sendDeferredPacket` takes the front packet off the list and puts it
back when it is refused; `schedSendTiming` may be called from inside of the send, so what follows the send
is a step of its own.

* `step` — one call, or the assertion or panic it ends in.
* `Obeys` — the calls of the owner, the peer and the event queue; `Timely` — with ticks below `MaxTick`,
  and no call from inside of a send that is refused.
* `packets_conserved` — every packet handed in is sent once or is still in the list, not before its tick,
  and forced packets to one address leave in their order; a list with packets has an event or a retry to
  come, and no assertion fails.
-/

namespace Alpine.Mem.PacketQueue

open Alpine.Run

abbrev Tick := Nat

def MaxTick : Tick := 2 ^ 64 - 1

/-- `curTick() + 1`. -/
def nextTick (curTick : Tick) : Tick := (curTick + 1) % 2 ^ 64

inductive DrainState where
  | Running
  | Draining
  | Drained
  deriving DecidableEq

/-- What the queue reads of a packet, and the pointer to it. -/
structure Packet where
  ptr : Nat
  getAddr : BitVec 64
  isExpressSnoop : Bool := false

/-- A deferred packet; the code does not keep which call handed it in and whether it was forced. -/
structure DeferredPacket where
  tick : Tick
  pkt : Packet
  nr : Nat
  force_order : Bool

/-- The members of a queue; `sendEvent` is the tick the event is scheduled for. -/
structure Queue where
  transmitList : List DeferredPacket := []
  sendEvent : Option Tick := none
  waitingOnRetry : Bool := false
  _disableSanityCheck : Bool := false
  drainState : DrainState := .Running

/-- A queue, the time, the packet that is being sent, whether a packet was handed in since that send began,
all packets handed in, and the packets sent with the time, both the oldest first. -/
structure World extends Queue where
  curTick : Tick := 0
  sending : Option DeferredPacket := none
  reentered : Bool := false
  handed : List DeferredPacket := []
  sent : List (DeferredPacket × Tick) := []

inductive Fault where
  | assertion
  | panic

/-- `i` may be passed: the new packet is earlier, and not forced to stay behind a packet to its address. -/
def passes (dp i : DeferredPacket) : Bool :=
  dp.tick < i.tick && !(dp.force_order && i.pkt.getAddr = dp.pkt.getAddr)

namespace World

def deferredPacketReadyTime (w : World) : Tick :=
  match w.transmitList with
  | [] => MaxTick
  | dp :: _ => dp.tick

/-- `schedule` and `reschedule` assert that the tick is not past. -/
def schedSendEvent (w : World) (when : Tick) : Except Fault World :=
  if w.waitingOnRetry then
    if w.sendEvent = none then .ok w else .error .assertion
  else if when ≠ MaxTick then
    let when := max when (nextTick w.curTick)
    match w.sendEvent with
    | none => if w.curTick ≤ when then .ok { w with sendEvent := some when } else .error .assertion
    | some e =>
      if when < e then
        if w.curTick ≤ when then .ok { w with sendEvent := some when } else .error .assertion
      else .ok w
  else if w.drainState = .Draining ∧ w.transmitList = [] ∧ w.sendEvent = none then
    .ok { w with drainState := .Drained }
  else .ok w

def schedSendTiming (w : World) (pkt : Packet) (when : Tick) (force_order : Bool) : Except Fault World :=
  if when < w.curTick then .error .assertion
  else if pkt.isExpressSnoop then .error .assertion
  else if !w._disableSanityCheck && w.transmitList.length > 100 then .error .panic
  else
    let dp := ⟨when, pkt, w.handed.length, force_order⟩
    let w := { w with handed := w.handed ++ [dp], reentered := true }
    if w.transmitList = [] then { w with transmitList := [dp] }.schedSendEvent when
    else .ok { w with transmitList := insertBehind (passes dp) dp w.transmitList }

/-- `sendDeferredPacket` up to the send. -/
def sendDeferredPacket (w : World) : Except Fault World :=
  if w.waitingOnRetry then .error .assertion
  else
    match w.transmitList with
    | [] => .error .assertion
    | dp :: transmitList =>
      if dp.tick ≤ w.curTick then
        .ok { w with transmitList := transmitList, sending := some dp, reentered := false }
      else .error .assertion

/-- `sendDeferredPacket` after `sendTiming` has sent `dp` or was refused. -/
def sendTimingReturns (w : World) (dp : DeferredPacket) (success : Bool) : Except Fault World :=
  let w := { w with waitingOnRetry := !success, sending := none }
  if success then
    { w with sent := w.sent ++ [(dp, w.curTick)] }.schedSendEvent w.deferredPacketReadyTime
  else .ok { w with transmitList := dp :: w.transmitList }

def processSendEvent (w : World) : Except Fault World :=
  if w.waitingOnRetry then .error .assertion else w.sendDeferredPacket

def retry (w : World) : Except Fault World :=
  if w.waitingOnRetry then { w with waitingOnRetry := false }.sendDeferredPacket else .error .assertion

/-- `PacketQueue::drain`, from `Drainable::dmDrain`. -/
def drain (w : World) : World :=
  { w with drainState := if w.transmitList = [] then .Drained else .Draining }

end World

/-- The calls of a queue; a firing of the send event; the return of `sendTiming`; the passing of time. -/
inductive Call where
  | schedSendTiming (pkt : Packet) (when : Tick) (force_order : Bool)
  | processSendEvent
  | sendTimingReturns (dp : DeferredPacket) (success : Bool)
  | retry
  | drain
  | drainResume
  | advance (t : Tick)

/-- A call.  The event queue takes an event out before it is processed. -/
def step (w : World) : Call → Except Fault World
  | .schedSendTiming pkt when force_order => w.schedSendTiming pkt when force_order
  | .processSendEvent => { w with sendEvent := none }.processSendEvent
  | .sendTimingReturns dp success => w.sendTimingReturns dp success
  | .retry => w.retry
  | .drain => .ok w.drain
  | .drainResume => .ok { w with drainState := .Running }
  | .advance t => .ok { w with curTick := t }

def next (w : World) (c : Call) : Option World := (step w c).toOption

/-! ## Runs -/

/-- Packets are handed in for a time that is not past, and are no express snoops; a send returns once, for
the packet that it sends; the peer sends a retry after it has refused a packet; events and the clock come
when no send is under way, and no event is passed by. -/
def Obeys (w : World) : Call → Prop
  | .schedSendTiming pkt when _ => w.curTick ≤ when ∧ pkt.isExpressSnoop = false
  | .processSendEvent => w.sending = none ∧ w.sendEvent = some w.curTick
  | .sendTimingReturns dp _ => w.sending = some dp
  | .retry => w.sending = none ∧ w.waitingOnRetry = true
  | .drain => w.sending = none
  | .drainResume => w.sending = none
  | .advance t => w.sending = none ∧ w.curTick ≤ t ∧ ∀ e, w.sendEvent = some e → t ≤ e

/-- The packets handed in so far, as they were or will be sent. -/
def World.outgoing (w : World) : List DeferredPacket :=
  w.sent.map Prod.fst ++ (w.sending.toList ++ w.transmitList)

/-- A forced packet does not leave before an earlier one to its address. -/
def Forced (a b : DeferredPacket) : Prop :=
  a.force_order = true → a.pkt.getAddr = b.pkt.getAddr → a.nr < b.nr

/-- Ticks are below `MaxTick`, which stands for no tick; a packet that is handed in from inside of a send
comes from a receiver that accepts what is sent. -/
def Timely (w : World) : Call → Prop
  | .schedSendTiming _ when _ => when < MaxTick
  | .sendTimingReturns _ success => w.reentered = true → success = true
  | .advance t => t < MaxTick
  | _ => True

/-! ## The invariant -/

/-- What was handed in goes out, once, on time and in the forced order. -/
structure Conserved (w : World) : Prop where
  perm : w.outgoing.Perm w.handed
  numbered : w.handed.map DeferredPacket.nr = List.range w.handed.length
  forced : w.outgoing.Pairwise Forced
  onTime : ∀ s ∈ w.sent, s.1.tick ≤ s.2

/-- Where the queue stands: it waits for a retry with a packet that was ready, has nothing to send, has its
send event scheduled for a time when the front packet is ready, or is sending. -/
inductive Control (w : World) : Prop where
  | waiting (dp : DeferredPacket) (l : List DeferredPacket) (sending : w.sending = none)
      (retry : w.waitingOnRetry = true) (list : w.transmitList = dp :: l) (event : w.sendEvent = none)
      (ready : dp.tick ≤ w.curTick)
  | idle (sending : w.sending = none) (retry : w.waitingOnRetry = false) (list : w.transmitList = [])
      (event : w.sendEvent = none)
  | scheduled (dp : DeferredPacket) (l : List DeferredPacket) (e : Tick) (sending : w.sending = none)
      (retry : w.waitingOnRetry = false) (list : w.transmitList = dp :: l) (event : w.sendEvent = some e)
      (ready : dp.tick ≤ e) (future : w.curTick ≤ e)
  | sending (dp : DeferredPacket) (sending : w.sending = some dp) (retry : w.waitingOnRetry = false)
      (ready : dp.tick ≤ w.curTick) (alone : w.reentered = false → w.sendEvent = none)
      (event : ∀ e, w.sendEvent = some e →
        ∃ i l, w.transmitList = i :: l ∧ i.tick ≤ e ∧ w.curTick ≤ e)

structure Inv (w : World) : Prop where
  conserved : Conserved w
  control : Control w
  current : w.curTick < MaxTick
  ticks : ∀ dp ∈ w.transmitList, dp.tick < MaxTick

/-- A call that is completed, in a state with the invariant. -/
def Keeps (x : Except Fault World) : Prop := ∃ w, x = .ok w ∧ Inv w

variable {w : World}

theorem nextTick_eq {t : Tick} (h : t < MaxTick) : nextTick t = t + 1 := by
  have hlt : t + 1 < 2 ^ 64 := Nat.lt_of_lt_of_eq (Nat.add_lt_add_right h 1) rfl
  exact Nat.mod_eq_of_lt hlt

/-- A send event is scheduled, or stays scheduled, for a tick that is not before the given one. -/
theorem schedSendEvent_ok {when : Tick} (hretry : w.waitingOnRetry = false) (hwhen : when < MaxTick)
    (hcur : w.curTick < MaxTick) (hevent : ∀ e, w.sendEvent = some e → when ≤ e ∧ w.curTick ≤ e) :
    ∃ e, w.schedSendEvent when = .ok { w with sendEvent := some e } ∧ when ≤ e ∧ w.curTick ≤ e := by
  have hfuture : w.curTick ≤ max when (nextTick w.curTick) := by
    rw [nextTick_eq hcur]
    exact Nat.le_trans (Nat.le_succ _) (Nat.le_max_right _ _)
  unfold World.schedSendEvent
  rw [if_neg (Bool.eq_false_iff.1 hretry), if_pos hwhen.ne]
  dsimp only
  cases he : w.sendEvent with
  | none => exact ⟨_, if_pos hfuture, Nat.le_max_left _ _, hfuture⟩
  | some e =>
    dsimp only
    by_cases hlt : max when (nextTick w.curTick) < e
    · rw [if_pos hlt, if_pos hfuture]
      exact ⟨_, rfl, Nat.le_max_left _ _, hfuture⟩
    · rw [if_neg hlt]
      refine ⟨e, ?_, hevent e he⟩
      rw [← he]

/-- At `MaxTick` nothing is scheduled. -/
theorem schedSendEvent_MaxTick (hretry : w.waitingOnRetry = false) :
    ∃ drainState, w.schedSendEvent MaxTick = .ok { w with drainState := drainState } := by
  unfold World.schedSendEvent
  rw [if_neg (Bool.eq_false_iff.1 hretry), if_neg (fun hne => hne rfl)]
  split
  · exact ⟨.Drained, rfl⟩
  · exact ⟨w.drainState, rfl⟩

variable {dp : DeferredPacket}

theorem Conserved.nr_lt (h : Conserved w) (hdp : dp ∈ w.outgoing) : dp.nr < w.handed.length := by
  have hmem := List.mem_map_of_mem (f := DeferredPacket.nr) (h.perm.subset hdp)
  rw [h.numbered] at hmem
  exact List.mem_range.1 hmem

theorem Conserved.hand (h : Conserved w) {l : List DeferredPacket} (hnr : dp.nr = w.handed.length)
    (hl : l = insertBehind (passes dp) dp w.transmitList) (w' : World)
    (hhanded : w'.handed = w.handed ++ [dp]) (hlist : w'.transmitList = l) (hsending : w'.sending = w.sending)
    (hsent : w'.sent = w.sent) : Conserved w' := by
  have hinsert : l.Perm (dp :: w.transmitList) := hl ▸ perm_insertBehind _ dp _
  have hout : w'.outgoing = w.sent.map Prod.fst ++ w.sending.toList ++ l := by
    unfold World.outgoing
    rw [hsent, hsending, hlist, List.append_assoc]
  have hold : w.outgoing = w.sent.map Prod.fst ++ w.sending.toList ++ w.transmitList :=
    (List.append_assoc ..).symm
  have hbefore : ∀ i ∈ w.outgoing, Forced i dp := fun i hi _ _ => hnr ▸ h.nr_lt hi
  have hforced := h.forced
  rw [hold] at hforced hbefore
  obtain ⟨hfirst, hsecond, hcross⟩ := List.pairwise_append.1 hforced
  refine ⟨?_, ?_, ?_, ?_⟩
  · rw [hout, hhanded]
    refine (hinsert.append_left _).trans ((List.perm_middle.trans (.cons dp ?_)).trans
      (List.perm_append_singleton dp _).symm)
    exact hold ▸ h.perm
  · rw [hhanded, List.map_append, h.numbered, List.length_append, List.length_singleton,
      List.range_succ, List.map_singleton, hnr]
  · rw [hout, hl]
    refine List.pairwise_append.2 ⟨hfirst, pairwise_insertBehind hsecond (fun i hi => ?_) ?_,
      fun i hi j hj => ?_⟩
    · exact hbefore i (List.mem_append_right _ hi)
    · intro i _ hpass hforce haddr
      unfold passes at hpass
      rw [hforce, haddr.symm] at hpass
      simp at hpass
    · rcases List.mem_cons.1 (hinsert.subset (hl ▸ hj)) with rfl | hj
      · exact hbefore i (List.mem_append_left _ hi)
      · exact hcross i hi j hj
  · rw [hsent]
    exact h.onTime

theorem Conserved.of_eq (h : Conserved w) (w' : World) (hhanded : w'.handed = w.handed) (hsent : w'.sent = w.sent)
    (hrest : w'.sending.toList ++ w'.transmitList = w.sending.toList ++ w.transmitList) : Conserved w' := by
  have hout : w'.outgoing = w.outgoing := by
    unfold World.outgoing
    rw [hsent, hrest]
  exact ⟨by rw [hout, hhanded]; exact h.perm, by rw [hhanded]; exact h.numbered,
    by rw [hout]; exact h.forced, by rw [hsent]; exact h.onTime⟩

theorem Conserved.send (h : Conserved w) (hsending : w.sending = some dp) (hready : dp.tick ≤ w.curTick)
    (w' : World) (hhanded : w'.handed = w.handed) (hsent : w'.sent = w.sent ++ [(dp, w.curTick)])
    (hnone : w'.sending = none) (hlist : w'.transmitList = w.transmitList) : Conserved w' := by
  have hout : w'.outgoing = w.outgoing := by
    unfold World.outgoing
    rw [hsent, hnone, hlist, hsending, List.map_append, List.append_assoc]
    rfl
  refine ⟨by rw [hout, hhanded]; exact h.perm, by rw [hhanded]; exact h.numbered,
    by rw [hout]; exact h.forced, ?_⟩
  rw [hsent]
  intro s hs
  rcases List.mem_append.1 hs with hs | hs
  · exact h.onTime s hs
  · rw [List.mem_singleton.1 hs]
    exact hready

/-- The front packet is taken off the list to be sent, in a state in which it is ready. -/
theorem sendDeferredPacket_keeps (hconserved : Conserved w) (hsending : w.sending = none)
    (hretry : w.waitingOnRetry = false) (hevent : w.sendEvent = none) (hcur : w.curTick < MaxTick)
    (hticks : ∀ dp ∈ w.transmitList, dp.tick < MaxTick) {l : List DeferredPacket}
    (hlist : w.transmitList = dp :: l) (hready : dp.tick ≤ w.curTick) : Keeps w.sendDeferredPacket := by
  unfold World.sendDeferredPacket
  rw [if_neg (Bool.eq_false_iff.1 hretry), hlist]
  dsimp only
  rw [if_pos hready]
  refine ⟨_, rfl, ?_, ?_, hcur, fun i hi => hticks i (hlist ▸ List.mem_cons_of_mem dp hi)⟩
  · refine hconserved.of_eq _ rfl rfl ?_
    rw [hsending, hlist]
    rfl
  · exact .sending dp rfl hretry hready (fun _ => hevent) fun e he =>
      absurd (hevent.symm.trans he) (Option.some_ne_none e).symm

/-- The send event fires when the front packet is ready. -/
theorem processSendEvent_keeps (h : Inv w) (hsending : w.sending = none) (hevent : w.sendEvent = some w.curTick) :
    Keeps ({ w with sendEvent := none } : World).processSendEvent := by
  cases h.control with
  | waiting _ _ _ _ _ event => exact absurd (event.symm.trans hevent) (Option.some_ne_none _).symm
  | idle _ _ _ event => exact absurd (event.symm.trans hevent) (Option.some_ne_none _).symm
  | sending dp sending => exact absurd (hsending.symm.trans sending) (Option.some_ne_none dp).symm
  | scheduled dp l e sending retry list event ready _ =>
    obtain rfl : e = w.curTick := Option.some.inj (event.symm.trans hevent)
    unfold World.processSendEvent
    rw [if_neg (Bool.eq_false_iff.1 retry)]
    exact sendDeferredPacket_keeps (h.conserved.of_eq _ rfl rfl rfl) sending retry rfl h.current h.ticks
      list ready

theorem retry_keeps (h : Inv w) (hsending : w.sending = none) (hretry : w.waitingOnRetry = true) : Keeps w.retry := by
  cases h.control with
  | waiting dp l sending retry list event ready =>
    unfold World.retry
    rw [if_pos hretry]
    exact sendDeferredPacket_keeps (h.conserved.of_eq _ rfl rfl rfl) sending rfl event h.current h.ticks
      list ready
  | idle _ retry => exact absurd (retry.symm.trans hretry) Bool.false_ne_true
  | scheduled _ _ _ _ retry => exact absurd (retry.symm.trans hretry) Bool.false_ne_true
  | sending dp sending => exact absurd (hsending.symm.trans sending) (Option.some_ne_none dp).symm

/-- After a send the event is scheduled for the packet that is then at the front. -/
theorem schedSendEvent_keeps (hconserved : Conserved w) (hsending : w.sending = none)
    (hretry : w.waitingOnRetry = false) (hcur : w.curTick < MaxTick)
    (hticks : ∀ dp ∈ w.transmitList, dp.tick < MaxTick) (hevent : ∀ e, w.sendEvent = some e →
      ∃ i l, w.transmitList = i :: l ∧ i.tick ≤ e ∧ w.curTick ≤ e) :
    Keeps (w.schedSendEvent w.deferredPacketReadyTime) := by
  rcases hlist : w.transmitList with _ | ⟨dp, l⟩
  · have hnone : w.sendEvent = none := Option.eq_none_iff_forall_ne_some.2 fun e he => by
      obtain ⟨_, _, hcons, -⟩ := hevent e he
      rw [hlist] at hcons
      cases hcons
    have htime : w.deferredPacketReadyTime = MaxTick := by
      unfold World.deferredPacketReadyTime
      rw [hlist]
    obtain ⟨drainState, heq⟩ := schedSendEvent_MaxTick hretry
    rw [htime]
    exact ⟨_, heq, hconserved.of_eq _ rfl rfl rfl, .idle hsending hretry hlist hnone, hcur, hticks⟩
  · have htime : w.deferredPacketReadyTime = dp.tick := by
      unfold World.deferredPacketReadyTime
      rw [hlist]
    obtain ⟨e, heq, hready, hfuture⟩ := schedSendEvent_ok hretry
      (hticks dp (hlist ▸ List.mem_cons_self)) hcur fun e he => by
        obtain ⟨_, _, hcons, hle⟩ := hevent e he
        rw [hlist] at hcons
        cases hcons
        exact hle
    rw [htime]
    exact ⟨_, heq, hconserved.of_eq _ rfl rfl rfl,
      .scheduled dp l e hsending hretry hlist rfl hready hfuture, hcur, hticks⟩

/-- A send returns: the next one is scheduled, or the packet is put back to wait for a retry. -/
theorem sendTimingReturns_keeps (h : Inv w) {success : Bool} (hsending : w.sending = some dp)
    (halone : w.reentered = true → success = true) : Keeps (w.sendTimingReturns dp success) := by
  cases h.control with
  | waiting _ _ sending => exact absurd (sending.symm.trans hsending) (Option.some_ne_none dp).symm
  | idle sending => exact absurd (sending.symm.trans hsending) (Option.some_ne_none dp).symm
  | scheduled _ _ _ sending => exact absurd (sending.symm.trans hsending) (Option.some_ne_none dp).symm
  | sending i sending retry ready alone event =>
    obtain rfl : i = dp := Option.some.inj (sending.symm.trans hsending)
    unfold World.sendTimingReturns
    cases success with
    | true =>
      exact schedSendEvent_keeps
        (w := { w with
          waitingOnRetry := false, sending := none, sent := w.sent ++ [(i, w.curTick)] })
        (h.conserved.send hsending ready _ rfl rfl rfl rfl) rfl rfl h.current h.ticks event
    | false =>
      have hnone : w.sendEvent = none :=
        alone (Bool.eq_false_iff.2 fun hre => Bool.noConfusion (halone hre))
      refine ⟨_, rfl, ?_, .waiting i w.transmitList rfl rfl rfl hnone ready, h.current, ?_⟩
      · refine h.conserved.of_eq _ rfl rfl ?_
        rw [hsending]
        rfl
      · exact List.forall_mem_cons.2 ⟨Nat.lt_of_le_of_lt ready h.current, h.ticks⟩

/-- The sanity check panics. -/
def World.Overgrown (w : World) : Prop := w._disableSanityCheck = false ∧ 100 < w.transmitList.length

theorem schedSendTiming_cases (w : World) {pkt : Packet} {when : Tick} (force_order : Bool)
    (hwhen : w.curTick ≤ when) (hpkt : pkt.isExpressSnoop = false) :
    (w.schedSendTiming pkt when force_order = .error .panic ∧ w.Overgrown) ∨
    ∃ dp w', dp = (⟨when, pkt, w.handed.length, force_order⟩ : DeferredPacket) ∧
      w' = { w with handed := w.handed ++ [dp], reentered := true } ∧
      ((w.transmitList = [] ∧ w.schedSendTiming pkt when force_order =
          { w' with transmitList := [dp] }.schedSendEvent when) ∨
        (w.transmitList ≠ [] ∧ w.schedSendTiming pkt when force_order =
          .ok { w' with transmitList := insertBehind (passes dp) dp w.transmitList })) := by
  unfold World.schedSendTiming
  rw [if_neg (Nat.not_lt.2 hwhen), if_neg (Bool.eq_false_iff.1 hpkt)]
  by_cases hsanity : (!w._disableSanityCheck && decide (w.transmitList.length > 100)) = true
  · rw [if_pos hsanity]
    obtain ⟨hcheck, hlength⟩ := Bool.and_eq_true_iff.1 hsanity
    exact .inl ⟨rfl, by simpa using hcheck, of_decide_eq_true hlength⟩
  · rw [if_neg hsanity]
    refine .inr ⟨_, _, rfl, rfl, ?_⟩
    by_cases hlist : w.transmitList = []
    · exact .inl ⟨hlist, if_pos hlist⟩
    · exact .inr ⟨hlist, if_neg hlist⟩

theorem schedSendTiming_keeps (h : Inv w) {pkt : Packet} {when : Tick} (force_order : Bool)
    (hwhen : w.curTick ≤ when) (hpkt : pkt.isExpressSnoop = false) (hmax : when < MaxTick) :
    Keeps (w.schedSendTiming pkt when force_order) ∨
      (w.schedSendTiming pkt when force_order = .error .panic ∧ w.Overgrown) := by
  rcases schedSendTiming_cases w force_order hwhen hpkt with hpanic | ⟨dp, w', hdp, rfl, hcases⟩
  · exact .inr hpanic
  have hnr : dp.nr = w.handed.length := by rw [hdp]
  have htick : dp.tick = when := by rw [hdp]
  have hhand := fun w' => h.conserved.hand hnr rfl w'
  left
  rcases hcases with ⟨hlist, heq⟩ | ⟨hlist, heq⟩
  · rw [heq]
    rw [hlist] at hhand
    have hnew : ∀ i ∈ [dp], i.tick < MaxTick := fun i hi => by
      rw [List.mem_singleton.1 hi, htick]
      exact hmax
    cases h.control with
    | waiting _ _ _ _ list => exact absurd (hlist.symm.trans list) (List.cons_ne_nil _ _).symm
    | scheduled _ _ _ _ _ list => exact absurd (hlist.symm.trans list) (List.cons_ne_nil _ _).symm
    | idle sending retry _ event =>
      obtain ⟨e, hsched, hready, hfuture⟩ := schedSendEvent_ok
        (w := { w with handed := w.handed ++ [dp], reentered := true, transmitList := [dp] }) retry hmax
        h.current fun e he => absurd (event.symm.trans he) (Option.some_ne_none e).symm
      exact ⟨_, hsched, hhand _ rfl rfl rfl rfl,
        .scheduled dp [] e sending retry rfl rfl (htick ▸ hready) hfuture, h.current, hnew⟩
    | sending i sending retry ready alone event =>
      obtain ⟨e, hsched, hready, hfuture⟩ := schedSendEvent_ok
        (w := { w with handed := w.handed ++ [dp], reentered := true, transmitList := [dp] }) retry hmax
        h.current fun e he => by
          obtain ⟨_, _, hcons, -⟩ := event e he
          rw [hlist] at hcons
          cases hcons
      refine ⟨_, hsched, hhand _ rfl rfl rfl rfl, .sending i sending retry ready (fun hre => ?_) ?_,
        h.current, hnew⟩
      · exact Bool.noConfusion hre
      · rintro e' he'
        cases he'
        exact ⟨dp, [], rfl, htick ▸ hready, hfuture⟩
  · rw [heq]
    have hnew : ∀ i ∈ insertBehind (passes dp) dp w.transmitList, i.tick < MaxTick := fun i hi => by
      rcases List.mem_cons.1 ((perm_insertBehind _ dp _).subset hi) with rfl | hi
      · rw [htick]
        exact hmax
      · exact h.ticks i hi
    cases h.control with
    | waiting i l sending retry list event ready =>
      rw [list] at hhand hnew ⊢
      exact ⟨_, rfl, hhand _ rfl rfl rfl rfl, .waiting i _ sending retry rfl event ready, h.current, hnew⟩
    | idle _ _ list => exact absurd list hlist
    | scheduled i l e sending retry list event ready future =>
      rw [list] at hhand hnew ⊢
      exact ⟨_, rfl, hhand _ rfl rfl rfl rfl, .scheduled i _ e sending retry rfl event ready future,
        h.current, hnew⟩
    | sending i sending retry ready alone event =>
      refine ⟨_, rfl, hhand _ rfl rfl rfl rfl, .sending i sending retry ready (fun hre => ?_) ?_,
        h.current, hnew⟩
      · exact Bool.noConfusion hre
      · intro e he
        obtain ⟨j, l, list, hle⟩ := event e he
        rw [list]
        exact ⟨j, _, rfl, hle⟩

theorem Control.setDrainState (h : Control w) (drainState : DrainState) :
    Control { w with drainState := drainState } := by
  cases h with
  | waiting dp l sending retry list event ready => exact .waiting dp l sending retry list event ready
  | idle sending retry list event => exact .idle sending retry list event
  | scheduled dp l e sending retry list event ready future =>
    exact .scheduled dp l e sending retry list event ready future
  | sending dp sending retry ready alone event => exact .sending dp sending retry ready alone event

/-- **One step**: a call is completed and keeps the invariant, unless the list has grown too long. -/
theorem step_keeps (h : Inv w) {c : Call} (hc : Obeys w c) (htime : Timely w c) :
    Keeps (step w c) ∨ (step w c = .error .panic ∧ w.Overgrown) := by
  cases c with
  | schedSendTiming pkt when force_order => exact schedSendTiming_keeps h force_order hc.1 hc.2 htime
  | processSendEvent => exact .inl (processSendEvent_keeps h hc.1 hc.2)
  | sendTimingReturns dp success => exact .inl (sendTimingReturns_keeps h hc htime)
  | retry => exact .inl (retry_keeps h hc.1 hc.2)
  | drain =>
    exact .inl ⟨_, rfl, h.conserved.of_eq _ rfl rfl rfl, h.control.setDrainState _, h.current, h.ticks⟩
  | drainResume =>
    exact .inl ⟨_, rfl, h.conserved.of_eq _ rfl rfl rfl, h.control.setDrainState _, h.current, h.ticks⟩
  | advance t =>
    obtain ⟨hnone, hle, hevent⟩ := hc
    refine .inl ⟨_, rfl, h.conserved.of_eq _ rfl rfl rfl, ?_, htime, h.ticks⟩
    cases h.control with
    | waiting dp l sending retry list event ready =>
      exact .waiting dp l sending retry list event (Nat.le_trans ready hle)
    | idle sending retry list event => exact .idle sending retry list event
    | scheduled dp l e sending retry list event ready _ =>
      exact .scheduled dp l e sending retry list event ready (hevent e event)
    | sending dp sending => exact absurd (hnone.symm.trans sending) (Option.some_ne_none dp).symm

/-! ## Every run -/

theorem inv_init (check : Bool) : Inv { _disableSanityCheck := check } :=
  ⟨⟨.refl _, rfl, .nil, fun _ hs => by cases hs⟩, .idle rfl rfl rfl rfl,
    Nat.zero_lt_of_ne_zero (by decide : MaxTick ≠ 0), fun _ hdp => by cases hdp⟩

theorem reaches_inv {check : Bool}
    (hrun : Reaches next (fun w c => Obeys w c ∧ Timely w c) { _disableSanityCheck := check } w) : Inv w :=
  hrun.inv (inv_init check) fun w c w' h hc hnext => by
    have hstep : step w c = .ok w' := toOption_eq_some.1 hnext
    rcases step_keeps h hc.1 hc.2 with ⟨w'', hw'', h'⟩ | ⟨hpanic, -⟩
    · exact Except.ok.inj (hw''.symm.trans hstep) ▸ h'
    · rw [hpanic] at hstep
      cases hstep

/-- **Packets are conserved**: in every run with ticks below `MaxTick` no assertion fails; each packet handed
in is in one place, among those sent, in the list, or on its way while a send is in progress; it is not sent
before its tick, and forced packets leave behind the earlier ones to their address; between sends the
event is scheduled if there is a packet and no retry is awaited. -/
theorem packets_conserved {check : Bool}
    (hrun : Reaches next (fun w c => Obeys w c ∧ Timely w c) { _disableSanityCheck := check } w) :
    (∀ c, Obeys w c → Timely w c → (∃ w', step w c = .ok w') ∨ (step w c = .error .panic ∧ w.Overgrown)) ∧
    w.handed.map DeferredPacket.nr = List.range w.handed.length ∧ w.outgoing.Perm w.handed ∧ w.outgoing.Nodup ∧
    (∀ s ∈ w.sent, s.1.tick ≤ s.2) ∧ w.outgoing.Pairwise Forced ∧
    (w.sending = none → w.transmitList ≠ [] → w.waitingOnRetry = false → w.sendEvent ≠ none) := by
  have h : Inv w := reaches_inv hrun
  have hnodup : w.handed.Nodup :=
    List.Nodup.of_map DeferredPacket.nr (h.conserved.numbered ▸ List.nodup_range)
  refine ⟨fun c hc htime => ?_, h.conserved.numbered, h.conserved.perm,
    h.conserved.perm.nodup_iff.2 hnodup, h.conserved.onTime, h.conserved.forced,
    fun hsending hlist hretry => ?_⟩
  · exact (step_keeps h hc htime).imp_left fun ⟨w', hw', _⟩ => ⟨w', hw'⟩
  · cases h.control with
    | waiting _ _ _ retry => exact absurd (hretry.symm.trans retry) Bool.false_ne_true
    | idle _ _ list => exact absurd list hlist
    | scheduled _ _ e _ _ _ event =>
      rw [event]
      exact Option.some_ne_none e
    | sending dp sending => exact absurd (hsending.symm.trans sending) (Option.some_ne_none dp).symm

def packet (ptr : Nat) : Packet := { ptr, getAddr := 64 }

/-- Packet 0 has been sent, and packet 1, which was handed in from inside of that send, was refused. -/
def refusedOnce : World where
  transmitList := [⟨3, packet 1, 1, true⟩]
  waitingOnRetry := true
  curTick := 3
  handed := [⟨2, packet 0, 0, true⟩, ⟨3, packet 1, 1, true⟩]
  sent := [(⟨2, packet 0, 0, true⟩, 2)]

theorem reaches_refusedOnce : Reaches next (fun w c => Obeys w c ∧ Timely w c) {} refusedOnce := by
  have h0 : Reaches next (fun w c => Obeys w c ∧ Timely w c) ({} : World) {} := .refl
  have h1 := h0.step (i := Call.schedSendTiming (packet 0) 2 true)
    ⟨⟨by decide, rfl⟩, (by decide : 2 < MaxTick)⟩ rfl
  have h2 := h1.step (i := Call.advance 2)
    ⟨⟨rfl, by decide, fun e he => Nat.le_of_eq (Option.some.inj he)⟩, (by decide : 2 < MaxTick)⟩ rfl
  have h3 := h2.step (i := Call.processSendEvent) ⟨⟨rfl, rfl⟩, trivial⟩ rfl
  have h4 := h3.step (i := Call.schedSendTiming (packet 1) 3 true)
    ⟨⟨by decide, rfl⟩, (by decide : 3 < MaxTick)⟩ rfl
  have h5 := h4.step (i := Call.sendTimingReturns ⟨2, packet 0, 0, true⟩ true) ⟨rfl, fun _ => rfl⟩ rfl
  have h6 := h5.step (i := Call.advance 3)
    ⟨⟨rfl, by decide, fun e he => Nat.le_of_eq (Option.some.inj he)⟩, (by decide : 3 < MaxTick)⟩ rfl
  have h7 := h6.step (i := Call.processSendEvent) ⟨⟨rfl, rfl⟩, trivial⟩ rfl
  exact h7.step (i := Call.sendTimingReturns ⟨3, packet 1, 1, true⟩ false) ⟨rfl, fun hre => by cases hre⟩ rfl

theorem packets_conserved_refusedOnce :
    (∀ c, Obeys refusedOnce c → Timely refusedOnce c → (∃ w', step refusedOnce c = .ok w') ∨
      (step refusedOnce c = .error .panic ∧ refusedOnce.Overgrown)) ∧
    refusedOnce.handed.map DeferredPacket.nr = List.range refusedOnce.handed.length ∧
    refusedOnce.outgoing.Perm refusedOnce.handed ∧ refusedOnce.outgoing.Nodup ∧
    (∀ s ∈ refusedOnce.sent, s.1.tick ≤ s.2) ∧ refusedOnce.outgoing.Pairwise Forced ∧
    (refusedOnce.sending = none → refusedOnce.transmitList ≠ [] → refusedOnce.waitingOnRetry = false →
      refusedOnce.sendEvent ≠ none) :=
  packets_conserved reaches_refusedOnce

/-- A run that hands in packets for ticks below `MaxTick`, while the time is not bounded. -/
def HandedBefore (w : World) (c : Call) : Prop :=
  Obeys w c ∧ ∀ pkt when force_order, c = .schedSendTiming pkt when force_order → when < MaxTick

/-- A packet that is handed in for `MaxTick` gets no send event; and when the time is `MaxTick`, the next
tick is 0, so that the event of the third of three packets would be scheduled in the past. -/
theorem no_event_at_MaxTick : (¬ ∀ w, Reaches next Obeys {} w →
      w.sending = none → w.transmitList ≠ [] → w.waitingOnRetry = false → w.sendEvent ≠ none) ∧
    ¬ ∀ w c, Reaches next HandedBefore {} w → Obeys w c → step w c ≠ .error .assertion := by
  constructor
  · intro hall
    have h1 := (Reaches.refl : Reaches next Obeys ({} : World) {}).step
      (i := Call.schedSendTiming (packet 0) MaxTick false) ⟨by decide, rfl⟩ rfl
    exact hall _ h1 rfl (List.cons_ne_nil _ _) rfl rfl
  · intro hall
    have hother : ∀ {c : Call}, (∀ pkt when force_order, c ≠ .schedSendTiming pkt when force_order) →
        ∀ pkt when force_order, c = .schedSendTiming pkt when force_order → when < MaxTick :=
      fun hne pkt when force_order hc => absurd hc (hne pkt when force_order)
    have hlast : ∀ {ptr : Nat} pkt when force_order, Call.schedSendTiming (packet ptr) (MaxTick - 1) false =
        .schedSendTiming pkt when force_order → when < MaxTick := by
      rintro ptr pkt when force_order hc
      cases hc
      decide
    have h1 := (Reaches.refl : Reaches next HandedBefore ({} : World) {}).step
      (i := Call.schedSendTiming (packet 0) (MaxTick - 1) false) ⟨⟨by decide, rfl⟩, hlast⟩ rfl
    have h2 := h1.step (i := Call.schedSendTiming (packet 1) (MaxTick - 1) false)
      ⟨⟨by decide, rfl⟩, hlast⟩ rfl
    have h3 := h2.step (i := Call.schedSendTiming (packet 2) (MaxTick - 1) false)
      ⟨⟨by decide, rfl⟩, hlast⟩ rfl
    have h4 := h3.step (i := Call.advance (MaxTick - 1))
      ⟨⟨rfl, by decide, fun e he => Nat.le_of_eq (Option.some.inj he)⟩, hother (by simp)⟩ rfl
    have h5 := h4.step (i := Call.processSendEvent) ⟨⟨rfl, rfl⟩, hother (by simp)⟩ rfl
    have h6 := h5.step (i := Call.sendTimingReturns ⟨MaxTick - 1, packet 0, 0, false⟩ true)
      ⟨rfl, hother (by simp)⟩ rfl
    have h7 := h6.step (i := Call.advance MaxTick)
      ⟨⟨rfl, by decide, fun e he => Nat.le_of_eq (Option.some.inj he)⟩, hother (by simp)⟩ rfl
    have h8 := h7.step (i := Call.processSendEvent) ⟨⟨rfl, rfl⟩, hother (by simp)⟩ rfl
    exact hall _ (.sendTimingReturns ⟨MaxTick - 1, packet 1, 1, false⟩ true) h8 rfl rfl

end Alpine.Mem.PacketQueue
