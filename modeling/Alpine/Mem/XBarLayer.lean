import Alpine.Lib.Run

/-!
# Retries of a crossbar layer (`mem/xbar.cc`, `mem/xbar.hh`)

`BaseXBar::Layer` with the calls it gets.  A port that calls `tryTiming` may be refused by the layer, or be
accepted and refused by the peer.  `retryWaiting` sends a retry, from inside of which ports may call the
layer again: what follows the retry is a step of its own.

* `step` — one call, `none` where an assertion fails.
* `Obeys` — the calls of ports that obey the protocol, of the peer and of the event queue.
* `owed`, `InOrder` — what is due to the refused ports, from the log of refusals and retries alone.
* `retries_in_order` — every port that is owed a retry waits in its place, the first one is retried first,
  and no assertion fails.
-/

namespace Alpine.Mem.BaseXBar

open Alpine.Run

abbrev Tick := Nat

inductive State where
  | IDLE
  | BUSY
  | RETRY
  deriving DecidableEq

inductive DrainState where
  | Running
  | Draining
  | Drained
  deriving DecidableEq

/-- The members of a layer; `releaseEvent` is the tick the event is scheduled for. -/
structure Layer (P : Type) where
  state : State := .IDLE
  waitingForLayer : List P := []
  waitingForPeer : Option P := none
  releaseEvent : Option Tick := none
  occupancy : Tick := 0
  drainState : DrainState := .Running

/-- What ports are told: `tryTiming` refuses a port, the peer refuses its packet, a retry is sent to it; and
the peer sends a retry to the layer. -/
inductive Event (P : Type) where
  | refused (p : P)
  | failed (p : P)
  | retry (p : P)
  | peerRetry

/-- A layer, the time, the port that was accepted and whose outcome is not known yet, whether a retry is
being sent, and the events so far, the newest first. -/
structure World (P : Type) extends Layer P where
  curTick : Tick := 0
  sending : Option P := none
  retrying : Bool := false
  log : List (Event P) := []

/-- The crossbar's clock: an edge is never in the past. -/
structure Clock where
  clockEdge : Tick → Tick
  le_clockEdge : ∀ t, t ≤ clockEdge t

variable {P : Type} [DecidableEq P]

/-- `schedule` asserts that the event is not scheduled and not in the past. -/
def World.occupyLayer (w : World P) (until_ : Tick) : Option (World P) :=
  if w.state = .BUSY ∧ until_ ≠ 0 ∧ w.releaseEvent = none ∧ w.curTick ≤ until_ then
    some { w with releaseEvent := some until_, occupancy := w.occupancy + (until_ - w.curTick) }
  else none

/-- After `true` the port is the one that is sending, after `false` the log says so. -/
def World.tryTiming (w : World P) (src_port : P) : Option (World P) :=
  if w.state = .BUSY ∨ w.waitingForPeer ≠ none then
    if src_port ∈ w.waitingForLayer then none
    else some { w with
      waitingForLayer := w.waitingForLayer ++ [src_port]
      log := .refused src_port :: w.log }
  else some { w with state := .BUSY, sending := some src_port }

def World.succeededTiming (w : World P) (busy_time : Tick) : Option (World P) :=
  if w.state = .BUSY then { w with sending := none }.occupyLayer busy_time else none

def World.failedTiming (w : World P) (src_port : P) (busy_time : Tick) : Option (World P) :=
  if w.waitingForPeer = none ∧ w.state = .BUSY then
    { w with
      waitingForPeer := some src_port
      sending := none
      log := .failed src_port :: w.log }.occupyLayer busy_time
  else none

/-- `retryWaiting` up to the retry. -/
def World.retryWaiting (w : World P) : Option (World P) :=
  match w.waitingForLayer with
  | [] => none
  | retryingPort :: waitingForLayer =>
    if w.state = .IDLE then
      some { w with
        state := .RETRY
        waitingForLayer := waitingForLayer
        retrying := true
        log := .retry retryingPort :: w.log }
    else none

/-- `retryWaiting` after the retry: the state is still `RETRY` if no port called in zero time. -/
def World.retrySent (clock : Clock) (w : World P) : Option (World P) :=
  if w.state = .RETRY then
    { w with state := .BUSY, retrying := false }.occupyLayer (clock.clockEdge w.curTick)
  else some { w with retrying := false }

def World.releaseLayer (w : World P) : Option (World P) :=
  if w.state = .BUSY ∧ w.releaseEvent = none then
    let w := { w with state := .IDLE }
    if w.waitingForLayer ≠ [] then
      if w.waitingForPeer = none then w.retryWaiting else some w
    else if w.waitingForPeer = none ∧ w.drainState = .Draining then
      some { w with drainState := .Drained }
    else some w
  else none

def World.recvRetry (w : World P) : Option (World P) :=
  match w.waitingForPeer with
  | none => none
  | some port =>
    let w := { w with
      waitingForLayer := port :: w.waitingForLayer
      waitingForPeer := none
      log := .peerRetry :: w.log }
    if w.state = .IDLE then w.retryWaiting
    else if w.state = .BUSY then some w
    else none

/-- `Layer::drain`, from `Drainable::dmDrain`. -/
def World.drain (w : World P) : World P :=
  { w with drainState := if w.state ≠ .IDLE then .Draining else .Drained }

/-- The calls of a layer; a firing of the release event; the return of `sendRetry`; the passing of time. -/
inductive Call (P : Type) where
  | tryTiming (src_port : P)
  | succeededTiming (busy_time : Tick)
  | failedTiming (src_port : P) (busy_time : Tick)
  | releaseEvent
  | recvRetry
  | retrySent
  | drain
  | drainResume
  | advance (t : Tick)

/-- A call; `none` where an assertion fails.  The event queue takes an event out before it is processed. -/
def step (clock : Clock) (w : World P) : Call P → Option (World P)
  | .tryTiming src_port => w.tryTiming src_port
  | .succeededTiming busy_time => w.succeededTiming busy_time
  | .failedTiming src_port busy_time => w.failedTiming src_port busy_time
  | .releaseEvent => { w with releaseEvent := none }.releaseLayer
  | .recvRetry => w.recvRetry
  | .retrySent => w.retrySent clock
  | .drain => some w.drain
  | .drainResume => some { w with drainState := .Running }
  | .advance t => some { w with curTick := t }

/-! ## What is due to the ports -/

/-- The ports that are owed a retry: those that the layer refused in the order of the refusals, after the
one the peer refused. -/
def owed : List (Event P) → List P
  | [] => []
  | .refused p :: log => owed log ++ [p]
  | .failed p :: log => p :: owed log
  | .retry p :: log => (owed log).erase p
  | .peerRetry :: log => owed log

/-- Every retry was sent to the first port that was owed one. -/
def InOrder : List (Event P) → Prop
  | [] => True
  | .retry p :: log => (owed log).head? = some p ∧ InOrder log
  | _ :: log => InOrder log

/-- The peer refused a packet, and has not sent a retry since. -/
def peerOwes : List (Event P) → Bool
  | [] => false
  | .failed _ :: _ => true
  | .peerRetry :: _ => false
  | _ :: log => peerOwes log

/-! ## Runs -/

/-- No call of the layer is under way. -/
def World.Returned (w : World P) : Prop := w.sending = none ∧ w.retrying = false

/-- A port that is owed a retry waits for it, and a port sends one packet at a time; the layer is told the
outcome of a packet it has accepted, and a busy time that is not past; the peer sends a retry after it has
refused a packet; events and the clock come when no call is under way, and no event is passed by. -/
def Obeys (w : World P) : Call P → Prop
  | .tryTiming src_port => src_port ∉ owed w.log ∧ w.sending ≠ some src_port
  | .succeededTiming busy_time => w.sending ≠ none ∧ w.curTick ≤ busy_time ∧ busy_time ≠ 0
  | .failedTiming src_port busy_time =>
    w.sending = some src_port ∧ w.curTick ≤ busy_time ∧ busy_time ≠ 0
  | .releaseEvent => w.Returned ∧ w.releaseEvent = some w.curTick
  | .recvRetry => peerOwes w.log = true
  | .retrySent => w.retrying = true ∧ w.sending = none
  | .drain => w.Returned
  | .drainResume => w.Returned
  | .advance t => w.Returned ∧ w.curTick ≤ t ∧ ∀ r, w.releaseEvent = some r → t ≤ r

/-! ## The invariant -/

/-- The two waiting places hold the ports that are owed a retry, in order. -/
structure Waits (w : World P) : Prop where
  places : owed w.log = w.waitingForPeer.toList ++ w.waitingForLayer
  nodup : (w.waitingForPeer.toList ++ w.waitingForLayer).Nodup
  peer : peerOwes w.log = w.waitingForPeer.isSome
  order : InOrder w.log

/-- Where the layer stands.  A busy layer is told an outcome or has its release scheduled, so what waits for
the layer alone is never left behind in an idle one. -/
inductive Control (w : World P) : Prop where
  | idle (state : w.state = .IDLE) (returned : w.Returned) (event : w.releaseEvent = none)
      (waiting : w.waitingForPeer = none → w.waitingForLayer = [])
      (started : w.waitingForPeer ≠ none → w.curTick ≠ 0)
  | retrying (state : w.state = .RETRY) (sending : w.sending = none) (retrying : w.retrying = true)
      (event : w.releaseEvent = none) (peer : w.waitingForPeer = none) (started : w.curTick ≠ 0)
  | sending (p : P) (state : w.state = .BUSY) (sending : w.sending = some p)
      (fresh : p ∉ w.waitingForLayer) (event : w.releaseEvent = none) (peer : w.waitingForPeer = none)
      (started : w.retrying = true → w.curTick ≠ 0)
  | busy (t : Tick) (state : w.state = .BUSY) (sending : w.sending = none)
      (event : w.releaseEvent = some t) (future : w.curTick ≤ t) (until_ : t ≠ 0)
      (started : w.retrying = true → w.curTick ≠ 0)

structure Inv (w : World P) : Prop where
  waits : Waits w
  control : Control w

/-- A call that is completed, in a state with the invariant. -/
def Keeps (w' : Option (World P)) : Prop := ∃ w, w' = some w ∧ Inv w

variable {w : World P} {clock : Clock}

omit [DecidableEq P] in
theorem occupyLayer_eq {until_ : Tick} (hstate : w.state = .BUSY) (hevent : w.releaseEvent = none)
    (hfuture : w.curTick ≤ until_) (huntil : until_ ≠ 0) : w.occupyLayer until_ =
      some { w with releaseEvent := some until_, occupancy := w.occupancy + (until_ - w.curTick) } :=
  if_pos ⟨hstate, huntil, hevent, hfuture⟩

/-- A layer that is occupied keeps the invariant if those that wait are as they should be. -/
theorem occupyLayer_keeps {until_ : Tick} (hwaits : Waits w) (hstate : w.state = .BUSY)
    (hsending : w.sending = none) (hevent : w.releaseEvent = none) (hfuture : w.curTick ≤ until_)
    (huntil : until_ ≠ 0) (hstarted : w.retrying = true → w.curTick ≠ 0) : Keeps (w.occupyLayer until_) := by
  refine ⟨_, occupyLayer_eq hstate hevent hfuture huntil, ?_, ?_⟩
  · exact ⟨hwaits.places, hwaits.nodup, hwaits.peer, hwaits.order⟩
  · exact .busy until_ hstate hsending rfl hfuture huntil hstarted

theorem Waits.refuse {src_port : P} (h : Waits w) (hport : src_port ∉ owed w.log) : Waits { w with
      waitingForLayer := w.waitingForLayer ++ [src_port]
      log := .refused src_port :: w.log } := by
  refine ⟨?_, ?_, h.peer, h.order⟩
  · show owed w.log ++ [src_port] = _
    rw [h.places, List.append_assoc]
  · show (_ ++ (w.waitingForLayer ++ [src_port])).Nodup
    rw [← List.append_assoc, ← h.places]
    exact List.nodup_append.2 ⟨h.places ▸ h.nodup, List.pairwise_singleton _ _, fun a ha b hb hab =>
      hport (List.mem_singleton.1 hb ▸ hab ▸ ha)⟩

theorem tryTiming_keeps {src_port : P} (h : Inv w) (hport : src_port ∉ owed w.log)
    (hother : w.sending ≠ some src_port) : Keeps (w.tryTiming src_port) := by
  have hnot : src_port ∉ w.waitingForLayer := fun hmem =>
    hport (h.waits.places ▸ List.mem_append_right _ hmem)
  have hrefused := h.waits.refuse hport
  unfold World.tryTiming
  cases h.control with
  | idle state returned event waiting started =>
    by_cases hpeer : w.waitingForPeer = none
    · rw [if_neg (by rw [state, hpeer]; exact not_or.2 ⟨State.noConfusion, fun hne => hne rfl⟩)]
      refine ⟨_, rfl, ⟨h.waits.places, h.waits.nodup, h.waits.peer, h.waits.order⟩, ?_⟩
      exact .sending src_port rfl rfl hnot event hpeer fun hretry =>
        Bool.noConfusion (returned.2.symm.trans hretry)
    · rw [if_pos (.inr hpeer), if_neg hnot]
      exact ⟨_, rfl, hrefused, .idle state returned event (fun hnone => absurd hnone hpeer) started⟩
  | retrying state sending retrying event peer started =>
    rw [if_neg (by rw [state, peer]; exact not_or.2 ⟨State.noConfusion, fun hne => hne rfl⟩)]
    exact ⟨_, rfl, ⟨h.waits.places, h.waits.nodup, h.waits.peer, h.waits.order⟩,
      .sending src_port rfl rfl hnot event peer fun _ => started⟩
  | sending p state sending fresh event peer started =>
    rw [if_pos (.inl state), if_neg hnot]
    refine ⟨_, rfl, hrefused, .sending p state sending ?_ event peer started⟩
    intro hmem
    rcases List.mem_append.1 hmem with hmem | hmem
    · exact fresh hmem
    · exact hother (List.mem_singleton.1 hmem ▸ sending)
  | busy t state sending event future until_ started =>
    rw [if_pos (.inl state), if_neg hnot]
    exact ⟨_, rfl, hrefused, .busy t state sending event future until_ started⟩

/-- A layer that is told an outcome has accepted a port, and nobody waits for the peer. -/
theorem Inv.told (h : Inv w) (hsending : w.sending ≠ none) :
    ∃ p, w.state = .BUSY ∧ w.sending = some p ∧ p ∉ w.waitingForLayer ∧ w.releaseEvent = none ∧
      w.waitingForPeer = none ∧ (w.retrying = true → w.curTick ≠ 0) := by
  cases h.control with
  | idle state returned => exact absurd returned.1 hsending
  | retrying state sending => exact absurd sending hsending
  | sending p state sending fresh event peer started =>
    exact ⟨p, state, sending, fresh, event, peer, started⟩
  | busy t state sending => exact absurd sending hsending

theorem succeededTiming_keeps {busy_time : Tick} (h : Inv w) (hsending : w.sending ≠ none)
    (hfuture : w.curTick ≤ busy_time) (huntil : busy_time ≠ 0) : Keeps (w.succeededTiming busy_time) := by
  obtain ⟨p, hstate, -, -, hevent, -, hstarted⟩ := h.told hsending
  unfold World.succeededTiming
  rw [if_pos hstate]
  exact occupyLayer_keeps ⟨h.waits.places, h.waits.nodup, h.waits.peer, h.waits.order⟩ hstate rfl hevent
    hfuture huntil hstarted

theorem failedTiming_keeps {src_port : P} {busy_time : Tick} (h : Inv w)
    (hsending : w.sending = some src_port) (hfuture : w.curTick ≤ busy_time) (huntil : busy_time ≠ 0) :
    Keeps (w.failedTiming src_port busy_time) := by
  obtain ⟨p, hstate, hp, hfresh, hevent, hpeer, hstarted⟩ :=
    h.told (by rw [hsending]; exact Option.some_ne_none _)
  obtain rfl : p = src_port := Option.some.inj (hp.symm.trans hsending)
  have howed : owed w.log = w.waitingForLayer := by
    rw [h.waits.places, hpeer]
    rfl
  unfold World.failedTiming
  rw [if_pos ⟨hpeer, hstate⟩]
  refine occupyLayer_keeps ⟨?_, ?_, rfl, h.waits.order⟩ hstate rfl hevent hfuture huntil hstarted
  · show p :: owed w.log = p :: w.waitingForLayer
    rw [howed]
  · have hnodup := h.waits.nodup
    rw [hpeer] at hnodup
    exact List.nodup_cons.2 ⟨hfresh, hnodup⟩

/-- A retry from an idle layer goes to the first port that is owed one. -/
theorem retryWaiting_keeps (hwaits : Waits w) (hstate : w.state = .IDLE) (hsending : w.sending = none)
    (hevent : w.releaseEvent = none) (hpeer : w.waitingForPeer = none) (hwaiting : w.waitingForLayer ≠ [])
    (hstarted : w.curTick ≠ 0) : Keeps w.retryWaiting := by
  have howed := hwaits.places
  have hnodup := hwaits.nodup
  rw [hpeer] at howed hnodup
  unfold World.retryWaiting
  cases hlist : w.waitingForLayer with
  | nil => exact absurd hlist hwaiting
  | cons p ps =>
    rw [hlist] at howed hnodup
    dsimp only
    rw [if_pos hstate]
    refine ⟨_, rfl, ⟨?_, ?_, hwaits.peer, ?_⟩, .retrying rfl hsending rfl hevent hpeer hstarted⟩
    · show (owed w.log).erase p = w.waitingForPeer.toList ++ ps
      rw [howed, hpeer]
      exact List.erase_cons_head p ps
    · show (w.waitingForPeer.toList ++ ps).Nodup
      rw [hpeer]
      exact (List.nodup_cons.1 hnodup).2
    · exact ⟨by rw [howed]; rfl, hwaits.order⟩

theorem retrySent_keeps (h : Inv w) (hretrying : w.retrying = true) (hsending : w.sending = none) :
    Keeps (w.retrySent clock) := by
  have hwaits := h.waits
  unfold World.retrySent
  cases h.control with
  | idle state returned => exact absurd (returned.2.symm.trans hretrying) Bool.false_ne_true
  | retrying state sending _ event peer started =>
    rw [if_pos state]
    have hedge := clock.le_clockEdge w.curTick
    have hne : clock.clockEdge w.curTick ≠ 0 := fun hzero => started (Nat.le_zero.1 (hzero ▸ hedge))
    exact occupyLayer_keeps ⟨hwaits.places, hwaits.nodup, hwaits.peer, hwaits.order⟩ rfl sending event
      hedge hne fun hretry => Bool.noConfusion hretry
  | sending p state sending => exact absurd (sending.symm.trans hsending) (Option.some_ne_none p)
  | busy t state sending event future until_ _ =>
    rw [if_neg (by rw [state]; exact State.noConfusion)]
    exact ⟨_, rfl, ⟨hwaits.places, hwaits.nodup, hwaits.peer, hwaits.order⟩,
      .busy t state sending event future until_ fun hretry => Bool.noConfusion hretry⟩

theorem Inv.scheduled {t : Tick} (h : Inv w) (hevent : w.releaseEvent = some t) :
    w.state = .BUSY ∧ w.curTick ≤ t ∧ t ≠ 0 := by
  cases h.control with
  | idle _ _ event => exact absurd (hevent.symm.trans event) (Option.some_ne_none t)
  | retrying _ _ _ event => exact absurd (hevent.symm.trans event) (Option.some_ne_none t)
  | sending _ _ _ _ event => exact absurd (hevent.symm.trans event) (Option.some_ne_none t)
  | busy t' state _ event future until_ =>
    obtain rfl : t' = t := Option.some.inj (event.symm.trans hevent)
    exact ⟨state, future, until_⟩

theorem releaseEvent_keeps (h : Inv w) (hreturned : w.Returned) (hevent : w.releaseEvent = some w.curTick) :
    Keeps ({ w with releaseEvent := none } : World P).releaseLayer := by
  obtain ⟨hstate, -, hstarted⟩ := h.scheduled hevent
  have hwaits : Waits ({ w with releaseEvent := none, state := .IDLE } : World P) :=
    ⟨h.waits.places, h.waits.nodup, h.waits.peer, h.waits.order⟩
  unfold World.releaseLayer
  rw [if_pos ⟨hstate, rfl⟩]
  dsimp only
  split
  · rename_i hwaiting
    split
    · rename_i hpeer
      exact retryWaiting_keeps hwaits rfl hreturned.1 rfl hpeer hwaiting hstarted
    · rename_i hpeer
      exact ⟨_, rfl, hwaits, .idle rfl hreturned rfl (fun hnone => absurd hnone hpeer) fun _ => hstarted⟩
  · rename_i hwaiting
    have hidle := Control.idle (w := { w with releaseEvent := none, state := .IDLE }) rfl hreturned rfl
      (fun _ => Decidable.of_not_not hwaiting) fun _ => hstarted
    split
    · exact ⟨_, rfl, ⟨hwaits.places, hwaits.nodup, hwaits.peer, hwaits.order⟩,
        .idle rfl hreturned rfl (fun _ => Decidable.of_not_not hwaiting) fun _ => hstarted⟩
    · exact ⟨_, rfl, hwaits, hidle⟩

theorem recvRetry_keeps (h : Inv w) (hpeer : peerOwes w.log = true) : Keeps w.recvRetry := by
  have howed := h.waits.places
  have hnodup := h.waits.nodup
  have hsome := h.waits.peer
  unfold World.recvRetry
  cases hport : w.waitingForPeer with
  | none =>
    rw [hport, hpeer] at hsome
    cases hsome
  | some p =>
    rw [hport] at howed hnodup
    have hne : w.waitingForPeer ≠ none := by
      rw [hport]
      exact Option.some_ne_none p
    have hwaits : Waits ({ w with
        waitingForLayer := p :: w.waitingForLayer
        waitingForPeer := none
        log := .peerRetry :: w.log } : World P) := ⟨howed, hnodup, rfl, h.waits.order⟩
    dsimp only
    cases h.control with
    | idle state returned event waiting started =>
      rw [if_pos state]
      exact retryWaiting_keeps hwaits state returned.1 event rfl (List.cons_ne_nil _ _) (started hne)
    | retrying _ _ _ _ peer => exact absurd peer hne
    | sending _ _ _ _ _ peer => exact absurd peer hne
    | busy t state sending event future until_ started =>
      rw [if_neg (by rw [state]; exact State.noConfusion), if_pos state]
      exact ⟨_, rfl, hwaits, .busy t state sending event future until_ started⟩

omit [DecidableEq P] in
theorem Control.setDrainState (h : Control w) (drainState : DrainState) :
    Control { w with drainState := drainState } := by
  cases h with
  | idle state returned event waiting started => exact .idle state returned event waiting started
  | retrying state sending retrying event peer started =>
    exact .retrying state sending retrying event peer started
  | sending p state sending fresh event peer started =>
    exact .sending p state sending fresh event peer started
  | busy t state sending event future until_ started =>
    exact .busy t state sending event future until_ started

/-- **One step**: a call of the protocol fails no assertion and keeps the invariant. -/
theorem step_keeps {c : Call P} (h : Inv w) (hc : Obeys w c) : Keeps (step clock w c) := by
  have hwaits := h.waits
  cases c with
  | tryTiming src_port => exact tryTiming_keeps h hc.1 hc.2
  | succeededTiming busy_time => exact succeededTiming_keeps h hc.1 hc.2.1 hc.2.2
  | failedTiming src_port busy_time => exact failedTiming_keeps h hc.1 hc.2.1 hc.2.2
  | releaseEvent => exact releaseEvent_keeps h hc.1 hc.2
  | recvRetry => exact recvRetry_keeps h hc
  | retrySent => exact retrySent_keeps h hc.1 hc.2
  | drain =>
    exact ⟨_, rfl, ⟨hwaits.places, hwaits.nodup, hwaits.peer, hwaits.order⟩, h.control.setDrainState _⟩
  | drainResume =>
    exact ⟨_, rfl, ⟨hwaits.places, hwaits.nodup, hwaits.peer, hwaits.order⟩, h.control.setDrainState _⟩
  | advance t =>
    obtain ⟨hreturned, hle, hevent⟩ := hc
    refine ⟨_, rfl, ⟨hwaits.places, hwaits.nodup, hwaits.peer, hwaits.order⟩, ?_⟩
    cases h.control with
    | idle state _ event waiting started =>
      exact .idle state hreturned event waiting fun hpeer hzero =>
        started hpeer (Nat.le_zero.1 (hzero ▸ hle))
    | retrying _ _ retrying => exact absurd (hreturned.2.symm.trans retrying) Bool.false_ne_true
    | sending p _ sending => exact absurd (sending.symm.trans hreturned.1) (Option.some_ne_none p)
    | busy r state sending event future until_ _ =>
      exact .busy r state sending event (hevent r event) until_ fun hretry =>
        Bool.noConfusion (hreturned.2.symm.trans hretry)

theorem inv_init : Inv ({} : World P) :=
  ⟨⟨rfl, List.nodup_nil, rfl, trivial⟩,
    .idle rfl ⟨rfl, rfl⟩ rfl (fun _ => rfl) fun hne => absurd rfl hne⟩

theorem reaches_inv (hrun : Reaches (step clock) Obeys {} w) : Inv w :=
  hrun.inv inv_init fun _ _ _ h hc hstep => by
    obtain ⟨w', hw', h'⟩ := step_keeps h hc
    exact Option.some.inj (hw'.symm.trans hstep) ▸ h'

/-- **No lost retry**: in every run of ports that obey the protocol no assertion fails; between calls the
layer is idle or busy, is busy exactly when its release is scheduled, and is busy when ports wait for it
alone; no port is twice in the list, the ports that are owed a retry are those in the list and the one that
waits for the peer, and every retry is sent to the first of them. -/
theorem retries_in_order (hrun : Reaches (step clock) Obeys {} w) :
    (∀ c, Obeys w c → ∃ w', step clock w c = some w') ∧
    (w.Returned → (w.state = .IDLE ∨ w.state = .BUSY) ∧ (w.releaseEvent ≠ none ↔ w.state = .BUSY)) ∧
    w.waitingForLayer.Nodup ∧ (w.Returned → w.waitingForLayer ≠ [] → w.waitingForPeer = none → w.state = .BUSY) ∧
    (∀ p, p ∈ owed w.log ↔ p ∈ w.waitingForLayer ∨ w.waitingForPeer = some p) ∧ InOrder w.log := by
  have h : Inv w := reaches_inv hrun
  refine ⟨fun c hc => ?_, fun hreturned => ?_, ?_, fun hreturned hwaiting hpeer => ?_, fun p => ?_,
    h.waits.order⟩
  · obtain ⟨w', hw', -⟩ : Keeps (step clock w c) := step_keeps h hc
    exact ⟨w', hw'⟩
  · cases h.control with
    | idle state _ event =>
      exact ⟨.inl state, iff_of_false (fun hne => hne event) (by rw [state]; exact State.noConfusion)⟩
    | retrying _ _ retrying => exact absurd (hreturned.2.symm.trans retrying) Bool.false_ne_true
    | sending p _ sending => exact absurd (sending.symm.trans hreturned.1) (Option.some_ne_none p)
    | busy t state _ event =>
      exact ⟨.inr state, iff_of_true (by rw [event]; exact Option.some_ne_none t) state⟩
  · exact (List.nodup_append.1 h.waits.nodup).2.1
  · cases h.control with
    | idle _ _ _ waiting => exact absurd (waiting hpeer) hwaiting
    | retrying _ _ retrying => exact absurd (hreturned.2.symm.trans retrying) Bool.false_ne_true
    | sending _ state => exact state
    | busy _ state => exact state
  · rw [h.waits.places, List.mem_append, Option.mem_toList]
    exact Or.comm

/-- A clock with an edge at every tick. -/
def everyTick : Clock := ⟨id, fun _ => Nat.le_refl _⟩

/-- Port 0 sends; ports 1 and 2 are refused; port 1 gets its retry, and the peer refuses its packet. -/
def peerRefused : World Nat where
  state := .BUSY
  waitingForLayer := [2]
  waitingForPeer := some 1
  releaseEvent := some 2
  occupancy := 2
  curTick := 1
  log := [.failed 1, .retry 1, .refused 2, .refused 1]

theorem reaches_peerRefused : Reaches (step everyTick) Obeys {} peerRefused := by
  have h0 : Reaches (step everyTick) Obeys ({} : World Nat) {} := .refl
  have h1 := h0.step (i := Call.tryTiming 0) ⟨by decide, by decide⟩ rfl
  have h2 := h1.step (i := Call.succeededTiming 1) ⟨by decide, by decide, by decide⟩ rfl
  have h3 := h2.step (i := Call.tryTiming 1) ⟨by decide, by decide⟩ rfl
  have h4 := h3.step (i := Call.tryTiming 2) ⟨by decide, by decide⟩ rfl
  have h5 := h4.step (i := Call.advance 1) ⟨⟨rfl, rfl⟩, by decide, fun r hr =>
    Nat.le_of_eq (Option.some.inj hr)⟩ rfl
  have h6 := h5.step (i := Call.releaseEvent) ⟨⟨rfl, rfl⟩, rfl⟩ rfl
  have h7 := h6.step (i := Call.tryTiming 1) ⟨by decide, by decide⟩ rfl
  have h8 := h7.step (i := Call.failedTiming 1 2) ⟨rfl, by decide, by decide⟩ rfl
  exact h8.step (i := Call.retrySent) ⟨rfl, rfl⟩ rfl

theorem retries_in_order_peerRefused : (∀ c, Obeys peerRefused c → ∃ w', step everyTick peerRefused c = some w') ∧
    (peerRefused.Returned → (peerRefused.state = .IDLE ∨ peerRefused.state = .BUSY) ∧
      (peerRefused.releaseEvent ≠ none ↔ peerRefused.state = .BUSY)) ∧ peerRefused.waitingForLayer.Nodup ∧
    (peerRefused.Returned → peerRefused.waitingForLayer ≠ [] → peerRefused.waitingForPeer = none →
      peerRefused.state = .BUSY) ∧ (∀ p, p ∈ owed peerRefused.log ↔
      p ∈ peerRefused.waitingForLayer ∨ peerRefused.waitingForPeer = some p) ∧ InOrder peerRefused.log :=
  retries_in_order reaches_peerRefused

/-- The refused ports in the order of the refusals, whoever refused them. -/
def refusals : List (Event P) → List P
  | [] => []
  | .refused p :: log => refusals log ++ [p]
  | .failed p :: log => refusals log ++ [p]
  | .retry p :: log => (refusals log).erase p
  | .peerRetry :: log => refusals log

def InRefusalOrder : List (Event P) → Prop
  | [] => True
  | .retry p :: log => (refusals log).head? = some p ∧ InRefusalOrder log
  | _ :: log => InRefusalOrder log

/-- `recvRetry` puts port 1, which the peer refused, before port 2, which had been refused earlier. -/
theorem peer_refused_first : ¬ ∀ w : World Nat, Reaches (step everyTick) Obeys {} w → InRefusalOrder w.log := by
  intro hall
  have h1 := reaches_peerRefused.step (i := Call.recvRetry) rfl rfl
  have h2 := h1.step (i := Call.advance 2) ⟨⟨rfl, rfl⟩, by decide, fun r hr =>
    Nat.le_of_eq (Option.some.inj hr)⟩ rfl
  have h3 := h2.step (i := Call.releaseEvent) ⟨⟨rfl, rfl⟩, rfl⟩ rfl
  exact absurd (hall _ h3).1 (by decide)

end Alpine.Mem.BaseXBar
