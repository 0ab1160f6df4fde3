import Alpine.Lib.Ledger
import Alpine.Mem.WirelessTraffic

/-!
# Who is granted an attempt under exponential backoff

A port that waits for a layer takes the first entry of `pktReadyEBList` with its source port, whichever
layer that attempt was made for.

* `Granted` — the invariant: the waiting ports are the claims of a ledger (`Alpine.Ledger`) whose open
  ones are the pending attempts and whose grants are the ready ones, matched by source port.
* `grants_accounted` — so a waiting port finds an attempt, and no run panics; where every port that waits for
  the layer of its packet finds the attempt it made for that layer, every grant goes to the right packet.
* `granted_other_layer` — a port that answers a retry with a packet for another layer takes there, later,
  what was granted for this one.
-/

namespace Alpine.Mem

open Alpine.Run XBar Traffic

variable {p : Params} {r r' : Traffic} {g : List Seat}

/-! ## Attempts as seats -/

def Origin.seat (o : Origin) : Seat := ⟨o.layerType, o.destPort, o.srcPort⟩

def ExpBackoffPkt.seat (i : ExpBackoffPkt) : Seat := i.origin.seat

/-- The seats that a list of attempts was made for. -/
def seats (l : List ExpBackoffPkt) : List Seat := l.map (·.seat)

theorem seats_eq_origins (l : List ExpBackoffPkt) : seats l = (l.map (·.origin)).map Origin.seat := by
  unfold seats
  rw [List.map_map]
  rfl

theorem seats_schedule (s : XBar) (i : ExpBackoffPkt) :
    (seats (s.schedule i).pktToTransmitEBList).Perm (i.seat :: seats s.pktToTransmitEBList) := by
  rw [seats_eq_origins, seats_eq_origins]
  exact (schedule_origins s i).map Origin.seat

theorem seats_markOverlaps (cur : ExpBackoffPkt) (l : List ExpBackoffPkt) : seats (markOverlaps cur l) = seats l := by
  rw [seats_eq_origins, seats_eq_origins, markOverlaps_origins]

/-- What a collision check does, when it returns: the first attempt is rescheduled or ready. -/
theorem expBackoffCollisionCheck_cases {s s' : XBar} {rnd : UInt16} (h : expBackoffCollisionCheck p s rnd = some s') :
    ∃ cur rest, s.pktToTransmitEBList = cur :: rest ∧ s'.layers = s.layers ∧
      s'.tokenChangeEvent = s.tokenChangeEvent ∧ (((seats s'.pktToTransmitEBList).Perm (seats s.pktToTransmitEBList) ∧
          s'.pktReadyEBList = s.pktReadyEBList ∧ s'.control = s.control) ∨
        (seats s'.pktToTransmitEBList = seats rest ∧ s'.pktReadyEBList = cur :: s.pktReadyEBList ∧
          s'.control = if cur.srcPort ∈ (s.layers cur.layerType cur.destPort).waitingForLayer then .checking
            else .panicked)) := by
  unfold expBackoffCollisionCheck at h
  split at h
  · cases h
  · rename_i cur rest hl
    split at h
    · cases h
    · dsimp only at h
      split at h
      · cases h
        refine ⟨cur, rest, hl, rfl, rfl, .inl ⟨?_, rfl, rfl⟩⟩
        refine (seats_schedule _ _).trans ?_
        rw [hl]
        show (cur.seat :: seats (markOverlaps cur rest)).Perm (cur.seat :: seats rest)
        rw [seats_markOverlaps]
      · cases h
        unfold transmitted triggerSendRetryEB
        dsimp only
        split
        · rename_i hwait
          exact ⟨cur, rest, hl, rfl, rfl, .inr ⟨seats_markOverlaps cur rest, rfl, (if_pos hwait).symm⟩⟩
        · rename_i hwait
          exact ⟨cur, rest, hl, rfl, rfl, .inr ⟨seats_markOverlaps cur rest, rfl, (if_neg hwait).symm⟩⟩

/-! ## The invariant -/

/-- The attempts that are pending, and those that are ready. -/
def opened (r : Traffic) : List Seat := seats r.xbar.pktToTransmitEBList

def granted (r : Traffic) : List Seat := seats r.xbar.pktReadyEBList

structure Granted (g : List Seat) (r : Traffic) : Prop where
  seated : Seated r.xbar g
  ledger : Ledger Seat.port g (opened r) (granted r)
  owed : Owed (opened r) r.waitingForPeer r.blocked
  control : r.xbar.control ≠ .panicked
  tokens : r.xbar.tokenChangeEvent = none

theorem granted_init : Granted [] {} where
  seated := seated_init
  ledger := Ledger.nil _
  owed := owed_init
  control := fun h => nomatch h
  tokens := rfl

/-- The attempt was made for the packet that takes it: by its source port, on its layer. -/
def Grant.Matched (a : Grant) : Prop :=
  a.attempt.srcPort = a.entry.srcPort ∧ a.attempt.layerType = a.entry.layerType ∧
    a.attempt.destPort = a.dest

instance (a : Grant) : Decidable a.Matched := inferInstanceAs (Decidable (_ ∧ _ ∧ _))

/-- A port that waits for the layer of its packet finds the attempt it has made for that layer. -/
def Traffic.Answers (r : Traffic) : TrafficInput → Prop
  | .recv e dest _ _ _ _ =>
    e.srcPort ∈ (r.xbar.layers e.layerType dest).waitingForLayer →
      ∀ i ∈ r.xbar.readyOf e.srcPort, i.layerType = e.layerType ∧ i.destPort = dest
  | _ => True

/-- What the condition keeps. -/
def Kept (g : List Seat) (r : Traffic) : Prop :=
  Ledger.Exact g (opened r) (granted r) ∧ ∀ a ∈ r.grants, a.Matched

/-- The retries owed are for different channels, so the pending attempts are for different seats. -/
theorem Owed.nodup {peers : List (PortID × Port)} {blocked : Channel → Bool} (h : Owed g peers blocked) :
    g.Nodup := by
  rw [List.nodup_iff_count_le_one]
  intro w
  have hc := h w.channel
  unfold retriesOn at hc
  have hle : g.count w ≤ g.countP fun v => v.channel = w.channel :=
    List.countP_mono_left fun v _ hv => decide_eq_true (congrArg Seat.channel (eq_of_beq hv))
  have := Bool.toNat_le (blocked w.channel)
  omega

theorem readyOf_srcPort {s : XBar} {port : Port} {i : ExpBackoffPkt} (h : s.readyOf port = some i) :
    i.srcPort = port := by
  have := List.find?_some h
  exact of_decide_eq_true this

/-! ## Steps -/

theorem Granted.recv (hmac : p.macProto = .exp_backoff) (h : Granted g r) {e : Entry}
    (hfree : r.blocked e.channel = false) (dest : PortID) (pkt : Packet) (rnd : UInt16) (ok : Bool) (busy : Nat) :
    ∃ g', Granted g' (r.recv p e dest pkt rnd ok busy) ∧ (r.Answers (.recv e dest pkt rnd ok busy) → Kept g r →
        Kept g' (r.recv p e dest pkt rnd ok busy)) := by
  have hchannel : (⟨e.layerType, dest, e.srcPort⟩ : Seat).channel = e.channel := retryChannel_entry e
  have hclosed : (⟨e.layerType, dest, e.srcPort⟩ : Seat) ∉ opened r :=
    h.owed.free (by rw [hchannel]; exact hfree)
  unfold Traffic.recv
  simp only [XBar.tryTiming, hmac]
  rcases tryTimingEB_cases (p := p) r.xbar (e.call p dest pkt) rnd with
    ⟨hwait, ⟨i, hi, hq⟩ | ⟨hnone, hq⟩⟩ | ⟨hwait, hq⟩
  · -- a ready attempt is taken
    have hseat : (⟨e.layerType, dest, e.srcPort⟩ : Seat) ∈ g := h.seated.mem.1 hwait
    have hready : (granted r).Perm
        (i.seat :: seats (r.xbar.pktReadyEBList.eraseP fun i => i.srcPort = e.srcPort)) :=
      (find?_cons_eraseP_perm _ hi).map _
    have hport : i.srcPort = e.srcPort := readyOf_srcPort hi
    have htaken : taken p r.xbar e.srcPort = some i := by
      unfold taken
      rw [hmac]
      exact hi
    have hseated := h.seated.erase e.layerType dest e.srcPort .BUSY
    have hledger := h.ledger.settle hseat hclosed hready hport
    rw [hq, if_pos rfl, htaken]
    refine ⟨g.erase ⟨e.layerType, dest, e.srcPort⟩, ?_, fun hans hkept => ?_⟩
    · split
      · rename_i hpeer
        have hreq : retryChannel .REQ e.srcPort = e.channel := by
          cases e with
          | req i => rfl
          | _ => simp [Entry.sendsOn] at hpeer
        refine ⟨hseated, hledger, ?_, h.control, h.tokens⟩
        show Owed _ (r.waitingForPeer ++ [(dest, e.srcPort)]) (Function.update r.blocked e.channel true)
        rw [← hreq] at hfree ⊢
        exact h.owed.addPeer (q := (dest, e.srcPort)) hfree List.perm_append_comm
      · exact ⟨hseated, hledger, h.owed, h.control, h.tokens⟩
    · obtain ⟨htype, hdest⟩ := hans hwait i hi
      have hsame : i.seat = ⟨e.layerType, dest, e.srcPort⟩ := by
        unfold ExpBackoffPkt.seat ExpBackoffPkt.origin Origin.seat
        rw [htype, hdest, hport]
      rw [hsame] at hready
      have hexact := hkept.1.settle hseat hready
      have hmatched : ∀ a ∈ r.grants ++ [⟨e, dest, i⟩], a.Matched := by
        intro a ha
        rcases List.mem_append.1 ha with ha | ha
        · exact hkept.2 a ha
        · rw [List.mem_singleton.1 ha]
          exact ⟨hport, htype, hdest⟩
      split
      · exact ⟨hexact, hmatched⟩
      · exact ⟨hexact, hmatched⟩
  · -- the ledger has a grant for the port
    have hseat : (⟨e.layerType, dest, e.srcPort⟩ : Seat) ∈ g := h.seated.mem.1 hwait
    obtain ⟨w, hw, hport⟩ := h.ledger.exists_granted h.owed.nodup hseat hclosed
    obtain ⟨i, hi, rfl⟩ := List.mem_map.1 hw
    exact absurd (decide_eq_true hport) (List.find?_eq_none.1 hnone i hi)
  · -- an attempt is made
    have hnew : (⟨e.layerType, dest, e.srcPort⟩ : Seat) ∉ g := fun hs => hwait (h.seated.mem.2 hs)
    have hopened : (seats ((r.xbar.occupied (e.call p dest pkt)
        ((r.xbar.layers e.layerType dest).waitingForLayer ++ [e.srcPort])).schedule
        (r.xbar.newAttempt p (e.call p dest pkt) rnd)).pktToTransmitEBList).Perm
        (⟨e.layerType, dest, e.srcPort⟩ :: opened r) := seats_schedule _ _
    have hseated := h.seated.append e.layerType dest e.srcPort .BUSY
    have hledger := h.ledger.enter hnew hopened
    rw [hq, if_neg Bool.false_ne_true]
    refine ⟨g ++ [Seat.mk e.layerType dest e.srcPort], ⟨hseated, hledger, ?_, h.control, h.tokens⟩,
      fun _ hkept => ⟨hkept.1.enter hopened, hkept.2⟩⟩
    · show Owed _ r.waitingForPeer (Function.update r.blocked e.channel true)
      rw [← hchannel] at hfree ⊢
      exact h.owed.add hfree hopened

theorem Granted.collisionCheck (h : Granted g r) (hrunning : r.xbar.control = .running) {rnd : UInt16}
    (hstep : r.collisionCheck p rnd = some r') : Granted g r' ∧ (Kept g r → Kept g r') := by
  unfold Traffic.collisionCheck at hstep
  split at hstep
  · rename_i cur' rest' s hl' hs
    obtain ⟨cur, rest, hl, hlayers, hevent, hcases⟩ := expBackoffCollisionCheck_cases hs
    obtain ⟨rfl, rfl⟩ := List.cons.inj (hl'.symm.trans hl)
    rcases hcases with ⟨hopened, hready, hcontrol⟩ | ⟨hopened, hready, hcontrol⟩
    · -- the attempt is rescheduled
      rw [if_neg (by rw [hcontrol, hrunning]; decide)] at hstep
      cases hstep
      have hgranted : seats s.pktReadyEBList = granted r := congrArg seats hready
      refine ⟨⟨h.seated.congr hlayers, ?_, h.owed.reorder hopened, fun hc => h.control ?_,
        hevent.trans h.tokens⟩, fun hkept => ⟨?_, hkept.2⟩⟩
      · show Ledger Seat.port g _ (seats s.pktReadyEBList)
        rw [hgranted]
        exact h.ledger.reorder hopened
      · exact hcontrol.symm.trans hc
      · show Ledger.Exact g _ (seats s.pktReadyEBList)
        rw [hgranted]
        exact hkept.1.reorder hopened
    · -- the attempt is ready, and its port gets a retry
      have hall : opened r = cur'.seat :: seats rest' := by
        unfold opened
        rw [hl']
        rfl
      have hwait : cur'.srcPort ∈ (r.xbar.layers cur'.layerType cur'.destPort).waitingForLayer :=
        h.seated.mem.2 (h.ledger.sub (by rw [hall]; exact List.mem_cons_self))
      have hgranted : seats s.pktReadyEBList = cur'.seat :: granted r := congrArg seats hready
      rw [show s.control = .checking from hcontrol.trans (if_pos hwait), if_pos rfl] at hstep
      cases hstep
      have hopen : (opened r).Perm (cur'.seat :: seats s.pktToTransmitEBList) := by
        rw [hall, hopened]
      refine ⟨⟨h.seated.congr hlayers, ?_, h.owed.remove hopen, fun hc => ?_,
        hevent.trans h.tokens⟩, fun hkept => ⟨?_, hkept.2⟩⟩
      · show Ledger Seat.port g _ (seats s.pktReadyEBList)
        rw [hgranted]
        exact h.ledger.grant hopen
      · have hchecking := hcontrol.trans (if_pos hwait)
        rw [show s.control = .panicked from hc] at hchecking
        cases hchecking
      · show Ledger.Exact g _ (seats s.pktReadyEBList)
        rw [hgranted]
        exact hkept.1.grant hopen
  · cases hstep

/-- **Every step keeps the ledger**, with ports that obey the protocol; and it keeps the grants where they
belong when the ports find their own attempts. -/
theorem Granted.step (hmac : p.macProto = .exp_backoff) (h : Granted g r) {i : TrafficInput}
    (hobeys : r.Obeys i) (hstep : trafficStep p r i = some r') :
    ∃ g', Granted g' r' ∧ (r.Answers i → Kept g r → Kept g' r') := by
  cases i with
  | recv e dest pkt rnd ok busy =>
    simp only [trafficStep] at hstep
    split at hstep
    · cases hstep
    · cases hstep
      exact h.recv hmac hobeys dest pkt rnd ok busy
  | collisionCheck rnd =>
    obtain ⟨hdue, hstep⟩ := Option.ite_none_right_eq_some.1 hstep
    obtain ⟨hgranted, hkept⟩ := h.collisionCheck hdue.1 hstep
    exact ⟨g, hgranted, fun _ => hkept⟩
  | collisionCheckReturn =>
    simp only [trafficStep] at hstep
    split at hstep
    · cases hstep
      unfold collisionCheckReturn
      split
      · exact ⟨g, ⟨h.seated, h.ledger, h.owed, fun hc => (nomatch hc), h.tokens⟩, fun _ hkept => hkept⟩
      · exact ⟨g, ⟨h.seated, h.ledger, h.owed, fun hc => (nomatch hc), h.tokens⟩, fun _ hkept => hkept⟩
    · cases hstep
  | tokenChange =>
    -- no token change is scheduled
    simp only [trafficStep, h.tokens] at hstep
    split at hstep
    · rename_i hdue
      cases hdue.2
    · cases hstep
  | recvRetry dest =>
    obtain ⟨-, hstep⟩ := Option.ite_none_left_eq_some.1 hstep
    obtain ⟨q, hpeers, hxbar, hgrants, hblocked⟩ := recvRetry_cases hstep
    refine ⟨g, ⟨?_, ?_, ?_, ?_, ?_⟩, fun _ hkept => ?_⟩
    · rw [hxbar]
      exact h.seated
    · unfold opened granted
      rw [hxbar]
      exact h.ledger
    · unfold opened
      rw [hxbar, hblocked]
      exact h.owed.removePeer hpeers
    · rw [hxbar]
      exact h.control
    · rw [hxbar]
      exact h.tokens
    · unfold Kept opened granted
      rw [hxbar, hgrants]
      exact hkept
  | releaseLayer type dest =>
    obtain ⟨-, hstep⟩ := Option.ite_none_right_eq_some.1 hstep
    obtain ⟨state, hxbar, hpeers, hgrants, hblocked⟩ := releaseLayer_cases hstep
    refine ⟨g, ⟨?_, ?_, ?_, ?_, ?_⟩, fun _ hkept => ?_⟩
    · rw [hxbar]
      exact h.seated.setState type dest state
    · unfold opened granted
      rw [hxbar]
      exact h.ledger
    · unfold opened
      rw [hxbar, hpeers, hblocked]
      exact h.owed
    · rw [hxbar]
      exact h.control
    · rw [hxbar]
      exact h.tokens
    · unfold Kept opened granted
      rw [hxbar, hgrants]
      exact hkept
  | advance t =>
    simp only [trafficStep] at hstep
    split at hstep
    · cases hstep
      exact ⟨g, ⟨h.seated, h.ledger, h.owed, h.control, h.tokens⟩, fun _ hkept => hkept⟩
    · cases hstep

/-! ## The record of grants -/

theorem recv_grants (r : Traffic) (e : Entry) (dest : PortID) (pkt : Packet) (rnd : UInt16) (ok : Bool) (busy : Nat) :
    (r.recv p e dest pkt rnd ok busy).grants = if (r.xbar.tryTiming p (e.call p dest pkt) rnd).2 then
        r.grants ++ (taken p r.xbar e.srcPort).toList.map (Grant.mk e dest)
      else r.grants := by
  unfold Traffic.recv
  dsimp only
  split
  · split
    · rfl
    · rfl
  · rfl

theorem collisionCheck_grants {rnd : UInt16} (h : r.collisionCheck p rnd = some r') : r'.grants = r.grants := by
  unfold Traffic.collisionCheck at h
  split at h
  · split at h
    · cases h
      rfl
    · cases h
      rfl
  · cases h

theorem tokenChange_grants (h : r.tokenChange p = some r') : r'.grants = r.grants := by
  unfold Traffic.tokenChange at h
  obtain ⟨s, -, rfl⟩ := Option.map_eq_some_iff.1 h
  split
  · rfl
  · rfl

theorem grants_subset {i : TrafficInput} (hstep : trafficStep p r i = some r') : r.grants ⊆ r'.grants := by
  cases i with
  | recv e dest pkt rnd ok busy =>
    simp only [trafficStep] at hstep
    split at hstep
    · cases hstep
    · cases hstep
      rw [recv_grants]
      split
      · exact List.subset_append_left _ _
      · exact List.Subset.refl _
  | recvRetry dest =>
    obtain ⟨-, hstep⟩ := Option.ite_none_left_eq_some.1 hstep
    obtain ⟨-, -, -, hgrants, -⟩ := recvRetry_cases hstep
    rw [hgrants]
    exact List.Subset.refl _
  | releaseLayer type dest =>
    obtain ⟨-, hstep⟩ := Option.ite_none_right_eq_some.1 hstep
    obtain ⟨-, -, -, hgrants, -⟩ := releaseLayer_cases hstep
    rw [hgrants]
    exact List.Subset.refl _
  | collisionCheck rnd =>
    obtain ⟨-, hstep⟩ := Option.ite_none_right_eq_some.1 hstep
    rw [collisionCheck_grants hstep]
    exact List.Subset.refl _
  | tokenChange =>
    obtain ⟨-, hstep⟩ := Option.ite_none_right_eq_some.1 hstep
    rw [tokenChange_grants hstep]
    exact List.Subset.refl _
  | collisionCheckReturn =>
    simp only [trafficStep] at hstep
    split at hstep
    · cases hstep
      exact List.Subset.refl _
    · cases hstep
  | advance t =>
    simp only [trafficStep] at hstep
    split at hstep
    · cases hstep
      exact List.Subset.refl _
    · cases hstep

/-- A port that takes what it has not made for this layer leaves a grant that is not matched. -/
theorem answers_of_matched (hmac : p.macProto = .exp_backoff) {i : TrafficInput}
    (hstep : trafficStep p r i = some r') (hmatched : ∀ a ∈ r'.grants, a.Matched) : r.Answers i := by
  cases i with
  | recv e dest pkt rnd ok busy =>
    intro hwait i hi
    simp only [trafficStep] at hstep
    split at hstep
    · cases hstep
    · cases hstep
      have haccept : (r.xbar.tryTiming p (e.call p dest pkt) rnd).2 = true := by
        simp only [XBar.tryTiming, hmac]
        rcases tryTimingEB_cases (p := p) r.xbar (e.call p dest pkt) rnd with
          ⟨-, ⟨j, -, hq⟩ | ⟨hnone, -⟩⟩ | ⟨hno, -⟩
        · rw [hq]
        · rw [show r.xbar.readyOf e.srcPort = none from hnone] at hi
          cases hi
        · exact absurd hwait hno
      have htaken : taken p r.xbar e.srcPort = some i := by
        unfold taken
        rw [hmac]
        exact hi
      rw [recv_grants, if_pos haccept, htaken] at hmatched
      obtain ⟨-, htype, hdest⟩ := hmatched ⟨e, dest, i⟩ (List.mem_append_right _ List.mem_cons_self)
      exact ⟨htype, hdest⟩
  | _ => trivial

/-! ## Runs -/

/-- The source ports of the attempts that were made for a layer. -/
def attemptPorts (l : List ExpBackoffPkt) (type : LayerType) (dest : PortID) : List Port :=
  (l.filter fun i => i.layerType = type ∧ i.destPort = dest).map (·.srcPort)

theorem seatsOf_seats (l : List ExpBackoffPkt) (type : LayerType) (dest : PortID) :
    seatsOf (seats l) type dest = attemptPorts l type dest := by
  unfold seatsOf seats attemptPorts
  rw [List.filter_map, List.map_map]
  rfl

/-- Every grant went to the packet it was made for, and the ports that wait for a layer are those with a
pending or ready attempt of that layer. -/
def Traffic.Accounted (r : Traffic) : Prop :=
  (∀ a ∈ r.grants, a.Matched) ∧
    ∀ type dest, (r.xbar.layers type dest).waitingForLayer.Perm
      (attemptPorts (r.xbar.pktToTransmitEBList ++ r.xbar.pktReadyEBList) type dest)

theorem Granted.accounted (h : Granted g r) (hkept : Kept g r) : r.Accounted := by
  refine ⟨hkept.2, fun type dest => ?_⟩
  rw [h.seated type dest, ← seatsOf_seats]
  refine List.Perm.map _ (List.Perm.filter _ ?_)
  unfold seats
  rw [List.map_append]
  exact hkept.1

theorem Granted.run (hmac : p.macProto = .exp_backoff)
    (hrun : Reaches (trafficStep p) Traffic.Obeys {} r) : ∃ g, Granted g r := by
  refine hrun.inv (P := fun r => ∃ g, Granted g r) ⟨[], granted_init⟩ ?_
  rintro r i r' ⟨g, h⟩ hobeys hstep
  obtain ⟨g', h', -⟩ := h.step hmac hobeys hstep
  exact ⟨g', h'⟩

theorem Kept.run (hmac : p.macProto = .exp_backoff)
    (hrun : Reaches (trafficStep p) (fun r i => r.Obeys i ∧ r.Answers i) {} r) : ∃ g, Granted g r ∧ Kept g r := by
  refine hrun.inv (P := fun r => ∃ g, Granted g r ∧ Kept g r)
    ⟨[], granted_init, .refl _, fun a ha => absurd ha List.not_mem_nil⟩ ?_
  rintro r i r' ⟨g, h, hkept⟩ ⟨hobeys, hanswers⟩ hstep
  obtain ⟨g', h', hkept'⟩ := h.step hmac hobeys hstep
  exact ⟨g', h', hkept' hanswers hkept⟩

/-- Where all grants are matched, every port has found its own attempts. -/
theorem answers_run (hmac : p.macProto = .exp_backoff)
    (hrun : Reaches (trafficStep p) Traffic.Obeys {} r) (hmatched : ∀ a ∈ r.grants, a.Matched) :
    Reaches (trafficStep p) (fun r i => r.Obeys i ∧ r.Answers i) {} r := by
  induction hrun with
  | refl => exact .refl
  | step _ hobeys hstep ih =>
    refine (ih fun a ha => hmatched a (grants_subset hstep ha)).step ⟨hobeys, ?_⟩ hstep
    exact answers_of_matched hmac hstep hmatched

/-- **Grants under exponential backoff**, in every run with ports that obey the protocol: no state has panicked; a port
that waits has a pending or ready attempt; a packet that is accepted takes a ready attempt of its source port; and every
grant so far went to the packet it was made for, with the waiting ports of every layer those with an attempt of that
layer, exactly when every port that waited for the layer of its packet found the attempt made for that layer. -/
theorem grants_accounted (hmac : p.macProto = .exp_backoff) (hrun : Reaches (trafficStep p) Traffic.Obeys {} r) :
    r.xbar.control ≠ .panicked ∧ (∀ type dest, ∀ port ∈ (r.xbar.layers type dest).waitingForLayer,
      ∃ i ∈ r.xbar.pktToTransmitEBList ++ r.xbar.pktReadyEBList, i.srcPort = port) ∧
    (∀ (e : Entry) dest pkt rnd, (r.xbar.tryTiming p (e.call p dest pkt) rnd).2 = true →
      ∃ i ∈ r.xbar.pktReadyEBList, taken p r.xbar e.srcPort = some i ∧ i.srcPort = e.srcPort) ∧
    (r.Accounted ↔ Reaches (trafficStep p) (fun r i => r.Obeys i ∧ r.Answers i) {} r) := by
  obtain ⟨g, h⟩ := Granted.run hmac hrun
  refine ⟨h.control, fun type dest port hport => ?_, fun e dest pkt rnd haccept => ?_,
    fun hall => answers_run hmac hrun hall.1, fun hall => ?_⟩
  · obtain ⟨w, hw, hkey⟩ := h.ledger.exists_key (h.seated.mem.1 hport)
    unfold opened granted seats at hw
    rw [← List.map_append] at hw
    obtain ⟨i, hi, rfl⟩ := List.mem_map.1 hw
    exact ⟨i, hi, hkey⟩
  · simp only [XBar.tryTiming, hmac] at haccept
    rcases tryTimingEB_cases (p := p) r.xbar (e.call p dest pkt) rnd with
      ⟨-, ⟨i, hi, -⟩ | ⟨-, hq⟩⟩ | ⟨-, hq⟩
    · refine ⟨i, List.mem_of_find?_eq_some hi, ?_, readyOf_srcPort hi⟩
      unfold taken
      rw [hmac]
      exact hi
    · rw [hq] at haccept
      cases haccept
    · rw [hq] at haccept
      cases haccept
  · obtain ⟨g', h', hkept⟩ := Kept.run hmac hall
    exact h'.accounted hkept

/-- Two master ports and a slave port. -/
def twoDests : Params where
  macProto := .exp_backoff
  bandwidth := id
  retrySlot := 1
  backoffCeil := 10
  masterConnections := 2
  hasDefault := false
  slaveConnections := 1
  clockPeriod := 1

/-- The port has answered its first retry with a packet for master port 1, and has had a second retry. -/
def otherAnswer : Traffic :=
  ([.recv (.req 0) 0 readReq 0 true 1, .advance 1, .collisionCheck 0, .recv (.req 0) 1 readReq 0 true 1,
    .collisionCheckReturn, .advance 2, .collisionCheck 0].foldlM (trafficStep twoDests) {}).get (by decide)

theorem otherAnswer_reached : Reaches (trafficStep twoDests) Traffic.Obeys {} otherAnswer := by
  have h0 : Reaches (trafficStep twoDests) Traffic.Obeys {} {} := .refl
  have h1 := h0.step (i := TrafficInput.recv (.req 0) 0 readReq 0 true 1) rfl rfl
  have h2 := h1.step (i := TrafficInput.advance 1) trivial rfl
  have h3 := h2.step (i := TrafficInput.collisionCheck 0) trivial rfl
  have h4 := h3.step (i := TrafficInput.recv (.req 0) 1 readReq 0 true 1) rfl rfl
  have h5 := h4.step (i := TrafficInput.collisionCheckReturn) trivial rfl
  have h6 := h5.step (i := TrafficInput.advance 2) trivial rfl
  exact h6.step (i := TrafficInput.collisionCheck 0) trivial rfl

theorem grants_accounted_otherAnswer :
    otherAnswer.xbar.pktReadyEBList.length = 2 ∧ otherAnswer.xbar.control ≠ .panicked ∧
    (∀ type dest, ∀ port ∈ (otherAnswer.xbar.layers type dest).waitingForLayer,
      ∃ i ∈ otherAnswer.xbar.pktToTransmitEBList ++ otherAnswer.xbar.pktReadyEBList, i.srcPort = port) ∧
    (∀ (e : Entry) dest pkt rnd, (otherAnswer.xbar.tryTiming twoDests (e.call twoDests dest pkt) rnd).2 = true →
      ∃ i ∈ otherAnswer.xbar.pktReadyEBList,
        taken twoDests otherAnswer.xbar e.srcPort = some i ∧ i.srcPort = e.srcPort) ∧ (otherAnswer.Accounted ↔
      Reaches (trafficStep twoDests) (fun r i => r.Obeys i ∧ r.Answers i) {} otherAnswer) :=
  ⟨by decide, grants_accounted (p := twoDests) rfl otherAnswer_reached⟩

/-- The packet for master port 0 takes the attempt for master port 1, whose layer has the port waiting
without one. -/
theorem granted_other_layer : ∃ r, Reaches (trafficStep twoDests) Traffic.Obeys {} r ∧ (∃ a ∈ r.grants, ¬ a.Matched) ∧
      ∃ port ∈ (r.xbar.layers .REQ 1).waitingForLayer, ∀ i ∈ r.xbar.pktToTransmitEBList ++ r.xbar.pktReadyEBList,
          ¬ (i.srcPort = port ∧ i.layerType = .REQ ∧ i.destPort = 1) :=
  ⟨_, otherAnswer_reached.step (i := TrafficInput.recv (.req 0) 0 readReq 0 true 1) rfl rfl,
    by decide, by decide⟩

end Alpine.Mem
