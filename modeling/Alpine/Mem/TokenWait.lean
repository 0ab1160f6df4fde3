import Alpine.Mem.WirelessTraffic

/-!
# The ports that wait for the token

`tokenChange` selects an entry of `pktToTransmitTPList` by its source id, and `triggerSendRetry` looks it
up again by its source port, in the waiting list of a layer and in that list.

* `TokenWait` — the invariant: the list is the waiting lists of all layers, in the order of arrival.
* `TokenWait.tokenChange_cases` — the entry that is removed is the one that was selected.
* `waitingForLayer_perm` — the lists agree in every state reached, and no panic or assertion is.
-/

namespace Alpine.Mem

open Alpine.Run XBar Traffic

variable {p : Params} {r r' : Traffic}

/-! ## The calls -/

def TokenPassPkt.seat (i : TokenPassPkt) : Seat := ⟨i.layerType, i.destPort, i.srcPort⟩

/-- A port has one source id, on whatever layers it waits. -/
theorem Entry.srcId_eq : ∀ {e e' : Entry}, e.srcPort = e'.srcPort → e.srcId p = e'.srcId p
  | .req _, .req _, h => by cases h; rfl
  | .req _, .snoop _, h => by cases h; rfl
  | .snoop _, .req _, h => by cases h; rfl
  | .snoop _, .snoop _, h => by cases h; rfl
  | .resp _, .resp _, h => by cases h; rfl
  | .snoopResp _, .snoopResp _, h => by cases h; rfl

/-- The queue of waiting packets is not touched, nor is anything of the other MAC protocol. -/
structure SameQueue (s s' : XBar) : Prop where
  queue : s'.pktToTransmitTPList = s.pktToTransmitTPList
  attempts : s'.pktToTransmitEBList = s.pktToTransmitEBList
  control : s'.control = s.control

theorem startTokens_queue (s : XBar) : SameQueue s (s.startTokens p) := by
  unfold startTokens
  split
  · exact ⟨rfl, rfl, rfl⟩
  · obtain ⟨tick, htick⟩ := update_eq (p := p) s
    rw [htick]
    exact ⟨rfl, rfl, rfl⟩

theorem newTokenPkt_congr {s t : XBar} (h : t.curTick = s.curTick) (c : Call) :
    t.newTokenPkt c = s.newTokenPkt c := by
  unfold newTokenPkt
  rw [h]

/-- What `tryTiming` does to the queue for a port that does not wait for its layer. -/
theorem tryTimingTP_queue {s : XBar} {c : Call}
    (hwait : c.srcPort ∉ (s.layers c.layerType c.destPort).waitingForLayer) :
    ((s.tryTimingTP p c).2 = true ∧ SameQueue s (s.tryTimingTP p c).1 ∧ (s.tryTimingTP p c).1.layers =
        (s.occupied c (s.layers c.layerType c.destPort).waitingForLayer).layers) ∨ ((s.tryTimingTP p c).2 = false ∧
      (s.tryTimingTP p c).1.pktToTransmitTPList = s.pktToTransmitTPList ++ [s.newTokenPkt c] ∧
      (s.tryTimingTP p c).1.pktToTransmitEBList = s.pktToTransmitEBList ∧ (s.tryTimingTP p c).1.control = s.control ∧
      (s.tryTimingTP p c).1.layers =
        (s.occupied c ((s.layers c.layerType c.destPort).waitingForLayer ++ [c.srcPort])).layers) := by
  have hlayers := startTokens_layers (p := p)
    (s.setLayer c.layerType c.destPort { s.layers c.layerType c.destPort with state := .BUSY })
  have hsame := startTokens_queue (p := p)
    (s.setLayer c.layerType c.destPort { s.layers c.layerType c.destPort with state := .BUSY })
  have htick : ((s.setLayer c.layerType c.destPort
      { s.layers c.layerType c.destPort with state := .BUSY }).startTokens p).curTick = s.curTick :=
    (startTokens_same _).curTick
  unfold tryTimingTP
  dsimp only
  generalize (s.setLayer c.layerType c.destPort
    { s.layers c.layerType c.destPort with state := .BUSY }).startTokens p = t at hlayers hsame htick ⊢
  split
  · exact .inl ⟨rfl, ⟨hsame.queue, hsame.attempts, hsame.control⟩, hlayers⟩
  · split
    · obtain ⟨tick, hupdate⟩ := update_eq (p := p) t
      rw [hupdate]
      exact .inl ⟨rfl, ⟨hsame.queue, hsame.attempts, hsame.control⟩, hlayers⟩
    · refine .inr ⟨rfl, ?_, hsame.attempts, hsame.control, ?_⟩
      · show t.pktToTransmitTPList ++ [t.newTokenPkt c] = _
        rw [hsame.queue, newTokenPkt_congr htick]
        rfl
      · exact setLayer_twice hlayers _

/-! ## The token change -/

/-- Every entry comes from a port that waits in its layer, with the source id of that port. -/
structure TokenWait (p : Params) (r : Traffic) : Prop where
  seated : Seated r.xbar (r.xbar.pktToTransmitTPList.map (·.seat))
  source : ∀ i ∈ r.xbar.pktToTransmitTPList, ∃ e : Entry, i.srcPort = e.srcPort ∧ i.srcId = e.srcId p
  owed : Owed (r.xbar.pktToTransmitTPList.map (·.seat)) r.waitingForPeer r.blocked
  attempts : r.xbar.pktToTransmitEBList = []
  control : r.xbar.control ≠ .panicked

theorem tokenWait_init : TokenWait p {} where
  seated := seated_init
  source := fun _ h => absurd h List.not_mem_nil
  owed := owed_init
  attempts := rfl
  control := fun h => nomatch h

/-- The search by source port finds the entry that the search by source id has found. -/
theorem TokenWait.eraseP (h : TokenWait p r) {i : TokenPassPkt} (hi : selected p r.xbar = some i) :
    ∃ a b, r.xbar.pktToTransmitTPList = a ++ i :: b ∧ i.seat ∉ a.map (·.seat) ∧
      (r.xbar.pktToTransmitTPList.eraseP fun j => j.srcPort = i.srcPort) = a ++ b := by
  unfold selected at hi
  obtain ⟨hid, a, b, hl, hbefore⟩ := List.find?_eq_some_iff_append.1 hi
  have hport : ∀ j ∈ a, j.srcPort ≠ i.srcPort := by
    intro j hj heq
    obtain ⟨e, hport, hsrc⟩ := h.source i (by rw [hl]; exact List.mem_append_right _ List.mem_cons_self)
    obtain ⟨e', hport', hsrc'⟩ := h.source j (by rw [hl]; exact List.mem_append_left _ hj)
    have hsame : j.srcId = i.srcId := by
      rw [hsrc, hsrc']
      exact Entry.srcId_eq (hport'.symm.trans (heq.trans hport))
    have hno := hbefore j hj
    rw [hsame] at hno
    exact absurd hid (by simpa using hno)
  refine ⟨a, b, hl, ?_, ?_⟩
  · intro hmem
    obtain ⟨j, hj, heq⟩ := List.mem_map.1 hmem
    exact hport j hj (congrArg Seat.port heq)
  · rw [hl, List.eraseP_append_right _ (by simpa using hport), List.eraseP_cons_of_pos (by simp)]

theorem triggerSendRetryTP_eq {s : XBar} {i : TokenPassPkt}
    (hwait : i.srcPort ∈ (s.layers i.layerType i.destPort).waitingForLayer) (hmem : i ∈ s.pktToTransmitTPList) :
    s.triggerSendRetryTP i = { s.setLayer i.layerType i.destPort ⟨(s.layers i.layerType i.destPort).state,
            (s.layers i.layerType i.destPort).waitingForLayer.erase i.srcPort⟩ with
        pktToTransmitTPList := s.pktToTransmitTPList.eraseP fun j => j.srcPort = i.srcPort } := by
  unfold triggerSendRetryTP
  dsimp only
  rw [if_pos hwait]
  exact if_pos (List.any_eq_true.2 ⟨i, hmem, decide_eq_true rfl⟩)

/-- What a token change does: nothing to the queue when no port waits for the token; otherwise the entry
selected leaves the queue and its port leaves the layer. -/
theorem TokenWait.tokenChange_cases (h : TokenWait p r) (hstep : r.tokenChange p = some r') :
    (selected p r.xbar = none ∧ SameQueue r.xbar r'.xbar ∧ r'.xbar.layers = r.xbar.layers ∧
      r'.waitingForPeer = r.waitingForPeer ∧ r'.blocked = r.blocked) ∨
    ∃ i a b, selected p r.xbar = some i ∧ r.xbar.pktToTransmitTPList = a ++ i :: b ∧
      i.seat ∉ a.map (·.seat) ∧ r'.xbar.pktToTransmitTPList = a ++ b ∧
      r'.xbar.pktToTransmitEBList = r.xbar.pktToTransmitEBList ∧ r'.xbar.control = r.xbar.control ∧
      r'.xbar.layers = (r.xbar.setLayer i.layerType i.destPort ⟨(r.xbar.layers i.layerType i.destPort).state,
          (r.xbar.layers i.layerType i.destPort).waitingForLayer.erase i.srcPort⟩).layers ∧
      r'.waitingForPeer = r.waitingForPeer ∧ r'.blocked = Function.update r.blocked i.seat.channel false := by
  unfold Traffic.tokenChange at hstep
  obtain ⟨s, hs, rfl⟩ := Option.map_eq_some_iff.1 hstep
  obtain ⟨tick, hupdate⟩ := update_eq (p := p) { r.xbar with tokenChangeEvent := none }
  unfold XBar.tokenChange at hs
  split at hs
  · cases hs
  · rw [hupdate] at hs
    dsimp only at hs
    change (match selected p r.xbar with | none => _ | some i => _) = some s at hs
    cases hi : selected p r.xbar with
    | none =>
      rw [hi] at hs
      cases hs
      exact .inl ⟨rfl, ⟨rfl, rfl, rfl⟩, rfl, rfl, rfl⟩
    | some i =>
      obtain ⟨a, b, hl, hnew, herase⟩ := h.eraseP hi
      have hmem : i ∈ r.xbar.pktToTransmitTPList := by
        rw [hl]
        exact List.mem_append_right _ List.mem_cons_self
      have hwait : i.srcPort ∈ (r.xbar.layers i.layerType i.destPort).waitingForLayer :=
        h.seated.mem.2 (List.mem_map_of_mem hmem)
      rw [hi] at hs
      cases hs
      refine .inr ⟨i, a, b, rfl, hl, hnew, ?_⟩
      dsimp only
      rw [triggerSendRetryTP_eq]
      · exact ⟨herase, rfl, rfl, rfl, rfl, rfl⟩
      · exact hwait
      · exact hmem

/-! ## Steps -/

theorem TokenWait.recv (hmac : p.macProto = .token_pass) (h : TokenWait p r) {e : Entry}
    (hfree : r.blocked e.channel = false) (dest : PortID) (pkt : Packet) (rnd : UInt16) (ok : Bool)
    (busy : Nat) : TokenWait p (r.recv p e dest pkt rnd ok busy) := by
  have hchannel : (⟨e.layerType, dest, e.srcPort⟩ : Seat).channel = e.channel := retryChannel_entry e
  have hwait : e.srcPort ∉ (r.xbar.layers e.layerType dest).waitingForLayer := fun hw =>
    h.owed.free (by rw [hchannel]; exact hfree) (h.seated.mem.1 hw)
  unfold Traffic.recv
  simp only [XBar.tryTiming, hmac]
  rcases tryTimingTP_queue (p := p) (s := r.xbar) (c := e.call p dest pkt) hwait with
    ⟨hacc, hsame, hlayers⟩ | ⟨href, hqueue, hattempts, hcontrol, hlayers⟩
  · rw [hacc, if_pos rfl]
    have hseated : Seated (r.xbar.tryTimingTP p (e.call p dest pkt)).1
        ((r.xbar.tryTimingTP p (e.call p dest pkt)).1.pktToTransmitTPList.map (·.seat)) := by
      rw [hsame.queue]
      exact (h.seated.setState e.layerType dest .BUSY).congr hlayers
    have hsource := h.source
    rw [← hsame.queue] at hsource
    have howed := h.owed
    rw [← hsame.queue] at howed
    split
    · -- the port below refuses a request
      rename_i hpeer
      refine ⟨hseated, hsource, ?_, hsame.attempts.trans h.attempts, ?_⟩
      · have hreq : retryChannel .REQ e.srcPort = e.channel := by
          cases e with
          | req i => rfl
          | _ => simp [Entry.sendsOn] at hpeer
        show Owed _ (r.waitingForPeer ++ [(dest, e.srcPort)]) (Function.update r.blocked e.channel true)
        rw [← hreq] at hfree ⊢
        exact howed.addPeer (q := (dest, e.srcPort)) hfree List.perm_append_comm
      · show (r.xbar.tryTimingTP p (e.call p dest pkt)).1.control ≠ _
        rw [hsame.control]
        exact h.control
    · refine ⟨hseated, hsource, howed, hsame.attempts.trans h.attempts, ?_⟩
      show (r.xbar.tryTimingTP p (e.call p dest pkt)).1.control ≠ _
      rw [hsame.control]
      exact h.control
  · rw [href, if_neg Bool.false_ne_true]
    refine ⟨?_, ?_, ?_, hattempts.trans h.attempts, fun hc => h.control (hcontrol.symm.trans hc)⟩
    · show Seated (r.xbar.tryTimingTP p (e.call p dest pkt)).1 _
      rw [show (({ r with xbar := (r.xbar.tryTimingTP p (e.call p dest pkt)).1 } : Traffic).setBlocked
        e.channel true).xbar.pktToTransmitTPList = _ from hqueue, List.map_append]
      exact (h.seated.append e.layerType dest e.srcPort .BUSY).congr hlayers
    · intro i hi
      rw [show (({ r with xbar := (r.xbar.tryTimingTP p (e.call p dest pkt)).1 } : Traffic).setBlocked
        e.channel true).xbar.pktToTransmitTPList = _ from hqueue] at hi
      rcases List.mem_append.1 hi with hi | hi
      · exact h.source i hi
      · rw [List.mem_singleton.1 hi]
        exact ⟨e, rfl, rfl⟩
    · show Owed _ r.waitingForPeer (Function.update r.blocked e.channel true)
      rw [show (({ r with xbar := (r.xbar.tryTimingTP p (e.call p dest pkt)).1 } : Traffic).setBlocked
        e.channel true).xbar.pktToTransmitTPList = _ from hqueue, List.map_append, ← hchannel]
      exact h.owed.add (by rw [hchannel]; exact hfree) List.perm_append_comm

theorem TokenWait.tokenChange (h : TokenWait p r) (hstep : r.tokenChange p = some r') : TokenWait p r' := by
  rcases h.tokenChange_cases hstep with
    ⟨-, hsame, hlayers, hpeers, hblocked⟩ |
    ⟨i, a, b, -, hl, hnew, hqueue, hattempts, hcontrol, hlayers, hpeers, hblocked⟩
  · refine ⟨?_, ?_, ?_, hsame.attempts.trans h.attempts, fun hc => h.control (hsame.control.symm.trans hc)⟩
    · rw [hsame.queue]
      exact h.seated.congr hlayers
    · rw [hsame.queue]
      exact h.source
    · rw [hsame.queue, hpeers, hblocked]
      exact h.owed
  · have hmap : r.xbar.pktToTransmitTPList.map (·.seat) = a.map (·.seat) ++ i.seat :: b.map (·.seat) := by
      rw [hl, List.map_append, List.map_cons]
    have hseated := h.seated.erase i.layerType i.destPort i.srcPort
      (r.xbar.layers i.layerType i.destPort).state
    have howed := h.owed
    rw [hmap] at hseated howed
    change Seated _ (List.erase _ i.seat) at hseated
    rw [List.erase_append_right _ hnew, List.erase_cons_head] at hseated
    refine ⟨?_, ?_, ?_, hattempts.trans h.attempts, fun hc => h.control (hcontrol.symm.trans hc)⟩
    · rw [hqueue, List.map_append]
      exact hseated.congr hlayers
    · intro j hj
      rw [hqueue] at hj
      refine h.source j ?_
      rw [hl]
      rcases List.mem_append.1 hj with hj | hj
      · exact List.mem_append_left _ hj
      · exact List.mem_append_right _ (List.mem_cons_of_mem i hj)
    · rw [hqueue, hpeers, hblocked, List.map_append]
      exact howed.remove List.perm_middle

/-- **Every step keeps the lists consistent**, with ports that obey the protocol. -/
theorem TokenWait.step (hmac : p.macProto = .token_pass) (h : TokenWait p r) {i : TrafficInput}
    (hobeys : r.Obeys i) (hstep : trafficStep p r i = some r') : TokenWait p r' := by
  cases i with
  | recv e dest pkt rnd ok busy =>
    simp only [trafficStep] at hstep
    split at hstep
    · cases hstep
    · cases hstep
      exact h.recv hmac hobeys dest pkt rnd ok busy
  | collisionCheck rnd =>
    -- there are no attempts
    obtain ⟨-, hstep⟩ := Option.ite_none_right_eq_some.1 hstep
    unfold Traffic.collisionCheck at hstep
    rw [h.attempts] at hstep
    cases hstep
  | collisionCheckReturn =>
    simp only [trafficStep] at hstep
    split at hstep
    · cases hstep
      unfold collisionCheckReturn
      split
      · exact ⟨h.seated, h.source, h.owed, h.attempts, fun hc => (nomatch hc)⟩
      · exact ⟨h.seated, h.source, h.owed, h.attempts, fun hc => (nomatch hc)⟩
    · cases hstep
  | tokenChange =>
    obtain ⟨-, hstep⟩ := Option.ite_none_right_eq_some.1 hstep
    exact h.tokenChange hstep
  | recvRetry dest =>
    obtain ⟨-, hstep⟩ := Option.ite_none_left_eq_some.1 hstep
    obtain ⟨q, hpeers, hxbar, -, hblocked⟩ := recvRetry_cases hstep
    refine ⟨?_, ?_, ?_, ?_, ?_⟩
    · rw [hxbar]
      exact h.seated
    · rw [hxbar]
      exact h.source
    · rw [hxbar, hblocked]
      exact h.owed.removePeer hpeers
    · rw [hxbar]
      exact h.attempts
    · rw [hxbar]
      exact h.control
  | releaseLayer type dest =>
    obtain ⟨-, hstep⟩ := Option.ite_none_right_eq_some.1 hstep
    obtain ⟨state, hxbar, hpeers, -, hblocked⟩ := releaseLayer_cases hstep
    refine ⟨?_, ?_, ?_, ?_, ?_⟩
    · rw [hxbar]
      exact h.seated.setState type dest state
    · rw [hxbar]
      exact h.source
    · rw [hxbar, hpeers, hblocked]
      exact h.owed
    · rw [hxbar]
      exact h.attempts
    · rw [hxbar]
      exact h.control
  | advance t =>
    simp only [trafficStep] at hstep
    split at hstep
    · cases hstep
      exact ⟨h.seated, h.source, h.owed, h.attempts, h.control⟩
    · cases hstep

/-! ## Runs -/

/-- The source ports of the entries of a layer. -/
def portsOf (l : List TokenPassPkt) (type : LayerType) (dest : PortID) : List Port :=
  (l.filter fun i => i.layerType = type ∧ i.destPort = dest).map (·.srcPort)

theorem seatsOf_map_seat (l : List TokenPassPkt) (type : LayerType) (dest : PortID) :
    seatsOf (l.map (·.seat)) type dest = portsOf l type dest := by
  unfold seatsOf portsOf
  rw [List.filter_map, List.map_map]
  rfl

/-- **The waiting lists of token passing are consistent** in every state reached with ports that obey the
protocol: the ports that wait for a layer are the source ports of the entries for it; a token change takes
the entry it has selected out of both lists; and no panic or assertion is reached. -/
theorem waitingForLayer_perm (hmac : p.macProto = .token_pass) (hrun : Reaches (trafficStep p) Traffic.Obeys {} r) :
    (∀ type dest, (r.xbar.layers type dest).waitingForLayer.Perm (portsOf r.xbar.pktToTransmitTPList type dest)) ∧
    (∀ i r', selected p r.xbar = some i → trafficStep p r .tokenChange = some r' →
      ∃ a b, r.xbar.pktToTransmitTPList = a ++ i :: b ∧ r'.xbar.pktToTransmitTPList = a ++ b ∧
        ∀ type dest, (r.xbar.layers type dest).waitingForLayer = portsOf (a ++ i :: b) type dest ∧
          (r'.xbar.layers type dest).waitingForLayer = portsOf (a ++ b) type dest) ∧ r.xbar.control ≠ .panicked := by
  have h : TokenWait p r := hrun.inv tokenWait_init fun _ _ _ h hobeys hstep => h.step hmac hobeys hstep
  have hports : ∀ {r : Traffic}, TokenWait p r → ∀ type dest,
      (r.xbar.layers type dest).waitingForLayer = portsOf r.xbar.pktToTransmitTPList type dest := by
    intro r h type dest
    rw [h.seated type dest, seatsOf_map_seat]
  refine ⟨fun type dest => .of_eq (hports h type dest), fun i r' hi hstep => ?_, h.control⟩
  have h' : TokenWait p r' := h.step (i := .tokenChange) hmac trivial hstep
  obtain ⟨-, hstep⟩ := Option.ite_none_right_eq_some.1 hstep
  rcases h.tokenChange_cases hstep with ⟨hnone, -⟩ | ⟨j, a, b, hj, hl, -, hqueue, -⟩
  · rw [hnone] at hi
    cases hi
  · obtain rfl : j = i := Option.some.inj (hj.symm.trans hi)
    refine ⟨a, b, hl, hqueue, fun type dest => ⟨?_, ?_⟩⟩
    · rw [← hl]
      exact hports h type dest
    · rw [← hqueue]
      exact hports h' type dest

/-- Slave port 0 is refused with a request and with a snoop response, both for port 0, while master port 0
has the token. -/
def bothWait : Traffic :=
  ([.recv (.req 0) 0 readReq 0 true 1, .recv (.snoop 0) 0 readResp 0 true 1, .advance 1].foldlM
    (trafficStep tokenParams) {}).get (by decide)

theorem waitingForLayer_perm_bothWait : bothWait.xbar.pktToTransmitTPList.length = 2 ∧
    (∀ type dest, (bothWait.xbar.layers type dest).waitingForLayer.Perm
      (portsOf bothWait.xbar.pktToTransmitTPList type dest)) ∧ (∀ i r', selected tokenParams bothWait.xbar = some i →
      trafficStep tokenParams bothWait .tokenChange = some r' →
      ∃ a b, bothWait.xbar.pktToTransmitTPList = a ++ i :: b ∧ r'.xbar.pktToTransmitTPList = a ++ b ∧
        ∀ type dest, (bothWait.xbar.layers type dest).waitingForLayer = portsOf (a ++ i :: b) type dest ∧
          (r'.xbar.layers type dest).waitingForLayer = portsOf (a ++ b) type dest) ∧
    bothWait.xbar.control ≠ .panicked := by
  have h0 : Reaches (trafficStep tokenParams) Traffic.Obeys {} {} := .refl
  have h1 := h0.step (i := TrafficInput.recv (.req 0) 0 readReq 0 true 1) rfl rfl
  have h2 := h1.step (i := TrafficInput.recv (.snoop 0) 0 readResp 0 true 1) rfl rfl
  have h3 := h2.step (i := TrafficInput.advance 1) trivial rfl
  exact ⟨by decide, waitingForLayer_perm (p := tokenParams) rfl h3⟩

end Alpine.Mem
