import Alpine.Mem.WirelessTraffic

/-!
# Draining a layer

`drain` looks at the state of a layer only.  A layer with ports that wait is busy, until `releaseLayer`
makes it idle: in exponential backoff it looks at `waitingForLayer` and not at `waitingForPeer`, in token
passing at neither.

* `tryTiming_layers` — a call makes its layer busy, whatever its outcome.
* `drain_sound_iff` — a layer that says it has drained has no port waiting, in every run in
  which a layer that a release makes idle has none; the first release that is different leaves one.
-/

namespace Alpine.Mem

open Alpine.Run XBar Traffic

variable {p : Params} {r r' : Traffic}

/-- The ports in the deque `waitingForPeer` of a layer. -/
def Traffic.peersOf (r : Traffic) (type : LayerType) (dest : PortID) : List Port :=
  if type = .REQ then (r.waitingForPeer.filter fun w => w.1 = dest).map Prod.snd else []

/-- No port waits, in either list of the layer. -/
def Traffic.Quiet (r : Traffic) (type : LayerType) (dest : PortID) : Prop :=
  (r.xbar.layers type dest).waitingForLayer = [] ∧ r.peersOf type dest = []

/-- A layer that says it has drained is quiet. -/
def Traffic.DrainSound (r : Traffic) : Prop :=
  ∀ type dest, (r.xbar.layers type dest).drain = .Drained → r.Quiet type dest

/-- A release that makes a layer idle finds it quiet. -/
def ReleasesQuiet (p : Params) (r : Traffic) : TrafficInput → Prop
  | .releaseLayer type dest => released p (r.xbar.layers type dest) = .IDLE → r.Quiet type dest
  | _ => True

theorem drained_iff (l : Layer) : l.drain = .Drained ↔ l.state = .IDLE := by
  unfold Layer.drain
  cases l.state with
  | IDLE => exact iff_of_true rfl rfl
  | BUSY => exact iff_of_false (fun h => nomatch h) (fun h => nomatch h)

/-! ## What the calls do to the layers -/

theorem tryTimingTP_layers (s : XBar) (c : Call) :
    ∃ ports, (s.tryTimingTP p c).1.layers = (s.occupied c ports).layers := by
  have hlayers := startTokens_layers (p := p)
    (s.setLayer c.layerType c.destPort { s.layers c.layerType c.destPort with state := .BUSY })
  unfold tryTimingTP
  dsimp only
  generalize (s.setLayer c.layerType c.destPort
    { s.layers c.layerType c.destPort with state := .BUSY }).startTokens p = t at hlayers ⊢
  split
  · exact ⟨_, hlayers⟩
  · split
    · obtain ⟨tick, hupdate⟩ := update_eq (p := p) t
      rw [hupdate]
      exact ⟨_, hlayers⟩
    · split
      · exact ⟨_, hlayers⟩
      · exact ⟨_, setLayer_twice hlayers _⟩

theorem tryTiming_layers (s : XBar) (c : Call) (rnd : UInt16) :
    ∃ ports, (s.tryTiming p c rnd).1.layers = (s.occupied c ports).layers := by
  unfold XBar.tryTiming
  split
  · rcases tryTimingEB_cases (p := p) s c rnd with ⟨-, ⟨i, -, hq⟩ | ⟨-, hq⟩⟩ | ⟨-, hq⟩
    · rw [hq]
      exact ⟨_, rfl⟩
    · rw [hq]
      exact ⟨_, rfl⟩
    · rw [hq]
      exact ⟨_, rfl⟩
  · exact tryTimingTP_layers s c

theorem expBackoffCollisionCheck_layers {s s' : XBar} {rnd : UInt16}
    (h : expBackoffCollisionCheck p s rnd = some s') : s'.layers = s.layers := by
  unfold expBackoffCollisionCheck at h
  split at h
  · cases h
  · split at h
    · cases h
    · dsimp only at h
      split at h
      · cases h
        rfl
      · cases h
        unfold transmitted triggerSendRetryEB
        dsimp only
        split
        · rfl
        · rfl

theorem triggerSendRetryTP_layers (s : XBar) (i : TokenPassPkt) (type : LayerType) (dest : PortID) :
    ((s.triggerSendRetryTP i).layers type dest).state = (s.layers type dest).state ∧
      ((s.triggerSendRetryTP i).layers type dest).waitingForLayer ⊆ (s.layers type dest).waitingForLayer := by
  have herase : ∀ l : Layer, l = ⟨(s.layers i.layerType i.destPort).state,
      (s.layers i.layerType i.destPort).waitingForLayer.erase i.srcPort⟩ →
      ((s.setLayer i.layerType i.destPort l).layers type dest).state = (s.layers type dest).state ∧
        ((s.setLayer i.layerType i.destPort l).layers type dest).waitingForLayer ⊆
          (s.layers type dest).waitingForLayer := by
    rintro l rfl
    unfold setLayer
    dsimp only
    split
    · rename_i hlayer
      obtain ⟨rfl, rfl⟩ := hlayer
      exact ⟨rfl, List.erase_subset⟩
    · exact ⟨rfl, List.Subset.refl _⟩
  unfold triggerSendRetryTP
  dsimp only
  split
  · split
    · exact herase _ rfl
    · exact herase _ rfl
  · exact ⟨rfl, List.Subset.refl _⟩

/-- A token change may take a port out of a waiting list. -/
theorem tokenChange_layers {s s' : XBar} (h : s.tokenChange p = some s') (type : LayerType)
    (dest : PortID) : (s'.layers type dest).state = (s.layers type dest).state ∧
      (s'.layers type dest).waitingForLayer ⊆ (s.layers type dest).waitingForLayer := by
  unfold XBar.tokenChange at h
  obtain ⟨tick, hupdate⟩ := update_eq (p := p) s
  split at h
  · cases h
  · rw [hupdate] at h
    dsimp only at h
    split at h
    · cases h
      exact ⟨rfl, List.Subset.refl _⟩
    · rename_i i _
      cases h
      exact triggerSendRetryTP_layers _ i type dest

/-! ## Steps -/

/-- Where a layer stays idle, the ports that wait there waited before. -/
def Calmer (r r' : Traffic) : Prop :=
  ∀ type dest, (r'.xbar.layers type dest).state = .IDLE →
    (r.xbar.layers type dest).state = .IDLE ∧
      (r'.xbar.layers type dest).waitingForLayer ⊆ (r.xbar.layers type dest).waitingForLayer ∧
      r'.peersOf type dest ⊆ r.peersOf type dest

theorem Calmer.drainSound (h : Calmer r r') (hsound : r.DrainSound) : r'.DrainSound := by
  intro type dest hdrain
  obtain ⟨hidle, hlayer, hpeer⟩ := h type dest ((drained_iff _).1 hdrain)
  obtain ⟨hnone, hnopeer⟩ := hsound type dest ((drained_iff _).2 hidle)
  rw [hnone] at hlayer
  rw [hnopeer] at hpeer
  exact ⟨List.subset_nil.1 hlayer, List.subset_nil.1 hpeer⟩

theorem Calmer.of_layers (hlayers : r'.xbar.layers = r.xbar.layers)
    (hpeers : r'.waitingForPeer ⊆ r.waitingForPeer) : Calmer r r' := by
  intro type dest hidle
  rw [hlayers] at hidle ⊢
  refine ⟨hidle, List.Subset.refl _, ?_⟩
  unfold Traffic.peersOf
  split
  · exact List.map_subset _ (List.filter_subset _ hpeers)
  · exact List.Subset.refl _

/-- The layer of a packet that comes in is busy. -/
theorem recv_calmer (r : Traffic) (e : Entry) (dest : PortID) (pkt : Packet) (rnd : UInt16) (ok : Bool)
    (busy : Nat) : Calmer r (r.recv p e dest pkt rnd ok busy) := by
  obtain ⟨ports, hlayers⟩ := tryTiming_layers (p := p) r.xbar (e.call p dest pkt) rnd
  intro type dest' hidle
  have hxbar : (r.recv p e dest pkt rnd ok busy).xbar.layers =
      (r.xbar.tryTiming p (e.call p dest pkt) rnd).1.layers := by
    unfold Traffic.recv
    dsimp only
    split
    · split
      · rfl
      · rfl
    · rfl
  have hother : ¬ (type = e.layerType ∧ dest' = dest) := by
    rintro ⟨rfl, rfl⟩
    rw [hxbar, hlayers] at hidle
    simp [occupied, setLayer, Entry.call] at hidle
  have hsame : (r.recv p e dest pkt rnd ok busy).xbar.layers type dest' = r.xbar.layers type dest' := by
    rw [hxbar, hlayers]
    exact if_neg hother
  rw [hsame] at hidle ⊢
  refine ⟨hidle, List.Subset.refl _, ?_⟩
  unfold Traffic.recv
  dsimp only
  split
  · split
    · rename_i hpeer
      have hreq : e.layerType = .REQ := by
        cases e with
        | req i => rfl
        | _ => simp [Entry.sendsOn] at hpeer
      show (if type = .REQ then ((r.waitingForPeer ++ [(dest, e.srcPort)]).filter
        fun w => w.1 = dest').map Prod.snd else []) ⊆ _
      unfold Traffic.peersOf
      split
      · rename_i htype
        have hdest : ¬ dest = dest' := fun hd => hother ⟨htype.trans hreq.symm, hd.symm⟩
        rw [List.filter_append, List.filter_cons_of_neg (by simpa using hdest), List.filter_nil, List.append_nil]
        exact List.Subset.refl _
      · exact List.Subset.refl _
    · exact List.Subset.refl _
  · exact List.Subset.refl _

/-- What a release leaves: the state of its layer, and every list as it was. -/
theorem releaseLayer_layers {type : LayerType} {dest : PortID} (h : r.releaseLayer p type dest = some r') :
    r'.waitingForPeer = r.waitingForPeer ∧ (r'.xbar.layers type dest).state = released p (r.xbar.layers type dest) ∧
      (∀ type' dest', (r'.xbar.layers type' dest').waitingForLayer = (r.xbar.layers type' dest').waitingForLayer) ∧
      ∀ type' dest', ¬ (type' = type ∧ dest' = dest) → r'.xbar.layers type' dest' = r.xbar.layers type' dest' := by
  unfold Traffic.releaseLayer at h
  dsimp only at h
  split at h
  · cases h
    refine ⟨rfl, ?_, fun type' dest' => ?_, fun type' dest' hother => if_neg hother⟩
    · show (if type = type ∧ dest = dest then _ else _ : Layer).state = _
      rw [if_pos ⟨rfl, rfl⟩]
    · show (if type' = type ∧ dest' = dest then _ else _ : Layer).waitingForLayer = _
      split
      · rename_i hlayer
        obtain ⟨rfl, rfl⟩ := hlayer
        rfl
      · rfl
  · cases h

theorem quiet_congr (hpeers : r'.waitingForPeer = r.waitingForPeer) {type : LayerType} {dest : PortID}
    (hlayer : (r'.xbar.layers type dest).waitingForLayer = (r.xbar.layers type dest).waitingForLayer) :
    r'.Quiet type dest ↔ r.Quiet type dest := by
  unfold Traffic.Quiet Traffic.peersOf
  rw [hpeers, hlayer]

/-- A release is sound when what it makes idle is quiet. -/
theorem releaseLayer_sound (hsound : r.DrainSound) {type : LayerType} {dest : PortID}
    (h : r.releaseLayer p type dest = some r') : r'.DrainSound ↔ ReleasesQuiet p r (.releaseLayer type dest) := by
  obtain ⟨hpeers, hstate, hlists, hother⟩ := releaseLayer_layers h
  constructor
  · intro hsound' hidle
    rw [← quiet_congr hpeers (hlists type dest)]
    exact hsound' type dest ((drained_iff _).2 (hstate.trans hidle))
  · intro hquiet type' dest' hdrain
    rw [quiet_congr hpeers (hlists type' dest')]
    have hidle := (drained_iff _).1 hdrain
    by_cases hlayer : type' = type ∧ dest' = dest
    · obtain ⟨rfl, rfl⟩ := hlayer
      exact hquiet (hstate.symm.trans hidle)
    · rw [hother type' dest' hlayer] at hidle
      exact hsound type' dest' ((drained_iff _).2 hidle)

theorem collisionCheck_calmer {rnd : UInt16} (h : r.collisionCheck p rnd = some r') : Calmer r r' := by
  unfold Traffic.collisionCheck at h
  split at h
  · rename_i hs
    have hlayers := expBackoffCollisionCheck_layers hs
    split at h
    · cases h
      exact .of_layers hlayers (List.Subset.refl _)
    · cases h
      exact .of_layers hlayers (List.Subset.refl _)
  · cases h

theorem tokenChange_calmer (h : r.tokenChange p = some r') : Calmer r r' := by
  unfold Traffic.tokenChange at h
  obtain ⟨s, hs, rfl⟩ := Option.map_eq_some_iff.1 h
  intro type dest hidle
  obtain ⟨hstate, hwait⟩ := tokenChange_layers hs type dest
  split at hidle
  · exact ⟨hstate.symm.trans hidle, hwait, List.Subset.refl _⟩
  · exact ⟨hstate.symm.trans hidle, hwait, List.Subset.refl _⟩

/-- **What a step does to a sound state**: it is sound again exactly when a layer that is released and
becomes idle is quiet. -/
theorem step_sound {i : TrafficInput} (hstep : trafficStep p r i = some r') (hsound : r.DrainSound) :
    r'.DrainSound ↔ ReleasesQuiet p r i := by
  cases i with
  | releaseLayer type dest =>
    obtain ⟨-, hstep⟩ := Option.ite_none_right_eq_some.1 hstep
    exact releaseLayer_sound hsound hstep
  | recv e dest pkt rnd ok busy =>
    simp only [trafficStep] at hstep
    split at hstep
    · cases hstep
    · cases hstep
      exact iff_of_true ((recv_calmer r e dest pkt rnd ok busy).drainSound hsound) trivial
  | collisionCheck rnd =>
    obtain ⟨-, hstep⟩ := Option.ite_none_right_eq_some.1 hstep
    exact iff_of_true ((collisionCheck_calmer hstep).drainSound hsound) trivial
  | collisionCheckReturn =>
    simp only [trafficStep] at hstep
    split at hstep
    · cases hstep
      have hlayers : r.xbar.collisionCheckReturn.layers = r.xbar.layers := by
        unfold collisionCheckReturn
        split
        · rfl
        · rfl
      have hcalmer : Calmer r { r with xbar := r.xbar.collisionCheckReturn } :=
        .of_layers hlayers (List.Subset.refl _)
      exact iff_of_true (hcalmer.drainSound hsound) trivial
    · cases hstep
  | tokenChange =>
    obtain ⟨-, hstep⟩ := Option.ite_none_right_eq_some.1 hstep
    exact iff_of_true ((tokenChange_calmer hstep).drainSound hsound) trivial
  | recvRetry dest =>
    obtain ⟨-, hstep⟩ := Option.ite_none_left_eq_some.1 hstep
    obtain ⟨q, hpeers, hxbar, -, -⟩ := recvRetry_cases hstep
    refine iff_of_true (Calmer.drainSound (.of_layers (congrArg XBar.layers hxbar) ?_) hsound) trivial
    exact fun w hw => hpeers.symm.subset (List.mem_cons_of_mem q hw)
  | advance t =>
    simp only [trafficStep] at hstep
    split at hstep
    · cases hstep
      exact iff_of_true (Calmer.drainSound (.of_layers rfl (List.Subset.refl _)) hsound) trivial
    · cases hstep

/-! ## Runs -/

theorem drainSound_init : Traffic.DrainSound {} := fun type dest _ => by
  refine ⟨rfl, ?_⟩
  unfold Traffic.peersOf
  split
  · rfl
  · rfl

/-- **Soundness of draining**, in both MAC modes and whatever the ports do: a layer that says it has drained
has no port waiting, in every run in which every release that makes a layer idle finds it quiet; the first
release that does not leaves a layer that has. -/
theorem drain_sound_iff (hrun : Reaches (trafficStep p) (ReleasesQuiet p) {} r) :
    r.DrainSound ∧ ∀ i r', trafficStep p r i = some r' → (r'.DrainSound ↔ ReleasesQuiet p r i) := by
  have hsound : r.DrainSound := hrun.inv drainSound_init fun _ _ _ hsound hquiet hstep =>
    (step_sound hstep hsound).2 hquiet
  exact ⟨hsound, fun i r' hstep => step_sound hstep hsound⟩

/-- Slave port 0 has had its request accepted, and the layer can be released. -/
def readDone : Traffic :=
  ([.recv (.req 0) 0 readReq 0 true 1, .advance 1, .collisionCheck 0, .recv (.req 0) 0 readReq 0 true 1,
    .collisionCheckReturn, .advance 2, .releaseLayer .REQ 0].foldlM (trafficStep backoffParams) {}).get
    (by decide)

theorem drain_sound_readDone : (readDone.xbar.layers .REQ 0).drain = .Drained ∧ readDone.DrainSound ∧
      ∀ i r', trafficStep backoffParams readDone i = some r' →
        (r'.DrainSound ↔ ReleasesQuiet backoffParams readDone i) := by
  have h0 : Reaches (trafficStep backoffParams) (ReleasesQuiet backoffParams) {} {} := .refl
  have h1 := h0.step (i := TrafficInput.recv (.req 0) 0 readReq 0 true 1) trivial rfl
  have h2 := h1.step (i := TrafficInput.advance 1) trivial rfl
  have h3 := h2.step (i := TrafficInput.collisionCheck 0) trivial rfl
  have h4 := h3.step (i := TrafficInput.recv (.req 0) 0 readReq 0 true 1) trivial rfl
  have h5 := h4.step (i := TrafficInput.collisionCheckReturn) trivial rfl
  have h6 := h5.step (i := TrafficInput.advance 2) trivial rfl
  have h7 := h6.step (i := TrafficInput.releaseLayer .REQ 0) (fun _ => ⟨rfl, rfl⟩) rfl
  exact ⟨rfl, drain_sound_iff h7⟩

/-- In exponential backoff, a request is accepted by its layer and refused by the port below, and the layer
is released; in token passing, another port waits for the token meanwhile. -/
theorem drained_with_port_waiting : (∃ r, Reaches (trafficStep backoffParams) Traffic.Obeys {} r ∧
      (r.xbar.layers .REQ 0).drain = .Drained ∧ r.peersOf .REQ 0 = [.slave 0]) ∧
    ∃ r, Reaches (trafficStep tokenParams) Traffic.Obeys {} r ∧
      (r.xbar.layers .REQ 0).drain = .Drained ∧ (r.xbar.layers .REQ 0).waitingForLayer = [.slave 1] := by
  constructor
  · have h0 : Reaches (trafficStep backoffParams) Traffic.Obeys {} {} := .refl
    have h1 := h0.step (i := TrafficInput.recv (.req 0) 0 readReq 0 true 1) rfl rfl
    have h2 := h1.step (i := TrafficInput.advance 1) trivial rfl
    have h3 := h2.step (i := TrafficInput.collisionCheck 0) trivial rfl
    have h4 := h3.step (i := TrafficInput.recv (.req 0) 0 readReq 0 false 1) rfl rfl
    have h5 := h4.step (i := TrafficInput.collisionCheckReturn) trivial rfl
    have h6 := h5.step (i := TrafficInput.advance 2) trivial rfl
    exact ⟨_, h6.step (i := TrafficInput.releaseLayer .REQ 0) trivial rfl, rfl, rfl⟩
  · have h0 : Reaches (trafficStep tokenParams) Traffic.Obeys {} {} := .refl
    have h1 := h0.step (i := TrafficInput.recv (.req 0) 0 readReq 0 true 1) rfl rfl
    have h2 := h1.step (i := TrafficInput.advance 1) trivial rfl
    have h3 := h2.step (i := TrafficInput.tokenChange) trivial rfl
    have h4 := h3.step (i := TrafficInput.recv (.req 0) 0 readReq 0 true 1) rfl rfl
    have h5 := h4.step (i := TrafficInput.recv (.req 1) 0 readReq 0 true 1) rfl rfl
    have h6 := h5.step (i := TrafficInput.advance 2) trivial rfl
    exact ⟨_, h6.step (i := TrafficInput.releaseLayer .REQ 0) trivial rfl, rfl, rfl⟩

end Alpine.Mem
