import Alpine.Cpu.StoreQueueSend

/-!
# Write-back keeps the invariant

The functions that send packets.  Each leaves the unit with nothing to send for the store at the write-back index,
or with its next packet kept (`Registers`), and none of the assertions on the packets that are kept fails.
-/

namespace Alpine.Cpu.Lsq

variable {c : Config} {p : Program} {lsq lsq' : LSQUnit} {e : Nat → SQEntry} {H W i : Nat} {busy : Bool}
  {accept : Packet → Bool} {handleLockedWrite : Nat → Bool} {pkt : Packet}

/-! ## Single packets -/

theorem sendLast_accepted (hacc : accept pkt = true) :
    lsq.sendLast c accept pkt = some ((lsq.take pkt).storePostSend c) := by
  rw [LSQUnit.sendLast, LSQUnit.sendStore, if_pos hacc]
  rfl

theorem sendLast_refused (hacc : accept pkt = false) (hretry : lsq.retryPkt = none) :
    lsq.sendLast c accept pkt = some { lsq with isStoreBlocked := true, retryPkt := some pkt } := by
  rw [LSQUnit.sendLast, LSQUnit.sendStore, if_neg (by rw [hacc]; exact Bool.false_ne_true),
    if_neg (by rw [hretry]; exact fun hne => hne rfl)]
  rfl

/-- Where the write-back index is does not matter for the head. -/
theorem moveHead_frame (storeWBIdx : Nat) (storeInFlight : Bool) : ∀ (fuel : Nat) (lsq : LSQUnit),
      LSQUnit.moveHead c fuel { lsq with storeWBIdx := storeWBIdx, storeInFlight := storeInFlight } =
        (LSQUnit.moveHead c fuel lsq).map fun s =>
          { s with storeWBIdx := storeWBIdx, storeInFlight := storeInFlight }
  | 0, _ => rfl
  | fuel + 1, lsq => by
    unfold LSQUnit.moveHead
    simp only
    split
    · exact moveHead_frame storeWBIdx storeInFlight fuel
        { lsq with storeHead := LSQUnit.incrStIdx c lsq.storeHead, stores := lsq.stores - 1 }
    · rfl

theorem moveHead_keeps {fuel : Nat} (h : LSQUnit.moveHead c fuel lsq = some lsq') :
    lsq'.storeWBIdx = lsq.storeWBIdx ∧ lsq'.storeInFlight = lsq.storeInFlight := by
  have hframe : LSQUnit.moveHead c fuel lsq = (LSQUnit.moveHead c fuel lsq).map fun s =>
      { s with storeWBIdx := lsq.storeWBIdx, storeInFlight := lsq.storeInFlight } :=
    moveHead_frame lsq.storeWBIdx lsq.storeInFlight fuel lsq
  rw [h] at hframe
  have hidx := congrArg LSQUnit.storeWBIdx (Option.some.inj hframe)
  have hfl := congrArg LSQUnit.storeInFlight (Option.some.inj hframe)
  exact ⟨hidx, hfl⟩

/-- The head moves, and then the write-back index, or the other way round. -/
theorem moveHead_postSend (lsq : LSQUnit) (first : Prop) [Decidable first] :
    ((if first then LSQUnit.moveHead c c.SQEntries lsq else some lsq).map fun s =>
        { s with storeInFlight := s.storeInFlight && !c.needsTSO }).map
          (fun s => { s with storeWBIdx := LSQUnit.incrStIdx c s.storeWBIdx }) =
      (if first then LSQUnit.moveHead c c.SQEntries (lsq.storePostSend c) else some (lsq.storePostSend c)).map fun s =>
        { s with storeInFlight := s.storeInFlight && !c.needsTSO } := by
  have hflag : ∀ x t : Bool, ((x || t) && !t) = (x && !t) := by decide
  split
  · have hframe : LSQUnit.moveHead c c.SQEntries (lsq.storePostSend c) =
        (LSQUnit.moveHead c c.SQEntries lsq).map fun s =>
          { s with storeWBIdx := LSQUnit.incrStIdx c lsq.storeWBIdx, storeInFlight := lsq.storeInFlight || c.needsTSO } :=
      moveHead_frame _ _ _ lsq
    rw [hframe]
    cases hmove : LSQUnit.moveHead c c.SQEntries lsq with
    | none => rfl
    | some s =>
      obtain ⟨hidx, hfl⟩ := moveHead_keeps hmove
      simp only [Option.map_some, hidx, hfl, hflag]
  · simp only [Option.map_some, LSQUnit.storePostSend, hflag]

/-- A store that completes at once may as well be sent first. -/
theorem completeHere_eq (lsq : LSQUnit) :
    lsq.completeHere c = (lsq.storePostSend c).completeStore c lsq.storeWBIdx := by
  unfold LSQUnit.completeHere LSQUnit.completeStore
  cases hinst : (lsq.storeQueue lsq.storeWBIdx).inst with
  | none =>
    have hinst' : ((lsq.storePostSend c).storeQueue lsq.storeWBIdx).inst = none := hinst
    rw [hinst']
    rfl
  | some inst =>
    have hinst' : ((lsq.storePostSend c).storeQueue lsq.storeWBIdx).inst = some inst := hinst
    rw [hinst', Option.bind_some, Option.bind_some]
    exact moveHead_postSend _ _

theorem recvRetry_refused (hblocked : lsq.isStoreBlocked = true) (hretry : lsq.retryPkt = some pkt)
    (hacc : accept pkt = false) : lsq.recvRetry c accept = some lsq := by
  rw [LSQUnit.recvRetry, if_pos hblocked, hretry, Option.bind_some]
  exact if_neg (by rw [hacc]; exact Bool.false_ne_true)

theorem recvRetry_last (hblocked : lsq.isStoreBlocked = true) (hretry : lsq.retryPkt = some pkt)
    (hacc : accept pkt = true) (hlast : (lsq.senderState pkt.seqNum).pktToSend = false ∨
      (lsq.senderState pkt.seqNum).pendingPacket = some pkt) :
    lsq.recvRetry c accept = some { ((lsq.take pkt).setState pkt.seqNum
      { lsq.senderState pkt.seqNum with pktToSend := false }).storePostSend c with
        retryPkt := none, isStoreBlocked := false } := by
  rw [LSQUnit.recvRetry, if_pos hblocked, hretry, Option.bind_some]
  have hlast : (!(lsq.senderState pkt.seqNum).pktToSend) = true ∨
      (lsq.senderState pkt.seqNum).pendingPacket = some pkt := by
    rwa [Bool.not_eq_true']
  simp only [hacc, if_true, if_pos hlast]
  refine if_neg ?_
  simp only [LSQUnit.setState, LSQUnit.storePostSend, Function.update_self, Bool.false_eq_true, not_false_eq_true]

theorem recvRetry_first (hblocked : lsq.isStoreBlocked = true) (hretry : lsq.retryPkt = some pkt)
    (hacc : accept pkt = true) (hsend : (lsq.senderState pkt.seqNum).pktToSend = true) {pkt' : Packet}
    (hpending : (lsq.senderState pkt.seqNum).pendingPacket = some pkt') (hne : pkt' ≠ pkt) : lsq.recvRetry c accept =
      { lsq.take pkt with retryPkt := none, isStoreBlocked := false }.sendLast c accept pkt' := by
  rw [LSQUnit.recvRetry, if_pos hblocked, hretry, Option.bind_some]
  have hnot : ¬ ((!(lsq.senderState pkt.seqNum).pktToSend) = true ∨
      (lsq.senderState pkt.seqNum).pendingPacket = some pkt) := by
    rw [hsend, hpending]
    rintro (hf | heq)
    · cases hf
    · exact hne (Option.some.inj heq)
  simp only [hacc, if_true, if_neg hnot]
  exact (if_pos hsend).trans (by rw [hpending, Option.bind_some])

theorem numSent_take (lsq : LSQUnit) (i k : Nat) : numSent (lsq.take ⟨i, k⟩).log i = numSent lsq.log i + 1 := by
  refine (numSent_accepted _ _ _).trans ?_
  rw [if_pos rfl]

theorem packets_of_pos (hpos : 0 < p.packets W) :
    p.packets W = if ((p.request (p.sn W)).map Request.isSplit).getD false = true then 2 else 1 := by
  unfold Program.packets at *
  cases hreq : p.request (p.sn W) with
  | none =>
    rw [hreq] at hpos
    cases hpos
  | some req =>
    rw [hreq] at hpos
    have hnot : ¬ (req.size % 256 = 0 ∨ req.isMmappedIpr = true) := by
      intro hzero
      rw [numPackets, if_pos hzero] at hpos
      cases hpos
    exact if_neg hnot

namespace Core

/-- The second packet of the store at `W` is sent: then nothing is kept, or that packet. -/
theorem sendSecond (hn : 0 < c.SQEntries) (accept : Packet → Bool) (h : Core c p lsq e H W true)
    (hsplit : ((p.request (p.sn W)).map Request.isSplit).getD false = true) (hk : numSent lsq.log (p.sn W) = 1)
    (hpackets : p.packets W = 2) (hidle : Idle lsq) (hstate : (lsq.senderState (p.sn W)).pktToSend = false ∨
      (lsq.senderState (p.sn W)).pendingPacket = some ⟨p.sn W, 1⟩) :
    ∃ lsq', lsq.sendLast c accept ⟨p.sn W, 1⟩ = some lsq' ∧ ((Core c p lsq' e H (W + 1) false ∧ Idle lsq') ∨
        (Core c p lsq' e H W true ∧ Registers p lsq' W true ∧ lsq'.isStoreBlocked = true)) := by
  cases hacc : accept ⟨p.sn W, 1⟩ with
  | true =>
    have hlast := h.takeLast hn (by omega)
    rw [hk] at hlast
    exact ⟨_, sendLast_accepted hacc, .inl ⟨hlast, hidle.blocked, hidle.retry, hidle.pending⟩⟩
  | false =>
    refine ⟨_, sendLast_refused hacc hidle.retry, .inr ⟨?_, ⟨?_, ?_⟩, rfl⟩⟩
    · exact h.frame rfl ⟨rfl, rfl, rfl⟩ ⟨rfl, rfl⟩ rfl ⟨rfl, rfl⟩ rfl fun _ => ⟨rfl, rfl⟩
    · exact .second hk hsplit rfl rfl hidle.pending hstate
    · show numSent lsq.log (p.sn W) < p.packets W
      omega

theorem takeFirst (h : Core c p lsq e H W true) (hzero : numSent lsq.log (p.sn W) = 0) (hpos : 0 < p.packets W) :
    Core c p (lsq.take ⟨p.sn W, 0⟩) e H W true := by
  have htake := h.take (by omega)
  rwa [hzero] at htake

theorem sendPackets (hn : 0 < c.SQEntries) (accept : Packet → Bool) (h : Core c p lsq e H W true) {split : Bool}
    (hsplit : ((p.request (p.sn W)).map Request.isSplit).getD false = split)
    (hzero : numSent lsq.log (p.sn W) = 0) (hpos : 0 < p.packets W) (hidle : Idle lsq)
    (hstate : (lsq.senderState (p.sn W)).pktToSend = false) :
    ∃ lsq', lsq.sendPackets c accept (p.sn W) split = some lsq' ∧ ((Core c p lsq' e H (W + 1) false ∧ Idle lsq') ∨
        (Core c p lsq' e H W true ∧ Registers p lsq' W true ∧
          (lsq'.isStoreBlocked = true ∨ c.cacheStorePorts ≤ lsq'.usedStorePorts))) := by
  unfold LSQUnit.sendPackets LSQUnit.sendStore
  cases hacc : accept ⟨p.sn W, 0⟩ with
  | false =>
    -- the first packet is refused
    rw [if_neg Bool.false_ne_true, if_neg (by rw [hidle.retry]; exact fun hne => hne rfl), Option.bind_some]
    cases split with
    | false =>
      refine ⟨_, rfl, .inr ⟨?_, ⟨?_, ?_⟩, .inl rfl⟩⟩
      · exact h.frame rfl ⟨rfl, rfl, rfl⟩ ⟨rfl, rfl⟩ rfl ⟨rfl, rfl⟩ rfl fun _ => ⟨rfl, rfl⟩
      · rw [hsplit]
        exact .first hzero rfl rfl hidle.pending ⟨hstate, fun hs => by cases hs⟩
      · exact hzero.le.trans_lt hpos
    | true =>
      refine ⟨_, rfl, .inr ⟨?_, ⟨?_, ?_⟩, .inl rfl⟩⟩
      · refine h.frame rfl ⟨rfl, rfl, rfl⟩ ⟨rfl, rfl⟩ rfl ⟨rfl, rfl⟩ rfl fun i => ?_
        by_cases hi : i = p.sn W
        · simp only [LSQUnit.setState, hi, if_true, Function.update_self, and_self]
        · simp only [LSQUnit.setState, if_true, Function.update_of_ne hi, and_self]
      · rw [hsplit]
        refine .first hzero rfl rfl hidle.pending ?_
        simp only [LSQUnit.setState, if_true, Function.update_self, implies_true, and_self]
      · exact hzero.le.trans_lt hpos
  | true =>
    have htake := h.takeFirst hzero hpos
    have hone : numSent (lsq.take ⟨p.sn W, 0⟩).log (p.sn W) = 1 := by
      rw [numSent_take, hzero]
    rw [if_pos rfl, Option.bind_some]
    cases split with
    | false =>
      have hlast := h.takeLast hn (by rw [hzero, packets_of_pos hpos, hsplit]; rfl)
      rw [hzero] at hlast
      exact ⟨_, rfl, .inl ⟨hlast, hidle.blocked, hidle.retry, hidle.pending⟩⟩
    | true =>
      have hpackets : p.packets W = 2 := by
        rw [packets_of_pos hpos, hsplit]
        rfl
      by_cases hport : lsq.usedStorePorts < c.cacheStorePorts
      · have hused : Core c p { lsq.take ⟨p.sn W, 0⟩ with usedStorePorts := lsq.usedStorePorts + 1 } e H W true :=
          htake.frame rfl ⟨rfl, rfl, rfl⟩ ⟨rfl, rfl⟩ rfl ⟨rfl, rfl⟩ rfl fun _ => ⟨rfl, rfl⟩
        obtain ⟨lsq', hrun, hpost⟩ := hused.sendSecond hn accept hsplit hone hpackets
          ⟨hidle.blocked, hidle.retry, hidle.pending⟩ (.inl hstate)
        refine ⟨lsq', ?_, hpost.imp id fun hp => ⟨hp.1, hp.2.1, .inl hp.2.2⟩⟩
        exact (if_pos hport).trans hrun
      · -- there is no port for the second packet
        refine ⟨_, (if_neg hport).trans (if_neg fun hne => hne hidle.pending.2), .inr ⟨?_, ⟨?_, ?_⟩, .inr ?_⟩⟩
        · exact htake.frame rfl ⟨rfl, rfl, rfl⟩ ⟨rfl, rfl⟩ rfl ⟨rfl, rfl⟩ rfl fun _ => ⟨rfl, rfl⟩
        · exact .port hone hsplit hidle.blocked hidle.retry ⟨rfl, rfl⟩ hstate
        · exact hone.le.trans_lt (by omega)
        · exact Nat.le_of_not_lt hport

theorem writebackPendingStore (hn : 0 < c.SQEntries) (accept : Packet → Bool) (h : Core c p lsq e H W busy)
    (hreg : Registers p lsq W busy) :
    ∃ lsq' W' busy', lsq.writebackPendingStore c accept = some lsq' ∧ Core c p lsq' e H W' busy' ∧
      Registers p lsq' W' busy' ∧ (busy' = true → lsq'.isStoreBlocked = true) := by
  unfold LSQUnit.writebackPendingStore
  cases busy with
  | false =>
    refine ⟨lsq, W, false, if_neg ?_, h, hreg, fun hb => by cases hb⟩
    rw [hreg.pending.1]
    exact Bool.false_ne_true
  | true =>
    obtain ⟨hheld, hlt⟩ := hreg
    have hkept : lsq.hasPendingPkt = false → lsq.isStoreBlocked = true → ∃ lsq' W' busy',
        (if lsq.hasPendingPkt = true then lsq.pendingPkt.bind fun pkt => (lsq.sendLast c accept pkt).map fun s =>
          { s with pendingPkt := none, hasPendingPkt := false } else some lsq) = some lsq' ∧
        Core c p lsq' e H W' busy' ∧ Registers p lsq' W' busy' ∧ (busy' = true → lsq'.isStoreBlocked = true) := by
      intro hpending hblocked
      refine ⟨lsq, W, true, if_neg ?_, h, ⟨hheld, hlt⟩, fun _ => hblocked⟩
      rw [hpending]
      exact Bool.false_ne_true
    cases hheld with
    | first hk blocked retry pending state => exact hkept pending.1 blocked
    | second hk hsplit blocked retry pending state => exact hkept pending.1 blocked
    | port hk hsplit blocked retry pending state =>
      have hpackets : p.packets W = 2 := by
        rw [packets_of_pos (Nat.zero_lt_of_lt hlt), hsplit]
        rfl
      rw [if_pos pending.1, pending.2, Option.bind_some]
      cases hacc : accept ⟨p.sn W, 1⟩ with
      | true =>
        have hlast := h.takeLast hn (by omega)
        rw [hk] at hlast
        refine ⟨_, W + 1, false, congrArg (Option.map _) (sendLast_accepted hacc), ?_,
          ⟨blocked, retry, rfl, rfl⟩, fun hb => by cases hb⟩
        exact hlast.frame rfl ⟨rfl, rfl, rfl⟩ ⟨rfl, rfl⟩ rfl ⟨rfl, rfl⟩ rfl fun _ => ⟨rfl, rfl⟩
      | false =>
        refine ⟨_, W, true, congrArg (Option.map _) (sendLast_refused hacc retry), ?_,
          ⟨.second hk hsplit rfl rfl ⟨rfl, rfl⟩ (.inl state), hlt⟩, fun _ => rfl⟩
        exact h.frame rfl ⟨rfl, rfl, rfl⟩ ⟨rfl, rfl⟩ rfl ⟨rfl, rfl⟩ rfl fun _ => ⟨rfl, rfl⟩

/-- The cache says that a packet it has refused may be sent again. -/
theorem recvRetry (hn : 0 < c.SQEntries) (accept : Packet → Bool) (h : Core c p lsq e H W busy)
    (hreg : Registers p lsq W busy) :
    ∃ lsq' W' busy', lsq.recvRetry c accept = some lsq' ∧ Core c p lsq' e H W' busy' ∧ Registers p lsq' W' busy' := by
  cases busy with
  | false =>
    refine ⟨lsq, W, false, ?_, h, hreg⟩
    rw [LSQUnit.recvRetry, if_neg ?_]
    rw [hreg.blocked]
    exact Bool.false_ne_true
  | true =>
    obtain ⟨hheld, hlt⟩ := hreg
    have hpos : 0 < p.packets W := Nat.zero_lt_of_lt hlt
    -- the packet is the last one of the store at `W`
    have hlast : ∀ k, numSent lsq.log (p.sn W) = k → k + 1 = p.packets W →
        lsq.hasPendingPkt = false ∧ lsq.pendingPkt = none →
        Core c p { ((lsq.take ⟨p.sn W, k⟩).setState (p.sn W)
          { lsq.senderState (p.sn W) with pktToSend := false }).storePostSend c with
            retryPkt := none, isStoreBlocked := false } e H (W + 1) false := by
      rintro k rfl hk hpending
      refine (h.takeLast hn hk).frame rfl ⟨rfl, rfl, rfl⟩ ⟨rfl, rfl⟩ rfl ⟨rfl, rfl⟩ rfl fun i => ?_
      by_cases hi : i = p.sn W
      · simp only [LSQUnit.setState, LSQUnit.storePostSend, LSQUnit.take, hi, Function.update_self, and_self]
      · simp only [LSQUnit.setState, LSQUnit.storePostSend, LSQUnit.take, Function.update_of_ne hi, and_self]
    cases hheld with
    | first hk blocked retry pending state =>
      cases hacc : accept ⟨p.sn W, 0⟩ with
      | false =>
        exact ⟨lsq, W, true, recvRetry_refused blocked retry hacc, h, .first hk blocked retry pending state, hlt⟩
      | true =>
        cases hsplit : ((p.request (p.sn W)).map Request.isSplit).getD false with
        | false =>
          rw [hsplit] at state
          have hpackets : p.packets W = 1 := by
            rw [packets_of_pos hpos, hsplit]
            rfl
          exact ⟨_, W + 1, false, recvRetry_last blocked retry hacc (.inl state.1),
            hlast 0 hk hpackets.symm pending, rfl, rfl, pending⟩
        | true =>
          rw [hsplit] at state
          have hpackets : p.packets W = 2 := by
            rw [packets_of_pos hpos, hsplit]
            rfl
          have htake : Core c p { lsq.take ⟨p.sn W, 0⟩ with retryPkt := none, isStoreBlocked := false }
              e H W true :=
            (h.takeFirst hk hpos).frame rfl ⟨rfl, rfl, rfl⟩ ⟨rfl, rfl⟩ rfl ⟨rfl, rfl⟩ rfl
              fun _ => ⟨rfl, rfl⟩
          have hone : numSent (lsq.take ⟨p.sn W, 0⟩).log (p.sn W) = 1 := by
            rw [numSent_take, hk]
          have hpend := state.2 rfl
          obtain ⟨lsq', hrun, hpost⟩ := htake.sendSecond hn accept hsplit hone hpackets ⟨rfl, rfl, pending⟩
            (.inr hpend)
          have hrun := (recvRetry_first blocked retry hacc state.1 hpend (by simp)).trans hrun
          rcases hpost with ⟨hcore, hidle⟩ | ⟨hcore, hreg, -⟩
          · exact ⟨lsq', W + 1, false, hrun, hcore, hidle⟩
          · exact ⟨lsq', W, true, hrun, hcore, hreg⟩
    | second hk hsplit blocked retry pending state =>
      have hpackets : p.packets W = 2 := by
        rw [packets_of_pos hpos, hsplit]
        rfl
      cases hacc : accept ⟨p.sn W, 1⟩ with
      | false =>
        exact ⟨lsq, W, true, recvRetry_refused blocked retry hacc, h,
          .second hk hsplit blocked retry pending state, hlt⟩
      | true =>
        exact ⟨_, W + 1, false, recvRetry_last blocked retry hacc state, hlast 1 hk hpackets.symm pending,
          rfl, rfl, pending⟩
    | port hk hsplit blocked retry pending state =>
      refine ⟨lsq, W, true, ?_, h, .port hk hsplit blocked retry pending state, hlt⟩
      rw [LSQUnit.recvRetry, if_neg ?_]
      rw [blocked]
      exact Bool.false_ne_true

/-! ## Stores that complete at once -/

theorem completeHere (hn : 0 < c.SQEntries) (h : Core c p lsq e H W busy) (hWT : W < p.order.length)
    (hcan : (e W).canWB = true) (htso : c.needsTSO = true → lsq.storeInFlight = false) {evs : List Event}
    (hevs : evs = [] ∧ p.packets W = 0 ∨ evs = [.failed (p.sn W)])
    (hzero : numSent lsq.log (p.sn W) = 0) (hidle : Idle lsq) :
    ∃ lsq' e' H', { lsq with log := lsq.log ++ evs }.completeHere c = some lsq' ∧
      Core c p lsq' e' H' (W + 1) false ∧ Idle lsq' := by
  have hevs : evs = [] ∧ numSent lsq.log (p.sn W) = p.packets W ∨
      evs = [.failed (p.sn W)] ∧ numSent lsq.log (p.sn W) = 0 :=
    hevs.imp (fun ⟨hnil, hnone⟩ => ⟨hnil, hzero.trans hnone.symm⟩) fun heq => ⟨heq, hzero⟩
  have hmove := h.move hn hWT hcan htso hevs
  have hHW := h.layout.le.1
  obtain ⟨lsq', e', H', hrun, hsame, hcore⟩ := hmove.completeStore hn hHW (Nat.lt_succ_self W)
    (h.flags.waiting W (Nat.le_refl W) hWT) (h.traffic.no_response hzero)
  refine ⟨lsq', e', H', ?_, hcore, hsame.idle ⟨hidle.blocked, hidle.retry, hidle.pending⟩⟩
  rw [completeHere_eq]
  rw [← h.layout.idx.2.1] at hrun
  exact hrun

theorem startStore (hn : 0 < c.SQEntries) (hbyte : c.SQEntries ≤ 256) (h : Core c p lsq e H W false)
    (hWT : W < p.order.length) (hcan : (e W).canWB = true) (htso : c.needsTSO = true → lsq.storeInFlight = false)
    (hstate : 0 < p.packets W → (if (e W).isSplit = true then 2 else 1) = p.packets W) :
    Core c p (lsq.startStore (e W) (p.sn W)) (Function.update e W { e W with committed := true }) H W true ∧
      numSent (lsq.startStore (e W) (p.sn W)).log (p.sn W) = 0 ∧
      ((lsq.startStore (e W) (p.sn W)).senderState (p.sn W)).pktToSend = false := by
  have hHW := h.layout.le.1
  have hsorted : ∀ a < W, p.sn a < p.sn W := fun a ha => h.layout.sorted a W ha hWT
  have hidx : W % c.SQEntries % 256 = W % c.SQEntries := Nat.mod_eq_of_lt ((Nat.mod_lt W hn).trans_le hbyte)
  obtain ⟨htraffic, hzero⟩ := h.traffic.start hsorted htso
    ⟨W % c.SQEntries % 256, if (e W).isSplit = true then 2 else 1, (e W).isSplit, false, none⟩
    fun hpos => ⟨hstate hpos, hidx⟩
  have hother : ∀ a, (Function.update e W { e W with committed := true } a).canWB = (e a).canWB ∧
      (Function.update e W { e W with committed := true } a).completed = (e a).completed :=
    fun a => ⟨update_same SQEntry.canWB (by rfl) a, update_same SQEntry.completed (by rfl) a⟩
  unfold LSQUnit.startStore
  rw [h.layout.idx.2.1]
  refine ⟨⟨?_, ?_, ?_⟩, hzero, ?_⟩
  · have hok : EntryOk p W { e W with committed := true } := (h.layout.entry W hWT).flags _ true _
    refine (h.layout.update hHW hWT hok).frame rfl ⟨rfl, ?_, rfl⟩ rfl rfl
    exact h.layout.idx.2.1.symm
  · obtain ⟨hreleased, hclosed, hcanW, -, hcommitted, hleft, hwaiting, hhead, hwbcount⟩ := h.flags
    refine ⟨fun a ha => ?_, fun a b hab hb hcb => ?_, fun a ha => (hother a).1.trans (hcanW a ha),
      fun _ => ⟨hWT, (hother W).1.trans hcan⟩, fun a ha ha' => ?_, fun a ha => (hother a).2.trans (hleft a ha),
      fun a ha ha' => (hother a).2.trans (hwaiting a ha ha'), fun hH => (hother H).2.trans (hhead hH), ?_⟩
    · rw [(hother a).1]
      exact hreleased a ha
    · rw [(hother b).1] at hcb
      rw [(hother a).1]
      exact hclosed a b hab hb hcb
    · by_cases haW : a = W
      · rw [haW, Function.update_self]
        exact iff_of_true rfl ⟨rfl, rfl⟩
      · rw [Function.update_of_ne haW, hcommitted a ha ha']
        exact iff_of_false (fun ⟨heq, _⟩ => haW heq) fun ⟨heq, _⟩ => haW heq
    · exact hwbcount.trans (congrArg Nat.cast (toWB_congr fun a _ => hother a).symm)
  · exact (htraffic.congr fun a _ => ⟨rfl, rfl, (hother a).2⟩).frame rfl rfl rfl fun _ => ⟨rfl, rfl⟩
  · simp only [LSQUnit.setState, Function.update_self]

/-! ## The loop of write-back -/

/-- The store at `W` has been started: the index moves on, or a packet is kept and the loop stops. -/
theorem finishStore (hn : 0 < c.SQEntries) (accept : Packet → Bool) (handleLockedWrite : Nat → Bool)
    (h : Core c p lsq e H W true) (hidle : Idle lsq) (hzero : numSent lsq.log (p.sn W) = 0)
    (hstate : (lsq.senderState (p.sn W)).pktToSend = false) {inst : DynInst} (hsn : inst.seqNum = p.sn W)
    {req : Request} (hreq : p.request (p.sn W) = some req) (hsize : req.size % 256 ≠ 0)
    (hsc : inst.isStoreConditional = true → req.isSplit = false ∧ req.isMmappedIpr = false) :
    ∃ lsq' e' H', lsq.finishStore c accept handleLockedWrite inst req req.isSplit = some lsq' ∧
      ((Core c p lsq' e' H' (W + 1) false ∧ Idle lsq') ∨ (Core c p lsq' e' H' W true ∧ Registers p lsq' W true ∧
          (lsq'.isStoreBlocked = true ∨ c.cacheStorePorts ≤ lsq'.usedStorePorts))) := by
  obtain ⟨hWT, hcan⟩ := h.flags.started rfl
  have htso : c.needsTSO = true → lsq.storeInFlight = false := fun hc => (h.traffic.needsTSO hc).2.2 rfl
  have hpackets : p.packets W = if req.isMmappedIpr = true then 0 else if req.isSplit = true then 2 else 1 := by
    unfold Program.packets numPackets
    rw [hreq]
    simp only [hsize, false_or]
  have hnosplit : ¬ (inst.isStoreConditional = true ∧ req.isSplit = true) := by
    rintro ⟨hc, hs⟩
    rw [(hsc hc).1] at hs
    cases hs
  unfold LSQUnit.finishStore
  rw [if_neg hnosplit, hsn]
  by_cases hfail : inst.isStoreConditional = true ∧ (!handleLockedWrite (p.sn W)) = true
  · rw [if_pos hfail]
    obtain ⟨lsq', e', H', hrun, hpost⟩ := h.completeHere hn hWT hcan htso (.inr rfl) hzero hidle
    exact ⟨lsq', e', H', hrun, .inl hpost⟩
  · rw [if_neg hfail]
    by_cases hipr : req.isMmappedIpr = true
    · have hnot : ¬ inst.isStoreConditional = true := by
        intro hc
        rw [(hsc hc).2] at hipr
        cases hipr
      rw [if_pos hipr, if_neg hnot]
      obtain ⟨lsq', e', H', hrun, hpost⟩ :=
        h.completeHere hn hWT hcan htso (.inl ⟨rfl, hpackets.trans (if_pos hipr)⟩) hzero hidle
      rw [List.append_nil] at hrun
      exact ⟨lsq', e', H', hrun, .inl hpost⟩
    · rw [if_neg hipr]
      have hpos : 0 < p.packets W := by
        rw [hpackets, if_neg hipr]
        split <;> omega
      have hsplit : ((p.request (p.sn W)).map Request.isSplit).getD false = req.isSplit := by
        rw [hreq]
        rfl
      obtain ⟨lsq', hrun, hpost⟩ := h.sendPackets hn accept hsplit hzero hpos hidle hstate
      exact ⟨lsq', e, H, hrun, hpost⟩

theorem writebackStore (hn : 0 < c.SQEntries) (hbyte : c.SQEntries ≤ 256) (accept : Packet → Bool)
    (handleLockedWrite : Nat → Bool) (h : Core c p lsq e H W false) (hidle : Idle lsq) (hloop : lsq.canWriteBack c) :
    W < p.order.length ∧ ∃ lsq' e' H', lsq.writebackStore c accept handleLockedWrite = some lsq' ∧
      ((Core c p lsq' e' H' (W + 1) false ∧ Idle lsq') ∨ (Core c p lsq' e' H' W true ∧ Registers p lsq' W true ∧
          (lsq'.isStoreBlocked = true ∨ c.cacheStorePorts ≤ lsq'.usedStorePorts))) := by
  obtain ⟨-, hnotail, -, hcan, htso, -⟩ := hloop
  obtain ⟨hHW, hWle, -⟩ := h.layout.le
  have hslot : lsq.storeWBIdx = W % c.SQEntries := h.layout.idx.2.1
  have hWT : W < p.order.length := by
    refine Nat.lt_of_le_of_ne hWle fun heq => hnotail ?_
    rw [hslot]
    exact (h.slot_eq_tail hHW hWle).2 heq
  have hentry : lsq.storeQueue lsq.storeWBIdx = e W := by
    rw [hslot]
    exact h.entry_eq hHW hWT
  rw [hentry] at hcan
  have htso : c.needsTSO = true → lsq.storeInFlight = false := by
    intro hc
    rw [hc] at htso
    exact htso.resolve_left (by decide)
  refine ⟨hWT, ?_⟩
  obtain ⟨⟨inst, hinst, hsn, hpre, hsc⟩, hreq, hsize, hsplit⟩ := h.layout.entry W hWT
  unfold LSQUnit.writebackStore
  simp only [hentry]
  by_cases hempty : (e W).size = 0
  · -- there is nothing to be written
    have hunsent : numSent lsq.log (p.sn W) = 0 := h.traffic.numSent_unstarted fun a ha => by
      rcases ha with ha | ⟨-, hb⟩
      · exact (h.layout.sorted a W ha hWT).ne
      · cases hb
    have hnone : p.packets W = 0 := by
      rw [hsize] at hempty
      unfold Program.packets numPackets
      cases hr : p.request (p.sn W) with
      | none => rfl
      | some req =>
        rw [hr] at hempty
        exact if_pos (.inl hempty)
    obtain ⟨lsq', e', H', hrun, hpost⟩ := h.completeHere hn hWT hcan htso (.inl ⟨rfl, hnone⟩) hunsent hidle
    rw [List.append_nil] at hrun
    exact ⟨lsq', e', H', (if_pos hempty).trans hrun, .inl hpost⟩
  · cases hr : p.request (p.sn W) with
    | none =>
      rw [hr] at hsize
      exact absurd hsize hempty
    | some req =>
      rw [hr] at hreq hsize hsplit
      have hsplit : (e W).isSplit = req.isSplit := hsplit
      have hsize : (e W).size = req.size % 256 := hsize
      have hcommitted : ¬ (e W).committed = true := by
        rw [h.flags.committed W (Nat.le_refl W) hWT]
        rintro ⟨-, hb⟩
        cases hb
      have hstate : 0 < p.packets W → (if (e W).isSplit = true then 2 else 1) = p.packets W := by
        intro hpos
        rw [packets_of_pos hpos, hr, hsplit]
        rfl
      obtain ⟨hstart, hzero, hfresh⟩ := h.startStore hn hbyte hWT hcan htso hstate
      have hfinish := hstart.finishStore hn accept handleLockedWrite ⟨hidle.blocked, hidle.retry, hidle.pending⟩
        hzero hfresh hsn hr (hsize ▸ hempty) fun hc => hsc hc req hr
      rw [if_neg hempty, hinst, Option.bind_some, if_neg (by rw [hpre]; exact Bool.false_ne_true), hreq,
        Option.bind_some, if_neg hcommitted, hsn, hsplit]
      exact hfinish

/-- A unit that is blocked, or has no port left, sends nothing more. -/
theorem writebackLoop_stop {fuel : Nat} (hfuel : 0 < fuel)
    (hstop : lsq.isStoreBlocked = true ∨ c.cacheStorePorts ≤ lsq.usedStorePorts) :
    LSQUnit.writebackLoop c accept handleLockedWrite fuel lsq = some lsq := by
  cases fuel with
  | zero => exact absurd hfuel (Nat.lt_irrefl 0)
  | succ fuel =>
    unfold LSQUnit.writebackLoop
    split
    next hloop =>
      refine if_pos (hstop.resolve_right fun hports => ?_)
      have := hloop.2.2.2.2.2
      omega
    next => rfl

theorem writebackLoop (hn : 0 < c.SQEntries) (hbyte : c.SQEntries ≤ 256) (accept : Packet → Bool)
    (handleLockedWrite : Nat → Bool) :
    ∀ (fuel : Nat) {lsq : LSQUnit} {e : Nat → SQEntry} {H W : Nat}, Core c p lsq e H W false → Idle lsq →
      p.order.length - W + 1 < fuel →
      ∃ lsq' e' H' W' busy', LSQUnit.writebackLoop c accept handleLockedWrite fuel lsq = some lsq' ∧
        Core c p lsq' e' H' W' busy' ∧ Registers p lsq' W' busy'
  | 0, _, _, _, _, _, _, hfuel => absurd hfuel (Nat.not_lt_zero _)
  | fuel + 1, lsq, e, H, W, h, hidle, hfuel => by
    unfold LSQUnit.writebackLoop
    by_cases hloop : lsq.canWriteBack c
    · obtain ⟨hWT, lsq', e', H', hrun, hpost⟩ := h.writebackStore hn hbyte accept handleLockedWrite hidle hloop
      have hblocked : ¬ lsq.isStoreBlocked = true := by
        rw [hidle.blocked]
        exact Bool.false_ne_true
      rw [if_pos hloop, if_neg hblocked, hrun, Option.bind_some]
      rcases hpost with ⟨hcore, hidle'⟩ | ⟨hcore, hreg, hstop⟩
      · exact writebackLoop hn hbyte accept handleLockedWrite fuel hcore hidle' (by omega)
      · exact ⟨lsq', e', H', W, true, writebackLoop_stop (by omega) hstop, hcore, hreg⟩
    · exact ⟨lsq, e, H, W, false, if_neg hloop, h, hidle⟩

theorem writebackStores (hn : 0 < c.SQEntries) (hbyte : c.SQEntries ≤ 256) (accept : Packet → Bool)
    (handleLockedWrite : Nat → Bool) (h : Core c p lsq e H W busy) (hreg : Registers p lsq W busy) :
    ∃ lsq' e' H' W' busy', lsq.writebackStores c accept handleLockedWrite = some lsq' ∧
      Core c p lsq' e' H' W' busy' ∧ Registers p lsq' W' busy' := by
  obtain ⟨lsq1, W1, busy1, hrun1, hcore1, hreg1, hblocked⟩ := h.writebackPendingStore hn accept hreg
  obtain ⟨lsq2, e2, H2, W2, busy2, hrun2, hcore2, hreg2⟩ : ∃ lsq' e' H' W' busy',
      LSQUnit.writebackLoop c accept handleLockedWrite (c.SQEntries + 1) lsq1 = some lsq' ∧
        Core c p lsq' e' H' W' busy' ∧ Registers p lsq' W' busy' := by
    cases busy1 with
    | false =>
      have hle := hcore1.layout.le
      exact hcore1.writebackLoop hn hbyte accept handleLockedWrite (c.SQEntries + 1) hreg1 (by omega)
    | true =>
      exact ⟨lsq1, e, H, W1, true, writebackLoop_stop (Nat.succ_pos _) (.inl (hblocked rfl)), hcore1, hreg1⟩
  have hcounts : 0 ≤ lsq2.stores ∧ 0 ≤ lsq2.storesToWB := by
    have hstores := hcore2.layout.stores
    have hle := hcore2.layout.le
    rw [hcore2.flags.storesToWB]
    omega
  refine ⟨{ lsq2 with usedStorePorts := 0 }, e2, H2, W2, busy2, ?_, ?_, ?_⟩
  · rw [LSQUnit.writebackStores, hrun1, Option.bind_some, hrun2, Option.bind_some, if_pos hcounts]
  · exact hcore2.frame rfl ⟨rfl, rfl, rfl⟩ ⟨rfl, rfl⟩ rfl ⟨rfl, rfl⟩ rfl fun _ => ⟨rfl, rfl⟩
  · have hsame : SameRegs lsq2 { lsq2 with usedStorePorts := 0 } :=
      ⟨rfl, rfl, ⟨rfl, rfl⟩, fun _ => ⟨rfl, rfl⟩, fun _ => rfl⟩
    exact hsame.registers hreg2 fun _ => ⟨rfl, rfl⟩

end Core

end Alpine.Cpu.Lsq
