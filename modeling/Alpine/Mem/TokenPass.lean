import Alpine.Lib.Run
import Alpine.Mem.WirelessXBar

/-!
# Token passing and exclusive use of the channel

A port transmits when the channel is idle and the token number is its own.  `tryTiming` is called from
four places, which number their ports in one of two ways: master ports from 0, slave ports from
`idOffset`, the number of master ports that are not the default port.  The default port has that same
number, and `tryTiming` lets a response with it pass without the token.

* `TokenInv` — the invariant: a transmission that is not over keeps the channel busy until the token
  change that ends it.
* `token_exclusive` — in every run in which only the default port takes the default port's way past the
  token, no two other packets are accepted during each other's transmission, and ports that transmit
  under one token number are one port.
* `Entry.passesToken_iff` — which port takes that way besides the default port.
* `snoopResp_passes_token` — slave port 0 takes it too, with a snoop response that is passed on as a
  normal response.
-/

namespace Alpine.Mem

open Alpine.Run XBar

variable {p : Params} {s s' : XBar}

/-! ## The callers of `tryTiming` -/

/-- `recvTimingReq`, `recvTimingResp`, and `recvTimingSnoopResp` with `forwardAsSnoop` true and false. -/
inductive Entry where
  | req (slave_port_id : Nat)
  | resp (master_port_id : Nat)
  | snoop (slave_port_id : Nat)
  | snoopResp (slave_port_id : Nat)
  deriving DecidableEq

namespace Entry

/-- The port of the crossbar that a packet comes in through. -/
def port : Entry → Port
  | .req i => .slave i
  | .resp i => .master i
  | .snoop i => .slave i
  | .snoopResp i => .slave i

/-- The first argument: the snoop response port mirrors the slave port. -/
def srcPort : Entry → Port
  | .snoopResp i => .snoopResp i
  | e => e.port

/-- The second argument: `slave_port_id + idOffset` or `master_port_id`, converted to `PortID`. -/
def srcId (p : Params) : Entry → PortID
  | .req i => Int16.ofInt ((Int16.ofNat i).toInt + (idOffset p).toNat)
  | .resp i => Int16.ofNat i
  | .snoop i => Int16.ofInt ((Int16.ofNat i).toInt + (idOffset p).toNat)
  | .snoopResp i => Int16.ofInt ((Int16.ofNat i).toInt + (idOffset p).toNat)

def layerType : Entry → LayerType
  | .req _ => .REQ
  | .resp _ => .RESP
  | .snoop _ => .SNOOP
  | .snoopResp _ => .RESP

/-- The port exists. -/
def Valid (p : Params) : Entry → Prop
  | .req i => i < p.slaveConnections
  | .resp i => i < p.masterConnections + p.hasDefault.toNat
  | .snoop i => i < p.slaveConnections
  | .snoopResp i => i < p.slaveConnections

instance (p : Params) : (e : Entry) → Decidable (e.Valid p)
  | .req _ => inferInstanceAs (Decidable (_ < _))
  | .resp _ => inferInstanceAs (Decidable (_ < _))
  | .snoop _ => inferInstanceAs (Decidable (_ < _))
  | .snoopResp _ => inferInstanceAs (Decidable (_ < _))

def call (p : Params) (e : Entry) (dest : PortID) (pkt : Packet) : Call :=
  { srcPort := e.srcPort, srcId := e.srcId p, destPort := dest, pkt := pkt, layerType := e.layerType }

/-- A response from the default port. -/
def FromDefault (p : Params) (e : Entry) : Prop := p.hasDefault = true ∧ e = .resp p.masterConnections

instance (p : Params) (e : Entry) : Decidable (e.FromDefault p) := inferInstanceAs (Decidable (_ ∧ _))

/-- The test in `tryTiming` for a response that does not need the token. -/
def PassesToken (p : Params) (e : Entry) : Prop := e.srcId p = defaultPortID p ∧ e.layerType = .RESP

theorem FromDefault.passesToken {e : Entry} (h : e.FromDefault p) : e.PassesToken p := by
  obtain ⟨hdefault, rfl⟩ := h
  refine ⟨?_, rfl⟩
  unfold srcId defaultPortID
  rw [if_pos hdefault]

end Entry

/-! ## Runs -/

inductive TokenInput where
  | tryTiming (e : Entry) (dest : PortID) (pkt : Packet)
  | tokenChange
  | advance (t : Nat)

/-- An accepted packet. -/
structure Sent where
  tick : Nat
  txLength : Nat
  entry : Entry
  token : UInt16

/-- The crossbar and the packets it has accepted, apart from the default port's responses. -/
structure TokenRun where
  xbar : XBar := {}
  sent : List Sent := []

/-- `tryTiming` for a packet that comes in at `e`. -/
def tokenTry (p : Params) (r : TokenRun) (e : Entry) (dest : PortID) (pkt : Packet) : TokenRun :=
  let q := r.xbar.tryTiming p (e.call p dest pkt) 0
  { xbar := q.1
    sent := if q.2 ∧ ¬ e.FromDefault p then
        r.sent ++ [⟨r.xbar.curTick, p.txLength pkt, e, r.xbar.tokenID⟩]
      else r.sent }

/-- A handler runs at the tick its event is scheduled at, and the event is then no longer scheduled. -/
def tokenStep (p : Params) (r : TokenRun) : TokenInput → Option TokenRun
  | .tryTiming e dest pkt =>
    if r.xbar.control = .panicked ∨ ¬ e.Valid p then none else some (tokenTry p r e dest pkt)
  | .tokenChange =>
    if r.xbar.control = .running ∧ r.xbar.tokenChangeEvent = some r.xbar.curTick then
      (({ r.xbar with tokenChangeEvent := none } : XBar).tokenChange p).map fun x => { r with xbar := x }
    else none
  | .advance t =>
    if r.xbar.CanAdvance t then some { r with xbar := { r.xbar with curTick := t } } else none

/-- Only the default port passes the token, and transmissions take time. -/
def Regular (p : Params) (_ : TokenRun) : TokenInput → Prop
  | .tryTiming e _ pkt => (e.PassesToken p → e.FromDefault p) ∧ 0 < p.txLength pkt
  | _ => True

/-! ## The clock -/

theorem le_divCeil_mul (a : Nat) {b : Nat} (hb : 0 < b) : a ≤ divCeil a b * b := by
  unfold divCeil
  have := Nat.div_add_mod (a + b - 1) b
  have hlt := Nat.mod_lt (a + b - 1) hb
  rw [Nat.mul_comm]
  omega

theorem curTick_le_update (hclock : 0 < p.clockPeriod) (s : XBar) : s.curTick ≤ (s.update p).tick := by
  unfold update
  split
  · assumption
  · dsimp only
    split
    · assumption
    · have := le_divCeil_mul (s.curTick - (s.tick + p.clockPeriod)) hclock
      dsimp only
      omega

/-- The edge after `n` ticks is not earlier than in `n` ticks. -/
theorem le_clockEdge (hclock : 0 < p.clockPeriod) (s : XBar) (n : Nat) :
    s.curTick + n ≤ s.clockEdge p (ticksToCycles p n) := by
  have hnow := curTick_le_update hclock s
  have hlen := le_divCeil_mul n hclock
  unfold clockEdge ticksToCycles
  rw [Nat.mul_comm p.clockPeriod]
  omega

theorem update_eq (s : XBar) : ∃ tick, s.update p = { s with tick := tick } := by
  unfold update
  split
  · exact ⟨s.tick, rfl⟩
  · dsimp only
    split
    · exact ⟨_, rfl⟩
    · exact ⟨_, rfl⟩

/-! ## What a call does to the channel -/

/-- A scheduled token change, the channel and the time are the same. -/
structure SameChannel (s s' : XBar) : Prop where
  curTick : s'.curTick = s.curTick
  channelState : s'.channelState = s.channelState
  event : s.tokenChangeEvent.isSome → s'.tokenChangeEvent = s.tokenChangeEvent

theorem startTokens_same (s : XBar) : SameChannel s (s.startTokens p) := by
  unfold startTokens
  split
  · exact ⟨rfl, rfl, fun _ => rfl⟩
  · rename_i hnone
    obtain ⟨tick, htick⟩ := update_eq (p := p) s
    rw [htick]
    exact ⟨rfl, rfl, fun h => absurd h hnone⟩

theorem startTokens_tokenID (s : XBar) : (s.startTokens p).tokenID = s.tokenID := by
  unfold startTokens
  split
  · rfl
  · obtain ⟨tick, htick⟩ := update_eq (p := p) s
    rw [htick]

/-- The three outcomes of `tryTiming`: the default port's way, a transmission under the token, and a
refusal. -/
theorem tryTimingTP_cases (hclock : 0 < p.clockPeriod) (s : XBar) (c : Call) :
    (c.srcId = defaultPortID p ∧ c.layerType = .RESP ∧ (s.tryTimingTP p c).2 = true ∧
      SameChannel s (s.tryTimingTP p c).1) ∨
    (¬ (c.srcId = defaultPortID p ∧ c.layerType = .RESP) ∧ s.channelState = .IDLE ∧
      (s.tokenID.toNat : Int) = c.srcId.toInt ∧ (s.tryTimingTP p c).2 = true ∧
      (s.tryTimingTP p c).1.curTick = s.curTick ∧ (s.tryTimingTP p c).1.channelState = .BUSY ∧
      ∃ w, (s.tryTimingTP p c).1.tokenChangeEvent = some w ∧ s.curTick + p.txLength c.pkt ≤ w) ∨
    ((s.tryTimingTP p c).2 = false ∧ SameChannel s (s.tryTimingTP p c).1) := by
  have hsame := startTokens_same (p := p)
    (s.setLayer c.layerType c.destPort { s.layers c.layerType c.destPort with state := .BUSY })
  have htoken := startTokens_tokenID (p := p)
    (s.setLayer c.layerType c.destPort { s.layers c.layerType c.destPort with state := .BUSY })
  generalize hq : s.tryTimingTP p c = q
  unfold tryTimingTP at hq
  dsimp only at hq
  revert hq
  generalize (s.setLayer c.layerType c.destPort
    { s.layers c.layerType c.destPort with state := .BUSY }).startTokens p = t at hsame htoken ⊢
  obtain ⟨tick, htick⟩ := update_eq (p := p) t
  intro hq
  split at hq
  · rename_i hdefault
    subst hq
    exact .inl ⟨hdefault.1, hdefault.2, rfl, hsame.curTick, hsame.channelState, hsame.event⟩
  · split at hq
    · rename_i hdefault hidle
      subst hq
      rw [htick]
      refine .inr (.inl ⟨hdefault, hsame.channelState.symm.trans hidle.1, ?_, rfl, hsame.curTick, rfl, _,
        rfl, ?_⟩)
      · rw [← hidle.2, htoken]
        rfl
      · have hcur : t.curTick = s.curTick := hsame.curTick
        rw [← hcur]
        exact le_clockEdge hclock t _
    · split at hq
      · subst hq
        exact .inr (.inr ⟨rfl, hsame.curTick, hsame.channelState, hsame.event⟩)
      · subst hq
        exact .inr (.inr ⟨rfl, hsame.curTick, hsame.channelState, hsame.event⟩)

/-! ## The invariant -/

/-- The channel is kept until `t` or longer. -/
def XBar.Kept (s : XBar) (t : Nat) : Prop :=
  s.channelState = .BUSY ∧ ∃ w, s.tokenChangeEvent = some w ∧ t ≤ w

theorem SameChannel.kept (h : SameChannel s s') {t : Nat} (hk : s.Kept t) : s'.Kept t := by
  obtain ⟨hbusy, w, hw, hle⟩ := hk
  refine ⟨h.channelState.trans hbusy, w, ?_, hle⟩
  rw [h.event (by rw [hw]; rfl), hw]

structure TokenInv (p : Params) (r : TokenRun) : Prop where
  apart : r.sent.Pairwise fun a b => a.tick + a.txLength ≤ b.tick
  ended : ∀ a ∈ r.sent, a.tick + a.txLength ≤ r.xbar.curTick ∨ r.xbar.Kept (a.tick + a.txLength)
  pos : ∀ a ∈ r.sent, 0 < a.txLength
  token : ∀ a ∈ r.sent, a.entry.Valid p ∧ ¬ a.entry.FromDefault p ∧
    (a.token.toNat : Int) = (a.entry.srcId p).toInt

theorem tokenInv_init : TokenInv p {} where
  apart := .nil
  ended := fun _ h => absurd h List.not_mem_nil
  pos := fun _ h => absurd h List.not_mem_nil
  token := fun _ h => absurd h List.not_mem_nil

variable {r : TokenRun}

theorem TokenInv.same (h : TokenInv p r) (hsame : SameChannel r.xbar s) : TokenInv p { r with xbar := s } := by
  refine ⟨h.apart, fun a ha => ?_, h.pos, h.token⟩
  rcases h.ended a ha with hover | hkept
  · exact .inl (hover.trans (Nat.le_of_eq hsame.curTick.symm))
  · exact .inr (hsame.kept hkept)

/-- A packet accepted on an idle channel comes after all others. -/
theorem TokenInv.accept (h : TokenInv p r) {a : Sent} (hidle : r.xbar.channelState = .IDLE)
    (htick : a.tick = r.xbar.curTick) (hnow : s.curTick = r.xbar.curTick)
    (hkept : s.Kept (a.tick + a.txLength)) (hpos : 0 < a.txLength)
    (htoken : a.entry.Valid p ∧ ¬ a.entry.FromDefault p ∧ (a.token.toNat : Int) = (a.entry.srcId p).toInt) :
    TokenInv p { xbar := s, sent := r.sent ++ [a] } := by
  have hover : ∀ b ∈ r.sent, b.tick + b.txLength ≤ r.xbar.curTick := by
    intro b hb
    rcases h.ended b hb with hle | hk
    · exact hle
    · exact absurd (hidle.symm.trans hk.1) (fun hc => nomatch hc)
  refine ⟨?_, ?_, ?_, ?_⟩
  · refine List.pairwise_append.2 ⟨h.apart, List.pairwise_singleton _ _, fun b hb c hc => ?_⟩
    rw [List.mem_singleton.1 hc, htick]
    exact hover b hb
  · intro b hb
    rcases List.mem_append.1 hb with hb | hb
    · exact .inl ((hover b hb).trans (Nat.le_of_eq hnow.symm))
    · rw [List.mem_singleton.1 hb]
      exact .inr hkept
  · intro b hb
    rcases List.mem_append.1 hb with hb | hb
    · exact h.pos b hb
    · rw [List.mem_singleton.1 hb]
      exact hpos
  · intro b hb
    rcases List.mem_append.1 hb with hb | hb
    · exact h.token b hb
    · rw [List.mem_singleton.1 hb]
      exact htoken

theorem TokenInv.tryTiming (hmac : p.macProto = .token_pass) (hclock : 0 < p.clockPeriod) (h : TokenInv p r)
    {e : Entry} {dest : PortID} {pkt : Packet} (hvalid : e.Valid p)
    (hregular : (e.PassesToken p → e.FromDefault p) ∧ 0 < p.txLength pkt) : TokenInv p (tokenTry p r e dest pkt) := by
  unfold tokenTry
  simp only [XBar.tryTiming, hmac]
  rcases tryTimingTP_cases hclock r.xbar (e.call p dest pkt) with
    ⟨hid, hresp, -, hsame⟩ | ⟨hdefault, hidle, htoken, haccept, hnow, hbusy, w, hw, hle⟩ |
    ⟨hrefused, hsame⟩
  · rw [if_neg fun hc => hc.2 (hregular.1 ⟨hid, hresp⟩)]
    exact h.same hsame
  · have hfrom : ¬ e.FromDefault p := fun hf => hdefault hf.passesToken
    rw [if_pos ⟨haccept, hfrom⟩]
    exact h.accept hidle rfl hnow ⟨hbusy, w, hw, hle⟩ hregular.2 ⟨hvalid, hfrom, htoken⟩
  · rw [if_neg fun hc => absurd hc.1 (by rw [hrefused]; exact Bool.false_ne_true)]
    exact h.same hsame

theorem triggerSendRetryTP_same (s : XBar) (i : TokenPassPkt) : SameChannel s (s.triggerSendRetryTP i) := by
  unfold triggerSendRetryTP
  dsimp only
  split
  · split
    · exact ⟨rfl, rfl, fun _ => rfl⟩
    · exact ⟨rfl, rfl, fun _ => rfl⟩
  · exact ⟨rfl, rfl, fun _ => rfl⟩

theorem tokenChange_curTick (h : s.tokenChange p = some s') : s'.curTick = s.curTick := by
  unfold tokenChange at h
  obtain ⟨tick, htick⟩ := update_eq (p := p) s
  split at h
  · cases h
  · rw [htick] at h
    dsimp only at h
    split at h
    · cases h
      rfl
    · cases h
      exact (triggerSendRetryTP_same _ _).curTick

/-- When the token changes, every transmission is over. -/
theorem TokenInv.tokenChange (h : TokenInv p r) (hdue : r.xbar.tokenChangeEvent = some r.xbar.curTick)
    (hnow : s.curTick = r.xbar.curTick) : TokenInv p { r with xbar := s } := by
  refine ⟨h.apart, fun a ha => .inl ?_, h.pos, h.token⟩
  rw [hnow]
  rcases h.ended a ha with hover | ⟨-, w, hw, hle⟩
  · exact hover
  · rw [hdue, Option.some.injEq] at hw
    exact hle.trans (Nat.le_of_eq hw.symm)

theorem TokenInv.advance (h : TokenInv p r) {t : Nat} (hle : r.xbar.curTick ≤ t) :
    TokenInv p { r with xbar := { r.xbar with curTick := t } } := by
  refine ⟨h.apart, fun a ha => ?_, h.pos, h.token⟩
  rcases h.ended a ha with hover | hkept
  · exact .inl (hover.trans hle)
  · exact .inr hkept

/-- **Every regular step keeps the invariant.** -/
theorem TokenInv.step {r' : TokenRun} (hmac : p.macProto = .token_pass) (hclock : 0 < p.clockPeriod)
    (h : TokenInv p r) {i : TokenInput} (hregular : Regular p r i) (hstep : tokenStep p r i = some r') :
    TokenInv p r' := by
  cases i with
  | tryTiming e dest pkt =>
    obtain ⟨hvalid, hstep⟩ := Option.ite_none_left_eq_some.1 hstep
    cases hstep
    exact h.tryTiming hmac hclock (not_not.1 fun hno => hvalid (.inr hno)) hregular
  | tokenChange =>
    obtain ⟨hdue, hstep⟩ := Option.ite_none_right_eq_some.1 hstep
    simp only [Option.map_eq_some_iff] at hstep
    obtain ⟨s, hs, rfl⟩ := hstep
    have hnow := tokenChange_curTick hs
    exact h.tokenChange hdue.2 hnow
  | advance t =>
    obtain ⟨hcan, hstep⟩ := Option.ite_none_right_eq_some.1 hstep
    cases hstep
    exact h.advance hcan.2.1

/-! ## Port numbers -/

/-- The ports can be numbered by `PortID`. -/
def Params.Numbered (p : Params) : Prop := p.masterConnections + p.slaveConnections < 2 ^ 15

theorem srcId_slave (h : p.Numbered) {i : Nat} (hi : i < p.slaveConnections) :
    (Int16.ofInt ((Int16.ofNat i).toInt + (idOffset p).toNat)).toInt = i + p.masterConnections := by
  unfold Params.Numbered at h
  have hoff : (idOffset p).toNat = p.masterConnections := by
    unfold idOffset
    refine UInt16.toNat_ofNat_of_lt' ?_
    show p.masterConnections < 65536
    omega
  rw [hoff, Int16.toInt_ofNat_of_lt (by omega), Int16.toInt_ofInt_of_le (by omega) (by omega)]

/-- The number of a port in the order of the tokens. -/
def Params.number (p : Params) : Port → Int
  | .master i => i
  | .slave i => i + p.masterConnections
  | .snoopResp i => i + p.masterConnections

/-- The master ports that take part come before the slave ports. -/
theorem Entry.master_lt {i : Nat} (hvalid : (Entry.resp i).Valid p)
    (hdefault : ¬ (Entry.resp i).FromDefault p) : i < p.masterConnections := by
  simp only [Entry.Valid] at hvalid
  simp only [Entry.FromDefault, Entry.resp.injEq] at hdefault
  cases hd : p.hasDefault with
  | true =>
    rw [hd, Bool.toNat_true] at hvalid
    have : i ≠ p.masterConnections := fun hi => hdefault ⟨hd, hi⟩
    omega
  | false =>
    rw [hd, Bool.toNat_false] at hvalid
    exact hvalid

theorem Entry.srcId_toInt (h : p.Numbered) : ∀ {e : Entry}, e.Valid p → ¬ e.FromDefault p →
    (e.srcId p).toInt = p.number e.port
  | .req _, hvalid, _ => srcId_slave h hvalid
  | .snoop _, hvalid, _ => srcId_slave h hvalid
  | .snoopResp _, hvalid, _ => srcId_slave h hvalid
  | .resp i, hvalid, hdefault => by
    have hi := Entry.master_lt hvalid hdefault
    unfold Params.Numbered at h
    exact Int16.toInt_ofNat_of_lt (by omega)

/-- Apart from the default port, ports have different numbers. -/
theorem Entry.port_eq (h : p.Numbered) {e e' : Entry} (hvalid : e.Valid p) (hdefault : ¬ e.FromDefault p)
    (hvalid' : e'.Valid p) (hdefault' : ¬ e'.FromDefault p)
    (heq : (e.srcId p).toInt = (e'.srcId p).toInt) : e.port = e'.port := by
  rw [Entry.srcId_toInt h hvalid hdefault, Entry.srcId_toInt h hvalid' hdefault'] at heq
  cases e with
  | resp i =>
    have hi := Entry.master_lt hvalid hdefault
    cases e' with
    | resp j =>
      simp only [Entry.port, Params.number] at heq ⊢
      congr
      omega
    | _ =>
      simp only [Entry.port, Params.number] at heq
      omega
  | _ =>
    cases e' with
    | resp j =>
      have hj := Entry.master_lt hvalid' hdefault'
      simp only [Entry.port, Params.number] at heq
      omega
    | _ =>
      simp only [Entry.port, Params.number] at heq ⊢
      congr
      omega

theorem defaultPortID_toInt (h : p.Numbered) :
    (defaultPortID p).toInt = if p.hasDefault then (p.masterConnections : Int) else -1 := by
  unfold Params.Numbered at h
  unfold defaultPortID
  split
  · exact Int16.toInt_ofNat_of_lt (by omega)
  · rfl

/-- Who passes the token: the default port, and slave port 0 with a snoop response that is passed on as a
normal response when there is a default port. -/
theorem Entry.passesToken_iff (h : p.Numbered) {e : Entry} (hvalid : e.Valid p) :
    (e.PassesToken p → e.FromDefault p) ↔ ¬ (p.hasDefault = true ∧ e = .snoopResp 0) := by
  have hdef := defaultPortID_toInt h
  cases e with
  | req i => exact ⟨fun _ hc => (nomatch hc.2), fun _ hc => (nomatch hc.2)⟩
  | snoop i => exact ⟨fun _ hc => (nomatch hc.2), fun _ hc => (nomatch hc.2)⟩
  | resp i =>
    refine ⟨fun _ hc => (nomatch hc.2), fun _ hpass => ?_⟩
    refine Decidable.of_not_not fun hdefault => ?_
    have hi := Entry.master_lt hvalid hdefault
    have hid := Entry.srcId_toInt h hvalid hdefault
    rw [hpass.1, hdef] at hid
    simp only [Entry.port, Params.number] at hid
    split at hid
    · omega
    · omega
  | snoopResp i =>
    have hid := srcId_slave h hvalid
    have hno : ¬ (Entry.snoopResp i).FromDefault p := fun hf => (nomatch hf.2)
    constructor
    · rintro hall ⟨hd, heq⟩
      cases heq
      refine hno (hall ⟨Int16.toInt.inj ?_, rfl⟩)
      rw [hdef, if_pos hd]
      unfold Entry.srcId
      rw [hid]
      omega
    · intro hslave hpass
      have heq := congrArg Int16.toInt hpass.1
      unfold Entry.srcId at heq
      rw [hid, hdef] at heq
      split at heq
      · rename_i hd
        have hi : i = 0 := by omega
        exact absurd ⟨hd, by rw [hi]⟩ hslave
      · omega

/-! ## Exclusive use -/

/-- **Exclusive use of the channel**: in every run in which only the default port takes the default port's
way past the token, no packet is accepted while another one that was accepted is transmitted, and, with
the ports numbered by `PortID`, transmissions under one token number come from one port. -/
theorem token_exclusive (hmac : p.macProto = .token_pass) (hclock : 0 < p.clockPeriod) {r : TokenRun}
    (hrun : Reaches (tokenStep p) (Regular p) {} r) :
    (r.sent.Pairwise fun a b => b.tick ∉ Set.Ico a.tick (a.tick + a.txLength) ∧
      a.tick ∉ Set.Ico b.tick (b.tick + b.txLength)) ∧
    (p.Numbered → ∀ a ∈ r.sent, ∀ b ∈ r.sent, a.token = b.token → a.entry.port = b.entry.port) := by
  have h : TokenInv p r := hrun.inv tokenInv_init fun _ _ _ h hregular hstep =>
    h.step hmac hclock hregular hstep
  constructor
  · refine h.apart.imp_of_mem fun {a b} ha _ hle => ?_
    have hpos := h.pos a ha
    simp only [Set.mem_Ico, not_and, not_lt]
    omega
  · intro hports a ha b hb htoken
    obtain ⟨hvalid, hdefault, hid⟩ := h.token a ha
    obtain ⟨hvalid', hdefault', hid'⟩ := h.token b hb
    refine Entry.port_eq hports hvalid hdefault hvalid' hdefault' ?_
    rw [← hid, ← hid', htoken]

/-- One master port, the default port and two slave ports; a byte takes two ticks. -/
def tokenParams : Params where
  macProto := .token_pass
  bandwidth := fun n => 2 * n
  retrySlot := 1
  backoffCeil := 10
  masterConnections := 1
  hasDefault := true
  slaveConnections := 2
  clockPeriod := 1

/-- A read response of eight bytes. -/
def readResp : Packet := { cmd := .ReadResp, id := 0, req := ⟨0, 0, false, false⟩, addr := 0, size := 8 }

/-- A read request. -/
def readReq : Packet := { cmd := .ReadReq, id := 1, req := ⟨1, 0, false, false⟩, addr := 0, size := 8 }

/-- Master port 0 holds the first token; slave port 0 has to wait for the next. -/
theorem token_exclusive_two_ports :
    ∃ r, Reaches (tokenStep tokenParams) (Regular tokenParams) {} r ∧ r.sent.length = 1 ∧
      (r.sent.Pairwise fun a b => b.tick ∉ Set.Ico a.tick (a.tick + a.txLength) ∧
        a.tick ∉ Set.Ico b.tick (b.tick + b.txLength)) ∧
      (tokenParams.Numbered →
        ∀ a ∈ r.sent, ∀ b ∈ r.sent, a.token = b.token → a.entry.port = b.entry.port) := by
  have h0 : Reaches (tokenStep tokenParams) (Regular tokenParams) {} {} := .refl
  have h1 := h0.step (i := TokenInput.tryTiming (.resp 0) 1 readResp)
    ⟨fun hc => absurd hc.1 (by decide), by decide⟩ rfl
  have h2 := h1.step (i := TokenInput.tryTiming (.req 0) 0 readReq)
    ⟨fun hc => (nomatch hc.2), by decide⟩ rfl
  exact ⟨_, h2, rfl, token_exclusive rfl (by decide) h2⟩

/-- Master port 0 transmits a response to slave port 1, and in the same tick the snoop response of slave
port 0 to slave port 1, passed on as a normal response, is accepted too. -/
theorem snoopResp_passes_token : ∃ r, Reaches (tokenStep tokenParams) (fun _ _ => True) {} r ∧
      ¬ r.sent.Pairwise fun a b => b.tick ∉ Set.Ico a.tick (a.tick + a.txLength) ∧
        a.tick ∉ Set.Ico b.tick (b.tick + b.txLength) := by
  have h0 : Reaches (tokenStep tokenParams) (fun _ _ => True) {} {} := .refl
  have h1 := h0.step (i := TokenInput.tryTiming (.resp 0) 1 readResp) trivial rfl
  have h2 := h1.step (i := TokenInput.tryTiming (.snoopResp 0) 1 readResp) trivial rfl
  refine ⟨_, h2, fun hpair => ?_⟩
  have hab := (List.pairwise_cons.1 hpair).1 _ List.mem_cons_self
  exact hab.1 ⟨Nat.le_refl _, by decide⟩

end Alpine.Mem
