import Alpine.Lib.Scan
import Alpine.Mem.BackoffGrants
import Alpine.Mem.TokenWait

/-!
# The search loops of the wireless crossbar (`mem/wireless_xbar.cc`)

`tokenChange`, `tryTiming` and `triggerSendRetry` with their loops `while (i->x != y && i != l.end()) ++i` as written.
A loop that has no match reads `*l.end()`, and the call is then undefined.

* `scans_in_list` — a call reads only elements of its lists exactly when every list it searches has a match; it then
  stops at the first matches.
* `triggerSendRetryFirst_eb`, `triggerSendRetryFirst_tp`, `tokenChangeFirst_eq` — what the calls then do is what the
  model with searches does.
* `tokenChangeScan_silent`, `tryTimingScan_new` — where runs get past the end: at a token change for which no packet
  waits, and when a port that does not wait comes to a layer where others do.
* `silent_cycle` — a run that gets there.
-/

namespace Alpine.Mem

open Alpine.Run Alpine.Scan XBar Traffic

inductive ScanFault where
  | pastEnd
  | divideByZero

/-- The loop from the front of a list: the place it stops at. -/
def search {α : Type} (test : α → Bool) (l : List α) : Except ScanFault Nat :=
  match Scan.scan test l with
  | none => .error .pastEnd
  | some i => .ok i

/-- A call whose loops read only elements of their lists exactly when `found`, and then with this result. -/
structure Scans {α : Type} (r : Except ScanFault α) (found : Prop) (result : α) : Prop where
  inList : r = .ok result ↔ found
  pastEnd : r = .error .pastEnd ↔ ¬ found

namespace Scans

variable {α β : Type} {r : Except ScanFault α} {found found' : Prop} {a : α} {b : β}

theorem intro (hfound : found → r = .ok a) (hnot : ¬ found → r = .error .pastEnd) : Scans r found a := by
  refine ⟨⟨fun hr => Classical.by_contradiction fun h => ?_, hfound⟩, ⟨fun hr h => ?_, hnot⟩⟩
  · rw [hnot h] at hr
    cases hr
  · rw [hfound h] at hr
    cases hr

theorem ok (h : found) : Scans (.ok a) found a := .intro (fun _ => rfl) fun hno => absurd h hno

theorem congr (h : Scans r found a) (hiff : found ↔ found') : Scans r found' a :=
  ⟨h.inList.trans hiff, h.pastEnd.trans (not_congr hiff)⟩

theorem bind {f : α → Except ScanFault β} (h : Scans r found a) (h' : found → Scans (f a) found' b) :
    Scans (r >>= f) (found ∧ found') b := by
  refine .intro (fun hboth => ?_) fun hno => ?_
  · rw [h.inList.2 hboth.1]
    exact (h' hboth.1).inList.2 hboth.2
  · by_cases hfound : found
    · rw [h.inList.2 hfound]
      exact (h' hfound).pastEnd.2 fun hf' => hno ⟨hfound, hf'⟩
    · rw [h.pastEnd.2 hfound]
      rfl

end Scans

section Search

variable {α β : Type} {test : α → Bool} {l : List α}

theorem search_scans (test : α → Bool) (l : List α) :
    Scans (search test l) (∃ x ∈ l, test x = true) (l.findIdx test) := by
  refine .intro (fun h => ?_) fun h => ?_
  · rw [search, scan_some h]
  · rw [search, scan_none h]

/-- The check after a loop, which is only passed when the loop has stopped at a match. -/
theorem search_bind_scans {f g : Nat → Except ScanFault β} {b : β} (found : Prop)
    (h : (∃ x ∈ l, test x = true) → Scans (g (l.findIdx test)) found b) :
    Scans (search test l >>= fun i => if i = l.length then f i else g i)
      ((∃ x ∈ l, test x = true) ∧ found) b := by
  refine (search_scans test l).bind fun hmatch => ?_
  rw [if_neg (Nat.ne_of_lt (List.findIdx_lt_length_of_exists hmatch))]
  exact h hmatch

/-- A loop after which the call ends. -/
theorem search_last_scans {f : Nat → Except ScanFault β} {g : Nat → β} :
    Scans (search test l >>= fun i => if i = l.length then f i else .ok (g i)) (∃ x ∈ l, test x = true)
      (g (l.findIdx test)) := by
  refine .congr (search_bind_scans True fun _ => ?_) (iff_of_eq (and_true _))
  exact .ok trivial

end Search

theorem port_match {l : List Port} {port : Port} : (∃ x ∈ l, decide (x = port) = true) ↔ port ∈ l := by
  constructor
  · rintro ⟨x, hx, heq⟩
    rw [← of_decide_eq_true heq]
    exact hx
  · exact fun h => ⟨port, h, decide_eq_true rfl⟩

variable (p : Params)

namespace XBar

/-! ## The calls -/

/-- The first refusal of a packet in `tryTiming`, case `exp_backoff`. -/
def firstTiming (s : XBar) (c : Call) (rnd_slots_delay : UInt16) : XBar × Bool :=
  let l : Layer := { s.layers c.layerType c.destPort with state := .BUSY }
  let s := s.setLayer c.layerType c.destPort { l with waitingForLayer := l.waitingForLayer ++ [c.srcPort] }
  (s.schedule (s.newAttempt p c rnd_slots_delay), false)

/-- The second loop of `tryTiming`. -/
def takeReady (s : XBar) (src_port : Port) : Except ScanFault (XBar × Bool) := do
  let i ← search (fun i => i.srcPort = src_port) s.pktReadyEBList
  if i = s.pktReadyEBList.length then .ok (s.panic, false)
  else .ok ({ s with pktReadyEBList := s.pktReadyEBList.eraseIdx i }, true)

/-- `tryTiming`, case `exp_backoff`. -/
def tryTimingEBScan (s : XBar) (c : Call) (rnd_slots_delay : UInt16) : Except ScanFault (XBar × Bool) :=
  let l : Layer := { s.layers c.layerType c.destPort with state := .BUSY }
  if l.waitingForLayer = [] then .ok (s.firstTiming p c rnd_slots_delay)
  else do
    let waitingPkt ← search (· = c.srcPort) l.waitingForLayer
    if waitingPkt = l.waitingForLayer.length then .ok (s.firstTiming p c rnd_slots_delay)
    else
      (s.setLayer c.layerType c.destPort
        { l with waitingForLayer := l.waitingForLayer.eraseIdx waitingPkt }).takeReady c.srcPort

/-- `WirelessLayer::tryTiming`; in token passing it has no loop. -/
def tryTimingScan (s : XBar) (c : Call) (rnd_slots_delay : UInt16) : Except ScanFault (XBar × Bool) :=
  match p.macProto with
  | .exp_backoff => s.tryTimingEBScan p c rnd_slots_delay
  | .token_pass => .ok (s.tryTimingTP p c)

/-- The second loop of `triggerSendRetry`. -/
def takeWaiting (s : XBar) (srcPort : Port) : Except ScanFault XBar := do
  let j ← search (fun j => j.srcPort = srcPort) s.pktToTransmitTPList
  if j = s.pktToTransmitTPList.length then .ok s.panic
  else .ok { s with pktToTransmitTPList := s.pktToTransmitTPList.eraseIdx j }

/-- `WirelessLayer::triggerSendRetry`, up to the call of `sendRetry`. -/
def triggerSendRetryScan (s : XBar) (layerType : LayerType) (destPort : PortID) (srcPort : Port) :
    Except ScanFault XBar := do
  let l := s.layers layerType destPort
  let i ← search (· = srcPort) l.waitingForLayer
  if i = l.waitingForLayer.length then .ok s.panic
  else
    match p.macProto with
    | .exp_backoff => .ok { s with control := .checking }
    | .token_pass =>
      (s.setLayer layerType destPort
        { l with waitingForLayer := l.waitingForLayer.eraseIdx i }).takeWaiting srcPort

/-- `tokenChange` before its loop. -/
def nextToken (s : XBar) : XBar :=
  { s.update p with
    channelState := .IDLE
    tokenID := UInt16.ofNat ((s.tokenID.toNat + 1) % (numTokens p).toNat)
    tokenChangeEvent := some (s.nextCycle p) }

/-- `WirelessXBar::tokenChange`. -/
def tokenChangeScan (s : XBar) : Except ScanFault XBar :=
  if numTokens p = 0 then .error .divideByZero
  else do
    let s := s.nextToken p
    let i ← search (fun i => i.srcId.toInt = (s.tokenID.toNat : Int)) s.pktToTransmitTPList
    match s.pktToTransmitTPList[i]? with
    | none => .ok s
    | some i => s.triggerSendRetryScan p i.layerType i.destPort i.srcPort

/-! ## The lists that have a match -/

/-- The loops of `tryTiming`. -/
def TimingFound (s : XBar) (c : Call) : Prop :=
  p.macProto = .exp_backoff → (s.layers c.layerType c.destPort).waitingForLayer ≠ [] →
    c.srcPort ∈ (s.layers c.layerType c.destPort).waitingForLayer ∧ ∃ i ∈ s.pktReadyEBList, i.srcPort = c.srcPort

/-- The loops of `triggerSendRetry`. -/
def RetryFound (s : XBar) (layerType : LayerType) (destPort : PortID) (srcPort : Port) : Prop :=
  srcPort ∈ (s.layers layerType destPort).waitingForLayer ∧
    (p.macProto = .token_pass → ∃ j ∈ s.pktToTransmitTPList, j.srcPort = srcPort)

/-- The loop of `tokenChange`, and those of the retry it sends. -/
def TokenFound (s : XBar) : Prop :=
  ∃ i, selected p s = some i ∧ s.RetryFound p i.layerType i.destPort i.srcPort

/-! ## What the calls do at the first matches -/

def triggerSendRetryFirst (s : XBar) (layerType : LayerType) (destPort : PortID) (srcPort : Port) : XBar :=
  match p.macProto with
  | .exp_backoff => { s with control := .checking }
  | .token_pass =>
    let l := s.layers layerType destPort
    let s := s.setLayer layerType destPort { l with waitingForLayer := l.waitingForLayer.erase srcPort }
    { s with pktToTransmitTPList := s.pktToTransmitTPList.eraseP fun j => j.srcPort = srcPort }

def tokenChangeFirst (s : XBar) : XBar :=
  match selected p s with
  | none => s.nextToken p
  | some i => (s.nextToken p).triggerSendRetryFirst p i.layerType i.destPort i.srcPort

end XBar

variable {p} {s : XBar}

theorem triggerSendRetryFirst_eb (hmac : p.macProto = .exp_backoff) {i : ExpBackoffPkt}
    (h : s.RetryFound p i.layerType i.destPort i.srcPort) :
    s.triggerSendRetryFirst p i.layerType i.destPort i.srcPort = s.triggerSendRetryEB i := by
  unfold triggerSendRetryFirst triggerSendRetryEB
  rw [hmac, if_pos h.1]

theorem triggerSendRetryFirst_tp (hmac : p.macProto = .token_pass) {i : TokenPassPkt}
    (h : s.RetryFound p i.layerType i.destPort i.srcPort) :
    s.triggerSendRetryFirst p i.layerType i.destPort i.srcPort = s.triggerSendRetryTP i := by
  obtain ⟨j, hj, hport⟩ := h.2 hmac
  unfold triggerSendRetryFirst triggerSendRetryTP
  rw [hmac]
  dsimp only
  rw [if_pos h.1, if_pos]
  exact List.any_eq_true.2 ⟨j, hj, decide_eq_true hport⟩

theorem nextToken_same (s : XBar) : (s.nextToken p).layers = s.layers ∧
    (s.nextToken p).pktToTransmitTPList = s.pktToTransmitTPList := by
  obtain ⟨tick, htick⟩ := update_eq (p := p) s
  unfold nextToken
  rw [htick]
  exact ⟨rfl, rfl⟩

theorem retryFound_nextToken {type : LayerType} {dest : PortID} {port : Port} :
    (s.nextToken p).RetryFound p type dest port ↔ s.RetryFound p type dest port := by
  obtain ⟨hlayers, hqueue⟩ := nextToken_same (p := p) s
  unfold RetryFound
  rw [hlayers, hqueue]

theorem tokenChange_selected (hports : numTokens p ≠ 0) (s : XBar) : XBar.tokenChange p s = match selected p s with
      | none => some (s.nextToken p)
      | some i => some ((s.nextToken p).triggerSendRetryTP i) := by
  obtain ⟨tick, htick⟩ := update_eq (p := p) s
  unfold XBar.tokenChange nextToken selected
  rw [if_neg hports, htick]
  rfl

theorem tokenChangeFirst_eq (hmac : p.macProto = .token_pass) (hports : numTokens p ≠ 0) (h : s.TokenFound p) :
    XBar.tokenChange p s = some (s.tokenChangeFirst p) := by
  obtain ⟨i, hi, hfound⟩ := h
  rw [tokenChange_selected hports]
  unfold tokenChangeFirst
  rw [hi]
  exact congrArg some (triggerSendRetryFirst_tp hmac (retryFound_nextToken.2 hfound)).symm

/-! ## One call -/

theorem takeReady_scans (s : XBar) (port : Port) : Scans (s.takeReady port) (∃ i ∈ s.pktReadyEBList, i.srcPort = port)
      (if s.pktReadyEBList.any fun i => i.srcPort = port then
        ({ s with pktReadyEBList := s.pktReadyEBList.eraseP fun i => i.srcPort = port }, true)
      else (s.panic, false)) := by
  rw [← eraseIdx_findIdx]
  refine .congr (search_bind_scans True fun hmatch => ?_) ?_
  · rw [if_pos (List.any_eq_true.2 hmatch)]
    exact .ok trivial
  · simp only [decide_eq_true_eq, and_true]

theorem takeWaiting_scans (s : XBar) (port : Port) :
    Scans (s.takeWaiting port) (∃ j ∈ s.pktToTransmitTPList, j.srcPort = port)
      { s with pktToTransmitTPList := s.pktToTransmitTPList.eraseP fun j => j.srcPort = port } := by
  rw [← eraseIdx_findIdx]
  exact search_last_scans.congr (by simp only [decide_eq_true_eq])

theorem erase_eq_eraseIdx_findIdx (l : List Port) (port : Port) :
    l.erase port = l.eraseIdx (l.findIdx fun x => x = port) := by
  rw [eraseIdx_findIdx]
  exact List.erase_eq_eraseP' port l

theorem tryTimingEBScan_scans {c : Call} {rnd : UInt16}
    (hempty : (s.layers c.layerType c.destPort).waitingForLayer ≠ []) : Scans (s.tryTimingEBScan p c rnd)
      (c.srcPort ∈ (s.layers c.layerType c.destPort).waitingForLayer ∧ ∃ i ∈ s.pktReadyEBList, i.srcPort = c.srcPort)
      (s.tryTimingEB p c rnd) := by
  unfold tryTimingEBScan
  dsimp only
  rw [if_neg hempty]
  refine .congr (search_bind_scans _ fun hmatch => ?_) (and_congr_left' port_match)
  unfold tryTimingEB
  dsimp only
  rw [if_pos (port_match.1 hmatch), erase_eq_eraseIdx_findIdx]
  exact takeReady_scans _ c.srcPort

theorem triggerSendRetryScan_scans (s : XBar) (type : LayerType) (dest : PortID) (port : Port) :
    Scans (s.triggerSendRetryScan p type dest port) (s.RetryFound p type dest port)
      (s.triggerSendRetryFirst p type dest port) := by
  unfold triggerSendRetryScan RetryFound triggerSendRetryFirst
  refine .congr (search_bind_scans _ fun hmatch => ?_) (and_congr_left' port_match)
  cases p.macProto with
  | exp_backoff => exact .ok fun hc => nomatch hc
  | token_pass =>
    dsimp only
    rw [erase_eq_eraseIdx_findIdx]
    exact (takeWaiting_scans _ port).congr ⟨fun h _ => h, fun h => h rfl⟩

theorem tryTimingScan_scans (s : XBar) (c : Call) (rnd : UInt16) :
    Scans (s.tryTimingScan p c rnd) (s.TimingFound p c) (s.tryTiming p c rnd) := by
  unfold tryTimingScan TimingFound XBar.tryTiming
  cases hmac : p.macProto with
  | token_pass => exact .ok fun hc => nomatch hc
  | exp_backoff =>
    dsimp only
    by_cases hempty : (s.layers c.layerType c.destPort).waitingForLayer = []
    · have hnot : c.srcPort ∉ (s.layers c.layerType c.destPort).waitingForLayer := by
        rw [hempty]
        exact List.not_mem_nil
      unfold tryTimingEBScan tryTimingEB firstTiming
      dsimp only
      rw [if_pos hempty, if_neg hnot]
      exact .ok fun _ hne => absurd hempty hne
    · exact (tryTimingEBScan_scans hempty).congr ⟨fun h _ _ => h, fun h => h rfl hempty⟩

theorem tokenChangeScan_scans (hports : numTokens p ≠ 0) (s : XBar) :
    Scans (s.tokenChangeScan p) (s.TokenFound p) (s.tokenChangeFirst p) := by
  have hselected : (s.nextToken p).pktToTransmitTPList.find?
      (fun i => i.srcId.toInt = ((s.nextToken p).tokenID.toNat : Int)) = selected p s := by
    rw [(nextToken_same s).2]
    rfl
  unfold tokenChangeScan TokenFound tokenChangeFirst
  rw [if_neg hports]
  dsimp only
  cases hi : selected p s with
  | none =>
    rw [(search_scans _ _).pastEnd.2]
    · refine .intro (fun h => ?_) fun _ => rfl
      obtain ⟨i, hnone, -⟩ := h
      cases hnone
    · rw [← List.find?_isSome, hselected, hi]
      exact Bool.false_ne_true
  | some i =>
    rw [(search_scans _ _).inList.2]
    · simp only [bind, Except.bind]
      rw [← List.find?_eq_getElem?_findIdx, hselected, hi]
      refine (triggerSendRetryScan_scans _ i.layerType i.destPort i.srcPort).congr ?_
      rw [retryFound_nextToken]
      constructor
      · exact fun h => ⟨i, rfl, h⟩
      · rintro ⟨j, hj, h⟩
        cases hj
        exact h
    · rw [← List.find?_isSome, hselected, hi]
      rfl

/-- **The search loops and the ends of their lists**, for every content of the lists: the loops of a call read elements
of their lists only if and only if every list that they search has a match, and then they stop at the first matches. -/
theorem scans_in_list :
    (∀ (s : XBar) c rnd, Scans (s.tryTimingScan p c rnd) (s.TimingFound p c) (s.tryTiming p c rnd)) ∧
    (∀ (s : XBar) type dest port, Scans (s.triggerSendRetryScan p type dest port)
      (s.RetryFound p type dest port) (s.triggerSendRetryFirst p type dest port)) ∧
    (numTokens p ≠ 0 → ∀ s : XBar, Scans (s.tokenChangeScan p) (s.TokenFound p) (s.tokenChangeFirst p)) :=
  ⟨tryTimingScan_scans, triggerSendRetryScan_scans, tokenChangeScan_scans⟩

/-- A port that waits alone for the layer of port 0. -/
def oneWaits : XBar := ({} : XBar).setLayer .REQ 0 { waitingForLayer := [.slave 0] }

/-- The loops with a match and without one. -/
theorem scans_in_list_oneWaits :
    oneWaits.triggerSendRetryScan twoDests .REQ 0 (.slave 0) = .ok { oneWaits with control := .checking } ∧
    oneWaits.triggerSendRetryScan twoDests .REQ 0 (.slave 1) = .error .pastEnd ∧
    oneWaits.tokenChangeScan tokenParams = .error .pastEnd := by
  have h := scans_in_list (p := twoDests)
  have htokens := (scans_in_list (p := tokenParams)).2.2 (by decide)
  refine ⟨(h.2.1 oneWaits .REQ 0 (.slave 0)).inList.2 ?_, (h.2.1 oneWaits .REQ 0 (.slave 1)).pastEnd.2 ?_,
    (htokens oneWaits).pastEnd.2 ?_⟩
  · exact ⟨by decide, fun hc => nomatch hc⟩
  · exact fun hfound => absurd hfound.1 (by decide)
  · rintro ⟨i, hi, -⟩
    cases hi

/-! ## Runs -/

/-- In token passing, with ports that obey the protocol, the loops of a token change get past an end exactly in a
silent cycle: no packet waits for the token. -/
theorem tokenChangeScan_silent (hmac : p.macProto = .token_pass) (hports : numTokens p ≠ 0) {r : Traffic}
    (hrun : Reaches (trafficStep p) Traffic.Obeys {} r) :
    r.xbar.tokenChangeScan p = .error .pastEnd ↔ selected p r.xbar = none := by
  have h : TokenWait p r := hrun.inv tokenWait_init fun _ _ _ h hobeys hstep => h.step hmac hobeys hstep
  rw [(tokenChangeScan_scans hports r.xbar).pastEnd, Option.eq_none_iff_forall_ne_some]
  refine ⟨fun hno i hi => hno ⟨i, hi, ?_⟩, fun hnone hfound => ?_⟩
  · have hmem : i ∈ r.xbar.pktToTransmitTPList := List.mem_of_find?_eq_some hi
    exact ⟨h.seated.mem.2 (List.mem_map_of_mem hmem), fun _ => ⟨i, hmem, rfl⟩⟩
  · obtain ⟨i, hi, -⟩ := hfound
    exact hnone i hi

/-- Master port 0 transmits, slave port 1 waits, and the next token is that of slave port 0. -/
theorem tokenChangeScan_silent_start : ∃ r, Reaches (trafficStep tokenParams) Traffic.Obeys {} r ∧
    r.xbar.pktToTransmitTPList.map TokenPassPkt.srcPort = [.slave 1] ∧
    r.xbar.tokenChangeScan tokenParams = .error .pastEnd := by
  have h0 : Reaches (trafficStep tokenParams) Traffic.Obeys {} {} := .refl
  have h1 := h0.step (i := TrafficInput.recv (.resp 0) 1 readResp 0 true 16) rfl rfl
  have h2 := h1.step (i := TrafficInput.recv (.req 1) 0 readReq 0 true 16) rfl rfl
  exact ⟨_, h2, rfl, (tokenChangeScan_silent rfl (by decide) h2).2 rfl⟩

/-- Under exponential backoff, with ports that obey the protocol, the loops of `tryTiming` get past an end exactly
when other ports wait for the layer and this one does not. -/
theorem tryTimingScan_new (hmac : p.macProto = .exp_backoff) {r : Traffic}
    (hrun : Reaches (trafficStep p) Traffic.Obeys {} r) {e : Entry} (hfree : r.blocked e.channel = false)
    (dest : PortID) (pkt : Packet) (rnd : UInt16) : r.xbar.tryTimingScan p (e.call p dest pkt) rnd = .error .pastEnd ↔
      (r.xbar.layers e.layerType dest).waitingForLayer ≠ [] ∧
        e.srcPort ∉ (r.xbar.layers e.layerType dest).waitingForLayer := by
  obtain ⟨g, h⟩ := Granted.run hmac hrun
  have hchannel : (⟨e.layerType, dest, e.srcPort⟩ : Seat).channel = e.channel := retryChannel_entry e
  have hclosed : (⟨e.layerType, dest, e.srcPort⟩ : Seat) ∉ opened r :=
    h.owed.free (by rw [hchannel]; exact hfree)
  rw [(tryTimingScan_scans r.xbar _ rnd).pastEnd]
  constructor
  · intro hno
    refine ⟨fun hempty => hno fun _ hne => absurd hempty hne, fun hwait => hno fun _ _ => ⟨hwait, ?_⟩⟩
    -- the ledger has a grant for a port that waits
    obtain ⟨w, hw, hport⟩ := h.ledger.exists_granted h.owed.nodup (h.seated.mem.1 hwait) hclosed
    obtain ⟨i, hi, rfl⟩ := List.mem_map.1 hw
    exact ⟨i, hi, hport⟩
  · rintro ⟨hne, hnew⟩ hfound
    exact hnew (hfound hmac hne).1

/-- Master port 0 waits for slave port 0 when master port 1 comes with a packet for it. -/
theorem tryTimingScan_new_start : ∃ r, Reaches (trafficStep twoDests) Traffic.Obeys {} r ∧
    (r.xbar.layers .RESP 0).waitingForLayer = [.master 0] ∧
    r.xbar.tryTimingScan twoDests (Entry.call twoDests (.resp 1) 0 readResp) 0 = .error .pastEnd := by
  have h0 : Reaches (trafficStep twoDests) Traffic.Obeys {} {} := .refl
  have h1 := h0.step (i := TrafficInput.recv (.resp 0) 0 readResp 0 true 1) rfl rfl
  exact ⟨_, h1, rfl, (tryTimingScan_new rfl h1 rfl 0 readResp 0).2 ⟨by decide, by decide⟩⟩

/-- Master port 0 transmits, and when the token then moves on no packet waits. -/
theorem silent_cycle : ∃ r, Reaches (trafficStep tokenParams) Traffic.Obeys {} r ∧ r.xbar.control = .running ∧
      r.xbar.tokenChangeEvent = some r.xbar.curTick ∧
      ({ r.xbar with tokenChangeEvent := none } : XBar).tokenChangeScan tokenParams = .error .pastEnd := by
  have h0 : Reaches (trafficStep tokenParams) Traffic.Obeys {} {} := .refl
  have h1 := h0.step (i := TrafficInput.recv (.resp 0) 1 readResp 0 true 16) rfl rfl
  have h2 := h1.step (i := TrafficInput.advance 16) trivial rfl
  exact ⟨_, h2, rfl, rfl, rfl⟩

end Alpine.Mem
