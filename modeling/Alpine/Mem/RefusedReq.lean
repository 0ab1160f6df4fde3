import Alpine.Mem.RoutingRun
import Alpine.Mem.SnoopFilterRun

/-!
# Refused requests

`recvTimingReq` together with the table of the snoop filter: the filter is asked before the packet is sent
on, and told afterwards whether it was.

* `Tidy` — the filter keeps no empty entry, in any state reached; so what `finishRequest` takes back is
  what `lookupRequest` did.
* `recvTimingReq_refused` — the three refusals: by the layer, of a cache clean by the port below before the
  snooping, and by the port below after it.  The second one keeps the header delay it has added.
* `refused_traceless_iff` — a refused request leaves no trace exactly when it was not refused there, or
  nothing was added; and so for any number of refusals in a row.
-/

namespace Alpine.Mem

open Alpine.Run SnoopFilter

variable {fp : SnoopFilterParams}

/-! ## No empty entries -/

def Tidy (s : SnoopFilter) : Prop :=
  ∀ k it, s.cachedLocations.lookup k = some it → it.requested ||| it.holder ≠ 0

theorem tidy_init : Tidy {} := by
  intro k it h
  rw [Finmap.lookup_empty] at h
  cases h

/-- All entries but one are not empty. -/
def TidyBut (s : SnoopFilter) (k : Nat) : Prop :=
  ∀ k' it, k' ≠ k → s.cachedLocations.lookup k' = some it → it.requested ||| it.holder ≠ 0

variable {s : SnoopFilter}

theorem Tidy.but (h : Tidy s) (k : Nat) : TidyBut s k := fun k' it _ => h k' it

theorem TidyBut.put {k : Nat} (h : TidyBut s k) (it : SnoopItem) : TidyBut (s.put k it) k := by
  intro k' it' hk hlookup
  unfold SnoopFilter.put at hlookup
  rw [Finmap.lookup_insert_of_ne _ hk] at hlookup
  exact h k' it' hk hlookup

theorem TidyBut.tidy {k : Nat} (h : TidyBut s k) {it : SnoopItem} (hit : it.requested ||| it.holder ≠ 0) :
    Tidy (s.put k it) := by
  intro k' it' hlookup
  by_cases hk : k' = k
  · subst hk
    unfold SnoopFilter.put at hlookup
    rw [Finmap.lookup_insert, Option.some.injEq] at hlookup
    rw [← hlookup]
    exact hit
  · exact h.put it k' it' hk hlookup

theorem TidyBut.eraseIfNullEntry {k : Nat} (h : TidyBut s k) : Tidy (s.eraseIfNullEntry k) := by
  intro k' it' hlookup
  unfold SnoopFilter.eraseIfNullEntry at hlookup
  by_cases hk : k' = k
  · subst hk
    split at hlookup
    · rename_i hnone
      rw [hnone] at hlookup
      cases hlookup
    · rename_i it hit
      split at hlookup
      · rw [Finmap.lookup_erase] at hlookup
        cases hlookup
      · rename_i hnull
        rw [hit, Option.some.injEq] at hlookup
        rw [← hlookup]
        exact hnull
  · split at hlookup
    · exact h k' it' hk hlookup
    · split at hlookup
      · rw [Finmap.lookup_erase_ne hk] at hlookup
        exact h k' it' hk hlookup
      · exact h k' it' hk hlookup

variable {s' : SnoopFilter} {cpkt : CohPacket} {port : fp.ports.Port} {snoops : Snoops fp}

theorem lookupRequest_table (h : s.lookupRequest cpkt port = .ok (s', snoops)) :
    (s'.reqLookupResult = none ∧ s'.cachedLocations = s.cachedLocations) ∨
    (s'.reqLookupResult = some (lineAddr fp cpkt.addr cpkt.isSecure) ∧
      s'.retryItem = (s.cachedLocations.lookup (lineAddr fp cpkt.addr cpkt.isSecure)).getD {} ∧
      ∃ it, s'.cachedLocations = s.cachedLocations.insert (lineAddr fp cpkt.addr cpkt.isSecure) it) := by
  unfold SnoopFilter.lookupRequest at h
  dsimp only at h
  split at h
  · cases h
    exact .inl ⟨rfl, rfl⟩
  · split at h
    · cases h
      exact .inr ⟨rfl, rfl, _, rfl⟩
    · obtain ⟨it, -, hok⟩ := bind_ok_iff.1 h
      cases hok
      refine .inr ⟨rfl, rfl, it, ?_⟩
      show ((s.put _ _).put _ it).cachedLocations = _
      unfold SnoopFilter.put
      rw [Finmap.insert_insert]

theorem Tidy.lookupRequest (h : Tidy s) (hlookup : s.lookupRequest cpkt port = .ok (s', snoops)) :
    (s'.reqLookupResult = none ∧ Tidy s') ∨ (s'.reqLookupResult = some (lineAddr fp cpkt.addr cpkt.isSecure) ∧
        TidyBut s' (lineAddr fp cpkt.addr cpkt.isSecure)) := by
  rcases lookupRequest_table hlookup with ⟨hnone, htable⟩ | ⟨hres, -, it, htable⟩
  · refine .inl ⟨hnone, fun k it hit => h k it ?_⟩
    rw [← htable]
    exact hit
  · refine .inr ⟨hres, fun k it hk hit => h k it ?_⟩
    rw [htable, Finmap.lookup_insert_of_ne _ hk] at hit
    exact hit

theorem Tidy.finishRequest {addr : Nat} {sec will_retry : Bool}
    (h : (s.reqLookupResult = none ∧ Tidy s) ∨ (s.reqLookupResult = some (lineAddr fp addr sec) ∧
      TidyBut s (lineAddr fp addr sec))) (hfinish : s.finishRequest fp will_retry addr sec = .ok s') : Tidy s' := by
  unfold SnoopFilter.finishRequest at hfinish
  rcases h with ⟨hnone, h⟩ | ⟨hres, h⟩
  · rw [hnone] at hfinish
    cases hfinish
    exact h
  · rw [hres] at hfinish
    dsimp only at hfinish
    rw [if_neg (fun hc => hc rfl), Except.ok.injEq] at hfinish
    subst hfinish
    split
    · exact (h.put _).eraseIfNullEntry
    · exact h.eraseIfNullEntry

theorem Tidy.lookupSnoop (h : Tidy s) (hlookup : s.lookupSnoop cpkt = .ok (s', snoops)) : Tidy s' := by
  unfold SnoopFilter.lookupSnoop at hlookup
  dsimp only at hlookup
  split at hlookup
  · cases hlookup
  · split at hlookup
    · split at hlookup
      · cases hlookup
      · cases hlookup
        exact h
    · split at hlookup
      · cases hlookup
      · cases hlookup
        exact ((h.but _).put _).eraseIfNullEntry

theorem Tidy.updateSnoopResponse (h : Tidy s) {rsp_port req_port : fp.ports.Port}
    (hup : s.updateSnoopResponse cpkt rsp_port req_port = .ok s') : Tidy s' := by
  unfold SnoopFilter.updateSnoopResponse at hup
  dsimp only at hup
  split at hup
  · cases hup
  · split at hup
    · cases hup
      exact h
    · generalize (if !cpkt.hasSharers then (0 : SnoopMask)
        else ((s.cachedLocations.lookup (lineAddr fp cpkt.addr cpkt.isSecure)).getD {}).holder) = holder
        at hup
      split at hup
      · cases hup
      · split at hup
        · cases hup
        · split at hup
          · cases hup
          · split at hup
            · cases hup
            · rename_i hnull
              cases hup
              exact (h.but _).tidy hnull

theorem Tidy.updateSnoopForward (h : Tidy s) (hup : s.updateSnoopForward fp cpkt = .ok s') : Tidy s' := by
  unfold SnoopFilter.updateSnoopForward at hup
  dsimp only at hup
  split at hup
  · cases hup
  · split at hup
    · cases hup
      exact h
    · cases hup
      exact ((h.but _).put _).eraseIfNullEntry

theorem Tidy.updateResponse (h : Tidy s) (hup : s.updateResponse cpkt port = .ok s') : Tidy s' := by
  unfold SnoopFilter.updateResponse at hup
  dsimp only at hup
  split at hup
  · cases hup
  · split at hup
    · cases hup
      exact h
    · split at hup
      · cases hup
        exact h
      · split at hup
        · cases hup
        · split at hup
          · cases hup
            exact ((h.but _).put _).eraseIfNullEntry
          · split at hup
            · cases hup
            · rename_i hnull
              cases hup
              refine (h.but _).tidy ?_
              rw [BitVec.or_comm]
              exact hnull

/-- **No operation of the filter leaves an empty entry.** -/
theorem Tidy.step {r r' : FilterRun fp} (h : Tidy r.filter) {i : FilterInput fp}
    (hstep : filterStep fp r i = .ok r') : Tidy r'.filter := by
  cases i with
  | request cpkt port will_retry =>
    obtain ⟨q, hlookup, hrest⟩ := bind_ok_iff.1 hstep
    obtain ⟨s, hfinish, hret⟩ := bind_ok_iff.1 hrest
    cases hret
    exact Tidy.finishRequest (h.lookupRequest hlookup) hfinish
  | snoop cpkt =>
    obtain ⟨q, hlookup, hret⟩ := bind_ok_iff.1 hstep
    cases hret
    exact h.lookupSnoop hlookup
  | snoopResponse cpkt rsp_port req_port =>
    obtain ⟨s, hup, hret⟩ := bind_ok_iff.1 hstep
    cases hret
    exact h.updateSnoopResponse hup
  | snoopForward cpkt =>
    obtain ⟨s, hup, hret⟩ := bind_ok_iff.1 hstep
    cases hret
    exact h.updateSnoopForward hup
  | response cpkt port =>
    obtain ⟨s, hup, hret⟩ := bind_ok_iff.1 hstep
    cases hret
    exact h.updateResponse hup

theorem reachable_tidy {r : FilterRun fp} (hrun : Reaches (filterNext fp) (fun _ _ => True) {} r) :
    Tidy r.filter := by
  refine hrun.inv (P := fun r => Tidy r.filter) tidy_init fun r i r' h _ hnext => ?_
  unfold filterNext at hnext
  cases hstep : filterStep fp r i with
  | error f =>
    rw [hstep] at hnext
    cases hnext
  | ok r'' =>
    rw [hstep] at hnext
    cases hnext
    exact h.step hstep

/-- **A request that will be retried leaves the table as it was.** -/
theorem finishRequest_retry {s'' : SnoopFilter} (h : Tidy s) (hlookup : s.lookupRequest cpkt port = .ok (s', snoops))
    (hfinish : s'.finishRequest fp true cpkt.addr cpkt.isSecure = .ok s'') :
    s''.cachedLocations = s.cachedLocations := by
  unfold SnoopFilter.finishRequest at hfinish
  rcases lookupRequest_table hlookup with ⟨hnone, htable⟩ | ⟨hres, hretry, it, htable⟩
  · rw [hnone] at hfinish
    cases hfinish
    exact htable
  · rw [hres] at hfinish
    dsimp only at hfinish
    rw [if_neg (fun hc => hc rfl), if_pos rfl, Except.ok.injEq] at hfinish
    subst hfinish
    unfold SnoopFilter.eraseIfNullEntry SnoopFilter.put
    rw [Finmap.lookup_insert, htable, Finmap.insert_insert, hretry]
    dsimp only
    cases hentry : s.cachedLocations.lookup (lineAddr fp cpkt.addr cpkt.isSecure) with
    | none =>
      -- the entry that the lookup made is removed
      rw [Option.getD_none, if_pos (by decide)]
      refine Finmap.ext_lookup fun k => ?_
      by_cases hk : k = lineAddr fp cpkt.addr cpkt.isSecure
      · subst hk
        rw [Finmap.lookup_erase, hentry]
      · rw [Finmap.lookup_erase_ne hk, Finmap.lookup_insert_of_ne _ hk]
    | some it =>
      rw [Option.getD_some, if_neg (h _ it hentry)]
      refine Finmap.ext_lookup fun k => ?_
      by_cases hk : k = lineAddr fp cpkt.addr cpkt.isSecure
      · subst hk
        rw [Finmap.lookup_insert, hentry]
      · rw [Finmap.lookup_insert_of_ne _ hk]

/-! ## Refusals -/

variable {p : RouteParams}

/-- The port below is asked whether it takes a cache clean, and does not. -/
def RouteParams.refusedBelow (p : RouteParams) (pkt : Packet) (env : ReqEnv) : Bool :=
  (pkt.isExpressSnoop || env.layerAccepts) && p.snoopsCaches pkt && pkt.isClean &&
    !p.isDestination pkt && !env.portReady

/-- What `calcPacketWirelessTiming` adds to the header delay. -/
def RouteParams.addedDelay (p : RouteParams) (env : ReqEnv) : UInt32 :=
  env.offset + (p.frontendLatency + p.forwardLatency) * p.clockPeriod

theorem finishReq_refused {t : Tables} {pkt : Packet} {slave_port_id : PortID} {express responding : Bool}
    {old_header_delay : UInt32} {env : ReqEnv} {q : ReqResult}
    (h : finishReq p t pkt slave_port_id express responding old_header_delay env = .ok q)
    (hrefused : q.success = false) : q.tables = t ∧ q.pkt.headerDelay = old_header_delay := by
  unfold finishReq at h
  obtain ⟨s, -, h⟩ := bind_ok_iff.1 h
  split at h
  · split at h
    · cases h
    · cases h
      exact ⟨rfl, rfl⟩
  · -- a packet that was sent on is not refused
    obtain ⟨t', -, h⟩ := bind_ok_iff.1 h
    obtain ⟨a, -, h⟩ := bind_ok_iff.1 h
    obtain ⟨d, -, h⟩ := bind_ok_iff.1 h
    cases h
    cases hrefused

/-- **The refusals of `recvTimingReq`**: the tables are as before, and so is the header delay, unless the
port below was asked first. -/
theorem recvTimingReq_refused {t : Tables} {pkt : Packet} {slave_port_id : PortID} {env : ReqEnv}
    {q : ReqResult} (h : recvTimingReq p t pkt slave_port_id env = .ok q) (hrefused : q.success = false) :
    q.tables = t ∧ q.pkt.headerDelay =
      if p.refusedBelow pkt env then pkt.headerDelay + p.addedDelay env else pkt.headerDelay := by
  unfold recvTimingReq at h
  dsimp only at h
  unfold RouteParams.refusedBelow
  split at h
  · cases h
  · split at h
    · rename_i hlayer
      cases h
      refine ⟨rfl, ?_⟩
      rw [Bool.and_eq_true, Bool.not_eq_true', Bool.not_eq_true'] at hlayer
      rw [hlayer.1, hlayer.2]
      rfl
    · rename_i hlayer
      have haccepts : (pkt.isExpressSnoop || env.layerAccepts) = true := by
        simpa [Bool.or_eq_true, imp_iff_not_or] using hlayer
      rw [haccepts, Bool.true_and]
      split at h
      · cases h
      · split at h
        · rename_i hbelow
          cases h
          rw [hbelow]
          exact ⟨rfl, rfl⟩
        · rename_i hbelow
          obtain ⟨htables, hdelay⟩ := finishReq_refused h hrefused
          rw [if_neg hbelow]
          exact ⟨htables, hdelay⟩

/-! ## The filter of a request -/

/-- The tables and the packet; a call leaves them changed. -/
structure ReqState where
  tables : Tables := {}
  filter : SnoopFilter := {}
  cpkt : CohPacket

/-- A call of `recvTimingReq`: what happens to it, and what a cache does that is snooped. -/
structure ReqCall (fp : SnoopFilterParams) where
  slave_port : fp.ports.Port
  env : ReqEnv
  snooped : fp.ports.Port → SnoopEffect := fun _ => {}

inductive ReqFault where
  | xbar (f : Fault)
  | filter (f : FilterFault)

/-- The call comes to `snoopFilter->lookupRequest`. -/
def RouteParams.asksFilter (p : RouteParams) (pkt : Packet) (env : ReqEnv) : Bool :=
  p.snoopFilter && p.snoopsCaches pkt && (pkt.isExpressSnoop || env.layerAccepts) &&
    !p.refusedBelow pkt env

/-- The answers of the filter are the ports to snoop and its latency. -/
def ReqCall.answered (c : ReqCall fp) (snoops : Snoops fp) : ReqEnv :=
  { c.env with
    dests := snoops.1.map fun i => (Int16.ofNat i.val, c.snooped i)
    lookupLatency := UInt32.ofNat snoops.2 }

/-- `recvTimingReq` with the snoop filter, and whether it accepts.  A direct response, which only an
accepted call sends, updates the filter afterwards. -/
def recvTimingReqFiltered (p : RouteParams) (s : ReqState) (c : ReqCall fp) : Except ReqFault (ReqState × Bool) :=
  if p.asksFilter s.cpkt.toPacket c.env then do
    let sf_res ← (s.filter.lookupRequest s.cpkt c.slave_port).mapError ReqFault.filter
    let q ← (recvTimingReq p s.tables s.cpkt.toPacket (Int16.ofNat c.slave_port.val)
      (c.answered sf_res.2)).mapError ReqFault.xbar
    let filter ← (sf_res.1.finishRequest fp (!q.success) s.cpkt.addr s.cpkt.isSecure).mapError
      ReqFault.filter
    return (⟨q.tables, filter, { s.cpkt with toPacket := q.pkt }⟩, q.success)
  else do
    let q ← (recvTimingReq p s.tables s.cpkt.toPacket (Int16.ofNat c.slave_port.val) c.env).mapError
      ReqFault.xbar
    return (⟨q.tables, s.filter, { s.cpkt with toPacket := q.pkt }⟩, q.success)

/-- A call that is refused. -/
def refuse (fp : SnoopFilterParams) (p : RouteParams) (s : ReqState) (c : ReqCall fp) : Option ReqState :=
  match recvTimingReqFiltered p s c with
  | .ok (s', false) => some s'
  | _ => none

/-- Nothing is left behind. -/
structure Traceless (s s' : ReqState) : Prop where
  headerDelay : s'.cpkt.headerDelay = s.cpkt.headerDelay
  tables : s'.tables = s.tables
  cachedLocations : s'.filter.cachedLocations = s.filter.cachedLocations

/-- The call is refused before the snooping with a delay added to the packet. -/
def DelaysRefused (p : RouteParams) (s : ReqState) (c : ReqCall fp) : Prop :=
  p.refusedBelow s.cpkt.toPacket c.env = true ∧ p.addedDelay c.env ≠ 0

theorem refuse_spec {s s' : ReqState} {c : ReqCall fp} (htidy : Tidy s.filter) (h : refuse fp p s c = some s') :
    s'.tables = s.tables ∧ s'.filter.cachedLocations = s.filter.cachedLocations ∧
      s'.cpkt.headerDelay = if p.refusedBelow s.cpkt.toPacket c.env then
        s.cpkt.headerDelay + p.addedDelay c.env else s.cpkt.headerDelay := by
  unfold refuse at h
  split at h
  · rename_i hcall
    cases h
    unfold recvTimingReqFiltered at hcall
    split at hcall
    · obtain ⟨⟨f, snoops⟩, hlookup, hcall⟩ := bind_ok_iff.1 hcall
      obtain ⟨q, hq, hcall⟩ := bind_ok_iff.1 hcall
      obtain ⟨f', hfinish, hcall⟩ := bind_ok_iff.1 hcall
      rw [mapError_ok_iff] at hlookup hq hfinish
      have hrefused : q.success = false := congrArg Prod.snd (Except.ok.inj hcall)
      obtain rfl := congrArg Prod.fst (Except.ok.inj hcall)
      rw [hrefused] at hfinish
      obtain ⟨htables, hdelay⟩ := recvTimingReq_refused hq hrefused
      exact ⟨htables, finishRequest_retry htidy hlookup hfinish, hdelay⟩
    · obtain ⟨q, hq, hcall⟩ := bind_ok_iff.1 hcall
      rw [mapError_ok_iff] at hq
      have hrefused : q.success = false := congrArg Prod.snd (Except.ok.inj hcall)
      obtain rfl := congrArg Prod.fst (Except.ok.inj hcall)
      obtain ⟨htables, hdelay⟩ := recvTimingReq_refused hq hrefused
      exact ⟨htables, rfl, hdelay⟩
  · cases h

theorem refuse_traceless_iff {s s' : ReqState} {c : ReqCall fp} (htidy : Tidy s.filter)
    (h : refuse fp p s c = some s') : Traceless s s' ↔ ¬ DelaysRefused p s c := by
  obtain ⟨htables, hfilter, hdelay⟩ := refuse_spec htidy h
  unfold DelaysRefused
  constructor
  · rintro hsame ⟨hbelow, hne⟩
    rw [hbelow, if_pos rfl, hsame.headerDelay] at hdelay
    exact hne (by simpa using hdelay.symm)
  · intro hno
    refine ⟨?_, htables, hfilter⟩
    rw [hdelay]
    split
    · rename_i hbelow
      have hzero : p.addedDelay c.env = 0 := Decidable.of_not_not fun hne => hno ⟨hbelow, hne⟩
      rw [hzero, UInt32.add_zero]
    · rfl

theorem Tidy.congr {f f' : SnoopFilter} (h : Tidy f) (heq : f'.cachedLocations = f.cachedLocations) : Tidy f' := by
  intro k it hit
  rw [heq] at hit
  exact h k it hit

theorem Traceless.trans {s s' s'' : ReqState} (h : Traceless s s') (h' : Traceless s' s'') : Traceless s s'' :=
  ⟨h'.headerDelay.trans h.headerDelay, h'.tables.trans h.tables,
    h'.cachedLocations.trans h.cachedLocations⟩

/-- **A refused request leaves no trace** in its header delay, `routeTo`, `outstandingSnoop`,
`outstandingCMO` and the table of the snoop filter, in any state of these tables and any state that the
filter can have, exactly when it is not refused before the snooping with a delay added to it; and any
number of such refusals leave none. -/
theorem refused_traceless_iff {r : FilterRun fp} (hrun : Reaches (filterNext fp) (fun _ _ => True) {} r)
    (t : Tables) (cpkt : CohPacket) : (∀ (c : ReqCall fp) s', refuse fp p ⟨t, r.filter, cpkt⟩ c = some s' →
      (Traceless ⟨t, r.filter, cpkt⟩ s' ↔ ¬ DelaysRefused p ⟨t, r.filter, cpkt⟩ c)) ∧
    ∀ s', Reaches (refuse fp p) (fun s c => ¬ DelaysRefused p s c) ⟨t, r.filter, cpkt⟩ s' →
      Traceless ⟨t, r.filter, cpkt⟩ s' := by
  have htidy := reachable_tidy hrun
  refine ⟨fun c s' h => refuse_traceless_iff htidy h, fun s' hcalls => ?_⟩
  refine hcalls.inv (P := fun s' => Traceless ⟨t, r.filter, cpkt⟩ s') ⟨rfl, rfl, rfl⟩ ?_
  intro s c s' hs hno h
  exact hs.trans ((refuse_traceless_iff (htidy.congr hs.cachedLocations) h).2 hno)

/-- A crossbar above the point of coherency, with a snoop filter. -/
def upperParams : RouteParams :=
  { routeParams with pointOfCoherency := false, snoopFilter := true, slaves := 3 }

/-- A cache clean to the point of coherency. -/
def cleanPkt : CohPacket := { toPacket := cleanReq, isCacheMaintenance := true }

/-- The port below is busy. -/
def busyBelow : ReqCall filterParams :=
  { slave_port := (⟨0, by decide⟩ : Fin 3), env := { layerAccepts := true, portReady := false } }

theorem refused_traceless_iff_cleanPkt :
    (∀ (c : ReqCall filterParams) s', refuse filterParams upperParams ⟨{}, {}, cleanPkt⟩ c = some s' →
      (Traceless ⟨{}, {}, cleanPkt⟩ s' ↔ ¬ DelaysRefused upperParams ⟨{}, {}, cleanPkt⟩ c)) ∧
    ∀ s', Reaches (refuse filterParams upperParams) (fun s c => ¬ DelaysRefused upperParams s c)
      ⟨{}, {}, cleanPkt⟩ s' → Traceless ⟨{}, {}, cleanPkt⟩ s' :=
  refused_traceless_iff (r := {}) .refl {} cleanPkt

/-- The cache clean is refused twice and has both delays. -/
theorem refused_clean_delayed : ∃ s s', refuse filterParams upperParams ⟨{}, {}, cleanPkt⟩ busyBelow = some s ∧
      refuse filterParams upperParams s busyBelow = some s' ∧
      ¬ Traceless ⟨{}, {}, cleanPkt⟩ s ∧ s.cpkt.headerDelay = 2 ∧ s'.cpkt.headerDelay = 4 :=
  ⟨_, _, rfl, rfl, fun h => absurd (show (2 : UInt32) = 0 from h.headerDelay) (by decide), rfl, rfl⟩

end Alpine.Mem
