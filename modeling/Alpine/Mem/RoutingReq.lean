import Alpine.Mem.RoutingHistory

/-!
# Requests and the routing tables

* `SendCase` — what can become of a packet: refused, sunk, sent on, or turned around.
* `Answered` — what the crossbar does about its own response; `RouteInv.write` and
  `RouteInv.cleanRequest` are the two halves of a cache clean.
* `Finished`, `RouteInv.req` — `recvTimingReq` keeps the invariant, and what it answers itself goes to the
  port that the history names.
-/

namespace Alpine.Mem

variable {p : RouteParams} {t : Tables} {awaiting : Nat → Option Await}

/-! ## Snooping -/

/-- Snooping and timing leave these fields of a packet. -/
structure SameRequest (pkt pkt' : Packet) : Prop where
  cmd : pkt'.cmd = pkt.cmd
  id : pkt'.id = pkt.id
  req : pkt'.req = pkt.req

theorem applyAll_spec : ∀ (l : List (PortID × SnoopEffect)) (pkt : Packet),
    SameRequest pkt (l.foldl (fun pkt d => d.2.apply pkt) pkt) ∧
      (l.foldl (fun pkt d => d.2.apply pkt) pkt).cacheResponding =
        (pkt.cacheResponding || l.any fun d => d.2.setCacheResponding)
  | [], pkt => ⟨⟨rfl, rfl, rfl⟩, (Bool.or_false _).symm⟩
  | d :: l, pkt => by
    obtain ⟨hsame, hresp⟩ := applyAll_spec l (d.2.apply pkt)
    refine ⟨⟨hsame.cmd, hsame.id, hsame.req⟩, ?_⟩
    rw [List.foldl_cons, hresp, List.any_cons, ← Bool.or_assoc]
    rfl

theorem forwardTiming_spec (pkt : Packet) (exclude : PortID) (dests : List (PortID × SnoopEffect)) :
    SameRequest pkt (forwardTiming pkt exclude dests) ∧ (forwardTiming pkt exclude dests).cacheResponding =
        (pkt.cacheResponding || (responder exclude dests).isSome) := by
  obtain ⟨hsame, hresp⟩ := applyAll_spec (snoopedPorts exclude dests) pkt
  refine ⟨hsame, hresp.trans ?_⟩
  unfold responder
  rw [Option.isSome_map, List.isSome_find?]

/-- A snoop does not go back to where it came from. -/
theorem responder_ne {exclude id : PortID} {dests : List (PortID × SnoopEffect)}
    (hvalid : exclude ≠ InvalidPortID) (h : responder exclude dests = some id) : id ≠ exclude := by
  unfold responder at h
  obtain ⟨d, hd, rfl⟩ := Option.map_eq_some_iff.1 h
  have hmem := List.mem_of_find?_eq_some hd
  unfold snoopedPorts at hmem
  simp only [List.mem_filter, Bool.or_eq_true, decide_eq_true_eq] at hmem
  exact hmem.2.resolve_left hvalid

theorem snoopCaches_spec (pkt : Packet) (slave_port_id : PortID) (env : ReqEnv) :
    SameRequest pkt (snoopCaches p pkt slave_port_id env) ∧
      (snoopCaches p pkt slave_port_id env).cacheResponding = (pkt.cacheResponding ||
        !(p.snoopFilter && pkt.isEviction) && (responder slave_port_id env.dests).isSome) := by
  have hplain := forwardTiming_spec pkt slave_port_id env.dests
  have htimed := forwardTiming_spec
    { pkt with headerDelay := pkt.headerDelay + env.lookupLatency * p.clockPeriod } slave_port_id env.dests
  unfold snoopCaches
  cases hf : p.snoopFilter with
  | false =>
    rw [Bool.false_and, Bool.not_false, Bool.true_and]
    exact ⟨⟨hplain.1.cmd, hplain.1.id, hplain.1.req⟩, hplain.2⟩
  | true =>
    rw [if_pos rfl]
    dsimp only
    split
    · rename_i hev
      have hevict : pkt.isEviction = true := hev
      rw [hevict, Bool.true_and, Bool.not_true, Bool.false_and, Bool.or_false]
      split
      · exact ⟨⟨rfl, rfl, rfl⟩, rfl⟩
      · exact ⟨⟨rfl, rfl, rfl⟩, rfl⟩
    · rename_i hev
      have hevict : pkt.isEviction = false := Bool.eq_false_iff.2 hev
      rw [hevict, Bool.true_and, Bool.not_false, Bool.true_and]
      exact ⟨⟨htimed.1.cmd, htimed.1.id, htimed.1.req⟩, htimed.2⟩

theorem snooped_spec (pkt : Packet) (slave_port_id : PortID) (env : ReqEnv) :
    SameRequest pkt (p.snooped pkt slave_port_id env) ∧ (p.snooped pkt slave_port_id env).cacheResponding =
        (pkt.cacheResponding || (committed p pkt slave_port_id env).isSome) := by
  unfold RouteParams.snooped committed
  cases hs : p.snoopsCaches pkt with
  | false => exact ⟨⟨rfl, rfl, rfl⟩, (Bool.or_false _).symm⟩
  | true =>
    obtain ⟨hsame, hresp⟩ := snoopCaches_spec (p := p) (p.timed pkt env) slave_port_id env
    refine ⟨⟨hsame.cmd, hsame.id, hsame.req⟩, ?_⟩
    rw [if_pos rfl, hresp, Bool.true_and]
    have hev : (p.timed pkt env).isEviction = pkt.isEviction := rfl
    rw [hev]
    cases p.snoopFilter && pkt.isEviction with
    | true => rfl
    | false => rfl

/-- `recvTimingReq` fails, refuses the packet, or goes on after the snooping. -/
theorem recvTimingReq_cases (t : Tables) (pkt : Packet) (slave_port_id : PortID) (env : ReqEnv) :
    recvTimingReq p t pkt slave_port_id env = .error .assertion ∨
    (∃ q, recvTimingReq p t pkt slave_port_id env = .ok q ∧ q.tables = t ∧ q.success = false ∧ q.direct = none) ∨
    (pkt.isExpressSnoop = pkt.cacheResponding ∧ recvTimingReq p t pkt slave_port_id env =
      finishReq p t (p.snooped pkt slave_port_id env) slave_port_id pkt.isExpressSnoop
        pkt.cacheResponding pkt.headerDelay env) := by
  unfold recvTimingReq
  dsimp only
  split
  · exact .inl rfl
  · rename_i hexp
    split
    · exact .inr (.inl ⟨_, rfl, rfl, rfl, rfl⟩)
    · split
      · exact .inl rfl
      · split
        · exact .inr (.inl ⟨_, rfl, rfl, rfl, rfl⟩)
        · exact .inr (.inr ⟨not_not.1 hexp, rfl⟩)

/-! ## Sinking, sending on and answering -/

variable {pkt : Packet}

/-- A sunk packet needs no response, or a cache gives it. -/
theorem sinkPacket_answered (h : p.sinkPacket pkt = true) :
    pkt.cacheResponding = true ∨ pkt.needsResponse = false := by
  unfold RouteParams.sinkPacket at h
  simp only [Bool.or_eq_true, Bool.and_eq_true] at h
  rcases h with ((h | h) | h) | h
  · exact .inl h.2
  · exact .inr (by simpa using h.2)
  · exact .inr (Packet.cleanEviction_needsResponse h.1)
  · exact .inl h.1

/-- A packet that is neither sunk nor sent on is not a write, and no cache answers it. -/
theorem direct_spec (hsink : p.sinkPacket pkt = false) (hforward : p.forwardPacket pkt = false) :
    pkt.isWrite = false ∧ pkt.cacheResponding = false := by
  unfold RouteParams.forwardPacket at hforward
  unfold RouteParams.sinkPacket at hsink
  simp only [Bool.or_eq_false_iff] at hsink
  split at hforward
  · rename_i hclean
    obtain ⟨hwritable, hwrite, -⟩ := MemCmd.clean_spec pkt.cmd hclean
    refine ⟨hwrite, ?_⟩
    have hw : pkt.needsWritable = false := hwritable
    simpa [hw] using hsink.2
  · simp only [Bool.or_eq_false_iff, Bool.not_eq_false'] at hforward
    refine ⟨hforward.1.2, ?_⟩
    simpa [hforward.2] using hsink.1.1.1

/-- A packet that is sent on is not a clean request at its destination, whatever the port below makes
of it. -/
theorem forward_not_clean (hforward : p.forwardPacket pkt = true) (hdest : p.isDestination pkt = true) :
    pkt.isClean = false := by
  unfold RouteParams.forwardPacket at hforward
  split at hforward
  · rw [hdest] at hforward
    cases hforward
  · rename_i hclean
    exact Bool.eq_false_iff.2 hclean

/-- What can become of a packet. -/
inductive SendCase (p : RouteParams) (pkt : Packet) : Sending → Prop where
  | refused {s : Sending} : s.success = false → SendCase p pkt s
  | sunk : pkt.cacheResponding = true ∨ pkt.needsResponse = false →
      SendCase p pkt ⟨pkt, true, false, false, false⟩
  | forwarded {pkt' : Packet} : (p.isDestination pkt = true → pkt'.isClean = false) →
      SendCase p pkt ⟨pkt', true, true, pkt.needsResponse && !pkt.cacheResponding, false⟩
  | direct : pkt.isWrite = false → pkt.cacheResponding = false → pkt.needsResponse = true →
      SendCase p pkt ⟨pkt, true, false, false, true⟩

theorem sendOn_cases (pkt : Packet) (expect_snoop_resp : Bool) (env : ReqEnv) :
    sendOn p pkt expect_snoop_resp env = .error .assertion ∨
    ∃ s, sendOn p pkt expect_snoop_resp env = .ok s ∧ SendCase p pkt s := by
  unfold sendOn
  dsimp only
  cases hsink : p.sinkPacket pkt with
  | true =>
    have hanswered := sinkPacket_answered hsink
    have hexpect : (pkt.needsResponse && !pkt.cacheResponding) = false := by
      rcases hanswered with h | h
      · rw [h, Bool.not_true, Bool.and_false]
      · rw [h, Bool.false_and]
    rw [if_pos rfl, hexpect]
    exact .inr ⟨_, rfl, .sunk hanswered⟩
  | false =>
    rw [if_neg Bool.false_ne_true]
    cases hforward : p.forwardPacket pkt with
    | true =>
      rw [if_pos rfl]
      refine .inr ⟨_, rfl, ?_⟩
      cases env.sendAccepted with
      | false => exact .refused rfl
      | true =>
        refine .forwarded fun hdest => ?_
        have hclean := forward_not_clean hforward hdest
        have hresp := (MemCmd.responseCommand_spec pkt.cmd).2 hclean
        split <;> split <;> split <;> first | exact hclean | exact hresp
    | false =>
      obtain ⟨hwrite, hresponding⟩ := direct_spec hsink hforward
      rw [if_neg Bool.false_ne_true]
      split
      · exact .inl rfl
      · rename_i hneeds
        simp only [Bool.or_eq_true, Bool.not_eq_true', not_or, Bool.not_eq_false] at hneeds
        exact .inr ⟨_, rfl, .direct hwrite hresponding hneeds.1⟩

/-! ## Recording -/

theorem insertRoute_fresh {k : Nat} (id : PortID) (hfresh : t.findRoute k = none) :
    t.insertRoute k id = .ok { t with routeTo := (k, id) :: t.routeTo } := by
  unfold Tables.insertRoute
  rw [hfresh]
  rfl

theorem bind_ok {α β : Type} (a : α) (f : α → Except Fault β) : (Except.ok a >>= f) = f a := rfl

theorem recordRoute_cases {k : Nat} (id : PortID) (hfresh : t.findRoute k = none) :
    (∃ msg, recordRoute t k id true = .error (.panic msg)) ∨
      recordRoute t k id true = .ok { t with routeTo := (k, id) :: t.routeTo } := by
  unfold recordRoute
  rw [if_pos rfl, insertRoute_fresh id hfresh, bind_ok]
  unfold Tables.checkRoutes
  split
  · exact .inl ⟨_, rfl⟩
  · exact .inr rfl

theorem record_plain (t : Tables) (k : Nat) (slave_port_id : PortID) (expect_response : Bool) :
    record t k slave_port_id false false expect_response = recordRoute t k slave_port_id expect_response := by
  unfold record
  rw [Bool.or_false]
  rfl

variable {slave_port_id : PortID}

/-- A request that a cache took up is recorded in both tables. -/
theorem RouteInv.recordCache (h : RouteInv p t awaiting) {k : Nat} {id : PortID} {expect_response : Bool}
    (hport : InRange slave_port_id p.slaves) (hfresh : awaiting k = none) (hne : id ≠ slave_port_id) :
    (∃ msg, record t k slave_port_id false true expect_response = .error (.panic msg)) ∨
    ∃ t', record t k slave_port_id false true expect_response = .ok t' ∧
      RouteInv p t' (Function.update awaiting k (some ⟨false, slave_port_id, .cache id⟩)) := by
  unfold record recordSnoop Tables.insertSnoop
  rw [if_neg Bool.false_ne_true, if_pos rfl, if_neg (h.not_outstanding hfresh), Bool.or_true]
  split
  · exact .inl ⟨_, rfl⟩
  · rw [bind_ok]
    have hroute : ({ t with outstandingSnoop := k :: t.outstandingSnoop } : Tables).findRoute k = none :=
      h.findRoute_none hfresh
    rcases recordRoute_cases slave_port_id hroute with ⟨msg, hmsg⟩ | hok
    · exact .inl ⟨msg, hmsg⟩
    · refine .inr ⟨_, hok, h.add hfresh hport (fun hs => (nomatch hs)) (fun _ hc => ?_)
        (findRoute_cons _ _ · _) (fun q => ?_) rfl⟩
      · exact hne (Answerer.cache.inj hc)
      · rw [List.mem_cons]
        refine or_congr ⟨fun hq => ⟨hq, rfl, id, rfl⟩, fun hq => hq.1⟩ Iff.rfl

/-- A request that no cache took up. -/
theorem RouteInv.addPlain (h : RouteInv p t awaiting) {k : Nat} {a : Answerer}
    (hport : InRange slave_port_id p.slaves) (hfresh : awaiting k = none) (ha : ∀ id, a ≠ .cache id) :
    RouteInv p { t with routeTo := (k, slave_port_id) :: t.routeTo }
      (Function.update awaiting k (some ⟨false, slave_port_id, a⟩)) := by
  refine h.add hfresh hport (fun hs => (nomatch hs)) (fun _ => ha _) (findRoute_cons t _ · _) (fun q => ?_) rfl
  refine ⟨.inr, fun hq => hq.resolve_left ?_⟩
  rintro ⟨-, -, id, hid⟩
  exact ha id hid

/-! ## The cache clean -/

/-- What the crossbar can do about its own response, when `awaiting` are the accepted requests. -/
inductive Answered (p : RouteParams) (awaiting : Nat → Option Await) :
    Except Fault (Tables × Option (Packet × PortID)) → Prop where
  | failed {f : Fault} : f ≠ .route → Answered p awaiting (.error f)
  | waits {t : Tables} : RouteInv p t awaiting → Answered p awaiting (.ok (t, none))
  | answers {t : Tables} {rsp_pkt : Packet} {a : Await} : awaiting rsp_pkt.req.ptr = some a →
      a.snoop = false → RouteInv p t (Function.update awaiting rsp_pkt.req.ptr none) →
      Answered p awaiting (.ok (t, some (rsp_pkt, a.port)))

/-- A request that is answered as soon as it is accepted. -/
theorem answered_now (h : RouteInv p t awaiting) (hfresh : awaiting pkt.req.ptr = none) :
    Answered p (Function.update awaiting pkt.req.ptr (some ⟨false, slave_port_id, .crossbar⟩))
      (.ok (t, some (pkt, slave_port_id))) := by
  refine .answers (Function.update_self _ _ _) rfl ?_
  rw [Function.update_idem, ← hfresh, Function.update_eq_self]
  exact h

/-- The second half of a cache clean is a write: the clean request, if it is there, gets its response. -/
theorem RouteInv.write (h : RouteInv p t awaiting) (hwrite : pkt.isWrite = true) (slave_port_id : PortID) :
    Answered p awaiting (rendezvous p t pkt slave_port_id) := by
  unfold rendezvous
  split
  · rename_i deferred hfind
    rw [if_pos hwrite]
    cases deferred with
    | none => exact .failed fun hc => (nomatch hc)
    | some rsp_pkt =>
      obtain ⟨l1, l2, hcmo, -⟩ := List.lookup_eq_some_iff.1 hfind
      have hmem : (pkt.id, some rsp_pkt) ∈ t.outstandingCMO := by
        rw [hcmo]
        exact List.mem_append_right _ List.mem_cons_self
      obtain ⟨a, ha, hs, hanswer⟩ := h.clean _ hmem rsp_pkt rfl
      dsimp only
      rw [h.findRoute_some ha]
      dsimp only
      rw [if_pos (h.slavePort ha hs)]
      refine .answers ha hs (h.remove (findRoute_eraseRoute t _) (h.not_snooped ha ?_)
        List.filter_sublist fun e he q hq hptr => ?_)
      · intro id hid
        rw [hanswer] at hid
        cases hid
      · -- the entry is not the one that was found
        obtain ⟨he, hid⟩ := List.mem_filter.1 he
        have hne : e ≠ (pkt.id, some rsp_pkt) := by
          rintro rfl
          simp at hid
        have : Std.Symm fun e e' : Nat × Option Packet =>
            ∀ q q', e.2 = some q → e'.2 = some q' → q.req.ptr ≠ q'.req.ptr :=
          ⟨fun _ _ hp q q' hq hq' => (hp q' q hq' hq).symm⟩
        exact h.distinct.forall he hmem hne q rsp_pkt hq rfl hptr
  · rw [if_pos hwrite]
    exact .waits (h.insertWrite _)

/-- A satisfied clean request at its destination: it is answered now, or waits for its write. -/
theorem RouteInv.cleanRequest (h : RouteInv p t awaiting) (hwrite : pkt.isWrite = false)
    (hport : InRange slave_port_id p.slaves) (hfresh : awaiting pkt.req.ptr = none) :
    Answered p (Function.update awaiting pkt.req.ptr (some ⟨false, slave_port_id, .crossbar⟩))
      (rendezvous p t pkt slave_port_id) := by
  have hnot : ¬ pkt.isWrite = true := by rw [hwrite]; exact Bool.false_ne_true
  unfold rendezvous
  split
  · rw [if_neg hnot]
    exact answered_now (h.eraseCMO _) hfresh
  · rw [if_neg hnot]
    have hroute : (t.insertCMO pkt.id (some pkt)).findRoute pkt.req.ptr = none := h.findRoute_none hfresh
    rcases recordRoute_cases slave_port_id hroute with ⟨msg, hmsg⟩ | hok
    · rw [hmsg]
      exact .failed fun hc => (nomatch hc)
    · rw [hok, bind_ok]
      have hadd := h.addPlain hport hfresh (a := .crossbar) fun _ hc => (nomatch hc)
      refine .waits (hadd.insertClean (Function.update_self _ _ _) rfl rfl ?_)
      intro e he q hq hptr
      obtain ⟨b, hb, -⟩ := h.clean e he q hq
      rw [hptr, hfresh] at hb
      cases hb

/-! ## The whole request -/

/-- What the first half of `recvTimingReq` leaves to `finishReq`. -/
structure Snooped (pkt x : Packet) (c : Option PortID) : Prop where
  same : SameRequest pkt x
  responding : x.cacheResponding = (pkt.cacheResponding || c.isSome)
  express : pkt.isExpressSnoop = pkt.cacheResponding

variable {x : Packet} {c : Option PortID}

theorem Snooped.needsResponse (hx : Snooped pkt x c) : x.needsResponse = pkt.needsResponse := by
  unfold Packet.needsResponse
  rw [hx.same.cmd]

theorem Snooped.plain (hx : Snooped pkt x c) (h : x.cacheResponding = false) :
    pkt.cacheResponding = false ∧ c = none := by
  have hboth := hx.responding.symm.trans h
  rw [Bool.or_eq_false_iff] at hboth
  exact ⟨hboth.1, by simpa using hboth.2⟩

theorem RouteInv.record (h : RouteInv p t awaiting) {s : Sending} (hx : Snooped pkt x c) (hs : SendCase p x s)
    (hsuccess : s.success = true) (hnot : s.respond_directly = false) (hport : InRange slave_port_id p.slaves)
    (hfresh : pkt.isExpressSnoop = false → awaiting pkt.req.ptr = none)
    (hother : ∀ id, c = some id → id ≠ slave_port_id) : (∃ msg, record t x.req.ptr slave_port_id pkt.isExpressSnoop
      (!pkt.cacheResponding && x.cacheResponding) s.expect_response = .error (.panic msg)) ∨
    ∃ t', record t x.req.ptr slave_port_id pkt.isExpressSnoop
        (!pkt.cacheResponding && x.cacheResponding) s.expect_response = .ok t' ∧
      RouteInv p t' (accept awaiting pkt slave_port_id c s.forwarded) := by
  rw [hx.same.req]
  unfold accept
  cases hexp : pkt.isExpressSnoop with
  | true => exact .inr ⟨t, rfl, h⟩
  | false =>
    have hnone := hfresh hexp
    have hcr : pkt.cacheResponding = false := hx.express.symm.trans hexp
    have hresp : x.cacheResponding = c.isSome := by rw [hx.responding, hcr, Bool.false_or]
    rw [hcr, hresp, Bool.not_false, Bool.true_and, if_neg Bool.false_ne_true]
    unfold answererOf
    cases c with
    | some id => exact h.recordCache hport hnone (hother id rfl)
    | none =>
      have hresp' : x.cacheResponding = false := hresp
      rw [Option.isSome_none, record_plain]
      dsimp only
      rw [← hx.needsResponse]
      cases hs with
      | refused hc => rw [hsuccess] at hc; cases hc
      | direct => cases hnot
      | sunk hanswered =>
        rw [hanswered.resolve_left (by rw [hresp']; exact Bool.false_ne_true)]
        exact .inr ⟨t, rfl, h⟩
      | forwarded =>
        rw [hresp', Bool.not_false, Bool.and_true]
        cases x.needsResponse with
        | false => exact .inr ⟨t, rfl, h⟩
        | true =>
          rcases recordRoute_cases slave_port_id (h.findRoute_none hnone) with hmsg | hok
          · exact .inl hmsg
          · exact .inr ⟨_, hok, h.addPlain hport hnone fun _ hc => (nomatch hc)⟩

/-- Where the response comes after a request that was sunk or sent on, that request is a write. -/
theorem SendCase.isWrite {s : Sending} (hs : SendCase p x s) (hsuccess : s.success = true)
    (hnot : s.respond_directly = false) (hreq : x.isRequest = true)
    (hone : ¬ (x.cacheResponding = true ∧ x.satisfied = true)) (hdest : p.isDestination x = true)
    (hclean : ((s.pkt.isClean && s.pkt.satisfied) || s.pkt.cmd = .WriteClean) = true) : s.pkt.isWrite = true := by
  have hcmd : s.pkt.cmd = .WriteClean → s.pkt.isWrite = true := by
    intro hcmd
    unfold Packet.isWrite
    rw [hcmd]
    rfl
  rw [Bool.or_eq_true, Bool.and_eq_true, decide_eq_true_eq] at hclean
  rcases hclean with ⟨hclean, hsat⟩ | hclean
  · cases hs with
    | refused hc => rw [hsuccess] at hc; cases hc
    | direct => cases hnot
    | sunk hanswered =>
      have hneeds : x.needsResponse = true := (MemCmd.clean_spec x.cmd hclean).2.2 hreq
      exact absurd ⟨hanswered.resolve_right (by rw [hneeds]; exact Bool.noConfusion), hsat⟩ hone
    | forwarded hfwd => rw [hfwd hdest] at hclean; cases hclean
  · exact hcmd hclean

/-- A packet that was turned around is answered, or waits for its write. -/
theorem RouteInv.answerDirect (h : RouteInv p t awaiting) (hx : Snooped pkt x c) (hwrite : x.isWrite = false)
    (hresponding : x.cacheResponding = false) (hneeds : x.needsResponse = true)
    (hport : InRange slave_port_id p.slaves)
    (hfresh : pkt.isExpressSnoop = false → awaiting pkt.req.ptr = none) (is_destination : Bool) :
    Answered p (accept awaiting pkt slave_port_id c false)
      (answer p t ⟨x, true, false, false, true⟩ slave_port_id is_destination) := by
  obtain ⟨hcr, rfl⟩ := hx.plain hresponding
  have hexp : pkt.isExpressSnoop = false := hx.express.trans hcr
  have hnone : awaiting x.req.ptr = none := by rw [hx.same.req]; exact hfresh hexp
  have haccept : accept awaiting pkt slave_port_id none false =
      Function.update awaiting x.req.ptr (some ⟨false, slave_port_id, .crossbar⟩) := by
    rw [hx.needsResponse] at hneeds
    unfold accept answererOf
    rw [hexp, hneeds, hx.same.req]
    rfl
  rw [haccept]
  unfold answer
  split
  · exact h.cleanRequest hwrite hport hnone
  · exact answered_now h hnone

/-- What a request comes to: the invariant holds of the history in which it was accepted and the response
that left the crossbar is there. -/
inductive Finished (p : RouteParams) (awaiting : Nat → Option Await) (pkt : Packet) (slave_port_id : PortID)
    (c : Option PortID) : Except Fault ReqResult → Prop where
  | failed {f : Fault} : f ≠ .route → Finished p awaiting pkt slave_port_id c (.error f)
  | refused {q : ReqResult} : q.success = false → q.direct = none → RouteInv p q.tables awaiting →
      Finished p awaiting pkt slave_port_id c (.ok q)
  | accepted {q : ReqResult} : q.success = true →
      RouteInv p q.tables (settle (accept awaiting pkt slave_port_id c q.forwarded) q.direct) →
      (∀ d, q.direct = some d → ∃ a, accept awaiting pkt slave_port_id c q.forwarded d.req = some a ∧
        a.snoop = false ∧ d = .slave d.req a.port) →
      Finished p awaiting pkt slave_port_id c (.ok q)

theorem Answered.finished {s : Sending} {r : Except Fault (Tables × Option (Packet × PortID))}
    (h : Answered p (accept awaiting pkt slave_port_id c s.forwarded) r) :
    Finished p awaiting pkt slave_port_id c (r >>= fun q => respondDirectly q.2 >>= fun direct =>
      .ok { tables := q.1, pkt := s.pkt, success := true, forwarded := s.forwarded, direct := direct }) := by
  cases h with
  | failed hf => exact .failed hf
  | waits hinv => exact .accepted rfl hinv fun _ hd => (nomatch hd)
  | answers ha hs hinv =>
    rename_i t' rsp_pkt a
    rw [bind_ok]
    unfold respondDirectly
    dsimp only
    split
    · refine .accepted rfl hinv fun d hd => ?_
      cases hd
      exact ⟨a, ha, hs, rfl⟩
    · exact .failed fun hc => (nomatch hc)

theorem RouteInv.finish (h : RouteInv p t awaiting) (hx : Snooped pkt x c) (hreq : pkt.isRequest = true)
    (hport : InRange slave_port_id p.slaves) (hfresh : pkt.isExpressSnoop = false → awaiting pkt.req.ptr = none)
    (hone : ¬ (x.cacheResponding = true ∧ x.satisfied = true))
    (hother : ∀ id, c = some id → id ≠ slave_port_id) (old_header_delay : UInt32) (env : ReqEnv) :
    Finished p awaiting pkt slave_port_id c (finishReq p t x slave_port_id pkt.isExpressSnoop
      pkt.cacheResponding old_header_delay env) := by
  unfold finishReq
  dsimp only
  rcases sendOn_cases x (!pkt.cacheResponding && x.cacheResponding) env with herr | ⟨s, hok, hs⟩
  · rw [herr]
    exact .failed fun hc => (nomatch hc)
  rw [hok, bind_ok]
  cases hsuccess : s.success with
  | false =>
    rw [Bool.not_false, if_pos rfl]
    split
    · exact .failed fun hc => (nomatch hc)
    · exact .refused rfl rfl h
  | true =>
    rw [Bool.not_true, if_neg Bool.false_ne_true]
    cases hdirect : s.respond_directly with
    | false =>
      rcases h.record hx hs hsuccess hdirect hport hfresh hother with ⟨msg, hmsg⟩ | ⟨t', ht', hinv⟩
      · rw [hmsg]
        exact .failed fun hc => (nomatch hc)
      · rw [ht', bind_ok]
        refine Answered.finished ?_
        unfold answer
        rw [hdirect]
        split
        · rename_i hclean
          rw [Bool.and_eq_true] at hclean
          have hreq' : x.isRequest = true := by
            unfold Packet.isRequest
            rw [hx.same.cmd]
            exact hreq
          exact hinv.write (hs.isWrite hsuccess hdirect hreq' hone hclean.2 hclean.1) slave_port_id
        · exact .waits hinv
    | true =>
      cases hs with
      | refused hc => rw [hsuccess] at hc; cases hc
      | sunk => cases hdirect
      | forwarded => cases hdirect
      | direct hwrite hresponding hneeds =>
        have hexp : pkt.isExpressSnoop = false := hx.express.trans (hx.plain hresponding).1
        rw [hresponding, Bool.and_false, hexp, record_plain]
        refine Answered.finished (s := ⟨x, true, false, false, true⟩) ?_
        exact h.answerDirect hx hwrite hresponding hneeds hport hfresh _

theorem committed_ne {id : PortID} {env : ReqEnv} (hport : InRange slave_port_id p.slaves)
    (h : committed p pkt slave_port_id env = some id) : id ≠ slave_port_id := by
  unfold committed at h
  split at h
  · exact responder_ne hport.1 h
  · cases h

theorem RouteInv.req (h : RouteInv p t awaiting) {env : ReqEnv} (hreq : pkt.isRequest = true)
    (hport : InRange slave_port_id p.slaves) (hfresh : pkt.isExpressSnoop = false → awaiting pkt.req.ptr = none)
    (hone : ¬ ((p.snooped pkt slave_port_id env).cacheResponding = true ∧
      (p.snooped pkt slave_port_id env).satisfied = true)) :
    Finished p awaiting pkt slave_port_id (committed p pkt slave_port_id env)
      (recvTimingReq p t pkt slave_port_id env) := by
  obtain ⟨hsame, hresp⟩ := snooped_spec (p := p) pkt slave_port_id env
  rcases recvTimingReq_cases t pkt slave_port_id env with herr | ⟨q, hq, ht, hs, hd⟩ | ⟨hexp, hcall⟩
  · rw [herr]
    exact .failed fun hc => (nomatch hc)
  · rw [hq]
    refine .refused hs hd ?_
    rw [ht]
    exact h
  · rw [hcall]
    exact h.finish ⟨hsame, hresp, hexp⟩ hreq hport hfresh hone (fun _ => committed_ne hport) _ env

end Alpine.Mem
