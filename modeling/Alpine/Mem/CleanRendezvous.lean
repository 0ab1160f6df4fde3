import Alpine.Lib.Outcome
import Alpine.Mem.RoutingRun

/-!
# Cache cleans at their destination

A cache clean is over when both the satisfied clean request and the `WriteClean` with its packet id have
crossed the crossbar that is its destination.  Whichever succeeds first leaves an entry in
`outstandingCMO`; the clean request also one in `routeTo`.

* `recvTimingReq_accepted` — what an accepted request does, step by step.
* `Waiting` — the first half is there: the invariant that other traffic and refused calls keep.
* `clean_rendezvous` — the second half, and nothing before it, produces the one response to the clean
  request, for the port that it came from, and leaves no entry of it.
-/

namespace Alpine.Mem

open Alpine.Run

variable {p : RouteParams} {t : Tables} {awaiting : Nat → Option Await}

/-! ## Accepted requests -/

/-- Sending a packet on leaves these fields. -/
structure Carries (x y : Packet) : Prop where
  same : SameRequest x y
  satisfied : y.satisfied = x.satisfied

theorem carries_refl (x : Packet) : Carries x x := ⟨⟨rfl, rfl, rfl⟩, rfl⟩

variable {expect : Bool} {env : ReqEnv}

/-- The packet that goes on is the one that came, or its response. -/
theorem sendOn_same {x : Packet} {s : Sending} (h : sendOn p x expect env = .ok s) :
    Carries x s.pkt ∨ (x.needsResponse = true ∧ ∃ y, Carries x y ∧ s.pkt = y.makeResponse) := by
  unfold sendOn at h
  dsimp only at h
  split at h
  · cases h
    exact .inl (carries_refl x)
  · split at h
    · have hmark : Carries x (if x.cacheResponding then { x with isExpressSnoop := true } else x) := by
        split
        · exact ⟨⟨rfl, rfl, rfl⟩, rfl⟩
        · exact carries_refl x
      generalize (if x.cacheResponding then { x with isExpressSnoop := true } else x) = y at h hmark
      have hstop : Carries x (if y.isWrite && p.isDestination y then { y with writeThrough := false }
          else y) := by
        split
        · exact ⟨⟨hmark.same.cmd, hmark.same.id, hmark.same.req⟩, hmark.satisfied⟩
        · exact hmark
      generalize (if y.isWrite && p.isDestination y then { y with writeThrough := false } else y) = z
        at h hstop
      cases h
      dsimp only
      split
      · rename_i hanswered
        rw [Bool.and_eq_true] at hanswered
        refine .inr ⟨?_, z, hstop, rfl⟩
        have hneeds := hanswered.2
        unfold Packet.needsResponse at hneeds ⊢
        rw [← hstop.same.cmd]
        exact hneeds
      · exact .inl hstop
    · split at h
      · cases h
      · cases h
        exact .inl (carries_refl x)

variable {pkt : Packet} {slave_port_id : PortID} {q : ReqResult}

/-- What an accepted request does, one step after the other. -/
theorem recvTimingReq_accepted (h : recvTimingReq p t pkt slave_port_id env = .ok q) (hsuccess : q.success = true) :
    ∃ s t' a, pkt.isExpressSnoop = pkt.cacheResponding ∧ sendOn p (p.snooped pkt slave_port_id env)
        (!pkt.cacheResponding && (p.snooped pkt slave_port_id env).cacheResponding) env = .ok s ∧ s.success = true ∧
      record t (p.snooped pkt slave_port_id env).req.ptr slave_port_id pkt.isExpressSnoop
        (!pkt.cacheResponding && (p.snooped pkt slave_port_id env).cacheResponding) s.expect_response = .ok t' ∧
      answer p t' s slave_port_id (p.isDestination (p.snooped pkt slave_port_id env)) = .ok a ∧
      respondDirectly a.2 = .ok q.direct ∧ q.tables = a.1 ∧ q.forwarded = s.forwarded := by
  rcases recvTimingReq_cases t pkt slave_port_id env with herr | ⟨q', hq', -, hs, -⟩ | ⟨hexp, hcall⟩
  · rw [herr] at h
    cases h
  · rw [hq'] at h
    cases h
    rw [hs] at hsuccess
    cases hsuccess
  · rw [hcall] at h
    unfold finishReq at h
    obtain ⟨s, hsend, h⟩ := bind_ok_iff.1 h
    split at h
    · split at h
      · cases h
      · cases h
        cases hsuccess
    · rename_i hs
      obtain ⟨t', hrecord, h⟩ := bind_ok_iff.1 h
      obtain ⟨a, hanswer, h⟩ := bind_ok_iff.1 h
      obtain ⟨d, hdirect, h⟩ := bind_ok_iff.1 h
      cases h
      refine ⟨s, t', a, hexp, hsend, ?_, hrecord, hanswer, hdirect, rfl, rfl⟩
      simpa using hs

/-- A refused request answers nothing and leaves the tables. -/
theorem recvTimingReq_quiet (h : recvTimingReq p t pkt slave_port_id env = .ok q)
    (hsuccess : q.success = false) : q.tables = t ∧ q.direct = none := by
  rcases recvTimingReq_cases t pkt slave_port_id env with herr | ⟨q', hq', ht, -, hd⟩ | ⟨-, hcall⟩
  · rw [herr] at h
    cases h
  · rw [hq'] at h
    cases h
    exact ⟨ht, hd⟩
  · rw [hcall] at h
    unfold finishReq at h
    obtain ⟨s, -, h⟩ := bind_ok_iff.1 h
    split at h
    · split at h
      · cases h
      · cases h
        exact ⟨rfl, rfl⟩
    · obtain ⟨t', -, h⟩ := bind_ok_iff.1 h
      obtain ⟨a, -, h⟩ := bind_ok_iff.1 h
      obtain ⟨d, -, h⟩ := bind_ok_iff.1 h
      cases h
      cases hsuccess

/-! ## The two halves -/

/-- A clean request that the caches above have satisfied, at its destination. -/
def RouteParams.cleans (p : RouteParams) (pkt : Packet) (slave_port_id : PortID) (env : ReqEnv) : Bool :=
  (p.snooped pkt slave_port_id env).isClean && (p.snooped pkt slave_port_id env).satisfied &&
    p.isDestination pkt

/-- The write of the cleaned block, at its destination. -/
def RouteParams.writesClean (p : RouteParams) (pkt : Packet) : Bool :=
  pkt.cmd = .WriteClean && p.isDestination pkt

/-- A half of a cache clean at its destination. -/
def RouteParams.isHalf (p : RouteParams) (pkt : Packet) (slave_port_id : PortID) (env : ReqEnv) : Bool :=
  p.cleans pkt slave_port_id env || p.writesClean pkt

theorem isDestination_snooped (pkt : Packet) (slave_port_id : PortID) (env : ReqEnv) :
    p.isDestination (p.snooped pkt slave_port_id env) = p.isDestination pkt := by
  unfold RouteParams.isDestination
  rw [(snooped_spec pkt slave_port_id env).1.req]

/-- The test before the rendezvous lets only halves pass. -/
theorem isHalf_of_answer {s : Sending} (hsend : sendOn p (p.snooped pkt slave_port_id env) expect env = .ok s)
    (hsuccess : s.success = true) (h : (((s.pkt.isClean && s.pkt.satisfied) || s.pkt.cmd = .WriteClean) &&
      p.isDestination (p.snooped pkt slave_port_id env)) = true) : p.isHalf pkt slave_port_id env = true := by
  have hcmd := (snooped_spec (p := p) pkt slave_port_id env).1.cmd
  rw [Bool.and_eq_true, Bool.or_eq_true, decide_eq_true_eq] at h
  obtain ⟨hkind, hdest⟩ := h
  unfold RouteParams.isHalf RouteParams.cleans RouteParams.writesClean
  rw [← isDestination_snooped pkt slave_port_id env, hdest, Bool.and_true, Bool.and_true, Bool.or_eq_true,
    decide_eq_true_eq]
  rcases sendOn_cases (p.snooped pkt slave_port_id env) expect env with herr | ⟨s', hok, hcase⟩
  · rw [herr] at hsend
    cases hsend
  · rw [hok] at hsend
    cases hsend
    rcases hkind with hclean | hwrite
    · refine .inl ?_
      cases hcase with
      | refused hc =>
        rw [hsuccess] at hc
        cases hc
      | sunk => exact hclean
      | direct => exact hclean
      | forwarded hnot =>
        rw [hnot hdest] at hclean
        cases hclean
    · -- a response is no write
      refine .inr (hcmd.symm.trans ?_)
      rcases sendOn_same hok with hsame | ⟨-, y, hsame, hresp⟩
      · exact hsame.same.cmd.symm.trans hwrite
      · rw [hresp] at hwrite
        exact absurd hwrite (MemCmd.responseCommand_spec y.cmd).1

/-! ## The first half waits -/

inductive Half where
  | write
  | clean (pkt : Packet) (slave_port_id : PortID)

/-- The entry in `outstandingCMO`. -/
def Half.deferred : Half → Option Packet
  | .write => none
  | .clean pkt _ => some pkt

/-- Who waits for a response to the clean request. -/
def Half.owner : Half → Option Await
  | .write => none
  | .clean _ slave_port_id => some ⟨false, slave_port_id, .crossbar⟩

/-- The half that is there belongs to the operation with packet id `k` and clean request `req`. -/
structure Waiting (p : RouteParams) (k req : Nat) (half : Half) (r : RouteRun) : Prop where
  inv : RouteInv p r.tables r.awaiting
  cmo : r.tables.findCMO k = some half.deferred
  owner : r.awaiting req = half.owner
  own : ∀ pkt, half.deferred = some pkt → pkt.req.ptr = req

variable {k req : Nat} {half : Half} {r r' : RouteRun}

/-- Other operations defer other requests. -/
theorem Waiting.apart (h : Waiting p k req half r) {e : Nat × Option Packet}
    (he : e ∈ r.tables.outstandingCMO) (hk : e.1 ≠ k) (hpkt : e.2 = some pkt) : pkt.req.ptr ≠ req := by
  intro hptr
  cases hhalf : half with
  | write =>
    obtain ⟨a, ha, -⟩ := h.inv.clean e he pkt hpkt
    rw [hptr, h.owner, hhalf] at ha
    cases ha
  | clean x id =>
    have hcmo := h.cmo
    rw [hhalf] at hcmo
    obtain ⟨l1, l2, hl, -⟩ := List.lookup_eq_some_iff.1 hcmo
    have hmem : (k, some x) ∈ r.tables.outstandingCMO := by
      rw [hl]
      exact List.mem_append_right _ List.mem_cons_self
    have hsymm : Std.Symm fun e e' : Nat × Option Packet =>
        ∀ q q', e.2 = some q → e'.2 = some q' → q.req.ptr ≠ q'.req.ptr :=
      ⟨fun _ _ hp q q' hq hq' => (hp q' q hq' hq).symm⟩
    have hne : e ≠ (k, some x) := fun hc => hk (congrArg Prod.fst hc)
    refine h.inv.distinct.forall he hmem hne pkt x hpkt rfl ?_
    rw [hptr, h.own x (by rw [hhalf]; rfl)]

theorem findCMO_eraseCMO_of_ne (t : Tables) {j : Nat} (h : j ≠ k) : (t.eraseCMO j).findCMO k = t.findCMO k := by
  unfold Tables.findCMO Tables.eraseCMO
  rw [lookup_filter, if_neg (Ne.symm h)]

theorem findCMO_eraseCMO (t : Tables) (k : Nat) : (t.eraseCMO k).findCMO k = none := by
  unfold Tables.findCMO Tables.eraseCMO
  rw [lookup_filter, if_pos rfl]

theorem findCMO_insertCMO_of_ne (t : Tables) {j : Nat} (h : j ≠ k) (deferred : Option Packet) :
    (t.insertCMO j deferred).findCMO k = t.findCMO k := by
  unfold Tables.findCMO Tables.insertCMO
  rw [List.lookup_cons, beq_false_of_ne (Ne.symm h)]

theorem findCMO_insertCMO (t : Tables) (k : Nat) (deferred : Option Packet) :
    (t.insertCMO k deferred).findCMO k = some deferred := by
  unfold Tables.findCMO Tables.insertCMO
  rw [List.lookup_cons, beq_self_eq_true]

theorem recordRoute_cmo {t' : Tables} {id : PortID} (h : recordRoute t req id expect = .ok t') :
    t'.outstandingCMO = t.outstandingCMO := by
  unfold recordRoute at h
  split at h
  · obtain ⟨t'', hinsert, h⟩ := bind_ok_iff.1 h
    unfold Tables.checkRoutes at h
    split at h
    · cases h
    · cases h
      unfold Tables.insertRoute at hinsert
      split at hinsert
      · cases hinsert
      · cases hinsert
        rfl
  · cases h
    rfl

theorem record_cmo {t' : Tables} {id : PortID} {express expect_snoop : Bool}
    (h : record t req id express expect_snoop expect = .ok t') : t'.outstandingCMO = t.outstandingCMO := by
  unfold record at h
  split at h
  · cases h
    rfl
  · obtain ⟨t'', hsnoop, h⟩ := bind_ok_iff.1 h
    rw [recordRoute_cmo h]
    unfold recordSnoop at hsnoop
    split at hsnoop
    · unfold Tables.insertSnoop at hsnoop
      split at hsnoop
      · cases hsnoop
      · split at hsnoop
        · cases hsnoop
        · cases hsnoop
          rfl
    · cases hsnoop
      rfl

theorem rendezvous_other {id : PortID} {a : Tables × Option (Packet × PortID)}
    (h : rendezvous p t pkt id = .ok a) (hk : pkt.id ≠ k) :
    a.1.findCMO k = t.findCMO k ∧ ∀ x, (∃ port, a.2 = some (x, port)) →
      x = pkt ∨ (pkt.id, some x) ∈ t.outstandingCMO := by
  unfold rendezvous at h
  split at h
  · rename_i deferred hfind
    split at h
    · split at h
      · cases h
      · rename_i rsp_pkt
        split at h
        · cases h
        · split at h
          · cases h
            refine ⟨findCMO_eraseCMO_of_ne (t.eraseRoute rsp_pkt.req.ptr) hk, ?_⟩
            rintro x ⟨port, hx⟩
            cases hx
            obtain ⟨l1, l2, hl, -⟩ := List.lookup_eq_some_iff.1 hfind
            refine .inr ?_
            rw [hl]
            exact List.mem_append_right _ List.mem_cons_self
          · cases h
    · cases h
      refine ⟨findCMO_eraseCMO_of_ne t hk, ?_⟩
      rintro x ⟨port, hx⟩
      cases hx
      exact .inl rfl
  · split at h
    · cases h
      exact ⟨findCMO_insertCMO_of_ne t hk none, fun x ⟨_, hx⟩ => (nomatch hx)⟩
    · obtain ⟨t', hrecord, h⟩ := bind_ok_iff.1 h
      cases h
      refine ⟨?_, fun x ⟨_, hx⟩ => (nomatch hx)⟩
      unfold Tables.findCMO
      dsimp only
      rw [recordRoute_cmo hrecord]
      exact findCMO_insertCMO_of_ne t hk (some pkt)

/-! ## Other traffic -/

/-- Neither half of the operation: a call that is refused, or another request that is no half with this
packet id. -/
def Bystands (p : RouteParams) (k req : Nat) (r : RouteRun) : RouteInput → Prop
  | .req pkt slave_port_id env =>
    (∀ q, recvTimingReq p r.tables pkt slave_port_id env = .ok q → q.success = false) ∨
      (pkt.req.ptr ≠ req ∧ ¬ (p.isHalf pkt slave_port_id env = true ∧ pkt.id = k))
  | .snoopReq pkt _ _ _ => pkt.req.ptr ≠ req
  | _ => True

variable {d : Option Delivery}

theorem RouteInv.of_ok {i : RouteInput} (h : RouteInv p r.tables r.awaiting) (hobeys : Obeys p r i)
    (hstep : routeStep p r i = .ok (r', d)) : RouteInv p r'.tables r'.awaiting := by
  have hrouted := h.step hobeys
  rw [hstep] at hrouted
  cases hrouted with
  | quiet hinv => exact hinv
  | delivers hinv _ _ => exact hinv

/-- What an accepted request delivers, and what it leaves of the entry `k`. -/
theorem Waiting.accepted (h : Waiting p k req half r)
    (hcall : recvTimingReq p r.tables pkt slave_port_id env = .ok q) (hsuccess : q.success = true)
    (hreq : pkt.req.ptr ≠ req) (hother : ¬ (p.isHalf pkt slave_port_id env = true ∧ pkt.id = k)) :
    q.tables.findCMO k = r.tables.findCMO k ∧ ∀ d, q.direct = some d → d.req ≠ req := by
  obtain ⟨s, t', a, -, hsend, hs, hrecord, hanswer, hdirect, htables, -⟩ :=
    recvTimingReq_accepted hcall hsuccess
  have hcmo : t'.outstandingCMO = r.tables.outstandingCMO := record_cmo hrecord
  obtain ⟨hsame, -⟩ := snooped_spec (p := p) pkt slave_port_id env
  have hpkt : s.pkt.req = pkt.req ∧ s.pkt.id = pkt.id := by
    rcases sendOn_same hsend with hc | ⟨-, y, hc, hresp⟩
    · exact ⟨hc.same.req.trans hsame.req, hc.same.id.trans hsame.id⟩
    · rw [hresp]
      exact ⟨hc.same.req.trans hsame.req, hc.same.id.trans hsame.id⟩
  have hfind : t'.findCMO k = r.tables.findCMO k := by
    unfold Tables.findCMO
    rw [hcmo]
  have hdelivers : (∀ x, (∃ port, a.2 = some (x, port)) → x.req.ptr ≠ req) →
      ∀ d, q.direct = some d → d.req ≠ req := by
    intro hall d hd
    rw [hd] at hdirect
    cases ha : a.2 with
    | none =>
      rw [ha] at hdirect
      cases hdirect
    | some x =>
      obtain ⟨x, port⟩ := x
      rw [ha] at hdirect
      unfold respondDirectly at hdirect
      dsimp only at hdirect
      split at hdirect
      · cases hdirect
        exact hall x ⟨port, ha⟩
      · cases hdirect
  unfold answer at hanswer
  split at hanswer
  · -- another operation
    rename_i hkind
    have hk : s.pkt.id ≠ k := by
      rw [hpkt.2]
      exact fun hc => hother ⟨isHalf_of_answer hsend hs hkind, hc⟩
    obtain ⟨hkeep, hwho⟩ := rendezvous_other hanswer hk
    refine ⟨?_, hdelivers fun x hx => ?_⟩
    · rw [htables, hkeep, hfind]
    · rcases hwho x hx with rfl | hmem
      · rw [hpkt.1]
        exact hreq
      · rw [hcmo] at hmem
        exact h.apart hmem hk rfl
  · cases hanswer
    refine ⟨by rw [htables]; exact hfind, hdelivers fun x hx => ?_⟩
    obtain ⟨port, hx⟩ := hx
    dsimp only at hx
    split at hx
    · cases hx
      rw [hpkt.1]
      exact hreq
    · cases hx

theorem settle_of_ne (h : ∀ d', d = some d' → d'.req ≠ req) : settle awaiting d req = awaiting req := by
  cases d with
  | none => rfl
  | some d' =>
    have hne := h d' rfl
    cases d' with
    | slave k id => exact Function.update_of_ne (Ne.symm hne) _ _
    | master k id => exact Function.update_of_ne (Ne.symm hne) _ _

theorem accept_of_ne {c : Option PortID} {forwarded : Bool} (h : pkt.req.ptr ≠ req) :
    accept awaiting pkt slave_port_id c forwarded req = awaiting req := by
  unfold accept
  split
  · rfl
  · cases answererOf pkt c forwarded with
    | none => rfl
    | some a => exact Function.update_of_ne (Ne.symm h) _ _

theorem Waiting.request (h : Waiting p k req half r) (hobeys : Obeys p r (.req pkt slave_port_id env))
    (hby : Bystands p k req r (.req pkt slave_port_id env))
    (hstep : routeStep p r (.req pkt slave_port_id env) = .ok (r', d)) :
    Waiting p k req half r' ∧ ∀ d', d = some d' → d'.req ≠ req := by
  have hinv := h.inv.of_ok hobeys hstep
  obtain ⟨q, hcall, hret⟩ := bind_ok_iff.1 hstep
  cases hret
  by_cases hs : q.success = true
  · have hother := hby.resolve_left fun hall => by
      rw [hall q hcall] at hs
      cases hs
    obtain ⟨hkeep, hdeliver⟩ := h.accepted hcall hs hother.1 hother.2
    refine ⟨⟨hinv, hkeep.trans h.cmo, ?_, h.own⟩, hdeliver⟩
    dsimp only
    rw [settle_of_ne hdeliver, if_pos hs, accept_of_ne hother.1]
    exact h.owner
  · obtain ⟨htables, hdirect⟩ := recvTimingReq_quiet hcall (Bool.eq_false_iff.2 hs)
    refine ⟨⟨hinv, ?_, ?_, h.own⟩, fun d' hd' => ?_⟩
    · dsimp only
      rw [htables]
      exact h.cmo
    · dsimp only
      rw [if_neg hs, hdirect]
      exact h.owner
    · rw [hdirect] at hd'
      cases hd'

/-- Who answers the clean request is the crossbar, or nobody yet. -/
theorem Waiting.not_answered (h : Waiting p k req half r) {q : Nat} {a : Await}
    (ha : r.awaiting q = some a) (hanswer : a.answerer ≠ .crossbar) : q ≠ req := by
  rintro rfl
  rw [h.owner] at ha
  cases half with
  | write => cases ha
  | clean x id =>
    cases ha
    exact hanswer rfl

theorem recvTimingResp_spec {layerAccepts : Bool} {q : Tables × Option Delivery}
    (h : recvTimingResp p t pkt layerAccepts = .ok q) :
    q.1.outstandingCMO = t.outstandingCMO ∧ ∀ d, q.2 = some d → d.req = pkt.req.ptr := by
  unfold recvTimingResp at h
  split at h
  · cases h
  · split at h
    · split at h
      · cases h
        exact ⟨rfl, fun d hd => by cases hd; rfl⟩
      · cases h
        exact ⟨rfl, fun d hd => (nomatch hd)⟩
    · cases h

theorem recvTimingSnoopResp_spec {layerAccepts sendAccepted : Bool} {q : Tables × Option Delivery}
    (h : recvTimingSnoopResp p t pkt slave_port_id layerAccepts sendAccepted = .ok q) :
    q.1.outstandingCMO = t.outstandingCMO ∧ ∀ d, q.2 = some d → d.req = pkt.req.ptr := by
  unfold recvTimingSnoopResp at h
  split at h
  · cases h
  · dsimp only at h
    generalize (if pkt.req.ptr ∉ t.outstandingSnoop then p.masters else p.slaves) = n at h
    split at h
    · cases h
    · split at h
      · cases h
        exact ⟨rfl, fun d hd => (nomatch hd)⟩
      · split at h
        · cases h
        · split at h
          · split at h
            · cases h
              exact ⟨rfl, fun d hd => by cases hd; rfl⟩
            · cases h
          · split at h
            · cases h
            · cases h
              exact ⟨rfl, fun d hd => by cases hd; rfl⟩

theorem recvTimingSnoopReq_cmo {t' : Tables} {master_port_id : PortID} {dests : List (PortID × SnoopEffect)}
    {ownRange : Bool} (h : recvTimingSnoopReq p t pkt master_port_id dests ownRange = .ok t') :
    t'.outstandingCMO = t.outstandingCMO := by
  unfold recvTimingSnoopReq at h
  split at h
  · cases h
  · obtain ⟨t'', hrecord, h⟩ := bind_ok_iff.1 h
    split at h
    · cases h
      unfold recordForwarded at hrecord
      split at hrecord
      · unfold Tables.insertRoute at hrecord
        split at hrecord
        · cases hrecord
        · cases hrecord
          rfl
      · cases hrecord
        rfl
    · cases h

theorem Waiting.response (h : Waiting p k req half r) {q : Tables × Option Delivery} {n : Nat}
    (hne : n ≠ req) (hq : q.1.outstandingCMO = r.tables.outstandingCMO ∧ ∀ d, q.2 = some d → d.req = n)
    (hinv : RouteInv p q.1 (settle r.awaiting q.2)) :
    Waiting p k req half ⟨q.1, settle r.awaiting q.2⟩ ∧ ∀ d, q.2 = some d → d.req ≠ req := by
  have hdeliver : ∀ d, q.2 = some d → d.req ≠ req := by
    intro d hd
    rw [hq.2 d hd]
    exact hne
  refine ⟨⟨hinv, ?_, (settle_of_ne hdeliver).trans h.owner, h.own⟩, hdeliver⟩
  unfold Tables.findCMO
  rw [hq.1]
  exact h.cmo

/-- **The first half is still there** after every step that is not of its operation, and the clean request
has had no response. -/
theorem Waiting.step (h : Waiting p k req half r) {i : RouteInput} (hobeys : Obeys p r i)
    (hby : Bystands p k req r i) (hstep : routeStep p r i = .ok (r', d)) :
    Waiting p k req half r' ∧ ∀ d', d = some d' → d'.req ≠ req := by
  have hinv := h.inv.of_ok hobeys hstep
  cases i with
  | req pkt slave_port_id env => exact h.request hobeys hby hstep
  | resp pkt layerAccepts =>
    obtain ⟨a, ha, hanswer⟩ := hobeys
    obtain ⟨q, hcall, hret⟩ := bind_ok_iff.1 hstep
    cases hret
    exact h.response (h.not_answered ha (by rw [hanswer]; exact fun hc => (nomatch hc)))
      (recvTimingResp_spec hcall) hinv
  | snoopReq pkt master_port_id dests ownRange =>
    obtain ⟨t', hcall, hret⟩ := bind_ok_iff.1 hstep
    cases hret
    refine ⟨⟨hinv, ?_, ?_, h.own⟩, fun d' hd' => (nomatch hd')⟩
    · unfold Tables.findCMO
      rw [recvTimingSnoopReq_cmo hcall]
      exact h.cmo
    · show acceptSnoop r.awaiting pkt master_port_id dests req = _
      rw [← h.owner]
      unfold acceptSnoop
      cases responder InvalidPortID dests with
      | none => rfl
      | some id =>
        dsimp only
        split
        · rfl
        · exact Function.update_of_ne (Ne.symm hby) _ _
  | snoopResp pkt slave_port_id layerAccepts sendAccepted =>
    obtain ⟨a, ha, hanswer⟩ := hobeys
    obtain ⟨q, hcall, hret⟩ := bind_ok_iff.1 hstep
    cases hret
    exact h.response (h.not_answered ha (by rw [hanswer]; exact fun hc => (nomatch hc)))
      (recvTimingSnoopResp_spec hcall) hinv

/-! ## Accepted halves -/

/-- A clean request that no cache answers is turned around at its destination. -/
theorem sendOn_clean {x : Packet} (hclean : x.isClean = true) (hdest : p.isDestination x = true)
    (hresponding : x.cacheResponding = false) (hneeds : x.needsResponse = true) (env : ReqEnv) :
    sendOn p x false env = .ok ⟨x, true, false, false, true⟩ := by
  have hsink : p.sinkPacket x = false := by
    rw [Bool.eq_false_iff]
    intro hsink
    rcases sinkPacket_answered hsink with hc | hc
    · rw [hresponding] at hc
      cases hc
    · rw [hneeds] at hc
      cases hc
  have hforward : p.forwardPacket x = false := by
    unfold RouteParams.forwardPacket
    rw [if_pos hclean, hdest]
    rfl
  unfold sendOn
  dsimp only
  rw [hsink, hforward, hneeds]
  rfl

/-- An accepted clean request comes to the rendezvous with the tables as they are. -/
theorem accepted_clean (hobeys : Obeys p r (.req pkt slave_port_id env))
    (hclean : p.cleans pkt slave_port_id env = true)
    (hcall : recvTimingReq p r.tables pkt slave_port_id env = .ok q) (hsuccess : q.success = true) :
    ∃ a, rendezvous p r.tables (p.snooped pkt slave_port_id env) slave_port_id = .ok a ∧
      respondDirectly a.2 = .ok q.direct ∧ q.tables = a.1 ∧
      accept r.awaiting pkt slave_port_id (committed p pkt slave_port_id env) q.forwarded =
        Function.update r.awaiting pkt.req.ptr (some ⟨false, slave_port_id, .crossbar⟩) ∧
      (p.snooped pkt slave_port_id env).needsResponse = true ∧ (p.snooped pkt slave_port_id env).isWrite = false := by
  obtain ⟨hreq, -, -, hone⟩ := hobeys
  unfold RouteParams.cleans at hclean
  rw [Bool.and_eq_true, Bool.and_eq_true, ← isDestination_snooped pkt slave_port_id env] at hclean
  obtain ⟨⟨hclean, hsat⟩, hdest⟩ := hclean
  obtain ⟨s, t', a, hexp, hsend, -, hrecord, hanswer, hdirect, htables, hforwarded⟩ :=
    recvTimingReq_accepted hcall hsuccess
  obtain ⟨hsame, hresp⟩ := snooped_spec (p := p) pkt slave_port_id env
  generalize p.snooped pkt slave_port_id env = x at *
  have hcr : x.cacheResponding = false := Bool.eq_false_iff.2 fun hc => hone ⟨hc, hsat⟩
  obtain ⟨hpcr, hcommitted⟩ := Snooped.plain ⟨hsame, hresp, hexp⟩ hcr
  have hneeds : x.needsResponse = true := (MemCmd.clean_spec x.cmd hclean).2.2 (by
    rw [hsame.cmd]
    exact hreq)
  have hwrite : x.isWrite = false := (MemCmd.clean_spec x.cmd hclean).2.1
  have hpneeds : pkt.needsResponse = true := by
    unfold Packet.needsResponse at hneeds ⊢
    rw [← hsame.cmd]
    exact hneeds
  rw [hpcr] at hexp
  rw [hcr, Bool.and_false, sendOn_clean hclean hdest hcr hneeds] at hsend
  cases hsend
  rw [hcr, Bool.and_false, hexp, record_plain] at hrecord
  cases hrecord
  unfold answer at hanswer
  rw [if_pos (by rw [hclean, hsat, hdest]; rfl)] at hanswer
  refine ⟨a, hanswer, hdirect, htables, ?_, hneeds, hwrite⟩
  unfold accept answererOf
  rw [hexp, hcommitted, hpneeds, hforwarded]
  rfl

theorem accepted_write (hwrite : p.writesClean pkt = true)
    (hcall : recvTimingReq p r.tables pkt slave_port_id env = .ok q) (hsuccess : q.success = true) :
    ∃ x a, x.id = pkt.id ∧ x.isWrite = true ∧ rendezvous p r.tables x slave_port_id = .ok a ∧
      respondDirectly a.2 = .ok q.direct ∧ q.tables = a.1 ∧
      accept r.awaiting pkt slave_port_id (committed p pkt slave_port_id env) q.forwarded = r.awaiting := by
  unfold RouteParams.writesClean at hwrite
  rw [Bool.and_eq_true, decide_eq_true_eq, ← isDestination_snooped pkt slave_port_id env] at hwrite
  obtain ⟨hcmd, hdest⟩ := hwrite
  obtain ⟨s, t', a, hexp, hsend, hs, hrecord, hanswer, hdirect, htables, -⟩ :=
    recvTimingReq_accepted hcall hsuccess
  obtain ⟨hsame, hresp⟩ := snooped_spec (p := p) pkt slave_port_id env
  have hcommitted : committed p pkt slave_port_id env = none := by
    unfold committed RouteParams.snoopsCaches
    rw [hcmd]
    simp
  rw [hcommitted, Option.isSome_none, Bool.or_false] at hresp
  generalize p.snooped pkt slave_port_id env = x at *
  have hxcmd : x.cmd = .WriteClean := hsame.cmd.trans hcmd
  have hneeds : x.needsResponse = false := by
    unfold Packet.needsResponse
    rw [hxcmd]
    rfl
  have hcarries : Carries x s.pkt := by
    rcases sendOn_same hsend with hc | ⟨hc, -⟩
    · exact hc
    · rw [hneeds] at hc
      cases hc
  have hscmd : s.pkt.cmd = .WriteClean := hcarries.same.cmd.trans hxcmd
  have hexpect : s.expect_response = false := by
    rcases sendOn_cases x (!pkt.cacheResponding && x.cacheResponding) env with herr | ⟨s', hok, hcase⟩
    · rw [herr] at hsend
      cases hsend
    · rw [hok] at hsend
      cases hsend
      cases hcase with
      | refused hc =>
        rw [hs] at hc
        cases hc
      | sunk => rfl
      | forwarded =>
        rw [hneeds]
        rfl
      | direct => rfl
  have hrecorded : t' = r.tables := by
    rw [hresp, Bool.not_and_self, hexpect] at hrecord
    unfold record at hrecord
    split at hrecord
    · cases hrecord
      rfl
    · cases hrecord
      rfl
  subst hrecorded
  unfold answer at hanswer
  rw [if_pos (by rw [hdest, Bool.and_true, hscmd, decide_eq_true rfl, Bool.or_true])] at hanswer
  refine ⟨s.pkt, a, hcarries.same.id.trans hsame.id, ?_, hanswer, hdirect, htables, ?_⟩
  · unfold Packet.isWrite
    rw [hscmd]
    rfl
  · unfold accept answererOf
    rw [hcommitted]
    have hpneeds : pkt.needsResponse = false := by
      unfold Packet.needsResponse
      rw [hcmd]
      rfl
    rw [hpneeds]
    split
    · rfl
    · rfl

/-! ## The operation -/

/-- The two halves of a cache clean, with the answers of the calls that succeed. -/
structure CleanOp (p : RouteParams) where
  clean : Packet
  cleanPort : PortID
  cleanEnv : ReqEnv
  write : Packet
  writePort : PortID
  writeEnv : ReqEnv
  same_id : write.id = clean.id
  cleans : p.cleans clean cleanPort cleanEnv = true
  writesClean : p.writesClean write = true

namespace CleanOp

variable (op : CleanOp p)

/-- One of the halves. -/
def input : Bool → RouteInput
  | true => .req op.clean op.cleanPort op.cleanEnv
  | false => .req op.write op.writePort op.writeEnv

/-- What the one that comes first leaves. -/
def left : Bool → Half
  | true => .clean (p.snooped op.clean op.cleanPort op.cleanEnv) op.cleanPort
  | false => .write

/-- The response to the clean request. -/
def response : Delivery := .slave op.clean.req.ptr op.cleanPort

end CleanOp

/-- The call succeeds. -/
def Accepted (p : RouteParams) (r : RouteRun) : RouteInput → Prop
  | .req pkt slave_port_id env =>
    ∃ q, recvTimingReq p r.tables pkt slave_port_id env = .ok q ∧ q.success = true
  | _ => False

theorem routeStep_accepted (hcall : recvTimingReq p r.tables pkt slave_port_id env = .ok q)
    (hsuccess : q.success = true) : routeStep p r (.req pkt slave_port_id env) = .ok (⟨q.tables,
      settle (accept r.awaiting pkt slave_port_id (committed p pkt slave_port_id env) q.forwarded)
        q.direct⟩, q.direct) := by
  unfold routeStep
  dsimp only
  rw [hcall, bind_ok, if_pos hsuccess]
  rfl

/-- **The first half**, whichever it is, waits, and produces no response. -/
theorem CleanOp.first (op : CleanOp p) {which : Bool} (hinv : RouteInv p r.tables r.awaiting)
    (hnew : r.tables.findCMO op.clean.id = none) (hfresh : r.awaiting op.clean.req.ptr = none)
    (hobeys : Obeys p r (op.input which)) (haccepted : Accepted p r (op.input which))
    (hstep : routeStep p r (op.input which) = .ok (r', d)) :
    d = none ∧ Waiting p op.clean.id op.clean.req.ptr (op.left which) r' := by
  have hinv' := hinv.of_ok hobeys hstep
  obtain ⟨hsame, -⟩ := snooped_spec (p := p) op.clean op.cleanPort op.cleanEnv
  cases which with
  | true =>
    obtain ⟨q, hcall, hsuccess⟩ := haccepted
    obtain ⟨a, hrendezvous, hdirect, htables, haccept, -, hwrite⟩ :=
      accepted_clean hobeys op.cleans hcall hsuccess
    rw [show op.input true = .req op.clean op.cleanPort op.cleanEnv from rfl,
      routeStep_accepted hcall hsuccess] at hstep
    unfold rendezvous at hrendezvous
    rw [hsame.id, hnew, hwrite] at hrendezvous
    dsimp only at hrendezvous
    obtain ⟨t', hrecord, hret⟩ := bind_ok_iff.1 hrendezvous
    cases hret
    have hnone : q.direct = none := (Except.ok.inj hdirect).symm
    cases hstep
    refine ⟨hnone, hinv', ?_, ?_, fun x hx => ?_⟩
    · show q.tables.findCMO op.clean.id = _
      rw [htables]
      unfold Tables.findCMO
      rw [recordRoute_cmo hrecord]
      exact findCMO_insertCMO _ _ _
    · show settle _ q.direct op.clean.req.ptr = _
      rw [hnone, haccept]
      exact Function.update_self _ _ _
    · cases hx
      rw [hsame.req]
  | false =>
    obtain ⟨q, hcall, hsuccess⟩ := haccepted
    obtain ⟨x, a, hid, hwrite, hrendezvous, hdirect, htables, haccept⟩ :=
      accepted_write op.writesClean hcall hsuccess
    rw [show op.input false = .req op.write op.writePort op.writeEnv from rfl,
      routeStep_accepted hcall hsuccess] at hstep
    unfold rendezvous at hrendezvous
    rw [hid, op.same_id, hnew, hwrite] at hrendezvous
    cases hrendezvous
    have hnone : q.direct = none := (Except.ok.inj hdirect).symm
    cases hstep
    refine ⟨hnone, hinv', ?_, ?_, fun x hx => by cases hx⟩
    · show q.tables.findCMO op.clean.id = _
      rw [htables]
      exact findCMO_insertCMO _ _ _
    · show settle _ q.direct op.clean.req.ptr = _
      rw [hnone, haccept]
      exact hfresh

/-- **The second half** produces the response to the clean request, and leaves no entry of it. -/
theorem CleanOp.second (op : CleanOp p) {which : Bool}
    (h : Waiting p op.clean.id op.clean.req.ptr (op.left !which) r) (hobeys : Obeys p r (op.input which))
    (haccepted : Accepted p r (op.input which)) (hstep : routeStep p r (op.input which) = .ok (r', d)) :
    d = some op.response ∧ r'.tables.findCMO op.clean.id = none ∧ r'.tables.findRoute op.clean.req.ptr = none := by
  obtain ⟨hsame, -⟩ := snooped_spec (p := p) op.clean op.cleanPort op.cleanEnv
  have hcmo := h.cmo
  cases which with
  | true =>
    obtain ⟨q, hcall, hsuccess⟩ := haccepted
    obtain ⟨a, hrendezvous, hdirect, htables, -, hneeds, hwrite⟩ :=
      accepted_clean hobeys op.cleans hcall hsuccess
    rw [show op.input true = .req op.clean op.cleanPort op.cleanEnv from rfl,
      routeStep_accepted hcall hsuccess] at hstep
    unfold rendezvous at hrendezvous
    rw [hsame.id, hcmo, hwrite] at hrendezvous
    cases hrendezvous
    unfold respondDirectly at hdirect
    dsimp only at hdirect
    rw [if_pos hneeds, hsame.req] at hdirect
    cases hstep
    refine ⟨(Except.ok.inj hdirect).symm, ?_, ?_⟩
    · show q.tables.findCMO _ = none
      rw [htables]
      exact findCMO_eraseCMO _ _
    · show q.tables.findRoute _ = none
      rw [htables]
      exact h.inv.findRoute_none h.owner
  | false =>
    obtain ⟨q, hcall, hsuccess⟩ := haccepted
    obtain ⟨x, a, hid, hwrite, hrendezvous, hdirect, htables, -⟩ :=
      accepted_write op.writesClean hcall hsuccess
    rw [show op.input false = .req op.write op.writePort op.writeEnv from rfl,
      routeStep_accepted hcall hsuccess] at hstep
    have hroute : r.tables.findRoute op.clean.req.ptr = some op.cleanPort := h.inv.findRoute_some h.owner
    unfold rendezvous at hrendezvous
    rw [hid, op.same_id, hcmo, hwrite] at hrendezvous
    have hdeferred : (op.left !false).deferred = some (p.snooped op.clean op.cleanPort op.cleanEnv) := rfl
    rw [hdeferred] at hrendezvous
    dsimp only at hrendezvous
    rw [if_pos rfl, hsame.req, hroute] at hrendezvous
    dsimp only at hrendezvous
    rw [if_pos (h.inv.slavePort h.owner rfl)] at hrendezvous
    cases hrendezvous
    unfold respondDirectly at hdirect
    dsimp only at hdirect
    split at hdirect
    · rw [hsame.req] at hdirect
      cases hstep
      refine ⟨(Except.ok.inj hdirect).symm, ?_, ?_⟩
      · show q.tables.findCMO _ = none
        rw [htables]
        exact findCMO_eraseCMO _ _
      · show q.tables.findRoute _ = none
        rw [htables]
        exact (findRoute_eraseRoute r.tables _ _).trans (if_pos rfl)
    · cases hdirect

/-! ## Runs -/

/-- The crossbar and the responses it has sent. -/
structure CleanRun where
  route : RouteRun := {}
  responses : List Delivery := []

def cleanNext (p : RouteParams) (r : CleanRun) (i : RouteInput) : Option CleanRun :=
  (routeStep p r.route i).toOption.map fun q => ⟨q.1, r.responses ++ q.2.toList⟩

/-- The responses to a request. -/
def CleanRun.responsesTo (r : CleanRun) (req : Nat) : List Delivery :=
  r.responses.filter fun d => d.req = req

theorem cleanNext_eq_some {r r' : CleanRun} {i : RouteInput} (h : cleanNext p r i = some r') :
    ∃ d, routeStep p r.route i = .ok (r'.route, d) ∧ r'.responses = r.responses ++ d.toList := by
  obtain ⟨q, hstep, rfl⟩ := toOption_map_eq_some.1 h
  exact ⟨q.2, hstep, rfl⟩

theorem responsesTo_append {r r' : CleanRun} (h : r'.responses = r.responses ++ d.toList) :
    r'.responsesTo req = r.responsesTo req ++ d.toList.filter fun d => d.req = req := by
  unfold CleanRun.responsesTo
  rw [h, List.filter_append]

theorem reachable_route {r : CleanRun} (h : Reaches (cleanNext p) (fun r i => Obeys p r.route i) {} r) :
    RouteInv p r.route.tables r.route.awaiting := by
  refine h.inv (P := fun r => RouteInv p r.route.tables r.route.awaiting) routeInv_init ?_
  intro r i r' hr hobeys hnext
  obtain ⟨d, hstep, -⟩ := cleanNext_eq_some hnext
  exact hr.of_ok hobeys hstep

/-- **Other traffic and refused calls** keep the first half waiting, and are no response to it. -/
theorem Waiting.run {r r' : CleanRun} (h : Waiting p k req half r.route)
    (hrun : Reaches (cleanNext p) (fun r i => Obeys p r.route i ∧ Bystands p k req r.route i) r r') :
    Waiting p k req half r'.route ∧ r'.responsesTo req = r.responsesTo req := by
  refine hrun.inv (P := fun s => Waiting p k req half s.route ∧ s.responsesTo req = r.responsesTo req)
    ⟨h, rfl⟩ ?_
  rintro s i s' ⟨hs, hresponses⟩ ⟨hobeys, hby⟩ hnext
  obtain ⟨d, hstep, happend⟩ := cleanNext_eq_some hnext
  obtain ⟨hs', hne⟩ := hs.step hobeys hby hstep
  refine ⟨hs', ?_⟩
  rw [responsesTo_append happend, hresponses]
  cases d with
  | none => exact List.append_nil _
  | some d => rw [Option.toList_some, List.filter_cons_of_neg (by simpa using hne d rfl), List.filter_nil,
      List.append_nil]

/-- **Rendezvous of a cache clean** at its destination: from any state that peers can bring about in which
neither half has succeeded, in either order of the two, with any other traffic and any refused calls
between them, no response to the clean request is sent before the second half, exactly one is sent when it
succeeds, to the port that the clean request came from, and no entry of the operation is left. -/
theorem clean_rendezvous (op : CleanOp p) (which : Bool) {r₀ r₁ r₂ r₃ : CleanRun}
    (hrun : Reaches (cleanNext p) (fun r i => Obeys p r.route i) {} r₀)
    (hnew : r₀.route.tables.findCMO op.clean.id = none) (hfresh : r₀.route.awaiting op.clean.req.ptr = none)
    (hfirst : Obeys p r₀.route (op.input which) ∧ Accepted p r₀.route (op.input which))
    (hstep : cleanNext p r₀ (op.input which) = some r₁) (hothers : Reaches (cleanNext p)
      (fun r i => Obeys p r.route i ∧ Bystands p op.clean.id op.clean.req.ptr r.route i) r₁ r₂)
    (hsecond : Obeys p r₂.route (op.input !which) ∧ Accepted p r₂.route (op.input !which))
    (hstep' : cleanNext p r₂ (op.input !which) = some r₃) :
    r₂.responsesTo op.clean.req.ptr = r₀.responsesTo op.clean.req.ptr ∧
    r₃.responsesTo op.clean.req.ptr = r₀.responsesTo op.clean.req.ptr ++ [op.response] ∧
    r₃.route.tables.findCMO op.clean.id = none ∧ r₃.route.tables.findRoute op.clean.req.ptr = none := by
  obtain ⟨d, hd, happend⟩ := cleanNext_eq_some hstep
  obtain ⟨rfl, hwaiting⟩ := op.first (reachable_route hrun) hnew hfresh hfirst.1 hfirst.2 hd
  have hbefore : r₁.responsesTo op.clean.req.ptr = r₀.responsesTo op.clean.req.ptr := by
    rw [responsesTo_append happend]
    exact List.append_nil _
  obtain ⟨hwaiting', hbetween⟩ := hwaiting.run hothers
  obtain ⟨d', hd', happend'⟩ := cleanNext_eq_some hstep'
  obtain ⟨rfl, hcmo, hroute⟩ := op.second (by rw [Bool.not_not]; exact hwaiting') hsecond.1 hsecond.2 hd'
  refine ⟨hbetween.trans hbefore, ?_, hcmo, hroute⟩
  rw [responsesTo_append happend', hbetween, hbefore]
  simp [CleanOp.response, Delivery.req]

/-- Cache 1 cleans a block that cache 0 has dirty; cache 0 writes it. -/
def cleanedBlock : CleanOp routeParams where
  clean := cleanReq
  cleanPort := 1
  cleanEnv := { layerAccepts := true, dests := [(0, { setSatisfied := true })] }
  write := { cmd := .WriteClean, id := 2, req := ⟨3, 0, true, false⟩, addr := 64, size := 64 }
  writePort := 0
  writeEnv := { layerAccepts := true }
  same_id := rfl
  cleans := by decide
  writesClean := by decide

/-- The clean request comes first; the write is refused by the memory once. -/
theorem clean_rendezvous_cleanedBlock : ∃ r₂ r₃, cleanNext routeParams r₂ (cleanedBlock.input false) = some r₃ ∧
      r₂.responsesTo 2 = [] ∧ r₃.responsesTo 2 = [.slave 2 1] ∧
      r₃.route.tables.findCMO 2 = none ∧ r₃.route.tables.findRoute 2 = none := by
  have h0 : Reaches (cleanNext routeParams) (fun r i => Obeys routeParams r.route i) {} {} := .refl
  have hothers : Reaches (cleanNext routeParams) (fun r i => Obeys routeParams r.route i ∧
      Bystands routeParams 2 2 r.route i) _ _ :=
    (Reaches.refl (s := (cleanNext routeParams {} (cleanedBlock.input true)).get (by decide))).step
      (i := .req cleanedBlock.write 0 { layerAccepts := true, sendAccepted := false })
      ⟨⟨rfl, by decide, fun _ => rfl, by decide⟩, .inl fun q hq => by cases hq; rfl⟩ rfl
  have hall := clean_rendezvous cleanedBlock true h0 rfl rfl
    ⟨⟨rfl, by decide, fun _ => rfl, by decide⟩, _, rfl, rfl⟩ rfl hothers
    ⟨⟨rfl, by decide, fun _ => rfl, by decide⟩, _, rfl, rfl⟩ rfl
  exact ⟨_, _, rfl, hall⟩

end Alpine.Mem
