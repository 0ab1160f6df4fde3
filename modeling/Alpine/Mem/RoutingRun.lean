import Alpine.Lib.Run
import Alpine.Mem.RoutingReq

/-!
# Response routing of the wireless crossbar

* `routeStep` — a call of one of the four entry points, with the history; `Obeys` — what the peers do.
* `RouteInv.resp`, `RouteInv.snoopReq`, `RouteInv.snoopResp` — the other entry points keep the invariant.
* `responses_routed` — in every run in which a request is outstanding at most once and is answered only by
  the one that is to answer it, the tables hold requests that await a response, every response goes to
  the port that was recorded, its entries are removed, and no assertion about the tables fails.
-/

namespace Alpine.Mem

open Alpine.Run

variable {p : RouteParams} {t : Tables} {awaiting : Nat → Option Await}

/-! ## Responses and snoops -/

theorem RouteInv.resp (h : RouteInv p t awaiting) {pkt : Packet} {a : Await}
    (ha : awaiting pkt.req.ptr = some a) (hanswer : a.answerer = .memory) (layerAccepts : Bool) :
    ∃ t', recvTimingResp p t pkt layerAccepts =
        .ok (t', if layerAccepts then some (.slave pkt.req.ptr a.port) else none) ∧
      RouteInv p t' (settle awaiting (if layerAccepts then some (.slave pkt.req.ptr a.port) else none)) := by
  unfold recvTimingResp
  rw [h.findRoute_some ha]
  dsimp only
  rw [if_pos (h.slavePort ha (h.memory_snoop ha hanswer))]
  cases layerAccepts with
  | false => exact ⟨t, rfl, h⟩
  | true =>
    refine ⟨_, rfl, h.remove (findRoute_eraseRoute t _) (h.not_snooped ha ?_) (.refl _)
      (h.not_clean ha ?_)⟩
    · rw [hanswer]
      exact fun _ hc => (nomatch hc)
    · rw [hanswer]
      exact fun hc => (nomatch hc)

theorem RouteInv.snoopReq (h : RouteInv p t awaiting) {pkt : Packet} {master_port_id : PortID}
    (hport : InRange master_port_id p.masters) (hfresh : pkt.cacheResponding = false → awaiting pkt.req.ptr = none)
    (dests : List (PortID × SnoopEffect)) (ownRange : Bool) :
    recvTimingSnoopReq p t pkt master_port_id dests ownRange = .error .assertion ∨
    ∃ t', recvTimingSnoopReq p t pkt master_port_id dests ownRange = .ok t' ∧
      RouteInv p t' (acceptSnoop awaiting pkt master_port_id dests) := by
  obtain ⟨hsame, hresp⟩ := forwardTiming_spec pkt InvalidPortID dests
  -- what happens to the tables, before the last assertion
  have hinsert : ∃ t', recordForwarded t (forwardTiming pkt InvalidPortID dests) pkt.cacheResponding
        master_port_id = .ok t' ∧ RouteInv p t' (acceptSnoop awaiting pkt master_port_id dests) := by
    unfold recordForwarded acceptSnoop
    rw [hresp, hsame.req]
    cases hr : responder InvalidPortID dests with
    | none =>
      rw [if_neg (by simp)]
      exact ⟨t, rfl, h⟩
    | some id =>
      cases hc : pkt.cacheResponding with
      | true => exact ⟨t, rfl, h⟩
      | false =>
        have hnone := hfresh hc
        refine ⟨_, insertRoute_fresh master_port_id (h.findRoute_none hnone), ?_⟩
        refine h.add hnone hport (fun _ => ⟨id, rfl⟩) (fun hs => (nomatch hs))
          (findRoute_cons t _ · _) (fun q => ?_) rfl
        exact ⟨.inr, fun hq => hq.resolve_left fun hk => (nomatch hk.2.1)⟩
  obtain ⟨t', hok, hinv⟩ := hinsert
  unfold recvTimingSnoopReq
  split
  · exact .inl rfl
  · rw [hok, bind_ok]
    cases ownRange with
    | true => exact .inr ⟨t', rfl, hinv⟩
    | false => exact .inl rfl

/-- A snoop response answers a request of a slave port exactly when `outstandingSnoop` has it. -/
theorem RouteInv.outstanding_iff (h : RouteInv p t awaiting) {k : Nat} {a : Await} {id : PortID}
    (ha : awaiting k = some a) (hanswer : a.answerer = .cache id) : k ∈ t.outstandingSnoop ↔ a.snoop = false := by
  rw [h.snoop]
  constructor
  · rintro ⟨b, _, hb, hs, -⟩
    rw [ha, Option.some.injEq] at hb
    rw [hb]
    exact hs
  · intro hs
    exact ⟨a, id, ha, hs, hanswer⟩

theorem RouteInv.snoopResp (h : RouteInv p t awaiting) {pkt : Packet} {slave_port_id : PortID} {a : Await}
    (ha : awaiting pkt.req.ptr = some a) (hanswer : a.answerer = .cache slave_port_id)
    (layerAccepts sendAccepted : Bool) :
    let d : Delivery := if a.snoop then .master pkt.req.ptr a.port else .slave pkt.req.ptr a.port
    (recvTimingSnoopResp p t pkt slave_port_id layerAccepts sendAccepted = .error .assertion ∧
      ¬ (pkt.isExpressSnoop = false ∧ sendAccepted = true)) ∨
    ∃ t', recvTimingSnoopResp p t pkt slave_port_id layerAccepts sendAccepted =
        .ok (t', if layerAccepts then some d else none) ∧
      RouteInv p t' (settle awaiting (if layerAccepts then some d else none)) := by
  intro d
  have hport := h.ports _ a ha
  have hkept : ∀ e ∈ t.outstandingCMO, ∀ q, e.2 = some q → q.req.ptr ≠ pkt.req.ptr :=
    h.not_clean ha (by rw [hanswer]; exact fun hc => (nomatch hc))
  have hsnoop := h.outstanding_iff ha hanswer
  unfold recvTimingSnoopResp
  rw [h.findRoute_some ha]
  dsimp only
  cases hs : a.snoop with
  | true =>
    have hnot : pkt.req.ptr ∉ t.outstandingSnoop := by
      rw [hsnoop, hs]
      exact fun hc => (nomatch hc)
    have hd : d = .master pkt.req.ptr a.port := if_pos hs
    rw [hs, if_pos rfl] at hport
    rw [if_neg (by rw [if_pos hnot]; exact not_not.2 hport), hd, if_pos hnot]
    cases layerAccepts with
    | false => exact .inr ⟨t, rfl, h⟩
    | true =>
      cases hx : pkt.isExpressSnoop with
      | true => exact .inl ⟨rfl, fun hc => (nomatch hc.1)⟩
      | false =>
        cases sendAccepted with
        | false => exact .inl ⟨rfl, fun hc => (nomatch hc.2)⟩
        | true =>
          exact .inr ⟨_, rfl, h.remove (findRoute_eraseRoute t _) (mem_iff_ne_and_mem hnot) (.refl _)
            hkept⟩
  | false =>
    have hin := hsnoop.2 hs
    have hd : d = .slave pkt.req.ptr a.port := if_neg (by rw [hs]; exact Bool.false_ne_true)
    have hne : slave_port_id ≠ a.port := by
      intro heq
      rw [heq] at hanswer
      exact h.other _ a ha hs hanswer
    rw [hs, if_neg Bool.false_ne_true] at hport
    rw [if_neg (by rw [if_neg (not_not.2 hin)]; exact not_not.2 hport), hd, if_neg (not_not.2 hin),
      if_neg hne]
    cases layerAccepts with
    | false => exact .inr ⟨t, rfl, h⟩
    | true =>
      cases hx : pkt.isExpressSnoop with
      | true => exact .inl ⟨rfl, fun hc => (nomatch hc.1)⟩
      | false =>
        exact .inr ⟨_, rfl, h.remove (findRoute_eraseRoute _ _) (mem_eraseSnoop t _) (.refl _) hkept⟩

/-! ## Runs -/

inductive RouteInput where
  | req (pkt : Packet) (slave_port_id : PortID) (env : ReqEnv)
  | resp (pkt : Packet) (layerAccepts : Bool)
  | snoopReq (pkt : Packet) (master_port_id : PortID) (dests : List (PortID × SnoopEffect))
      (ownRange : Bool)
  | snoopResp (pkt : Packet) (slave_port_id : PortID) (layerAccepts sendAccepted : Bool)

def routeStep (p : RouteParams) (r : RouteRun) : RouteInput → Except Fault (RouteRun × Option Delivery)
  | .req pkt slave_port_id env => do
    let q ← recvTimingReq p r.tables pkt slave_port_id env
    let awaiting := if q.success then
        accept r.awaiting pkt slave_port_id (committed p pkt slave_port_id env) q.forwarded
      else r.awaiting
    return ({ tables := q.tables, awaiting := settle awaiting q.direct }, q.direct)
  | .resp pkt layerAccepts => do
    let q ← recvTimingResp p r.tables pkt layerAccepts
    return ({ tables := q.1, awaiting := settle r.awaiting q.2 }, q.2)
  | .snoopReq pkt master_port_id dests ownRange => do
    let t ← recvTimingSnoopReq p r.tables pkt master_port_id dests ownRange
    return ({ tables := t, awaiting := acceptSnoop r.awaiting pkt master_port_id dests }, none)
  | .snoopResp pkt slave_port_id layerAccepts sendAccepted => do
    let q ← recvTimingSnoopResp p r.tables pkt slave_port_id layerAccepts sendAccepted
    return ({ tables := q.1, awaiting := settle r.awaiting q.2 }, q.2)

/-- What the peers do: ports exist, a request is not sent again while it is outstanding, a response comes
from the one that is to answer, and there is one of them: a clean request that a cache answers is not
satisfied by another (only one holds the block dirty), for then the crossbar would answer too. -/
def Obeys (p : RouteParams) (r : RouteRun) : RouteInput → Prop
  | .req pkt slave_port_id env =>
    pkt.isRequest = true ∧ InRange slave_port_id p.slaves ∧
      (pkt.isExpressSnoop = false → r.awaiting pkt.req.ptr = none) ∧
      ¬ ((p.snooped pkt slave_port_id env).cacheResponding = true ∧
        (p.snooped pkt slave_port_id env).satisfied = true)
  | .resp pkt _ => ∃ a, r.awaiting pkt.req.ptr = some a ∧ a.answerer = .memory
  | .snoopReq pkt master_port_id _ _ =>
    InRange master_port_id p.masters ∧ (pkt.cacheResponding = false → r.awaiting pkt.req.ptr = none)
  | .snoopResp pkt slave_port_id _ _ =>
    ∃ a, r.awaiting pkt.req.ptr = some a ∧ a.answerer = .cache slave_port_id

/-- The port that a response goes to was recorded when its request or snoop was accepted; the request may
be the one that is just accepted. -/
def Recorded (r : RouteRun) (i : RouteInput) : Delivery → Prop
  | .slave req id => (∃ a, r.awaiting req = some a ∧ a.snoop = false ∧ a.port = id) ∨
      ∃ pkt env, i = .req pkt id env ∧ pkt.req.ptr = req
  | .master req id => ∃ a, r.awaiting req = some a ∧ a.snoop = true ∧ a.port = id

/-- What a call can come to. -/
inductive Routed (p : RouteParams) (r : RouteRun) (i : RouteInput) :
    Except Fault (RouteRun × Option Delivery) → Prop where
  | failed {f : Fault} : f ≠ .route → Routed p r i (.error f)
  | quiet {r' : RouteRun} : RouteInv p r'.tables r'.awaiting → Routed p r i (.ok (r', none))
  | delivers {r' : RouteRun} {d : Delivery} : RouteInv p r'.tables r'.awaiting →
      r'.awaiting d.req = none → Recorded r i d → Routed p r i (.ok (r', some d))

/-- The request entry point, with the history. -/
theorem Finished.routed {r : RouteRun} {pkt : Packet} {slave_port_id : PortID} {env : ReqEnv}
    (h : Finished p r.awaiting pkt slave_port_id (committed p pkt slave_port_id env)
      (recvTimingReq p r.tables pkt slave_port_id env)) :
    Routed p r (.req pkt slave_port_id env) (routeStep p r (.req pkt slave_port_id env)) := by
  unfold routeStep
  dsimp only
  generalize recvTimingReq p r.tables pkt slave_port_id env = res at h
  cases h with
  | failed hf => exact .failed hf
  | refused hs hd hinv =>
    rw [bind_ok, hs, hd]
    exact .quiet hinv
  | accepted hs hinv hd =>
    rename_i q
    rw [bind_ok, hs, if_pos rfl]
    cases hq : q.direct with
    | none =>
      rw [hq] at hinv
      exact .quiet hinv
    | some d =>
      obtain ⟨a, ha, hsnoop, hslave⟩ := hd d hq
      rw [hq] at hinv
      refine .delivers hinv (settle_req _ d) ?_
      rw [hslave]
      rcases accept_some ha with ha | ⟨hk, hid⟩
      · exact .inl ⟨a, ha, hsnoop, rfl⟩
      · exact .inr ⟨pkt, env, by rw [hid], hk⟩

theorem RouteInv.step {r : RouteRun} (h : RouteInv p r.tables r.awaiting) {i : RouteInput}
    (hi : Obeys p r i) : Routed p r i (routeStep p r i) := by
  cases i with
  | req pkt slave_port_id env =>
    obtain ⟨hreq, hport, hfresh, hone⟩ := hi
    exact (h.req hreq hport hfresh hone).routed
  | resp pkt layerAccepts =>
    obtain ⟨a, ha, hanswer⟩ := hi
    obtain ⟨t', hok, hinv⟩ := h.resp ha hanswer layerAccepts
    unfold routeStep
    dsimp only
    rw [hok, bind_ok]
    cases layerAccepts with
    | false => exact .quiet hinv
    | true =>
      exact .delivers hinv (settle_req r.awaiting (.slave pkt.req.ptr a.port))
        (.inl ⟨a, ha, h.memory_snoop ha hanswer, rfl⟩)
  | snoopReq pkt master_port_id dests ownRange =>
    obtain ⟨hport, hfresh⟩ := hi
    unfold routeStep
    dsimp only
    rcases h.snoopReq hport hfresh dests ownRange with herr | ⟨t', hok, hinv⟩
    · rw [herr]
      exact .failed fun hc => (nomatch hc)
    · rw [hok, bind_ok]
      exact .quiet hinv
  | snoopResp pkt slave_port_id layerAccepts sendAccepted =>
    obtain ⟨a, ha, hanswer⟩ := hi
    unfold routeStep
    dsimp only
    rcases h.snoopResp ha hanswer layerAccepts sendAccepted with ⟨herr, -⟩ | ⟨t', hok, hinv⟩
    · rw [herr]
      exact .failed fun hc => (nomatch hc)
    · rw [hok, bind_ok]
      cases layerAccepts with
      | false => exact .quiet hinv
      | true =>
        refine .delivers hinv (settle_req r.awaiting _) ?_
        cases hs : a.snoop with
        | false => exact .inl ⟨a, ha, hs, rfl⟩
        | true => exact ⟨a, ha, hs, rfl⟩

/-- The calls of a run that return. -/
def routeNext (p : RouteParams) (r : RouteRun) (i : RouteInput) : Option RouteRun :=
  (routeStep p r i).toOption.map Prod.fst

theorem reachable_routeInv {r : RouteRun} (h : Reaches (routeNext p) (Obeys p) {} r) :
    RouteInv p r.tables r.awaiting := by
  refine h.inv (P := fun r => RouteInv p r.tables r.awaiting) routeInv_init ?_
  intro r i r' hr hi hnext
  have hstep := hr.step hi
  unfold routeNext at hnext
  generalize routeStep p r i = res at hnext hstep
  cases hstep with
  | failed => cases hnext
  | quiet hinv => cases hnext; exact hinv
  | delivers hinv => cases hnext; exact hinv

/-- The request that an accepted response answers.  Responses are never express snoops, and the master
port below always takes a snoop response. -/
def RouteInput.answers : RouteInput → Option Nat
  | .resp pkt true => some pkt.req.ptr
  | .snoopResp pkt _ true true => if pkt.isExpressSnoop then none else some pkt.req.ptr
  | _ => none

theorem RouteInv.delivered {r : RouteRun} (h : RouteInv p r.tables r.awaiting) {i : RouteInput}
    (hi : Obeys p r i) {k : Nat} (hk : i.answers = some k) :
    ∃ r' d, routeStep p r i = .ok (r', some d) ∧ d.req = k := by
  unfold RouteInput.answers at hk
  split at hk
  · rename_i pkt
    cases hk
    obtain ⟨a, ha, hanswer⟩ := hi
    obtain ⟨t', hok, -⟩ := h.resp ha hanswer true
    unfold routeStep
    dsimp only
    rw [hok]
    exact ⟨_, _, rfl, rfl⟩
  · rename_i pkt slave_port_id
    split at hk
    · cases hk
    · rename_i hexp
      cases hk
      obtain ⟨a, ha, hanswer⟩ := hi
      unfold routeStep
      dsimp only
      rcases h.snoopResp ha hanswer true true with ⟨-, hnot⟩ | ⟨t', hok, -⟩
      · exact absurd ⟨Bool.eq_false_iff.2 hexp, rfl⟩ hnot
      · rw [hok]
        refine ⟨_, _, rfl, ?_⟩
        split
        · rfl
        · rfl
  · cases hk

/-- **Responses are routed.**  In every reachable state `outstandingSnoop` is a subset of the keys of
`routeTo`, and these are requests that await a response at the port that is recorded.  From there no
call fails an assertion about the tables, a response that is accepted is delivered, and a delivery goes
to the port recorded for its request and removes the request from both tables. -/
theorem responses_routed {r : RouteRun} (h : Reaches (routeNext p) (Obeys p) {} r) :
    (∀ k ∈ r.tables.outstandingSnoop, (r.tables.findRoute k).isSome = true) ∧
    (∀ k id, r.tables.findRoute k = some id → ∃ a, r.awaiting k = some a ∧ a.port = id) ∧ ∀ i, Obeys p r i →
      routeStep p r i ≠ .error .route ∧
      (∀ k, i.answers = some k → ∃ r' d, routeStep p r i = .ok (r', some d) ∧ d.req = k) ∧
      ∀ r' d, routeStep p r i = .ok (r', some d) →
        Recorded r i d ∧ r'.tables.findRoute d.req = none ∧ d.req ∉ r'.tables.outstandingSnoop := by
  have hinv := reachable_routeInv h
  refine ⟨fun k hk => ?_, fun k id hk => ?_, fun i hi => ⟨?_, fun k => hinv.delivered hi, ?_⟩⟩
  · obtain ⟨a, id, ha, -⟩ := (hinv.snoop k).1 hk
    rw [hinv.findRoute_some ha]
    rfl
  · rw [hinv.route] at hk
    exact Option.map_eq_some_iff.1 hk
  · intro hfail
    have hstep := hinv.step hi
    rw [hfail] at hstep
    cases hstep with
    | failed hf => exact hf rfl
  · intro r' d hok
    have hstep := hinv.step hi
    rw [hok] at hstep
    cases hstep with
    | delivers hinv' hnone hrec =>
      exact ⟨hrec, hinv'.findRoute_none hnone, hinv'.not_outstanding hnone⟩

/-- The point of coherency, with two caches above and one memory below. -/
def routeParams : RouteParams where
  pointOfCoherency := true
  pointOfUnification := false
  bypassCaches := false
  snoopFilter := false
  frontendLatency := 1
  forwardLatency := 1
  responseLatency := 1
  snoopResponseLatency := 1
  clockPeriod := 1
  macProto := .token_pass
  bandwidth := fun n => n
  masters := 1
  slaves := 2

/-- A read that the other cache answers. -/
def sharedReq : Packet := { cmd := .ReadSharedReq, id := 1, req := ⟨1, 0, false, false⟩, addr := 0, size := 64 }

/-- A cache clean, to the point of coherency, of a block that the other cache has dirty. -/
def cleanReq : Packet := { cmd := .CleanSharedReq, id := 2, req := ⟨2, 1, true, false⟩, addr := 64, size := 64 }

/-- Cache 0 reads what cache 1 holds and cache 1 cleans what cache 0 holds; then cache 1 responds. -/
theorem responses_routed_two_caches : ∃ r r' d, Reaches (routeNext routeParams) (Obeys routeParams) {} r ∧
      r.tables.outstandingSnoop = [1] ∧ r.tables.routeTo = [(2, 1), (1, 0)] ∧
      routeStep routeParams r (.snoopResp sharedReq 1 true true) = .ok (r', some d) ∧ d.req = 1 ∧
      Recorded r (.snoopResp sharedReq 1 true true) d ∧
      r'.tables.findRoute d.req = none ∧ d.req ∉ r'.tables.outstandingSnoop := by
  have h0 : Reaches (routeNext routeParams) (Obeys routeParams) {} {} := .refl
  have h1 := h0.step
    (i := RouteInput.req sharedReq 0 { layerAccepts := true, dests := [(1, { setCacheResponding := true })] })
    ⟨rfl, by decide, fun _ => rfl, by decide⟩ rfl
  have h2 := h1.step
    (i := RouteInput.req cleanReq 1 { layerAccepts := true, dests := [(0, { setSatisfied := true })] })
    ⟨rfl, by decide, fun _ => rfl, by decide⟩ rfl
  obtain ⟨-, -, hall⟩ := responses_routed h2
  obtain ⟨-, hanswers, hdelivers⟩ := hall (.snoopResp sharedReq 1 true true) ⟨⟨false, 0, .cache 1⟩, rfl, rfl⟩
  obtain ⟨r', d, hok, hreq⟩ := hanswers 1 rfl
  exact ⟨_, r', d, h2, rfl, rfl, hok, hreq, hdelivers r' d hok⟩

end Alpine.Mem
