import Alpine.Mem.Routing

/-!
# History of the routing tables

The history of a run is, for every request that was accepted and has no response yet, where its response
has to go and who will give it: the memory side, a cache that took the snoop, or the crossbar itself
when a cache clean waits for its write.  It is kept from what the callers see, not from the tables.

* `RouteInv` — the invariant: the tables say what the history says.
* `RouteInv.add`, `RouteInv.remove` — one request more, one request less.
* `RouteInv.insertWrite`, `RouteInv.insertClean`, `RouteInv.eraseCMO` — the halves of a cache clean.
-/

namespace Alpine.Mem

variable {p : RouteParams}

/-! ## History -/

inductive Answerer where
  | memory
  | cache (id : PortID)
  | crossbar

/-- `snoop`: the request is a snoop from below, and the response goes to a master port. -/
structure Await where
  snoop : Bool
  port : PortID
  answerer : Answerer

structure RouteRun where
  tables : Tables := {}
  awaiting : Nat → Option Await := fun _ => none

/-- The cache that answers a snoop: the first one that says so. -/
def responder (exclude_slave_port_id : PortID) (dests : List (PortID × SnoopEffect)) : Option PortID :=
  ((snoopedPorts exclude_slave_port_id dests).find? fun d => d.2.setCacheResponding).map Prod.fst

/-- The response is there. -/
def settle (awaiting : Nat → Option Await) : Option Delivery → Nat → Option Await
  | none => awaiting
  | some (.slave req _) => Function.update awaiting req none
  | some (.master req _) => Function.update awaiting req none

/-- Who answers a request that the crossbar took, if it needs an answer. -/
def answererOf (pkt : Packet) (committed : Option PortID) (forwarded : Bool) : Option Answerer :=
  match committed with
  | some id => some (.cache id)
  | none =>
    if pkt.needsResponse then some (if forwarded then .memory else .crossbar) else none

/-- An accepted request awaits its answer; an express snoop bypasses the crossbar. -/
def accept (awaiting : Nat → Option Await) (pkt : Packet) (slave_port_id : PortID)
    (committed : Option PortID) (forwarded : Bool) : Nat → Option Await :=
  if pkt.isExpressSnoop then awaiting
  else
    match answererOf pkt committed forwarded with
    | none => awaiting
    | some a => Function.update awaiting pkt.req.ptr (some ⟨false, slave_port_id, a⟩)

/-- The cache that took up a request while it was snooped. -/
def committed (p : RouteParams) (pkt : Packet) (slave_port_id : PortID) (env : ReqEnv) : Option PortID :=
  if p.snoopsCaches pkt && !(p.snoopFilter && pkt.isEviction) then responder slave_port_id env.dests
  else none

/-- A snoop from below that a cache took up awaits its response. -/
def acceptSnoop (awaiting : Nat → Option Await) (pkt : Packet) (master_port_id : PortID)
    (dests : List (PortID × SnoopEffect)) : Nat → Option Await :=
  match responder InvalidPortID dests with
  | none => awaiting
  | some id =>
    if pkt.cacheResponding then awaiting
    else Function.update awaiting pkt.req.ptr (some ⟨true, master_port_id, .cache id⟩)

/-! ## The invariant -/

structure RouteInv (p : RouteParams) (t : Tables) (awaiting : Nat → Option Await) : Prop where
  route : ∀ q, t.findRoute q = (awaiting q).map Await.port
  snoop : ∀ q, q ∈ t.outstandingSnoop ↔
    ∃ a id, awaiting q = some a ∧ a.snoop = false ∧ a.answerer = .cache id
  ports : ∀ q a, awaiting q = some a → InRange a.port (if a.snoop then p.masters else p.slaves)
  below : ∀ q a, awaiting q = some a → a.snoop = true → ∃ id, a.answerer = .cache id
  other : ∀ q a, awaiting q = some a → a.snoop = false → a.answerer ≠ .cache a.port
  clean : ∀ e ∈ t.outstandingCMO, ∀ q, e.2 = some q →
    ∃ a, awaiting q.req.ptr = some a ∧ a.snoop = false ∧ a.answerer = .crossbar
  distinct : t.outstandingCMO.Pairwise fun e e' =>
    ∀ q q', e.2 = some q → e'.2 = some q' → q.req.ptr ≠ q'.req.ptr

variable {t : Tables} {awaiting : Nat → Option Await}

theorem routeInv_init : RouteInv p {} fun _ => none where
  route := fun _ => rfl
  snoop := fun _ => ⟨fun h => absurd h List.not_mem_nil, fun ⟨_, _, h, _⟩ => (nomatch h)⟩
  ports := fun _ _ h => (nomatch h)
  below := fun _ _ h => (nomatch h)
  other := fun _ _ h => (nomatch h)
  clean := fun _ h => absurd h List.not_mem_nil
  distinct := .nil

/-! ### One request more, one request less -/

theorem lookup_filter {β : Type} (k : Nat) : ∀ (l : List (Nat × β)) (q : Nat),
    (l.filter fun e => e.1 ≠ k).lookup q = if q = k then none else l.lookup q
  | [], q => by simp
  | e :: l, q => by
    have ih := lookup_filter k l q
    by_cases he : e.1 = k
    · rw [List.filter_cons_of_neg (by simpa using he), ih, List.lookup_cons]
      split
      · rfl
      · rename_i hq
        rw [he, beq_false_of_ne hq]
    · rw [List.filter_cons_of_pos (by simpa using he), List.lookup_cons, List.lookup_cons, ih]
      cases hq : q == e.1 with
      | true =>
        have hqk : q ≠ k := fun hk => he ((eq_of_beq hq).symm.trans hk)
        rw [if_neg hqk, if_neg hqk]
      | false => rfl

theorem findRoute_eraseRoute (t : Tables) (k q : Nat) :
    (t.eraseRoute k).findRoute q = if q = k then none else t.findRoute q :=
  lookup_filter k t.routeTo q

theorem mem_eraseSnoop (t : Tables) (k q : Nat) :
    q ∈ (t.eraseSnoop k).outstandingSnoop ↔ q ≠ k ∧ q ∈ t.outstandingSnoop := by
  unfold Tables.eraseSnoop
  simp [and_comm]

theorem findRoute_cons (t : Tables) (k q : Nat) (id : PortID) :
    ({ t with routeTo := (k, id) :: t.routeTo } : Tables).findRoute q = if q = k then some id else t.findRoute q := by
  unfold Tables.findRoute
  rw [List.lookup_cons]
  split
  · rename_i hq
    rw [if_pos (eq_of_beq hq)]
  · rename_i hq
    rw [if_neg fun hk => absurd (beq_of_eq hk) (by rw [hq]; exact Bool.false_ne_true)]

theorem map_port_update (k q : Nat) (a : Option Await) : (Function.update awaiting k a q).map Await.port =
      if q = k then a.map Await.port else (awaiting q).map Await.port := by
  rw [Function.update_apply]
  split
  · rfl
  · rfl

variable {k : Nat} {a : Await}

theorem RouteInv.add (h : RouteInv p t awaiting) {t' : Tables} (hfresh : awaiting k = none)
    (hport : InRange a.port (if a.snoop then p.masters else p.slaves))
    (hbelow : a.snoop = true → ∃ id, a.answerer = .cache id) (hother : a.snoop = false → a.answerer ≠ .cache a.port)
    (hroute : ∀ q, t'.findRoute q = if q = k then some a.port else t.findRoute q)
    (hsnoop : ∀ q, q ∈ t'.outstandingSnoop ↔
      (q = k ∧ a.snoop = false ∧ ∃ id, a.answerer = .cache id) ∨ q ∈ t.outstandingSnoop)
    (hcmo : t'.outstandingCMO = t.outstandingCMO) : RouteInv p t' (Function.update awaiting k (some a)) := by
  have hget : ∀ q b, Function.update awaiting k (some a) q = some b → (q = k ∧ b = a) ∨ awaiting q = some b := by
    intro q b hb
    rw [Function.update_apply] at hb
    split at hb
    · rename_i hq
      exact .inl ⟨hq, (Option.some.inj hb).symm⟩
    · exact .inr hb
  refine ⟨fun q => ?_, fun q => ?_, ?_, ?_, ?_, ?_, ?_⟩
  · rw [hroute, map_port_update, h.route]
    rfl
  · rw [hsnoop, h.snoop]
    constructor
    · rintro (⟨rfl, hs, id, hid⟩ | ⟨b, id, hb, hs, hid⟩)
      · exact ⟨a, id, Function.update_self _ _ _, hs, hid⟩
      · refine ⟨b, id, ?_, hs, hid⟩
        rw [Function.update_of_ne (fun hq => by rw [hq, hfresh] at hb; cases hb)]
        exact hb
    · rintro ⟨b, id, hb, hs, hid⟩
      rcases hget q b hb with ⟨hq, rfl⟩ | hb
      · exact .inl ⟨hq, hs, id, hid⟩
      · exact .inr ⟨b, id, hb, hs, hid⟩
  · intro q b hb
    rcases hget q b hb with ⟨-, rfl⟩ | hb
    · exact hport
    · exact h.ports q b hb
  · intro q b hb
    rcases hget q b hb with ⟨-, rfl⟩ | hb
    · exact hbelow
    · exact h.below q b hb
  · intro q b hb
    rcases hget q b hb with ⟨-, rfl⟩ | hb
    · exact hother
    · exact h.other q b hb
  · rw [hcmo]
    intro e he q hq
    obtain ⟨b, hb, hs⟩ := h.clean e he q hq
    refine ⟨b, ?_, hs⟩
    rw [Function.update_of_ne (fun hk => by rw [hk, hfresh] at hb; cases hb)]
    exact hb
  · rw [hcmo]
    exact h.distinct

theorem RouteInv.remove (h : RouteInv p t awaiting) {t' : Tables}
    (hroute : ∀ q, t'.findRoute q = if q = k then none else t.findRoute q)
    (hsnoop : ∀ q, q ∈ t'.outstandingSnoop ↔ q ≠ k ∧ q ∈ t.outstandingSnoop)
    (hcmo : t'.outstandingCMO.Sublist t.outstandingCMO)
    (hkept : ∀ e ∈ t'.outstandingCMO, ∀ q, e.2 = some q → q.req.ptr ≠ k) :
    RouteInv p t' (Function.update awaiting k none) := by
  have hget : ∀ q b, Function.update awaiting k none q = some b → awaiting q = some b := by
    intro q b hb
    rw [Function.update_apply] at hb
    split at hb
    · cases hb
    · exact hb
  refine ⟨fun q => ?_, fun q => ?_, ?_, ?_, ?_, ?_, h.distinct.sublist hcmo⟩
  · rw [hroute, map_port_update, h.route]
    rfl
  · rw [hsnoop, h.snoop]
    constructor
    · rintro ⟨hq, b, id, hb, hs⟩
      exact ⟨b, id, by rw [Function.update_of_ne hq]; exact hb, hs⟩
    · rintro ⟨b, id, hb, hs⟩
      refine ⟨?_, b, id, hget q b hb, hs⟩
      rintro rfl
      rw [Function.update_self] at hb
      cases hb
  · exact fun q b hb => h.ports q b (hget q b hb)
  · exact fun q b hb => h.below q b (hget q b hb)
  · exact fun q b hb => h.other q b (hget q b hb)
  · intro e he q hq
    obtain ⟨b, hb, hs⟩ := h.clean e (hcmo.subset he) q hq
    refine ⟨b, ?_, hs⟩
    rw [Function.update_of_ne (hkept e he q hq)]
    exact hb

theorem RouteInv.eraseCMO (h : RouteInv p t awaiting) (id : Nat) : RouteInv p (t.eraseCMO id) awaiting :=
  { h with
    clean := fun e he => h.clean e (List.mem_of_mem_filter he)
    distinct := h.distinct.sublist List.filter_sublist }

theorem RouteInv.insertWrite (h : RouteInv p t awaiting) (id : Nat) : RouteInv p (t.insertCMO id none) awaiting := by
  refine { h with clean := ?_, distinct := ?_ }
  · intro e he q hq
    rcases List.mem_cons.1 he with rfl | he
    · cases hq
    · exact h.clean e he q hq
  · exact List.pairwise_cons.2 ⟨fun _ _ _ _ hq => (nomatch hq), h.distinct⟩

/-- A clean request waits for its write: it is in the history, answered by the crossbar. -/
theorem RouteInv.insertClean (h : RouteInv p t awaiting) {id : Nat} {pkt : Packet}
    (ha : awaiting pkt.req.ptr = some a) (hs : a.snoop = false) (hanswer : a.answerer = .crossbar)
    (hnew : ∀ e ∈ t.outstandingCMO, ∀ q, e.2 = some q → q.req.ptr ≠ pkt.req.ptr) :
    RouteInv p (t.insertCMO id (some pkt)) awaiting := by
  refine { h with clean := ?_, distinct := ?_ }
  · intro e he q hq
    rcases List.mem_cons.1 he with rfl | he
    · cases hq
      exact ⟨a, ha, hs, hanswer⟩
    · exact h.clean e he q hq
  · refine List.pairwise_cons.2 ⟨fun e he q q' hq hq' => ?_, h.distinct⟩
    cases hq
    exact (hnew e he q' hq').symm

/-! ### Who answers -/

theorem RouteInv.findRoute_none (h : RouteInv p t awaiting) (hfresh : awaiting k = none) : t.findRoute k = none := by
  rw [h.route, hfresh]
  rfl

theorem RouteInv.findRoute_some (h : RouteInv p t awaiting) (ha : awaiting k = some a) :
    t.findRoute k = some a.port := by
  rw [h.route, ha]
  rfl

/-- A request that nobody sent is in neither table. -/
theorem RouteInv.not_outstanding (h : RouteInv p t awaiting) (hfresh : awaiting k = none) :
    k ∉ t.outstandingSnoop := by
  rw [h.snoop]
  rintro ⟨a, _, ha, -⟩
  rw [hfresh] at ha
  cases ha

theorem RouteInv.slavePort (h : RouteInv p t awaiting) (ha : awaiting k = some a) (hs : a.snoop = false) :
    InRange a.port p.slaves := by
  have hport := h.ports k a ha
  rw [hs, if_neg Bool.false_ne_true] at hport
  exact hport

/-- Nothing in `outstandingCMO` waits for a response of the memory side or of a cache. -/
theorem RouteInv.not_clean (h : RouteInv p t awaiting) (ha : awaiting k = some a)
    (hanswer : a.answerer ≠ .crossbar) : ∀ e ∈ t.outstandingCMO, ∀ q, e.2 = some q → q.req.ptr ≠ k := by
  rintro e he q hq rfl
  obtain ⟨b, hb, -, hcross⟩ := h.clean e he q hq
  rw [ha, Option.some.injEq] at hb
  subst hb
  exact hanswer hcross

/-- Erasing what is not there. -/
theorem mem_iff_ne_and_mem {l : List Nat} (hk : k ∉ l) (q : Nat) : q ∈ l ↔ q ≠ k ∧ q ∈ l := by
  refine ⟨fun hq => ⟨?_, hq⟩, fun hq => hq.2⟩
  rintro rfl
  exact hk hq

/-- The erasure of a request that no cache answers is one from `outstandingSnoop` too. -/
theorem RouteInv.not_snooped (h : RouteInv p t awaiting) (ha : awaiting k = some a)
    (hanswer : ∀ id, a.answerer ≠ .cache id) (q : Nat) : q ∈ t.outstandingSnoop ↔ q ≠ k ∧ q ∈ t.outstandingSnoop := by
  refine mem_iff_ne_and_mem (fun hk => ?_) q
  obtain ⟨b, id, hb, -, hid⟩ := (h.snoop k).1 hk
  rw [ha, Option.some.injEq] at hb
  subst hb
  exact hanswer id hid

/-- What the memory side answers is not a snoop. -/
theorem RouteInv.memory_snoop (h : RouteInv p t awaiting) (ha : awaiting k = some a)
    (hanswer : a.answerer = .memory) : a.snoop = false := by
  refine Bool.eq_false_iff.2 fun hs => ?_
  obtain ⟨id, hid⟩ := h.below k a ha hs
  rw [hanswer] at hid
  cases hid

/-! ### Accepting and settling -/

theorem settle_req (awaiting : Nat → Option Await) (d : Delivery) : settle awaiting (some d) d.req = none := by
  cases d with
  | slave req id => exact Function.update_self _ _ _
  | master req id => exact Function.update_self _ _ _

theorem accept_some {pkt : Packet} {slave_port_id : PortID} {c : Option PortID} {forwarded : Bool}
    (h : accept awaiting pkt slave_port_id c forwarded k = some a) :
    awaiting k = some a ∨ pkt.req.ptr = k ∧ a.port = slave_port_id := by
  unfold accept at h
  cases hexp : pkt.isExpressSnoop with
  | true =>
    rw [hexp] at h
    exact .inl h
  | false =>
    rw [hexp, if_neg Bool.false_ne_true] at h
    cases hanswer : answererOf pkt c forwarded with
    | none =>
      rw [hanswer] at h
      exact .inl h
    | some b =>
      simp only [hanswer, Function.update_apply] at h
      split at h
      · rename_i hk
        cases h
        exact .inr ⟨hk.symm, rfl⟩
      · exact .inl h

end Alpine.Mem
