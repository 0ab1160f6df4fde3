import Alpine.Mem.SnoopFilterEntries

/-!
# The requests that the snoop filter can answer

`lookupRequest` tracks a request if it came from a cache; `updateResponse` takes any response for a line
that has an entry to be that of a tracked request.

* `AskRun`, `askStep` — a run with its history and with the unanswered requests, tracked or not.
* `Asks` — what the ports may do: one request for a line at a time, responses to unanswered requests,
  evictions of lines that they hold.
* `requestPanics` — the panics about what a port asked for or holds.
* `AskRun.Inv` — the invariant: the filter covers the history, and a tracked request is unanswered.
* `held_not_panics` — a run that follows by the history of who holds a line reaches none of them.
* `asks_panics_iff` — as long as every response that finds an entry answers a tracked request, and a
  request that a cache above answers comes from a holder, no step reaches one of these panics; the first
  step that is otherwise does.
-/

namespace Alpine.Mem

open Alpine.Run SnoopFilter

variable {p : SnoopFilterParams}

/-! ## Runs -/

/-- A run of the filter, with the ports that wait for a response for a line. -/
structure AskRun (p : SnoopFilterParams) extends FilterRun p where
  waiting : Line → p.ports.Port → Bool := fun _ _ => false

/-- A response is to be expected from below. -/
def expectsResponse (cpkt : CohPacket) : Bool := cpkt.needsResponse && !cpkt.cacheResponding

/-- A response to an untracked request gives no cache the line. -/
def askStep (p : SnoopFilterParams) (r : AskRun p) : FilterInput p → Except FilterFault (AskRun p)
  | .request cpkt slave_port will_retry => do
    let u ← filterStep p r.toFilterRun (.request cpkt slave_port will_retry)
    return { toFilterRun := u
             waiting := fun l q => r.waiting l q ||
               (!will_retry && At cpkt slave_port l q && expectsResponse cpkt) }
  | .snoop cpkt => do
    let u ← filterStep p r.toFilterRun (.snoop cpkt)
    return { toFilterRun := u, waiting := r.waiting }
  | .snoopResponse cpkt rsp_port req_port => do
    let u ← filterStep p r.toFilterRun (.snoopResponse cpkt rsp_port req_port)
    return { toFilterRun := u
             waiting := fun l q => r.waiting l q && !(tracked cpkt req_port && At cpkt req_port l q) }
  | .snoopForward cpkt => do
    let u ← filterStep p r.toFilterRun (.snoopForward cpkt)
    return { toFilterRun := u, waiting := r.waiting }
  | .response cpkt slave_port => do
    let s ← r.filter.updateResponse cpkt slave_port
    let u :=
      if r.pending (line p cpkt.addr cpkt.isSecure) slave_port then r.toFilterRun.answer cpkt slave_port
      else r.toFilterRun
    return { toFilterRun := { u with filter := s }
             waiting := fun l q => r.waiting l q && !At cpkt slave_port l q }

/-- What the ports may do. -/
def Asks (p : SnoopFilterParams) (r : AskRun p) : FilterInput p → Prop
  | .request cpkt slave_port _ =>
    cpkt.isUncacheable = false ∧
    (expectsResponse cpkt = true → r.waiting (line p cpkt.addr cpkt.isSecure) slave_port = false) ∧
    (cpkt.isEviction = true → r.held (line p cpkt.addr cpkt.isSecure) slave_port = true)
  | .snoop _ => True
  | .snoopResponse cpkt _ req_port => tracked cpkt req_port = true →
      r.pending (line p cpkt.addr cpkt.isSecure) req_port = true
  | .snoopForward _ => True
  | .response cpkt slave_port =>
    cpkt.isResponse = true ∧ cpkt.isUncacheable = false ∧
    r.waiting (line p cpkt.addr cpkt.isSecure) slave_port = true

/-- The filter can follow the step: a cache that another cache above it answers is a holder, by the bit that
`lookupRequest` reads, and a response that finds an entry is for a request that is tracked. -/
def Follows (p : SnoopFilterParams) (r : AskRun p) : FilterInput p → Prop
  | .request cpkt slave_port _ =>
    allocates cpkt slave_port = true → cpkt.needsResponse = true → cpkt.cacheResponding = true →
    (r.filter.item (lineAddr p cpkt.addr cpkt.isSecure)).holder &&& p.ports.portToMask slave_port ≠ 0
  | .response cpkt slave_port =>
    p.ports.snooping slave_port = true → lineAddr p cpkt.addr cpkt.isSecure ∈ r.filter.cachedLocations →
    r.pending (line p cpkt.addr cpkt.isSecure) slave_port = true
  | _ => True

/-- `Follows` by the history: a cache that another cache above it answers holds the line. -/
def FollowsHeld (p : SnoopFilterParams) (r : AskRun p) : FilterInput p → Prop
  | .request cpkt slave_port _ =>
    allocates cpkt slave_port = true → cpkt.needsResponse = true → cpkt.cacheResponding = true →
    r.held (line p cpkt.addr cpkt.isSecure) slave_port = true
  | i => Follows p r i

/-- The steps of a run that return. -/
def askNext (p : SnoopFilterParams) (r : AskRun p) (i : FilterInput p) : Option (AskRun p) :=
  (askStep p r i).toOption

def requestPanics : List String :=
  ["double request :( SF value %x.%x\n", "Need to hold the value!",
    "requester %x is not a holder :( SF value %x.%x\n", "SF value %x.%x missing request bit\n"]

/-! ## Where the panics are -/

variable {cpkt : CohPacket} {msg : String}

theorem track_panics {req_port : SnoopMask} {it : SnoopItem} (h : track cpkt req_port it = .error (.panic msg)) :
    (expectsResponse cpkt = true ∧ it.requested &&& req_port ≠ 0) ∨
    (cpkt.needsResponse = true ∧ cpkt.cacheResponding = true ∧ it.holder &&& req_port = 0) ∨
    (cpkt.isEviction = true ∧ it.holder &&& req_port = 0) := by
  unfold track at h
  split at h
  · rename_i hneeds
    split at h
    · rename_i hresp
      split at h
      · rename_i hbit
        refine .inl ⟨?_, hbit⟩
        unfold expectsResponse
        rw [hneeds, hresp]
        rfl
      · cases h
    · rename_i hresp
      split at h
      · rename_i hbit
        exact .inr (.inl ⟨hneeds, by simpa using hresp, hbit⟩)
      · cases h
  · split at h
    · cases h
    · rename_i hevict
      split at h
      · rename_i hbit
        exact .inr (.inr ⟨by simpa using hevict, hbit⟩)
      · split at h
        · cases h
        · cases h

variable {s : SnoopFilter} {port : p.ports.Port}

theorem lookupRequest_error {f : FilterFault} : s.lookupRequest cpkt port = .error f ↔ allocates cpkt port = true ∧
      track cpkt (p.ports.portToMask port) (s.item (lineAddr p cpkt.addr cpkt.isSecure)) = .error f := by
  unfold SnoopFilter.lookupRequest
  dsimp only
  cases halloc : allocates cpkt port with
  | false =>
    refine ⟨fun h => ?_, fun h => (nomatch h.1)⟩
    split at h
    · cases h
    · cases h
  | true =>
    rw [if_neg (by simp), if_neg (by simp), bind_error_iff]
    constructor
    · rintro (htrack | ⟨it, -, hok⟩)
      · exact ⟨rfl, htrack⟩
      · cases hok
    · intro h
      exact .inl h.2

variable {r : AskRun p} {will_retry : Bool}

/-- `finishRequest` does not fail after `lookupRequest`. -/
theorem askStep_request_error {f : FilterFault} : askStep p r (.request cpkt port will_retry) = .error f ↔
      allocates cpkt port = true ∧ track cpkt (p.ports.portToMask port)
        (r.filter.item (lineAddr p cpkt.addr cpkt.isSecure)) = .error f := by
  rw [← lookupRequest_error]
  unfold askStep filterStep
  simp only [bind_error_iff]
  constructor
  · rintro ((h | ⟨⟨s', snoops⟩, hlookup, h | ⟨s'', -, h⟩⟩) | ⟨u, -, h⟩)
    · exact h
    · obtain ⟨s'', hfinish, -⟩ := request_locations hlookup will_retry
      rw [hfinish] at h
      cases h
    · cases h
    · cases h
  · exact fun h => .inl (.inl h)

theorem updateResponse_panics (hresp : cpkt.isResponse = true) (hcache : cpkt.isUncacheable = false) :
    s.updateResponse cpkt port = .error (.panic msg) ↔
      msg = "SF value %x.%x missing request bit\n" ∧ p.ports.snooping port = true ∧
        lineAddr p cpkt.addr cpkt.isSecure ∈ s.cachedLocations ∧
        ¬ HasBit p.ports (s.item (lineAddr p cpkt.addr cpkt.isSecure)).requested port := by
  unfold SnoopFilter.updateResponse SnoopFilter.item HasBit
  rw [hresp, hcache, if_neg (by simp)]
  cases hsnoop : p.ports.snooping port with
  | false => exact ⟨fun h => (nomatch h), fun h => (nomatch h.2.1)⟩
  | true =>
    rw [if_neg (by simp)]
    dsimp only
    cases hfind : s.cachedLocations.lookup (lineAddr p cpkt.addr cpkt.isSecure) with
    | none =>
      refine ⟨fun h => (nomatch h), fun h => ?_⟩
      exact absurd h.2.2.1 (Finmap.lookup_eq_none.1 hfind)
    | some it =>
      have hmem : lineAddr p cpkt.addr cpkt.isSecure ∈ s.cachedLocations := Finmap.mem_iff.2 ⟨it, hfind⟩
      dsimp only
      rw [Option.getD_some]
      by_cases hbit : it.requested &&& p.ports.portToMask port = 0
      · rw [if_pos hbit, Except.error.injEq, FilterFault.panic.injEq]
        exact ⟨fun h => ⟨h.symm, rfl, hmem, fun hne => hne hbit⟩, fun h => h.1.symm⟩
      · rw [if_neg hbit]
        refine ⟨fun h => ?_, fun h => absurd hbit h.2.2.2⟩
        split at h
        · cases h
        · split at h
          · cases h
          · cases h

theorem askStep_response_error {f : FilterFault} :
    askStep p r (.response cpkt port) = .error f ↔ r.filter.updateResponse cpkt port = .error f := by
  unfold askStep
  simp only [bind_error_iff]
  exact ⟨fun h => h.elim id fun ⟨_, _, h⟩ => (nomatch h), .inl⟩

/-! The other operations have panics of their own. -/

theorem lookupSnoop_panics (h : s.lookupSnoop (p := p) cpkt = .error (.panic msg)) : msg ∉ requestPanics := by
  unfold SnoopFilter.lookupSnoop at h
  split at h
  · cases h
  · dsimp only at h
    split at h
    · split at h
      · cases h
        decide
      · cases h
    · split at h
      · cases h
      · cases h

theorem updateSnoopResponse_panics {rsp_port req_port : p.ports.Port}
    (h : s.updateSnoopResponse cpkt rsp_port req_port = .error (.panic msg)) : msg ∉ requestPanics := by
  unfold SnoopFilter.updateSnoopResponse at h
  split at h
  · cases h
  · split at h
    · cases h
    · dsimp only at h
      generalize (s.cachedLocations.lookup (lineAddr p cpkt.addr cpkt.isSecure)).getD {} = it at h
      generalize (if !cpkt.hasSharers then 0 else it.holder) = holder at h
      split at h
      · cases h
        decide
      · split at h
        · cases h
          decide
        · split at h
          · cases h
          · split at h
            · cases h
            · cases h

theorem updateSnoopForward_panics : s.updateSnoopForward p cpkt ≠ .error (.panic msg) := by
  intro h
  unfold SnoopFilter.updateSnoopForward at h
  split at h
  · cases h
  · dsimp only at h
    split at h
    · cases h
    · cases h

/-! ## The invariant -/

structure AskRun.Inv (r : AskRun p) : Prop where
  covers : Covers r.toFilterRun
  waits : ∀ l q, r.pending l q = true → r.waiting l q = true

theorem askInv_init : ({} : AskRun p).Inv where
  covers := covers_init
  waits := fun _ _ h => (nomatch h)

variable {r' : AskRun p}

theorem AskRun.Inv.request (h : r.Inv) (hstep : askStep p r (.request cpkt port will_retry) = .ok r') : r'.Inv := by
  obtain ⟨u, hu, hret⟩ := bind_ok_iff.1 hstep
  cases hret
  refine ⟨h.covers.step (i := .request cpkt port will_retry) trivial hu, fun l q hq => ?_⟩
  obtain ⟨⟨s', snoops⟩, -, hu⟩ := bind_ok_iff.1 hu
  obtain ⟨s'', -, hu⟩ := bind_ok_iff.1 hu
  cases hu
  cases will_retry with
  | true => exact Bool.or_eq_true_iff.2 (.inl (h.waits l q hq))
  | false =>
    dsimp only at hq ⊢
    rw [if_neg Bool.false_ne_true] at hq
    simp only [FilterRun.accept, Bool.or_eq_true, Bool.and_eq_true, Bool.not_eq_true'] at hq
    rcases hq with hq | ⟨⟨⟨hat, -⟩, hneeds⟩, hresp⟩
    · rw [h.waits l q hq, Bool.true_or]
    · simp [hat, expectsResponse, hneeds, hresp]

theorem AskRun.Inv.snoop (h : r.Inv) (hstep : askStep p r (.snoop cpkt) = .ok r') : r'.Inv := by
  obtain ⟨u, hu, hret⟩ := bind_ok_iff.1 hstep
  cases hret
  refine ⟨h.covers.step (i := .snoop cpkt) trivial hu, fun l q hq => ?_⟩
  obtain ⟨⟨s', snoops⟩, -, hu⟩ := bind_ok_iff.1 hu
  cases hu
  exact h.waits l q hq

theorem AskRun.Inv.snoopForward (h : r.Inv) (hstep : askStep p r (.snoopForward cpkt) = .ok r') : r'.Inv := by
  obtain ⟨u, hu, hret⟩ := bind_ok_iff.1 hstep
  cases hret
  refine ⟨h.covers.step (i := .snoopForward cpkt) trivial hu, fun l q hq => ?_⟩
  obtain ⟨s', -, hu⟩ := bind_ok_iff.1 hu
  cases hu
  exact h.waits l q hq

theorem AskRun.Inv.snoopResponse (h : r.Inv) {rsp_port req_port : p.ports.Port}
    (hasks : Asks p r (.snoopResponse cpkt rsp_port req_port))
    (hstep : askStep p r (.snoopResponse cpkt rsp_port req_port) = .ok r') : r'.Inv := by
  obtain ⟨u, hu, hret⟩ := bind_ok_iff.1 hstep
  cases hret
  refine ⟨h.covers.step (i := .snoopResponse cpkt rsp_port req_port) hasks hu, fun l q hq => ?_⟩
  obtain ⟨s', -, hu⟩ := bind_ok_iff.1 hu
  cases hu
  dsimp only at hq ⊢
  cases htracked : tracked cpkt req_port with
  | false =>
    rw [htracked, if_neg Bool.false_ne_true] at hq
    rw [h.waits l q hq]
    rfl
  | true =>
    rw [htracked, if_pos rfl] at hq
    simp only [FilterRun.supply, Bool.and_eq_true] at hq
    rw [h.waits l q hq.1, Bool.true_and, Bool.true_and]
    exact hq.2

theorem AskRun.Inv.response (h : r.Inv) (hasks : Asks p r (.response cpkt port))
    (hfollows : Follows p r (.response cpkt port)) (hstep : askStep p r (.response cpkt port) = .ok r') : r'.Inv := by
  obtain ⟨hresp, hcache, -⟩ := hasks
  obtain ⟨s, hs, hret⟩ := bind_ok_iff.1 hstep
  cases hret
  cases hpend : r.pending (line p cpkt.addr cpkt.isSecure) port with
  | true =>
    -- the response is to a tracked request, so the port is one of a cache
    have hbit := (h.covers.requested cpkt.addr cpkt.isSecure port).1 hpend
    have htracked : tracked cpkt port = true := by
      unfold tracked
      rw [hcache, hbit.snooping]
      rfl
    have hcov := h.covers.response hs fun _ => hpend
    rw [htracked, if_pos rfl] at hcov
    rw [if_pos rfl]
    refine ⟨hcov, fun l q hq => ?_⟩
    simp only [FilterRun.answer, Bool.and_eq_true] at hq
    dsimp only
    rw [h.waits l q hq.1, hq.2]
    rfl
  | false =>
    -- no entry: the response passes
    have hsame : s = r.filter := by
      unfold SnoopFilter.updateResponse at hs
      rw [hresp, hcache, if_neg (by simp)] at hs
      cases hsnoop : p.ports.snooping port with
      | false =>
        rw [hsnoop] at hs
        cases hs
        rfl
      | true =>
        rw [hsnoop, if_neg (by simp)] at hs
        dsimp only at hs
        split at hs
        · cases hs
          rfl
        · rename_i it hfind
          have hmem := hfollows hsnoop (Finmap.mem_iff.2 ⟨it, hfind⟩)
          rw [hpend] at hmem
          cases hmem
    rw [if_neg Bool.false_ne_true, hsame]
    refine ⟨h.covers, fun l q hq => ?_⟩
    have hwait := h.waits l q hq
    dsimp only
    rw [hwait, Bool.true_and, Bool.not_eq_true', Bool.eq_false_iff]
    intro hat
    obtain ⟨hl, hport⟩ := at_iff.1 hat
    have hq : r.pending l q = true := hq
    rw [hl, hport, hpend] at hq
    cases hq

theorem AskRun.Inv.step (h : r.Inv) {i : FilterInput p} (hasks : Asks p r i) (hfollows : Follows p r i)
    (hstep : askStep p r i = .ok r') : r'.Inv := by
  cases i with
  | request cpkt slave_port will_retry => exact h.request hstep
  | snoop cpkt => exact h.snoop hstep
  | snoopResponse cpkt rsp_port req_port => exact h.snoopResponse hasks hstep
  | snoopForward cpkt => exact h.snoopForward hstep
  | response cpkt slave_port => exact h.response hasks hfollows hstep

theorem reachable_askInv (h : Reaches (askNext p) (fun r i => Asks p r i ∧ Follows p r i) {} r) : r.Inv := by
  refine h.inv (P := AskRun.Inv) askInv_init ?_
  intro r i r' hr hok hnext
  exact hr.step hok.1 hok.2 (toOption_eq_some.1 hnext)

/-! ## When a panic is reached -/

theorem AskRun.Inv.request_panics (h : r.Inv) (hasks : Asks p r (.request cpkt port will_retry)) :
    (∃ msg ∈ requestPanics, askStep p r (.request cpkt port will_retry) = .error (.panic msg)) ↔
      ¬ Follows p r (.request cpkt port will_retry) := by
  obtain ⟨-, hwaiting, hevict⟩ := hasks
  simp only [askStep_request_error]
  constructor
  · rintro ⟨msg, -, halloc, htrack⟩ hfollows
    rcases track_panics htrack with ⟨hexpects, hbit⟩ | ⟨hneeds, hresp, hbit⟩ | ⟨hev, hbit⟩
    · -- a second request
      have hpend := (h.covers.requested cpkt.addr cpkt.isSecure port).2 hbit
      have hwait := h.waits _ _ hpend
      rw [hwaiting hexpects] at hwait
      cases hwait
    · exact hfollows halloc hneeds hresp hbit
    · exact h.covers.holder cpkt.addr cpkt.isSecure port (hevict hev) hbit
  · intro hno
    unfold Follows at hno
    simp only [Classical.not_imp, not_not] at hno
    obtain ⟨halloc, hneeds, hresp, hbit⟩ := hno
    refine ⟨"Need to hold the value!", by decide, halloc, ?_⟩
    unfold track
    rw [hneeds, if_pos rfl, hresp, Bool.not_true, if_neg Bool.false_ne_true, if_pos hbit]

theorem AskRun.Inv.response_panics (h : r.Inv) (hasks : Asks p r (.response cpkt port)) :
    (∃ msg ∈ requestPanics, askStep p r (.response cpkt port) = .error (.panic msg)) ↔
      ¬ Follows p r (.response cpkt port) := by
  obtain ⟨hresp, hcache, -⟩ := hasks
  have hpend := h.covers.requested cpkt.addr cpkt.isSecure port
  simp only [askStep_response_error, updateResponse_panics hresp hcache, ← hpend]
  unfold Follows
  simp only [Classical.not_imp]
  constructor
  · rintro ⟨msg, -, -, hsnoop, hmem, hbit⟩
    exact ⟨hsnoop, hmem, hbit⟩
  · rintro ⟨hsnoop, hmem, hbit⟩
    exact ⟨_, by decide, rfl, hsnoop, hmem, hbit⟩

theorem AskRun.Inv.panics_iff (h : r.Inv) {i : FilterInput p} (hasks : Asks p r i) :
    (∃ msg ∈ requestPanics, askStep p r i = .error (.panic msg)) ↔ ¬ Follows p r i := by
  cases i with
  | request cpkt slave_port will_retry => exact h.request_panics hasks
  | response cpkt slave_port => exact h.response_panics hasks
  | snoop cpkt =>
    refine ⟨?_, fun hno => absurd trivial hno⟩
    rintro ⟨msg, hmsg, hstep⟩
    unfold askStep filterStep at hstep
    simp only [bind_error_iff] at hstep
    rcases hstep with (hstep | ⟨_, -, hstep⟩) | ⟨_, -, hstep⟩
    · exact absurd hmsg (lookupSnoop_panics hstep)
    · cases hstep
    · cases hstep
  | snoopResponse cpkt rsp_port req_port =>
    refine ⟨?_, fun hno => absurd trivial hno⟩
    rintro ⟨msg, hmsg, hstep⟩
    unfold askStep filterStep at hstep
    simp only [bind_error_iff] at hstep
    rcases hstep with (hstep | ⟨_, -, hstep⟩) | ⟨_, -, hstep⟩
    · exact absurd hmsg (updateSnoopResponse_panics hstep)
    · cases hstep
    · cases hstep
  | snoopForward cpkt =>
    refine ⟨?_, fun hno => absurd trivial hno⟩
    rintro ⟨msg, hmsg, hstep⟩
    unfold askStep filterStep at hstep
    simp only [bind_error_iff] at hstep
    rcases hstep with (hstep | ⟨_, -, hstep⟩) | ⟨_, -, hstep⟩
    · exact absurd hstep updateSnoopForward_panics
    · cases hstep
    · cases hstep

theorem AskRun.Inv.follows_of_held (h : r.Inv) {i : FilterInput p} (hheld : FollowsHeld p r i) : Follows p r i := by
  cases i with
  | request cpkt slave_port will_retry =>
    intro halloc hneeds hresp
    exact h.covers.holder cpkt.addr cpkt.isSecure slave_port (hheld halloc hneeds hresp)
  | snoop cpkt => exact hheld
  | snoopResponse cpkt rsp_port req_port => exact hheld
  | snoopForward cpkt => exact hheld
  | response cpkt slave_port => exact hheld

/-- A run that follows by the history reaches none of these panics. -/
theorem held_not_panics {r : AskRun p}
    (h : Reaches (askNext p) (fun r i => Asks p r i ∧ FollowsHeld p r i) {} r) {i : FilterInput p}
    (hasks : Asks p r i) (hheld : FollowsHeld p r i) :
    ∀ msg ∈ requestPanics, askStep p r i ≠ .error (.panic msg) := by
  have hinv : r.Inv := h.inv (P := AskRun.Inv) askInv_init fun t j t' ht hok hnext =>
    ht.step hok.1 (ht.follows_of_held hok.2) (toOption_eq_some.1 hnext)
  intro msg hmsg hstep
  exact (hinv.panics_iff hasks).1 ⟨msg, hmsg, hstep⟩ (hinv.follows_of_held hheld)

/-- **When the snoop filter accepts the response to a request that it accepted.**  In every run in which
each response that finds an entry is for a tracked request and each request that a cache above answers
comes from a holder, a step reaches one of the panics about what the port asked for or holds if and only if
it is itself not of this kind.  A port that holds the line, as the history tells, is a holder. -/
theorem asks_panics_iff {r : AskRun p} (h : Reaches (askNext p) (fun r i => Asks p r i ∧ Follows p r i) {} r) :
    (∀ i, Asks p r i → ((∃ msg ∈ requestPanics, askStep p r i = .error (.panic msg)) ↔ ¬ Follows p r i)) ∧
    ∀ cpkt port will_retry, r.held (line p cpkt.addr cpkt.isSecure) port = true →
      Follows p r (.request cpkt port will_retry) := by
  have hinv := reachable_askInv h
  refine ⟨fun i hasks => hinv.panics_iff hasks, fun cpkt port will_retry hheld => ?_⟩
  exact fun _ _ _ => hinv.covers.holder cpkt.addr cpkt.isSecure port hheld

/-- A read of the line that no cache sent, and its response. -/
def plainReq : CohPacket := { fillReq with cmd := .ReadReq }

def plainResp : CohPacket := { fillReq with cmd := .ReadResp }

def dropReq : CohPacket := { fillReq with cmd := .CleanEvict }

/-- Cache 0 has the line; a request through the port of cache 2 that no cache sent is unanswered. -/
theorem plain_reached : ∃ r : AskRun filterParams,
      Reaches (askNext filterParams) (fun r i => Asks filterParams r i ∧ Follows filterParams r i) {} r ∧
      r.held (line filterParams 64 false) (0 : Fin 3) = true ∧ Asks filterParams r (.response plainResp (2 : Fin 3)) ∧
      ¬ Follows filterParams r (.response plainResp (2 : Fin 3)) := by
  have h0 : Reaches (askNext filterParams)
      (fun r i => Asks filterParams r i ∧ Follows filterParams r i) {} {} := .refl
  have h1 := h0.step (i := (.request fillReq (0 : Fin 3) false : FilterInput filterParams))
    ⟨⟨rfl, fun _ => rfl, fun h => absurd h (by decide)⟩, fun _ _ h => absurd h (by decide)⟩ rfl
  have h2 := h1.step (i := (.response fillResp (0 : Fin 3) : FilterInput filterParams))
    ⟨⟨rfl, rfl, rfl⟩, fun _ _ => rfl⟩ rfl
  have h3 := h2.step (i := (.request plainReq (2 : Fin 3) false : FilterInput filterParams))
    ⟨⟨rfl, fun _ => rfl, fun h => absurd h (by decide)⟩, fun h => absurd h (by decide)⟩ rfl
  refine ⟨_, h3, rfl, ⟨rfl, rfl, rfl⟩, fun hfollows => ?_⟩
  have hpend := hfollows rfl (Finmap.mem_iff.2 ⟨_, rfl⟩)
  exact absurd hpend (by decide)

/-- The response of the request that no cache sent panics, an eviction of the line by cache 0 does not. -/
theorem asks_panics_iff_plain : ∃ r : AskRun filterParams, (∃ msg ∈ requestPanics,
        askStep filterParams r (.response plainResp (2 : Fin 3)) = .error (.panic msg)) ∧ ∀ msg ∈ requestPanics,
        askStep filterParams r (.request dropReq (0 : Fin 3) false) ≠ .error (.panic msg) := by
  obtain ⟨r, hreach, hheld, hasks, hno⟩ := plain_reached
  obtain ⟨hpanics, hfollows⟩ := asks_panics_iff hreach
  refine ⟨r, (hpanics _ hasks).2 hno, fun msg hmsg hstep => ?_⟩
  have hdrop : Asks filterParams r (.request dropReq (0 : Fin 3) false) :=
    ⟨rfl, fun h => absurd h (by decide), fun _ => hheld⟩
  exact (hpanics _ hdrop).1 ⟨msg, hmsg, hstep⟩ (hfollows dropReq (0 : Fin 3) false hheld)

/-- The filter panics on a response to a request that it accepted. -/
theorem accepted_not_answered : ¬ ∀ (p : SnoopFilterParams) (r : AskRun p) (i : FilterInput p),
      Reaches (askNext p) (Asks p) {} r → Asks p r i →
        ∀ msg ∈ requestPanics, askStep p r i ≠ .error (.panic msg) := by
  intro h
  obtain ⟨r, hreach, -, hasks, hno⟩ := plain_reached
  obtain ⟨msg, hmsg, hstep⟩ := ((reachable_askInv hreach).panics_iff hasks).2 hno
  exact h _ r _ (hreach.mono fun _ _ hok => hok.1) hasks msg hmsg hstep

end Alpine.Mem
