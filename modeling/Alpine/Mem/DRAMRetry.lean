import Alpine.Mem.DRAMQueues
import Alpine.Lib.Run

/-!
# Retries that the DRAM controller owes

The controller with what wakes it: `nextReqEvent`, which is scheduled or not, and the ranks, which are in the
refresh-idle state or not.

* `Awake` — `nextReqEvent` is scheduled or a rank is not refresh-idle; the end of its refresh schedules the event.
* `reachesEnd` — whether `processNextReqEvent` comes to its last statements, which schedule the event again.
* `Call`, `step`, `Permitted` — requests of at most `K` bursts, the two events, and the refreshes of the ranks; the
  scheduler finds a packet for a refresh-idle rank if there is one.
* `Owed` — a refused request is owed a wake-up.
* `owed_iff` — it is in every run, just if `K` bursts fit the write buffer above its low threshold, and the read
  buffer.
-/

namespace Alpine.Mem.Dram

/-- What the constructor accepts: the thresholds are percentages, the low one below the high one. -/
def Accepted (p : Params) : Prop :=
  p.writeBufferSize < 2 ^ 32 ∧ ∃ write_low_thresh_perc write_high_thresh_perc : Nat,
    write_low_thresh_perc < write_high_thresh_perc ∧ write_high_thresh_perc ≤ 100 ∧
    p.writeLowThreshold = p.writeBufferSize * write_low_thresh_perc % 2 ^ 32 / 100 ∧
    p.writeHighThreshold = p.writeBufferSize * write_high_thresh_perc % 2 ^ 32 / 100

theorem Accepted.low_le {p : Params} (h : Accepted p) : p.writeLowThreshold ≤ p.writeBufferSize := by
  obtain ⟨-, low, high, hlt, hle, hlow, -⟩ := h
  rw [hlow]
  apply Nat.div_le_of_le_mul
  rw [Nat.mul_comm 100]
  exact (Nat.mod_le _ _).trans (Nat.mul_le_mul_left _ (by omega))

/-- The controller, whether `nextReqEvent` is scheduled, and which ranks are refresh-idle. -/
structure Wakeable (ranks : Nat) where
  ctrl : DRAMCtrl
  nextReqEvent : Bool
  inRefIdleState : Fin ranks → Bool

inductive WakeCall (ranks : Nat) where
  | recvTimingReq (pkt : Packet)
  | processNextReqEvent (busy : Bool) (choice : Option Nat) (draining : Bool)
  | processRespondEvent
  | refreshDue (r : Fin ranks)
  | refreshDone (r : Fin ranks)
  | drain

namespace DRAMCtrl

variable (p : Params)

/-- The scheduler has found a packet. -/
def found (queue : List DRAMPacket) (choice : Option Nat) : Bool := (choice.bind fun i => queue[i]?).isSome

/-- `processNextReqEvent` comes to its end, where it schedules `nextReqEvent`, and does not return before. -/
def reachesEnd (s : DRAMCtrl) (busy : Bool) (choice : Option Nat) (draining : Bool) : Bool :=
  !busy && match s.switchBus.busState with
    | .READ =>
      if s.readQueue = [] then decide (s.writeQueue ≠ [] ∧ (draining ∨ s.writeQueue.length > p.writeLowThreshold))
      else found s.readQueue choice
    | .WRITE => found s.writeQueue choice

/-- The queue that the scheduler chooses from. -/
def current (s : DRAMCtrl) : List DRAMPacket :=
  match s.switchBus.busState with
  | .READ => s.readQueue
  | .WRITE => s.writeQueue

end DRAMCtrl

namespace Wakeable

variable (p : Params) {ranks : Nat} (rankOf : Nat → Fin ranks)

def new : Wakeable ranks := ⟨DRAMCtrl.new, false, fun _ => true⟩

def step (s : Wakeable ranks) : WakeCall ranks → Option (Wakeable ranks)
  | .recvTimingReq pkt => (s.ctrl.recvTimingReq p pkt).map fun r =>
    -- a read that the write queue services returns before the event is scheduled
    { s with
      ctrl := r.1
      nextReqEvent := s.nextReqEvent || r.2.1 && (!pkt.isRead || r.2.2.length != dramPktCount p pkt) }
  | .processNextReqEvent busy choice draining =>
    (s.ctrl.processNextReqEvent p busy choice draining).map fun c =>
      { s with ctrl := c, nextReqEvent := s.ctrl.reachesEnd p busy choice draining }
  | .processRespondEvent => s.ctrl.processRespondEvent.map fun r => { s with ctrl := r.1 }
  | .refreshDue r => some { s with inRefIdleState := Function.update s.inRefIdleState r false }
  | .refreshDone r => some { s with inRefIdleState := Function.update s.inRefIdleState r true, nextReqEvent := true }
  | .drain => some { s with nextReqEvent := s.nextReqEvent || !s.ctrl.writeQueue.isEmpty }

/-- A packet is a read or a write of at most `K` bursts; an event fires when it is scheduled; the ranks are all busy
only if none is refresh-idle, and the scheduler finds a packet for a refresh-idle rank if there is one. -/
def Permitted (K : Nat) (s : Wakeable ranks) : WakeCall ranks → Prop
  | .recvTimingReq pkt => pkt.isRead = !pkt.isWrite ∧ pkt.size ≠ 0 ∧ dramPktCount p pkt ≤ K
  | .processNextReqEvent busy choice _ => s.nextReqEvent = true ∧ (busy = true → ∀ r, s.inRefIdleState r = false) ∧
    match choice with
    | some i => ∃ d, s.ctrl.current[i]? = some d ∧ s.inRefIdleState (rankOf d.addr) = true
    | none => ∀ d ∈ s.ctrl.current, s.inRefIdleState (rankOf d.addr) = false
  | .processRespondEvent => s.ctrl.respondScheduled = true
  | .refreshDue _ => True
  | .refreshDone r => s.inRefIdleState r = false
  | .drain => True

/-- Something will happen. -/
def Awake (s : Wakeable ranks) : Prop := s.nextReqEvent = true ∨ ∃ r, s.inRefIdleState r = false

structure Owed (s : Wakeable ranks) : Prop where
  write : s.ctrl.retryWrReq = true → s.Awake
  read : s.ctrl.retryRdReq = true → s.ctrl.readQueue ≠ [] ∨ s.ctrl.respQueue ≠ []

end Wakeable

/-! ## What the calls change -/

namespace DRAMCtrl

variable {p : Params} {s s' : DRAMCtrl} {pkt : Packet}

/-- The bursts of a write go to the write queue or merge with one there; all else is left alone. -/
structure Writes (p : Params) (s s' : DRAMCtrl) : Prop where
  readQueue : s'.readQueue = s.readQueue
  respQueue : s'.respQueue = s.respQueue
  busStateNext : s'.busStateNext = s.busStateNext
  retryRdReq : s'.retryRdReq = s.retryRdReq
  retryWrReq : s'.retryWrReq = s.retryWrReq
  le : s.writeQueue.length ≤ s'.writeQueue.length
  length_le : s.writeQueue.length ≤ p.writeBufferSize → s'.writeQueue.length ≤ p.writeBufferSize

theorem Writes.refl (s : DRAMCtrl) : Writes p s s := ⟨rfl, rfl, rfl, rfl, rfl, le_rfl, id⟩

theorem Writes.trans {s'' : DRAMCtrl} (h : Writes p s s') (h' : Writes p s' s'') : Writes p s s'' :=
  ⟨h'.readQueue.trans h.readQueue, h'.respQueue.trans h.respQueue, h'.busStateNext.trans h.busStateNext,
    h'.retryRdReq.trans h.retryRdReq, h'.retryWrReq.trans h.retryWrReq, h.le.trans h'.le,
    fun hle => h'.length_le (h.length_le hle)⟩

theorem writeBurst_writes {b : Burst} (h : writeBurst p pkt s b = some s') : Writes p s s' := by
  unfold writeBurst at h
  split at h
  · cases h
    exact Writes.refl s
  · split at h
    next hspace =>
      dsimp only at h
      split at h
      · cases h
        refine ⟨rfl, rfl, rfl, rfl, rfl, ?_, fun _ => ?_⟩
        · show _ ≤ (s.writeQueue ++ _).length
          rw [List.length_append]
          exact Nat.le_add_right _ _
        · show (s.writeQueue ++ _).length ≤ _
          rw [List.length_append, List.length_singleton]
          exact hspace
      · cases h
    · cases h

theorem writeLoop_writes : ∀ {bs : List Burst} {s s' : DRAMCtrl},
    bs.foldlM (writeBurst p pkt) s = some s' → Writes p s s'
  | [], s, s', h => by
    cases h
    exact Writes.refl s
  | b :: bs, s, s', h => by
    rw [List.foldlM_cons] at h
    obtain ⟨t, ht, h⟩ := Option.bind_eq_some_iff.1 h
    exact (writeBurst_writes ht).trans (writeLoop_writes h)

theorem addToWriteQueue_writes {cnt : Nat} (h : s.addToWriteQueue p pkt cnt = some s') : Writes p s s' := by
  unfold addToWriteQueue at h
  split at h
  · obtain ⟨t, ht, rfl⟩ := Option.map_eq_some_iff.1 h
    have hw := writeLoop_writes ht
    exact ⟨hw.readQueue, hw.respQueue, hw.busStateNext, hw.retryRdReq, hw.retryWrReq, hw.le, hw.length_le⟩
  · cases h

/-- A read that is accepted adds to the read queue, or the write queue services all its bursts. -/
theorem addToReadQueue_reads {cnt : Nat} {sv : List Burst} (hread : pkt.isWrite = false)
    (hfull : s.readQueueFull p cnt = false) (h : s.addToReadQueue p pkt cnt = some (s', sv)) :
    (∃ rs, s'.readQueue = s.readQueue ++ rs ∧ (sv.length = cnt → rs = [])) ∧ s'.writeQueue = s.writeQueue ∧
      s'.respQueue = s.respQueue ∧ s'.busStateNext = s.busStateNext ∧ s'.retryRdReq = s.retryRdReq ∧
      s'.retryWrReq = s.retryWrReq := by
  have hspace : s.readQueue.length + s.respQueue.length + cnt ≤ p.readBufferSize := by
    have := of_decide_eq_false hfull
    omega
  have hcnt : cnt ≠ 0 := by
    rintro rfl
    simp [addToReadQueue] at h
  by_cases hall : toRead p s (bursts p pkt cnt pkt.addr) = []
  · rw [addToReadQueue_found hread hcnt hall] at h
    cases h
    exact ⟨⟨[], (List.append_nil _).symm, fun _ => rfl⟩, rfl, rfl, rfl, rfl, rfl⟩
  · rw [addToReadQueue_spec hread hcnt hspace hall] at h
    obtain ⟨rfl, rfl⟩ := Prod.mk.inj (Option.some.inj h)
    refine ⟨⟨_, rfl, fun hlen => ?_⟩, rfl, rfl, rfl, rfl, rfl⟩
    have hsum := length_toRead (p := p) (s := s) (bursts p pkt cnt pkt.addr)
    have hpos := List.length_pos_iff.2 hall
    rw [length_bursts] at hsum
    omega

/-- What `processNextReqEvent` does when it returns before its end, and when it comes to it. -/
inductive NextReq (p : Params) (s : DRAMCtrl) (busy : Bool) (choice : Option Nat) (draining : Bool) : DRAMCtrl → Prop
  | busy : busy = true → NextReq p s busy choice draining s
  | idle : s.busStateNext = .READ → s.readQueue = [] → s.writeQueue.length ≤ p.writeLowThreshold →
      NextReq p s busy choice draining s.switchBus
  | notFound : s.current ≠ [] → found s.current choice = false → NextReq p s busy choice draining s.switchBus
  | switch {c : DRAMCtrl} : s.reachesEnd p busy choice draining = true → c.readQueue = s.readQueue →
      c.writeQueue = s.writeQueue → c.respQueue = s.respQueue → c.retryRdReq = s.retryRdReq →
      (c.retryWrReq = true → s.retryWrReq = true) → NextReq p s busy choice draining c
  | read {c : DRAMCtrl} : s.reachesEnd p busy choice draining = true → c.writeQueue = s.writeQueue →
      c.respQueue ≠ [] → (c.retryWrReq = true → s.retryWrReq = true) → NextReq p s busy choice draining c
  | write {c : DRAMCtrl} : s.reachesEnd p busy choice draining = true → c.readQueue = s.readQueue →
      c.respQueue = s.respQueue → c.retryRdReq = s.retryRdReq → c.writeQueue.length + 1 = s.writeQueue.length →
      (c.retryWrReq = true → ¬ c.writeQueue.length < p.writeBufferSize) → NextReq p s busy choice draining c

theorem chooseNext_found {queue : List DRAMPacket} {choice : Option Nat} {r : Option (List DRAMPacket)}
    (h : chooseNext queue choice = some r) : queue ≠ [] ∧ (r = none ∧ found queue choice = false ∨
      found queue choice = true ∧ ∃ d ds, r = some (d :: ds) ∧ ds.length + 1 = queue.length) := by
  have hperm := @chooseNext_perm queue
  unfold chooseNext at h
  split at h
  next => cases h
  next hne =>
    refine ⟨hne, ?_⟩
    cases choice with
    | none =>
      cases h
      exact .inl ⟨rfl, rfl⟩
    | some i =>
      cases hi : queue[i]? with
      | none =>
        rw [Option.bind_some, hi] at h
        cases h
        exact .inl ⟨rfl, by rw [found, Option.bind_some, hi]; rfl⟩
      | some d =>
        have hlen := (@hperm (d :: queue.eraseIdx i) (some i) (by
          rw [chooseNext, if_neg hne, Option.bind_some, hi]
          rfl)).1.length_eq
        rw [Option.bind_some, hi] at h
        cases h
        exact .inr ⟨by rw [found, Option.bind_some, hi]; rfl, d, _, rfl, hlen⟩

theorem switchBus_frame : s.switchBus.readQueue = s.readQueue ∧ s.switchBus.writeQueue = s.writeQueue ∧
    s.switchBus.respQueue = s.respQueue ∧ s.switchBus.retryRdReq = s.retryRdReq ∧
    s.switchBus.retryWrReq = s.retryWrReq := by
  unfold switchBus
  split <;> exact ⟨rfl, rfl, rfl, rfl, rfl⟩

theorem retryWrite_frame (s : DRAMCtrl) : (s.retryWrite p).retryWrReq = true →
    s.retryWrReq = true ∧ ¬ s.writeQueue.length < p.writeBufferSize := by
  intro h
  obtain ⟨h1, h2⟩ := Bool.and_eq_true_iff.1 h
  exact ⟨h1, of_decide_eq_false (Bool.not_eq_true' _ ▸ h2)⟩

theorem processNextReqEvent_cases {busy : Bool} {choice : Option Nat} {draining : Bool}
    (h : s.processNextReqEvent p busy choice draining = some s') : NextReq p s busy choice draining s' := by
  obtain ⟨hreads, hwrites, hresps, hrd, hwr⟩ := switchBus_frame (s := s)
  unfold processNextReqEvent at h
  by_cases hbusy : busy = true
  · rw [if_pos hbusy] at h
    cases h
    exact .busy hbusy
  rw [if_neg hbusy] at h
  have hb : (!busy) = true := by rw [Bool.not_eq_true] at hbusy; rw [hbusy]; rfl
  cases hbus : s.switchBus.busState with
  | READ =>
    have hcur : s.current = s.readQueue := by rw [current, hbus]
    simp only [hbus, nextRead, hreads, hwrites] at h
    by_cases hempty : s.readQueue = []
    · have hend : s.reachesEnd p busy choice draining =
          decide (s.writeQueue ≠ [] ∧ (draining = true ∨ s.writeQueue.length > p.writeLowThreshold)) := by
        unfold reachesEnd
        simp only [hb, hbus, if_pos hempty, Bool.true_and]
      rw [if_pos hempty] at h
      by_cases hgo : s.writeQueue ≠ [] ∧ (draining = true ∨ s.writeQueue.length > p.writeLowThreshold)
      · rw [if_pos hgo] at h
        cases h
        refine .switch (by rw [hend]; exact decide_eq_true hgo) rfl rfl hresps hrd fun hretry => ?_
        rw [← hwr]
        exact (retryWrite_frame _ hretry).1
      · rw [if_neg hgo] at h
        cases h
        refine .idle ?_ hempty ?_
        · rw [← switchBus_busState, hbus]
        · by_contra hlow
          refine hgo ⟨?_, .inr (by omega)⟩
          intro hnil
          rw [hnil] at hlow
          exact hlow (Nat.zero_le _)
    · have hend : s.reachesEnd p busy choice draining = found s.readQueue choice := by
        unfold reachesEnd
        simp only [hb, hbus, if_neg hempty, Bool.true_and]
      rw [if_neg hempty] at h
      obtain ⟨r, hr, h⟩ := Option.bind_eq_some_iff.1 h
      obtain ⟨hne, ⟨rfl, hno⟩ | ⟨hyes, d, ds, rfl, -⟩⟩ := chooseNext_found hr
      · cases h
        exact .notFound (by rw [hcur]; exact hne) (by rw [hcur]; exact hno)
      · obtain ⟨t, ht, rfl⟩ := Option.map_eq_some_iff.1 h
        simp only [serveRead] at ht
        split at ht
        · cases ht
        split at ht
        · cases ht
        cases ht
        refine .read (by rw [hend]; exact hyes) hwrites ?_ fun hretry => ?_
        · exact List.append_ne_nil_of_right_ne_nil _ (List.cons_ne_nil _ _)
        · rw [← hwr]
          exact (retryWrite_frame _ hretry).1
  | WRITE =>
    have hcur : s.current = s.writeQueue := by rw [current, hbus]
    have hend : s.reachesEnd p busy choice draining = found s.writeQueue choice := by
      unfold reachesEnd
      simp only [hb, hbus, Bool.true_and]
    simp only [hbus, nextWrite, hwrites] at h
    obtain ⟨r, hr, h⟩ := Option.bind_eq_some_iff.1 h
    obtain ⟨hne, ⟨rfl, hno⟩ | ⟨hyes, d, ds, rfl, hlen⟩⟩ := chooseNext_found hr
    · cases h
      exact .notFound (by rw [hcur]; exact hne) (by rw [hcur]; exact hno)
    · obtain ⟨t, ht, rfl⟩ := Option.map_eq_some_iff.1 h
      simp only [serveWrite] at ht
      split at ht
      · cases ht
      cases ht
      exact .write (by rw [hend]; exact hyes) hreads hresps hrd hlen fun hretry => (retryWrite_frame _ hretry).2

end DRAMCtrl

namespace Wakeable

open DRAMCtrl

variable {p : Params} {ranks : Nat} {rankOf : Nat → Fin ranks} {K : Nat} {s s' : Wakeable ranks}

/-! ## Small packets -/

/-- A write is refused only while the queue is above the low threshold, and then the controller is awake. -/
structure Inv (p : Params) (s : Wakeable ranks) : Prop where
  length_le : s.ctrl.writeQueue.length ≤ p.writeBufferSize
  refused : s.ctrl.retryWrReq = true → p.writeLowThreshold < s.ctrl.writeQueue.length
  awake : s.ctrl.readQueue ≠ [] ∨ p.writeLowThreshold < s.ctrl.writeQueue.length ∨ s.ctrl.busStateNext = .WRITE →
    s.Awake
  reads : s.ctrl.retryRdReq = true → s.ctrl.readQueue ≠ [] ∨ s.ctrl.respQueue ≠ []

theorem Inv.owed (h : Inv p s) : Owed s := ⟨fun hr => h.awake (.inr (.inl (h.refused hr))), h.reads⟩

theorem inv_new : Inv p (new : Wakeable ranks) where
  length_le := Nat.zero_le _
  refused := nofun
  awake h := by
    rcases h with h | h | h
    · exact absurd rfl h
    · exact absurd h (Nat.not_lt_zero _)
    · cases h
  reads := nofun

theorem awake_of_event (h : s.nextReqEvent = true) : s.Awake := .inl h

/-- Scheduling the event or a refresh does not put the controller to sleep. -/
theorem Awake.mono (h : s.Awake) (hev : s.nextReqEvent = true → s'.nextReqEvent = true)
    (hidle : ∀ r, s.inRefIdleState r = false → s'.inRefIdleState r = false) : s'.Awake :=
  h.imp hev fun ⟨r, hr⟩ => ⟨r, hidle r hr⟩

theorem Inv.recvRead (h : Inv p s) {pkt : Packet} (hread : pkt.isRead = true) (hwrite : pkt.isWrite = false)
    (hK : dramPktCount p pkt ≤ p.readBufferSize) (hs : step p s (.recvTimingReq pkt) = some s') : Inv p s' := by
  simp only [step, recvTimingReq, hread] at hs
  obtain ⟨⟨c, accepted, sv⟩, hc, rfl⟩ := Option.map_eq_some_iff.1 hs
  split at hc
  · cases hc
  simp only [if_true] at hc
  by_cases hfull : s.ctrl.readQueueFull p (dramPktCount p pkt) = true
  · rw [if_pos hfull] at hc
    cases hc
    refine ⟨h.length_le, h.refused, fun ha => (h.awake ha).mono (fun he => ?_) fun _ hr => hr, fun _ => ?_⟩
    · show (_ || _) = true
      rw [he]
      rfl
    · have hlt := of_decide_eq_true hfull
      by_contra hnone
      rw [not_or, ne_eq, not_not, ne_eq, not_not] at hnone
      obtain ⟨hr, hq⟩ := hnone
      change s.ctrl.readQueue = [] at hr
      change s.ctrl.respQueue = [] at hq
      rw [hr, hq, List.length_nil] at hlt
      omega
  · rw [if_neg hfull] at hc
    obtain ⟨⟨c', sv'⟩, hadd, heq⟩ := Option.map_eq_some_iff.1 hc
    obtain ⟨rfl, rfl, rfl⟩ : c' = c ∧ true = accepted ∧ sv' = sv := by
      cases heq
      exact ⟨rfl, rfl, rfl⟩
    obtain ⟨⟨rs, hrs, hnone⟩, hw, hq, hbus, hrd, hwr⟩ :=
      addToReadQueue_reads hwrite (Bool.not_eq_true _ ▸ hfull) hadd
    constructor
    case length_le =>
      show c'.writeQueue.length ≤ _
      rw [hw]
      exact h.length_le
    case refused =>
      intro hr
      change c'.retryWrReq = true at hr
      rw [hwr] at hr
      show _ < c'.writeQueue.length
      rw [hw]
      exact h.refused hr
    case awake =>
      intro ha
      by_cases hlen : sv'.length = dramPktCount p pkt
      · refine Awake.mono (s := s) (h.awake ?_) (fun he => ?_) fun _ hr => hr
        · change c'.readQueue ≠ [] ∨ _ < c'.writeQueue.length ∨ c'.busStateNext = _ at ha
          rw [hrs, hnone hlen, List.append_nil, hw, hbus] at ha
          exact ha
        · show (_ || _) = true
          rw [he]
          rfl
      · refine awake_of_event ?_
        simp [hlen]
    case reads =>
      intro hr
      change c'.retryRdReq = true at hr
      rw [hrd] at hr
      show c'.readQueue ≠ [] ∨ c'.respQueue ≠ []
      rw [hrs, hq]
      exact (h.reads hr).imp (List.append_ne_nil_of_left_ne_nil · _) id

theorem Inv.recvWrite (h : Inv p s) {pkt : Packet} (hread : pkt.isRead = false) (hwrite : pkt.isWrite = true)
    (hK : dramPktCount p pkt + p.writeLowThreshold ≤ p.writeBufferSize)
    (hs : step p s (.recvTimingReq pkt) = some s') : Inv p s' := by
  simp only [step, recvTimingReq, hread, hwrite] at hs
  obtain ⟨⟨c, accepted, sv⟩, hc, rfl⟩ := Option.map_eq_some_iff.1 hs
  split at hc
  · cases hc
  simp only [Bool.false_eq_true, if_false, if_true] at hc
  by_cases hfull : s.ctrl.writeQueueFull p (dramPktCount p pkt) = true
  · rw [if_pos hfull] at hc
    cases hc
    have hlt := of_decide_eq_true hfull
    refine ⟨h.length_le, fun _ => ?_, fun ha => (h.awake ha).mono (fun he => ?_) fun _ hr => hr, h.reads⟩
    · show _ < s.ctrl.writeQueue.length
      omega
    · show (_ || _) = true
      rw [he]
      rfl
  · rw [if_neg hfull] at hc
    obtain ⟨c', hadd, heq⟩ := Option.map_eq_some_iff.1 hc
    cases heq
    have hw := addToWriteQueue_writes hadd
    constructor
    case length_le => exact hw.length_le h.length_le
    case refused =>
      intro hr
      change c.retryWrReq = true at hr
      rw [hw.retryWrReq] at hr
      exact Nat.lt_of_lt_of_le (h.refused hr) hw.le
    case awake => exact fun _ => awake_of_event (by simp)
    case reads =>
      intro hr
      change c.retryRdReq = true at hr
      rw [hw.retryRdReq] at hr
      show c.readQueue ≠ [] ∨ c.respQueue ≠ []
      rw [hw.readQueue, hw.respQueue]
      exact h.reads hr

theorem Inv.processNextReqEvent (h : Inv p s) (hranks : 0 < ranks) {busy draining : Bool} {choice : Option Nat}
    (hp : Permitted p rankOf K s (.processNextReqEvent busy choice draining))
    (hs : step p s (.processNextReqEvent busy choice draining) = some s') : Inv p s' := by
  obtain ⟨-, hbusy, hchoice⟩ := hp
  simp only [step] at hs
  obtain ⟨c, hc, rfl⟩ := Option.map_eq_some_iff.1 hs
  obtain ⟨hreads, hwrites, hresps, hrd, hwr⟩ := switchBus_frame (s := s.ctrl)
  cases processNextReqEvent_cases hc with
  | busy hb =>
    exact ⟨h.length_le, h.refused, fun _ => .inr ⟨⟨0, hranks⟩, hbusy hb _⟩, h.reads⟩
  | idle hbus hempty hlow =>
    refine ⟨by rw [hwrites]; exact h.length_le, ?_, ?_, ?_⟩
    · rw [hwr, hwrites]
      exact h.refused
    · intro ha
      rw [hreads, hwrites, switchBus_busStateNext] at ha
      rcases ha with ha | ha | ha
      · exact absurd hempty ha
      · omega
      · rw [hbus] at ha
        cases ha
    · rw [hrd, hreads, hresps]
      exact h.reads
  | notFound hne hno =>
    refine ⟨by rw [hwrites]; exact h.length_le, ?_, fun _ => .inr ?_, ?_⟩
    · rw [hwr, hwrites]
      exact h.refused
    · -- every packet in the queue is for a rank that is not refresh-idle
      obtain ⟨d, hd⟩ := List.exists_mem_of_ne_nil _ hne
      cases choice with
      | none => exact ⟨_, hchoice d hd⟩
      | some i =>
        obtain ⟨e, he, -⟩ := hchoice
        rw [found, Option.bind_some, he] at hno
        cases hno
    · rw [hrd, hreads, hresps]
      exact h.reads
  | switch hend hr hw hq hrd' hretry =>
    refine ⟨by rw [hw]; exact h.length_le, fun hr' => ?_, fun _ => awake_of_event hend, ?_⟩
    · rw [hw]
      exact h.refused (hretry hr')
    · rw [hrd', hr, hq]
      exact h.reads
  | read hend hw hq hretry =>
    refine ⟨by rw [hw]; exact h.length_le, fun hr' => ?_, fun _ => awake_of_event hend, fun _ => .inr hq⟩
    rw [hw]
    exact h.refused (hretry hr')
  | write hend hr hq hrd' hlen hretry =>
    have hle := h.length_le
    refine ⟨by show c.writeQueue.length ≤ _; omega, fun hr' => absurd (show c.writeQueue.length < p.writeBufferSize by omega) (hretry hr'),
      fun _ => awake_of_event hend, ?_⟩
    rw [hrd', hr, hq]
    exact h.reads

theorem Inv.processRespondEvent (h : Inv p s) (hs : step p s .processRespondEvent = some s') : Inv p s' := by
  simp only [step] at hs
  obtain ⟨⟨c, d⟩, hc, rfl⟩ := Option.map_eq_some_iff.1 hs
  unfold DRAMCtrl.processRespondEvent at hc
  split at hc
  · cases hc
  · obtain ⟨t, ht, heq⟩ := Option.map_eq_some_iff.1 hc
    have hframe : t.writeQueue = s.ctrl.writeQueue ∧ t.readQueue = s.ctrl.readQueue ∧
        t.busStateNext = s.ctrl.busStateNext ∧ t.retryWrReq = s.ctrl.retryWrReq := by
      unfold respond at ht
      split at ht
      · cases ht
        exact ⟨rfl, rfl, rfl, rfl⟩
      · obtain ⟨helper, -, rfl⟩ := Option.map_eq_some_iff.1 ht
        split <;> exact ⟨rfl, rfl, rfl, rfl⟩
    obtain ⟨hw, hr, hbus, hwr⟩ := hframe
    cases heq
    refine ⟨?_, ?_, ?_, nofun⟩
    · show t.writeQueue.length ≤ _
      rw [hw]
      exact h.length_le
    · show t.retryWrReq = true → _ < t.writeQueue.length
      rw [hw, hwr]
      exact h.refused
    · intro ha
      change t.readQueue ≠ [] ∨ _ < t.writeQueue.length ∨ t.busStateNext = _ at ha
      rw [hr, hw, hbus] at ha
      exact h.awake ha

theorem Inv.step (h : Inv p s) (hranks : 0 < ranks) (hwrites : K + p.writeLowThreshold ≤ p.writeBufferSize)
    (hreads : K ≤ p.readBufferSize) {c : WakeCall ranks} (hp : Permitted p rankOf K s c)
    (hs : Wakeable.step p s c = some s') : Inv p s' := by
  cases c with
  | recvTimingReq pkt =>
    obtain ⟨hkind, -, hK⟩ := hp
    cases hread : pkt.isRead with
    | true =>
      have hwrite : pkt.isWrite = false := by
        rw [hread] at hkind
        simpa using hkind.symm
      exact h.recvRead hread hwrite (hK.trans hreads) hs
    | false =>
      have hwrite : pkt.isWrite = true := by
        rw [hread] at hkind
        simpa using hkind.symm
      exact h.recvWrite hread hwrite (by omega) hs
  | processNextReqEvent busy choice draining => exact h.processNextReqEvent hranks hp hs
  | processRespondEvent => exact h.processRespondEvent hs
  | refreshDue r =>
    cases hs
    refine ⟨h.length_le, h.refused, fun _ => .inr ⟨r, Function.update_self ..⟩, h.reads⟩
  | refreshDone r =>
    cases hs
    exact ⟨h.length_le, h.refused, fun _ => awake_of_event rfl, h.reads⟩
  | drain =>
    cases hs
    refine ⟨h.length_le, h.refused, fun ha => (h.awake ha).mono (fun he => ?_) fun _ hr => hr, h.reads⟩
    show (_ || _) = true
    rw [he]
    rfl

/-! ## Large packets -/

/-- One byte in the block `i`. -/
def oneByte (p : Params) (i : Nat) (hi : i * p.burstSize < 2 ^ 64) : Packet :=
  { id := i, addr := i * p.burstSize, size := 1, isRead := false, isWrite := true, fits := ⟨hi, by decide⟩ }

theorem dramPktCount_oneByte (i : Nat) (hi : i * p.burstSize < 2 ^ 64) : dramPktCount p (oneByte p i hi) = 1 := by
  have hpos := burstSize_pos (p := p)
  have hle := burstSize_le (p := p)
  unfold dramPktCount divCeil oneByte
  rw [and_burstSize, Nat.mul_mod_left, Nat.zero_add, Nat.mod_eq_of_lt (by decide : 1 < 2 ^ 32), Nat.add_comm,
    Nat.add_sub_cancel, Nat.mod_eq_of_lt (by omega), Nat.div_self hpos]

/-- The controller with writes to the first `i` blocks and nothing else. -/
structure Filled (p : Params) (i : Nat) (s : Wakeable ranks) : Prop where
  writes : WriteQueue p s.ctrl
  addrs : s.ctrl.writeAddrs p = (List.range i).map (· * p.burstSize)
  readQueue : s.ctrl.readQueue = []
  busState : s.ctrl.busState = .READ
  busStateNext : s.ctrl.busStateNext = .READ
  idle : ∀ r, s.inRefIdleState r = true
  event : s.nextReqEvent = decide (0 < i)

theorem Filled.length {i : Nat} (h : Filled p i s) : s.ctrl.writeQueue.length = i := by
  have hlen := congrArg List.length h.addrs
  rwa [writeAddrs, List.length_map, List.length_map, List.length_range] at hlen

theorem filled_new : Filled p 0 (new : Wakeable ranks) :=
  ⟨⟨List.nodup_nil, rfl, Nat.zero_le _⟩, rfl, rfl, rfl, rfl, fun _ => rfl, rfl⟩

theorem Filled.succ {i : Nat} (h : Filled p i s) (hi : i * p.burstSize < 2 ^ 64) (hspace : i < p.writeBufferSize) :
    ∃ s', step p s (.recvTimingReq (oneByte p i hi)) = some s' ∧ Filled p (i + 1) s' := by
  have hlen := h.length
  have halign : burstAlign p (i * p.burstSize) = i * p.burstSize := by
    rw [burstAlign_eq hi, Nat.mul_div_cancel _ (burstSize_pos (p := p))]
  have hnot : burstAlign p (i * p.burstSize) ∉ s.ctrl.writeAddrs p := by
    rw [h.addrs, halign, List.mem_map]
    rintro ⟨j, hj, heq⟩
    exact absurd (Nat.eq_of_mul_eq_mul_right (burstSize_pos (p := p)) heq) (Nat.ne_of_lt (List.mem_range.1 hj))
  have hfull : s.ctrl.writeQueueFull p 1 = false := decide_eq_false (by omega)
  obtain ⟨hstep, hq⟩ := @writeBurst_new _ _ (oneByte p i hi) h.writes
    ⟨i * p.burstSize, burstLen p (oneByte p i hi) (i * p.burstSize)⟩ (by omega) hnot
  have hbursts : bursts p (oneByte p i hi) 1 (oneByte p i hi).addr =
      [⟨i * p.burstSize, burstLen p (oneByte p i hi) (i * p.burstSize)⟩] := rfl
  refine ⟨⟨(s.ctrl.withWrites
    (s.ctrl.writeQueue ++
      [⟨oneByte p i hi, false, i * p.burstSize, burstLen p (oneByte p i hi) (i * p.burstSize), none⟩])
    (insert (burstAlign p (i * p.burstSize)) s.ctrl.isInWriteQueue)).accessAndRespond (oneByte p i hi),
    true, s.inRefIdleState⟩, ?_, ?_⟩
  · simp only [step, recvTimingReq, dramPktCount_oneByte, hfull, addToWriteQueue, hbursts, List.foldlM_cons, hstep]
    simp [oneByte]
  · constructor
    case writes => exact ⟨hq.nodup, hq.isIn, hq.length_le⟩
    case addrs =>
      show (s.ctrl.writeQueue ++ [_]).map _ = _
      rw [List.map_append, List.range_succ, List.map_append]
      exact congrArg₂ _ h.addrs (congrArg (fun a => [a]) halign)
    case readQueue => exact h.readQueue
    case busState => exact h.busState
    case busStateNext => exact h.busStateNext
    case idle => exact h.idle
    case event => exact (decide_eq_true (Nat.succ_pos i)).symm

theorem filled_reached (hp : Accepted p) (hK : 1 ≤ K) {i : Nat} (hi : i ≤ p.writeBufferSize) :
    ∃ s : Wakeable ranks, Run.Reaches (step p) (Permitted p rankOf K) new s ∧ Filled p i s := by
  induction i with
  | zero => exact ⟨new, .refl, filled_new⟩
  | succ i ih =>
    obtain ⟨s, hs, hfilled⟩ := ih (by omega)
    have haddr : i * p.burstSize < 2 ^ 64 := by
      have hlt := hp.1
      calc i * p.burstSize ≤ 2 ^ 32 * 2 ^ 31 := Nat.mul_le_mul (by omega) burstSize_le
        _ < 2 ^ 64 := by decide
    obtain ⟨s', hstep, hfilled'⟩ := hfilled.succ haddr hi
    have hcount := dramPktCount_oneByte (p := p) i haddr
    refine ⟨s', hs.step (i := WakeCall.recvTimingReq (oneByte p i haddr)) ?_ hstep, hfilled'⟩
    exact ⟨rfl, Nat.one_ne_zero, hcount.trans_le hK⟩

/-- The event finds no reads and no more writes than the low threshold, and is not scheduled again. -/
theorem Filled.sleep {i : Nat} (h : Filled p i s) (hlow : i ≤ p.writeLowThreshold) :
    step p s (.processNextReqEvent false none false) = some ⟨s.ctrl, false, s.inRefIdleState⟩ := by
  have hswitch : s.ctrl.switchBus = s.ctrl := by
    unfold switchBus
    rw [h.busState, h.busStateNext]
  have hnext : s.ctrl.processNextReqEvent p false none false = some s.ctrl := by
    simp only [DRAMCtrl.processNextReqEvent, hswitch, h.busState, nextRead, h.readQueue, h.length]
    simp [hlow]
  have hend : s.ctrl.reachesEnd p false none false = false := by
    simp only [reachesEnd, hswitch, h.busState, h.readQueue, h.length]
    simp [hlow]
  simp only [step, hnext, hend, Option.map_some]

/-- A write that does not fit beside the writes below the threshold is refused, and nothing will happen. -/
theorem refused_asleep (hp : Accepted p) (hK : ∃ pkt : Packet, pkt.size ≠ 0 ∧ dramPktCount p pkt = K)
    (hlarge : p.writeBufferSize < K + p.writeLowThreshold) :
    ∃ s : Wakeable ranks, Run.Reaches (step p) (Permitted p rankOf K) new s ∧ ¬ Owed s := by
  have hle := hp.low_le
  obtain ⟨s, hs, hfilled⟩ := @filled_reached _ _ rankOf K hp (by omega) _ hle
  obtain ⟨pkt, hsize, hcount⟩ := hK
  have hcurrent : s.ctrl.current = [] := by
    unfold current switchBus
    rw [hfilled.busState, hfilled.busStateNext]
    simp only [hfilled.busState, hfilled.readQueue]
  have hasleep : Run.Reaches (step p) (Permitted p rankOf K) new ⟨s.ctrl, false, s.inRefIdleState⟩ := by
    by_cases hpos : 0 < p.writeLowThreshold
    · refine hs.step (i := WakeCall.processNextReqEvent false none false) ⟨?_, nofun, ?_⟩ (hfilled.sleep le_rfl)
      · rw [hfilled.event]
        exact decide_eq_true hpos
      · intro d hd
        rw [hcurrent] at hd
        exact absurd hd List.not_mem_nil
    · have hevent := hfilled.event
      rw [decide_eq_false hpos] at hevent
      rw [← hevent]
      exact hs
  let write : Packet := { pkt with isRead := false, isWrite := true }
  have hwrite : dramPktCount p write = K := hcount
  have hfull : s.ctrl.writeQueueFull p K = true := by
    refine decide_eq_true ?_
    rw [hfilled.length]
    omega
  refine ⟨⟨{ s.ctrl with retryWrReq := true }, false, s.inRefIdleState⟩,
    hasleep.step (i := WakeCall.recvTimingReq write) ⟨rfl, hsize, hwrite.le⟩ ?_, fun howed => ?_⟩
  · simp only [step, recvTimingReq, hwrite, hfull]
    simp [write, hsize]
  · obtain h | ⟨r, hr⟩ := howed.write rfl
    · cases h
    · exact Bool.noConfusion ((hfilled.idle r).symm.trans hr)

/-- A read that does not fit an empty buffer is refused for ever. -/
theorem refused_unanswered (hK : ∃ pkt : Packet, pkt.size ≠ 0 ∧ dramPktCount p pkt = K)
    (hlarge : p.readBufferSize < K) :
    ∃ s : Wakeable ranks, Run.Reaches (step p) (Permitted p rankOf K) new s ∧ ¬ Owed s := by
  obtain ⟨pkt, hsize, hcount⟩ := hK
  let read : Packet := { pkt with isRead := true, isWrite := false }
  have hread : dramPktCount p read = K := hcount
  have hfull : DRAMCtrl.new.readQueueFull p K = true := decide_eq_true (by simpa [DRAMCtrl.new] using hlarge)
  refine ⟨⟨{ DRAMCtrl.new with retryRdReq := true }, false, fun _ => true⟩,
    Run.Reaches.refl.step (i := WakeCall.recvTimingReq read) ⟨rfl, hsize, hread.le⟩ ?_, fun howed => ?_⟩
  · simp only [step, new, recvTimingReq, hread, hfull]
    simp [read, hsize]
  · obtain h | h := howed.read rfl
    · exact h rfl
    · exact h rfl

/-! ## Every run -/

theorem owed_iff (hp : Accepted p) (hranks : 0 < ranks) (hK : ∃ pkt : Packet, pkt.size ≠ 0 ∧ dramPktCount p pkt = K) :
    (∀ s : Wakeable ranks, Run.Reaches (step p) (Permitted p rankOf K) new s → Owed s) ↔
      K + p.writeLowThreshold ≤ p.writeBufferSize ∧ K ≤ p.readBufferSize := by
  constructor
  · intro h
    constructor
    · by_contra hlarge
      obtain ⟨s, hs, hnot⟩ := @refused_asleep _ ranks rankOf _ hp hK (by omega)
      exact hnot (h s hs)
    · by_contra hlarge
      obtain ⟨s, hs, hnot⟩ := @refused_unanswered p ranks rankOf _ hK (by omega)
      exact hnot (h s hs)
  · rintro ⟨hwrites, hreads⟩ s hs
    exact (hs.inv inv_new fun _ _ _ h hok hstep => h.step hranks hwrites hreads hok hstep).owed

end Wakeable

/-! ## A write across two blocks -/

/-- Bursts of 64 bytes, a read and a write buffer of four, and the low threshold at three writes. -/
def ddrLate : Params := ⟨64, 4, 4, 4, 3, 1, sixtyFour_pow2⟩

theorem ddrLate_accepted : Accepted ddrLate := ⟨by decide, 75, 100, by decide, by decide, rfl, rfl⟩

/-- The low threshold at two writes. -/
def ddrHalf : Params := { ddrLate with writeLowThreshold := 2 }

theorem ddrHalf_accepted : Accepted ddrHalf := ⟨by decide, 50, 100, by decide, by decide, rfl, rfl⟩

namespace Wakeable

/-- Two bytes on either side of the boundary of the first two blocks. -/
def straddling : Packet := ⟨9, 63, 2, false, true, by decide⟩

/-- Requests of two bursts are owed their wake-up if the low threshold is at half of the buffer, and not if it is at three
quarters. -/
theorem owed_ddrLate :
    (∀ s : Wakeable 1, Run.Reaches (step ddrHalf) (Permitted ddrHalf (fun _ => 0) 2) new s → Owed s) ∧
    ¬ ∀ s : Wakeable 1, Run.Reaches (step ddrLate) (Permitted ddrLate (fun _ => 0) 2) new s → Owed s :=
  ⟨(owed_iff ddrHalf_accepted (by decide) ⟨straddling, by decide, by decide⟩).2 (by decide),
    fun h => absurd ((owed_iff ddrLate_accepted (by decide) ⟨straddling, by decide, by decide⟩).1 h) (by decide)⟩

/-- Three single writes, the event, and a write of two bursts: it waits, and nothing will happen. -/
theorem refused_forgotten : Accepted ddrLate ∧ dramPktCount ddrLate straddling = 2 ∧ 2 ≤ ddrLate.writeBufferSize ∧
    ∃ s : Wakeable 1, Run.Reaches (step ddrLate) (Permitted ddrLate (fun _ => 0) 2) new s ∧
      s.ctrl.retryWrReq = true ∧ s.nextReqEvent = false ∧ ∀ r, s.inRefIdleState r = true := by
  have h1 : Run.Reaches (step ddrLate) (Permitted ddrLate (fun _ => (0 : Fin 1)) 2) new _ :=
    .step .refl (i := WakeCall.recvTimingReq (oneByte ddrLate 0 (by decide))) ⟨rfl, by decide, by decide⟩ rfl
  have h2 := h1.step (i := WakeCall.recvTimingReq (oneByte ddrLate 1 (by decide))) ⟨rfl, by decide, by decide⟩ rfl
  have h3 := h2.step (i := WakeCall.recvTimingReq (oneByte ddrLate 2 (by decide))) ⟨rfl, by decide, by decide⟩ rfl
  have h4 := h3.step (i := WakeCall.processNextReqEvent false none false)
    ⟨rfl, nofun, fun _ hd => absurd hd List.not_mem_nil⟩ rfl
  have h5 := h4.step (i := WakeCall.recvTimingReq straddling) ⟨rfl, by decide, by decide⟩ rfl
  exact ⟨ddrLate_accepted, by decide, by decide, _, h5, rfl, rfl, fun _ => rfl⟩

end Wakeable

end Alpine.Mem.Dram
