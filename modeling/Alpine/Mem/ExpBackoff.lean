import Alpine.Lib.Run
import Alpine.Mem.WirelessXBar

/-!
# Exponential backoff admits the transmissions that met no other

A run is any sequence of `tryTiming` calls, collision checks and waiting, with any random delays.  Every
entry of `pktToTransmitEBList` is an attempt to transmit in the slot that ends at its `tickSched`.

* `Backoff` — the invariant: the list is a sweep (`Alpine.Sweep`) over the slots of all attempts made, and
  the collision check is scheduled at the first end.
* `Backoff.step`, `Backoff.run` — every step, and every run, keeps it.
* `ready_iff_disjoint` — a collision check moves an attempt to `pktReadyEBList` exactly when its slot is
  disjoint from the slot of every other attempt of the run, before or after; if not, it is rescheduled.
-/

namespace Alpine.Mem

open Alpine.Sweep Alpine.Run XBar

variable {p : Params} {s s' : XBar}

/-! ## Runs -/

inductive BackoffInput where
  | tryTiming (c : Call) (rnd_slots_delay : UInt16)
  | collisionCheck (rnd_slots_delay : UInt16)
  | collisionCheckReturn
  | advance (t : Nat)

/-- The collision check is due. -/
def XBar.Due (s : XBar) : Prop := s.control = .running ∧ s.collisionCheckEvent = some s.curTick

instance (s : XBar) : Decidable s.Due := inferInstanceAs (Decidable (_ ∧ _))

/-- A handler runs at the tick its event is scheduled at, and the event is then no longer scheduled. -/
def backoffStep (p : Params) (s : XBar) : BackoffInput → Option XBar
  | .tryTiming c rnd => if s.control = .panicked then none else some (s.tryTiming p c rnd).1
  | .collisionCheck rnd =>
    if s.Due then expBackoffCollisionCheck p { s with collisionCheckEvent := none } rnd else none
  | .collisionCheckReturn =>
    if s.control = .checking then some s.collisionCheckReturn else none
  | .advance t => if s.CanAdvance t then some { s with curTick := t } else none

/-- Transmissions take time. -/
def TakesTime (p : Params) (_ : XBar) : BackoffInput → Prop
  | .tryTiming c _ => 0 < p.txLength c.pkt
  | _ => True

/-! ## The invariant -/

/-- An entry of the list as a pending slot. -/
def pending (i : ExpBackoffPkt) : Slot Nat × Bool := (i.attempt, i.overlap)

/-- The collision check is scheduled at the first end. -/
def XBar.Armed (s : XBar) : Prop :=
  s.collisionCheckEvent = s.pktToTransmitEBList.head?.map ExpBackoffPkt.tickSched

structure Backoff (decided : List (Slot Nat × Bool)) (s : XBar) : Prop where
  sweep : Sweep.Inv s.curTick s.attempts decided (s.pktToTransmitEBList.map pending)
  running : s.control = .running → s.Armed
  checking : s.control = .checking → s.collisionCheckEvent = none ∨ s.Armed

theorem backoff_init : Backoff [] ({} : XBar) where
  sweep := Sweep.Inv.init 0
  running := fun _ => rfl
  checking := fun h => nomatch h

variable {decided : List (Slot Nat × Bool)}

theorem schedule_sweep {i : ExpBackoffPkt}
    (h : Sweep.Inv s.curTick s.attempts decided (s.pktToTransmitEBList.map pending))
    (hnow : s.curTick ≤ i.attempt.start) (hlen : i.attempt.start < i.attempt.stop) (hoverlap : i.overlap = false) :
    Sweep.Inv (s.schedule i).curTick (s.schedule i).attempts decided
      ((s.schedule i).pktToTransmitEBList.map pending) := by
  have hperm := insertSched_perm ExpBackoffPkt.tickSched i s.pktToTransmitEBList
  have hold := h.sorted
  rw [List.pairwise_map] at hold
  have hsorted := insertSched_sorted ExpBackoffPkt.tickSched i hold
  refine h.enter hnow hlen ?_ (List.pairwise_map.2 hsorted)
  rw [← hoverlap]
  exact hperm.map pending

/-- A slot that is scheduled now starts now or later. -/
theorem start_delayed {now delay len : Nat} : now ≤ now + delay + len - len := by omega

theorem Backoff.tryTimingEB (h : Backoff decided s) {c : Call} (hlen : 0 < p.txLength c.pkt) (rnd : UInt16) :
    Backoff decided (s.tryTimingEB p c rnd).1 := by
  unfold XBar.tryTimingEB
  dsimp only
  split
  · split
    · exact ⟨h.sweep, h.running, h.checking⟩
    · exact ⟨h.sweep, fun hc => (nomatch hc), fun hc => (nomatch hc)⟩
  · refine ⟨schedule_sweep h.sweep start_delayed ?_ rfl, fun _ => rfl, fun _ => .inr rfl⟩
    exact Nat.sub_lt (Nat.lt_of_lt_of_le hlen (Nat.le_add_left _ _)) hlen

theorem markOverlaps_pending (cur : ExpBackoffPkt) (l : List ExpBackoffPkt) :
    (markOverlaps cur l).map pending = (l.map pending).map (mark cur.attempt) := by
  unfold markOverlaps
  rw [List.map_map, List.map_map]
  refine List.map_congr_left fun i _ => ?_
  simp only [Function.comp_apply, mark, checkOverlap, decide_eq_true_eq]
  split
  · rename_i hlt
    rw [decide_eq_true (show (pending i).1.start < cur.attempt.stop from hlt), Bool.or_true]
    rfl
  · rename_i hlt
    rw [decide_eq_false (show ¬ (pending i).1.start < cur.attempt.stop from hlt), Bool.or_false]

theorem not_free_iff (cur : ExpBackoffPkt) (l : List ExpBackoffPkt) :
    (cur.overlap || l.any (checkOverlap cur)) = !free cur.attempt cur.overlap (l.map pending) := by
  unfold free
  rw [Bool.not_not, List.any_map]
  rfl

theorem collided_backoff {cur : ExpBackoffPkt} {new : Bool} {rnd : UInt16}
    (h : Sweep.Inv s.curTick s.attempts decided (s.pktToTransmitEBList.map pending))
    (hlen : cur.attempt.start < cur.attempt.stop) : Backoff decided (s.collided p cur new rnd) := by
  have hpos : 0 < cur.txLength := by
    simp only [ExpBackoffPkt.attempt] at hlen
    omega
  refine ⟨schedule_sweep h start_delayed ?_ rfl, fun _ => rfl, fun _ => .inr rfl⟩
  exact Nat.sub_lt (Nat.lt_of_lt_of_le hpos (Nat.le_add_left _ _)) hpos

theorem retried_mem_collided (cur : ExpBackoffPkt) (new : Bool) (rnd : UInt16) :
    s.retried p cur rnd ∈ (s.collided p cur new rnd).pktToTransmitEBList :=
  (insertSched_perm _ _ _).mem_iff.2 List.mem_cons_self

theorem transmitted_backoff {cur : ExpBackoffPkt}
    (h : Sweep.Inv s.curTick s.attempts decided (s.pktToTransmitEBList.map pending))
    (hevent : s.collisionCheckEvent = none) : Backoff decided (s.transmitted cur) := by
  unfold transmitted triggerSendRetryEB
  dsimp only
  split
  · exact ⟨h, fun hc => (nomatch hc), fun _ => .inl hevent⟩
  · exact ⟨h, fun hc => (nomatch hc), fun hc => (nomatch hc)⟩

theorem transmitted_ready (cur : ExpBackoffPkt) : (s.transmitted cur).pktReadyEBList = cur :: s.pktReadyEBList := by
  unfold transmitted triggerSendRetryEB
  dsimp only
  split
  · rfl
  · rfl

/-- The list after the loop of the collision check. -/
def XBar.marked (s : XBar) (cur : ExpBackoffPkt) (rest : List ExpBackoffPkt) : XBar :=
  { s with collisionCheckEvent := none, pktToTransmitEBList := markOverlaps cur rest }

theorem collisionCheck_eq {cur : ExpBackoffPkt} {rest : List ExpBackoffPkt} (hdue : s.Due)
    (hl : s.pktToTransmitEBList = cur :: rest) (hnow : cur.tickSched = s.curTick) (rnd : UInt16) :
    backoffStep p s (.collisionCheck rnd) =
      if free cur.attempt cur.overlap (rest.map pending) then some ((s.marked cur rest).transmitted cur)
      else some ((s.marked cur rest).collided p cur (newOverlap cur rest) rnd) := by
  simp only [backoffStep, if_pos hdue, expBackoffCollisionCheck, hl, hnow, ne_eq, not_true_eq_false,
    if_false, not_free_iff, Bool.not_eq_true']
  cases free cur.attempt cur.overlap (rest.map pending) with
  | true => rfl
  | false => rfl

/-- What a collision check does, from a state in which it is due: the list has a first attempt, which ends
now, and the sweep decides it. -/
theorem Backoff.check (h : Backoff decided s) (hdue : s.Due) (rnd : UInt16) :
    ∃ cur rest s', s.pktToTransmitEBList = cur :: rest ∧ backoffStep p s (.collisionCheck rnd) = some s' ∧
      Backoff (decided ++ [(cur.attempt, free cur.attempt cur.overlap (rest.map pending))]) s' ∧
      if free cur.attempt cur.overlap (rest.map pending) then
        s'.pktReadyEBList = cur :: s.pktReadyEBList
      else
        s'.pktReadyEBList = s.pktReadyEBList ∧ s.retried p cur rnd ∈ s'.pktToTransmitEBList := by
  have harmed := h.running hdue.1
  unfold XBar.Armed at harmed
  rw [hdue.2] at harmed
  cases hl : s.pktToTransmitEBList with
  | nil =>
    rw [hl] at harmed
    cases harmed
  | cons cur rest =>
    rw [hl, List.head?_cons, Option.map_some, Option.some.injEq] at harmed
    have hsweep := h.sweep
    rw [hl, List.map_cons] at hsweep
    have hcheck : Sweep.Inv s.curTick s.attempts
        (decided ++ [(cur.attempt, free cur.attempt cur.overlap (rest.map pending))])
        ((markOverlaps cur rest).map pending) := by
      rw [markOverlaps_pending, harmed]
      exact hsweep.check (Nat.le_of_eq harmed)
    have hpos : cur.attempt.start < cur.attempt.stop :=
      hsweep.pos _ (hsweep.perm.subset (List.mem_append_right _ List.mem_cons_self))
    refine ⟨cur, rest, ?_⟩
    rw [collisionCheck_eq hdue hl harmed.symm]
    cases hfree : free cur.attempt cur.overlap (rest.map pending) with
    | true =>
      rw [hfree] at hcheck
      exact ⟨_, rfl, rfl, transmitted_backoff hcheck rfl, transmitted_ready cur⟩
    | false =>
      rw [hfree] at hcheck
      exact ⟨_, rfl, rfl, collided_backoff hcheck hpos, rfl, retried_mem_collided cur _ rnd⟩

theorem Backoff.checkReturn (h : Backoff decided s) (hc : s.control = .checking) :
    Backoff decided s.collisionCheckReturn := by
  unfold collisionCheckReturn
  split
  · rename_i hl
    refine ⟨h.sweep, fun _ => ?_, fun hc => (nomatch hc)⟩
    have harmed := h.checking hc
    simp only [XBar.Armed, hl, List.head?_nil, Option.map_none, or_self] at harmed ⊢
    exact harmed
  · rename_i i l hl
    refine ⟨h.sweep, fun _ => ?_, fun hc => (nomatch hc)⟩
    simp only [XBar.Armed, hl, List.head?_cons, Option.map_some]

/-! ## Steps and runs -/

/-- **Every step keeps the invariant**, and no decision is taken back. -/
theorem Backoff.step (hmac : p.macProto = .exp_backoff) (h : Backoff decided s) {i : BackoffInput}
    (hpos : TakesTime p s i) (hstep : backoffStep p s i = some s') :
    ∃ decided', decided ⊆ decided' ∧ Backoff decided' s' := by
  cases i with
  | tryTiming c rnd =>
    obtain ⟨-, hstep⟩ := Option.ite_none_left_eq_some.1 hstep
    simp only [Option.some.injEq, tryTiming, hmac] at hstep
    subst hstep
    exact ⟨decided, List.Subset.refl _, h.tryTimingEB hpos rnd⟩
  | collisionCheck rnd =>
    have hdue : s.Due := by
      simp only [backoffStep] at hstep
      split at hstep
      · assumption
      · cases hstep
    obtain ⟨cur, rest, s'', -, hcheck, hback, -⟩ := h.check hdue rnd
    rw [hcheck, Option.some.injEq] at hstep
    subst hstep
    exact ⟨_, List.subset_append_left _ _, hback⟩
  | collisionCheckReturn =>
    obtain ⟨hc, hstep⟩ := Option.ite_none_right_eq_some.1 hstep
    cases hstep
    exact ⟨decided, List.Subset.refl _, h.checkReturn hc⟩
  | advance t =>
    obtain ⟨hcan, hstep⟩ := Option.ite_none_right_eq_some.1 hstep
    cases hstep
    exact ⟨decided, List.Subset.refl _, h.sweep.advance hcan.2.1, h.running, h.checking⟩

theorem Backoff.run (hmac : p.macProto = .exp_backoff) (h : Backoff decided s) {t : XBar}
    (hrun : Reaches (backoffStep p) (TakesTime p) s t) : ∃ decided', decided ⊆ decided' ∧ Backoff decided' t := by
  refine hrun.inv (P := fun t => ∃ decided', decided ⊆ decided' ∧ Backoff decided' t)
    ⟨decided, List.Subset.refl _, h⟩ ?_
  rintro t i t' ⟨decided1, hsub1, h1⟩ hpos hstep
  obtain ⟨decided2, hsub2, h2⟩ := h1.step hmac hpos hstep
  exact ⟨decided2, List.Subset.trans hsub1 hsub2, h2⟩

/-- **A collision check admits exactly the attempts that met no other one**, in the whole run: those made
before, those still pending and those made later.  It always finds the attempt that ends now. -/
theorem ready_iff_disjoint (hmac : p.macProto = .exp_backoff)
    (hrun : Reaches (backoffStep p) (TakesTime p) {} s) (hdue : s.Due) (rnd : UInt16) :
    ∃ cur rest s', s.pktToTransmitEBList = cur :: rest ∧ cur.tickSched = s.curTick ∧
      cur.attempt ∈ s.attempts ∧ backoffStep p s (.collisionCheck rnd) = some s' ∧
      ∀ t, Reaches (backoffStep p) (TakesTime p) s' t → (s'.pktReadyEBList = cur :: s.pktReadyEBList ↔
          ∀ b ∈ t.attempts.erase cur.attempt, Disjoint cur.attempt.interval b.interval) ∧
        ((¬ ∀ b ∈ t.attempts.erase cur.attempt, Disjoint cur.attempt.interval b.interval) →
          s'.pktReadyEBList = s.pktReadyEBList ∧ s.retried p cur rnd ∈ s'.pktToTransmitEBList) := by
  obtain ⟨decided, -, h⟩ := backoff_init.run hmac hrun
  obtain ⟨cur, rest, s', hl, hcheck, hback, hready⟩ := h.check (p := p) hdue rnd
  have hnow : cur.tickSched = s.curTick := by
    have harmed := h.running hdue.1
    simp only [XBar.Armed, hdue.2, hl, List.head?_cons, Option.map_some, Option.some.injEq] at harmed
    exact harmed.symm
  have hmade : cur.attempt ∈ s.attempts := by
    refine h.sweep.perm.subset (List.mem_append_right _ ?_)
    rw [hl]
    exact List.mem_cons_self
  refine ⟨cur, rest, s', hl, hnow, hmade, hcheck, fun t ht => ?_⟩
  obtain ⟨decided', hsub, h'⟩ := hback.run hmac ht
  have hverdict := h'.sweep.verdict _ (hsub (List.mem_append_right _ (List.mem_singleton_self _)))
  rw [← hverdict]
  cases hfree : free cur.attempt cur.overlap (rest.map pending) with
  | true =>
    rw [hfree, if_pos rfl] at hready
    exact ⟨⟨fun _ => rfl, fun _ => hready⟩, fun hno => absurd rfl hno⟩
  | false =>
    rw [hfree, if_neg Bool.false_ne_true] at hready
    refine ⟨⟨fun hcons => ?_, fun hf => (nomatch hf)⟩, fun _ => hready⟩
    rw [hready.1] at hcons
    exact absurd hcons.symm (List.cons_ne_self _ _)

/-- A crossbar with one tick per byte and slots of one tick. -/
def backoffParams : Params where
  macProto := .exp_backoff
  bandwidth := id
  retrySlot := 1
  backoffCeil := 10
  masterConnections := 1
  hasDefault := false
  slaveConnections := 2
  clockPeriod := 1

/-- A read request without payload from slave port `i` to master port 0. -/
def readCall (i : Nat) : Call where
  srcPort := .slave i
  srcId := Int16.ofNat (i + 1)
  destPort := 0
  pkt := { cmd := .ReadReq, id := i, req := ⟨i, 0, false, false⟩, addr := 0, size := 8 }
  layerType := .REQ

/-- Two slave ports try at tick 0, one right away and one a slot later: the check at tick 1 is due. -/
theorem ready_iff_disjoint_two_ports :
    ∃ s, Reaches (backoffStep backoffParams) (TakesTime backoffParams) {} s ∧ s.Due ∧
      ∃ cur rest s', s.pktToTransmitEBList = cur :: rest ∧ cur.tickSched = s.curTick ∧
        cur.attempt ∈ s.attempts ∧ backoffStep backoffParams s (.collisionCheck 0) = some s' ∧
        ∀ t, Reaches (backoffStep backoffParams) (TakesTime backoffParams) s' t →
          (s'.pktReadyEBList = cur :: s.pktReadyEBList ↔
            ∀ b ∈ t.attempts.erase cur.attempt, Disjoint cur.attempt.interval b.interval) ∧
          ((¬ ∀ b ∈ t.attempts.erase cur.attempt, Disjoint cur.attempt.interval b.interval) →
            s'.pktReadyEBList = s.pktReadyEBList ∧ s.retried backoffParams cur 0 ∈ s'.pktToTransmitEBList) := by
  have h0 : Reaches (backoffStep backoffParams) (TakesTime backoffParams) {} {} := .refl
  have h1 := h0.step (i := BackoffInput.tryTiming (readCall 0) 0) Nat.one_pos rfl
  have h2 := h1.step (i := BackoffInput.tryTiming (readCall 1) 1) Nat.one_pos rfl
  have h3 := h2.step (i := BackoffInput.advance 1) trivial rfl
  exact ⟨_, h3, ⟨rfl, rfl⟩, ready_iff_disjoint rfl h3 ⟨rfl, rfl⟩ 0⟩

end Alpine.Mem
