import Alpine.Mem.ExpBackoff

/-!
# The queue of transmission attempts

`pktToTransmitEBList` holds the attempts in the order in which they end, and the collision check is
scheduled at the first end.  Nothing here asks that transmissions take time.

* `Queued` — the invariant; `Queued.step` — every step keeps it.
* `attempts_ordered` — in every state reached the list is sorted, no end is past, the check is scheduled at
  the front and finds the attempt that ends now; and every attempt ever made is in the list, ready, or has
  been taken by a call of `tryTiming`, once.
-/

namespace Alpine.Mem

open Alpine.Sweep Alpine.Run XBar

variable {p : Params} {s s' : XBar}

/-! ## Order -/

structure Queued (s : XBar) : Prop where
  sorted : s.pktToTransmitEBList.Pairwise fun i j => i.tickSched ≤ j.tickSched
  future : ∀ i ∈ s.pktToTransmitEBList, s.curTick ≤ i.tickSched
  running : s.control = .running → s.Armed
  checking : s.control = .checking → s.collisionCheckEvent = none ∨ s.Armed

theorem queued_init : Queued ({} : XBar) where
  sorted := .nil
  future := fun _ h => absurd h List.not_mem_nil
  running := fun _ => rfl
  checking := fun h => nomatch h

/-- An attempt is put in its place; whether the check was scheduled before does not matter. -/
theorem Queued.schedule {i : ExpBackoffPkt}
    (hsorted : s.pktToTransmitEBList.Pairwise fun i j => i.tickSched ≤ j.tickSched)
    (hfuture : ∀ i ∈ s.pktToTransmitEBList, s.curTick ≤ i.tickSched) (hi : s.curTick ≤ i.tickSched) :
    Queued (s.schedule i) := by
  refine ⟨insertSched_sorted ExpBackoffPkt.tickSched i hsorted, ?_, fun _ => rfl, fun _ => .inr rfl⟩
  intro j hj
  rcases List.mem_cons.1 ((insertSched_perm ExpBackoffPkt.tickSched i s.pktToTransmitEBList).subset hj)
    with rfl | hj
  · exact hi
  · exact hfuture j hj

theorem Queued.tryTiming (h : Queued s) (c : Call) (rnd : UInt16) : Queued (s.tryTimingEB p c rnd).1 := by
  unfold tryTimingEB
  dsimp only
  split
  · split
    · exact ⟨h.sorted, h.future, h.running, h.checking⟩
    · exact ⟨h.sorted, h.future, fun hc => (nomatch hc), fun hc => (nomatch hc)⟩
  · refine Queued.schedule h.sorted h.future ?_
    show s.curTick ≤ s.curTick + _ + _
    omega

theorem markOverlaps_tickSched (cur : ExpBackoffPkt) (l : List ExpBackoffPkt) :
    (markOverlaps cur l).map ExpBackoffPkt.tickSched = l.map ExpBackoffPkt.tickSched := by
  unfold markOverlaps
  rw [List.map_map]
  refine List.map_congr_left fun i _ => ?_
  show (if checkOverlap cur i then { i with overlap := true } else i).tickSched = i.tickSched
  split
  · rfl
  · rfl

/-- The check finds an attempt, and it ends now. -/
theorem Queued.front (h : Queued s) (hdue : s.Due) :
    ∃ cur rest, s.pktToTransmitEBList = cur :: rest ∧ cur.tickSched = s.curTick := by
  have harmed := h.running hdue.1
  unfold XBar.Armed at harmed
  rw [hdue.2] at harmed
  cases hl : s.pktToTransmitEBList with
  | nil =>
    rw [hl] at harmed
    cases harmed
  | cons cur rest =>
    rw [hl, List.head?_cons, Option.map_some, Option.some.injEq] at harmed
    exact ⟨cur, rest, rfl, harmed.symm⟩

theorem collisionCheck_cases {cur : ExpBackoffPkt} {rest : List ExpBackoffPkt} (hdue : s.Due)
    (hl : s.pktToTransmitEBList = cur :: rest) (hnow : cur.tickSched = s.curTick) (rnd : UInt16) :
    backoffStep p s (.collisionCheck rnd) = some ((s.marked cur rest).collided p cur (newOverlap cur rest) rnd) ∨
      backoffStep p s (.collisionCheck rnd) = some ((s.marked cur rest).transmitted cur) := by
  rw [collisionCheck_eq hdue hl hnow]
  split
  · exact .inr rfl
  · exact .inl rfl

theorem transmitted_cases (s : XBar) (cur : ExpBackoffPkt) :
    (s.transmitted cur).pktToTransmitEBList = s.pktToTransmitEBList ∧ (s.transmitted cur).curTick = s.curTick ∧
      (s.transmitted cur).collisionCheckEvent = s.collisionCheckEvent ∧ (s.transmitted cur).control ≠ .running := by
  unfold transmitted triggerSendRetryEB
  dsimp only
  split
  · exact ⟨rfl, rfl, rfl, fun hc => (nomatch hc)⟩
  · exact ⟨rfl, rfl, rfl, fun hc => (nomatch hc)⟩

theorem Queued.check (h : Queued s) {rnd : UInt16}
    (hstep : backoffStep p s (.collisionCheck rnd) = some s') : Queued s' := by
  have hdue : s.Due := by
    simp only [backoffStep] at hstep
    split at hstep
    · assumption
    · cases hstep
  obtain ⟨cur, rest, hl, hnow⟩ := h.front hdue
  have hrest : ((markOverlaps cur rest).map ExpBackoffPkt.tickSched).Pairwise (· ≤ ·) := by
    rw [markOverlaps_tickSched, List.pairwise_map]
    have hsorted := h.sorted
    rw [hl] at hsorted
    exact hsorted.of_cons
  have hfuture : ∀ i ∈ markOverlaps cur rest, s.curTick ≤ i.tickSched := by
    intro i hi
    have hmem : i.tickSched ∈ rest.map ExpBackoffPkt.tickSched := by
      rw [← markOverlaps_tickSched cur]
      exact List.mem_map_of_mem hi
    obtain ⟨j, hj, heq⟩ := List.mem_map.1 hmem
    rw [← heq]
    exact h.future j (by rw [hl]; exact List.mem_cons_of_mem cur hj)
  rcases collisionCheck_cases (p := p) hdue hl hnow rnd with hcheck | hcheck
  · rw [hcheck] at hstep
    cases hstep
    refine Queued.schedule (List.pairwise_map.1 hrest) hfuture ?_
    show s.curTick ≤ s.curTick + _ + _
    omega
  · rw [hcheck] at hstep
    cases hstep
    obtain ⟨hlist, htick, hevent, hcontrol⟩ := transmitted_cases (s.marked cur rest) cur
    refine ⟨?_, ?_, fun hc => absurd hc hcontrol, fun _ => .inl hevent⟩
    · rw [hlist]
      exact List.pairwise_map.1 hrest
    · rw [hlist, htick]
      exact hfuture

theorem Queued.checkReturn (h : Queued s) (hc : s.control = .checking) : Queued s.collisionCheckReturn := by
  unfold collisionCheckReturn
  split
  · rename_i hl
    refine ⟨h.sorted, h.future, fun _ => ?_, fun hc => by cases hc⟩
    have harmed := h.checking hc
    simp only [XBar.Armed, hl, List.head?_nil, Option.map_none, or_self] at harmed ⊢
    exact harmed
  · rename_i i l hl
    refine ⟨h.sorted, h.future, fun _ => ?_, fun hc => by cases hc⟩
    simp only [XBar.Armed, hl, List.head?_cons, Option.map_some]

/-- Time stops at the first end, so at no later one. -/
theorem Queued.advance (h : Queued s) {t : Nat} (hcan : s.CanAdvance t) : Queued { s with curTick := t } := by
  refine ⟨h.sorted, ?_, h.running, h.checking⟩
  intro i hi
  have harmed := h.running hcan.1
  unfold XBar.Armed at harmed
  cases hl : s.pktToTransmitEBList with
  | nil =>
    rw [show s.pktToTransmitEBList = [] from hl] at hi
    exact absurd hi List.not_mem_nil
  | cons cur rest =>
    rw [hl, List.head?_cons, Option.map_some] at harmed
    have hle : t ≤ cur.tickSched := hcan.2.2.1 _ harmed
    have hi : i ∈ cur :: rest := hl ▸ hi
    have hsorted := h.sorted
    rw [hl] at hsorted
    rcases List.mem_cons.1 hi with rfl | hi
    · exact hle
    · exact hle.trans ((List.pairwise_cons.1 hsorted).1 i hi)

/-- **Every step keeps the order.** -/
theorem Queued.step (hmac : p.macProto = .exp_backoff) (h : Queued s) {i : BackoffInput}
    (hstep : backoffStep p s i = some s') : Queued s' := by
  cases i with
  | tryTiming c rnd =>
    obtain ⟨-, hstep⟩ := Option.ite_none_left_eq_some.1 hstep
    simp only [Option.some.injEq, XBar.tryTiming, hmac] at hstep
    subst hstep
    exact h.tryTiming c rnd
  | collisionCheck rnd => exact h.check hstep
  | collisionCheckReturn =>
    obtain ⟨hc, hstep⟩ := Option.ite_none_right_eq_some.1 hstep
    cases hstep
    exact h.checkReturn hc
  | advance t =>
    obtain ⟨hcan, hstep⟩ := Option.ite_none_right_eq_some.1 hstep
    cases hstep
    exact h.advance hcan

/-! ## Attempts -/

/-- What stays the same of an attempt, however often it is rescheduled. -/
structure Origin where
  tickStart : Nat
  txLength : Nat
  layerType : LayerType
  srcPort : Port
  destPort : PortID
  masterId : Nat

def ExpBackoffPkt.origin (i : ExpBackoffPkt) : Origin :=
  ⟨i.tickStart, i.txLength, i.layerType, i.srcPort, i.destPort, i.masterId⟩

/-- The crossbar with the attempts that were made and those that a call has taken. -/
structure QueueRun where
  xbar : XBar := {}
  made : List Origin := []
  taken : List Origin := []

/-- The attempt that a call takes from `pktReadyEBList`. -/
def XBar.readyOf (s : XBar) (srcPort : Port) : Option ExpBackoffPkt :=
  s.pktReadyEBList.find? fun i => i.srcPort = srcPort

/-- What is recorded of a step that ends in `s`. -/
def QueueRun.after (p : Params) (r : QueueRun) (s : XBar) : BackoffInput → QueueRun
  | .tryTiming c rnd =>
    if (r.xbar.tryTiming p c rnd).2 then
      { xbar := s, made := r.made, taken := r.taken ++ (r.xbar.readyOf c.srcPort).toList.map (·.origin) }
    else if s.control = .panicked then { r with xbar := s }
    else { r with xbar := s, made := r.made ++ [(r.xbar.newAttempt p c rnd).origin] }
  | _ => { r with xbar := s }

def queueStep (p : Params) (r : QueueRun) (i : BackoffInput) : Option QueueRun :=
  (backoffStep p r.xbar i).map fun s => r.after p s i

theorem QueueRun.after_xbar (r : QueueRun) (s : XBar) : ∀ i : BackoffInput, (r.after p s i).xbar = s
  | .tryTiming c rnd => by
    dsimp only [QueueRun.after]
    split
    · rfl
    · split
      · rfl
      · rfl
  | .collisionCheck _ => rfl
  | .collisionCheckReturn => rfl
  | .advance _ => rfl

/-- Every attempt made is in one place. -/
def Conserved (r : QueueRun) : Prop :=
  r.made.Perm (r.xbar.pktToTransmitEBList.map (·.origin) ++ r.xbar.pktReadyEBList.map (·.origin) ++
    r.taken)

theorem schedule_origins (s : XBar) (i : ExpBackoffPkt) : ((s.schedule i).pktToTransmitEBList.map (·.origin)).Perm
      (i.origin :: s.pktToTransmitEBList.map (·.origin)) :=
  (insertSched_perm ExpBackoffPkt.tickSched i s.pktToTransmitEBList).map _

theorem markOverlaps_origins (cur : ExpBackoffPkt) (l : List ExpBackoffPkt) :
    (markOverlaps cur l).map (·.origin) = l.map (·.origin) := by
  unfold markOverlaps
  rw [List.map_map]
  refine List.map_congr_left fun i _ => ?_
  show (if checkOverlap cur i then { i with overlap := true } else i).origin = i.origin
  split
  · rfl
  · rfl

/-- The first element that a predicate finds, and the list without it. -/
theorem find?_cons_eraseP_perm {α : Type} (q : α → Bool) : ∀ {l : List α} {a : α},
    l.find? q = some a → l.Perm (a :: l.eraseP q)
  | [], _, h => nomatch h
  | b :: l, a, h => by
    cases hb : q b with
    | true =>
      rw [List.find?_cons_of_pos hb, Option.some.injEq] at h
      rw [List.eraseP_cons_of_pos hb, h]
    | false =>
      rw [List.find?_cons_of_neg (by rw [hb]; decide)] at h
      rw [List.eraseP_cons_of_neg (by rw [hb]; decide)]
      exact ((find?_cons_eraseP_perm q h).cons b).trans (List.Perm.swap a b _)

/-- The layer of a call becomes busy, with the ports `ports` waiting for it. -/
def XBar.occupied (s : XBar) (c : Call) (ports : List Port) : XBar :=
  s.setLayer c.layerType c.destPort { state := .BUSY, waitingForLayer := ports }

/-- The three outcomes of `tryTiming`: a ready attempt is taken, none is found, or one is made. -/
theorem tryTimingEB_cases (s : XBar) (c : Call) (rnd : UInt16) :
    (c.srcPort ∈ (s.layers c.layerType c.destPort).waitingForLayer ∧
      ((∃ i, s.readyOf c.srcPort = some i ∧ s.tryTimingEB p c rnd =
          ({ s.occupied c ((s.layers c.layerType c.destPort).waitingForLayer.erase c.srcPort) with
            pktReadyEBList := s.pktReadyEBList.eraseP fun i => i.srcPort = c.srcPort }, true)) ∨
        (s.readyOf c.srcPort = none ∧ s.tryTimingEB p c rnd =
          ((s.occupied c ((s.layers c.layerType c.destPort).waitingForLayer.erase c.srcPort)).panic,
            false)))) ∨
    (c.srcPort ∉ (s.layers c.layerType c.destPort).waitingForLayer ∧ s.tryTimingEB p c rnd =
      ((s.occupied c ((s.layers c.layerType c.destPort).waitingForLayer ++ [c.srcPort])).schedule
        (s.newAttempt p c rnd), false)) := by
  unfold tryTimingEB
  dsimp only
  split
  · rename_i hwait
    refine .inl ⟨hwait, ?_⟩
    split
    · rename_i hready
      obtain ⟨i, hi, hport⟩ := List.any_eq_true.1 hready
      obtain ⟨j, hj⟩ := Option.isSome_iff_exists.1 (List.find?_isSome (p := fun i : ExpBackoffPkt => i.srcPort = c.srcPort).2 ⟨i, hi, hport⟩)
      exact .inl ⟨j, hj, rfl⟩
    · rename_i hready
      refine .inr ⟨List.find?_eq_none.2 fun i hi hport => hready ?_, rfl⟩
      exact List.any_eq_true.2 ⟨i, hi, hport⟩
  · rename_i hwait
    exact .inr ⟨hwait, rfl⟩

theorem Conserved.tryTiming {r : QueueRun} {c : Call} {rnd : UInt16} (hmac : p.macProto = .exp_backoff)
    (hctl : r.xbar.control ≠ .panicked) (h : Conserved r) :
    Conserved (r.after p (r.xbar.tryTiming p c rnd).1 (.tryTiming c rnd)) := by
  unfold QueueRun.after
  simp only [XBar.tryTiming, hmac]
  rcases tryTimingEB_cases (p := p) r.xbar c rnd with ⟨-, ⟨i, hi, hq⟩ | ⟨-, hq⟩⟩ | ⟨-, hq⟩
  · -- the attempt goes from the ready list to the call
    rw [hq, if_pos rfl]
    have hperm := (find?_cons_eraseP_perm _ hi).map (·.origin)
    unfold Conserved at h ⊢
    simp only [hi, Option.toList_some, List.map_cons, List.map_nil]
    refine h.trans ?_
    rw [List.append_assoc, List.append_assoc]
    refine List.Perm.append_left _ ?_
    refine (hperm.append_right r.taken).trans ?_
    rw [List.map_cons, List.cons_append, ← List.append_assoc]
    exact (List.perm_append_comm : ([i.origin] ++ _).Perm _)
  · rw [hq]
    exact h
  · -- a new attempt is scheduled
    rw [hq, if_neg Bool.false_ne_true]
    rw [if_neg (show ¬ ((r.xbar.occupied c _).schedule _).control = .panicked from hctl)]
    unfold Conserved at h ⊢
    have hperm := schedule_origins
      (r.xbar.occupied c ((r.xbar.layers c.layerType c.destPort).waitingForLayer ++ [c.srcPort]))
      (r.xbar.newAttempt p c rnd)
    calc (r.made ++ [(r.xbar.newAttempt p c rnd).origin]).Perm
          ((r.xbar.newAttempt p c rnd).origin :: r.made) := List.perm_append_comm
      _ |>.Perm ((r.xbar.newAttempt p c rnd).origin :: _) := h.cons _
      _ |>.Perm _ := (hperm.symm.append_right _).append_right _

theorem Conserved.check {r : QueueRun} {rnd : UInt16} (hq : Queued r.xbar) (h : Conserved r)
    (hs : backoffStep p r.xbar (.collisionCheck rnd) = some s) : Conserved { r with xbar := s } := by
  have hdue : r.xbar.Due := by
    simp only [backoffStep] at hs
    split at hs
    · assumption
    · cases hs
  obtain ⟨cur, rest, hl, hnow⟩ := hq.front hdue
  unfold Conserved at h ⊢
  rw [hl, List.map_cons] at h
  refine h.trans ?_
  rcases collisionCheck_cases (p := p) hdue hl hnow rnd with hcheck | hcheck
  · rw [hcheck] at hs
    cases hs
    -- the attempt is back in the list
    have hperm := schedule_origins (r.xbar.marked cur rest)
      ((r.xbar.marked cur rest).retried p cur rnd)
    rw [show (r.xbar.marked cur rest).pktToTransmitEBList = markOverlaps cur rest from rfl,
      markOverlaps_origins] at hperm
    exact (hperm.symm.append_right _).append_right _
  · rw [hcheck] at hs
    cases hs
    obtain ⟨hlist, -⟩ := transmitted_cases (r.xbar.marked cur rest) cur
    show List.Perm _ (((r.xbar.marked cur rest).transmitted cur).pktToTransmitEBList.map _ ++
      ((r.xbar.marked cur rest).transmitted cur).pktReadyEBList.map _ ++ r.taken)
    rw [hlist, transmitted_ready, show (r.xbar.marked cur rest).pktToTransmitEBList = markOverlaps cur rest from rfl,
      markOverlaps_origins, List.map_cons, List.cons_append]
    refine List.Perm.append_right _ ?_
    exact List.perm_middle.symm

theorem queueStep_keeps (hmac : p.macProto = .exp_backoff) {r r' : QueueRun} {i : BackoffInput}
    (h : Queued r.xbar ∧ Conserved r) (hstep : queueStep p r i = some r') : Queued r'.xbar ∧ Conserved r' := by
  unfold queueStep at hstep
  obtain ⟨s, hs, rfl⟩ := Option.map_eq_some_iff.1 hstep
  rw [QueueRun.after_xbar]
  refine ⟨h.1.step hmac hs, ?_⟩
  cases i with
  | tryTiming c rnd =>
    obtain ⟨hctl, hs⟩ := Option.ite_none_left_eq_some.1 hs
    cases hs
    exact h.2.tryTiming hmac hctl
  | collisionCheck rnd => exact h.2.check h.1 hs
  | collisionCheckReturn =>
    simp only [backoffStep] at hs
    split at hs
    · cases hs
      unfold collisionCheckReturn
      split
      · exact h.2
      · exact h.2
    · cases hs
  | advance t =>
    simp only [backoffStep] at hs
    split at hs
    · cases hs
      exact h.2
    · cases hs

/-! ## Runs -/

/-- **The queue of attempts** in every state reached by any calls of `tryTiming`, collision checks and
waiting: it is sorted, no end is past, the collision check is scheduled exactly at its front (inside the
retry of a check, which schedules the next one when it returns: there or not at all), a check that is due
finds the attempt that ends now, and every attempt made is in the queue, ready or taken, once. -/
theorem attempts_ordered (hmac : p.macProto = .exp_backoff) {r : QueueRun}
    (hrun : Reaches (queueStep p) (fun _ _ => True) {} r) :
    (r.xbar.pktToTransmitEBList.Pairwise fun i j => i.tickSched ≤ j.tickSched) ∧
    (∀ i ∈ r.xbar.pktToTransmitEBList, r.xbar.curTick ≤ i.tickSched) ∧
    (r.xbar.control = .running → ∀ cur rest, r.xbar.pktToTransmitEBList = cur :: rest →
      r.xbar.collisionCheckEvent = some cur.tickSched) ∧
    (r.xbar.control = .checking → ∀ cur rest, r.xbar.pktToTransmitEBList = cur :: rest →
      r.xbar.collisionCheckEvent = none ∨ r.xbar.collisionCheckEvent = some cur.tickSched) ∧
    (r.xbar.Due → ∀ rnd, (expBackoffCollisionCheck p { r.xbar with collisionCheckEvent := none } rnd).isSome) ∧
    r.made.Perm (r.xbar.pktToTransmitEBList.map (·.origin) ++ r.xbar.pktReadyEBList.map (·.origin) ++
      r.taken) := by
  obtain ⟨hq, hc⟩ : Queued r.xbar ∧ Conserved r :=
    hrun.inv (P := fun r => Queued r.xbar ∧ Conserved r) ⟨queued_init, show Conserved {} from List.Perm.refl []⟩
      fun _ _ _ h _ hstep => queueStep_keeps hmac h hstep
  refine ⟨hq.sorted, hq.future, fun hrunning cur rest hl => ?_, fun hchecking cur rest hl => ?_,
    fun hdue rnd => ?_, hc⟩
  · rw [hq.running hrunning, hl]
    rfl
  · refine (hq.checking hchecking).imp_right fun harmed => ?_
    rw [harmed, hl]
    rfl
  · obtain ⟨cur, rest, hl, hnow⟩ := hq.front hdue
    have hcheck := collisionCheck_cases (p := p) hdue hl hnow rnd
    simp only [backoffStep, if_pos hdue] at hcheck
    rcases hcheck with hcheck | hcheck
    · rw [hcheck]
      rfl
    · rw [hcheck]
      rfl

/-- Three slave ports try, two at once. -/
def threePorts : QueueRun :=
  ([.tryTiming (readCall 0) 3, .tryTiming (readCall 1) 0, .tryTiming (readCall 2) 3, .advance 1,
    .collisionCheck 0, .tryTiming (readCall 1) 0, .collisionCheckReturn, .advance 4,
    .collisionCheck 1].foldlM (queueStep backoffParams) {}).get (by decide)

theorem attempts_ordered_three_ports : (threePorts.xbar.pktToTransmitEBList.map (·.tickSched) = [4, 6]) ∧
    (threePorts.xbar.pktToTransmitEBList.Pairwise fun i j => i.tickSched ≤ j.tickSched) ∧
    (∀ i ∈ threePorts.xbar.pktToTransmitEBList, threePorts.xbar.curTick ≤ i.tickSched) ∧
    (threePorts.xbar.Due → ∀ rnd, (expBackoffCollisionCheck backoffParams
      { threePorts.xbar with collisionCheckEvent := none } rnd).isSome) ∧
    threePorts.made.Perm (threePorts.xbar.pktToTransmitEBList.map (·.origin) ++
      threePorts.xbar.pktReadyEBList.map (·.origin) ++ threePorts.taken) := by
  have hrun : Reaches (queueStep backoffParams) (fun _ _ => True) {} threePorts :=
    Reaches.refl.foldlM (fun _ _ _ => trivial) (Option.some_get _).symm
  obtain ⟨hsorted, hfuture, -, -, hcheck, hmade⟩ := attempts_ordered (p := backoffParams) rfl hrun
  exact ⟨by decide, hsorted, hfuture, hcheck, hmade⟩

end Alpine.Mem
