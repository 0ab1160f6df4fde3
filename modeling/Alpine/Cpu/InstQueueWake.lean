import Alpine.Cpu.InstQueueSteps

/-!
# The wake-up keeps the invariant

* `Popped` — what holds between the pops of a dependency list: the registers counted as ready in an instruction
  are those of the nodes that have been popped.
* `Woke` — what the wake-up from some registers does; `wakeReg_woke`, `Woke.trans`.
* `Inv.wakeDependents`, `Inv.scheduleNonSpec` — the step lemmas.
-/

namespace Alpine.Cpu.Wake

variable {fx : Nat → Bool}

namespace InstructionQueue

open Alpine.Cpu.Wake.System (Waiter)

variable {q0 q1 q : InstructionQueue} {r : Nat} {done rest : List Nat}

/-! ## The pops of one list -/

/-- The instructions `done` have been popped from the list of `r`, and `rest` have not. -/
structure Popped (fx : Nat → Bool) (q0 : InstructionQueue) (r : Nat) (done rest : List Nat)
    (q : InstructionQueue) : Prop where
  insts : ∀ j, ∃ can, q.insts j =
    { q0.insts j with readyRegs := (q0.insts j).readyRegs + done.count j, canIssue := can }
  ready : ∀ j, Waiter fx q0 j → (q0.insts j).isMemRef = false →
    ((q.insts j).canIssue = true ↔ q0.waiting j = done.count j) ∧
      q.pushes j = if q0.waiting j = done.count j then 1 else 0
  pushes : ∀ j, j ∉ done → q.pushes j = q0.pushes j
  queue : ∃ pushed, q.readyInsts = q0.readyInsts ++ pushed ∧
    ∀ e ∈ pushed, e.1 = (q0.insts e.2).opClass ∧ e.2 ∈ done
  graph : q.dependGraph = Function.update q0.dependGraph r rest
  same : q.instList = q0.instList ∧ q.nonSpecInsts = q0.nonSpecInsts ∧ q.regScoreboard = q0.regScoreboard

theorem popped_nil (fx : Nat → Bool) (q0 : InstructionQueue) (r : Nat) : Popped fx q0 r [] (q0.dependGraph r) q0 where
  insts j := ⟨(q0.insts j).canIssue, rfl⟩
  ready j hw hm := by
    rw [List.count_nil]
    exact hw.ready hm
  pushes j _ := rfl
  queue := ⟨[], (List.append_nil _).symm, nofun⟩
  graph := (Function.update_eq_self r q0.dependGraph).symm
  same := ⟨rfl, rfl, rfl⟩

/-- The queue after one pop: the instruction may be put on its ready queue. -/
theorem wakeOne_eq (r : Nat) (q : InstructionQueue) (j : Nat) : q.wakeOne r j = { q with
      dependGraph := Function.update q.dependGraph r (q.dependGraph r).tail
      insts := Function.update q.insts j (q.insts j).markSrcRegReady
      readyInsts := q.readyInsts ++
        if (q.insts j).markSrcRegReady.canIssue && !(q.insts j).isMemRef then [((q.insts j).opClass, j)] else [] } := by
  unfold wakeOne addIfReady
  simp only [modify, setGraph, Function.update_self]
  have hm : (q.insts j).markSrcRegReady.isMemRef = (q.insts j).isMemRef := rfl
  rw [hm]
  split
  · rfl
  · rw [List.append_nil]

theorem Popped.wakeOne {j : Nat} (h : Popped fx q0 r done (j :: rest) q) (hw : Waiter fx q0 j)
    (hlist : q0.dependGraph r = done ++ j :: rest) : Popped fx q0 r (done ++ [j]) rest (q.wakeOne r j) := by
  obtain ⟨can, hj⟩ := h.insts j
  obtain ⟨pushed, hqueue, hpushed⟩ := h.queue
  -- this node is one of those for which the instruction waits
  have hlt : done.count j < q0.waiting j := by
    have hnodes := hw.nodes r
    rw [hlist, List.count_append, List.count_cons_self] at hnodes
    have hle := waitingFor_le q0 j r
    omega
  have hcan : (q0.insts j).isMemRef = false →
      ((q.insts j).markSrcRegReady.canIssue = true ↔ q0.waiting j = done.count j + 1) := by
    intro hm
    have hbefore := (h.ready j hw hm).1
    have hregs := hw.regs
    have hreadyRegs : (q.insts j).readyRegs = (q0.insts j).readyRegs + done.count j := by rw [hj]
    have hnum : (q.insts j).numSrcRegs = (q0.insts j).numSrcRegs := by
      rw [hj]
      rfl
    show ((q.insts j).canIssue || decide ((q.insts j).readyRegs + 1 = (q.insts j).numSrcRegs)) = true ↔ _
    rw [Bool.or_eq_true, decide_eq_true_eq, hbefore, hreadyRegs, hnum]
    omega
  have hopClass : (q.insts j).opClass = (q0.insts j).opClass := by rw [hj]
  have hmemRef : (q.insts j).isMemRef = (q0.insts j).isMemRef := by rw [hj]
  have hcount : ∀ k, k ≠ j → (done ++ [j]).count k = done.count k := fun k hk => by
    rw [List.count_append, List.count_singleton, if_neg (by simpa using Ne.symm hk), Nat.add_zero]
  rw [wakeOne_eq, hopClass, hmemRef]
  refine ⟨fun k => ?_, fun k hk hm => ?_, fun k hk => ?_, ?_, ?_, h.same⟩
  · by_cases hkj : k = j
    · subst hkj
      simp only [Function.update_self]
      rw [hj, List.count_append, List.count_singleton_self, ← Nat.add_assoc]
      exact ⟨_, rfl⟩
    · simp only [Function.update_of_ne hkj]
      rw [hcount k hkj]
      exact h.insts k
  · by_cases hkj : k = j
    · subst hkj
      have hpushes := (h.ready k hk hm).2
      rw [if_neg (Nat.ne_of_gt hlt)] at hpushes
      simp only [Function.update_self, List.count_append, List.count_singleton_self]
      refine ⟨hcan hm, ?_⟩
      unfold InstructionQueue.pushes at hpushes ⊢
      rw [List.countP_append, hpushes, hm, Nat.zero_add, Bool.not_false, Bool.and_true]
      have hiff := hcan hm
      by_cases hc : q0.waiting k = done.count k + 1
      · simp [hc, hiff.2 hc]
      · rw [if_neg fun hcan => hc (hiff.1 hcan), if_neg hc]
        rfl
    · have hold := h.ready k hk hm
      rw [hcount k hkj]
      simp only [Function.update_of_ne hkj]
      refine ⟨hold.1, ?_⟩
      rw [← hold.2]
      unfold InstructionQueue.pushes
      rw [List.countP_append]
      split <;> simp [Ne.symm hkj]
  · rw [List.mem_append, List.mem_singleton, not_or] at hk
    rw [← h.pushes k hk.1]
    unfold InstructionQueue.pushes
    rw [List.countP_append]
    split <;> simp [Ne.symm hk.2]
  · refine ⟨_, by rw [hqueue, List.append_assoc], fun e he => ?_⟩
    rcases List.mem_append.1 he with he | he
    · exact ⟨(hpushed e he).1, List.mem_append_left _ (hpushed e he).2⟩
    · split at he
      · obtain rfl := List.mem_singleton.1 he
        exact ⟨rfl, List.mem_append_right _ List.mem_cons_self⟩
      · exact absurd he List.not_mem_nil
  · show Function.update q.dependGraph r (q.dependGraph r).tail = _
    rw [h.graph, Function.update_self, Function.update_idem]
    rfl

theorem foldl_wakeOne (hw : ∀ j ∈ q0.dependGraph r, Waiter fx q0 j) :
    Popped fx q0 r (q0.dependGraph r) [] ((q0.dependGraph r).foldl (wakeOne r) q0) := by
  have hsplit : ∀ (rest done : List Nat) (q : InstructionQueue), q0.dependGraph r = done ++ rest →
      Popped fx q0 r done rest q → Popped fx q0 r (q0.dependGraph r) [] (rest.foldl (wakeOne r) q) := by
    intro rest
    induction rest with
    | nil =>
      intro done q hlist h
      rw [hlist, List.append_nil]
      exact h
    | cons j rest ih =>
      intro done q hlist h
      have hj := hw j (hlist ▸ List.mem_append_right _ List.mem_cons_self)
      exact ih (done ++ [j]) _ (by rw [hlist, List.append_assoc]; rfl) (h.wakeOne hj hlist)
  exact hsplit _ [] q0 rfl (popped_nil fx q0 r)

/-! ## The wake-up from some registers -/

/-- The wake-up from the registers `dests`. -/
structure Woke (fx : Nat → Bool) (q0 : InstructionQueue) (dests : List Nat) (q : InstructionQueue) : Prop where
  insts : ∀ j, ∃ regs can, q.insts j = { q0.insts j with readyRegs := regs, canIssue := can }
  board : ∀ r, q.regScoreboard r = (q0.regScoreboard r || (decide (r ∈ dests) && !fx r))
  graph : ∀ r, ∀ j ∈ q.dependGraph r, j ∈ q0.dependGraph r
  waiter : ∀ j, Waiter fx q0 j → Waiter fx q j
  pushes : ∀ j, (∀ r, j ∉ q0.dependGraph r) → q.pushes j = q0.pushes j
  queue : ∃ pushed, q.readyInsts = q0.readyInsts ++ pushed ∧
    ∀ e ∈ pushed, e.1 = (q0.insts e.2).opClass ∧ ∃ r, e.2 ∈ q0.dependGraph r
  same : q.instList = q0.instList ∧ q.nonSpecInsts = q0.nonSpecInsts

theorem woke_nil (fx : Nat → Bool) (q0 : InstructionQueue) : Woke fx q0 [] q0 where
  insts j := ⟨(q0.insts j).readyRegs, (q0.insts j).canIssue, rfl⟩
  board r := by simp
  graph r j hj := hj
  waiter j hw := hw
  pushes j _ := rfl
  queue := ⟨[], (List.append_nil _).symm, nofun⟩
  same := ⟨rfl, rfl⟩

theorem Woke.trans {dests dests' : List Nat} (h : Woke fx q0 dests q1) (h' : Woke fx q1 dests' q) :
    Woke fx q0 (dests ++ dests') q := by
  obtain ⟨pushed, hqueue, hpushed⟩ := h.queue
  obtain ⟨pushed', hqueue', hpushed'⟩ := h'.queue
  refine ⟨fun j => ?_, fun r => ?_, fun r j hj => h.graph r j (h'.graph r j hj),
    fun j hw => h'.waiter j (h.waiter j hw), fun j hj => ?_, ?_,
    ⟨h'.same.1.trans h.same.1, h'.same.2.trans h.same.2⟩⟩
  · obtain ⟨regs, can, hj⟩ := h.insts j
    obtain ⟨regs', can', hj'⟩ := h'.insts j
    rw [hj', hj]
    exact ⟨_, _, rfl⟩
  · rw [h'.board, h.board, Bool.or_assoc]
    by_cases hd : r ∈ dests <;> by_cases hd' : r ∈ dests' <;> simp [hd, hd']
  · exact (h'.pushes j fun r hin => hj r (h.graph r j hin)).trans (h.pushes j hj)
  · refine ⟨pushed ++ pushed', by rw [hqueue', hqueue, List.append_assoc], fun e he => ?_⟩
    rcases List.mem_append.1 he with he | he
    · exact hpushed e he
    · obtain ⟨hop, r, hin⟩ := hpushed' e he
      obtain ⟨regs, can, hj⟩ := h.insts e.2
      rw [hj] at hop
      exact ⟨hop, r, h.graph r e.2 hin⟩

/-- The sources that are waited for are those of one register and the others. -/
theorem waiting_split (q : InstructionQueue) (j r : Nat) : q.waiting j = q.waitingFor j r +
    (List.range (q.insts j).numSrcRegs).countP fun idx => q.waits j idx && !((q.insts j).srcReg idx == r) := by
  unfold waiting waitingFor
  rw [List.countP_eq_countP_filter_add _ _ fun idx => (q.insts j).srcReg idx == r, List.countP_filter,
    List.countP_filter]

/-- The register is produced after its list has been emptied. -/
theorem Popped.waiter {board : Nat → Bool} {j : Nat} (h : Popped fx q0 r (q0.dependGraph r) [] q)
    (hboard : ∀ r', board r' = (q0.regScoreboard r' || r' == r)) (hw : Waiter fx q0 j) :
    Waiter fx { q with regScoreboard := board } j := by
  obtain ⟨can, hj⟩ := h.insts j
  have hcount := hw.nodes r
  have hnum : (q.insts j).numSrcRegs = (q0.insts j).numSrcRegs := by
    rw [hj]
    rfl
  have hsrc : (q.insts j).srcReg = (q0.insts j).srcReg := by
    rw [hj]
    rfl
  have hwaits : { q with regScoreboard := board }.waits j = fun idx =>
      q0.waits j idx && !((q0.insts j).srcReg idx == r) := by
    funext idx
    show (!(q.insts j).isReadySrcRegIdx idx && !board ((q.insts j).srcReg idx)) = _
    rw [hboard, hsrc, hj, Bool.not_or, ← Bool.and_assoc]
    rfl
  have hwaiting : q0.waiting j = q0.waitingFor j r + { q with regScoreboard := board }.waiting j := by
    rw [waiting_split q0 j r]
    unfold waiting
    rw [hwaits, hnum]
  have hfor : ∀ r', { q with regScoreboard := board }.waitingFor j r' =
      (List.range (q0.insts j).numSrcRegs).countP fun idx =>
        (q0.waits j idx && !((q0.insts j).srcReg idx == r)) && (q0.insts j).srcReg idx == r' := by
    intro r'
    unfold waitingFor
    rw [hwaits, hsrc, hnum]
  refine ⟨fun r' => ?_, ?_, fun hissued => ?_, fun hm => ?_, ?_⟩
  · rw [hfor]
    show (q.dependGraph r').count j = _
    rw [h.graph, Function.update_apply]
    by_cases hr : r' = r
    · subst hr
      rw [if_pos rfl]
      exact (List.countP_eq_zero.2 fun idx _ => by simp +contextual).symm
    · rw [if_neg hr, hw.nodes r']
      refine List.countP_congr fun idx _ => ?_
      simp only [Bool.and_eq_true, Bool.not_eq_true', beq_iff_eq, beq_eq_false_iff_ne]
      exact ⟨fun hidx => ⟨⟨hidx.1, fun heq => hr (hidx.2.symm.trans heq)⟩, hidx.2⟩, fun hidx => ⟨hidx.1.1, hidx.2⟩⟩
  · have hregs := hw.regs
    have hreadyRegs : (q.insts j).readyRegs = (q0.insts j).readyRegs + (q0.dependGraph r).count j := by rw [hj]
    show (q.insts j).readyRegs + _ = (q.insts j).numSrcRegs
    rw [hreadyRegs, hnum]
    omega
  · have hzero := hw.issued (by rw [hj] at hissued; exact hissued)
    omega
  · obtain ⟨hcan, hpush⟩ := h.ready j hw (by rw [hj] at hm; exact hm)
    have hiff : q0.waiting j = (q0.dependGraph r).count j ↔ { q with regScoreboard := board }.waiting j = 0 := by omega
    exact ⟨hcan.trans hiff, hpush.trans (if_congr hiff rfl rfl)⟩
  · show ∀ idx < (q.insts j).numSrcRegs, fx ((q.insts j).srcReg idx) = true → (q.insts j).isReadySrcRegIdx idx = true
    rw [hnum, hsrc, hj]
    exact hw.fixed

theorem wakeReg_woke (hw : ∀ r, ∀ j ∈ q0.dependGraph r, Waiter fx q0 j) (r : Nat) :
    Woke fx q0 [r] (q0.wakeReg fx r) := by
  unfold wakeReg
  cases hf : fx r with
  | true =>
    rw [if_pos rfl]
    have h := woke_nil fx q0
    refine { h with board := fun r' => ?_ }
    by_cases hr : r' = r
    · simp [hr, hf]
    · simp [hr]
  | false =>
    rw [if_neg Bool.false_ne_true]
    have h := foldl_wakeOne (r := r) (hw r)
    generalize (q0.dependGraph r).foldl (wakeOne r) q0 = q1 at h
    have hboard : ∀ r', Function.update q1.regScoreboard r true r' = (q0.regScoreboard r' || r' == r) := by
      intro r'
      rw [h.same.2.2]
      by_cases hr : r' = r
      · simp [hr]
      · simp [hr]
    refine ⟨fun j => ?_, fun r' => ?_, fun r' j hj => ?_, fun j hj => h.waiter hboard hj, fun j hj => h.pushes j (hj r),
      ?_, h.same.1, h.same.2.1⟩
    · obtain ⟨can, hj⟩ := h.insts j
      exact ⟨_, can, hj⟩
    · refine (hboard r').trans ?_
      by_cases hr : r' = r
      · simp [hr, hf]
      · simp [hr]
    · have hj' : j ∈ q1.dependGraph r' := hj
      rw [h.graph, Function.update_apply] at hj'
      split at hj'
      · exact absurd hj' List.not_mem_nil
      · exact hj'
    · obtain ⟨pushed, hqueue, hpushed⟩ := h.queue
      exact ⟨pushed, hqueue, fun e he => ⟨(hpushed e he).1, r, (hpushed e he).2⟩⟩

theorem foldl_wakeReg (hw : ∀ r, ∀ j ∈ q0.dependGraph r, Waiter fx q0 j) (dests : List Nat) :
    Woke fx q0 dests (dests.foldl (wakeReg fx) q0) := by
  induction dests generalizing q0 with
  | nil => exact woke_nil fx q0
  | cons r dests ih =>
    have hreg := wakeReg_woke hw r
    exact hreg.trans (ih fun r' j hj => hreg.waiter j (hw r' j (hreg.graph r' j hj)))

end InstructionQueue

namespace System

open InstructionQueue

variable {s : System} {i : Nat}

theorem Inv.wakeDependents (h : s.Inv fx) (hp : s.Permitted fx (.wakeDependents i)) :
    ∃ s', s.step fx (.wakeDependents i) = some s' ∧ s'.Inv fx := by
  obtain ⟨hlive', -, hissued, hsquashed⟩ := hp
  have hwoke := @foldl_wakeReg fx s.iq (fun r j hj => h.waiter j (h.graph r j hj).1 (h.graph r j hj).2)
    (s.iq.insts i).renamedDestRegIdx
  have hstep : s.step fx (.wakeDependents i) =
      some { s with iq := (s.iq.insts i).renamedDestRegIdx.foldl (wakeReg fx) s.iq, woken := insert i s.woken } := by
    simp only [step, InstructionQueue.wakeDependents, hsquashed, Bool.false_eq_true, if_false, Option.map_some]
  refine ⟨_, hstep, ?_⟩
  generalize (s.iq.insts i).renamedDestRegIdx.foldl (wakeReg fx) s.iq = q at hwoke
  have hgraph : ∀ r, ∀ j ∈ q.dependGraph r, s.iq.Live j := fun r j hj => (h.graph r j (hwoke.graph r j hj)).1
  have hlive : ∀ j, q.Live j ↔ s.iq.Live j := fun j => by
    unfold Live
    rw [hwoke.same.1]
  apply h.later
  constructor
  case static =>
    intro j
    obtain ⟨regs, can, hj⟩ := hwoke.insts j
    show (q.insts j).static = _
    rw [hj]
    rfl
  case instList => exact fun tid => hwoke.same.1 ▸ List.Sublist.refl _
  case squashedInIQ =>
    intro j _
    obtain ⟨regs, can, hj⟩ := hwoke.insts j
    show (q.insts j).squashedInIQ = _
    rw [hj]
  case waiter => exact fun j _ _ => hwoke.waiter j
  case graph => exact fun r j hj => ⟨hwoke.graph r j hj, (hlive j).2 (hgraph r j hj)⟩
  case nonSpec =>
    intro j hj
    have hold : j ∈ s.iq.nonSpecInsts := hwoke.same.2 ▸ hj
    obtain ⟨hl, -, hissued', hcompleted, hw⟩ := h.nonSpec j hold
    obtain ⟨regs, can, heq⟩ := hwoke.insts j
    have hne : j ≠ i := by
      rintro rfl
      rw [hissued] at hissued'
      cases hissued'
    refine ⟨hold, (hlive j).2 hl, ?_, ?_, fun hin => (Finset.mem_insert.1 hin).elim hne hw⟩
    · show (q.insts j).issued = false
      rw [heq]
      exact hissued'
    · show (q.insts j).completed = false
      rw [heq]
      exact hcompleted
  case producer =>
    intro tid j _ p hp _ hw r hd hf hboard
    refine ⟨hwoke.same.1.symm ▸ hp, fun hin => (Finset.mem_insert.1 hin).elim (fun heq => ?_) hw⟩
    subst heq
    have hproduced : q.regScoreboard r = true := by
      rw [hwoke.board, decide_eq_true hd, hf]
      exact Bool.or_true _
    cases hproduced.symm.trans hboard
  case board =>
    intro r hr
    show q.regScoreboard r = true
    rw [hwoke.board, hr]
    rfl
  case notReady =>
    rintro r hf ⟨j, hj, hw, hd⟩
    obtain ⟨regs, can, heq⟩ := hwoke.insts j
    have hd' : r ∈ (s.iq.insts j).renamedDestRegIdx := by
      have hd'' : r ∈ (q.insts j).renamedDestRegIdx := hd
      rw [heq] at hd''
      exact hd''
    have hne : r ∉ (s.iq.insts i).renamedDestRegIdx := fun hin => by
      have hwriter := h.writer i hlive' r hin hf
      rw [h.writer j ((hlive j).1 hj) r hd' hf] at hwriter
      exact hw (Option.some.inj hwriter ▸ Finset.mem_insert_self _ _)
    show q.regScoreboard r = _
    rw [hwoke.board, decide_eq_false hne, Bool.false_and, Bool.or_false]
  case subset => exact Finset.subset_insert i s.woken
  case woken =>
    intro j hj
    obtain ⟨regs, can, heq⟩ := hwoke.insts j
    have hsame : (q.insts j).issued = (s.iq.insts j).issued := by rw [heq]
    rcases Finset.mem_insert.1 hj with rfl | hold
    · refine ⟨fun _ => hsame.trans hissued, fun _ => ⟨hlive', fun r hd hf => ?_⟩⟩
      show q.regScoreboard r = true
      rw [hwoke.board, decide_eq_true hd, hf]
      exact Bool.or_true _
    · exact ⟨fun hl => hsame.trans ((h.woken j hold).2 ((hlive j).1 hl)), fun hnot => absurd hold hnot⟩
  case dispatched => rfl
  case writer => rfl
  case pushes => exact fun j _ hj => hwoke.pushes j fun r hin => hj ((hlive j).2 (h.graph r j hin).1)
  case queue =>
    obtain ⟨pushed, hqueue, hpushed⟩ := hwoke.queue
    refine ⟨pushed, hqueue, fun e he => ?_⟩
    obtain ⟨hop, r, hin⟩ := hpushed e he
    exact ⟨hop, (h.graph r e.2 hin).1⟩

theorem Inv.scheduleNonSpec (h : s.Inv fx) (hp : s.Permitted fx (.scheduleNonSpec i)) :
    ∃ s', s.step fx (.scheduleNonSpec i) = some s' ∧ s'.Inv fx := by
  have hmem : i ∈ s.iq.nonSpecInsts := hp
  obtain ⟨hlive, hnotIns, hissued, hcompleted, hnotwoken⟩ := h.nonSpec i hmem
  let inst := { s.iq.insts i with canIssue := true }
  let pushed := if inst.isMemRef then [] else [(inst.opClass, i)]
  let q : InstructionQueue := { s.iq with
    insts := Function.update s.iq.insts i inst
    readyInsts := s.iq.readyInsts ++ pushed
    nonSpecInsts := s.iq.nonSpecInsts.erase i }
  have hstep : s.step fx (.scheduleNonSpec i) = some { s with iq := q } := by
    simp only [step, InstructionQueue.scheduleNonSpec, if_pos hmem, InstructionQueue.modify, addIfReady,
      Function.update_self, Bool.true_and, Option.map_some]
    cases hm : (s.iq.insts i).isMemRef <;> simp [q, pushed, inst, hm]
  have hinst : ∀ j, q.insts j = if j = i then inst else s.iq.insts j := fun j => Function.update_apply ..
  have hpushed : ∀ e ∈ pushed, e = (inst.opClass, i) := by
    intro e he
    simp only [pushed] at he
    split at he
    · exact absurd he List.not_mem_nil
    · exact List.mem_singleton.1 he
  have hne : ∀ j, s.iq.Inserted j → j ≠ i := fun j hin heq => hnotIns (heq ▸ hin)
  have hpushes : ∀ j, j ≠ i → q.pushes j = s.iq.pushes j := by
    intro j hj
    have hnone : pushed.countP (·.2 == j) = 0 := by
      refine List.countP_eq_zero.2 fun e he => ?_
      rw [hpushed e he]
      simpa using Ne.symm hj
    unfold InstructionQueue.pushes
    rw [List.countP_append, hnone, Nat.add_zero]
  refine ⟨_, hstep, h.later ?_⟩
  constructor
  case static =>
    intro j
    show (q.insts j).static = _
    rw [hinst]
    split
    next heq => exact heq ▸ rfl
    next => rfl
  case instList => exact fun tid => List.Sublist.refl _
  case squashedInIQ =>
    intro j _
    show (q.insts j).squashedInIQ = _
    rw [hinst]
    split
    next heq => exact heq ▸ rfl
    next => rfl
  case waiter =>
    exact fun j _ hin hw => hw.congr ((hinst j).trans (if_neg (hne j hin))) (fun _ _ => rfl) (fun _ => rfl)
      (hpushes j (hne j hin))
  case graph => exact fun r j hj => ⟨hj, (h.graph r j hj).1⟩
  case nonSpec =>
    intro j hj
    obtain ⟨hne', hold⟩ := Finset.mem_erase.1 hj
    obtain ⟨hl, -, hissued', hcompleted', hw⟩ := h.nonSpec j hold
    have hsame := (hinst j).trans (if_neg hne')
    exact ⟨hold, hl, (congrArg DynInst.issued hsame).trans hissued',
      (congrArg DynInst.completed hsame).trans hcompleted', hw⟩
  case producer => exact fun tid j _ p hp' _ hw _ _ _ _ => ⟨hp', hw⟩
  case board => exact fun r hr => hr
  case notReady => exact fun r _ _ => rfl
  case subset => exact Finset.Subset.refl _
  case woken =>
    intro j hj
    refine ⟨fun hl => ?_, fun hnot => absurd hj hnot⟩
    have hji : j ≠ i := fun heq => hnotwoken (heq ▸ hj)
    have hsame := (hinst j).trans (if_neg hji)
    exact (congrArg DynInst.issued hsame).trans ((h.woken j hj).2 hl)
  case dispatched => rfl
  case writer => rfl
  case pushes => exact fun j hin _ => hpushes j (hne j hin)
  case queue =>
    refine ⟨pushed, rfl, fun e he => ?_⟩
    rw [hpushed e he]
    exact ⟨rfl, hlive⟩

end System

end Alpine.Cpu.Wake
