import Alpine.Cpu.InstQueueInv

/-!
# The insertion of an instruction keeps the invariant

* `Linked` — what `addToDependents` does to a new instruction: a source is marked as ready or puts the
  instruction on the list of its register; `addToDependents_linked`.
* `addToProducers_eq` — the panic is not reached.
* `Inv.dispatch` — the step lemma.
-/

namespace Alpine.Cpu.Wake

variable {fx : Nat → Bool}

namespace InstructionQueue

variable {q q' : InstructionQueue} {i : Nat}

theorem waiting_eq_zero : q.waiting i = 0 ↔ ∀ idx < (q.insts i).numSrcRegs, q.waits i idx = false := by
  simp [waiting, List.countP_eq_zero]

theorem waitingFor_le (q : InstructionQueue) (j r : Nat) : q.waitingFor j r ≤ q.waiting j :=
  List.countP_mono_left fun _ _ h => (Bool.and_eq_true _ _ ▸ h).1

theorem waits_congr (hinst : q'.insts i = q.insts i) {idx : Nat}
    (hboard : q'.regScoreboard ((q.insts i).srcReg idx) = q.regScoreboard ((q.insts i).srcReg idx)) :
    q'.waits i idx = q.waits i idx := by
  unfold waits
  rw [hinst, hboard]

theorem waiting_congr (hinst : q'.insts i = q.insts i) (hboard : ∀ idx < (q.insts i).numSrcRegs,
    q'.regScoreboard ((q.insts i).srcReg idx) = q.regScoreboard ((q.insts i).srcReg idx)) :
    q'.waiting i = q.waiting i ∧ ∀ r, q'.waitingFor i r = q.waitingFor i r := by
  unfold waiting waitingFor
  rw [hinst]
  refine ⟨List.countP_congr fun idx hidx => ?_, fun r => List.countP_congr fun idx hidx => ?_⟩
  · rw [waits_congr hinst (hboard idx (List.mem_range.1 hidx))]
  · rw [waits_congr hinst (hboard idx (List.mem_range.1 hidx))]

theorem srcReg_mem {inst : DynInst} {idx : Nat} (h : idx < inst.numSrcRegs) :
    inst.srcReg idx ∈ inst.renamedSrcRegIdx := by
  unfold DynInst.srcReg
  rw [List.getD_eq_getElem _ _ h]
  exact List.getElem_mem h

theorem exists_srcReg {inst : DynInst} {r : Nat} (h : r ∈ inst.renamedSrcRegIdx) :
    ∃ idx < inst.numSrcRegs, inst.srcReg idx = r := by
  obtain ⟨idx, hidx, heq⟩ := List.getElem_of_mem h
  exact ⟨idx, hidx, by rw [DynInst.srcReg, List.getD_eq_getElem _ _ hidx, heq]⟩

/-! ## The dependents -/

/-- After the first `k` sources of the new instruction. -/
structure Linked (q : InstructionQueue) (i k : Nat) (q' : InstructionQueue) : Prop where
  inst : ∃ flags regs can, q'.insts = Function.update q.insts i
    { q.insts i with isReadySrcRegIdx := flags, readyRegs := regs, canIssue := can }
  flags : ∀ idx, (q'.insts i).isReadySrcRegIdx idx =
    ((q.insts i).isReadySrcRegIdx idx || (decide (idx < k) && q.regScoreboard ((q.insts i).srcReg idx)))
  regs : (q'.insts i).readyRegs = (q.insts i).readyRegs + (List.range k).countP fun idx =>
    !(q.insts i).isReadySrcRegIdx idx && q.regScoreboard ((q.insts i).srcReg idx)
  can : (q'.insts i).readyRegs ≤ (q.insts i).numSrcRegs →
    ((q'.insts i).canIssue = true ↔ (q'.insts i).readyRegs = (q.insts i).numSrcRegs)
  graph : ∀ r, q'.dependGraph r =
    List.replicate ((List.range k).countP fun idx => q.waits i idx && (q.insts i).srcReg idx == r) i ++ q.dependGraph r
  rest : q'.instList = q.instList ∧ q'.nonSpecInsts = q.nonSpecInsts ∧ q'.regScoreboard = q.regScoreboard ∧
    q'.readyInsts = q.readyInsts

theorem linked_zero (hcan : (q.insts i).canIssue = true ↔ (q.insts i).readyRegs = (q.insts i).numSrcRegs) :
    Linked q i 0 q where
  inst := ⟨(q.insts i).isReadySrcRegIdx, (q.insts i).readyRegs, (q.insts i).canIssue,
    (Function.update_eq_self i q.insts).symm⟩
  flags idx := by simp
  regs := by simp
  can _ := hcan
  graph r := by simp
  rest := ⟨rfl, rfl, rfl, rfl⟩

theorem countP_range_succ (f : Nat → Bool) (k : Nat) :
    (List.range (k + 1)).countP f = (List.range k).countP f + if f k then 1 else 0 := by
  rw [List.range_succ, List.countP_append, List.countP_singleton]

theorem Linked.dependOn {k : Nat} (h : Linked q i k q')
    (hfixed : fx ((q.insts i).srcReg k) = true → (q.insts i).isReadySrcRegIdx k = true) :
    Linked q i (k + 1) (dependOn fx i q' k) := by
  obtain ⟨flags, regs, can, hinsts⟩ := h.inst
  have hi : q'.insts i = { q.insts i with isReadySrcRegIdx := flags, readyRegs := regs, canIssue := can } := by
    rw [hinsts, Function.update_self]
  have hflag : (q'.insts i).isReadySrcRegIdx k = (q.insts i).isReadySrcRegIdx k := by
    rw [h.flags]
    simp
  have hsrc : ∀ idx, (q'.insts i).srcReg idx = (q.insts i).srcReg idx := fun idx => by rw [hi]; rfl
  have hboard := h.rest.2.2.1
  have hlt : ∀ idx, decide (idx < k + 1) = (decide (idx < k) || decide (idx = k)) := by
    intro idx
    rw [← Bool.decide_or]
    exact decide_eq_decide.2 (by omega)
  unfold InstructionQueue.dependOn
  cases hready : (q.insts i).isReadySrcRegIdx k with
  | true =>
    -- the source was ready before
    rw [if_pos (hflag.trans hready)]
    refine ⟨h.inst, fun idx => ?_, ?_, h.can, fun r => ?_, h.rest⟩
    · rw [h.flags, hlt]
      by_cases heq : idx = k
      · subst heq
        simp [hready]
      · simp [heq]
    · rw [h.regs, countP_range_succ, hready]
      simp
    · rw [h.graph, countP_range_succ, waits, hready]
      simp
  | false =>
    have hfx : ¬ fx ((q'.insts i).srcReg k) = true := by
      rw [hsrc]
      intro hf
      rw [hfixed hf] at hready
      exact absurd hready nofun
    rw [if_neg (by rw [hflag, hready]; exact Bool.false_ne_true)]
    dsimp only
    rw [if_neg hfx, hsrc, hboard]
    cases hsb : q.regScoreboard ((q.insts i).srcReg k) with
    | false =>
      -- the instruction goes to the list of the register
      simp only [Bool.not_false, if_true]
      refine ⟨h.inst, fun idx => ?_, ?_, h.can, fun r => ?_, h.rest⟩
      · refine (h.flags idx).trans ?_
        rw [hlt]
        by_cases heq : idx = k
        · subst heq
          simp [hsb]
        · simp [heq]
      · refine h.regs.trans ?_
        rw [countP_range_succ, hsb]
        simp
      · rw [countP_range_succ, waits, hready, hsb]
        by_cases heq : r = (q.insts i).srcReg k
        · subst heq
          simp only [setGraph, Function.update_self, h.graph, List.replicate_succ', Bool.not_false, Bool.and_self,
            beq_self_eq_true, if_true]
          rw [← List.cons_append, ← List.replicate_succ, List.replicate_succ']
        · simp only [setGraph, Function.update_of_ne heq, h.graph]
          simp [Ne.symm heq]
    | true =>
      -- the register has become ready since
      simp only [Bool.not_true, Bool.false_eq_true, if_false]
      have hmod : (q'.modify i (·.markSrcRegReadyIdx k)).insts i = (q'.insts i).markSrcRegReadyIdx k :=
        Function.update_self ..
      refine ⟨⟨Function.update flags k true, regs + 1, can || decide (regs + 1 = (q.insts i).numSrcRegs), ?_⟩,
        fun idx => ?_, ?_, fun hle => ?_, fun r => ?_, h.rest⟩
      · show Function.update q'.insts i ((q'.insts i).markSrcRegReadyIdx k) = _
        rw [hi, hinsts, Function.update_idem]
        rfl
      · rw [hmod, hlt]
        show Function.update (q'.insts i).isReadySrcRegIdx k true idx = _
        by_cases heq : idx = k
        · subst heq
          rw [Function.update_self]
          simp [hsb]
        · rw [Function.update_of_ne heq, h.flags]
          simp [heq]
      · rw [hmod, countP_range_succ, hready, hsb]
        show (q'.insts i).readyRegs + 1 = _
        rw [h.regs]
        simp [Nat.add_assoc]
      · rw [hmod] at hle ⊢
        have hlt' : (q'.insts i).readyRegs + 1 ≤ (q.insts i).numSrcRegs := hle
        have hcan := h.can (by omega)
        have hnum : (q'.insts i).numSrcRegs = (q.insts i).numSrcRegs := by
          rw [hi]
          rfl
        show ((q'.insts i).canIssue || decide ((q'.insts i).readyRegs + 1 = (q'.insts i).numSrcRegs)) = true ↔
          (q'.insts i).readyRegs + 1 = _
        rw [Bool.or_eq_true, decide_eq_true_eq, hcan, hnum]
        omega
      · show q'.dependGraph r = _
        rw [h.graph, countP_range_succ, waits, hready, hsb]
        simp

theorem addToDependents_linked (hcan : (q.insts i).canIssue = true ↔ (q.insts i).readyRegs = (q.insts i).numSrcRegs)
    (hfixed : ∀ idx < (q.insts i).numSrcRegs, fx ((q.insts i).srcReg idx) = true →
      (q.insts i).isReadySrcRegIdx idx = true) : Linked q i (q.insts i).numSrcRegs (q.addToDependents fx i) := by
  unfold addToDependents
  have hprefix : ∀ k ≤ (q.insts i).numSrcRegs, Linked q i k ((List.range k).foldl (dependOn fx i) q) := by
    intro k
    induction k with
    | zero => exact fun _ => linked_zero hcan
    | succ k ih =>
      intro hk
      rw [List.range_succ, List.foldl_append]
      exact (ih (by omega)).dependOn (hfixed k (by omega))
  exact hprefix _ (Nat.le_refl _)

/-! ## The producers -/

/-- The scoreboard with the registers of a new producer. -/
def unready (fx : Nat → Bool) (board : Nat → Bool) (dests : List Nat) : Nat → Bool := fun r =>
  if r ∈ dests ∧ fx r = false then false else board r

theorem foldlM_produce {dests : List Nat} (h : ∀ r ∈ dests, fx r = false → q.dependGraph r = []) :
    dests.foldlM (produce fx) q = some { q with regScoreboard := unready fx q.regScoreboard dests } := by
  induction dests generalizing q with
  | nil =>
    have hsame : unready fx q.regScoreboard [] = q.regScoreboard := by
      funext r
      simp [unready]
    rw [hsame]
    rfl
  | cons d dests ih =>
    have hrest : ∀ r ∈ dests, fx r = false → q.dependGraph r = [] := fun r hr => h r (List.mem_cons_of_mem d hr)
    rw [List.foldlM_cons]
    cases hf : fx d with
    | true =>
      have hsame : unready fx q.regScoreboard (d :: dests) = unready fx q.regScoreboard dests := by
        funext r
        simp only [unready, List.mem_cons]
        by_cases heq : r = d
        · subst heq
          simp [hf]
        · simp [heq]
      simp only [produce, hf, if_true]
      exact (ih hrest).trans (by rw [hsame])
    | false =>
      have hempty := h d List.mem_cons_self hf
      have hsame : unready fx (Function.update q.regScoreboard d false) dests =
          unready fx q.regScoreboard (d :: dests) := by
        funext r
        simp only [unready, List.mem_cons]
        by_cases heq : r = d
        · subst heq
          simp [hf]
        · simp [heq]
      simp only [produce, hf, hempty, Bool.false_eq_true, if_false, ne_eq, not_true_eq_false]
      exact (ih (q := { q with regScoreboard := Function.update q.regScoreboard d false }) hrest).trans (by rw [hsame])

theorem addToProducers_eq (h : ∀ r ∈ (q.insts i).renamedDestRegIdx, fx r = false → q.dependGraph r = []) :
    q.addToProducers fx i =
      some { q with regScoreboard := unready fx q.regScoreboard (q.insts i).renamedDestRegIdx } :=
  foldlM_produce h

end InstructionQueue

/-! ## What a change elsewhere leaves alone -/

namespace System

open InstructionQueue

theorem Waiter.congr {q q' : InstructionQueue} {i : Nat} (h : Waiter fx q i) (hinst : q'.insts i = q.insts i)
    (hboard : ∀ idx < (q.insts i).numSrcRegs,
      q'.regScoreboard ((q.insts i).srcReg idx) = q.regScoreboard ((q.insts i).srcReg idx))
    (hgraph : ∀ r, (q'.dependGraph r).count i = (q.dependGraph r).count i) (hpush : q'.pushes i = q.pushes i) :
    Waiter fx q' i := by
  obtain ⟨hwaiting, hfor⟩ := waiting_congr hinst hboard
  refine ⟨fun r => ?_, ?_, ?_, ?_, ?_⟩
  · rw [hgraph, hfor]
    exact h.nodes r
  · rw [hinst, hwaiting]
    exact h.regs
  · rw [hinst, hwaiting]
    exact h.issued
  · rw [hinst, hwaiting, hpush]
    exact h.ready
  · rw [hinst]
    exact h.fixed

section Dispatch

variable {s : System} {i : Nat} {inst : DynInst}

theorem Inv.live_dispatched (h : s.Inv fx) {j : Nat} (hj : s.iq.Live j) : j ∈ s.dispatched := by
  obtain ⟨tid, hj⟩ := hj
  exact (h.thread tid j hj).2.1

theorem Inv.count_new (h : s.Inv fx) (hi : i ∉ s.dispatched) (r : Nat) : (s.iq.dependGraph r).count i = 0 :=
  List.count_eq_zero.2 fun hin => hi (h.live_dispatched (h.graph r i hin).1)

theorem Inv.pushes_new (h : s.Inv fx) (hi : i ∉ s.dispatched) : s.iq.pushes i = 0 := by
  refine List.countP_eq_zero.2 fun e he heq => ?_
  rw [beq_iff_eq] at heq
  exact hi (heq ▸ (h.queue e he).2)

theorem mem_instList_pushBack {q : InstructionQueue} {tid j : Nat} : j ∈ (q.pushBack i inst).instList tid ↔
    j ∈ q.instList tid ∨ (j = i ∧ tid = inst.threadNumber) := by
  simp only [pushBack]
  by_cases htid : tid = inst.threadNumber
  · subst htid
    simp
  · simp [htid]

theorem live_pushBack {q : InstructionQueue} {j : Nat} : (q.pushBack i inst).Live j ↔ q.Live j ∨ j = i := by
  constructor
  · rintro ⟨tid, hj⟩
    rcases mem_instList_pushBack.1 hj with hj | ⟨rfl, -⟩
    · exact Or.inl ⟨tid, hj⟩
    · exact Or.inr rfl
  · rintro (⟨tid, hj⟩ | rfl)
    · exact ⟨tid, mem_instList_pushBack.2 (Or.inl hj)⟩
    · exact ⟨_, mem_instList_pushBack.2 (Or.inr ⟨rfl, rfl⟩)⟩

/-- The queue with a new instruction, which is on `k r` entries of the list of `r`. -/
structure Added (fx : Nat → Bool) (s : System) (i : Nat) (inst inst' : DynInst) (k : Nat → Nat) (push : Bool)
    (q : InstructionQueue) : Prop where
  marked : ∃ flags regs can, inst' = { inst with isReadySrcRegIdx := flags, readyRegs := regs, canIssue := can }
  insts : q.insts = Function.update s.iq.insts i inst'
  instList : q.instList = (s.iq.pushBack i inst).instList
  nonSpecInsts : q.nonSpecInsts = if inst.dispatch = .insert then s.iq.nonSpecInsts else insert i s.iq.nonSpecInsts
  graph : ∀ r, q.dependGraph r = List.replicate (k r) i ++ s.iq.dependGraph r
  board : q.regScoreboard = unready fx s.iq.regScoreboard inst.renamedDestRegIdx
  ready : q.readyInsts = s.iq.readyInsts ++ if push then [(inst.opClass, i)] else []

theorem Inv.board_old (hr : s.Renamed fx i inst) {j idx : Nat} (hj : s.iq.Live j)
    (hidx : idx < (s.iq.insts j).numSrcRegs) :
    unready fx s.iq.regScoreboard inst.renamedDestRegIdx ((s.iq.insts j).srcReg idx) =
      s.iq.regScoreboard ((s.iq.insts j).srcReg idx) :=
  if_neg fun hd => ((hr.dests _ hd.1 hd.2).2 j hj).1 (srcReg_mem hidx)

theorem Inv.added (h : s.Inv fx) (hr : s.Renamed fx i inst)
    {inst' : DynInst} {k : Nat → Nat} {push : Bool} {q : InstructionQueue} (ha : Added fx s i inst inst' k push q)
    (hnew : inst.dispatch = .insert → Waiter fx q i ∧ ∀ idx < inst.numSrcRegs,
      (q.waits i idx = true → ∃ j ∈ s.iq.instList inst.threadNumber, j ∉ s.woken ∧
        inst.srcReg idx ∈ (s.iq.insts j).renamedDestRegIdx) ∧
      ((q.insts i).isReadySrcRegIdx idx = true → fx (inst.srcReg idx) = false → ¬ s.Pending (inst.srcReg idx)))
    (hspec : inst.dispatch ≠ .insert → push = false ∧ ∀ r, k r = 0) :
    (⟨q, s.woken, insert i s.dispatched, fun r => if r ∈ inst.renamedDestRegIdx then some i else s.writer r⟩ : System).Inv fx := by
  obtain ⟨flags, regs, can, hinst⟩ := ha.marked
  have hi : q.insts i = inst' := by rw [ha.insts, Function.update_self]
  have hne : ∀ {j}, j ∈ s.dispatched → j ≠ i := fun hj heq => hr.fresh (heq ▸ hj)
  have hold : ∀ {j}, j ∈ s.dispatched → q.insts j = s.iq.insts j := fun hj => by
    rw [ha.insts, Function.update_of_ne (hne hj)]
  have hlive : ∀ {j}, q.Live j ↔ s.iq.Live j ∨ j = i := by
    intro j
    rw [← @live_pushBack _ inst]
    unfold Live
    rw [ha.instList]
  have hmem : ∀ {tid j}, j ∈ q.instList tid ↔ j ∈ s.iq.instList tid ∨ (j = i ∧ tid = inst.threadNumber) := by
    intro tid j
    rw [ha.instList]
    exact mem_instList_pushBack
  have hnotwoken : i ∉ s.woken := fun hin => hne (h.woken i hin).1 rfl
  have hdispatch : inst'.dispatch = inst.dispatch := by rw [hinst]; rfl
  have hpushes : ∀ {j}, q.pushes j = s.iq.pushes j + if push = true ∧ j = i then 1 else 0 := by
    intro j
    rw [pushes, ha.ready, List.countP_append, ← pushes]
    cases push with
    | false => simp
    | true =>
      by_cases hj : j = i
      · simp [hj]
      · simp [hj, Ne.symm hj]
  have hpending : ∀ {r}, (⟨q, s.woken, insert i s.dispatched, fun r => if r ∈ inst.renamedDestRegIdx then some i else s.writer r⟩ :
      System).Pending r → s.Pending r ∨ r ∈ inst.renamedDestRegIdx := by
    rintro r ⟨j, hj, hw, hd⟩
    rcases hlive.1 hj with hj | rfl
    · rw [hold (h.live_dispatched hj)] at hd
      exact Or.inl ⟨j, hj, hw, hd⟩
    · rw [hi, hinst] at hd
      exact Or.inr hd
  have hinserted : ∀ {j}, s.iq.Live j → (q.Inserted j ↔ s.iq.Inserted j) := fun hj => by
    unfold Inserted
    rw [hold (h.live_dispatched hj)]
  have hself : q.Inserted i ↔ inst.dispatch = .insert := by
    unfold Inserted
    rw [hi, hdispatch]
  constructor
  case sorted =>
    intro tid
    rw [ha.instList]
    simp only [pushBack]
    by_cases htid : tid = inst.threadNumber
    · subst htid
      rw [Function.update_self]
      refine List.pairwise_append.2 ⟨h.sorted _, List.pairwise_singleton _ _, fun a hain b hb => ?_⟩
      rw [List.mem_singleton.1 hb]
      exact hr.order a hain
    · rw [Function.update_of_ne htid]
      exact h.sorted tid
  case thread =>
    intro tid j hj
    rcases hmem.1 hj with hj | ⟨rfl, rfl⟩
    · obtain ⟨ht, hlt, hsq⟩ := h.thread tid j hj
      rw [hold hlt]
      exact ⟨ht, Finset.mem_insert_of_mem hlt, hsq⟩
    · rw [hi, hinst]
      exact ⟨rfl, Finset.mem_insert_self .., hr.status.2.2⟩
  case waiter =>
    intro j hj hin
    rcases hlive.1 hj with hj | rfl
    · have hw := h.waiter j hj ((hinserted hj).1 hin)
      refine hw.congr (hold (h.live_dispatched hj)) (fun idx hidx => ?_) (fun r => ?_) ?_
      · rw [ha.board]
        exact Inv.board_old hr hj hidx
      · rw [ha.graph, List.count_append, List.count_replicate, if_neg (by simpa using (hne (h.live_dispatched hj)).symm),
          Nat.zero_add]
      · rw [hpushes, if_neg fun hp => hne (h.live_dispatched hj) hp.2, Nat.add_zero]
    · exact (hnew (hself.1 hin)).1
  case graph =>
    intro r j hj
    rw [ha.graph] at hj
    rcases List.mem_append.1 hj with hj | hj
    · obtain ⟨hk, rfl⟩ := List.mem_replicate.1 hj
      refine ⟨hlive.2 (Or.inr rfl), hself.2 ?_⟩
      by_contra hns
      exact hk ((hspec hns).2 r)
    · obtain ⟨hl, hin⟩ := h.graph r j hj
      exact ⟨hlive.2 (Or.inl hl), (hinserted hl).2 hin⟩
  case nonSpec =>
    intro j hj
    have hcase : j ∈ s.iq.nonSpecInsts ∨ (j = i ∧ inst.dispatch ≠ .insert) := by
      rw [ha.nonSpecInsts] at hj
      split at hj
      · exact Or.inl hj
      next hns =>
        rcases Finset.mem_insert.1 hj with rfl | hj
        · exact Or.inr ⟨rfl, hns⟩
        · exact Or.inl hj
    rcases hcase with hj | ⟨rfl, hns⟩
    · obtain ⟨hl, hin, hrest⟩ := h.nonSpec j hj
      rw [hold (h.live_dispatched hl), hinserted hl]
      exact ⟨hlive.2 (Or.inl hl), hin, hrest⟩
    · rw [hself, hi, hinst]
      exact ⟨hlive.2 (Or.inr rfl), hns, hr.status.1, hr.status.2.1, hnotwoken⟩
  case producer =>
    intro j hj hin idx hidx hwaits
    rcases hlive.1 hj with hj | rfl
    · have hsame := hold (h.live_dispatched hj)
      rw [hsame] at hidx ⊢
      rw [waits_congr hsame (by rw [ha.board]; exact Inv.board_old hr hj hidx)] at hwaits
      obtain ⟨p, hp, hlt, hw, hd⟩ := h.producer j hj ((hinserted hj).1 hin) idx hidx hwaits
      refine ⟨p, hmem.2 (Or.inl hp), hlt, hw, ?_⟩
      rw [hold (h.live_dispatched ⟨_, hp⟩)]
      exact hd
    · rw [hi, hinst] at hidx ⊢
      obtain ⟨p, hp, hw, hd⟩ := ((hnew (hself.1 hin)).2 idx hidx).1 hwaits
      refine ⟨p, hmem.2 (Or.inl hp), hr.order p hp, hw, ?_⟩
      rw [hold (h.thread _ p hp).2.1]
      exact hd
  case notReady =>
    intro r hf hp
    show q.regScoreboard r = false
    rw [ha.board]
    by_cases hd : r ∈ inst.renamedDestRegIdx
    · exact if_pos ⟨hd, hf⟩
    · exact (if_neg fun hd' => hd hd'.1).trans (h.notReady r hf ((hpending hp).resolve_right hd))
  case writer =>
    intro j hj r hd hf
    rcases hlive.1 hj with hj | rfl
    · rw [hold (h.live_dispatched hj)] at hd
      have hnd : r ∉ inst.renamedDestRegIdx := fun hin => ((hr.dests r hin hf).2 j hj).2 hd
      exact (if_neg hnd).trans (h.writer j hj r hd hf)
    · rw [hi, hinst] at hd
      exact if_pos hd
  case completed =>
    intro r j hf hw
    show j ∈ insert i s.dispatched ∧ r ∈ (q.insts j).renamedDestRegIdx ∧ (j ∈ s.woken → q.regScoreboard r = true)
    by_cases hd : r ∈ inst.renamedDestRegIdx
    · obtain rfl : i = j := Option.some.inj ((if_pos hd).symm.trans hw)
      refine ⟨Finset.mem_insert_self .., ?_, fun hin => absurd hin hnotwoken⟩
      rw [hi, hinst]
      exact hd
    · obtain ⟨hlt, hdest, hboard⟩ := h.completed r j hf ((if_neg hd).symm.trans hw)
      rw [ha.board, hold hlt]
      exact ⟨Finset.mem_insert_of_mem hlt, hdest, fun hin => (if_neg fun hd' => hd hd'.1).trans (hboard hin)⟩
  case flagged =>
    intro j hj hin idx hidx hflag hf hp
    rcases hlive.1 hj with hj | rfl
    · rw [hold (h.live_dispatched hj)] at hidx hflag hf hp
      rcases hpending hp with hp | hd
      · exact h.flagged j hj ((hinserted hj).1 hin) idx hidx hflag hf hp
      · exact ((hr.dests _ hd hf).2 j hj).1 (srcReg_mem hidx)
    · have hsrc : (q.insts j).srcReg idx = inst.srcReg idx := by
        rw [hi, hinst]
        rfl
      have hidx' : idx < inst.numSrcRegs := by
        rw [hi, hinst] at hidx
        exact hidx
      rw [hsrc] at hf hp
      rcases hpending hp with hp | hd
      · exact ((hnew (hself.1 hin)).2 idx hidx').2 hflag hf hp
      · exact (hr.dests _ hd hf).1 (srcReg_mem hidx')
  case woken =>
    intro j hj
    obtain ⟨hlt, hissued⟩ := h.woken j hj
    refine ⟨Finset.mem_insert_of_mem hlt, fun hl => ?_⟩
    rw [hold hlt]
    exact hissued ((hlive.1 hl).resolve_right (hne hlt))
  case atMost =>
    intro j hin hmref
    show q.pushes j ≤ 1
    rw [hpushes]
    by_cases hj : j = i
    · subst hj
      rw [h.pushes_new hr.fresh]
      split <;> omega
    · rw [if_neg fun hp => hj hp.2, Nat.add_zero]
      have hsame : q.insts j = s.iq.insts j := by rw [ha.insts, Function.update_of_ne hj]
      unfold Inserted at hin
      rw [hsame] at hin hmref
      exact h.atMost j hin hmref
  case queue =>
    intro e he
    have hcase : e ∈ s.iq.readyInsts ∨ e = (inst.opClass, i) := by
      rw [ha.ready] at he
      rcases List.mem_append.1 he with he | he
      · exact Or.inl he
      · split at he
        · exact Or.inr (List.mem_singleton.1 he)
        · exact absurd he List.not_mem_nil
    rcases hcase with he | rfl
    · obtain ⟨hop, hlt⟩ := h.queue e he
      rw [hold hlt]
      exact ⟨hop, Finset.mem_insert_of_mem hlt⟩
    · rw [hi, hinst]
      exact ⟨rfl, Finset.mem_insert_self ..⟩

/-! ## The new instruction -/

theorem Inv.graph_dest (h : s.Inv fx) (hr : s.Renamed fx i inst) {r : Nat} (hd : r ∈ inst.renamedDestRegIdx)
    (hf : fx r = false) : s.iq.dependGraph r = [] := by
  refine List.eq_nil_iff_forall_not_mem.2 fun j hj => ?_
  obtain ⟨hl, hin⟩ := h.graph r j hj
  have hpos : 0 < s.iq.waitingFor j r := by
    rw [← (h.waiter j hl hin).nodes r]
    exact List.count_pos_iff.2 hj
  obtain ⟨idx, hidx, hw⟩ := List.countP_pos_iff.1 hpos
  rw [Bool.and_eq_true, beq_iff_eq] at hw
  have hsrc := srcReg_mem (List.mem_range.1 hidx)
  rw [hw.2] at hsrc
  exact ((hr.dests r hd hf).2 j hl).1 hsrc

/-- A source is ready before the insertion, found ready by it, or waited for. -/
theorem countP_three (f b : Nat → Bool) (n : Nat) :
    (List.range n).countP f + (List.range n).countP (fun idx => !f idx && b idx) +
      (List.range n).countP (fun idx => !f idx && !b idx) = n := by
  induction n with
  | zero => rfl
  | succ n ih =>
    rw [countP_range_succ, countP_range_succ, countP_range_succ]
    cases f n <;> cases b n <;> simp <;> omega

theorem Inv.insert_added (h : s.Inv fx) (hr : s.Renamed fx i inst) (hins : inst.dispatch = .insert) :
    ∃ q inst' k push, s.iq.insert fx i inst = some q ∧ Added fx s i inst inst' k push q ∧ Waiter fx q i ∧
      ∀ idx < inst.numSrcRegs,
        (q.waits i idx = true → inst.isReadySrcRegIdx idx = false ∧ s.iq.regScoreboard (inst.srcReg idx) = false) ∧
        ((q.insts i).isReadySrcRegIdx idx = true →
          inst.isReadySrcRegIdx idx = true ∨ s.iq.regScoreboard (inst.srcReg idx) = true) := by
  have hself : (s.iq.pushBack i inst).insts i = inst := Function.update_self ..
  have hlink : Linked (s.iq.pushBack i inst) i inst.numSrcRegs ((s.iq.pushBack i inst).addToDependents fx i) := by
    have hlink := @addToDependents_linked fx (s.iq.pushBack i inst) i
    rw [hself] at hlink
    exact hlink hr.canIssue hr.fixed
  generalize hq2 : (s.iq.pushBack i inst).addToDependents fx i = q2 at hlink
  obtain ⟨flags, regs, can, hinsts⟩ := hlink.inst
  rw [hself] at hinsts
  have hi : q2.insts i = { inst with isReadySrcRegIdx := flags, readyRegs := regs, canIssue := can } := by
    rw [hinsts, Function.update_self]
  have hflags := hlink.flags
  have hregs := hlink.regs
  have hcan := hlink.can
  have hgraph := hlink.graph
  have hold : (s.iq.pushBack i inst).dependGraph = s.iq.dependGraph := rfl
  have hboard : (s.iq.pushBack i inst).regScoreboard = s.iq.regScoreboard := rfl
  simp only [hself, hi, hold, hboard, waits] at hflags hregs hcan hgraph
  have hdests : ∀ r ∈ (q2.insts i).renamedDestRegIdx, fx r = false → q2.dependGraph r = [] := by
    intro r hd hf
    rw [hi] at hd
    rw [hgraph, h.graph_dest hr hd hf, List.append_nil, List.replicate_eq_nil_iff]
    refine List.countP_eq_zero.2 fun idx hidx heq => ?_
    rw [Bool.and_eq_true, beq_iff_eq] at heq
    refine (hr.dests r hd hf).1 ?_
    rw [← heq.2]
    exact srcReg_mem (List.mem_range.1 hidx)
  let q : InstructionQueue := { q2 with
    regScoreboard := unready fx q2.regScoreboard inst.renamedDestRegIdx
    readyInsts := q2.readyInsts ++ if can && !inst.isMemRef then [(inst.opClass, i)] else [] }
  have hinsert : s.iq.insert fx i inst = some q := by
    rw [InstructionQueue.insert, hq2, addToProducers_eq hdests, Option.map_some, addIfReady, hi]
    cases hm : inst.isMemRef <;> cases hc : can <;> simp [q, hm, hc]
  have hqi : q.insts i = { inst with isReadySrcRegIdx := flags, readyRegs := regs, canIssue := can } := hi
  have hsrcs : ∀ idx < inst.numSrcRegs, q.regScoreboard (inst.srcReg idx) = s.iq.regScoreboard (inst.srcReg idx) := by
    intro idx hidx
    refine (if_neg fun hd => ?_).trans (congrFun hlink.rest.2.2.1 _)
    exact (hr.dests _ hd.1 hd.2).1 (srcReg_mem hidx)
  have hwaits : ∀ idx < inst.numSrcRegs, q.waits i idx =
      (!inst.isReadySrcRegIdx idx && !s.iq.regScoreboard (inst.srcReg idx)) := by
    intro idx hidx
    have hsrc := hsrcs idx hidx
    unfold waits
    rw [hqi]
    simp only [DynInst.srcReg] at hsrc ⊢
    rw [hsrc, hflags, decide_eq_true hidx]
    cases inst.isReadySrcRegIdx idx <;> simp [DynInst.srcReg]
  have hwaiting : q.waiting i = (List.range inst.numSrcRegs).countP fun idx =>
      !inst.isReadySrcRegIdx idx && !s.iq.regScoreboard (inst.srcReg idx) := by
    unfold waiting
    rw [hqi]
    exact List.countP_congr fun idx hidx => by rw [hwaits idx (List.mem_range.1 hidx)]
  have hsum : regs + q.waiting i = inst.numSrcRegs := by
    rw [hwaiting, hregs, hr.readyRegs]
    exact countP_three ..
  have hcan' : can = true ↔ q.waiting i = 0 := by
    rw [hcan (by omega)]
    omega
  have hpushes : q.pushes i = if (can && !inst.isMemRef) = true then 1 else 0 := by
    have hnew := h.pushes_new hr.fresh
    unfold pushes at hnew ⊢
    show (q2.readyInsts ++ _).countP _ = _
    rw [hlink.rest.2.2.2, List.countP_append]
    refine (congrArg (· + _) hnew).trans ?_
    split <;> simp
  refine ⟨q, _, _, can && !inst.isMemRef, hinsert, ⟨⟨flags, regs, can, rfl⟩, ?_, hlink.rest.1, ?_, hgraph, ?_, ?_⟩,
    ⟨fun r => ?_, ?_, ?_, fun hm => ⟨?_, ?_⟩, ?_⟩, fun idx hidx => ⟨fun hw => ?_, fun hflag => ?_⟩⟩
  · exact hinsts.trans (Function.update_idem ..)
  · rw [if_pos hins]
    exact hlink.rest.2.1
  · show unready fx q2.regScoreboard _ = _
    rw [hlink.rest.2.2.1]
    rfl
  · show q2.readyInsts ++ _ = _
    rw [hlink.rest.2.2.2]
    rfl
  · show (q2.dependGraph r).count i = _
    rw [hgraph, List.count_append, List.count_replicate_self, h.count_new hr.fresh, Nat.add_zero]
    unfold waitingFor
    rw [hqi]
    exact List.countP_congr fun idx hidx => by rw [hwaits idx (List.mem_range.1 hidx)]; rfl
  · rw [hqi]
    exact hsum
  · rw [hqi]
    exact fun hissued => absurd (hr.status.1.symm.trans hissued) nofun
  · rw [hqi]
    exact hcan'
  · rw [hqi] at hm
    rw [hpushes, (hm : inst.isMemRef = false), Bool.not_false, Bool.and_true]
    exact if_congr hcan' rfl rfl
  · rw [hqi]
    intro idx hidx hf
    show flags idx = true
    rw [hflags, hr.fixed idx hidx hf, Bool.true_or]
  · rw [hwaits idx hidx, Bool.and_eq_true, Bool.not_eq_true', Bool.not_eq_true'] at hw
    exact hw
  · rw [hqi] at hflag
    have hflag' : flags idx = true := hflag
    rw [hflags, Bool.or_eq_true, Bool.and_eq_true] at hflag'
    exact hflag'.imp_right And.right

theorem Inv.insertNonSpec_added (h : s.Inv fx) (hr : s.Renamed fx i inst) (hns : inst.dispatch ≠ .insert) :
    ∃ q, s.iq.insertNonSpec fx i inst = some q ∧ Added fx s i inst inst (fun _ => 0) false q := by
  have hself : ({ s.iq with nonSpecInsts := Insert.insert i s.iq.nonSpecInsts }.pushBack i inst).insts i = inst :=
    Function.update_self ..
  have hdests : ∀ r ∈ inst.renamedDestRegIdx, fx r = false → s.iq.dependGraph r = [] :=
    fun r hd hf => h.graph_dest hr hd hf
  refine ⟨_, addToProducers_eq (by rw [hself]; exact hdests), ⟨_, _, _, rfl⟩, rfl, rfl, ?_, fun r => rfl, ?_, ?_⟩
  · rw [if_neg hns]
    rfl
  · rw [hself]
    rfl
  · exact (List.append_nil _).symm

theorem Inv.dispatch (h : s.Inv fx) (hr : s.Renamed fx i inst) :
    ∃ s', s.step fx (.dispatch i inst) = some s' ∧ s'.Inv fx := by
  have hspec : inst.dispatch ≠ .insert → ∃ iq, s.iq.insertNonSpec fx i inst = some iq ∧
      (⟨iq, s.woken, insert i s.dispatched, fun r => if r ∈ inst.renamedDestRegIdx then some i else s.writer r⟩ : System).Inv fx := by
    intro hns
    obtain ⟨iq, hiq, ha⟩ := h.insertNonSpec_added hr hns
    exact ⟨iq, hiq, h.added hr ha (fun hins => absurd hins hns) fun _ => ⟨rfl, fun _ => rfl⟩⟩
  simp only [step]
  cases hd : inst.dispatch with
  | insert =>
    obtain ⟨iq, inst', k, push, hiq, ha, hw, hsrc⟩ := h.insert_added hr hd
    refine ⟨_, by rw [hiq]; rfl, h.added hr ha (fun _ => ⟨hw, fun idx hidx => ⟨fun hwaits => ?_, ?_⟩⟩) ?_⟩
    · obtain ⟨hflag, hboard⟩ := (hsrc idx hidx).1 hwaits
      obtain ⟨j, hj, hdone⟩ := hr.notReady idx hidx hflag
      have hf : fx (inst.srcReg idx) = false := by
        by_contra hf
        rw [hr.fixed idx hidx (Bool.not_eq_false _ ▸ hf)] at hflag
        exact absurd hflag nofun
      obtain ⟨-, hdest, hboard'⟩ := h.completed _ j hf hj
      have hnotwoken : j ∉ s.woken := fun hin => absurd (hboard.symm.trans (hboard' hin)) nofun
      exact ⟨j, hdone.resolve_left hnotwoken, hnotwoken, hdest⟩
    · intro hflag hf hp
      rcases (hsrc idx hidx).2 hflag with hflag | hboard
      · exact hr.ready idx hidx hflag hf hp
      · rw [h.notReady _ hf hp] at hboard
        exact absurd hboard nofun
    · exact fun hns => absurd hd hns
  | insertNonSpec =>
    obtain ⟨iq, hiq, hinv⟩ := hspec (by rw [hd]; exact nofun)
    exact ⟨_, by rw [hiq]; rfl, hinv⟩
  | insertBarrier =>
    obtain ⟨iq, hiq, hinv⟩ := hspec (by rw [hd]; exact nofun)
    exact ⟨_, by rw [insertBarrier, hiq]; rfl, hinv⟩

end Dispatch

end System

end Alpine.Cpu.Wake
