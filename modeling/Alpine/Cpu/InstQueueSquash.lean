import Alpine.Cpu.InstQueueWake

/-!
# The squash undoes the insertion

* `unlink_graph`, `unlink_notInGraph`, `unlink_nonSpec` — the three ways in which an instruction is looked for.
* `Inv.squashInst`, `Inv.foldlM_squashInst` — one iteration and the loop, with what happens to an instruction that
  is not found.
* `wakes_of_covered` — in every run whose squashes are covered no wake-up is lost or early, and a squash returns
  and leaves nothing behind if and only if it is covered.
-/

namespace Alpine.Cpu.Wake

variable {fx : Nat → Bool}

variable {j : Nat} {q' : InstructionQueue}

namespace InstructionQueue

open Alpine.Cpu.Wake.System (Waiter Undone searched)

variable {q : InstructionQueue} {i : Nat}

/-! ## Taking an instruction out of the graph -/

/-- The instruction has been removed from the lists of its first `k` sources. -/
structure Removed (q : InstructionQueue) (i k : Nat) (g : Nat → List Nat) : Prop where
  self : ∀ r, (g r).count i + (List.range k).countP (fun idx => q.waits i idx && (q.insts i).srcReg idx == r) =
    (q.dependGraph r).count i
  others : ∀ r j, j ≠ i → (g r).count j = (q.dependGraph r).count j

theorem Removed.subset {k : Nat} {g : Nat → List Nat} (h : Removed q i k g) {r : Nat} (hj : j ∈ g r) :
    j ∈ q.dependGraph r := by
  have hpos := List.count_pos_iff.2 hj
  by_cases heq : j = i
  · subst heq
    have hself := h.self r
    exact List.count_pos_iff.1 (by omega)
  · rw [h.others r j heq] at hpos
    exact List.count_pos_iff.1 hpos

theorem Removed.removeSrc {k : Nat} {g : Nat → List Nat} (h : Removed q i k g) (hw : Waiter fx q i)
    (hnodes : ∀ r, q.regScoreboard r = true → q.dependGraph r = []) (hk : k < (q.insts i).numSrcRegs) :
    ∃ g', removeSrc fx i { q with dependGraph := g } k = some { q with dependGraph := g' } ∧
      Removed q i (k + 1) g' := by
  unfold InstructionQueue.removeSrc
  cases hflag : (q.insts i).isReadySrcRegIdx k with
  | true =>
    refine ⟨g, by simp, fun r => ?_, h.others⟩
    rw [countP_range_succ, waits, hflag]
    exact h.self r
  | false =>
    have hfx : fx ((q.insts i).srcReg k) = false := by
      by_contra hf
      rw [hw.fixed k hk (Bool.not_eq_false _ ▸ hf)] at hflag
      cases hflag
    simp only [hfx, Bool.not_false, Bool.and_self, if_true]
    unfold remove
    cases hboard : q.regScoreboard ((q.insts i).srcReg k) with
    | true =>
      -- the register has been produced, and its list is empty
      have hempty : g ((q.insts i).srcReg k) = [] := by
        refine List.eq_nil_iff_forall_not_mem.2 fun j hj => ?_
        have hold := h.subset hj
        rw [hnodes _ hboard] at hold
        exact absurd hold List.not_mem_nil
      refine ⟨g, by simp only [hempty, if_true], fun r => ?_, h.others⟩
      rw [countP_range_succ, waits, hboard, hflag]
      exact h.self r
    | false =>
      have hwaits : q.waits i k = true := by rw [waits, hflag, hboard]; rfl
      have hself := h.self ((q.insts i).srcReg k)
      have hle : (List.range (k + 1)).countP (fun idx => q.waits i idx && (q.insts i).srcReg idx ==
          (q.insts i).srcReg k) ≤ q.waitingFor i ((q.insts i).srcReg k) :=
        (List.range_sublist.2 hk).countP_le
      rw [hw.nodes] at hself
      rw [countP_range_succ, hwaits, Bool.true_and, beq_self_eq_true, if_pos rfl] at hle
      have hin : i ∈ g ((q.insts i).srcReg k) := List.count_pos_iff.1 (by omega)
      have hne : g ((q.insts i).srcReg k) ≠ [] := List.ne_nil_of_mem hin
      refine ⟨Function.update g ((q.insts i).srcReg k) ((g ((q.insts i).srcReg k)).erase i), ?_, fun r => ?_,
        fun r j hj => ?_⟩
      · simp only [hne, if_false, hin, if_true]
        rfl
      · rw [countP_range_succ, hwaits, Bool.true_and, Function.update_apply]
        split
        next hr =>
          subst hr
          rw [List.count_erase_self, beq_self_eq_true, if_pos rfl, hw.nodes]
          omega
        next hr =>
          rw [beq_eq_false_iff_ne.2 (Ne.symm hr)]
          exact h.self r
      · rw [Function.update_apply]
        split
        next hr =>
          rw [List.count_erase_of_ne hj, ← hr]
          exact h.others r j hj
        next => exact h.others r j hj

theorem unlink_graph (hw : Waiter fx q i) (hnodes : ∀ r, q.regScoreboard r = true → q.dependGraph r = [])
    (hin : (q.insts i).inDependGraph = true) :
    ∃ g, q.unlink fx i = some { q with dependGraph := g } ∧ (∀ r, i ∉ g r) ∧
      ∀ r j, j ≠ i → (g r).count j = (q.dependGraph r).count j := by
  have hprefix : ∀ k ≤ (q.insts i).numSrcRegs, ∃ g,
      (List.range k).foldlM (removeSrc fx i) q = some { q with dependGraph := g } ∧ Removed q i k g := by
    intro k
    induction k with
    | zero => exact fun _ => ⟨q.dependGraph, rfl, fun r => by simp, fun r j _ => rfl⟩
    | succ k ih =>
      intro hk
      obtain ⟨g, hg, hrem⟩ := ih (by omega)
      obtain ⟨g', hg', hrem'⟩ := hrem.removeSrc hw hnodes (by omega)
      refine ⟨g', ?_, hrem'⟩
      rw [List.range_succ, List.foldlM_append, hg]
      simp only [List.foldlM_cons, List.foldlM_nil, Option.bind_eq_bind, Option.bind_some, hg']
      rfl
  obtain ⟨g, hg, hrem⟩ := hprefix _ (Nat.le_refl _)
  refine ⟨g, ?_, fun r => ?_, hrem.others⟩
  · unfold unlink
    rw [if_pos hin]
    exact hg
  · have hself := hrem.self r
    rw [hw.nodes r, waitingFor] at hself
    exact List.count_eq_zero.1 (by omega)

/-- An instruction that is in no list is not found, unless there is nothing to be searched. -/
theorem unlink_notInGraph (hnodes : ∀ r, i ∉ q.dependGraph r) (hin : (q.insts i).inDependGraph = true) :
    q.unlink fx i = if ∀ idx < (q.insts i).numSrcRegs, (q.insts i).isReadySrcRegIdx idx = false →
      fx ((q.insts i).srcReg idx) = false → q.dependGraph ((q.insts i).srcReg idx) = [] then some q else none := by
  have hremove : ∀ idx, removeSrc fx i q idx = if (q.insts i).isReadySrcRegIdx idx = false →
      fx ((q.insts i).srcReg idx) = false → q.dependGraph ((q.insts i).srcReg idx) = [] then some q else none := by
    intro idx
    unfold removeSrc remove
    rw [if_neg (hnodes _)]
    cases (q.insts i).isReadySrcRegIdx idx <;> cases fx ((q.insts i).srcReg idx) <;> simp
  have hprefix : ∀ k, (List.range k).foldlM (removeSrc fx i) q = if ∀ idx < k,
      (q.insts i).isReadySrcRegIdx idx = false → fx ((q.insts i).srcReg idx) = false →
        q.dependGraph ((q.insts i).srcReg idx) = [] then some q else none := by
    intro k
    induction k with
    | zero => simp
    | succ k ih =>
      rw [List.range_succ, List.foldlM_append, ih]
      simp only [Nat.forall_lt_succ_right]
      split
      next hall =>
        simp only [List.foldlM_cons, List.foldlM_nil, Option.bind_eq_bind, Option.bind_some, hremove]
        split
        next hk => exact (if_pos ⟨hall, hk⟩).symm
        next hk => exact (if_neg fun hboth => hk hboth.2).symm
      next hall =>
        rw [if_neg fun hboth => hall hboth.1]
        rfl
  unfold unlink
  rw [if_pos hin]
  exact hprefix _

/-- The assertion on an instruction that is not in the graph by its flags. -/
theorem unlink_nonSpec (hnot : (q.insts i).inDependGraph = false)
    (hdone : i ∈ q.nonSpecInsts → (q.insts i).completed = false) :
    q.unlink fx i = if i ∈ q.nonSpecInsts ∨ (q.insts i).faulted = true ∨ (q.insts i).isMemRef = true ∨
        ((q.insts i).isStoreConditional = true ∧ (q.insts i).completed = true)
      then some { q with nonSpecInsts := q.nonSpecInsts.erase i } else none := by
  unfold unlink
  simp only [hnot, Bool.false_eq_true, if_false]
  by_cases hspec : i ∈ q.nonSpecInsts
  · simp [hspec, hdone hspec]
  · have hsame : { q with nonSpecInsts := q.nonSpecInsts.erase i } = q := by
      rw [Finset.erase_eq_of_notMem hspec]
    rw [hsame]
    cases hsc : (q.insts i).isStoreConditional <;> cases hc : (q.insts i).completed <;>
      cases hf : (q.insts i).faulted <;> simp [hspec]

/-- The instruction is in no list of the graph and not in `nonSpecInsts`; the others are where they were. -/
structure Unlinked (q : InstructionQueue) (i : Nat) (q' : InstructionQueue) : Prop where
  static : (q'.insts i).static = (q.insts i).static
  insts : ∀ j, j ≠ i → q'.insts j = q.insts j
  graph : ∀ r, i ∉ q'.dependGraph r
  others : ∀ r j, j ≠ i → (q'.dependGraph r).count j = (q.dependGraph r).count j
  nonSpec : i ∉ q'.nonSpecInsts
  nonSpecInsts : ∀ j, j ≠ i → (j ∈ q'.nonSpecInsts ↔ j ∈ q.nonSpecInsts)
  same : q'.instList = q.instList ∧ q'.regScoreboard = q.regScoreboard ∧ q'.readyInsts = q.readyInsts

theorem Unlinked.mem_graph (h : Unlinked q i q') {r : Nat} (hj : j ∈ q'.dependGraph r) :
    j ≠ i ∧ j ∈ q.dependGraph r := by
  have hne : j ≠ i := fun heq => h.graph r (heq ▸ hj)
  have hpos := List.count_pos_iff.2 hj
  rw [h.others r j hne] at hpos
  exact ⟨hne, List.count_pos_iff.1 hpos⟩

theorem Unlinked.modify {q' : InstructionQueue} (h : Unlinked q i q') {f : DynInst → DynInst}
    (hf : (f (q'.insts i)).static = (q'.insts i).static) : Unlinked q i (q'.modify i f) := by
  refine { h with static := ?_, insts := fun j hj => ?_ }
  · simp only [InstructionQueue.modify, Function.update_self]
    exact hf.trans h.static
  · simp only [InstructionQueue.modify, Function.update_of_ne hj]
    exact h.insts j hj

end InstructionQueue

namespace System

open InstructionQueue

variable {s : System} {i tid : Nat}

/-! ## One iteration -/

/-- A produced register has no dependents. -/
theorem Inv.graph_ready (h : s.Inv fx) {r : Nat} (hr : s.iq.regScoreboard r = true) : s.iq.dependGraph r = [] := by
  refine List.eq_nil_iff_forall_not_mem.2 fun j hj => ?_
  obtain ⟨hl, hin⟩ := h.graph r j hj
  have hpos := List.count_pos_iff.2 hj
  rw [(h.waiter j hl hin).nodes r] at hpos
  obtain ⟨idx, -, hidx⟩ := List.countP_pos_iff.1 hpos
  rw [Bool.and_eq_true, beq_iff_eq, waits, Bool.and_eq_true] at hidx
  rw [hidx.2, hr] at hidx
  cases hidx.1.2

/-- The instructions that wait for a register are younger than the one that writes it. -/
theorem Inv.graph_youngest (h : s.Inv fx) {old : List Nat} (hlist : s.iq.instList tid = old ++ [i]) {r : Nat}
    (hr : r ∈ (s.iq.insts i).renamedDestRegIdx) (hf : fx r = false) : s.iq.dependGraph r = [] := by
  refine List.eq_nil_iff_forall_not_mem.2 fun j hj => ?_
  obtain ⟨hl, hin⟩ := h.graph r j hj
  have hi : i ∈ s.iq.instList tid := hlist ▸ List.mem_append_right _ List.mem_cons_self
  have hpos := List.count_pos_iff.2 hj
  rw [(h.waiter j hl hin).nodes r] at hpos
  obtain ⟨idx, hidx, hw⟩ := List.countP_pos_iff.1 hpos
  rw [Bool.and_eq_true, beq_iff_eq] at hw
  obtain ⟨p, hp, hlt, -, hd⟩ := h.producer j hl hin idx (List.mem_range.1 hidx) hw.1
  rw [hw.2] at hd
  -- the producer of the register is this instruction
  have hwriter := h.writer i ⟨tid, hi⟩ r hr hf
  rw [h.writer p ⟨_, hp⟩ r hd hf] at hwriter
  obtain rfl : p = i := Option.some.inj hwriter
  obtain ⟨tid', hj'⟩ := hl
  have htid : tid' = tid := by
    rw [← (h.thread tid' j hj').1, ← (h.thread _ p hp).1]
    exact (h.thread tid p hi).1
  subst htid
  have hsorted := h.sorted tid'
  rw [hlist] at hj' hsorted
  rcases List.mem_append.1 hj' with hold | hself
  · have hle := (List.pairwise_append.1 hsorted).2.2 j hold p List.mem_cons_self
    omega
  · rw [List.mem_singleton.1 hself] at hlt
    exact absurd hlt (Nat.lt_irrefl _)

variable {q : InstructionQueue}

theorem unlinkSearched_pos (hs : searched (q.insts i)) : q.unlinkSearched fx i =
    (q.unlink fx i).map fun s => s.modify i ({ · with squashedInIQ := true, issued := true }) :=
  if_pos (by simpa [searched] using hs)

theorem unlinkSearched_neg (hs : ¬ searched (q.insts i)) : q.unlinkSearched fx i = some q :=
  if_neg (by simpa [searched] using hs)

theorem Inv.unlinkSearched (h : s.Inv fx) (hlive : s.iq.Live i) (hyoungest : ∀ j ∈ s.iq.instList tid, j ≤ i) :
    (Undone fx s.iq tid i → ∃ q, s.iq.unlinkSearched fx i = some q ∧ Unlinked s.iq i q) ∧
    (¬ Undone fx s.iq tid i → ∀ q, s.iq.unlinkSearched fx i = some q → (∃ r, i ∈ q.dependGraph r) ∨ i ∈ q.nonSpecInsts) := by
  have hspecStatus := h.nonSpec i
  have hkept : (∀ r, i ∉ s.iq.dependGraph r) → i ∉ s.iq.nonSpecInsts → Unlinked s.iq i s.iq := fun hg hns =>
    ⟨rfl, fun _ _ => rfl, hg, fun _ _ _ => rfl, hns, fun _ _ => Iff.rfl, rfl, rfl, rfl⟩
  have hissued : ¬ searched (s.iq.insts i) → (∀ r, i ∉ s.iq.dependGraph r) ∧ i ∉ s.iq.nonSpecInsts := by
    intro hs
    refine ⟨fun r hr => hs (Or.inl (h.graph_notWoken hr).1), fun hns => hs (Or.inl (hspecStatus hns).2.2.1)⟩
  cases hdep : (s.iq.insts i).inDependGraph with
  | true =>
    by_cases hin : s.iq.Inserted i
    · have hns : i ∉ s.iq.nonSpecInsts := fun hns => (hspecStatus hns).2.1 hin
      have hundone : Undone fx s.iq tid i :=
        ⟨fun hout => absurd (hdep.symm.trans hout) nofun, fun hin => absurd hin hns, fun hnot => absurd hin hnot,
          fun hout => absurd (hdep.symm.trans hout) nofun⟩
      refine ⟨fun _ => ?_, fun hnot => absurd hundone hnot⟩
      obtain ⟨g, hg, hself, hothers⟩ := unlink_graph (h.waiter i hlive hin) (fun r hr => h.graph_ready hr) hdep
      by_cases hs : searched (s.iq.insts i)
      · rw [unlinkSearched_pos hs, hg]
        refine ⟨_, rfl, @Unlinked.modify _ _ { s.iq with dependGraph := g } ?_ _ rfl⟩
        exact ⟨rfl, fun _ _ => rfl, hself, hothers, hns, fun _ _ => Iff.rfl, rfl, rfl, rfl⟩
      · exact ⟨_, unlinkSearched_neg hs, hkept (hissued hs).1 hns⟩
    · -- it is looked for in the graph, but it is not there
      have hgraph : ∀ r, i ∉ s.iq.dependGraph r := fun r hr => hin (h.graph r i hr).2
      by_cases hs : searched (s.iq.insts i)
      · rw [unlinkSearched_pos hs, unlink_notInGraph hgraph hdep]
        split
        next hlists =>
          refine ⟨fun hu => ⟨_, rfl, (hkept hgraph fun hns => ?_).modify rfl⟩, fun hnot q hq => Or.inr ?_⟩
          · exact absurd (hdep.symm.trans (hu.nonSpec hns)) nofun
          · obtain rfl := Option.some.inj hq
            by_contra hns
            refine hnot ⟨fun hout => absurd (hdep.symm.trans hout) nofun, fun hin => absurd hin hns,
              fun _ _ _ idx hidx hflag hf j hj => ?_, fun hout => absurd (hdep.symm.trans hout) nofun⟩
            rw [hlists idx hidx hflag hf] at hj
            exact absurd hj List.not_mem_nil
        next hlists =>
          refine ⟨fun hu => absurd (fun idx hidx hflag hf => ?_) hlists, fun _ q hq => absurd hq nofun⟩
          refine List.eq_nil_iff_forall_not_mem.2 fun j hj => ?_
          obtain ⟨hj', hlt⟩ := hu.lists hin hdep hs idx hidx hflag hf j hj
          exact absurd (hyoungest j hj') (by omega)
      · obtain ⟨-, hns⟩ := hissued hs
        refine ⟨fun _ => ⟨_, unlinkSearched_neg hs, hkept hgraph hns⟩, fun hnot => absurd ?_ hnot⟩
        exact ⟨fun hout => absurd (hdep.symm.trans hout) nofun, fun hin => absurd hin hns, fun _ _ hs' => absurd hs' hs,
          fun hout => absurd (hdep.symm.trans hout) nofun⟩
  | false =>
    have heq := @unlink_nonSpec fx _ _ hdep fun hns => (hspecStatus hns).2.2.2.1
    have hlists : (s.iq.insts i).inDependGraph = true → searched (s.iq.insts i) → ∀ idx < (s.iq.insts i).numSrcRegs,
        (s.iq.insts i).isReadySrcRegIdx idx = false → fx ((s.iq.insts i).srcReg idx) = false →
          ∀ j ∈ s.iq.dependGraph ((s.iq.insts i).srcReg idx), j ∈ s.iq.instList tid ∧ i < j := fun hin => absurd (hdep.symm.trans hin) nofun
    by_cases hs : searched (s.iq.insts i)
    · rw [unlinkSearched_pos hs, heq]
      split
      next hfound =>
        refine ⟨fun hu => ⟨_, rfl, ?_⟩, fun hnot q hq => Or.inl ?_⟩
        · refine @Unlinked.modify _ _ { s.iq with nonSpecInsts := s.iq.nonSpecInsts.erase i } ?_ _ rfl
          exact ⟨rfl, fun _ _ => rfl, hu.graph hdep, fun _ _ _ => rfl, Finset.notMem_erase i _,
            fun j hj => by simp [hj], rfl, rfl, rfl⟩
        · obtain rfl := Option.some.inj hq
          by_contra hg
          exact hnot ⟨fun _ r hr => hg ⟨r, hr⟩, fun _ => hdep, fun _ => hlists, fun _ _ => hfound⟩
      next hfound =>
        refine ⟨fun hu => absurd (hu.found hdep ?_) hfound, fun _ q hq => absurd hq nofun⟩
        rcases hs with hs | hs
        · exact hs
        · exact absurd (Or.inr (Or.inr (Or.inl hs.1))) hfound
    · obtain ⟨hgraph, hns⟩ := hissued hs
      refine ⟨fun _ => ⟨_, unlinkSearched_neg hs, hkept hgraph hns⟩, fun hnot => absurd ?_ hnot⟩
      exact ⟨fun _ => hgraph, fun _ => hdep, fun _ => hlists, fun _ hissued => absurd (Or.inl hissued) hs⟩

theorem Inv.squashInst (h : s.Inv fx) {old : List Nat} (hlist : s.iq.instList tid = old ++ [i]) :
    (Undone fx s.iq tid i → ∃ q, s.iq.squashInst fx tid i = some q ∧ ({ s with iq := q } : System).Inv fx ∧
      q.instList = Function.update s.iq.instList tid old ∧ s.iq.Unlinked i { q with instList := s.iq.instList }) ∧
    (¬ Undone fx s.iq tid i → ∀ q, s.iq.squashInst fx tid i = some q →
      (∃ r, i ∈ q.dependGraph r) ∨ i ∈ q.nonSpecInsts) := by
  have hi : i ∈ s.iq.instList tid := hlist ▸ List.mem_append_right _ List.mem_cons_self
  obtain ⟨hthread, -, hsq⟩ := h.thread tid i hi
  have hyoungest : ∀ j ∈ s.iq.instList tid, j ≤ i := by
    intro j hj
    have hsorted := h.sorted tid
    rw [hlist] at hj hsorted
    rcases List.mem_append.1 hj with hj | hj
    · exact Nat.le_of_lt ((List.pairwise_append.1 hsorted).2.2 j hj i List.mem_cons_self)
    · exact Nat.le_of_eq (List.mem_singleton.1 hj)
  obtain ⟨hfound, hleft⟩ := h.unlinkSearched ⟨tid, hi⟩ hyoungest
  unfold InstructionQueue.squashInst
  simp only [hthread, hsq, ne_eq, not_true_eq_false, decide_false, Bool.or_self, Bool.false_eq_true, if_false]
  refine ⟨fun hf => ?_, fun hnot q' hq' => ?_⟩
  rotate_left
  · obtain ⟨q, hq, hdone⟩ := Option.bind_eq_some_iff.1 hq'
    split at hdone
    · obtain rfl := Option.some.inj hdone
      exact hleft hnot q hq
    · exact absurd hdone nofun
  obtain ⟨q, hq, hu⟩ := hfound hf
  have hsorted := h.sorted tid
  rw [hlist] at hsorted
  have hnodup : i ∉ old := fun hin =>
    absurd ((List.pairwise_append.1 hsorted).2.2 i hin i List.mem_cons_self) (Nat.lt_irrefl i)
  have hdests : (q.insts i).static.renamedDestRegIdx = (s.iq.insts i).static.renamedDestRegIdx := by rw [hu.static]
  have hno : q.noDependents fx i := by
    intro r hr hfx
    have hr' : r ∈ (s.iq.insts i).renamedDestRegIdx := hdests ▸ hr
    refine List.eq_nil_iff_forall_not_mem.2 fun j hj => ?_
    have hold := (hu.mem_graph hj).2
    rw [h.graph_youngest hlist hr' hfx] at hold
    exact absurd hold List.not_mem_nil
  have herase : (q.instList tid).erase i = old := by
    rw [hu.same.1, hlist, List.erase_append_right _ hnodup, List.erase_cons_head, List.append_nil]
  let q' : InstructionQueue := { q with instList := Function.update q.instList tid old }
  refine ⟨q', ?_, ?_, by rw [← hu.same.1], { hu with same := ⟨rfl, hu.same.2⟩ }⟩
  · rw [hq, Option.bind_some, if_pos hno, herase]
  have hmem : ∀ tid' j, j ∈ q'.instList tid' ↔ j ∈ s.iq.instList tid' ∧ j ≠ i := by
    intro tid' j
    show j ∈ Function.update q.instList tid old tid' ↔ _
    rw [hu.same.1, Function.update_apply]
    split
    next heq =>
      rw [heq, hlist, List.mem_append, List.mem_singleton]
      refine ⟨fun hold => ⟨Or.inl hold, fun hself => hnodup (hself ▸ hold)⟩, fun hold => ?_⟩
      exact hold.1.resolve_right hold.2
    next hne =>
      refine ⟨fun hold => ⟨hold, fun hself => hne ?_⟩, And.left⟩
      rw [← (h.thread tid' j hold).1, hself]
      exact hthread
  have hlive : ∀ j, q'.Live j ↔ s.iq.Live j ∧ j ≠ i := by
    intro j
    refine ⟨fun ⟨tid', hj⟩ => ?_, fun ⟨⟨tid', hj⟩, hne⟩ => ⟨tid', (hmem tid' j).2 ⟨hj, hne⟩⟩⟩
    exact ⟨⟨tid', ((hmem tid' j).1 hj).1⟩, ((hmem tid' j).1 hj).2⟩
  have hinst : ∀ j, q'.Live j → q'.insts j = s.iq.insts j := fun j hj => hu.insts j ((hlive j).1 hj).2
  apply h.later
  constructor
  case static =>
    intro j
    by_cases hj : j = i
    · exact hj ▸ hu.static
    · exact congrArg DynInst.static (hu.insts j hj)
  case instList =>
    intro tid'
    show (Function.update q.instList tid old tid').Sublist _
    rw [hu.same.1, Function.update_apply]
    split
    next heq =>
      rw [heq, hlist]
      exact List.sublist_append_left old [i]
    next => exact List.Sublist.refl _
  case squashedInIQ => exact fun j hj => congrArg DynInst.squashedInIQ (hinst j hj)
  case waiter =>
    intro j hj _ hw
    refine hw.congr (hinst j hj) (fun idx _ => congrFun hu.same.2.1 _) (fun r => hu.others r j ((hlive j).1 hj).2) ?_
    show List.countP _ q.readyInsts = _
    rw [hu.same.2.2]
    rfl
  case graph =>
    intro r j hj
    obtain ⟨hne, hold⟩ := hu.mem_graph hj
    exact ⟨hold, (hlive j).2 ⟨(h.graph r j hold).1, hne⟩⟩
  case nonSpec =>
    intro j hj
    have hne : j ≠ i := fun heq => hu.nonSpec (heq ▸ hj)
    have hold := (hu.nonSpecInsts j hne).1 hj
    obtain ⟨hl, -, hissued, hcompleted, hw⟩ := h.nonSpec j hold
    refine ⟨hold, (hlive j).2 ⟨hl, hne⟩, ?_, ?_, hw⟩
    · exact (congrArg DynInst.issued (hu.insts j hne)).trans hissued
    · exact (congrArg DynInst.completed (hu.insts j hne)).trans hcompleted
  case producer =>
    intro tid' j hj p hp hlt hw r _ _ _
    refine ⟨(hmem tid' p).2 ⟨hp, fun heq => ?_⟩, hw⟩
    -- nothing in the list is younger than the squashed instruction
    subst heq
    have htid : tid' = tid := by rw [← (h.thread tid' p hp).1, hthread]
    subst htid
    obtain ⟨hj', hne⟩ := (hmem tid' j).1 hj
    rw [hlist, List.mem_append, List.mem_singleton] at hj'
    have hle := (List.pairwise_append.1 hsorted).2.2 j (hj'.resolve_right hne) p List.mem_cons_self
    omega
  case board => exact fun r hr => (congrFun hu.same.2.1 r).trans hr
  case notReady => exact fun r _ _ => congrFun hu.same.2.1 r
  case subset => exact Finset.Subset.refl _
  case woken =>
    intro j hj
    refine ⟨fun hl => ?_, fun hnot => absurd hj hnot⟩
    exact (congrArg DynInst.issued (hinst j hl)).trans ((h.woken j hj).2 ((hlive j).1 hl).1)
  case dispatched => rfl
  case writer => rfl
  case pushes =>
    intro j _ _
    show List.countP _ q.readyInsts = _
    rw [hu.same.2.2]
    rfl
  case queue => exact ⟨[], by rw [List.append_nil]; exact hu.same.2.2, nofun⟩

/-! ## The loop -/

/-- The instruction stays where it is in the graph and in `nonSpecInsts`. -/
structure Keeps (j : Nat) (q q' : InstructionQueue) : Prop where
  graph : ∀ r, j ∈ q.dependGraph r → j ∈ q'.dependGraph r
  nonSpec : j ∈ q.nonSpecInsts → j ∈ q'.nonSpecInsts

theorem Keeps.refl (j : Nat) (q : InstructionQueue) : Keeps j q q := ⟨fun _ hin => hin, fun hin => hin⟩

theorem Keeps.trans {q1 : InstructionQueue} (h : Keeps j q q1) (h' : Keeps j q1 q') : Keeps j q q' :=
  ⟨fun r hin => h'.graph r (h.graph r hin), fun hin => h'.nonSpec (h.nonSpec hin)⟩

theorem foldlM_keeps {f : InstructionQueue → Nat → Option InstructionQueue} {l : List Nat}
    (hf : ∀ x ∈ l, ∀ q q', f q x = some q' → Keeps j q q') (hq : l.foldlM f q = some q') : Keeps j q q' := by
  induction l generalizing q with
  | nil =>
    cases hq
    exact Keeps.refl ..
  | cons x l ih =>
    rw [List.foldlM_cons] at hq
    obtain ⟨q1, hq1, hrest⟩ := Option.bind_eq_some_iff.1 hq
    have hfirst := hf x List.mem_cons_self q q1 hq1
    exact hfirst.trans (ih (fun y hy => hf y (List.mem_cons_of_mem x hy)) hrest)

theorem removeSrc_keeps (hj : j ≠ i) {idx : Nat} (hq : removeSrc fx i q idx = some q') : Keeps j q q' := by
  unfold removeSrc remove at hq
  split at hq
  · split at hq
    · cases hq
      exact Keeps.refl ..
    · split at hq
      · cases hq
        refine ⟨fun r hin => ?_, fun hin => hin⟩
        simp only [setGraph, Function.update_apply]
        split
        next heq => exact (List.mem_erase_of_ne hj).2 (heq ▸ hin)
        next => exact hin
      · cases hq
  · cases hq
    exact Keeps.refl ..

theorem unlink_keeps (hj : j ≠ i) (hq : q.unlink fx i = some q') : Keeps j q q' := by
  unfold unlink at hq
  simp only at hq
  split at hq
  · exact foldlM_keeps (fun idx _ q q' => removeSrc_keeps hj) hq
  · split at hq
    · split at hq
      · cases hq
        exact ⟨fun _ hin => hin, fun hin => Finset.mem_erase.2 ⟨hj, hin⟩⟩
      · split at hq
        · cases hq
          exact Keeps.refl ..
        · exact absurd hq nofun
    · cases hq
      exact Keeps.refl ..

/-- An iteration leaves the other instructions where they are. -/
theorem squashInst_keeps (hj : j ≠ i) (hq : q.squashInst fx tid i = some q') : Keeps j q q' := by
  unfold InstructionQueue.squashInst at hq
  split at hq
  · cases hq
    exact Keeps.refl ..
  · obtain ⟨q2, hq2, hdone⟩ := Option.bind_eq_some_iff.1 hq
    have hlast : Keeps j q2 q' := by
      split at hdone
      · cases hdone
        exact ⟨fun _ hin => hin, fun hin => hin⟩
      · exact absurd hdone nofun
    refine Keeps.trans ?_ hlast
    unfold InstructionQueue.unlinkSearched at hq2
    split at hq2
    · obtain ⟨q1, hq1, rfl⟩ := Option.map_eq_some_iff.1 hq2
      have hunlink := unlink_keeps hj hq1
      exact ⟨hunlink.graph, hunlink.nonSpec⟩
    · cases hq2
      exact Keeps.refl ..

/-- Whether an older instruction is found does not depend on the youngest. -/
theorem undone_congr {old : List Nat} (hlist : s.iq.instList tid = old ++ [i]) (hq : q.instList tid = old)
    (hu : s.iq.Unlinked i { q with instList := s.iq.instList }) (hj : j < i) :
    Undone fx q tid j ↔ Undone fx s.iq tid j := by
  have hne : j ≠ i := Nat.ne_of_lt hj
  have hinst : q.insts j = s.iq.insts j := hu.insts j hne
  have hgraph : ∀ r k, k ≠ i → (k ∈ q.dependGraph r ↔ k ∈ s.iq.dependGraph r) := fun r k hk => by
    rw [← List.count_pos_iff, ← List.count_pos_iff, hu.others r k hk]
  have hspec : j ∈ q.nonSpecInsts ↔ j ∈ s.iq.nonSpecInsts := hu.nonSpecInsts j hne
  have hlists : ∀ r, (∀ k ∈ q.dependGraph r, k ∈ q.instList tid ∧ j < k) ↔
      ∀ k ∈ s.iq.dependGraph r, k ∈ s.iq.instList tid ∧ j < k := by
    intro r
    rw [hq, hlist]
    refine forall_congr' fun k => ?_
    by_cases hk : k = i
    · subst hk
      exact ⟨fun _ _ => ⟨List.mem_append_right _ List.mem_cons_self, hj⟩, fun _ hin => absurd hin (hu.graph r)⟩
    · rw [hgraph r k hk, List.mem_append, List.mem_singleton, or_iff_left hk]
  have hins : q.Inserted j ↔ s.iq.Inserted j := by
    unfold Inserted
    rw [hinst]
  constructor
  · rintro ⟨h1, h2, h3, h4⟩
    rw [hinst] at h1 h2 h3 h4
    rw [hspec] at h2 h4
    refine ⟨fun hout r hr => h1 hout r ((hgraph r j hne).2 hr), h2, fun hnot hin hs idx hidx hflag hf => ?_, h4⟩
    exact (hlists _).1 (h3 (fun hin => hnot (hins.1 hin)) hin hs idx hidx hflag hf)
  · rintro ⟨h1, h2, h3, h4⟩
    rw [← hinst] at h1 h2 h3 h4
    rw [← hspec] at h2 h4
    refine ⟨fun hout r hr => h1 hout r ((hgraph r j hne).1 hr), h2, fun hnot hin hs idx hidx hflag hf => ?_, h4⟩
    exact (hlists _).2 (h3 (fun hin => hnot (hins.2 hin)) hin hs idx hidx hflag hf)

/-- From the youngest instruction back: all of `young` leave the list, or one of them fails an assertion or is
left behind. -/
theorem Inv.foldlM_squashInst (old young : List Nat) (h : s.Inv fx) (hlist : s.iq.instList tid = old ++ young) :
    ((∀ i ∈ young, Undone fx s.iq tid i) → ∃ q,
      young.reverse.foldlM (InstructionQueue.squashInst fx tid) s.iq = some q ∧
        ({ s with iq := q } : System).Inv fx ∧ q.instList = Function.update s.iq.instList tid old) ∧
    (¬ (∀ i ∈ young, Undone fx s.iq tid i) → ∀ q,
      young.reverse.foldlM (InstructionQueue.squashInst fx tid) s.iq = some q →
        ∃ i ∈ young, (∃ r, i ∈ q.dependGraph r) ∨ i ∈ q.nonSpecInsts) := by
  induction young using List.reverseRecOn generalizing s with
  | nil =>
    rw [List.append_nil] at hlist
    refine ⟨fun _ => ⟨s.iq, rfl, h, ?_⟩, fun hnot => absurd (fun _ hin => absurd hin List.not_mem_nil) hnot⟩
    rw [← hlist, Function.update_eq_self]
  | append_singleton young i ih =>
    have hlist' : s.iq.instList tid = (old ++ young) ++ [i] := by rw [hlist, List.append_assoc]
    obtain ⟨hfound, hleft⟩ := h.squashInst hlist'
    have hlt : ∀ j ∈ young, j < i := by
      have hsorted := h.sorted tid
      rw [hlist'] at hsorted
      exact fun j hj => (List.pairwise_append.1 hsorted).2.2 j (List.mem_append_right _ hj) i List.mem_cons_self
    have hall : (∀ j ∈ young ++ [i], Undone fx s.iq tid j) ↔
        (∀ j ∈ young, Undone fx s.iq tid j) ∧ Undone fx s.iq tid i := by
      simp [or_imp, forall_and]
    rw [List.reverse_append, List.reverse_singleton, List.singleton_append, List.foldlM_cons, hall]
    by_cases hi : Undone fx s.iq tid i
    · obtain ⟨q, hq, hinv, hlists, hu⟩ := hfound hi
      have hqlist : q.instList tid = old ++ young := by rw [hlists, Function.update_self]
      obtain ⟨hrest, hrestLeft⟩ := ih hinv hqlist
      have hsame : (∀ j ∈ young, Undone fx q tid j) ↔ ∀ j ∈ young, Undone fx s.iq tid j :=
        forall₂_congr fun j hj => undone_congr hlist' hqlist hu (hlt j hj)
      simp only [hq, Option.bind_eq_bind, Option.bind_some, hi, and_true]
      rw [← hsame]
      refine ⟨fun hy => ?_, fun hnot q' hq' => ?_⟩
      · obtain ⟨q', hq', hinv', hlists'⟩ := hrest hy
        refine ⟨q', hq', hinv', hlists'.trans ?_⟩
        show Function.update q.instList tid old = _
        rw [hlists, Function.update_idem]
      · obtain ⟨j, hj, hin⟩ := hrestLeft hnot q' hq'
        exact ⟨j, List.mem_append_left _ hj, hin⟩
    · refine ⟨fun hy => absurd hy.2 hi, fun _ q' hq' => ⟨i, List.mem_append_right _ List.mem_cons_self, ?_⟩⟩
      obtain ⟨q, hq, hrest⟩ := Option.bind_eq_some_iff.1 hq'
      have hkeeps : Keeps i q q' := foldlM_keeps (fun j hj _ _ =>
        squashInst_keeps (Nat.ne_of_gt (hlt j (List.mem_reverse.1 hj)))) hrest
      exact (hleft hi q hq).imp (fun ⟨r, hr⟩ => ⟨r, hkeeps.graph r hr⟩) hkeeps.nonSpec

/-- The list of a thread is split at the last instruction that is not squashed. -/
theorem split_sorted {l : List Nat} (hl : l.Pairwise (· < ·)) (n : Nat) :
    ∃ old young, l = old ++ young ∧ (∀ j ∈ old, j ≤ n) ∧ (∀ j ∈ young, n < j) ∧
      l.reverse.takeWhile (· > n) = young.reverse := by
  have hsplit : ∃ old young, l = old ++ young ∧ (∀ j ∈ old, j ≤ n) ∧ ∀ j ∈ young, n < j := by
    induction l with
    | nil => exact ⟨[], [], rfl, nofun, nofun⟩
    | cons a l ih =>
      obtain ⟨ha, hl⟩ := List.pairwise_cons.1 hl
      by_cases han : n < a
      · refine ⟨[], a :: l, rfl, nofun, fun j hj => ?_⟩
        rcases List.mem_cons.1 hj with rfl | hj
        · exact han
        · exact han.trans (ha j hj)
      · obtain ⟨old, young, rfl, hold, hyoung⟩ := ih hl
        refine ⟨a :: old, young, rfl, fun j hj => ?_, hyoung⟩
        rcases List.mem_cons.1 hj with rfl | hj
        · omega
        · exact hold j hj
  obtain ⟨old, young, rfl, hold, hyoung⟩ := hsplit
  refine ⟨old, young, rfl, hold, hyoung, ?_⟩
  rw [List.reverse_append, List.takeWhile_append_of_pos (by simpa using hyoung)]
  have hnone : old.reverse.takeWhile (· > n) = [] := by
    cases heq : old.reverse with
    | nil => rfl
    | cons a rest =>
      have ha : a ∈ old := List.mem_reverse.1 (heq ▸ List.mem_cons_self)
      rw [List.takeWhile_cons_of_neg]
      simpa using hold a ha
  rw [hnone, List.append_nil]

/-- The step lemma of the squash: it returns and leaves no squashed instruction if and only if it is covered. -/
theorem Inv.squash (h : s.Inv fx) (n tid : Nat) :
    (s.Covered fx (.squash n tid) → ∃ s', s.step fx (.squash n tid) = some s' ∧ s'.Inv fx ∧
      s.NoneLeft (.squash n tid) s') ∧ (¬ s.Covered fx (.squash n tid) → ∀ s', s.step fx (.squash n tid) = some s' →
      ¬ s.NoneLeft (.squash n tid) s') := by
  obtain ⟨old, young, hlist, hold, hyoung, hrev⟩ := split_sorted (h.sorted tid) n
  obtain ⟨hfound, hleft⟩ := h.foldlM_squashInst old young hlist
  have hmem : ∀ i, (i ∈ s.iq.instList tid ∧ n < i) ↔ i ∈ young := by
    intro i
    rw [hlist, List.mem_append]
    refine ⟨fun ⟨hi, hlt⟩ => hi.resolve_left fun hin => absurd (hold i hin) (by omega), fun hi => ?_⟩
    exact ⟨Or.inr hi, hyoung i hi⟩
  have hcovered : s.Covered fx (.squash n tid) ↔ ∀ i ∈ young, Undone fx s.iq tid i :=
    ⟨fun hc i hi => hc i ((hmem i).2 hi).1 ((hmem i).2 hi).2, fun hy i hi hlt => hy i ((hmem i).1 ⟨hi, hlt⟩)⟩
  simp only [step, doSquash, hrev]
  rw [hcovered]
  refine ⟨fun hy => ?_, fun hnot s' hs' hnone => ?_⟩
  · obtain ⟨q, hq, hinv, hlists⟩ := hfound hy
    refine ⟨_, by rw [hq]; rfl, hinv, fun i hi hlt => ?_⟩
    -- a squashed instruction is in no list
    have hdead : ¬ q.Live i := by
      rintro ⟨tid', hi'⟩
      rw [hlists, Function.update_apply] at hi'
      split at hi'
      · exact absurd (hold i hi') (by omega)
      next hne => exact hne ((h.thread tid' i hi').1.symm.trans (h.thread tid i hi).1)
    exact ⟨fun r hr => hdead (hinv.graph r i hr).1, fun hns => hdead (hinv.nonSpec i hns).1⟩
  · obtain ⟨q, hq, rfl⟩ := Option.map_eq_some_iff.1 hs'
    obtain ⟨i, hi, hin⟩ := hleft hnot q hq
    obtain ⟨hgraph, hspec⟩ := hnone i ((hmem i).2 hi).1 ((hmem i).2 hi).2
    rcases hin with ⟨r, hr⟩ | hns
    · exact hgraph r hr
    · exact hspec hns

/-! ## Runs -/

theorem inv_new (insts : Nat → DynInst) : (new insts).Inv fx := by
  have hdead : ∀ j, ¬ (new insts).iq.Live j := fun j ⟨tid, hj⟩ => List.not_mem_nil hj
  constructor
  case sorted => exact fun tid => List.Pairwise.nil
  case thread => exact fun tid i hi => absurd hi List.not_mem_nil
  case waiter => exact fun i hi => absurd hi (hdead i)
  case graph => exact fun r i hi => absurd hi List.not_mem_nil
  case nonSpec => exact fun i hi => absurd hi (Finset.notMem_empty i)
  case producer => exact fun i hi => absurd hi (hdead i)
  case notReady => exact fun r _ _ => rfl
  case writer => exact fun j hj => absurd hj (hdead j)
  case completed => exact fun r j _ hw => absurd hw nofun
  case flagged => exact fun i hi => absurd hi (hdead i)
  case woken => exact fun i hi => absurd hi (Finset.notMem_empty i)
  case atMost => exact fun i _ _ => Nat.zero_le 1
  case queue => exact fun e he => absurd he List.not_mem_nil

theorem Inv.step (h : s.Inv fx) {c : Call} (hp : s.Permitted fx c) (hc : s.Covered fx c) :
    ∃ s', s.step fx c = some s' ∧ s'.Inv fx ∧ s.NoneLeft c s' := by
  have hquiet : (∃ s', s.step fx c = some s' ∧ s'.Inv fx) → (∀ s', s.NoneLeft c s') →
      ∃ s', s.step fx c = some s' ∧ s'.Inv fx ∧ s.NoneLeft c s' := fun ⟨s', hs', hinv⟩ hnone =>
    ⟨s', hs', hinv, hnone s'⟩
  cases c with
  | dispatch i inst => exact hquiet (h.dispatch hp) fun _ => trivial
  | wakeDependents i => exact hquiet (h.wakeDependents hp) fun _ => trivial
  | scheduleNonSpec i => exact hquiet (h.scheduleNonSpec hp) fun _ => trivial
  | commit n tid => exact hquiet (h.commit hp) fun _ => trivial
  | squash n tid => exact (h.squash n tid).1 hc
  | issue i => exact hquiet (h.issue hp) fun _ => trivial
  | blockMemInst i => exact hquiet (h.blockMemInst hp) fun _ => trivial
  | setStatus i memOpDone completed squashed faulted => exact hquiet (h.setStatus hp) fun _ => trivial

/-- An instruction waits for no source if and only if all of them have been produced. -/
theorem Inv.produced (h : s.Inv fx) (hl : s.iq.Live i) (hin : s.iq.Inserted i) :
    s.Produced fx i ↔ s.iq.waiting i = 0 := by
  have hw := h.waiter i hl hin
  constructor
  · intro hp
    refine waiting_eq_zero.2 fun idx hidx => ?_
    by_contra hwaits
    have hwaits' : s.iq.waits i idx = true := Bool.not_eq_false _ ▸ hwaits
    obtain ⟨j, hj, -, hnot, hd⟩ := h.producer i hl hin idx hidx hwaits'
    refine hp _ (srcReg_mem hidx) ?_ ⟨j, ⟨_, hj⟩, hnot, hd⟩
    by_contra hf
    rw [waits, hw.fixed idx hidx (Bool.not_eq_false _ ▸ hf)] at hwaits'
    cases hwaits'
  · intro hzero r hr hf hpending
    obtain ⟨idx, hidx, rfl⟩ := exists_srcReg hr
    have hwaits := waiting_eq_zero.1 hzero idx hidx
    cases hflag : (s.iq.insts i).isReadySrcRegIdx idx with
    | true => exact h.flagged i hl hin idx hidx hflag hf hpending
    | false =>
      rw [waits, hflag, h.notReady _ hf hpending] at hwaits
      cases hwaits

open Classical in
theorem Inv.wakes (h : s.Inv fx) : s.Wakes fx where
  once i hl hin hm := by
    rw [((h.waiter i hl hin).ready hm).2]
    exact if_congr (h.produced hl hin).symm rfl rfl
  atMost := h.atMost
  opClass e he := (h.queue e he).1
  dependGraph r i hi := (h.graph r i hi).1
  nonSpecInsts i hi := (h.nonSpec i hi).1

/-- **No lost and no early wake-up, as long as every squash finds what it squashes.**  In a run whose calls were
all covered, the instructions have been put on their ready queues as they should, and the next call returns and
leaves no squashed instruction behind if and only if it is covered. -/
theorem wakes_of_covered {insts : Nat → DynInst}
    (h : Run.Reaches (System.step fx) (fun s c => s.Permitted fx c ∧ s.Covered fx c) (new insts) s) :
    s.Wakes fx ∧ ∀ c, s.Permitted fx c → ((∃ s', s.step fx c = some s' ∧ s.NoneLeft c s') ↔ s.Covered fx c) := by
  have hinv : s.Inv fx := h.inv (inv_new insts) fun t c t' ht hc hstep => by
    obtain ⟨t1, ht1, hinv, -⟩ := ht.step hc.1 hc.2
    rw [ht1] at hstep
    exact Option.some.inj hstep ▸ hinv
  refine ⟨hinv.wakes, fun c hp => ⟨fun ⟨s', hs', hnone⟩ => ?_, fun hc => ?_⟩⟩
  · by_contra hnot
    cases c with
    | squash n tid => exact (hinv.squash n tid).2 hnot s' hs' hnone
    | _ => exact hnot trivial
  · obtain ⟨s', hs', -, hnone⟩ := hinv.step hp hc
    exact ⟨s', hs', hnone⟩

/-! ## A consumer that reads one register twice, and an instruction that is not found -/

def intInst (srcs dests : List Nat) (isNonSpeculative : Bool) : DynInst where
  threadNumber := 0
  opClass := 1
  isMemRef := false
  isLoad := false
  isStore := false
  isStoreConditional := false
  isNonSpeculative := isNonSpeculative
  isMemBarrier := false
  isWriteBarrier := false
  renamedSrcRegIdx := srcs
  renamedDestRegIdx := dests
  isReadySrcRegIdx _ := false
  readyRegs := 0
  canIssue := srcs.isEmpty
  issued := false
  memOpDone := false
  completed := false
  squashed := false
  squashedInIQ := false
  faulted := false

/-- No register of a fixed mapping. -/
def noneFixed (_ : Nat) : Bool := false

def ran (cs : List Call) : System :=
  (cs.foldlM (step noneFixed) (new fun _ => intInst [] [] false)).getD (new fun _ => intInst [] [] false)

/-- The producer of register 40 completes while instruction 2 reads it in both sources. -/
def readTwice : List Call :=
  [.dispatch 1 (intInst [] [40] false), .dispatch 2 (intInst [40, 40] [41] false), .issue 1, .wakeDependents 1]

theorem renamed_intInst (i : Nat) (dests : List Nat) (isNonSpeculative : Bool) :
    (ran []).Renamed noneFixed i (intInst [] dests isNonSpeculative) where
  fresh := Finset.notMem_empty i
  order _ hj := absurd hj List.not_mem_nil
  status := ⟨rfl, rfl, rfl⟩
  readyRegs := rfl
  canIssue := ⟨fun _ => rfl, fun _ => rfl⟩
  fixed idx hidx := absurd hidx (Nat.not_lt_zero idx)
  ready idx hidx := absurd hidx (Nat.not_lt_zero idx)
  notReady idx hidx := absurd hidx (Nat.not_lt_zero idx)
  dests _ _ _ := ⟨List.not_mem_nil, fun _ ⟨_, hj⟩ => absurd hj List.not_mem_nil⟩

theorem renamed_consumer : (ran (readTwice.take 1)).Renamed noneFixed 2 (intInst [40, 40] [41] false) where
  fresh := by decide
  order := by decide
  status := by decide
  readyRegs := rfl
  canIssue := by decide
  fixed _ _ hf := absurd hf nofun
  ready _ _ hflag := absurd hflag nofun
  notReady idx hidx _ := by
    refine ⟨1, ?_, Or.inr (by decide)⟩
    have hsrc : (intInst [40, 40] [41] false).srcReg idx = 40 := by
      match idx, hidx with
      | 0, _ => rfl
      | 1, _ => rfl
    rw [hsrc]
    rfl
  dests r hr _ := by
    obtain rfl := List.mem_singleton.1 hr
    refine ⟨by decide, ?_⟩
    rintro j ⟨tid, hj⟩
    by_cases htid : tid = 0
    · subst htid
      obtain rfl : j = 1 := List.mem_singleton.1 hj
      decide
    · have hnil : (ran (readTwice.take 1)).iq.instList tid = [] := Function.update_of_ne htid ..
      rw [hnil] at hj
      exact absurd hj List.not_mem_nil

theorem reaches_readTwice : Run.Reaches (step noneFixed) (fun s c => s.Permitted noneFixed c ∧ s.Covered noneFixed c)
    (new fun _ => intInst [] [] false) (ran readTwice) := by
  have h1 : Run.Reaches (step noneFixed) (fun s c => s.Permitted noneFixed c ∧ s.Covered noneFixed c)
      (ran []) (ran (readTwice.take 1)) :=
    .step .refl (i := Call.dispatch 1 (intInst [] [40] false)) ⟨renamed_intInst 1 [40] false, trivial⟩ rfl
  have h2 := h1.step (i := Call.dispatch 2 (intInst [40, 40] [41] false)) ⟨renamed_consumer, trivial⟩
    (show _ = some (ran (readTwice.take 2)) from rfl)
  have h3 := h2.step (i := Call.issue 1) ⟨⟨⟨0, by decide⟩, by decide, fun _ => rfl⟩, trivial⟩
    (show _ = some (ran (readTwice.take 3)) from rfl)
  exact h3.step (i := Call.wakeDependents 1) ⟨⟨⟨0, by decide⟩, by decide, rfl, rfl⟩, trivial⟩ rfl

theorem wakes_of_covered_readTwice : (ran readTwice).iq.pushes 2 = 1 ∧ (ran readTwice).Wakes noneFixed ∧
    ∀ c, (ran readTwice).Permitted noneFixed c →
      ((∃ s', (ran readTwice).step noneFixed c = some s' ∧ (ran readTwice).NoneLeft c s') ↔
        (ran readTwice).Covered noneFixed c) :=
  ⟨by decide, wakes_of_covered reaches_readTwice⟩

/-- A non-speculative instruction is scheduled, and squashed before it has issued: it is not in `nonSpecInsts` any
more, has no fault and is no memory reference. -/
theorem nonSpec_not_found : ∃ s : System, Run.Reaches (step noneFixed) (fun s c => s.Permitted noneFixed c)
      (new fun _ => intInst [] [] false) s ∧
    s.Permitted noneFixed (.squash 4 0) ∧ s.step noneFixed (.squash 4 0) = none := by
  have h1 : Run.Reaches (step noneFixed) (fun s c => s.Permitted noneFixed c) (ran [])
      (ran [.dispatch 5 (intInst [] [40] true)]) :=
    .step .refl (i := Call.dispatch 5 (intInst [] [40] true)) (renamed_intInst 5 [40] true) rfl
  have hmem : 5 ∈ (ran [.dispatch 5 (intInst [] [40] true)]).iq.nonSpecInsts := by decide
  have h2 := h1.step (i := Call.scheduleNonSpec 5) hmem
    (show _ = some (ran [.dispatch 5 (intInst [] [40] true), .scheduleNonSpec 5]) by rfl)
  exact ⟨_, h2, trivial, by rfl⟩

end System

end Alpine.Cpu.Wake
