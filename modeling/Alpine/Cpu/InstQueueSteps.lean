import Alpine.Cpu.InstQueueInsert

/-!
# The steps after the insertion

* `Later` — what the other calls have in common: instructions leave the lists and change their status only.
* `Inv.later` — such a step keeps the invariant.
* `Inv.commit`, `Inv.issue`, `Inv.blockMemInst`, `Inv.setStatus` — the step lemmas of the calls that touch no
  dependency list.
-/

namespace Alpine.Cpu.Wake

variable {fx : Nat → Bool}

/-- What renaming and decoding gave the instruction. -/
def DynInst.static (inst : DynInst) : DynInst :=
  { inst with
    readyRegs := 0
    canIssue := false
    issued := false
    memOpDone := false
    completed := false
    squashed := false
    squashedInIQ := false
    faulted := false }

namespace System

open InstructionQueue

variable {s s' : System} {i : Nat}

structure Later (fx : Nat → Bool) (s s' : System) : Prop where
  static : ∀ j, (s'.iq.insts j).static = (s.iq.insts j).static
  instList : ∀ tid, (s'.iq.instList tid).Sublist (s.iq.instList tid)
  squashedInIQ : ∀ j, s'.iq.Live j → (s'.iq.insts j).squashedInIQ = (s.iq.insts j).squashedInIQ
  waiter : ∀ j, s'.iq.Live j → s.iq.Inserted j → Waiter fx s.iq j → Waiter fx s'.iq j
  graph : ∀ r, ∀ j ∈ s'.iq.dependGraph r, j ∈ s.iq.dependGraph r ∧ s'.iq.Live j
  nonSpec : ∀ j ∈ s'.iq.nonSpecInsts, j ∈ s.iq.nonSpecInsts ∧ s'.iq.Live j ∧ (s'.iq.insts j).issued = false ∧
    (s'.iq.insts j).completed = false ∧ j ∉ s'.woken
  producer : ∀ tid, ∀ j ∈ s'.iq.instList tid, ∀ p ∈ s.iq.instList tid, p < j → p ∉ s.woken →
    ∀ r ∈ (s.iq.insts p).renamedDestRegIdx, fx r = false → s'.iq.regScoreboard r = false →
      p ∈ s'.iq.instList tid ∧ p ∉ s'.woken
  board : ∀ r, s.iq.regScoreboard r = true → s'.iq.regScoreboard r = true
  notReady : ∀ r, fx r = false → s'.Pending r → s'.iq.regScoreboard r = s.iq.regScoreboard r
  subset : s.woken ⊆ s'.woken
  woken : ∀ j ∈ s'.woken, (s'.iq.Live j → (s'.iq.insts j).issued = true) ∧
    (j ∉ s.woken → s.iq.Live j ∧ ∀ r ∈ (s.iq.insts j).renamedDestRegIdx, fx r = false → s'.iq.regScoreboard r = true)
  dispatched : s'.dispatched = s.dispatched
  writer : s'.writer = s.writer
  pushes : ∀ j, s.iq.Inserted j → ¬ s'.iq.Live j → s'.iq.pushes j = s.iq.pushes j
  queue : ∃ pushed, s'.iq.readyInsts = s.iq.readyInsts ++ pushed ∧
    ∀ e ∈ pushed, e.1 = (s.iq.insts e.2).opClass ∧ s.iq.Live e.2

theorem Later.field {α : Type} (h : Later fx s s') (f : DynInst → α) (hf : ∀ inst, f inst.static = f inst) (j : Nat) :
    f (s'.iq.insts j) = f (s.iq.insts j) := by
  rw [← hf, h.static, hf]

theorem Later.live (h : Later fx s s') {j : Nat} (hj : s'.iq.Live j) : s.iq.Live j := by
  obtain ⟨tid, hj⟩ := hj
  exact ⟨tid, (h.instList tid).subset hj⟩

theorem Later.inserted (h : Later fx s s') (j : Nat) : s'.iq.Inserted j ↔ s.iq.Inserted j := by
  have heq : (s'.iq.insts j).dispatch = (s.iq.insts j).dispatch := h.field DynInst.dispatch (fun _ => rfl) j
  unfold Inserted
  rw [heq]

theorem Later.dests (h : Later fx s s') (j : Nat) :
    (s'.iq.insts j).renamedDestRegIdx = (s.iq.insts j).renamedDestRegIdx :=
  h.field DynInst.renamedDestRegIdx (fun _ => rfl) j

theorem Later.srcReg (h : Later fx s s') (j : Nat) : (s'.iq.insts j).srcReg = (s.iq.insts j).srcReg :=
  h.field DynInst.srcReg (fun _ => rfl) j

theorem Later.numSrcRegs (h : Later fx s s') (j : Nat) : (s'.iq.insts j).numSrcRegs = (s.iq.insts j).numSrcRegs :=
  h.field DynInst.numSrcRegs (fun _ => rfl) j

theorem Later.isReadySrcRegIdx (h : Later fx s s') (j : Nat) :
    (s'.iq.insts j).isReadySrcRegIdx = (s.iq.insts j).isReadySrcRegIdx :=
  h.field DynInst.isReadySrcRegIdx (fun _ => rfl) j

theorem Later.threadNumber (h : Later fx s s') (j : Nat) :
    (s'.iq.insts j).threadNumber = (s.iq.insts j).threadNumber :=
  h.field DynInst.threadNumber (fun _ => rfl) j

theorem Later.pending (h : Later fx s s') {r : Nat} (hp : s'.Pending r) : s.Pending r := by
  obtain ⟨j, hj, hw, hd⟩ := hp
  rw [h.dests] at hd
  exact ⟨j, h.live hj, fun hin => hw (h.subset hin), hd⟩

theorem Inv.later (h : s.Inv fx) (hs : Later fx s s') : s'.Inv fx := by
  constructor
  case sorted => exact fun tid => (h.sorted tid).sublist (hs.instList tid)
  case thread =>
    intro tid j hj
    obtain ⟨ht, hlt, hsq⟩ := h.thread tid j ((hs.instList tid).subset hj)
    rw [hs.threadNumber, hs.dispatched, hs.squashedInIQ j ⟨tid, hj⟩]
    exact ⟨ht, hlt, hsq⟩
  case waiter => exact fun j hj hin => hs.waiter j hj ((hs.inserted j).1 hin) (h.waiter j (hs.live hj) ((hs.inserted j).1 hin))
  case graph =>
    intro r j hj
    obtain ⟨hold, hl⟩ := hs.graph r j hj
    exact ⟨hl, (hs.inserted j).2 (h.graph r j hold).2⟩
  case nonSpec =>
    intro j hj
    obtain ⟨hold, hl, hrest⟩ := hs.nonSpec j hj
    rw [hs.inserted]
    exact ⟨hl, (h.nonSpec j hold).2.1, hrest⟩
  case producer =>
    intro j hj hin idx hidx hwaits
    have hl := hs.live hj
    rw [hs.inserted] at hin
    simp only [waits, hs.isReadySrcRegIdx, hs.srcReg, hs.numSrcRegs, hs.threadNumber, Bool.and_eq_true,
      Bool.not_eq_true'] at hwaits hidx ⊢
    have hboard : s.iq.regScoreboard ((s.iq.insts j).srcReg idx) = false := by
      by_contra hb
      rw [hs.board _ (Bool.not_eq_false _ ▸ hb)] at hwaits
      cases hwaits.2
    have hfixed : fx ((s.iq.insts j).srcReg idx) = false := by
      by_contra hf
      rw [(h.waiter j hl hin).fixed idx hidx (Bool.not_eq_false _ ▸ hf)] at hwaits
      cases hwaits.1
    obtain ⟨p, hp, hlt, hw, hd⟩ := h.producer j hl hin idx hidx (by rw [waits, hwaits.1, hboard]; rfl)
    obtain ⟨tid, hj⟩ := hj
    have ht := (h.thread tid j ((hs.instList tid).subset hj)).1
    rw [ht] at hp ⊢
    obtain ⟨hp', hw'⟩ := hs.producer tid j hj p hp hlt hw _ hd hfixed hwaits.2
    exact ⟨p, hp', hlt, hw', by rw [hs.dests]; exact hd⟩
  case notReady =>
    intro r hf hp
    rw [hs.notReady r hf hp]
    exact h.notReady r hf (hs.pending hp)
  case writer =>
    intro j hj r hd hf
    rw [hs.dests] at hd
    rw [hs.writer]
    exact h.writer j (hs.live hj) r hd hf
  case completed =>
    intro r j hf hw
    rw [hs.writer] at hw
    obtain ⟨hlt, hd, hboard⟩ := h.completed r j hf hw
    rw [hs.dispatched, hs.dests]
    refine ⟨hlt, hd, fun hin => ?_⟩
    by_cases hold : j ∈ s.woken
    · exact hs.board r (hboard hold)
    · exact ((hs.woken j hin).2 hold).2 r hd hf
  case flagged =>
    intro j hj hin idx hidx hflag hf hp
    rw [hs.numSrcRegs] at hidx
    rw [hs.isReadySrcRegIdx] at hflag
    rw [hs.srcReg] at hf hp
    exact h.flagged j (hs.live hj) ((hs.inserted j).1 hin) idx hidx hflag hf (hs.pending hp)
  case woken =>
    intro j hj
    obtain ⟨hissued, hnew⟩ := hs.woken j hj
    rw [hs.dispatched]
    refine ⟨?_, hissued⟩
    by_cases hold : j ∈ s.woken
    · exact (h.woken j hold).1
    · exact h.live_dispatched (hnew hold).1
  case atMost =>
    intro j hin hm
    have hm' : (s.iq.insts j).isMemRef = false := (hs.field DynInst.isMemRef (fun _ => rfl) j).symm.trans hm
    rw [hs.inserted] at hin
    by_cases hj : s'.iq.Live j
    · rw [((hs.waiter j hj hin (h.waiter j (hs.live hj) hin)).ready hm).2]
      split <;> omega
    · rw [hs.pushes j hin hj]
      exact h.atMost j hin hm'
  case queue =>
    intro e he
    have hop : (s'.iq.insts e.2).opClass = (s.iq.insts e.2).opClass := hs.field DynInst.opClass (fun _ => rfl) e.2
    obtain ⟨pushed, hqueue, hpushed⟩ := hs.queue
    rw [hqueue, List.mem_append] at he
    rw [hop, hs.dispatched]
    rcases he with he | he
    · exact h.queue e he
    · exact ⟨(hpushed e he).1, h.live_dispatched (hpushed e he).2⟩

/-! ## The calls that touch no dependency list -/

/-- An instruction in the graph has not issued, so that it has not completed. -/
theorem Inv.graph_notWoken (h : s.Inv fx) {r j : Nat} (hj : j ∈ s.iq.dependGraph r) :
    (s.iq.insts j).issued = false ∧ j ∉ s.woken := by
  obtain ⟨hl, hin⟩ := h.graph r j hj
  have hw := h.waiter j hl hin
  have hissued : (s.iq.insts j).issued = false := by
    by_contra hissued
    have hzero := hw.issued (Bool.not_eq_false _ ▸ hissued)
    have hpos := List.count_pos_iff.2 hj
    rw [hw.nodes r] at hpos
    have hle := waitingFor_le s.iq j r
    omega
  refine ⟨hissued, fun hin => ?_⟩
  have hissued' := (h.woken j hin).2 hl
  rw [hissued] at hissued'
  exact absurd hissued' nofun

theorem Inv.commit (h : s.Inv fx) {n tid : Nat} (hp : s.Permitted fx (.commit n tid)) :
    ∃ s', s.step fx (.commit n tid) = some s' ∧ s'.Inv fx := by
  refine ⟨_, rfl, h.later ?_⟩
  have hkept : ∀ tid', ∀ j ∈ s.iq.instList tid', j ∉ s.woken → j ∈ (s.iq.commit n tid).instList tid' := by
    intro tid' j hj hw
    simp only [InstructionQueue.commit, Function.update_apply]
    split
    next heq =>
      subst heq
      rw [← List.takeWhile_append_dropWhile (p := (· ≤ n)) (l := s.iq.instList tid'), List.mem_append] at hj
      refine hj.resolve_left fun htake => hw (hp j ((List.takeWhile_sublist _).subset htake) ?_)
      have htest := List.mem_takeWhile_imp htake
      exact of_decide_eq_true htest
    next => exact hj
  have hlive : ∀ j, s.iq.Live j → j ∉ s.woken → (s.iq.commit n tid).Live j := fun j ⟨tid', hj⟩ hw =>
    ⟨tid', hkept tid' j hj hw⟩
  constructor
  case static => exact fun j => rfl
  case instList =>
    intro tid'
    simp only [InstructionQueue.commit, Function.update_apply]
    split
    next heq => exact heq ▸ List.dropWhile_sublist _
    next => exact List.Sublist.refl _
  case squashedInIQ => exact fun j _ => rfl
  case waiter => exact fun j _ _ hw => hw.congr rfl (fun _ _ => rfl) (fun _ => rfl) rfl
  case graph => exact fun r j hj => ⟨hj, hlive j (h.graph r j hj).1 (h.graph_notWoken hj).2⟩
  case nonSpec =>
    intro j hj
    obtain ⟨hl, -, hissued, hcompleted, hw⟩ := h.nonSpec j hj
    exact ⟨hj, hlive j hl hw, hissued, hcompleted, hw⟩
  case producer => exact fun tid' j _ p hp' _ hw _ _ _ _ => ⟨hkept tid' p hp' hw, hw⟩
  case board => exact fun r hr => hr
  case notReady => exact fun r _ _ => rfl
  case subset => exact Finset.Subset.refl _
  case woken =>
    intro j hj
    refine ⟨fun ⟨tid', hin⟩ => (h.woken j hj).2 ?_, fun hnot => absurd hj hnot⟩
    simp only [InstructionQueue.commit, Function.update_apply] at hin
    split at hin
    · exact ⟨tid, (List.dropWhile_sublist _).subset hin⟩
    · exact ⟨tid', hin⟩
  case dispatched => rfl
  case writer => rfl
  case pushes => exact fun j _ _ => rfl
  case queue => exact ⟨[], (List.append_nil _).symm, nofun⟩

theorem Inv.modify (h : s.Inv fx) {f : DynInst → DynInst}
    (hstatic : (f (s.iq.insts i)).static = (s.iq.insts i).static)
    (hkeep : (f (s.iq.insts i)).readyRegs = (s.iq.insts i).readyRegs ∧
      (f (s.iq.insts i)).squashedInIQ = (s.iq.insts i).squashedInIQ)
    (hcan : (s.iq.insts i).isMemRef = false → (f (s.iq.insts i)).canIssue = (s.iq.insts i).canIssue)
    (hissued : s.iq.Inserted i → Waiter fx s.iq i → (f (s.iq.insts i)).issued = true → s.iq.waiting i = 0)
    (hspec : i ∈ s.iq.nonSpecInsts → (f (s.iq.insts i)).issued = false ∧ (f (s.iq.insts i)).completed = false)
    (hwoken : i ∈ s.woken → s.iq.Live i → (f (s.iq.insts i)).issued = true) :
    ({ s with iq := s.iq.modify i f } : System).Inv fx := by
  have hsame : ∀ j, (s.iq.modify i f).insts j = if j = i then f (s.iq.insts i) else s.iq.insts j := fun j =>
    Function.update_apply ..
  have hstatic' : ∀ j, ((s.iq.modify i f).insts j).static = (s.iq.insts j).static := by
    intro j
    rw [hsame]
    split
    next heq => exact heq ▸ hstatic
    next => rfl
  apply h.later
  constructor
  case static => exact hstatic'
  case instList => exact fun tid => List.Sublist.refl _
  case squashedInIQ =>
    intro j _
    rw [hsame]
    split
    next heq => exact heq ▸ hkeep.2
    next => rfl
  case waiter =>
    intro j _ hin hw
    by_cases heq : j = i
    · subst heq
      have hj : (s.iq.modify j f).insts j = f (s.iq.insts j) := (hsame j).trans (if_pos rfl)
      have hfield : ∀ {α : Type} (g : DynInst → α), (∀ inst, g inst.static = g inst) →
          g ((s.iq.modify j f).insts j) = g (s.iq.insts j) := fun g hg => by rw [← hg, hstatic', hg]
      have hnum := hfield DynInst.numSrcRegs fun _ => rfl
      have hsrc := hfield DynInst.srcReg fun _ => rfl
      have hflags := hfield DynInst.isReadySrcRegIdx fun _ => rfl
      have hwaits : (s.iq.modify j f).waits j = s.iq.waits j := by
        funext idx
        unfold waits
        rw [hflags, hsrc]
        rfl
      have hwaiting : (s.iq.modify j f).waiting j = s.iq.waiting j := by
        unfold waiting
        rw [hwaits, hnum]
      have hfor : ∀ r, (s.iq.modify j f).waitingFor j r = s.iq.waitingFor j r := fun r => by
        unfold waitingFor
        rw [hwaits, hnum, hsrc]
      refine ⟨fun r => (hw.nodes r).trans (hfor r).symm, ?_, ?_, fun hm => ?_, ?_⟩
      · rw [hwaiting, hnum, hj, hkeep.1]
        exact hw.regs
      · rw [hwaiting, hj]
        exact hissued hin hw
      · have hm' := (hfield DynInst.isMemRef fun _ => rfl).symm.trans hm
        rw [hwaiting, hj, hcan hm']
        exact hw.ready hm'
      · rw [hnum, hsrc, hflags]
        exact hw.fixed
    · exact hw.congr ((hsame j).trans (if_neg heq)) (fun _ _ => rfl) (fun _ => rfl) rfl
  case graph => exact fun r j hj => ⟨hj, (h.graph r j hj).1⟩
  case nonSpec =>
    intro j hj
    obtain ⟨hl, -, hissued, hcompleted, hw⟩ := h.nonSpec j hj
    refine ⟨hj, hl, ?_, ?_, hw⟩
    · rw [hsame]
      split
      next heq => exact (hspec (heq ▸ hj)).1
      next => exact hissued
    · rw [hsame]
      split
      next heq => exact (hspec (heq ▸ hj)).2
      next => exact hcompleted
  case producer => exact fun tid j _ p hp _ hw _ _ _ _ => ⟨hp, hw⟩
  case board => exact fun r hr => hr
  case notReady => exact fun r _ _ => rfl
  case subset => exact Finset.Subset.refl _
  case woken =>
    intro j hj
    refine ⟨fun hl => ?_, fun hnot => absurd hj hnot⟩
    rw [hsame]
    split
    next heq => exact hwoken (heq ▸ hj) (heq ▸ hl)
    next => exact (h.woken j hj).2 hl
  case dispatched => rfl
  case writer => rfl
  case pushes => exact fun j _ _ => rfl
  case queue => exact ⟨[], (List.append_nil _).symm, nofun⟩

theorem Inv.issue (h : s.Inv fx) (hp : s.Permitted fx (.issue i)) :
    ∃ s', s.step fx (.issue i) = some s' ∧ s'.Inv fx := by
  obtain ⟨-, hspec, hregs⟩ := hp
  refine ⟨_, rfl, h.modify rfl ⟨rfl, rfl⟩ (fun _ => rfl) (fun hin hw _ => ?_) (fun hin => absurd hin hspec)
    fun _ _ => rfl⟩
  have hsum := hw.regs
  have hall := hregs hin
  omega

theorem Inv.blockMemInst (h : s.Inv fx) (hp : s.Permitted fx (.blockMemInst i)) :
    ∃ s', s.step fx (.blockMemInst i) = some s' ∧ s'.Inv fx := by
  obtain ⟨-, hnotwoken, hmem⟩ := hp
  refine ⟨_, rfl, h.modify rfl ⟨rfl, rfl⟩ (fun hm => ?_) (fun _ _ hissued => absurd hissued Bool.false_ne_true)
    (fun hin => ⟨rfl, (h.nonSpec i hin).2.2.2.1⟩) fun hin => absurd hin hnotwoken⟩
  rw [hmem] at hm
  exact absurd hm nofun

theorem Inv.setStatus (h : s.Inv fx) {memOpDone completed squashed faulted : Bool}
    (hp : s.Permitted fx (.setStatus i memOpDone completed squashed faulted)) :
    ∃ s', s.step fx (.setStatus i memOpDone completed squashed faulted) = some s' ∧ s'.Inv fx := by
  refine ⟨_, rfl, h.modify rfl ⟨rfl, rfl⟩ (fun _ => rfl) (fun _ hw => hw.issued)
    (fun hin => ⟨(h.nonSpec i hin).2.2.1, ?_⟩) fun hin => (h.woken i hin).2⟩
  exact Bool.not_eq_true _ ▸ fun hc => hp.2 hc hin

end System

end Alpine.Cpu.Wake
