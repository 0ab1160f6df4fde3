import Alpine.Cpu.InstQueue
import Alpine.Lib.Run

/-!
# The calls of the instruction queue and what holds between them

`System` is the queue with the instructions that have been woken up from, those that have been dispatched, and
the last instruction that writes each register.

* `Permitted` — what the rest of the CPU promises: a new instruction comes with the flags that renaming gave its
  sources, and its destination registers are not in use; instructions complete once, after they have issued,
  and commit after that.
* `Covered` — `doSquash` takes each squashed instruction for what the dispatch did with it (`Undone`); `NoneLeft`
  — what the squash is for.
* `Wakes` — what the queue is for; `Inv` — the invariant, with `Waiter` for each instruction in the dependency
  graph.
-/

namespace Alpine.Cpu.Wake

namespace InstructionQueue

variable (s : InstructionQueue)

/-- Source `idx` of the instruction has not been produced. -/
def waits (i idx : Nat) : Bool :=
  !(s.insts i).isReadySrcRegIdx idx && !s.regScoreboard ((s.insts i).srcReg idx)

/-- How many of its sources have not. -/
def waiting (i : Nat) : Nat := (List.range (s.insts i).numSrcRegs).countP (s.waits i)

def waitingFor (i r : Nat) : Nat :=
  (List.range (s.insts i).numSrcRegs).countP fun idx => s.waits i idx && (s.insts i).srcReg idx == r

/-- How often the instruction has been put on a ready queue. -/
def pushes (i : Nat) : Nat := s.readyInsts.countP (·.2 == i)

/-- The instruction is in a list. -/
def Live (i : Nat) : Prop := ∃ tid, i ∈ s.instList tid

/-- It was inserted by `insert`. -/
def Inserted (i : Nat) : Prop := (s.insts i).dispatch = .insert

end InstructionQueue

structure System where
  iq : InstructionQueue
  woken : Finset Nat
  dispatched : Finset Nat
  writer : Nat → Option Nat

inductive Call where
  | dispatch (i : Nat) (inst : DynInst)
  | wakeDependents (i : Nat)
  | scheduleNonSpec (i : Nat)
  | commit (n tid : Nat)
  | squash (n tid : Nat)
  | issue (i : Nat)
  | blockMemInst (i : Nat)
  | setStatus (i : Nat) (memOpDone completed squashed faulted : Bool)

namespace System

variable (fx : Nat → Bool)

def new (insts : Nat → DynInst) : System where
  iq := ⟨insts, fun _ => [], ∅, fun _ => [], fun _ => false, []⟩
  woken := ∅
  dispatched := ∅
  writer _ := none

def step (s : System) : Call → Option System
  | .dispatch i inst =>
    (match inst.dispatch with
      | .insert => s.iq.insert fx i inst
      | .insertNonSpec => s.iq.insertNonSpec fx i inst
      | .insertBarrier => s.iq.insertBarrier fx i inst).map fun iq =>
    { s with
      iq := iq
      dispatched := insert i s.dispatched
      writer := fun r => if r ∈ inst.renamedDestRegIdx then some i else s.writer r }
  | .wakeDependents i => (s.iq.wakeDependents fx i).map fun iq => { s with iq := iq, woken := insert i s.woken }
  | .scheduleNonSpec i => (s.iq.scheduleNonSpec i).map fun iq => { s with iq := iq }
  | .commit n tid => some { s with iq := s.iq.commit n tid }
  | .squash n tid => (s.iq.doSquash fx n tid).map fun iq => { s with iq := iq }
  | .issue i => some { s with iq := s.iq.modify i ({ · with issued := true }) }
  | .blockMemInst i => some { s with iq := s.iq.modify i ({ · with issued := false, canIssue := false }) }
  | .setStatus i memOpDone completed squashed faulted => some { s with iq := s.iq.modify i fun inst =>
    { inst with memOpDone := memOpDone, completed := completed, squashed := squashed, faulted := faulted } }

/-- An instruction that is in a list and has not completed writes the register. -/
def Pending (s : System) (r : Nat) : Prop :=
  ∃ j, s.iq.Live j ∧ j ∉ s.woken ∧ r ∈ (s.iq.insts j).renamedDestRegIdx

/-- An instruction as it comes from renaming: its number is new, and follows those of its thread in the queue; a source is ready if it had been produced, as those of a fixed
mapping are; otherwise its last writer is in the list of the thread or has completed since.  A register is
given to it after the instructions that read or write it before have committed. -/
structure Renamed (s : System) (i : Nat) (inst : DynInst) : Prop where
  fresh : i ∉ s.dispatched
  order : ∀ j ∈ s.iq.instList inst.threadNumber, j < i
  status : inst.issued = false ∧ inst.completed = false ∧ inst.squashedInIQ = false
  readyRegs : inst.readyRegs = (List.range inst.numSrcRegs).countP inst.isReadySrcRegIdx
  canIssue : inst.canIssue = true ↔ inst.readyRegs = inst.numSrcRegs
  fixed : ∀ idx < inst.numSrcRegs, fx (inst.srcReg idx) = true → inst.isReadySrcRegIdx idx = true
  ready : ∀ idx < inst.numSrcRegs, inst.isReadySrcRegIdx idx = true → fx (inst.srcReg idx) = false →
    ¬ s.Pending (inst.srcReg idx)
  notReady : ∀ idx < inst.numSrcRegs, inst.isReadySrcRegIdx idx = false → ∃ j, s.writer (inst.srcReg idx) = some j ∧
    (j ∈ s.woken ∨ j ∈ s.iq.instList inst.threadNumber)
  dests : ∀ r ∈ inst.renamedDestRegIdx, fx r = false → r ∉ inst.renamedSrcRegIdx ∧ ∀ j, s.iq.Live j →
    r ∉ (s.iq.insts j).renamedSrcRegIdx ∧ r ∉ (s.iq.insts j).renamedDestRegIdx

def Permitted (s : System) : Call → Prop
  | .dispatch i inst => s.Renamed fx i inst
  | .wakeDependents i =>
    s.iq.Live i ∧ i ∉ s.woken ∧ (s.iq.insts i).issued = true ∧ (s.iq.insts i).squashed = false
  | .scheduleNonSpec i => i ∈ s.iq.nonSpecInsts
  | .commit n tid => ∀ i ∈ s.iq.instList tid, i ≤ n → i ∈ s.woken
  | .squash _ _ => True
  | .issue i => s.iq.Live i ∧ i ∉ s.iq.nonSpecInsts ∧
      (s.iq.Inserted i → (s.iq.insts i).readyRegs = (s.iq.insts i).numSrcRegs)
  | .blockMemInst i => s.iq.Live i ∧ i ∉ s.woken ∧ (s.iq.insts i).isMemRef = true
  | .setStatus i _ completed _ _ => s.iq.Live i ∧ (completed = true → i ∉ s.iq.nonSpecInsts)

/-- `doSquash` looks for the instruction where its insertion left it. -/
def searched (inst : DynInst) : Prop := inst.issued = false ∨ (inst.isMemRef = true ∧ inst.memOpDone = false)

/-- What the insertion did with the instruction is undone by `doSquash`, which tests its flags in another way:
one that is in the graph is looked for there, one that is in `nonSpecInsts` is not looked for in the graph, and
one that is in neither may be so.  The younger ones in the list of the thread are squashed before. -/
structure Undone (q : InstructionQueue) (tid i : Nat) : Prop where
  graph : (q.insts i).inDependGraph = false → ∀ r, i ∉ q.dependGraph r
  nonSpec : i ∈ q.nonSpecInsts → (q.insts i).inDependGraph = false
  lists : ¬ q.Inserted i → (q.insts i).inDependGraph = true → searched (q.insts i) →
    ∀ idx < (q.insts i).numSrcRegs, (q.insts i).isReadySrcRegIdx idx = false → fx ((q.insts i).srcReg idx) = false →
      ∀ j ∈ q.dependGraph ((q.insts i).srcReg idx), j ∈ q.instList tid ∧ i < j
  found : (q.insts i).inDependGraph = false → (q.insts i).issued = false →
    i ∈ q.nonSpecInsts ∨ (q.insts i).faulted = true ∨ (q.insts i).isMemRef = true ∨
      ((q.insts i).isStoreConditional = true ∧ (q.insts i).completed = true)

def Covered (s : System) : Call → Prop
  | .squash n tid => ∀ i ∈ s.iq.instList tid, n < i → Undone fx s.iq tid i
  | _ => True

/-- No squashed instruction is left in the dependency graph or in `nonSpecInsts`. -/
def NoneLeft (s : System) (c : Call) (s' : System) : Prop :=
  match c with
  | .squash n tid => ∀ i ∈ s.iq.instList tid, n < i → (∀ r, i ∉ s'.iq.dependGraph r) ∧ i ∉ s'.iq.nonSpecInsts
  | _ => True

/-- All sources of the instruction have been produced. -/
def Produced (s : System) (i : Nat) : Prop :=
  ∀ r ∈ (s.iq.insts i).renamedSrcRegIdx, fx r = false → ¬ s.Pending r

open Classical in
/-- No lost and no early wake-up. -/
structure Wakes (s : System) : Prop where
  once : ∀ i, s.iq.Live i → s.iq.Inserted i → (s.iq.insts i).isMemRef = false →
    s.iq.pushes i = if s.Produced fx i then 1 else 0
  atMost : ∀ i, s.iq.Inserted i → (s.iq.insts i).isMemRef = false → s.iq.pushes i ≤ 1
  opClass : ∀ e ∈ s.iq.readyInsts, e.1 = (s.iq.insts e.2).opClass
  dependGraph : ∀ r, ∀ i ∈ s.iq.dependGraph r, s.iq.Live i
  nonSpecInsts : ∀ i ∈ s.iq.nonSpecInsts, s.iq.Live i

/-- An instruction in the dependency graph. -/
structure Waiter (q : InstructionQueue) (i : Nat) : Prop where
  nodes : ∀ r, (q.dependGraph r).count i = q.waitingFor i r
  regs : (q.insts i).readyRegs + q.waiting i = (q.insts i).numSrcRegs
  issued : (q.insts i).issued = true → q.waiting i = 0
  ready : (q.insts i).isMemRef = false →
    ((q.insts i).canIssue = true ↔ q.waiting i = 0) ∧ q.pushes i = if q.waiting i = 0 then 1 else 0
  fixed : ∀ idx < (q.insts i).numSrcRegs, fx ((q.insts i).srcReg idx) = true → (q.insts i).isReadySrcRegIdx idx = true

structure Inv (s : System) : Prop where
  sorted : ∀ tid, (s.iq.instList tid).Pairwise (· < ·)
  thread : ∀ tid, ∀ i ∈ s.iq.instList tid,
    (s.iq.insts i).threadNumber = tid ∧ i ∈ s.dispatched ∧ (s.iq.insts i).squashedInIQ = false
  waiter : ∀ i, s.iq.Live i → s.iq.Inserted i → Waiter fx s.iq i
  graph : ∀ r, ∀ i ∈ s.iq.dependGraph r, s.iq.Live i ∧ s.iq.Inserted i
  nonSpec : ∀ i ∈ s.iq.nonSpecInsts, s.iq.Live i ∧ ¬ s.iq.Inserted i ∧ (s.iq.insts i).issued = false ∧
    (s.iq.insts i).completed = false ∧ i ∉ s.woken
  producer : ∀ i, s.iq.Live i → s.iq.Inserted i → ∀ idx < (s.iq.insts i).numSrcRegs, s.iq.waits i idx = true →
    ∃ j ∈ s.iq.instList (s.iq.insts i).threadNumber, j < i ∧ j ∉ s.woken ∧
      (s.iq.insts i).srcReg idx ∈ (s.iq.insts j).renamedDestRegIdx
  notReady : ∀ r, fx r = false → s.Pending r → s.iq.regScoreboard r = false
  writer : ∀ j, s.iq.Live j → ∀ r ∈ (s.iq.insts j).renamedDestRegIdx, fx r = false → s.writer r = some j
  completed : ∀ r j, fx r = false → s.writer r = some j → j ∈ s.dispatched ∧ r ∈ (s.iq.insts j).renamedDestRegIdx ∧
    (j ∈ s.woken → s.iq.regScoreboard r = true)
  flagged : ∀ i, s.iq.Live i → s.iq.Inserted i → ∀ idx < (s.iq.insts i).numSrcRegs,
    (s.iq.insts i).isReadySrcRegIdx idx = true → fx ((s.iq.insts i).srcReg idx) = false →
      ¬ s.Pending ((s.iq.insts i).srcReg idx)
  woken : ∀ i ∈ s.woken, i ∈ s.dispatched ∧ (s.iq.Live i → (s.iq.insts i).issued = true)
  atMost : ∀ i, s.iq.Inserted i → (s.iq.insts i).isMemRef = false → s.iq.pushes i ≤ 1
  queue : ∀ e ∈ s.iq.readyInsts, e.1 = (s.iq.insts e.2).opClass ∧ e.2 ∈ s.dispatched

end System

end Alpine.Cpu.Wake
