import Mathlib

/-!
# Insertion, wake-up and squash in the instruction queue

An instruction that waits for registers is on the list of each of them in the dependency graph, once for each
source.  When the producer of a register completes, `wakeDependents` empties the list and counts a register as
ready in each instruction popped; the one that has all of them is put on its ready queue.

Instructions are numbered in program order, and `insts` is the heap of them.  An instruction has its flags and
its status bits, and the calls that change a status bit elsewhere in the CPU are `issue`, `blockMemInst` and
`setStatus`.  The functions return `none` where an assertion fails or the queue panics.  Left out are the
producer at the head of each list, which only the dump reads, the counts of free entries, the memory
dependence unit, to which memory references are passed on, and the order of the ready queues: `readyInsts` is
the list of all the pushes.
-/

namespace Alpine.Cpu.Wake

structure DynInst where
  threadNumber : Nat
  opClass : Nat
  isMemRef : Bool
  isLoad : Bool
  isStore : Bool
  isStoreConditional : Bool
  isNonSpeculative : Bool
  isMemBarrier : Bool
  isWriteBarrier : Bool
  renamedSrcRegIdx : List Nat
  renamedDestRegIdx : List Nat
  isReadySrcRegIdx : Nat → Bool
  readyRegs : Nat
  /-- The status bits. -/
  canIssue : Bool
  issued : Bool
  memOpDone : Bool
  completed : Bool
  squashed : Bool
  squashedInIQ : Bool
  /-- `getFault() != NoFault`. -/
  faulted : Bool

namespace DynInst

variable (inst : DynInst)

def numSrcRegs : Nat := inst.renamedSrcRegIdx.length

/-- The register of source `idx`. -/
def srcReg (idx : Nat) : Nat := inst.renamedSrcRegIdx.getD idx 0

def markSrcRegReady : DynInst :=
  { inst with
    readyRegs := inst.readyRegs + 1
    canIssue := inst.canIssue || inst.readyRegs + 1 = inst.numSrcRegs }

/-- `markSrcRegReady(src_idx)`. -/
def markSrcRegReadyIdx (idx : Nat) : DynInst :=
  { inst with isReadySrcRegIdx := Function.update inst.isReadySrcRegIdx idx true }.markSrcRegReady

/-! ## The kinds of instructions -/

/-- What `IEW::dispatchInsts` does with an instruction that is not a no-op. -/
inductive Dispatch where
  | insert
  | insertNonSpec
  | insertBarrier
deriving DecidableEq

def dispatch : Dispatch :=
  if inst.isLoad then if inst.isNonSpeculative then .insertNonSpec else .insert
  else if inst.isStore then
    if inst.isStoreConditional then .insertNonSpec
    else if inst.isNonSpeculative then .insertNonSpec else .insert
  else if inst.isMemBarrier || inst.isWriteBarrier then .insertBarrier
  else if inst.isNonSpeculative then .insertNonSpec else .insert

/-- The test of `doSquash`: the instruction is in the dependency graph. -/
def inDependGraph : Bool :=
  let is_acq_rel := inst.isMemBarrier && (inst.isLoad || (inst.isStore && !inst.isStoreConditional))
  is_acq_rel ||
    (!inst.isNonSpeculative && !inst.isStoreConditional && !inst.isMemBarrier && !inst.isWriteBarrier)

end DynInst

structure InstructionQueue where
  insts : Nat → DynInst
  instList : Nat → List Nat
  nonSpecInsts : Finset Nat
  /-- The instructions that wait for a register. -/
  dependGraph : Nat → List Nat
  regScoreboard : Nat → Bool
  /-- The instructions put on a ready queue, each with the op class of the queue. -/
  readyInsts : List (Nat × Nat)

namespace InstructionQueue

-- the registers of a fixed mapping, which the queue does not handle
variable (isFixedMapping : Nat → Bool)

def modify (s : InstructionQueue) (i : Nat) (f : DynInst → DynInst) : InstructionQueue :=
  { s with insts := Function.update s.insts i (f (s.insts i)) }

def setGraph (s : InstructionQueue) (r : Nat) (l : List Nat) : InstructionQueue :=
  { s with dependGraph := Function.update s.dependGraph r l }

/-- A memory reference is passed to the memory dependence unit instead. -/
def addIfReady (s : InstructionQueue) (i : Nat) : InstructionQueue :=
  if (s.insts i).canIssue && !(s.insts i).isMemRef then
    { s with readyInsts := s.readyInsts ++ [((s.insts i).opClass, i)] }
  else s

/-! ## Insertion -/

/-- One iteration of `addToDependents`. -/
def dependOn (i : Nat) (s : InstructionQueue) (idx : Nat) : InstructionQueue :=
  if (s.insts i).isReadySrcRegIdx idx then s
  else
    let src_reg := (s.insts i).srcReg idx
    if isFixedMapping src_reg then s
    else if !s.regScoreboard src_reg then s.setGraph src_reg (i :: s.dependGraph src_reg)
    else s.modify i (·.markSrcRegReadyIdx idx)

def addToDependents (s : InstructionQueue) (i : Nat) : InstructionQueue :=
  (List.range (s.insts i).numSrcRegs).foldl (dependOn isFixedMapping i) s

/-- One iteration of `addToProducers`, which panics if there are dependents. -/
def produce (s : InstructionQueue) (dest_reg : Nat) : Option InstructionQueue :=
  if isFixedMapping dest_reg then some s
  else if s.dependGraph dest_reg ≠ [] then none
  else some { s with regScoreboard := Function.update s.regScoreboard dest_reg false }

def addToProducers (s : InstructionQueue) (i : Nat) : Option InstructionQueue :=
  (s.insts i).renamedDestRegIdx.foldlM (produce isFixedMapping) s

/-- The new instruction at the end of the list of its thread. -/
def pushBack (s : InstructionQueue) (i : Nat) (inst : DynInst) : InstructionQueue :=
  { s with
    insts := Function.update s.insts i inst
    instList := Function.update s.instList inst.threadNumber (s.instList inst.threadNumber ++ [i]) }

def insert (s : InstructionQueue) (i : Nat) (inst : DynInst) : Option InstructionQueue :=
  (((s.pushBack i inst).addToDependents isFixedMapping i).addToProducers isFixedMapping i).map fun s =>
    if inst.isMemRef then s else s.addIfReady i

def insertNonSpec (s : InstructionQueue) (i : Nat) (inst : DynInst) : Option InstructionQueue :=
  { s with nonSpecInsts := Insert.insert i s.nonSpecInsts }.pushBack i inst |>.addToProducers isFixedMapping i

/-- `insertBarrier` only tells the memory dependence unit of the barrier, too. -/
def insertBarrier (s : InstructionQueue) (i : Nat) (inst : DynInst) : Option InstructionQueue :=
  s.insertNonSpec isFixedMapping i inst

/-! ## Wake-up -/

/-- A dependent is popped from the list of `r`. -/
def wakeOne (r : Nat) (s : InstructionQueue) (dep_inst : Nat) : InstructionQueue :=
  ((s.setGraph r (s.dependGraph r).tail).modify dep_inst (·.markSrcRegReady)).addIfReady dep_inst

def wakeReg (s : InstructionQueue) (dest_reg : Nat) : InstructionQueue :=
  if isFixedMapping dest_reg then s
  else
    let s := (s.dependGraph dest_reg).foldl (wakeOne dest_reg) s
    { s with regScoreboard := Function.update s.regScoreboard dest_reg true }

def wakeDependents (s : InstructionQueue) (i : Nat) : Option InstructionQueue :=
  if (s.insts i).squashed then none
  else some ((s.insts i).renamedDestRegIdx.foldl (wakeReg isFixedMapping) s)

def scheduleNonSpec (s : InstructionQueue) (i : Nat) : Option InstructionQueue :=
  if i ∈ s.nonSpecInsts then
    let s := s.modify i ({ · with canIssue := true })
    let s := if (s.insts i).isMemRef then s else s.addIfReady i
    some { s with nonSpecInsts := s.nonSpecInsts.erase i }
  else none

def commit (s : InstructionQueue) (n tid : Nat) : InstructionQueue :=
  { s with instList := Function.update s.instList tid ((s.instList tid).dropWhile (· ≤ n)) }

/-! ## Squash -/

/-- `DependencyGraph::remove`: the list must have the instruction, unless it is empty. -/
def remove (s : InstructionQueue) (r i : Nat) : Option InstructionQueue :=
  if s.dependGraph r = [] then some s
  else if i ∈ s.dependGraph r then some (s.setGraph r ((s.dependGraph r).erase i))
  else none

def removeSrc (i : Nat) (s : InstructionQueue) (idx : Nat) : Option InstructionQueue :=
  if !(s.insts i).isReadySrcRegIdx idx && !isFixedMapping ((s.insts i).srcReg idx) then
    s.remove ((s.insts i).srcReg idx) i
  else some s

/-- The instruction is taken out of the dependency graph or of `nonSpecInsts`. -/
def unlink (s : InstructionQueue) (i : Nat) : Option InstructionQueue :=
  let inst := s.insts i
  if inst.inDependGraph then (List.range inst.numSrcRegs).foldlM (removeSrc isFixedMapping i) s
  else if !inst.isStoreConditional || !inst.completed then
    if i ∈ s.nonSpecInsts then some { s with nonSpecInsts := s.nonSpecInsts.erase i }
    else if inst.faulted || inst.isMemRef then some s
    else none
  else some s

/-- No register that the instruction writes has dependents. -/
def noDependents (s : InstructionQueue) (i : Nat) : Prop :=
  ∀ r ∈ (s.insts i).renamedDestRegIdx, isFixedMapping r = false → s.dependGraph r = []

instance (s : InstructionQueue) (i : Nat) : Decidable (s.noDependents isFixedMapping i) :=
  inferInstanceAs (Decidable (∀ r ∈ (s.insts i).renamedDestRegIdx, isFixedMapping r = false → s.dependGraph r = []))

/-- The part of an iteration on an instruction that has not issued, or whose access is not done. -/
def unlinkSearched (s : InstructionQueue) (i : Nat) : Option InstructionQueue :=
  if !(s.insts i).issued || ((s.insts i).isMemRef && !(s.insts i).memOpDone) then
    (s.unlink isFixedMapping i).map fun s => s.modify i ({ · with squashedInIQ := true, issued := true })
  else some s

/-- One iteration of `doSquash`. -/
def squashInst (tid : Nat) (s : InstructionQueue) (i : Nat) : Option InstructionQueue :=
  if (s.insts i).threadNumber ≠ tid || (s.insts i).squashedInIQ then some s
  else
    (s.unlinkSearched isFixedMapping i).bind fun s =>
      if s.noDependents isFixedMapping i then
        some { s with instList := Function.update s.instList tid ((s.instList tid).erase i) }
      else none

/-- From the youngest instruction of the thread back to the first that is not younger than `n`. -/
def doSquash (s : InstructionQueue) (n tid : Nat) : Option InstructionQueue :=
  ((s.instList tid).reverse.takeWhile (· > n)).foldlM (squashInst isFixedMapping tid) s

end InstructionQueue

end Alpine.Cpu.Wake
