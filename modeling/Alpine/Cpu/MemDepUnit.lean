import Mathlib.Data.Finset.Basic
import Mathlib.Logic.Function.Basic

/-!
# The memory dependence unit

The unit of one thread holds the memory references and barriers of the instruction queue in program
order (`instList`), with an entry for each (`memDepHash`).  An instruction that depends on a barrier or
on a store that the predictor names is put on the list of the producer's dependents; it is given to
`InstructionQueue::addReadyMemInst` when its registers are ready and its producer has woken it.

Entries are shared pointers, and the lists of dependents keep them alive after their instruction has left
the hash.  They are indexed here by sequence number in `entries`, and `memDepHash` is the set of numbers
in the hash.  The functions return the new state and the instructions given to `addReadyMemInst`, in the
order of the calls, or `none` where an assertion fails.  The predictor is a parameter, as in the source.
-/

namespace Alpine.Cpu.MemDep

/-- What the unit reads of an instruction. -/
structure DynInst where
  seqNum : Nat
  instAddr : Nat
  isLoad : Bool
  isStore : Bool
  isMemBarrier : Bool
  isWriteBarrier : Bool
deriving DecidableEq

/-- The memory dependence predictor. -/
class MemDepPred (P : Type) where
  /-- The store that an instruction depends on, 0 if there is none. -/
  checkInst : P → Nat → Nat × P
  insertStore : P → Nat → Nat → P
  issued : P → Nat → Nat → Bool → P
  violation : P → Nat → Nat → P
  squash : P → Nat → P

structure MemDepEntry where
  inst : DynInst
  dependInsts : List Nat
  regsReady : Bool
  memDepReady : Bool
  squashed : Bool

def MemDepEntry.new (inst : DynInst) : MemDepEntry := ⟨inst, [], false, false, false⟩

structure MemDepUnit (P : Type) where
  memDepHash : Finset Nat
  entries : Nat → Option MemDepEntry
  instList : List DynInst
  instsToReplay : List DynInst
  depPred : P
  loadBarrier : Bool
  loadBarrierSN : Nat
  storeBarrier : Bool
  storeBarrierSN : Nat
  /-- The instructions whose `CanIssue` bit is set. -/
  canIssue : Nat → Bool

namespace MemDepUnit

variable {P : Type}

def new (depPred : P) : MemDepUnit P where
  memDepHash := ∅
  entries _ := none
  instList := []
  instsToReplay := []
  depPred := depPred
  loadBarrier := false
  loadBarrierSN := 0
  storeBarrier := false
  storeBarrierSN := 0
  canIssue _ := false

/-- A write through the pointer to an entry. -/
def modify (s : MemDepUnit P) (n : Nat) (f : MemDepEntry → MemDepEntry) : MemDepUnit P :=
  { s with entries := Function.update s.entries n ((s.entries n).map f) }

def findInHash (s : MemDepUnit P) (inst : DynInst) : Option MemDepEntry :=
  if inst.seqNum ∈ s.memDepHash then s.entries inst.seqNum else none

def moveToReady (s : MemDepUnit P) (n : Nat) : Option (MemDepUnit P × List DynInst) :=
  (s.entries n).bind fun e => if e.squashed then none else some (s, [e.inst])

/-! ## Insertion -/

/-- A new entry, in the hash and at the end of the list. -/
def addEntry (s : MemDepUnit P) (inst : DynInst) : MemDepUnit P :=
  { s with
    memDepHash := insert inst.seqNum s.memDepHash
    entries := Function.update s.entries inst.seqNum (some (.new inst))
    instList := s.instList ++ [inst] }

/-- The instruction that a memory reference has to wait for: the barrier in flight, or else the store that
the predictor names. -/
def producingStore [MemDepPred P] (s : MemDepUnit P) (inst : DynInst) : Nat × P :=
  if inst.isLoad && s.loadBarrier then (s.loadBarrierSN, s.depPred)
  else if inst.isStore && s.storeBarrier then (s.storeBarrierSN, s.depPred)
  else MemDepPred.checkInst s.depPred inst.instAddr

/-- No producer is in the hash: the instruction can issue as soon as its registers are ready. -/
def noDependency (s : MemDepUnit P) (inst : DynInst) : Option (MemDepUnit P × List DynInst) :=
  let s := s.modify inst.seqNum ({ · with memDepReady := true })
  if s.canIssue inst.seqNum then
    (s.modify inst.seqNum ({ · with regsReady := true })).moveToReady inst.seqNum
  else some (s, [])

/-- The instruction becomes a dependent of its producer. -/
def addDependent (s : MemDepUnit P) (store : Nat) (inst : DynInst) : MemDepUnit P :=
  let s := s.modify inst.seqNum fun e => { e with regsReady := s.canIssue inst.seqNum || e.regsReady }
  let s := { s with canIssue := Function.update s.canIssue inst.seqNum false }
  s.modify store fun e => { e with dependInsts := e.dependInsts ++ [inst.seqNum] }

/-- The end of both insertions, which tells the predictor of a store; anything but a load or a store is a
panic. -/
def tellPred [MemDepPred P] (s : MemDepUnit P) (inst : DynInst) : Option (MemDepUnit P) :=
  if inst.isStore then
    some { s with depPred := MemDepPred.insertStore s.depPred inst.instAddr inst.seqNum }
  else if inst.isLoad then some s
  else none

def insert [MemDepPred P] (s : MemDepUnit P) (inst : DynInst) : Option (MemDepUnit P × List DynInst) :=
  let s := s.addEntry inst
  let (store, depPred) := s.producingStore inst
  let s := { s with depPred := depPred }
  (if store ≠ 0 ∧ store ∈ s.memDepHash then some (s.addDependent store inst, [])
    else s.noDependency inst).bind fun r => (r.1.tellPred inst).map fun s => (s, r.2)

def insertNonSpec [MemDepPred P] (s : MemDepUnit P) (inst : DynInst) : Option (MemDepUnit P × List DynInst) :=
  ((s.addEntry inst).tellPred inst).map fun s => (s, [])

/-- Memory barriers block loads and stores, write barriers only stores. -/
def raiseBarrier (s : MemDepUnit P) (inst : DynInst) : MemDepUnit P :=
  if inst.isMemBarrier then
    { s with
      loadBarrier := true, loadBarrierSN := inst.seqNum
      storeBarrier := true, storeBarrierSN := inst.seqNum }
  else if inst.isWriteBarrier then { s with storeBarrier := true, storeBarrierSN := inst.seqNum }
  else s

def insertBarrier (s : MemDepUnit P) (inst : DynInst) : MemDepUnit P :=
  (s.raiseBarrier inst).addEntry inst

/-! ## Readiness and replay -/

def regsReady (s : MemDepUnit P) (inst : DynInst) : Option (MemDepUnit P × List DynInst) :=
  (s.findInHash inst).bind fun e =>
    let s := s.modify inst.seqNum ({ · with regsReady := true })
    if e.memDepReady then s.moveToReady inst.seqNum else some (s, [])

def nonSpecInstReady (s : MemDepUnit P) (inst : DynInst) : Option (MemDepUnit P × List DynInst) :=
  (s.findInHash inst).bind fun _ => s.moveToReady inst.seqNum

def reschedule (s : MemDepUnit P) (inst : DynInst) : MemDepUnit P :=
  { s with instsToReplay := s.instsToReplay ++ [inst] }

/-- The loop of `replay`, over the list of instructions to replay. -/
def replayLoop : List DynInst → MemDepUnit P → Option (MemDepUnit P × List DynInst)
  | [], s => some (s, [])
  | inst :: insts, s =>
    (s.findInHash inst).bind fun _ => (s.moveToReady inst.seqNum).bind fun r =>
      (replayLoop insts { r.1 with instsToReplay := insts }).map fun r' => (r'.1, r.2 ++ r'.2)

def replay (s : MemDepUnit P) : Option (MemDepUnit P × List DynInst) :=
  replayLoop s.instsToReplay s

/-! ## Completion -/

/-- One turn of the loop of `wakeDependents`. -/
def wake (s : MemDepUnit P) (woken : Nat) : Option (MemDepUnit P × List DynInst) :=
  (s.entries woken).bind fun e =>
    if e.regsReady && !e.squashed then s.moveToReady woken
    else some (s.modify woken ({ · with memDepReady := true }), [])

def wakeLoop : List Nat → MemDepUnit P → Option (MemDepUnit P × List DynInst)
  | [], s => some (s, [])
  | woken :: rest, s =>
    (s.wake woken).bind fun r => (wakeLoop rest r.1).map fun r' => (r'.1, r.2 ++ r'.2)

/-- Only stores and barriers have dependents. -/
def wakeDependents (s : MemDepUnit P) (inst : DynInst) : Option (MemDepUnit P × List DynInst) :=
  if !inst.isStore && !inst.isMemBarrier && !inst.isWriteBarrier then some (s, [])
  else
    (s.findInHash inst).bind fun e => (wakeLoop e.dependInsts s).map fun r =>
      (r.1.modify inst.seqNum ({ · with dependInsts := [] }), r.2)

def completed (s : MemDepUnit P) (inst : DynInst) : Option (MemDepUnit P) :=
  if inst.seqNum ∈ s.memDepHash then
    some { s with
      instList := s.instList.filter (·.seqNum ≠ inst.seqNum)
      memDepHash := s.memDepHash.erase inst.seqNum }
  else none

/-- The flags that a completed barrier takes down, if it is the last one that raised them. -/
def lowerBarrier (s : MemDepUnit P) (inst : DynInst) : MemDepUnit P :=
  if inst.isMemBarrier then
    { s with
      loadBarrier := s.loadBarrier && s.loadBarrierSN != inst.seqNum
      storeBarrier := s.storeBarrier && s.storeBarrierSN != inst.seqNum }
  else if inst.isWriteBarrier then
    { s with storeBarrier := s.storeBarrier && s.storeBarrierSN != inst.seqNum }
  else s

def completeBarrier (s : MemDepUnit P) (inst : DynInst) : Option (MemDepUnit P × List DynInst) :=
  (s.wakeDependents inst).bind fun r => (r.1.completed inst).map fun s => (s.lowerBarrier inst, r.2)

/-! ## Squash -/

/-- One turn of the loop of `squash`, for the last instruction of the list. -/
def squashInst (s : MemDepUnit P) (inst : DynInst) : Option (MemDepUnit P) :=
  if inst.seqNum ∈ s.memDepHash then
    some { s.modify inst.seqNum ({ · with squashed := true }) with
      loadBarrier := s.loadBarrier && inst.seqNum != s.loadBarrierSN
      storeBarrier := s.storeBarrier && inst.seqNum != s.storeBarrierSN
      memDepHash := s.memDepHash.erase inst.seqNum
      instList := s.instList.dropLast }
  else none

/-- The loop of `squash`, over the list from its end. -/
def squashLoop (squashedNum : Nat) : List DynInst → MemDepUnit P → Option (MemDepUnit P)
  | [], s => some s
  | inst :: insts, s =>
    if squashedNum < inst.seqNum then (s.squashInst inst).bind (squashLoop squashedNum insts)
    else some s

def squash [MemDepPred P] (s : MemDepUnit P) (squashedNum : Nat) : Option (MemDepUnit P) :=
  (squashLoop squashedNum s.instList.reverse
    { s with instsToReplay := s.instsToReplay.filter (·.seqNum ≤ squashedNum) }).map fun s =>
      { s with depPred := MemDepPred.squash s.depPred squashedNum }

/-! ## What only the predictor sees -/

def violation [MemDepPred P] (s : MemDepUnit P) (store load : DynInst) : MemDepUnit P :=
  { s with depPred := MemDepPred.violation s.depPred store.instAddr load.instAddr }

def issue [MemDepPred P] (s : MemDepUnit P) (inst : DynInst) : MemDepUnit P :=
  { s with depPred := MemDepPred.issued s.depPred inst.instAddr inst.seqNum inst.isStore }

/-- The queue sets the `CanIssue` bit of an instruction, or clears it. -/
def setCanIssue (s : MemDepUnit P) (n : Nat) (b : Bool) : MemDepUnit P :=
  { s with canIssue := Function.update s.canIssue n b }

/-! ## The entries after a write -/

@[simp] theorem modify_entries_self (s : MemDepUnit P) (n : Nat) (f : MemDepEntry → MemDepEntry) :
    (s.modify n f).entries n = (s.entries n).map f := by
  simp [modify]

theorem modify_entries_of_ne (s : MemDepUnit P) {n m : Nat} (f : MemDepEntry → MemDepEntry) (h : m ≠ n) :
    (s.modify n f).entries m = s.entries m := by
  simp [modify, h]

theorem modify_entries {s : MemDepUnit P} {n m : Nat} {f : MemDepEntry → MemDepEntry} {e : MemDepEntry}
    (h : (s.modify n f).entries m = some e) : ∃ e0, s.entries m = some e0 ∧ e = if m = n then f e0 else e0 := by
  by_cases hm : m = n
  · subst hm
    rw [modify_entries_self, Option.map_eq_some_iff] at h
    obtain ⟨e0, he0, rfl⟩ := h
    exact ⟨e0, he0, by simp⟩
  · rw [modify_entries_of_ne s f hm] at h
    exact ⟨e, h, by simp [hm]⟩

theorem moveToReady_eq {s : MemDepUnit P} {n : Nat} {e : MemDepEntry} (he : s.entries n = some e)
    (hs : e.squashed = false) : s.moveToReady n = some (s, [e.inst]) := by
  simp [moveToReady, he, hs]

end MemDepUnit

end Alpine.Cpu.MemDep
