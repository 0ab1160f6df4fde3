import Alpine.Cpu.Tournament

/-!
# The bi-mode predictor

A taken and a not-taken table by the address and the global history, and a choice between them by the address.

* `BPHistory` — what the predictor saves of a branch: the global history before it, and the predictions.
* `biModeBP` — its functions; `train` is what `update` does to the counters.
-/

namespace Alpine.Cpu.Pred.BiMode

open Tournament (above shiftIn)

structure Params where
  instShiftAmt : Nat
  globalPredictorSize : Nat
  globalCtrBits : Nat
  choicePredictorSize : Nat
  choiceCtrBits : Nat
  /-- The constructor checks that the sizes are powers of two. -/
  globalPredictorSize_pow2 : ∃ b < 32, globalPredictorSize = 2 ^ b
  choicePredictorSize_pow2 : ∃ b < 32, choicePredictorSize = 2 ^ b

structure BPHistory where
  globalHistoryReg : Nat
  takenUsed : Bool
  takenPred : Bool
  notTakenPred : Bool
  finalPred : Bool

structure Counters where
  choiceCounters : Nat → SatCounter
  takenCounters : Nat → SatCounter
  notTakenCounters : Nat → SatCounter

structure State where
  ctrs : Counters
  globalHistoryReg : Nat

variable (q : Params)

def init : State :=
  ⟨⟨fun _ => .ofBits q.choiceCtrBits, fun _ => .ofBits q.globalCtrBits, fun _ => .ofBits q.globalCtrBits⟩, 0⟩

def historyRegisterMask : Nat := 2 ^ ceilLog2 q.globalPredictorSize - 1

def choiceHistoryIdx (branchAddr : Nat) : Nat := (branchAddr >>> q.instShiftAmt) &&& (q.choicePredictorSize - 1)

def globalHistoryIdx (branchAddr globalHistoryReg : Nat) : Nat :=
  ((branchAddr >>> q.instShiftAmt) ^^^ globalHistoryReg) &&& (q.globalPredictorSize - 1)

def updateGlobalHistReg (s : State) (taken : Bool) : State :=
  { s with globalHistoryReg := shiftIn s.globalHistoryReg taken &&& historyRegisterMask q }

def uncondBranch (s : State) (_pc : Nat) : State × BPHistory :=
  (updateGlobalHistReg q s true, ⟨s.globalHistoryReg, true, true, true, true⟩)

def squash (s : State) (history : BPHistory) : State := { s with globalHistoryReg := history.globalHistoryReg }

def lookup (s : State) (branchAddr : Nat) : State × BPHistory × Bool :=
  let idx := globalHistoryIdx q branchAddr s.globalHistoryReg
  let choicePrediction := above q.choiceCtrBits (s.ctrs.choiceCounters (choiceHistoryIdx q branchAddr))
  let takenGHBPrediction := above q.globalCtrBits (s.ctrs.takenCounters idx)
  let notTakenGHBPrediction := above q.globalCtrBits (s.ctrs.notTakenCounters idx)
  let finalPrediction := if choicePrediction then takenGHBPrediction else notTakenGHBPrediction
  (updateGlobalHistReg q s finalPrediction,
    ⟨s.globalHistoryReg, choicePrediction, takenGHBPrediction, notTakenGHBPrediction, finalPrediction⟩, finalPrediction)

def btbUpdate (s : State) : State :=
  { s with globalHistoryReg := s.globalHistoryReg &&& (historyRegisterMask q &&& notOne) }

/-- The counters at the commit of a branch. -/
def train (c : Counters) (branchAddr : Nat) (taken : Bool) (history : BPHistory) : Counters :=
  let choiceIdx := choiceHistoryIdx q branchAddr
  let idx := globalHistoryIdx q branchAddr history.globalHistoryReg
  { takenCounters :=
      if history.takenUsed then Function.update c.takenCounters idx ((c.takenCounters idx).train taken)
      else c.takenCounters
    notTakenCounters :=
      if history.takenUsed then c.notTakenCounters
      else Function.update c.notTakenCounters idx ((c.notTakenCounters idx).train taken)
    -- a final prediction that is right against the choice leaves the choice alone
    choiceCounters :=
      if history.finalPred = taken ∧ history.finalPred ≠ history.takenUsed then c.choiceCounters
      else Function.update c.choiceCounters choiceIdx ((c.choiceCounters choiceIdx).train taken) }

/-- The correction of a branch does not mask the register. -/
def update (s : State) (branchAddr : Nat) (taken : Bool) (history : BPHistory) (squashed : Bool) : State :=
  if squashed then { s with globalHistoryReg := shiftIn history.globalHistoryReg taken }
  else { s with ctrs := train q s.ctrs branchAddr taken history }

def biModeBP : DirPredictor State BPHistory where
  lookup := lookup q
  uncondBranch := uncondBranch q
  btbUpdate s _ _ := btbUpdate q s
  update := update q
  squash := squash
  getGHR _ history := history.globalHistoryReg

end Alpine.Cpu.Pred.BiMode
