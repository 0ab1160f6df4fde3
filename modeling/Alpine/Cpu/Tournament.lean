import Alpine.Cpu.LocalBP

/-!
# The tournament predictor

A local predictor by the history of the branch, a global one by the history of all branches, and a choice between them.

* `BPHistory` — what the predictor saves of a branch: the two histories before it, and the predictions.
* `tournamentBP` — its functions; `train` is what `update` does to the counters.
* `masked` — a local history, as far as the predictor uses it.
-/

namespace Alpine.Cpu.Pred

/-- `ceilLog2`. -/
def ceilLog2 (n : Nat) : Nat := if n = 1 then 0 else Nat.log2 (n - 1) + 1

/-- The mask that clears the last bit, `~ULL(1)`. -/
def notOne : Nat := 2 ^ 64 - 2

namespace Tournament

structure Params where
  instShiftAmt : Nat
  localPredictorSize : Nat
  localCtrBits : Nat
  localHistoryTableSize : Nat
  globalPredictorSize : Nat
  globalCtrBits : Nat
  choicePredictorSize : Nat
  choiceCtrBits : Nat
  /-- The constructor checks that the sizes are powers of two. -/
  localPredictorSize_pow2 : ∃ b < 32, localPredictorSize = 2 ^ b
  localHistoryTableSize_pow2 : ∃ b < 32, localHistoryTableSize = 2 ^ b
  globalPredictorSize_pow2 : ∃ b < 32, globalPredictorSize = 2 ^ b
  choicePredictorSize_pow2 : ∃ b < 32, choicePredictorSize = 2 ^ b

/-- `-1` as an `unsigned`. -/
def invalidPredictorIndex : Nat := 2 ^ 32 - 1

structure BPHistory where
  globalHistory : Nat
  localHistoryIdx : Nat
  localHistory : Nat
  localPredTaken : Bool
  globalPredTaken : Bool
  globalUsed : Bool

structure Counters where
  localCtrs : Nat → SatCounter
  globalCtrs : Nat → SatCounter
  choiceCtrs : Nat → SatCounter

structure State where
  ctrs : Counters
  localHistoryTable : Nat → Nat
  globalHistory : Nat

variable (q : Params)

def init : State :=
  ⟨⟨fun _ => .ofBits q.localCtrBits, fun _ => .ofBits q.globalCtrBits, fun _ => .ofBits q.choiceCtrBits⟩, fun _ => 0, 0⟩

def localPredictorMask : Nat := 2 ^ ceilLog2 q.localPredictorSize - 1

def globalHistoryBits : Nat := max (ceilLog2 q.globalPredictorSize) (ceilLog2 q.choicePredictorSize)

def historyRegisterMask : Nat := 2 ^ globalHistoryBits q - 1

def globalHistoryMask : Nat := q.globalPredictorSize - 1

def choiceHistoryMask : Nat := q.choicePredictorSize - 1

/-- A counter above the threshold of its width predicts taken. -/
def above (bits : Nat) (c : SatCounter) : Bool := c.counter > 2 ^ (bits - 1) - 1

def calcLocHistIdx (branch_addr : Nat) : Nat := (branch_addr >>> q.instShiftAmt) &&& (q.localHistoryTableSize - 1)

/-- `(history << 1) | taken` on 32 bits. -/
def shiftIn (history : Nat) (taken : Bool) : Nat := ((history <<< 1) ||| taken.toNat) % 2 ^ 32

/-- `updateGlobalHistTaken` and `updateGlobalHistNotTaken`. -/
def updateGlobalHist (s : State) (taken : Bool) : State :=
  { s with globalHistory := shiftIn s.globalHistory taken &&& historyRegisterMask q }

/-- `updateLocalHistTaken` and `updateLocalHistNotTaken`. -/
def updateLocalHist (s : State) (local_history_idx : Nat) (taken : Bool) : State :=
  { s with localHistoryTable :=
      Function.update s.localHistoryTable local_history_idx (shiftIn (s.localHistoryTable local_history_idx) taken) }

def btbUpdate (s : State) (branch_addr : Nat) : State :=
  let local_history_idx := calcLocHistIdx q branch_addr
  { s with
    globalHistory := s.globalHistory &&& (historyRegisterMask q &&& notOne)
    localHistoryTable := Function.update s.localHistoryTable local_history_idx
      (s.localHistoryTable local_history_idx &&& (localPredictorMask q &&& notOne)) }

def lookup (s : State) (branch_addr : Nat) : State × BPHistory × Bool :=
  let local_history_idx := calcLocHistIdx q branch_addr
  let local_predictor_idx := s.localHistoryTable local_history_idx &&& localPredictorMask q
  let local_prediction := above q.localCtrBits (s.ctrs.localCtrs local_predictor_idx)
  let global_prediction := above q.globalCtrBits (s.ctrs.globalCtrs (s.globalHistory &&& globalHistoryMask q))
  let choice_prediction := above q.choiceCtrBits (s.ctrs.choiceCtrs (s.globalHistory &&& choiceHistoryMask q))
  let taken := if choice_prediction then global_prediction else local_prediction
  (updateLocalHist (updateGlobalHist q s taken) local_history_idx taken,
    { globalHistory := s.globalHistory, localHistoryIdx := local_history_idx, localHistory := local_predictor_idx,
      localPredTaken := local_prediction, globalPredTaken := global_prediction, globalUsed := choice_prediction }, taken)

def uncondBranch (s : State) (_pc : Nat) : State × BPHistory :=
  (updateGlobalHist q s true,
    { globalHistory := s.globalHistory, localHistoryIdx := invalidPredictorIndex, localHistory := invalidPredictorIndex,
      localPredTaken := true, globalPredTaken := true, globalUsed := true })

/-- The counters at the commit of a branch. -/
def train (c : Counters) (taken : Bool) (history : BPHistory) : Counters :=
  let old_local_pred_valid := history.localHistory ≠ invalidPredictorIndex
  let old_local_pred_index := history.localHistory &&& localPredictorMask q
  let choice_predictor_idx := history.globalHistory &&& choiceHistoryMask q
  let global_predictor_idx := history.globalHistory &&& globalHistoryMask q
  let choiceCtrs :=
    if history.localPredTaken ≠ history.globalPredTaken ∧ old_local_pred_valid then
      if history.localPredTaken = taken then
        Function.update c.choiceCtrs choice_predictor_idx (c.choiceCtrs choice_predictor_idx).decrement
      else if history.globalPredTaken = taken then
        Function.update c.choiceCtrs choice_predictor_idx (c.choiceCtrs choice_predictor_idx).increment
      else c.choiceCtrs
    else c.choiceCtrs
  { choiceCtrs := choiceCtrs
    globalCtrs :=
      Function.update c.globalCtrs global_predictor_idx ((c.globalCtrs global_predictor_idx).train taken)
    localCtrs :=
      if old_local_pred_valid then
        Function.update c.localCtrs old_local_pred_index ((c.localCtrs old_local_pred_index).train taken)
      else c.localCtrs }

def update (s : State) (branch_addr : Nat) (taken : Bool) (history : BPHistory) (squashed : Bool) : State :=
  if squashed then
    { s with
      globalHistory := shiftIn history.globalHistory taken &&& historyRegisterMask q
      localHistoryTable :=
        if history.localHistory ≠ invalidPredictorIndex then
          Function.update s.localHistoryTable (calcLocHistIdx q branch_addr) (shiftIn history.localHistory taken)
        else s.localHistoryTable }
  else { s with ctrs := train q s.ctrs taken history }

def squash (s : State) (history : BPHistory) : State :=
  { s with
    globalHistory := history.globalHistory
    localHistoryTable :=
      if history.localHistoryIdx ≠ invalidPredictorIndex then
        Function.update s.localHistoryTable history.localHistoryIdx history.localHistory
      else s.localHistoryTable }

def tournamentBP : DirPredictor State BPHistory where
  lookup := lookup q
  uncondBranch := uncondBranch q
  btbUpdate s branch_addr _ := btbUpdate q s branch_addr
  update := update q
  squash := squash
  getGHR _ history := history.globalHistory

/-- An entry of the local history table. -/
def masked (s : State) (i : Nat) : Nat := s.localHistoryTable i &&& localPredictorMask q

end Tournament

end Alpine.Cpu.Pred
