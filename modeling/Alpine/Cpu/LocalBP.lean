import Alpine.Cpu.BPredUnit

/-!
# The local predictor

* `SatCounter` — a saturating counter.
* `LocalBP` — a table of counters by the address; it keeps no history of a branch.
-/

namespace Alpine.Cpu.Pred

structure SatCounter where
  maxVal : Nat
  counter : Nat

namespace SatCounter

/-- `setBits` on a new counter; the fields have eight bits. -/
def ofBits (bits : Nat) : SatCounter := ⟨(2 ^ bits - 1) % 2 ^ 8, 0⟩

def increment (s : SatCounter) : SatCounter := if s.counter < s.maxVal then { s with counter := s.counter + 1 } else s

def decrement (s : SatCounter) : SatCounter := if s.counter > 0 then { s with counter := s.counter - 1 } else s

/-- One step towards the outcome of a branch. -/
def train (s : SatCounter) (taken : Bool) : SatCounter := if taken then s.increment else s.decrement

end SatCounter

namespace LocalBP

structure Params where
  instShiftAmt : Nat
  localPredictorSize : Nat
  localCtrBits : Nat

structure State where
  localCtrs : Nat → SatCounter

variable (q : Params)

def init : State := ⟨fun _ => .ofBits q.localCtrBits⟩

/-- The mask is the number of sets less one. -/
def getLocalIndex (branch_addr : Nat) : Nat :=
  (branch_addr >>> q.instShiftAmt) &&& (q.localPredictorSize / q.localCtrBits - 1)

def getPrediction (count : Nat) : Bool := count >>> (q.localCtrBits - 1) != 0

def localBP : DirPredictor State Unit where
  lookup s branch_addr := (s, (), getPrediction q (s.localCtrs (getLocalIndex q branch_addr)).counter)
  uncondBranch s _ := (s, ())
  btbUpdate s _ _ := s
  update s branch_addr taken _ squashed :=
    if squashed then s
    else
      let idx := getLocalIndex q branch_addr
      ⟨Function.update s.localCtrs idx ((s.localCtrs idx).train taken)⟩
  squash s _ := s
  getGHR _ _ := 0

end LocalBP

end Alpine.Cpu.Pred
