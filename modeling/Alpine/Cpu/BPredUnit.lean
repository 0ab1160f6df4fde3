import Mathlib

/-!
# The branch prediction unit

`BPredUnit` of one thread, over the functions that a predictor of directions gives it and over the program counters of
an instruction set.

* `ReturnAddrStack` — a circular stack; `calls` are the calls made of it so far.
* `DefaultBTB` — the branch target buffer.
* `IndirectPredictor` — the targets of indirect branches, by a hash of the last `pathLength` targets.
* `PredictorHistory` — what the unit keeps for a branch in flight, the youngest branch first.
* `predict`, `update`, `squash`, `squashCorrect` — the four calls; `squashCorrect` is the `squash` that corrects a branch.
-/

namespace Alpine.Cpu.Pred

/-! ## The return address stack -/

inductive RASCall where
  | push
  | pop
  | restore

structure ReturnAddrStack (PC : Type) where
  addrStack : Nat → PC
  numEntries : Nat
  usedEntries : Nat
  tos : Nat
  calls : List RASCall

namespace ReturnAddrStack

variable {PC : Type}

/-- `init` with the default program counter in every entry. -/
def new (zero : PC) (numEntries : Nat) : ReturnAddrStack PC := ⟨fun _ => zero, numEntries, 0, 0, []⟩

def top (s : ReturnAddrStack PC) : PC := s.addrStack s.tos

def incrTos (s : ReturnAddrStack PC) : Nat := if s.tos + 1 = s.numEntries then 0 else s.tos + 1

def decrTos (s : ReturnAddrStack PC) : Nat := if s.tos = 0 then s.numEntries - 1 else s.tos - 1

def push (s : ReturnAddrStack PC) (return_addr : PC) : ReturnAddrStack PC :=
  { s with
    tos := s.incrTos
    addrStack := Function.update s.addrStack s.incrTos return_addr
    usedEntries := if s.usedEntries ≠ s.numEntries then s.usedEntries + 1 else s.usedEntries
    calls := s.calls ++ [.push] }

def pop (s : ReturnAddrStack PC) : ReturnAddrStack PC :=
  { s with usedEntries := s.usedEntries - 1, tos := s.decrTos, calls := s.calls ++ [.pop] }

def restore (s : ReturnAddrStack PC) (top_entry_idx : Nat) (restored : PC) : ReturnAddrStack PC :=
  { s with
    tos := top_entry_idx
    addrStack := Function.update s.addrStack top_entry_idx restored
    calls := s.calls ++ [.restore] }

end ReturnAddrStack

/-! ## Parameters -/

structure Params where
  BTBEntries : Nat
  BTBTagSize : Nat
  instShiftAmt : Nat
  RASSize : Nat
  useIndirect : Bool
  indirectHashGHR : Bool
  indirectHashTargets : Bool
  indirectSets : Nat
  indirectWays : Nat
  indirectTagSize : Nat
  indirectPathLength : Nat
  /-- The two tables check that their sizes are powers of two. -/
  BTBEntries_pow2 : ∃ b, BTBEntries = 2 ^ b
  indirectSets_pow2 : ∃ b, indirectSets = 2 ^ b

theorem sixteen_pow2 : ∃ b, 16 = 2 ^ b := ⟨4, rfl⟩

theorem one_pow2 : ∃ b, 1 = 2 ^ b := ⟨0, rfl⟩

/-- The program counters of an instruction set. -/
structure TheISA (PC : Type) where
  /-- `PCState(0)`. -/
  zero : PC
  instAddr : PC → Nat
  buildRetPC : PC → PC → PC

structure StaticInst (PC : Type) where
  isUncondCtrl : Bool
  isReturn : Bool
  isCall : Bool
  isDirectCtrl : Bool
  advancePC : PC → PC

/-- The virtual functions of the unit: `σ` is the state of the predictor, `η` the history object of a branch. -/
structure DirPredictor (σ η : Type) where
  lookup : σ → Nat → σ × η × Bool
  uncondBranch : σ → Nat → σ × η
  btbUpdate : σ → Nat → η → σ
  update : σ → Nat → Bool → η → Bool → σ
  squash : σ → η → σ
  getGHR : σ → η → Nat

/-! ## The branch target buffer -/

structure BTBEntry (PC : Type) where
  valid : Bool
  tag : Nat
  target : PC

structure DefaultBTB (PC : Type) where
  btb : Nat → BTBEntry PC

namespace DefaultBTB

variable (p : Params) {PC : Type}

def new (zero : PC) : DefaultBTB PC := ⟨fun _ => ⟨false, 0, zero⟩⟩

def getIndex (instPC : Nat) : Nat := (instPC >>> p.instShiftAmt) &&& (p.BTBEntries - 1)

def getTag (instPC : Nat) : Nat :=
  (instPC >>> (p.instShiftAmt + Nat.log2 p.BTBEntries)) &&& (2 ^ p.BTBTagSize - 1)

def valid (s : DefaultBTB PC) (instPC : Nat) : Bool :=
  let e := s.btb (getIndex p instPC)
  e.valid && getTag p instPC == e.tag

def lookup (s : DefaultBTB PC) (zero : PC) (instPC : Nat) : PC :=
  if s.valid p instPC then (s.btb (getIndex p instPC)).target else zero

def update (s : DefaultBTB PC) (instPC : Nat) (target : PC) : DefaultBTB PC :=
  ⟨Function.update s.btb (getIndex p instPC) ⟨true, getTag p instPC, target⟩⟩

end DefaultBTB

/-! ## The indirect predictor -/

structure IPredEntry (PC : Type) where
  tag : Nat
  target : PC

structure HistoryEntry where
  pcAddr : Nat
  targetAddr : Nat
  seqNum : Nat

structure IndirectPredictor (PC : Type) where
  targetCache : Nat → Nat → IPredEntry PC
  /-- The oldest branch first. -/
  pathHist : List HistoryEntry
  headHistEntry : Nat

namespace IndirectPredictor

variable (p : Params) {PC : Type}

def new (zero : PC) : IndirectPredictor PC := ⟨fun _ _ => ⟨0, zero⟩, [], 0⟩

/-- The loop of `getSetIndex` over the last targets, the youngest first. -/
def hashTargets (hash_shift : Nat) : Nat → List HistoryEntry → Nat → Nat
  | _, [], hash => hash
  | i, e :: es, hash => hashTargets hash_shift (i + 1) es (hash ^^^ (e.targetAddr >>> (p.instShiftAmt + i * hash_shift)))

def getSetIndex (pathHist : List HistoryEntry) (br_addr ghr : Nat) : Nat :=
  let hash := br_addr >>> p.instShiftAmt
  let hash := if p.indirectHashGHR then hash ^^^ ghr else hash
  let hash_shift := Nat.log2 p.indirectSets / p.indirectPathLength
  let hash :=
    if p.indirectHashTargets then hashTargets p hash_shift 0 (pathHist.reverse.take p.indirectPathLength) hash else hash
  hash &&& (p.indirectSets - 1)

def getTag (br_addr : Nat) : Nat := (br_addr >>> p.instShiftAmt) &&& (2 ^ p.indirectTagSize - 1)

/-- The ways of a set. -/
def ways : List Nat := List.range p.indirectWays

/-- The set index and the tag of a branch. -/
def lookupKey (s : IndirectPredictor PC) (br_addr ghr : Nat) : Nat × Nat :=
  (getSetIndex p s.pathHist br_addr ghr, getTag p br_addr)

def lookup (s : IndirectPredictor PC) (br_addr ghr : Nat) : Option PC :=
  let key := s.lookupKey p br_addr ghr
  let iset := s.targetCache key.1
  ((ways p).find? fun way => (iset way).tag == key.2).map fun way => (iset way).target

def recordIndirect (s : IndirectPredictor PC) (br_addr tgt_addr seq_num : Nat) : IndirectPredictor PC :=
  { s with pathHist := s.pathHist ++ [⟨br_addr, tgt_addr, seq_num⟩] }

def commit (s : IndirectPredictor PC) (seq_num : Nat) : IndirectPredictor PC :=
  match s.pathHist[s.headHistEntry]? with
  | none => s
  | some e =>
    if e.seqNum ≤ seq_num then
      if s.headHistEntry ≥ p.indirectPathLength then { s with pathHist := s.pathHist.tail }
      else { s with headHistEntry := s.headHistEntry + 1 }
    else s

def squash (s : IndirectPredictor PC) (seq_num : Nat) : IndirectPredictor PC :=
  { s with pathHist := s.pathHist.takeWhile fun e => e.seqNum ≤ seq_num }

/-- The set index and the tag that `recordTarget` writes to: the last entry is popped for them. -/
def recordKey (s : IndirectPredictor PC) (ghr : Nat) : Option (Nat × Nat) :=
  s.pathHist.getLast?.map fun hist_entry =>
    lookupKey p { s with pathHist := s.pathHist.dropLast } hist_entry.pcAddr ghr

/-- The way with the tag, or one at random; `none` if there is no last entry. -/
def recordTarget (s : IndirectPredictor PC) (ghr : Nat) (target : PC) (targetAddr random : Nat) :
    Option (IndirectPredictor PC) :=
  (s.recordKey p ghr).bind fun key => s.pathHist.getLast?.map fun hist_entry =>
    let iset := s.targetCache key.1
    let way := ((ways p).find? fun way => (iset way).tag == key.2).getD (random % p.indirectWays)
    { s with
      pathHist := s.pathHist.dropLast ++ [{ hist_entry with targetAddr := targetAddr }]
      targetCache := Function.update s.targetCache key.1 (Function.update iset way ⟨key.2, target⟩) }

end IndirectPredictor

/-! ## The unit -/

structure PredictorHistory (η PC : Type) where
  seqNum : Nat
  pc : Nat
  bpHistory : η
  RASTarget : PC
  RASIndex : Nat
  predTaken : Bool
  usedRAS : Bool
  pushedRAS : Bool
  wasCall : Bool
  wasReturn : Bool
  wasIndirect : Bool

structure BPredUnit (σ η PC : Type) where
  /-- The state of the predictor of directions. -/
  dir : σ
  /-- The branches in flight, the youngest first. -/
  predHist : List (PredictorHistory η PC)
  BTB : DefaultBTB PC
  RAS : ReturnAddrStack PC
  iPred : IndirectPredictor PC

namespace BPredUnit

variable {σ η PC : Type} (p : Params) (isa : TheISA PC) (bp : DirPredictor σ η)

def new (dir : σ) : BPredUnit σ η PC :=
  ⟨dir, [], DefaultBTB.new isa.zero, ReturnAddrStack.new isa.zero p.RASSize, IndirectPredictor.new isa.zero⟩

/-! ### `predict` -/

/-- The direction, and the history object. -/
def direction (s : BPredUnit σ η PC) (inst : StaticInst PC) (addr : Nat) : σ × η × Bool :=
  if inst.isUncondCtrl then
    let r := bp.uncondBranch s.dir addr
    (r.1, r.2, true)
  else bp.lookup s.dir addr

/-- The record of a branch at the start. -/
def predict_record (seqNum addr : Nat) (pred_taken : Bool) (bp_history : η) : PredictorHistory η PC where
  seqNum := seqNum
  pc := addr
  bpHistory := bp_history
  RASTarget := isa.zero
  RASIndex := 0
  predTaken := pred_taken
  usedRAS := false
  pushedRAS := false
  wasCall := false
  wasReturn := false
  wasIndirect := false

/-- What the parts of `predict` pass on: the unit, the record, the prediction and the target. -/
structure Prediction (σ η PC : Type) where
  unit : BPredUnit σ η PC
  record : PredictorHistory η PC
  pred_taken : Bool
  target : PC

/-- A return that is predicted taken. -/
def predictReturn (s : BPredUnit σ η PC) (r : PredictorHistory η PC) (pc : PC) : Prediction σ η PC where
  unit := { s with RAS := s.RAS.pop }
  record := { r with wasReturn := true, usedRAS := true, RASIndex := s.RAS.tos, RASTarget := s.RAS.top }
  pred_taken := true
  target := isa.buildRetPC pc s.RAS.top

/-- A call pushes its program counter. -/
def pushCall (s : BPredUnit σ η PC) (r : PredictorHistory η PC) (inst : StaticInst PC) (pc : PC) :
    BPredUnit σ η PC × PredictorHistory η PC :=
  if inst.isCall then ({ s with RAS := s.RAS.push pc }, { r with pushedRAS := true, wasCall := true }) else (s, r)

/-- A conditional call without a target pops it again. -/
def popCall (s : BPredUnit σ η PC) (r : PredictorHistory η PC) (inst : StaticInst PC) :
    BPredUnit σ η PC × PredictorHistory η PC :=
  if inst.isCall && !inst.isUncondCtrl then ({ s with RAS := s.RAS.pop }, { r with pushedRAS := false }) else (s, r)

def predictDirect (s : BPredUnit σ η PC) (r : PredictorHistory η PC) (inst : StaticInst PC) (pc : PC) :
    Prediction σ η PC :=
  if s.BTB.valid p (isa.instAddr pc) then ⟨s, r, true, s.BTB.lookup p isa.zero (isa.instAddr pc)⟩
  else if !inst.isCall && !inst.isReturn then
    ⟨{ s with dir := bp.btbUpdate s.dir (isa.instAddr pc) r.bpHistory }, r, false, inst.advancePC pc⟩
  else
    let (s, r) := popCall s r inst
    ⟨s, r, false, inst.advancePC pc⟩

def predictIndirect (s : BPredUnit σ η PC) (r : PredictorHistory η PC) (inst : StaticInst PC) (pc : PC) :
    Prediction σ η PC :=
  let r := { r with wasIndirect := true }
  match s.iPred.lookup p (isa.instAddr pc) (bp.getGHR s.dir r.bpHistory) with
  | some target =>
    ⟨{ s with iPred := s.iPred.recordIndirect (isa.instAddr pc) (isa.instAddr target) r.seqNum }, r, true, target⟩
  | none =>
    let target := inst.advancePC pc
    let (s, r) := popCall s r inst
    ⟨{ s with iPred := s.iPred.recordIndirect (isa.instAddr pc) (isa.instAddr target) r.seqNum }, r, false, target⟩

/-- The target: a return asks the RAS, the others the BTB or the indirect predictor. -/
def predictTarget (s : BPredUnit σ η PC) (r : PredictorHistory η PC) (inst : StaticInst PC) (pc : PC) :
    Prediction σ η PC :=
  if r.predTaken then
    if inst.isReturn then predictReturn isa s r pc
    else
      let (s, r) := pushCall s r inst pc
      if inst.isDirectCtrl || !p.useIndirect then predictDirect p isa bp s r inst pc
      else predictIndirect p isa bp s r inst pc
  else ⟨s, { r with wasReturn := inst.isReturn }, false, inst.advancePC pc⟩

/-- The unit, the prediction and the target. -/
def predict (s : BPredUnit σ η PC) (inst : StaticInst PC) (seqNum : Nat) (pc : PC) : BPredUnit σ η PC × Bool × PC :=
  let (dir, bp_history, pred_taken) := s.direction bp inst (isa.instAddr pc)
  let r := predictTarget p isa bp { s with dir := dir } (predict_record isa seqNum (isa.instAddr pc) pred_taken bp_history)
    inst pc
  ({ r.unit with predHist := r.record :: r.unit.predHist }, r.pred_taken, r.target)

/-! ### `update` and `squash` -/

/-- The branches up to `done_sn` are committed, the oldest first. -/
def update (s : BPredUnit σ η PC) (done_sn : Nat) : BPredUnit σ η PC :=
  { s with
    iPred := s.iPred.commit p done_sn
    dir := (s.predHist.reverse.takeWhile fun h => h.seqNum ≤ done_sn).foldl
      (fun dir h => bp.update dir h.pc h.predTaken h.bpHistory false) s.dir
    predHist := s.predHist.rdropWhile fun h => h.seqNum ≤ done_sn }

/-- The body of the loop of `squash`. -/
def undo (s : BPredUnit σ η PC) (h : PredictorHistory η PC) : BPredUnit σ η PC :=
  { s with
    RAS :=
      if h.usedRAS then s.RAS.restore h.RASIndex h.RASTarget
      else if h.wasCall && h.pushedRAS then s.RAS.pop
      else s.RAS
    dir := bp.squash s.dir h.bpHistory }

def squash (s : BPredUnit σ η PC) (squashed_sn : Nat) : BPredUnit σ η PC :=
  let s' := (s.predHist.takeWhile fun h => squashed_sn < h.seqNum).foldl (undo bp) s
  { s' with
    iPred := s.iPred.squash squashed_sn
    predHist := s.predHist.dropWhile fun h => squashed_sn < h.seqNum }

/-! ### The correction of a branch -/

/-- The RAS, and its fields of the record. -/
def correctRAS (RAS : ReturnAddrStack PC) (h : PredictorHistory η PC) (actually_taken : Bool) :
    ReturnAddrStack PC × PredictorHistory η PC :=
  if actually_taken then
    if h.wasReturn && !h.usedRAS then (RAS.pop, { h with usedRAS := true }) else (RAS, h)
  else if h.usedRAS then (RAS.restore h.RASIndex h.RASTarget, { h with usedRAS := false })
  else if h.wasCall && h.pushedRAS then (RAS.pop, { h with pushedRAS := false })
  else (RAS, h)

/-- The target of a branch that is taken. -/
def correctTarget (s : BPredUnit σ η PC) (h : PredictorHistory η PC) (ghr : Nat) (corrTarget : PC)
    (actually_taken : Bool) (random : Nat) : Option (BPredUnit σ η PC) :=
  if actually_taken then
    if h.wasIndirect then
      (s.iPred.recordTarget p ghr corrTarget (isa.instAddr corrTarget) random).map fun iPred => { s with iPred := iPred }
    else some { s with BTB := s.BTB.update p h.pc corrTarget }
  else some s

/-- The correction of the youngest branch. -/
def correct (s : BPredUnit σ η PC) (h : PredictorHistory η PC) (hs : List (PredictorHistory η PC)) (corrTarget : PC)
    (actually_taken : Bool) (random : Nat) : Option (BPredUnit σ η PC) :=
  let ghr := bp.getGHR s.dir h.bpHistory
  let dir := bp.update s.dir h.pc actually_taken h.bpHistory true
  let (RAS, h') := correctRAS s.RAS { h with predTaken := actually_taken } actually_taken
  correctTarget p isa { s with dir := dir, RAS := RAS, predHist := h' :: hs } h' ghr corrTarget actually_taken random

/-- `none` if the youngest branch is another one. -/
def squashCorrect (s : BPredUnit σ η PC) (squashed_sn : Nat) (corrTarget : PC) (actually_taken : Bool) (random : Nat) :
    Option (BPredUnit σ η PC) :=
  let s := s.squash bp squashed_sn
  match s.predHist with
  | [] => some s
  | h :: hs => if h.seqNum = squashed_sn then s.correct p isa bp h hs corrTarget actually_taken random else none

end BPredUnit

end Alpine.Cpu.Pred
