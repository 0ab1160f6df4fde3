import Alpine.Cpu.LocalBP

/-!
# The L-TAGE predictor

A bimodal table, tagged tables by geometric lengths of the global history, and a loop predictor.

* `ThreadHistory` — the histories; the outcomes of the branches lie in a buffer, the youngest at `ptGhist`.
* `BranchInfo` — what the predictor saves of a branch; it keeps the place of the branch in the buffer, not the outcomes.
* `lookup`, `uncondBranch`, `btbUpdate`, `update`, `squash`, `getGHR` — the functions, put together in `ltage`.
-/

namespace Alpine.Cpu.Pred.LTAGE

structure Params where
  logSizeBiMP : Nat
  logSizeTagTables : Nat
  logSizeLoopPred : Nat
  nHistoryTables : Nat
  tagTableCounterBits : Nat
  histBufferSize : Nat
  maxHist : Nat
  minTagWidth : Nat
  /-- The series from `minHist` to `maxHist`, which is computed in floating point. -/
  histLengths : Nat → Nat
  histBufferSize_gt : maxHist * 2 < histBufferSize

/-! ## Entries -/

structure LoopEntry where
  numIter : Nat
  currentIter : Nat
  currentIterSpec : Nat
  confidence : Nat
  tag : Nat
  age : Nat
  dir : Bool

structure BimodalEntry where
  pred : Nat
  hyst : Nat

structure TageEntry where
  ctr : Int
  tag : Nat
  u : Nat

structure BranchInfo where
  pathHist : Nat := 0
  ptGhist : Nat := 0
  hitBank : Nat := 0
  hitBankIndex : Nat := 0
  altBank : Nat := 0
  altBankIndex : Nat := 0
  bimodalIndex : Nat := 0
  /-- An `int`, by its 32 bits. -/
  loopTag : Nat := 0
  currentIter : Nat := 0
  tagePred : Bool := false
  altTaken : Bool := false
  loopPred : Bool := false
  loopPredValid : Bool := false
  loopIndex : Nat := 0
  /-- `none` is `-1`. -/
  loopHit : Option Nat := none
  condBranch : Bool := false
  longestMatchPred : Bool := false
  pseudoNewAlloc : Bool := false
  branchPC : Nat := 0
  tableIndices : Nat → Nat := fun _ => 0
  tableTags : Nat → Nat := fun _ => 0
  ci : Nat → Nat := fun _ => 0
  ct0 : Nat → Nat := fun _ => 0
  ct1 : Nat → Nat := fun _ => 0

def BranchInfo.new (branchPC : Nat) (condBranch : Bool) : BranchInfo where
  branchPC := branchPC
  condBranch := condBranch

/-- `gHist` is the address of `globalHistory[ptGhist]`. -/
structure ThreadHistory where
  pathHist : Nat
  globalHistory : Nat → Bool
  ptGhist : Nat
  computeIndices : Nat → Nat
  computeTags0 : Nat → Nat
  computeTags1 : Nat → Nat

structure State where
  btable : Nat → BimodalEntry
  gtable : Nat → Nat → TageEntry
  ltable : Nat → LoopEntry
  threadHistory : ThreadHistory
  loopUseCounter : Int
  useAltPredForNewlyAllocated : Int
  tCounter : Nat
  /-- The draws of `random_mt` that are to come. -/
  random_mt : Nat → Nat

variable (q : Params)

def logTick : Nat := 19

def init (random_mt : Nat → Nat) : State where
  btable _ := ⟨0, 1⟩
  gtable _ _ := ⟨0, 0, 0⟩
  ltable _ := ⟨0, 0, 0, 0, 0, 0, false⟩
  threadHistory := ⟨0, fun _ => false, 0, fun _ => 0, fun _ => 0, fun _ => 0⟩
  loopUseCounter := 0
  useAltPredForNewlyAllocated := 0
  tCounter := 2 ^ (logTick - 1)
  random_mt := random_mt

/-- The tables have widths up to the twelfth. -/
def tagWidths (bank : Nat) : Nat := q.minTagWidth + [0, 0, 0, 1, 1, 2, 3, 4, 5, 5, 6, 7, 8].getD bank 0

def tagTableSizes (bank : Nat) : Nat :=
  if bank ≤ 2 then q.logSizeTagTables - 1
  else if bank ≤ 6 then q.logSizeTagTables
  else if bank ≤ 10 then q.logSizeTagTables - 1
  else q.logSizeTagTables - 2

/-! ## The folded histories -/

/-- `FoldedHistory::update`, from the buffer at `h`. -/
def foldedUpdate (origLength compLength comp : Nat) (globalHistory : Nat → Bool) (h : Nat) : Nat :=
  let outpoint := origLength % compLength
  let comp := (comp <<< 1) ||| (globalHistory h).toNat
  let comp := comp ^^^ ((globalHistory (h + origLength)).toNat <<< outpoint)
  let comp := comp ^^^ (comp >>> compLength)
  comp &&& (2 ^ compLength - 1)

/-- The three folded histories of each table, from the values `ci`, `ct0` and `ct1`. -/
def updateFolded (tHist : ThreadHistory) (ci ct0 ct1 : Nat → Nat) : ThreadHistory :=
  { tHist with
    computeIndices := fun i =>
      foldedUpdate (q.histLengths i) (tagTableSizes q i) (ci i) tHist.globalHistory tHist.ptGhist
    computeTags0 := fun i =>
      foldedUpdate (q.histLengths i) (tagWidths q i) (ct0 i) tHist.globalHistory tHist.ptGhist
    computeTags1 := fun i =>
      foldedUpdate (q.histLengths i) (tagWidths q i - 1) (ct1 i) tHist.globalHistory tHist.ptGhist }

/-! ## Indices and tags -/

def bindex (pc_in : Nat) : Nat := pc_in &&& (2 ^ q.logSizeBiMP - 1)

def lindex (pc_in : Nat) : Nat := (pc_in &&& (2 ^ (q.logSizeLoopPred - 2) - 1)) <<< 2

/-- The shifts of `F`: the count of the last two tables is negative, and is taken modulo the width. -/
def shr (A size bank : Nat) : Nat := A >>> ((32 + size - bank) % 32)

def F (A size bank : Nat) : Nat :=
  let mask := 2 ^ tagTableSizes q bank - 1
  let A := A &&& (2 ^ size - 1)
  let A1 := A &&& mask
  let A2 := A >>> tagTableSizes q bank
  let A2 := ((A2 <<< bank) &&& mask) + shr A2 (tagTableSizes q bank) bank
  let A := A1 ^^^ A2
  ((A <<< bank) &&& mask) + shr A (tagTableSizes q bank) bank

def gindex (tHist : ThreadHistory) (pc bank : Nat) : Nat :=
  let hlen := if q.histLengths bank > 16 then 16 else q.histLengths bank
  let size := tagTableSizes q bank
  let index := pc ^^^ (pc >>> (((size : Int) - bank).natAbs + 1)) ^^^ tHist.computeIndices bank ^^^
    F q tHist.pathHist hlen bank
  index &&& (2 ^ size - 1)

def gtag (tHist : ThreadHistory) (pc bank : Nat) : Nat :=
  let tag := pc ^^^ tHist.computeTags0 bank ^^^ (tHist.computeTags1 bank <<< 1)
  tag &&& (2 ^ tagWidths q bank - 1)

/-! ## Counters -/

def ctrUpdate (ctr : Int) (taken : Bool) (nbits : Nat) : Int :=
  if taken then if ctr < 2 ^ (nbits - 1) - 1 then ctr + 1 else ctr
  else if ctr > -2 ^ (nbits - 1) then ctr - 1 else ctr

def getBimodePred (s : State) (bi : BranchInfo) : Bool := (s.btable bi.bimodalIndex).pred > 0

def baseUpdate (s : State) (taken : Bool) (bi : BranchInfo) : State :=
  let inter := ((s.btable bi.bimodalIndex).pred <<< 1) + (s.btable bi.bimodalIndex).hyst
  let inter := if taken then if inter < 3 then inter + 1 else inter else inter - 1
  { s with btable := Function.update s.btable bi.bimodalIndex ⟨inter >>> 1, inter &&& 1⟩ }

/-! ## The loop predictor -/

/-- The loop prediction, with its fields of the `BranchInfo`. -/
def getLoop (s : State) (pc : Nat) (bi : BranchInfo) : BranchInfo × Bool :=
  let loopIndex := lindex q pc
  let loopTag := (pc >>> (q.logSizeLoopPred - 2)) % 2 ^ 32
  let bi := { bi with loopHit := none, loopPredValid := false, loopIndex := loopIndex, loopTag := loopTag }
  match (List.range 4).find? fun i => (s.ltable (loopIndex + i)).tag == loopTag with
  | none => (bi, false)
  | some i =>
    let e := s.ltable (loopIndex + i)
    ({ bi with loopHit := some i, loopPredValid := e.confidence ≥ 3, currentIter := e.currentIterSpec },
      if e.currentIterSpec + 1 = e.numIter then !e.dir else e.dir)

/-- The entry is the first one of the set, whichever was hit. -/
def specLoopUpdate (s : State) (pc : Nat) (taken : Bool) (bi : BranchInfo) : State :=
  match bi.loopHit with
  | none => s
  | some _ =>
    let index := lindex q pc
    let e := s.ltable index
    { s with ltable := Function.update s.ltable index { e with
        currentIterSpec := if taken ≠ e.dir then 0 else (e.currentIterSpec + 1) % 2 ^ 16 } }

def LoopEntry.free (e : LoopEntry) : LoopEntry := { e with numIter := 0, age := 0, confidence := 0 }

/-- The end of a loop. -/
def LoopEntry.exit (e : LoopEntry) (taken : Bool) : LoopEntry :=
  let e :=
    if e.currentIter = e.numIter then
      let e := if e.confidence < 7 then { e with confidence := e.confidence + 1 } else e
      if e.numIter < 3 then { e.free with dir := taken } else e
    else if e.numIter = 0 then { e with confidence := 0, numIter := e.currentIter }
    else e.free
  { e with currentIter := 0 }

/-- One more iteration. -/
def LoopEntry.iterate (e : LoopEntry) (taken : Bool) : LoopEntry :=
  let e := { e with currentIter := (e.currentIter + 1) % 2 ^ 16 }
  let e :=
    if e.currentIter > e.numIter then
      let e := { e with confidence := 0 }
      if e.numIter ≠ 0 then e.free else e
    else e
  if taken ≠ e.dir then e.exit taken else e

/-- The entry that a branch has hit. -/
def LoopEntry.hit (e : LoopEntry) (taken : Bool) (bi : BranchInfo) : LoopEntry :=
  if bi.loopPredValid then
    if taken ≠ bi.loopPred then { e.free with currentIter := 0 }
    else if bi.loopPred ≠ bi.tagePred then
      LoopEntry.iterate (if e.age < 7 then { e with age := e.age + 1 } else e) taken
    else e.iterate taken
  else e.iterate taken

/-- The loop that allocates an entry: the first one of no age, and those before it age. -/
def loopAllocate (ltable : Nat → LoopEntry) (taken : Bool) (bi : BranchInfo) : List Nat → Nat → LoopEntry
  | [] => ltable
  | loop_hit :: rest =>
    let idx := bi.loopIndex + loop_hit
    let e := ltable idx
    if e.age = 0 then
      Function.update ltable idx { e with
        dir := !taken, tag := bi.loopTag % 2 ^ 16, numIter := 0, age := 7, confidence := 0, currentIter := 1 }
    else loopAllocate (Function.update ltable idx { e with age := e.age - 1 }) taken bi rest

def loopUpdate (s : State) (taken : Bool) (bi : BranchInfo) : State :=
  match bi.loopHit with
  | some i =>
    let idx := bi.loopIndex + i
    { s with ltable := Function.update s.ltable idx ((s.ltable idx).hit taken bi) }
  | none =>
    if taken then
      let nrand := s.random_mt 0
      { s with
        ltable := loopAllocate s.ltable taken bi ((List.range 4).map fun i => (nrand + i) &&& 3)
        random_mt := fun i => s.random_mt (i + 1) }
    else s

/-! ## The global history -/

/-- The buffer and the place, with the outcome of the next branch. -/
def updateGHist (tHist : ThreadHistory) (dir : Bool) : ThreadHistory :=
  let tHist :=
    if tHist.ptGhist = 0 then
      { tHist with
        globalHistory := fun j =>
          if q.histBufferSize - q.maxHist ≤ j ∧ j < q.histBufferSize then
            tHist.globalHistory (j - (q.histBufferSize - q.maxHist))
          else tHist.globalHistory j
        ptGhist := q.histBufferSize - q.maxHist }
    else tHist
  { tHist with
    ptGhist := tHist.ptGhist - 1
    globalHistory := Function.update tHist.globalHistory (tHist.ptGhist - 1) dir }

def updateHistories (s : State) (branch_pc : Nat) (taken : Bool) (bi : BranchInfo) : State × BranchInfo :=
  let pathbit := branch_pc &&& 1
  let tHist := updateGHist q s.threadHistory taken
  let tHist := { tHist with pathHist := ((tHist.pathHist <<< 1) + pathbit) &&& (2 ^ 16 - 1) }
  ({ s with threadHistory := updateFolded q tHist tHist.computeIndices tHist.computeTags0 tHist.computeTags1 },
    { bi with
      ptGhist := tHist.ptGhist, pathHist := tHist.pathHist
      ci := tHist.computeIndices, ct0 := tHist.computeTags0, ct1 := tHist.computeTags1 })

/-- The outcome of the branch at a place of the buffer, and the folded histories with it. -/
def setOutcome (tHist : ThreadHistory) (taken : Bool) (bi : BranchInfo) : ThreadHistory :=
  updateFolded q { tHist with globalHistory := Function.update tHist.globalHistory tHist.ptGhist taken }
    bi.ci bi.ct0 bi.ct1

/-- Without the assertion that the places are in the buffer. -/
def getGHR (s : State) (bi : BranchInfo) : Nat :=
  (List.range 32).foldl
    (fun val i => val ||| ((s.threadHistory.globalHistory (bi.ptGhist + i)).toNat <<< i)) 0

/-! ## Prediction -/

/-- The banks up to one, the longest history first. -/
def banks (i : Nat) : List Nat := (List.range i).reverse.map (· + 1)

/-- The prediction of the tagged tables. -/
def tagePredict (s : State) (pc : Nat) (bi : BranchInfo) : BranchInfo :=
  let tableIndices := fun i => gindex q s.threadHistory pc i
  let tableTags := fun i => gtag q s.threadHistory pc i
  let entry := fun i => s.gtable i (tableIndices i)
  let bi := { bi with tableIndices := tableIndices, tableTags := tableTags, bimodalIndex := bindex q pc }
  let hitBank := ((banks q.nHistoryTables).find? fun i => (entry i).tag == tableTags i).getD 0
  let altBank := ((banks (hitBank - 1)).find? fun i => (entry i).tag == tableTags i).getD 0
  let bi := { bi with
    hitBank := hitBank, hitBankIndex := if hitBank > 0 then tableIndices hitBank else 0
    altBank := altBank, altBankIndex := if altBank > 0 then tableIndices altBank else 0 }
  if hitBank > 0 then
    let altTaken := if altBank > 0 then decide ((entry altBank).ctr ≥ 0) else getBimodePred s bi
    let longestMatchPred := decide ((entry hitBank).ctr ≥ 0)
    let weak := (2 * (entry hitBank).ctr + 1).natAbs
    { bi with
      altTaken := altTaken, longestMatchPred := longestMatchPred, pseudoNewAlloc := decide (weak ≤ 1)
      tagePred := if s.useAltPredForNewlyAllocated < 0 ∨ weak > 1 then longestMatchPred else altTaken }
  else
    let altTaken := getBimodePred s bi
    { bi with altTaken := altTaken, tagePred := altTaken, longestMatchPred := altTaken }

def predict (s : State) (branch_pc : Nat) (cond_branch : Bool) : State × BranchInfo × Bool :=
  let bi := BranchInfo.new branch_pc cond_branch
  let (bi, pred_taken) :=
    if cond_branch then
      let (bi, loopPred) := getLoop q s branch_pc (tagePredict q s branch_pc bi)
      ({ bi with loopPred := loopPred },
        if s.loopUseCounter ≥ 0 ∧ bi.loopPredValid then loopPred else bi.tagePred)
    else (bi, true)
  (specLoopUpdate q s branch_pc pred_taken bi, bi, pred_taken)

def lookup (s : State) (branch_pc : Nat) : State × BranchInfo × Bool :=
  let (s, bi, retval) := predict q s branch_pc true
  let (s, bi) := updateHistories q s branch_pc retval bi
  (s, bi, retval)

def uncondBranch (s : State) (br_pc : Nat) : State × BranchInfo :=
  let (s, bi, _) := predict q s br_pc false
  updateHistories q s br_pc true bi

def btbUpdate (s : State) (bi : BranchInfo) : State :=
  { s with threadHistory := setOutcome q s.threadHistory false bi }

/-! ## Update -/

/-- The iteration of the loop that a branch has hit. -/
def restoreLoop (s : State) (bi : BranchInfo) : State :=
  match bi.condBranch, bi.loopHit with
  | true, some i =>
    let idx := bi.loopIndex + i
    { s with ltable := Function.update s.ltable idx { s.ltable idx with currentIterSpec := bi.currentIter } }
  | _, _ => s

/-- `squash` of a branch with its outcome: the histories are those up to the branch. -/
def squashTaken (s : State) (taken : Bool) (bi : BranchInfo) : State :=
  restoreLoop { s with
    threadHistory := setOutcome q { s.threadHistory with pathHist := bi.pathHist, ptGhist := bi.ptGhist } taken bi } bi

/-- `squash` of a branch that is taken back: the histories stay. -/
def squash (s : State) (bi : BranchInfo) : State := restoreLoop s bi

def setEntry (gtable : Nat → Nat → TageEntry) (bank index : Nat) (e : TageEntry) : Nat → Nat → TageEntry :=
  Function.update gtable bank (Function.update (gtable bank) index e)

/-- The entries that are allocated after a wrong prediction. -/
def allocate (gtable : Nat → Nat → TageEntry) (taken : Bool) (bi : BranchInfo) (nrand : Nat) :
    Nat → Nat → TageEntry :=
  let longer := (List.range q.nHistoryTables).map (· + 1)
  let min := (longer.filter fun i => bi.hitBank < i).foldr (fun i min => Nat.min (gtable i (bi.tableIndices i)).u min) 1
  let Y := nrand &&& (2 ^ (q.nHistoryTables - bi.hitBank - 1) - 1)
  let X := bi.hitBank + 1 + if Y &&& 1 = 0 then 0 else if Y &&& 2 = 0 then 1 else 2
  let gtable :=
    if min > 0 then setEntry gtable X (bi.tableIndices X) { gtable X (bi.tableIndices X) with u := 0 } else gtable
  (longer.filter fun i => X ≤ i).foldl (fun gtable i =>
    if (gtable i (bi.tableIndices i)).u = 0 then
      setEntry gtable i (bi.tableIndices i) ⟨if taken then 0 else -1, bi.tableTags i, 0⟩
    else gtable) gtable

/-- The selection of the alternate prediction, and whether to allocate. -/
def updateAlt (s : State) (taken : Bool) (bi : BranchInfo) : State × Bool :=
  let alloc := bi.tagePred != taken && bi.hitBank < q.nHistoryTables
  if bi.hitBank > 0 ∧ bi.pseudoNewAlloc then
    (if bi.longestMatchPred ≠ bi.altTaken then
        { s with useAltPredForNewlyAllocated := ctrUpdate s.useAltPredForNewlyAllocated (bi.altTaken == taken) 4 }
      else s,
      alloc && bi.longestMatchPred != taken)
  else (s, alloc)

/-- The periodic reset of the useful counters. -/
def resetUseful (s : State) : State :=
  let tCounter := s.tCounter + 1
  { s with
    tCounter := tCounter
    gtable :=
      if tCounter &&& (2 ^ logTick - 1) = 0 then fun i j => { s.gtable i j with u := (s.gtable i j).u >>> 1 }
      else s.gtable }

def trainEntry (s : State) (bank index : Nat) (taken : Bool) : State :=
  let e := s.gtable bank index
  { s with gtable := setEntry s.gtable bank index { e with ctr := ctrUpdate e.ctr taken q.tagTableCounterBits } }

/-- The entries that have given the prediction. -/
def updateProvider (s : State) (taken : Bool) (bi : BranchInfo) : State :=
  if bi.hitBank > 0 then
    let s := trainEntry q s bi.hitBank bi.hitBankIndex taken
    let s :=
      if (s.gtable bi.hitBank bi.hitBankIndex).u = 0 then
        if bi.altBank > 0 then trainEntry q s bi.altBank bi.altBankIndex taken else baseUpdate s taken bi
      else s
    let e := s.gtable bi.hitBank bi.hitBankIndex
    if bi.longestMatchPred ≠ bi.altTaken ∧ bi.longestMatchPred = taken ∧ e.u < 1 then
      { s with gtable := setEntry s.gtable bi.hitBank bi.hitBankIndex { e with u := e.u + 1 } }
    else s
  else baseUpdate s taken bi

/-- The update at the commit of a branch. -/
def train (s : State) (taken : Bool) (bi : BranchInfo) : State :=
  let nrand := s.random_mt 0 % 4
  let s := { s with random_mt := fun i => s.random_mt (i + 1) }
  if bi.condBranch then
    let s := loopUpdate s taken bi
    let s :=
      if bi.loopPredValid ∧ bi.tagePred ≠ bi.loopPred then
        { s with loopUseCounter := ctrUpdate s.loopUseCounter (bi.loopPred == taken) 7 }
      else s
    let (s, alloc) := updateAlt q s taken bi
    let s := if alloc then { s with gtable := allocate q s.gtable taken bi nrand } else s
    updateProvider q (resetUseful s) taken bi
  else s

def ltage : DirPredictor State BranchInfo where
  lookup := lookup q
  uncondBranch := uncondBranch q
  btbUpdate s _ bi := btbUpdate q s bi
  update s _ taken bi squashed := if squashed then squashTaken q s taken bi else train q s taken bi
  squash := squash
  getGHR := getGHR

end Alpine.Cpu.Pred.LTAGE
