import Alpine.Cpu.BPredUnit
import Alpine.Lib.Run
import Alpine.Lib.Undo

/-!
# Runs of the branch prediction unit

The unit with what has happened to it: a `Flight` for each branch in flight, with its record as it is and as `predict`
made it, and the unit before the prediction, after it, and after the last prediction or correction of the branch.

* `PredCall`, `step`, `Permitted` — the calls; sequence numbers increase, a squash leaves the committed branches alone,
  and a branch that is corrected is in flight.
* `momentAt` — the unit right after the last prediction or correction of the youngest branch up to a sequence number.
* `Flights` — the records in flight are those of the unit, and their sequence numbers decrease.
* `Tracks` — what a relation between the unit and a moment has to meet at each call, so that a squash takes the unit back
  to `momentAt` in every run; `Tracks.run`, `Tracks.squash`.
-/

namespace Alpine.Cpu.Pred

variable {σ η PC : Type}

structure Flight (σ η PC : Type) where
  inst : StaticInst PC
  /-- The record of the branch, and the one that `predict` made. -/
  now : PredictorHistory η PC
  made : PredictorHistory η PC
  before : BPredUnit σ η PC
  after : BPredUnit σ η PC
  /-- The unit right after the last prediction or correction of the branch. -/
  last : BPredUnit σ η PC

def Flight.seqNum (f : Flight σ η PC) : Nat := f.now.seqNum

structure Watched (σ η PC : Type) where
  unit : BPredUnit σ η PC
  /-- The branches in flight, the youngest first. -/
  flight : List (Flight σ η PC)
  /-- The unit right after the last prediction or correction of the youngest committed branch. -/
  base : BPredUnit σ η PC
  /-- The committed branches, the oldest first. -/
  retired : List (Flight σ η PC)
  newest : Option Nat

inductive PredCall (PC : Type) where
  | predict (inst : StaticInst PC) (seqNum : Nat) (pc : PC)
  | update (done_sn : Nat)
  | squash (squashed_sn : Nat)
  | squashCorrect (squashed_sn : Nat) (corrTarget : PC) (actually_taken : Bool) (random : Nat)

namespace Watched

variable (p : Params) (isa : TheISA PC) (bp : DirPredictor σ η)

def start (dir : σ) : Watched σ η PC :=
  ⟨BPredUnit.new p isa dir, [], BPredUnit.new p isa dir, [], none⟩

/-- The branches that a squash leaves. -/
def upTo (s : Watched σ η PC) (n : Nat) : List (Flight σ η PC) := s.flight.dropWhile fun f => n < f.seqNum

def momentAt (s : Watched σ η PC) (n : Nat) : BPredUnit σ η PC := Undo.top Flight.last s.base (s.upTo n)

/-- The youngest branch has been corrected. -/
def corrected (u : BPredUnit σ η PC) : List (Flight σ η PC) → List (Flight σ η PC)
  | [] => []
  | f :: fs => { f with now := u.predHist.headD f.now, last := u } :: fs

def step (s : Watched σ η PC) : PredCall PC → Option (Watched σ η PC)
  | .predict inst seqNum pc =>
    let u := (s.unit.predict p isa bp inst seqNum pc).1
    u.predHist.head?.map fun r =>
      { s with unit := u, flight := ⟨inst, r, r, s.unit, u, u⟩ :: s.flight, newest := some seqNum }
  | .update done_sn =>
    let committed := s.flight.rtakeWhile fun f => f.seqNum ≤ done_sn
    some { s with
      unit := s.unit.update p bp done_sn
      flight := s.flight.rdropWhile fun f => f.seqNum ≤ done_sn
      base := Undo.top Flight.last s.base committed
      retired := s.retired ++ committed.reverse }
  | .squash squashed_sn => some { s with unit := s.unit.squash bp squashed_sn, flight := s.upTo squashed_sn }
  | .squashCorrect squashed_sn corrTarget actually_taken random =>
    (s.unit.squashCorrect p isa bp squashed_sn corrTarget actually_taken random).map fun u =>
      { s with unit := u, flight := corrected u (s.upTo squashed_sn) }

def Permitted (s : Watched σ η PC) : PredCall PC → Prop
  | .predict _ seqNum _ => ∀ m ∈ s.newest, m < seqNum
  | .update _ => True
  | .squash squashed_sn => ∀ f ∈ s.retired, f.seqNum ≤ squashed_sn
  | .squashCorrect squashed_sn _ _ _ => ∃ f ∈ s.flight, f.seqNum = squashed_sn

/-- The branches that a call takes back, and the one that it corrects, meet a condition. -/
def Careful (Undoable : Flight σ η PC → Prop) (Correctable : Flight σ η PC → Bool → Prop) (s : Watched σ η PC) :
    PredCall PC → Prop
  | .squash squashed_sn => ∀ f ∈ s.flight, squashed_sn < f.seqNum → Undoable f
  | .squashCorrect squashed_sn _ actually_taken _ => ∀ f ∈ s.flight,
    (squashed_sn < f.seqNum → Undoable f) ∧ (f.seqNum = squashed_sn → Correctable f actually_taken)
  | _ => True

end Watched

/-! ## What the calls change -/

variable {corrTarget : PC}

namespace BPredUnit

variable {p : Params} {isa : TheISA PC} {bp : DirPredictor σ η} {s : BPredUnit σ η PC} {inst : StaticInst PC}
  {seqNum : Nat} {pc : PC}

/-- The calls of the RAS by a prediction, and what the record says of them. -/
inductive RASPart (s : ReturnAddrStack PC) (pc : PC) : ReturnAddrStack PC → PredictorHistory η PC → Prop
  | ret {h : PredictorHistory η PC} : h.usedRAS = true → h.RASIndex = s.tos → h.RASTarget = s.top →
      h.wasCall = false → RASPart s pc s.pop h
  | call {h : PredictorHistory η PC} : h.usedRAS = false → h.wasCall = true → h.pushedRAS = true →
      h.wasReturn = false → RASPart s pc (s.push pc) h
  | missed {h : PredictorHistory η PC} : h.usedRAS = false → h.pushedRAS = false → h.wasReturn = false →
      RASPart s pc (s.push pc).pop h
  | other {h : PredictorHistory η PC} : h.usedRAS = false → h.wasCall = false → RASPart s pc s h

/-- A branch that is neither a call nor a return, and has no target in the BTB. -/
def btbMiss (p : Params) (s : BPredUnit σ η PC) (inst : StaticInst PC) (addr : Nat) : Bool :=
  !inst.isCall && !inst.isReturn && (inst.isDirectCtrl || !p.useIndirect) && !s.BTB.valid p addr

/-- What a prediction makes of the unit `s`; `dir` is the state of the predictor after the direction. -/
structure Predicted (p : Params) (isa : TheISA PC) (bp : DirPredictor σ η) (s : BPredUnit σ η PC) (inst : StaticInst PC) (pc : PC)
    (dir : σ) (r h : PredictorHistory η PC) (u : BPredUnit σ η PC) : Prop where
  predHist : u.predHist = s.predHist
  seqNum : h.seqNum = r.seqNum
  pc_eq : h.pc = r.pc
  bpHistory : h.bpHistory = r.bpHistory
  predTaken : h.predTaken = r.predTaken
  ras_eq : RASPart s.RAS pc u.RAS h
  dir_eq : u.dir = dir ∨ u.dir = bp.btbUpdate dir (isa.instAddr pc) r.bpHistory ∧ r.predTaken = true ∧
    btbMiss p s inst (isa.instAddr pc) = true
  iPred_eq : h.wasIndirect = false ∧ u.iPred = s.iPred ∨ h.wasIndirect = true ∧ u.dir = dir ∧
    ∃ tgt, u.iPred = s.iPred.recordIndirect (isa.instAddr pc) tgt r.seqNum

variable {h : PredictorHistory η PC}

theorem predictDirect_spec (dir : σ) {r : PredictorHistory η PC} {RAS : ReturnAddrStack PC}
    (hkept : h.seqNum = r.seqNum ∧ h.pc = r.pc ∧ h.bpHistory = r.bpHistory ∧ h.predTaken = r.predTaken)
    (htaken : r.predTaken = true) (hret : inst.isReturn = false) (hind : h.wasIndirect = false)
    (hdirect : (inst.isDirectCtrl || !p.useIndirect) = true) (hpart : RASPart s.RAS pc RAS h)
    (hpop : inst.isCall = true → RASPart s.RAS pc RAS.pop { h with pushedRAS := false }) :
    let q := predictDirect p isa bp { s with dir := dir, RAS := RAS } h inst pc
    Predicted p isa bp s inst pc dir r q.record q.unit := by
  obtain ⟨hseq, hpc, hhist, hpred⟩ := hkept
  intro q
  by_cases hv : s.BTB.valid p (isa.instAddr pc) = true
  · have hq : q = ⟨{ s with dir := dir, RAS := RAS }, h, true, s.BTB.lookup p isa.zero (isa.instAddr pc)⟩ := if_pos hv
    rw [hq]
    exact ⟨rfl, hseq, hpc, hhist, hpred, hpart, .inl rfl, .inl ⟨hind, rfl⟩⟩
  · cases hcall : inst.isCall with
    | false =>
      have hq : q = ⟨{ s with dir := bp.btbUpdate dir (isa.instAddr pc) h.bpHistory, RAS := RAS }, h, false,
          inst.advancePC pc⟩ := by
        show predictDirect .. = _
        rw [predictDirect, if_neg hv, if_pos (by rw [hcall, hret]; rfl)]
      rw [hq]
      refine ⟨rfl, hseq, hpc, hhist, hpred, hpart, .inr ⟨by rw [hhist], htaken, ?_⟩, .inl ⟨hind, rfl⟩⟩
      rw [Bool.not_eq_true] at hv
      rw [btbMiss, hcall, hret, hdirect, hv]
      rfl
    | true =>
      have hq : q = ⟨(popCall { s with dir := dir, RAS := RAS } h inst).1,
          (popCall { s with dir := dir, RAS := RAS } h inst).2, false, inst.advancePC pc⟩ := by
        show predictDirect .. = _
        rw [predictDirect, if_neg hv, if_neg (by rw [hcall]; simp)]
      rw [hq]
      unfold popCall
      split
      · exact ⟨rfl, hseq, hpc, hhist, hpred, hpop hcall, .inl rfl, .inl ⟨hind, rfl⟩⟩
      · exact ⟨rfl, hseq, hpc, hhist, hpred, hpart, .inl rfl, .inl ⟨hind, rfl⟩⟩

theorem predictIndirect_spec (dir : σ) {r : PredictorHistory η PC} {RAS : ReturnAddrStack PC}
    (hkept : h.seqNum = r.seqNum ∧ h.pc = r.pc ∧ h.bpHistory = r.bpHistory ∧ h.predTaken = r.predTaken)
    (hpart : RASPart s.RAS pc RAS { h with wasIndirect := true })
    (hpop : inst.isCall = true → RASPart s.RAS pc RAS.pop { h with wasIndirect := true, pushedRAS := false }) :
    let q := predictIndirect p isa bp { s with dir := dir, RAS := RAS } h inst pc
    Predicted p isa bp s inst pc dir r q.record q.unit := by
  obtain ⟨hseq, hpc, hhist, hpred⟩ := hkept
  intro q
  show Predicted _ _ _ _ _ _ _ _ (predictIndirect ..).record (predictIndirect ..).unit
  unfold predictIndirect
  dsimp only
  split
  · exact ⟨rfl, hseq, hpc, hhist, hpred, hpart, .inl rfl, .inr ⟨rfl, rfl, _, by rw [hseq]⟩⟩
  · unfold popCall
    split
    next hc =>
      have hcall := (Bool.and_eq_true_iff.1 hc).1
      exact ⟨rfl, hseq, hpc, hhist, hpred, hpop hcall, .inl rfl, .inr ⟨rfl, rfl, _, by rw [hseq]⟩⟩
    next => exact ⟨rfl, hseq, hpc, hhist, hpred, hpart, .inl rfl, .inr ⟨rfl, rfl, _, by rw [hseq]⟩⟩

theorem predictTarget_spec (p : Params) (isa : TheISA PC) (bp : DirPredictor σ η) (s : BPredUnit σ η PC)
    (inst : StaticInst PC) (pc : PC) (dir : σ) (seqNum addr : Nat) (taken : Bool) (hist : η) :
    let r := predict_record isa seqNum addr taken hist
    let q := predictTarget p isa bp { s with dir := dir } r inst pc
    Predicted p isa bp s inst pc dir r q.record q.unit := by
  intro r q
  cases htaken : r.predTaken with
  | false =>
    have hq : q = ⟨{ s with dir := dir }, { r with wasReturn := inst.isReturn }, false, inst.advancePC pc⟩ :=
      if_neg (by rw [htaken]; decide)
    rw [hq]
    exact ⟨rfl, rfl, rfl, rfl, rfl, .other rfl rfl, .inl rfl, .inl ⟨rfl, rfl⟩⟩
  | true =>
    cases hret : inst.isReturn with
    | true =>
      have hq : q = predictReturn isa { s with dir := dir } r pc := by
        show predictTarget .. = _
        rw [predictTarget, if_pos htaken, if_pos hret]
      rw [hq]
      exact ⟨rfl, rfl, rfl, rfl, rfl, .ret rfl rfl rfl rfl, .inl rfl, .inl ⟨rfl, rfl⟩⟩
    | false =>
      show Predicted _ _ _ _ _ _ _ _ (predictTarget ..).record (predictTarget ..).unit
      rw [predictTarget, if_pos htaken, if_neg (by rw [hret]; decide)]
      cases hcall : inst.isCall with
      | true =>
        simp only [pushCall, hcall, if_true]
        split
        next hdirect =>
          exact predictDirect_spec dir (r := r) ⟨rfl, rfl, rfl, rfl⟩ htaken hret rfl hdirect (.call rfl rfl rfl rfl)
            fun _ => .missed rfl rfl rfl
        · exact predictIndirect_spec dir (r := r) ⟨rfl, rfl, rfl, rfl⟩ (.call rfl rfl rfl rfl)
            fun _ => .missed rfl rfl rfl
      | false =>
        have hno : ∀ {P : Prop}, inst.isCall = true → P := fun h => by rw [hcall] at h; cases h
        simp only [pushCall, hcall, Bool.false_eq_true, if_false]
        split
        next hdirect =>
          exact predictDirect_spec dir (r := r) ⟨rfl, rfl, rfl, rfl⟩ htaken hret rfl hdirect (.other rfl rfl) hno
        · exact predictIndirect_spec dir (r := r) ⟨rfl, rfl, rfl, rfl⟩ (.other rfl rfl) hno

theorem predict_spec (p : Params) (isa : TheISA PC) (bp : DirPredictor σ η) (s : BPredUnit σ η PC)
    (inst : StaticInst PC) (seqNum : Nat) (pc : PC) :
    ∃ h, (s.predict p isa bp inst seqNum pc).1.predHist = h :: s.predHist ∧
      Predicted p isa bp s inst pc (s.direction bp inst (isa.instAddr pc)).1
        (predict_record isa seqNum (isa.instAddr pc) (s.direction bp inst (isa.instAddr pc)).2.2
          (s.direction bp inst (isa.instAddr pc)).2.1) h
        { (s.predict p isa bp inst seqNum pc).1 with predHist := s.predHist } := by
  have hspec := predictTarget_spec p isa bp s inst pc (s.direction bp inst (isa.instAddr pc)).1 seqNum
    (isa.instAddr pc) (s.direction bp inst (isa.instAddr pc)).2.2 (s.direction bp inst (isa.instAddr pc)).2.1
  refine ⟨_, congrArg₂ List.cons rfl hspec.predHist, ?_⟩
  exact ⟨rfl, hspec.seqNum, hspec.pc_eq, hspec.bpHistory, hspec.predTaken, hspec.ras_eq, hspec.dir_eq, hspec.iPred_eq⟩

theorem correctRAS_record (RAS : ReturnAddrStack PC) (h : PredictorHistory η PC) (taken : Bool) :
    (correctRAS RAS h taken).2 =
      { h with usedRAS := (correctRAS RAS h taken).2.usedRAS, pushedRAS := (correctRAS RAS h taken).2.pushedRAS } := by
  unfold correctRAS
  split
  · split <;> rfl
  · split
    · rfl
    · split <;> rfl

theorem correct_spec {hs : List (PredictorHistory η PC)} {taken : Bool} {random : Nat} {u : BPredUnit σ η PC}
    (hu : s.correct p isa bp h hs corrTarget taken random = some u) :
    u.predHist = (correctRAS s.RAS { h with predTaken := taken } taken).2 :: hs ∧
      u.RAS = (correctRAS s.RAS { h with predTaken := taken } taken).1 ∧
      u.dir = bp.update s.dir h.pc taken h.bpHistory true := by
  simp only [correct, correctTarget] at hu
  split at hu
  · split at hu
    · obtain ⟨i, -, rfl⟩ := Option.map_eq_some_iff.1 hu
      exact ⟨rfl, rfl, rfl⟩
    · cases hu
      exact ⟨rfl, rfl, rfl⟩
  · cases hu
    exact ⟨rfl, rfl, rfl⟩

theorem correct_now {hs : List (PredictorHistory η PC)} {taken : Bool} {random : Nat} {u : BPredUnit σ η PC}
    (hu : s.correct p isa bp h hs corrTarget taken random = some u) (d : PredictorHistory η PC) :
    (u.predHist.headD d).seqNum = h.seqNum ∧ (u.predHist.headD d).pc = h.pc ∧
      (u.predHist.headD d).bpHistory = h.bpHistory ∧ (u.predHist.headD d).wasIndirect = h.wasIndirect := by
  obtain ⟨hhist, -, -⟩ := correct_spec hu
  rw [hhist, List.headD_cons, correctRAS_record]
  exact ⟨rfl, rfl, rfl, rfl⟩

end BPredUnit

/-! ## The branches in flight -/

variable {n : Nat}

namespace Watched

variable {p : Params} {isa : TheISA PC} {bp : DirPredictor σ η} {s s' : Watched σ η PC}

structure Flights (s : Watched σ η PC) : Prop where
  map_now : s.flight.map Flight.now = s.unit.predHist
  sorted : (s.flight.map Flight.seqNum).Pairwise (· > ·)
  retired_sorted : (s.retired.map Flight.seqNum).Pairwise (· < ·)
  le_newest : ∀ f ∈ s.flight, ∃ m ∈ s.newest, f.seqNum ≤ m
  retired_le : ∀ g ∈ s.retired, ∃ m ∈ s.newest, g.seqNum ≤ m
  retired_lt : ∀ g ∈ s.retired, ∀ f ∈ s.flight, g.seqNum < f.seqNum

theorem flights_start (dir : σ) : Flights (start p isa dir : Watched σ η PC) where
  map_now := rfl
  sorted := List.Pairwise.nil
  retired_sorted := List.Pairwise.nil
  le_newest _ hf := absurd hf List.not_mem_nil
  retired_le _ hg := absurd hg List.not_mem_nil
  retired_lt _ hg := absurd hg List.not_mem_nil

theorem Flights.map_upTo (h : Flights s) (n : Nat) :
    (s.upTo n).map Flight.now = s.unit.predHist.dropWhile fun h => n < h.seqNum := by
  rw [← h.map_now, List.dropWhile_map]
  rfl

variable {f : Flight σ η PC}

theorem mem_of_mem_upTo (hf : f ∈ s.upTo n) : f ∈ s.flight :=
  (List.dropWhile_suffix _).subset hf

/-- The branches that are left are up to the sequence number. -/
theorem Flights.le_of_mem_upTo (h : Flights s) (hf : f ∈ s.upTo n) : f.seqNum ≤ n := by
  have hsorted := h.sorted
  unfold upTo at hf
  generalize s.flight = fl at hf hsorted
  induction fl with
  | nil => cases hf
  | cons g gs ih =>
    rw [List.map_cons, List.pairwise_cons] at hsorted
    rw [List.dropWhile_cons] at hf
    split at hf
    · exact ih hf hsorted.2
    next hg =>
      have hgn : g.seqNum ≤ n := Nat.not_lt.1 fun hlt => hg (decide_eq_true hlt)
      rcases List.mem_cons.1 hf with rfl | hf
      · exact hgn
      · exact (Nat.le_of_lt (hsorted.1 _ (List.mem_map_of_mem hf))).trans hgn

theorem Flights.mem_upTo (h : Flights s) : f ∈ s.upTo n ↔ f ∈ s.flight ∧ f.seqNum ≤ n := by
  refine ⟨fun hf => ⟨mem_of_mem_upTo hf, h.le_of_mem_upTo hf⟩, fun ⟨hf, hle⟩ => ?_⟩
  have hsplit := List.takeWhile_append_dropWhile (p := fun f : Flight σ η PC => decide (n < f.seqNum)) (l := s.flight)
  rw [← hsplit] at hf
  rcases List.mem_append.1 hf with hf | hf
  · have hlt := of_decide_eq_true (List.mem_takeWhile_imp (p := fun f : Flight σ η PC => decide (n < f.seqNum)) hf)
    omega
  · exact hf

/-- A branch in flight is the youngest one that is left by a squash to it. -/
theorem Flights.upTo_cons (h : Flights s) (hf : f ∈ s.flight) : ∃ fs, s.upTo f.seqNum = f :: fs := by
  have hsorted := h.sorted
  unfold upTo
  generalize s.flight = fl at hf hsorted
  induction fl with
  | nil => cases hf
  | cons g gs ih =>
    rw [List.map_cons, List.pairwise_cons] at hsorted
    rw [List.dropWhile_cons]
    rcases List.mem_cons.1 hf with rfl | hf
    · exact ⟨gs, if_neg (by simp)⟩
    · rw [if_pos (decide_eq_true (hsorted.1 _ (List.mem_map_of_mem hf)))]
      exact ih hf hsorted.2

/-- After a squash to a branch in flight, its record is the first. -/
theorem Flights.squash_predHist (h : Flights s) (bp : DirPredictor σ η) {fs : List (Flight σ η PC)}
    (hfs : s.upTo f.seqNum = f :: fs) : (s.unit.squash bp f.seqNum).predHist = f.now :: fs.map Flight.now := by
  have hmap := h.map_upTo f.seqNum
  rw [hfs] at hmap
  exact hmap.symm

theorem Flights.of_suffix (h : Flights s) {fs : List (Flight σ η PC)} {u : BPredUnit σ η PC} (hfs : fs <:+ s.flight)
    (hmap : fs.map Flight.now = u.predHist) : Flights { s with unit := u, flight := fs } where
  map_now := hmap
  sorted := h.sorted.sublist (hfs.sublist.map _)
  retired_sorted := h.retired_sorted
  le_newest f hf := h.le_newest f (hfs.subset hf)
  retired_le := h.retired_le
  retired_lt g hg f hf := h.retired_lt g hg f (hfs.subset hf)

theorem Flights.predict (h : Flights s) {inst : StaticInst PC} {seqNum : Nat} {pc : PC}
    (hp : Permitted s (.predict inst seqNum pc)) (hs : step p isa bp s (.predict inst seqNum pc) = some s') :
    ∃ r u, u = (s.unit.predict p isa bp inst seqNum pc).1 ∧ u.predHist = r :: s.unit.predHist ∧
      s' = { s with unit := u, flight := ⟨inst, r, r, s.unit, u, u⟩ :: s.flight, newest := some seqNum } ∧ Flights s' := by
  obtain ⟨r, hr, hpred⟩ := BPredUnit.predict_spec p isa bp s.unit inst seqNum pc
  have hseq : r.seqNum = seqNum := hpred.seqNum
  simp only [step, hr, List.head?_cons, Option.map_some, Option.some.injEq] at hs
  refine ⟨r, _, rfl, hr, hs.symm, ?_⟩
  have hlt : ∀ f ∈ s.flight, f.seqNum < seqNum := fun f hf => by
    obtain ⟨m, hm, hle⟩ := h.le_newest f hf
    exact Nat.lt_of_le_of_lt hle (hp m hm)
  rw [← hs]
  constructor
  case map_now =>
    show r :: s.flight.map Flight.now = _
    rw [h.map_now, hr]
  case sorted =>
    show (r.seqNum :: s.flight.map Flight.seqNum).Pairwise _
    refine List.pairwise_cons.2 ⟨fun n hn => ?_, h.sorted⟩
    obtain ⟨f, hf, rfl⟩ := List.mem_map.1 hn
    rw [hseq]
    exact hlt f hf
  case le_newest =>
    intro f hf
    refine ⟨seqNum, rfl, ?_⟩
    rcases List.mem_cons.1 hf with rfl | hf
    · exact hseq.le
    · exact (hlt f hf).le
  case retired_sorted => exact h.retired_sorted
  case retired_le =>
    intro g hg
    obtain ⟨m, hm, hle⟩ := h.retired_le g hg
    exact ⟨seqNum, rfl, hle.trans (hp m hm).le⟩
  case retired_lt =>
    intro g hg f hf
    rcases List.mem_cons.1 hf with rfl | hf
    · obtain ⟨m, hm, hle⟩ := h.retired_le g hg
      show g.seqNum < r.seqNum
      rw [hseq]
      exact Nat.lt_of_le_of_lt hle (hp m hm)
    · exact h.retired_lt g hg f hf

/-- The branches that a commit leaves in flight are younger. -/
theorem Flights.lt_of_mem_rdropWhile (h : Flights s) (hf : f ∈ s.flight.rdropWhile fun f => f.seqNum ≤ n) :
    n < f.seqNum := by
  have hne := List.ne_nil_of_mem hf
  have hlast := List.rdropWhile_last_not (fun f : Flight σ η PC => decide (f.seqNum ≤ n)) s.flight hne
  have hsorted := h.sorted.sublist
    ((List.rdropWhile_prefix (fun f : Flight σ η PC => decide (f.seqNum ≤ n)) s.flight).sublist.map _)
  rw [← List.dropLast_append_getLast hne] at hf hsorted
  rw [List.map_append, List.pairwise_append] at hsorted
  have hlt := Nat.lt_of_not_le fun hle => hlast (decide_eq_true hle)
  rcases List.mem_append.1 hf with hf | hf
  · exact hlt.trans (hsorted.2.2 _ (List.mem_map_of_mem hf) _ (List.mem_map_of_mem (List.mem_singleton_self _)))
  · exact List.mem_singleton.1 hf ▸ hlt

theorem Flights.update (h : Flights s) {done_sn : Nat} (hs : step p isa bp s (.update done_sn) = some s') :
    Flights s' := by
  have hsplit : (s.flight.rdropWhile fun f => decide (f.seqNum ≤ done_sn)) ++
      (s.flight.rtakeWhile fun f => decide (f.seqNum ≤ done_sn)) = s.flight := List.rdropWhile_append_rtakeWhile
  have hsorted := h.sorted
  rw [← hsplit, List.map_append, List.pairwise_append] at hsorted
  have hkeep : ∀ f ∈ s.flight.rdropWhile fun f => f.seqNum ≤ done_sn, f ∈ s.flight :=
    fun f hf => (List.rdropWhile_prefix _ _).subset hf
  have hcommit : ∀ f ∈ s.flight.rtakeWhile fun f => f.seqNum ≤ done_sn, f ∈ s.flight :=
    fun f hf => (List.rtakeWhile_suffix _ _).subset hf
  simp only [step, Option.some.injEq] at hs
  rw [← hs]
  constructor
  case map_now =>
    show (s.flight.rdropWhile _).map _ = s.unit.predHist.rdropWhile _
    rw [← h.map_now, List.rdropWhile, List.rdropWhile, ← List.map_reverse, List.dropWhile_map, List.map_reverse]
    rfl
  case sorted => exact hsorted.1
  case retired_sorted =>
    show ((s.retired ++ _).map Flight.seqNum).Pairwise _
    rw [List.map_append, List.map_reverse, List.pairwise_append, List.pairwise_reverse]
    refine ⟨h.retired_sorted, hsorted.2.1, fun a ha b hb => ?_⟩
    obtain ⟨g, hg, rfl⟩ := List.mem_map.1 ha
    obtain ⟨f, hf, rfl⟩ := List.mem_map.1 (List.mem_reverse.1 hb)
    exact h.retired_lt g hg f (hcommit f hf)
  case le_newest => exact fun f hf => h.le_newest f (hkeep f hf)
  case retired_le =>
    intro g hg
    rcases List.mem_append.1 hg with hg | hg
    · exact h.retired_le g hg
    · exact h.le_newest g (hcommit g (List.mem_reverse.1 hg))
  case retired_lt =>
    intro g hg f hf
    rcases List.mem_append.1 hg with hg | hg
    · exact h.retired_lt g hg f (hkeep f hf)
    · exact hsorted.2.2 _ (List.mem_map_of_mem hf) _ (List.mem_map_of_mem (List.mem_reverse.1 hg))

theorem Flights.squash (h : Flights s) (hs : step p isa bp s (.squash n) = some s') : Flights s' := by
  simp only [step, Option.some.injEq] at hs
  rw [← hs]
  exact h.of_suffix (List.dropWhile_suffix _) (h.map_upTo n)

/-- The branch that is corrected is the youngest one then. -/
theorem Flights.squashCorrect (h : Flights s) {taken : Bool} {random : Nat}
    (hp : Permitted s (.squashCorrect n corrTarget taken random))
    (hs : step p isa bp s (.squashCorrect n corrTarget taken random) = some s') :
    ∃ f fs u, s.upTo n = f :: fs ∧ f ∈ s.flight ∧ f.seqNum = n ∧ (s.unit.squash bp n).predHist = f.now :: fs.map Flight.now ∧
      (s.unit.squash bp n).correct p isa bp f.now (fs.map Flight.now) corrTarget taken random = some u ∧
      s' = { s with unit := u, flight := { f with now := u.predHist.headD f.now, last := u } :: fs } ∧ Flights s' := by
  obtain ⟨f, hf, rfl⟩ := hp
  obtain ⟨fs, hfs⟩ := h.upTo_cons hf
  have hmap := h.squash_predHist bp hfs
  simp only [step] at hs
  obtain ⟨u, hu, rfl⟩ := Option.map_eq_some_iff.1 hs
  have hcorrect : (s.unit.squash bp f.seqNum).correct p isa bp f.now (fs.map Flight.now) corrTarget taken random =
      some u := by
    simp only [BPredUnit.squashCorrect, hmap] at hu
    rwa [if_pos (show f.now.seqNum = f.seqNum from rfl)] at hu
  obtain ⟨hhist, -, -⟩ := BPredUnit.correct_spec hcorrect
  have hseq : (u.predHist.headD f.now).seqNum = f.seqNum := (BPredUnit.correct_now hcorrect f.now).1
  refine ⟨f, fs, u, hfs, hf, rfl, hmap, hcorrect, by rw [hfs]; rfl, ?_⟩
  have hsuffix : f :: fs <:+ s.flight := hfs ▸ List.dropWhile_suffix _
  have hbase : Flights { s with flight := f :: fs, unit := { s.unit with predHist := f.now :: fs.map Flight.now } } :=
    h.of_suffix hsuffix rfl
  rw [hfs]
  constructor
  case map_now =>
    show u.predHist.headD f.now :: fs.map Flight.now = u.predHist
    rw [hhist]
    rfl
  case sorted =>
    show ((u.predHist.headD f.now).seqNum :: fs.map Flight.seqNum).Pairwise _
    rw [hseq]
    exact hbase.sorted
  case le_newest =>
    intro g hg
    rcases List.mem_cons.1 hg with rfl | hg
    · obtain ⟨m, hm, hle⟩ := hbase.le_newest f List.mem_cons_self
      exact ⟨m, hm, hseq.le.trans hle⟩
    · exact hbase.le_newest g (List.mem_cons_of_mem f hg)
  case retired_sorted => exact h.retired_sorted
  case retired_le => exact h.retired_le
  case retired_lt =>
    intro k hk g hg
    rcases List.mem_cons.1 hg with rfl | hg
    · exact (hbase.retired_lt k hk f List.mem_cons_self).trans_le hseq.ge
    · exact hbase.retired_lt k hk g (List.mem_cons_of_mem f hg)

theorem Flights.step (h : Flights s) {c : PredCall PC} (hp : Permitted s c) (hs : step p isa bp s c = some s') :
    Flights s' := by
  cases c with
  | predict inst seqNum pc =>
    obtain ⟨_, _, -, -, -, h'⟩ := h.predict hp hs
    exact h'
  | update done_sn => exact h.update hs
  | squash n => exact h.squash hs
  | squashCorrect n corrTarget taken random =>
    obtain ⟨_, _, _, -, -, -, -, -, -, h'⟩ := h.squashCorrect hp hs
    exact h'

end Watched

/-! ## What a squash takes back -/

/-- A relation `At` of the unit to a moment, and a relation `Link` of a moment to the next branch: each call keeps them, and
undoing a branch takes the unit from its moment to the one before. -/
structure Tracks (p : Params) (isa : TheISA PC) (bp : DirPredictor σ η) (At : BPredUnit σ η PC → BPredUnit σ η PC → Prop)
    (Link : BPredUnit σ η PC → Flight σ η PC → Prop) (Undoable : Flight σ η PC → Prop)
    (Correctable : Flight σ η PC → Bool → Prop) : Prop where
  predict : ∀ {s m u inst seqNum pc h}, At s m → u = (BPredUnit.predict p isa bp s inst seqNum pc).1 →
    u.predHist = h :: s.predHist → Link m ⟨inst, h, h, s, u, u⟩ ∧ At u u
  update : ∀ {s m} done_sn, At s m → At (s.update p bp done_sn) m
  undo : ∀ {s m f}, Link m f → Undoable f → At s f.last → At (BPredUnit.undo bp s f.now) m
  frame : ∀ {s m} iPred predHist, At s m → At { s with iPred := iPred, predHist := predHist } m
  correct : ∀ {s m u f hs corrTarget taken random}, Link m f → Correctable f taken → At s f.last →
    BPredUnit.correct p isa bp s f.now hs corrTarget taken random = some u →
    Link m { f with now := u.predHist.headD f.now, last := u } ∧ At u u

namespace Tracks

open Watched

variable {p : Params} {isa : TheISA PC} {bp : DirPredictor σ η} {At : BPredUnit σ η PC → BPredUnit σ η PC → Prop}
  {Link : BPredUnit σ η PC → Flight σ η PC → Prop} {Undoable : Flight σ η PC → Prop}
  {Correctable : Flight σ η PC → Bool → Prop} {s s' : Watched σ η PC}

structure Inv (At : BPredUnit σ η PC → BPredUnit σ η PC → Prop) (Link : BPredUnit σ η PC → Flight σ η PC → Prop)
    (s : Watched σ η PC) : Prop where
  flights : Flights s
  chain : Undo.Chain Flight.last Link s.base s.flight
  at_top : At s.unit (Undo.top Flight.last s.base s.flight)

theorem squash (ht : Tracks p isa bp At Link Undoable Correctable) (h : Inv At Link s)
    (hu : ∀ f ∈ s.flight, n < f.seqNum → Undoable f) : At (s.unit.squash bp n) (s.momentAt n) := by
  have hsound : ∀ f ∈ s.flight.takeWhile fun f => decide (n < f.seqNum), Undoable f := fun f hf =>
    hu f ((List.takeWhile_sublist _).subset hf)
      (of_decide_eq_true (List.mem_takeWhile_imp (p := fun f : Flight σ η PC => decide (n < f.seqNum)) hf))
  have hstep : ∀ (u m : BPredUnit σ η PC) (f : Flight σ η PC), Link m f → Undoable f → At u f.last →
      At (BPredUnit.undo bp u f.now) m := fun _ _ _ hl hs ha => ht.undo hl hs ha
  have hundo := h.chain.undo hstep h.at_top hsound
  have hfold : (s.flight.takeWhile fun f => decide (n < f.seqNum)).foldl (fun u f => BPredUnit.undo bp u f.now) s.unit =
      (s.unit.predHist.takeWhile fun h => decide (n < h.seqNum)).foldl (BPredUnit.undo bp) s.unit := by
    rw [← h.flights.map_now, List.takeWhile_map, List.foldl_map]
    rfl
  rw [hfold] at hundo
  exact ht.frame _ _ hundo

theorem step (ht : Tracks p isa bp At Link Undoable Correctable) (h : Inv At Link s) {c : PredCall PC}
    (hp : Permitted s c) (hc : Careful Undoable Correctable s c) (hs : Watched.step p isa bp s c = some s') :
    Inv At Link s' := by
  have hflights := h.flights.step hp hs
  cases c with
  | predict inst seqNum pc =>
    obtain ⟨r, u, hu, hr, rfl, -⟩ := h.flights.predict hp hs
    obtain ⟨hlink, hat⟩ := ht.predict h.at_top hu hr
    exact ⟨hflights, ⟨hlink, h.chain⟩, hat⟩
  | update done_sn =>
    have hsplit : (s.flight.rdropWhile fun f => decide (f.seqNum ≤ done_sn)) ++
        (s.flight.rtakeWhile fun f => decide (f.seqNum ≤ done_sn)) = s.flight := List.rdropWhile_append_rtakeWhile
    have hchain := h.chain
    have hat := h.at_top
    rw [← hsplit, Undo.Chain.append] at hchain
    rw [← hsplit, Undo.top_append] at hat
    cases hs
    exact ⟨hflights, hchain.1, ht.update done_sn hat⟩
  | squash n =>
    have hat := ht.squash h hc
    cases hs
    exact ⟨hflights, h.chain.dropWhile, hat⟩
  | squashCorrect n corrTarget taken random =>
    obtain ⟨f, fs, u, hfs, hf, hseq, -, hcorrect, rfl, -⟩ := h.flights.squashCorrect hp hs
    have hat := ht.squash h fun g hg => (hc g hg).1
    have hchain : Undo.Chain Flight.last Link s.base (s.upTo n) := h.chain.dropWhile
    rw [momentAt, hfs] at hat
    rw [hfs] at hchain
    obtain ⟨hlink, hat'⟩ := ht.correct hchain.1 ((hc f hf).2 hseq) hat hcorrect
    exact ⟨hflights, ⟨hlink, hchain.2⟩, hat'⟩

theorem run (ht : Tracks p isa bp At Link Undoable Correctable) {dir : σ}
    (hat : At (BPredUnit.new p isa dir) (BPredUnit.new p isa dir))
    (h : Run.Reaches (Watched.step p isa bp) (fun s c => Permitted s c ∧ Careful Undoable Correctable s c)
      (start p isa dir) s) : Inv At Link s :=
  h.inv ⟨flights_start dir, trivial, hat⟩ fun _ _ _ hi hok hs => ht.step hi hok.1 hok.2 hs

end Tracks

end Alpine.Cpu.Pred
