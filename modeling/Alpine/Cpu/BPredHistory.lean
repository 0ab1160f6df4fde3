import Alpine.Cpu.BPredRun
import Alpine.Cpu.BiMode

/-!
# Undoing the histories of the predictors

* `Trains` — a predictor whose counters change at the commit of a branch only; `Trains.run` — the counters of every run
  are those of the committed branches.
* `Tournament.Saved` — `btbUpdate` has not cleared a bit of a local history that the branch has not saved.
* `Tournament.tracks`, `BiMode.tracks` — what the calls keep.
* `histories_undone` — every squash undoes the histories, of the tournament predictor in the runs that take back only
  `Saved` branches.
-/

namespace Alpine.Cpu.Pred

variable {σ η κ PC : Type} {p : Pred.Params} {isa : TheISA PC} {bp : DirPredictor σ η}

/-! ## Counters -/

structure Trains (bp : DirPredictor σ η) (ctrs : σ → κ) (train : κ → Nat → Bool → η → κ) : Prop where
  lookup : ∀ s addr, ctrs (bp.lookup s addr).1 = ctrs s
  uncondBranch : ∀ s addr, ctrs (bp.uncondBranch s addr).1 = ctrs s
  btbUpdate : ∀ s addr h, ctrs (bp.btbUpdate s addr h) = ctrs s
  squash : ∀ s h, ctrs (bp.squash s h) = ctrs s
  corrected : ∀ s addr taken h, ctrs (bp.update s addr taken h true) = ctrs s
  committed : ∀ s addr taken h, ctrs (bp.update s addr taken h false) = train (ctrs s) addr taken h

namespace Trains

variable {ctrs : σ → κ} {train : κ → Nat → Bool → η → κ}

theorem predict (ht : Trains bp ctrs train) (s : BPredUnit σ η PC) (inst : StaticInst PC) (seqNum : Nat) (pc : PC) :
    ctrs (s.predict p isa bp inst seqNum pc).1.dir = ctrs s.dir := by
  obtain ⟨h, -, hpred⟩ := BPredUnit.predict_spec p isa bp s inst seqNum pc
  have hdir : ctrs (s.direction bp inst (isa.instAddr pc)).1 = ctrs s.dir := by
    unfold BPredUnit.direction
    split
    · exact ht.uncondBranch _ _
    · exact ht.lookup _ _
  rcases hpred.dir_eq with heq | ⟨heq, -, -⟩
  · exact (congrArg ctrs heq).trans hdir
  · exact (congrArg ctrs heq).trans ((ht.btbUpdate _ _ _).trans hdir)

theorem squash_dir (ht : Trains bp ctrs train) (s : BPredUnit σ η PC) (n : Nat) :
    ctrs (BPredUnit.squash bp s n).dir = ctrs s.dir := by
  have hfold : ∀ (hs : List (PredictorHistory η PC)) (u : BPredUnit σ η PC),
      ctrs (hs.foldl (BPredUnit.undo bp) u).dir = ctrs u.dir := by
    intro hs
    induction hs with
    | nil => exact fun _ => rfl
    | cons h hs ih => exact fun u => (ih (BPredUnit.undo bp u h)).trans (ht.squash u.dir h.bpHistory)
  exact hfold _ s

/-- The counters of a state are those of its committed branches. -/
def Trained (ctrs : σ → κ) (train : κ → Nat → Bool → η → κ) (dir : σ) (s : Watched σ η PC) : Prop :=
  ctrs s.unit.dir =
    s.retired.foldl (fun c (f : Flight σ η PC) => train c f.now.pc f.now.predTaken f.now.bpHistory) (ctrs dir)

theorem step (ht : Trains bp ctrs train) {dir : σ} {s s' : Watched σ η PC} (hf : Watched.Flights s)
    (h : Trained ctrs train dir s) {c : PredCall PC} (hp : Watched.Permitted s c)
    (hs : Watched.step p isa bp s c = some s') : Trained ctrs train dir s' := by
  cases c with
  | predict inst seqNum pc =>
    obtain ⟨r, u, rfl, -, rfl, -⟩ := hf.predict hp hs
    exact (ht.predict s.unit inst seqNum pc).trans h
  | update done_sn =>
    cases hs
    have hcommitted : ((s.flight.rtakeWhile fun f => f.seqNum ≤ done_sn).reverse).map Flight.now =
        s.unit.predHist.reverse.takeWhile fun h => h.seqNum ≤ done_sn := by
      rw [← hf.map_now, ← List.map_reverse, List.takeWhile_map, List.rtakeWhile, List.reverse_reverse]
      rfl
    have hfold : ∀ (fs : List (Flight σ η PC)) (d : σ),
        ctrs ((fs.map Flight.now).foldl (fun d h => bp.update d h.pc h.predTaken h.bpHistory false) d) =
          fs.foldl (fun c (f : Flight σ η PC) => train c f.now.pc f.now.predTaken f.now.bpHistory) (ctrs d) := by
      intro fs
      induction fs with
      | nil => exact fun _ => rfl
      | cons f fs ih =>
        intro d
        rw [List.map_cons, List.foldl_cons, List.foldl_cons, ih, ht.committed]
    show ctrs (List.foldl _ s.unit.dir _) = _
    rw [← hcommitted, hfold, List.foldl_append, ← h]
  | squash n =>
    cases hs
    exact (ht.squash_dir s.unit n).trans h
  | squashCorrect n corrTarget taken random =>
    obtain ⟨f, fs, u, -, -, -, -, hcorrect, rfl, -⟩ := hf.squashCorrect hp hs
    obtain ⟨-, -, hdir⟩ := BPredUnit.correct_spec hcorrect
    exact (congrArg ctrs hdir).trans ((ht.corrected _ _ _ _).trans ((ht.squash_dir s.unit n).trans h))

theorem run (ht : Trains bp ctrs train) {dir : σ} {s : Watched σ η PC}
    (h : Run.Reaches (Watched.step p isa bp) Watched.Permitted (Watched.start p isa dir) s) :
    Watched.Flights s ∧ Trained ctrs train dir s :=
  Run.Reaches.inv (P := fun t => Watched.Flights t ∧ Trained ctrs train dir t) ⟨Watched.flights_start dir, rfl⟩
    (fun _ _ _ hi hok hs => ⟨hi.1.step hok hs, ht.step hi.1 hi.2 hok hs⟩) h

end Trains

/-! ## The tournament predictor -/

namespace Tournament

variable (p) (q : Params)

theorem trains : Trains (tournamentBP q) State.ctrs (fun c _ taken h => train q c taken h) where
  lookup _ _ := rfl
  uncondBranch _ _ := rfl
  btbUpdate _ _ _ := rfl
  squash _ _ := rfl
  corrected _ _ _ _ := rfl
  committed _ _ _ _ := rfl

/-- An unconditional branch without a target in the BTB clears the last bit of a local history: it was clear before. -/
def Saved (f : Flight State BPHistory PC) : Prop :=
  f.inst.isUncondCtrl = true → BPredUnit.btbMiss p f.before f.inst f.now.pc = true →
    masked q f.before.dir (calcLocHistIdx q f.now.pc) % 2 = 0

/-- The histories are those of the moment. -/
def Same (s m : State) : Prop := s.globalHistory = m.globalHistory ∧ ∀ i, masked q s i = masked q m i

/-- What a branch has saved of the moment before it. -/
structure Link (m : BPredUnit State BPHistory PC) (f : Flight State BPHistory PC) : Prop where
  globalHistory : f.now.bpHistory.globalHistory = m.dir.globalHistory
  valid : f.now.bpHistory.localHistoryIdx ≠ invalidPredictorIndex →
    f.now.bpHistory.localHistoryIdx = calcLocHistIdx q f.now.pc ∧
      f.now.bpHistory.localHistory = masked q m.dir (calcLocHistIdx q f.now.pc) ∧
      ∀ i, i ≠ calcLocHistIdx q f.now.pc → masked q f.last.dir i = masked q m.dir i
  invalid : f.now.bpHistory.localHistoryIdx = invalidPredictorIndex →
    f.now.bpHistory.localHistory = invalidPredictorIndex ∧ (Saved p q f → ∀ i, masked q f.last.dir i = masked q m.dir i)

variable {p q}

theorem calcLocHistIdx_valid (addr : Nat) : calcLocHistIdx q addr ≠ invalidPredictorIndex := by
  obtain ⟨b, hb, hsize⟩ := q.localHistoryTableSize_pow2
  have hle : calcLocHistIdx q addr ≤ q.localHistoryTableSize - 1 := Nat.and_le_right
  have hpow : 2 ^ b ≤ 2 ^ 31 := Nat.pow_le_pow_right (by decide) (by omega)
  unfold invalidPredictorIndex
  omega

/-- Only the entry that is written changes. -/
theorem masked_update {s : State} {i j : Nat} {x : Nat} (hne : j ≠ i) :
    masked q { s with localHistoryTable := Function.update s.localHistoryTable i x } j = masked q s j := by
  exact congrArg (· &&& localPredictorMask q) (Function.update_of_ne hne x s.localHistoryTable)

theorem masked_self {s : State} {i x : Nat} :
    masked q { s with localHistoryTable := Function.update s.localHistoryTable i x } i = x &&& localPredictorMask q := by
  exact congrArg (· &&& localPredictorMask q) (Function.update_self i x s.localHistoryTable)

theorem localPredictorMask_bits (i : Nat) (hi : 64 ≤ i) : (localPredictorMask q).testBit i = false := by
  obtain ⟨b, hb, hsize⟩ := q.localPredictorSize_pow2
  have hle : ceilLog2 q.localPredictorSize ≤ 32 := by
    unfold ceilLog2
    split
    · omega
    next hone =>
      have hpos := Nat.two_pow_pos b
      have hpow : 2 ^ b ≤ 2 ^ 31 := Nat.pow_le_pow_right (by decide) (by omega)
      have hlog : Nat.log2 (q.localPredictorSize - 1) < 31 :=
        (Nat.log2_lt (by omega)).2 (by omega)
      omega
  rw [localPredictorMask, Nat.testBit_two_pow_sub_one]
  exact decide_eq_false (by omega)

theorem masked_clear {x : Nat} (heven : (x &&& localPredictorMask q) % 2 = 0) :
    (x &&& (localPredictorMask q &&& notOne)) &&& localPredictorMask q = x &&& localPredictorMask q := by
  apply Nat.eq_of_testBit_eq
  intro i
  have hbit : notOne.testBit i = (decide (i < 64) && !Nat.testBit 1 i) :=
    Nat.testBit_two_pow_sub_succ (by decide) i
  simp only [Nat.testBit_and]
  by_cases hi : i = 0
  · have hlow : ((x &&& localPredictorMask q).testBit 0) = false := by
      rw [Nat.testBit_zero, heven]
      rfl
    rw [Nat.testBit_and] at hlow
    rw [hi]
    cases hx : x.testBit 0 with
    | false => rfl
    | true =>
      rw [hx, Bool.true_and] at hlow
      rw [hlow]
      rfl
  · have hone : Nat.testBit 1 i = false := by
      rw [← Bool.not_eq_true, Nat.testBit_one_eq_true_iff_self_eq_zero]
      exact hi
    by_cases hlt : i < 64
    · rw [hbit, hone, decide_eq_true hlt]
      cases x.testBit i <;> cases (localPredictorMask q).testBit i <;> rfl
    · rw [localPredictorMask_bits i (by omega)]
      simp

theorem Same.trans {s t m : State} (h : Same q s t) (h' : Same q t m) : Same q s m :=
  ⟨h.1.trans h'.1, fun i => (h.2 i).trans (h'.2 i)⟩

theorem Same.predict {s m u : BPredUnit State BPHistory PC} {inst : StaticInst PC} {seqNum : Nat} {pc : PC}
    {h : PredictorHistory BPHistory PC} (hat : Same q s.dir m.dir)
    (hu : u = (s.predict p isa (tournamentBP q) inst seqNum pc).1) (hh : u.predHist = h :: s.predHist) :
    Link p q m ⟨inst, h, h, s, u, u⟩ := by
  obtain ⟨hglobal, hlocal⟩ := hat
  obtain ⟨h', hh', hpred⟩ := BPredUnit.predict_spec p isa (tournamentBP q) s inst seqNum pc
  rw [← hu] at hh' hpred
  obtain rfl : h = h' := (List.cons.inj (hh.symm.trans hh')).1
  have hpc : h.pc = isa.instAddr pc := hpred.pc_eq
  have hhist : h.bpHistory = (s.direction (tournamentBP q) inst (isa.instAddr pc)).2.1 := hpred.bpHistory
  have hdir := hpred.dir_eq
  unfold BPredUnit.direction at hhist hdir
  by_cases huncond : inst.isUncondCtrl = true
  · simp only [huncond, if_true] at hhist hdir
    have hidx : h.bpHistory.localHistoryIdx = invalidPredictorIndex := by rw [hhist]; rfl
    constructor
    case globalHistory => exact (congrArg BPHistory.globalHistory hhist).trans hglobal
    case valid => exact fun hne => absurd hidx hne
    case invalid =>
      refine fun _ => ⟨by rw [hhist]; rfl, fun hsaved i => ?_⟩
      rw [← hlocal i]
      rcases hdir with hdir | ⟨hdir, -, hmiss⟩
      · exact (congrArg (masked q · i) hdir).trans rfl
      · refine (congrArg (masked q · i) hdir).trans ?_
        by_cases hi : i = calcLocHistIdx q (isa.instAddr pc)
        · rw [hi]
          have heven := hsaved huncond (by rw [hpc]; exact hmiss)
          rw [hpc] at heven
          exact masked_self.trans (masked_clear heven)
        · exact masked_update hi
  · simp only [huncond, if_false, Bool.false_eq_true] at hhist hdir
    have hidx : h.bpHistory.localHistoryIdx = calcLocHistIdx q (isa.instAddr pc) := by rw [hhist]; rfl
    constructor
    case globalHistory => exact (congrArg BPHistory.globalHistory hhist).trans hglobal
    case valid =>
      intro _
      show _ = calcLocHistIdx q h.pc ∧ _ = masked q m.dir (calcLocHistIdx q h.pc) ∧
        ∀ i, i ≠ calcLocHistIdx q h.pc → masked q u.dir i = masked q m.dir i
      rw [hpc]
      refine ⟨hidx, ?_, fun i hi => ?_⟩
      · rw [← hlocal, hhist]
        rfl
      · rw [← hlocal i]
        rcases hdir with hdir | ⟨hdir, -, -⟩
        · exact (congrArg (masked q · i) hdir).trans (masked_update hi)
        · exact (congrArg (masked q · i) hdir).trans ((masked_update hi).trans (masked_update hi))
    case invalid => exact fun hne => absurd (hidx.symm.trans hne) (calcLocHistIdx_valid _)

theorem tracks (isa : TheISA PC) : Tracks p isa (tournamentBP q) (fun s m => Same q s.dir m.dir) (Link p q) (Saved p q)
    (fun _ _ => True) where
  predict hat hu hh := ⟨hat.predict hu hh, rfl, fun _ => rfl⟩
  update done_sn hat := by
    have hsame : ∀ (hs : List (PredictorHistory BPHistory PC)) (d : State),
        Same q (hs.foldl (fun d h => update q d h.pc h.predTaken h.bpHistory false) d) d := by
      intro hs
      induction hs with
      | nil => exact fun _ => ⟨rfl, fun _ => rfl⟩
      | cons h hs ih => exact fun d => (ih _).trans ⟨rfl, fun _ => rfl⟩
    exact (hsame _ _).trans hat
  undo {s m f} hl hsaved hat := by
    refine ⟨hl.globalHistory, fun i => ?_⟩
    by_cases hidx : f.now.bpHistory.localHistoryIdx = invalidPredictorIndex
    · have hsquash : (squash s.dir f.now.bpHistory).localHistoryTable = s.dir.localHistoryTable := if_neg (not_not.2 hidx)
      show (squash s.dir f.now.bpHistory).localHistoryTable i &&& _ = _
      rw [hsquash]
      exact (hat.2 i).trans ((hl.invalid hidx).2 hsaved i)
    · obtain ⟨hcalc, hhist, hother⟩ := hl.valid hidx
      have hsquash : (squash s.dir f.now.bpHistory).localHistoryTable = Function.update s.dir.localHistoryTable
          f.now.bpHistory.localHistoryIdx f.now.bpHistory.localHistory := if_pos hidx
      show (squash s.dir f.now.bpHistory).localHistoryTable i &&& _ = _
      rw [hsquash, hcalc]
      by_cases hi : i = calcLocHistIdx q f.now.pc
      · rw [hi, Function.update_self, hhist, masked, Nat.and_assoc, Nat.and_self]
      · rw [Function.update_of_ne hi]
        exact (hat.2 i).trans (hother i hi)
  frame _ _ hat := hat
  correct {s m u f hs corrTarget taken random} hl _ hat hu := by
    obtain ⟨-, -, hdir⟩ := BPredUnit.correct_spec hu
    obtain ⟨-, hpc, hbp, -⟩ := BPredUnit.correct_now hu f.now
    refine ⟨⟨?_, ?_, ?_⟩, rfl, fun _ => rfl⟩
    · show (u.predHist.headD f.now).bpHistory.globalHistory = _
      rw [hbp]
      exact hl.globalHistory
    · show (u.predHist.headD f.now).bpHistory.localHistoryIdx ≠ _ → _
      dsimp only
      rw [hbp, hpc]
      intro hidx
      obtain ⟨hcalc, hlh, hother⟩ := hl.valid hidx
      refine ⟨hcalc, hlh, fun i hi => ?_⟩
      rw [hdir, ← hother i hi, ← hat.2 i]
      show (if _ then _ else _ : Nat → Nat) i &&& _ = _
      split
      · rw [Function.update_of_ne hi]
        rfl
      · rfl
    · show (u.predHist.headD f.now).bpHistory.localHistoryIdx = _ → _
      unfold Saved
      dsimp only
      rw [hbp, hpc]
      intro hidx
      obtain ⟨hlh, hsame⟩ := hl.invalid hidx
      refine ⟨hlh, fun hsaved i => ?_⟩
      rw [hdir, ← hsame hsaved i, ← hat.2 i]
      show (if _ then _ else _ : Nat → Nat) i &&& _ = _
      rw [if_neg (not_not.2 hlh)]
      rfl

end Tournament

/-! ## The bi-mode predictor -/

namespace BiMode

variable (p : Pred.Params) (q : Params)

theorem trains : Trains (biModeBP q) State.ctrs (train q) where
  lookup _ _ := rfl
  uncondBranch _ _ := rfl
  btbUpdate _ _ _ := rfl
  squash _ _ := rfl
  corrected _ _ _ _ := rfl
  committed _ _ _ _ := rfl

theorem tracks (isa : TheISA PC) : Tracks p isa (biModeBP q)
    (fun s m => s.dir.globalHistoryReg = m.dir.globalHistoryReg)
    (fun m f => f.now.bpHistory.globalHistoryReg = m.dir.globalHistoryReg) (fun _ => True) (fun _ _ => True) where
  predict {s m u inst seqNum pc h} hat hu hh := by
    obtain ⟨h', hh', hpred⟩ := BPredUnit.predict_spec p isa (biModeBP q) s inst seqNum pc
    rw [← hu] at hh' hpred
    obtain rfl : h = h' := (List.cons.inj (hh.symm.trans hh')).1
    refine ⟨?_, rfl⟩
    have hhist : h.bpHistory = (s.direction (biModeBP q) inst (isa.instAddr pc)).2.1 := hpred.bpHistory
    show h.bpHistory.globalHistoryReg = _
    rw [hhist, ← hat]
    unfold BPredUnit.direction
    split <;> rfl
  update done_sn hat := by
    have hsame : ∀ (hs : List (PredictorHistory BPHistory PC)) (d : State),
        (hs.foldl (fun d h => update q d h.pc h.predTaken h.bpHistory false) d).globalHistoryReg =
          d.globalHistoryReg := by
      intro hs
      induction hs with
      | nil => exact fun _ => rfl
      | cons h hs ih => exact fun d => ih _
    exact (hsame _ _).trans hat
  undo hl _ _ := hl
  frame _ _ hat := hat
  correct {s m u f hs corrTarget taken random} hl _ _ hu := by
    refine ⟨?_, rfl⟩
    show (u.predHist.headD f.now).bpHistory.globalHistoryReg = _
    rw [(BPredUnit.correct_now hu f.now).2.2.1]
    exact hl

end BiMode

/-! ## Every run -/

/-- The calls that take back branches with unsaved local histories are left out for the tournament predictor. -/
theorem histories_undone (p : Pred.Params) (isa : TheISA PC) (q : Tournament.Params) (q' : BiMode.Params) :
    ((∀ s, Run.Reaches (Watched.step p isa (Tournament.tournamentBP q))
          (fun s c => Watched.Permitted s c ∧ Watched.Careful (Tournament.Saved p q) (fun _ _ => True) s c)
          (Watched.start p isa (Tournament.init q)) s → ∀ n, (∀ f ∈ s.flight, n < f.seqNum → Tournament.Saved p q f) →
          Tournament.Same q (s.unit.squash (Tournament.tournamentBP q) n).dir (s.momentAt n).dir) ∧
      ∀ s, Run.Reaches (Watched.step p isa (Tournament.tournamentBP q)) Watched.Permitted
          (Watched.start p isa (Tournament.init q)) s → (s.retired.map Flight.seqNum).Pairwise (· < ·) ∧
        s.unit.dir.ctrs = s.retired.foldl
          (fun c (f : Flight _ _ PC) => Tournament.train q c f.now.predTaken f.now.bpHistory) (Tournament.init q).ctrs) ∧
    ((∀ s, Run.Reaches (Watched.step p isa (BiMode.biModeBP q')) Watched.Permitted
          (Watched.start p isa (BiMode.init q')) s →
        ∀ n, (s.unit.squash (BiMode.biModeBP q') n).dir.globalHistoryReg = (s.momentAt n).dir.globalHistoryReg) ∧
      ∀ s, Run.Reaches (Watched.step p isa (BiMode.biModeBP q')) Watched.Permitted
          (Watched.start p isa (BiMode.init q')) s → (s.retired.map Flight.seqNum).Pairwise (· < ·) ∧
        s.unit.dir.ctrs = s.retired.foldl
          (fun c (f : Flight _ _ PC) => BiMode.train q' c f.now.pc f.now.predTaken f.now.bpHistory)
            (BiMode.init q').ctrs) := by
  have htracks := Tournament.tracks (p := p) (q := q) isa
  have htracks' := BiMode.tracks p q' isa
  refine ⟨⟨fun s hs n hn => ?_, fun s hs => ?_⟩, fun s hs n => ?_, fun s hs => ?_⟩
  · exact htracks.squash (htracks.run ⟨rfl, fun _ => rfl⟩ hs) hn
  · obtain ⟨hflights, htrained⟩ := (Tournament.trains q).run hs
    exact ⟨hflights.retired_sorted, htrained⟩
  · have hcareful : ∀ (t : Watched BiMode.State BiMode.BPHistory PC) (c : PredCall PC), Watched.Permitted t c →
        Watched.Permitted t c ∧ Watched.Careful (fun _ => True) (fun _ _ => True) t c := by
      intro t c hok
      refine ⟨hok, ?_⟩
      cases c with
      | predict inst seqNum pc => exact trivial
      | update done_sn => exact trivial
      | squash n => exact fun _ _ _ => trivial
      | squashCorrect n corrTarget taken random => exact fun _ _ => ⟨fun _ => trivial, fun _ => trivial⟩
    exact htracks'.squash (htracks'.run rfl (hs.mono hcareful)) fun _ _ _ => trivial
  · obtain ⟨hflights, htrained⟩ := (BiMode.trains q').run hs
    exact ⟨hflights.retired_sorted, htrained⟩

/-! ### A jump without a target -/

namespace Tournament

/-- Tables of eight and four entries. -/
def tables : Params :=
  ⟨2, 4, 2, 4, 8, 2, 8, 2, ⟨2, by decide, rfl⟩, ⟨2, by decide, rfl⟩, ⟨3, by decide, rfl⟩, ⟨3, by decide, rfl⟩⟩

def biTables : BiMode.Params := ⟨2, 8, 2, 8, 2, ⟨3, by decide, rfl⟩, ⟨3, by decide, rfl⟩⟩

def unitOf : Pred.Params := ⟨16, 8, 2, 4, false, false, false, 1, 1, 8, 3, sixteen_pow2, one_pow2⟩

/-- Program counters are addresses. -/
def addresses : TheISA Nat := ⟨0, id, fun _ ras => ras + 4⟩

def branch : StaticInst Nat := ⟨false, false, false, true, (· + 4)⟩

def jump : StaticInst Nat := ⟨true, false, false, true, (· + 4)⟩

abbrev fresh : Watched State BPHistory Nat := Watched.start unitOf addresses (init tables)

/-- A branch that is corrected to taken, and a jump with another local history. -/
theorem histories_undone_jump : ∃ s : Watched State BPHistory Nat, s.unit.dir.globalHistory = 2 ∧ (s.momentAt 1).dir.globalHistory = 1 ∧
    Same tables (s.unit.squash (tournamentBP tables) 1).dir (s.momentAt 1).dir := by
  have h1 : Run.Reaches (Watched.step unitOf addresses (tournamentBP tables)) (fun s c => Watched.Permitted s c ∧
      Watched.Careful (Saved unitOf tables) (fun _ _ => True) s c) fresh _ :=
    .step .refl (i := PredCall.predict branch 1 0x100) ⟨fun _ h => absurd h (Option.not_mem_none _), trivial⟩ rfl
  have h2 := h1.step (i := PredCall.squashCorrect 1 0x200 true 0) ⟨⟨_, List.mem_cons_self, rfl⟩, fun f hf => by
    cases List.mem_singleton.1 hf
    exact ⟨fun h => absurd h (by decide), fun _ => trivial⟩⟩ rfl
  have h3 := h2.step (i := PredCall.predict jump 2 0x204) ⟨fun m h => by cases h; decide, trivial⟩ rfl
  refine ⟨_, rfl, rfl, (histories_undone unitOf addresses tables biTables).1.1 _ h3 1 fun f hf hlt => ?_⟩
  rcases List.mem_cons.1 hf with rfl | hf
  · exact fun _ _ => rfl
  · cases List.mem_singleton.1 hf
    exact absurd hlt (by decide)

/-- The same with a jump that has the local history of the branch: the squash leaves its last bit clear. -/
theorem local_history_lost : ∃ s, Run.Reaches (Watched.step unitOf addresses (tournamentBP tables)) Watched.Permitted
    fresh s ∧ Watched.Permitted s (.squash 1) ∧ masked tables (s.momentAt 1).dir 0 = 1 ∧
      masked tables (s.unit.squash (tournamentBP tables) 1).dir 0 = 0 := by
  have h1 : Run.Reaches (Watched.step unitOf addresses (tournamentBP tables)) Watched.Permitted fresh _ :=
    .step .refl (i := PredCall.predict branch 1 0x100) (fun _ h => absurd h (Option.not_mem_none _)) rfl
  have h2 := h1.step (i := PredCall.squashCorrect 1 0x200 true 0) ⟨_, List.mem_cons_self, rfl⟩ rfl
  have h3 := h2.step (i := PredCall.predict jump 2 0x210) (fun m h => by cases h; decide) rfl
  exact ⟨_, h3, fun _ h => absurd h List.not_mem_nil, rfl, rfl⟩

end Tournament

end Alpine.Cpu.Pred
