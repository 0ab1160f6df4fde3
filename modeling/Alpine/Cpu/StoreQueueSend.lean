import Alpine.Cpu.StoreQueueSteps

/-!
# Completion and write-back keep the invariant

`Core.completeStore` and `Core.completeDataAccess` for the responses, and the functions that send packets: each
leaves the unit with nothing to send for the store at the write-back index, or with its next packet kept
(`Registers`), and none of the assertions on the packets that are kept fails.
-/

namespace Alpine.Cpu.Lsq

variable {c : Config} {p : Program} {lsq lsq' : LSQUnit} {e : Nat → SQEntry} {H W T a i : Nat} {busy : Bool}

/-! ## Completion -/

theorem moveHead_spec (hn : 0 < c.SQEntries) (hWT : W ≤ T) (hwaiting : ∀ a, W ≤ a → a < T → (e a).completed = false) :
    ∀ (fuel H : Nat) (lsq : LSQUnit), lsq.storeHead = H % c.SQEntries → lsq.storeTail = T % c.SQEntries →
      lsq.stores = (T : Int) - H → Ring.Holds c.SQEntries lsq.storeQueue e H T → T < H + c.SQEntries → H < W →
      (∀ a ≤ H, (e a).completed = true) → W - H ≤ fuel → ∃ H', H < H' ∧ H' ≤ W ∧
        LSQUnit.moveHead c fuel lsq = some { lsq with storeHead := H' % c.SQEntries, stores := (T : Int) - H' } ∧
        (∀ a < H', (e a).completed = true) ∧ (H' < T → (e H').completed = false)
  | 0, H, lsq, hhead, htail, hstores, hholds, hlt, hHW, hleft, hfuel => by omega
  | fuel + 1, H, lsq, hhead, htail, hstores, hholds, hlt, hHW, hleft, hfuel => by
    have hnext : LSQUnit.incrStIdx c lsq.storeHead = (H + 1) % c.SQEntries := by
      rw [hhead]
      exact Ring.next_mod hn H
    have hcount : lsq.stores - 1 = (T : Int) - (H + 1 : Nat) := by omega
    unfold LSQUnit.moveHead
    simp only [hnext, hcount]
    by_cases hmore : H + 1 < T ∧ (e (H + 1)).completed = true
    · have hslot : (H + 1) % c.SQEntries ≠ lsq.storeTail := by
        intro heq
        rw [htail] at heq
        have := Ring.mod_inj (Nat.le_succ H) (by omega) (by omega) (by omega) heq
        omega
      have hgo : (lsq.storeQueue ((H + 1) % c.SQEntries)).completed = true ∧
          (H + 1) % c.SQEntries ≠ lsq.storeTail := by
        rw [hholds (H + 1) (Nat.le_succ H) hmore.1]
        exact ⟨hmore.2, hslot⟩
      have hHW' : H + 1 < W := by
        refine Nat.lt_of_not_le fun hle => ?_
        rw [hwaiting (H + 1) hle hmore.1] at hmore
        cases hmore.2
      rw [if_pos hgo]
      obtain ⟨H', hlt', hle', hrun, hleft', hhead'⟩ :=
        moveHead_spec hn hWT hwaiting fuel (H + 1)
          { lsq with storeHead := (H + 1) % c.SQEntries, stores := (T : Int) - (H + 1 : Nat) }
          rfl htail rfl (hholds.mono (Nat.le_succ H) (Nat.le_refl T)) (by omega) hHW'
          (fun a ha => by
            rcases Nat.lt_or_eq_of_le ha with ha | rfl
            · exact hleft a (by omega)
            · exact hmore.2) (by omega)
      exact ⟨H', by omega, hle', hrun, hleft', hhead'⟩
    · refine ⟨H + 1, Nat.lt_succ_self H, hHW, if_neg ?_, fun a ha => hleft a (Nat.lt_succ_iff.1 ha), fun hT => ?_⟩
      · rintro ⟨hcomp, hne⟩
        have hT : H + 1 < T := by
          refine Nat.lt_of_le_of_ne (by omega) fun heq => hne ?_
          rw [htail, heq]
        rw [hholds (H + 1) (Nat.le_succ H) hT] at hcomp
        exact hmore ⟨hT, hcomp⟩
      · rw [← Bool.not_eq_true]
        exact fun hcomp => hmore ⟨hT, hcomp⟩

namespace Core

theorem complete (h : Core c p lsq e H W busy) (ha : H ≤ a) (haW : a < W) (hcomp : (e a).completed = false)
    (hnone : ∀ pkt ∈ lsq.inFlight, pkt.seqNum ≠ p.sn a) {H' : Nat} (hH : H ≤ H') (hW : H' ≤ W)
    (hleft : ∀ b < H', (Function.update e a { e a with completed := true } b).completed = true)
    (hhead : H' < p.order.length → (Function.update e a { e a with completed := true } H').completed = false) :
    Core c p { lsq.setEntry (a % c.SQEntries) { e a with completed := true } with
        storesToWB := lsq.storesToWB - 1
        log := lsq.log ++ [.completed (p.sn a)]
        storeHead := H' % c.SQEntries
        stores := (p.order.length : Int) - H'
        storeInFlight := lsq.storeInFlight && !c.needsTSO }
      (Function.update e a { e a with completed := true }) H' W busy := by
  have haT : a < p.order.length := Nat.lt_of_lt_of_le haW h.layout.le.2.1
  have hother : ∀ b, (Function.update e a { e a with completed := true } b).canWB = (e b).canWB ∧
      (Function.update e a { e a with completed := true } b).committed = (e b).committed :=
    fun b => ⟨update_same SQEntry.canWB (by rfl) b, update_same SQEntry.committed (by rfl) b⟩
  refine ⟨?_, ?_, ?_⟩
  · have hok : EntryOk p a { e a with completed := true } := (h.layout.entry a haT).flags _ _ true
    obtain ⟨⟨-, hWT, hlt⟩, ⟨-, hwb, htail⟩, -, hholds, hentry, hsorted, hnext, hsq⟩ := h.layout.update ha haT hok
    exact ⟨⟨hW, hWT, by omega⟩, ⟨rfl, hwb, htail⟩, rfl, hholds.mono hH (Nat.le_refl _), hentry, hsorted, hnext,
      fun b hb hb' => hsq b (hH.trans hb) hb'⟩
  · obtain ⟨hreleased, hclosed, hcan, hstarted, hcommitted, -, hwaiting, -, hwbcount⟩ := h.flags
    refine ⟨?_, ?_, ?_, ?_, ?_, hleft, ?_, hhead, ?_⟩
    · intro b hb
      rw [(hother b).1]
      exact hreleased b hb
    · intro b b' hbb hb' hcb
      rw [(hother b').1] at hcb
      rw [(hother b).1]
      exact hclosed b b' hbb hb' hcb
    · exact fun b hb => (hother b).1.trans (hcan b hb)
    · exact fun hb => ⟨(hstarted hb).1, (hother W).1.trans (hstarted hb).2⟩
    · intro b hb hb'
      rw [(hother b).2]
      exact hcommitted b hb hb'
    · intro b hb hb'
      rw [Function.update_of_ne (by omega)]
      exact hwaiting b hb hb'
    · have hadd : toWB e p.order.length =
          toWB (Function.update e a { e a with completed := true }) p.order.length + 1 := by
        refine toWB_add_one haT ?_ ?_ fun b hb => ?_
        · rw [Function.update_self, Bool.not_true, Bool.and_false]
        · rw [hcan a haW, hcomp]
          rfl
        · rw [Function.update_of_ne hb]
          exact ⟨rfl, rfl⟩
      simp only [hwbcount, hadd]
      omega
  · refine ((h.traffic.complete haW hcomp hnone).congr fun b _ => ⟨rfl, rfl, ?_⟩).frame rfl rfl rfl
      fun _ => ⟨rfl, rfl⟩
    by_cases hba : b = a
    · rw [hba, Function.update_self, Function.update_self]
    · rw [Function.update_of_ne hba, Function.update_of_ne hba]

theorem completeStore (hn : 0 < c.SQEntries) (h : Core c p lsq e H W busy) (ha : H ≤ a) (haW : a < W)
    (hcomp : (e a).completed = false) (hnone : ∀ pkt ∈ lsq.inFlight, pkt.seqNum ≠ p.sn a) :
    ∃ lsq' e' H', lsq.completeStore c (a % c.SQEntries) = some lsq' ∧ SameRegs lsq lsq' ∧
      Core c p lsq' e' H' W busy := by
  obtain ⟨hHW, hWT, hlt⟩ := h.layout.le
  have haT : a < p.order.length := Nat.lt_of_lt_of_le haW hWT
  obtain ⟨⟨inst, hinst, hsn, -, -⟩, -, -, -⟩ := h.layout.entry a haT
  unfold LSQUnit.completeStore
  rw [h.entry_eq ha haT, hinst, Option.bind_some, hsn]
  by_cases hhead : a = H
  · subst hhead
    have hmove := moveHead_spec (e := Function.update e a { e a with completed := true }) hn hWT
      (fun b hb hb' => by
        rw [Function.update_of_ne (by omega)]
        exact h.flags.waiting b hb hb') c.SQEntries a
      { lsq.setEntry (a % c.SQEntries) { e a with completed := true } with
        storesToWB := lsq.storesToWB - 1
        log := lsq.log ++ [.completed (p.sn a)] } h.layout.idx.1 h.layout.idx.2.2 h.layout.stores
      (h.layout.holds.update hlt.le (Nat.le_refl a) haT _) hlt haW
      (fun b hb => by
        rcases Nat.lt_or_eq_of_le hb with hb | rfl
        · rw [Function.update_of_ne hb.ne]
          exact h.flags.left b hb
        · rw [Function.update_self]) (by omega)
    obtain ⟨H', hH, hH', hrun, hleft, hhead'⟩ := hmove
    refine ⟨_, _, H', ?_, ?_, h.complete ha haW hcomp hnone hH.le hH' hleft hhead'⟩
    · exact congrArg (Option.map _) ((if_pos h.layout.idx.1.symm).trans hrun)
    · exact ⟨rfl, rfl, ⟨rfl, rfl⟩, fun _ => ⟨rfl, rfl⟩, fun i => numSent_completed _ _ i⟩
  · have hslot : ¬ a % c.SQEntries = lsq.storeHead := by
      intro heq
      rw [h.layout.idx.1] at heq
      exact hhead (Ring.mod_inj ha (by omega) (Nat.le_refl H) (by omega) heq)
    have hc := h.complete ha haW hcomp hnone (Nat.le_refl H) hHW
      (fun b hb => by
        rw [Function.update_of_ne (by omega)]
        exact h.flags.left b hb)
      (fun hH => by
        rw [Function.update_of_ne (Ne.symm hhead)]
        exact h.flags.head hH)
    rw [← h.layout.idx.1, ← h.layout.stores] at hc
    refine ⟨_, _, H, ?_, ?_, hc⟩
    · exact congrArg (Option.map _) (if_neg hslot)
    · exact ⟨rfl, rfl, ⟨rfl, rfl⟩, fun _ => ⟨rfl, rfl⟩, fun i => numSent_completed _ _ i⟩

theorem completeDataAccess (hn : 0 < c.SQEntries) (h : Core c p lsq e H W busy) (hreg : Registers p lsq W busy)
    {pkt : Packet} (hpkt : pkt ∈ lsq.inFlight) :
    ∃ lsq' e' H', lsq.completeDataAccess c pkt = some lsq' ∧ Core c p lsq' e' H' W busy ∧
      Registers p lsq' W busy := by
  obtain ⟨a, ha, hi, hdone, hidx, htraffic, hlast⟩ := h.traffic.respond hpkt
  have hcore : Core c p { lsq.setState (p.sn a) { lsq.senderState (p.sn a) with
      outstanding := (lsq.senderState (p.sn a)).outstanding - 1 } with
      inFlight := lsq.inFlight.erase pkt } e H W busy :=
    ⟨h.layout.frame rfl ⟨rfl, rfl, rfl⟩ rfl rfl, h.flags.frame rfl, htraffic⟩
  have hsame : SameRegs lsq { lsq.setState (p.sn a) { lsq.senderState (p.sn a) with
      outstanding := (lsq.senderState (p.sn a)).outstanding - 1 } with
      inFlight := lsq.inFlight.erase pkt } := by
    refine ⟨rfl, rfl, ⟨rfl, rfl⟩, fun i => ?_, fun _ => rfl⟩
    by_cases hia : i = p.sn a
    · simp only [LSQUnit.setState, hia, Function.update_self, and_self]
    · simp only [LSQUnit.setState, Function.update_of_ne hia, and_self]
  have hreg' := hsame.registers hreg fun _ => ⟨rfl, rfl⟩
  unfold LSQUnit.completeDataAccess
  simp only [hi]
  by_cases hout : (lsq.senderState (p.sn a)).outstanding - 1 ≠ 0
  · exact ⟨_, e, H, if_pos hout, hcore, hreg'⟩
  · rw [if_neg hout]
    by_cases hsquashed : lsq.isSquashed (p.sn a) = true
    · exact ⟨_, e, H, if_pos hsquashed, hcore, hreg'⟩
    · obtain ⟨hsent, hnone⟩ := hlast (not_not.1 hout)
      have haW : a < W := by
        rcases ha with ha | ⟨rfl, rfl⟩
        · exact ha
        · have := hreg.2
          omega
      have hcomp := hdone haW
      have haH : H ≤ a := by
        refine Nat.le_of_not_lt fun hlt => ?_
        rw [h.flags.left a hlt] at hcomp
        cases hcomp
      obtain ⟨lsq', e', H', hrun, hsame', hcore'⟩ := hcore.completeStore hn haH haW hcomp hnone
      refine ⟨lsq', e', H', ?_, hcore', hsame'.registers hreg' fun _ => ⟨rfl, rfl⟩⟩
      rw [← hidx] at hrun
      exact (if_neg hsquashed).trans hrun

/-! ## The write-back index moves -/

theorem move (hn : 0 < c.SQEntries) (h : Core c p lsq e H W busy) (hWT : W < p.order.length)
    (hcan : (e W).canWB = true) (htso : c.needsTSO = true → lsq.storeInFlight = false) {evs : List Event}
    (hevs : evs = [] ∧ numSent lsq.log (p.sn W) = p.packets W ∨
      evs = [.failed (p.sn W)] ∧ numSent lsq.log (p.sn W) = 0) :
    Core c p { lsq.storePostSend c with log := lsq.log ++ evs } e H (W + 1) false := by
  refine ⟨?_, ?_, ?_⟩
  · obtain ⟨⟨hHW, -, hlt⟩, ⟨hhead, hwb, htail⟩, hstores, hholds, hentry, hsorted, hnext, hsq⟩ := h.layout
    refine ⟨⟨Nat.le_succ_of_le hHW, hWT, hlt⟩, ⟨hhead, ?_, htail⟩, hstores, hholds, hentry, hsorted, hnext, hsq⟩
    simp only [LSQUnit.storePostSend, hwb]
    exact incrStIdx_mod hn W
  · obtain ⟨hreleased, hclosed, hcanW, -, hcommitted, hleft, hwaiting, hhead, hwbcount⟩ := h.flags
    refine ⟨hreleased, hclosed, fun a ha => ?_, fun hb => (by cases hb), fun a ha ha' => ?_, hleft,
      fun a ha ha' => hwaiting a (Nat.le_of_succ_le ha) ha', hhead, hwbcount⟩
    · rcases Nat.lt_succ_iff_lt_or_eq.1 ha with ha | rfl
      · exact hcanW a ha
      · exact hcan
    · rw [hcommitted a (Nat.le_of_succ_le ha) ha']
      exact iff_of_false (fun hold => by omega) (fun hnew => by cases hnew.2)
  · exact h.traffic.move (fun a ha => h.layout.sorted a W ha hWT) (h.flags.waiting W (Nat.le_refl W) hWT) htso hevs

theorem advance (hn : 0 < c.SQEntries) (h : Core c p lsq e H W busy) (hWT : W < p.order.length)
    (hcan : (e W).canWB = true) (htso : c.needsTSO = true → lsq.storeInFlight = false)
    (hsent : numSent lsq.log (p.sn W) = p.packets W) : Core c p (lsq.storePostSend c) e H (W + 1) false := by
  have hmove := h.move hn hWT hcan htso (.inl ⟨rfl, hsent⟩)
  rw [List.append_nil] at hmove
  exact hmove

theorem take (h : Core c p lsq e H W true) (hk : numSent lsq.log (p.sn W) < p.packets W) :
    Core c p (lsq.take ⟨p.sn W, numSent lsq.log (p.sn W)⟩) e H W true :=
  ⟨h.layout.frame rfl ⟨rfl, rfl, rfl⟩ rfl rfl, h.flags.frame rfl, h.traffic.take hk⟩

/-- What the registers of the unit are does not matter. -/
theorem frame (h : Core c p lsq e H W busy) (hq : lsq'.storeQueue = lsq.storeQueue)
    (hidx : lsq'.storeHead = lsq.storeHead ∧ lsq'.storeWBIdx = lsq.storeWBIdx ∧ lsq'.storeTail = lsq.storeTail)
    (hstores : lsq'.stores = lsq.stores ∧ lsq'.storesToWB = lsq.storesToWB) (hsq : lsq'.sqIdx = lsq.sqIdx)
    (hlog : lsq'.log = lsq.log ∧ lsq'.inFlight = lsq.inFlight) (hfl : lsq'.storeInFlight = lsq.storeInFlight)
    (hstate : ∀ i, (lsq'.senderState i).outstanding = (lsq.senderState i).outstanding ∧
      (lsq'.senderState i).idx = (lsq.senderState i).idx) : Core c p lsq' e H W busy :=
  ⟨h.layout.frame hq hidx hstores.1 hsq, h.flags.frame hstores.2, h.traffic.frame hlog.1 hlog.2 hfl hstate⟩

theorem takeLast (hn : 0 < c.SQEntries) (h : Core c p lsq e H W true)
    (hk : numSent lsq.log (p.sn W) + 1 = p.packets W) :
    Core c p ((lsq.take ⟨p.sn W, numSent lsq.log (p.sn W)⟩).storePostSend c) e H (W + 1) false := by
  obtain ⟨hWT, hcan⟩ := h.flags.started rfl
  refine (h.take (by omega)).advance hn hWT hcan (fun hc => (h.traffic.needsTSO hc).2.2 rfl) ?_
  refine (numSent_accepted _ _ _).trans ?_
  rw [if_pos rfl]
  exact hk

end Core

end Alpine.Cpu.Lsq
