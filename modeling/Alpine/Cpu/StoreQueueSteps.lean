import Alpine.Cpu.StoreQueueTraffic

/-!
# The steps of the store queue outside of write-back

Insertion, execution, commit, squashing and completion keep the invariant, and none of their assertions fails.
None of them touches the packets that are kept (`SameRegs`).
-/

namespace Alpine.Cpu.Lsq

variable {c : Config} {p : Program} {lsq lsq' lsq'' : LSQUnit} {e e' : Nat → SQEntry} {H W T a i : Nat} {busy : Bool}

/-! ## Positions -/

namespace Program

/-- What remains of the stores after a squash. -/
def squash (p : Program) (n : Nat) : Program :=
  { p with order := p.order.filter fun i => i ≤ n || i ∈ p.released }

theorem sn_eq (ha : a < p.order.length) : p.order[a] = p.sn a := (List.getD_eq_getElem _ _ ha).symm

theorem sn_mem (ha : a < p.order.length) : p.sn a ∈ p.order := by
  rw [← sn_eq ha]
  exact List.getElem_mem ha

theorem exists_sn (h : i ∈ p.order) : ∃ a < p.order.length, p.sn a = i := by
  obtain ⟨a, ha, heq⟩ := List.mem_iff_getElem.1 h
  exact ⟨a, ha, (sn_eq ha).symm.trans heq⟩

end Program

theorem toWB_congr (h : ∀ a < T, (e' a).canWB = (e a).canWB ∧ (e' a).completed = (e a).completed) :
    toWB e' T = toWB e T := by
  unfold toWB
  refine List.countP_congr fun a ha => ?_
  obtain ⟨hcan, hcomp⟩ := h a (List.mem_range.1 ha)
  rw [hcan, hcomp]

theorem toWB_succ (e : Nat → SQEntry) (T : Nat) :
    toWB e (T + 1) = toWB e T + if (e T).canWB && !(e T).completed then 1 else 0 := by
  unfold toWB
  rw [List.range_succ, List.countP_append, List.countP_singleton]

/-- One more store may write back. -/
theorem toWB_add_one (ha : a < T) (hold : ((e a).canWB && !(e a).completed) = false)
    (hnew : ((e' a).canWB && !(e' a).completed) = true)
    (hsame : ∀ b, b ≠ a → (e' b).canWB = (e b).canWB ∧ (e' b).completed = (e b).completed) :
    toWB e' T = toWB e T + 1 := by
  induction T with
  | zero => exact absurd ha (Nat.not_lt_zero a)
  | succ T ih =>
    rw [toWB_succ, toWB_succ]
    rcases Nat.lt_succ_iff_lt_or_eq.1 ha with ha | rfl
    · obtain ⟨hcan, hcomp⟩ := hsame T ha.ne'
      rw [ih ha, hcan, hcomp]
      omega
    · rw [toWB_congr fun b hb => hsame b hb.ne, hold, hnew]
      rfl

/-! ## What does not matter -/

theorem Layout.frame (h : Layout c p lsq e H W) (hq : lsq'.storeQueue = lsq.storeQueue)
    (hidx : lsq'.storeHead = lsq.storeHead ∧ lsq'.storeWBIdx = lsq.storeWBIdx ∧ lsq'.storeTail = lsq.storeTail)
    (hstores : lsq'.stores = lsq.stores) (hsq : lsq'.sqIdx = lsq.sqIdx) : Layout c p lsq' e H W := by
  refine ⟨h.le, ?_, hstores.trans h.stores, ?_, h.entry, h.sorted, h.next, ?_⟩
  · rw [hidx.1, hidx.2.1, hidx.2.2]
    exact h.idx
  · rw [hq]
    exact h.holds
  · rw [hsq]
    exact h.sqIdx

theorem Flags.frame (h : Flags p lsq e H W busy) (hwb : lsq'.storesToWB = lsq.storesToWB) : Flags p lsq' e H W busy :=
  ⟨h.released, h.closed, h.canWB, h.started, h.committed, h.left, h.waiting, h.head, hwb.trans h.storesToWB⟩

/-- Only the flags of the entries matter. -/
theorem Flags.congr (h : Flags p lsq e H W busy)
    (heq : ∀ a, (e' a).canWB = (e a).canWB ∧ (e' a).committed = (e a).committed ∧
      (e' a).completed = (e a).completed) : Flags p lsq e' H W busy := by
  obtain ⟨hreleased, hclosed, hcan, hstarted, hcommitted, hleft, hwaiting, hhead, hwb⟩ := h
  refine ⟨?_, ?_, ?_, ?_, ?_, ?_, ?_, ?_, ?_⟩
  · exact fun a ha => (heq a).1 ▸ hreleased a ha
  · intro a b hab hb hcb
    rw [(heq b).1] at hcb
    rw [(heq a).1]
    exact hclosed a b hab hb hcb
  · exact fun a ha => (heq a).1.trans (hcan a ha)
  · exact fun hb => ⟨(hstarted hb).1, (heq W).1.trans (hstarted hb).2⟩
  · exact fun a ha ha' => (heq a).2.1 ▸ hcommitted a ha ha'
  · exact fun a ha => (heq a).2.2.trans (hleft a ha)
  · exact fun a ha ha' => (heq a).2.2.trans (hwaiting a ha ha')
  · exact fun hH => (heq H).2.2.trans (hhead hH)
  · rw [hwb, toWB_congr fun a _ => ⟨(heq a).1, (heq a).2.2⟩]

theorem EntryOk.flags {x : SQEntry} (h : EntryOk p a x) (canWB committed completed : Bool) :
    EntryOk p a { x with canWB := canWB, committed := committed, completed := completed } :=
  ⟨h.inst, h.req, h.size, h.isSplit⟩

theorem Layout.update (h : Layout c p lsq e H W) (ha : H ≤ a) (ha' : a < p.order.length) {x : SQEntry}
    (hx : EntryOk p a x) : Layout c p (lsq.setEntry (a % c.SQEntries) x) (Function.update e a x) H W := by
  refine ⟨h.le, h.idx, h.stores, h.holds.update h.le.2.2.le ha ha' x, fun b hb => ?_, h.sorted, h.next, h.sqIdx⟩
  by_cases hba : b = a
  · rw [hba, Function.update_self]
    exact hx
  · rw [Function.update_of_ne hba]
    exact h.entry b hb

/-- A part of the entries that an update of one of them does not change. -/
theorem update_same {β : Type} (f : SQEntry → β) {x : SQEntry} (hx : f x = f (e a)) (b : Nat) :
    f (Function.update e a x b) = f (e b) := by
  by_cases hba : b = a
  · rw [hba, Function.update_self, hx]
  · rw [Function.update_of_ne hba]

/-- The packets that are kept are the same. -/
structure SameRegs (lsq lsq' : LSQUnit) : Prop where
  blocked : lsq'.isStoreBlocked = lsq.isStoreBlocked
  retry : lsq'.retryPkt = lsq.retryPkt
  pending : lsq'.hasPendingPkt = lsq.hasPendingPkt ∧ lsq'.pendingPkt = lsq.pendingPkt
  state : ∀ i, (lsq'.senderState i).pktToSend = (lsq.senderState i).pktToSend ∧
    (lsq'.senderState i).pendingPacket = (lsq.senderState i).pendingPacket
  sent : ∀ i, numSent lsq'.log i = numSent lsq.log i

namespace SameRegs

theorem refl (lsq : LSQUnit) : SameRegs lsq lsq := ⟨rfl, rfl, ⟨rfl, rfl⟩, fun _ => ⟨rfl, rfl⟩, fun _ => rfl⟩

theorem trans (h : SameRegs lsq lsq') (h' : SameRegs lsq' lsq'') : SameRegs lsq lsq'' where
  blocked := h'.blocked.trans h.blocked
  retry := h'.retry.trans h.retry
  pending := ⟨h'.pending.1.trans h.pending.1, h'.pending.2.trans h.pending.2⟩
  state i := ⟨(h'.state i).1.trans (h.state i).1, (h'.state i).2.trans (h.state i).2⟩
  sent i := (h'.sent i).trans (h.sent i)

theorem idle (h : SameRegs lsq lsq') (hidle : Idle lsq) : Idle lsq' :=
  ⟨h.blocked.trans hidle.blocked, h.retry.trans hidle.retry, h.pending.1.trans hidle.pending.1,
    h.pending.2.trans hidle.pending.2⟩

theorem held (h : SameRegs lsq lsq') {split : Bool} {k : Nat} (hheld : Held lsq i split k) : Held lsq' i split k := by
  obtain ⟨hblocked, hretry, ⟨hhas, hpend⟩, hstate, -⟩ := h
  cases hheld with
  | first hk blocked retry pending state =>
    refine .first hk (hblocked.trans blocked) (hretry.trans retry) ⟨hhas.trans pending.1, hpend.trans pending.2⟩ ?_
    rw [(hstate i).1, (hstate i).2]
    exact state
  | second hk hsplit blocked retry pending state =>
    refine .second hk hsplit (hblocked.trans blocked) (hretry.trans retry)
      ⟨hhas.trans pending.1, hpend.trans pending.2⟩ ?_
    rw [(hstate i).1, (hstate i).2]
    exact state
  | port hk hsplit blocked retry pending state =>
    exact .port hk hsplit (hblocked.trans blocked) (hretry.trans retry)
      ⟨hhas.trans pending.1, hpend.trans pending.2⟩ ((hstate i).1.trans state)

theorem registers (h : SameRegs lsq lsq') (hreg : Registers p lsq W busy) {p' : Program}
    (hp : busy = true → p'.sn W = p.sn W ∧ p'.request (p'.sn W) = p.request (p.sn W)) : Registers p' lsq' W busy := by
  cases busy with
  | false => exact h.idle hreg
  | true =>
    obtain ⟨hsn, hreq⟩ := hp rfl
    obtain ⟨hheld, hlt⟩ := hreg
    refine ⟨?_, ?_⟩
    · rw [hreq, hsn, h.sent]
      exact h.held hheld
    · rw [Program.packets, hreq, hsn, h.sent]
      exact hlt

end SameRegs

namespace Core

/-- A store that has been started is in the queue or has left it. -/
theorem started_lt (h : Core c p lsq e H W busy) (ha : Started W busy a) : a < p.order.length := by
  rcases ha with ha | ⟨rfl, hb⟩
  · exact Nat.lt_of_lt_of_le ha h.layout.le.2.1
  · exact (h.flags.started hb).1

theorem canWB_of_started (h : Core c p lsq e H W busy) (ha : Started W busy a) : (e a).canWB = true := by
  rcases ha with ha | ⟨rfl, hb⟩
  · exact h.flags.canWB a ha
  · exact (h.flags.started hb).2

/-- A store that may not write back has not been started. -/
theorem le_of_canWB (h : Core c p lsq e H W busy) (ha : (e a).canWB = false) : ¬ Started W busy a := by
  intro hs
  rw [h.canWB_of_started hs] at ha
  cases ha

/-! ## Insertion -/

theorem insertStore (hn : 0 < c.SQEntries) (h : Core c p lsq e H W busy) {inst : DynInst}
    (hfree : 0 < lsq.numFreeStoreEntries c) (hnext : p.next ≤ inst.seqNum) (hinst : inst.isDataPrefetch = false) :
    ∃ lsq', lsq.insertStore c inst = some lsq' ∧
      Core c { p with order := p.order ++ [inst.seqNum], next := inst.seqNum + 1 } lsq'
        (Function.update e p.order.length (SQEntry.new inst)) H W busy ∧ SameRegs lsq lsq' := by
  obtain ⟨hle, hidx, hstores, hholds, hentry, hsorted, ⟨hlt, hrel, hreq⟩, hsq⟩ := h.layout
  obtain ⟨hHW, hWT, hTn⟩ := hle
  obtain ⟨hhead, hwb, htail⟩ := hidx
  rw [LSQUnit.numFreeStoreEntries, hstores] at hfree
  have hfull : ¬ (LSQUnit.incrStIdx c lsq.storeTail = lsq.storeHead ∨ (c.SQEntries : Int) ≤ lsq.stores) := by
    rintro (heq | hge)
    · rw [LSQUnit.incrStIdx, htail, Ring.next_mod hn, hhead] at heq
      have := Ring.mod_inj (show H ≤ p.order.length + 1 by omega) (by omega) (Nat.le_refl H) (by omega) heq
      omega
    · omega
  have hsn : ∀ a < p.order.length, (p.order ++ [inst.seqNum]).getD a 0 = p.sn a :=
    fun a ha => List.getD_append _ _ _ a ha
  have hsnT : (p.order ++ [inst.seqNum]).getD p.order.length 0 = inst.seqNum := by
    rw [List.getD_append_right _ _ _ _ (Nat.le_refl _), Nat.sub_self]
    rfl
  have hlen : (p.order ++ [inst.seqNum]).length = p.order.length + 1 := List.length_append
  have hold : ∀ a < p.order.length, Function.update e p.order.length (SQEntry.new inst) a = e a :=
    fun a ha => Function.update_of_ne ha.ne _ _
  have hself : Function.update e p.order.length (SQEntry.new inst) p.order.length = SQEntry.new inst :=
    Function.update_self ..
  refine ⟨_, if_neg hfull, ⟨?_, ?_, ?_⟩, ⟨rfl, rfl, ⟨rfl, rfl⟩, fun _ => ⟨rfl, rfl⟩, fun _ => rfl⟩⟩
  · constructor
    · simp only [hlen]
      omega
    · refine ⟨hhead, hwb, ?_⟩
      simp only [hlen, LSQUnit.incrStIdx, htail]
      exact Ring.next_mod hn _
    · simp only [hlen, hstores]
      omega
    · simp only [hlen, LSQUnit.setEntry, htail]
      exact hholds.push (by omega) _
    · intro a ha
      rw [hlen] at ha
      rcases Nat.lt_succ_iff_lt_or_eq.1 ha with ha | rfl
      · rw [hold a ha]
        have hok := hentry a ha
        refine ⟨?_, ?_, ?_, ?_⟩
        all_goals simp only [Program.sn, hsn a ha]
        · exact hok.inst
        · exact hok.req
        · exact hok.size
        · exact hok.isSplit
      · rw [hself]
        have hnone := hreq inst.seqNum hnext
        refine ⟨⟨inst, rfl, ?_, hinst, fun _ req hsome => ?_⟩, ?_, ?_, ?_⟩
        all_goals simp only [Program.sn, hsnT, hnone] at *
        · cases hsome
        · rfl
        · rfl
        · rfl
    · intro a b hab hb
      rw [hlen] at hb
      simp only [Program.sn]
      rw [hsn a (by omega)]
      rcases Nat.lt_succ_iff_lt_or_eq.1 hb with hb | rfl
      · rw [hsn b hb]
        exact hsorted a b hab hb
      · rw [hsnT]
        exact Nat.lt_of_lt_of_le (hlt a hab) hnext
    · refine ⟨fun a ha => ?_, fun i hi => ?_, fun i hi => hreq i ?_⟩
      · rw [hlen] at ha
        simp only [Program.sn]
        rcases Nat.lt_succ_iff_lt_or_eq.1 ha with ha | rfl
        · rw [hsn a ha]
          have := hlt a ha
          omega
        · rw [hsnT]
          exact Nat.lt_succ_self _
      · have := hrel i hi
        exact Nat.lt_succ_of_lt (Nat.lt_of_lt_of_le this hnext)
      · exact hnext.trans (Nat.le_of_succ_le hi)
    · intro a ha ha'
      rw [hlen] at ha'
      simp only [Program.sn]
      rcases Nat.lt_succ_iff_lt_or_eq.1 ha' with ha' | rfl
      · have := hlt a ha'
        rw [hsn a ha', Function.update_of_ne (by omega)]
        exact hsq a ha ha'
      · rw [hsnT, Function.update_self, htail]
  · obtain ⟨hreleased, hclosed, hcan, hstarted, hcommitted, hleft, hwaiting, hheadc, hwbcount⟩ := h.flags
    constructor
    · intro a ha
      rw [hlen] at ha
      simp only [Program.sn]
      rcases Nat.lt_succ_iff_lt_or_eq.1 ha with ha | rfl
      · rw [hold a ha, hsn a ha]
        exact hreleased a ha
      · rw [hself, hsnT]
        refine ⟨fun hc => (by cases hc), fun hmem => ?_⟩
        have := hrel _ hmem
        omega
    · intro a b hab hb hcb
      rw [hlen] at hb
      rcases Nat.lt_succ_iff_lt_or_eq.1 hb with hb | rfl
      · rw [hold b hb] at hcb
        rw [hold a (by omega)]
        exact hclosed a b hab hb hcb
      · rw [hself] at hcb
        cases hcb
    · intro a ha
      rw [hold a (by omega)]
      exact hcan a ha
    · intro hb
      obtain ⟨hlt', hcW⟩ := hstarted hb
      rw [hold W hlt', hlen]
      exact ⟨Nat.lt_succ_of_lt hlt', hcW⟩
    · intro a ha ha'
      rw [hlen] at ha'
      rcases Nat.lt_succ_iff_lt_or_eq.1 ha' with ha' | rfl
      · rw [hold a ha']
        exact hcommitted a ha ha'
      · rw [hself]
        refine ⟨fun hc => (by cases hc), fun ⟨heq, hb⟩ => ?_⟩
        have := (hstarted hb).1
        omega
    · intro a ha
      rw [hold a (by omega)]
      exact hleft a ha
    · intro a ha ha'
      rw [hlen] at ha'
      rcases Nat.lt_succ_iff_lt_or_eq.1 ha' with ha' | rfl
      · rw [hold a ha']
        exact hwaiting a ha ha'
      · rw [hself]
        rfl
    · intro hH
      rw [hlen] at hH
      rcases Nat.lt_succ_iff_lt_or_eq.1 hH with hH | rfl
      · rw [hold H hH]
        exact hheadc hH
      · rw [hself]
        rfl
    · refine hwbcount.trans ?_
      rw [hlen, toWB_succ, hself, toWB_congr fun a ha => ?_]
      · rfl
      · rw [hold a ha]
        exact ⟨rfl, rfl⟩
  · refine (h.traffic.congr fun a ha => ?_).frame rfl rfl rfl fun _ => ⟨rfl, rfl⟩
    have ha := h.started_lt ha
    simp only [Program.packets, Program.sn, hsn a ha, hold a ha, and_self]

/-! ## Release -/

theorem entry_eq (h : Core c p lsq e H W busy) (ha : H ≤ a) (ha' : a < p.order.length) :
    lsq.storeQueue (a % c.SQEntries) = e a :=
  h.layout.holds a ha ha'

theorem release (h : Core c p lsq e H W busy) (ha : a < p.order.length) (hcan : (e a).canWB = false)
    (hold : ∀ b < a, (e b).canWB = true) : Core c { p with released := insert (p.sn a) p.released }
      { lsq.setEntry (a % c.SQEntries) { lsq.storeQueue (a % c.SQEntries) with canWB := true } with
        storesToWB := lsq.storesToWB + 1 }
      (Function.update e a { e a with canWB := true }) H W busy := by
  have hWa : W ≤ a := Nat.le_of_not_lt fun hlt => h.le_of_canWB hcan (.of_lt hlt)
  have hHa : H ≤ a := h.layout.le.1.trans hWa
  rw [h.entry_eq hHa ha]
  obtain ⟨hreleased, hclosed, hcanW, hstarted, hcommitted, hleft, hwaiting, hhead, hwbcount⟩ := h.flags
  have hcomp : ∀ b, (Function.update e a { e a with canWB := true } b).completed = (e b).completed :=
    update_same SQEntry.completed (by rfl)
  have hcanWB : ∀ b, (Function.update e a { e a with canWB := true } b).canWB = true ↔ b = a ∨ (e b).canWB = true := by
    intro b
    by_cases hba : b = a
    · rw [hba, Function.update_self]
      exact iff_of_true rfl (.inl rfl)
    · rw [Function.update_of_ne hba]
      exact (or_iff_right hba).symm
  refine ⟨?_, ?_, ?_⟩
  · have hok : EntryOk p a { e a with canWB := true } := (h.layout.entry a ha).flags true _ _
    have hlay := h.layout.update hHa ha hok
    obtain ⟨hlt, hrel, hreq⟩ := hlay.next
    refine ⟨hlay.le, hlay.idx, hlay.stores, hlay.holds, fun b hb => ?_, hlay.sorted, ⟨hlt, fun i hi => ?_, hreq⟩,
      hlay.sqIdx⟩
    · obtain ⟨hinst, hreq, hsize, hsplit⟩ := hlay.entry b hb
      exact ⟨hinst, hreq, hsize, hsplit⟩
    · rcases Finset.mem_insert.1 hi with rfl | hi
      · exact hlt a ha
      · exact hrel i hi
  · constructor
    · intro b hb
      rw [hcanWB, Finset.mem_insert, hreleased b hb]
      refine or_congr ⟨fun heq => congrArg p.sn heq, fun heq => ?_⟩ Iff.rfl
      rcases Nat.lt_trichotomy b a with hlt | hba | hlt
      · have := h.layout.sorted b a hlt ha
        exact absurd heq this.ne
      · exact hba
      · have := h.layout.sorted a b hlt hb
        exact absurd heq this.ne'
    · intro x y hxy hy hcy
      rw [hcanWB] at hcy ⊢
      by_cases hxa : x = a
      · exact .inl hxa
      · rcases hcy with rfl | hcy
        · exact .inr (hold x (by omega))
        · exact .inr (hclosed x y hxy hy hcy)
    · exact fun b hb => (hcanWB b).2 (.inr (hcanW b hb))
    · exact fun hb => ⟨(hstarted hb).1, (hcanWB W).2 (.inr (hstarted hb).2)⟩
    · intro b hb hb'
      have hsame : (Function.update e a { e a with canWB := true } b).committed = (e b).committed :=
        update_same SQEntry.committed (by rfl) b
      rw [hsame]
      exact hcommitted b hb hb'
    · exact fun b hb => (hcomp b).trans (hleft b hb)
    · exact fun b hb hb' => (hcomp b).trans (hwaiting b hb hb')
    · exact fun hH => (hcomp H).trans (hhead hH)
    · have hadd : toWB (Function.update e a { e a with canWB := true }) p.order.length =
          toWB e p.order.length + 1 := by
        refine toWB_add_one ha ?_ ?_ fun b hb => ?_
        · rw [hcan, Bool.false_and]
        · rw [hcomp, hwaiting a hWa ha, (hcanWB a).2 (.inl rfl)]
          rfl
        · rw [Function.update_of_ne hb]
          exact ⟨rfl, rfl⟩
      simp only [hadd, hwbcount]
      rfl
  · refine (h.traffic.congr fun b _ => ?_).frame rfl rfl rfl fun _ => ⟨rfl, rfl⟩
    exact ⟨rfl, rfl, hcomp b⟩

/-! ## Execution -/

theorem tail_pos (h : Core c p lsq e H W busy) (ha : H ≤ a) (ha' : a < p.order.length) : lsq.stores ≠ 0 := by
  have hstores := h.layout.stores
  omega

theorem sn_ne (h : Core c p lsq e H W busy) {b : Nat} (ha : a < p.order.length) (hb : b < p.order.length)
    (hba : b ≠ a) : p.sn b ≠ p.sn a := by
  rcases Nat.lt_or_gt_of_ne hba with hlt | hlt
  · exact (h.layout.sorted b a hlt ha).ne
  · exact (h.layout.sorted a b hlt hb).ne'

theorem write (h : Core c p lsq e H W busy) (ha : H ≤ a) (ha' : a < p.order.length) (hcan : (e a).canWB = false)
    (hnone : p.request (p.sn a) = none) {inst : DynInst} (hinst : (e a).inst = some inst) (req : Request)
    (hsc : inst.isStoreConditional = true → req.isSplit = false ∧ req.isMmappedIpr = false) :
    Core c { p with request := Function.update p.request (p.sn a) (some req) }
      (lsq.setEntry (a % c.SQEntries) { e a with
        req := some req, size := req.size % 256, isSplit := (e a).isSplit || req.isSplit })
      (Function.update e a { e a with
        req := some req, size := req.size % 256, isSplit := (e a).isSplit || req.isSplit }) H W busy := by
  have hother : ∀ b < p.order.length, b ≠ a →
      Function.update p.request (p.sn a) (some req) (p.sn b) = p.request (p.sn b) :=
    fun b hb hba => Function.update_of_ne (h.sn_ne ha' hb hba) _ _
  have hflags : ∀ b, (Function.update e a { e a with
        req := some req, size := req.size % 256, isSplit := (e a).isSplit || req.isSplit } b).canWB = (e b).canWB ∧
      (Function.update e a { e a with
        req := some req, size := req.size % 256, isSplit := (e a).isSplit || req.isSplit } b).committed =
          (e b).committed ∧
      (Function.update e a { e a with
        req := some req, size := req.size % 256, isSplit := (e a).isSplit || req.isSplit } b).completed =
          (e b).completed :=
    fun b => ⟨update_same SQEntry.canWB (by rfl) b, update_same SQEntry.committed (by rfl) b,
      update_same SQEntry.completed (by rfl) b⟩
  refine ⟨?_, ?_, ?_⟩
  · obtain ⟨hlt, hrel, hreq⟩ := h.layout.next
    refine ⟨h.layout.le, h.layout.idx, h.layout.stores, h.layout.holds.update h.layout.le.2.2.le ha ha' _,
      fun b hb => ?_, h.layout.sorted, ⟨hlt, hrel, fun i hi => ?_⟩, h.layout.sqIdx⟩
    · have hok := h.layout.entry b hb
      by_cases hba : b = a
      · subst hba
        obtain ⟨⟨inst', hinst', hsn, hpre, -⟩, -, -, hsplit⟩ := hok
        rw [hnone] at hsplit
        have heq : inst' = inst := Option.some.inj (hinst'.symm.trans hinst)
        rw [Function.update_self]
        refine ⟨⟨inst', hinst', hsn, hpre, fun hc req' hreq' => ?_⟩, ?_, ?_, ?_⟩
        all_goals simp only [Program.sn, Function.update_self] at *
        · cases hreq'
          exact hsc (heq ▸ hc)
        · rfl
        · rw [hsplit]
          rfl
      · rw [Function.update_of_ne hba]
        have hreq' := hother b hb hba
        refine ⟨?_, ?_, ?_, ?_⟩
        all_goals simp only [Program.sn] at *
        all_goals rw [hreq']
        · exact hok.inst
        · exact hok.req
        · exact hok.size
        · exact hok.isSplit
    · have hi : p.next ≤ i := hi
      have hne : i ≠ p.sn a := by
        have := hlt a ha'
        rintro rfl
        omega
      simp only [Function.update_of_ne hne]
      exact hreq i hi
  · obtain ⟨h1, h2, h3, h4, h5, h6, h7, h8, h9⟩ := h.flags.congr hflags
    exact ⟨h1, h2, h3, h4, h5, h6, h7, h8, h9⟩
  · refine (h.traffic.congr fun b hb => ?_).frame rfl rfl rfl fun _ => ⟨rfl, rfl⟩
    have hba : b ≠ a := by
      rintro rfl
      exact h.le_of_canWB hcan hb
    refine ⟨rfl, ?_, (hflags b).2.2⟩
    simp only [Program.packets]
    exact congrArg numPackets (hother b (h.started_lt hb) hba)

theorem executeStore (h : Core c p lsq e H W busy) (ha : H ≤ a) (ha' : a < p.order.length) {inst : DynInst}
    (hi : inst.seqNum = p.sn a) (hinst : (lsq.storeQueue (lsq.sqIdx inst.seqNum)).inst = some inst)
    (hcan : inst.seqNum ∉ p.released) (hnone : p.request inst.seqNum = none)
    (hsquashed : lsq.isSquashed inst.seqNum = false) (acc : InitiateAcc)
    (hsc : inst.isStoreConditional = true → (∀ b < a, p.sn b ∈ p.released) ∧
      ∀ req, acc = .write req → req.isSplit = false ∧ req.isMmappedIpr = false) :
    ∃ lsq' e', lsq.executeStore inst acc = some lsq' ∧ SameRegs lsq lsq' ∧ match acc with
      | .write req => Core c { p with
          request := Function.update p.request inst.seqNum (some req)
          released := if req.size % 256 ≠ 0 ∧ inst.isStoreConditional = true
            then insert inst.seqNum p.released else p.released } lsq' e' H W busy
      | _ => Core c p lsq' e' H W busy := by
  have hslot : lsq.sqIdx inst.seqNum = a % c.SQEntries := by
    rw [hi]
    exact h.layout.sqIdx a ha ha'
  have hentry := h.entry_eq ha ha'
  rw [hslot, hentry] at hinst
  have hok := h.layout.entry a ha'
  have hca : (e a).canWB = false := by
    rw [← Bool.not_eq_true, h.flags.released a ha', ← hi]
    exact hcan
  have hguard : ¬ (lsq.stores = 0 ∨ lsq.isSquashed inst.seqNum = true) := by
    rintro (hzero | hs)
    · exact h.tail_pos ha ha' hzero
    · rw [hsquashed] at hs
      cases hs
  unfold LSQUnit.executeStore
  simp only [hslot, hentry, if_neg hguard]
  cases acc with
  | translationDelayed => exact ⟨lsq, e, rfl, .refl lsq, h⟩
  | predicateFalse => exact ⟨lsq, e, rfl, .refl lsq, h⟩
  | fault =>
    have hsize : (e a).size = 0 := by
      rw [hok.size, ← hi, hnone]
      rfl
    exact ⟨lsq, e, if_pos hsize, .refl lsq, h⟩
  | write req =>
    have hw := h.write ha ha' hca (hi ▸ hnone) hinst req fun hc => (hsc hc).2 req rfl
    have hsome : (e a).inst.isNone = false := by
      rw [hinst]
      rfl
    simp only [hsome, Bool.false_eq_true, if_false, hi]
    by_cases hrel : req.size % 256 ≠ 0 ∧ inst.isStoreConditional = true
    · rw [if_pos hrel, if_pos hrel]
      have hold : ∀ b < a, (e b).canWB = true :=
        fun b hb => (h.flags.released b (by omega)).2 ((hsc hrel.2).1 b hb)
      have hr := hw.release ha' (by rw [Function.update_self]; exact hca) fun b hb => by
        rw [Function.update_of_ne hb.ne]
        exact hold b hb
      simp only [LSQUnit.setEntry, Function.update_self, Function.update_idem] at hr
      exact ⟨_, _, rfl, ⟨rfl, rfl, ⟨rfl, rfl⟩, fun _ => ⟨rfl, rfl⟩, fun _ => rfl⟩, hr⟩
    · rw [if_neg hrel, if_neg hrel]
      exact ⟨_, _, rfl, ⟨rfl, rfl, ⟨rfl, rfl⟩, fun _ => ⟨rfl, rfl⟩, fun _ => rfl⟩, hw⟩

/-! ## Commit -/

theorem incrStIdx_mod (hn : 0 < c.SQEntries) (a : Nat) :
    LSQUnit.incrStIdx c (a % c.SQEntries) = (a + 1) % c.SQEntries :=
  Ring.next_mod hn a

/-- The slot of a position is that of the tail only for the position at the end. -/
theorem slot_eq_tail (h : Core c p lsq e H W busy) (ha : H ≤ a) (ha' : a ≤ p.order.length) :
    a % c.SQEntries = lsq.storeTail ↔ a = p.order.length := by
  obtain ⟨hHW, hWT, hlt⟩ := h.layout.le
  rw [h.layout.idx.2.2]
  refine ⟨fun heq => ?_, fun heq => congrArg (· % c.SQEntries) heq⟩
  exact Ring.mod_inj ha (by omega) (by omega) (by omega) heq

theorem commitFrom (hn : 0 < c.SQEntries) (n : Nat) :
    ∀ (fuel a : Nat) {p : Program} {lsq : LSQUnit} {e : Nat → SQEntry}, Core c p lsq e H W busy → H ≤ a →
      a ≤ p.order.length → p.order.length - a < fuel → (∀ b < a, (e b).canWB = true) →
      ∃ lsq' e' released, LSQUnit.commitFrom c n fuel (a % c.SQEntries) lsq = some lsq' ∧ SameRegs lsq lsq' ∧
        Core c { p with released := released } lsq' e' H W busy ∧
        p.released ⊆ released ∧ released ⊆ p.released ∪ (p.order.filter (· ≤ n)).toFinset ∧
        (p.order.filter (· ≤ n)).toFinset ⊆ released
  | 0, a, p, lsq, e, h, ha, ha', hfuel, hbefore => absurd hfuel (Nat.not_lt_zero _)
  | fuel + 1, a, p, lsq, e, h, ha, ha', hfuel, hbefore => by
    unfold LSQUnit.commitFrom
    by_cases hend : a = p.order.length
    · -- the tail has been reached
      rw [if_pos ((h.slot_eq_tail ha ha').2 hend)]
      refine ⟨lsq, e, p.released, rfl, .refl lsq, h, subset_rfl, Finset.subset_union_left, fun i hi => ?_⟩
      obtain ⟨b, hb, rfl⟩ := Program.exists_sn (List.mem_of_mem_filter (List.mem_toFinset.1 hi))
      exact (h.flags.released b hb).1 (hbefore b (hend ▸ hb))
    · have halt : a < p.order.length := Nat.lt_of_le_of_ne ha' hend
      obtain ⟨⟨inst, hinst, hsn, -, -⟩, -, -, -⟩ := h.layout.entry a halt
      rw [if_neg fun heq => hend ((h.slot_eq_tail ha ha').1 heq), h.entry_eq ha halt, hinst, Option.bind_some,
        incrStIdx_mod hn]
      by_cases hcan : (e a).canWB = true
      · rw [if_pos hcan]
        refine commitFrom hn n fuel (a + 1) h (Nat.le_succ_of_le ha) halt (by omega) fun b hb => ?_
        rcases Nat.lt_succ_iff_lt_or_eq.1 hb with hb | rfl
        · exact hbefore b hb
        · exact hcan
      · rw [if_neg hcan]
        have hcan := Bool.not_eq_true _ |>.mp hcan
        by_cases hyoung : inst.seqNum > n
        · rw [if_pos hyoung]
          refine ⟨lsq, e, p.released, rfl, .refl lsq, h, subset_rfl, Finset.subset_union_left, fun i hi => ?_⟩
          obtain ⟨hmem, hle⟩ := List.mem_filter.1 (List.mem_toFinset.1 hi)
          obtain ⟨b, hb, rfl⟩ := Program.exists_sn hmem
          refine (h.flags.released b hb).1 (hbefore b (Nat.lt_of_not_le fun hab => ?_))
          have hle := of_decide_eq_true hle
          rcases Nat.lt_or_eq_of_le hab with hab | rfl
          · have := h.layout.sorted a b hab hb
            omega
          · omega
        · rw [if_neg hyoung]
          have hr := h.release halt hcan hbefore
          rw [h.entry_eq ha halt] at hr
          have hfuel : p.order.length - (a + 1) < fuel := by omega
          obtain ⟨lsq', e', released, hrun, hsame, hcore, hsub, hsub', hall⟩ :=
            commitFrom hn n fuel (a + 1) hr (Nat.le_succ_of_le ha) halt hfuel fun b hb => by
              rcases Nat.lt_succ_iff_lt_or_eq.1 hb with hb | rfl
              · rw [Function.update_of_ne hb.ne]
                exact hbefore b hb
              · rw [Function.update_self]
          refine ⟨lsq', e', released, hrun, ?_, hcore, (Finset.subset_insert _ _).trans hsub, ?_, hall⟩
          · refine SameRegs.trans ?_ hsame
            exact ⟨rfl, rfl, ⟨rfl, rfl⟩, fun _ => ⟨rfl, rfl⟩, fun _ => rfl⟩
          · refine hsub'.trans (Finset.union_subset (Finset.insert_subset ?_ Finset.subset_union_left)
              Finset.subset_union_right)
            refine Finset.mem_union_right _ (List.mem_toFinset.2 (List.mem_filter.2 ⟨Program.sn_mem halt, ?_⟩))
            exact decide_eq_true (by omega)

theorem commitStores (hn : 0 < c.SQEntries) (h : Core c p lsq e H W busy) (n : Nat) :
    ∃ lsq' e', lsq.commitStores c n = some lsq' ∧ SameRegs lsq lsq' ∧
      Core c { p with released := p.released ∪ (p.order.filter (· ≤ n)).toFinset } lsq' e' H W busy := by
  obtain ⟨hHW, hWT, hlt⟩ := h.layout.le
  have hhead : ¬ (lsq.stores ≠ 0 ∧ (lsq.storeQueue lsq.storeHead).inst.isNone = true) := by
    rintro ⟨hne, hnone⟩
    have hstores := h.layout.stores
    obtain ⟨⟨inst, hinst, -⟩, -⟩ := h.layout.entry H (by omega)
    rw [h.layout.idx.1, h.entry_eq (Nat.le_refl H) (by omega), hinst] at hnone
    cases hnone
  obtain ⟨lsq', e', released, hrun, hsame, hcore, hsub, hsub', hall⟩ :=
    commitFrom hn n c.SQEntries H h (Nat.le_refl H) (hHW.trans hWT) (by omega) fun b hb =>
      h.flags.canWB b (Nat.lt_of_lt_of_le hb hHW)
  refine ⟨lsq', e', ?_, hsame, ?_⟩
  · rw [LSQUnit.commitStores, if_neg hhead, h.layout.idx.1]
    exact hrun
  · rw [← hsub'.antisymm (Finset.union_subset hsub hall)]
    exact hcore

/-! ## Squashing -/

theorem pop (h : Core c p lsq e H W busy) {order : List Nat} {x : Nat} (horder : p.order = order ++ [x])
    (hcan : (e order.length).canWB = false) (y : SQEntry) (isSquashed : Nat → Bool) : Core c { p with order := order }
      { lsq.setEntry (order.length % c.SQEntries) y with
        isSquashed := isSquashed
        stores := lsq.stores - 1
        storeTail := order.length % c.SQEntries } e H W busy := by
  have hlen : p.order.length = order.length + 1 := by
    rw [horder]
    exact List.length_append
  have hsn : ∀ a < order.length, order.getD a 0 = p.sn a := by
    intro a ha
    rw [Program.sn, horder, List.getD_append _ _ _ a ha]
  have hstartedlt : ∀ a, Started W busy a → a < order.length := by
    intro a ha
    have hlt := h.started_lt ha
    rcases Nat.lt_or_eq_of_le (Nat.lt_succ_iff.1 (hlen ▸ hlt)) with hlt | rfl
    · exact hlt
    · exact absurd ha (h.le_of_canWB hcan)
  obtain ⟨⟨hHW, hWT, hTn⟩, ⟨hhead, hwb, -⟩, hstores, hholds, hentry, hsorted, ⟨hlt, hrel, hreq⟩, hsq⟩ := h.layout
  obtain ⟨hreleased, hclosed, hcanW, hstarted, hcommitted, hleft, hwaiting, hheadc, hwbcount⟩ := h.flags
  rw [hlen] at *
  have hWle : W ≤ order.length := by
    refine Nat.le_of_not_lt fun hgt => h.le_of_canWB hcan (.of_lt ?_)
    omega
  refine ⟨?_, ?_, ?_⟩
  · refine ⟨⟨hHW, hWle, (Nat.lt_succ_self _).trans hTn⟩, ⟨hhead, hwb, rfl⟩, ?_, ?_, fun a ha => ?_, fun a b hab hb => ?_,
      ⟨fun a ha => ?_, hrel, hreq⟩, fun a ha ha' => ?_⟩
    · simp only [hstores]
      omega
    · intro a ha ha'
      have hslot := (hholds.update hTn.le (hHW.trans hWle) (Nat.lt_succ_self _) y) a ha (Nat.lt_succ_of_lt ha')
      rwa [Function.update_of_ne ha'.ne] at hslot
    · have hok := hentry a (Nat.lt_succ_of_lt ha)
      refine ⟨?_, ?_, ?_, ?_⟩
      all_goals simp only [Program.sn, hsn a ha]
      · exact hok.inst
      · exact hok.req
      · exact hok.size
      · exact hok.isSplit
    · simp only [Program.sn]
      rw [hsn a (hab.trans hb), hsn b hb]
      exact hsorted a b hab (Nat.lt_succ_of_lt hb)
    · simp only [Program.sn]
      rw [hsn a ha]
      exact hlt a (Nat.lt_succ_of_lt ha)
    · simp only [Program.sn]
      rw [hsn a ha']
      exact hsq a ha (Nat.lt_succ_of_lt ha')
  · refine ⟨fun a ha => ?_, fun a b hab hb => hclosed a b hab (Nat.lt_succ_of_lt hb), hcanW, fun hb => ?_,
      fun a ha ha' => hcommitted a ha (Nat.lt_succ_of_lt ha'), hleft,
      fun a ha ha' => hwaiting a ha (Nat.lt_succ_of_lt ha'), fun hH => hheadc (Nat.lt_succ_of_lt hH), ?_⟩
    · simp only [Program.sn]
      rw [hsn a ha]
      exact hreleased a (Nat.lt_succ_of_lt ha)
    · exact ⟨hstartedlt W (.inr ⟨rfl, hb⟩), (hstarted hb).2⟩
    · refine hwbcount.trans ?_
      rw [toWB_succ, hcan, Bool.false_and]
      rfl
  · refine (h.traffic.congr fun a ha => ?_).frame rfl rfl rfl fun _ => ⟨rfl, rfl⟩
    simp only [Program.packets, Program.sn, hsn a (hstartedlt a ha), and_self]

theorem decrStIdx_mod (hn : 0 < c.SQEntries) (a : Nat) :
    LSQUnit.decrStIdx c ((a + 1) % c.SQEntries) = a % c.SQEntries :=
  Ring.prev_mod hn a

/-- If nothing younger than `n` may be dropped, everything remains. -/
theorem squash_eq_self (h : Core c p lsq e H W busy) {n : Nat}
    (hall : ∀ a < p.order.length, p.sn a ≤ n ∨ (e a).canWB = true) : p.squash n = p := by
  have hfilter : (p.order.filter fun i => i ≤ n || i ∈ p.released) = p.order := by
    refine List.filter_eq_self.2 fun i hi => ?_
    obtain ⟨a, ha, rfl⟩ := Program.exists_sn hi
    rw [Bool.or_eq_true, decide_eq_true_eq, decide_eq_true_eq, ← h.flags.released a ha]
    exact hall a ha
  rw [Program.squash, hfilter]

theorem squashFrom (hn : 0 < c.SQEntries) (n : Nat) :
    ∀ (fuel : Nat) {p : Program} {lsq : LSQUnit}, Core c p lsq e H W busy → p.order.length - H < fuel →
      ∃ lsq', LSQUnit.squashFrom c n fuel lsq = some lsq' ∧ SameRegs lsq lsq' ∧ Core c (p.squash n) lsq' e H W busy
  | 0, p, lsq, h, hfuel => absurd hfuel (Nat.not_lt_zero _)
  | fuel + 1, p, lsq, h, hfuel => by
    obtain ⟨⟨hHW, hWT, hTn⟩, hidx, hstores, -⟩ := h.layout
    unfold LSQUnit.squashFrom
    by_cases hempty : lsq.stores = 0
    · have hHT : p.order.length = H := by omega
      refine ⟨lsq, if_pos hempty, .refl lsq, ?_⟩
      rw [h.squash_eq_self fun a ha => .inr (h.flags.canWB a (by omega))]
      exact h
    · rcases List.eq_nil_or_concat p.order with hnil | ⟨order, x, horder⟩
      · have hlen : p.order.length = 0 := by
          rw [hnil]
          rfl
        omega
      · have horder : p.order = order ++ [x] := horder.trans List.concat_eq_append
        have hlen : p.order.length = order.length + 1 := by
          rw [horder]
          exact List.length_append
        have hlast : p.sn order.length = x := by
          rw [Program.sn, horder, List.getD_append_right _ _ _ _ (Nat.le_refl _), Nat.sub_self]
          rfl
        have hlt : order.length < p.order.length := by omega
        obtain ⟨⟨inst, hinst, hsn, -, -⟩, -, -, -⟩ := h.layout.entry order.length hlt
        have hslot : LSQUnit.decrStIdx c lsq.storeTail = order.length % c.SQEntries := by
          rw [hidx.2.2, hlen]
          exact decrStIdx_mod hn _
        have hentry := h.entry_eq (by omega) hlt
        simp only [if_neg hempty, hslot, hentry, hinst, Option.bind_some]
        by_cases hyoung : inst.seqNum > n
        · rw [if_pos hyoung]
          by_cases hcan : (e order.length).canWB = true
          · refine ⟨lsq, if_pos hcan, .refl lsq, ?_⟩
            rw [h.squash_eq_self fun a ha => .inr (h.flags.closed a order.length (by omega) hlt hcan)]
            exact h
          · rw [if_neg hcan]
            have hcan := Bool.not_eq_true _ |>.mp hcan
            have hpop := h.pop horder hcan
              { e order.length with inst := none, canWB := false, req := none }
              (Function.update lsq.isSquashed inst.seqNum true)
            have hfuel : order.length - H < fuel := by omega
            obtain ⟨lsq', hrun, hsame, hcore⟩ := squashFrom hn n fuel hpop hfuel
            refine ⟨lsq', hrun, ?_, ?_⟩
            · refine SameRegs.trans ?_ hsame
              exact ⟨rfl, rfl, ⟨rfl, rfl⟩, fun _ => ⟨rfl, rfl⟩, fun _ => rfl⟩
            · have hdrop : p.squash n = Program.squash { p with order := order } n := by
                have hx : x ∉ p.released := by
                  rw [← hlast, ← h.flags.released _ hlt, hcan]
                  exact Bool.false_ne_true
                have hxn : ¬ x ≤ n := by omega
                simp [Program.squash, horder, hx, hxn]
              rw [hdrop]
              exact hcore
        · refine ⟨lsq, if_neg hyoung, .refl lsq, ?_⟩
          rw [h.squash_eq_self fun a ha => .inl ?_]
          · exact h
          · rcases Nat.lt_or_eq_of_le (Nat.lt_succ_iff.1 (hlen ▸ ha)) with hlt' | rfl
            · have := h.layout.sorted a _ hlt' hlt
              omega
            · omega

theorem squash (hn : 0 < c.SQEntries) (h : Core c p lsq e H W busy) (n : Nat) :
    ∃ lsq', lsq.squash c n = some lsq' ∧ SameRegs lsq lsq' ∧ Core c (p.squash n) lsq' e H W busy :=
  squashFrom hn n c.SQEntries h (by have := h.layout.le; omega)

end Core

end Alpine.Cpu.Lsq
