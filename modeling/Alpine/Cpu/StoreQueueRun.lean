import Alpine.Cpu.StoreQueueWriteback

/-!
# Committed stores reach memory once and in order

Every call that is permitted keeps the invariant (`Inv.step`), and the invariant says that the store queue does
what it is for (`Inv.correct`).
-/

namespace Alpine.Cpu.Lsq

variable {c : Config} {p : Program} {lsq : LSQUnit} {e : Nat → SQEntry} {H W a : Nat} {busy : Bool} {s : System}

namespace Core

theorem sn_inj (h : Core c p lsq e H W busy) {b : Nat} (ha : a < p.order.length) (hb : b < p.order.length)
    (heq : p.sn a = p.sn b) : a = b := by
  by_contra hab
  exact h.sn_ne hb ha hab heq

theorem completed_iff (h : Core c p lsq e H W busy) (ha : a < p.order.length) :
    .completed (p.sn a) ∈ lsq.log ↔ (e a).completed = true := by
  rw [h.traffic.completed]
  constructor
  · rintro ⟨b, hb, heq, hcomp⟩
    rwa [h.sn_inj ha (Nat.lt_of_lt_of_le hb h.layout.le.2.1) heq]
  · intro hcomp
    refine ⟨a, Nat.lt_of_not_le fun hle => ?_, rfl, hcomp⟩
    rw [h.flags.waiting a hle ha] at hcomp
    cases hcomp

theorem live_eq (h : Core c s.toProgram s.lsq e H W busy) : s.live = s.order.drop H := by
  have hHT : H ≤ s.order.length := h.layout.le.1.trans h.layout.le.2.1
  unfold System.live
  conv_lhs => rw [← List.take_append_drop H s.order]
  rw [List.dropWhile_append_of_pos]
  · refine List.dropWhile_eq_self_iff.2 fun hlen hcomp => ?_
    rw [List.length_drop] at hlen
    have hlt : H < s.order.length := by omega
    have hhead := of_decide_eq_true hcomp
    rw [List.getElem_drop] at hhead
    have hhead : .completed (s.sn H) ∈ s.lsq.log := by
      rw [← Program.sn_eq hlt]
      exact hhead
    rw [h.completed_iff hlt, h.flags.head hlt] at hhead
    cases hhead
  · intro i hi
    obtain ⟨a, ha, rfl⟩ := List.mem_take_iff_getElem.1 hi
    have haH : a < H := Nat.lt_of_lt_of_le ha (Nat.min_le_left _ _)
    have haT : a < s.order.length := Nat.lt_of_lt_of_le haH hHT
    refine decide_eq_true ?_
    rw [Program.sn_eq haT, h.completed_iff haT]
    exact h.flags.left a haH

end Core

namespace System

theorem inv_new (hn : 0 < c.SQEntries) (storeQueue : Nat → SQEntry) (senderState : Nat → LSQSenderState) :
    (new storeQueue senderState).Inv c := by
  have hnone : ∀ a, ¬ Started 0 false a := by
    rintro a (ha | ⟨-, hb⟩)
    · exact Nat.not_lt_zero a ha
    · cases hb
  refine ⟨fun _ => SQEntry.new ⟨0, false, false⟩, 0, 0, false, ⟨?_, ?_, ?_⟩, rfl, rfl, rfl, rfl⟩
  · constructor
    · exact ⟨Nat.le_refl 0, Nat.le_refl 0, by simpa [new] using hn⟩
    · exact ⟨(Nat.zero_mod _).symm, (Nat.zero_mod _).symm, (Nat.zero_mod _).symm⟩
    · rfl
    · exact fun a _ ha => absurd ha (Nat.not_lt_zero a)
    · exact fun a ha => absurd ha (Nat.not_lt_zero a)
    · exact fun a b _ hb => absurd hb (Nat.not_lt_zero b)
    · exact ⟨fun a ha => absurd ha (Nat.not_lt_zero a), fun i hi => absurd hi (Finset.notMem_empty i), fun _ _ => rfl⟩
    · exact fun a _ ha => absurd ha (Nat.not_lt_zero a)
  · constructor
    · exact fun a ha => absurd ha (Nat.not_lt_zero a)
    · exact fun a b _ hb => absurd hb (Nat.not_lt_zero b)
    · exact fun a ha => absurd ha (Nat.not_lt_zero a)
    · exact fun hb => by cases hb
    · exact fun a _ ha => absurd ha (Nat.not_lt_zero a)
    · exact fun a ha => absurd ha (Nat.not_lt_zero a)
    · exact fun a _ ha => absurd ha (Nat.not_lt_zero a)
    · exact fun hH => absurd hH (Nat.not_lt_zero 0)
    · rfl
  · constructor
    · exact fun a b _ hb => absurd hb (hnone b)
    · exact fun pkt hpkt => absurd hpkt List.not_mem_nil
    · exact fun i hi => absurd hi List.not_mem_nil
    · exact fun i => iff_of_false List.not_mem_nil fun ⟨a, ha, _⟩ => Nat.not_lt_zero a ha
    · exact fun i half => (if_neg (Nat.not_lt_zero half)).symm
    · exact fun a ha => absurd ha (Nat.not_lt_zero a)
    · exact fun hb => by cases hb
    · exact EventLog.always_nil
    · exact fun pkt => Nat.le_refl 0
    · exact fun a ha => absurd ha (hnone a)
    · exact fun a ha => absurd ha (Nat.not_lt_zero a)
    · exact fun _ => ⟨fun _ a ha => absurd ha (Nat.not_lt_zero a), fun a ha => absurd ha (Nat.not_lt_zero _),
        fun hb => by cases hb⟩

theorem Inv.step (hn : 0 < c.SQEntries) (hbyte : c.SQEntries ≤ 256) (h : s.Inv c) {call : Call}
    (hok : s.Permitted c call) : ∃ s', s.step c call = some s' ∧ s'.Inv c := by
  obtain ⟨e, H, W, busy, hcore, hreg⟩ := h
  cases call with
  | insertStore inst =>
    obtain ⟨hfree, hnext, hpre⟩ := hok
    obtain ⟨lsq, hrun, hcore', hsame⟩ := hcore.insertStore hn hfree hnext hpre
    refine ⟨_, congrArg (Option.map _) hrun, _, H, W, busy, hcore', hsame.registers hreg ?_⟩
    rintro rfl
    have hW := (hcore.flags.started rfl).1
    have hsn : (s.order ++ [inst.seqNum]).getD W 0 = s.sn W := List.getD_append _ _ _ W hW
    exact ⟨hsn, congrArg s.request hsn⟩
  | executeStore inst acc =>
    obtain ⟨hlive, hinst, hrel, hnone, hsquashed, hsc⟩ := hok
    rw [hcore.live_eq] at hlive
    obtain ⟨k, hk, hi⟩ := List.mem_iff_getElem.1 hlive
    rw [List.length_drop] at hk
    have ha : H + k < s.order.length := by omega
    have hi : inst.seqNum = s.sn (H + k) := by
      rw [← hi, List.getElem_drop]
      exact Program.sn_eq ha
    obtain ⟨lsq, e', hrun, hsame, hcore'⟩ := hcore.executeStore (Nat.le_add_right H k) ha hi hinst hrel hnone
      hsquashed acc fun hc => by
        refine ⟨fun b hb => (hsc hc).1 _ (Program.sn_mem (by omega)) ?_, (hsc hc).2⟩
        rw [hi]
        exact hcore.layout.sorted b (H + k) hb ha
    have hother : busy = true → s.sn W ≠ inst.seqNum := by
      rintro rfl heq
      obtain ⟨hW, hcan⟩ := hcore.flags.started rfl
      exact hrel (heq ▸ (hcore.flags.released W hW).1 hcan)
    refine ⟨_, congrArg (Option.map _) hrun, e', H, W, busy, ?_, ?_⟩
    · cases acc <;> exact hcore'
    · cases acc with
      | write req => exact hsame.registers hreg fun hb => ⟨rfl, Function.update_of_ne (hother hb) _ _⟩
      | translationDelayed => exact hsame.registers hreg fun _ => ⟨rfl, rfl⟩
      | predicateFalse => exact hsame.registers hreg fun _ => ⟨rfl, rfl⟩
      | fault => exact hsame.registers hreg fun _ => ⟨rfl, rfl⟩
  | commitStores n =>
    obtain ⟨lsq, e', hrun, hsame, hcore'⟩ := hcore.commitStores hn n
    exact ⟨_, congrArg (Option.map _) hrun, e', H, W, busy, hcore', hsame.registers hreg fun _ => ⟨rfl, rfl⟩⟩
  | writebackStores accept handleLockedWrite =>
    obtain ⟨lsq, e', H', W', busy', hrun, hcore', hreg'⟩ :=
      hcore.writebackStores hn hbyte accept handleLockedWrite hreg
    exact ⟨_, congrArg (Option.map _) hrun, e', H', W', busy', hcore', hreg'⟩
  | recvRetry accept =>
    obtain ⟨lsq, W', busy', hrun, hcore', hreg'⟩ := hcore.recvRetry hn accept hreg
    exact ⟨_, congrArg (Option.map _) hrun, e, H, W', busy', hcore', hreg'⟩
  | completeDataAccess pkt =>
    obtain ⟨lsq, e', H', hrun, hcore', hreg'⟩ := hcore.completeDataAccess hn hreg hok
    exact ⟨_, congrArg (Option.map _) hrun, e', H', W, busy, hcore', hreg'⟩
  | squash n =>
    obtain ⟨lsq, hrun, hsame, hcore'⟩ := hcore.squash hn n
    refine ⟨_, congrArg (Option.map _) hrun, e, H, W, busy, hcore', hsame.registers hreg ?_⟩
    rintro rfl
    -- the entry of the store at `W` is the same
    obtain ⟨inst, hinst, hsn, -⟩ := (hcore.layout.entry W (hcore.flags.started rfl).1).inst
    obtain ⟨inst', hinst', hsn', -⟩ := (hcore'.layout.entry W (hcore'.flags.started rfl).1).inst
    have heq : (s.toProgram.squash n).sn W = s.sn W := by
      rw [← hsn, ← hsn', Option.some.inj (hinst.symm.trans hinst')]
    exact ⟨heq, congrArg s.request heq⟩
  | setSquashed i =>
    have hsame : SameRegs s.lsq { s.lsq with isSquashed := Function.update s.lsq.isSquashed i true } :=
      ⟨rfl, rfl, ⟨rfl, rfl⟩, fun _ => ⟨rfl, rfl⟩, fun _ => rfl⟩
    refine ⟨_, rfl, e, H, W, busy, ?_, hsame.registers hreg fun _ => ⟨rfl, rfl⟩⟩
    exact hcore.frame rfl ⟨rfl, rfl, rfl⟩ ⟨rfl, rfl⟩ rfl ⟨rfl, rfl⟩ rfl fun _ => ⟨rfl, rfl⟩

theorem entryAt_eq (h : Core c s.toProgram s.lsq e H W busy) {k : Nat} (hk : H + k < s.order.length) :
    s.entryAt c k = e (H + k) := by
  rw [entryAt, h.layout.idx.1, Nat.mod_add_mod]
  exact h.layout.holds (H + k) (Nat.le_add_right H k) hk

theorem toWB_drop (hleft : ∀ a < H, (e a).completed = true) (n : Nat) :
    toWB e (H + n) = (List.range n).countP fun k => (e (H + k)).canWB && !(e (H + k)).completed := by
  unfold toWB
  rw [List.range_add, List.countP_append, List.countP_map]
  have hzero : (List.range H).countP (fun a => (e a).canWB && !(e a).completed) = 0 := by
    refine List.countP_eq_zero.2 fun a ha hcount => ?_
    rw [hleft a (List.mem_range.1 ha), Bool.not_true, Bool.and_false] at hcount
    cases hcount
  rw [hzero, Nat.zero_add]
  rfl

theorem Inv.correct (h : s.Inv c) : s.Correct c := by
  obtain ⟨e, H, W, busy, hcore, -⟩ := h
  obtain ⟨hHW, hWT, hlt⟩ := hcore.layout.le
  have hlen : s.live.length = s.order.length - H := by
    rw [hcore.live_eq, List.length_drop]
  have hT : H + (s.order.length - H) = s.order.length := by omega
  have htraffic := hcore.traffic
  constructor
  · rw [hcore.layout.stores, hlen]
    omega
  · intro k hk
    rw [hlen] at hk
    obtain ⟨⟨inst, hinst, hsn, -⟩, -⟩ := hcore.layout.entry (H + k) (by omega)
    rw [entryAt_eq hcore (by omega), hinst, hcore.live_eq, List.getElem?_drop, List.getElem?_eq_getElem (by omega),
      Option.map_some, hsn]
    exact congrArg some (Program.sn_eq (by omega)).symm
  · rw [hlen, hcore.layout.idx.2.2, hcore.layout.idx.1, Nat.mod_add_mod, hT]
  · refine ⟨W - H, by omega, ?_⟩
    rw [hcore.layout.idx.2.1, hcore.layout.idx.1, Nat.mod_add_mod, Nat.add_sub_cancel' hHW]
  · rw [hcore.flags.storesToWB, hlen]
    conv_lhs => rw [← hT]
    rw [toWB_drop hcore.flags.left]
    refine congrArg Nat.cast (List.countP_congr fun k hk => ?_)
    have hk := List.mem_range.1 hk
    rw [entryAt_eq hcore (by omega)]
  · intro pkt
    have hcount := htraffic.count pkt.seqNum pkt.half
    split at hcount
    next => exact hcount.le
    next => exact hcount.le.trans (Nat.zero_le 1)
  · intro pkt hpkt
    obtain ⟨a, ha, hi⟩ := htraffic.accepted pkt hpkt
    have hcount := htraffic.count pkt.seqNum pkt.half
    have hpos : 0 < s.lsq.log.count (.accepted ⟨pkt.seqNum, pkt.half⟩) := List.count_pos_iff.2 hpkt
    have hle := htraffic.numSent_le ha
    refine ⟨?_, ?_⟩
    · rw [hi]
      exact (hcore.flags.released a (hcore.started_lt ha)).1 (hcore.canWB_of_started ha)
    · split at hcount
      next hhalf =>
        rw [hi] at hhalf ⊢
        exact Nat.lt_of_lt_of_le hhalf hle
      next => omega
  · intro before pkt after hlog i hmem hi
    obtain ⟨b, hb, rfl⟩ := Program.exists_sn hmem
    have hpkt : .accepted pkt ∈ s.lsq.log := by
      rw [hlog]
      exact List.mem_append_right _ List.mem_cons_self
    obtain ⟨a, ha, heq⟩ := htraffic.accepted pkt hpkt
    have hba : b < a := by
      refine Nat.lt_of_not_le fun hle => ?_
      rcases Nat.lt_or_eq_of_le hle with hlt | rfl
      · have := hcore.layout.sorted a b hlt hb
        omega
      · omega
    exact htraffic.inOrder before _ after hlog pkt rfl a b hba ha heq
  · intro i hmem hcompleted
    obtain ⟨a, ha, rfl⟩ := Program.exists_sn hmem
    obtain ⟨b, hb, heq, -⟩ := (htraffic.completed _).1 hcompleted
    have hab := hcore.sn_inj ha (Nat.lt_of_lt_of_le hb hWT) heq
    exact htraffic.sentBefore (hab ▸ hb)

/-- In every run the store queue does what it is for, and no assertion of a call fails. -/
theorem storeQueue_correct (c : Config) (hn : 0 < c.SQEntries) (hbyte : c.SQEntries ≤ 256)
    (storeQueue : Nat → SQEntry) (senderState : Nat → LSQSenderState) {s : System}
    (h : Run.Reaches (step c) (Permitted c) (new storeQueue senderState) s) :
    s.Correct c ∧ ∀ call, s.Permitted c call → ∃ s', s.step c call = some s' := by
  have hinv : s.Inv c := h.inv (inv_new hn storeQueue senderState) fun t call t' ht hok hnext => by
    obtain ⟨t'', hstep, hinv⟩ := ht.step hn hbyte hok
    rw [hstep] at hnext
    exact Option.some.inj hnext ▸ hinv
  refine ⟨hinv.correct, fun call hok => ?_⟩
  obtain ⟨s', hstep, -⟩ := hinv.step hn hbyte hok
  exact ⟨s', hstep⟩

/-- A split store whose second packet is refused and sent again. -/
theorem storeQueue_correct_split : ∃ s : System, Run.Reaches (step ⟨3, 2, true⟩) (Permitted ⟨3, 2, true⟩)
      (new (fun _ => SQEntry.new ⟨0, false, false⟩) fun _ => ⟨0, 0, false, false, none⟩) s ∧
    s.lsq.log = [.accepted ⟨1, 0⟩, .accepted ⟨1, 1⟩, .completed 1] ∧ s.live = [2] ∧ s.Correct ⟨3, 2, true⟩ := by
  have hcall : ∀ (call : Call) {t t' : System}, Run.Reaches (step ⟨3, 2, true⟩) (Permitted ⟨3, 2, true⟩)
      (new (fun _ => SQEntry.new ⟨0, false, false⟩) fun _ => ⟨0, 0, false, false, none⟩) t →
      Permitted ⟨3, 2, true⟩ t call → step ⟨3, 2, true⟩ t call = some t' → Run.Reaches (step ⟨3, 2, true⟩)
        (Permitted ⟨3, 2, true⟩)
        (new (fun _ => SQEntry.new ⟨0, false, false⟩) fun _ => ⟨0, 0, false, false, none⟩) t' :=
    fun _ _ _ h hok hs => h.step hok hs
  have h1 := hcall (.insertStore ⟨1, false, false⟩) .refl ⟨by decide, by decide, rfl⟩ rfl
  have h2 := hcall (.insertStore ⟨2, false, false⟩) h1 ⟨by decide, by decide, rfl⟩ rfl
  have h3 := hcall (.executeStore ⟨1, false, false⟩ (.write ⟨8, true, false⟩)) h2
    ⟨by decide, rfl, by decide, rfl, rfl, fun hc => by cases hc⟩ rfl
  have h4 := hcall (.commitStores 1) h3 trivial rfl
  have h5 := hcall (.writebackStores (fun pkt => pkt.half == 0) fun _ => true) h4 trivial rfl
  have h6 := hcall (.recvRetry fun _ => true) h5 trivial rfl
  have h7 := hcall (.completeDataAccess ⟨1, 1⟩) h6 (List.Mem.tail _ (List.Mem.head _)) rfl
  have h8 := hcall (.completeDataAccess ⟨1, 0⟩) h7 (List.Mem.head _) rfl
  exact ⟨_, h8, rfl, by decide, (storeQueue_correct _ (by decide) (by decide) _ _ h8).1⟩

end System

end Alpine.Cpu.Lsq
