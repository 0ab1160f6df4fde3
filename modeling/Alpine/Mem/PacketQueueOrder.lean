import Alpine.Mem.PacketQueue

/-!
# The order of a packet queue (`mem/packet_queue.cc`)

`schedSendTiming` searches from the end "to order by tick", but the search stops at the front packet, which
is not compared: an earlier packet goes behind it.

* `Earlier` — by tick, and by the order of the calls where the ticks are equal.
* `InPlace` — the new packet is not earlier than the front packet.
* `transmitList_sorted_iff` — the list is in order in every run whose packets are handed in like that, and
  the first packet that is not leaves it out of order.
-/

namespace Alpine.Mem.PacketQueue

open Alpine.Run

/-- The packet that is due first; of two for one tick, the one that was handed in first. -/
def Earlier (a b : DeferredPacket) : Prop := a.tick < b.tick ∨ (a.tick = b.tick ∧ a.nr < b.nr)

/-- `force_order` is false. -/
def Unforced : Call → Prop
  | .schedSendTiming _ _ force_order => force_order = false
  | _ => True

/-- A packet that is handed in is not earlier than the one at the front. -/
def InPlace (w : World) : Call → Prop
  | .schedSendTiming _ when _ => ∀ front ∈ w.transmitList.head?, front.tick ≤ when
  | _ => True

/-- The packet that is being sent was ready, and would be the first of the list in order. -/
structure Sorted (w : World) : Prop where
  order : (w.sending.toList ++ w.transmitList).Pairwise Earlier
  old : ∀ dp ∈ w.sending.toList ++ w.transmitList, dp.nr < w.handed.length
  ready : ∀ dp ∈ w.sending, dp.tick ≤ w.curTick

variable {w w' : World}

theorem Earlier.trans {a b c : DeferredPacket} (hab : Earlier a b) (hbc : Earlier b c) : Earlier a c := by
  rcases hab with hab | ⟨hab, hab'⟩ <;> rcases hbc with hbc | ⟨hbc, hbc'⟩
  · exact .inl (hab.trans hbc)
  · exact .inl (hbc ▸ hab)
  · exact .inl (hab ▸ hbc)
  · exact .inr ⟨hab.trans hbc, hab'.trans hbc'⟩

theorem Sorted.list (h : Sorted w) : w.transmitList.Pairwise Earlier :=
  (List.pairwise_append.1 h.order).2.1

/-- A packet that is not forced passes those that are due later, and no others. -/
theorem passes_unforced {dp i : DeferredPacket} (h : dp.force_order = false) :
    passes dp i = decide (dp.tick < i.tick) := by
  unfold passes
  rw [h, Bool.false_and, Bool.not_false, Bool.and_true]

/-- The new packet in the list: in order if and only if the front packet is not due later. -/
theorem pairwise_insertBehind_passes {dp : DeferredPacket} {l : List DeferredPacket}
    (hforce : dp.force_order = false) (hl : l.Pairwise Earlier) (hold : ∀ i ∈ l, i.nr < dp.nr) :
    (insertBehind (passes dp) dp l).Pairwise Earlier ↔ ∀ front ∈ l.head?, front.tick ≤ dp.tick := by
  have hpass : ∀ i, passes dp i = false ↔ i.tick ≤ dp.tick := fun i => by
    rw [passes_unforced hforce, decide_eq_false_iff_not, Nat.not_lt]
  rw [pairwise_insertBehind_iff (R := Earlier) (fun hab hbc => hab.trans hbc) hl (fun i _ hi => ?_)
    fun i hi => ?_]
  · exact forall₂_congr fun front _ => hpass front
  · rw [passes_unforced hforce] at hi
    exact .inl (of_decide_eq_true hi)
  · rw [hpass]
    constructor
    · intro hle
      exact (Nat.lt_or_eq_of_le hle).imp_right fun heq => ⟨heq, hold i hi⟩
    · rintro (hlt | ⟨heq, -⟩)
      · exact hlt.le
      · exact heq.le

/-- A queue whose send event or drain state is changed. -/
theorem Sorted.of_eq (h : Sorted w) (hlist : w'.transmitList = w.transmitList)
    (hsending : w'.sending = w.sending) (hhanded : w'.handed = w.handed) (hcur : w.curTick ≤ w'.curTick) :
    Sorted w' := by
  refine ⟨?_, ?_, ?_⟩
  · rw [hlist, hsending]
    exact h.order
  · rw [hlist, hsending, hhanded]
    exact h.old
  · rw [hsending]
    exact fun dp hdp => (h.ready dp hdp).trans hcur

theorem schedSendEvent_frame {when : Tick} (h : w.schedSendEvent when = .ok w') :
    w'.transmitList = w.transmitList ∧ w'.sending = w.sending ∧ w'.handed = w.handed ∧ w'.curTick = w.curTick := by
  unfold World.schedSendEvent at h
  split at h
  · split at h
    · cases h
      exact ⟨rfl, rfl, rfl, rfl⟩
    · cases h
  · split at h
    · dsimp only at h
      split at h
      · split at h
        · cases h
          exact ⟨rfl, rfl, rfl, rfl⟩
        · cases h
      · split at h
        · split at h
          · cases h
            exact ⟨rfl, rfl, rfl, rfl⟩
          · cases h
        · cases h
          exact ⟨rfl, rfl, rfl, rfl⟩
    · split at h
      · cases h
        exact ⟨rfl, rfl, rfl, rfl⟩
      · cases h
        exact ⟨rfl, rfl, rfl, rfl⟩

/-- What `schedSendTiming` does to the list. -/
theorem schedSendTiming_frame {pkt : Packet} {when : Tick} {force_order : Bool}
    (hwhen : w.curTick ≤ when) (hpkt : pkt.isExpressSnoop = false)
    (h : w.schedSendTiming pkt when force_order = .ok w') :
    ∃ dp, dp = (⟨when, pkt, w.handed.length, force_order⟩ : DeferredPacket) ∧
      w'.transmitList = insertBehind (passes dp) dp w.transmitList ∧ w'.sending = w.sending ∧
      w'.handed = w.handed ++ [dp] ∧ w'.curTick = w.curTick := by
  rcases schedSendTiming_cases w force_order hwhen hpkt with ⟨hpanic, -⟩ | ⟨dp, w1, hdp, rfl, hcases⟩
  · rw [hpanic] at h
    cases h
  · rcases hcases with ⟨hlist, heq⟩ | ⟨-, heq⟩
    · obtain ⟨hl, hsending, hhanded, hcur⟩ := schedSendEvent_frame (heq.symm.trans h)
      exact ⟨dp, hdp, by rw [hl, hlist]; rfl, hsending, hhanded, hcur⟩
    · cases Except.ok.inj (heq.symm.trans h)
      exact ⟨dp, hdp, rfl, rfl, rfl, rfl⟩

/-- A packet is handed in: the list stays in order if and only if it is not due before the front packet. -/
theorem Sorted.hand (h : Sorted w) {pkt : Packet} {when : Tick} (hwhen : w.curTick ≤ when)
    (hpkt : pkt.isExpressSnoop = false) (hstep : w.schedSendTiming pkt when false = .ok w') :
    (w'.transmitList.Pairwise Earlier ↔ ∀ front ∈ w.transmitList.head?, front.tick ≤ when) ∧
      ((∀ front ∈ w.transmitList.head?, front.tick ≤ when) → Sorted w') := by
  obtain ⟨dp, hdp, hlist, hsending, hhanded, hcur⟩ := schedSendTiming_frame hwhen hpkt hstep
  have htick : dp.tick = when := by rw [hdp]
  have hnr : dp.nr = w.handed.length := by rw [hdp]
  have hmem : ∀ i ∈ w'.transmitList, i = dp ∨ i ∈ w.transmitList := fun i hi =>
    List.mem_cons.1 ((perm_insertBehind _ dp _).subset (hlist ▸ hi))
  have horder : w'.transmitList.Pairwise Earlier ↔ ∀ front ∈ w.transmitList.head?, front.tick ≤ when := by
    rw [hlist, ← htick]
    exact pairwise_insertBehind_passes (by rw [hdp]) h.list fun i hi =>
      hnr ▸ h.old i (List.mem_append_right _ hi)
  refine ⟨horder, fun hfront => ⟨?_, ?_, ?_⟩⟩
  · obtain ⟨hfirst, -, hcross⟩ := List.pairwise_append.1 h.order
    rw [hsending]
    refine List.pairwise_append.2 ⟨hfirst, horder.2 hfront, fun i hi j hj => ?_⟩
    rcases hmem j hj with rfl | hj
    · -- the packet that is being sent was ready, so it is not due later than the new one
      have hle : i.tick ≤ j.tick := htick ▸ (h.ready i (Option.mem_toList.1 hi)).trans hwhen
      exact (Nat.lt_or_eq_of_le hle).imp_right fun heq => ⟨heq, hnr ▸ h.old i (List.mem_append_left _ hi)⟩
    · exact hcross i hi j hj
  · rw [hsending, hhanded, List.length_append, List.length_singleton]
    intro i hi
    rcases List.mem_append.1 hi with hi | hi
    · exact Nat.lt_succ_of_lt (h.old i (List.mem_append_left _ hi))
    · rcases hmem i hi with rfl | hi
      · exact hnr ▸ Nat.lt_succ_self _
      · exact Nat.lt_succ_of_lt (h.old i (List.mem_append_right _ hi))
  · rw [hsending, hcur]
    exact h.ready

theorem Sorted.send (h : Sorted w) (hnone : w.sending = none) (hstep : w.sendDeferredPacket = .ok w') :
    Sorted w' := by
  have horder := h.order
  have hold := h.old
  unfold World.sendDeferredPacket at hstep
  rw [hnone] at horder hold
  split at hstep
  · cases hstep
  · split at hstep
    · cases hstep
    · rename_i dp l hlist
      rw [hlist] at horder hold
      split at hstep
      · rename_i hready
        cases hstep
        refine ⟨horder, hold, fun i hi => ?_⟩
        obtain rfl : dp = i := Option.some.inj hi
        exact hready
      · cases hstep

/-- The send returns: the packet is gone, or is at the front again. -/
theorem Sorted.sendTimingReturns (h : Sorted w) {dp : DeferredPacket} {success : Bool}
    (hsending : w.sending = some dp) (hstep : w.sendTimingReturns dp success = .ok w') : Sorted w' := by
  have horder := h.order
  have hold := h.old
  rw [hsending] at horder hold
  unfold World.sendTimingReturns at hstep
  cases success with
  | true =>
    dsimp only at hstep
    rw [if_pos rfl] at hstep
    obtain ⟨hlist, hnone, hhanded, -⟩ := schedSendEvent_frame hstep
    dsimp only at hlist hnone hhanded
    refine ⟨?_, ?_, ?_⟩
    · rw [hlist, hnone]
      exact (List.pairwise_append.1 horder).2.1
    · rw [hlist, hnone, hhanded]
      exact fun i hi => hold i (List.mem_cons_of_mem dp hi)
    · rw [hnone]
      exact fun i hi => by cases hi
  | false =>
    cases Except.ok.inj hstep
    exact ⟨horder, hold, fun i hi => by cases hi⟩

/-- **One step**: the list stays in order if and only if a packet that is handed in is not due before the
front packet. -/
theorem Sorted.step (h : Sorted w) {c : Call} (hc : Obeys w c) (hforce : Unforced c)
    (hstep : PacketQueue.step w c = .ok w') :
    (w'.transmitList.Pairwise Earlier ↔ InPlace w c) ∧ (InPlace w c → Sorted w') := by
  have hsorted : Sorted w' → (w'.transmitList.Pairwise Earlier ↔ True) ∧ (True → Sorted w') :=
    fun h' => ⟨iff_of_true h'.list trivial, fun _ => h'⟩
  cases c with
  | schedSendTiming pkt when force_order =>
    obtain rfl : force_order = false := hforce
    exact h.hand hc.1 hc.2 hstep
  | processSendEvent =>
    unfold PacketQueue.step World.processSendEvent at hstep
    dsimp only at hstep
    split at hstep
    · cases hstep
    · have htaken : Sorted { w with sendEvent := none } := h.of_eq rfl rfl rfl (Nat.le_refl _)
      exact hsorted (htaken.send hc.1 hstep)
  | sendTimingReturns dp success => exact hsorted (h.sendTimingReturns hc hstep)
  | retry =>
    unfold PacketQueue.step World.retry at hstep
    dsimp only at hstep
    split at hstep
    · have hretry : Sorted { w with waitingOnRetry := false } := h.of_eq rfl rfl rfl (Nat.le_refl _)
      exact hsorted (hretry.send hc.1 hstep)
    · cases hstep
  | drain =>
    cases Except.ok.inj hstep
    exact hsorted (h.of_eq rfl rfl rfl (Nat.le_refl _))
  | drainResume =>
    cases Except.ok.inj hstep
    exact hsorted (h.of_eq rfl rfl rfl (Nat.le_refl _))
  | advance t =>
    cases Except.ok.inj hstep
    exact hsorted (h.of_eq rfl rfl rfl hc.2.1)

theorem sorted_init (check : Bool) : Sorted { _disableSanityCheck := check } :=
  ⟨.nil, fun dp hdp => absurd hdp (List.not_mem_nil), fun _ hdp => by cases hdp⟩

/-- **The order of the list**: in every run without `force_order` whose packets are not due before the front
packet when they are handed in, the list is in order and the front packet is due first; and the next call
keeps it so if and only if it is such a call. -/
theorem transmitList_sorted_iff {check : Bool} (hrun : Reaches next (fun w c => Obeys w c ∧ Unforced c ∧ InPlace w c)
      { _disableSanityCheck := check } w) : w.transmitList.Pairwise Earlier ∧
    (∀ front ∈ w.transmitList.head?, ∀ dp ∈ w.transmitList, front.tick ≤ dp.tick) ∧
    ∀ c w', Obeys w c → Unforced c → step w c = .ok w' → (w'.transmitList.Pairwise Earlier ↔ InPlace w c) := by
  have h : Sorted w := hrun.inv (sorted_init check) fun w c w' h hc hnext =>
    (h.step hc.1 hc.2.1 (toOption_eq_some.1 hnext)).2 hc.2.2
  refine ⟨h.list, fun front hfront dp hdp => ?_, fun c w' hc hforce hstep => (h.step hc hforce hstep).1⟩
  have hlist := h.list
  cases hl : w.transmitList with
  | nil =>
    rw [hl] at hdp
    cases hdp
  | cons i l =>
    rw [hl] at hfront hdp hlist
    obtain rfl : i = front := Option.some.inj hfront
    rcases List.mem_cons.1 hdp with rfl | hdp
    · exact Nat.le_refl _
    · rcases (List.pairwise_cons.1 hlist).1 dp hdp with hlt | ⟨heq, -⟩
      · exact hlt.le
      · exact heq.le

/-- A packet for tick 10. -/
def oneQueued : World where
  transmitList := [⟨10, packet 0, 0, false⟩]
  sendEvent := some 10
  reentered := true
  handed := [⟨10, packet 0, 0, false⟩]

theorem transmitList_sorted_oneQueued : oneQueued.transmitList.Pairwise Earlier ∧
    (∀ front ∈ oneQueued.transmitList.head?, ∀ dp ∈ oneQueued.transmitList, front.tick ≤ dp.tick) ∧
    ∀ c w', Obeys oneQueued c → Unforced c → step oneQueued c = .ok w' →
      (w'.transmitList.Pairwise Earlier ↔ InPlace oneQueued c) :=
  transmitList_sorted_iff ((Reaches.refl : Reaches next _ ({} : World) {}).step
    (i := Call.schedSendTiming (packet 0) 10 false)
    ⟨⟨by decide, rfl⟩, rfl, fun front hfront => by cases hfront⟩ rfl)

/-- A packet for tick 5 is handed in behind one for tick 10, and stays there. -/
theorem transmitList_not_sorted :
    ¬ ∀ w, Reaches next (fun w c => Obeys w c ∧ Unforced c) {} w → w.transmitList.Pairwise Earlier := by
  intro hall
  have h1 := (Reaches.refl : Reaches next (fun w c => Obeys w c ∧ Unforced c) ({} : World) {}).step
    (i := Call.schedSendTiming (packet 0) 10 false) ⟨⟨by decide, rfl⟩, rfl⟩ rfl
  have h2 := h1.step (i := Call.schedSendTiming (packet 1) 5 false) ⟨⟨by decide, rfl⟩, rfl⟩ rfl
  have hearlier := (List.pairwise_cons.1 (hall _ h2)).1 ⟨5, packet 1, 1, false⟩ (List.mem_singleton.2 rfl)
  exact absurd hearlier (by unfold Earlier; decide)

end Alpine.Mem.PacketQueue
