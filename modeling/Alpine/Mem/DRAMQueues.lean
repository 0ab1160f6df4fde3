import Alpine.Mem.DRAMBursts

/-!
# The loops over the bursts of a packet, and the write queue

* `addToReadQueue_found`, `addToReadQueue_spec` — a read whose bursts are all in the write queue is answered;
  the other bursts of a read go to the read queue, with a helper if the packet has several.
* `WriteQueue` — `isInWriteQueue` is the set of the burst addresses of the write queue, which has one entry
  for each; `addToWriteQueue_spec`, `WriteQueue.serve` — the steps keep it.
-/

namespace Alpine.Mem.Dram.DRAMCtrl

variable {p : Params} {s : DRAMCtrl} {pkt : Packet}

/-! ## Reads -/

/-- The bursts of a read that go to the read queue. -/
def toRead (p : Params) (s : DRAMCtrl) (bs : List Burst) : List Burst := bs.filter (!s.foundInWrQ p ·)

/-- The bursts of a read that the write queue services. -/
def fromWrQ (p : Params) (s : DRAMCtrl) (bs : List Burst) : List Burst := bs.filter (s.foundInWrQ p ·)

def readPacket (pkt : Packet) (helper : Option Nat) (b : Burst) : DRAMPacket := ⟨pkt, true, b.addr, b.size, helper⟩

theorem length_toRead (bs : List Burst) : (toRead p s bs).length + (fromWrQ p s bs).length = bs.length := by
  induction bs with
  | nil => rfl
  | cons b bs ih =>
    cases hb : s.foundInWrQ p b <;> simp [toRead, fromWrQ, hb] at ih ⊢ <;> omega

theorem toRead_append_fromWrQ (bs : List Burst) : (fromWrQ p s bs ++ toRead p s bs).Perm bs :=
  List.filter_append_perm _ bs

theorem toRead_found {b : Burst} {bs : List Burst} (hb : s.foundInWrQ p b = true) :
    toRead p s (b :: bs) = toRead p s bs ∧ fromWrQ p s (b :: bs) = b :: fromWrQ p s bs := by
  simp [toRead, fromWrQ, hb]

theorem toRead_not_found {b : Burst} {bs : List Burst} (hb : s.foundInWrQ p b = false) :
    toRead p s (b :: bs) = b :: toRead p s bs ∧ fromWrQ p s (b :: bs) = fromWrQ p s bs := by
  simp [toRead, fromWrQ, hb]

theorem readBurst_found {cnt : Nat} {h : Option Nat} {sv : List Burst} {b : Burst}
    (hb : s.foundInWrQ p b = true) : readBurst p pkt cnt ⟨s, h, sv⟩ b = some ⟨s, h, sv ++ [b]⟩ := by
  simp only [readBurst, hb, if_true]

theorem readLoop_found {cnt : Nat} {h : Option Nat} {bs sv : List Burst} (hall : toRead p s bs = []) :
    bs.foldlM (readBurst p pkt cnt) ⟨s, h, sv⟩ = some ⟨s, h, sv ++ fromWrQ p s bs⟩ := by
  induction bs generalizing sv with
  | nil => simp [fromWrQ]
  | cons b bs ih =>
    cases hb : s.foundInWrQ p b with
    | true =>
      obtain ⟨hto, hfrom⟩ := @toRead_found _ _ _ bs hb
      rw [hto] at hall
      rw [List.foldlM_cons, readBurst_found hb, hfrom]
      exact (ih hall).trans (by rw [List.append_assoc]; rfl)
    | false => exact absurd (hall.symm.trans (toRead_not_found hb).1) nofun

/-- The loop from a state in which the helper, if one is needed, is there. -/
theorem readLoop_made {cnt : Nat} {h : Option Nat} (hmade : cnt > 1 → h ≠ none) {bs sv : List Burst}
    (hspace : s.readQueue.length + s.respQueue.length + (toRead p s bs).length ≤ p.readBufferSize) :
    bs.foldlM (readBurst p pkt cnt) ⟨s, h, sv⟩ =
      some ⟨{ s with readQueue := s.readQueue ++ (toRead p s bs).map (readPacket pkt h) }, h,
        sv ++ fromWrQ p s bs⟩ := by
  induction bs generalizing s sv with
  | nil => simp [toRead, fromWrQ]
  | cons b bs ih =>
    cases hb : s.foundInWrQ p b with
    | true =>
      obtain ⟨hto, hfrom⟩ := @toRead_found _ _ _ bs hb
      rw [hto] at hspace
      rw [List.foldlM_cons, readBurst_found hb, hto, hfrom]
      exact (ih hspace).trans (by rw [List.append_assoc]; rfl)
    | false =>
      obtain ⟨hto, hfrom⟩ := @toRead_not_found _ _ _ bs hb
      rw [hto, List.length_cons] at hspace
      have hmake : ReadLoop.makeHelper ⟨s, h, sv⟩ cnt = ⟨s, h, sv⟩ := if_neg fun hc => hmade hc.1 hc.2
      have hfull : s.readQueueFull p 1 = false := decide_eq_false (by omega)
      have hstep : readBurst p pkt cnt ⟨s, h, sv⟩ b =
          some ⟨{ s with readQueue := s.readQueue ++ [readPacket pkt h b] }, h, sv⟩ := by
        simp only [readBurst, hb, hmake, hfull, if_false, Bool.false_eq_true]
        rfl
      rw [List.foldlM_cons, hstep, hto, hfrom]
      refine (ih (s := { s with readQueue := s.readQueue ++ [readPacket pkt h b] }) ?_).trans ?_
      · show (s.readQueue ++ _).length + s.respQueue.length + (toRead p s bs).length ≤ _
        rw [List.length_append, List.length_singleton]
        omega
      · simp only [List.append_assoc, List.map_cons]
        rfl

/-- The state with the helper of a packet of `cnt` bursts. -/
def withHelper (s : DRAMCtrl) (cnt serviced : Nat) : DRAMCtrl :=
  { s with
    helpers := Function.update s.helpers s.nextHelper (some ⟨cnt, serviced⟩)
    nextHelper := s.nextHelper + 1 }

/-- The loop from a state without a helper: one is made for the first burst that is not in the write
queue. -/
theorem readLoop_split {cnt : Nat} (hcnt : cnt > 1) {bs sv : List Burst}
    (hspace : s.readQueue.length + s.respQueue.length + (toRead p s bs).length ≤ p.readBufferSize)
    (hne : toRead p s bs ≠ []) : bs.foldlM (readBurst p pkt cnt) ⟨s, none, sv⟩ = some ⟨{ s.withHelper cnt 0 with
          readQueue := s.readQueue ++ (toRead p s bs).map (readPacket pkt (some s.nextHelper)) },
        some s.nextHelper, sv ++ fromWrQ p s bs⟩ := by
  induction bs generalizing sv with
  | nil => exact absurd rfl hne
  | cons b bs ih =>
    cases hb : s.foundInWrQ p b with
    | true =>
      obtain ⟨hto, hfrom⟩ := @toRead_found _ _ _ bs hb
      rw [hto] at hspace hne
      rw [List.foldlM_cons, readBurst_found hb, hto, hfrom]
      exact (ih hspace hne).trans (by rw [List.append_assoc]; rfl)
    | false =>
      have hmake : ReadLoop.makeHelper ⟨s, none, sv⟩ cnt =
          ReadLoop.makeHelper ⟨s.withHelper cnt 0, some s.nextHelper, sv⟩ cnt :=
        (if_pos ⟨hcnt, rfl⟩).trans (if_neg fun hc => nomatch hc.2).symm
      have hfound : (s.withHelper cnt 0).foundInWrQ p b = s.foundInWrQ p b := rfl
      have hstep : readBurst p pkt cnt ⟨s, none, sv⟩ b =
          readBurst p pkt cnt ⟨s.withHelper cnt 0, some s.nextHelper, sv⟩ b := by
        simp only [readBurst, hfound, hb, hmake, if_false, Bool.false_eq_true]
      rw [List.foldlM_cons, hstep, ← List.foldlM_cons]
      exact readLoop_made (s := s.withHelper cnt 0) (h := some s.nextHelper) (fun _ hnone => nomatch hnone) hspace

/-- **A read that the write queue services is answered at once.** -/
theorem addToReadQueue_found {cnt : Nat} (hread : pkt.isWrite = false) (hcnt : cnt ≠ 0)
    (hall : toRead p s (bursts p pkt cnt pkt.addr) = []) : s.addToReadQueue p pkt cnt =
      some (s.accessAndRespond pkt, fromWrQ p s (bursts p pkt cnt pkt.addr)) := by
  have hlen := length_toRead (p := p) (s := s) (bursts p pkt cnt pkt.addr)
  rw [hall, length_bursts, List.length_nil, Nat.zero_add] at hlen
  simp only [addToReadQueue, hread, hcnt, Bool.false_eq_true, or_self, if_false, readLoop_found hall,
    List.nil_append, Option.map_some, hlen, if_true]

/-- **The bursts of a read that the write queue does not service go to the read queue.** -/
theorem addToReadQueue_spec {cnt : Nat} (hread : pkt.isWrite = false) (hcnt : cnt ≠ 0)
    (hspace : s.readQueue.length + s.respQueue.length + cnt ≤ p.readBufferSize)
    (hne : toRead p s (bursts p pkt cnt pkt.addr) ≠ []) : s.addToReadQueue p pkt cnt = some
      (let sv := fromWrQ p s (bursts p pkt cnt pkt.addr)
       let news := toRead p s (bursts p pkt cnt pkt.addr)
       ({ s with
          readQueue := s.readQueue ++ news.map (readPacket pkt (if cnt > 1 then some s.nextHelper else none))
          helpers := if cnt > 1 then Function.update s.helpers s.nextHelper (some ⟨cnt, sv.length⟩) else s.helpers
          nextHelper := if cnt > 1 then s.nextHelper + 1 else s.nextHelper }, sv)) := by
  have hlen := length_toRead (p := p) (s := s) (bursts p pkt cnt pkt.addr)
  have hpos := List.length_pos_iff.2 hne
  rw [length_bursts] at hlen
  have hfrom : (fromWrQ p s (bursts p pkt cnt pkt.addr)).length ≠ cnt := by omega
  by_cases hmany : cnt > 1
  · have hloop := @readLoop_split _ _ pkt _ hmany _ [] (by omega) hne
    simp only [addToReadQueue, hread, hcnt, Bool.false_eq_true, or_self, if_false, hloop, List.nil_append,
      Option.map_some, hfrom, hmany, if_true]
    simp [withHelper]
  · have hloop := @readLoop_made p s pkt cnt none (fun hc => absurd hc hmany)
      (bursts p pkt cnt pkt.addr) [] (by omega)
    simp only [addToReadQueue, hread, hcnt, Bool.false_eq_true, or_self, if_false, hloop, List.nil_append,
      Option.map_some, hfrom, hmany]

/-! ## The write queue -/

/-- The addresses of the bursts in the write queue. -/
def writeAddrs (p : Params) (s : DRAMCtrl) : List Nat := s.writeQueue.map (burstAlign p ·.addr)

structure WriteQueue (p : Params) (s : DRAMCtrl) : Prop where
  nodup : (s.writeAddrs p).Nodup
  isIn : s.isInWriteQueue = (s.writeAddrs p).toFinset
  length_le : s.writeQueue.length ≤ p.writeBufferSize

theorem WriteQueue.card (h : WriteQueue p s) : s.isInWriteQueue.card = s.writeQueue.length := by
  rw [h.isIn, List.toFinset_card_of_nodup h.nodup, writeAddrs, List.length_map]

theorem WriteQueue.mem_iff (h : WriteQueue p s) {a : Nat} : a ∈ s.isInWriteQueue ↔ a ∈ s.writeAddrs p := by
  rw [h.isIn, List.mem_toFinset]

def withWrites (s : DRAMCtrl) (writeQueue : List DRAMPacket) (isInWriteQueue : Finset Nat) : DRAMCtrl :=
  { s with writeQueue := writeQueue, isInWriteQueue := isInWriteQueue }

theorem writeBurst_new (h : WriteQueue p s) {b : Burst} (hspace : s.writeQueue.length < p.writeBufferSize)
    (hnot : burstAlign p b.addr ∉ s.writeAddrs p) :
    writeBurst p pkt s b = some (s.withWrites (s.writeQueue ++ [⟨pkt, false, b.addr, b.size, none⟩])
        (insert (burstAlign p b.addr) s.isInWriteQueue)) ∧
      WriteQueue p (s.withWrites (s.writeQueue ++ [⟨pkt, false, b.addr, b.size, none⟩])
        (insert (burstAlign p b.addr) s.isInWriteQueue)) := by
  have hin : burstAlign p b.addr ∉ s.isInWriteQueue := fun hmem => hnot (h.mem_iff.1 hmem)
  have hcard := Finset.card_insert_of_notMem hin
  refine ⟨?_, ?_, ?_, ?_⟩
  · rw [writeBurst, if_neg hin, if_pos hspace]
    refine if_pos ?_
    show (s.writeQueue ++ _).length = (insert _ s.isInWriteQueue).card
    rw [hcard, h.card, List.length_append, List.length_singleton]
  · simp only [writeAddrs, withWrites, List.map_append, List.map_singleton]
    exact List.nodup_append.2 ⟨h.nodup, List.nodup_singleton _, fun a ha c hc heq =>
      hnot ((List.mem_singleton.1 hc) ▸ heq ▸ ha)⟩
  · simp only [writeAddrs, withWrites, List.map_append, List.map_singleton, List.toFinset_append, h.isIn]
    ext a
    simp
  · simp only [withWrites, List.length_append, List.length_singleton]
    omega

theorem writeBurst_spec (h : WriteQueue p s) {b : Burst} (hspace : s.writeQueue.length < p.writeBufferSize) :
    ∃ ws is, writeBurst p pkt s b = some (s.withWrites (s.writeQueue ++ ws) is) ∧
      WriteQueue p (s.withWrites (s.writeQueue ++ ws) is) ∧ (∀ w ∈ ws, w.burst = b) ∧ ws.length ≤ 1 := by
  by_cases hin : burstAlign p b.addr ∈ s.isInWriteQueue
  · refine ⟨[], s.isInWriteQueue, ?_, ?_, by simp, by simp⟩
    · rw [writeBurst, if_pos hin, List.append_nil]
      rfl
    · rw [List.append_nil]
      exact h
  · obtain ⟨hstep, hq⟩ := @writeBurst_new _ _ pkt h _ hspace fun hmem => hin (h.mem_iff.2 hmem)
    refine ⟨_, _, hstep, hq, ?_, le_rfl⟩
    intro w hw
    obtain rfl := List.mem_singleton.1 hw
    rfl

theorem writeLoop_spec (bs : List Burst) (h : WriteQueue p s)
    (hspace : s.writeQueue.length + bs.length ≤ p.writeBufferSize) :
    ∃ ws is, bs.foldlM (writeBurst p pkt) s = some (s.withWrites (s.writeQueue ++ ws) is) ∧
      WriteQueue p (s.withWrites (s.writeQueue ++ ws) is) ∧ ∀ w ∈ ws, w.burst ∈ bs := by
  induction bs generalizing s with
  | nil =>
    refine ⟨[], s.isInWriteQueue, ?_, ?_, by simp⟩
    · rw [List.append_nil]
      rfl
    · rw [List.append_nil]
      exact h
  | cons b bs ih =>
    rw [List.length_cons] at hspace
    obtain ⟨ws, is, hstep, hs, hb, hone⟩ := @writeBurst_spec _ _ pkt h b (by omega)
    have hlen : (s.writeQueue ++ ws).length + bs.length ≤ p.writeBufferSize := by
      rw [List.length_append]
      omega
    obtain ⟨ws', is', hloop, hs', hbs⟩ := ih hs hlen
    have heq : (s.withWrites (s.writeQueue ++ ws) is).withWrites (s.writeQueue ++ ws ++ ws') is' =
        s.withWrites (s.writeQueue ++ (ws ++ ws')) is' := by
      rw [List.append_assoc]
      rfl
    refine ⟨ws ++ ws', is', ?_, ?_, ?_⟩
    · rw [List.foldlM_cons, hstep, ← heq]
      exact hloop
    · rw [← heq]
      exact hs'
    · intro w hw
      rcases List.mem_append.1 hw with hw | hw
      · rw [hb w hw]
        exact List.mem_cons_self
      · exact List.mem_cons_of_mem b (hbs w hw)

/-- **A write is answered when its bursts are in the write queue.** -/
theorem addToWriteQueue_spec {cnt : Nat} (hwrite : pkt.isWrite = true) (h : WriteQueue p s)
    (hspace : s.writeQueue.length + cnt ≤ p.writeBufferSize) :
    ∃ ws is, s.addToWriteQueue p pkt cnt = some ((s.withWrites (s.writeQueue ++ ws) is).accessAndRespond pkt) ∧
      WriteQueue p (s.withWrites (s.writeQueue ++ ws) is) ∧ ∀ w ∈ ws, w.burst ∈ bursts p pkt cnt pkt.addr := by
  obtain ⟨ws, is, hloop, hs, hbs⟩ := @writeLoop_spec _ _ pkt (bursts p pkt cnt pkt.addr) h
    (by rwa [length_bursts])
  exact ⟨ws, is, by simp only [addToWriteQueue, hwrite, if_true, hloop, Option.map_some], hs, hbs⟩

theorem WriteQueue.serve {d : DRAMPacket} {ws : List DRAMPacket} (h : WriteQueue p s)
    (hperm : (d :: ws).Perm s.writeQueue) :
    WriteQueue p (s.withWrites ws (s.isInWriteQueue.erase (burstAlign p d.addr))) := by
  have haddrs : (burstAlign p d.addr :: ws.map (burstAlign p ·.addr)).Perm (s.writeAddrs p) :=
    hperm.map fun w : DRAMPacket => burstAlign p w.addr
  have hnodup := List.nodup_cons.1 (haddrs.nodup_iff.2 h.nodup)
  have hlen := hperm.length_eq
  have hle := h.length_le
  refine ⟨hnodup.2, ?_, ?_⟩
  · ext a
    have hmem : a ∈ s.isInWriteQueue ↔ a ∈ burstAlign p d.addr :: ws.map (burstAlign p ·.addr) :=
      h.mem_iff.trans haddrs.mem_iff.symm
    show a ∈ s.isInWriteQueue.erase _ ↔ a ∈ (ws.map (burstAlign p ·.addr)).toFinset
    rw [Finset.mem_erase, List.mem_toFinset, hmem, List.mem_cons]
    constructor
    · rintro ⟨hne, heq | hin⟩
      · exact absurd heq hne
      · exact hin
    · intro hin
      exact ⟨fun heq => hnodup.1 (heq ▸ hin), Or.inr hin⟩
  · show ws.length ≤ p.writeBufferSize
    rw [List.length_cons] at hlen
    omega

/-! ## The next request -/

/-- The queues between two calls. -/
structure Queues (p : Params) (s : DRAMCtrl) : Prop where
  writes : WriteQueue p s
  reads_le : s.readQueue.length + s.respQueue.length ≤ p.readBufferSize
  small : ∀ d ∈ s.readQueue ++ s.writeQueue, d.size ≤ p.burstSize
  scheduled : s.respondScheduled = !s.respQueue.isEmpty
  bus : s.busStateNext = .WRITE → s.writeQueue ≠ []

/-- The reads that are in flight move on, and nothing is answered. -/
structure SameReads (s s' : DRAMCtrl) : Prop where
  perm : (s'.readQueue ++ s'.respQueue).Perm (s.readQueue ++ s.respQueue)
  helpers : s'.helpers = s.helpers
  nextHelper : s'.nextHelper = s.nextHelper
  answered : s'.answered = s.answered

theorem chooseNext_perm {queue queue' : List DRAMPacket} {choice : Option Nat}
    (h : chooseNext queue choice = some (some queue')) : queue'.Perm queue ∧ queue' ≠ [] := by
  unfold chooseNext at h
  split at h
  · exact absurd h nofun
  · obtain ⟨i, _, hget⟩ := Option.bind_eq_some_iff.1 (Option.some.inj h)
    obtain ⟨d, hd, rfl⟩ := Option.map_eq_some_iff.1 hget
    obtain ⟨hlt, rfl⟩ := List.getElem?_eq_some_iff.1 hd
    exact ⟨List.getElem_cons_eraseIdx_perm hlt, List.cons_ne_nil _ _⟩

theorem switchBus_busState : s.switchBus.busState = s.busStateNext := by
  unfold switchBus
  cases hbus : s.busState <;> cases hnext : s.busStateNext <;> simp [hbus]

theorem switchBus_busStateNext : s.switchBus.busStateNext = s.busStateNext := by
  unfold switchBus
  split <;> rfl

theorem Queues.switchBus (h : Queues p s) : Queues p s.switchBus ∧ SameReads s s.switchBus := by
  unfold DRAMCtrl.switchBus
  split
  · exact ⟨⟨⟨h.writes.nodup, h.writes.isIn, h.writes.length_le⟩, h.reads_le, h.small, h.scheduled, h.bus⟩,
      ⟨.rfl, rfl, rfl, rfl⟩⟩
  · exact ⟨⟨⟨h.writes.nodup, h.writes.isIn, h.writes.length_le⟩, h.reads_le, h.small, h.scheduled, h.bus⟩,
      ⟨.rfl, rfl, rfl, rfl⟩⟩
  · exact ⟨h, ⟨.rfl, rfl, rfl, rfl⟩⟩

theorem Queues.retryWrite (h : Queues p s) : Queues p (s.retryWrite p) ∧ SameReads s (s.retryWrite p) :=
  ⟨⟨⟨h.writes.nodup, h.writes.isIn, h.writes.length_le⟩, h.reads_le, h.small, h.scheduled, h.bus⟩,
    ⟨.rfl, rfl, rfl, rfl⟩⟩

theorem SameReads.trans {s s' s'' : DRAMCtrl} (h : SameReads s s') (h' : SameReads s' s'') : SameReads s s'' :=
  ⟨h'.perm.trans h.perm, h'.helpers.trans h.helpers, h'.nextHelper.trans h.nextHelper,
    h'.answered.trans h.answered⟩

theorem Queues.serveRead (h : Queues p s) {queue : List DRAMPacket} (hperm : queue.Perm s.readQueue)
    (hne : queue ≠ []) : ∃ s', s.serveRead p queue = some s' ∧ Queues p s' ∧ SameReads s s' := by
  cases queue with
  | nil => exact absurd rfl hne
  | cons d ds =>
    have hin : d ∈ s.readQueue := hperm.mem_iff.1 List.mem_cons_self
    have hsmall : ¬ d.size > p.burstSize := Nat.not_lt.2 (h.small d (List.mem_append_left _ hin))
    have hsched : ¬ s.respondScheduled = s.respQueue.isEmpty := by
      rw [h.scheduled]
      cases s.respQueue.isEmpty <;> nofun
    refine ⟨_, by simp only [DRAMCtrl.serveRead, hsmall, hsched, if_false]; rfl, ?_, ?_⟩
    · have hlen := hperm.length_eq
      have hle := h.reads_le
      refine ⟨⟨h.writes.nodup, h.writes.isIn, h.writes.length_le⟩, ?_, ?_, ?_, ?_⟩
      · simp only [List.length_append, List.length_cons, List.length_nil] at hlen ⊢
        omega
      · intro e he
        apply h.small
        rcases List.mem_append.1 he with he | he
        · exact List.mem_append_left _ (hperm.mem_iff.1 (List.mem_cons_of_mem d he))
        · exact List.mem_append_right _ he
      · simp
      · intro hbus
        simp only at hbus
        split at hbus
        next hhigh =>
          have hpos : 0 < s.writeQueue.length := by omega
          exact List.length_pos_iff.1 hpos
        next => exact h.bus hbus
    · refine ⟨?_, rfl, rfl, rfl⟩
      calc ds ++ (s.respQueue ++ [d])
          _ = (ds ++ s.respQueue) ++ [d] := (List.append_assoc ..).symm
          (ds ++ s.respQueue) ++ [d] |>.Perm _ := List.perm_append_singleton d _
          _ |>.Perm _ := hperm.append_right s.respQueue

theorem Queues.serveWrite (h : Queues p s) {queue : List DRAMPacket} {draining : Bool}
    (hperm : queue.Perm s.writeQueue) (hne : queue ≠ []) :
    ∃ s', s.serveWrite p queue draining = some s' ∧ Queues p s' ∧ SameReads s s' := by
  cases queue with
  | nil => exact absurd rfl hne
  | cons d ds =>
    have hin : d ∈ s.writeQueue := hperm.mem_iff.1 List.mem_cons_self
    have hsmall : ¬ d.size > p.burstSize := Nat.not_lt.2 (h.small d (List.mem_append_right _ hin))
    have hserve := h.writes.serve hperm
    refine ⟨_, by simp only [DRAMCtrl.serveWrite, hsmall, if_false]; rfl, ?_, ?_⟩
    case refine_2 => exact ⟨.rfl, rfl, rfl, rfl⟩
    refine ⟨⟨hserve.nodup, hserve.isIn, hserve.length_le⟩, h.reads_le, ?_, h.scheduled, ?_⟩
    · intro e he
      apply h.small
      rcases List.mem_append.1 he with he | he
      · exact List.mem_append_left _ he
      · exact List.mem_append_right _ (hperm.mem_iff.1 (List.mem_cons_of_mem d he))
    · intro hbus hnil
      replace hnil : ds = [] := hnil
      simp [hnil] at hbus

theorem chooseNext_of_ne_nil {queue : List DRAMPacket} {choice : Option Nat} (hne : queue ≠ []) :
    chooseNext queue choice = some none ∨
      ∃ queue', chooseNext queue choice = some (some queue') ∧ queue'.Perm queue ∧ queue' ≠ [] := by
  cases hc : chooseNext queue choice with
  | none => simp [chooseNext, hne] at hc
  | some found =>
    cases found with
    | none => exact Or.inl rfl
    | some queue' => exact Or.inr ⟨queue', rfl, chooseNext_perm hc⟩

theorem Queues.nextRead (h : Queues p s) (choice : Option Nat) (draining : Bool) :
    ∃ s', s.nextRead p choice draining = some s' ∧ Queues p s' ∧ SameReads s s' := by
  unfold DRAMCtrl.nextRead
  by_cases hreads : s.readQueue = []
  · rw [if_pos hreads]
    by_cases hwrites : s.writeQueue ≠ [] ∧ (draining ∨ s.writeQueue.length > p.writeLowThreshold)
    · have hwrite : Queues p { s with busStateNext := .WRITE } :=
        ⟨⟨h.writes.nodup, h.writes.isIn, h.writes.length_le⟩, h.reads_le, h.small, h.scheduled,
          fun _ => hwrites.1⟩
      obtain ⟨hq, hsame⟩ := hwrite.retryWrite
      exact ⟨_, if_pos hwrites, hq, hsame.perm, hsame.helpers, hsame.nextHelper, hsame.answered⟩
    · exact ⟨s, if_neg hwrites, h, .rfl, rfl, rfl, rfl⟩
  · rw [if_neg hreads]
    rcases @chooseNext_of_ne_nil _ choice hreads with hnone | ⟨queue, hsome, hperm, hne⟩
    · exact ⟨s, by rw [hnone]; rfl, h, .rfl, rfl, rfl, rfl⟩
    · obtain ⟨s', hserve, hq, hsame⟩ := h.serveRead hperm hne
      refine ⟨s'.retryWrite p, ?_, hq.retryWrite.1, hsame.trans hq.retryWrite.2⟩
      rw [hsome, Option.bind_some]
      simp only [hserve, Option.map_some]

theorem Queues.nextWrite (h : Queues p s) (hwrites : s.writeQueue ≠ []) (choice : Option Nat) (draining : Bool) :
    ∃ s', s.nextWrite p choice draining = some s' ∧ Queues p s' ∧ SameReads s s' := by
  unfold DRAMCtrl.nextWrite
  rcases @chooseNext_of_ne_nil _ choice hwrites with hnone | ⟨queue, hsome, hperm, hne⟩
  · exact ⟨s, by rw [hnone]; rfl, h, .rfl, rfl, rfl, rfl⟩
  · obtain ⟨s', hserve, hq, hsame⟩ := @Queues.serveWrite _ _ h _ draining hperm hne
    refine ⟨s'.retryWrite p, ?_, hq.retryWrite.1, hsame.trans hq.retryWrite.2⟩
    rw [hsome, Option.bind_some]
    simp only [hserve, Option.map_some]

/-- **The next request is served without a failure, whatever the scheduler chooses.** -/
theorem Queues.processNextReqEvent (h : Queues p s) (busy : Bool) (choice : Option Nat) (draining : Bool) :
    ∃ s', s.processNextReqEvent p busy choice draining = some s' ∧ Queues p s' ∧ SameReads s s' := by
  unfold DRAMCtrl.processNextReqEvent
  obtain ⟨hq, hsame⟩ := h.switchBus
  split
  · exact ⟨s, rfl, h, .rfl, rfl, rfl, rfl⟩
  · split
    · obtain ⟨s', hnext, hq', hsame'⟩ := hq.nextRead choice draining
      exact ⟨s', hnext, hq', hsame.trans hsame'⟩
    next hwrite =>
      have hwrites : s.switchBus.writeQueue ≠ [] := hq.bus (by
        rw [← hwrite, switchBus_busState, switchBus_busStateNext])
      obtain ⟨s', hnext, hq', hsame'⟩ := hq.nextWrite hwrites choice draining
      exact ⟨s', hnext, hq', hsame.trans hsame'⟩

end Alpine.Mem.Dram.DRAMCtrl
