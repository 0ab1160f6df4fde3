import Alpine.Cpu.StoreQueueInv

/-!
# What is sent for the stores

What keeps `Traffic`: a store is started (`Traffic.start`), one of its packets is accepted (`Traffic.take`), its
last packet has been sent or the store fails, and the write-back index moves on (`Traffic.advance`, `Traffic.fail`),
the cache responds (`Traffic.respond`), and a store completes (`Traffic.complete`).
-/

namespace Alpine.Cpu.Lsq

variable {c : Config} {lsq lsq' : LSQUnit} {sn sn' pk pk' : Nat → Nat} {done done' : Nat → Bool} {W : Nat}
  {busy : Bool} {a b i : Nat} {log : List Event}

theorem numSent_snoc (log : List Event) (ev : Event) (i : Nat) :
    numSent (log ++ [ev]) i = numSent log i + if ev.isAccepted i then 1 else 0 := by
  unfold numSent
  rw [List.countP_append, List.countP_singleton]

theorem numSent_accepted (log : List Event) (pkt : Packet) (i : Nat) :
    numSent (log ++ [.accepted pkt]) i = numSent log i + if pkt.seqNum = i then 1 else 0 := by
  rw [numSent_snoc]
  simp [Event.isAccepted]

theorem numSent_failed (log : List Event) (j i : Nat) : numSent (log ++ [.failed j]) i = numSent log i :=
  numSent_snoc log _ i

theorem numSent_completed (log : List Event) (j i : Nat) : numSent (log ++ [.completed j]) i = numSent log i :=
  numSent_snoc log _ i

theorem numSent_eq_zero (h : ∀ pkt, .accepted pkt ∈ log → pkt.seqNum ≠ i) : numSent log i = 0 := by
  unfold numSent
  refine List.countP_eq_zero.2 fun ev hev hacc => ?_
  cases ev with
  | accepted pkt => exact h pkt hev (by simpa [Event.isAccepted] using hacc)
  | failed j => cases hacc
  | completed j => cases hacc

theorem Started.le (h : Started W busy a) : a ≤ W := by
  rcases h with h | ⟨rfl, -⟩
  · exact Nat.le_of_lt h
  · exact Nat.le_refl _

theorem Started.lt (h : Started W busy b) (hab : a < b) : a < W := Nat.lt_of_lt_of_le hab h.le

theorem Started.of_lt (h : a < W) : Started W busy a := .inl h

theorem Started.self : Started W true W := .inr ⟨rfl, rfl⟩

namespace Traffic

theorem inj (h : Traffic c lsq sn pk done W busy) (ha : Started W busy a) (hb : Started W busy b)
    (heq : sn a = sn b) : a = b := by
  rcases Nat.lt_trichotomy a b with hlt | hab | hlt
  · have := h.sorted a b hlt hb
    omega
  · exact hab
  · have := h.sorted b a hlt ha
    omega

/-- Only the stores that have been started matter. -/
theorem congr (h : Traffic c lsq sn pk done W busy)
    (heq : ∀ a, Started W busy a → sn' a = sn a ∧ pk' a = pk a ∧ done' a = done a) :
    Traffic c lsq sn' pk' done' W busy := by
  have hsn : ∀ a, Started W busy a → sn' a = sn a := fun a ha => (heq a ha).1
  have hpk : ∀ a, Started W busy a → pk' a = pk a := fun a ha => (heq a ha).2.1
  have hdone : ∀ a, Started W busy a → done' a = done a := fun a ha => (heq a ha).2.2
  constructor
  · intro a b hab hb
    rw [hsn a (.of_lt (hb.lt hab)), hsn b hb]
    exact h.sorted a b hab hb
  · intro pkt hpkt
    obtain ⟨a, ha, heq⟩ := h.accepted pkt hpkt
    exact ⟨a, ha, heq.trans (hsn a ha).symm⟩
  · intro i hi
    obtain ⟨a, ha, heq, hzero⟩ := h.failed i hi
    exact ⟨a, ha, heq.trans (hsn a (.of_lt ha)).symm, hzero⟩
  · intro i
    rw [h.completed i]
    constructor
    · rintro ⟨a, ha, heq, hd⟩
      exact ⟨a, ha, heq.trans (hsn a (.of_lt ha)).symm, (hdone a (.of_lt ha)).trans hd⟩
    · rintro ⟨a, ha, heq, hd⟩
      exact ⟨a, ha, heq.trans (hsn a (.of_lt ha)), (hdone a (.of_lt ha)).symm.trans hd⟩
  · exact h.count
  · intro a ha hnot
    rw [hsn a (.of_lt ha)] at hnot ⊢
    rw [hpk a (.of_lt ha)]
    exact h.sent a ha hnot
  · rintro rfl
    rw [hsn W .self, hpk W .self]
    exact h.partly rfl
  · refine h.inOrder.mono fun before ev _ hev pkt hpkt a b hba ha hi => ?_
    have hb : Started W busy b := .of_lt (ha.lt hba)
    rw [hsn b hb, hpk b hb]
    exact hev pkt hpkt a b hba ha (hi.trans (hsn a ha))
  · exact h.inFlight
  · intro a ha hpos hnot
    rw [hpk a ha] at hpos ⊢
    rw [hsn a ha] at hnot ⊢
    exact h.outstanding a ha hpos hnot
  · intro a ha hd pkt hpkt
    rw [hsn a (.of_lt ha)]
    exact h.responded a ha ((hdone a (.of_lt ha)).symm.trans hd) pkt hpkt
  · intro htso
    obtain ⟨hall, hbefore, hnow⟩ := h.needsTSO htso
    refine ⟨fun hfl a ha => ?_, fun a ha => ?_, hnow⟩
    · rw [hdone a (.of_lt ha)]
      exact hall hfl a ha
    · rw [hdone a (.of_lt (by omega))]
      exact hbefore a ha

/-- Only the log, the packets in flight, what is outstanding and the flag of TSO matter. -/
theorem frame (h : Traffic c lsq sn pk done W busy) (hlog : lsq'.log = lsq.log)
    (hin : lsq'.inFlight = lsq.inFlight) (hfl : lsq'.storeInFlight = lsq.storeInFlight)
    (hstate : ∀ i, (lsq'.senderState i).outstanding = (lsq.senderState i).outstanding ∧
      (lsq'.senderState i).idx = (lsq.senderState i).idx) : Traffic c lsq' sn pk done W busy := by
  constructor
  · exact h.sorted
  · rw [hlog]
    exact h.accepted
  · rw [hlog]
    exact h.failed
  · rw [hlog]
    exact h.completed
  · rw [hlog]
    exact h.count
  · rw [hlog]
    exact h.sent
  · rw [hlog]
    exact h.partly
  · rw [hlog]
    exact h.inOrder
  · rw [hlog, hin]
    exact h.inFlight
  · intro a
    rw [hlog, hin, (hstate (sn a)).1, (hstate (sn a)).2]
    exact h.outstanding a
  · rw [hin]
    exact h.responded
  · rw [hfl]
    exact h.needsTSO

theorem numSent_unstarted (h : Traffic c lsq sn pk done W busy) (hi : ∀ a, Started W busy a → sn a ≠ i) :
    numSent lsq.log i = 0 :=
  numSent_eq_zero fun pkt hpkt heq => by
    obtain ⟨a, ha, hsn⟩ := h.accepted pkt hpkt
    exact hi a ha (hsn.symm.trans heq)

/-- The cache owes no response for a store of which no packet has been accepted. -/
theorem no_response (h : Traffic c lsq sn pk done W busy) (hzero : numSent lsq.log i = 0) :
    ∀ pkt ∈ lsq.inFlight, pkt.seqNum ≠ i := by
  rintro pkt hpkt rfl
  have hpos := List.count_pos_iff.2 hpkt
  have hle := h.inFlight pkt
  rw [h.count pkt.seqNum pkt.half, hzero, if_neg (Nat.not_lt_zero _)] at hle
  omega

/-- A store that has not failed has sent no more than its packets. -/
theorem numSent_le (h : Traffic c lsq sn pk done W busy) (ha : Started W busy a) : numSent lsq.log (sn a) ≤ pk a := by
  rcases ha with ha | ⟨rfl, hb⟩
  · by_cases hfailed : .failed (sn a) ∈ lsq.log
    · obtain ⟨-, -, -, hzero⟩ := h.failed _ hfailed
      omega
    · exact (h.sent a ha hfailed).le
  · exact h.partly hb

/-- A store that comes before one that has been started has been sent. -/
theorem sentBefore (h : Traffic c lsq sn pk done W busy) (ha : a < W) :
    (∀ half < pk a, .accepted ⟨sn a, half⟩ ∈ lsq.log) ∨ .failed (sn a) ∈ lsq.log := by
  by_cases hfailed : .failed (sn a) ∈ lsq.log
  · exact .inr hfailed
  · refine .inl fun half hhalf => ?_
    rw [← List.count_pos_iff, h.count, h.sent a ha hfailed, if_pos hhalf]
    exact Nat.one_pos

/-- The order of the stores up to the one at `W`. -/
theorem sorted_le (h : Traffic c lsq sn pk done W busy) (hsorted : ∀ a < W, sn a < sn W) (hab : a < b)
    (hb : b ≤ W) : sn a < sn b := by
  rcases Nat.lt_or_eq_of_le hb with hb | rfl
  · exact h.sorted a b hab (.of_lt hb)
  · exact hsorted a hab

/-- A store of which a packet has been accepted has been started. -/
theorem started (h : Traffic c lsq sn pk done W busy) (hsorted : ∀ a < W, sn a < sn W) {pkt : Packet}
    (hpkt : .accepted pkt ∈ lsq.log) (ha : a ≤ W) (hi : pkt.seqNum = sn a) : Started W busy a := by
  obtain ⟨b, hb, heq⟩ := h.accepted pkt hpkt
  have hab : a = b := by
    rcases Nat.lt_trichotomy a b with hlt | hab | hlt
    · have := h.sorted_le hsorted hlt hb.le
      omega
    · exact hab
    · have := h.sorted_le hsorted hlt ha
      omega
  exact hab ▸ hb

theorem start (h : Traffic c lsq sn pk done W false) (hsorted : ∀ a < W, sn a < sn W)
    (htso : c.needsTSO = true → lsq.storeInFlight = false) (state : LSQSenderState)
    (hstate : 0 < pk W → state.outstanding = pk W ∧ state.idx = W % c.SQEntries) :
    Traffic c (lsq.setState (sn W) state) sn pk done W true ∧ numSent lsq.log (sn W) = 0 := by
  have hlt : ∀ a, Started W false a → a < W := by
    rintro a (ha | ⟨-, hb⟩)
    · exact ha
    · cases hb
  have hzero : numSent lsq.log (sn W) = 0 := h.numSent_unstarted fun a ha => (hsorted a (hlt a ha)).ne
  refine ⟨?_, hzero⟩
  constructor
  · intro a b hab hb
    exact h.sorted_le hsorted hab hb.le
  · intro pkt hpkt
    obtain ⟨a, ha, heq⟩ := h.accepted pkt hpkt
    exact ⟨a, .of_lt (hlt a ha), heq⟩
  · exact h.failed
  · exact h.completed
  · exact h.count
  · exact h.sent
  · intro _
    exact hzero.le.trans (Nat.zero_le _)
  · refine h.inOrder.mono fun before ev hmem hev pkt hpkt a b hba ha hi => ?_
    exact hev pkt hpkt a b hba (h.started hsorted (hpkt ▸ hmem) ha.le hi) hi
  · exact h.inFlight
  · rintro a ha hpos hnot
    by_cases haW : a = W
    · subst haW
      have hnone : lsq.inFlight.countP (·.seqNum == sn a) = 0 :=
        List.countP_eq_zero.2 fun pkt hpkt heq => h.no_response hzero pkt hpkt (beq_iff_eq.1 heq)
      simp only [LSQUnit.setState, Function.update_self]
      rw [hnone, hzero]
      exact hstate hpos
    · have ha' : a < W := Nat.lt_of_le_of_ne ha.le haW
      have hne : sn a ≠ sn W := (hsorted a ha').ne
      simp only [LSQUnit.setState, Function.update_of_ne hne]
      exact h.outstanding a (.of_lt ha') hpos hnot
  · exact h.responded
  · intro hc
    obtain ⟨hall, hbefore, -⟩ := h.needsTSO hc
    exact ⟨hall, hbefore, fun _ => htso hc⟩

theorem take (h : Traffic c lsq sn pk done W true) (hk : numSent lsq.log (sn W) < pk W) :
    Traffic c (lsq.take ⟨sn W, numSent lsq.log (sn W)⟩) sn pk done W true := by
  have hne : ∀ a < W, sn W ≠ sn a := fun a ha => (h.sorted a W ha .self).ne'
  have hkeep : ∀ a < W, numSent (lsq.log ++ [.accepted ⟨sn W, numSent lsq.log (sn W)⟩]) (sn a) =
      numSent lsq.log (sn a) := by
    intro a ha
    rw [numSent_accepted, if_neg (hne a ha), Nat.add_zero]
  have hself : numSent (lsq.log ++ [.accepted ⟨sn W, numSent lsq.log (sn W)⟩]) (sn W) =
      numSent lsq.log (sn W) + 1 := by
    rw [numSent_accepted, if_pos rfl]
  constructor
  · exact h.sorted
  · intro pkt hpkt
    rcases List.mem_append.1 hpkt with hpkt | hpkt
    · exact h.accepted pkt hpkt
    · cases List.mem_singleton.1 hpkt
      exact ⟨W, .self, rfl⟩
  · intro i hi
    have hi : .failed i ∈ lsq.log := by simpa [LSQUnit.take] using hi
    obtain ⟨a, ha, rfl, hzero⟩ := h.failed i hi
    exact ⟨a, ha, rfl, (hkeep a ha).trans hzero⟩
  · intro i
    rw [← h.completed i]
    simp [LSQUnit.take]
  · intro i half
    have hcount := h.count i half
    simp only [LSQUnit.take, List.count_append, List.count_singleton, hcount, numSent_accepted]
    by_cases hi : sn W = i
    · subst hi
      simp only [beq_iff_eq, Event.accepted.injEq, Packet.mk.injEq, true_and, if_true]
      split <;> split <;> split <;> omega
    · simp [hi]
  · intro a ha hnot
    have hnot : .failed (sn a) ∉ lsq.log := fun hfailed => hnot (List.mem_append_left _ hfailed)
    exact (hkeep a ha).trans (h.sent a ha hnot)
  · intro _
    exact hself.le.trans hk
  · refine EventLog.always_snoc.2 ⟨h.inOrder, fun pkt hpkt a b hba ha hi => ?_⟩
    cases hpkt
    have hb : b < W := ha.lt hba
    refine ⟨h.sentBefore hb, fun hc => ?_⟩
    obtain ⟨hall, -, hfl⟩ := h.needsTSO hc
    exact (h.completed _).2 ⟨b, hb, rfl, hall (hfl rfl) b hb⟩
  · intro pkt
    have hle := h.inFlight pkt
    simp only [LSQUnit.take, List.count_append, List.count_singleton, beq_iff_eq, Event.accepted.injEq]
    omega
  · intro a ha hpos hnot
    have hnot : .failed (sn a) ∉ lsq.log := fun hfailed => hnot (List.mem_append_left _ hfailed)
    obtain ⟨hout, hidx⟩ := h.outstanding a ha hpos hnot
    refine ⟨?_, hidx⟩
    simp only [LSQUnit.take, List.countP_append, List.countP_singleton]
    by_cases haW : a = W
    · subst haW
      rw [hself, beq_self_eq_true, if_pos rfl]
      omega
    · have ha' : a < W := Nat.lt_of_le_of_ne ha.le haW
      rw [hkeep a ha', if_neg (by simpa using hne a ha')]
      exact hout
  · intro a ha hd pkt hpkt
    rcases List.mem_append.1 hpkt with hpkt | hpkt
    · exact h.responded a ha hd pkt hpkt
    · cases List.mem_singleton.1 hpkt
      exact hne a ha
  · exact h.needsTSO

/-- The index moves on: all packets of the store at `W` have been sent, or the store fails. -/
theorem move (h : Traffic c lsq sn pk done W busy) (hsorted : ∀ a < W, sn a < sn W) (hnew : done W = false)
    (htso : c.needsTSO = true → lsq.storeInFlight = false) {evs : List Event}
    (hevs : evs = [] ∧ numSent lsq.log (sn W) = pk W ∨ evs = [.failed (sn W)] ∧ numSent lsq.log (sn W) = 0) :
    Traffic c { lsq.storePostSend c with log := lsq.log ++ evs } sn pk done (W + 1) false := by
  have hle : ∀ a, Started (W + 1) false a → a ≤ W := by
    rintro a (ha | ⟨-, hb⟩)
    · exact Nat.lt_succ_iff.1 ha
    · cases hb
  have haccepted : ∀ pkt, .accepted pkt ∈ lsq.log ++ evs → .accepted pkt ∈ lsq.log := by
    intro pkt hpkt
    rcases hevs with ⟨rfl, -⟩ | ⟨rfl, -⟩
    · rwa [List.append_nil] at hpkt
    · simpa using hpkt
  have hcompleted : ∀ i, .completed i ∈ lsq.log ++ evs ↔ .completed i ∈ lsq.log := by
    intro i
    rcases hevs with ⟨rfl, -⟩ | ⟨rfl, -⟩
    · rw [List.append_nil]
    · simp
  have hnum : ∀ i, numSent (lsq.log ++ evs) i = numSent lsq.log i := by
    intro i
    rcases hevs with ⟨rfl, -⟩ | ⟨rfl, -⟩
    · rw [List.append_nil]
    · exact numSent_failed _ _ _
  have hcount : ∀ pkt, (lsq.log ++ evs).count (.accepted pkt) = lsq.log.count (.accepted pkt) := by
    intro pkt
    rcases hevs with ⟨rfl, -⟩ | ⟨rfl, -⟩
    · rw [List.append_nil]
    · rw [List.count_append]
      rfl
  constructor
  · intro a b hab hb
    exact h.sorted_le hsorted hab (hle b hb)
  · intro pkt hpkt
    obtain ⟨a, ha, heq⟩ := h.accepted pkt (haccepted pkt hpkt)
    exact ⟨a, .of_lt (Nat.lt_succ_of_le ha.le), heq⟩
  · intro i hi
    rw [hnum]
    rcases List.mem_append.1 hi with hi | hi
    · obtain ⟨a, ha, hrest⟩ := h.failed i hi
      exact ⟨a, Nat.lt_succ_of_lt ha, hrest⟩
    · rcases hevs with ⟨rfl, -⟩ | ⟨rfl, hzero⟩
      · cases hi
      · cases List.mem_singleton.1 hi
        exact ⟨W, Nat.lt_succ_self W, rfl, hzero⟩
  · intro i
    refine (hcompleted i).trans ((h.completed i).trans ⟨?_, ?_⟩)
    · rintro ⟨a, ha, hrest⟩
      exact ⟨a, Nat.lt_succ_of_lt ha, hrest⟩
    · rintro ⟨a, ha, heq, hd⟩
      rcases Nat.lt_succ_iff_lt_or_eq.1 ha with ha | rfl
      · exact ⟨a, ha, heq, hd⟩
      · rw [hnew] at hd
        cases hd
  · intro i half
    rw [hnum]
    exact (hcount _).trans (h.count i half)
  · intro a ha hnot
    rw [hnum]
    rcases Nat.lt_succ_iff_lt_or_eq.1 ha with ha | rfl
    · exact h.sent a ha fun hfailed => hnot (List.mem_append_left _ hfailed)
    · rcases hevs with ⟨-, hsent⟩ | ⟨rfl, -⟩
      · exact hsent
      · exact absurd (List.mem_append_right _ (List.mem_singleton_self _)) hnot
  · intro hb
    cases hb
  · have hlog : EventLog.Always (SentBefore c sn pk (W + 1) false) lsq.log := by
      refine h.inOrder.mono fun before ev hmem hev pkt hpkt a b hba ha hi => ?_
      exact hev pkt hpkt a b hba (h.started hsorted (hpkt ▸ hmem) (hle a ha) hi) hi
    rcases hevs with ⟨rfl, -⟩ | ⟨rfl, -⟩
    · rwa [List.append_nil]
    · exact EventLog.always_snoc.2 ⟨hlog, fun pkt hpkt => by cases hpkt⟩
  · intro pkt
    exact (h.inFlight pkt).trans (hcount pkt).ge
  · intro a ha hpos hnot
    rw [hnum]
    have hnot' : .failed (sn a) ∉ lsq.log := fun hfailed => hnot (List.mem_append_left _ hfailed)
    rcases Nat.lt_or_eq_of_le (hle a ha) with ha | rfl
    · exact h.outstanding a (.of_lt ha) hpos hnot'
    · refine h.outstanding a (.inr ⟨rfl, ?_⟩) hpos hnot'
      rcases hevs with ⟨-, hsent⟩ | ⟨rfl, -⟩
      · -- a store that has packets has been started
        by_contra hbusy
        have hzero := h.numSent_unstarted (i := sn a) fun b hb => by
          rcases hb with hb | ⟨-, hb⟩
          · exact (hsorted b hb).ne
          · exact absurd hb hbusy
        omega
      · exact absurd (List.mem_append_right _ (List.mem_singleton_self _)) hnot
  · intro a ha hd
    rcases Nat.lt_succ_iff_lt_or_eq.1 ha with ha | rfl
    · exact h.responded a ha hd
    · rw [hnew] at hd
      cases hd
  · intro hc
    obtain ⟨hall, -, -⟩ := h.needsTSO hc
    refine ⟨fun hfl => ?_, fun a ha => hall (htso hc) a (by omega), fun hb => by cases hb⟩
    simp [LSQUnit.storePostSend, hc] at hfl

theorem complete (h : Traffic c lsq sn pk done W busy) (ha : a < W) (hd : done a = false)
    (hnone : ∀ pkt ∈ lsq.inFlight, pkt.seqNum ≠ sn a) : Traffic c { lsq with
      log := lsq.log ++ [.completed (sn a)]
      storeInFlight := lsq.storeInFlight && !c.needsTSO } sn pk (Function.update done a true) W busy := by
  have haccepted : ∀ pkt, .accepted pkt ∈ lsq.log ++ [.completed (sn a)] → .accepted pkt ∈ lsq.log := by
    intro pkt hpkt
    simpa using hpkt
  have hfailed : ∀ i, .failed i ∈ lsq.log ++ [.completed (sn a)] ↔ .failed i ∈ lsq.log := by
    intro i
    simp
  have hcount : ∀ pkt, (lsq.log ++ [Event.completed (sn a)]).count (Event.accepted pkt) =
      lsq.log.count (.accepted pkt) := by
    intro pkt
    rw [List.count_append]
    rfl
  constructor
  · exact h.sorted
  · exact fun pkt hpkt => h.accepted pkt (haccepted pkt hpkt)
  · intro i hi
    rw [numSent_completed]
    exact h.failed i ((hfailed i).1 hi)
  · intro i
    rw [List.mem_append, List.mem_singleton, h.completed i, Event.completed.injEq]
    constructor
    · rintro (⟨b, hb, heq, hdb⟩ | rfl)
      · refine ⟨b, hb, heq, ?_⟩
        rw [Function.update_apply, hdb, ite_self]
      · exact ⟨a, ha, rfl, Function.update_self ..⟩
    · rintro ⟨b, hb, heq, hdb⟩
      by_cases hba : b = a
      · exact .inr (heq.trans (congrArg sn hba))
      · rw [Function.update_of_ne hba] at hdb
        exact .inl ⟨b, hb, heq, hdb⟩
  · intro i half
    rw [numSent_completed]
    exact (hcount _).trans (h.count i half)
  · intro b hb hnot
    rw [numSent_completed]
    exact h.sent b hb fun hi => hnot ((hfailed _).2 hi)
  · intro hb
    rw [numSent_completed]
    exact h.partly hb
  · exact EventLog.always_snoc.2 ⟨h.inOrder, fun pkt hpkt => by cases hpkt⟩
  · intro pkt
    exact (h.inFlight pkt).trans (hcount pkt).ge
  · intro b hb hpos hnot
    rw [numSent_completed]
    exact h.outstanding b hb hpos fun hi => hnot ((hfailed _).2 hi)
  · intro b hb hdb
    by_cases hba : b = a
    · subst hba
      exact hnone
    · rw [Function.update_of_ne hba] at hdb
      exact h.responded b hb hdb
  · intro hc
    obtain ⟨-, hbefore, -⟩ := h.needsTSO hc
    -- it was the last one that had not completed
    have hlast : ∀ b < W, Function.update done a true b = true := by
      intro b hb
      by_cases hba : b = a
      · rw [hba, Function.update_self]
      · rw [Function.update_of_ne hba]
        refine hbefore b (Nat.lt_of_not_le fun hle => ?_)
        rw [hbefore a (by omega)] at hd
        cases hd
    refine ⟨fun _ => hlast, fun b hb => hlast b (by omega), fun _ => ?_⟩
    rw [hc, Bool.not_true, Bool.and_false]

theorem respond (h : Traffic c lsq sn pk done W busy) {pkt : Packet} (hpkt : pkt ∈ lsq.inFlight) :
    ∃ a, Started W busy a ∧ pkt.seqNum = sn a ∧ (a < W → done a = false) ∧
      (lsq.senderState (sn a)).idx = a % c.SQEntries ∧ Traffic c { lsq.setState (sn a) { lsq.senderState (sn a) with
          outstanding := (lsq.senderState (sn a)).outstanding - 1 } with
        inFlight := lsq.inFlight.erase pkt } sn pk done W busy ∧
      ((lsq.senderState (sn a)).outstanding - 1 = 0 → numSent lsq.log (sn a) = pk a ∧
        ∀ pkt' ∈ lsq.inFlight.erase pkt, pkt'.seqNum ≠ sn a) := by
  have hlog : .accepted pkt ∈ lsq.log :=
    List.count_pos_iff.1 (Nat.lt_of_lt_of_le (List.count_pos_iff.2 hpkt) (h.inFlight pkt))
  obtain ⟨a, ha, hi⟩ := h.accepted pkt hlog
  have hsome : 0 < numSent lsq.log (sn a) := by
    unfold numSent
    rw [List.countP_pos_iff]
    exact ⟨_, hlog, by simpa [Event.isAccepted] using hi⟩
  have hnot : .failed (sn a) ∉ lsq.log := by
    intro hfailed
    obtain ⟨-, -, -, hzero⟩ := h.failed _ hfailed
    omega
  have hle := h.numSent_le ha
  obtain ⟨hout, hidx⟩ := h.outstanding a ha (by omega) hnot
  have hcount : (lsq.inFlight.erase pkt).countP (·.seqNum == sn a) + 1 =
      lsq.inFlight.countP (·.seqNum == sn a) := by
    rw [(List.perm_cons_erase hpkt).countP_eq, List.countP_cons_of_pos (by simpa using hi)]
  refine ⟨a, ha, hi, fun hlt => ?_, hidx, ?_, fun hzero => ⟨by omega, fun pkt' hpkt' heq => ?_⟩⟩
  · by_contra hd
    exact h.responded a hlt (by simpa using hd) pkt hpkt hi
  · constructor
    · exact h.sorted
    · exact h.accepted
    · exact h.failed
    · exact h.completed
    · exact h.count
    · exact h.sent
    · exact h.partly
    · exact h.inOrder
    · intro pkt'
      exact ((List.erase_sublist).count_le pkt').trans (h.inFlight pkt')
    · intro b hb hpos hnot'
      by_cases hba : b = a
      · subst hba
        simp only [LSQUnit.setState, Function.update_self]
        exact ⟨by omega, hidx⟩
      · have hne : sn b ≠ sn a := fun heq => hba (h.inj hb ha heq)
        have hsame : (lsq.inFlight.erase pkt).countP (·.seqNum == sn b) =
            lsq.inFlight.countP (·.seqNum == sn b) := by
          rw [(List.perm_cons_erase hpkt).countP_eq, List.countP_cons_of_neg (by simpa [hi] using hne.symm)]
        simp only [LSQUnit.setState, Function.update_of_ne hne, hsame]
        exact h.outstanding b hb hpos hnot'
    · exact fun b hb hd pkt' hpkt' => h.responded b hb hd pkt' (List.mem_of_mem_erase hpkt')
    · exact h.needsTSO
  · have hpos : 0 < (lsq.inFlight.erase pkt).countP (·.seqNum == sn a) :=
      List.countP_pos_iff.2 ⟨pkt', hpkt', by simpa using heq⟩
    omega

end Traffic

end Alpine.Cpu.Lsq
