import Alpine.Lib.Run
import Alpine.Mem.DRAMQueues

/-!
# Every request is answered once

`System` is a controller with a log of the packets it has accepted, the bursts serviced by the write queue
and the DRAM packets that have been deleted.  `Answered` is what holds of the requests after any run:

* the bursts of an accepted read are, each once, those serviced by the write queue, those of deleted DRAM
  packets and those in flight, and it has been answered once if none is in flight and not at all otherwise;
* an accepted write has been answered once;
* the bursts of an accepted packet cover it.

`answered_once` says so for the runs whose packets all fit.
-/

namespace Alpine.Mem.Dram

/-- The DRAM packets made for a packet. -/
def ofPacket (ds : List DRAMPacket) (pkt : Packet) : List DRAMPacket := ds.filter fun d => d.pkt = pkt

section OfPacket

variable {ds ds' : List DRAMPacket} {d : DRAMPacket} {pkt : Packet}

theorem ofPacket_append : ofPacket (ds ++ ds') pkt = ofPacket ds pkt ++ ofPacket ds' pkt := List.filter_append ..

theorem ofPacket_cons_self : ofPacket (d :: ds) d.pkt = d :: ofPacket ds d.pkt := by simp [ofPacket]

theorem ofPacket_cons_ne (h : d.pkt ≠ pkt) : ofPacket (d :: ds) pkt = ofPacket ds pkt := by simp [ofPacket, h]

theorem ofPacket_eq_nil (h : ∀ d ∈ ds, d.pkt ≠ pkt) : ofPacket ds pkt = [] :=
  List.filter_eq_nil_iff.2 fun d hd => by simpa using h d hd

theorem ofPacket_eq_self (h : ∀ d ∈ ds, d.pkt = pkt) : ofPacket ds pkt = ds :=
  List.filter_eq_self.2 fun d hd => by simpa using h d hd

theorem ofPacket_perm (h : ds.Perm ds') : (ofPacket ds pkt).Perm (ofPacket ds' pkt) := h.filter _

theorem mem_ofPacket : d ∈ ofPacket ds pkt ↔ d ∈ ds ∧ d.pkt = pkt := by simp [ofPacket]

end OfPacket

/-- What has become of the requests. -/
structure Account where
  accepted : List Packet
  answered : List Packet
  byWrQ : List (Packet × Burst)
  byDram : List DRAMPacket
  inFlight : List DRAMPacket
  helpers : Nat → Option BurstHelper
  nextHelper : Nat

variable {pkt : Packet} {d : DRAMPacket}

namespace Account

variable (p : Params)

/-- The bursts of a packet that are accounted for, and those in flight. -/
def burstsOf (a : Account) (pkt : Packet) : List Burst :=
  (a.byWrQ.filter fun x => x.1 = pkt).map (·.2) ++ (ofPacket a.byDram pkt).map DRAMPacket.burst ++
    (ofPacket a.inFlight pkt).map DRAMPacket.burst

/-- The helper of a DRAM packet belongs to its packet alone, and counts the bursts that are not in flight. -/
def HelperOk (a : Account) (d : DRAMPacket) : Prop :=
  match d.burstHelper with
  | none => (d.pkt.bursts p).length = 1
  | some h => h < a.nextHelper ∧
      a.helpers h = some ⟨(d.pkt.bursts p).length, (d.pkt.bursts p).length - (ofPacket a.inFlight d.pkt).length⟩ ∧
      ∀ d' ∈ a.inFlight, d'.burstHelper = some h ↔ d'.pkt = d.pkt

structure Ok (a : Account) : Prop where
  nodup : a.accepted.Nodup
  answered_sub : ∀ pkt ∈ a.answered, pkt ∈ a.accepted
  byWrQ_sub : ∀ x ∈ a.byWrQ, x.1 ∈ a.accepted
  byDram_sub : ∀ d ∈ a.byDram, d.pkt ∈ a.accepted
  inFlight_sub : ∀ d ∈ a.inFlight, d.pkt ∈ a.accepted ∧ d.pkt.isRead
  helper : ∀ d ∈ a.inFlight, a.HelperOk p d
  bursts : ∀ pkt ∈ a.accepted, pkt.isRead → (a.burstsOf pkt).Perm (pkt.bursts p)
  read : ∀ pkt ∈ a.accepted, pkt.isRead → a.answered.count pkt = if ofPacket a.inFlight pkt = [] then 1 else 0
  write : ∀ pkt ∈ a.accepted, pkt.isRead = false → a.answered.count pkt = 1

variable {p} {a : Account}

theorem Ok.perm (h : a.Ok p) {inFlight : List DRAMPacket} (hperm : inFlight.Perm a.inFlight) :
    ({ a with inFlight := inFlight } : Account).Ok p where
  nodup := h.nodup
  answered_sub := h.answered_sub
  byWrQ_sub := h.byWrQ_sub
  byDram_sub := h.byDram_sub
  inFlight_sub d hd := h.inFlight_sub d (hperm.mem_iff.1 hd)
  helper d hd := by
    have hold := h.helper d (hperm.mem_iff.1 hd)
    unfold HelperOk at hold ⊢
    split at hold
    next hnone => simpa only [hnone] using hold
    next i hsome =>
      simp only [(ofPacket_perm hperm).length_eq]
      exact ⟨hold.1, hold.2.1, fun d' hd' => hold.2.2 d' (hperm.mem_iff.1 hd')⟩
  bursts pkt hpkt hread := ((ofPacket_perm hperm).map DRAMPacket.burst |>.append_left _).trans (h.bursts pkt hpkt hread)
  read pkt hpkt hread := by
    have hnil : ofPacket inFlight pkt = [] ↔ ofPacket a.inFlight pkt = [] := by
      rw [← List.length_eq_zero_iff, ← List.length_eq_zero_iff, (ofPacket_perm hperm).length_eq]
    simp only [hnil]
    exact h.read pkt hpkt hread
  write := h.write

/-- A packet that has not been accepted has left no trace. -/
theorem Ok.fresh (h : a.Ok p) (hnew : pkt ∉ a.accepted) :
    a.answered.count pkt = 0 ∧ a.burstsOf pkt = [] ∧ ofPacket a.inFlight pkt = [] := by
  have hinFlight : ofPacket a.inFlight pkt = [] :=
    ofPacket_eq_nil fun d hd heq => hnew (heq ▸ (h.inFlight_sub d hd).1)
  have hbyDram : ofPacket a.byDram pkt = [] := ofPacket_eq_nil fun d hd heq => hnew (heq ▸ h.byDram_sub d hd)
  have hbyWrQ : (a.byWrQ.filter fun x => x.1 = pkt) = [] :=
    List.filter_eq_nil_iff.2 fun x hx heq => hnew ((of_decide_eq_true heq) ▸ h.byWrQ_sub x hx)
  exact ⟨List.count_eq_zero.2 fun hin => hnew (h.answered_sub pkt hin),
    by simp [burstsOf, hinFlight, hbyDram, hbyWrQ], hinFlight⟩

/-! ## Packets that are accepted -/

/-- A write is accepted and answered. -/
def acceptWrite (a : Account) (pkt : Packet) : Account :=
  { a with accepted := a.accepted ++ [pkt], answered := a.answered ++ [pkt] }

/-- A read is accepted and answered, as the write queue has serviced it. -/
def acceptFound (a : Account) (pkt : Packet) (sv : List Burst) : Account :=
  { a with
    accepted := a.accepted ++ [pkt]
    answered := a.answered ++ [pkt]
    byWrQ := a.byWrQ ++ sv.map (pkt, ·) }

/-- A read is accepted, and some of its bursts are in flight, with a helper if it has several. -/
def acceptQueued (p : Params) (a : Account) (pkt : Packet) (sv news : List Burst) : Account :=
  let cnt := (pkt.bursts p).length
  { a with
    accepted := a.accepted ++ [pkt]
    byWrQ := a.byWrQ ++ sv.map (pkt, ·)
    inFlight := a.inFlight ++ news.map
      (DRAMCtrl.readPacket pkt (if cnt > 1 then some a.nextHelper else none))
    helpers := if cnt > 1 then Function.update a.helpers a.nextHelper (some ⟨cnt, sv.length⟩) else a.helpers
    nextHelper := if cnt > 1 then a.nextHelper + 1 else a.nextHelper }

theorem Ok.ne_of_mem {pkt' : Packet} (hnew : pkt ∉ a.accepted) (hmem : pkt' ∈ a.accepted) : pkt ≠ pkt' :=
  fun heq => hnew (heq ▸ hmem)

theorem nodup_concat (h : a.accepted.Nodup) (hnew : pkt ∉ a.accepted) : (a.accepted ++ [pkt]).Nodup :=
  List.nodup_append.2 ⟨h, List.nodup_singleton pkt, fun x hx y hy heq =>
    hnew (by rw [← List.mem_singleton.1 hy, ← heq]; exact hx)⟩

theorem count_concat_self {answered : List Packet} (h : answered.count pkt = 0) :
    (answered ++ [pkt]).count pkt = 1 := by
  rw [List.count_append, h, List.count_singleton_self]

theorem count_concat_ne {answered : List Packet} {pkt' : Packet} (h : pkt ≠ pkt') :
    (answered ++ [pkt]).count pkt' = answered.count pkt' := by
  rw [List.count_append, List.count_singleton, if_neg (by simpa using h), Nat.add_zero]

variable {sv : List Burst}

theorem filter_byWrQ_self {byWrQ : List (Packet × Burst)} (h : (byWrQ.filter fun x => x.1 = pkt) = []) :
    ((byWrQ ++ sv.map (pkt, ·)).filter fun x => x.1 = pkt).map (·.2) = sv := by
  rw [List.filter_append, h, List.nil_append, List.filter_eq_self.2 (by simp)]
  simp

theorem filter_byWrQ_ne {byWrQ : List (Packet × Burst)} {pkt' : Packet} (h : pkt ≠ pkt') :
    ((byWrQ ++ sv.map (pkt, ·)).filter fun x => x.1 = pkt') = byWrQ.filter fun x => x.1 = pkt' := by
  have hnil : (sv.map (pkt, ·)).filter (fun x => x.1 = pkt') = [] := by
    rw [List.filter_eq_nil_iff]
    simpa using fun _ _ => h
  rw [List.filter_append, hnil, List.append_nil]

theorem Ok.acceptWrite (h : a.Ok p) (hnew : pkt ∉ a.accepted) (hwrite : pkt.isRead = false) :
    (a.acceptWrite pkt).Ok p where
  nodup := nodup_concat h.nodup hnew
  answered_sub x hx := by
    rcases List.mem_append.1 hx with hx | hx
    · exact List.mem_append_left _ (h.answered_sub x hx)
    · exact List.mem_append_right _ hx
  byWrQ_sub x hx := List.mem_append_left _ (h.byWrQ_sub x hx)
  byDram_sub d hd := List.mem_append_left _ (h.byDram_sub d hd)
  inFlight_sub d hd := ⟨List.mem_append_left _ (h.inFlight_sub d hd).1, (h.inFlight_sub d hd).2⟩
  helper := h.helper
  bursts pkt' hpkt' hread := by
    rcases List.mem_append.1 hpkt' with hold | hself
    · exact h.bursts pkt' hold hread
    · rw [List.mem_singleton.1 hself, hwrite] at hread
      exact absurd hread nofun
  read pkt' hpkt' hread := by
    rcases List.mem_append.1 hpkt' with hold | hself
    · exact (count_concat_ne (Ok.ne_of_mem hnew hold)).trans (h.read pkt' hold hread)
    · rw [List.mem_singleton.1 hself, hwrite] at hread
      exact absurd hread nofun
  write pkt' hpkt' hread := by
    rcases List.mem_append.1 hpkt' with hold | hself
    · exact (count_concat_ne (Ok.ne_of_mem hnew hold)).trans (h.write pkt' hold hread)
    · rw [List.mem_singleton.1 hself]
      exact count_concat_self (h.fresh hnew).1

/-- The bursts that the write queue answers belong to packets that have been accepted. -/
theorem Ok.byWrQ_sub_concat (h : a.Ok p) (pkt : Packet) (sv : List Burst) :
    ∀ x ∈ a.byWrQ ++ sv.map (pkt, ·), x.1 ∈ a.accepted ++ [pkt] := by
  intro x hx
  rcases List.mem_append.1 hx with hx | hx
  · exact List.mem_append_left _ (h.byWrQ_sub x hx)
  · obtain ⟨b, _, rfl⟩ := List.mem_map.1 hx
    exact List.mem_append_right _ (List.mem_singleton_self pkt)

theorem Ok.acceptFound (h : a.Ok p) (hnew : pkt ∉ a.accepted) (hread : pkt.isRead)
    (hsv : sv.Perm (pkt.bursts p)) : (a.acceptFound pkt sv).Ok p where
  nodup := nodup_concat h.nodup hnew
  answered_sub x hx := by
    rcases List.mem_append.1 hx with hx | hx
    · exact List.mem_append_left _ (h.answered_sub x hx)
    · exact List.mem_append_right _ hx
  byWrQ_sub := h.byWrQ_sub_concat pkt sv
  byDram_sub d hd := List.mem_append_left _ (h.byDram_sub d hd)
  inFlight_sub d hd := ⟨List.mem_append_left _ (h.inFlight_sub d hd).1, (h.inFlight_sub d hd).2⟩
  helper := h.helper
  bursts pkt' hpkt' hread' := by
    rcases List.mem_append.1 hpkt' with hold | hself
    · unfold burstsOf
      rw [Account.acceptFound, filter_byWrQ_ne (Ok.ne_of_mem hnew hold)]
      exact h.bursts pkt' hold hread'
    · have hfresh := (h.fresh hnew).2.1
      simp only [burstsOf, List.append_eq_nil_iff, List.map_eq_nil_iff] at hfresh
      obtain rfl := List.mem_singleton.1 hself
      simp only [burstsOf, Account.acceptFound, filter_byWrQ_self hfresh.1.1, hfresh.1.2, hfresh.2, List.map_nil,
        List.append_nil]
      exact hsv
  read pkt' hpkt' hread' := by
    rcases List.mem_append.1 hpkt' with hold | hself
    · exact (count_concat_ne (Ok.ne_of_mem hnew hold)).trans (h.read pkt' hold hread')
    · obtain rfl := List.mem_singleton.1 hself
      obtain ⟨hcount, _, hnil⟩ := h.fresh hnew
      exact (count_concat_self hcount).trans (if_pos hnil).symm
  write pkt' hpkt' hread' := by
    rcases List.mem_append.1 hpkt' with hold | hself
    · exact (count_concat_ne (Ok.ne_of_mem hnew hold)).trans (h.write pkt' hold hread')
    · rw [List.mem_singleton.1 hself, hread] at hread'
      exact absurd hread' nofun

/-- The helper of a new read differs from those in flight. -/
theorem Ok.helper_lt (h : a.Ok p) (hd : d ∈ a.inFlight) {i : Nat} (hi : d.burstHelper = some i) :
    i < a.nextHelper := by
  have hok := h.helper d hd
  simp only [HelperOk, hi] at hok
  exact hok.1

theorem ofPacket_acceptQueued_ne {pkt' : Packet} {news : List Burst} (hne : pkt ≠ pkt') :
    ofPacket (a.acceptQueued p pkt sv news).inFlight pkt' = ofPacket a.inFlight pkt' := by
  refine ofPacket_append.trans ((congrArg _ (ofPacket_eq_nil ?_)).trans (List.append_nil _))
  intro d hd heq
  obtain ⟨b, _, rfl⟩ := List.mem_map.1 hd
  exact hne heq

theorem Ok.ofPacket_acceptQueued (h : a.Ok p) {pkt : Packet} (hnew : pkt ∉ a.accepted) {sv news : List Burst} :
    ofPacket (a.acceptQueued p pkt sv news).inFlight pkt =
      news.map (DRAMCtrl.readPacket pkt (if (pkt.bursts p).length > 1 then some a.nextHelper else none)) := by
  refine ofPacket_append.trans ?_
  rw [(h.fresh hnew).2.2, List.nil_append]
  apply ofPacket_eq_self
  intro d hd
  obtain ⟨b, _, rfl⟩ := List.mem_map.1 hd
  rfl

theorem Ok.helper_acceptQueued (h : a.Ok p) (hnew : pkt ∉ a.accepted) {news : List Burst}
    (hsv : (sv ++ news).Perm (pkt.bursts p)) (hd : d ∈ (a.acceptQueued p pkt sv news).inFlight) :
    (a.acceptQueued p pkt sv news).HelperOk p d := by
  have hlen := hsv.length_eq
  rw [List.length_append] at hlen
  rcases List.mem_append.1 hd with hold | hq
  · -- the helpers of the other packets are not touched
    have hne : pkt ≠ d.pkt := Ok.ne_of_mem hnew (h.inFlight_sub d hold).1
    have hok := h.helper d hold
    unfold HelperOk at hok ⊢
    rw [ofPacket_acceptQueued_ne hne]
    split at hok
    next hnone => simpa only [hnone] using hok
    next i hsome =>
      have hi := h.helper_lt hold hsome
      refine ⟨?_, ?_, ?_⟩
      · simp only [acceptQueued]
        split <;> omega
      · refine Eq.trans ?_ hok.2.1
        simp only [acceptQueued]
        split
        · exact Function.update_of_ne (by omega) _ _
        · rfl
      · intro d' hd'
        rcases List.mem_append.1 hd' with hold' | hq'
        · exact hok.2.2 d' hold'
        · obtain ⟨b, _, rfl⟩ := List.mem_map.1 hq'
          refine iff_of_false ?_ hne
          simp only [DRAMCtrl.readPacket]
          split
          · simp only [Option.some.injEq]
            omega
          · nofun
  · obtain ⟨b, hb, rfl⟩ := List.mem_map.1 hq
    have hof := @Ok.ofPacket_acceptQueued _ _ h _ hnew sv news
    have hpos := List.length_pos_of_mem hb
    by_cases hmany : (pkt.bursts p).length > 1
    · simp only [HelperOk, DRAMCtrl.readPacket, hmany, if_true] at hof ⊢
      refine ⟨?_, ?_, ?_⟩
      · simp only [acceptQueued, hmany, if_true]
        exact Nat.lt_succ_self _
      · rw [hof, List.length_map]
        simp only [acceptQueued, hmany, if_true, Function.update_self, Option.some.injEq, BurstHelper.mk.injEq,
          true_and]
        omega
      · intro d' hd'
        rcases List.mem_append.1 hd' with hold' | hq'
        · refine iff_of_false ?_ (Ok.ne_of_mem hnew (h.inFlight_sub d' hold').1).symm
          intro hi
          exact absurd (h.helper_lt hold' hi) (Nat.lt_irrefl _)
        · obtain ⟨c, _, rfl⟩ := List.mem_map.1 hq'
          simp [DRAMCtrl.readPacket, hmany]
    · simp only [HelperOk, DRAMCtrl.readPacket, hmany, if_false]
      omega

theorem Ok.acceptQueued (h : a.Ok p) (hnew : pkt ∉ a.accepted) (hread : pkt.isRead) {news : List Burst}
    (hsv : (sv ++ news).Perm (pkt.bursts p)) (hne : news ≠ []) : (a.acceptQueued p pkt sv news).Ok p where
  nodup := nodup_concat h.nodup hnew
  answered_sub x hx := List.mem_append_left _ (h.answered_sub x hx)
  byWrQ_sub := h.byWrQ_sub_concat pkt sv
  byDram_sub d hd := List.mem_append_left _ (h.byDram_sub d hd)
  inFlight_sub d hd := by
    rcases List.mem_append.1 hd with hold | hq
    · exact ⟨List.mem_append_left _ (h.inFlight_sub d hold).1, (h.inFlight_sub d hold).2⟩
    · obtain ⟨b, _, rfl⟩ := List.mem_map.1 hq
      exact ⟨List.mem_append_right _ (List.mem_singleton_self pkt), hread⟩
  helper _ hd := h.helper_acceptQueued hnew hsv hd
  bursts pkt' hpkt' hread' := by
    rcases List.mem_append.1 hpkt' with hold | hself
    · have hne := Ok.ne_of_mem hnew hold
      unfold burstsOf
      rw [ofPacket_acceptQueued_ne hne]
      simp only [Account.acceptQueued, filter_byWrQ_ne hne]
      exact h.bursts pkt' hold hread'
    · have hfresh := (h.fresh hnew).2.1
      simp only [burstsOf, List.append_eq_nil_iff, List.map_eq_nil_iff] at hfresh
      obtain rfl := List.mem_singleton.1 hself
      unfold burstsOf
      rw [h.ofPacket_acceptQueued hnew]
      simp only [Account.acceptQueued, filter_byWrQ_self hfresh.1.1, hfresh.1.2, List.map_nil,
        List.append_nil, List.map_map]
      rw [show DRAMPacket.burst ∘ DRAMCtrl.readPacket pkt' _ = id from rfl, List.map_id]
      exact hsv
  read pkt' hpkt' hread' := by
    rcases List.mem_append.1 hpkt' with hold | hself
    · rw [ofPacket_acceptQueued_ne (Ok.ne_of_mem hnew hold)]
      exact h.read pkt' hold hread'
    · obtain rfl := List.mem_singleton.1 hself
      rw [h.ofPacket_acceptQueued hnew, if_neg (by simpa using hne)]
      exact (h.fresh hnew).1
  write pkt' hpkt' hread' := by
    rcases List.mem_append.1 hpkt' with hold | hself
    · exact h.write pkt' hold hread'
    · rw [List.mem_singleton.1 hself, hread] at hread'
      exact absurd hread' nofun

/-! ## The end of the service of a DRAM packet -/

theorem Ok.length_le (h : a.Ok p) (hd : d ∈ a.inFlight) :
    (ofPacket a.inFlight d.pkt).length ≤ (d.pkt.bursts p).length := by
  obtain ⟨hacc, hread⟩ := h.inFlight_sub d hd
  rw [← (h.bursts d.pkt hacc hread).length_eq, burstsOf, List.length_append, List.length_map DRAMPacket.burst]
  omega

/-- The first DRAM packet in flight is serviced: its packet is answered if it is the last. -/
def serviced (p : Params) (a : Account) (d : DRAMPacket) (rest : List DRAMPacket) : Account :=
  let left := ofPacket rest d.pkt
  let cnt := (d.pkt.bursts p).length
  { a with
    answered := if left = [] then a.answered ++ [d.pkt] else a.answered
    byDram := a.byDram ++ [d]
    inFlight := rest
    helpers := match d.burstHelper with
      | none => a.helpers
      | some i => Function.update a.helpers i (if left = [] then none else some ⟨cnt, cnt - left.length⟩) }

theorem Ok.helper_serviced (h : a.Ok p) {rest : List DRAMPacket} (hfl : a.inFlight = d :: rest)
    {d' : DRAMPacket} (hd' : d' ∈ rest) : (a.serviced p d rest).HelperOk p d' := by
  have hd : d ∈ a.inFlight := hfl ▸ List.mem_cons_self
  have hmem : d' ∈ a.inFlight := hfl ▸ List.mem_cons_of_mem d hd'
  have hrest : ∀ e ∈ rest, e ∈ a.inFlight := fun e he => hfl ▸ List.mem_cons_of_mem d he
  have hok := h.helper d' hmem
  unfold HelperOk at hok ⊢
  split at hok
  next hnone => simpa only [hnone] using hok
  next j hsome =>
    refine ⟨hok.1, ?_, fun e he => hok.2.2 e (hrest e he)⟩
    by_cases heq : d.pkt = d'.pkt
    · -- they share the helper, and this is not the last one
      have hj : d.burstHelper = some j := (hok.2.2 d hd).2 heq
      have hne : ofPacket rest d.pkt ≠ [] := List.ne_nil_of_mem (mem_ofPacket.2 ⟨hd', heq.symm⟩)
      simp only [serviced, hj, Function.update_self, heq] at hne ⊢
      rw [if_neg hne]
    · have hj : d.burstHelper ≠ some j := fun hj => heq ((hok.2.2 d hd).1 hj)
      have hof : ofPacket a.inFlight d'.pkt = ofPacket rest d'.pkt := by rw [hfl, ofPacket_cons_ne heq]
      rw [hof] at hok
      refine Eq.trans ?_ hok.2.1
      cases hhelper : d.burstHelper with
      | none => simp only [serviced, hhelper]
      | some i =>
        simp only [serviced, hhelper]
        exact Function.update_of_ne (fun hij => hj (by rw [hhelper, hij])) _ _

theorem Ok.serviced (h : a.Ok p) {rest : List DRAMPacket} (hfl : a.inFlight = d :: rest) :
    (a.serviced p d rest).Ok p where
  nodup := h.nodup
  answered_sub x hx := by
    simp only [Account.serviced] at hx
    split at hx
    · rcases List.mem_append.1 hx with hx | hx
      · exact h.answered_sub x hx
      · rw [List.mem_singleton.1 hx]
        exact (h.inFlight_sub d (hfl ▸ List.mem_cons_self)).1
    · exact h.answered_sub x hx
  byWrQ_sub := h.byWrQ_sub
  byDram_sub x hx := by
    rcases List.mem_append.1 hx with hx | hx
    · exact h.byDram_sub x hx
    · rw [List.mem_singleton.1 hx]
      exact (h.inFlight_sub d (hfl ▸ List.mem_cons_self)).1
  inFlight_sub x hx := h.inFlight_sub x (hfl ▸ List.mem_cons_of_mem d hx)
  helper _ hx := h.helper_serviced hfl hx
  bursts pkt hpkt hread := by
    have hold := h.bursts pkt hpkt hread
    by_cases heq : d.pkt = pkt
    · subst heq
      rw [burstsOf, hfl, ofPacket_cons_self] at hold
      simpa [burstsOf, Account.serviced, ofPacket_append, ofPacket] using hold
    · rw [burstsOf, hfl, ofPacket_cons_ne heq] at hold
      simpa [burstsOf, Account.serviced, ofPacket_append, ofPacket, heq] using hold
  read pkt hpkt hread := by
    have hold := h.read pkt hpkt hread
    by_cases heq : d.pkt = pkt
    · subst heq
      rw [hfl, ofPacket_cons_self, if_neg (List.cons_ne_nil _ _)] at hold
      simp only [Account.serviced]
      by_cases hlast : ofPacket rest d.pkt = []
      · rw [if_pos hlast]
        exact (count_concat_self hold).trans (if_pos hlast).symm
      · rw [if_neg hlast]
        exact hold.trans (if_neg hlast).symm
    · rw [hfl, ofPacket_cons_ne heq] at hold
      simp only [Account.serviced]
      refine Eq.trans ?_ hold
      split
      · exact count_concat_ne heq
      · rfl
  write pkt hpkt hread := by
    have heq : d.pkt ≠ pkt := by
      intro heq
      have hd := (h.inFlight_sub d (hfl ▸ List.mem_cons_self)).2
      rw [heq, hread] at hd
      exact absurd hd nofun
    refine Eq.trans ?_ (h.write pkt hpkt hread)
    simp only [Account.serviced]
    split
    · exact count_concat_ne heq
    · rfl

end Account

/-! ## The controller -/

structure System where
  ctrl : DRAMCtrl
  accepted : List Packet
  byWrQ : List (Packet × Burst)
  byDram : List DRAMPacket

inductive Call where
  | recvTimingReq (pkt : Packet)
  | processRespondEvent
  | processNextReqEvent (busy : Bool) (choice : Option Nat) (draining : Bool)

namespace System

variable (p : Params)

def new : System := ⟨DRAMCtrl.new, [], [], []⟩

def step (s : System) : Call → Option System
  | .recvTimingReq pkt => (s.ctrl.recvTimingReq p pkt).map fun r =>
    { s with
      ctrl := r.1
      accepted := if r.2.1 then s.accepted ++ [pkt] else s.accepted
      byWrQ := s.byWrQ ++ r.2.2.map (pkt, ·) }
  | .processRespondEvent => s.ctrl.processRespondEvent.map fun r =>
    { s with ctrl := r.1, byDram := s.byDram ++ [r.2] }
  | .processNextReqEvent busy choice draining => (s.ctrl.processNextReqEvent p busy choice draining).map fun c =>
    { s with ctrl := c }

/-- A packet is sent once; it is a read or a write, and not empty.  `respondEvent` fires when it is
scheduled. -/
def Permitted (s : System) : Call → Prop
  | .recvTimingReq pkt => pkt ∉ s.accepted ∧ pkt.isRead = !pkt.isWrite ∧ pkt.size ≠ 0
  | .processRespondEvent => s.ctrl.respondScheduled
  | .processNextReqEvent _ _ _ => True

/-- The packet of the call fits. -/
def CallFits : Call → Prop
  | .recvTimingReq pkt => Fits p pkt
  | _ => True

/-- The DRAM packets of reads that have not been answered. -/
def inFlight (s : System) : List DRAMPacket := s.ctrl.respQueue ++ s.ctrl.readQueue

def account (s : System) : Account :=
  ⟨s.accepted, s.ctrl.answered, s.byWrQ, s.byDram, s.inFlight, s.ctrl.helpers, s.ctrl.nextHelper⟩

structure Inv (s : System) : Prop where
  account : s.account.Ok p
  queues : DRAMCtrl.Queues p s.ctrl
  fits : ∀ pkt ∈ s.accepted, pkt.size ≠ 0 ∧ Fits p pkt

variable {p} {s : System}

theorem respond_serviced (h : s.account.Ok p) {ds : List DRAMPacket} (hresp : s.ctrl.respQueue = d :: ds) :
    s.ctrl.respond d = some { s.ctrl with
      helpers := (s.account.serviced p d (ds ++ s.ctrl.readQueue)).helpers
      answered := (s.account.serviced p d (ds ++ s.ctrl.readQueue)).answered } := by
  have hfl : s.account.inFlight = d :: (ds ++ s.ctrl.readQueue) := by
    rw [← List.cons_append, ← hresp]
    rfl
  have hd : d ∈ s.account.inFlight := hfl ▸ List.mem_cons_self
  have hok := h.helper d hd
  have hle := h.length_le hd
  rw [hfl, ofPacket_cons_self, List.length_cons] at hle
  unfold Account.HelperOk at hok
  rw [hfl, ofPacket_cons_self, List.length_cons] at hok
  cases hhelper : d.burstHelper with
  | none =>
    simp only [hhelper] at hok
    have hleft : ofPacket (ds ++ s.ctrl.readQueue) d.pkt = [] := List.length_eq_zero_iff.1 (by omega)
    simp only [DRAMCtrl.respond, Account.serviced, hhelper, hleft, if_true]
    rfl
  | some i =>
    simp only [hhelper] at hok
    have hi : s.ctrl.helpers i = _ := hok.2.1
    simp only [DRAMCtrl.respond, Account.serviced, hhelper, hi, Option.map_some]
    by_cases hleft : ofPacket (ds ++ s.ctrl.readQueue) d.pkt = []
    · rw [hleft, List.length_nil] at hle ⊢
      rw [if_pos (by omega), if_pos rfl, if_pos rfl]
      rfl
    · have hpos := List.length_pos_iff.2 hleft
      have hcount : (d.pkt.bursts p).length - ((ofPacket (ds ++ s.ctrl.readQueue) d.pkt).length + 1) + 1 =
          (d.pkt.bursts p).length - (ofPacket (ds ++ s.ctrl.readQueue) d.pkt).length := by omega
      rw [if_neg (by omega), if_neg hleft, if_neg hleft, hcount]
      rfl

theorem Inv.processRespondEvent (h : s.Inv p) (hsched : s.ctrl.respondScheduled) :
    ∃ s', s.step p .processRespondEvent = some s' ∧ s'.Inv p := by
  have hne := h.queues.scheduled.symm.trans hsched
  cases hresp : s.ctrl.respQueue with
  | nil => simp [hresp] at hne
  | cons d ds =>
    have hfl : s.account.inFlight = d :: (ds ++ s.ctrl.readQueue) := by
      rw [← List.cons_append, ← hresp]
      rfl
    have hle := h.queues.reads_le
    let c : DRAMCtrl := { s.ctrl with
      helpers := (s.account.serviced p d (ds ++ s.ctrl.readQueue)).helpers
      answered := (s.account.serviced p d (ds ++ s.ctrl.readQueue)).answered
      respQueue := ds
      respondScheduled := !ds.isEmpty
      retryRdReq := false }
    refine ⟨⟨c, s.accepted, s.byWrQ, s.byDram ++ [d]⟩, ?_, h.account.serviced hfl, ?_, h.fits⟩
    · simp only [step, DRAMCtrl.processRespondEvent, hresp, respond_serviced h.account hresp, Option.map_some, c]
    refine ⟨⟨h.queues.writes.nodup, h.queues.writes.isIn, h.queues.writes.length_le⟩, ?_, h.queues.small, rfl,
      h.queues.bus⟩
    rw [hresp, List.length_cons] at hle
    show s.ctrl.readQueue.length + ds.length ≤ p.readBufferSize
    omega

theorem Inv.processNextReqEvent (h : s.Inv p) (busy : Bool) (choice : Option Nat) (draining : Bool) :
    ∃ s', s.step p (.processNextReqEvent busy choice draining) = some s' ∧ s'.Inv p := by
  obtain ⟨c, hc, hq, hsame⟩ := h.queues.processNextReqEvent busy choice draining
  refine ⟨{ s with ctrl := c }, by simp only [step, hc, Option.map_some], ?_, hq, h.fits⟩
  have hperm : (c.respQueue ++ c.readQueue).Perm s.account.inFlight :=
    (List.perm_append_comm.trans hsame.perm).trans List.perm_append_comm
  have hacc : (⟨c, s.accepted, s.byWrQ, s.byDram⟩ : System).account =
      { s.account with inFlight := c.respQueue ++ c.readQueue } := by
    unfold System.account
    rw [hsame.answered, hsame.helpers, hsame.nextHelper]
    rfl
  rw [hacc]
  exact h.account.perm hperm

/-- The DRAM packets of a packet that fits are not larger than a burst. -/
theorem burst_size_le (hsize : pkt.size ≠ 0) (hfits : Fits p pkt) {b : Burst} (hb : b ∈ pkt.bursts p) :
    b.size ≤ p.burstSize := by
  obtain ⟨_, hin⟩ := (hfits.covers hsize).inBlock b hb
  have hle := block_le (p := p) b.addr
  omega

theorem dramPktCount_ne_zero (hsize : pkt.size ≠ 0) (hfits : Fits p pkt) : dramPktCount p pkt ≠ 0 := by
  intro hzero
  have hbytes := congrArg List.length (hfits.covers hsize).bytes
  rw [Packet.bursts, hzero] at hbytes
  simp [bursts] at hbytes
  exact hsize hbytes.symm

theorem Inv.recvRead (h : s.Inv p) (hnew : pkt ∉ s.accepted) (hread : pkt.isRead = true)
    (hkind : pkt.isWrite = false) (hsize : pkt.size ≠ 0) (hfits : Fits p pkt)
    (hspace : s.ctrl.readQueueFull p (dramPktCount p pkt) = false) :
    ∃ s', s.step p (.recvTimingReq pkt) = some s' ∧ s'.Inv p := by
  have hcnt := dramPktCount_ne_zero hsize hfits
  have hlen : (pkt.bursts p).length = dramPktCount p pkt := length_bursts _ _
  have hperm := DRAMCtrl.toRead_append_fromWrQ (p := p) (s := s.ctrl) (pkt.bursts p)
  replace hspace := of_decide_eq_false hspace
  have hfits' : ∀ q ∈ s.accepted ++ [pkt], q.size ≠ 0 ∧ Fits p q := by
    intro q hq
    rcases List.mem_append.1 hq with hold | hself
    · exact h.fits q hold
    · rw [List.mem_singleton.1 hself]
      exact ⟨hsize, hfits⟩
  by_cases hall : DRAMCtrl.toRead p s.ctrl (pkt.bursts p) = []
  · have hadd := DRAMCtrl.addToReadQueue_found (s := s.ctrl) hkind hcnt hall
    rw [hall, List.append_nil] at hperm
    refine ⟨⟨s.ctrl.accessAndRespond pkt, s.accepted ++ [pkt],
      s.byWrQ ++ (DRAMCtrl.fromWrQ p s.ctrl (pkt.bursts p)).map (pkt, ·), s.byDram⟩, ?_,
      h.account.acceptFound hnew hread hperm, ?_, hfits'⟩
    · simp only [step, DRAMCtrl.recvTimingReq, hsize, hread, DRAMCtrl.readQueueFull, hspace, decide_false, hadd,
        if_false, if_true, Bool.false_eq_true, Option.map_some]
      rfl
    · exact ⟨⟨h.queues.writes.nodup, h.queues.writes.isIn, h.queues.writes.length_le⟩, h.queues.reads_le,
        h.queues.small, h.queues.scheduled, h.queues.bus⟩
  · have hadd := DRAMCtrl.addToReadQueue_spec (s := s.ctrl) (p := p) hkind hcnt (by omega) hall
    let sv := DRAMCtrl.fromWrQ p s.ctrl (pkt.bursts p)
    let news := DRAMCtrl.toRead p s.ctrl (pkt.bursts p)
    let cnt := dramPktCount p pkt
    let helper := if cnt > 1 then some s.ctrl.nextHelper else none
    let c : DRAMCtrl := { s.ctrl with
      readQueue := s.ctrl.readQueue ++ news.map (DRAMCtrl.readPacket pkt helper)
      helpers := if cnt > 1 then Function.update s.ctrl.helpers s.ctrl.nextHelper (some ⟨cnt, sv.length⟩)
        else s.ctrl.helpers
      nextHelper := if cnt > 1 then s.ctrl.nextHelper + 1 else s.ctrl.nextHelper }
    have haccount : (⟨c, s.accepted ++ [pkt], s.byWrQ ++ sv.map (pkt, ·), s.byDram⟩ : System).account =
        s.account.acceptQueued p pkt sv news := by
      simp only [Account.acceptQueued, hlen, System.account, inFlight, c, List.append_assoc, helper, cnt]
    refine ⟨⟨c, s.accepted ++ [pkt], s.byWrQ ++ sv.map (pkt, ·), s.byDram⟩, ?_, ?_, ?_, hfits'⟩
    · simp only [step, DRAMCtrl.recvTimingReq, hsize, hread, DRAMCtrl.readQueueFull, hspace, decide_false, hadd,
        if_false, if_true, Bool.false_eq_true, Option.map_some]
      rfl
    · rw [haccount]
      exact h.account.acceptQueued hnew hread hperm hall
    · have hnews := DRAMCtrl.length_toRead (p := p) (s := s.ctrl) (pkt.bursts p)
      have hsub : news.length ≤ dramPktCount p pkt := by
        rw [hlen] at hnews
        exact Nat.le.intro hnews
      refine ⟨⟨h.queues.writes.nodup, h.queues.writes.isIn, h.queues.writes.length_le⟩, ?_, ?_, h.queues.scheduled,
        h.queues.bus⟩
      · show (s.ctrl.readQueue ++ news.map _).length + s.ctrl.respQueue.length ≤ p.readBufferSize
        rw [List.length_append, List.length_map]
        omega
      · intro d hd
        rcases List.mem_append.1 hd with hd | hd
        · rcases List.mem_append.1 hd with hd | hd
          · exact h.queues.small d (List.mem_append_left _ hd)
          · obtain ⟨b, hb, rfl⟩ := List.mem_map.1 hd
            exact burst_size_le hsize hfits (List.mem_of_mem_filter hb)
        · exact h.queues.small d (List.mem_append_right _ hd)

theorem Inv.recvWrite (h : s.Inv p) (hnew : pkt ∉ s.accepted) (hread : pkt.isRead = false)
    (hkind : pkt.isWrite = true) (hsize : pkt.size ≠ 0) (hfits : Fits p pkt)
    (hspace : s.ctrl.writeQueueFull p (dramPktCount p pkt) = false) :
    ∃ s', s.step p (.recvTimingReq pkt) = some s' ∧ s'.Inv p := by
  replace hspace := of_decide_eq_false hspace
  obtain ⟨ws, is, hadd, hwrites, hbs⟩ :=
    @DRAMCtrl.addToWriteQueue_spec _ _ _ (dramPktCount p pkt) hkind h.queues.writes (by omega)
  refine ⟨⟨(s.ctrl.withWrites (s.ctrl.writeQueue ++ ws) is).accessAndRespond pkt, s.accepted ++ [pkt], s.byWrQ,
    s.byDram⟩, ?_, h.account.acceptWrite hnew hread, ?_, ?_⟩
  · simp only [step, DRAMCtrl.recvTimingReq, hsize, hread, hkind, DRAMCtrl.writeQueueFull, hspace, decide_false,
      hadd, if_false, if_true, Bool.false_eq_true, Option.map_some, List.map_nil, List.append_nil]
  · refine ⟨⟨hwrites.nodup, hwrites.isIn, hwrites.length_le⟩, h.queues.reads_le, ?_, h.queues.scheduled, ?_⟩
    · intro d hd
      rcases List.mem_append.1 hd with hd | hd
      · exact h.queues.small d (List.mem_append_left _ hd)
      · rcases List.mem_append.1 hd with hd | hd
        · exact h.queues.small d (List.mem_append_right _ hd)
        · exact burst_size_le (b := d.burst) hsize hfits (hbs d hd)
    · intro hbus hnil
      exact h.queues.bus hbus (List.append_eq_nil_iff.1 hnil).1
  · intro q hq
    rcases List.mem_append.1 hq with hold | hself
    · exact h.fits q hold
    · rw [List.mem_singleton.1 hself]
      exact ⟨hsize, hfits⟩

/-- A packet that is not accepted leaves the queues alone. -/
theorem Inv.refused (h : s.Inv p) {c : DRAMCtrl} (hc : c = { s.ctrl with retryRdReq := true } ∨
    c = { s.ctrl with retryWrReq := true }) (pkt : Packet) :
    (⟨c, s.accepted, s.byWrQ ++ [].map (pkt, ·), s.byDram⟩ : System).Inv p := by
  rw [List.map_nil, List.append_nil]
  have hqueues : DRAMCtrl.Queues p c := by
    rcases hc with rfl | rfl <;>
      exact ⟨⟨h.queues.writes.nodup, h.queues.writes.isIn, h.queues.writes.length_le⟩, h.queues.reads_le,
        h.queues.small, h.queues.scheduled, h.queues.bus⟩
  rcases hc with rfl | rfl <;> exact ⟨h.account, hqueues, h.fits⟩

theorem Inv.recvTimingReq (h : s.Inv p) (hnew : pkt ∉ s.accepted) (hkind : pkt.isRead = !pkt.isWrite)
    (hsize : pkt.size ≠ 0) (hfits : Fits p pkt) : ∃ s', s.step p (.recvTimingReq pkt) = some s' ∧ s'.Inv p := by
  cases hwrite : pkt.isWrite with
  | false =>
    rw [hwrite] at hkind
    cases hfull : s.ctrl.readQueueFull p (dramPktCount p pkt) with
    | false => exact h.recvRead hnew hkind hwrite hsize hfits hfull
    | true =>
      refine ⟨_, ?_, h.refused (Or.inl rfl) pkt⟩
      simp only [step, DRAMCtrl.recvTimingReq, hsize, hkind, Bool.not_false, hfull, if_false, if_true,
        Bool.false_eq_true, Option.map_some]
  | true =>
    rw [hwrite] at hkind
    cases hfull : s.ctrl.writeQueueFull p (dramPktCount p pkt) with
    | false => exact h.recvWrite hnew hkind hwrite hsize hfits hfull
    | true =>
      refine ⟨_, ?_, h.refused (Or.inr rfl) pkt⟩
      simp only [step, DRAMCtrl.recvTimingReq, hsize, hkind, hwrite, Bool.not_true, hfull, if_false, if_true,
        Bool.false_eq_true, Option.map_some]

theorem Inv.step (h : s.Inv p) {c : Call} (hc : s.Permitted c) (hfits : CallFits p c) :
    ∃ s', s.step p c = some s' ∧ s'.Inv p := by
  cases c with
  | recvTimingReq pkt => exact h.recvTimingReq hc.1 hc.2.1 hc.2.2 hfits
  | processRespondEvent => exact h.processRespondEvent hc
  | processNextReqEvent busy choice draining => exact h.processNextReqEvent busy choice draining

theorem inv_new : new.Inv p where
  account := ⟨.nil, nofun, nofun, nofun, nofun, nofun, nofun, nofun, nofun⟩
  queues := ⟨⟨.nil, rfl, Nat.zero_le _⟩, Nat.zero_le _, nofun, rfl, nofun⟩
  fits := nofun

/-! ## The requests -/

/-- An accepted read: its bursts, those serviced by the write queue, those of deleted DRAM packets and those
in flight, and whether it has been answered. -/
structure ReadAnswered (p : Params) (s : System) (pkt : Packet) : Prop where
  bursts : ((s.byWrQ.filter fun x => x.1 = pkt).map (·.2) ++ (ofPacket s.byDram pkt).map DRAMPacket.burst ++
    (ofPacket s.inFlight pkt).map DRAMPacket.burst).Perm (pkt.bursts p)
  once : s.ctrl.answered.count pkt = if ofPacket s.inFlight pkt = [] then 1 else 0

structure Answered (p : Params) (s : System) : Prop where
  accepted : ∀ pkt ∈ s.ctrl.answered, pkt ∈ s.accepted
  covers : ∀ pkt ∈ s.accepted, Covers p pkt
  read : ∀ pkt ∈ s.accepted, pkt.isRead → s.ReadAnswered p pkt
  write : ∀ pkt ∈ s.accepted, pkt.isRead = false → s.ctrl.answered.count pkt = 1
  isInWriteQueue : ∀ a, a ∈ s.ctrl.isInWriteQueue ↔ ∃ w ∈ s.ctrl.writeQueue, burstAlign p w.addr = a
  nodup : (s.ctrl.writeQueue.map fun w => burstAlign p w.addr).Nodup
  reads_le : s.ctrl.readQueue.length + s.ctrl.respQueue.length ≤ p.readBufferSize
  writes_le : s.ctrl.writeQueue.length ≤ p.writeBufferSize

theorem Inv.answered (h : s.Inv p) : s.Answered p where
  accepted := h.account.answered_sub
  covers pkt hpkt := (h.fits pkt hpkt).2.covers (h.fits pkt hpkt).1
  read pkt hpkt hread := ⟨h.account.bursts pkt hpkt hread, h.account.read pkt hpkt hread⟩
  write := h.account.write
  isInWriteQueue a := by
    rw [h.queues.writes.mem_iff, DRAMCtrl.writeAddrs, List.mem_map]
  nodup := h.queues.writes.nodup
  reads_le := h.queues.reads_le
  writes_le := h.queues.writes.length_le

/-- **Every accepted request is answered once, as long as the packets fit.**  So it is in every run whose
packets fit, and the next call does not fail; and the bursts of a packet cover it if and only if it fits. -/
theorem answered_once : (∀ s, Run.Reaches (step p) (fun s c => s.Permitted c ∧ CallFits p c) new s →
      s.Answered p ∧ ∀ c, s.Permitted c → CallFits p c → ∃ s', s.step p c = some s') ∧
    ∀ pkt : Packet, pkt.size ≠ 0 → (Covers p pkt ↔ Fits p pkt) := by
  refine ⟨fun s hs => ?_, fun pkt hsize => covers_iff hsize⟩
  have hinv : s.Inv p := by
    refine hs.inv inv_new fun t c t' ht hc hstep => ?_
    obtain ⟨u, hu, hinv⟩ := ht.step hc.1 hc.2
    cases hstep.symm.trans hu
    exact hinv
  refine ⟨hinv.answered, fun c hc hfits => ?_⟩
  obtain ⟨s', hstep, _⟩ := hinv.step hc hfits
  exact ⟨s', hstep⟩

/-! ## A read of two bursts, of which the write queue has one -/

def ddr : Params := ⟨64, 4, 4, 3, 1, 1, sixtyFour_pow2⟩

def store : Packet := ⟨0, 0, 64, false, true, by decide⟩

def load : Packet := ⟨1, 0, 128, true, false, by decide⟩

theorem answered_once_split : ∃ s,
    [.recvTimingReq store, .recvTimingReq load, .processNextReqEvent false (some 0) false,
      .processRespondEvent].foldlM (step ddr) new = some s ∧
    s.byWrQ = [(load, ⟨0, 64⟩)] ∧ s.byDram.map DRAMPacket.burst = [⟨64, 64⟩] ∧
    s.ctrl.answered = [store, load] ∧ s.Answered ddr := by
  have hstore : Run.Reaches (step ddr) (fun s c => s.Permitted c ∧ CallFits ddr c) new _ :=
    .step .refl (i := Call.recvTimingReq store) ⟨⟨nofun, rfl, nofun⟩, (by decide : Fits ddr store)⟩ rfl
  have hload := hstore.step (i := Call.recvTimingReq load) ⟨⟨by decide, rfl, nofun⟩, (by decide : Fits ddr load)⟩ rfl
  have hnext := hload.step (i := Call.processNextReqEvent false (some 0) false) ⟨trivial, trivial⟩ rfl
  have hrespond := hnext.step (i := Call.processRespondEvent) ⟨rfl, trivial⟩ rfl
  exact ⟨_, rfl, rfl, rfl, rfl, (answered_once.1 _ hrespond).1⟩

/-- Eight bytes in the last burst of the address space. -/
def top : Packet := ⟨0, 2 ^ 64 - 64, 8, true, false, by decide⟩

/-- **A read in the last burst of the address space is too large:** the end of the burst wraps around to 0, and
the burst made for eight bytes has 64. -/
theorem top_not_covered : ∃ s, Run.Reaches (step ddr) Permitted new s ∧ s.accepted = [top] ∧
    s.ctrl.readQueue.map DRAMPacket.burst = [⟨top.addr, 64⟩] ∧ ¬ s.Answered ddr := by
  have htop : Run.Reaches (step ddr) Permitted new _ :=
    .step .refl (i := Call.recvTimingReq top) ⟨nofun, rfl, nofun⟩ rfl
  refine ⟨_, htop, rfl, rfl, fun h => ?_⟩
  have hfits := (h.covers top (List.mem_singleton_self top)).fits (by decide)
  exact absurd hfits (by decide)

end System

end Alpine.Mem.Dram
