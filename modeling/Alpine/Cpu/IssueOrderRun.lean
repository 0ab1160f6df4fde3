import Alpine.Cpu.IssueOrder
import Alpine.Lib.Run
import Alpine.Lib.StrictInsert

/-!
# The issue order list is oldest first

* `Listed` — the invariant: the entries are strictly sorted, those of the queues that are not empty, each
  with the number of the top of its queue and under the iterator of its queue.
* `pushReady_listed`, `popTop_listed` — the two changes of a queue, and of its entry.
* `scheduleLoop_spec` — the loop issues from the front of what is left of the list, and passes over a class
  only if it got no unit.
* `issue_order` — in every run the list is consistent, no assertion fails, and each call of
  `scheduleReadyInsts` issues oldest first.
-/

namespace Alpine.Cpu.Issue

variable {C F : Type}

/-! ## The invariant -/

/-- The number is that of an instruction in a ready queue. -/
def Ready (q : InstructionQueue C F) (n : Nat) : Prop := ∃ c, ∃ i ∈ q.readyInsts c, i.seqNum = n

/-- The list `L` is the age order list of the queues. -/
structure Listed (L : List (ListOrderEntry C)) (q : InstructionQueue C F) : Prop where
  order : L.Pairwise fun e e' => e.oldestInst < e'.oldestInst
  nodes : L.Pairwise fun e e' => e.node ≠ e'.node
  fresh : ∀ e ∈ L, e.node < q.nextNode
  top : ∀ e ∈ L, ∃ i is, q.readyInsts e.queueType = i :: is ∧ i.seqNum = e.oldestInst
  entry : ∀ c, q.readyInsts c ≠ [] → ∃ e ∈ L, e.queueType = c ∧ q.readyIt c = some e.node
  onList : ∀ c, q.queueOnList c = true ↔ q.readyInsts c ≠ []
  sorted : ∀ c, (q.readyInsts c).Pairwise fun i j => i.seqNum < j.seqNum
  ofClass : ∀ c, ∀ i ∈ q.readyInsts c, i.opClass = c
  distinct : ∀ c d, ∀ i ∈ q.readyInsts c, ∀ j ∈ q.readyInsts d, i.seqNum = j.seqNum → c = d

variable {e : ListOrderEntry C}

namespace Listed

variable {L : List (ListOrderEntry C)} {q : InstructionQueue C F}

/-- A class has one entry. -/
theorem unique (h : Listed L q) {e' : ListOrderEntry C} (he : e ∈ L) (he' : e' ∈ L)
    (heq : e.queueType = e'.queueType) : e = e' := by
  obtain ⟨i, is, hi, htop⟩ := h.top e he
  obtain ⟨i', is', hi', htop'⟩ := h.top e' he'
  rw [heq, hi'] at hi
  cases hi
  exact pairwise_unique h.order he he' (htop.symm.trans htop')

theorem node_unique (h : Listed L q) {e' : ListOrderEntry C} (he : e ∈ L) (he' : e' ∈ L)
    (heq : e.node = e'.node) : e = e' := by
  have hnodup : (L.map fun e => e.node).Nodup := List.pairwise_map.2 h.nodes
  exact List.inj_on_of_nodup_map hnodup he he' heq

theorem find_node (h : Listed L q) (he : e ∈ L) : L.find? (·.node = e.node) = some e := by
  obtain ⟨e', hfound⟩ : ∃ e', L.find? (·.node = e.node) = some e' :=
    Option.isSome_iff_exists.1 (List.find?_isSome.2 ⟨e, he, by simp⟩)
  have hnode : e'.node = e.node := by simpa using List.find?_some hfound
  rw [hfound, h.node_unique (List.mem_of_find?_eq_some hfound) he hnode]

/-- An entry is not younger than the instructions of its queue. -/
theorem oldest_le (h : Listed L q) (he : e ∈ L) {i : DynInst C} (hi : i ∈ q.readyInsts e.queueType) :
    e.oldestInst ≤ i.seqNum := by
  obtain ⟨t, ts, ht, htop⟩ := h.top e he
  rw [← htop]
  have hsorted := h.sorted e.queueType
  rw [ht] at hi hsorted
  rcases List.mem_cons.1 hi with rfl | hi
  · exact Nat.le_refl _
  · exact ((List.pairwise_cons.1 hsorted).1 i hi).le

/-- The invariant is about the queues and the list only. -/
theorem congr {q' : InstructionQueue C F} (h : Listed L q) (hready : q'.readyInsts = q.readyInsts)
    (hnext : q'.nextNode = q.nextNode) (hit : q'.readyIt = q.readyIt)
    (hon : q'.queueOnList = q.queueOnList) : Listed L q' where
  order := h.order
  nodes := h.nodes
  fresh := by rw [hnext]; exact h.fresh
  top := by rw [hready]; exact h.top
  entry := by rw [hready, hit]; exact h.entry
  onList := by rw [hready, hon]; exact h.onList
  sorted := by rw [hready]; exact h.sorted
  ofClass := by rw [hready]; exact h.ofClass
  distinct := by rw [hready]; exact h.distinct

end Listed

/-! ## A class that is off the list -/

/-- The list `L` is the age order list of the queues of all classes but `c`. -/
structure ListedBut (c : C) (L : List (ListOrderEntry C)) (q : InstructionQueue C F) : Prop where
  order : L.Pairwise fun e e' => e.oldestInst < e'.oldestInst
  nodes : L.Pairwise fun e e' => e.node ≠ e'.node
  fresh : ∀ e ∈ L, e.node < q.nextNode
  other : ∀ e ∈ L, e.queueType ≠ c
  top : ∀ e ∈ L, ∃ i is, q.readyInsts e.queueType = i :: is ∧ i.seqNum = e.oldestInst
  entry : ∀ d, d ≠ c → q.readyInsts d ≠ [] → ∃ e ∈ L, e.queueType = d ∧ q.readyIt d = some e.node
  onList : ∀ d, d ≠ c → (q.queueOnList d = true ↔ q.readyInsts d ≠ [])
  sorted : ∀ d, (q.readyInsts d).Pairwise fun i j => i.seqNum < j.seqNum
  ofClass : ∀ d, ∀ i ∈ q.readyInsts d, i.opClass = d
  distinct : ∀ d d', ∀ i ∈ q.readyInsts d, ∀ j ∈ q.readyInsts d', i.seqNum = j.seqNum → d = d'

variable {q : InstructionQueue C F}

theorem Listed.erase {L L' : List (ListOrderEntry C)} (h : Listed L q) (he : e ∈ L) (hsub : L'.Sublist L)
    (hmem : ∀ e' ∈ L, e' ∈ L' ↔ e' ≠ e) : ListedBut e.queueType L' q where
  order := h.order.sublist hsub
  nodes := h.nodes.sublist hsub
  fresh e' he' := h.fresh e' (hsub.subset he')
  other e' he' heq := (hmem e' (hsub.subset he')).1 he' (h.unique (hsub.subset he') he heq)
  top e' he' := h.top e' (hsub.subset he')
  entry d hd hne := by
    obtain ⟨e', he', htype, hit⟩ := h.entry d hne
    refine ⟨e', (hmem e' he').2 ?_, htype, hit⟩
    rintro rfl
    exact hd htype.symm
  onList d _ := h.onList d
  sorted := h.sorted
  ofClass := h.ofClass
  distinct := h.distinct

theorem Listed.off {L : List (ListOrderEntry C)} {c : C} (h : Listed L q) (hc : q.readyInsts c = []) :
    ListedBut c L q where
  order := h.order
  nodes := h.nodes
  fresh := h.fresh
  other e he heq := by
    obtain ⟨i, is, hi, -⟩ := h.top e he
    rw [heq, hc] at hi
    cases hi
  top := h.top
  entry d _ := h.entry d
  onList d _ := h.onList d
  sorted := h.sorted
  ofClass := h.ofClass
  distinct := h.distinct

namespace ListedBut

variable {L : List (ListOrderEntry C)} {q q' : InstructionQueue C F} {c : C}

variable [DecidableEq C]

theorem queue (h : ListedBut c L q) {l : List (DynInst C)}
    (hsorted : l.Pairwise fun i j => i.seqNum < j.seqNum) (hclass : ∀ i ∈ l, i.opClass = c)
    (hother : ∀ i ∈ l, ∀ d, d ≠ c → ∀ j ∈ q.readyInsts d, i.seqNum ≠ j.seqNum) :
    ListedBut c L { q with readyInsts := Function.update q.readyInsts c l } where
  order := h.order
  nodes := h.nodes
  fresh := h.fresh
  other := h.other
  top e he := by
    simp only [Function.update_of_ne (h.other e he)]
    exact h.top e he
  entry d hd hne := by
    simp only [Function.update_of_ne hd] at hne
    exact h.entry d hd hne
  onList d hd := by
    simp only [Function.update_of_ne hd]
    exact h.onList d hd
  sorted d := by
    by_cases hd : d = c
    · subst hd
      simpa using hsorted
    · simp only [Function.update_of_ne hd]
      exact h.sorted d
  ofClass d i hi := by
    by_cases hd : d = c
    · subst hd
      exact hclass i (by simpa using hi)
    · simp only [Function.update_of_ne hd] at hi
      exact h.ofClass d i hi
  distinct d d' i hi j hj heq := by
    by_cases hd : d = c
    · subst hd
      by_cases hd' : d' = d
      · exact hd'.symm
      · simp only [Function.update_self, Function.update_of_ne hd'] at hi hj
        exact absurd heq (hother i hi d' hd' j hj)
    · by_cases hd' : d' = c
      · subst hd'
        simp only [Function.update_self, Function.update_of_ne hd] at hi hj
        exact absurd heq.symm (hother j hj d hd i hi)
      · simp only [Function.update_of_ne hd, Function.update_of_ne hd'] at hi hj
        exact h.distinct d d' i hi j hj heq

theorem empty (h : ListedBut c L q) (hc : q.readyInsts c = []) (hready : q'.readyInsts = q.readyInsts)
    (hnext : q'.nextNode = q.nextNode) (hit : ∀ d, d ≠ c → q'.readyIt d = q.readyIt d)
    (hon : q'.queueOnList = Function.update q.queueOnList c false) : Listed L q' where
  order := h.order
  nodes := h.nodes
  fresh := by rw [hnext]; exact h.fresh
  top := by rw [hready]; exact h.top
  entry d hne := by
    rw [hready] at hne
    have hd : d ≠ c := by
      rintro rfl
      exact hne hc
    rw [hit d hd]
    exact h.entry d hd hne
  onList d := by
    rw [hready, hon]
    by_cases hd : d = c
    · subst hd
      simp [hc]
    · rw [Function.update_of_ne hd]
      exact h.onList d hd
  sorted := by rw [hready]; exact h.sorted
  ofClass := by rw [hready]; exact h.ofClass
  distinct := by rw [hready]; exact h.distinct

theorem insert (h : ListedBut c L q) {top : DynInst C} {is : List (DynInst C)}
    (hc : q.readyInsts c = top :: is) {r : ListOrderEntry C → ListOrderEntry C → Prop} [DecidableRel r]
    {new : ListOrderEntry C} (hnew : new = ⟨q.nextNode, c, top.seqNum⟩)
    (hr : ∀ e ∈ L, e.oldestInst ≠ new.oldestInst → (r new e ↔ new.oldestInst < e.oldestInst))
    (hready : q'.readyInsts = q.readyInsts) (hnext : q'.nextNode = q.nextNode + 1)
    (hit : q'.readyIt = Function.update q.readyIt c (some q.nextNode))
    (hon : q'.queueOnList = Function.update q.queueOnList c true) : Listed (L.orderedInsert r new) q' := by
  have hmem : ∀ e, e ∈ L.orderedInsert r new ↔ e = new ∨ e ∈ L := fun e => List.mem_orderedInsert r
  have hne : ∀ e ∈ L, e.oldestInst ≠ new.oldestInst := by
    intro e he heq
    obtain ⟨i, is', hi, htop⟩ := h.top e he
    refine h.other e he (h.distinct _ _ i (hi ▸ List.mem_cons_self) top (hc ▸ List.mem_cons_self) ?_)
    rw [htop, heq, hnew]
  refine ⟨?_, ?_, ?_, ?_, ?_, ?_, ?_, ?_, ?_⟩
  · exact pairwise_orderedInsert h.order (fun e he => hr e he (hne e he)) hne
  · refine ((List.perm_orderedInsert r new L).pairwise_iff fun hab => Ne.symm hab).2 ?_
    refine List.pairwise_cons.2 ⟨fun e he => ?_, h.nodes⟩
    rw [hnew]
    exact (h.fresh e he).ne'
  · intro e he
    rw [hnext]
    rcases (hmem e).1 he with rfl | he
    · rw [hnew]
      exact Nat.lt_succ_self _
    · exact (h.fresh e he).trans (Nat.lt_succ_self _)
  · intro e he
    rw [hready]
    rcases (hmem e).1 he with rfl | he
    · rw [hnew]
      exact ⟨top, is, hc, rfl⟩
    · exact h.top e he
  · intro d hd
    rw [hready] at hd
    rw [hit]
    by_cases hdc : d = c
    · subst hdc
      exact ⟨new, (hmem new).2 (.inl rfl), by rw [hnew], by rw [hnew, Function.update_self]⟩
    · rw [Function.update_of_ne hdc]
      obtain ⟨e, he, hrest⟩ := h.entry d hdc hd
      exact ⟨e, (hmem e).2 (.inr he), hrest⟩
  · intro d
    rw [hready, hon]
    by_cases hdc : d = c
    · subst hdc
      simp [hc]
    · rw [Function.update_of_ne hdc]
      exact h.onList d hdc
  · rw [hready]
    exact h.sorted
  · rw [hready]
    exact h.ofClass
  · rw [hready]
    exact h.distinct

end ListedBut

/-! ## What the loop does -/

/-- What the other functions of the queue see of a state. -/
structure Same (q q' : InstructionQueue C F) : Prop where
  waiting : q'.deferredMemInsts = q.deferredMemInsts ∧ q'.retryMemInsts = q.retryMemInsts ∧
    q'.blockedMemInsts = q.blockedMemInsts
  squashed : q'.squashed = q.squashed
  busy : q'.statFuBusy = q.statFuBusy

/-- What the loop of `scheduleReadyInsts` does from a state of it on. -/
structure Schedules (passed rest : List (ListOrderEntry C)) (q q' : InstructionQueue C F)
    (issued : List (DynInst C)) : Prop where
  listed : Listed q'.listOrder q'
  waiting : q'.deferredMemInsts = q.deferredMemInsts ∧ q'.retryMemInsts = q.retryMemInsts ∧
    q'.blockedMemInsts = q.blockedMemInsts
  sub : ∀ c, ∀ i ∈ q'.readyInsts c, i ∈ q.readyInsts c
  left : ∀ c, ∀ i ∈ q.readyInsts c, i ∈ q'.readyInsts c ∨ i ∈ issued ∨ q.squashed i.seqNum = true
  ready : ∀ i ∈ issued, (∃ c, i ∈ q.readyInsts c) ∧ q.squashed i.seqNum = false
  order : issued.Pairwise fun i j => i.seqNum < j.seqNum
  bound : ∀ i ∈ issued, ∃ e ∈ rest, e.oldestInst ≤ i.seqNum
  busy : ∀ c, q.statFuBusy c ≤ q'.statFuBusy c
  passedOver : ∀ j ∈ issued, ∀ c, ∀ i ∈ q'.readyInsts c, i.seqNum < j.seqNum →
    (∃ e ∈ passed, e.queueType = c) ∨ q.statFuBusy c < q'.statFuBusy c

namespace Schedules

variable {q q1 q' : InstructionQueue C F} {passed rest : List (ListOrderEntry C)} {e : ListOrderEntry C}
  {issued : List (DynInst C)}

/-- An instruction that is issued after the current entry is younger than its oldest one. -/
theorem younger (h : Schedules passed rest q q' issued) (hrest : ∀ e' ∈ rest, e.oldestInst < e'.oldestInst) :
    ∀ i ∈ issued, e.oldestInst < i.seqNum := by
  intro i hi
  obtain ⟨e', he', hle⟩ := h.bound i hi
  exact (hrest e' he').trans_le hle

theorem stop (h : Listed (passed ++ rest) q) : Schedules passed rest q { q with listOrder := passed ++ rest } [] := by
  refine ⟨h.congr rfl rfl rfl rfl, ⟨rfl, rfl, rfl⟩, fun _ _ hi => hi, fun _ _ hi => .inl hi, ?_, .nil, ?_,
    fun _ => Nat.le_refl _, ?_⟩
  · exact fun i hi => absurd hi List.not_mem_nil
  · exact fun i hi => absurd hi List.not_mem_nil
  · exact fun j hj => absurd hj List.not_mem_nil

/-- The state of the execution units does not matter. -/
theorem congr (hs : Same q q1) (hready : q1.readyInsts = q.readyInsts) (h : Schedules passed rest q1 q' issued) :
    Schedules passed rest q q' issued := by
  refine ⟨h.listed, ?_, hready ▸ h.sub, ?_, ?_, h.order, h.bound, hs.busy ▸ h.busy, hs.busy ▸ h.passedOver⟩
  · rw [h.waiting.1, h.waiting.2.1, h.waiting.2.2]
    exact hs.waiting
  · rw [← hready, ← hs.squashed]
    exact h.left
  · rw [← hready, ← hs.squashed]
    exact h.ready

end Schedules

/-! ## An instruction leaves its queue -/

variable [DecidableEq C]

theorem popTop_readyInsts (q : InstructionQueue C F) (c : C) (rest : List (ListOrderEntry C)) :
    (q.popTop c rest).1.readyInsts = Function.update q.readyInsts c (q.readyInsts c).tail := by
  unfold InstructionQueue.popTop
  simp only
  split <;> rfl

theorem popTop_same (q : InstructionQueue C F) (c : C) (rest : List (ListOrderEntry C)) :
    Same q (q.popTop c rest).1 := by
  unfold InstructionQueue.popTop
  simp only
  split <;> exact ⟨⟨rfl, rfl, rfl⟩, rfl, rfl⟩

theorem popTop_listed {passed rest : List (ListOrderEntry C)} (h : Listed (passed ++ e :: rest) q) :
    Listed (passed ++ (q.popTop e.queueType rest).2) (q.popTop e.queueType rest).1 ∧
      ∀ e' ∈ (q.popTop e.queueType rest).2, e.oldestInst < e'.oldestInst := by
  obtain ⟨i, is, hq, htop⟩ := h.top e (by simp)
  have horder := h.order
  rw [List.pairwise_append, List.pairwise_cons] at horder
  obtain ⟨-, ⟨hlt, -⟩, hcross⟩ := horder
  have hqueue := h.sorted e.queueType
  rw [hq, List.pairwise_cons] at hqueue
  have hbut : ListedBut e.queueType (passed ++ rest)
      { q with readyInsts := Function.update q.readyInsts e.queueType is } := by
    refine ListedBut.queue (h.erase (e := e) (by simp) ?_ ?_) hqueue.2 ?_ ?_
    · exact (List.Sublist.refl passed).append (List.sublist_cons_self e rest)
    · intro e' he'
      simp only [List.mem_append, List.mem_cons] at he' ⊢
      constructor
      · rintro (hin | hin) rfl
        · exact absurd (hcross e' hin e' List.mem_cons_self) (Nat.lt_irrefl _)
        · exact absurd (hlt e' hin) (Nat.lt_irrefl _)
      · intro hne
        rcases he' with hin | hin | hin
        · exact .inl hin
        · exact absurd hin hne
        · exact .inr hin
    · exact fun j hj => h.ofClass _ j (hq ▸ List.mem_cons_of_mem i hj)
    · intro j hj d hd k hk heq
      exact hd (h.distinct _ _ j (hq ▸ List.mem_cons_of_mem i hj) k hk heq).symm
  unfold InstructionQueue.popTop
  simp only [hq, List.tail_cons, Function.update_self]
  cases is with
  | nil =>
    refine ⟨hbut.empty (by simp) rfl rfl (fun d hd => ?_) rfl, hlt⟩
    simp only [Function.update_of_ne hd]
  | cons top is =>
    have hgt : e.oldestInst < top.seqNum := htop ▸ hqueue.1 top List.mem_cons_self
    let new : ListOrderEntry C := ⟨q.nextNode, e.queueType, top.seqNum⟩
    have hpassed : ∀ a ∈ passed, a.oldestInst < new.oldestInst := fun a ha =>
      (hcross a ha e List.mem_cons_self).trans hgt
    let q1 := { q with
      readyInsts := Function.update q.readyInsts e.queueType (top :: is)
      nextNode := q.nextNode + 1
      readyIt := Function.update q.readyIt e.queueType (some q.nextNode)
      queueOnList := Function.update q.queueOnList e.queueType true }
    have hlisted := @ListedBut.insert _ _ _ _ q1 _ _ hbut top is (by simp) (fun new e => ¬ e.oldestInst < new.oldestInst) _
      new rfl (fun a _ hne => by omega) rfl rfl rfl rfl
    have hgo : ∀ a ∈ passed, ¬ ¬ a.oldestInst < new.oldestInst := fun a ha => not_not.2 (hpassed a ha)
    rw [orderedInsert_append hgo] at hlisted
    refine ⟨hlisted.congr rfl rfl rfl ?_, fun e' he' => ?_⟩
    · have hon : q.queueOnList e.queueType = true := (h.onList _).2 (by simp [hq])
      exact (Function.update_eq_self_iff.2 hon.symm).symm
    · rcases (List.mem_orderedInsert _).1 he' with rfl | he'
      · exact hgt
      · exact hlt e' he'

/-! ## An instruction enters its queue -/

theorem Listed.queue {L : List (ListOrderEntry C)} {c : C} {top : DynInst C} {is l : List (DynInst C)}
    (h : Listed L q) (hc : q.readyInsts c = top :: is)
    (hsorted : (top :: l).Pairwise fun i j => i.seqNum < j.seqNum) (hclass : ∀ i ∈ top :: l, i.opClass = c)
    (hother : ∀ i ∈ top :: l, ∀ d, d ≠ c → ∀ j ∈ q.readyInsts d, i.seqNum ≠ j.seqNum) :
    Listed L { q with readyInsts := Function.update q.readyInsts c (top :: l) } := by
  have hne : ∀ d, Function.update q.readyInsts c (top :: l) d ≠ [] ↔ q.readyInsts d ≠ [] := by
    intro d
    by_cases hd : d = c
    · subst hd
      simp [hc]
    · rw [Function.update_of_ne hd]
  obtain ⟨e, he, htype, -⟩ := h.entry c (by simp [hc])
  subst htype
  have hbut : ListedBut e.queueType (L.filter (· ∉ [e])) q := by
    classical
    exact h.erase he List.filter_sublist fun e' he' => by simp [List.mem_filter, he']
  have hqueue := hbut.queue hsorted hclass hother
  refine ⟨h.order, h.nodes, h.fresh, fun e' he' => ?_, fun d hd => h.entry d ((hne d).1 hd), fun d => ?_,
    hqueue.sorted, hqueue.ofClass, hqueue.distinct⟩
  · obtain ⟨i, is', hi, htop⟩ := h.top e' he'
    by_cases hd : e'.queueType = e.queueType
    · rw [hd, hc] at hi
      cases hi
      exact ⟨top, l, by simp [hd], htop⟩
    · exact ⟨i, is', by simp [hd, hi], htop⟩
  · exact (h.onList d).trans (hne d).symm

theorem addToOrderList_listed {L : List (ListOrderEntry C)} {q : InstructionQueue C F} {c : C}
    {top : DynInst C} {is : List (DynInst C)} (h : ListedBut c L q) (hc : q.readyInsts c = top :: is)
    (hL : q.listOrder = L) : ∃ q', q.addToOrderList c = some q' ∧ Listed q'.listOrder q' ∧ q' = { q with
      listOrder := q'.listOrder, nextNode := q'.nextNode, readyIt := q'.readyIt, queueOnList := q'.queueOnList } := by
  refine ⟨_, by rw [InstructionQueue.addToOrderList, hc, List.head?_cons, Option.map_some], ?_, rfl⟩
  simp only
  rw [hL]
  exact h.insert hc rfl (fun _ _ _ => Iff.rfl) rfl rfl rfl rfl

variable {inst : DynInst C}

/-- **A new ready instruction.** -/
theorem pushReady_listed (h : Listed q.listOrder q) (hnew : ¬ Ready q inst.seqNum) :
    ∃ q', q.pushReady inst = some q' ∧ Listed q'.listOrder q' ∧ q' = { q.push inst with
      listOrder := q'.listOrder, nextNode := q'.nextNode, readyIt := q'.readyIt, queueOnList := q'.queueOnList } := by
  let l := (q.readyInsts inst.opClass).orderedInsert (fun i j => i.seqNum < j.seqNum) inst
  have hmem : ∀ i, i ∈ l ↔ i = inst ∨ i ∈ q.readyInsts inst.opClass := fun i => List.mem_orderedInsert _
  have hne : ∀ d, ∀ i ∈ q.readyInsts d, i.seqNum ≠ inst.seqNum := fun d i hi heq => hnew ⟨d, i, hi, heq⟩
  have hsorted : l.Pairwise fun i j => i.seqNum < j.seqNum :=
    pairwise_orderedInsert (h.sorted _) (fun _ _ => Iff.rfl) (hne _)
  have hclass : ∀ i ∈ l, i.opClass = inst.opClass := by
    intro i hi
    rcases (hmem i).1 hi with rfl | hi
    · rfl
    · exact h.ofClass _ i hi
  have hother : ∀ i ∈ l, ∀ d, d ≠ inst.opClass → ∀ j ∈ q.readyInsts d, i.seqNum ≠ j.seqNum := by
    intro i hi d hd j hj heq
    rcases (hmem i).1 hi with rfl | hi
    · exact hne d j hj heq.symm
    · exact hd (h.distinct _ _ i hi j hj heq).symm
  have hpush : (q.push inst).readyInsts inst.opClass = l := Function.update_self ..
  unfold InstructionQueue.pushReady
  simp only
  cases hq : q.readyInsts inst.opClass with
  | nil =>
    have hoff : q.queueOnList inst.opClass = false := by
      by_contra hon
      exact (h.onList _).1 (by simpa using hon) hq
    have hbut := (h.off hq).queue hsorted hclass hother
    have hoff' : (q.push inst).queueOnList inst.opClass = false := hoff
    rw [if_pos hoff']
    exact @addToOrderList_listed _ _ _ _ (q.push inst) _ inst [] hbut (by rw [hpush]; simp [l, hq]) rfl
  | cons top is =>
    have hon : q.queueOnList inst.opClass = true := (h.onList _).2 (by simp [hq])
    obtain ⟨e, he, htype, hit⟩ := h.entry _ (by simp [hq] : q.readyInsts inst.opClass ≠ [])
    have htop : top.seqNum = e.oldestInst := by
      obtain ⟨i, is', hi, hitop⟩ := h.top e he
      rw [htype, hq] at hi
      cases hi
      exact hitop
    have hon' : (q.push inst).queueOnList inst.opClass = true := hon
    have hit' : (q.push inst).readyIt inst.opClass = some e.node := hit
    have hfind' : (q.push inst).listOrder.find? (·.node = e.node) = some e := h.find_node he
    rw [if_neg (by simp [hon']), hpush]
    by_cases hlt : inst.seqNum < top.seqNum
    · -- the new instruction is the oldest of its class: the entry is erased and added again
      have hl : l = inst :: top :: is := by simp [l, hq, hlt]
      rw [hl, List.head?_cons, Option.bind_some, hit', Option.bind_some, hfind', Option.bind_some,
        if_pos (htop ▸ hlt)]
      have herase : ListedBut inst.opClass (q.listOrder.filter fun e' => e'.node ≠ e.node) q := by
        rw [← htype]
        refine h.erase he List.filter_sublist fun e' he' => ?_
        simp only [List.mem_filter, he', true_and, decide_eq_true_eq]
        exact ⟨fun hn heq => hn (heq ▸ rfl), fun hn heq => hn (h.node_unique he' he heq)⟩
      have hbut := herase.queue hsorted hclass hother
      exact addToOrderList_listed (q := { q.push inst with listOrder := _ })
        ⟨hbut.order, hbut.nodes, hbut.fresh, hbut.other, hbut.top, hbut.entry, hbut.onList, hbut.sorted,
          hbut.ofClass, hbut.distinct⟩ (hpush.trans hl) rfl
    · have hl : l = top :: is.orderedInsert (fun i j => i.seqNum < j.seqNum) inst := by
        simp [l, hq, hlt]
      rw [hl, List.head?_cons, Option.bind_some, hit', Option.bind_some, hfind', Option.bind_some, if_neg (by omega)]
      rw [hl] at hsorted hclass hother
      have hlisted := h.queue hq hsorted hclass hother
      refine ⟨q.push inst, rfl, ?_, rfl⟩
      have hqueue : q.push inst = { q with readyInsts := Function.update q.readyInsts inst.opClass l } := rfl
      rw [hqueue, hl]
      exact hlisted

/-! ## The loop -/

theorem popTop_turns {passed rest : List (ListOrderEntry C)} (h : Listed (passed ++ e :: rest) q) :
    (q.popTop e.queueType rest).1.turns (q.popTop e.queueType rest).2 < q.turns (e :: rest) := by
  obtain ⟨i, is, hq, -⟩ := h.top e (by simp)
  have hother : ∀ e' ∈ rest, e'.queueType ≠ e.queueType := by
    intro e' he' heq
    have horder := (List.pairwise_append.1 h.order).2.1
    have hlt := (List.pairwise_cons.1 horder).1 e' he'
    rw [h.unique (by simp [he']) (by simp) heq] at hlt
    exact Nat.lt_irrefl _ hlt
  have hrest : ∀ q' : InstructionQueue C F, q'.readyInsts = Function.update q.readyInsts e.queueType is →
      q'.turns rest = q.turns rest := by
    intro q' hq'
    refine congrArg List.sum (List.map_congr_left fun e' he' => ?_)
    rw [hq', Function.update_of_ne (hother e' he')]
  unfold InstructionQueue.popTop
  simp only [hq, List.tail_cons, Function.update_self]
  cases is with
  | nil =>
    refine (hrest _ rfl).trans_lt ?_
    simp [InstructionQueue.turns]
  | cons top is =>
    have hperm := List.perm_orderedInsert (fun new e : ListOrderEntry C => ¬ e.oldestInst < new.oldestInst)
      ⟨q.nextNode, e.queueType, top.seqNum⟩ rest
    refine (((hperm.map _).sum_nat).trans ?_).trans_lt (b := q.turns rest + ((top :: is).length + 1)) ?_
    · rw [List.map_cons, List.sum_cons, Nat.add_comm]
      exact congrArg₂ _ (hrest _ rfl) (by simp)
    · simp [InstructionQueue.turns, hq]
      omega

/-- An instruction that is in another class than the top of a queue, or behind it, stays. -/
theorem mem_popTop {c : C} {is : List (DynInst C)} (hq : q.readyInsts c = inst :: is)
    (rest : List (ListOrderEntry C)) (d : C) (i : DynInst C) :
    (i ∈ (q.popTop c rest).1.readyInsts d → i ∈ q.readyInsts d) ∧
      (i ∈ q.readyInsts d → i = inst ∨ i ∈ (q.popTop c rest).1.readyInsts d) := by
  rw [popTop_readyInsts, hq, List.tail_cons]
  by_cases hd : d = c
  · subst hd
    rw [Function.update_self, hq]
    exact ⟨List.mem_cons_of_mem inst, List.mem_cons.1⟩
  · rw [Function.update_of_ne hd]
    exact ⟨id, .inr⟩

namespace Schedules

variable {q q1 q' : InstructionQueue C F} {passed rest : List (ListOrderEntry C)} {e : ListOrderEntry C}
  {inst : DynInst C} {is issued : List (DynInst C)}

/-- The oldest instruction of the current class is squashed: it leaves. -/
theorem drop (hl : Listed (passed ++ e :: rest) q) (hq : q.readyInsts e.queueType = inst :: is)
    (hsq : q.squashed inst.seqNum = true)
    (h : Schedules passed (q.popTop e.queueType rest).2 (q.popTop e.queueType rest).1 q' issued) :
    Schedules passed (e :: rest) q q' issued := by
  have hsame := popTop_same q e.queueType rest
  have hmem := mem_popTop hq rest
  refine ⟨h.listed, ?_, fun c i hi => (hmem c i).1 (h.sub c i hi), ?_, ?_, h.order, ?_, ?_, ?_⟩
  · rw [h.waiting.1, h.waiting.2.1, h.waiting.2.2]
    exact hsame.waiting
  · intro c i hi
    rcases (hmem c i).2 hi with rfl | hin
    · exact .inr (.inr hsq)
    · exact hsame.squashed ▸ h.left c i hin
  · intro i hi
    obtain ⟨⟨c, hin⟩, hns⟩ := h.ready i hi
    exact ⟨⟨c, (hmem c i).1 hin⟩, hsame.squashed ▸ hns⟩
  · exact fun i hi => ⟨e, List.mem_cons_self, (h.younger (popTop_listed hl).2 i hi).le⟩
  · exact hsame.busy ▸ h.busy
  · exact hsame.busy ▸ h.passedOver

theorem issue (hl : Listed (passed ++ e :: rest) q) (hq : q.readyInsts e.queueType = inst :: is)
    (htop : inst.seqNum = e.oldestInst) (hsq : q.squashed inst.seqNum = false)
    (h : Schedules passed (q.popTop e.queueType rest).2 (q.popTop e.queueType rest).1 q' issued) :
    Schedules passed (e :: rest) q q' (inst :: issued) := by
  have hsame := popTop_same q e.queueType rest
  have hmem := mem_popTop hq rest
  have hyounger := h.younger (popTop_listed hl).2
  refine ⟨h.listed, ?_, fun c i hi => (hmem c i).1 (h.sub c i hi), ?_, ?_, ?_, ?_, ?_, ?_⟩
  · rw [h.waiting.1, h.waiting.2.1, h.waiting.2.2]
    exact hsame.waiting
  · intro c i hi
    rcases (hmem c i).2 hi with rfl | hin
    · exact .inr (.inl List.mem_cons_self)
    · rcases h.left c i hin with hin | hin | hin
      · exact .inl hin
      · exact .inr (.inl (List.mem_cons_of_mem inst hin))
      · exact .inr (.inr (hsame.squashed ▸ hin))
  · intro i hi
    rcases List.mem_cons.1 hi with rfl | hi
    · exact ⟨⟨_, hq ▸ List.mem_cons_self⟩, hsq⟩
    · obtain ⟨⟨c, hin⟩, hns⟩ := h.ready i hi
      exact ⟨⟨c, (hmem c i).1 hin⟩, hsame.squashed ▸ hns⟩
  · refine List.pairwise_cons.2 ⟨fun j hj => ?_, h.order⟩
    rw [htop]
    exact hyounger j hj
  · intro i hi
    refine ⟨e, List.mem_cons_self, ?_⟩
    rcases List.mem_cons.1 hi with rfl | hi
    · exact htop.ge
    · exact (hyounger i hi).le
  · exact hsame.busy ▸ h.busy
  · intro j hj c i hi hlt
    rcases List.mem_cons.1 hj with rfl | hj
    · -- the entry of the class of an older instruction is before the current one
      have hin : i ∈ q.readyInsts c := (hmem c i).1 (h.sub c i hi)
      obtain ⟨e', he', htype, -⟩ := hl.entry c (List.ne_nil_of_mem hin)
      have hle : e'.oldestInst ≤ i.seqNum := hl.oldest_le he' (htype ▸ hin)
      have horder := (List.pairwise_cons.1 (List.pairwise_append.1 hl.order).2.1).1
      rcases List.mem_append.1 he' with he' | he'
      · exact .inl ⟨e', he', htype⟩
      · rcases List.mem_cons.1 he' with rfl | he'
        · omega
        · have := horder e' he'
          omega
    · exact hsame.busy ▸ h.passedOver j hj c i hi hlt

theorem pass (h : Schedules (passed ++ [e]) rest
      { q with statFuBusy := Function.update q.statFuBusy e.queueType (q.statFuBusy e.queueType + 1) } q' issued) :
    Schedules passed (e :: rest) q q' issued := by
  have hle : ∀ c, q.statFuBusy c ≤
      Function.update q.statFuBusy e.queueType (q.statFuBusy e.queueType + 1) c := by
    intro c
    by_cases hc : c = e.queueType
    · subst hc
      simp
    · simp [hc]
  refine ⟨h.listed, h.waiting, h.sub, h.left, h.ready, h.order, ?_, fun c => (hle c).trans (h.busy c), ?_⟩
  · intro i hi
    obtain ⟨e', he', hbound⟩ := h.bound i hi
    exact ⟨e', List.mem_cons_of_mem e he', hbound⟩
  · intro j hj c i hi hlt
    rcases h.passedOver j hj c i hi hlt with ⟨e', he', htype⟩ | hbusy
    · rcases List.mem_append.1 he' with he' | he'
      · exact .inl ⟨e', he', htype⟩
      · rw [List.mem_singleton.1 he'] at htype
        have := h.busy c
        subst htype
        simp only [Function.update_self] at this
        exact .inr this
    · exact .inr ((hle c).trans_lt hbusy)

end Schedules

variable [FUPool F C]

theorem execute_same (q : InstructionQueue C F) (inst : DynInst C) (c : C) (idx : Int) :
    Same q (q.execute inst c idx) ∧ (q.execute inst c idx).readyInsts = q.readyInsts ∧
      ∀ L, Listed L q → Listed L (q.execute inst c idx) := by
  unfold InstructionQueue.execute
  simp only
  split
  · exact ⟨⟨⟨rfl, rfl, rfl⟩, rfl, rfl⟩, rfl, fun L h => h.congr rfl rfl rfl rfl⟩
  · exact ⟨⟨⟨rfl, rfl, rfl⟩, rfl, rfl⟩, rfl, fun L h => h.congr rfl rfl rfl rfl⟩

/-- **The loop.**  The entries before the iterator are those of classes that got no unit. -/
theorem scheduleLoop_spec {totalWidth fuel : Nat} (total_issued : Nat) {q : InstructionQueue C F}
    {passed rest : List (ListOrderEntry C)} (h : Listed (passed ++ rest) q) (hfuel : q.turns rest ≤ fuel) :
    ∃ q' issued, InstructionQueue.scheduleLoop totalWidth fuel passed rest total_issued q = some (q', issued) ∧
      Schedules passed rest q q' issued := by
  induction fuel generalizing passed rest total_issued q with
  | zero =>
    cases rest with
    | nil =>
      refine ⟨_, [], by rw [InstructionQueue.scheduleLoop], ?_⟩
      simpa using Schedules.stop h
    | cons e rest =>
      simp [InstructionQueue.turns] at hfuel
  | succ fuel ih =>
    cases rest with
    | nil =>
      refine ⟨_, [], by rw [InstructionQueue.scheduleLoop], ?_⟩
      simpa using Schedules.stop h
    | cons e rest =>
      obtain ⟨inst, is, hq, htop⟩ := h.top e (by simp)
      by_cases hwidth : total_issued < totalWidth
      · have hpop : ∀ {q1 : InstructionQueue C F}, Listed (passed ++ e :: rest) q1 →
            q1.readyInsts = q.readyInsts → (q1.popTop e.queueType rest).1.turns
              (q1.popTop e.queueType rest).2 ≤ fuel := by
          intro q1 hlisted hready
          have hlt := popTop_turns hlisted
          have heq : q1.turns (e :: rest) = q.turns (e :: rest) := by
            simp [InstructionQueue.turns, hready]
          omega
        unfold InstructionQueue.scheduleLoop
        simp only [hwidth, if_true, hq, htop, ne_eq, not_true_eq_false, if_false]
        cases hsq : q.squashed inst.seqNum with
        | true =>
          obtain ⟨q', issued, hloop, hs⟩ := ih total_issued (popTop_listed h).1
            (hpop h rfl)
          exact ⟨q', issued, by rw [← htop, hsq]; exact hloop, hs.drop h hq hsq⟩
        | false =>
          rw [← htop, hsq]
          simp only [Bool.false_eq_true, if_false]
          by_cases hunit : (q.getUnit e.queueType).1 = NoFreeFU
          · -- no free unit: the iterator moves on
            simp only [hunit, not_true_eq_false, if_false]
            let q1 := { q with fuPool := (q.getUnit e.queueType).2 }
            have hlisted : Listed ((passed ++ [e]) ++ rest) q1 := by
              rw [List.append_assoc]
              exact h.congr rfl rfl rfl rfl
            have hturns : q.turns rest ≤ fuel := by
              simp only [InstructionQueue.turns, List.map_cons, List.sum_cons] at hfuel ⊢
              omega
            let busy := Function.update q1.statFuBusy e.queueType (q1.statFuBusy e.queueType + 1)
            obtain ⟨q', issued, hloop, hs⟩ := ih total_issued (q := { q1 with statFuBusy := busy })
              (hlisted.congr rfl rfl rfl rfl) hturns
            have hpass : Schedules passed (e :: rest) q1 q' issued := hs.pass
            exact ⟨q', issued, hloop, @Schedules.congr _ _ q q1 _ _ _ _ ⟨⟨rfl, rfl, rfl⟩, rfl, rfl⟩ rfl hpass⟩
          · simp only [hunit, not_false_eq_true, if_true]
            let q1 := { q with fuPool := (q.getUnit e.queueType).2 }
            let q2 := q1.execute inst e.queueType (q.getUnit e.queueType).1
            obtain ⟨hexec, hready, hkeep⟩ :=
              execute_same q1 inst e.queueType (q.getUnit e.queueType).1
            have hsame : Same q q2 := ⟨hexec.waiting, hexec.squashed, hexec.busy⟩
            have hlisted : Listed (passed ++ e :: rest) q2 := hkeep _ (h.congr rfl rfl rfl rfl)
            obtain ⟨q', issued, hloop, hs⟩ := ih (total_issued + 1) (popTop_listed hlisted).1
              (hpop hlisted hready)
            refine ⟨q', inst :: issued, ?_, ?_⟩
            · change (InstructionQueue.scheduleLoop _ _ _ (q2.popTop e.queueType rest).2 _
                (q2.popTop e.queueType rest).1).map _ = _
              rw [hloop]
              rfl
            · exact (hs.issue hlisted (hready ▸ hq) htop (hsame.squashed ▸ hsq)).congr hsame hready
      · refine ⟨_, [], ?_, Schedules.stop h⟩
        unfold InstructionQueue.scheduleLoop
        simp only [hwidth, if_false]

/-! ## Runs -/

inductive Call (C F : Type) where
  | addIfReady (inst : DynInst C)
  | addReadyMemInst (ready_inst : DynInst C)
  | deferMemInst (deferred_inst : DynInst C)
  | blockMemInst (blocked_inst : DynInst C)
  | cacheUnblocked
  | scheduleReadyInsts (totalWidth : Nat)
  /-- The status bits of instructions change. -/
  | setStatus (canIssue squashed translationCompleted : Nat → Bool)
  /-- Units are freed. -/
  | setPool (fuPool : F)

namespace InstructionQueue

/-- One call, with the instructions that it issues. -/
def call (q : InstructionQueue C F) : Call C F → Option (InstructionQueue C F × List (DynInst C))
  | .addIfReady inst => (q.addIfReady inst).map fun q => (q, [])
  | .addReadyMemInst inst => (q.addReadyMemInst inst).map fun q => (q, [])
  | .deferMemInst inst => some (q.deferMemInst inst, [])
  | .blockMemInst inst => some (q.blockMemInst inst, [])
  | .cacheUnblocked => some (q.cacheUnblocked, [])
  | .scheduleReadyInsts totalWidth => q.scheduleReadyInsts totalWidth
  | .setStatus canIssue squashed translationCompleted => some ({ q with
      canIssue := canIssue, squashed := squashed, translationCompleted := translationCompleted }, [])
  | .setPool fuPool => some ({ q with fuPool := fuPool }, [])

def step (q : InstructionQueue C F) (c : Call C F) : Option (InstructionQueue C F) :=
  (q.call c).map Prod.fst

/-- The memory references that are to be added later. -/
def waiting (q : InstructionQueue C F) : List (DynInst C) :=
  q.deferredMemInsts ++ (q.retryMemInsts ++ q.blockedMemInsts)

end InstructionQueue

/-- No instruction of the number is ready or waits. -/
def Unused (q : InstructionQueue C F) (n : Nat) : Prop :=
  ¬ Ready q n ∧ n ∉ q.waiting.map fun i => i.seqNum

/-- An instruction is in one place at a time. -/
def Permitted (q : InstructionQueue C F) : Call C F → Prop
  | .addIfReady inst => q.canIssue inst.seqNum = true → inst.isMemRef = false → Unused q inst.seqNum
  | .addReadyMemInst inst => Unused q inst.seqNum
  | .deferMemInst inst => Unused q inst.seqNum
  | .blockMemInst inst => Unused q inst.seqNum
  | _ => True

/-- The list is strictly increasing, and each class has its entry, under its iterator, exactly while its
queue is not empty. -/
structure Consistent (q : InstructionQueue C F) : Prop where
  order : q.listOrder.Pairwise fun e e' => e.oldestInst < e'.oldestInst
  onList : ∀ c top is, q.readyInsts c = top :: is → ∃ node,
    q.listOrder.filter (·.queueType = c) = [⟨node, c, top.seqNum⟩] ∧
    q.listOrder.find? (·.node = node) = some ⟨node, c, top.seqNum⟩ ∧
    q.readyIt c = some node ∧ q.queueOnList c = true ∧ ∀ i ∈ is, top.seqNum < i.seqNum
  offList : ∀ c, q.readyInsts c = [] →
    q.listOrder.filter (·.queueType = c) = [] ∧ q.queueOnList c = false

/-- The call issues oldest first: what is issued was ready or waited and is not squashed; a ready instruction
is still ready, issued or squashed; and a ready instruction that is older than an issued one is left only if
its class was refused a unit. -/
structure OldestFirst (q q' : InstructionQueue C F) (issued : List (DynInst C)) : Prop where
  order : issued.Pairwise fun i j => i.seqNum < j.seqNum
  ready : ∀ i ∈ issued, ((∃ c, i ∈ q.readyInsts c) ∨ i ∈ q.waiting) ∧ q.squashed i.seqNum = false
  left : ∀ c, ∀ i ∈ q.readyInsts c, i ∈ q'.readyInsts c ∨ i ∈ issued ∨ q.squashed i.seqNum = true
  passedOver : ∀ j ∈ issued, ∀ c, ∀ i ∈ q'.readyInsts c, i.seqNum < j.seqNum →
    q.statFuBusy c < q'.statFuBusy c

/-- The instructions of the list are different ones, and none of them is ready. -/
structure Apart (l : List (DynInst C)) (q : InstructionQueue C F) : Prop where
  nodup : (l.map fun i => i.seqNum).Nodup
  notReady : ∀ i ∈ l, ¬ Ready q i.seqNum

/-- The invariant of all calls. -/
structure Inv (q : InstructionQueue C F) : Prop where
  listed : Listed q.listOrder q
  apart : Apart q.waiting q

omit [DecidableEq C] [FUPool F C] in
theorem inv_new (fuPool : F) : Inv (InstructionQueue.new (C := C) fuPool) where
  listed := by constructor <;> simp [InstructionQueue.new]
  apart := ⟨List.nodup_nil, fun i hi => absurd hi List.not_mem_nil⟩

omit [FUPool F C] in
theorem Listed.consistent (h : Listed q.listOrder q) : Consistent q := by
  have hnodup : q.listOrder.Nodup := h.order.imp fun hlt heq => by
    rw [heq] at hlt
    exact Nat.lt_irrefl _ hlt
  refine ⟨h.order, fun c top is hq => ?_, fun c hq => ⟨?_, ?_⟩⟩
  · obtain ⟨e, he, htype, hit⟩ := h.entry c (by simp [hq])
    obtain ⟨i, is', hi, htop⟩ := h.top e he
    rw [htype, hq] at hi
    cases hi
    have hentry : e = ⟨e.node, c, top.seqNum⟩ := by
      rw [← htype, htop]
    refine ⟨e.node, ?_, ?_, hit, (h.onList c).2 (by simp [hq]), ?_⟩
    · rw [← hentry]
      have hall : q.listOrder.filter (fun e' => e'.queueType = c) = q.listOrder.filter fun e' => e' = e := by
        refine List.filter_congr fun e' he' => ?_
        rw [decide_eq_decide]
        exact ⟨fun heq => h.unique he' he (heq.trans htype.symm), fun heq => heq ▸ htype⟩
      rw [hall, List.filter_eq, List.count_eq_one_of_mem hnodup he]
      rfl
    · rw [← hentry]
      exact h.find_node he
    · have hsorted := h.sorted c
      rw [hq] at hsorted
      exact (List.pairwise_cons.1 hsorted).1
  · refine List.filter_eq_nil_iff.2 fun e he htype => ?_
    obtain ⟨i, is, hi, -⟩ := h.top e he
    rw [of_decide_eq_true htype, hq] at hi
    cases hi
  · by_contra hon
    exact (h.onList c).1 (by simpa using hon) hq

/-! ## The calls -/

omit [FUPool F C] in
theorem addReadyMemInst_spec (h : Listed q.listOrder q) (hnew : ¬ Ready q inst.seqNum) :
    ∃ q', q.addReadyMemInst inst = some q' ∧ Listed q'.listOrder q' ∧ Same q q' ∧
      ∀ c i, i ∈ q'.readyInsts c ↔ i ∈ q.readyInsts c ∨ i = inst ∧ c = inst.opClass := by
  obtain ⟨q', hq', hlisted, heq⟩ := pushReady_listed h hnew
  refine ⟨q', hq', hlisted, ?_, fun c i => ?_⟩
  · rw [heq]
    exact ⟨⟨rfl, rfl, rfl⟩, rfl, rfl⟩
  · rw [heq]
    simp only [InstructionQueue.push]
    by_cases hc : c = inst.opClass
    · subst hc
      rw [Function.update_self, List.mem_orderedInsert]
      simp [or_comm]
    · simp [hc]

omit [FUPool F C] in
/-- A loop that adds instructions one after the other, while those of `rest` wait. -/
theorem addAll_spec {l rest : List (DynInst C)} (h : Listed q.listOrder q) (hapart : Apart (l ++ rest) q) :
    ∃ q', l.foldlM InstructionQueue.addReadyMemInst q = some q' ∧ Listed q'.listOrder q' ∧ Same q q' ∧
      Apart rest q' ∧ ∀ c i, i ∈ q'.readyInsts c ↔ i ∈ q.readyInsts c ∨ i ∈ l ∧ c = i.opClass := by
  induction l generalizing q with
  | nil => exact ⟨q, rfl, h, ⟨⟨rfl, rfl, rfl⟩, rfl, rfl⟩, hapart, fun c i => by simp⟩
  | cons inst l ih =>
    have hnodup := hapart.nodup
    rw [List.cons_append, List.map_cons, List.nodup_cons] at hnodup
    obtain ⟨q1, hq1, hlisted1, hsame1, hmem1⟩ :=
      addReadyMemInst_spec h (hapart.notReady inst List.mem_cons_self)
    have hapart1 : Apart (l ++ rest) q1 := by
      refine ⟨hnodup.2, ?_⟩
      rintro i hi ⟨c, j, hj, hji⟩
      rcases (hmem1 c j).1 hj with hj | ⟨rfl, -⟩
      · exact hapart.notReady i (List.mem_cons_of_mem inst hi) ⟨c, j, hj, hji⟩
      · exact hnodup.1 (List.mem_map.2 ⟨i, hi, hji.symm⟩)
    obtain ⟨q2, hq2, hlisted2, hsame2, hapart2, hmem2⟩ := ih hlisted1 hapart1
    refine ⟨q2, ?_, hlisted2, ⟨?_, ?_, ?_⟩, hapart2, fun c i => ?_⟩
    · rw [List.foldlM_cons, hq1]
      exact hq2
    · rw [hsame2.waiting.1, hsame2.waiting.2.1, hsame2.waiting.2.2]
      exact hsame1.waiting
    · exact hsame2.squashed.trans hsame1.squashed
    · exact hsame2.busy.trans hsame1.busy
    · rw [hmem2, hmem1, List.mem_cons]
      constructor
      · rintro ((hi | ⟨rfl, hc⟩) | ⟨hi, hc⟩)
        · exact .inl hi
        · exact .inr ⟨.inl rfl, hc⟩
        · exact .inr ⟨.inr hi, hc⟩
      · rintro (hi | ⟨rfl | hi, hc⟩)
        · exact .inl (.inl hi)
        · exact .inl (.inr ⟨rfl, hc⟩)
        · exact .inr ⟨hi, hc⟩

omit [FUPool F C] in
/-- What the loops at the start of `scheduleReadyInsts` leave: the instructions that they add are ready, and
the others wait as before. -/
theorem addWaiting_spec (h : Inv q) :
    ∃ q', q.addWaiting = some q' ∧ Inv q' ∧ q'.squashed = q.squashed ∧ q'.statFuBusy = q.statFuBusy ∧
      (∀ c, ∀ i ∈ q.readyInsts c, i ∈ q'.readyInsts c) ∧
      ∀ c, ∀ i ∈ q'.readyInsts c, i ∈ q.readyInsts c ∨ i ∈ q.waiting := by
  let taken := q.deferredMemInsts.filter q.translated
  let kept := q.deferredMemInsts.filter fun i => !q.translated i
  have hperm : q.waiting.Perm (taken ++ (q.retryMemInsts ++ (kept ++ q.blockedMemInsts))) := by
    have hdeferred : q.deferredMemInsts.Perm (taken ++ kept) :=
      (List.filter_append_perm q.translated q.deferredMemInsts).symm
    refine (hdeferred.append_right _).trans ?_
    rw [List.append_assoc]
    refine List.Perm.append_left taken ?_
    rw [← List.append_assoc, ← List.append_assoc]
    exact List.perm_append_comm.append_right _
  let q0 : InstructionQueue C F := { q with deferredMemInsts := kept }
  have hapart0 : Apart (taken ++ (q.retryMemInsts ++ (kept ++ q.blockedMemInsts))) q0 :=
    ⟨(hperm.map fun i => i.seqNum).nodup_iff.1 h.apart.nodup, fun i hi =>
      h.apart.notReady i (hperm.mem_iff.2 hi)⟩
  have hlisted0 : Listed q0.listOrder q0 := h.listed.congr rfl rfl rfl rfl
  obtain ⟨q1, hq1, hlisted1, hsame1, hapart1, hmem1⟩ := addAll_spec hlisted0 hapart0
  have hretry : q1.retryMemInsts = q.retryMemInsts := hsame1.waiting.2.1
  let q2 : InstructionQueue C F := { q1 with retryMemInsts := [] }
  have hlisted2 : Listed q2.listOrder q2 := hlisted1.congr rfl rfl rfl rfl
  have hapart2 : Apart (q.retryMemInsts ++ (kept ++ q.blockedMemInsts)) q2 :=
    ⟨hapart1.nodup, hapart1.notReady⟩
  obtain ⟨q3, hq3, hlisted3, hsame3, hapart3, hmem3⟩ := addAll_spec hlisted2 hapart2
  have hwaiting : q3.waiting = kept ++ q.blockedMemInsts := by
    rw [InstructionQueue.waiting, hsame3.waiting.1, hsame3.waiting.2.1, hsame3.waiting.2.2]
    change q1.deferredMemInsts ++ ([] ++ q1.blockedMemInsts) = _
    rw [hsame1.waiting.1, hsame1.waiting.2.2]
    rfl
  refine ⟨q3, ?_, ⟨hlisted3, hwaiting ▸ hapart3⟩, hsame3.squashed.trans hsame1.squashed,
    hsame3.busy.trans hsame1.busy, fun c i hi => ?_, fun c i hi => ?_⟩
  · unfold InstructionQueue.addWaiting
    rw [hq1, Option.bind_some, hretry]
    exact hq3
  · exact (hmem3 c i).2 (.inl ((hmem1 c i).2 (.inl hi)))
  · rcases (hmem3 c i).1 hi with hi | ⟨hi, -⟩
    · rcases (hmem1 c i).1 hi with hi | ⟨hi, -⟩
      · exact .inl hi
      · exact .inr (hperm.mem_iff.2 (List.mem_append_left _ hi))
    · exact .inr (hperm.mem_iff.2 (List.mem_append_right _ (List.mem_append_left _ hi)))

/-- **One call of `scheduleReadyInsts`.** -/
theorem scheduleReadyInsts_spec (h : Inv q) (totalWidth : Nat) :
    ∃ q' issued, q.scheduleReadyInsts totalWidth = some (q', issued) ∧ Inv q' ∧ OldestFirst q q' issued := by
  obtain ⟨q1, hq1, hinv1, hsq, hbusy, hkept, hcame⟩ := addWaiting_spec h
  obtain ⟨q', issued, hloop, hs⟩ := @scheduleLoop_spec _ _ _ _ totalWidth _ 0 _ [] _ hinv1.listed
    (Nat.le_refl _)
  refine ⟨q', issued, ?_, ⟨hs.listed, ?_⟩, ⟨hs.order, ?_, ?_, ?_⟩⟩
  · unfold InstructionQueue.scheduleReadyInsts
    rw [hq1, Option.bind_some]
    exact hloop
  · have hwaiting : q'.waiting = q1.waiting := by
      rw [InstructionQueue.waiting, hs.waiting.1, hs.waiting.2.1, hs.waiting.2.2]
      rfl
    rw [hwaiting]
    refine ⟨hinv1.apart.nodup, fun i hi => ?_⟩
    rintro ⟨c, j, hj, hji⟩
    exact hinv1.apart.notReady i hi ⟨c, j, hs.sub c j hj, hji⟩
  · intro i hi
    obtain ⟨⟨c, hin⟩, hns⟩ := hs.ready i hi
    refine ⟨?_, hsq ▸ hns⟩
    rcases hcame c i hin with hin | hin
    · exact .inl ⟨c, hin⟩
    · exact .inr hin
  · intro c i hi
    exact hsq ▸ hs.left c i (hkept c i hi)
  · intro j hj c i hi hlt
    rw [← hbusy]
    exact (hs.passedOver j hj c i hi hlt).resolve_left fun ⟨e, he, _⟩ => absurd he List.not_mem_nil

omit [FUPool F C] in
theorem Inv.push (h : Inv q) (hnew : Unused q inst.seqNum) : ∃ q', q.pushReady inst = some q' ∧ Inv q' := by
  obtain ⟨q', hq', hlisted, hsame, hmem⟩ := addReadyMemInst_spec h.listed hnew.1
  have hwaiting : q'.waiting = q.waiting := by
    rw [InstructionQueue.waiting, hsame.waiting.1, hsame.waiting.2.1, hsame.waiting.2.2]
    rfl
  refine ⟨q', hq', hlisted, ?_⟩
  rw [hwaiting]
  refine ⟨h.apart.nodup, ?_⟩
  rintro i hi ⟨c, j, hj, hji⟩
  rcases (hmem c j).1 hj with hj | ⟨rfl, -⟩
  · exact h.apart.notReady i hi ⟨c, j, hj, hji⟩
  · exact hnew.2 (List.mem_map.2 ⟨i, hi, hji.symm⟩)

omit [DecidableEq C] [FUPool F C] in
theorem Inv.wait {q' : InstructionQueue C F} (h : Inv q) (hnew : Unused q inst.seqNum)
    (hlisted : Listed q'.listOrder q') (hready : q'.readyInsts = q.readyInsts)
    (hperm : q'.waiting.Perm (inst :: q.waiting)) : Inv q' := by
  refine ⟨hlisted, ⟨(hperm.map fun i => i.seqNum).nodup_iff.2 ?_, fun i hi => ?_⟩⟩
  · rw [List.map_cons, List.nodup_cons]
    exact ⟨hnew.2, h.apart.nodup⟩
  · unfold Ready
    rw [hready]
    rcases List.mem_cons.1 (hperm.mem_iff.1 hi) with rfl | hi
    · exact hnew.1
    · exact h.apart.notReady i hi

/-- **One call.** -/
theorem call_inv {c : Call C F} (h : Inv q) (hc : Permitted q c) :
    ∃ q' issued, q.call c = some (q', issued) ∧ Inv q' := by
  have hsame : ∀ {q' : InstructionQueue C F}, q'.listOrder = q.listOrder → q'.readyInsts = q.readyInsts →
      q'.nextNode = q.nextNode → q'.readyIt = q.readyIt → q'.queueOnList = q.queueOnList →
      Listed q'.listOrder q' := by
    intro q' hlist hready hnext hit hon
    rw [hlist]
    exact h.listed.congr hready hnext hit hon
  cases c with
  | addIfReady inst =>
    by_cases hcan : q.canIssue inst.seqNum = true
    · by_cases hmem : inst.isMemRef = true
      · exact ⟨q, [], by simp [InstructionQueue.call, InstructionQueue.addIfReady, hcan, hmem], h⟩
      · obtain ⟨q', hq', hinv⟩ := h.push (hc hcan (by simpa using hmem))
        exact ⟨q', [], by simp [InstructionQueue.call, InstructionQueue.addIfReady, hcan, hmem, hq'], hinv⟩
    · exact ⟨q, [], by simp [InstructionQueue.call, InstructionQueue.addIfReady, hcan], h⟩
  | addReadyMemInst inst =>
    obtain ⟨q', hq', hinv⟩ := h.push hc
    exact ⟨q', [], by simp [InstructionQueue.call, InstructionQueue.addReadyMemInst, hq'], hinv⟩
  | deferMemInst inst =>
    refine ⟨_, [], rfl, h.wait hc (hsame rfl rfl rfl rfl rfl) rfl ?_⟩
    change ((q.deferredMemInsts ++ [inst]) ++ (q.retryMemInsts ++ q.blockedMemInsts)).Perm _
    rw [List.append_assoc]
    exact List.perm_middle
  | blockMemInst inst =>
    refine ⟨_, [], rfl, h.wait hc (hsame rfl rfl rfl rfl rfl) rfl ?_⟩
    change (q.deferredMemInsts ++ (q.retryMemInsts ++ (q.blockedMemInsts ++ [inst]))).Perm _
    rw [← List.append_assoc q.retryMemInsts, ← List.append_assoc]
    exact List.perm_append_singleton _ _
  | cacheUnblocked =>
    refine ⟨_, [], rfl, hsame rfl rfl rfl rfl rfl, ?_⟩
    have hwaiting : q.cacheUnblocked.waiting = q.waiting := by
      simp [InstructionQueue.waiting, InstructionQueue.cacheUnblocked]
    rw [hwaiting]
    exact ⟨h.apart.nodup, h.apart.notReady⟩
  | scheduleReadyInsts totalWidth =>
    obtain ⟨q', issued, hq', hinv, -⟩ := scheduleReadyInsts_spec h totalWidth
    exact ⟨q', issued, hq', hinv⟩
  | setStatus canIssue squashed translationCompleted =>
    exact ⟨_, [], rfl, hsame rfl rfl rfl rfl rfl, h.apart.nodup, h.apart.notReady⟩
  | setPool fuPool => exact ⟨_, [], rfl, hsame rfl rfl rfl rfl rfl, h.apart.nodup, h.apart.notReady⟩

/-- **The issue order list is oldest first.**  In every state that the calls reach, with instructions that
are in one place at a time, any change of status bits and any functional units, the list is strictly
increasing and has exactly the classes whose queues are not empty, each with the number of its oldest
instruction; every further call returns, so that no assertion fails; and `scheduleReadyInsts` of any width
issues oldest first. -/
theorem issue_order {fuPool : F} {q : InstructionQueue C F}
    (h : Run.Reaches InstructionQueue.step Permitted (InstructionQueue.new fuPool) q) :
    Consistent q ∧ (∀ c, Permitted q c → ∃ q', q.step c = some q') ∧
      ∀ totalWidth, ∃ q' issued, q.scheduleReadyInsts totalWidth = some (q', issued) ∧ OldestFirst q q' issued := by
  have hinv : Inv q := by
    refine h.inv (inv_new fuPool) fun q c q' hq hc hstep => ?_
    obtain ⟨q1, issued, hcall, hinv⟩ := call_inv hq hc
    rw [InstructionQueue.step, hcall] at hstep
    cases hstep
    exact hinv
  refine ⟨hinv.listed.consistent, fun c hc => ?_, fun totalWidth => ?_⟩
  · obtain ⟨q', issued, hcall, -⟩ := call_inv hinv hc
    exact ⟨q', by rw [InstructionQueue.step, hcall, Option.map_some]⟩
  · obtain ⟨q', issued, hcall, -, hs⟩ := scheduleReadyInsts_spec hinv totalWidth
    exact ⟨q', issued, hcall, hs⟩

/-- A pool of identical units, of which a number is free; class 0 needs none. -/
instance unitPool : FUPool Nat (Fin 3) where
  noOpClass := 0
  getUnit free _ := if free = 0 then (NoFreeFU, 0) else (free, free - 1)
  getOpLatency _ _ := 1
  isPipelined _ _ := true
  freeUnitNextCycle free _ := free

/-- Two ready instructions, of two classes. -/
def twoReady : Option (InstructionQueue (Fin 3) Nat) :=
  ((InstructionQueue.new 1).step (.addReadyMemInst ⟨7, 1, true⟩)).bind
    (InstructionQueue.step · (.addReadyMemInst ⟨3, 2, true⟩))

theorem twoReady_issues : (twoReady.bind fun q => q.scheduleReadyInsts 4).map Prod.snd = some [⟨3, 2, true⟩] := by
  decide +kernel

/-- With one free unit the older of the two is issued. -/
theorem issue_order_twoReady : ∃ q q', twoReady = some q ∧ Consistent q ∧
    q.scheduleReadyInsts 4 = some (q', [⟨3, 2, true⟩]) ∧ OldestFirst q q' [⟨3, 2, true⟩] := by
  let q0 : InstructionQueue (Fin 3) Nat := InstructionQueue.new 1
  obtain ⟨q1, hq1, hready, hwaiting⟩ : ∃ q1, q0.step (.addReadyMemInst ⟨7, 1, true⟩) = some q1 ∧
      q1.readyInsts = Function.update (fun _ => []) 1 [⟨7, 1, true⟩] ∧ q1.waiting = [] :=
    ⟨_, rfl, rfl, rfl⟩
  have hnew : Permitted q0 (.addReadyMemInst ⟨7, 1, true⟩) :=
    ⟨fun ⟨_, _, hi, _⟩ => absurd hi List.not_mem_nil, List.not_mem_nil⟩
  have hnew' : Permitted q1 (.addReadyMemInst ⟨3, 2, true⟩) := by
    constructor
    · rintro ⟨c, i, hi, heq⟩
      rw [hready] at hi
      by_cases hc : c = 1
      · subst hc
        rw [Function.update_self, List.mem_singleton] at hi
        rw [hi] at heq
        cases heq
      · rw [Function.update_of_ne hc] at hi
        exact absurd hi List.not_mem_nil
    · rw [hwaiting]
      exact List.not_mem_nil
  obtain ⟨-, hreturns, -⟩ := issue_order (Run.Reaches.refl.step hnew hq1)
  obtain ⟨q, hq⟩ := hreturns _ hnew'
  have htwo : twoReady = some q := by
    unfold twoReady
    rw [hq1]
    exact hq
  obtain ⟨hcons, -, hsched⟩ := issue_order ((Run.Reaches.refl.step hnew hq1).step hnew' hq)
  obtain ⟨q', issued, hcall, hs⟩ := hsched 4
  have hissued := twoReady_issues
  rw [htwo, Option.bind_some, hcall, Option.map_some, Option.some.injEq] at hissued
  subst hissued
  exact ⟨q, q', htwo, hcons, hcall, hs⟩

end Alpine.Cpu.Issue
