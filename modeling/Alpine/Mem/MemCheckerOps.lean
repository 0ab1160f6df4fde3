import Alpine.Mem.MemCheckerSound

/-!
# The calls keep the invariant

* `inv_empty` — a new tracker.
* `Inv.startRead`, `Inv.startWrite`, `Inv.completeWrite`, `Inv.abortWrite`, `Inv.completeRead` — each call of a
  well-formed history succeeds and keeps the invariant.
-/

namespace Alpine.Mem

open History

variable {H : List MemCall} {k : Nat} {b : ByteTracker}

theorem inv_empty (H : List MemCall) : Inv H 0 {} where
  reads := fun r hr => (nomatch hr)
  readsAll := fun i hi => absurd hi (Nat.not_lt_zero i)
  readsSorted := .nil
  obs := by
    intro o ho
    rw [List.mem_singleton.1 ho]
    exact .inl rfl
  oldest := by
    intro o ho
    cases ho
    exact .inl rfl
  obsNe := List.cons_ne_nil _ _
  clusters := fun c hc => (nomatch hc)
  closed := fun c hc => (nomatch hc)
  ordered := .nil
  stored := fun i hi => absurd hi (Nat.not_lt_zero i)
  apart := fun i j σ τ t _ hj => absurd hj (Nat.not_lt_zero j)

theorem WriteAt.next {w : Transaction} {c : MemCall} (h : WriteAt H k w) (hk : At H k c)
    (hne : c.ends ≠ some w.serial) : WriteAt H (k + 1) w where
  start := by
    obtain ⟨i, hi, hs⟩ := h.start
    exact ⟨i, by omega, hs⟩
  complete := by
    rcases h.complete with ⟨hf, hno⟩ | ⟨j, hj, hc⟩
    · refine .inl ⟨hf, fun j hj d hd => ?_⟩
      rcases Nat.lt_succ_iff_lt_or_eq.1 hj with hj | rfl
      · exact hno j hj d hd
      · have heq := hk.symm.trans hd
        cases heq
        exact hne
    · exact .inr ⟨j, by omega, hc⟩

theorem ClusterInv.next {c : WriteCluster} {d : MemCall} (h : ClusterInv H k c) (hk : At H k d)
    (hne : ∀ w ∈ c.writes, d.ends ≠ some w.serial) : ClusterInv H (k + 1) c where
  writes := fun w hw => (h.writes w hw).next hk (hne w hw)
  nodup := h.nodup
  count := h.count
  max := h.max
  closed := h.closed
  start := by
    obtain ⟨i, hi, c', hc', hle⟩ := h.start
    exact ⟨i, by omega, c', hc', hle⟩

/-- The observations and what has been superseded do not depend on the next call. -/
theorem Inv.obs_next (hi : Inv H k b) : ∀ o ∈ b.readObservations, o = initialObs ∨ ∃ i j, j < k + 1 ∧ i < j ∧
    At H i (.startRead o.serial o.start) ∧ At H j (.completeRead o.serial o.complete o.data) := by
  intro o ho
  rcases hi.obs o ho with h | ⟨i, j, hj, hrest⟩
  · exact .inl h
  · exact .inr ⟨i, j, by omega, hrest⟩

theorem Inv.oldest_next (hi : Inv H k b) : ∀ o, b.readObservations.getLast? = some o →
    o = initialObs ∨ ∀ t, Open H (k + 1) t → o.complete < t := by
  intro o ho
  rcases hi.oldest o ho with h | h
  · exact .inl h
  · exact .inr fun t ht => h t (ht.mono (Nat.le_succ k))

/-- The reads stay as they are when the next call neither starts nor completes one. -/
theorem Inv.reads_next (hi : Inv H k b) {c : MemCall} (hk : At H k c)
    (hc : ∀ σ t v, c ≠ .completeRead σ t v) : ∀ r ∈ b.outstandingReads,
      (∃ i < k + 1, At H i (.startRead r.serial r.start)) ∧
      ∀ j < k + 1, ∀ t v, ¬ At H j (.completeRead r.serial t v) := by
  intro r hr
  obtain ⟨⟨i, hik, hs⟩, hno⟩ := hi.reads r hr
  refine ⟨⟨i, by omega, hs⟩, fun j hj t v hend => ?_⟩
  rcases Nat.lt_succ_iff_lt_or_eq.1 hj with hj | rfl
  · exact hno j hj t v hend
  · have heq := hk.symm.trans hend
    exact hc _ _ _ (Option.some.inj heq)

theorem Inv.readsAll_next (hi : Inv H k b) {c : MemCall} (hk : At H k c) (hc : ∀ σ t, c ≠ .startRead σ t) :
    ∀ i < k + 1, ∀ σ t, At H i (.startRead σ t) → (∀ j < k + 1, ∀ t' v, ¬ At H j (.completeRead σ t' v)) →
      ∃ r ∈ b.outstandingReads, r.serial = σ ∧ r.start = t := by
  intro i hik σ t hs hno
  rcases Nat.lt_succ_iff_lt_or_eq.1 hik with hik | rfl
  · exact hi.readsAll i hik σ t hs fun j hj => hno j (by omega)
  · have heq := hk.symm.trans hs
    exact (hc _ _ (Option.some.inj heq)).elim

theorem Inv.apart_next (hi : Inv H k b) {c : MemCall} (hk : At H k c)
    (hc : ∀ τ t, c = .completeWrite τ t → ∀ r ∈ b.outstandingReads, r.start ≠ t) :
    ∀ i j σ τ t, i < j → j < k + 1 → At H i (.startRead σ t) → At H j (.completeWrite τ t) →
      ∃ m < j, ∃ t' v, At H m (.completeRead σ t' v) := by
  intro i j σ τ t hij hj hs he
  rcases Nat.lt_succ_iff_lt_or_eq.1 hj with hj | rfl
  · exact hi.apart i j σ τ t hij hj hs he
  · have heq := Option.some.inj (hk.symm.trans he)
    by_contra hno
    obtain ⟨r, hr, _, hrt⟩ := hi.readsAll i hij σ t hs fun m hm t' v hm' => hno ⟨m, hm, t', v, hm'⟩
    exact hc τ t heq r hr hrt

theorem Inv.stored_next (hi : Inv H k b) {c : MemCall} (hk : At H k c) (hc : ∀ σ t v, c ≠ .startWrite σ t v)
    {cs : List WriteCluster} (hkeep : ∀ c ∈ b.writeClusters, ∀ w ∈ c.writes,
      (∀ j < k + 1, ∀ t, ¬ At H j (.abortWrite w.serial t)) → ∃ c' ∈ cs, ∃ w' ∈ c'.writes, w'.serial = w.serial) :
    ∀ i < k + 1, ∀ σ t v, At H i (.startWrite σ t v) → (∀ j < k + 1, ∀ t', ¬ At H j (.abortWrite σ t')) →
      (∃ c ∈ cs, ∃ w ∈ c.writes, w.serial = σ) ∨ Superseded H (k + 1) σ := by
  intro i hik σ t v hs hno
  rcases Nat.lt_succ_iff_lt_or_eq.1 hik with hik | rfl
  · rcases hi.stored i hik σ t v hs fun j hj => hno j (by omega) with ⟨c', hc', w, hw, rfl⟩ | h
    · exact .inl (hkeep c' hc' w hw hno)
    · exact .inr (h.mono (Nat.le_succ k))
  · have heq := hk.symm.trans hs
    exact (hc _ _ _ (Option.some.inj heq)).elim

variable {σ : Nat}

/-- No kept write has the serial of a read or of a call still to come. -/
theorem Inv.kept_ne (hw : Wf H) (hi : Inv H k b) {c : WriteCluster} {w : Transaction}
    (hc : c ∈ b.writeClusters) (hwc : w ∈ c.writes) {i : Nat} {d : MemCall} (hd : At H i d)
    (hσ : d.starts = some σ) (hne : k ≤ i ∨ ∀ τ t v, d ≠ .startWrite τ t v) : w.serial ≠ σ := by
  rintro rfl
  obtain ⟨j, hj, hs⟩ := ((hi.clusters c hc).writes w hwc).start
  obtain ⟨rfl, heq⟩ := hw.start_unique hs hd rfl hσ
  rcases hne with h | h
  · omega
  · exact h _ _ _ heq.symm

theorem insertRead_last {t : Transaction} : ∀ {l : List Transaction}, (∀ r ∈ l, r.serial < t.serial) →
    ByteTracker.insertRead t l = l ++ [t]
  | [], _ => rfl
  | x :: xs, h => by
    have hx := h x List.mem_cons_self
    rw [ByteTracker.insertRead, if_neg (by omega), if_neg (by omega),
      insertRead_last fun r hr => h r (List.mem_cons_of_mem x hr)]
    rfl

variable {t : Nat}

theorem Inv.startRead (hw : Wf H) (hi : Inv H k b) (hk : At H k (.startRead σ t)) :
    Inv H (k + 1) (b.startRead σ t) := by
  have hlast : (b.startRead σ t).outstandingReads =
      b.outstandingReads ++ [{ serial := σ, start := t, complete := tickFuture }] := by
    refine insertRead_last ?_
    intro r hr
    obtain ⟨⟨i, hik, hs⟩, _⟩ := hi.reads r hr
    exact hw.starts hik hs hk rfl rfl
  have hno : ∀ j < k + 1, ∀ t' v, ¬ At H j (.completeRead σ t' v) := by
    intro j hj t' v he
    obtain ⟨i, hij, t'', hs⟩ := hw.readEnd he
    obtain ⟨rfl, _⟩ := hw.start_unique hs hk rfl rfl
    omega
  refine ⟨?_, ?_, ?_, hi.obs_next, hi.oldest_next, hi.obsNe, ?_, hi.closed, hi.ordered, ?_,
    hi.apart_next hk (fun _ _ h => (nomatch h))⟩
  · intro r hr
    rw [hlast] at hr
    rcases List.mem_append.1 hr with hr | hr
    · exact hi.reads_next hk (fun _ _ _ h => (nomatch h)) r hr
    · rw [List.mem_singleton.1 hr]
      exact ⟨⟨k, by omega, hk⟩, hno⟩
  · intro i hik σ' t' hs hnot
    rw [hlast]
    rcases Nat.lt_succ_iff_lt_or_eq.1 hik with hik | rfl
    · obtain ⟨r, hr, hrest⟩ := hi.readsAll i hik σ' t' hs fun j hj => hnot j (by omega)
      exact ⟨r, List.mem_append_left _ hr, hrest⟩
    · have heq := hk.symm.trans hs
      cases heq
      exact ⟨_, List.mem_append_right _ (List.mem_singleton_self _), rfl, rfl⟩
  · rw [hlast, List.pairwise_append]
    refine ⟨hi.readsSorted, List.pairwise_singleton _ _, ?_⟩
    intro r hr r' hr'
    rw [List.mem_singleton.1 hr']
    obtain ⟨⟨i, hik, hs⟩, _⟩ := hi.reads r hr
    exact hw.starts hik hs hk rfl rfl
  · intro c hc
    exact (hi.clusters c hc).next hk fun w _ h => (nomatch h)
  · exact hi.stored_next hk (fun _ _ _ h => (nomatch h)) fun c hc w hw _ => ⟨c, hc, w, hw, rfl⟩

theorem Inv.completeRead (hw : Wf H) {ρ : Register Nat UInt8} (hl : Linearization H ρ) (hi : Inv H k b)
    {v : UInt8} (hk : At H k (.completeRead σ t v))
    (hclear : ∀ r ∈ b.outstandingReads, r.serial = σ → ¬ Crowded b r.start t v) :
    ∃ b', b.completeRead t σ t v = .ok (b', true) ∧ Inv H (k + 1) b' := by
  obtain ⟨i, hik, t', hs⟩ := hw.readEnd hk
  have honce : ∀ j < k, ∀ t v, ¬ At H j (.completeRead σ t v) := by
    intro j hj t v he
    have := hw.ends he hk rfl rfl
    omega
  obtain ⟨r, hr, hrσ, hrt⟩ := hi.readsAll i hik σ t' hs honce
  have hfind : ∃ it, b.outstandingReads.find? (·.serial == σ) = some it ∧ it ∈ b.outstandingReads ∧
      it.serial = σ ∧ it.start = t' := by
    cases hf : b.outstandingReads.find? (·.serial == σ) with
    | none => exact absurd (List.find?_eq_none.1 hf r hr) (by simp [hrσ])
    | some it =>
      have hmem := List.mem_of_find?_eq_some hf
      have hser : it.serial = σ := by simpa using List.find?_some hf
      obtain ⟨⟨i', _, hs'⟩, _⟩ := hi.reads it hmem
      rw [hser] at hs'
      obtain ⟨_, heq⟩ := hw.start_unique hs' hs rfl rfl
      cases heq
      exact ⟨it, rfl, hmem, hser, rfl⟩
  obtain ⟨it, hf, hmem, hser, rfl⟩ := hfind
  obtain ⟨e, he⟩ := inExpectedData_sound hw hl hi hs hk (hclear it hmem hser)
  have hnext : Inv H (k + 1) { b with
      outstandingReads := b.outstandingReads.filter (·.serial != σ)
      readObservations := { serial := σ, start := it.start, complete := t, data := v } :: b.readObservations
      lastExpectedData := e } := by
    refine ⟨?_, ?_, hi.readsSorted.filter _, ?_, ?_, List.cons_ne_nil _ _, ?_, hi.closed, hi.ordered,
      hi.stored_next hk (fun _ _ _ h => (nomatch h)) fun c hc w hw _ => ⟨c, hc, w, hw, rfl⟩,
      hi.apart_next hk fun _ _ h => (nomatch h)⟩
    · intro r' hr'
      obtain ⟨hr', hne⟩ := List.mem_filter.1 hr'
      obtain ⟨⟨j, hj, hjs⟩, hno⟩ := hi.reads r' hr'
      refine ⟨⟨j, by omega, hjs⟩, fun m hm u w hend => ?_⟩
      rcases Nat.lt_succ_iff_lt_or_eq.1 hm with hm | rfl
      · exact hno m hm u w hend
      · have heq := hk.symm.trans hend
        cases heq
        simp at hne
    · intro j hj σ' u hjs hno
      have hne : σ' ≠ σ := by
        rintro rfl
        exact hno k (Nat.lt_succ_self k) t v hk
      obtain ⟨r', hr', hr'σ, hr't⟩ := hi.readsAll_next hk (fun _ _ h => (nomatch h)) j hj σ' u hjs hno
      exact ⟨r', List.mem_filter.2 ⟨hr', by simp [hr'σ, hne]⟩, hr'σ, hr't⟩
    · intro o ho
      rcases List.mem_cons.1 ho with rfl | ho
      · exact .inr ⟨i, k, Nat.lt_succ_self k, hik, hs, hk⟩
      · exact hi.obs_next o ho
    · intro o ho
      refine hi.oldest_next o ?_
      obtain ⟨x, xs, hxs⟩ := List.exists_cons_of_ne_nil hi.obsNe
      simp only [hxs, List.getLast?_cons_cons] at ho ⊢
      exact ho
    · intro c hc
      refine (hi.clusters c hc).next hk fun w hwc h => ?_
      refine hi.kept_ne hw hc hwc hs rfl (.inr fun _ _ _ h => (nomatch h)) ?_
      exact (Option.some.inj h).symm
  obtain ⟨b', hprune, hinv⟩ := hnext.prune hw hk
  refine ⟨b', ?_, hinv⟩
  have he' : ByteTracker.inExpectedData { b with
      outstandingReads := b.outstandingReads.filter (·.serial != σ) } it.start t v = .ok (true, e) := he
  simp only [ByteTracker.completeRead, hf, bind, Except.bind, he']
  rw [show (MemCall.completeRead σ t v).tick = t from rfl] at hprune
  rw [hprune]
  rfl

/-! ## Writes -/

/-- The incomplete cluster is a new one in front, or the newest one. -/
theorem Inv.incomplete (hi : Inv H k b) :
    (b.incompleteWriteCluster = ({}, b.writeClusters) ∧ ∀ c ∈ b.writeClusters, c.complete ≠ tickFuture) ∨
    ∃ c cs, b.writeClusters = c :: cs ∧ b.incompleteWriteCluster = (c, cs) ∧ c.complete = tickFuture := by
  have htail := hi.closed
  unfold ByteTracker.incompleteWriteCluster WriteCluster.isComplete
  cases hb : b.writeClusters with
  | nil => exact .inl ⟨rfl, fun c hc => (nomatch hc)⟩
  | cons c cs =>
    rw [hb] at htail
    by_cases hc : c.complete = tickFuture
    · exact .inr ⟨c, cs, rfl, by simp [hc], hc⟩
    · refine .inl ⟨by simp [hc], ?_⟩
      intro c' hc'
      rcases List.mem_cons.1 hc' with rfl | hc'
      · exact hc
      · exact htail c' hc'

theorem WriteCluster.startWrite_eq {c : WriteCluster} {v : UInt8} (hc : c.complete = tickFuture)
    (hs : c.start = tickFuture ∨ c.start ≤ t) (hfind : ∀ w ∈ c.writes, w.serial ≠ σ) :
    c.startWrite σ t v = .ok { c with
      start := if c.start = tickFuture then t else c.start
      numIncomplete := c.numIncomplete + 1
      writes := c.writes ++ [{ serial := σ, start := t, complete := tickFuture, data := v }] } := by
  have hnone : ∀ s n, WriteCluster.find { c with start := s, numIncomplete := n } σ = none := by
    intro s n
    refine List.find?_eq_none.2 fun w hw => ?_
    simpa using hfind w hw
  have hle : (if c.start = tickFuture then t else c.start) ≤ t := by
    split
    · exact Nat.le.refl
    · omega
  unfold WriteCluster.startWrite
  simp only [checkThat, WriteCluster.isComplete, hc, bne_self_eq_false, Bool.false_eq_true, not_false_eq_true,
    if_true, hle, ne_eq, not_true_eq_false, if_false, bind, Except.bind, pure, Except.pure]
  rw [← hc, hnone]
  rfl

theorem writeAt_new (hw : Wf H) {v : UInt8} (hk : At H k (.startWrite σ t v)) :
    WriteAt H (k + 1) { serial := σ, start := t, complete := tickFuture, data := v } where
  start := ⟨k, Nat.lt_succ_self k, hk⟩
  complete := by
    refine .inl ⟨rfl, fun j hj d hd he => ?_⟩
    have hstart : ∃ i < j, ∃ d', At H i d' ∧ d'.starts = some σ := by
      cases d with
      | startRead => cases he
      | startWrite => cases he
      | completeRead =>
        cases he
        obtain ⟨i, hij, t', hs⟩ := hw.readEnd hd
        exact ⟨i, hij, _, hs, rfl⟩
      | completeWrite =>
        cases he
        obtain ⟨i, hij, t', v', hs⟩ := hw.writeEnd hd
        exact ⟨i, hij, _, hs, rfl⟩
      | abortWrite =>
        cases he
        obtain ⟨i, hij, t', v', hs⟩ := hw.abortEnd hd
        exact ⟨i, hij, _, hs, rfl⟩
    obtain ⟨i, hij, d', hd', hσ⟩ := hstart
    obtain ⟨rfl, _⟩ := hw.start_unique hd' hk hσ rfl
    omega

theorem Inv.startWrite (hw : Wf H) (hi : Inv H k b) {v : UInt8} (hk : At H k (.startWrite σ t v)) :
    ∃ b', b.startWrite σ t v = .ok b' ∧ Inv H (k + 1) b' := by
  have hne : ∀ {c w}, c ∈ b.writeClusters → w ∈ c.writes → w.serial ≠ σ :=
    fun hc hwc => hi.kept_ne hw hc hwc hk rfl (.inl Nat.le.refl)
  have hnew := writeAt_new hw hk
  have hbefore : ∀ {c w}, c ∈ b.writeClusters → c.complete ≠ tickFuture → w ∈ c.writes →
      Before H w { serial := σ, start := t, complete := tickFuture, data := v } := by
    intro c w hc hcf hwc
    obtain ⟨hwf, _⟩ := (hi.clusters c hc).write_closed hcf hwc
    obtain ⟨j, hj, hend⟩ := ((hi.clusters c hc).writes w hwc).completed hwf
    exact ⟨j, k, hend, hk, hj⟩
  have hold : ∀ c ∈ b.writeClusters, ClusterInv H (k + 1) c :=
    fun c hc => (hi.clusters c hc).next hk fun w _ h => (nomatch h)
  have hstored : ∀ {cs : List WriteCluster}, (∃ c ∈ cs, ∃ w ∈ c.writes, w.serial = σ) →
      (∀ c ∈ b.writeClusters, ∀ w ∈ c.writes, ∃ c' ∈ cs, ∃ w' ∈ c'.writes, w'.serial = w.serial) →
      ∀ i < k + 1, ∀ σ t v, At H i (.startWrite σ t v) → (∀ j < k + 1, ∀ t', ¬ At H j (.abortWrite σ t')) →
        (∃ c ∈ cs, ∃ w ∈ c.writes, w.serial = σ) ∨ Superseded H (k + 1) σ := by
    intro cs hσ hkeep i hik σ' t' v' hs hno
    rcases Nat.lt_succ_iff_lt_or_eq.1 hik with hik | rfl
    · rcases hi.stored i hik σ' t' v' hs fun j hj => hno j (by omega) with ⟨c, hc, w, hwc, rfl⟩ | h
      · exact .inl (hkeep c hc w hwc)
      · exact .inr (h.mono (Nat.le_succ k))
    · have heq := hk.symm.trans hs
      cases heq
      exact .inl hσ
  rcases hi.incomplete with ⟨hinc, hclosed⟩ | ⟨c, cs, hb, hinc, hcf⟩
  · have hrun := WriteCluster.startWrite_eq (c := {}) (t := t) (v := v) rfl (.inl rfl) fun w (hw : w ∈ []) =>
      show w.serial ≠ σ from (nomatch hw)
    refine ⟨_, by simp only [ByteTracker.startWrite, hinc, hrun, bind, Except.bind]; rfl, ?_⟩
    refine ⟨hi.reads_next hk (fun _ _ _ h => (nomatch h)), hi.readsAll_next hk (fun _ _ h => (nomatch h)),
      hi.readsSorted, hi.obs_next, hi.oldest_next, hi.obsNe, ?_, hclosed, ?_, hstored ?_ ?_,
      hi.apart_next hk fun _ _ h => (nomatch h)⟩
    · intro c hc
      rcases List.mem_cons.1 hc with rfl | hc
      · refine ⟨?_, ?_, rfl, ?_, fun h => (h rfl).elim, ⟨k, Nat.lt_succ_self k, _, hk, Nat.le.refl⟩⟩
        · intro w hwc
          rw [List.mem_singleton.1 hwc]
          exact hnew
        · simp
        · intro w hwc hwf
          rw [List.mem_singleton.1 hwc] at hwf
          exact (hwf rfl).elim
      · exact hold c hc
    · refine List.pairwise_cons.2 ⟨?_, hi.ordered⟩
      intro c hc w hwc x hx
      rw [List.mem_singleton.1 hwc]
      exact hbefore hc (hclosed c hc) hx
    · exact ⟨_, List.mem_cons_self, _, List.mem_singleton_self _, rfl⟩
    · exact fun c hc w hwc => ⟨c, List.mem_cons_of_mem _ hc, w, hwc, rfl⟩
  · have hcm : c ∈ b.writeClusters := by
      rw [hb]
      exact List.mem_cons_self
    have hci := hold c hcm
    obtain ⟨i, hik, d, hd, hcd⟩ := (hi.clusters c hcm).start
    have hct : c.start ≤ t := hcd.trans (hw.mono (Nat.le_of_lt hik) hd hk)
    have hrun := WriteCluster.startWrite_eq (v := v) hcf (.inr hct) fun w hwc => hne hcm hwc
    have hord := hi.ordered
    have hclosed := hi.closed
    rw [hb] at hord hclosed
    refine ⟨_, by simp only [ByteTracker.startWrite, hinc, hrun, bind, Except.bind]; rfl, ?_⟩
    refine ⟨hi.reads_next hk (fun _ _ _ h => (nomatch h)), hi.readsAll_next hk (fun _ _ h => (nomatch h)),
      hi.readsSorted, hi.obs_next, hi.oldest_next, hi.obsNe, ?_, hclosed, ?_, hstored ?_ ?_,
      hi.apart_next hk fun _ _ h => (nomatch h)⟩
    · intro c' hc'
      rcases List.mem_cons.1 hc' with rfl | hc'
      · refine ⟨?_, ?_, ?_, ?_, fun h => (h hcf).elim, ?_⟩
        · intro w hwc
          rcases List.mem_append.1 hwc with hwc | hwc
          · exact hci.writes w hwc
          · rw [List.mem_singleton.1 hwc]
            exact hnew
        · rw [List.map_append, List.nodup_append]
          refine ⟨hci.nodup, by simp, ?_⟩
          intro x hx y hy
          obtain ⟨w, hwc, rfl⟩ := List.mem_map.1 hx
          rw [List.map_singleton, List.mem_singleton] at hy
          rw [hy]
          exact hne hcm hwc
        · rw [List.filter_append, List.length_append, ← hci.count]
          simp
        · intro w hwc hwf
          rcases List.mem_append.1 hwc with hwc | hwc
          · exact hci.max w hwc hwf
          · rw [List.mem_singleton.1 hwc] at hwf
            exact (hwf rfl).elim
        · have hcf' : c.start ≠ tickFuture := by
            have := hw.bound hk
            change t < tickFuture at this
            omega
          rw [if_neg hcf']
          exact hci.start
      · refine hold c' ?_
        rw [hb]
        exact List.mem_cons_of_mem c hc'
    · obtain ⟨hhead, hrest⟩ := List.pairwise_cons.1 hord
      refine List.pairwise_cons.2 ⟨?_, hrest⟩
      intro c' hc' w hwc x hx
      rcases List.mem_append.1 hwc with hwc | hwc
      · exact hhead c' hc' w hwc x hx
      · rw [List.mem_singleton.1 hwc]
        refine hbefore ?_ (hclosed c' hc') hx
        rw [hb]
        exact List.mem_cons_of_mem c hc'
    · exact ⟨_, List.mem_cons_self, _, List.mem_append_right _ (List.mem_singleton_self _), rfl⟩
    · intro c' hc' w hwc
      rw [hb] at hc'
      rcases List.mem_cons.1 hc' with rfl | hc'
      · exact ⟨_, List.mem_cons_self, w, List.mem_append_left _ hwc, rfl⟩
      · exact ⟨c', List.mem_cons_of_mem _ hc', w, hwc, rfl⟩

/-- The write that ends is in the newest cluster, and that one is incomplete. -/
theorem Inv.ending (hw : Wf H) (hi : Inv H k b) {i : Nat} {v : UInt8} {d : MemCall} (hik : i < k)
    (hs : At H i (.startWrite σ t v)) (hk : At H k d) (hd : d.ends = some σ) :
    ∃ c cs w, b.writeClusters = c :: cs ∧ b.incompleteWriteCluster = (c, cs) ∧ c.complete = tickFuture ∧
      w ∈ c.writes ∧ w.serial = σ ∧ w.complete = tickFuture ∧ c.find σ = some w ∧
      ∀ c' ∈ cs, ∀ x ∈ c'.writes, x.serial ≠ σ := by
  have honce : ∀ {j : Nat} {e : MemCall}, At H j e → e.ends = some σ → j = k :=
    fun he heσ => hw.ends he hk heσ hd
  have hkept : ∃ c ∈ b.writeClusters, ∃ w ∈ c.writes, w.serial = σ := by
    rcases hi.stored i hik σ t v hs fun j hj t' he => by
        have := honce he rfl
        omega with h | ⟨j, hj, t', he, _⟩
    · exact h
    · have := honce he rfl
      omega
  obtain ⟨c, hc, w, hwc, hwσ⟩ := hkept
  have hwf : w.complete = tickFuture := by
    by_contra hne
    obtain ⟨j, hj, he⟩ := ((hi.clusters c hc).writes w hwc).completed hne
    rw [hwσ] at he
    have := honce he rfl
    omega
  have hcf : c.complete = tickFuture := by
    by_contra hne
    exact ((hi.clusters c hc).write_closed hne hwc).1 hwf
  rcases hi.incomplete with ⟨_, hclosed⟩ | ⟨c', cs, hb, hinc, hcf'⟩
  · exact (hclosed c hc hcf).elim
  · have hcc : c = c' := by
      have hcl := hi.closed
      rw [hb] at hc hcl
      rcases List.mem_cons.1 hc with h | h
      · exact h
      · exact (hcl c h hcf).elim
    subst hcc
    refine ⟨c, cs, w, hb, hinc, hcf, hwc, hwσ, hwf, ?_, ?_⟩
    · unfold WriteCluster.find
      cases hf : c.writes.find? (·.serial == σ) with
      | none => exact absurd (List.find?_eq_none.1 hf w hwc) (by simp [hwσ])
      | some x =>
        have hxσ : x.serial = σ := by simpa using List.find?_some hf
        rw [List.inj_on_of_nodup_map (hi.clusters c hc).nodup (List.mem_of_find?_eq_some hf) hwc
          (hxσ.trans hwσ.symm)]
    · intro c' hc' x hx hxσ
      have hcl := hi.closed
      have hmem : c' ∈ b.writeClusters := by
        rw [hb]
        exact List.mem_cons_of_mem c hc'
      rw [hb] at hcl
      obtain ⟨hxf, _⟩ := (hi.clusters c' hmem).write_closed (hcl c' hc') hx
      obtain ⟨j, hj, he⟩ := ((hi.clusters c' hmem).writes x hx).completed hxf
      rw [hxσ] at he
      have := honce he rfl
      omega

/-- One incomplete write less, of those with different serials. -/
theorem length_incomplete (htf : t ≠ tickFuture) : ∀ {ws : List Transaction} {w : Transaction},
    (ws.map Transaction.serial).Nodup → w ∈ ws → w.serial = σ → w.complete = tickFuture →
    ((ws.map fun w => if w.serial = σ then { w with complete := t } else w).filter
      fun w => w.complete = tickFuture).length + 1 = (ws.filter fun w => w.complete = tickFuture).length ∧
    ((ws.filter (·.serial != σ)).filter fun w => w.complete = tickFuture).length + 1 =
      (ws.filter fun w => w.complete = tickFuture).length
  | [], w, _, hw, _, _ => (nomatch hw)
  | x :: xs, w, hnd, hw, hwσ, hwf => by
    rw [List.map_cons, List.nodup_cons] at hnd
    obtain ⟨hx, hnd⟩ := hnd
    by_cases hxσ : x.serial = σ
    · have hxs : ∀ y ∈ xs, y.serial ≠ σ := by
        intro y hy h
        exact hx (List.mem_map.2 ⟨y, hy, h.trans hxσ.symm⟩)
      have hxw : x = w := by
        rcases List.mem_cons.1 hw with h | h
        · exact h.symm
        · exact (hxs w h hwσ).elim
      subst hxw
      have hmap : (xs.map fun w => if w.serial = σ then { w with complete := t } else w) = xs := by
        refine (List.map_congr_left (g := id) fun y hy => ?_).trans (List.map_id xs)
        exact if_neg (hxs y hy)
      have hfilter : xs.filter (·.serial != σ) = xs := by
        rw [List.filter_eq_self]
        intro y hy
        simpa using hxs y hy
      rw [List.map_cons, hmap, List.filter_cons_of_neg (l := xs) (by simpa [hxσ] using htf),
        List.filter_cons_of_pos (l := xs) (by simpa using hwf),
        List.filter_cons_of_neg (l := xs) (by simp [hxσ]), hfilter]
      exact ⟨rfl, rfl⟩
    · have hwxs : w ∈ xs := by
        rcases List.mem_cons.1 hw with h | h
        · exact (hxσ (h ▸ hwσ)).elim
        · exact h
      obtain ⟨h1, h2⟩ := length_incomplete htf hnd hwxs hwσ hwf
      rw [List.map_cons, if_neg hxσ, List.filter_cons_of_pos (l := xs) (p := (·.serial != σ)) (by simpa using hxσ)]
      by_cases hxf : x.complete = tickFuture
      · simp only [List.filter_cons, hxf, decide_true, if_true, List.length_cons]
        omega
      · simp only [List.filter_cons, hxf, decide_false, Bool.false_eq_true, if_false]
        omega

theorem ClusterInv.completeWrite {c : WriteCluster} (hci : ClusterInv H k c)
    (hk : At H k (.completeWrite σ t)) (htf : t ≠ tickFuture) (hcf : c.complete = tickFuture)
    {w : Transaction} (hwc : w ∈ c.writes) (hwσ : w.serial = σ) (hwf : w.complete = tickFuture)
    (hfind : c.find σ = some w) : ∃ c', c.completeWrite σ t = .ok c' ∧ ClusterInv H (k + 1) c' ∧
      c'.writes = c.writes.map fun w => if w.serial = σ then { w with complete := t } else w := by
  have hwrites : ∀ x ∈ c.writes.map fun w => if w.serial = σ then { w with complete := t } else w,
      WriteAt H (k + 1) x := by
    intro x hx
    obtain ⟨y, hy, rfl⟩ := List.mem_map.1 hx
    have hyi := hci.writes y hy
    by_cases hyσ : y.serial = σ
    · rw [if_pos hyσ]
      obtain ⟨i, hik, hs⟩ := hyi.start
      refine ⟨⟨i, by omega, hs⟩, .inr ⟨k, Nat.lt_succ_self k, ?_⟩⟩
      rw [hyσ]
      exact hk
    · rw [if_neg hyσ]
      exact hyi.next hk fun h => hyσ (Option.some.inj h).symm
  have hserial : (c.writes.map fun w => if w.serial = σ then { w with complete := t } else w).map
      Transaction.serial = c.writes.map Transaction.serial := by
    rw [List.map_map]
    refine List.map_congr_left fun x _ => ?_
    simp only [Function.comp_apply]
    split <;> rfl
  have hmax : ∀ x ∈ c.writes.map fun w => if w.serial = σ then { w with complete := t } else w,
      x.complete ≠ tickFuture → x.complete ≤ if c.completeMax < t then t else c.completeMax := by
    intro x hx hxf
    obtain ⟨y, hy, rfl⟩ := List.mem_map.1 hx
    by_cases hyσ : y.serial = σ
    · simp only [if_pos hyσ]
      split <;> omega
    · simp only [if_neg hyσ] at hxf ⊢
      have := hci.max y hy hxf
      split <;> omega
  have hcount : c.numIncomplete - 1 = ((c.writes.map fun w =>
      if w.serial = σ then { w with complete := t } else w).filter fun w => w.complete = tickFuture).length := by
    have h := (length_incomplete htf hci.nodup hwc hwσ hwf).1
    rw [hci.count]
    omega
  have hstart : ∃ i < k + 1, ∃ d, At H i d ∧ c.start ≤ d.tick := by
    obtain ⟨i, hik, d, hd, hle⟩ := hci.start
    exact ⟨i, by omega, d, hd, hle⟩
  have hne : (c.writes.map fun w => if w.serial = σ then { w with complete := t } else w) ≠ [] := by
    rw [ne_eq, List.map_eq_nil_iff]
    exact List.ne_nil_of_mem hwc
  unfold WriteCluster.completeWrite
  simp only [hfind, checkThat, hwf, if_true, bind, Except.bind]
  split
  · rename_i hzero
    exact ⟨_, rfl, ⟨hwrites, hserial ▸ hci.nodup, hcount, hmax, fun _ => ⟨rfl, hzero, hne⟩, hstart⟩, rfl⟩
  · exact ⟨_, rfl, ⟨hwrites, hserial ▸ hci.nodup, hcount, hmax, fun h => (h hcf).elim, hstart⟩, rfl⟩

theorem Inv.completeWrite (hw : Wf H) (hi : Inv H k b) (hk : At H k (.completeWrite σ t))
    (hclear : ∀ r ∈ b.outstandingReads, r.start ≠ t) : ∃ b', b.completeWrite t σ t = .ok b' ∧ Inv H (k + 1) b' := by
  obtain ⟨i, hik, t', v, hs⟩ := hw.writeEnd hk
  obtain ⟨c, cs, w, hb, hinc, hcf, hwc, hwσ, hwf, hfind, hother⟩ := hi.ending hw hik hs hk rfl
  have hcm : c ∈ b.writeClusters := by
    rw [hb]
    exact List.mem_cons_self
  have htf : t ≠ tickFuture := Nat.ne_of_lt (hw.bound hk)
  obtain ⟨c', hrun, hci, hwrites⟩ :=
    (hi.clusters c hcm).completeWrite hk htf hcf hwc hwσ hwf hfind
  have hord := hi.ordered
  have hclosed := hi.closed
  rw [hb] at hord hclosed
  have hnext : Inv H (k + 1) { b with writeClusters := c' :: cs } := by
    refine ⟨hi.reads_next hk (fun _ _ _ h => (nomatch h)), hi.readsAll_next hk (fun _ _ h => (nomatch h)),
      hi.readsSorted, hi.obs_next, hi.oldest_next, hi.obsNe, ?_, hclosed, ?_,
      hi.stored_next hk (fun _ _ _ h => (nomatch h)) ?_, hi.apart_next hk ?_⟩
    · intro x hx
      rcases List.mem_cons.1 hx with rfl | hx
      · exact hci
      · refine (hi.clusters x ?_).next hk fun y hy h => hother x hx y hy (Option.some.inj h).symm
        rw [hb]
        exact List.mem_cons_of_mem c hx
    · obtain ⟨hhead, hrest⟩ := List.pairwise_cons.1 hord
      refine List.pairwise_cons.2 ⟨?_, hrest⟩
      intro x hx y hy z hz
      rw [hwrites] at hy
      obtain ⟨y', hy', rfl⟩ := List.mem_map.1 hy
      have hbefore := hhead x hx y' hy' z hz
      split
      · exact hbefore
      · exact hbefore
    · intro x hx y hy _
      rw [hb] at hx
      rcases List.mem_cons.1 hx with rfl | hx
      · refine ⟨c', List.mem_cons_self, if y.serial = σ then { y with complete := t } else y, ?_, ?_⟩
        · rw [hwrites]
          exact List.mem_map_of_mem hy
        · split <;> rfl
      · exact ⟨x, List.mem_cons_of_mem _ hx, y, hy, rfl⟩
    · intro τ t'' heq
      cases heq
      exact hclear
  obtain ⟨b', hprune, hinv⟩ := hnext.prune hw hk
  refine ⟨b', ?_, hinv⟩
  simp only [ByteTracker.completeWrite, hinc, hrun, bind, Except.bind]
  exact hprune

theorem Inv.abortWrite (hw : Wf H) (hi : Inv H k b) (hk : At H k (.abortWrite σ t)) :
    Inv H (k + 1) (b.abortWrite σ) := by
  obtain ⟨i, hik, t', v, hs⟩ := hw.abortEnd hk
  obtain ⟨c, cs, w, hb, hinc, hcf, hwc, hwσ, hwf, hfind, hother⟩ := hi.ending hw hik hs hk rfl
  have hcm : c ∈ b.writeClusters := by
    rw [hb]
    exact List.mem_cons_self
  have hci := hi.clusters c hcm
  have hord := hi.ordered
  have hclosed := hi.closed
  rw [hb] at hord hclosed
  have hcount : c.numIncomplete - 1 =
      ((c.writes.filter (·.serial != σ)).filter fun w => w.complete = tickFuture).length := by
    have h := (length_incomplete (t := 0) (by decide) hci.nodup hwc hwσ hwf).2
    rw [hci.count]
    omega
  have hwrites : ∀ x ∈ c.writes.filter (·.serial != σ), x ∈ c.writes ∧ x.serial ≠ σ := by
    intro x hx
    obtain ⟨hx, hne⟩ := List.mem_filter.1 hx
    exact ⟨hx, by simpa using hne⟩
  have hci' : ClusterInv H (k + 1) (c.abortWrite σ) ∧
      (c.abortWrite σ).writes = c.writes.filter (·.serial != σ) := by
    have hw' : ∀ x ∈ c.writes.filter (·.serial != σ), WriteAt H (k + 1) x := by
      intro x hx
      obtain ⟨hx, hne⟩ := hwrites x hx
      exact (hci.writes x hx).next hk fun h => hne (Option.some.inj h).symm
    have hnd : ((c.writes.filter (·.serial != σ)).map Transaction.serial).Nodup :=
      hci.nodup.sublist (List.filter_sublist.map _)
    have hmax : ∀ x ∈ c.writes.filter (·.serial != σ), x.complete ≠ tickFuture → x.complete ≤ c.completeMax :=
      fun x hx => hci.max x (hwrites x hx).1
    have hstart : ∃ i < k + 1, ∃ d, At H i d ∧ c.start ≤ d.tick := by
      obtain ⟨i, hik, d, hd, hle⟩ := hci.start
      exact ⟨i, by omega, d, hd, hle⟩
    unfold WriteCluster.abortWrite
    simp only [hfind]
    split
    · rename_i hz
      exact ⟨⟨hw', hnd, hcount, hmax, fun _ => ⟨rfl, hz.1, hz.2⟩, hstart⟩, rfl⟩
    · exact ⟨⟨hw', hnd, hcount, hmax, fun h => (h hcf).elim, hstart⟩, rfl⟩
  obtain ⟨hci', hwr⟩ := hci'
  have heq : b.abortWrite σ = { b with writeClusters := c.abortWrite σ :: cs } := by
    unfold ByteTracker.abortWrite
    rw [hinc]
  rw [heq]
  refine ⟨hi.reads_next hk (fun _ _ _ h => (nomatch h)), hi.readsAll_next hk (fun _ _ h => (nomatch h)),
    hi.readsSorted, hi.obs_next, hi.oldest_next, hi.obsNe, ?_, hclosed, ?_,
    hi.stored_next hk (fun _ _ _ h => (nomatch h)) ?_, hi.apart_next hk fun _ _ h => (nomatch h)⟩
  · intro x hx
    rcases List.mem_cons.1 hx with rfl | hx
    · exact hci'
    · refine (hi.clusters x ?_).next hk fun y hy h => hother x hx y hy (Option.some.inj h).symm
      rw [hb]
      exact List.mem_cons_of_mem c hx
  · obtain ⟨hhead, hrest⟩ := List.pairwise_cons.1 hord
    refine List.pairwise_cons.2 ⟨?_, hrest⟩
    intro x hx y hy z hz
    rw [hwr] at hy
    exact hhead x hx y (hwrites y hy).1 z hz
  · intro x hx y hy hno
    rw [hb] at hx
    rcases List.mem_cons.1 hx with rfl | hx
    · have hyσ : y.serial ≠ σ := by
        rintro rfl
        exact hno k (Nat.lt_succ_self k) t hk
      refine ⟨_, List.mem_cons_self, y, ?_, rfl⟩
      rw [hwr]
      exact List.mem_filter.2 ⟨hy, by simpa using hyσ⟩
    · exact ⟨x, List.mem_cons_of_mem _ hx, y, hy, rfl⟩

end Alpine.Mem
