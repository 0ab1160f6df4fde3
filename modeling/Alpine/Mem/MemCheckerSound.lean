import Alpine.Mem.MemCheckerInv

/-!
# The check of a read

* `Scanned` — what a scan that found no match has seen.
* `inExpectedData_sound` — a read that an atomic register explains is expected, and the check fails no
  assertion, unless every write that is left started at the tick at which the read completes.
-/

namespace Alpine.Mem

open History

/-- The scan of some writes without a match. -/
structure Scanned (lastObs : Transaction) (start : Nat) (data : UInt8) (s s' : Scan)
    (ws : List Transaction) : Prop where
  data_ne : ∀ w ∈ ws, w.complete < lastObs.start ∨ w.data ≠ data
  overlap : s'.wcOverlap = true ↔
    s.wcOverlap = true ∧ ∀ w ∈ ws, w.complete < lastObs.start ∨ start < w.complete
  valid : s'.lastObsValid = true ↔ s.lastObsValid = true ∧
    ∀ w ∈ ws, w.complete < lastObs.start ∨ start < w.complete ∨ w.start ≤ lastObs.complete
  expected : s'.lastExpectedData = [] → ∀ w ∈ ws, w.complete < lastObs.start

section Scan

variable {lastObs : Transaction} {start : Nat} {data : UInt8}

theorem Scanned.refl (s : Scan) : Scanned lastObs start data s s [] := by
  constructor <;> simp

theorem Scanned.trans {s1 s2 s3 : Scan} {ws ws' : List Transaction}
    (h : Scanned lastObs start data s1 s2 ws) (h' : Scanned lastObs start data s2 s3 ws')
    (hne : s3.lastExpectedData = [] → s2.lastExpectedData = []) : Scanned lastObs start data s1 s3 (ws ++ ws') := by
  constructor
  · intro w hw
    rcases List.mem_append.1 hw with hw | hw
    · exact h.data_ne w hw
    · exact h'.data_ne w hw
  · rw [h'.overlap, h.overlap, List.forall_mem_append]
    tauto
  · rw [h'.valid, h.valid, List.forall_mem_append]
    tauto
  · intro he w hw
    rcases List.mem_append.1 hw with hw | hw
    · exact h.expected (hne he) w hw
    · exact h'.expected he w hw

theorem scanWrite_ok {s s' : Scan} {w : Transaction} (h : ByteTracker.scanWrite lastObs start data s w = .ok s') :
    Scanned lastObs start data s s' [w] ∧ (s'.lastExpectedData = [] → s.lastExpectedData = []) := by
  unfold ByteTracker.scanWrite at h
  by_cases hskip : w.complete < lastObs.start
  · rw [if_pos hskip] at h
    cases h
    refine ⟨?_, id⟩
    constructor <;> simp [hskip]
  · rw [if_neg hskip] at h
    by_cases hd : w.data = data
    · rw [if_pos hd] at h
      cases h
    · rw [if_neg hd] at h
      by_cases ho : w.complete > start
      · simp only [ho, if_true] at h
        cases h
        refine ⟨?_, fun he => absurd he (by simp)⟩
        constructor <;> simp [hskip, hd, ho]
      · simp only [ho, if_false] at h
        by_cases hv : lastObs.complete < w.start
        · rw [if_pos hv] at h
          cases h
          refine ⟨?_, fun he => absurd he (by simp)⟩
          constructor <;> simp [hskip, hd, ho, hv]
        · rw [if_neg hv] at h
          cases h
          refine ⟨?_, fun he => absurd he (by simp)⟩
          constructor <;> simp [hskip, hd, ho, not_lt.1 hv]

theorem scanCluster_ok : ∀ {ws : List Transaction} {s s' : Scan},
    ws.foldlM (ByteTracker.scanWrite lastObs start data) s = .ok s' →
      Scanned lastObs start data s s' ws ∧ (s'.lastExpectedData = [] → s.lastExpectedData = [])
  | [], s, s', h => by
    cases h
    exact ⟨.refl s, id⟩
  | w :: ws, s, s', h => by
    rw [List.foldlM_cons, bind_ok_iff] at h
    obtain ⟨s1, h1, h2⟩ := h
    obtain ⟨hw, hne⟩ := scanWrite_ok h1
    obtain ⟨hws, hne'⟩ := scanCluster_ok h2
    exact ⟨hw.trans hws hne', fun he => hne (hne' he)⟩

/-- A scan without a match has seen all clusters up to one that does not overlap. -/
theorem scanClusters_ok : ∀ {cs : List WriteCluster} {s s' : Scan}, s.wcOverlap = true →
    ByteTracker.scanClusters lastObs start data cs s = .ok s' →
      ∃ vs us, cs = vs ++ us ∧ Scanned lastObs start data s s' (vs.flatMap WriteCluster.writes) ∧
        (s'.lastExpectedData = [] → s.lastExpectedData = []) ∧ (us ≠ [] → s'.wcOverlap = false)
  | [], s, s', _, h => by
    cases h
    exact ⟨[], [], rfl, .refl s, id, fun h => (h rfl).elim⟩
  | c :: cs, s, s', ho, h => by
    simp only [ByteTracker.scanClusters, ho, if_true] at h
    cases hc : c.writes.foldlM (ByteTracker.scanWrite lastObs start data) s with
    | error e =>
      rw [hc] at h
      cases h
    | ok s1 =>
      rw [hc] at h
      simp only at h
      obtain ⟨hscan, hne⟩ := scanCluster_ok hc
      by_cases ho1 : s1.wcOverlap = true
      · obtain ⟨vs, us, hcs, hrest, hne', hstop⟩ := scanClusters_ok ho1 h
        refine ⟨c :: vs, us, by rw [hcs, List.cons_append], ?_, fun he => hne (hne' he), hstop⟩
        rw [List.flatMap_cons]
        exact hscan.trans hrest hne'
      · have hs : s1 = s' := by
          cases cs with
          | nil =>
            cases h
            rfl
          | cons c' cs =>
            rw [ByteTracker.scanClusters, if_neg ho1] at h
            cases h
            rfl
        subst hs
        refine ⟨[c], cs, rfl, ?_, hne, fun _ => by simpa using ho1⟩
        rw [List.flatMap_cons, List.flatMap_nil, List.append_nil]
        exact hscan

end Scan

/-- No observation, no write of the value, and no write that completed before: then the check asserts that
the writes that are left overlap the read, which they do not if the first of them started at the tick at
which it completes. -/
structure Crowded (b : ByteTracker) (start complete : Nat) (data : UInt8) : Prop where
  front : ∃ c, b.writeClusters.getLast? = some c ∧ c.start = complete
  unseen : ∀ o, lastCompletedTransaction Transaction.complete start b.readObservations = some o →
    o.complete = tickInitial
  other : ∀ c ∈ b.writeClusters, ∀ w ∈ c.writes, w.data ≠ data ∧ start < w.complete

section Sound

variable {H : List MemCall} {k : Nat} {b : ByteTracker} {ρ : Register Nat UInt8} {i0 σ s c : Nat} {d : UInt8}
  (hw : Wf H) (hl : Linearization H ρ) (hi : Inv H k b) (hs : At H i0 (.startRead σ s))
  (hk : At H k (.completeRead σ c d))

include hw hl hi hs hk

/-- A kept write that completed by the start of the read takes effect before it. -/
theorem kept_before {x : Transaction} (hx : WriteAt H k x) (hc : x.complete ≤ s) :
    x.serial ∈ ρ.writes ∧ ρ.at_ x.serial < ρ.at_ σ := by
  have hsf : s < tickFuture := hw.bound hs
  obtain ⟨j, hjk, hj⟩ := hx.completed (by omega)
  have hji : j < i0 := by
    rcases Nat.lt_trichotomy j i0 with h | h | h
    · exact h
    · subst h
      have heq := hj.symm.trans hs
      cases heq
    · -- it would have completed at the tick of the read's start, with the read outstanding
      have hle := hw.mono (Nat.le_of_lt h) hs hj
      have heq : x.complete = s := Nat.le_antisymm hc hle
      rw [heq] at hj
      obtain ⟨m, hm, t', v, hmj⟩ := hi.apart i0 j σ x.serial s h hjk hs hj
      have := hw.ends hmj hk rfl rfl
      omega
  obtain ⟨hmem, hat⟩ := hl.completed hj
  have hread := (hl.read hs hk).1
  have hcast : (j : ℚ) < i0 := Nat.cast_lt.2 hji
  exact ⟨hmem, hat.trans (hcast.trans hread)⟩

/-- The write that the read returns is kept. -/
theorem source_kept {u : Nat} (hu : ρ.Last (ρ.at_ σ) u) :
    ∃ c ∈ b.writeClusters, ∃ w ∈ c.writes, w.serial = u ∧ w.data = ρ.data u := by
  obtain ⟨hlo, hhi, _⟩ := hl.read hs hk
  obtain ⟨iu, tu, hiu, hiat⟩ := hl.started hu.mem
  have hiuk : iu < k := Nat.cast_lt.1 (hiat.trans (hu.lt.trans hhi))
  rcases hi.stored iu hiuk u tu (ρ.data u) hiu (fun j _ t' hab => hl.aborted hab hu.mem) with
    ⟨c, hc, w, hwc, hwu⟩ | ⟨j, _, t, hj, i, i', τ, t1, t2, v, hτ, hji, hi', hopen⟩
  · refine ⟨c, hc, w, hwc, hwu, ?_⟩
    obtain ⟨iw, _, hiw⟩ := ((hi.clusters c hc).writes w hwc).start
    rw [hwu] at hiw
    exact (hl.start hw hiw hu.mem).2
  · -- the write that superseded it would take effect after it and before the read
    have hs' : Open H k s := by
      refine ⟨i0, σ, hs, ?_⟩
      intro j hj t' v hend
      have := hw.ends hend hk rfl rfl
      omega
    have hi'0 : i' < i0 := hw.lt_of_tick hi' hs (hopen s hs')
    obtain ⟨hτmem, hτat⟩ := hl.completed hi'
    have hτσ : ρ.at_ τ < ρ.at_ σ := hτat.trans ((Nat.cast_lt.2 hi'0).trans hlo)
    have huτ : ρ.at_ u < ρ.at_ τ := hl.before hw hj hτ hτmem hji
    exact ((hu.le τ hτmem hτσ).not_gt huτ).elim

omit hl in
/-- The observation that the check compares with is the initial one or was complete before the read. -/
theorem obs_before {o : Transaction} (ho : o ∈ b.readObservations)
    (hlast : o.complete < s ∨ b.readObservations.getLast? = some o) :
    o = initialObs ∨ ∃ i j, At H i (.startRead o.serial o.start) ∧
      At H j (.completeRead o.serial o.complete o.data) ∧ i < j ∧ j < i0 ∧ o.complete < s := by
  by_cases h0 : o = initialObs
  · exact .inl h0
  · right
    have hos : o.complete < s := by
      rcases hlast with h | h
      · exact h
      · rcases hi.oldest o h with h | h
        · exact (h0 h).elim
        · refine h s ⟨i0, σ, hs, ?_⟩
          intro j hj t' v hend
          have := hw.ends hend hk rfl rfl
          omega
    rcases hi.obs o ho with h | ⟨i, j, _, hij, hstart, hend⟩
    · exact (h0 h).elim
    · exact ⟨i, j, hstart, hend, hij, hw.lt_of_tick hend hs hos, hos⟩

/-- The write that the read returns is not behind one that completed by the start of the read. -/
theorem source_visited {u : Nat} (hu : ρ.Last (ρ.at_ σ) u) {vs us : List WriteCluster} {x w : Transaction}
    (hcs : b.writeClusters = vs ++ us) (hx : x ∈ vs.flatMap WriteCluster.writes) (hxs : x.complete ≤ s)
    (hww : w ∈ us.flatMap WriteCluster.writes) : w.serial ≠ u := by
  intro hwu
  obtain ⟨cx, hcx, hxc⟩ := List.mem_flatMap.1 hx
  obtain ⟨cw, hcw, hwc⟩ := List.mem_flatMap.1 hww
  have hord := hi.ordered
  rw [hcs] at hord
  obtain ⟨j, i, hj, hix, hji⟩ := (List.pairwise_append.1 hord).2.2 cx hcx cw hcw x hxc w hwc
  have hmem : cx ∈ b.writeClusters := by
    rw [hcs]
    exact List.mem_append_left us hcx
  obtain ⟨hxm, hxσ⟩ := kept_before hw hl hi hs hk ((hi.clusters cx hmem).writes x hxc) hxs
  rw [hwu] at hj
  exact ((hu.le x.serial hxm hxσ).not_gt (hl.before hw hj hix hxm hji)).elim

/-- If the write that the read returns completed before the last observation started, no write came between
the two, and the observation has its value. -/
theorem source_observed {u : Nat} (hu : ρ.Last (ρ.at_ σ) u) {w o : Transaction} (hww : WriteAt H k w)
    (hwu : w.serial = u) {io jo : Nat} (hio : At H io (.startRead o.serial o.start))
    (hjo : At H jo (.completeRead o.serial o.complete o.data)) (hji : jo < i0) (hskip : w.complete < o.start) :
    o.data = ρ.data u ∧ ∀ x, WriteAt H k x → x.complete ≤ s → x.start ≤ o.complete := by
  obtain ⟨hlo, hhi, hreads⟩ := hl.read hs hk
  obtain ⟨holo, hohi, horeads⟩ := hl.read hio hjo
  have hof : o.start < tickFuture := hw.bound hio
  obtain ⟨jw, _, hjw⟩ := hww.completed (by omega)
  rw [hwu] at hjw
  have hjwo : jw < io := hw.lt_of_tick hjw hio hskip
  have huo : ρ.at_ u < ρ.at_ o.serial :=
    (hl.completed hjw).2.trans ((Nat.cast_lt.2 hjwo).trans holo)
  have hoσ : ρ.at_ o.serial < ρ.at_ σ := hohi.trans ((Nat.cast_lt.2 hji).trans hlo)
  constructor
  · have heq := horeads.eq hreads hoσ.le
      (fun x hx hle hlt' => ((hu.le x hx hlt').trans_lt huo).not_ge hle)
    rw [heq]
    exact (hreads.of_last hu).symm
  · intro x hx hxs
    by_contra hgt
    obtain ⟨hxm, hxσ⟩ := kept_before hw hl hi hs hk hx hxs
    obtain ⟨ix, _, hix⟩ := hx.start
    have hjx : jo < ix := hw.lt_of_tick hjo hix (Nat.lt_of_not_le hgt)
    have hox : ρ.at_ o.serial < ρ.at_ x.serial :=
      hohi.trans ((Nat.cast_lt.2 hjx).trans (hl.start hw hix hxm).1)
    exact (hu.le x.serial hxm hxσ).not_gt (huo.trans hox)

/-! ### After a scan without a match -/

variable {o : Transaction} {s' : Scan} {vs us : List WriteCluster}
  (ho : o ∈ b.readObservations) (hlast : o.complete < s ∨ b.readObservations.getLast? = some o)
  (hcs : b.writeClusters = vs ++ us)
  (hseen : Scanned o s d ⟨true, o.complete != tickInitial, []⟩ s' (vs.flatMap WriteCluster.writes))
  (hstop : us ≠ [] → s'.wcOverlap = false)

omit hw hl hs hk in
include hi hcs in
/-- What the scan has seen is kept. -/
theorem seen_kept {x : Transaction} (hx : x ∈ vs.flatMap WriteCluster.writes) : WriteAt H k x := by
  obtain ⟨cx, hcx, hxc⟩ := List.mem_flatMap.1 hx
  have hmem : cx ∈ b.writeClusters := by
    rw [hcs]
    exact List.mem_append_left us hcx
  exact (hi.clusters cx hmem).writes x hxc

include hcs hseen hstop in
/-- The scan has seen the write that the read returns. -/
theorem source_seen {u : Nat} (hu : ρ.Last (ρ.at_ σ) u) :
    ∃ w ∈ vs.flatMap WriteCluster.writes, w.serial = u ∧ w.data = ρ.data u := by
  obtain ⟨cw, hcw, w, hww, hwu, hwd⟩ := source_kept hw hl hi hs hk hu
  have hin : w ∈ b.writeClusters.flatMap WriteCluster.writes := List.mem_flatMap.2 ⟨cw, hcw, hww⟩
  rw [hcs, List.flatMap_append] at hin
  rcases List.mem_append.1 hin with h | h
  · exact ⟨w, h, hwu, hwd⟩
  · exfalso
    have hus : us ≠ [] := by
      rintro rfl
      cases h
    have hno := hstop hus
    have hbad : ¬ ∀ x ∈ vs.flatMap WriteCluster.writes, x.complete < o.start ∨ s < x.complete := by
      intro hall
      rw [hseen.overlap.2 ⟨rfl, hall⟩] at hno
      cases hno
    push Not at hbad
    obtain ⟨x, hx, _, hxs⟩ := hbad
    exact source_visited hw hl hi hs hk hu hcs hx hxs h hwu

include ho hlast hcs hseen hstop in
/-- If the register returns a write, the observation is newer than it and explains the read. -/
theorem observed_of_source {u : Nat} (hu : ρ.Last (ρ.at_ σ) u) (hd : ρ.data u = d) :
    s'.lastObsValid = true ∧ o.complete < s ∧ o.data = d := by
  obtain ⟨w, hvis, hwu, hwd⟩ := source_seen hw hl hi hs hk hcs hseen hstop hu
  have hskip : w.complete < o.start := by
    rcases hseen.data_ne w hvis with h | h
    · exact h
    · exact (h (hwd.trans hd)).elim
  rcases obs_before hw hi hs hk ho hlast with rfl | ⟨io, jo, hio, hjo, hij, hji, hos⟩
  · exact absurd hskip (Nat.not_lt_zero _)
  · obtain ⟨hdata, hold⟩ :=
      source_observed hw hl hi hs hk hu (seen_kept hi hcs hvis) hwu hio hjo hji hskip
    have hpos : o.complete ≠ tickInitial := by
      have hle : o.start ≤ o.complete := hw.mono (Nat.le_of_lt hij) hio hjo
      unfold tickInitial
      omega
    refine ⟨hseen.valid.2 ⟨by simpa using hpos, ?_⟩, hos, hdata.trans hd⟩
    intro x hx
    by_cases hxs : x.complete ≤ s
    · exact .inr (.inr (hold x (seen_kept hi hcs hx) hxs))
    · exact .inr (.inl (Nat.lt_of_not_le hxs))

/-- If nothing took effect before the read, all that is kept overlaps it. -/
theorem kept_overlaps (hnone : ∀ x ∈ ρ.writes, ¬ ρ.at_ x < ρ.at_ σ) {x : Transaction} (hx : WriteAt H k x) :
    s < x.complete := by
  by_contra hle
  obtain ⟨hxm, hxσ⟩ := kept_before hw hl hi hs hk hx (Nat.le_of_not_lt hle)
  exact hnone x.serial hxm hxσ

include ho hlast hseen in
/-- If nothing took effect before the read, an observation that is valid has the initial value. -/
theorem observed_of_initial (hnone : ∀ x ∈ ρ.writes, ¬ ρ.at_ x < ρ.at_ σ) (hvalid : s'.lastObsValid = true) :
    o.complete < s ∧ o.data = ρ.init := by
  obtain ⟨hlo, hhi, _⟩ := hl.read hs hk
  have hpos := (hseen.valid.1 hvalid).1
  rcases obs_before hw hi hs hk ho hlast with rfl | ⟨io, jo, hio, hjo, _, hji, hos⟩
  · exact absurd hpos (by decide)
  · obtain ⟨_, hohi, horeads⟩ := hl.read hio hjo
    have hoσ : ρ.at_ o.serial < ρ.at_ σ := hohi.trans ((Nat.cast_lt.2 hji).trans hlo)
    exact ⟨hos, horeads.eq (.inr ⟨rfl, hnone⟩) hoσ.le fun x hx _ hlt => hnone x hx hlt⟩

include hcs hseen hstop in
/-- If nothing took effect before the read, the scan reaches the end. -/
theorem scan_ends (hnone : ∀ x ∈ ρ.writes, ¬ ρ.at_ x < ρ.at_ σ) : us = [] ∧ s'.wcOverlap = true := by
  have hwc : s'.wcOverlap = true :=
    hseen.overlap.2 ⟨rfl, fun x hx => .inr (kept_overlaps hw hl hi hs hk hnone (seen_kept hi hcs hx))⟩
  refine ⟨?_, hwc⟩
  by_contra hne
  rw [hstop hne] at hwc
  cases hwc

/-- The newest cluster then ends after the start of the read. -/
theorem newest_overlaps (hnone : ∀ x ∈ ρ.writes, ¬ ρ.at_ x < ρ.at_ σ) {rbegin : WriteCluster}
    (hrb : rbegin ∈ b.writeClusters) : s < rbegin.complete := by
  by_cases hf : rbegin.complete = tickFuture
  · rw [hf]
    exact hw.bound hs
  · obtain ⟨x, hx⟩ := List.exists_mem_of_ne_nil _ ((hi.clusters rbegin hrb).closed hf).2.2
    have hover := kept_overlaps hw hl hi hs hk hnone ((hi.clusters rbegin hrb).writes x hx)
    exact hover.trans_le ((hi.clusters rbegin hrb).write_closed hf hx).2

include hlast hseen in
/-- The oldest one starts before the read completes, unless the writes are crowded there. -/
theorem oldest_overlaps (hclear : ¬ Crowded b s c d) (hnone : ∀ x ∈ ρ.writes, ¬ ρ.at_ x < ρ.at_ σ)
    (hobs : lastCompletedTransaction Transaction.complete s b.readObservations = some o)
    (ho : o ∈ b.readObservations) (hinit : o.complete = tickInitial) (hvs : b.writeClusters = vs)
    {begin_ : WriteCluster} (hbegin : b.writeClusters.getLast? = some begin_) : begin_.start < c := by
  have hkept : ∀ cx ∈ b.writeClusters, ∀ x ∈ cx.writes, WriteAt H k x :=
    fun cx hcx x hx => (hi.clusters cx hcx).writes x hx
  obtain ⟨i, hik, c', hc', hle⟩ := (hi.clusters begin_ (List.mem_of_getLast? hbegin)).start
  refine Nat.lt_of_le_of_ne (hle.trans (hw.mono (Nat.le_of_lt hik) hc' hk)) fun heq => ?_
  refine hclear ⟨⟨begin_, hbegin, heq⟩, ?_, ?_⟩
  · intro o' ho'
    rw [hobs] at ho'
    cases ho'
    exact hinit
  · intro cx hcx x hx
    refine ⟨?_, kept_overlaps hw hl hi hs hk hnone (hkept cx hcx x hx)⟩
    rcases hseen.data_ne x (List.mem_flatMap.2 ⟨cx, hvs ▸ hcx, hx⟩) with h | h
    · -- nothing is older than an observation at the first tick
      rcases obs_before hw hi hs hk ho hlast with rfl | ⟨io, jo, hio, hjo, hij, _, _⟩
      · exact absurd h (Nat.not_lt_zero _)
      · have hle : o.start ≤ o.complete := hw.mono (Nat.le_of_lt hij) hio hjo
        unfold tickInitial at hinit
        omega
    · exact h

/-- **A read that the register explains is expected.** -/
theorem inExpectedData_sound (hclear : ¬ Crowded b s c d) : ∃ e, b.inExpectedData s c d = .ok (true, e) := by
  obtain ⟨_, _, hreads⟩ := hl.read hs hk
  obtain ⟨o, hobs, ho, hlast⟩ := @lastCompletedTransaction_spec _ Transaction.complete s
    b.readObservations hi.obsNe
  unfold ByteTracker.inExpectedData
  simp only [hobs]
  cases hscan : ByteTracker.scanClusters o s d b.writeClusters ⟨true, o.complete != tickInitial, []⟩ with
  | error e => exact ⟨e, rfl⟩
  | ok s' =>
    simp only
    obtain ⟨vs, us, hcs, hseen, _, hstop⟩ := scanClusters_ok rfl hscan
    refine ⟨s'.lastExpectedData, ?_⟩
    rcases hreads with ⟨u, hu, hd⟩ | ⟨rfl, hnone⟩
    · obtain ⟨hvalid, hos, hdata⟩ := observed_of_source hw hl hi hs hk ho hlast hcs hseen hstop hu hd
      simp only [hvalid, if_true, checkThat, Nat.le_of_lt hos, hdata]
      rfl
    · by_cases hvalid : s'.lastObsValid = true
      · obtain ⟨hos, hdata⟩ := observed_of_initial hw hl hi hs hk ho hlast hseen hnone hvalid
        simp only [hvalid, if_true, checkThat, Nat.le_of_lt hos, hdata]
        rfl
      · obtain ⟨hus, hwc⟩ := scan_ends hw hl hi hs hk hcs hseen hstop hnone
        have hinit : o.complete = tickInitial := by
          by_contra hne
          refine hvalid (hseen.valid.2 ⟨by simpa using hne, fun x hx => .inr (.inl ?_)⟩)
          exact kept_overlaps hw hl hi hs hk hnone (seen_kept hi hcs hx)
        rw [hus, List.append_nil] at hcs
        rw [if_neg hvalid]
        cases hbc : b.writeClusters with
        | nil =>
          rw [hbc] at hscan
          cases hscan
          simp only [List.getLast?_nil, List.head?_nil, if_true, checkThat, hinit]
          rfl
        | cons rbegin rest =>
          obtain ⟨begin_, hbegin⟩ : ∃ x, (rbegin :: rest).getLast? = some x :=
            ⟨_, List.getLast?_eq_some_getLast (List.cons_ne_nil rbegin rest)⟩
          have hfirst : begin_.start < c :=
            oldest_overlaps hw hl hi hs hk hlast hseen hclear hnone hobs ho hinit hcs (hbc ▸ hbegin)
          have hnewest : s < rbegin.complete :=
            newest_overlaps hw hl hi hs hk hnone (hbc ▸ List.mem_cons_self)
          simp only [hbegin, List.head?_cons, hwc, checkThat, hfirst, gt_iff_lt, hnewest, and_self, if_true]
          rfl

end Sound

end Alpine.Mem
