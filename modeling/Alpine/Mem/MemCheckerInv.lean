import Alpine.Mem.MemHistory
import Alpine.Lib.Outcome

/-!
# The tracker in step with its history

* `Inv` — what the outstanding reads, the observations and the clusters of a tracker are, in terms of the
  calls so far.  A write that is no longer kept is superseded: another one followed it and completed
  before every read that has not.
* `inv_empty`, `Inv.step` — it holds at the start, and each call keeps it and fails no assertion but the one
  of a read's check.
-/

namespace Alpine.Mem

open History

/-- The initial observation. -/
def initialObs : Transaction where
  serial := 0
  start := tickInitial
  complete := tickInitial

variable (H : List MemCall) (k : Nat)

/-- Some read that started at `t` has not completed before the call `k`. -/
def Open (t : Nat) : Prop :=
  ∃ i σ, At H i (.startRead σ t) ∧ ∀ j < k, ∀ t' v, ¬ At H j (.completeRead σ t' v)

/-- The kept write is one of the calls before `k`, with its completion if that is one. -/
structure WriteAt (w : Transaction) : Prop where
  start : ∃ i < k, At H i (.startWrite w.serial w.start w.data)
  complete : (w.complete = tickFuture ∧ ∀ j < k, ∀ c, At H j c → c.ends ≠ some w.serial) ∨
    ∃ j < k, At H j (.completeWrite w.serial w.complete)

/-- The write `x` completed before `w` started. -/
def Before (x w : Transaction) : Prop :=
  ∃ j i, At H j (.completeWrite x.serial x.complete) ∧ At H i (.startWrite w.serial w.start w.data) ∧ j < i

/-- After the write `σ` another one started, and completed before every open read started. -/
def Superseded (σ : Nat) : Prop :=
  ∃ j < k, ∃ t, At H j (.completeWrite σ t) ∧ ∃ i i' τ t1 t2 v, At H i (.startWrite τ t1 v) ∧ j < i ∧
    At H i' (.completeWrite τ t2) ∧ ∀ s, Open H k s → t2 < s

structure ClusterInv (c : WriteCluster) : Prop where
  writes : ∀ w ∈ c.writes, WriteAt H k w
  nodup : (c.writes.map Transaction.serial).Nodup
  count : c.numIncomplete = (c.writes.filter fun w => w.complete = tickFuture).length
  max : ∀ w ∈ c.writes, w.complete ≠ tickFuture → w.complete ≤ c.completeMax
  closed : c.complete ≠ tickFuture → c.complete = c.completeMax ∧ c.numIncomplete = 0 ∧ c.writes ≠ []
  start : ∃ i < k, ∃ c', At H i c' ∧ c.start ≤ c'.tick

structure Inv (b : ByteTracker) : Prop where
  reads : ∀ r ∈ b.outstandingReads, (∃ i < k, At H i (.startRead r.serial r.start)) ∧
    ∀ j < k, ∀ t v, ¬ At H j (.completeRead r.serial t v)
  readsAll : ∀ i < k, ∀ σ t, At H i (.startRead σ t) → (∀ j < k, ∀ t' v, ¬ At H j (.completeRead σ t' v)) →
    ∃ r ∈ b.outstandingReads, r.serial = σ ∧ r.start = t
  readsSorted : b.outstandingReads.Pairwise fun r r' => r.serial < r'.serial
  obs : ∀ o ∈ b.readObservations, o = initialObs ∨ ∃ i j, j < k ∧ i < j ∧
    At H i (.startRead o.serial o.start) ∧ At H j (.completeRead o.serial o.complete o.data)
  oldest : ∀ o, b.readObservations.getLast? = some o → o = initialObs ∨ ∀ t, Open H k t → o.complete < t
  obsNe : b.readObservations ≠ []
  clusters : ∀ c ∈ b.writeClusters, ClusterInv H k c
  closed : ∀ c ∈ b.writeClusters.tail, c.complete ≠ tickFuture
  ordered : b.writeClusters.Pairwise fun c c' => ∀ w ∈ c.writes, ∀ x ∈ c'.writes, Before H x w
  stored : ∀ i < k, ∀ σ t v, At H i (.startWrite σ t v) → (∀ j < k, ∀ t', ¬ At H j (.abortWrite σ t')) →
    (∃ c ∈ b.writeClusters, ∃ w ∈ c.writes, w.serial = σ) ∨ Superseded H k σ
  apart : ∀ i j σ τ t, i < j → j < k → At H i (.startRead σ t) → At H j (.completeWrite τ t) →
    ∃ m < j, ∃ t' v, At H m (.completeRead σ t' v)

variable {H k}

theorem Open.mono {k' t : Nat} (h : k ≤ k') (ho : Open H k' t) : Open H k t := by
  obtain ⟨i, σ, hi, hno⟩ := ho
  exact ⟨i, σ, hi, fun j hj => hno j (by omega)⟩

theorem Superseded.mono {k' σ : Nat} (h : k ≤ k') (hs : Superseded H k σ) : Superseded H k' σ := by
  obtain ⟨j, hjk, t, hj, i, i', τ, t1, t2, v, hi, hji, hi', hopen⟩ := hs
  exact ⟨j, by omega, t, hj, i, i', τ, t1, t2, v, hi, hji, hi', fun s hs => hopen s (hs.mono h)⟩

theorem WriteAt.completed {w : Transaction} (h : WriteAt H k w) (hc : w.complete ≠ tickFuture) :
    ∃ j < k, At H j (.completeWrite w.serial w.complete) := by
  rcases h.complete with ⟨hf, _⟩ | hj
  · exact (hc hf).elim
  · exact hj

/-- In a closed cluster every write has completed, and not after the cluster. -/
theorem ClusterInv.write_closed {c : WriteCluster} (h : ClusterInv H k c) (hc : c.complete ≠ tickFuture)
    {w : Transaction} (hw : w ∈ c.writes) : w.complete ≠ tickFuture ∧ w.complete ≤ c.complete := by
  obtain ⟨hmax, hnum, _⟩ := h.closed hc
  have hne : w.complete ≠ tickFuture := by
    intro hf
    have hmem : w ∈ c.writes.filter fun w => w.complete = tickFuture := by
      rw [List.mem_filter]
      exact ⟨hw, by simpa using hf⟩
    have hcount := h.count
    rw [hnum] at hcount
    rw [List.length_eq_zero_iff.1 hcount.symm] at hmem
    cases hmem
  rw [hmax]
  exact ⟨hne, h.max w hw hne⟩

/-! ## Looking back in a list -/

section LookBack

variable {α : Type} {complete : α → Nat} {before : Nat}

theorem lastCompletedTransaction_spec : ∀ (l : List α), l ≠ [] →
    ∃ x, lastCompletedTransaction complete before l = some x ∧ x ∈ l ∧ (complete x < before ∨ l.getLast? = some x)
  | [], h => (h rfl).elim
  | [x], _ => ⟨x, rfl, List.mem_singleton_self x, .inr rfl⟩
  | x :: y :: rest, _ => by
    unfold lastCompletedTransaction
    split
    · obtain ⟨z, hz, hmem, hlast⟩ := lastCompletedTransaction_spec (y :: rest) (List.cons_ne_nil y rest)
      refine ⟨z, hz, List.mem_cons_of_mem x hmem, ?_⟩
      rw [List.getLast?_cons_cons]
      exact hlast
    · rename_i h
      exact ⟨x, rfl, List.mem_cons_self, .inl (by omega)⟩

theorem eraseBefore_spec : ∀ (l : List α),
    ∃ rest, l = eraseBefore complete before l ++ rest ∧ (l ≠ [] → eraseBefore complete before l ≠ []) ∧
      (rest ≠ [] → ∃ x, (eraseBefore complete before l).getLast? = some x ∧ complete x < before)
  | [] => ⟨[], rfl, fun h => (h rfl).elim, fun h => (h rfl).elim⟩
  | [x] => ⟨[], rfl, fun _ => List.cons_ne_nil x [], fun h => (h rfl).elim⟩
  | x :: y :: rest => by
    unfold eraseBefore
    split
    · obtain ⟨r, heq, hne, hlast⟩ := eraseBefore_spec (y :: rest)
      refine ⟨r, by rw [List.cons_append, ← heq], fun _ => List.cons_ne_nil _ _, fun hr => ?_⟩
      obtain ⟨z, hz, hlt⟩ := hlast hr
      refine ⟨z, ?_, hlt⟩
      rw [List.getLast?_cons, hz]
      rfl
    · rename_i h
      exact ⟨y :: rest, rfl, fun _ => List.cons_ne_nil x [], fun _ => ⟨x, rfl, by omega⟩⟩

end LookBack

/-! ## Pruning -/

/-- The oldest that pruning keeps is older than every open read. -/
theorem pruneTick_le (hw : Wf H) {b : ByteTracker} (hi : Inv H (k + 1) b) {c : MemCall} (hk : At H k c) {t : Nat}
    (ho : Open H (k + 1) t) : b.pruneTick c.tick ≤ t := by
  obtain ⟨i, σ, hs, hno⟩ := ho
  unfold ByteTracker.pruneTick
  cases hb : b.outstandingReads with
  | nil =>
    simp only
    by_cases hik : i < k + 1
    · obtain ⟨r, hr, _⟩ := hi.readsAll i hik σ t hs hno
      rw [hb] at hr
      cases hr
    · exact hw.mono (by omega) hk hs
  | cons first rest =>
    simp only
    have hfirst : first ∈ b.outstandingReads := by
      rw [hb]
      exact List.mem_cons_self
    obtain ⟨⟨j, hj, hjs⟩, _⟩ := hi.reads first hfirst
    by_cases hik : i < k + 1
    · obtain ⟨r, hr, hrσ, hrt⟩ := hi.readsAll i hik σ t hs hno
      have hsort := hi.readsSorted
      rw [hb] at hr hsort
      rcases List.mem_cons.1 hr with rfl | hr
      · exact hrt.le
      · have hlt := List.rel_of_pairwise_cons hsort hr
        have hji : j ≤ i := by
          by_contra hgt
          have := hw.starts (Nat.lt_of_not_le hgt) hs hjs rfl rfl
          omega
        exact hw.mono hji hjs hs
    · exact hw.mono (by omega) hjs hs

theorem Inv.prune (hw : Wf H) {b : ByteTracker} (hi : Inv H (k + 1) b) {c : MemCall} (hk : At H k c) :
    ∃ b', b.pruneTransactions c.tick = .ok b' ∧ Inv H (k + 1) b' := by
  have hle : ∀ t, Open H (k + 1) t → b.pruneTick c.tick ≤ t := fun t => pruneTick_le hw hi hk
  have hfut : b.pruneTick c.tick ≤ tickFuture := by
    unfold ByteTracker.pruneTick
    cases hb : b.outstandingReads with
    | nil => exact Nat.le_of_lt (hw.bound hk)
    | cons first rest =>
      obtain ⟨⟨j, _, hjs⟩, _⟩ := hi.reads first (by rw [hb]; exact List.mem_cons_self)
      exact Nat.le_of_lt (hw.bound hjs)
  generalize hn : b.pruneTick c.tick = n at hle hfut
  obtain ⟨ro, hro, hrone, hrolast⟩ := @eraseBefore_spec _ Transaction.complete n
    b.readObservations
  obtain ⟨rc, hrc, _, hrclast⟩ := @eraseBefore_spec _ WriteCluster.complete n
    b.writeClusters
  refine ⟨{ b with
    readObservations := eraseBefore Transaction.complete n b.readObservations
    writeClusters := eraseBefore WriteCluster.complete n b.writeClusters }, ?_, ?_⟩
  · unfold ByteTracker.pruneTransactions
    simp only [checkThat, hi.obsNe, ne_eq, not_false_eq_true, if_true, hn]
    rfl
  · generalize eraseBefore Transaction.complete n b.readObservations = os at hro hrone hrolast
    generalize eraseBefore WriteCluster.complete n b.writeClusters = cs at hrc hrclast
    have hcs : ∀ c ∈ cs, c ∈ b.writeClusters := fun c hc => by
      rw [hrc]
      exact List.mem_append_left rc hc
    refine ⟨hi.reads, hi.readsAll, hi.readsSorted, ?_, ?_, hrone hi.obsNe, fun c hc => hi.clusters c (hcs c hc),
      ?_, ?_, ?_, hi.apart⟩
    · intro o ho
      refine hi.obs o ?_
      rw [hro]
      exact List.mem_append_left ro ho
    · intro o ho
      by_cases hempty : ro = []
      · rw [hempty, List.append_nil] at hro
        exact hi.oldest o (by rw [hro]; exact ho)
      · obtain ⟨x, hx, hlt⟩ := hrolast hempty
        rw [ho] at hx
        cases hx
        exact .inr fun t ht => hlt.trans_le (hle t ht)
    · intro c hc
      refine hi.closed c ?_
      rw [hrc]
      cases cs with
      | nil => cases hc
      | cons x xs => exact List.mem_append_left rc hc
    · have hord := hi.ordered
      rw [hrc] at hord
      exact (List.pairwise_append.1 hord).1
    · intro i hik σ t v hs hno
      rcases hi.stored i hik σ t v hs hno with ⟨c, hc, w, hwc, hwσ⟩ | hsup
      · rw [hrc] at hc
        rcases List.mem_append.1 hc with hc | hc
        · exact .inl ⟨c, hc, w, hwc, hwσ⟩
        · -- the last cluster that stays supersedes it
          right
          obtain ⟨x, hx, hlt⟩ := hrclast (List.ne_nil_of_mem hc)
          have hxm : x ∈ cs := List.mem_of_getLast? hx
          have hxi := hi.clusters x (hcs x hxm)
          have hxf : x.complete ≠ tickFuture := by omega
          obtain ⟨y, hy⟩ := List.exists_mem_of_ne_nil _ (hxi.closed hxf).2.2
          obtain ⟨hyf, hyle⟩ := hxi.write_closed hxf hy
          have hord := hi.ordered
          rw [hrc] at hord
          obtain ⟨j, i', hj, hi', hji⟩ := (List.pairwise_append.1 hord).2.2 x hxm c hc y hy w hwc
          obtain ⟨j', hj'k, hj'⟩ := (hxi.writes y hy).completed hyf
          obtain ⟨i'', hi''k, hi''⟩ := (hxi.writes y hy).start
          obtain ⟨rfl, _⟩ := hw.start_unique hi' hi'' rfl rfl
          rw [hwσ] at hj
          exact ⟨j, by omega, _, hj, i', j', _, _, _, _, hi', hji, hj',
            fun s hs => (hyle.trans_lt hlt).trans_le (hle s hs)⟩
      · exact .inr hsup

end Alpine.Mem
