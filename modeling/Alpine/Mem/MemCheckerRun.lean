import Alpine.Mem.MemCheckerOps

/-!
# False alarms of the memory checker

* `Clear` — the calls whose ticks the checker tells apart: no write completes in the tick in which a read
  that is still outstanding started, and no read completes in the tick in which everything that its check
  has left started.
* `no_false_alarm` — in a history of an atomic register whose calls are all clear, every read is expected
  and no assertion fails.
* `crowded_fails` — where the second condition is not met, the assertion does fail.
* `false_alarms` — a history that fails the assertion, and one whose read is reported.
-/

namespace Alpine.Mem

open History

/-- The calls that the two comparisons of ticks do not get wrong. -/
def Clear (b : ByteTracker) : MemCall → Prop
  | .completeWrite _ t => ∀ r ∈ b.outstandingReads, r.start ≠ t
  | .completeRead σ t v => ∀ r ∈ b.outstandingReads, r.serial = σ → ¬ Crowded b r.start t v
  | _ => True

variable {H : List MemCall} {k : Nat} {b : ByteTracker}

theorem Inv.step (hw : Wf H) {ρ : Register Nat UInt8} (hl : Linearization H ρ) (hi : Inv H k b) {c : MemCall}
    (hk : At H k c) (hc : Clear b c) : ∃ b', b.step c = .ok (b', true) ∧ Inv H (k + 1) b' := by
  cases c with
  | startRead σ t => exact ⟨_, rfl, hi.startRead hw hk⟩
  | completeRead σ t v => exact hi.completeRead hw hl hk hc
  | startWrite σ t v =>
    obtain ⟨b', hrun, hinv⟩ := hi.startWrite hw hk
    refine ⟨b', ?_, hinv⟩
    simp only [ByteTracker.step, hrun]
    rfl
  | completeWrite σ t =>
    obtain ⟨b', hrun, hinv⟩ := hi.completeWrite hw hk hc
    refine ⟨b', ?_, hinv⟩
    simp only [ByteTracker.step, hrun]
    rfl
  | abortWrite σ t => exact ⟨_, rfl, hi.abortWrite hw hk⟩

theorem run_snoc {c : MemCall} {r : Bool} {b' b'' : ByteTracker} : ∀ {l : List MemCall} {b : ByteTracker}
    {rs : List Bool}, b.run l = .ok (b', rs) → b'.step c = .ok (b'', r) → b.run (l ++ [c]) = .ok (b'', rs ++ [r])
  | [], b, rs, h, hs => by
    cases h
    simp only [List.nil_append, ByteTracker.run, hs, bind, Except.bind]
    rfl
  | d :: l, b, rs, h, hs => by
    simp only [ByteTracker.run, bind_ok_iff] at h
    obtain ⟨⟨b1, r1⟩, h1, ⟨b2, rs2⟩, h2, h3⟩ := h
    cases h3
    simp only [List.cons_append, ByteTracker.run, h1, bind, Except.bind, run_snoc h2 hs]
    rfl

/-- Every beginning of the history runs without a fault and with every read expected. -/
theorem run_take (hw : Wf H) {ρ : Register Nat UInt8} (hl : Linearization H ρ)
    (hclear : ∀ pre c post b rs, H = pre ++ c :: post → ByteTracker.run {} pre = .ok (b, rs) → Clear b c) :
    ∀ k ≤ H.length, ∃ b rs, ByteTracker.run {} (H.take k) = .ok (b, rs) ∧ Inv H k b ∧ ∀ r ∈ rs, r = true := by
  intro k
  induction k with
  | zero =>
    intro _
    exact ⟨{}, [], rfl, inv_empty H, fun r hr => (nomatch hr)⟩
  | succ k ih =>
    intro hk
    obtain ⟨b, rs, hrun, hinv, hrs⟩ := ih (by omega)
    have hc : At H k H[k] := List.getElem?_eq_getElem (by omega)
    have hsplit : H = H.take k ++ H[k] :: H.drop (k + 1) := by
      rw [List.getElem_cons_drop, List.take_append_drop]
    obtain ⟨b', hstep, hinv'⟩ := hinv.step hw hl hc (hclear _ _ _ b rs hsplit hrun)
    refine ⟨b', rs ++ [true], ?_, hinv', ?_⟩
    · rw [List.take_succ_eq_append_getElem (by omega)]
      exact run_snoc hrun hstep
    · intro r hr
      rcases List.mem_append.1 hr with hr | hr
      · exact hrs r hr
      · exact List.mem_singleton.1 hr

/-- **No false alarms where the ticks are told apart.** -/
theorem no_false_alarm (hw : Wf H) (hl : Linearizable H)
    (hclear : ∀ pre c post b rs, H = pre ++ c :: post → ByteTracker.run {} pre = .ok (b, rs) → Clear b c) :
    ∃ b rs, ByteTracker.run {} H = .ok (b, rs) ∧ ∀ r ∈ rs, r = true := by
  obtain ⟨ρ, hl⟩ := hl
  obtain ⟨b, rs, hrun, _, hrs⟩ := run_take hw hl hclear H.length Nat.le.refl
  rw [List.take_length] at hrun
  exact ⟨b, rs, hrun, hrs⟩

/-! ## Where the assertion fails -/

/-- Nothing of what overlaps a read makes its last observation valid again. -/
structure Scan.Overlapping (s : Scan) : Prop where
  wcOverlap : s.wcOverlap = true
  lastObsValid : s.lastObsValid = false

theorem scanCluster_overlapping {o : Transaction} {start : Nat} {data : UInt8} : ∀ {ws : List Transaction}
    {s : Scan}, s.Overlapping → (∀ w ∈ ws, w.data ≠ data ∧ start < w.complete) →
      ∃ s', ws.foldlM (ByteTracker.scanWrite o start data) s = .ok s' ∧ s'.Overlapping
  | [], s, hs, _ => ⟨s, rfl, hs⟩
  | w :: ws, s, hs, h => by
    obtain ⟨hd, ho⟩ := h w List.mem_cons_self
    have hrest := fun x hx => h x (List.mem_cons_of_mem w hx)
    rw [List.foldlM_cons]
    unfold ByteTracker.scanWrite
    by_cases hskip : w.complete < o.start
    · rw [if_pos hskip]
      exact scanCluster_overlapping hs hrest
    · rw [if_neg hskip, if_neg hd]
      simp only [gt_iff_lt, ho, if_true]
      exact scanCluster_overlapping ⟨hs.wcOverlap, hs.lastObsValid⟩ hrest

theorem scanClusters_overlapping {o : Transaction} {start : Nat} {data : UInt8} : ∀ {cs : List WriteCluster}
    {s : Scan}, s.Overlapping → (∀ c ∈ cs, ∀ w ∈ c.writes, w.data ≠ data ∧ start < w.complete) →
      ∃ s', ByteTracker.scanClusters o start data cs s = .ok s' ∧ s'.Overlapping
  | [], s, hs, _ => ⟨s, rfl, hs⟩
  | c :: cs, s, hs, h => by
    obtain ⟨s1, h1, hs1⟩ := scanCluster_overlapping (o := o) hs (h c List.mem_cons_self)
    obtain ⟨s2, h2, hs2⟩ := scanClusters_overlapping (o := o) hs1 fun x hx => h x (List.mem_cons_of_mem c hx)
    refine ⟨s2, ?_, hs2⟩
    simp only [ByteTracker.scanClusters, hs.wcOverlap, if_true, h1]
    exact h2

/-- The assertion fails on a read that the writes that are left crowd. -/
theorem crowded_fails {start complete : Nat} {data : UInt8} (h : Crowded b start complete data)
    (hne : b.readObservations ≠ []) : b.inExpectedData start complete data = .error (.assertion
      "writeClusters.begin()->start < complete && writeClusters.rbegin()->complete > start") := by
  obtain ⟨o, ho, _, _⟩ := @lastCompletedTransaction_spec _ Transaction.complete start _ hne
  obtain ⟨c, hlast, hstart⟩ := h.front
  obtain ⟨s, hs, hov⟩ := scanClusters_overlapping (o := o)
    (s := ⟨true, o.complete != tickInitial, []⟩) ⟨rfl, by simp [h.unseen o ho]⟩ h.other
  cases hcs : b.writeClusters with
  | nil =>
    rw [hcs] at hlast
    cases hlast
  | cons newest older =>
    rw [hcs] at hs hlast
    simp only [ByteTracker.inExpectedData, ho, hcs, hs, hov.lastObsValid, hlast, hov.wcOverlap,
      List.head?_cons, checkThat, hstart, Nat.lt_irrefl, false_and, if_false]
    rfl

/-! ## A history without an alarm -/

/-- A write, then a read of it. -/
def quietHistory : List MemCall :=
  [.startWrite 0 1 7, .completeWrite 0 2, .startRead 1 3, .completeRead 1 4 7]

theorem quietHistory_linearizable : Linearizable quietHistory := by
  refine ⟨⟨{0}, fun i => if i = 0 then 1 / 2 else 5 / 2, fun _ => 7, 0, by simp⟩, ?_⟩
  constructor
  · intro σ hσ
    rw [Set.mem_singleton_iff.1 hσ]
    exact ⟨0, 1, rfl, by norm_num⟩
  · intro j σ t hj
    rcases j with _ | _ | _ | _ | j <;> simp [At, quietHistory] at hj
    obtain ⟨rfl, rfl⟩ := hj
    exact ⟨rfl, by norm_num⟩
  · intro j σ t hj
    rcases j with _ | _ | _ | _ | j <;> simp [At, quietHistory] at hj
  · intro i j σ t t' v hi hj
    rcases j with _ | _ | _ | _ | j <;> simp [At, quietHistory] at hj
    obtain ⟨rfl, rfl, rfl⟩ := hj
    rcases i with _ | _ | _ | _ | i <;> simp [At, quietHistory] at hi
    refine ⟨by norm_num, by norm_num, .inl ⟨0, ⟨rfl, by norm_num, ?_⟩, rfl⟩⟩
    intro x hx _
    rw [Set.mem_singleton_iff.1 hx]

theorem no_false_alarm_read : ∃ b rs, ByteTracker.run {} quietHistory = .ok (b, rs) ∧ ∀ r ∈ rs, r = true := by
  refine no_false_alarm (wf_of_check (by decide)) quietHistory_linearizable ?_
  intro pre c post b rs hH hrun
  rcases pre with _ | ⟨c1, _ | ⟨c2, _ | ⟨c3, _ | ⟨c4, pre⟩⟩⟩⟩
  · cases hH
    trivial
  · cases hH
    cases hrun
    intro r hr
    cases hr
  · cases hH
    trivial
  · cases hH
    cases hrun
    intro r _ _ hc
    obtain ⟨c, hlast, hstart⟩ := hc.front
    cases hlast
    cases hstart
  · cases pre <;> cases hH

/-! ## Two histories with one -/

/-- The write that is under way started in the tick in which the read completes. -/
def crowdedHistory : List MemCall :=
  [.startRead 0 5, .startWrite 1 10 0xBB, .completeRead 0 10 0xAA]

theorem crowdedHistory_linearizable : Linearizable crowdedHistory := by
  refine ⟨⟨∅, fun _ => 1 / 2, fun _ => 0, 0xAA, by simp⟩, ?_⟩
  constructor
  · intro σ hσ
    exact hσ.elim
  · intro j σ t hj
    rcases j with _ | _ | _ | j <;> simp [At, crowdedHistory] at hj
  · intro j σ t hj
    rcases j with _ | _ | _ | j <;> simp [At, crowdedHistory] at hj
  · intro i j σ t t' v hi hj
    rcases j with _ | _ | _ | j <;> simp [At, crowdedHistory] at hj
    obtain ⟨rfl, rfl, rfl⟩ := hj
    rcases i with _ | _ | _ | i <;> simp [At, crowdedHistory] at hi
    exact ⟨by norm_num, by norm_num, .inr ⟨rfl, fun x hx => hx.elim⟩⟩

/-- The second write completes in the tick in which the read started, and takes effect after it. -/
def lateHistory : List MemCall :=
  [.startWrite 0 1 0xAA, .completeWrite 0 2, .startWrite 1 5 0xBB, .startRead 2 10, .completeWrite 1 10,
    .completeRead 2 12 0xAA]

theorem lateHistory_linearizable : Linearizable lateHistory := by
  refine ⟨⟨{0, 1}, fun σ => if σ = 0 then 1 / 2 else if σ = 1 then 15 / 4 else 7 / 2,
    fun σ => if σ = 0 then 0xAA else 0xBB, 0, ?_⟩, ?_⟩
  · rintro x (rfl | rfl) y (rfl | rfl) h <;> first | rfl | (norm_num at h)
  constructor
  · rintro σ (rfl | rfl)
    · exact ⟨0, 1, rfl, by norm_num⟩
    · exact ⟨2, 5, rfl, by norm_num⟩
  · intro j σ t hj
    rcases j with _ | _ | _ | _ | _ | _ | j <;> simp [At, lateHistory] at hj
    · obtain ⟨rfl, rfl⟩ := hj
      exact ⟨.inl rfl, by norm_num⟩
    · obtain ⟨rfl, rfl⟩ := hj
      exact ⟨.inr rfl, by norm_num⟩
  · intro j σ t hj
    rcases j with _ | _ | _ | _ | _ | _ | j <;> simp [At, lateHistory] at hj
  · intro i j σ t t' v hi hj
    rcases j with _ | _ | _ | _ | _ | _ | j <;> simp [At, lateHistory] at hj
    obtain ⟨rfl, rfl, rfl⟩ := hj
    rcases i with _ | _ | _ | _ | _ | _ | i <;> simp [At, lateHistory] at hi
    refine ⟨by norm_num, by norm_num, .inl ⟨0, ⟨.inl rfl, by norm_num, ?_⟩, rfl⟩⟩
    rintro x (rfl | rfl) hx
    · rfl
    · norm_num at hx

/-- **There are false alarms.**  A history of an atomic register may fail an assertion, and it may have a
read reported. -/
theorem false_alarms : (Wf crowdedHistory ∧ Linearizable crowdedHistory ∧ ∃ text,
      ByteTracker.run {} crowdedHistory = .error (.assertion text)) ∧
    Wf lateHistory ∧ Linearizable lateHistory ∧ ∃ b rs,
      ByteTracker.run {} lateHistory = .ok (b, rs) ∧ false ∈ rs := by
  refine ⟨⟨wf_of_check (by decide), crowdedHistory_linearizable, _, rfl⟩, wf_of_check (by decide),
    lateHistory_linearizable, _, _, rfl, by decide⟩

end Alpine.Mem
