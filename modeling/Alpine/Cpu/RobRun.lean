import Alpine.Cpu.Rob
import Alpine.Lib.Run

/-!
# The occupancy of the reorder buffer (`cpu/o3/rob_impl.hh`)

Runs of insertions, retirements, changes of the active threads and new limits.  A thread inserts while
`numFreeEntries` of it is not zero.

* `Counted` — the counters are the lengths of the lists, in every run.
* `Consistent` — moreover no counter is past its limit, and the head is the oldest instruction of the active
  threads.
* `fits_of_limits` — an insertion finds room as long as the limits of the threads fit in the buffer together.
* `Keeps` — which calls keep it; `rob_consistent_iff`.
-/

namespace Alpine.Cpu.Rob

variable {n : Nat}

/-! ## Runs -/

/-- The calls; `setCanCommit` is what makes an instruction ready to retire, and the last two are
`activateThread` and `deactivateThread` of the CPU. -/
inductive Call (n : Nat) where
  | insertInst (tid : Fin n) (inst : Nat)
  | retireHead (tid : Fin n)
  | resetEntries
  | setCanCommit (inst : Nat)
  | activateThread (tid : Fin n)
  | deactivateThread (tid : Fin n)

namespace ROB

variable (s : ROB n)

def activateThread (tid : Fin n) : ROB n :=
  if s.activeThreads.contains tid then s else { s with activeThreads := s.activeThreads ++ [tid] }

def deactivateThread (tid : Fin n) : ROB n := { s with activeThreads := s.activeThreads.erase tid }

def step : Call n → Option (ROB n)
  | .insertInst tid inst => s.insertInst tid inst
  | .retireHead tid => s.retireHead tid
  | .resetEntries => some s.resetEntries
  | .setCanCommit inst =>
    some { s with insts := Function.update s.insts inst (s.insts inst).setCanCommit }
  | .activateThread tid => some (s.activateThread tid)
  | .deactivateThread tid => some (s.deactivateThread tid)

end ROB

/-- What the callers promise: a thread inserts in program order while it has free entries, and retires when its
head is ready. -/
def Permitted (s : ROB n) : Call n → Prop
  | .insertInst tid inst => s.numFreeEntries tid ≠ 0 ∧ (∀ i ∈ s.instList tid, i < inst) ∧
      ∀ u, inst ∉ s.instList u
  | .retireHead tid => s.isHeadReady tid = true
  | _ => True

/-- The lists are in program order, an instruction is on one of them, and the counters are their lengths. -/
structure Counted (s : ROB n) : Prop where
  sorted : ∀ t, (s.instList t).Pairwise (· < ·)
  apart : ∀ t u i, i ∈ s.instList t → i ∈ s.instList u → t = u
  threads : s.activeThreads.Nodup
  entries : ∀ t, s.threadEntries t = (s.instList t).length
  total : s.numInstsInROB = ∑ t, (s.instList t).length

/-- What a reorder buffer should be. -/
structure Consistent (s : ROB n) : Prop where
  counted : Counted s
  fits : s.numInstsInROB ≤ s.numEntries
  limit : ∀ t, s.threadEntries t ≤ s.maxEntries t
  head : IsOldest s.instList s.activeThreads s.head

/-- An insertion finds the buffer with a free entry, into an empty buffer it is for an active thread, and the
first instruction of an active thread is younger than the head; new limits are not below what the threads hold;
a thread that becomes active has no instruction older than the head, and one that becomes inactive does not
hold the head. -/
def Keeps (s : ROB n) : Call n → Prop
  | .insertInst tid inst => s.numInstsInROB < s.numEntries ∧
      if s.numInstsInROB = 0 then tid ∈ s.activeThreads
      else tid ∈ s.activeThreads → s.instList tid = [] → ∃ h, s.head = some h ∧ h < inst
  | .resetEntries => s.robPolicy = .Partitioned →
      ∀ t ∈ s.activeThreads, (s.instList t).length ≤ s.numEntries / s.activeThreads.length
  | .activateThread tid => tid ∉ s.activeThreads → ∀ i ∈ s.instList tid, ∃ h, s.head = some h ∧ h < i
  | .deactivateThread tid => tid ∈ s.activeThreads → ∀ h, s.head = some h → h ∉ s.instList tid
  | _ => True

/-! ## The counters -/

section Counted

variable {s s' : ROB n} {tid : Fin n} {inst : Nat}

theorem sum_update (instList : Fin n → List Nat) (tid : Fin n) (list : List Nat) :
    ∑ t, (Function.update instList tid list t).length + (instList tid).length =
      ∑ t, (instList t).length + list.length := by
  have hother : ∀ t ∈ Finset.univ.erase tid, (Function.update instList tid list t).length =
      (instList t).length := fun t ht => by
    rw [Function.update_of_ne (Finset.ne_of_mem_erase ht)]
  rw [← Finset.add_sum_erase _ _ (Finset.mem_univ tid), ← Finset.add_sum_erase _ _ (Finset.mem_univ tid),
    Finset.sum_congr rfl hother, Function.update_self]
  omega

theorem length_le_total (h : Counted s) (tid : Fin n) : (s.instList tid).length ≤ s.numInstsInROB := by
  rw [h.total]
  exact Finset.single_le_sum (f := fun t => (s.instList t).length) (fun _ _ => Nat.zero_le _)
    (Finset.mem_univ tid)

theorem insertInst_some (h : Counted s) (hfit : s.numInstsInROB ≠ s.numEntries) :
    ∃ s', s.insertInst tid inst = some s' ∧ s'.instList = Function.update s.instList tid (s.instList tid ++ [inst]) ∧
      s'.head = (if s.numInstsInROB = 0 then some inst else s.head) ∧
      s'.threadEntries = Function.update s.threadEntries tid (s.threadEntries tid + 1) ∧
      s'.numInstsInROB = s.numInstsInROB + 1 ∧ s'.maxEntries = s.maxEntries ∧
      s'.numEntries = s.numEntries ∧ s'.activeThreads = s.activeThreads ∧ s'.robPolicy = s.robPolicy := by
  have hfirst : s.numInstsInROB = 0 → (s.instList tid ++ [inst]).head? = some inst := by
    intro h0
    have hlen := length_le_total h tid
    have hnil : s.instList tid = [] := List.length_eq_zero_iff.1 (by omega)
    simp [hnil]
  unfold ROB.insertInst
  rw [if_neg hfit, if_neg (by simpa using hfirst)]
  refine ⟨_, rfl, rfl, ?_, rfl, rfl, rfl, rfl, rfl, rfl⟩
  dsimp only
  split
  · rename_i h0
    exact hfirst h0
  · rfl

theorem Counted.insert (h : Counted s) (horder : ∀ i ∈ s.instList tid, i < inst) (hnew : ∀ u, inst ∉ s.instList u)
    (hlist : s'.instList = Function.update s.instList tid (s.instList tid ++ [inst]))
    (hentries : s'.threadEntries = Function.update s.threadEntries tid (s.threadEntries tid + 1))
    (htotal : s'.numInstsInROB = s.numInstsInROB + 1) (hactive : s'.activeThreads = s.activeThreads) :
    Counted s' where
  sorted t := by
    by_cases ht : t = tid
    · subst ht
      simpa [hlist, List.pairwise_append, h.sorted t] using horder
    · simpa [hlist, ht] using h.sorted t
  apart t u i hi hj := by
    rw [hlist] at hi hj
    by_cases ht : t = tid <;> by_cases hu : u = tid
    · rw [ht, hu]
    · subst ht
      simp only [Function.update_self, List.mem_append, List.mem_singleton, Function.update_of_ne hu] at hi hj
      rcases hi with hi | rfl
      · exact h.apart t u i hi hj
      · exact absurd hj (hnew u)
    · subst hu
      simp only [Function.update_self, List.mem_append, List.mem_singleton, Function.update_of_ne ht] at hi hj
      rcases hj with hj | rfl
      · exact h.apart t u i hi hj
      · exact absurd hi (hnew t)
    · rw [Function.update_of_ne ht] at hi
      rw [Function.update_of_ne hu] at hj
      exact h.apart t u i hi hj
  threads := hactive ▸ h.threads
  entries t := by
    by_cases ht : t = tid
    · subst ht
      simp [hlist, hentries, h.entries t]
    · simp [hlist, hentries, ht, h.entries t]
  total := by
    have hsum := sum_update s.instList tid (s.instList tid ++ [inst])
    rw [hlist, htotal, h.total]
    simp only [List.length_append, List.length_singleton] at hsum
    omega

theorem retireHead_some (h : Counted s) (hready : s.isHeadReady tid = true) :
    ∃ i list s', s.instList tid = i :: list ∧ s.retireHead tid = some s' ∧
      s'.instList = Function.update s.instList tid list ∧
      s'.threadEntries = Function.update s.threadEntries tid (s.threadEntries tid - 1) ∧
      s'.numInstsInROB = s.numInstsInROB - 1 ∧ s'.maxEntries = s.maxEntries ∧
      s'.numEntries = s.numEntries ∧ s'.activeThreads = s.activeThreads ∧
      ((∀ t, (s'.instList t).Pairwise (· < ·)) → IsOldest s'.instList s'.activeThreads s'.head) := by
  unfold ROB.isHeadReady at hready
  simp only [ne_eq, Bool.and_eq_true, decide_eq_true_eq] at hready
  obtain ⟨hne, hcan⟩ := hready
  have hlen := length_le_total h tid
  have htid := h.entries tid
  have hpos : s.numInstsInROB ≠ 0 := by omega
  unfold ROB.retireHead
  rw [if_neg hpos]
  cases hl : s.instList tid with
  | nil =>
    rw [hl] at htid
    exact absurd htid hne
  | cons i list =>
    have hi : (s.insts i).canCommit = true := by simpa [hl] using hcan
    simp only [hi, Bool.not_true, Bool.false_eq_true, if_false]
    exact ⟨i, list, _, rfl, rfl, rfl, rfl, rfl, rfl, rfl, rfl, fun hs => updateHead_oldest hs⟩

theorem Counted.retire (h : Counted s) {i : Nat} {list : List Nat} (hl : s.instList tid = i :: list)
    (hlist : s'.instList = Function.update s.instList tid list)
    (hentries : s'.threadEntries = Function.update s.threadEntries tid (s.threadEntries tid - 1))
    (htotal : s'.numInstsInROB = s.numInstsInROB - 1) (hactive : s'.activeThreads = s.activeThreads) :
    Counted s' := by
  have hsub : ∀ t, (s'.instList t).Sublist (s.instList t) := by
    intro t
    by_cases ht : t = tid
    · subst ht
      simp [hlist, hl]
    · simp [hlist, ht]
  refine ⟨fun t => (h.sorted t).sublist (hsub t), fun t u j ht hu => ?_, hactive ▸ h.threads, fun t => ?_, ?_⟩
  · exact h.apart t u j ((hsub t).subset ht) ((hsub u).subset hu)
  · by_cases ht : t = tid
    · subst ht
      simp [hlist, hentries, h.entries t, hl]
    · simp [hlist, hentries, ht, h.entries t]
  · have hsum := sum_update s.instList tid list
    rw [hlist, htotal, h.total]
    simp only [hl, List.length_cons] at hsum
    omega

/-- Nothing but the active threads and the limits is different. -/
theorem Counted.congr (h : Counted s) (hlist : s'.instList = s.instList)
    (hentries : s'.threadEntries = s.threadEntries) (htotal : s'.numInstsInROB = s.numInstsInROB)
    (hthreads : s'.activeThreads.Nodup) : Counted s' :=
  ⟨by rw [hlist]; exact h.sorted, by rw [hlist]; exact h.apart, hthreads, by rw [hlist, hentries]; exact h.entries,
    by rw [hlist, htotal]; exact h.total⟩

theorem resetEntries_same (s : ROB n) : s.resetEntries = { s with maxEntries := s.resetEntries.maxEntries } := by
  unfold ROB.resetEntries
  split <;> rfl

theorem nodup_activateThread (h : s.activeThreads.Nodup) (tid : Fin n) :
    (s.activateThread tid).activeThreads.Nodup := by
  unfold ROB.activateThread
  split
  · exact h
  · rename_i hnot
    rw [List.contains_iff_mem] at hnot
    rw [List.nodup_append]
    simp only [List.nodup_singleton, List.mem_singleton, true_and]
    refine ⟨h, ?_⟩
    rintro a ha b rfl rfl
    exact hnot ha

theorem activateThread_same (s : ROB n) (tid : Fin n) :
    s.activateThread tid = { s with activeThreads := (s.activateThread tid).activeThreads } := by
  unfold ROB.activateThread
  split <;> rfl

theorem Counted.step (h : Counted s) {c : Call n} (hc : Permitted s c) (hs : s.step c = some s') : Counted s' := by
  cases c with
  | insertInst tid inst =>
    have hfit : s.numInstsInROB ≠ s.numEntries := by
      intro heq
      simp [ROB.step, ROB.insertInst, heq] at hs
    obtain ⟨s1, hs1, hlist, -, hentries, htotal, -, -, hactive, -⟩ :=
      @insertInst_some _ _ tid inst h hfit
    cases hs.symm.trans hs1
    exact h.insert hc.2.1 hc.2.2 hlist hentries htotal hactive
  | retireHead tid =>
    obtain ⟨i, list, s1, hl, hs1, hlist, hentries, htotal, -, -, hactive, -⟩ := retireHead_some h hc
    cases hs.symm.trans hs1
    exact h.retire hl hlist hentries htotal hactive
  | resetEntries =>
    cases hs
    rw [resetEntries_same]
    exact h.congr rfl rfl rfl h.threads
  | setCanCommit inst =>
    cases hs
    exact h.congr rfl rfl rfl h.threads
  | activateThread tid =>
    cases hs
    have hnodup := nodup_activateThread h.threads tid
    rw [activateThread_same]
    exact h.congr rfl rfl rfl hnodup
  | deactivateThread tid =>
    cases hs
    exact h.congr rfl rfl rfl (h.threads.erase tid)

end Counted

/-! ## The head -/

section Head

variable {s : ROB n} {tid : Fin n} {inst : Nat}

/-- Whether the head is right after an insertion. -/
theorem head_insert_iff (h : Consistent s) (hnew : ∀ u, inst ∉ s.instList u)
    (horder : ∀ i ∈ s.instList tid, i < inst) :
    IsOldest (Function.update s.instList tid (s.instList tid ++ [inst])) s.activeThreads
        (if s.numInstsInROB = 0 then some inst else s.head) ↔ if s.numInstsInROB = 0 then tid ∈ s.activeThreads
      else tid ∈ s.activeThreads → s.instList tid = [] → ∃ h, s.head = some h ∧ h < inst := by
  have hmem : ∀ t j, j ∈ Function.update s.instList tid (s.instList tid ++ [inst]) t ↔
      j ∈ s.instList t ∨ t = tid ∧ j = inst := by
    intro t j
    by_cases ht : t = tid
    · subst ht
      simp
    · simp [ht]
  by_cases h0 : s.numInstsInROB = 0
  · have hempty : ∀ t, s.instList t = [] := fun t => by
      have := length_le_total h.counted t
      exact List.length_eq_zero_iff.1 (by omega)
    have honly : ∀ t j, j ∈ Function.update s.instList tid (s.instList tid ++ [inst]) t ↔
        t = tid ∧ j = inst := by
      intro t j
      rw [hmem, hempty]
      simp
    simp only [h0, if_true, IsOldest, honly]
    constructor
    · rintro ⟨⟨t, ht, rfl, -⟩, -⟩
      exact ht
    · intro ht
      exact ⟨⟨tid, ht, by simp⟩, fun t _ j hj => hj.2 ▸ Nat.le_refl _⟩
  · simp only [h0, if_false]
    have hold := h.head
    cases hhead : s.head with
    | none =>
      rw [hhead] at hold
      simp only [IsOldest, reduceCtorEq, false_and, exists_false, imp_false]
      constructor
      · intro hall hactive _
        have := hall tid hactive
        simp at this
      · intro hno t ht
        have hne : t ≠ tid := fun heq => hno (heq ▸ ht) (hold tid (heq ▸ ht))
        simpa [hne] using hold t ht
    | some k =>
      rw [hhead] at hold
      obtain ⟨⟨u, hu, hk⟩, hmin⟩ := hold
      have hne : k ≠ inst := fun heq => hnew u (heq ▸ hk)
      simp only [IsOldest, hmem, Option.some.injEq, exists_eq_left']
      constructor
      · rintro ⟨-, hall⟩ hactive -
        have := hall tid hactive inst (.inr ⟨rfl, rfl⟩)
        omega
      · intro hcond
        refine ⟨⟨u, hu, .inl hk⟩, ?_⟩
        rintro t ht j (hj | ⟨rfl, rfl⟩)
        · exact hmin t ht j hj
        · cases hl : s.instList t with
          | nil => exact (hcond ht hl).le
          | cons i list =>
            have hi : i ∈ s.instList t := by simp [hl]
            exact (hmin t ht i hi).trans (horder i hi).le

theorem head_activate_iff (h : Consistent s) (hnot : tid ∉ s.activeThreads) :
    IsOldest s.instList (s.activeThreads ++ [tid]) s.head ↔ ∀ i ∈ s.instList tid, ∃ h, s.head = some h ∧ h < i := by
  have hold := h.head
  cases hhead : s.head with
  | none =>
    rw [hhead] at hold
    simp only [IsOldest, List.mem_append, List.mem_singleton, or_imp, forall_and, forall_eq, reduceCtorEq,
      false_and, exists_false, imp_false]
    exact ⟨fun hall => List.eq_nil_iff_forall_not_mem.1 hall.2,
      fun hno => ⟨hold, List.eq_nil_iff_forall_not_mem.2 hno⟩⟩
  | some k =>
    rw [hhead] at hold
    obtain ⟨⟨u, hu, hk⟩, hmin⟩ := hold
    simp only [IsOldest, List.mem_append, List.mem_singleton, Option.some.injEq, exists_eq_left']
    constructor
    · rintro ⟨-, hall⟩ i hi
      refine Nat.lt_of_le_of_ne (hall tid (.inr rfl) i hi) fun heq => ?_
      exact hnot (h.counted.apart tid u k (heq ▸ hi) hk ▸ hu)
    · intro hcond
      refine ⟨⟨u, .inl hu, hk⟩, ?_⟩
      rintro t (ht | rfl) j hj
      · exact hmin t ht j hj
      · exact (hcond j hj).le

theorem head_deactivate_iff (h : Consistent s) :
    IsOldest s.instList (s.activeThreads.erase tid) s.head ↔ ∀ h, s.head = some h → h ∉ s.instList tid := by
  have hold := h.head
  have hmem : ∀ t, t ∈ s.activeThreads.erase tid ↔ t ≠ tid ∧ t ∈ s.activeThreads := fun t =>
    h.counted.threads.mem_erase_iff
  cases hhead : s.head with
  | none =>
    rw [hhead] at hold
    simp only [IsOldest, reduceCtorEq, false_imp_iff, implies_true, iff_true]
    exact fun t ht => hold t ((hmem t).1 ht).2
  | some k =>
    rw [hhead] at hold
    obtain ⟨⟨u, hu, hk⟩, hmin⟩ := hold
    simp only [IsOldest, hmem, Option.some.injEq, forall_eq']
    constructor
    · rintro ⟨⟨t, ⟨hne, -⟩, hkt⟩, -⟩ hktid
      exact hne (h.counted.apart t tid k hkt hktid)
    · intro hno
      refine ⟨⟨u, ⟨fun heq => hno (heq ▸ hk), hu⟩, hk⟩, fun t ht j hj => hmin t ht.2 j hj⟩

end Head

/-! ## One call -/

section Calls

variable {s s' : ROB n} {c : Call n}

/-- An insertion is within the limit of its thread. -/
theorem entries_lt_limit (h : Consistent s) {tid : Fin n} (hfree : s.numFreeEntries tid ≠ 0) :
    s.threadEntries tid < s.maxEntries tid := by
  refine Nat.lt_of_le_of_ne (h.limit tid) fun heq => hfree ?_
  simp [ROB.numFreeEntries, heq]

theorem insertInst_iff (h : Consistent s) {tid : Fin n} {inst : Nat} (hc : Permitted s (.insertInst tid inst)) :
    (∃ s', s.step (.insertInst tid inst) = some s' ∧ Consistent s') ↔ Keeps s (.insertInst tid inst) := by
  obtain ⟨hfree, horder, hnew⟩ := hc
  by_cases hfull : s.numInstsInROB = s.numEntries
  · have hnone : s.step (.insertInst tid inst) = none := by simp [ROB.step, ROB.insertInst, hfull]
    refine iff_of_false ?_ fun hk => ?_
    · rintro ⟨s', hs', -⟩
      rw [hnone] at hs'
      cases hs'
    · exact absurd hk.1 (by omega)
  · obtain ⟨s', hs', hlist, hhead, hentries, htotal, hmax, hnum, hactive, -⟩ :=
      @insertInst_some _ _ tid inst h.counted hfull
    have hcounted := h.counted.insert horder hnew hlist hentries htotal hactive
    have hroom : s.numInstsInROB < s.numEntries := Nat.lt_of_le_of_ne h.fits hfull
    have hoccupied : (∃ t, s.step (.insertInst tid inst) = some t ∧ Consistent t) ↔
        IsOldest s'.instList s'.activeThreads s'.head := by
      constructor
      · rintro ⟨t, ht, hcons⟩
        cases hs'.symm.trans ht
        exact hcons.head
      · refine fun hold => ⟨s', hs', hcounted, by omega, fun t => ?_, hold⟩
        have hlt := entries_lt_limit h hfree
        by_cases ht : t = tid
        · subst ht
          simpa [hentries, hmax] using hlt
        · simpa [hentries, hmax, ht] using h.limit t
    rw [hoccupied, hlist, hhead, hactive, head_insert_iff h hnew horder]
    exact ⟨fun hk => ⟨hroom, hk⟩, fun hk => hk.2⟩

theorem retireHead_consistent (h : Consistent s) {tid : Fin n} (hc : Permitted s (.retireHead tid)) :
    ∃ s', s.step (.retireHead tid) = some s' ∧ Consistent s' := by
  obtain ⟨i, list, s', hl, hs', hlist, hentries, htotal, hmax, hnum, hactive, hhead⟩ :=
    retireHead_some h.counted hc
  have hcounted := h.counted.retire hl hlist hentries htotal hactive
  have hfits := h.fits
  refine ⟨s', hs', hcounted, by omega, fun t => ?_, hhead hcounted.sorted⟩
  have hlimit := h.limit t
  by_cases ht : t = tid
  · subst ht
    simp only [hentries, hmax, Function.update_self]
    omega
  · simpa [hentries, hmax, ht] using hlimit

theorem resetEntries_iff (h : Consistent s) : Consistent s.resetEntries ↔ Keeps s .resetEntries := by
  have hcounted : Counted s.resetEntries := by
    rw [resetEntries_same]
    exact h.counted.congr rfl rfl rfl h.counted.threads
  have hlimits : Consistent s.resetEntries ↔ ∀ t, s.threadEntries t ≤ s.resetEntries.maxEntries t := by
    constructor
    · intro hcons t
      have := hcons.limit t
      rw [resetEntries_same] at this
      exact this
    · intro hall
      refine ⟨hcounted, ?_, fun t => ?_, ?_⟩
      · rw [resetEntries_same]
        exact h.fits
      · have := hall t
        rw [resetEntries_same]
        exact this
      · rw [resetEntries_same]
        exact h.head
  rw [hlimits]
  unfold Keeps
  simp only [← h.counted.entries]
  unfold ROB.resetEntries
  cases hp : s.robPolicy with
  | Dynamic =>
    refine iff_of_true (fun t => ?_) nofun
    split
    · simpa using h.limit t
    · exact h.limit t
  | Partitioned =>
    simp only [ne_eq, reduceCtorEq, not_false_eq_true, true_or, if_true, forall_const]
    constructor
    · intro hall t ht
      simpa [ht] using hall t
    · intro hall t
      split
      · rename_i ht
        exact hall t ht
      · exact h.limit t
  | Threshold =>
    simp only [ne_eq, reduceCtorEq, not_false_eq_true, true_or, if_true, false_imp_iff, iff_true]
    intro t
    split
    · split
      · rw [h.counted.entries]
        exact (length_le_total h.counted t).trans h.fits
      · exact h.limit t
    · exact h.limit t

/-- **One call.** -/
theorem step_iff (h : Consistent s) (hc : Permitted s c) :
    (∃ s', s.step c = some s' ∧ Consistent s') ↔ Keeps s c := by
  have hpure : ∀ {t : ROB n}, (∃ s', (some t : Option (ROB n)) = some s' ∧ Consistent s') ↔ Consistent t := by
    intro t
    simp
  cases c with
  | insertInst tid inst => exact insertInst_iff h hc
  | retireHead tid => exact iff_of_true (retireHead_consistent h hc) trivial
  | resetEntries => exact hpure.trans (resetEntries_iff h)
  | setCanCommit inst =>
    refine hpure.trans (iff_of_true ?_ trivial)
    exact ⟨h.counted.congr rfl rfl rfl h.counted.threads, h.fits, h.limit, h.head⟩
  | activateThread tid =>
    refine hpure.trans ?_
    have hcounted : Counted (s.activateThread tid) := by
      have hnodup := nodup_activateThread h.counted.threads tid
      rw [activateThread_same]
      exact h.counted.congr rfl rfl rfl hnodup
    by_cases hin : tid ∈ s.activeThreads
    · rw [show s.activateThread tid = s from if_pos (List.contains_iff_mem.2 hin)]
      exact iff_of_true h fun hnot => absurd hin hnot
    · have heq : s.activateThread tid = { s with activeThreads := s.activeThreads ++ [tid] } :=
        if_neg (mt List.contains_iff_mem.1 hin)
      rw [heq] at hcounted ⊢
      unfold Keeps
      simp only [hin, not_false_eq_true, forall_const]
      rw [← head_activate_iff h hin]
      exact ⟨fun hcons => hcons.head, fun hold => ⟨hcounted, h.fits, h.limit, hold⟩⟩
  | deactivateThread tid =>
    refine hpure.trans ?_
    have hcounted : Counted (s.deactivateThread tid) :=
      h.counted.congr rfl rfl rfl (h.counted.threads.erase tid)
    by_cases hin : tid ∈ s.activeThreads
    · unfold Keeps
      simp only [hin, forall_const]
      rw [← head_deactivate_iff h]
      exact ⟨fun hcons => hcons.head, fun hold => ⟨hcounted, h.fits, h.limit, hold⟩⟩
    · rw [show s.deactivateThread tid = s by simp [ROB.deactivateThread, List.erase_of_not_mem hin]]
      exact iff_of_true h fun ht => absurd ht hin

end Calls

theorem consistent_new (p : Params) {activeThreads : List (Fin n)} (h : activeThreads.Nodup) :
    Consistent (ROB.new p activeThreads) where
  counted := ⟨fun _ => .nil, fun _ _ _ hi => absurd hi List.not_mem_nil, h, fun _ => rfl,
    by simp [ROB.new]⟩
  fits := Nat.zero_le _
  limit _ := Nat.zero_le _
  head := fun _ _ => rfl

/-- **The counters are right in every run:** `numInstsInROB` is the sum of the lengths of the lists, and
`threadEntries` is the length of each. -/
theorem counted_of_reaches {p : Params} {activeThreads : List (Fin n)} (hactive : activeThreads.Nodup)
    {s : ROB n} (h : Run.Reaches ROB.step Permitted (ROB.new p activeThreads) s) : Counted s :=
  h.inv (consistent_new p hactive).counted fun _ _ _ ht hc hstep => ht.step hc hstep

/-- An insertion finds a free entry in the buffer as long as the limits of the threads fit in it together. -/
theorem fits_of_limits {s : ROB n} (h : Consistent s) (hsum : ∑ t, s.maxEntries t ≤ s.numEntries) {tid : Fin n}
    (hfree : s.numFreeEntries tid ≠ 0) : s.numInstsInROB < s.numEntries := by
  have hlt : ∑ t, s.threadEntries t < ∑ t, s.maxEntries t :=
    Finset.sum_lt_sum (fun t _ => h.limit t) ⟨tid, Finset.mem_univ tid, entries_lt_limit h hfree⟩
  have htotal : s.numInstsInROB = ∑ t, s.threadEntries t := by
    rw [h.counted.total]
    exact Finset.sum_congr rfl fun t _ => (h.counted.entries t).symm
  omega

/-- **The reorder buffer does not overflow, as long as no call overcommits it or moves the oldest instruction
without the head.**  In a run whose calls all kept it, the buffer is consistent; and the next call returns, and
leaves it consistent, if and only if it keeps it. -/
theorem rob_consistent_iff {p : Params} {activeThreads : List (Fin n)} (hactive : activeThreads.Nodup)
    {s : ROB n} {c : Call n}
    (h : Run.Reaches ROB.step (fun s c => Permitted s c ∧ Keeps s c) (ROB.new p activeThreads) s)
    (hc : Permitted s c) : Consistent s ∧ ((∃ s', s.step c = some s' ∧ Consistent s') ↔ Keeps s c) := by
  have hs : Consistent s := by
    refine h.inv (consistent_new p hactive) fun t c t' ht hc hstep => ?_
    obtain ⟨t1, ht1, hcons⟩ := (step_iff ht hc.1).2 hc.2
    cases hstep.symm.trans ht1
    exact hcons
  exact ⟨hs, step_iff hs hc⟩

/-! ## Two threads that share the buffer -/

def twoEntries : ROB 2 := ROB.new ⟨2, 1, .Dynamic, 0⟩ (List.finRange 2)

/-- Both threads insert, and the head of thread 0 retires. -/
theorem counted_of_reaches_twoEntries : ∃ s : ROB 2, s.instList 0 = [] ∧ s.instList 1 = [2] ∧ s.numInstsInROB = 1 ∧
    Counted s := by
  have h1 := (Run.Reaches.refl : Run.Reaches ROB.step Permitted twoEntries _).step
    (i := Call.insertInst 0 1) ⟨by decide, by decide, by decide⟩ rfl
  have h2 := h1.step (i := Call.insertInst 1 2) ⟨by decide, by decide, by decide⟩ rfl
  have h3 := h2.step (i := Call.setCanCommit 1) trivial rfl
  have h4 := h3.step (i := Call.retireHead 0) rfl rfl
  exact ⟨_, rfl, rfl, rfl, counted_of_reaches (List.nodup_finRange 2) h4⟩

/-- Both threads insert, and then the head of thread 0 retires. -/
theorem rob_consistent_twoEntries : ∃ s s' : ROB 2, s.numInstsInROB = 2 ∧ s.head = some 1 ∧
    s.step (.retireHead 0) = some s' ∧ Consistent s' := by
  have h1 := (Run.Reaches.refl : Run.Reaches ROB.step (fun s c => Permitted s c ∧ Keeps s c) twoEntries _).step
    (i := Call.insertInst 0 1) ⟨⟨by decide, by decide, by decide⟩, by decide, by decide⟩ rfl
  have h2 := h1.step (i := Call.insertInst 1 2)
    ⟨⟨by decide, by decide, by decide⟩, by decide, fun _ _ => ⟨1, rfl, by decide⟩⟩ rfl
  have h3 := h2.step (i := Call.setCanCommit 1) ⟨trivial, trivial⟩ rfl
  obtain ⟨s', hs'⟩ := (rob_consistent_iff (c := .retireHead 0) (by decide) h3 rfl).2.2 trivial
  exact ⟨_, s', rfl, rfl, hs'⟩

def sharedEntry : ROB 2 := ROB.new ⟨1, 1, .Dynamic, 0⟩ (List.finRange 2)

/-- **The buffer overflows under the dynamic policy:** thread 0 fills it, thread 1 has a free entry by its own
limit, and its insertion fails the assertion. -/
theorem sharedEntry_overflows : ∃ s, sharedEntry.step (.insertInst 0 1) = some s ∧
    Permitted s (.insertInst 1 2) ∧ s.numFreeEntries 1 = 1 ∧ s.step (.insertInst 1 2) = none := by
  refine ⟨_, rfl, ⟨by decide, ?_, ?_⟩, by decide, rfl⟩
  · intro i hi
    simp [sharedEntry, ROB.new] at hi
  · intro u
    fin_cases u <;> simp [sharedEntry, ROB.new]

end Alpine.Cpu.Rob
