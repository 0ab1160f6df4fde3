import Alpine.Cpu.RenameInv
import Alpine.Lib.Run

/-!
# Runs of the rename stage

Any interleaving of `renameDestRegs`, `removeFromHistory` and `doSquash` over all threads.  A thread's
instructions come in increasing sequence number, from `1` on as `globalSeqNum` counts, and are renamed
only when `canRename` holds.

* `Tracked` — the state with, for every thread, the instructions renamed and not squashed since, each
  with the thread's map just before.
* `physRegs_conserved` — in every reachable state each physical register stands in exactly one place,
  the history holds uncommitted entries only, `doSquash` restores the map from before the first
  instruction it squashes, and all three calls are defined.
-/

namespace Alpine.Cpu.Rename

open Alpine Alpine.Run

variable {T : Nat} {cfg : Config}

/-! ## Calls -/

inductive Call (T : Nat) where
  | renameDestRegs (t : Fin T) (f : Flatten) (inst : DynInst)
  | removeFromHistory (t : Fin T) (n : Nat)
  | doSquash (t : Fin T) (n : Nat)

/-- `lastSeq` and `committed` are the largest sequence numbers renamed and committed. -/
structure Tracked (T : Nat) where
  st : State T
  lastSeq : Fin T → Nat
  committed : Fin T → Nat
  log : Fin T → List (Nat × UnifiedRenameMap)

def start (s : State T) : Tracked T := ⟨s, fun _ => 0, fun _ => 0, fun _ => []⟩

def step (cfg : Config) (r : Tracked T) : Call T → Option (Tracked T)
  | .renameDestRegs t f inst => do
    let s ← renameDestRegs cfg f t inst r.st
    some { r with
      st := s
      lastSeq := Function.update r.lastSeq t inst.seqNum
      log := Function.update r.log t ((inst.seqNum, r.st.renameMap t) :: r.log t) }
  | .removeFromHistory t n => do
    let s ← removeFromHistory n t r.st
    some { r with st := s, committed := Function.update r.committed t (max (r.committed t) n) }
  | .doSquash t n => do
    let s ← doSquash cfg n t r.st
    some { r with st := s, log := Function.update r.log t ((r.log t).filter (·.1 ≤ n)) }

def ok (r : Tracked T) : Call T → Prop
  | .renameDestRegs t _ inst =>
    canRename inst r.st = true ∧ r.lastSeq t < inst.seqNum ∧ r.committed t < inst.seqNum
  | .removeFromHistory _ _ => True
  | .doSquash _ _ => True

/-- The map just before the first instruction above `n` in a log with the newest in front, or the
current map when there is none. -/
def mapBefore (log : List (Nat × UnifiedRenameMap)) (n : Nat) (m : UnifiedRenameMap) : UnifiedRenameMap :=
  match (log.filter (n < ·.1)).getLast? with
  | some x => x.2
  | none => m

/-! ## The history as a log -/

theorem mapBefore_cons (x : Nat × UnifiedRenameMap) (log : List (Nat × UnifiedRenameMap)) (n : Nat)
    (m : UnifiedRenameMap) :
    mapBefore (x :: log) n m = if n < x.1 then mapBefore log n x.2 else mapBefore log n m := by
  unfold mapBefore
  by_cases hn : n < x.1
  · rw [if_pos hn, List.filter_cons_of_pos (by simpa using hn), List.getLast?_cons]
    cases (log.filter (n < ·.1)).getLast? with
    | none => rfl
    | some y => rfl
  · rw [if_neg hn, List.filter_cons_of_neg (by simpa using hn)]

variable {n : Nat}

theorem mapBefore_of_le {log : List (Nat × UnifiedRenameMap)} (h : ∀ x ∈ log, x.1 ≤ n) (m : UnifiedRenameMap) :
    mapBefore log n m = m := by
  have hnil : log.filter (n < ·.1) = [] := by
    rw [List.filter_eq_nil_iff]
    intro x hx
    have hle := h x hx
    simpa using hle
  rw [mapBefore, hnil]
  rfl

/-- Squashing to `k` and then to `n ≤ k` looks up the same map as squashing to `n`. -/
theorem mapBefore_filter {k : Nat} (hnk : n ≤ k) :
    ∀ {log : List (Nat × UnifiedRenameMap)} (m : UnifiedRenameMap), log.Pairwise (·.1 > ·.1) →
      mapBefore (log.filter (·.1 ≤ k)) n (mapBefore log k m) = mapBefore log n m
  | [], _, _ => rfl
  | x :: log, m, hs => by
    obtain ⟨hx, hs⟩ := List.pairwise_cons.1 hs
    by_cases hk : x.1 ≤ k
    · have hle : ∀ y ∈ x :: log, y.1 ≤ k := by
        intro y hy
        rcases List.mem_cons.1 hy with rfl | hy
        · exact hk
        · have hlt := hx y hy
          omega
      rw [mapBefore_of_le hle, List.filter_eq_self.2 fun y hy => by simpa using hle y hy]
    · rw [List.filter_cons_of_neg (by simpa using hk), mapBefore_cons x log k, if_pos (by omega),
        mapBefore_cons x log n, if_pos (by omega)]
      exact mapBefore_filter hnk x.2 hs

theorem squashMap_of_le {h : List RenameHistory} (hle : ∀ e ∈ h, e.instSeqNum ≤ n) (m : UnifiedRenameMap) :
    squashMap n h m = m := by
  cases h with
  | nil => rfl
  | cons e rest =>
    have he := hle e List.mem_cons_self
    rw [squashMap, if_neg (by omega)]

theorem squashMap_append {old : List RenameHistory} (hle : ∀ e ∈ old, e.instSeqNum ≤ n) :
    ∀ (h : List RenameHistory) (m : UnifiedRenameMap), squashMap n (h ++ old) m = squashMap n h m
  | [], m => squashMap_of_le hle m
  | e :: h, m => by
    rw [List.cons_append, squashMap, squashMap]
    split
    · exact squashMap_append hle h _
    · rfl

theorem squashMap_dropWhile {k : Nat} (hnk : n ≤ k) : ∀ (h : List RenameHistory) (m : UnifiedRenameMap),
      squashMap n (h.dropWhile (k < ·.instSeqNum)) (squashMap k h m) = squashMap n h m
  | [], _ => rfl
  | e :: h, m => by
    by_cases hk : k < e.instSeqNum
    · rw [List.dropWhile_cons_of_pos (by simpa using hk), squashMap, if_pos hk,
        squashMap_dropWhile hnk h, squashMap, if_pos (by omega)]
    · have hkeep : squashMap k (e :: h) m = m := by rw [squashMap, if_neg hk]
      rw [List.dropWhile_cons_of_neg (by simpa using hk), hkeep]

/-- One thread's history and map against its log. -/
structure LogOk (h : List RenameHistory) (m : UnifiedRenameMap) (last committed : Nat)
    (log : List (Nat × UnifiedRenameMap)) : Prop where
  sorted : h.Pairwise (·.instSeqNum ≥ ·.instSeqNum)
  fresh : ∀ e ∈ h, committed < e.instSeqNum ∧ e.instSeqNum ≤ last
  logLe : ∀ x ∈ log, x.1 ≤ last
  logSorted : log.Pairwise (·.1 > ·.1)
  restore : ∀ n, committed ≤ n → squashMap n h m = mapBefore log n m

variable {h : List RenameHistory} {m : UnifiedRenameMap} {last committed : Nat}
  {log : List (Nat × UnifiedRenameMap)}

theorem LogOk.rename {es : List RenameHistory} {m' : UnifiedRenameMap} (hl : LogOk h m last committed log)
    (hlast : last < n) (hcom : committed < n) (hes : ∀ e ∈ es, e.instSeqNum = n)
    (hsquash : ∀ k < n, ∀ rest, squashMap k (es ++ rest) m' = squashMap k rest m) :
    LogOk (es ++ h) m' n committed ((n, m) :: log) := by
  have hle : ∀ e ∈ es ++ h, e.instSeqNum ≤ n := by
    intro e he
    rcases List.mem_append.1 he with he | he
    · exact (hes e he).le
    · have hf := (hl.fresh e he).2
      omega
  have hlogle : ∀ x ∈ (n, m) :: log, x.1 ≤ n := by
    intro x hx
    rcases List.mem_cons.1 hx with rfl | hx
    · exact le_rfl
    · have hx := hl.logLe x hx
      omega
  refine ⟨?_, ?_, hlogle, ?_, ?_⟩
  · rw [List.pairwise_append]
    refine ⟨?_, hl.sorted, ?_⟩
    · rw [List.pairwise_iff_forall_sublist]
      intro a b hab
      have ha := hes a (hab.subset (by simp))
      have hb := hes b (hab.subset (by simp))
      omega
    · intro a ha b hb
      have ha := hes a ha
      have hb := (hl.fresh b hb).2
      omega
  · intro e he
    rcases List.mem_append.1 he with hm | hm
    · exact ⟨by rw [hes e hm]; exact hcom, hle e he⟩
    · exact ⟨(hl.fresh e hm).1, hle e he⟩
  · rw [List.pairwise_cons]
    refine ⟨fun x hx => ?_, hl.logSorted⟩
    have hx := hl.logLe x hx
    simp only
    omega
  · intro k hk
    by_cases hkn : k < n
    · rw [hsquash k hkn, hl.restore k hk, mapBefore_cons, if_pos hkn]
    · rw [squashMap_of_le (fun e he => (hle e he).trans (by omega)),
        mapBefore_of_le fun x hx => (hlogle x hx).trans (by omega)]

theorem eq_false_of_mem_dropWhile {r : RenameHistory → RenameHistory → Prop}
    {q : RenameHistory → Bool} (hq : ∀ x y, r x y → q y = true → q x = true) :
    ∀ {l : List RenameHistory}, l.Pairwise r → ∀ e ∈ l.dropWhile q, q e = false
  | [], _, e, he => absurd he (by simp)
  | x :: l, hs, e, he => by
    obtain ⟨hx, hs⟩ := List.pairwise_cons.1 hs
    by_cases hn : q x = true
    · rw [List.dropWhile_cons_of_pos hn] at he
      exact eq_false_of_mem_dropWhile hq hs e he
    · rw [List.dropWhile_cons_of_neg hn] at he
      rcases List.mem_cons.1 he with rfl | he
      · exact Bool.eq_false_iff.2 hn
      · exact Bool.eq_false_iff.2 fun hqe => hn (hq x e (hx e he) hqe)

theorem LogOk.commit (hl : LogOk h m last committed log) (n : Nat) :
    LogOk (h.reverse.dropWhile (·.instSeqNum ≤ n)).reverse m last (max committed n) log := by
  have hsplit : h = (h.reverse.dropWhile (·.instSeqNum ≤ n)).reverse ++
      (h.reverse.takeWhile (·.instSeqNum ≤ n)).reverse := by
    rw [← List.reverse_append, List.takeWhile_append_dropWhile, List.reverse_reverse]
  have hsub : ∀ e ∈ (h.reverse.dropWhile (·.instSeqNum ≤ n)).reverse, e ∈ h := by
    intro e he
    rw [hsplit]
    exact List.mem_append_left _ he
  refine ⟨?_, ?_, hl.logLe, hl.logSorted, ?_⟩
  · exact hl.sorted.sublist (by
      have happ := List.sublist_append_left (h.reverse.dropWhile (·.instSeqNum ≤ n)).reverse
        (h.reverse.takeWhile (·.instSeqNum ≤ n)).reverse
      rwa [← hsplit] at happ)
  · intro e he
    have hgt : n < e.instSeqNum := by
      simpa using eq_false_of_mem_dropWhile
        (fun x y hxy hy => decide_eq_true (le_trans hxy (of_decide_eq_true hy)))
        (List.pairwise_reverse.2 hl.sorted) e (List.mem_reverse.1 he)
    have hf := hl.fresh e (hsub e he)
    exact ⟨by omega, hf.2⟩
  · intro k hk
    have hold : ∀ e ∈ (h.reverse.takeWhile (·.instSeqNum ≤ n)).reverse, e.instSeqNum ≤ k := by
      intro e he
      have hle := List.mem_takeWhile_imp (List.mem_reverse.1 he)
      have hle : e.instSeqNum ≤ n := by simpa using hle
      omega
    rw [← hl.restore k (by omega), ← squashMap_append hold _ m, ← hsplit]

theorem LogOk.squash (hl : LogOk h m last committed log) (n : Nat) :
    LogOk (h.dropWhile (n < ·.instSeqNum)) (squashMap n h m) last committed (log.filter (·.1 ≤ n)) := by
  refine ⟨hl.sorted.sublist (List.dropWhile_sublist _), ?_, ?_, hl.logSorted.filter _, ?_⟩
  · exact fun e he => hl.fresh e ((List.dropWhile_sublist _).subset he)
  · exact fun x hx => hl.logLe x (List.mem_of_mem_filter hx)
  · intro k hk
    by_cases hkn : n ≤ k
    · have hle : ∀ e ∈ h.dropWhile (n < ·.instSeqNum), e.instSeqNum ≤ n := fun e he => by
        simpa using eq_false_of_mem_dropWhile
          (fun x y hxy hy => decide_eq_true (lt_of_lt_of_le (of_decide_eq_true hy) hxy))
          hl.sorted e he
      rw [squashMap_of_le (fun e he => (hle e he).trans hkn), mapBefore_of_le]
      intro x hx
      have hle : x.1 ≤ n := by simpa using (List.mem_filter.1 hx).2
      omega
    · rw [squashMap_dropWhile (by omega), hl.restore k hk, hl.restore n (by omega),
        mapBefore_filter (by omega) m hl.logSorted]

/-! ## Renaming is defined -/

/-- The assertion on the zero register at the state of a call: its physical register is a zero
register. -/
def ZeroOk (cfg : Config) (t : Fin T) (s : State T) : Prop :=
  ∀ p, (s.renameMap t .IntRegClass)[cfg.ZeroReg]? = some (some p) → p.isZeroReg cfg = true

theorem RegId.eq_IntReg {r : RegId} {i : Nat} (hc : r.regClass = .IntRegClass) (hi : r.regIdx = i) :
    r = .IntReg i := by
  obtain ⟨c, j, e, wf⟩ := r
  simp only at hc hi
  subst hc hi
  cases e with
  | none => rfl
  | some k => exact absurd (wf.1 rfl) (by decide)

/-- One destination takes at most one register of its class, and leaves the zero register. -/
theorem renameDestReg_frame {f : Flatten} {t : Fin T} {s s' : State T} {dest : RegId}
    (h : renameDestReg cfg f t n s dest = some s') :
    (∀ c, (s.freeList c).length ≤ (s'.freeList c).length + if dest.regClass = c then 1 else 0) ∧
      (ZeroOk cfg t s → ZeroOk cfg t s') := by
  unfold renameDestReg at h
  simp only [Option.bind_eq_bind, Option.bind_eq_some_iff, Option.some.injEq] at h
  obtain ⟨⟨⟨p, prev⟩, s1⟩, hr, rfl⟩ := h
  rcases rename_cases hr with ⟨_, rfl⟩ | ⟨rest, _, hfree, hz, rfl⟩
  · exact ⟨fun c => Nat.le_add_right _ _, fun hz => hz⟩
  · refine ⟨?_, ?_⟩
    · intro c
      simp only [setHist_freeList, setMap_freeList, setFree_freeList]
      by_cases hc : dest.regClass = c
      · rw [f.regClass_eq, hc] at hfree ⊢
        rw [Function.update_self, if_pos rfl, hfree, List.length_cons]
      · rw [f.regClass_eq, Function.update_of_ne (fun h => hc h.symm)]
        exact Nat.le_add_right _ _
    · intro hzero q hq
      simp only [setHist_renameMap, setMap_renameMap, setFree_renameMap, Function.update_self] at hq
      by_cases hint : (f.flattenRegId dest).regClass = .IntRegClass
      · rw [hint, Function.update_self] at hq
        have hidx : (f.flattenRegId dest).regIdx ≠ cfg.ZeroReg := by
          intro hi
          rw [hint] at hz
          exact hz (RegId.eq_IntReg hint hi)
        rw [List.getElem?_set_ne hidx] at hq
        exact hzero q hq
      · rw [Function.update_of_ne (fun h => hint h.symm)] at hq
        exact hzero q hq

theorem simpleRename_defined {t : Fin T} {c : RegClass} {arch : RegId} {s : State T}
    (hc : arch.regClass = c) (hlen : arch.regIdx < (s.renameMap t c).length)
    (hnone : none ∉ s.renameMap t c) (hfree : s.freeList c ≠ [])
    (hzero : cfg.ndebug = true ∨ (arch = .IntReg cfg.ZeroReg → ZeroOk cfg t s)) :
    ∃ r, simpleRename cfg t c arch s = some r := by
  obtain ⟨prev, hprev⟩ : ∃ prev, (s.renameMap t c)[arch.regIdx]? = some (some prev) := by
    cases hv : (s.renameMap t c)[arch.regIdx] with
    | none => exact absurd (hv ▸ List.getElem_mem hlen) hnone
    | some prev => exact ⟨prev, by rw [List.getElem?_eq_getElem hlen, hv]⟩
  unfold simpleRename
  rw [hprev]
  simp only
  split
  · cases hf : s.freeList c with
    | nil => exact absurd hf hfree
    | cons p rest => exact ⟨_, by rw [getReg, hf]; rfl⟩
  · rename_i hz
    have hz : arch = cfg.zeroReg c := not_not.1 hz
    have hint : c = .IntRegClass := by
      rw [← hc, hz]
      cases c <;> rfl
    have hassert : cfg.assert (prev.isZeroReg cfg) = some () := by
      unfold Config.assert
      rcases hzero with hn | hzero
      · rw [hn]
        rfl
      · subst hint
        have hidx : arch.regIdx = cfg.ZeroReg := by rw [hz]; rfl
        rw [hidx] at hprev
        rw [hzero hz prev hprev]
        simp
    exact ⟨_, by rw [hassert]; rfl⟩

theorem Inv.freeList_vecElem {s : State T} (hi : Inv cfg s) : s.freeList .VecElemClass = [] := by
  cases hf : s.freeList .VecElemClass with
  | nil => rfl
  | cons p rest =>
    have hmem : p ∈ s.freeList .VecElemClass := hf ▸ List.mem_cons_self
    have hsite : some p ∈ s.contents (.free .VecElemClass) := List.mem_map_of_mem hmem
    have hclass := mem_renamedClasses_of_hasPhysReg (hi.hasPhysReg hsite)
    rw [hi.freeClass _ p hmem] at hclass
    exact absurd hclass (by decide)

theorem rename_defined {t : Fin T} {arch : RegId} {s : State T} (hi : Inv cfg s)
    (hfree : arch.regClass ≠ .MiscRegClass → s.freeList arch.regClass ≠ [])
    (hidx : arch.regClass ∈ renamedClasses → arch.regIdx < cfg.mapSize arch.regClass)
    (hzero : cfg.ndebug = true ∨ (arch = .IntReg cfg.ZeroReg → ZeroOk cfg t s)) :
    ∃ r, rename cfg t arch s = some r := by
  have hsimple : arch.regClass ∈ renamedClasses →
      ∃ r, simpleRename cfg t arch.regClass arch s = some r := by
    intro hc
    obtain ⟨hlen, hnone⟩ := (hi.threads t).mapFull _ hc
    have hmisc : arch.regClass ≠ .MiscRegClass := by
      intro hm
      rw [hm] at hc
      exact absurd hc (by decide)
    exact simpleRename_defined rfl (hlen ▸ hidx hc) hnone (hfree hmisc) hzero
  have hfull : cfg.assert (vecMode = .Full) = some () := by simp [Config.assert, vecMode]
  unfold rename
  split
  · rename_i hc
    obtain ⟨r, hr⟩ := hsimple (by rw [hc]; decide)
    rw [hc] at hr
    exact ⟨r, by rw [hfull]; exact hr⟩
  · rename_i hc
    have hne := hfree (by rw [hc]; decide)
    rw [hc] at hne
    exact absurd hi.freeList_vecElem hne
  · exact ⟨_, rfl⟩
  · rename_i hvec helem hmisc
    refine hsimple ?_
    cases hc : arch.regClass with
    | IntRegClass => decide
    | FloatRegClass => decide
    | VecRegClass => exact absurd hc hvec
    | VecElemClass => exact absurd hc helem
    | CCRegClass => decide
    | MiscRegClass => exact absurd hc hmisc

theorem renameDests_defined {f : Flatten} {t : Fin T} : ∀ {dests : List RegId} {s : State T}, Inv cfg s →
    (∀ c, c ≠ .MiscRegClass → dests.countP (·.regClass = c) ≤ (s.freeList c).length) →
    (∀ d ∈ dests, d.regClass ∈ renamedClasses → (f.flattenRegId d).regIdx < cfg.mapSize d.regClass) →
    (cfg.ndebug = true ∨ ((∃ d ∈ dests, f.flattenRegId d = .IntReg cfg.ZeroReg) → ZeroOk cfg t s)) →
    ∃ s', dests.foldlM (renameDestReg cfg f t n) s = some s'
  | [], s, _, _, _, _ => ⟨s, rfl⟩
  | d :: dests, s, hi, hcount, hidx, hzero => by
    have hd : d ∈ d :: dests := List.mem_cons_self
    have hfree : (f.flattenRegId d).regClass ≠ .MiscRegClass →
        s.freeList (f.flattenRegId d).regClass ≠ [] := by
      intro hm hnil
      have h := hcount _ hm
      rw [hnil, List.length_nil, List.countP_cons_of_pos (by simp [f.regClass_eq])] at h
      omega
    have hzd : cfg.ndebug = true ∨ (f.flattenRegId d = .IntReg cfg.ZeroReg → ZeroOk cfg t s) :=
      hzero.imp_right fun hz h => hz ⟨d, hd, h⟩
    obtain ⟨⟨⟨p, prev⟩, s1⟩, hr⟩ := rename_defined hi hfree
      (by rw [f.regClass_eq]; exact hidx d hd) hzd
    have hstep : renameDestReg cfg f t n s d = some (s1.setHist t
        (⟨n, f.flattenRegId d, p, prev⟩ :: s1.historyBuffer t)) := by
      rw [renameDestReg, hr]
      rfl
    obtain ⟨hlen, hkeep⟩ := renameDestReg_frame hstep
    obtain ⟨hi', _⟩ := renameDestReg_spec hi hstep
    have hcount' : ∀ c, c ≠ .MiscRegClass → dests.countP (·.regClass = c) ≤
        ((s1.setHist t (⟨n, f.flattenRegId d, p, prev⟩ :: s1.historyBuffer t)).freeList c).length := by
      intro c hc
      have h := hcount c hc
      have hl := hlen c
      rw [List.countP_cons] at h
      simp only [decide_eq_true_eq] at h
      omega
    obtain ⟨s', hs'⟩ := renameDests_defined hi' hcount'
      (fun x hx => hidx x (List.mem_cons_of_mem d hx))
      (hzero.imp_right fun hz ⟨x, hx, h⟩ => hkeep (hz ⟨x, List.mem_cons_of_mem d hx, h⟩))
    exact ⟨s', by rw [List.foldlM_cons, hstep]; exact hs'⟩

/-! ## Runs -/

structure TrackedOk (cfg : Config) (r : Tracked T) : Prop where
  inv : Inv cfg r.st
  logs : ∀ t, LogOk (r.st.historyBuffer t) (r.st.renameMap t) (r.lastSeq t) (r.committed t) (r.log t)

theorem trackedOk_start {s : State T} (hi : Inv cfg s) (hh : ∀ t, s.historyBuffer t = []) :
    TrackedOk cfg (start s) := by
  refine ⟨hi, fun t => ?_⟩
  simp only [start, hh t]
  exact ⟨List.Pairwise.nil, by simp, by simp, List.Pairwise.nil, fun _ _ => rfl⟩

theorem logs_update {hb : Fin T → List RenameHistory} {rm : Fin T → UnifiedRenameMap}
    {last com : Fin T → Nat} {log : Fin T → List (Nat × UnifiedRenameMap)}
    (hl : ∀ u, LogOk (hb u) (rm u) (last u) (com u) (log u)) {t : Fin T} {h' : List RenameHistory}
    {m' : UnifiedRenameMap} {last' com' : Nat} {log' : List (Nat × UnifiedRenameMap)}
    (hok : LogOk h' m' last' com' log') (u : Fin T) :
    LogOk (Function.update hb t h' u) (Function.update rm t m' u) (Function.update last t last' u)
      (Function.update com t com' u) (Function.update log t log' u) := by
  by_cases hu : u = t
  · subst hu
    simp only [Function.update_self]
    exact hok
  · simp only [Function.update_of_ne hu]
    exact hl u

theorem TrackedOk.step {r r' : Tracked T} {c : Call T} (hr : TrackedOk cfg r) (hok : ok r c)
    (h : step cfg r c = some r') : TrackedOk cfg r' := by
  cases c with
  | renameDestRegs t f inst =>
    simp only [Rename.step, Option.bind_eq_bind, Option.bind_eq_some_iff, Option.some.injEq] at h
    obtain ⟨s, hs, rfl⟩ := h
    obtain ⟨hi, es, hes, hhist, hmap, hsquash⟩ := renameDestRegs_spec hr.inv hs
    refine ⟨hi, fun u => ?_⟩
    have hu := logs_update (t := t) hr.logs ((hr.logs t).rename hok.2.1 hok.2.2 hes hsquash) u
    rw [← hhist, ← hmap, Function.update_eq_self] at hu
    exact hu
  | removeFromHistory t n =>
    simp only [Rename.step, Option.bind_eq_bind, Option.bind_eq_some_iff, Option.some.injEq] at h
    obtain ⟨s, hs, rfl⟩ := h
    obtain ⟨s', hs', hi, hhist, hmap⟩ := commitLoop_spec (n := n) hr.inv (List.reverse_reverse _).symm
    cases hs.symm.trans hs'
    refine ⟨hi, fun u => ?_⟩
    have hu := logs_update (t := t) hr.logs ((hr.logs t).commit n) u
    rw [← hhist, Function.update_eq_self, Function.update_eq_self, Function.update_eq_self, ← hmap] at hu
    exact hu
  | doSquash t n =>
    simp only [Rename.step, Option.bind_eq_bind, Option.bind_eq_some_iff, Option.some.injEq] at h
    obtain ⟨s, hs, rfl⟩ := h
    obtain ⟨s', hs', hi, hhist, hmap⟩ := squashLoop_spec (n := n) hr.inv rfl
    cases hs.symm.trans hs'
    refine ⟨hi, fun u => ?_⟩
    have hu := logs_update (t := t) hr.logs ((hr.logs t).squash n) u
    rw [← hhist, ← hmap, Function.update_eq_self, Function.update_eq_self] at hu
    exact hu

theorem reachable_trackedOk {s₀ : State cfg.numThreads} (h0 : init cfg = some s₀)
    {r : Tracked cfg.numThreads} (h : Reaches (step cfg) ok (start s₀) r) : TrackedOk cfg r := by
  obtain ⟨s, hs, hi, hh⟩ := init_spec cfg
  cases h0.symm.trans hs
  exact h.inv (trackedOk_start hi hh) fun _ _ _ hr hok hstep => hr.step hok hstep

/-- **Physical registers are conserved.**  From the state the constructor builds, in every run of the
rename stage, each physical register stands in exactly one place among the free lists, the maps
and the entries that really renamed; the history holds uncommitted entries only; a squash restores
the map from before the first squashed instruction; and every call is defined, a rename as long as
its registers exist and the assertion on the zero register holds or is compiled out. -/
theorem physRegs_conserved (cfg : Config) : ∃ s₀, init cfg = some s₀ ∧ ∀ r, Reaches (step cfg) ok (start s₀) r →
      (∀ p, cfg.hasPhysReg p →
        ∃! place : Site cfg.numThreads × Nat, (r.st.contents place.1)[place.2]? = some (some p)) ∧
      (∀ t, ∀ e ∈ r.st.historyBuffer t, r.committed t < e.instSeqNum) ∧
      (∀ t n, ∃ s', doSquash cfg n t r.st = some s' ∧
        (r.committed t ≤ n → s'.renameMap t = mapBefore (r.log t) n (r.st.renameMap t))) ∧
      (∀ t n, ∃ s', removeFromHistory n t r.st = some s') ∧ ∀ t f inst, canRename inst r.st = true →
        (∀ d ∈ inst.destRegs, d.regClass ∈ renamedClasses → (f.flattenRegId d).regIdx < cfg.mapSize d.regClass) →
        (cfg.ndebug = true ∨ ((∃ d ∈ inst.destRegs, f.flattenRegId d = .IntReg cfg.ZeroReg) → ZeroOk cfg t r.st)) →
        ∃ s', renameDestRegs cfg f t inst r.st = some s' := by
  obtain ⟨s₀, h0, _⟩ := init_spec cfg
  refine ⟨s₀, h0, fun r h => ?_⟩
  have hr := reachable_trackedOk h0 h
  refine ⟨?_, fun t e he => ((hr.logs t).fresh e he).1, ?_, ?_, ?_⟩
  · intro p hp
    have hone : r.st.copies p = 1 := by
      rw [hr.inv.copies p]
      exact if_pos hp
    exact Tokens.existsUnique_of_count hone
  · intro t n
    obtain ⟨s', hs', _, _, hmap⟩ := squashLoop_spec (n := n) hr.inv (rfl : r.st.historyBuffer t = _)
    refine ⟨s', hs', fun hn => ?_⟩
    rw [hmap, Function.update_self, (hr.logs t).restore n hn]
  · intro t n
    obtain ⟨s', hs', _⟩ :=
      commitLoop_spec (n := n) hr.inv (List.reverse_reverse (r.st.historyBuffer t)).symm
    exact ⟨s', hs'⟩
  · intro t f inst hcan hidx hzero
    refine renameDests_defined hr.inv ?_ hidx hzero
    simp only [canRename, Bool.and_eq_true, decide_eq_true_eq] at hcan
    obtain ⟨⟨⟨⟨hint, hfloat⟩, hvec⟩, helem⟩, hcc⟩ := hcan
    intro c hc
    cases c with
    | IntRegClass => exact hint
    | FloatRegClass => exact hfloat
    | VecRegClass => exact hvec
    | VecElemClass => exact helem
    | CCRegClass => exact hcc
    | MiscRegClass => exact absurd rfl hc

/-- Two threads with two integer registers each, the second the zero register, on eight physical
ones. -/
def twoThreads : Config where
  numThreads := 2
  NumIntRegs := 2
  NumFloatRegs := 0
  NumVecRegs := 0
  NumVecElemPerVecReg := 4
  NumCCRegs := 0
  ZeroReg := 1
  isAlpha := false
  ndebug := false
  numPhysIntRegs := 8
  numPhysFloatRegs := 0
  numPhysVecRegs := 0
  numPhysCCRegs := 0
  enoughInt := by decide
  enoughFloat := by decide
  enoughVec := by decide
  enoughCC := by decide

def bothInit : State 2 := (init twoThreads).get (by decide)

theorem id_regClass (r : RegId) : (id r).regClass = r.regClass := rfl

/-- A register written twice and the zero register on thread 0, then a write on thread 1. -/
def firstWrites : Call 2 :=
  .renameDestRegs ⟨0, Nat.two_pos⟩ ⟨id, id_regClass⟩ ⟨1, [.IntReg 0, .IntReg 0, .IntReg 1]⟩

def secondWrite : Call 2 := .renameDestRegs ⟨1, Nat.one_lt_two⟩ ⟨id, id_regClass⟩ ⟨2, [.IntReg 0]⟩

def afterFirst : Tracked 2 := (step twoThreads (start bothInit) firstWrites).get (by decide)

def afterSecond : Tracked 2 := (step twoThreads afterFirst secondWrite).get (by decide)

theorem physRegs_conserved_two_threads : Reaches (step twoThreads) ok (start bothInit) afterSecond ∧
    (afterSecond.st.historyBuffer 0).length = 3 ∧ (∃! place : Site 2 × Nat,
      (afterSecond.st.contents place.1)[place.2]? = some (some ⟨.IntRegClass, 5⟩)) ∧
    ∃ s', doSquash twoThreads 0 (0 : Fin 2) afterSecond.st = some s' ∧
      s'.renameMap (0 : Fin 2) = bothInit.renameMap 0 := by
  have hinit : init twoThreads = some bothInit := (Option.some_get _).symm
  obtain ⟨s₀, hs0, hall⟩ := physRegs_conserved twoThreads
  cases hs0.symm.trans hinit
  have h0 : Reaches (step twoThreads) ok (start bothInit) (start bothInit) := Reaches.refl
  have h1 : Reaches (step twoThreads) ok (start bothInit) afterFirst :=
    h0.step (i := firstWrites) ⟨by decide, by decide, by decide⟩ (Option.some_get _).symm
  have h2 : Reaches (step twoThreads) ok (start bothInit) afterSecond :=
    h1.step (i := secondWrite) ⟨by decide, by decide, by decide⟩ (Option.some_get _).symm
  obtain ⟨hplace, _, hsquash, _⟩ := hall afterSecond h2
  obtain ⟨s', hs', hmap⟩ := hsquash (0 : Fin 2) 0
  exact ⟨h2, by decide, hplace ⟨.IntRegClass, 5⟩ (by decide : 5 < 8), s', hs', hmap (by decide)⟩

end Alpine.Cpu.Rename
