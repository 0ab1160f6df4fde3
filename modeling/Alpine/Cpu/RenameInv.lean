import Alpine.Cpu.Rename

/-!
# What renaming, committing and squashing preserve

* `Inv` — every physical register stands in one place, in a list of its class, and a thread's history
  undoes its map entry by entry.
* `renameDestReg_spec`, `squashEntry_spec`, `commitEntry_spec` — one turn of each loop.
* `init_spec` — the constructor succeeds and establishes the invariant.
-/

namespace Alpine.Cpu.Rename

open Alpine

variable {T : Nat} {cfg : Config} {s s' : State T} {t : Fin T}

/-! ## The invariant -/

/-- A thread's maps with one history entry taken back. -/
def undoMap (m : UnifiedRenameMap) (e : RenameHistory) : UnifiedRenameMap :=
  if e.newPhysReg ≠ e.prevPhysReg then
    Function.update m e.archReg.regClass
      ((m e.archReg.regClass).set e.archReg.regIdx (some e.prevPhysReg))
  else m

/-- Taking the entries back, newest first, each finds its new register in the map. -/
def Undoable : List RenameHistory → UnifiedRenameMap → Prop
  | [], _ => True
  | e :: rest, m =>
    (e.newPhysReg ≠ e.prevPhysReg →
      (m e.archReg.regClass)[e.archReg.regIdx]? = some (some e.newPhysReg)) ∧
    Undoable rest (undoMap m e)

/-- One thread's history and maps. -/
structure ThreadOk (cfg : Config) (h : List RenameHistory) (m : UnifiedRenameMap) : Prop where
  mapClass : ∀ c p, some p ∈ m c → p.regClass = c
  mapFull : ∀ c ∈ renamedClasses, (m c).length = cfg.mapSize c ∧ none ∉ m c
  histClass : ∀ e ∈ h, e.newPhysReg ≠ e.prevPhysReg → e.prevPhysReg.regClass = e.archReg.regClass
  undoable : Undoable h m

structure Inv (cfg : Config) (s : State T) : Prop where
  copies : ∀ p, s.copies p = if p.regIdx < cfg.numPhysRegs p.regClass then 1 else 0
  freeClass : ∀ c, ∀ p ∈ s.freeList c, p.regClass = c
  threads : ∀ t, ThreadOk cfg (s.historyBuffer t) (s.renameMap t)

variable {p : PhysRegId}

theorem Inv.hasPhysReg {x : Site T} (hi : Inv cfg s) (h : some p ∈ s.contents x) : cfg.hasPhysReg p := by
  have hpos : 0 < s.copies p := Tokens.count_pos_of_mem h
  rw [hi.copies p] at hpos
  by_contra hno
  rw [if_neg (show ¬p.regIdx < cfg.numPhysRegs p.regClass from hno)] at hpos
  exact absurd hpos (lt_irrefl 0)

/-- No register stands in two places. -/
theorem Inv.ne_of_sites {q : PhysRegId} {x y : Site T} (hi : Inv cfg s) (hxy : x ≠ y)
    (hp : some p ∈ s.contents x) (hq : some q ∈ s.contents y) : p ≠ q := by
  rintro rfl
  have htwo : 2 ≤ s.copies p := Tokens.two_le_count hxy hp hq
  rw [hi.copies p] at htwo
  split at htwo <;> omega

theorem mem_renamedClasses_of_hasPhysReg (h : cfg.hasPhysReg p) : p.regClass ∈ renamedClasses := by
  unfold Config.hasPhysReg at h
  cases hc : p.regClass with
  | IntRegClass => decide
  | FloatRegClass => decide
  | VecRegClass => decide
  | VecElemClass => rw [hc] at h; exact absurd h (Nat.not_lt_zero _)
  | CCRegClass => decide
  | MiscRegClass => rw [hc] at h; exact absurd h (Nat.not_lt_zero _)

/-! ## Counting in a list with one entry replaced -/

theorem count_set_add {m : Arch2PhysMap} {i : Nat} {a b : Option PhysRegId} (h : m[i]? = some a) (q : PhysRegId) :
    (m.set i b).count (some q) + (if a = some q then 1 else 0) =
      m.count (some q) + (if b = some q then 1 else 0) := by
  obtain ⟨hlt, ha⟩ := List.getElem?_eq_some_iff.1 h
  rw [List.count_set hlt, ha]
  have hmem : a = some q → 0 < m.count (some q) := by
    rintro rfl
    exact List.count_pos_iff.2 (List.mem_of_getElem? h)
  simp only [beq_iff_eq]
  split <;> split <;> simp_all

theorem count_cons_free (p q : PhysRegId) (l : List PhysRegId) :
    (p :: l).count q = l.count q + (if some p = some q then 1 else 0) := by
  rw [List.count_cons]
  simp

variable {e : RenameHistory}

theorem held_of_ne (h : e.newPhysReg ≠ e.prevPhysReg) : e.held = some e.prevPhysReg := if_pos h

theorem held_of_eq (h : e.newPhysReg = e.prevPhysReg) : e.held = none :=
  if_neg (not_not.2 h)

/-! ## One destination renamed -/

/-- A thread's maps after the rename an entry records. -/
def doMap (m : UnifiedRenameMap) (e : RenameHistory) : UnifiedRenameMap :=
  if e.newPhysReg ≠ e.prevPhysReg then
    Function.update m e.archReg.regClass
      ((m e.archReg.regClass).set e.archReg.regIdx (some e.newPhysReg))
  else m

variable {m : UnifiedRenameMap}

theorem undoMap_doMap
    (h : e.newPhysReg ≠ e.prevPhysReg → (m e.archReg.regClass)[e.archReg.regIdx]? = some (some e.prevPhysReg)) :
    undoMap (doMap m e) e = m := by
  unfold undoMap doMap
  split
  · rename_i hne
    obtain ⟨hlt, hget⟩ := List.getElem?_eq_some_iff.1 (h hne)
    rw [Function.update_self, Function.update_idem, List.set_set, ← hget, List.set_getElem_self,
      Function.update_eq_self]
  · rfl

theorem mapClass_update {c : RegClass} {i : Nat} (h : ∀ c p, some p ∈ m c → p.regClass = c) (hp : p.regClass = c) :
    ∀ d q, some q ∈ Function.update m c ((m c).set i (some p)) d → q.regClass = d := by
  intro d q hq
  by_cases hd : d = c
  · subst hd
    rw [Function.update_self] at hq
    rcases List.mem_or_eq_of_mem_set hq with hq | hq
    · exact h d q hq
    · rw [Option.some.inj hq, hp]
  · rw [Function.update_of_ne hd] at hq
    exact h d q hq

theorem mapFull_update {c : RegClass} {i : Nat}
    (h : ∀ c ∈ renamedClasses, (m c).length = cfg.mapSize c ∧ none ∉ m c) :
    ∀ d ∈ renamedClasses, (Function.update m c ((m c).set i (some p)) d).length = cfg.mapSize d ∧
      none ∉ Function.update m c ((m c).set i (some p)) d := by
  intro d hd
  by_cases hdc : d = c
  · subst hdc
    rw [Function.update_self, List.length_set]
    refine ⟨(h d hd).1, ?_⟩
    intro hmem
    rcases List.mem_or_eq_of_mem_set hmem with hmem | hmem
    · exact (h d hd).2 hmem
    · cases hmem
  · rw [Function.update_of_ne hdc]
    exact h d hd

variable {h : List RenameHistory}

theorem ThreadOk.push (hok : ThreadOk cfg h m) (hmap : e.newPhysReg ≠ e.prevPhysReg →
      (m e.archReg.regClass)[e.archReg.regIdx]? = some (some e.prevPhysReg))
    (hclass : e.newPhysReg ≠ e.prevPhysReg → e.newPhysReg.regClass = e.archReg.regClass) :
    ThreadOk cfg (e :: h) (doMap m e) := by
  refine ⟨?_, ?_, ?_, ?_, ?_⟩
  · unfold doMap
    split
    · rename_i hne; exact mapClass_update hok.mapClass (hclass hne)
    · exact hok.mapClass
  · unfold doMap
    split
    · exact mapFull_update hok.mapFull
    · exact hok.mapFull
  · intro x hx hne
    rcases List.mem_cons.1 hx with rfl | hx
    · exact hok.mapClass _ _ (List.mem_of_getElem? (hmap hne))
    · exact hok.histClass x hx hne
  · intro hne
    rw [doMap, if_pos hne, Function.update_self]
    exact List.getElem?_set_self (List.getElem?_eq_some_iff.1 (hmap hne)).1
  · rw [undoMap_doMap hmap]
    exact hok.undoable

theorem ThreadOk.pop (hok : ThreadOk cfg (e :: h) m) : ThreadOk cfg h (undoMap m e) := by
  have hclass := hok.histClass e List.mem_cons_self
  refine ⟨?_, ?_, fun x hx => hok.histClass x (List.mem_cons_of_mem e hx), hok.undoable.2⟩
  · unfold undoMap
    split
    · rename_i hne; exact mapClass_update hok.mapClass (hclass hne)
    · exact hok.mapClass
  · unfold undoMap
    split
    · exact mapFull_update hok.mapFull
    · exact hok.mapFull

theorem Undoable.prefix : ∀ {h old : List RenameHistory} {m : UnifiedRenameMap}, Undoable (h ++ old) m → Undoable h m
  | [], _, _, _ => trivial
  | _ :: _, _, _, hu => ⟨hu.1, Undoable.prefix hu.2⟩

theorem ThreadOk.dropOld {old : List RenameHistory} (hok : ThreadOk cfg (h ++ old) m) : ThreadOk cfg h m :=
  ⟨hok.mapClass, hok.mapFull, fun x hx => hok.histClass x (List.mem_append_left old hx),
    hok.undoable.prefix⟩

theorem threads_update {hb : Fin T → List RenameHistory} {rm : Fin T → UnifiedRenameMap}
    (hi : ∀ u, ThreadOk cfg (hb u) (rm u)) (hok : ThreadOk cfg h m) (t u : Fin T) :
    ThreadOk cfg (Function.update hb t h u) (Function.update rm t m u) := by
  by_cases hu : u = t
  · subst hu
    rw [Function.update_self, Function.update_self]
    exact hok
  · rw [Function.update_of_ne hu, Function.update_of_ne hu]
    exact hi u

/-- **A renamed destination keeps the invariant and adds one entry, which undoes it.** -/
theorem renameDestReg_spec {f : Flatten} {n : Nat} {dest : RegId} (hi : Inv cfg s)
    (h : renameDestReg cfg f t n s dest = some s') : Inv cfg s' ∧ ∃ e : RenameHistory, e.instSeqNum = n ∧
      s'.historyBuffer = Function.update s.historyBuffer t (e :: s.historyBuffer t) ∧
      s'.renameMap = Function.update s.renameMap t (doMap (s.renameMap t) e) ∧
      undoMap (doMap (s.renameMap t) e) e = s.renameMap t := by
  unfold renameDestReg at h
  simp only [Option.bind_eq_bind, Option.bind_eq_some_iff, Option.some.injEq] at h
  obtain ⟨⟨⟨p, prev⟩, s1⟩, hr, rfl⟩ := h
  simp only
  set arch := f.flattenRegId dest with harch
  set e : RenameHistory := ⟨n, arch, p, prev⟩ with he
  rcases rename_cases hr with ⟨rfl, rfl⟩ | ⟨rest, hmap, hfree, _, rfl⟩
  · -- nothing was renamed: the entry holds no register
    have hheld : e.held = none := held_of_eq rfl
    have hdo : doMap (s1.renameMap t) e = s1.renameMap t := if_neg (not_not.2 rfl)
    have hpush := (hi.threads t).push (e := e) (fun hne => absurd rfl hne) (fun hne => absurd rfl hne)
    refine ⟨⟨?_, hi.freeClass, ?_⟩, e, rfl, rfl, ?_, undoMap_doMap fun hne => absurd rfl hne⟩
    · intro q
      have hc := copies_setHist s1 t (e :: s1.historyBuffer t) q
      rw [List.map_cons, hheld, List.count_cons_of_ne (by simp)] at hc
      rw [← hi.copies q]
      omega
    · intro u
      have hu := threads_update hi.threads hpush t u
      rw [hdo, Function.update_eq_self] at hu
      exact hu
    · rw [hdo, Function.update_eq_self, setHist_renameMap]
  · -- a free register took the place of `prev`, which moves to the history
    have hpmem : p ∈ s.freeList arch.regClass := hfree ▸ List.mem_cons_self
    have hprevmem : some prev ∈ s.renameMap t arch.regClass := List.mem_of_getElem? hmap
    have hpfree : some p ∈ s.contents (.free arch.regClass) := List.mem_map_of_mem hpmem
    have hne : p ≠ prev := hi.ne_of_sites (y := .map t arch.regClass) (by simp) hpfree hprevmem
    have hheld : e.held = some prev := held_of_ne hne
    have hdo : doMap (s.renameMap t) e = Function.update (s.renameMap t) arch.regClass
        ((s.renameMap t arch.regClass).set arch.regIdx (some p)) := if_pos hne
    have hpush := (hi.threads t).push (e := e) (fun _ => hmap) (fun _ => hi.freeClass _ p hpmem)
    refine ⟨⟨?_, ?_, ?_⟩, e, rfl, rfl, ?_, undoMap_doMap fun _ => hmap⟩
    · intro q
      have h1 := copies_setFree s arch.regClass rest q
      have h2 := copies_setMap (s.setFree arch.regClass rest) t arch.regClass
        ((s.renameMap t arch.regClass).set arch.regIdx (some p)) q
      have h3 := copies_setHist ((s.setFree arch.regClass rest).setMap t arch.regClass
        ((s.renameMap t arch.regClass).set arch.regIdx (some p))) t (e :: s.historyBuffer t) q
      have h4 := count_set_add (b := some p) hmap q
      rw [hfree, count_cons_free] at h1
      rw [setFree_renameMap] at h2
      rw [setMap_historyBuffer, setFree_historyBuffer, List.map_cons, hheld, List.count_cons] at h3
      simp only [beq_iff_eq] at h3
      rw [← hi.copies q]
      simp only [setMap_historyBuffer, setFree_historyBuffer]
      omega
    · intro c x hx
      rw [setHist_freeList, setMap_freeList, setFree_freeList] at hx
      by_cases hc : c = arch.regClass
      · subst hc
        rw [Function.update_self] at hx
        exact hi.freeClass _ x (hfree ▸ List.mem_cons_of_mem p hx)
      · rw [Function.update_of_ne hc] at hx
        exact hi.freeClass c x hx
    · intro u
      rw [setHist_historyBuffer, setHist_renameMap, setMap_historyBuffer, setFree_historyBuffer,
        setMap_renameMap, setFree_renameMap, ← hdo]
      exact threads_update hi.threads hpush t u
    · rw [setHist_renameMap, setMap_renameMap, setFree_renameMap, hdo]

/-! ## One entry undone or committed -/

/-- The register a real entry holds is on the file, so its class has a free list and a map. -/
theorem Inv.held_class (hi : Inv cfg s) (he : e ∈ s.historyBuffer t) (hne : e.newPhysReg ≠ e.prevPhysReg) :
    e.prevPhysReg.regClass ∈ renamedClasses := by
  have hmem : some e.prevPhysReg ∈ s.contents (.hist t) := by
    rw [← held_of_ne hne]
    exact List.mem_map_of_mem he
  exact mem_renamedClasses_of_hasPhysReg (hi.hasPhysReg hmem)

theorem addReg_eq (h : p.regClass ∈ renamedClasses) (s : State T) :
    addReg p s = some (s.setFree p.regClass (s.freeList p.regClass ++ [p])) := by
  have hne : p.regClass ≠ .MiscRegClass := by
    intro hm
    rw [hm] at h
    exact absurd h (by decide)
  exact if_neg hne

theorem freeClass_append {fl : RegClass → List PhysRegId} (h : ∀ c, ∀ p ∈ fl c, p.regClass = c) (p : PhysRegId) :
    ∀ c, ∀ x ∈ Function.update fl p.regClass (fl p.regClass ++ [p]) c, x.regClass = c := by
  intro c x hx
  by_cases hc : c = p.regClass
  · subst hc
    rw [Function.update_self, List.mem_append, List.mem_singleton] at hx
    rcases hx with hx | rfl
    · exact h _ x hx
    · rfl
  · rw [Function.update_of_ne hc] at hx
    exact h c x hx

theorem setEntry_eq {arch : RegId} (h : arch.regClass ∈ renamedClasses) (hp : p.regClass = arch.regClass)
    (hlt : arch.regIdx < (s.renameMap t arch.regClass).length) :
    setEntry cfg t arch p s = some (s.setMap t arch.regClass
      ((s.renameMap t arch.regClass).set arch.regIdx (some p))) := by
  have hflat : arch.flatIndex cfg = arch.regIdx := by
    unfold RegId.flatIndex
    cases he : arch.elemIdx with
    | none => rfl
    | some k =>
      have helem := arch.wf.1 (by rw [he]; rfl)
      rw [helem] at h
      exact absurd h (by decide)
  have hassert : ∀ b : Bool, b = true → cfg.assert b = some () := by
    rintro b rfl
    simp [Config.assert]
  have hsimple : simpleSetEntry t arch.regClass arch.regIdx p s = some (s.setMap t arch.regClass
      ((s.renameMap t arch.regClass).set arch.regIdx (some p))) := if_pos hlt
  unfold setEntry
  rw [hflat]
  split
  all_goals rename_i hc
  · rw [hassert _ (by rw [hp, hc]; rfl), hassert _ (by rfl), ← hc]
    exact hsimple
  · rw [hc] at h
    exact absurd h (by decide)
  · rw [hc] at h
    exact absurd h (by decide)
  · rw [hassert _ (by rw [hp]; exact decide_eq_true rfl)]
    exact hsimple

/-- **Undoing the newest entry succeeds and takes it back from the map.** -/
theorem squashEntry_spec {rest : List RenameHistory} (hi : Inv cfg s) (hh : s.historyBuffer t = e :: rest) :
    ∃ s', squashEntry cfg t e rest s = some s' ∧ Inv cfg s' ∧
      s'.historyBuffer = Function.update s.historyBuffer t rest ∧
      s'.renameMap = Function.update s.renameMap t (undoMap (s.renameMap t) e) := by
  have hpop : ThreadOk cfg rest (undoMap (s.renameMap t) e) := (hh ▸ hi.threads t : ThreadOk _ _ _).pop
  have hmem : e ∈ s.historyBuffer t := hh ▸ List.mem_cons_self
  by_cases hne : e.newPhysReg ≠ e.prevPhysReg
  · have hthread := hi.threads t
    have hund : Undoable (e :: rest) (s.renameMap t) := hh ▸ hthread.undoable
    have hmap := hund.1 hne
    have hnew := hthread.mapClass _ _ (List.mem_of_getElem? hmap)
    have hprev := hthread.histClass e hmem hne
    have hclass : e.archReg.regClass ∈ renamedClasses := hprev ▸ hi.held_class hmem hne
    have hset : setEntry cfg t e.archReg e.prevPhysReg s = _ :=
      setEntry_eq hclass hprev (List.getElem?_eq_some_iff.1 hmap).1
    have hundo : undoMap (s.renameMap t) e = Function.update (s.renameMap t) e.archReg.regClass
        ((s.renameMap t e.archReg.regClass).set e.archReg.regIdx (some e.prevPhysReg)) := if_pos hne
    set s1 := s.setMap t e.archReg.regClass
      ((s.renameMap t e.archReg.regClass).set e.archReg.regIdx (some e.prevPhysReg)) with hs1
    have hadd := addReg_eq (hnew.symm ▸ hclass) s1
    refine ⟨_, by rw [squashEntry, if_pos hne, hset, Option.bind_eq_bind, Option.bind_some, hadd];
                  rfl, ⟨?_, ?_, ?_⟩, rfl, ?_⟩
    · intro q
      have h1 := copies_setMap s t e.archReg.regClass
        ((s.renameMap t e.archReg.regClass).set e.archReg.regIdx (some e.prevPhysReg)) q
      rw [← hs1] at h1
      have h2 := copies_setFree s1 e.newPhysReg.regClass
        (s1.freeList e.newPhysReg.regClass ++ [e.newPhysReg]) q
      have h3 := copies_setHist (s1.setFree e.newPhysReg.regClass
        (s1.freeList e.newPhysReg.regClass ++ [e.newPhysReg])) t rest q
      have h4 := count_set_add (b := some e.prevPhysReg) hmap q
      rw [List.count_append, count_cons_free, List.count_nil] at h2
      rw [setFree_historyBuffer, setMap_historyBuffer, hh, List.map_cons, held_of_ne hne, List.count_cons] at h3
      simp only [beq_iff_eq] at h3
      rw [← hi.copies q]
      omega
    · exact freeClass_append hi.freeClass e.newPhysReg
    · intro u
      have hu := threads_update hi.threads hpop t u
      rw [hundo] at hu
      exact hu
    · rw [hundo]; rfl
  · have hundo : undoMap (s.renameMap t) e = s.renameMap t := if_neg hne
    refine ⟨s.setHist t rest, by rw [squashEntry, if_neg hne]; rfl, ⟨?_, hi.freeClass, ?_⟩, rfl, ?_⟩
    · intro q
      have hc := copies_setHist s t rest q
      rw [hh, List.map_cons, held_of_eq (not_not.1 hne), List.count_cons_of_ne (by simp)] at hc
      rw [← hi.copies q]
      omega
    · intro u
      have hu := threads_update hi.threads hpop t u
      rw [hundo, Function.update_eq_self] at hu
      exact hu
    · rw [hundo, Function.update_eq_self]; rfl

/-- **Committing the oldest entry succeeds and leaves the map.** -/
theorem commitEntry_spec {newer : List RenameHistory} (hi : Inv cfg s)
    (hh : s.historyBuffer t = newer.reverse ++ [e]) : ∃ s', commitEntry t e newer s = some s' ∧ Inv cfg s' ∧
      s'.historyBuffer = Function.update s.historyBuffer t newer.reverse ∧ s'.renameMap = s.renameMap := by
  have hdrop : ThreadOk cfg newer.reverse (s.renameMap t) :=
    (hh ▸ hi.threads t : ThreadOk _ _ _).dropOld
  have hmem : e ∈ s.historyBuffer t := by rw [hh]; simp
  have hthreads : ∀ u, ThreadOk cfg (Function.update s.historyBuffer t newer.reverse u)
      (s.renameMap u) := by
    intro u
    have hu := threads_update hi.threads hdrop t u
    rw [Function.update_eq_self] at hu
    exact hu
  by_cases hne : e.newPhysReg ≠ e.prevPhysReg
  · have hadd := addReg_eq (hi.held_class hmem hne) s
    refine ⟨(s.setFree e.prevPhysReg.regClass (s.freeList e.prevPhysReg.regClass ++
      [e.prevPhysReg])).setHist t newer.reverse, by rw [commitEntry, if_pos hne, hadd]; rfl,
      ⟨?_, ?_, hthreads⟩, rfl, rfl⟩
    · intro q
      have h1 := copies_setFree s e.prevPhysReg.regClass
        (s.freeList e.prevPhysReg.regClass ++ [e.prevPhysReg]) q
      have h2 := copies_setHist (s.setFree e.prevPhysReg.regClass
        (s.freeList e.prevPhysReg.regClass ++ [e.prevPhysReg])) t newer.reverse q
      rw [List.count_append, count_cons_free, List.count_nil] at h1
      rw [setFree_historyBuffer, hh, List.map_append, List.map_singleton, held_of_ne hne,
        List.count_append, List.count_cons, List.count_nil] at h2
      simp only [beq_iff_eq] at h2
      rw [← hi.copies q]
      omega
    · exact freeClass_append hi.freeClass e.prevPhysReg
  · refine ⟨s.setHist t newer.reverse, by rw [commitEntry, if_neg hne]; rfl,
      ⟨?_, hi.freeClass, hthreads⟩, rfl, rfl⟩
    intro q
    have hc := copies_setHist s t newer.reverse q
    rw [hh, List.map_append, List.map_singleton, held_of_eq (not_not.1 hne), List.count_append,
      List.count_cons_of_ne (by simp), List.count_nil] at hc
    rw [← hi.copies q]
    omega

/-! ## The loops -/

/-- A thread's maps after the loop of `doSquash`. -/
def squashMap (n : Nat) : List RenameHistory → UnifiedRenameMap → UnifiedRenameMap
  | [], m => m
  | e :: rest, m => if e.instSeqNum > n then squashMap n rest (undoMap m e) else m

theorem squashLoop_spec {n : Nat} : ∀ {h : List RenameHistory} {s : State T}, Inv cfg s → s.historyBuffer t = h →
    ∃ s', squashLoop cfg n t h s = some s' ∧ Inv cfg s' ∧
      s'.historyBuffer = Function.update s.historyBuffer t (h.dropWhile (n < ·.instSeqNum)) ∧
      s'.renameMap = Function.update s.renameMap t (squashMap n h (s.renameMap t))
  | [], s, hi, hh => by
    refine ⟨s, rfl, hi, ?_, ?_⟩
    · rw [List.dropWhile_nil, ← hh, Function.update_eq_self]
    · rw [squashMap, Function.update_eq_self]
  | e :: rest, s, hi, hh => by
    by_cases hn : e.instSeqNum > n
    · obtain ⟨s1, hs1, hi1, hhist1, hmap1⟩ := squashEntry_spec hi hh
      have hh1 : s1.historyBuffer t = rest := by rw [hhist1, Function.update_self]
      obtain ⟨s', hs', hi', hhist', hmap'⟩ := squashLoop_spec (n := n) hi1 hh1
      refine ⟨s', ?_, hi', ?_, ?_⟩
      · rw [squashLoop, if_pos hn, hs1]
        exact hs'
      · rw [hhist', hhist1, Function.update_idem, List.dropWhile_cons_of_pos (by simpa using hn)]
      · rw [hmap', hmap1, Function.update_idem, Function.update_self, squashMap, if_pos hn]
    · refine ⟨s, by rw [squashLoop, if_neg hn], hi, ?_, ?_⟩
      · rw [List.dropWhile_cons_of_neg (by simpa using hn), ← hh, Function.update_eq_self]
      · rw [squashMap, if_neg hn, Function.update_eq_self]

theorem commitLoop_spec {n : Nat} : ∀ {l : List RenameHistory} {s : State T}, Inv cfg s →
    s.historyBuffer t = l.reverse → ∃ s', commitLoop n t l s = some s' ∧ Inv cfg s' ∧ s'.historyBuffer =
        Function.update s.historyBuffer t (l.dropWhile (·.instSeqNum ≤ n)).reverse ∧ s'.renameMap = s.renameMap
  | [], s, hi, hh => by
    refine ⟨s, rfl, hi, ?_, rfl⟩
    rw [List.dropWhile_nil, ← hh, Function.update_eq_self]
  | e :: newer, s, hi, hh => by
    by_cases hn : e.instSeqNum ≤ n
    · have hlast : s.historyBuffer t = newer.reverse ++ [e] := by rw [hh, List.reverse_cons]
      obtain ⟨s1, hs1, hi1, hhist1, hmap1⟩ := commitEntry_spec hi hlast
      have hh1 : s1.historyBuffer t = newer.reverse := by rw [hhist1, Function.update_self]
      obtain ⟨s', hs', hi', hhist', hmap'⟩ := commitLoop_spec (n := n) hi1 hh1
      refine ⟨s', ?_, hi', ?_, by rw [hmap', hmap1]⟩
      · rw [commitLoop, if_pos hn, hs1]
        exact hs'
      · rw [hhist', hhist1, Function.update_idem, List.dropWhile_cons_of_pos (by simpa using hn)]
    · refine ⟨s, by rw [commitLoop, if_neg hn], hi, ?_, rfl⟩
      rw [List.dropWhile_cons_of_neg (by simpa using hn), ← hh, Function.update_eq_self]

/-- **Squashing a renamed instruction goes on where squashing before it goes on.** -/
theorem renameDestRegs_spec {f : Flatten} {n : Nat} : ∀ {dests : List RegId} {s s' : State T},
    Inv cfg s → dests.foldlM (renameDestReg cfg f t n) s = some s' →
    Inv cfg s' ∧ ∃ es : List RenameHistory, (∀ e ∈ es, e.instSeqNum = n) ∧
      s'.historyBuffer = Function.update s.historyBuffer t (es ++ s.historyBuffer t) ∧
      s'.renameMap = Function.update s.renameMap t (s'.renameMap t) ∧
      ∀ k < n, ∀ rest, squashMap k (es ++ rest) (s'.renameMap t) = squashMap k rest (s.renameMap t)
  | [], s, s', hi, h => by
    simp only [List.foldlM_nil, Option.pure_def, Option.some.injEq] at h
    subst h
    refine ⟨hi, [], by simp, ?_, ?_, fun k _ rest => rfl⟩
    · rw [List.nil_append, Function.update_eq_self]
    · rw [Function.update_eq_self]
  | d :: dests, s, s', hi, h => by
    simp only [List.foldlM_cons, Option.bind_eq_bind, Option.bind_eq_some_iff] at h
    obtain ⟨s1, h1, h⟩ := h
    obtain ⟨hi1, e, he, hhist1, hmap1, hundo⟩ := renameDestReg_spec hi h1
    obtain ⟨hi', es, hes, hhist', hmap', hsquash⟩ := renameDestRegs_spec hi1 h
    refine ⟨hi', es ++ [e], ?_, ?_, ?_, ?_⟩
    · intro x hx
      rcases List.mem_append.1 hx with hx | hx
      · exact hes x hx
      · rw [List.mem_singleton.1 hx, he]
    · rw [hhist', hhist1, Function.update_idem, Function.update_self, List.append_assoc]
      rfl
    · rw [hmap', hmap1, Function.update_idem, Function.update_self]
    · intro k hk rest
      rw [List.append_assoc, hsquash k hk, List.singleton_append, squashMap,
        if_pos (by omega : e.instSeqNum > k), hmap1, Function.update_self, hundo]

/-! ## The constructor -/

/-- The invariant while the maps are being filled. -/
structure InitInv (cfg : Config) (s : State T) : Prop where
  copies : ∀ p, s.copies p = if p.regIdx < cfg.numPhysRegs p.regClass then 1 else 0
  freeClass : ∀ c, ∀ p ∈ s.freeList c, p.regClass = c
  mapClass : ∀ t c p, some p ∈ s.renameMap t c → p.regClass = c
  hist : ∀ t, s.historyBuffer t = []

def Full (cfg : Config) (m : UnifiedRenameMap) (c : RegClass) : Prop :=
  (m c).length = cfg.mapSize c ∧ none ∉ m c

theorem setFree_setMap_idem (s : State T) (t : Fin T) (c : RegClass) (a b : List PhysRegId) (x y : Arch2PhysMap) :
    (((s.setFree c a).setMap t c x).setFree c b).setMap t c y = (s.setFree c b).setMap t c y := by
  simp [State.setFree, State.setMap, Function.update_idem]

theorem set_take_append_replicate {l : List PhysRegId} {j m : Nat} (hj : j < l.length) (hm : j < m) :
    ((l.take j).map some ++ List.replicate (m - j) none).set j (some l[j]) =
      (l.take (j + 1)).map some ++ List.replicate (m - (j + 1)) none := by
  have hlen : ((l.take j).map some).length = j := by
    rw [List.length_map, List.length_take]
    omega
  have hrep : m - j = (m - (j + 1)) + 1 := by omega
  rw [List.set_append_right _ _ (by omega), hlen, Nat.sub_self, hrep, List.replicate_succ,
    List.set_cons_zero, List.take_add_one, List.getElem?_eq_getElem hj, Option.toList_some,
    List.map_append, List.append_assoc]
  rfl

theorem initReg_loop {c : RegClass} {m : Nat} (hnull : s.renameMap t c = List.replicate m none) :
    ∀ {j : Nat}, j ≤ m → j ≤ (s.freeList c).length → (List.range j).foldlM (initReg t c) s =
      some ((s.setFree c ((s.freeList c).drop j)).setMap t c
        (((s.freeList c).take j).map some ++ List.replicate (m - j) none))
  | 0, _, _ => by
    simp only [List.range_zero, List.foldlM_nil, List.drop_zero, List.take_zero, List.map_nil,
      List.nil_append, Nat.sub_zero, ← hnull]
    simp [State.setFree, State.setMap]
  | j + 1, hm, hl => by
    have hloop := initReg_loop hnull (by omega : j ≤ m) (by omega : j ≤ (s.freeList c).length)
    have hlt : j < (s.freeList c).length := by omega
    rw [List.range_succ, List.foldlM_append, hloop]
    simp only [List.foldlM_cons, List.foldlM_nil, Option.bind_eq_bind, Option.bind_some, initReg,
      getReg, setMap_freeList, setFree_freeList, Function.update_self, List.drop_eq_getElem_cons hlt]
    rw [simpleSetEntry, if_pos]
    · simp only [setFree_renameMap, setMap_renameMap, Function.update_self, Option.bind_some,
        set_take_append_replicate hlt (by omega : j < m), setFree_setMap_idem]
      rfl
    · simp only [setFree_renameMap, setMap_renameMap, Function.update_self, List.length_append,
        List.length_map, List.length_take, List.length_replicate]
      omega

theorem initClass_spec {c : RegClass} (hi : InitInv cfg s)
    (hnull : s.renameMap t c = List.replicate (cfg.mapSize c) none) (hl : cfg.mapSize c ≤ (s.freeList c).length) :
    ∃ s', (List.range (cfg.mapSize c)).foldlM (initReg t c) s = some s' ∧ InitInv cfg s' ∧
      Full cfg (s'.renameMap t) c ∧ s'.renameMap = Function.update s.renameMap t
        (Function.update (s.renameMap t) c (s'.renameMap t c)) ∧ ∃ l, s'.freeList = Function.update s.freeList c l ∧
        l.length + cfg.mapSize c = (s.freeList c).length := by
  set m := cfg.mapSize c with hm
  set l := s.freeList c with hldef
  have hloop := initReg_loop hnull le_rfl hl
  rw [← hldef, Nat.sub_self, List.replicate_zero, List.append_nil] at hloop
  refine ⟨_, hloop, ⟨?_, ?_, ?_, hi.hist⟩, ?_, ?_, l.drop m, rfl, ?_⟩
  · intro p
    have h1 := copies_setFree s c (l.drop m) p
    have h2 := copies_setMap (s.setFree c (l.drop m)) t c ((l.take m).map some) p
    rw [setFree_renameMap, hnull, List.count_replicate, if_neg (by simp),
      List.count_map_of_injective _ _ (Option.some_injective _)] at h2
    have h3 : l.count p = (l.take m).count p + (l.drop m).count p := by
      rw [← List.count_append, List.take_append_drop]
    rw [← hldef] at h1
    rw [← hi.copies p]
    omega
  · intro d p hp
    rw [setMap_freeList, setFree_freeList] at hp
    by_cases hd : d = c
    · subst hd
      rw [Function.update_self] at hp
      exact hi.freeClass d p (List.mem_of_mem_drop hp)
    · rw [Function.update_of_ne hd] at hp
      exact hi.freeClass d p hp
  · intro u d p hp
    rw [setMap_renameMap, setFree_renameMap] at hp
    by_cases hu : u = t
    · subst hu
      rw [Function.update_self] at hp
      by_cases hd : d = c
      · subst hd
        rw [Function.update_self, List.mem_map] at hp
        obtain ⟨q, hq, hqp⟩ := hp
        rw [← Option.some.inj hqp]
        exact hi.freeClass d q (List.mem_of_mem_take hq)
      · rw [Function.update_of_ne hd] at hp
        exact hi.mapClass u d p hp
    · rw [Function.update_of_ne hu] at hp
      exact hi.mapClass u d p hp
  · unfold Full
    rw [setMap_renameMap, Function.update_self, Function.update_self]
    refine ⟨?_, fun hmem => ?_⟩
    · rw [List.length_map, List.length_take]
      omega
    · obtain ⟨_, _, hnone⟩ := List.mem_map.1 hmem
      cases hnone
  · simp only [setMap_renameMap, setFree_renameMap, Function.update_self]
  · rw [List.length_drop]
    omega

theorem initClasses_spec : ∀ {cs : List RegClass} {s : State T}, cs.Nodup → InitInv cfg s →
    (∀ c ∈ cs, s.renameMap t c = List.replicate (cfg.mapSize c) none) →
    (∀ c ∈ cs, cfg.mapSize c ≤ (s.freeList c).length) →
    ∃ s', cs.foldlM (fun s c => (List.range (cfg.mapSize c)).foldlM (initReg t c) s) s = some s' ∧
      InitInv cfg s' ∧ (∀ c ∈ cs, Full cfg (s'.renameMap t) c) ∧ (∀ c, c ∉ cs → s'.renameMap t c = s.renameMap t c) ∧
      (∀ u, u ≠ t → s'.renameMap u = s.renameMap u) ∧
      (∀ c ∈ cs, (s'.freeList c).length + cfg.mapSize c = (s.freeList c).length) ∧
      (∀ c, c ∉ cs → s'.freeList c = s.freeList c)
  | [], s, _, hi, _, _ => by
    exact ⟨s, rfl, hi, by simp, fun _ _ => rfl, fun _ _ => rfl, by simp, fun _ _ => rfl⟩
  | c :: cs, s, hnd, hi, hnull, hl => by
    obtain ⟨hc, hnd⟩ := List.nodup_cons.1 hnd
    obtain ⟨s1, h1, hi1, hfull1, hmap1, l, hfree1, hlen1⟩ :=
      initClass_spec hi (hnull c List.mem_cons_self) (hl c List.mem_cons_self)
    have hmapt : ∀ d, d ≠ c → s1.renameMap t d = s.renameMap t d := by
      intro d hd
      rw [hmap1, Function.update_self, Function.update_of_ne hd]
    have hfreet : ∀ d, d ≠ c → s1.freeList d = s.freeList d := by
      intro d hd
      rw [hfree1, Function.update_of_ne hd]
    have hne : ∀ d ∈ cs, d ≠ c := fun d hd h => hc (h ▸ hd)
    obtain ⟨s', hs', hi', hfull', hkeep', hother', hlen', hfree'⟩ :=
      initClasses_spec hnd hi1
        (fun d hd => by rw [hmapt d (hne d hd)]; exact hnull d (List.mem_cons_of_mem c hd))
        (fun d hd => by rw [hfreet d (hne d hd)]; exact hl d (List.mem_cons_of_mem c hd))
    refine ⟨s', ?_, hi', ?_, ?_, ?_, ?_, ?_⟩
    · rw [List.foldlM_cons, h1]
      exact hs'
    · intro d hd
      rcases List.mem_cons.1 hd with rfl | hd
      · unfold Full
        rw [hkeep' d hc]
        exact hfull1
      · exact hfull' d hd
    · intro d hd
      obtain ⟨hdc, hdcs⟩ := not_or.1 (fun h => hd (List.mem_cons.2 h))
      rw [hkeep' d hdcs, hmapt d hdc]
    · intro u hu
      rw [hother' u hu, hmap1, Function.update_of_ne hu]
    · intro d hd
      rcases List.mem_cons.1 hd with rfl | hd
      · rw [hfree' d hc, hfree1, Function.update_self, hlen1]
      · rw [hlen' d hd, hfreet d (hne d hd)]
    · intro d hd
      obtain ⟨hdc, hdcs⟩ := not_or.1 (fun h => hd (List.mem_cons.2 h))
      rw [hfree' d hdcs, hfreet d hdc]

theorem initThreads_spec : ∀ {ts : List (Fin T)} {s : State T}, ts.Nodup → InitInv cfg s →
    (∀ t ∈ ts, ∀ c ∈ renamedClasses, s.renameMap t c = List.replicate (cfg.mapSize c) none) →
    (∀ c ∈ renamedClasses, ts.length * cfg.mapSize c ≤ (s.freeList c).length) →
    ∃ s', ts.foldlM (initThread cfg) s = some s' ∧ InitInv cfg s' ∧
      (∀ t ∈ ts, ∀ c ∈ renamedClasses, Full cfg (s'.renameMap t) c) ∧ ∀ u, u ∉ ts → s'.renameMap u = s.renameMap u
  | [], s, _, hi, _, _ => ⟨s, rfl, hi, by simp, fun _ _ => rfl⟩
  | t :: ts, s, hnd, hi, hnull, hl => by
    obtain ⟨ht, hnd⟩ := List.nodup_cons.1 hnd
    have hl1 : ∀ c ∈ renamedClasses, ts.length * cfg.mapSize c + cfg.mapSize c ≤
        (s.freeList c).length := by
      intro c hc
      have h := hl c hc
      rw [List.length_cons, Nat.succ_mul] at h
      exact h
    have hclasses : renamedClasses.Nodup := by decide
    obtain ⟨s1, h1, hi1, hfull1, _, hother1, hlen1, _⟩ :=
      initClasses_spec (t := t) hclasses hi (hnull t List.mem_cons_self)
        (fun c hc => by have h := hl1 c hc; omega)
    have hne : ∀ u ∈ ts, u ≠ t := fun u hu h => ht (h ▸ hu)
    obtain ⟨s', hs', hi', hfull', hother'⟩ := initThreads_spec hnd hi1
      (fun u hu c hc => by
        rw [hother1 u (hne u hu)]; exact hnull u (List.mem_cons_of_mem t hu) c hc)
      (fun c hc => by have h := hl1 c hc; have h' := hlen1 c hc; omega)
    refine ⟨s', ?_, hi', ?_, ?_⟩
    · rw [List.foldlM_cons, initThread, h1]
      exact hs'
    · intro u hu c hc
      rcases List.mem_cons.1 hu with rfl | hu
      · rw [hother' u ht]
        exact hfull1 c hc
      · exact hfull' u hu c hc
    · intro u hu
      obtain ⟨hut, huts⟩ := not_or.1 (fun h => hu (List.mem_cons.2 h))
      rw [hother' u huts, hother1 u hut]

theorem initFreeList_copies (cfg : Config) (p : PhysRegId) :
    (initFreeList cfg).copies p = if p.regIdx < cfg.numPhysRegs p.regClass then 1 else 0 := by
  have hsite : (initFreeList cfg).copies p =
      ((initFreeList cfg).contents (.free p.regClass)).count (some p) := by
    unfold State.copies Tokens.count
    refine Finset.sum_eq_single _ ?_ (fun h => absurd (Finset.mem_univ _) h)
    intro x _ hx
    rw [List.count_eq_zero]
    intro hmem
    cases x with
    | free c =>
      obtain ⟨q, hq, hqp⟩ := List.mem_map.1 hmem
      obtain ⟨i, _, rfl⟩ := List.mem_map.1 hq
      rw [← Option.some.inj hqp] at hx
      exact hx rfl
    | map t c => cases List.eq_of_mem_replicate hmem
    | hist t => cases hmem
  have hinj : Function.Injective fun i => some (⟨p.regClass, i⟩ : PhysRegId) := by
    intro i j hij
    exact (PhysRegId.mk.inj (Option.some.inj hij)).2
  have hlist : (initFreeList cfg).contents (.free p.regClass) =
      (List.range (cfg.numPhysRegs p.regClass)).map fun i => some ⟨p.regClass, i⟩ := by
    simp [State.contents, initFreeList]
  rw [hsite, hlist, show some p = (fun i => some (⟨p.regClass, i⟩ : PhysRegId)) p.regIdx from rfl,
    List.count_map_of_injective _ _ hinj, List.nodup_range.count]
  simp

/-- **The constructor succeeds and establishes the invariant.** -/
theorem init_spec (cfg : Config) : ∃ s, init cfg = some s ∧ Inv cfg s ∧ ∀ t, s.historyBuffer t = [] := by
  have hbase : InitInv cfg (initFreeList cfg) := by
    refine ⟨initFreeList_copies cfg, ?_, ?_, fun _ => rfl⟩
    · intro c p hp
      obtain ⟨i, _, rfl⟩ := List.mem_map.1 hp
      rfl
    · intro t c p hp
      cases List.eq_of_mem_replicate hp
  have henough : ∀ c ∈ renamedClasses,
      (List.finRange cfg.numThreads).length * cfg.mapSize c ≤
        ((initFreeList cfg).freeList c).length := by
    intro c hc
    rw [List.length_finRange, initFreeList, List.length_map, List.length_range]
    simp only [renamedClasses, List.mem_cons, List.not_mem_nil, or_false] at hc
    rcases hc with rfl | rfl | rfl | rfl
    · exact cfg.enoughInt
    · exact cfg.enoughFloat
    · exact cfg.enoughVec
    · exact cfg.enoughCC
  obtain ⟨s, hs, hi, hfull, _⟩ := initThreads_spec (List.nodup_finRange _) hbase
    (fun _ _ _ _ => rfl) henough
  refine ⟨s, hs, ⟨hi.copies, hi.freeClass, ?_⟩, hi.hist⟩
  intro t
  refine ⟨hi.mapClass t, fun c hc => hfull t (List.mem_finRange t) c hc, ?_, ?_⟩
  · intro e he
    rw [hi.hist t] at he
    cases he
  · rw [hi.hist t]
    trivial

end Alpine.Cpu.Rename
