import Alpine.Mem.MSHR

/-!
# Clearing `downstreamPending`

Marked targets point up: a target of MSHR `m` that is marked pending points to the MSHR of the cache
above that sent its packet.  Every MSHR whose `downstreamPending` is set has one such target, and the
targets an MSHR is reached through have a smaller rank, so the recursion of
`MSHR::clearDownstreamPending` never meets an MSHR twice.

* `tally` — how many targets of all lists point to an MSHR.
* `clearDownstreamPending_spec` — the recursion succeeds within the number of MSHRs still pending, and
  leaves every MSHR as it was or cleared.
-/

namespace Alpine.Mem.MSHR

open Alpine Alpine.Mem

variable {n : Nat}

/-! ## Counting the targets that point to an MSHR -/

/-- The MSHR a marked target points to. -/
def Target.marks (t : Target n) : Option (Fin n) := if t.markedPending then t.pkt.mshr else none

def tally (f : Target n → Option (Fin n)) (h : Heap n) (k : Fin n) : ℕ :=
  Tokens.count (fun p : Fin n × Which => ((h p.1).list p.2).list.map f) (some k)

@[simp] theorem TargetList.withList_list (l : TargetList n) (ts : List (Target n)) : (l.withList ts).list = ts := rfl

theorem Entry.setList_list (e : Entry n) (w w' : Which) (l : TargetList n) :
    (e.setList w l).list w' = if w' = w then l else e.list w' := by
  cases w <;> cases w' <;> rfl

@[simp] theorem Entry.setList_downstreamPending (e : Entry n) (w : Which) (l : TargetList n) :
    (e.setList w l).downstreamPending = e.downstreamPending := by
  cases w <;> rfl

theorem tally_setList (f : Target n → Option (Fin n)) (h : Heap n) (m : Fin n) (w : Which)
    (l : TargetList n) (k : Fin n) : tally f (h.setList m w l) k + (((h m).list w).list.map f).count (some k) =
      tally f h k + (l.list.map f).count (some k) := by
  have hupd : (fun p : Fin n × Which => (((h.setList m w l) p.1).list p.2).list.map f) =
      Function.update (fun p : Fin n × Which => ((h p.1).list p.2).list.map f) (m, w)
        (l.list.map f) := by
    funext p
    obtain ⟨x, v⟩ := p
    by_cases hx : x = m
    · subst hx
      by_cases hv : v = w
      · subst hv
        simp [Heap.setList, Entry.setList_list]
      · have hne : ((x, v) : Fin n × Which) ≠ (x, w) := fun h => hv (Prod.mk.inj h).2
        simp [Heap.setList, Entry.setList_list, hv]
    · have hne : ((x, v) : Fin n × Which) ≠ (m, w) := fun h => hx (Prod.mk.inj h).1
      simp [Heap.setList, Function.update_of_ne hx, Function.update_of_ne hne]
  have hcount := Tokens.count_update (fun p : Fin n × Which => ((h p.1).list p.2).list.map f) (m, w)
    (l.list.map f) (some k)
  rw [← hupd] at hcount
  exact hcount

variable {h h' : Heap n}

theorem tally_congr {f : Target n → Option (Fin n)}
    (heq : ∀ m w, ((h' m).list w).list.map f = ((h m).list w).list.map f) : tally f h' = tally f h := by
  funext k
  unfold tally
  congr 1
  funext p
  exact heq p.1 p.2

variable {m : Fin n} {w : Which} {t : Target n}

theorem tally_pos {f : Target n → Option (Fin n)} {k : Fin n} (ht : t ∈ ((h m).list w).list)
    (hk : f t = some k) : 0 < tally f h k :=
  Tokens.count_pos_of_mem (i := ((m, w) : Fin n × Which)) (hk ▸ List.mem_map_of_mem ht)

/-! ## Cleared MSHRs -/

/-- An MSHR after its own `clearDownstreamPending`. -/
def Entry.cleared (e : Entry n) : Entry n :=
  { e with
    downstreamPending := false
    targets := { e.targets with list := e.targets.list.map Target.unmark } }

/-- Every MSHR is as it was, or was pending and has been cleared. -/
def Clears (h h' : Heap n) : Prop :=
  ∀ x, h' x = h x ∨ ((h x).downstreamPending = true ∧ h' x = (h x).cleared)

theorem Clears.refl (h : Heap n) : Clears h h := fun _ => .inl rfl

/-- Nothing that is not pending changes. -/
theorem Clears.same (hc : Clears h h') {x : Fin n} (hx : (h x).downstreamPending = false) : h' x = h x := by
  rcases hc x with h | ⟨hp, _⟩
  · exact h
  · rw [hx] at hp
    cases hp

theorem unmark_marks (t : Target n) : t.unmark.marks = none := rfl

/-- A target that is marked after a clearing is the same target before. -/
theorem Clears.mem (hc : Clears h h') {x : Fin n} (ht : t ∈ ((h' x).list w).list)
    (hm : t.markedPending = true) : t ∈ ((h x).list w).list := by
  rcases hc x with hx | ⟨_, hx⟩
  · rwa [hx] at ht
  · rw [hx] at ht
    cases w with
    | targets =>
      obtain ⟨u, _, rfl⟩ := List.mem_map.1 ht
      cases hm
    | deferredTargets => exact ht

/-- The number of MSHRs still pending. -/
def pendings (h : Heap n) : ℕ := (Finset.univ.filter fun x => (h x).downstreamPending = true).card

theorem Clears.pendings_le (hc : Clears h h') : pendings h' ≤ pendings h := by
  refine Finset.card_le_card fun x hx => ?_
  rw [Finset.mem_filter] at hx ⊢
  refine ⟨hx.1, ?_⟩
  rcases hc x with h | ⟨hp, _⟩
  · rw [← h]
    exact hx.2
  · exact hp

theorem pendings_le (h : Heap n) : pendings h ≤ n :=
  (Finset.card_filter_le _ _).trans (by simp)

theorem pendings_setDownstreamPending (hm : (h m).downstreamPending = true) :
    pendings (h.setDownstreamPending m false) < pendings h := by
  refine Finset.card_lt_card ⟨fun x hx => ?_, fun hsub => ?_⟩
  · rw [Finset.mem_filter] at hx ⊢
    refine ⟨hx.1, ?_⟩
    by_cases hxm : x = m
    · rw [hxm]
      exact hm
    · rw [Heap.setDownstreamPending, Function.update_of_ne hxm] at hx
      exact hx.2
  · have hmem := hsub (Finset.mem_filter.2 ⟨Finset.mem_univ m, hm⟩)
    rw [Finset.mem_filter, Heap.setDownstreamPending, Function.update_self] at hmem
    cases hmem.2

/-! ## The recursion -/

/-- Every marked target stands in an MSHR of smaller rank than the one it points to. -/
def Ranked (rank : Fin n → ℕ ×ₗ ℕ) (h : Heap n) : Prop :=
  ∀ m w t k, t ∈ ((h m).list w).list → t.marks = some k → rank m < rank k

/-- The targets that point to an MSHR: one while it is pending, and one to each MSHR in `open`
whose clearing has begun. -/
def Balanced (h : Heap n) (opened : Fin n → ℕ) : Prop :=
  ∀ k, tally Target.marks h k = (if (h k).downstreamPending then 1 else 0) + opened k

variable {rank : Fin n → ℕ ×ₗ ℕ}

theorem marks_some {k : Fin n} (h : t.marks = some k) : t.markedPending = true ∧ t.pkt.mshr = some k := by
  unfold Target.marks at h
  split at h
  · rename_i hm; exact ⟨hm, h⟩
  · cases h

theorem Ranked.clears (hr : Ranked rank h) (hc : Clears h h') : Ranked rank h' :=
  fun m w t k ht hk => hr m w t k (hc.mem ht (marks_some hk).1) hk

/-- What one call of `MSHR::clearDownstreamPending` promises. -/
def ClearSpec (rank : Fin n → ℕ ×ₗ ℕ) (clear : Fin n → Heap n → Except Failure (Heap n)) (fuel : ℕ) : Prop :=
  ∀ (m : Fin n) (h : Heap n) (opened : Fin n → ℕ), pendings h ≤ fuel → Ranked rank h →
    Balanced h opened → (∀ x, 0 < opened x → rank x < rank m) → 0 < tally Target.marks h m →
    ∃ h', clear m h = .ok h' ∧ Clears h h' ∧ h' m = (h m).cleared ∧
      Balanced h' (fun k => opened k + if k = m then 1 else 0)

theorem count_middle {β : Type} [BEq β] [LawfulBEq β] (f : Target n → β) (a c : List (Target n))
    (t : Target n) (b : β) :
    ((a ++ t :: c).map f).count b = ((a ++ c).map f).count b + if f t == b then 1 else 0 := by
  simp only [List.map_append, List.map_cons, List.count_append, List.count_cons]
  omega

theorem setList_downstreamPending (h : Heap n) (m x : Fin n) (w : Which) (l : TargetList n) :
    (h.setList m w l x).downstreamPending = (h x).downstreamPending := by
  by_cases hx : x = m
  · subst hx
    rw [Heap.setList, Function.update_self, Entry.setList_downstreamPending]
  · rw [Heap.setList, Function.update_of_ne hx]

theorem setList_mem {x : Fin n} {v : Which} {l : TargetList n} (ht : t ∈ ((h.setList m w l x).list v).list) :
    (x = m ∧ v = w ∧ t ∈ l.list) ∨ t ∈ ((h x).list v).list := by
  by_cases hx : x = m
  · subst hx
    rw [Heap.setList, Function.update_self, Entry.setList_list] at ht
    split at ht
    · rename_i hv; exact .inl ⟨rfl, hv, ht⟩
    · exact .inr ht
  · rw [Heap.setList, Function.update_of_ne hx] at ht
    exact .inr ht

theorem Ranked.setList (hr : Ranked rank h) {l : TargetList n}
    (hl : ∀ t ∈ l.list, t.markedPending = true → t ∈ ((h m).list w).list) : Ranked rank (h.setList m w l) := by
  intro x v t k ht hk
  rcases setList_mem ht with ⟨rfl, rfl, htl⟩ | htl
  · exact hr x v t k (hl t htl (marks_some hk).1) hk
  · exact hr x v t k htl hk

theorem Balanced.unmark {a c : List (Target n)} {opened : Fin n → ℕ}
    (hb : Balanced h fun k => opened k + if t.marks = some k then 1 else 0)
    (hl : ((h m).list w).list = a ++ t :: c) :
    Balanced (h.setList m w (((h m).list w).withList (a ++ t.unmark :: c))) opened := by
  intro j
  have htally := tally_setList Target.marks h m w (((h m).list w).withList (a ++ t.unmark :: c)) j
  rw [TargetList.withList_list, hl, count_middle, count_middle, unmark_marks, hb j] at htally
  rw [setList_downstreamPending]
  simp only [beq_iff_eq, reduceCtorEq, if_false] at htally
  omega

theorem clearTargets_spec {clear : Fin n → Heap n → Except Failure (Heap n)} {fuel : ℕ}
    (hclear : ClearSpec rank clear fuel) {after : List (Target n)} {opened : Fin n → ℕ} :
    ∀ {todo before : List (Target n)} {h : Heap n}, pendings h ≤ fuel → Ranked rank h →
      Balanced h opened → (h m).downstreamPending = false → ((h m).list w).list = before ++ todo ++ after →
      (∀ t ∈ todo, ∀ k, t.marks = some k → ∀ x, 0 < opened x → rank x < rank k) →
      ∃ h', clearTargets clear m w after before todo h = .ok h' ∧ h' m = (h m).setList w
          (((h m).list w).withList (before ++ todo.map Target.unmark ++ after)) ∧
        (∀ x, x ≠ m → h' x = h x ∨ ((h x).downstreamPending = true ∧ h' x = (h x).cleared)) ∧ Balanced h' opened
  | [], before, h, _, _, hb, _, hl, _ => by
    refine ⟨h, rfl, ?_, fun x _ => .inl rfl, hb⟩
    rw [List.map_nil, ← hl]
    cases w <;> rfl
  | t :: todo, before, h, hf, hr, hb, hm, hl, ht => by
    -- the call for `t`, if there is one, leaves `m` and closes what it opened once `t` is unmarked
    have hmem : t ∈ ((h m).list w).list := by
      rw [hl]
      simp
    have hcall : ∃ h1, clearSender clear t h = .ok h1 ∧ Clears h h1 ∧
        Balanced h1 (fun k => opened k + if t.marks = some k then 1 else 0) := by
      cases hk : t.marks with
      | none =>
        refine ⟨h, ?_, Clears.refl h, by simpa using hb⟩
        unfold Target.marks at hk
        unfold clearSender
        cases hmark : t.markedPending with
        | false => rfl
        | true =>
          rw [hmark, if_pos rfl] at hk
          rw [hk]
      | some k =>
        obtain ⟨hmark, hmshr⟩ := marks_some hk
        obtain ⟨h1, hok, hc, _, hb1⟩ := hclear k h opened hf hr hb
          (ht t List.mem_cons_self k hk) (tally_pos hmem hk)
        refine ⟨h1, by rw [clearSender, hmark, hmshr]; exact hok, hc, ?_⟩
        intro j
        rw [hb1 j]
        simp only [Option.some.injEq, eq_comm]
    obtain ⟨h1, hok, hc, hb1⟩ := hcall
    have hm1 : h1 m = h m := hc.same hm
    have hl1 : ((h1 m).list w).list = before ++ t :: (todo ++ after) := by
      rw [hm1, hl]
      simp
    set h2 := h1.setList m w (((h1 m).list w).withList (before ++ t.unmark :: todo ++ after)) with hh2
    have hb2 : Balanced h2 opened := by
      have hb2 := hb1.unmark hl1
      rwa [← List.cons_append, ← List.append_assoc] at hb2
    have hpend : ∀ x, (h2 x).downstreamPending = (h1 x).downstreamPending :=
      fun x => setList_downstreamPending _ _ _ _ _
    have hf2 : pendings h2 ≤ fuel := by
      have hle := hc.pendings_le
      have heq : pendings h2 = pendings h1 := by
        unfold pendings
        simp only [hpend]
      omega
    have hr2 : Ranked rank h2 := by
      refine (hr.clears hc).setList fun u hu hmark => ?_
      rw [hl1]
      simp only [TargetList.withList_list, List.mem_append, List.mem_cons] at hu ⊢
      rcases hu with (hu | rfl | hu) | hu
      · exact .inl hu
      · cases hmark
      · exact .inr (.inr (.inl hu))
      · exact .inr (.inr (.inr hu))
    have hlist2 : ((h2 m).list w).list = (before ++ [t.unmark]) ++ todo ++ after := by
      rw [hh2, Heap.setList, Function.update_self, Entry.setList_list, if_pos rfl]
      simp
    obtain ⟨h', hok', hm', hother', hb'⟩ := clearTargets_spec hclear hf2 hr2 hb2
      (by rw [hpend, hm1]; exact hm) hlist2 (fun u hu => ht u (List.mem_cons_of_mem t hu))
    refine ⟨h', ?_, ?_, ?_, hb'⟩
    · rw [clearTargets, hok]
      exact hok'
    · rw [hm', hh2, Heap.setList, Function.update_self, hm1]
      cases w <;> simp [Entry.setList, Entry.list, TargetList.withList]
    · intro x hx
      have hx2 : h2 x = h1 x := by rw [hh2, Heap.setList, Function.update_of_ne hx]
      rcases hother' x hx with hsame | ⟨hp, hcl⟩
      · rw [hsame, hx2]
        exact hc x
      · rw [hx2] at hp hcl
        rcases hc x with hx1 | ⟨_, hx1⟩
        · rw [hx1] at hp hcl
          exact .inr ⟨hp, hcl⟩
        · rw [hx1] at hp
          cases hp

/-- **The recursion succeeds.**  With as much depth as MSHRs are pending, a call on an MSHR that a
marked target points to, and whose rank is above all calls under way, clears it and everything
that is reached through it. -/
theorem clearDownstreamPending_spec : ∀ fuel : ℕ, ClearSpec rank (clearDownstreamPending (n := n) fuel) fuel
  | 0 => by
    intro m h opened hf hr hb hrank hpos
    have hopen : opened m = 0 := Nat.eq_zero_of_not_pos fun h => lt_irrefl _ (hrank m h)
    have hbm := hb m
    have hdp : (h m).downstreamPending = true := by
      by_contra hno
      rw [if_neg hno] at hbm
      omega
    have hmem : m ∈ Finset.univ.filter fun x => (h x).downstreamPending = true :=
      Finset.mem_filter.2 ⟨Finset.mem_univ m, hdp⟩
    exact absurd (Finset.card_pos.2 ⟨m, hmem⟩) (Nat.not_lt.2 hf)
  | fuel + 1 => by
    intro m h opened hf hr hb hrank hpos
    have hopen : opened m = 0 := Nat.eq_zero_of_not_pos fun h => lt_irrefl _ (hrank m h)
    have hbm := hb m
    have hdp : (h m).downstreamPending = true := by
      by_contra hno
      rw [if_neg hno] at hbm
      omega
    set h1 := h.setDownstreamPending m false with hh1
    have hsame : ∀ x, x ≠ m → h1 x = h x := fun x hx => Function.update_of_ne hx _ _
    have hm1 : h1 m = { h m with downstreamPending := false } := Function.update_self _ _ _
    have hlists : ∀ x w, (h1 x).list w = (h x).list w := by
      intro x w
      by_cases hx : x = m
      · subst hx
        rw [hm1]
        cases w <;> rfl
      · rw [hsame x hx]
    have hr1 : Ranked rank h1 := by
      intro x w t k ht hk
      rw [hlists] at ht
      exact hr x w t k ht hk
    have hb1 : Balanced h1 (fun k => opened k + if k = m then 1 else 0) := by
      intro k
      have htally : tally Target.marks h1 = tally Target.marks h :=
        tally_congr fun x w => by rw [hlists]
      rw [htally, hb k]
      by_cases hk : k = m
      · subst hk
        rw [hm1, if_pos hdp]
        simp
        omega
      · rw [hsame k hk]
        simp [hk]
    have hf1 : pendings h1 ≤ fuel := by
      have hlt : pendings h1 < pendings h := pendings_setDownstreamPending hdp
      omega
    have hlist : ((h1 m).list .targets).list = [] ++ (h m).targets.list ++ [] := by
      rw [hlists]
      simp [Entry.list]
    have hrank1 : ∀ t ∈ (h m).targets.list, ∀ k, t.marks = some k →
        ∀ x, 0 < opened x + (if x = m then 1 else 0) → rank x < rank k := by
      intro t ht k hk x hx
      have hmk : rank m < rank k := hr m .targets t k ht hk
      by_cases hxm : x = m
      · rw [hxm]
        exact hmk
      · rw [if_neg hxm] at hx
        exact (hrank x hx).trans hmk
    obtain ⟨h', hok, hm', hother, hb'⟩ := clearTargets_spec (clearDownstreamPending_spec fuel)
      hf1 hr1 hb1 (by rw [hm1]) hlist hrank1
    have hcl : h' m = (h m).cleared := by
      rw [hm', hm1]
      simp [Entry.setList, Entry.list, TargetList.withList, Entry.cleared]
    refine ⟨h', ?_, ?_, hcl, hb'⟩
    · rw [clearDownstreamPending, if_pos hdp]
      exact hok
    · intro x
      by_cases hx : x = m
      · subst hx
        exact .inr ⟨hdp, hcl⟩
      · have hx' := hother x hx
        rw [hsame x hx] at hx'
        exact hx'

end Alpine.Mem.MSHR
