import Alpine.Mem.MSHRPending

/-!
# The pending protocol between MSHRs

What the protocol around `downstreamPending` is about, without packets and flags: of an MSHR whether it
is allocated, in service and pending, and of each target the MSHR above that sent it, its source and
its mark.

* `Inv` — every pending MSHR has one marked target, every sent request has one target, and marks point
  away from memory.
* `Told` — a request on a target list is marked exactly while the MSHR is not in service or pending
  itself.
* `Inv.push`, `Inv.change`, `Inv.setEntry` — a target is added; MSHRs are cleared and one changes; one
  MSHR changes without touching a mark.
-/

namespace Alpine.Mem.MSHR

open Alpine Alpine.Mem

variable {n : Nat}

/-! ## Views -/

structure TargetView (n : Nat) where
  mshr : Option (Fin n)
  source : Source
  marked : Bool
  deriving DecidableEq

structure View (n : Nat) where
  allocated : Bool
  inService : Bool
  pending : Bool
  targets : List (TargetView n)
  deferred : List (TargetView n)

def Target.view (t : Target n) : TargetView n := ⟨t.pkt.mshr, t.source, t.markedPending⟩

def Entry.view (e : Entry n) : View n :=
  ⟨e.allocated, e.inService, e.downstreamPending, e.targets.list.map Target.view,
    e.deferredTargets.list.map Target.view⟩

abbrev Views (n : Nat) := Fin n → View n

def Heap.views (h : Heap n) : Views n := fun m => (h m).view

def View.list (v : View n) : Which → List (TargetView n)
  | .targets => v.targets
  | .deferredTargets => v.deferred

variable {t : TargetView n} {k : Fin n}

namespace TargetView

def unmark (t : TargetView n) : TargetView n := { t with marked := false }

/-- The MSHR a marked target points to. -/
def marks (t : TargetView n) : Option (Fin n) := if t.marked then t.mshr else none

/-- The MSHR whose request this target is, or whose request a marked snoop waits to answer. -/
def links (t : TargetView n) : Option (Fin n) :=
  if t.source ≠ .FromSnoop ∨ t.marked = true then t.mshr else none

theorem marks_some (h : t.marks = some k) : t.marked = true ∧ t.mshr = some k := by
  unfold marks at h
  split at h
  · rename_i hm; exact ⟨hm, h⟩
  · cases h

theorem links_of_marks (h : t.marks = some k) : t.links = some k := by
  obtain ⟨hm, hk⟩ := marks_some h
  rw [links, if_pos (.inr hm), hk]

end TargetView

def View.cleared (v : View n) : View n :=
  { v with pending := false, targets := v.targets.map TargetView.unmark }

/-! ## Counting -/

def count (f : TargetView n → Option (Fin n)) (V : Views n) (k : Fin n) : ℕ :=
  Tokens.count (fun p : Fin n × Which => ((V p.1).list p.2).map f) (some k)

variable {f : TargetView n → Option (Fin n)} {m : Fin n}

theorem count_pos {V : Views n} {w : Which} (ht : t ∈ (V m).list w) (hk : f t = some k) : 0 < count f V k :=
  Tokens.count_pos_of_mem (i := ((m, w) : Fin n × Which)) (hk ▸ List.mem_map_of_mem ht)

theorem exists_of_count_pos {V : Views n} (h : 0 < count f V k) : ∃ m w t, t ∈ (V m).list w ∧ f t = some k := by
  obtain ⟨⟨m, w⟩, hmem⟩ := Tokens.exists_mem_of_count_pos h
  obtain ⟨t, ht, hk⟩ := List.mem_map.1 hmem
  exact ⟨m, w, t, ht, hk⟩

/-- How often the lists of one MSHR point to `k`. -/
def View.count (f : TargetView n → Option (Fin n)) (v : View n) (k : Fin n) : ℕ :=
  (v.targets.map f).count (some k) + (v.deferred.map f).count (some k)

theorem count_eq_sum (f : TargetView n → Option (Fin n)) (V : Views n) (k : Fin n) :
    MSHR.count f V k = ∑ m, (V m).count f k := by
  unfold MSHR.count Tokens.count View.count
  rw [Fintype.sum_prod_type]
  refine Finset.sum_congr rfl fun m _ => ?_
  have huniv : (Finset.univ : Finset Which) = {.targets, .deferredTargets} := rfl
  rw [huniv, Finset.sum_pair (by decide)]
  rfl

theorem count_update (f : TargetView n → Option (Fin n)) (V : Views n) (m : Fin n) (v : View n) (k : Fin n) :
    MSHR.count f (Function.update V m v) k + (V m).count f k = MSHR.count f V k + v.count f k := by
  rw [count_eq_sum, count_eq_sum, ← Finset.add_sum_erase _ _ (Finset.mem_univ m),
    ← Finset.add_sum_erase _ _ (Finset.mem_univ m)]
  have hrest : ∑ x ∈ Finset.univ.erase m, (Function.update V m v x).count f k =
      ∑ x ∈ Finset.univ.erase m, (V x).count f k := by
    apply Finset.sum_congr rfl
    intro x hx
    rw [Function.update_of_ne (Finset.ne_of_mem_erase hx)]
  rw [hrest, Function.update_self]
  omega

/-- The count does not see whether an MSHR is pending. -/
theorem count_congr {V V' : Views n} (h : ∀ m, (V' m).targets = (V m).targets ∧ (V' m).deferred = (V m).deferred) :
    MSHR.count f V' = MSHR.count f V := by
  funext k
  rw [count_eq_sum, count_eq_sum]
  refine Finset.sum_congr rfl fun m _ => ?_
  unfold View.count
  rw [(h m).1, (h m).2]

theorem tally_views {f : Target n → Option (Fin n)} {g : TargetView n → Option (Fin n)}
    (hfg : ∀ t, g (Target.view t) = f t) (h : Heap n) : MSHR.count g h.views = tally f h := by
  funext k
  unfold MSHR.count tally
  congr 1
  funext p
  obtain ⟨m, w⟩ := p
  cases w <;> simp [Heap.views, Entry.view, View.list, Entry.list, Function.comp_def, hfg]

/-! ## The invariant -/

variable {depth sentAt : Fin n → ℕ} {V V' : Views n} {sending : Option (Fin n)} {clock : ℕ}

/-- Where the MSHR `k` that a target of `m` points to is: in a cache above, or, for a snoop, in a cache
on the same bus that sent its request later. -/
def Above (depth sentAt : Fin n → ℕ) (source : Source) (m k : Fin n) : Prop :=
  if source = .FromSnoop then depth m = depth k ∧ sentAt m < sentAt k else depth m < depth k

/-- The order in which requests are nested. -/
def rank (depth sentAt : Fin n → ℕ) (m : Fin n) : ℕ ×ₗ ℕ := toLex (depth m, sentAt m)

theorem Above.rank_lt {source : Source} (h : Above depth sentAt source m k) :
    rank depth sentAt m < rank depth sentAt k := by
  unfold Above at h
  unfold rank
  rw [Prod.Lex.toLex_lt_toLex]
  split at h
  · exact .inr h
  · exact .inl h

structure ViewOk (depth sentAt : Fin n → ℕ) (m : Fin n) (v : View n) : Prop where
  deferred : ∀ t ∈ v.deferred, t.source = .FromCPU ∧ (t.mshr ≠ none → t.marked = true)
  marked : ∀ w, ∀ t ∈ v.list w, t.marked = true →
    ∃ k, t.mshr = some k ∧ Above depth sentAt t.source m k
  snooped : ∀ t ∈ v.targets, t.source = .FromSnoop → t.marked = true →
    v.inService = true ∧ v.pending = true
  waiting : ∀ t ∈ v.targets, t.marked = true → v.inService = false ∨ v.pending = true
  prefetch : ∀ t ∈ v.targets, t.source = .FromPrefetcher → t.mshr = none
  allocated : v.inService = true → v.allocated = true

structure Inv (depth : Fin n → ℕ) (V : Views n) (sending : Option (Fin n)) (sentAt : Fin n → ℕ)
    (clock : ℕ) : Prop where
  views : ∀ m, ViewOk depth sentAt m (V m)
  marks : ∀ k, MSHR.count TargetView.marks V k = if (V k).pending then 1 else 0
  links : ∀ k, MSHR.count TargetView.links V k ≤ 1
  linked : ∀ k, 0 < MSHR.count TargetView.links V k → (V k).inService = true ∨ sending = some k
  sent : ∀ k, sending = some k → (V k).allocated = true ∧ (V k).inService = false ∧
    ∀ x, x ≠ k → sentAt x < sentAt k
  clock : ∀ x, sentAt x < clock

/-- A request on the target list is marked while its MSHR is not in service or pending. -/
def Told (v : View n) : Prop :=
  ∀ t ∈ v.targets, t.source ≠ .FromSnoop → t.mshr ≠ none → v.inService = false ∨ v.pending = true →
    t.marked = true

theorem Inv.pending_linked (hi : Inv depth V sending sentAt clock) (hk : (V k).pending = true) :
    0 < MSHR.count TargetView.links V k := by
  have hpos : 0 < MSHR.count TargetView.marks V k := by
    rw [hi.marks k, if_pos hk]
    exact Nat.one_pos
  obtain ⟨m, w, t, ht, htk⟩ := exists_of_count_pos hpos
  exact count_pos ht (TargetView.links_of_marks htk)

theorem Inv.not_pending (hi : Inv depth V sending sentAt clock) (hk : MSHR.count TargetView.links V k = 0) :
    (V k).pending = false := by
  by_contra hno
  have hpos := hi.pending_linked (Bool.eq_true_of_not_eq_false hno)
  omega

/-! ## What keeps the invariant -/

theorem cleared_unmarked {v : View n} (ht : t ∈ v.cleared.targets) : t.marked = false := by
  obtain ⟨u, _, rfl⟩ := List.mem_map.1 ht
  rfl

theorem ViewOk.cleared {v : View n} (h : ViewOk depth sentAt m v) : ViewOk depth sentAt m v.cleared := by
  refine ⟨h.deferred, ?_, ?_, ?_, ?_, h.allocated⟩
  · intro w t ht hm
    cases w with
    | targets =>
      rw [cleared_unmarked ht] at hm
      cases hm
    | deferredTargets => exact h.marked .deferredTargets t ht hm
  · intro t ht _ hm
    rw [cleared_unmarked ht] at hm
    cases hm
  · intro t ht hm
    rw [cleared_unmarked ht] at hm
    cases hm
  · intro t ht hs
    obtain ⟨u, hu, rfl⟩ := List.mem_map.1 ht
    exact h.prefetch u hu hs

theorem count_map_le (hf : ∀ t : TargetView n, f t.unmark = some k → f t = some k) :
    ∀ l : List (TargetView n), ((l.map TargetView.unmark).map f).count (some k) ≤ (l.map f).count (some k)
  | [] => le_rfl
  | t :: l => by
    have hl := count_map_le hf l
    simp only [List.map_cons, List.count_cons, beq_iff_eq]
    have ht := hf t
    split <;> split <;> first | omega | exact absurd (ht ‹_›) ‹_›

theorem links_unmark (h : t.unmark.links = some k) : t.links = some k := by
  unfold TargetView.links TargetView.unmark at *
  simp only [Bool.false_eq_true, or_false] at h
  split at h
  · rename_i hs; rw [if_pos (.inl hs)]; exact h
  · cases h

theorem cleared_links_le (v : View n) (k : Fin n) : v.cleared.count TargetView.links k ≤ v.count TargetView.links k := by
  have hle := count_map_le (f := TargetView.links) (k := k) (fun _ => links_unmark) v.targets
  unfold View.count View.cleared
  simp only
  omega

/-- A clearing adds no link. -/
theorem links_le (hother : ∀ x, x ≠ m → V' x = V x ∨ ((V x).pending = true ∧ V' x = (V x).cleared))
    (hlinks : ∀ k, (V' m).count TargetView.links k ≤ (V m).count TargetView.links k) (k : Fin n) :
    MSHR.count TargetView.links V' k ≤ MSHR.count TargetView.links V k := by
  rw [count_eq_sum, count_eq_sum]
  refine Finset.sum_le_sum fun x _ => ?_
  by_cases hx : x = m
  · rw [hx]
    exact hlinks k
  · rcases hother x hx with h | ⟨_, h⟩
    · rw [h]
    · rw [h]
      exact cleared_links_le _ _

theorem Inv.change {sending' : Option (Fin n)} (hi : Inv depth V sending sentAt clock)
    (hother : ∀ x, x ≠ m → V' x = V x ∨ ((V x).pending = true ∧ V' x = (V x).cleared))
    (hmarks : ∀ k, MSHR.count TargetView.marks V' k = if (V' k).pending then 1 else 0)
    (hok : ViewOk depth sentAt m (V' m))
    (hlinks : ∀ k, (V' m).count TargetView.links k ≤ (V m).count TargetView.links k)
    (hserv : 0 < MSHR.count TargetView.links V m → (V' m).inService = true ∨ sending' = some m)
    (hsent : sending' = some m → (V' m).allocated = true ∧ (V' m).inService = false)
    (hsend : ∀ k, sending' = some k → sending = some k)
    (hkeep : ∀ k, k ≠ m → sending = some k → sending' = some k) : Inv depth V' sending' sentAt clock := by
  have hserv' : ∀ x, x ≠ m →
      (V' x).inService = (V x).inService ∧ (V' x).allocated = (V x).allocated := by
    intro x hx
    rcases hother x hx with h | ⟨_, h⟩
    · rw [h]
      exact ⟨rfl, rfl⟩
    · rw [h]
      exact ⟨rfl, rfl⟩
  have hle := links_le hother hlinks
  refine ⟨?_, hmarks, fun k => (hle k).trans (hi.links k), ?_, ?_, hi.clock⟩
  · intro x
    by_cases hx : x = m
    · rw [hx]
      exact hok
    · rcases hother x hx with h | ⟨_, h⟩
      · rw [h]
        exact hi.views x
      · rw [h]
        exact (hi.views x).cleared
  · intro k hk
    replace hk := lt_of_lt_of_le hk (hle k)
    by_cases hkm : k = m
    · subst hkm
      exact hserv hk
    · rw [(hserv' k hkm).1]
      exact (hi.linked k hk).imp_right (hkeep k hkm)
  · intro k hk
    obtain ⟨hal, hin, hlt⟩ := hi.sent k (hsend k hk)
    by_cases hkm : k = m
    · subst hkm
      exact ⟨(hsent hk).1, (hsent hk).2, hlt⟩
    · rw [(hserv' k hkm).1, (hserv' k hkm).2]
      exact ⟨hal, hin, hlt⟩

theorem Inv.setEntry {sending' : Option (Fin n)} (hi : Inv depth V sending sentAt clock) {v : View n}
    (hok : ViewOk depth sentAt m v) (hpend : v.pending = (V m).pending)
    (hmarks : ∀ k, v.count TargetView.marks k = (V m).count TargetView.marks k)
    (hlinks : ∀ k, v.count TargetView.links k ≤ (V m).count TargetView.links k)
    (hserv : 0 < MSHR.count TargetView.links V m → v.inService = true ∨ sending' = some m)
    (hsent : sending' = some m → v.allocated = true ∧ v.inService = false)
    (hsend : ∀ k, sending' = some k → sending = some k) (hkeep : ∀ k, k ≠ m → sending = some k → sending' = some k) :
    Inv depth (Function.update V m v) sending' sentAt clock := by
  have hself : Function.update V m v m = v := Function.update_self _ _ _
  refine hi.change (fun x hx => .inl (Function.update_of_ne hx _ _)) ?_ (by rwa [hself])
    (by rwa [hself]) (by rwa [hself]) (by rwa [hself]) hsend hkeep
  intro k
  have hc := count_update TargetView.marks V m v k
  have hpk : (Function.update V m v k).pending = (V k).pending := by
    by_cases hk : k = m
    · subst hk
      rw [hself, hpend]
    · rw [Function.update_of_ne hk]
  rw [hmarks k] at hc
  rw [hpk, ← hi.marks k]
  omega

theorem Told.cleared {v : View n} (hs : v.inService = true) : Told v.cleared := by
  intro t _ _ _ hw
  rcases hw with h | h
  · exact absurd h (by rw [View.cleared, hs]; decide)
  · cases h

def View.push (v : View n) (w : Which) (t : TargetView n) : View n :=
  match w with
  | .targets => { v with targets := v.targets ++ [t] }
  | .deferredTargets => { v with deferred := v.deferred ++ [t] }

def View.setPending (v : View n) : View n := { v with pending := true }

@[simp] theorem setPending_list (v : View n) (w : Which) : v.setPending.list w = v.list w := by
  cases w <;> rfl

/-- A marked target sets the flag of the MSHR it points to. -/
def Views.push (V : Views n) (m : Fin n) (w : Which) (t : TargetView n) : Views n :=
  let V1 := match t.marks with
    | some k => Function.update V k (V k).setPending
    | none => V
  Function.update V1 m ((V1 m).push w t)

theorem push_list (v : View n) (w x : Which) (t : TargetView n) :
    (v.push w t).list x = if x = w then v.list x ++ [t] else v.list x := by
  cases w <;> cases x <;> rfl

theorem push_count (f : TargetView n → Option (Fin n)) (v : View n) (w : Which) (t : TargetView n)
    (k : Fin n) : (v.push w t).count f k = v.count f k + if f t = some k then 1 else 0 := by
  cases w <;> simp [View.count, View.push, List.count_append, List.count_singleton] <;> omega

theorem push_fields (V : Views n) (m : Fin n) (w : Which) (t : TargetView n) (x : Fin n) :
    (V.push m w t x).allocated = (V x).allocated ∧ (V.push m w t x).inService = (V x).inService ∧
      (V.push m w t x).pending = ((V x).pending || decide (t.marks = some x)) ∧
      ∀ v, (V.push m w t x).list v = if x = m ∧ v = w then (V x).list v ++ [t] else (V x).list v := by
  have hentry : ∀ v : View n, (v.push w t).allocated = v.allocated ∧
      (v.push w t).inService = v.inService ∧ (v.push w t).pending = v.pending := by
    intro v
    cases w <;> exact ⟨rfl, rfl, rfl⟩
  have hfields : ∀ v : View n, v.setPending.allocated = v.allocated ∧
      v.setPending.inService = v.inService ∧ v.setPending.pending = true :=
    fun _ => ⟨rfl, rfl, rfl⟩
  unfold Views.push
  cases hk : t.marks with
  | none =>
    by_cases hx : x = m
    · subst hx
      simp [hentry, push_list]
    · simp [hx]
  | some k =>
    by_cases hx : x = m
    · subst hx
      by_cases hxk : x = k
      · subst hxk
        simp [hentry, push_list, hfields]
      · simp [hentry, push_list, hxk, Ne.symm hxk]
    · by_cases hxk : x = k
      · subst hxk
        simp [hx, hfields]
      · simp [hx, hxk, Ne.symm hxk]

theorem push_allocated (V : Views n) (m : Fin n) (w : Which) (t : TargetView n) (x : Fin n) :
    (V.push m w t x).allocated = (V x).allocated := (push_fields V m w t x).1

theorem push_inService (V : Views n) (m : Fin n) (w : Which) (t : TargetView n) (x : Fin n) :
    (V.push m w t x).inService = (V x).inService := (push_fields V m w t x).2.1

theorem push_pending (V : Views n) (m : Fin n) (w : Which) (t : TargetView n) (x : Fin n) :
    (V.push m w t x).pending = ((V x).pending || decide (t.marks = some x)) :=
  (push_fields V m w t x).2.2.1

theorem mem_push {x : Fin n} {v w : Which} {u : TargetView n} (hu : u ∈ (V.push m v t x).list w) :
    (x = m ∧ w = v ∧ u = t) ∨ u ∈ (V x).list w := by
  rw [(push_fields V m v t x).2.2.2 w] at hu
  split at hu
  · rename_i hxm
    rcases List.mem_append.1 hu with hu | hu
    · exact .inr hu
    · exact .inl ⟨hxm.1, hxm.2, List.mem_singleton.1 hu⟩
  · exact .inr hu

theorem count_push (f : TargetView n → Option (Fin n)) (V : Views n) (m : Fin n) (w : Which)
    (t : TargetView n) (k : Fin n) :
    MSHR.count f (V.push m w t) k = MSHR.count f V k + if f t = some k then 1 else 0 := by
  have hpend : ∀ j, MSHR.count f (Function.update V j (V j).setPending) =
      MSHR.count f V := by
    intro j
    refine count_congr fun x => ?_
    by_cases hx : x = j
    · subst hx
      simp [View.setPending]
    · simp [hx]
  unfold Views.push
  cases t.marks with
  | none =>
    have hc := count_update f V m ((V m).push w t) k
    rw [push_count] at hc
    simp only
    omega
  | some j =>
    have hc := count_update f (Function.update V j (V j).setPending) m
      ((Function.update V j (V j).setPending m).push w t) k
    rw [push_count, hpend j] at hc
    simp only
    omega

/-- A target is added: no other target has its request, its mark is the first to its MSHR. -/
theorem Inv.push (hi : Inv depth V sending sentAt clock) {w : Which}
    (hlink : ∀ k, t.links = some k → sending = some k ∧ MSHR.count TargetView.links V k = 0)
    (habove : t.marked = true → ∃ k, t.mshr = some k ∧ Above depth sentAt t.source m k)
    (hdef : w = .deferredTargets → t.source = .FromCPU ∧ (t.mshr ≠ none → t.marked = true))
    (hsnoop : t.source = .FromSnoop → t.marked = true → (V m).inService = true ∧ (V m).pending = true)
    (hwait : w = .targets → t.marked = true → (V m).inService = false ∨ (V m).pending = true)
    (hpf : t.source = .FromPrefetcher → t.mshr = none) : Inv depth (V.push m w t) sending sentAt clock := by
  refine ⟨?_, ?_, ?_, ?_, ?_, hi.clock⟩
  · intro x
    have hx := hi.views x
    refine ⟨?_, ?_, ?_, ?_, ?_, ?_⟩
    · intro u hu
      rcases mem_push (w := .deferredTargets) hu with ⟨_, rfl, rfl⟩ | hu
      · exact hdef rfl
      · exact hx.deferred u hu
    · intro v u hu hm
      rcases mem_push hu with ⟨rfl, _, rfl⟩ | hu
      · exact habove hm
      · exact hx.marked v u hu hm
    · intro u hu hs hm
      rw [push_inService, push_pending]
      rcases mem_push (w := .targets) hu with ⟨rfl, _, rfl⟩ | hu
      · obtain ⟨hin, hp⟩ := hsnoop hs hm
        exact ⟨hin, by rw [hp, Bool.true_or]⟩
      · obtain ⟨hin, hp⟩ := hx.snooped u hu hs hm
        exact ⟨hin, by rw [hp, Bool.true_or]⟩
    · intro u hu hm
      rw [push_inService, push_pending]
      rcases mem_push (w := .targets) hu with ⟨rfl, hw, rfl⟩ | hu
      · exact (hwait hw.symm hm).imp_right fun hp => by rw [hp, Bool.true_or]
      · exact (hx.waiting u hu hm).imp_right fun hp => by rw [hp, Bool.true_or]
    · intro u hu hs
      rcases mem_push (w := .targets) hu with ⟨_, _, rfl⟩ | hu
      · exact hpf hs
      · exact hx.prefetch u hu hs
    · rw [push_inService, push_allocated]
      exact hx.allocated
  · intro k
    rw [count_push, hi.marks k, push_pending]
    by_cases hk : t.marks = some k
    · have hnp := hi.not_pending (hlink k (TargetView.links_of_marks hk)).2
      simp [hk, hnp]
    · simp [hk]
  · intro k
    rw [count_push]
    split
    · rename_i hk
      rw [(hlink k hk).2]
    · exact hi.links k
  · intro k hk
    rw [count_push] at hk
    rw [push_inService]
    split at hk
    · rename_i hk'; exact .inr (hlink k hk').1
    · exact hi.linked k hk
  · intro k hk
    rw [push_inService, push_allocated]
    exact hi.sent k hk

end Alpine.Mem.MSHR
