import Alpine.Lib.Outcome
import Alpine.Mem.MSHRView

/-!
# What the operations on an MSHR do to the pending protocol

Every operation keeps `Inv` and raises neither the assertion of `TargetList::add` nor that of
`MSHR::clearDownstreamPending`; under its condition it also keeps `Told`.  `Kept` says both.

* `add_views`, `clearTargets_views` — the two operations that reach other MSHRs, on views.
* `allocate_kept`, `allocateTarget_kept`, `handleSnoop_kept` — requests and snoops.
-/

namespace Alpine.Mem.MSHR

open Alpine Alpine.Mem

variable {n : Nat} {depth sentAt : Fin n → ℕ} {sending : Option (Fin n)} {clock : ℕ} {h : Heap n}
  {m : Fin n}

/-! ## Views -/

theorem views_update (h : Heap n) (m : Fin n) (e : Entry n) :
    Heap.views (Function.update h m e) = Function.update h.views m e.view := by
  funext x
  by_cases hx : x = m
  · subst hx
    simp [Heap.views]
  · simp [Heap.views, hx]

theorem views_update_same {e : Entry n} (he : e.view = (h m).view) :
    Heap.views (Function.update h m e) = h.views := by
  rw [views_update, he]
  exact Function.update_eq_self m h.views

theorem view_list (e : Entry n) (w : Which) : e.view.list w = (e.list w).list.map Target.view := by
  cases w <;> rfl

theorem setList_view (e : Entry n) (w : Which) (l : TargetList n) : (e.setList w l).view = match w with
      | .targets => { e.view with targets := l.list.map Target.view }
      | .deferredTargets => { e.view with deferred := l.list.map Target.view } := by
  cases w <;> rfl

theorem views_setDownstreamPending (h : Heap n) (k : Fin n) :
    (h.setDownstreamPending k true).views = Function.update h.views k (h.views k).setPending := by
  rw [Heap.setDownstreamPending, views_update]
  rfl

@[simp] theorem updateFlags_list (l : TargetList n) (pkt : Pkt n) (source : Source) (a : Bool) :
    (l.updateFlags pkt source a).list = l.list := by
  unfold TargetList.updateFlags
  split <;> rfl

@[simp] theorem populateFlags_list (l : TargetList n) : l.populateFlags.list = l.list := by
  have hfold : ∀ (ts : List (Target n)) (l : TargetList n),
      (ts.foldl (fun l t => l.updateFlags t.pkt t.source t.allocOnFill) l).list = l.list := by
    intro ts
    induction ts with
    | nil => intro l; rfl
    | cons t ts ih => intro l; rw [List.foldl_cons, ih, updateFlags_list]
  exact hfold l.list l.resetFlags

theorem replaceUpgrades_view (l : TargetList n) :
    l.replaceUpgrades.list.map Target.view = l.list.map Target.view := by
  unfold TargetList.replaceUpgrades
  split
  · rw [List.map_map]
    rfl
  · rfl

theorem replaceUpgrades_views (h : Heap n) (m : Fin n) (w : Which) : (h.replaceUpgrades m w).views = h.views := by
  refine views_update_same ?_
  rw [setList_view]
  cases w with
  | targets => exact congrArg (fun ts => { (h m).view with targets := ts }) (replaceUpgrades_view _)
  | deferredTargets =>
    exact congrArg (fun ts => { (h m).view with deferred := ts }) (replaceUpgrades_view _)

theorem push_view (e : Entry n) (w : Which) (l : TargetList n) (t : Target n)
    (hl : l.list = (e.list w).list ++ [t]) : (e.setList w l).view = e.view.push w t.view := by
  cases w <;> simp [Entry.setList, Entry.view, View.push, hl, Entry.list]

/-- A target is added; the assertion holds when no pending MSHR is marked again. -/
theorem add_views (m : Fin n) (w : Which) (pkt : Pkt n) (source : Source) (markPending a : Bool)
    (hnp : markPending = true → ∀ k, pkt.mshr = some k → (h k).downstreamPending = false) :
    ∃ h', add h m w pkt source markPending a = .ok h' ∧
      h'.views = h.views.push m w ⟨pkt.mshr, source, markPending && pkt.mshr.isSome⟩ := by
  have hplain : ∀ b, (h.setList m w
      { ((h m).list w).updateFlags pkt source a with
        list := (((h m).list w).updateFlags pkt source a).list ++ [⟨pkt, source, b, a⟩] }).views =
      Function.update h.views m ((h.views m).push w ⟨pkt.mshr, source, b⟩) := by
    intro b
    rw [Heap.setList, views_update, push_view _ _ _ ⟨pkt, source, b, a⟩ (by simp)]
    rfl
  unfold add
  cases hmp : markPending with
  | false => exact ⟨_, rfl, hplain false⟩
  | true =>
    cases hk : pkt.mshr with
    | none =>
      refine ⟨_, rfl, ?_⟩
      rw [hplain false, hk]
      rfl
    | some k =>
      refine ⟨_, if_neg (by rw [hnp hmp k hk]; decide), ?_⟩
      rw [Heap.setList, views_update, views_setDownstreamPending, push_view _ _ _ ⟨pkt, source, true, a⟩ ?_]
      · simp only [Views.push, TargetView.marks, Target.view, hk, Option.isSome_some, Bool.and_true, if_true]
        congr 2
        by_cases hkm : m = k
        · subst hkm
          simp [Heap.setDownstreamPending, View.setPending, Entry.view, Heap.views]
        · simp [Heap.setDownstreamPending, hkm, Heap.views]
      · by_cases hkm : m = k
        · subst hkm
          cases w <;> simp [Heap.setDownstreamPending, Entry.list]
        · simp [Heap.setDownstreamPending, hkm]

/-! ## Clearing -/

theorem mem_views {w : Which} {t : Target n} (ht : t ∈ ((h m).list w).list) : t.view ∈ (h.views m).list w := by
  rw [Heap.views, view_list]
  exact List.mem_map_of_mem ht

theorem cleared_view (e : Entry n) : e.cleared.view = e.view.cleared := by
  simp only [Entry.cleared, Entry.view, View.cleared, List.map_map]
  rfl

theorem Inv.ranked (hi : Inv depth h.views sending sentAt clock) : Ranked (rank depth sentAt) h := by
  intro m w t k ht hk
  obtain ⟨hmark, hmshr⟩ := marks_some hk
  obtain ⟨k', hk', habove⟩ := (hi.views m).marked w t.view (mem_views ht) hmark
  cases hmshr.symm.trans hk'
  exact habove.rank_lt

theorem balanced_iff (h : Heap n) : Balanced h (fun _ => 0) ↔
    ∀ k, MSHR.count TargetView.marks h.views k = if (h.views k).pending then 1 else 0 := by
  rw [tally_views (f := Target.marks) (fun _ => rfl)]
  rfl

/-- What a clearing started by an operation does to the views. -/
theorem clearTargets_views (w : Which) (todo after : List (Target n)) (hr : Ranked (rank depth sentAt) h)
    (hmarks : ∀ k, MSHR.count TargetView.marks h.views k = if (h.views k).pending then 1 else 0)
    (hm : (h m).downstreamPending = false) (hl : ((h m).list w).list = todo ++ after) :
    ∃ h', clearTargets clear m w after [] todo h = .ok h' ∧
      h' m = (h m).setList w (((h m).list w).withList (todo.map Target.unmark ++ after)) ∧
      (∀ x, x ≠ m → h'.views x = h.views x ∨ ((h.views x).pending = true ∧ h'.views x = (h.views x).cleared)) ∧
      ∀ k, MSHR.count TargetView.marks h'.views k = if (h'.views k).pending then 1 else 0 := by
  have hspec : ClearSpec (rank depth sentAt) (clear (n := n)) n := clearDownstreamPending_spec n
  obtain ⟨h', hok, hm', hother, hb⟩ := clearTargets_spec hspec (pendings_le h) hr
    ((balanced_iff h).2 hmarks) hm (show ((h m).list w).list = [] ++ todo ++ after from hl)
    (fun _ _ _ _ x hx => absurd hx (lt_irrefl 0))
  refine ⟨h', hok, hm', ?_, (balanced_iff h').1 hb⟩
  intro x hx
  rcases hother x hx with hsame | ⟨hp, hcl⟩
  · exact .inl (congrArg Entry.view hsame)
  · exact .inr ⟨hp, by rw [Heap.views, hcl, cleared_view]; rfl⟩

/-- Another MSHR is told what a clearing tells it: a pending one is in service. -/
theorem Told.other {V : Views n} (hi : Inv depth V sending sentAt clock) {x : Fin n} {v : View n}
    (hx : sending ≠ some x) (hT : Told (V x))
    (hv : v = V x ∨ ((V x).pending = true ∧ v = (V x).cleared)) : Told v := by
  rcases hv with rfl | ⟨hp, rfl⟩
  · exact hT
  · exact Told.cleared ((hi.linked x (hi.pending_linked hp)).resolve_right hx)

/-! ## Outcomes -/

/-- An assertion that is not about `downstreamPending`. -/
def Elsewhere (e : Failure) : Prop := e = .assertion

theorem check_outcome (b : Bool) : Outcome Elsewhere (fun _ => b = true) (check b) := by
  cases b with
  | false => exact rfl
  | true => exact rfl

/-- The protocol is kept, and while `P` holds every target is told. -/
def Kept (depth : Fin n → ℕ) (sending : Option (Fin n)) (sentAt : Fin n → ℕ) (clock : ℕ) (P : Prop)
    (h : Heap n) : Prop :=
  Inv depth h.views sending sentAt clock ∧ (P → ∀ m, Told (h.views m))

variable {P : Prop}

theorem markInService_kept {b : Bool} (hk : Kept depth (some m) sentAt clock P h) :
    Outcome Elsewhere (Kept depth none sentAt clock P) (markInService m b h) := by
  obtain ⟨hi, hT⟩ := hk
  unfold markInService
  refine (check_outcome _).bind fun _ hns => ?_
  have hns : (h m).inService = false := by simpa using hns
  set h1 : Heap n := Function.update h m
    { h m with
      inService := true
      pendingModified := (h m).targets.needsWritable || b
      postInvalidate := false
      postDowngrade := false } with hh1
  have hv1 : h1.views = Function.update h.views m { h.views m with inService := true } := by
    rw [hh1, views_update]
    rfl
  have hv := hi.views m
  have hsnoop : ∀ t ∈ (h.views m).targets, t.source = .FromSnoop → t.marked = false := by
    intro t ht hs
    by_contra hmark
    have hin := (hv.snooped t ht hs (Bool.eq_true_of_not_eq_false hmark)).1
    exact absurd hin (by simp [Heap.views, Entry.view, hns])
  have halloc : (h.views m).allocated = true := (hi.sent m rfl).1
  have hlinks1 : ∀ f, MSHR.count f h1.views = MSHR.count f h.views := by
    intro f
    refine count_congr fun x => ?_
    rw [hv1]
    by_cases hx : x = m
    · subst hx
      simp
    · simp [hx]
  refine Outcome.ite (fun hp => ?_) (fun hp => ?_)
  · -- not buffered below: every target of the list is told
    have hp : (h m).downstreamPending = false := by simpa using hp
    have hpend : ∀ k, (h1.views k).pending = (h.views k).pending := by
      intro k
      rw [hv1]
      by_cases hk : k = m
      · subst hk
        simp
      · simp [hk]
    have hmarks1 : ∀ k, MSHR.count TargetView.marks h1.views k =
        if (h1.views k).pending then 1 else 0 := by
      intro k
      rw [hlinks1, hpend]
      exact hi.marks k
    have hr1 : Ranked (rank depth sentAt) h1 := by
      intro x w t k ht hk
      refine hi.ranked x w t k ?_ hk
      by_cases hx : x = m
      · subst hx
        rw [hh1, Function.update_self] at ht
        cases w <;> exact ht
      · rwa [hh1, Function.update_of_ne hx] at ht
    have hm1 : h1 m = { h m with
        inService := true
        pendingModified := (h m).targets.needsWritable || b
        postInvalidate := false
        postDowngrade := false } := Function.update_self _ _ _
    obtain ⟨h', hok, hm', hother, hmarks'⟩ := clearTargets_views .targets
      (h m).targets.list [] hr1 hmarks1 (by rw [hm1]; exact hp)
      (by rw [hm1, List.append_nil]; rfl)
    have hview : h'.views m = { (h.views m).cleared with inService := true } := by
      rw [Heap.views, hm', setList_view, hm1, List.append_nil]
      simp [Heap.views, View.cleared, Entry.view, hp, TargetView.unmark, Target.unmark, Target.view]
    have hother : ∀ x, x ≠ m → h'.views x = h.views x ∨
        ((h.views x).pending = true ∧ h'.views x = (h.views x).cleared) := by
      intro x hx
      have hx' := hother x hx
      rwa [hv1, Function.update_of_ne hx] at hx'
    rw [hok]
    refine ⟨hi.change hother hmarks' ?_ ?_ ?_ ?_ ?_ ?_, fun hP x => ?_⟩
    · rw [hview]
      have hcl := hv.cleared
      refine ⟨hcl.deferred, hcl.marked, ?_, ?_, hcl.prefetch, fun _ => halloc⟩
      · intro t ht _ hmark
        rw [cleared_unmarked ht] at hmark
        cases hmark
      · intro t ht hmark
        rw [cleared_unmarked ht] at hmark
        cases hmark
    · intro k
      rw [hview]
      exact cleared_links_le _ k
    · intro _
      rw [hview]
      exact .inl rfl
    · intro hs
      cases hs
    · intro k hs
      cases hs
    · intro k hk hs
      exact absurd (Option.some.inj hs).symm hk
    · by_cases hx : x = m
      · rw [hx, hview]
        intro t _ _ _ hw
        rcases hw with h | h <;> cases h
      · exact Told.other hi (fun hs => hx (Option.some.inj hs).symm) (hT hP x) (hother x hx)
  · have hp : (h m).downstreamPending = true := by simpa using hp
    refine ⟨?_, fun hP x => ?_⟩
    · rw [hv1]
      refine hi.setEntry ?_ rfl (fun _ => rfl) (fun _ => le_rfl) (fun _ => .inl rfl) ?_ ?_ ?_
      · exact ⟨hv.deferred, hv.marked, fun t ht hs hmark => absurd hmark (by
          rw [hsnoop t ht hs]
          decide), fun _ _ _ => .inr hp, hv.prefetch, fun _ => halloc⟩
      · intro hs
        cases hs
      · intro k hs
        cases hs
      · intro k hk hs
        exact absurd (Option.some.inj hs).symm hk
    · rw [hv1]
      by_cases hx : x = m
      · rw [hx, Function.update_self]
        intro t ht hs hk _
        exact hT hP m t ht hs hk (.inl hns)
      · rw [Function.update_of_ne hx]
        exact hT hP x

/-! ## Requests -/

/-- A target is added.  `C` says that a request on the target list is marked where it has to be. -/
theorem Kept.push {C : Prop} {w : Which} {t : TargetView n} {h' : Heap n}
    (hk : Kept depth sending sentAt clock P h) (hv : h'.views = h.views.push m w t)
    (hlink : ∀ k, t.links = some k → sending = some k ∧ MSHR.count TargetView.links h.views k = 0)
    (habove : t.marked = true → ∃ k, t.mshr = some k ∧ Above depth sentAt t.source m k)
    (hdef : w = .deferredTargets → t.source = .FromCPU ∧ (t.mshr ≠ none → t.marked = true))
    (hsnoop : t.source = .FromSnoop → t.marked = true → (h m).inService = true ∧ (h m).downstreamPending = true)
    (hwait : w = .targets → t.marked = true → (h m).inService = false ∨ (h m).downstreamPending = true)
    (hpf : t.source = .FromPrefetcher → t.mshr = none)
    (htold : C → w = .targets → t.source ≠ .FromSnoop → t.mshr ≠ none →
      (h m).inService = false ∨ (h m).downstreamPending = true → t.marked = true) :
    Kept depth sending sentAt clock (P ∧ C) h' := by
  obtain ⟨hi, hT⟩ := hk
  refine ⟨hv ▸ hi.push hlink habove hdef hsnoop hwait hpf, ?_⟩
  rintro ⟨hP, hC⟩ x u hu hs hne hw
  -- the MSHR that the new target marks is only being sent, so what it was told stays
  have hw' : (h.views x).inService = false ∨ (h.views x).pending = true := by
    rw [hv, push_inService, push_pending, Bool.or_eq_true, decide_eq_true_eq] at hw
    rcases hw with hw | hw | hw
    · exact .inl hw
    · exact .inr hw
    · exact .inl (hi.sent x (hlink x (TargetView.links_of_marks hw)).1).2.1
  rw [hv] at hu
  rcases mem_push (w := .targets) hu with ⟨rfl, hwt, rfl⟩ | hu
  · exact htold hC hwt.symm hs hne hw'
  · exact hT hP x u hu hs hne hw'

theorem Kept.mono {Q : Prop} (hk : Kept depth sending sentAt clock P h) (hQ : Q → P) :
    Kept depth sending sentAt clock Q h :=
  ⟨hk.1, fun hq => hk.2 (hQ hq)⟩

theorem Kept.congr {h' : Heap n} (hk : Kept depth sending sentAt clock P h)
    (hv : h'.views = h.views) : Kept depth sending sentAt clock P h' := by
  unfold Kept
  rw [hv]
  exact hk

/-- A request of an MSHR above has been sent and has no target yet. -/
def Fresh (depth : Fin n → ℕ) (sending : Option (Fin n)) (m : Fin n) (h : Heap n) (pkt : Pkt n) : Prop :=
  ∀ k, pkt.mshr = some k → sending = some k ∧ MSHR.count TargetView.links h.views k = 0 ∧
    depth m < depth k

variable {pkt : Pkt n}

theorem Fresh.not_pending (hf : Fresh depth sending m h pkt) (hi : Inv depth h.views sending sentAt clock)
    {k : Fin n} (hk : pkt.mshr = some k) : (h k).downstreamPending = false :=
  hi.not_pending (hf k hk).2.1

theorem add_kept (w : Which) (source : Source) (markPending a : Bool)
    (hk : Kept depth sending sentAt clock P h) (hf : Fresh depth sending m h pkt) (hs : source ≠ .FromSnoop)
    (hpf : source = .FromPrefetcher → pkt.mshr = none)
    (hdef : w = .deferredTargets → source = .FromCPU ∧ markPending = true)
    (hwait : w = .targets → markPending = true → (h m).inService = false) :
    Outcome Elsewhere (Kept depth sending sentAt clock (P ∧ (w = .targets → pkt.mshr ≠ none →
      markPending = false → (h m).inService = true ∧ (h m).downstreamPending = false)))
      (add h m w pkt source markPending a) := by
  obtain ⟨h', hok, hv⟩ := add_views m w pkt source markPending a
    (fun _ k hmshr => hf.not_pending hk.1 hmshr)
  rw [hok]
  refine hk.push hv ?_ ?_ ?_ ?_ ?_ hpf ?_
  · intro k hlk
    rw [TargetView.links, if_pos (.inl hs)] at hlk
    exact ⟨(hf k hlk).1, (hf k hlk).2.1⟩
  · intro hmark
    obtain ⟨_, hsome⟩ := Bool.and_eq_true_iff.1 hmark
    obtain ⟨k, hmshr⟩ := Option.isSome_iff_exists.1 hsome
    exact ⟨k, hmshr, by rw [Above, if_neg hs]; exact (hf k hmshr).2.2⟩
  · intro hw
    refine ⟨(hdef hw).1, fun hne => ?_⟩
    show (markPending && pkt.mshr.isSome) = true
    rw [(hdef hw).2, Option.isSome_iff_ne_none.2 hne]
    rfl
  · intro hsn
    exact absurd hsn hs
  · intro hw hmark
    exact .inl (hwait hw (Bool.and_eq_true_iff.1 hmark).1)
  · intro hC hw _ hne hor
    show (markPending && pkt.mshr.isSome) = true
    rw [Option.isSome_iff_ne_none.2 hne, Bool.and_true]
    by_contra hmp
    obtain ⟨hin, hnp⟩ := hC hw hne (Bool.eq_false_iff.2 hmp)
    rcases hor with hor | hor
    · rw [hin] at hor
      cases hor
    · rw [hnp] at hor
      cases hor

theorem allocate_kept {a : Bool} (hk : Kept depth sending sentAt clock P h) (hf : Fresh depth sending m h pkt)
    (hpf : pkt.cmd = .HardPFReq → pkt.mshr = none) :
    Outcome Elsewhere (Kept depth sending sentAt clock P) (allocate m pkt a h) := by
  obtain ⟨hi, hT⟩ := hk
  unfold allocate
  refine (check_outcome _).bind fun _ hal => ?_
  refine (check_outcome _).bind fun _ hempty => ?_
  refine (check_outcome _).bind fun _ _ => ?_
  have hal : (h.views m).allocated = false := by simpa [Heap.views, Entry.view] using hal
  obtain ⟨hts, hds⟩ : (h m).targets.list = [] ∧ (h m).deferredTargets.list = [] := by
    simpa using hempty
  have hnsend : sending ≠ some m := fun hs => by
    rw [(hi.sent m hs).1] at hal
    cases hal
  have hunlinked : MSHR.count TargetView.links h.views m = 0 := by
    by_contra hne
    rcases hi.linked m (Nat.pos_of_ne_zero hne) with hin | hs
    · rw [(hi.views m).allocated hin] at hal
      cases hal
    · exact hnsend hs
  set h1 : Heap n := Function.update h m
    { h m with allocated := true, isForward := false, inService := false, downstreamPending := false }
    with hh1
  have hv1 : h1.views = Function.update h.views m ⟨true, false, false, [], []⟩ := by
    rw [hh1, views_update]
    simp [Entry.view, hts, hds]
  have hcount : ∀ f, MSHR.count f h1.views = MSHR.count f h.views := by
    intro f
    refine count_congr fun x => ?_
    rw [hv1]
    by_cases hx : x = m
    · subst hx
      simp [Heap.views, Entry.view, hts, hds]
    · simp [hx]
  have hk1 : Kept depth sending sentAt clock P h1 := by
    refine ⟨?_, fun hP x => ?_⟩
    · rw [hv1]
      refine hi.setEntry ?_ (hi.not_pending hunlinked).symm ?_ ?_ ?_ ?_ ?_ ?_
      · refine ⟨?_, ?_, ?_, ?_, ?_, fun h => by cases h⟩
        · intro t ht
          exact absurd ht List.not_mem_nil
        · intro w t ht
          cases w <;> exact absurd ht List.not_mem_nil
        · intro t ht
          exact absurd ht List.not_mem_nil
        · intro t ht
          exact absurd ht List.not_mem_nil
        · intro t ht
          exact absurd ht List.not_mem_nil
      · intro k
        simp [View.count, Heap.views, Entry.view, hts, hds]
      · intro k
        simp [View.count]
      · intro hpos
        omega
      · intro hs
        exact absurd hs hnsend
      · exact fun _ => id
      · exact fun _ _ => id
    · rw [hv1]
      by_cases hx : x = m
      · rw [hx, Function.update_self]
        intro t ht
        exact absurd ht List.not_mem_nil
      · rw [Function.update_of_ne hx]
        exact hT hP x
  have hf1 : Fresh depth sending m h1 pkt := fun k hmshr => by
    rw [hcount]
    exact hf k hmshr
  have hadd := add_kept .targets (if pkt.cmd = .HardPFReq then .FromPrefetcher else .FromCPU) true a
    hk1 hf1
    (by split <;> decide)
    (by
      intro hs
      split at hs
      · rename_i hcmd; exact hpf hcmd
      · cases hs)
    (fun hw => by cases hw) (fun _ _ => by rw [hh1, Function.update_self])
  refine hadd.bind fun h2 hk2 => ?_
  refine (check_outcome _).bind fun _ _ => ?_
  exact hk2.mono fun hP => ⟨hP, fun _ _ hmp => by cases hmp⟩

/-- The request of an MSHR above goes unmarked to the target list of an MSHR that is pending. -/
def Slips (m : Fin n) (pkt : Pkt n) (h : Heap n) : Prop :=
  ∃ front rest, (h m).targets.list = front :: rest ∧ defers (h m) front.pkt pkt = false ∧
    (h m).inService = true ∧ (h m).downstreamPending = true ∧ pkt.mshr ≠ none

theorem allocateTarget_kept {a : Bool} (hk : Kept depth sending sentAt clock P h) (hf : Fresh depth sending m h pkt) :
    Outcome Elsewhere (Kept depth sending sentAt clock (P ∧ ¬Slips m pkt h)) (allocateTarget m pkt a h) := by
  unfold allocateTarget
  refine (check_outcome _).bind fun _ _ => ?_
  cases hlist : (h m).targets.list with
  | nil => exact rfl
  | cons front rest =>
    refine Outcome.ite (fun hd => ?_) (fun hd => ?_)
    · have hf' : Fresh depth sending m h
          (if (h m).inService && (h m).postInvalidate then replaceUpgrade pkt else pkt) := by
        split
        · exact hf
        · exact hf
      refine (add_kept _ _ _ _ hk hf' (by decide) (fun hs => by cases hs) (fun _ => ⟨rfl, rfl⟩)
        (fun hw => by cases hw)).mono fun h' hk' => ?_
      exact hk'.mono fun hP => ⟨hP.1, fun hw => (nomatch hw)⟩
    · refine (add_kept .targets _ (!(h m).inService) _ hk hf (by decide)
        (fun hs => by cases hs) (fun hw => by cases hw)
        (fun _ hmp => by simpa using hmp)).mono fun h' hk' => ?_
      refine hk'.mono fun ⟨hP, hno⟩ => ⟨hP, fun _ hne hmp => ?_⟩
      have hin : (h m).inService = true := by simpa using hmp
      refine ⟨hin, Bool.eq_false_iff.2 fun hp => hno ?_⟩
      exact ⟨front, rest, hlist, Bool.eq_false_iff.2 hd, hin, hp, hne⟩

/-! ## Snoops -/

/-- A snoop that comes from a cache below is express; one that another cache on the bus sends holds the
request of the MSHR that this cache is sending. -/
def Snoopable (depth : Fin n → ℕ) (sending : Option (Fin n)) (m : Fin n) (h : Heap n) (pkt : Pkt n) : Prop :=
  pkt.isExpressSnoop = true ∨ ∀ k, pkt.mshr = some k → sending = some k ∧
    MSHR.count TargetView.links h.views k = 0 ∧ depth m = depth k

/-- The copy of a snoop is added: where it is marked the snoop is not express. -/
theorem add_snoop_kept {will_respond markPending : Bool} (hk : Kept depth sending sentAt clock P h)
    (hs : Snoopable depth sending m h pkt) (hin : (h m).inService = true)
    (hmp : markPending = true → (h m).downstreamPending = true ∧ pkt.isExpressSnoop = false) :
    Outcome Elsewhere (Kept depth sending sentAt clock P)
      (add h m .targets (snoopCopy pkt will_respond) .FromSnoop markPending false) := by
  have hsent : markPending = true → ∀ k, (snoopCopy pkt will_respond).mshr = some k →
      sending = some k ∧ MSHR.count TargetView.links h.views k = 0 ∧ depth m = depth k := by
    intro hmark k hmshr
    have hk' : pkt.mshr = some k := by
      unfold snoopCopy at hmshr
      simp only at hmshr
      split at hmshr
      · exact hmshr
      · cases hmshr
    rcases hs with hx | hs
    · rw [(hmp hmark).2] at hx
      cases hx
    · exact hs k hk'
  obtain ⟨h', hok, hv⟩ := add_views m .targets (snoopCopy pkt will_respond) .FromSnoop
    markPending false
    (fun hmark k hmshr => hk.1.not_pending (hsent hmark k hmshr).2.1)
  rw [hok]
  have hpush := hk.push (C := True) hv ?_ ?_ (fun hw => by cases hw) ?_ ?_ (fun hp => by cases hp)
    (fun _ _ hne => absurd rfl hne)
  · exact hpush.mono fun hP => ⟨hP, trivial⟩
  · intro k hlk
    unfold TargetView.links at hlk
    split at hlk
    · rename_i hor
      have hmark := (Bool.and_eq_true_iff.1 (hor.resolve_left fun hne => hne rfl)).1
      exact ⟨(hsent hmark k hlk).1, (hsent hmark k hlk).2.1⟩
    · cases hlk
  · intro hmark
    obtain ⟨hmark, hsome⟩ := Bool.and_eq_true_iff.1 hmark
    obtain ⟨k, hmshr⟩ := Option.isSome_iff_exists.1 hsome
    obtain ⟨hsend, _, hdepth⟩ := hsent hmark k hmshr
    refine ⟨k, hmshr, ?_⟩
    rw [Above, if_pos rfl]
    refine ⟨hdepth, (hk.1.sent k hsend).2.2 m ?_⟩
    rintro rfl
    have hnin : (h m).inService = false := (hk.1.sent m hsend).2.1
    rw [hin] at hnin
    cases hnin
  · intro _ hmark
    exact ⟨hin, (hmp (Bool.and_eq_true_iff.1 hmark).1).1⟩
  · intro _ hmark
    exact .inr (hmp (Bool.and_eq_true_iff.1 hmark).1).1

theorem Snoopable.congr {h' : Heap n} (hs : Snoopable depth sending m h pkt) (hv : h'.views = h.views) :
    Snoopable depth sending m h' pkt := by
  unfold Snoopable
  rw [hv]
  exact hs

theorem setPostInvalidate_views (h : Heap n) (m : Fin n) : (h.setPostInvalidate m).views = h.views :=
  views_update_same rfl

theorem setPostDowngrade_views (h : Heap n) (m : Fin n) : (h.setPostDowngrade m).views = h.views :=
  views_update_same rfl

theorem setResponding_outcome (b : Bool) (pkt : Pkt n) : Outcome Elsewhere (fun _ => True) (setResponding b pkt) := by
  refine Outcome.ite (fun _ => ?_) (fun _ => trivial)
  refine (check_outcome _).bind fun _ _ => ?_
  exact (check_outcome _).bind fun _ _ => trivial

theorem saveSnoop_kept (hk : Kept depth sending sentAt clock P h) (hs : Snoopable depth sending m h pkt)
    (hin : (h m).inService = true) (hexp : pkt.isExpressSnoop = true → (h m).downstreamPending = false) :
    Outcome Elsewhere (fun r => Kept depth sending sentAt clock P r.1) (saveSnoop m pkt h) := by
  unfold saveSnoop
  refine (setResponding_outcome _ _).bind fun pkt1 _ => ?_
  refine (add_snoop_kept hk hs hin fun hmark => ?_).bind fun h1 hk1 => ?_
  · obtain ⟨hdp, _⟩ := Bool.and_eq_true_iff.1 hmark
    refine ⟨hdp, Bool.eq_false_iff.2 fun hx => ?_⟩
    rw [hexp hx] at hdp
    cases hdp
  · refine hk1.congr ?_
    simp only
    split
    · exact setPostInvalidate_views h1 m
    · rfl

theorem handleSnoop_kept (hk : Kept depth sending sentAt clock P h) (hs : Snoopable depth sending m h pkt) :
    Outcome Elsewhere (fun r => Kept depth sending sentAt clock P r.1) (handleSnoop m pkt h) := by
  unfold handleSnoop
  refine (check_outcome _).bind fun _ _ => ?_
  refine Outcome.ite (fun _ => ?_) (fun hlate => ?_)
  · refine Outcome.ite (fun _ => ?_) (fun _ => hk)
    exact (hk.congr (replaceUpgrades_views h m _)).congr (replaceUpgrades_views _ m _)
  · obtain ⟨hin, hexp⟩ : (h m).inService = true ∧
        (pkt.isExpressSnoop = true → (h m).downstreamPending = false) := by
      simpa using hlate
    have hv1 : Heap.views (if pkt.needsWritable || pkt.isCacheInvalidate
        then h.replaceUpgrades m .deferredTargets else h) = h.views := by
      split
      · exact replaceUpgrades_views h m _
      · rfl
    dsimp only
    generalize (if pkt.needsWritable || pkt.isCacheInvalidate
        then h.replaceUpgrades m .deferredTargets else h) = h1 at hv1 ⊢
    have hk1 := hk.congr hv1
    have hin1 : (h1 m).inService = true := (congrArg View.inService (congrFun hv1 m)).trans hin
    have hdp1 : (h1 m).downstreamPending = (h m).downstreamPending :=
      congrArg View.pending (congrFun hv1 m)
    cases (h1 m).targets.list with
    | nil => exact rfl
    | cons front _ =>
      refine Outcome.ite (fun _ => hk1) (fun _ => ?_)
      have hmid : Outcome Elsewhere
          (fun r : Heap n × Pkt n => Kept depth sending sentAt clock P r.1)
          (if (h1 m).pendingModified || pkt.isInvalidate then saveSnoop m pkt h1
            else .ok (h1, pkt)) := by
        refine Outcome.ite (fun _ => ?_) (fun _ => hk1)
        exact saveSnoop_kept hk1 (hs.congr hv1) hin1 (by rw [hdp1]; exact hexp)
      refine hmid.bind fun r hr => ?_
      refine Outcome.ite (fun _ => ?_) (fun _ => hr)
      exact hr.congr (setPostDowngrade_views r.1 m)

end Alpine.Mem.MSHR
