import Alpine.Mem.MSHROps

/-!
# Responses and the pending protocol

A response promotes deferred targets, takes targets off the list, services them and puts the MSHR back
on the ready list with what is left.  Left on the list are the targets promoted last, which are marked,
and two kinds that are not: requests behind the first when the response invalidates the block, and
targets promoted while a whole-line write is serviced.

* `promoteIf_outcome` — a promotion unmarks what it moves and keeps the protocol.
* `recvTimingResp_kept` — a response keeps the protocol; `Resp.Releases` says when every target is told.
-/

namespace Alpine.Mem.MSHR

open Alpine Alpine.Mem

variable {n : Nat} {depth sentAt : Fin n → ℕ} {clock : ℕ} {h : Heap n} {m : Fin n} {P : Prop}

/-! ## Promotions -/

/-- The MSHR a response is for: its own request has been answered. -/
structure Serving (m : Fin n) (h : Heap n) : Prop where
  inService : (h m).inService = true
  notPending : (h m).downstreamPending = false
  unlinked : MSHR.count TargetView.links h.views m = 0

/-- The MSHR after `promoteIf`. -/
def Entry.promoted (e : Entry n) (pred : Target n → Bool) : Entry n :=
  { e with
    targets := e.targets.withList
      (e.targets.list ++ (e.deferredTargets.list.takeWhile pred).map Target.unmark)
    deferredTargets :=
      (e.deferredTargets.withList (e.deferredTargets.list.dropWhile pred)).populateFlags }

theorem splitFromCPU_outcome (pred : Target n → Bool) : ∀ ts : List (Target n),
    Outcome Elsewhere (fun r => r = (ts.takeWhile pred, ts.dropWhile pred)) (splitFromCPU pred ts)
  | [] => rfl
  | t :: ts => by
    unfold splitFromCPU
    refine (check_outcome _).bind fun _ _ => ?_
    refine Outcome.ite (fun hp => ?_) (fun hp => ?_)
    · refine (splitFromCPU_outcome pred ts).bind fun r hr => ?_
      subst hr
      show (t :: ts.takeWhile pred, ts.dropWhile pred) = _
      rw [List.takeWhile_cons_of_pos hp, List.dropWhile_cons_of_pos hp]
    · show ([], t :: ts) = _
      rw [List.takeWhile_cons_of_neg hp, List.dropWhile_cons_of_neg hp]

variable {ts : List (Target n)}

theorem mem_map_unmark {t : TargetView n} (ht : t ∈ (ts.map Target.unmark).map Target.view) :
    t.marked = false ∧ ∃ u ∈ ts, t = u.view.unmark := by
  rw [List.map_map] at ht
  obtain ⟨u, hu, rfl⟩ := List.mem_map.1 ht
  exact ⟨rfl, u, hu, rfl⟩

/-- The view of `e.promoted pred`, for any split of the deferred list. -/
def Entry.movedView (e : Entry n) (pre rest : List (Target n)) : View n :=
  { e.view with
    targets := e.view.targets ++ (pre.map Target.unmark).map Target.view
    deferred := rest.map Target.view }

variable {e : Entry n}

theorem movedView_ok {pre rest : List (Target n)} (hv : ViewOk depth sentAt m e.view)
    (hsplit : pre ++ rest = e.deferredTargets.list) : ViewOk depth sentAt m (e.movedView pre rest) := by
  have hdeferred : ∀ t, t ∈ pre ∨ t ∈ rest → t.view ∈ e.view.deferred := by
    intro t ht
    refine List.mem_map_of_mem ?_
    rw [← hsplit]
    exact List.mem_append.2 ht
  have hrest : ∀ t ∈ rest.map Target.view, t ∈ e.view.deferred := by
    intro t ht
    obtain ⟨u, hu, rfl⟩ := List.mem_map.1 ht
    exact hdeferred u (.inr hu)
  refine ⟨fun t ht => hv.deferred t (hrest t ht), ?_, ?_, ?_, ?_, hv.allocated⟩
  · intro w t ht hmark
    cases w with
    | targets =>
      rcases List.mem_append.1 ht with ht | ht
      · exact hv.marked .targets t ht hmark
      · rw [(mem_map_unmark ht).1] at hmark
        cases hmark
    | deferredTargets => exact hv.marked .deferredTargets t (hrest t ht) hmark
  · intro t ht hs hmark
    rcases List.mem_append.1 ht with ht | ht
    · exact hv.snooped t ht hs hmark
    · rw [(mem_map_unmark ht).1] at hmark
      cases hmark
  · intro t ht hmark
    rcases List.mem_append.1 ht with ht | ht
    · exact hv.waiting t ht hmark
    · rw [(mem_map_unmark ht).1] at hmark
      cases hmark
  · intro t ht hs
    rcases List.mem_append.1 ht with ht | ht
    · exact hv.prefetch t ht hs
    · obtain ⟨_, u, hu, rfl⟩ := mem_map_unmark ht
      have hcpu := (hv.deferred u.view (hdeferred u (.inl hu))).1
      cases hcpu.symm.trans hs

theorem movedView_links_le {pre rest : List (Target n)} (hsplit : pre ++ rest = e.deferredTargets.list)
    (k : Fin n) : (e.movedView pre rest).count TargetView.links k ≤ e.view.count TargetView.links k := by
  have hle := count_map_le (f := TargetView.links) (k := k) (fun _ => links_unmark)
    (pre.map Target.view)
  have hmap : (pre.map Target.unmark).map Target.view =
      (pre.map Target.view).map TargetView.unmark := by
    rw [List.map_map, List.map_map]
    rfl
  have hdef : e.view.deferred = pre.map Target.view ++ rest.map Target.view := by
    rw [← List.map_append, hsplit]
    rfl
  unfold View.count Entry.movedView
  rw [hmap, hdef]
  simp only [List.map_append, List.count_append]
  omega

theorem promoteIf_outcome (pred : Target n → Bool) (hk : Kept depth none sentAt clock P h) (hs : Serving m h) :
    Outcome Elsewhere (fun h' => Kept depth none sentAt clock P h' ∧ Serving m h' ∧
      h' m = (h m).promoted pred) (promoteIf pred m h) := by
  obtain ⟨hi, hT⟩ := hk
  unfold promoteIf
  refine (check_outcome _).bind fun _ _ => ?_
  refine (splitFromCPU_outcome pred _).bind fun r hr => ?_
  subst hr
  simp only
  have hsplit : (h m).deferredTargets.list.takeWhile pred ++ (h m).deferredTargets.list.dropWhile pred =
      (h m).deferredTargets.list := List.takeWhile_append_dropWhile
  generalize hpre : (h m).deferredTargets.list.takeWhile pred = pre at hsplit ⊢
  generalize hrest : (h m).deferredTargets.list.dropWhile pred = rest at hsplit ⊢
  obtain ⟨h1, hok, hm1, hother, hmarks⟩ := clearTargets_views .deferredTargets pre rest
    hi.ranked hi.marks hs.notPending hsplit.symm
  rw [hok]
  have hentry : h1 m = { h m with
      deferredTargets := (h m).deferredTargets.withList (pre.map Target.unmark ++ rest) } := hm1
  have htake : (h1 m).deferredTargets.list.take pre.length = pre.map Target.unmark := by
    rw [hentry]
    exact List.take_left' (List.length_map _)
  have hdrop : (h1 m).deferredTargets.list.drop pre.length = rest := by
    rw [hentry]
    exact List.drop_left' (List.length_map _)
  show Kept depth none sentAt clock P _ ∧ _
  rw [htake, hdrop]
  set h' : Heap n := Function.update h1 m _ with hh'
  have hm' : h' m = (h m).promoted pred := by
    rw [hh', Function.update_self, hentry]
    simp only [Entry.promoted, hpre, hrest, TargetList.withList]
  have hview : h'.views m = (h m).movedView pre rest := by
    rw [Heap.views, hm']
    simp [Entry.promoted, Entry.view, Entry.movedView, hpre, hrest]
  have hother' : ∀ x, x ≠ m → h'.views x = h.views x ∨
      ((h.views x).pending = true ∧ h'.views x = (h.views x).cleared) := by
    intro x hx
    have hsame : h'.views x = h1.views x := by
      rw [hh', views_update, Function.update_of_ne hx]
    rw [hsame]
    exact hother x hx
  have hpend : ∀ k, (h'.views k).pending = (h1.views k).pending := by
    intro k
    by_cases hk : k = m
    · rw [hk, hview]
      exact (congrArg Entry.downstreamPending hentry).symm
    · rw [hh', views_update, Function.update_of_ne hk]
  have hmarks' : ∀ k, MSHR.count TargetView.marks h'.views k =
      if (h'.views k).pending then 1 else 0 := by
    intro k
    rw [hpend, ← hmarks k]
    have hc := count_update TargetView.marks h1.views m ((h m).movedView pre rest) k
    have hv' : h'.views = Function.update h1.views m ((h m).movedView pre rest) := by
      rw [← hview, hh', views_update, Function.update_self]
    have hsame : (h1.views m).count TargetView.marks k =
        ((h m).movedView pre rest).count TargetView.marks k := by
      rw [Heap.views, hentry]
      simp only [View.count, Entry.movedView, Entry.view, TargetList.withList, List.map_append, List.count_append]
      omega
    rw [hv']
    omega
  have hlinks : ∀ k, (h'.views m).count TargetView.links k ≤
      (h.views m).count TargetView.links k := by
    intro k
    rw [hview]
    exact movedView_links_le hsplit k
  have hin : (h'.views m).inService = true := by
    rw [hview]
    exact hs.inService
  have hnp : (h'.views m).pending = false := by
    rw [hview]
    exact hs.notPending
  refine ⟨⟨?_, fun hP x => ?_⟩, ⟨hin, hnp, ?_⟩, hm'⟩
  · refine hi.change hother' hmarks' ?_ hlinks (fun _ => .inl hin) (fun hs => by cases hs)
      (fun _ hs => hs) (fun _ _ hs => hs)
    rw [hview]
    exact movedView_ok (hi.views m) hsplit
  · by_cases hx : x = m
    · rw [hx]
      intro t _ _ _ hw
      rw [hin, hnp] at hw
      rcases hw with hw | hw <;> cases hw
    · exact Told.other hi (fun hs => by cases hs) (hT hP x) (hother' x hx)
  · exact Nat.le_zero.1 (hs.unlinked ▸ links_le hother' hlinks m)

theorem promoteReadable_outcome (hk : Kept depth none sentAt clock P h) (hs : Serving m h) :
    Outcome Elsewhere (fun h' => Kept depth none sentAt clock P h' ∧ Serving m h' ∧ (h' m = h m ∨
        h' m = (h m).promoted fun t => !t.pkt.isCacheInvalidate && !t.pkt.needsWritable))
      (promoteReadable m h) := by
  refine Outcome.ite (fun _ => ?_) (fun _ => ⟨hk, hs, .inl rfl⟩)
  exact (promoteIf_outcome _ hk hs).mono fun h' ⟨hk', hs', hm'⟩ => ⟨hk', hs', .inr hm'⟩

/-- The condition of `promoteWritable`. -/
def Entry.promotes (e : Entry n) : Bool :=
  e.deferredTargets.needsWritable && !(e.postInvalidate || e.postDowngrade)

def Entry.setTargetsWritable (e : Entry n) : Entry n :=
  e.setList .targets { e.targets with needsWritable := true }

theorem promoteWritable_outcome (hk : Kept depth none sentAt clock P h) (hs : Serving m h) :
    Outcome Elsewhere (fun h' => Kept depth none sentAt clock P h' ∧ Serving m h' ∧ h' m = if (h m).promotes then
          (h m).setTargetsWritable.promoted fun t => !t.pkt.isCacheInvalidate
        else h m)
      (promoteWritable m h) := by
  refine Outcome.ite (fun hp => ?_) (fun hp => ⟨hk, hs, (if_neg hp).symm⟩)
  refine (check_outcome _).bind fun _ _ => ?_
  have hv : (h.setList m .targets { (h m).targets with needsWritable := true }).views = h.views :=
    views_update_same rfl
  have hm : h.setList m .targets { (h m).targets with needsWritable := true } m =
      (h m).setTargetsWritable := Function.update_self _ _ _
  have hs' : Serving m (h.setList m .targets { (h m).targets with needsWritable := true }) :=
    ⟨by rw [hm]; exact hs.inService, by rw [hm]; exact hs.notPending, by rw [hv]; exact hs.unlinked⟩
  refine (promoteIf_outcome _ (hk.congr hv) hs').mono fun h' ⟨hk', hs', hm'⟩ => ⟨hk', hs', ?_⟩
  rw [hm', hm, Entry.promotes, if_pos hp]

/-! ## When every target is told -/

/-- No target holds the request of an MSHR above. -/
def Free (ts : List (Target n)) : Prop := ∀ t ∈ ts, t.source = .FromCPU → t.pkt.mshr = none

/-- The deferred targets that `promoteWritable` moves. -/
def Entry.promotable (e : Entry n) : List (Target n) :=
  e.deferredTargets.list.takeWhile fun t => !t.pkt.isCacheInvalidate

def WritesLine (ts : List (Target n)) : Prop := ∃ t ∈ ts, t.source = .FromCPU ∧ t.pkt.cmd = .WriteLineReq

def Resp.readable (r : Resp) : Bool := r.blkValid && r.isClean && !r.isInvalidate
def Resp.writable (r : Resp) : Bool := r.blkWritable && !r.reqInvalidate

/-- The targets of the list that the response services. -/
def Resp.served (r : Resp) (e : Entry n) : List (Target n) :=
  if r.cmd = .ReadRespWithInvalidate then e.targets.list.take 1 else e.targets.list

/-- No request of an MSHR above is left unmarked on the target list: none is behind the first when the
response invalidates the block, and none is promoted while a whole-line write is serviced.  A clean
response, which promotes readable targets first, never meets a whole-line write. -/
structure Resp.Releases (r : Resp) (e : Entry n) : Prop where
  behind : r.cmd = .ReadRespWithInvalidate → Free e.targets.list.tail ∧
    (r.writable = true → e.promotes = true → Free e.promotable)
  late : WritesLine (r.served e) → r.writable = false → e.promotes = true ∨ r.readable = true →
    Free e.promotable

/-- What is left of `Resp.Releases` once the response has promoted what it can. -/
structure Resp.Settled (r : Resp) (e : Entry n) : Prop where
  behind : r.cmd = .ReadRespWithInvalidate → Free e.targets.list.tail
  late : WritesLine (r.served e) → e.promotes = true → Free e.promotable

theorem Free.mono {us : List (Target n)} (hf : Free ts) (h : ∀ t ∈ us, t ∈ ts) : Free us :=
  fun t ht => hf t (h t ht)

theorem Free.append {us : List (Target n)} (ht : Free ts) (hu : Free us) : Free (ts ++ us) := by
  intro t hmem
  rcases List.mem_append.1 hmem with h | h
  · exact ht t h
  · exact hu t h

theorem Free.unmark (hf : Free ts) : Free (ts.map Target.unmark) := by
  intro t ht
  obtain ⟨u, hu, rfl⟩ := List.mem_map.1 ht
  exact hf u hu

theorem Free.nil : Free ([] : List (Target n)) := fun _ ht => absurd ht List.not_mem_nil

/-- What is promotable behind readable targets was promotable. -/
theorem takeWhile_dropWhile_mem {α : Type} {p q : α → Bool} (hqp : ∀ a, q a = true → p a = true) :
    ∀ {l : List α} {a : α}, a ∈ (l.dropWhile q).takeWhile p → a ∈ l.takeWhile p
  | [], _, ha => ha
  | b :: l, a, ha => by
    by_cases hq : q b = true
    · rw [List.dropWhile_cons_of_pos hq] at ha
      rw [List.takeWhile_cons_of_pos (hqp b hq)]
      exact List.mem_cons_of_mem b (takeWhile_dropWhile_mem hqp ha)
    · rwa [List.dropWhile_cons_of_neg hq] at ha

theorem takeWhile_dropWhile {α : Type} (p : α → Bool) (l : List α) : (l.dropWhile p).takeWhile p = [] := by
  induction l with
  | nil => rfl
  | cons b l ih =>
    by_cases hp : p b = true
    · rw [List.dropWhile_cons_of_pos hp]
      exact ih
    · rw [List.dropWhile_cons_of_neg hp, List.takeWhile_cons_of_neg hp]

theorem promoted_promotable (e : Entry n) (pred : Target n → Bool) : (e.promoted pred).promotable =
      (e.deferredTargets.list.dropWhile pred).takeWhile fun t => !t.pkt.isCacheInvalidate := by
  simp [Entry.promotable, Entry.promoted]

variable {r : Resp}

theorem isClean_of_readable (hr : r.readable = true) : r.cmd ≠ .ReadRespWithInvalidate := by
  intro hcmd
  unfold Resp.readable Resp.isClean at hr
  rw [hcmd] at hr
  simp [MemCmd.testCmdAttrib, MemCmd.attributes] at hr

theorem Resp.Releases.readable {e1 : Entry n} (hr : r.Releases e) (he : e1 = e ∨ (r.readable = true ∧
      e1 = e.promoted fun t => !t.pkt.isCacheInvalidate && !t.pkt.needsWritable)) :
    (r.cmd = .ReadRespWithInvalidate → e1 = e) ∧
      (WritesLine (r.served e1) → r.writable = false → e1.promotes = true → Free e1.promotable) := by
  rcases he with rfl | ⟨hread, rfl⟩
  · exact ⟨fun _ => rfl, fun hw hnw hp => hr.late hw hnw (.inl hp)⟩
  · have hcmd := isClean_of_readable hread
    refine ⟨fun h => absurd h hcmd, ?_⟩
    rintro ⟨t, ht, hs, hline⟩ hnw _
    rw [Resp.served, if_neg hcmd] at ht
    have hold : WritesLine (r.served e) := by
      refine ⟨t, ?_, hs, hline⟩
      rw [Resp.served, if_neg hcmd]
      rcases List.mem_append.1 ht with ht | ht
      · exact ht
      · -- a whole-line write needs the block writable
        obtain ⟨u, hu, rfl⟩ := List.mem_map.1 ht
        have hpred := List.mem_takeWhile_imp hu
        have hnw : u.pkt.needsWritable = false := by simpa using (Bool.and_eq_true_iff.1 hpred).2
        have hcmdu : u.pkt.cmd = .WriteLineReq := hline
        rw [Pkt.needsWritable, hcmdu] at hnw
        simp [MemCmd.testCmdAttrib, MemCmd.attributes] at hnw
    refine (hr.late hold hnw (.inr hread)).mono fun u hu => ?_
    rw [promoted_promotable] at hu
    exact takeWhile_dropWhile_mem (fun a ha => (Bool.and_eq_true_iff.1 ha).1) hu

/-- After `promoteWritable`, which leaves nothing promotable where it runs. -/
theorem Resp.Releases.settled {e1 e2 : Entry n} (hr : r.Releases e) (hne : e.targets.list ≠ [])
    (h1 : (r.cmd = .ReadRespWithInvalidate → e1 = e) ∧
      (WritesLine (r.served e1) → r.writable = false → e1.promotes = true → Free e1.promotable))
    (h2 : if r.writable then
        e2 = (if e1.promotes then
          e1.setTargetsWritable.promoted fun t => !t.pkt.isCacheInvalidate else e1)
      else e2 = e1) : r.Settled e2 := by
  split at h2
  · rename_i hw
    split at h2
    · rename_i hp
      subst h2
      refine ⟨fun hcmd => ?_, fun _ _ => ?_⟩
      · obtain rfl := h1.1 hcmd
        obtain ⟨t, ts, hts⟩ := List.exists_cons_of_ne_nil hne
        have hbehind := hr.behind hcmd
        rw [hts] at hbehind
        have hlist : (e1.setTargetsWritable.promoted
            fun t => !t.pkt.isCacheInvalidate).targets.list =
            t :: (ts ++ e1.promotable.map Target.unmark) := by
          simp [Entry.promoted, Entry.setTargetsWritable, Entry.setList, hts, Entry.promotable]
        rw [hlist]
        exact hbehind.1.append (hbehind.2 hw hp).unmark
      · rw [promoted_promotable, takeWhile_dropWhile]
        exact Free.nil
    · rename_i hp
      subst h2
      refine ⟨fun hcmd => ?_, fun _ hp' => absurd hp' hp⟩
      obtain rfl := h1.1 hcmd
      exact (hr.behind hcmd).1
  · rename_i hw
    subst h2
    refine ⟨fun hcmd => ?_, fun hline hp => h1.2 hline (Bool.eq_false_iff.2 hw) hp⟩
    obtain rfl := h1.1 hcmd
    exact (hr.behind hcmd).1

/-! ## Extraction and service -/

theorem takeSnoops_outcome : ∀ ts : List (Target n),
    Outcome Elsewhere (fun r => r.2.Sublist ts ∧ ∀ t ∈ r.1, t.source = .FromSnoop) (takeSnoops ts)
  | [] => ⟨List.Sublist.refl [], fun _ ht => absurd ht List.not_mem_nil⟩
  | t :: ts => by
    unfold takeSnoops
    refine (takeSnoops_outcome ts).bind fun r ⟨hsub, hready⟩ => ?_
    refine Outcome.ite (fun _ => ⟨hsub.cons_cons t, hready⟩) (fun _ => ?_)
    refine (check_outcome _).bind fun _ hs => ⟨hsub.cons t, ?_⟩
    intro u hu
    rcases List.mem_cons.1 hu with rfl | hu
    · simpa using hs
    · exact hready u hu

theorem extractServiceableTargets_outcome :
    Outcome Elsewhere (fun q => (∃ l, q.2 = e.setList .targets l ∧ l.list.Sublist e.targets.list ∧
        (r.Settled e → Free l.list)) ∧ ∀ t ∈ q.1.list, t.source = .FromCPU → t ∈ r.served e)
      (extractServiceableTargets r.cmd e) := by
  unfold extractServiceableTargets
  refine Outcome.ite (fun hcmd => ?_) (fun hcmd => ?_)
  · cases hts : e.targets.list with
    | nil => exact rfl
    | cons t ts =>
      refine (check_outcome _).bind fun _ _ => ?_
      refine (takeSnoops_outcome ts).bind fun q ⟨hsub, hready⟩ => ?_
      refine ⟨⟨_, rfl, ?_, fun hset => ?_⟩, ?_⟩
      · rw [populateFlags_list]
        exact hsub.cons t
      · rw [populateFlags_list]
        have hbehind := hset.behind hcmd
        rw [hts] at hbehind
        exact hbehind.mono fun u hu => hsub.subset hu
      · intro u hu hs
        rw [Resp.served, if_pos hcmd, hts]
        rw [populateFlags_list] at hu
        rcases List.mem_cons.1 hu with rfl | hu
        · exact List.mem_cons_self
        · cases (hready u hu).symm.trans hs
  · refine ⟨⟨_, rfl, List.nil_sublist _, fun _ => Free.nil⟩, ?_⟩
    intro u hu _
    rw [Resp.served, if_neg hcmd]
    exact hu

/-- What the service loop keeps; `C` is the condition under which every target is told. -/
structure Served (depth sentAt : Fin n → ℕ) (clock : ℕ) (P C : Prop) (ready : List (Target n))
    (m : Fin n) (h : Heap n) : Prop where
  kept : Kept depth none sentAt clock P h
  serving : Serving m h
  free : C → Free (h m).targets.list
  late : C → WritesLine ready → (h m).promotes = true → Free (h m).promotable

variable {C : Prop} {ready : List (Target n)}

theorem serviceTarget_outcome {t : Target n} (ht : t ∈ ready) (hs : Served depth sentAt clock P C ready m h) :
    Outcome Elsewhere (Served depth sentAt clock P C ready m) (serviceTarget r m h t) := by
  unfold serviceTarget
  cases hsrc : t.source with
  | FromCPU =>
    refine Outcome.ite (fun _ => hs) (fun _ => ?_)
    refine Outcome.ite (fun hline => ?_) (fun _ => hs)
    refine (check_outcome _).bind fun _ _ => ?_
    refine (promoteWritable_outcome hs.kept hs.serving).mono fun h' ⟨hk', hs', hm'⟩ => ?_
    split at hm'
    · rename_i hp
      refine ⟨hk', hs', fun hC => ?_, fun _ _ _ => ?_⟩
      · rw [hm']
        exact (hs.free hC).append (hs.late hC ⟨t, ht, hsrc, hline⟩ hp).unmark
      · rw [hm', promoted_promotable, takeWhile_dropWhile]
        exact Free.nil
    · exact ⟨hk', hs', by rw [hm']; exact hs.free, by rw [hm']; exact hs.late⟩
  | FromPrefetcher =>
    exact (check_outcome _).bind fun _ _ => hs
  | FromSnoop =>
    exact (check_outcome _).bind fun _ _ => hs

/-- The targets of an MSHR that is answered are not marked. -/
theorem Serving.unmarked (hs : Serving m h) (hi : Inv depth h.views none sentAt clock)
    {t : TargetView n} (ht : t ∈ (h.views m).targets) : t.marked = false := by
  by_contra hmark
  rcases (hi.views m).waiting t ht (Bool.eq_true_of_not_eq_false hmark) with hw | hw
  · cases hs.inService.symm.trans hw
  · cases hs.notPending.symm.trans hw

theorem Kept.setEntry (hk : Kept depth none sentAt clock P h)
    (hun : MSHR.count TargetView.links h.views m = 0) (hok : ViewOk depth sentAt m e.view)
    (hpend : e.downstreamPending = (h m).downstreamPending)
    (hmarks : ∀ k, e.view.count TargetView.marks k = (h.views m).count TargetView.marks k)
    (hlinks : ∀ k, e.view.count TargetView.links k ≤ (h.views m).count TargetView.links k)
    (hT : P → C → Told e.view) : Kept depth none sentAt clock (P ∧ C) (Function.update h m e) := by
  refine ⟨?_, fun hPC x => ?_⟩
  · rw [views_update]
    refine hk.1.setEntry hok hpend hmarks hlinks (fun hpos => ?_) (fun hs => by cases hs)
      (fun _ hs => hs) (fun _ _ hs => hs)
    omega
  · rw [views_update]
    by_cases hx : x = m
    · rw [hx, Function.update_self]
      exact hT hPC.1 hPC.2
    · rw [Function.update_of_ne hx]
      exact hk.2 hPC.1 x

/-- Targets leave the list of an MSHR that is answered. -/
theorem Kept.dropTargets {l : TargetList n} (hk : Kept depth none sentAt clock P h)
    (hs : Serving m h) (hl : l.list.Sublist (h m).targets.list) :
    Kept depth none sentAt clock P (h.setList m .targets l) ∧ Serving m (h.setList m .targets l) := by
  obtain ⟨hi, hT⟩ := hk
  have hv : (h.setList m .targets l).views = Function.update h.views m
      { h.views m with targets := l.list.map Target.view } := by
    rw [Heap.setList, views_update]
    rfl
  have hsub : (l.list.map Target.view).Sublist (h.views m).targets := hl.map Target.view
  have hold := hi.views m
  have hlinks : ∀ k, View.count TargetView.links { h.views m with targets := l.list.map Target.view } k ≤
      (h.views m).count TargetView.links k := by
    intro k
    have hle := (hsub.map TargetView.links).count_le (some k)
    unfold View.count
    simp only
    omega
  have hzero : ∀ ts : List (TargetView n), (∀ t ∈ ts, t ∈ (h.views m).targets) → ∀ k,
      (ts.map TargetView.marks).count (some k) = 0 := by
    intro ts hts k
    refine List.count_eq_zero.2 fun hmem => ?_
    obtain ⟨t, ht, hk⟩ := List.mem_map.1 hmem
    have hmark := (TargetView.marks_some hk).1
    rw [hs.unmarked hi (hts t ht)] at hmark
    cases hmark
  have hview : ((h m).setList .targets l).view = { h.views m with targets := l.list.map Target.view } :=
    rfl
  refine ⟨?_, ⟨?_, ?_, ?_⟩⟩
  · refine Kept.mono (Kept.setEntry (C := True) ⟨hi, hT⟩ hs.unlinked ?_ rfl ?_ hlinks ?_)
      fun hP => ⟨hP, trivial⟩
    · refine ⟨hold.deferred, ?_, ?_, ?_, ?_, hold.allocated⟩
      · intro w t ht
        cases w with
        | targets => exact hold.marked .targets t (hsub.subset ht)
        | deferredTargets => exact hold.marked .deferredTargets t ht
      · exact fun t ht => hold.snooped t (hsub.subset ht)
      · exact fun t ht => hold.waiting t (hsub.subset ht)
      · exact fun t ht => hold.prefetch t (hsub.subset ht)
    · intro k
      rw [hview]
      unfold View.count
      rw [hzero _ (fun t ht => hsub.subset ht), hzero _ (fun _ => id)]
    · exact fun hP _ t ht => hT hP m t (hsub.subset ht)
  · rw [Heap.setList, Function.update_self]
    exact hs.inService
  · rw [Heap.setList, Function.update_self]
    exact hs.notPending
  · have hc := count_update TargetView.links h.views m
      { h.views m with targets := l.list.map Target.view } m
    have hle := hlinks m
    have hun := hs.unlinked
    rw [hv]
    omega

theorem serviceMSHRTargets_outcome (hk : Kept depth none sentAt clock P h) (hs : Serving m h) :
    Outcome Elsewhere (fun h' => Kept depth none sentAt clock P h' ∧ Serving m h' ∧
      (r.Settled (h m) → Free (h' m).targets.list)) (serviceMSHRTargets r m h) := by
  unfold serviceMSHRTargets
  refine extractServiceableTargets_outcome.bind fun q ⟨⟨l, he, hsub, hfree⟩, hready⟩ => ?_
  obtain ⟨ready, e⟩ := q
  simp only at he hready
  subst he
  obtain ⟨hk1, hs1⟩ := hk.dropTargets hs hsub
  have hm1 : h.setList m .targets l m = (h m).setList .targets l := Function.update_self _ _ _
  have hinit : Served depth sentAt clock P (r.Settled (h m)) ready.list m (h.setList m .targets l) := by
    refine ⟨hk1, hs1, fun hC => ?_, fun hC hline hp => ?_⟩
    · rw [hm1]
      exact hfree hC
    · rw [hm1] at hp ⊢
      refine hC.late ?_ hp
      obtain ⟨t, ht, hsrc, hcmd⟩ := hline
      exact ⟨t, hready t ht hsrc, hsrc, hcmd⟩
  refine (Outcome.foldlM (fun h' t ht => serviceTarget_outcome ht) hinit).mono fun h' hserved => ?_
  exact ⟨hserved.kept, hserved.serving, hserved.free⟩

/-! ## Back to the queue -/

def View.advance (v : View n) (k : ℕ) : View n :=
  { v with targets := v.targets ++ v.deferred.take k, deferred := v.deferred.drop k }

/-- Deferred targets are promoted, or nothing is left. -/
theorem promoteDeferredTargets_spec (e : Entry n) :
    ((promoteDeferredTargets e).1 = false ∧ (promoteDeferredTargets e).2 = e ∧
      e.targets.list = [] ∧ e.deferredTargets.list = []) ∨
    ((promoteDeferredTargets e).1 = true ∧ ∃ k, (promoteDeferredTargets e).2.view = e.view.advance k) := by
  unfold promoteDeferredTargets
  split
  · rename_i hempty
    obtain ⟨hts, hds⟩ := Bool.and_eq_true_iff.1 hempty
    exact .inl ⟨rfl, rfl, List.isEmpty_iff.1 hts, List.isEmpty_iff.1 hds⟩
  · refine .inr ⟨rfl, ?_⟩
    simp only [Entry.view, populateFlags_list, List.map_append, List.map_take, List.map_drop]
    exact ⟨_, rfl⟩

theorem advance_count (f : TargetView n → Option (Fin n)) (v : View n) (k : ℕ) (x : Fin n) :
    (v.advance k).count f x = v.count f x := by
  have hsplit : v.deferred.take k ++ v.deferred.drop k = v.deferred := List.take_append_drop k _
  conv_rhs => rw [View.count, ← hsplit]
  unfold View.count View.advance
  simp only [List.map_append, List.count_append]
  omega

/-- An MSHR that is not in service takes its deferred targets. -/
theorem ViewOk.advance {v : View n} (hv : ViewOk depth sentAt m v) (hns : v.inService = false)
    (k : ℕ) : ViewOk depth sentAt m (v.advance k) := by
  have htake : ∀ {t}, t ∈ v.deferred.take k → t ∈ v.deferred := fun ht => List.mem_of_mem_take ht
  have hdrop : ∀ {t}, t ∈ v.deferred.drop k → t ∈ v.deferred := fun ht => List.mem_of_mem_drop ht
  refine ⟨fun t ht => hv.deferred t (hdrop ht), ?_, ?_, fun _ _ _ => .inl hns, ?_, hv.allocated⟩
  · intro w t ht
    cases w with
    | targets =>
      rcases List.mem_append.1 ht with ht | ht
      · exact hv.marked .targets t ht
      · exact hv.marked .deferredTargets t (htake ht)
    | deferredTargets => exact hv.marked .deferredTargets t (hdrop ht)
  · intro t ht hs
    rcases List.mem_append.1 ht with ht | ht
    · exact hv.snooped t ht hs
    · cases (hv.deferred t (htake ht)).1.symm.trans hs
  · intro t ht hs
    rcases List.mem_append.1 ht with ht | ht
    · exact hv.prefetch t ht hs
    · cases (hv.deferred t (htake ht)).1.symm.trans hs

theorem Told.advance {v : View n} (hv : ViewOk depth sentAt m v) (k : ℕ)
    (hT : ∀ t ∈ v.targets, t.source ≠ .FromSnoop → t.mshr ≠ none → t.marked = true) : Told (v.advance k) := by
  intro t ht hs hne _
  rcases List.mem_append.1 ht with ht | ht
  · exact hT t ht hs hne
  · exact (hv.deferred t (List.mem_of_mem_take ht)).2 hne

/-- The view of an MSHR that is freed. -/
def View.freed (v : View n) : View n := { v with allocated := false, inService := false }

theorem ViewOk.freed {v : View n} (hts : v.targets = []) (hds : v.deferred = []) : ViewOk depth sentAt m v.freed := by
  have hno : ∀ w, v.freed.list w = [] := fun w => by
    cases w with
    | targets => exact hts
    | deferredTargets => exact hds
  have hnot : ∀ w, ∀ t ∈ v.freed.list w, False := by
    intro w t ht
    rw [hno w] at ht
    cases ht
  exact ⟨fun t ht => (hnot .deferredTargets t ht).elim, fun w t ht => (hnot w t ht).elim,
    fun t ht => (hnot .targets t ht).elim, fun t ht => (hnot .targets t ht).elim,
    fun t ht => (hnot .targets t ht).elim, fun hin => (nomatch hin)⟩

theorem Told.nil {v : View n} (hts : v.targets = []) : Told v := by
  intro t ht
  rw [hts] at ht
  cases ht

theorem deallocate_outcome (e : Entry n) : Outcome Elsewhere (fun e1 => e1.view = e.view.freed) (deallocate e) := by
  refine (check_outcome _).bind fun _ _ => ?_
  refine (check_outcome _).bind fun _ _ => ?_
  exact (rfl : _ = _)

theorem requeue_kept (hk : Kept depth none sentAt clock P h) (hs : Serving m h)
    (hfree : C → Free (h m).targets.list) :
    Outcome Elsewhere (Kept depth none sentAt clock (P ∧ C)) (requeue m h) := by
  have hold := hk.1.views m
  unfold requeue
  have hspec := promoteDeferredTargets_spec (h m)
  generalize promoteDeferredTargets (h m) = q at hspec
  obtain ⟨promoted, e⟩ := q
  simp only at hspec ⊢
  rcases hspec with ⟨rfl, rfl, hts, hds⟩ | ⟨rfl, k, hadv⟩
  · -- nothing is left
    refine (deallocate_outcome (h m)).bind fun e1 hv => ?_
    have htv : (h m).view.targets = [] := by simp [Entry.view, hts]
    have hdv : (h m).view.deferred = [] := by simp [Entry.view, hds]
    refine hk.setEntry hs.unlinked ?_ (congrArg View.pending hv) ?_ ?_ ?_
    · rw [hv]
      exact ViewOk.freed htv hdv
    · intro k
      rw [hv]
      rfl
    · intro k
      rw [hv]
      exact le_rfl
    · intro _ _
      rw [hv]
      exact Told.nil htv
  · refine Outcome.bind (P := fun e1 => e1.view = ({ h.views m with inService := false } : View n).advance k)
      ((check_outcome _).bind fun _ _ => ?_) fun e1 hv => ?_
    · show ({ e.view with inService := false } : View n) = _
      rw [hadv]
      rfl
    · have hidle : ViewOk depth sentAt m { h.views m with inService := false } := by
        refine ⟨hold.deferred, hold.marked, ?_, fun _ _ _ => .inl rfl, hold.prefetch,
          fun hin => by cases hin⟩
        intro t ht _ hmark
        rw [hs.unmarked hk.1 ht] at hmark
        cases hmark
      refine hk.setEntry hs.unlinked ?_ (congrArg View.pending hv) ?_ ?_ ?_
      · rw [hv]
        exact hidle.advance rfl k
      · intro x
        rw [hv, advance_count]
        rfl
      · intro x
        rw [hv, advance_count]
        exact le_rfl
      · intro _ hC
        rw [hv]
        refine Told.advance hidle k fun t ht hsrc hne => ?_
        -- what the response left on the list holds no request of an MSHR above
        obtain ⟨u, hu, rfl⟩ := List.mem_map.1 ht
        refine absurd ?_ hne
        cases hcpu : u.source with
        | FromCPU => exact hfree hC u hu hcpu
        | FromPrefetcher => exact hold.prefetch u.view ht hcpu
        | FromSnoop => exact absurd hcpu hsrc

/-- **A response** keeps the protocol; where it releases every request, every target is told. -/
theorem recvTimingResp_kept (hk : Kept depth none sentAt clock P h) (hs : Serving m h) :
    Outcome Elsewhere (Kept depth none sentAt clock (P ∧ r.Releases (h m))) (recvTimingResp r m h) := by
  unfold recvTimingResp
  refine (check_outcome _).bind fun _ hne => ?_
  have hne : (h m).targets.list ≠ [] := by simpa using hne
  refine Outcome.bind (P := fun h1 => Kept depth none sentAt clock P h1 ∧ Serving m h1 ∧
      (h1 m = h m ∨ (r.readable = true ∧ h1 m =
        (h m).promoted fun t => !t.pkt.isCacheInvalidate && !t.pkt.needsWritable))) ?_ ?_
  · refine Outcome.ite (fun hread => ?_) (fun _ => ⟨hk, hs, .inl rfl⟩)
    exact (promoteReadable_outcome hk hs).mono fun h' ⟨hk', hs', hm'⟩ =>
      ⟨hk', hs', hm'.imp_right fun hm' => ⟨hread, hm'⟩⟩
  · rintro h1 ⟨hk1, hs1, hm1⟩
    refine Outcome.bind (P := fun h2 => Kept depth none sentAt clock P h2 ∧ Serving m h2 ∧
        (r.Releases (h m) → r.Settled (h2 m))) ?_ ?_
    · refine Outcome.ite (fun hw => ?_) (fun hw => ⟨hk1, hs1, fun hrel => ?_⟩)
      · refine (promoteWritable_outcome hk1 hs1).mono fun h2 ⟨hk2, hs2, hm2⟩ =>
          ⟨hk2, hs2, fun hrel => ?_⟩
        refine hrel.settled hne (hrel.readable hm1) ?_
        rw [if_pos (show r.writable = true from hw)]
        exact hm2
      · refine hrel.settled hne (hrel.readable hm1) ?_
        rw [if_neg (show ¬r.writable = true from hw)]
    · rintro h2 ⟨hk2, hs2, hset⟩
      refine (serviceMSHRTargets_outcome (r := r) hk2 hs2).bind fun h3 ⟨hk3, hs3, hfree⟩ => ?_
      exact requeue_kept hk3 hs3 fun hrel => hfree (hset hrel)

/-! ## A prefetch that is not needed -/

theorem forceDeallocateTarget_kept (hk : Kept depth none sentAt clock P h) (hns : (h m).inService = false)
    (hpf : ∀ t, (h m).targets.list.head? = some t → t.source = .FromPrefetcher) :
    Outcome Elsewhere (Kept depth none sentAt clock P) (forceDeallocateTarget m h) := by
  obtain ⟨hi, hT⟩ := hk
  have hold := hi.views m
  have hun : MSHR.count TargetView.links h.views m = 0 := by
    by_contra hne
    rcases hi.linked m (Nat.pos_of_ne_zero hne) with hin | hs
    · cases hns.symm.trans hin
    · cases hs
  unfold forceDeallocateTarget
  refine (check_outcome _).bind fun _ hne => ?_
  obtain ⟨t, ts, hts⟩ := List.exists_cons_of_ne_nil
    (show (h m).targets.list ≠ [] by simpa using hne)
  -- the prefetch holds no request of an MSHR above
  have hmem : t.view ∈ (h.views m).targets := by
    show t.view ∈ (h m).targets.list.map Target.view
    rw [hts]
    exact List.mem_cons_self
  have hmshr : t.view.mshr = none := hold.prefetch _ hmem (hpf t (by rw [hts]; rfl))
  have hmark : t.view.marked = false := by
    by_contra hmark
    obtain ⟨k, hk, _⟩ := hold.marked .targets t.view hmem (Bool.eq_true_of_not_eq_false hmark)
    cases hmshr.symm.trans hk
  set e : Entry n := { h m with targets := { (h m).targets with list := (h m).targets.list.tail } }
    with he
  have hview : e.view = { h.views m with targets := ts.map Target.view } := by
    rw [he]
    simp [Entry.view, Heap.views, hts]
  have hsub : ∀ u ∈ e.view.targets, u ∈ (h.views m).targets := by
    intro u hu
    rw [hview] at hu
    show u ∈ (h m).targets.list.map Target.view
    rw [hts]
    exact List.mem_cons_of_mem _ hu
  have hcount : ∀ f : TargetView n → Option (Fin n), f t.view = none → ∀ k,
      e.view.count f k = (h.views m).count f k := by
    intro f hf k
    rw [hview]
    simp [View.count, Heap.views, Entry.view, hts, hf]
  have hmarks := hcount TargetView.marks (by simp [TargetView.marks, hmark])
  have hlinks := hcount TargetView.links (by
    unfold TargetView.links
    split
    · exact hmshr
    · rfl)
  have hok : ViewOk depth sentAt m e.view := by
    refine ⟨fun u hu => hold.deferred u ?_, ?_, fun u hu => ?_, fun _ _ _ => .inl hns,
      fun u hu => hold.prefetch u (hsub u hu), hold.allocated⟩
    · exact hu
    · intro w u hu
      cases w with
      | targets => exact hold.marked .targets u (hsub u hu)
      | deferredTargets => exact hold.marked .deferredTargets u hu
    · exact hold.snooped u (hsub u hu)
  have htold : P → ∀ u ∈ e.view.targets, u.source ≠ .FromSnoop → u.mshr ≠ none →
      u.marked = true := fun hP u hu hs hne => hT hP m u (hsub u hu) hs hne (.inl hns)
  have hset : ∀ e1 : Entry n, e1.view = e.view → Kept depth none sentAt clock P
      (Function.update h m e1) := by
    intro e1 hv
    refine (Kept.setEntry (C := True) ⟨hi, hT⟩ hun ?_ ?_ ?_ ?_ ?_).mono fun hP => ⟨hP, trivial⟩
    · rw [hv]
      exact hok
    · exact congrArg View.pending hv
    · rw [hv]
      exact hmarks
    · intro k
      rw [hv, hlinks]
    · intro hP _ u hu hs hne _
      rw [hv] at hu
      exact htold hP u hu hs hne
  refine Outcome.ite (fun hempty => ?_) (fun _ => hset e rfl)
  have hspec := promoteDeferredTargets_spec e
  generalize promoteDeferredTargets e = q at hspec
  obtain ⟨promoted, e1⟩ := q
  simp only at hspec ⊢
  rcases hspec with ⟨rfl, rfl, hte, hde⟩ | ⟨rfl, k, hadv⟩
  · refine (deallocate_outcome e).bind fun e2 hv => ?_
    have htv : e.view.targets = [] := by simp [Entry.view, hte]
    have hdv : e.view.deferred = [] := by simp [Entry.view, hde]
    refine (Kept.setEntry (C := True) ⟨hi, hT⟩ hun ?_ ?_ ?_ ?_ ?_).mono fun hP => ⟨hP, trivial⟩
    · rw [hv]
      exact ViewOk.freed htv hdv
    · exact congrArg View.pending hv
    · intro k
      rw [hv, ← hmarks]
      rfl
    · intro k
      rw [hv, ← hlinks]
      exact le_rfl
    · intro _ _
      rw [hv]
      exact Told.nil htv
  · show Kept depth none sentAt clock P _
    refine (Kept.setEntry (C := True) ⟨hi, hT⟩ hun ?_ ?_ ?_ ?_ ?_).mono fun hP => ⟨hP, trivial⟩
    · rw [hadv]
      exact hok.advance hns k
    · exact congrArg View.pending hadv
    · intro x
      rw [hadv, advance_count, hmarks]
    · intro x
      rw [hadv, advance_count, hlinks]
    · intro hP _
      rw [hadv]
      exact Told.advance hok k (htold hP)

end Alpine.Mem.MSHR
