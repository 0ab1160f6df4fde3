import Alpine.Mem.MSHRWaits

/-!
# The assertions of promotions (`mem/cache/mshr.cc`)

* `promote_asserts_iff` — while a response is handled a promotion fails only where `promoteWritable` finds
  that the targets need a writable block already.
* `Resp.Asserts` — the responses with such a promotion, by the state of the MSHR before them.
* `service_asserts_iff` — the promotions of the service loop.
-/

namespace Alpine.Mem.MSHR

open Alpine Alpine.Mem

variable {n : Nat} {depth sentAt : Fin n → ℕ} {clock : ℕ} {h h' : Heap n} {m : Fin n} {e e' : Entry n}
  {r : Resp}

/-! ## One promotion -/

def promote (writable : Bool) (m : Fin n) (h : Heap n) : Except Failure (Heap n) :=
  if writable then promoteWritable m h else promoteReadable m h

/-- The response for the MSHR is being handled. -/
structure Answered (depth sentAt : Fin n → ℕ) (clock : ℕ) (m : Fin n) (h : Heap n) : Prop where
  kept : Kept depth none sentAt clock False h
  serving : Serving m h

theorem Answered.deferred (ha : Answered depth sentAt clock m h) :
    ∀ t ∈ (h m).deferredTargets.list, t.source = .FromCPU := fun _ ht =>
  ((ha.kept.1.views m).deferred _ (List.mem_map_of_mem ht)).1

theorem splitFromCPU_ok (pred : Target n → Bool) : ∀ {ts : List (Target n)}, (∀ t ∈ ts, t.source = .FromCPU) →
    splitFromCPU pred ts = .ok (ts.takeWhile pred, ts.dropWhile pred)
  | [], _ => rfl
  | t :: ts, hts => by
    have ih := splitFromCPU_ok pred fun u hu => hts u (List.mem_cons_of_mem t hu)
    unfold splitFromCPU
    rw [hts t List.mem_cons_self, ih]
    cases hp : pred t with
    | true =>
      rw [List.takeWhile_cons_of_pos hp, List.dropWhile_cons_of_pos hp]
      rfl
    | false =>
      have hp' : ¬ pred t = true := Bool.eq_false_iff.1 hp
      rw [List.takeWhile_cons_of_neg hp', List.dropWhile_cons_of_neg hp']
      rfl

theorem promoteIf_ok (pred : Target n → Bool) (ha : Answered depth sentAt clock m h) :
    ∃ h', promoteIf pred m h = .ok h' ∧ Answered depth sentAt clock m h' ∧ h' m = (h m).promoted pred := by
  have hok : ∃ h', promoteIf pred m h = .ok h' := by
    obtain ⟨h1, hclear, -⟩ := clearTargets_views .deferredTargets
      ((h m).deferredTargets.list.takeWhile pred) ((h m).deferredTargets.list.dropWhile pred)
      ha.kept.1.ranked ha.kept.1.marks ha.serving.notPending List.takeWhile_append_dropWhile.symm
    unfold promoteIf
    rw [ha.serving.notPending, splitFromCPU_ok pred ha.deferred]
    refine ⟨_, bind_ok_iff.2 ⟨(), rfl, bind_ok_iff.2 ⟨_, rfl, bind_ok_iff.2 ⟨h1, hclear, rfl⟩⟩⟩⟩
  obtain ⟨h', hok⟩ := hok
  obtain ⟨hk, hs, hm⟩ := (promoteIf_outcome pred ha.kept ha.serving).of_ok hok
  exact ⟨h', hok, ⟨hk, hs⟩, hm⟩

theorem promoteReadable_ok (ha : Answered depth sentAt clock m h) :
    ∃ h', promoteReadable m h = .ok h' ∧ Answered depth sentAt clock m h' ∧
      h' m = if (h m).promotesReadable then (h m).promoted fun t => t.pkt.readable else h m := by
  unfold promoteReadable
  by_cases hp : (h m).promotesReadable = true
  · rw [if_pos (show (_ && _) = true from hp), if_pos hp]
    exact promoteIf_ok _ ha
  · rw [if_neg (show ¬ (_ && _) = true from hp), if_neg hp]
    exact ⟨h, rfl, ha, rfl⟩

theorem promoteWritable_ok (ha : Answered depth sentAt clock m h)
    (hno : (h m).promotes = true → (h m).targets.needsWritable = false) :
    ∃ h', promoteWritable m h = .ok h' ∧ Answered depth sentAt clock m h' ∧
      h' m = if (h m).promotes then (h m).setTargetsWritable.promoted fun t => t.pkt.promotable else h m := by
  have hok : ∃ h', promoteWritable m h = .ok h' := by
    unfold promoteWritable
    by_cases hp : (h m).promotes = true
    · have hv : (h.setList m .targets { (h m).targets with needsWritable := true }).views = h.views :=
        views_update_same rfl
      have hm : h.setList m .targets { (h m).targets with needsWritable := true } m =
        (h m).setTargetsWritable := Function.update_self _ _ _
      have hs := ha.serving
      have ha' : Answered depth sentAt clock m
          (h.setList m .targets { (h m).targets with needsWritable := true }) :=
        ⟨ha.kept.congr hv, by rw [hm]; exact hs.inService, by rw [hm]; exact hs.notPending,
          by rw [hv]; exact hs.unlinked⟩
      obtain ⟨h', hok, -⟩ := promoteIf_ok (fun t => !t.pkt.isCacheInvalidate) ha'
      rw [if_pos (show (_ && _) = true from hp), hno hp]
      exact ⟨h', hok⟩
    · rw [if_neg (show ¬ (_ && _) = true from hp)]
      exact ⟨h, rfl⟩
  obtain ⟨h', hok⟩ := hok
  obtain ⟨hk, hs, hm⟩ := (promoteWritable_outcome ha.kept ha.serving).of_ok hok
  exact ⟨h', hok, ⟨hk, hs⟩, hm⟩

theorem promoteWritable_skip (hp : (h m).promotes = false) : promoteWritable m h = .ok h :=
  if_neg (show ¬ (_ && _) = true from Bool.eq_false_iff.1 hp)

theorem promoteWritable_asserts (hp : (h m).promotes = true) (hw : (h m).targets.needsWritable = true) :
    promoteWritable m h = .error .assertion := by
  unfold promoteWritable
  rw [if_pos (show (_ && _) = true from hp), hw]
  rfl

/-- **When a promotion fails**: `downstreamPending` is clear and only requests of the CPU side are deferred,
so it is the assertion that the targets do not need a writable block yet. -/
theorem promote_asserts_iff {b : Bool} (ha : Answered depth sentAt clock m h) : promote b m h = .error .assertion ↔
      b = true ∧ (h m).promotes = true ∧ (h m).targets.needsWritable = true := by
  constructor
  · intro herr
    cases b with
    | false =>
      obtain ⟨h', hok, -⟩ := promoteReadable_ok ha
      cases hok.symm.trans herr
    | true =>
      by_contra hno
      obtain ⟨h', hok, -⟩ := promoteWritable_ok ha fun hp =>
        Bool.eq_false_iff.2 fun hw => hno ⟨rfl, hp, hw⟩
      cases hok.symm.trans herr
  · rintro ⟨rfl, hp, hw⟩
    exact promoteWritable_asserts hp hw

/-! ## The service loop -/

/-- A whole-line write of the CPU side. -/
def Target.isLine (t : Target n) : Bool := t.source = .FromCPU && t.pkt.cmd = .WriteLineReq

def lines (ts : List (Target n)) : ℕ := ts.countP Target.isLine

/-- Some target needs a writable block. -/
def wanted (ts : List (Target n)) : Bool := ts.any fun t => t.sets .needsWritable

/-- The deferred requests from the first cache invalidate on. -/
def Entry.held (e : Entry n) : List (Target n) :=
  e.deferredTargets.list.dropWhile fun t => t.pkt.promotable

/-- The service loop fails, with `k` whole-line writes. -/
def Entry.Stops (e : Entry n) (k : ℕ) : Prop :=
  e.promotes = true ∧ if e.targets.needsWritable then 1 ≤ k else 2 ≤ k ∧ wanted e.held = true

/-- A whole-line write is serviced with a promotion that fails. -/
def LineAsserts (r : Resp) (m : Fin n) (ts : List (Target n)) (h : Heap n) : Prop :=
  ∃ pre t post g, ts = pre ++ t :: post ∧ pre.foldlM (serviceTarget r m) h = .ok g ∧ t.isLine = true ∧
    promoteWritable m g = .error .assertion

theorem promoted_promotes (e : Entry n) (pred : Target n → Bool) : (e.promoted pred).promotes =
      (wanted (e.deferredTargets.list.dropWhile pred) && !(e.postInvalidate || e.postDowngrade)) := by
  have hflag : (e.promoted pred).deferredTargets.needsWritable =
      wanted (e.deferredTargets.list.dropWhile pred) := populateFlags_flag _ .needsWritable
  unfold Entry.promotes
  rw [hflag]
  rfl

variable {t : Target n}

theorem serviceTarget_line (herror : r.isError = false) (ht : t.isLine = true) :
    serviceTarget r m h t = promoteWritable m h := by
  unfold Target.isLine at ht
  simp only [Bool.and_eq_true, decide_eq_true_eq] at ht
  unfold serviceTarget Pkt.isSWPrefetch
  rw [ht.1, ht.2, herror]
  rfl

theorem serviceTarget_skip (herror : r.isError = false) (ht : t.isLine = false)
    (hpf : t.source = .FromPrefetcher → t.pkt.cmd = .HardPFReq) : serviceTarget r m h t = .ok h := by
  unfold serviceTarget
  cases hs : t.source with
  | FromCPU =>
    have hcmd : t.pkt.cmd ≠ .WriteLineReq := by
      intro hcmd
      unfold Target.isLine at ht
      rw [hs, hcmd] at ht
      cases ht
    dsimp only
    rw [if_neg hcmd]
    split
    · rfl
    · rfl
  | FromPrefetcher =>
    dsimp only
    rw [hpf hs]
    rfl
  | FromSnoop =>
    dsimp only
    rw [herror]
    rfl

variable {ts : List (Target n)}

theorem LineAsserts.cons_iff {h1 : Heap n} (hfirst : serviceTarget r m h t = .ok h1)
    (hno : t.isLine = true → promoteWritable m h = .ok h1) : LineAsserts r m (t :: ts) h ↔ LineAsserts r m ts h1 := by
  constructor
  · rintro ⟨pre, u, post, g, hsplit, hbefore, hline, herr⟩
    cases pre with
    | nil =>
      cases hsplit
      cases hbefore
      cases (hno hline).symm.trans herr
    | cons a pre =>
      cases hsplit
      rw [List.foldlM_cons] at hbefore
      obtain ⟨h2, ha, hbefore⟩ := bind_ok_iff.1 hbefore
      cases hfirst.symm.trans ha
      exact ⟨pre, u, post, g, rfl, hbefore, hline, herr⟩
  · rintro ⟨pre, u, post, g, hsplit, hbefore, hline, herr⟩
    refine ⟨t :: pre, u, post, g, by rw [hsplit]; rfl, ?_, hline, herr⟩
    rw [List.foldlM_cons]
    exact bind_ok_iff.2 ⟨h1, hfirst, hbefore⟩

/-- **The promotions of the service loop.**  The first whole-line write takes the deferred requests before
the first cache invalidate; the second one fails if a request behind it needs a writable block. -/
theorem service_asserts_iff (herror : r.isError = false) : ∀ {ts : List (Target n)} {h : Heap n},
    Answered depth sentAt clock m h → (∀ t ∈ ts, t.source = .FromPrefetcher → t.pkt.cmd = .HardPFReq) →
    (LineAsserts r m ts h ↔ (h m).Stops (lines ts))
  | [], h, ha, hpf => by
    refine iff_of_false ?_ ?_
    · rintro ⟨pre, t, post, g, hsplit, -⟩
      exact absurd hsplit.symm (List.append_ne_nil_of_right_ne_nil pre (List.cons_ne_nil t post))
    · rintro ⟨-, hk⟩
      split at hk
      · exact absurd hk (Nat.not_succ_le_zero 0)
      · exact absurd hk.1 (Nat.not_succ_le_zero 1)
  | t :: ts, h, ha, hpf => by
    have hpf' : ∀ u ∈ ts, u.source = .FromPrefetcher → u.pkt.cmd = .HardPFReq := fun u hu =>
      hpf u (List.mem_cons_of_mem t hu)
    cases hline : t.isLine with
    | false =>
      have hcount : lines (t :: ts) = lines ts := List.countP_cons_of_neg (Bool.eq_false_iff.1 hline)
      rw [hcount, LineAsserts.cons_iff (serviceTarget_skip herror hline (hpf t List.mem_cons_self))
        fun ht => absurd (ht.symm.trans hline) Bool.noConfusion]
      exact service_asserts_iff herror ha hpf'
    | true =>
      have hcount : lines (t :: ts) = lines ts + 1 := List.countP_cons_of_pos hline
      have hserve : serviceTarget r m h t = promoteWritable m h := serviceTarget_line herror hline
      rw [hcount]
      by_cases hp : (h m).promotes = true
      · by_cases hw : (h m).targets.needsWritable = true
        · -- the assertion fails at once
          refine iff_of_true ⟨[], t, ts, h, rfl, rfl, hline, promoteWritable_asserts hp hw⟩ ⟨hp, ?_⟩
          rw [if_pos hw]
          exact Nat.le_add_left 1 _
        · obtain ⟨h1, hok, ha1, hm⟩ := promoteWritable_ok ha fun _ => Bool.eq_false_iff.2 hw
          rw [if_pos hp] at hm
          rw [LineAsserts.cons_iff (hserve.trans hok) fun _ => hok, service_asserts_iff herror ha1 hpf', hm]
          unfold Entry.Stops
          have hnow : ((h m).setTargetsWritable.promoted fun t => t.pkt.promotable).targets.needsWritable =
            true := rfl
          have hpost : !((h m).postInvalidate || (h m).postDowngrade) := (Bool.and_eq_true_iff.1 hp).2
          have hnext : ((h m).setTargetsWritable.promoted fun t => t.pkt.promotable).promotes =
              wanted (h m).held := by
            rw [promoted_promotes]
            exact (congrArg (_ && ·) hpost).trans (Bool.and_true _)
          rw [if_pos hnow, if_neg hw, hnext, hp]
          constructor
          · exact fun ⟨hheld, hk⟩ => ⟨rfl, Nat.succ_le_succ hk, hheld⟩
          · exact fun ⟨_, hk, hheld⟩ => ⟨hheld, Nat.le_of_succ_le_succ hk⟩
      · obtain ⟨h1, hok, ha1, hm⟩ := promoteWritable_ok ha fun hp' => absurd hp' hp
        rw [if_neg hp] at hm
        rw [LineAsserts.cons_iff (hserve.trans hok) fun _ => hok, service_asserts_iff herror ha1 hpf', hm]
        exact iff_of_false (fun hs => hp hs.1) fun hs => hp hs.1

/-! ## Before the service loop -/

theorem lines_append (ts us : List (Target n)) : lines (ts ++ us) = lines ts + lines us := List.countP_append

theorem lines_unmark (ts : List (Target n)) : lines (ts.map Target.unmark) = lines ts := by
  unfold lines
  rw [List.countP_map]
  rfl

theorem isLine_wants (ht : t.isLine = true) : t.sets .needsWritable = true := by
  unfold Target.isLine at ht
  simp only [Bool.and_eq_true, decide_eq_true_eq] at ht
  unfold Target.sets Pkt.needsWritable
  rw [ht.1, ht.2]
  rfl

theorem wanted_of_mem (ht : t ∈ ts) (hw : t.sets .needsWritable = true) :
    wanted ts = true := List.any_eq_true.2 ⟨t, ht, hw⟩

theorem wanted_mono {us : List (Target n)} (hsub : ts.Sublist us) (hw : wanted ts = true) : wanted us = true := by
  obtain ⟨t, ht, hset⟩ := List.any_eq_true.1 hw
  exact wanted_of_mem (hsub.subset ht) hset

theorem wanted_kinds (ts : List (Target n)) : (ts.map Target.kind).any Kind.wants = wanted ts :=
  List.any_map

/-- `promoteWritable` moves something, before the targets are serviced. -/
def Resp.widens (r : Resp) (e : Entry n) : Bool := r.writable && e.promotes

/-- The whole-line writes among the targets that a response services. -/
def Resp.lines (r : Resp) (e : Entry n) : ℕ :=
  MSHR.lines e.targets.list + if r.widens e then MSHR.lines e.promotable else 0

/-- The response makes a promotion that fails. -/
inductive Resp.Asserts (r : Resp) (e : Entry n) : Prop where
  /-- A deferred request needs a writable block, and so do the targets. -/
  | behind (hw : r.writable = true) (hp : e.promotes = true) (ht : e.targets.needsWritable = true)
  /-- Two whole-line writes are serviced, and a request from a deferred cache invalidate on needs a
  writable block. -/
  | lines (hcmd : r.cmd ≠ .ReadRespWithInvalidate) (herror : r.isError = false)
      (hpost : (e.postInvalidate || e.postDowngrade) = false) (htwo : 2 ≤ r.lines e)
      (hheld : wanted e.held = true)
  /-- A whole-line write is serviced alone, and a request behind it and a deferred one need a writable
  block. -/
  | invalidated (hcmd : r.cmd = .ReadRespWithInvalidate) (hp : e.promotes = true)
      (hfront : ∃ t ∈ e.targets.list.head?, t.isLine = true)
      (hw : wanted (e.targets.list.tail.filter fun t => t.source = .FromCPU) = true)

/-- What the promotions leave as it was. -/
structure Entry.Readied (e e' : Entry n) : Prop where
  promotes : e'.promotes = e.promotes
  needsWritable : e'.targets.needsWritable = e.targets.needsWritable
  held : e'.held = e.held
  lines : MSHR.lines e'.targets.list = MSHR.lines e.targets.list
  promotable : MSHR.lines e'.promotable = MSHR.lines e.promotable
  postInvalidate : e'.postInvalidate = e.postInvalidate
  postDowngrade : e'.postDowngrade = e.postDowngrade

theorem Entry.Readied.refl (e : Entry n) : e.Readied e := ⟨rfl, rfl, rfl, rfl, rfl, rfl, rfl⟩

theorem readable_promotable {pkt : Pkt n} (hp : pkt.readable = true) : pkt.promotable = true :=
  (Bool.and_eq_true_iff.1 hp).1

/-- Readable targets are no writes, and stand before the first cache invalidate. -/
theorem dropWhile_dropWhile {α : Type} {p q : α → Bool} (hqp : ∀ a, q a = true → p a = true) (l : List α) :
    (l.dropWhile q).dropWhile p = l.dropWhile p ∧ l.takeWhile p = l.takeWhile q ++ (l.dropWhile q).takeWhile p := by
  induction l with
  | nil => exact ⟨rfl, rfl⟩
  | cons a l ih =>
    cases hq : q a with
    | true =>
      rw [List.dropWhile_cons_of_pos hq, List.takeWhile_cons_of_pos hq,
        List.dropWhile_cons_of_pos (hqp a hq), List.takeWhile_cons_of_pos (hqp a hq)]
      exact ⟨ih.1, congrArg (a :: ·) ih.2⟩
    | false =>
      have hq' : ¬ q a = true := Bool.eq_false_iff.1 hq
      rw [List.dropWhile_cons_of_neg hq', List.takeWhile_cons_of_neg hq']
      exact ⟨rfl, rfl⟩

theorem Entry.Exact.promotes (he : e.Exact) :
    e.promotes = (wanted e.deferredTargets.list && !(e.postInvalidate || e.postDowngrade)) := by
  have hflag : e.deferredTargets.needsWritable = wanted e.deferredTargets.list := he.trans (wanted_kinds _)
  unfold Entry.promotes
  rw [hflag]

theorem promoted_readied (he : e.Exact) : e.Readied (e.promoted fun t => t.pkt.readable) := by
  have hlines : ∀ t ∈ e.deferredTargets.list.takeWhile (fun t => t.pkt.readable),
      t.sets .needsWritable = false := by
    intro t ht
    have hreadable : t.pkt.readable = true :=
      List.mem_takeWhile_imp (p := fun t : Target n => t.pkt.readable) ht
    unfold Pkt.readable at hreadable
    simp only [Bool.and_eq_true, Bool.not_eq_true'] at hreadable
    unfold Target.sets
    rw [hreadable.2, Bool.and_false]
  have hnone : MSHR.lines (e.deferredTargets.list.takeWhile fun t => t.pkt.readable) = 0 :=
    List.countP_eq_zero.2 fun t ht hline =>
      absurd ((isLine_wants hline).symm.trans (hlines t ht)) Bool.noConfusion
  obtain ⟨hdrop, htake⟩ := dropWhile_dropWhile (p := fun t : Target n => t.pkt.promotable)
    (q := fun t => t.pkt.readable) (fun t => readable_promotable) e.deferredTargets.list
  have hlist : (e.promoted fun t => t.pkt.readable).deferredTargets.list =
      e.deferredTargets.list.dropWhile fun t => t.pkt.readable := populateFlags_list _
  refine ⟨?_, rfl, ?_, ?_, ?_, rfl, rfl⟩
  · rw [promoted_promotes, he.promotes]
    congr 1
    conv_rhs => rw [← e.deferredTargets.list.takeWhile_append_dropWhile (p := fun t => t.pkt.readable)]
    unfold wanted
    rw [List.any_append, List.any_eq_false.2 fun t ht => Bool.eq_false_iff.1 (hlines t ht), Bool.false_or]
  · unfold Entry.held
    rw [hlist, hdrop]
  · show MSHR.lines (e.targets.list ++ _) = _
    rw [lines_append, lines_unmark, hnone, Nat.add_zero]
  · unfold Entry.promotable
    have hall : (e.deferredTargets.list.takeWhile fun t => !t.pkt.isCacheInvalidate) = _ := htake
    rw [hlist, hall, lines_append, hnone, Nat.zero_add]
    rfl

theorem promoteFirst_ok (ha : Answered depth sentAt clock m h) (he : (h m).Exact) :
    ∃ h1, promoteFirst r m h = .ok h1 ∧ Answered depth sentAt clock m h1 ∧ (h m).Readied (h1 m) ∧
      (r.readable = false → h1 = h) ∧
      ∃ us, (h1 m).targets.list = (h m).targets.list ++ us ∧ ∀ u ∈ us, u.source = .FromCPU := by
  unfold promoteFirst
  cases hr : r.readable with
  | false => exact ⟨h, rfl, ha, .refl _, fun _ => rfl, [], (List.append_nil _).symm, fun _ hu => (nomatch hu)⟩
  | true =>
    obtain ⟨h1, hok, ha1, hm⟩ := promoteReadable_ok ha
    refine ⟨h1, hok, ha1, ?_, fun hno => Bool.noConfusion hno, ?_⟩
    · rw [hm]
      split
      · exact promoted_readied he
      · exact .refl _
    · rw [hm]
      split
      · refine ⟨_, rfl, List.forall_mem_map.2 fun u hu => ?_⟩
        exact ha.deferred u ((List.takeWhile_sublist _).subset hu)
      · exact ⟨[], (List.append_nil _).symm, fun _ hu => (nomatch hu)⟩

/-- What the service loop finds. -/
structure Resp.Finds (r : Resp) (e e2 : Entry n) : Prop where
  lines : MSHR.lines e2.targets.list = r.lines e
  held : e2.held = e.held
  promotes : e2.promotes = true ∧ wanted e.held = true ↔
    (e.postInvalidate || e.postDowngrade) = false ∧ wanted e.held = true
  targets : ∃ us, e2.targets.list = e.targets.list ++ us ∧ ∀ u ∈ us, u.source = .FromCPU

theorem held_sublist (e : Entry n) : e.held.Sublist e.deferredTargets.list := List.dropWhile_sublist _

/-- The promotions before the service loop do not fail. -/
theorem promotions_ok (ha : Answered depth sentAt clock m h) (he : (h m).Exact)
    (hno : r.widens (h m) = true → (h m).targets.needsWritable = false) :
    ∃ h2, promotions r m h = .ok h2 ∧ Answered depth sentAt clock m h2 ∧ r.Finds (h m) (h2 m) ∧
      (r.readable = false → r.widens (h m) = false → h2 = h) := by
  obtain ⟨h1, hfirst, ha1, hready, hsame, us, hus, hcpu⟩ := promoteFirst_ok (r := r) ha he
  rw [promotions_eq]
  cases hwide : r.widens (h m) with
  | false =>
    have hok : (if r.writable then promoteWritable m h1 else .ok h1) = Except.ok h1 := by
      cases hw : r.writable with
      | false => rfl
      | true =>
        unfold Resp.widens at hwide
        rw [hw, Bool.true_and, ← hready.promotes] at hwide
        exact promoteWritable_skip hwide
    refine ⟨h1, bind_ok_iff.2 ⟨h1, hfirst, hok⟩, ha1, ⟨?_, hready.held, ?_, us, hus, hcpu⟩, ?_⟩
    · unfold Resp.lines
      rw [hwide, hready.lines]
      rfl
    · rw [hready.promotes, he.promotes]
      constructor
      · exact fun ⟨hp, hheld⟩ => ⟨by simpa using (Bool.and_eq_true_iff.1 hp).2, hheld⟩
      · rintro ⟨hpost, hheld⟩
        rw [wanted_mono (held_sublist _) hheld, hpost]
        exact ⟨rfl, hheld⟩
    · exact fun hr _ => hsame hr
  | true =>
    obtain ⟨hw, hp⟩ := Bool.and_eq_true_iff.1 hwide
    obtain ⟨h2, hok, ha2, hm⟩ := promoteWritable_ok ha1 fun _ => hready.needsWritable.trans (hno hwide)
    rw [hready.promotes, if_pos hp] at hm
    have hdrop : (h2 m).deferredTargets.list = (h1 m).held := by
      rw [hm]
      exact populateFlags_list _
    have htargets : (h2 m).targets.list =
        (h1 m).targets.list ++ (h1 m).promotable.map Target.unmark := by
      rw [hm]
      rfl
    have hpromotes : (h2 m).promotes =
        (wanted (h1 m).held && !((h1 m).postInvalidate || (h1 m).postDowngrade)) := by
      rw [hm, promoted_promotes]
      rfl
    refine ⟨h2, bind_ok_iff.2 ⟨h1, hfirst, (if_pos hw).trans hok⟩, ha2, ⟨?_, ?_, ?_, ?_⟩, ?_⟩
    · rw [htargets, lines_append, lines_unmark, hready.lines, hready.promotable]
      unfold Resp.lines
      rw [if_pos hwide]
    · rw [← hready.held]
      show (h2 m).deferredTargets.list.dropWhile _ = _
      rw [hdrop]
      exact (dropWhile_dropWhile (fun _ => id) _).1
    · rw [hpromotes, hready.held, hready.postInvalidate, hready.postDowngrade, Bool.and_eq_true, Bool.not_eq_true']
      exact ⟨fun ⟨⟨_, hpost⟩, hheld⟩ => ⟨hpost, hheld⟩, fun ⟨hpost, hheld⟩ => ⟨⟨hheld, hpost⟩, hheld⟩⟩
    · refine ⟨us ++ (h1 m).promotable.map Target.unmark, ?_, fun u hu => ?_⟩
      · rw [htargets, hus, List.append_assoc]
      · rcases List.mem_append.1 hu with hu | hu
        · exact hcpu u hu
        · obtain ⟨t, ht, rfl⟩ := List.mem_map.1 hu
          exact ha1.deferred t ((List.takeWhile_sublist _).subset ht)
    · exact fun _ hno => Bool.noConfusion hno

/-! ## Responses -/

theorem takeSnoops_ok : ∀ {ts : List (Target n)}, (∀ t ∈ ts, t.source ≠ .FromPrefetcher) →
    takeSnoops ts = .ok (ts.filter fun t => t.source ≠ .FromCPU, ts.filter fun t => t.source = .FromCPU)
  | [], _ => rfl
  | t :: ts, hts => by
    have ih := takeSnoops_ok fun u hu => hts u (List.mem_cons_of_mem t hu)
    unfold takeSnoops
    rw [ih]
    cases hs : t.source with
    | FromCPU =>
      rw [List.filter_cons_of_neg (by simp [hs]), List.filter_cons_of_pos (by simp [hs])]
      rfl
    | FromSnoop =>
      rw [List.filter_cons_of_pos (by simp [hs]), List.filter_cons_of_neg (by simp [hs])]
      rfl
    | FromPrefetcher => exact absurd hs (hts t List.mem_cons_self)

/-- The first target and the snoops are taken. -/
theorem extract_invalidated (hl : e.targets.list = t :: ts) (ht : t.source ≠ .FromSnoop)
    (hts : ∀ u ∈ ts, u.source ≠ .FromPrefetcher) :
    ∃ ready, extractServiceableTargets .ReadRespWithInvalidate e = .ok (ready, { e with
        targets := (e.targets.withList (ts.filter fun u => u.source = .FromCPU)).populateFlags }) ∧
      ready.list = t :: ts.filter fun u => u.source ≠ .FromCPU := by
  have hfront : (decide (t.source = .FromCPU) || decide (t.source = .FromPrefetcher)) = true := by
    cases hs : t.source with
    | FromCPU => rfl
    | FromSnoop => exact absurd hs ht
    | FromPrefetcher => rfl
  unfold extractServiceableTargets
  rw [if_pos rfl, hl]
  have hcheck : check (decide (t.source = .FromCPU) || decide (t.source = .FromPrefetcher)) = .ok () := by
    rw [hfront]
    rfl
  exact ⟨_, bind_ok_iff.2 ⟨(), hcheck, bind_ok_iff.2 ⟨_, takeSnoops_ok hts, rfl⟩⟩, populateFlags_list _⟩

theorem extract_all (hcmd : r.cmd ≠ .ReadRespWithInvalidate) : extractServiceableTargets r.cmd e =
    .ok (e.targets, { e with targets := TargetList.empty.populateFlags }) := if_neg hcmd

/-- The heap that the service loop starts with. -/
theorem Answered.extract {l : TargetList n} (ha : Answered depth sentAt clock m h)
    (hl : l.list.Sublist (h m).targets.list) (he : e = { h m with targets := l }) :
    Answered depth sentAt clock m (h.set m e) := by
  obtain ⟨hk, hs⟩ := ha.kept.dropTargets ha.serving hl
  rw [he]
  exact ⟨hk, hs⟩

/-- Once the first promotions have not failed, the others are those of the service loop. -/
theorem promotes_loop_iff {h2 : Heap n} (ha : Answered depth sentAt clock m h) (he : (h m).Exact)
    (hno : r.widens (h m) = true → (h m).targets.needsWritable = false)
    (hpromote : promotions r m h = .ok h2) {ready : TargetList n}
    (hextract : extractServiceableTargets r.cmd (h2 m) = .ok (ready, e)) :
    (∃ b g, Promotes r m h b g ∧ promote b m g = .error .assertion) ↔
      r.isError = false ∧ LineAsserts r m ready.list (h2.set m e) := by
  constructor
  · rintro ⟨b, g, hcall, herr⟩
    cases hcall with
    | readable =>
      cases ((promote_asserts_iff ha).1 herr).1
    | writable hfirst hw =>
      obtain ⟨h1, hfirst', ha1, hready, -⟩ := promoteFirst_ok (r := r) ha he
      cases hfirst'.symm.trans hfirst
      obtain ⟨-, hp, hneeds⟩ := (promote_asserts_iff ha1).1 herr
      have hwide : r.widens (h m) = true := by
        unfold Resp.widens
        rw [hw, ← hready.promotes, hp]
        rfl
      cases (hready.needsWritable.symm.trans hneeds).symm.trans (hno hwide)
    | line hpromote' hextract' hready hbefore hcpu hline herror =>
      cases hpromote.symm.trans hpromote'
      cases hextract.symm.trans hextract'
      refine ⟨herror, _, _, _, _, hready, hbefore, ?_, herr⟩
      unfold Target.isLine
      rw [hcpu, hline]
      rfl
  · rintro ⟨herror, pre, t, post, g, hready, hbefore, hline, herr⟩
    unfold Target.isLine at hline
    simp only [Bool.and_eq_true, decide_eq_true_eq] at hline
    exact ⟨true, g, .line hpromote hextract hready hbefore hline.1 hline.2 herror, herr⟩

/-- A target of the prefetcher is a prefetch. -/
theorem prefetch_of_wait {us : List (Target n)} (hv : e.wait.Ok)
    (hus : e'.targets.list = e.targets.list ++ us) (hcpu : ∀ u ∈ us, u.source = .FromCPU) :
    ∀ t ∈ e'.targets.list, t.source = .FromPrefetcher → t.pkt.cmd = .HardPFReq := by
  intro t ht hs
  rw [hus] at ht
  rcases List.mem_append.1 ht with ht | ht
  · cases hl : e.targets.list with
    | nil =>
      rw [hl] at ht
      cases ht
    | cons f fs =>
      have htargets : e.wait.targets = f.kind :: fs.map Target.kind := by
        unfold Entry.wait
        rw [hl]
        rfl
      rw [hl] at ht
      rcases List.mem_cons.1 ht with rfl | ht
      · refine of_decide_eq_true (hv.front t.kind ?_ hs).1
        rw [htargets]
        rfl
      · refine absurd hs (hv.tail t.kind ?_)
        rw [htargets]
        exact List.mem_map_of_mem ht
  · cases (hcpu t ht).symm.trans hs

theorem lines_snoops (ts : List (Target n)) : lines (ts.filter fun t => t.source ≠ .FromCPU) = 0 := by
  refine List.countP_eq_zero.2 fun t ht hline => ?_
  have hcpu := of_decide_eq_true (Bool.and_eq_true_iff.1 hline).1
  exact of_decide_eq_true (List.mem_filter.1 ht).2 hcpu

theorem Wait.Ok.wanted (hv : e.wait.Ok) : e.targets.needsWritable = wanted e.targets.list :=
  hv.targetsWritable.trans (wanted_kinds _)

theorem loop_all_iff {h2 : Heap n} (ha2 : Answered depth sentAt clock m h2) (hfinds : r.Finds e (h2 m))
    (hpf : ∀ t ∈ (h2 m).targets.list, t.source = .FromPrefetcher → t.pkt.cmd = .HardPFReq)
    (herror : r.isError = false) : LineAsserts r m (h2 m).targets.list
        (h2.set m { h2 m with targets := TargetList.empty.populateFlags }) ↔
      (e.postInvalidate || e.postDowngrade) = false ∧ 2 ≤ r.lines e ∧ wanted e.held = true := by
  have hempty : ({ h2 m with targets := TargetList.empty.populateFlags } : Entry n).Stops
      (lines (h2 m).targets.list) ↔ (h2 m).promotes = true ∧ 2 ≤ r.lines e ∧ wanted e.held = true := by
    rw [hfinds.lines, ← hfinds.held]
    exact Iff.rfl
  rw [service_asserts_iff herror (ha2.extract (List.nil_sublist _) rfl) hpf, Heap.set_same, hempty]
  constructor
  · rintro ⟨hp, htwo, hheld⟩
    exact ⟨(hfinds.promotes.1 ⟨hp, hheld⟩).1, htwo, hheld⟩
  · rintro ⟨hpost, htwo, hheld⟩
    exact ⟨(hfinds.promotes.2 ⟨hpost, hheld⟩).1, htwo, hheld⟩

/-- Only the first target and the snoops are serviced. -/
theorem loop_first_iff {ready : TargetList n} (ha : Answered depth sentAt clock m h)
    (hl : (h m).targets.list = t :: ts) (hready : ready.list = t :: ts.filter fun u => u.source ≠ .FromCPU)
    (hpf : ∀ u ∈ (h m).targets.list, u.source = .FromPrefetcher → u.pkt.cmd = .HardPFReq)
    (herror : r.isError = false) :
    LineAsserts r m ready.list (h.set m { h m with
        targets := ((h m).targets.withList (ts.filter fun u => u.source = .FromCPU)).populateFlags }) ↔
      t.isLine = true ∧ (h m).promotes = true ∧ wanted (ts.filter fun u => u.source = .FromCPU) = true := by
  have hsub : (((h m).targets.withList (ts.filter fun u => u.source = .FromCPU)).populateFlags).list.Sublist
      (h m).targets.list := by
    rw [populateFlags_list, hl]
    exact List.filter_sublist.cons t
  have hpf' : ∀ u ∈ ready.list, u.source = .FromPrefetcher → u.pkt.cmd = .HardPFReq := by
    intro u hu
    refine hpf u ?_
    rw [hready] at hu
    rw [hl]
    exact (List.filter_sublist.cons_cons t).subset hu
  have hneeds : (((h m).targets.withList
      (ts.filter fun u => u.source = .FromCPU)).populateFlags).needsWritable =
        wanted (ts.filter fun u => u.source = .FromCPU) := populateFlags_flag _ .needsWritable
  rw [service_asserts_iff herror (ha.extract hsub rfl) hpf', Heap.set_same, hready]
  unfold Entry.Stops
  rw [hneeds]
  cases hline : t.isLine with
  | false =>
    have hzero : lines (t :: ts.filter fun u => u.source ≠ .FromCPU) = 0 :=
      (List.countP_cons_of_neg (Bool.eq_false_iff.1 hline)).trans (lines_snoops ts)
    rw [hzero]
    refine iff_of_false ?_ fun hno => Bool.noConfusion hno.1
    rintro ⟨-, hk⟩
    split at hk
    · omega
    · omega
  | true =>
    have hone : lines (t :: ts.filter fun u => u.source ≠ .FromCPU) = 1 :=
      (List.countP_cons_of_pos hline).trans (congrArg (· + 1) (lines_snoops ts))
    rw [hone]
    constructor
    · rintro ⟨hp, hk⟩
      split at hk
      · rename_i hw
        exact ⟨rfl, hp, hw⟩
      · omega
    · rintro ⟨-, hp, hw⟩
      rw [if_pos hw]
      exact ⟨hp, le_rfl⟩

/-- **When a response makes a promotion fail.** -/
theorem response_asserts_iff (ha : Answered depth sentAt clock m h) (hv : (h m).wait.Ok) (hf : (h m).Fronted)
    (hne : (h m).targets.list ≠ []) :
    (∃ b g, Promotes r m h b g ∧ promote b m g = .error .assertion) ↔ r.Asserts (h m) := by
  have he : (h m).Exact := hv.deferredWritable
  by_cases hbehind : r.widens (h m) = true ∧ (h m).targets.needsWritable = true
  · obtain ⟨hwide, hneeds⟩ := hbehind
    obtain ⟨hw, hp⟩ := Bool.and_eq_true_iff.1 hwide
    obtain ⟨h1, hfirst, ha1, hready, -⟩ := promoteFirst_ok (r := r) ha he
    refine iff_of_true ⟨true, h1, .writable hfirst hw, ?_⟩ (.behind hw hp hneeds)
    exact promoteWritable_asserts (hready.promotes.trans hp) (hready.needsWritable.trans hneeds)
  · have hno : r.widens (h m) = true → (h m).targets.needsWritable = false := fun hwide =>
      Bool.eq_false_iff.2 fun hneeds => hbehind ⟨hwide, hneeds⟩
    have hnot : ∀ {P : Prop}, r.writable = true → (h m).promotes = true →
        (h m).targets.needsWritable = true → P := fun hw hp hneeds =>
      absurd ⟨Bool.and_eq_true_iff.2 ⟨hw, hp⟩, hneeds⟩ hbehind
    obtain ⟨h2, hpromote, ha2, hfinds, hsame⟩ := promotions_ok ha he hno
    obtain ⟨us, hus, hcpu⟩ := hfinds.targets
    have hpf := prefetch_of_wait hv hus hcpu
    by_cases hcmd : r.cmd = .ReadRespWithInvalidate
    · have herror : r.isError = false := by
        unfold Resp.isError
        rw [hcmd]
        rfl
      obtain ⟨t, ts, hl⟩ := List.exists_cons_of_ne_nil hne
      have hl2 : (h2 m).targets.list = t :: (ts ++ us) := by rw [hus, hl]; rfl
      have htail : ∀ u ∈ ts ++ us, u.source ≠ .FromPrefetcher := by
        intro u hu
        rcases List.mem_append.1 hu with hu | hu
        · refine hv.tail u.kind ?_
          unfold Entry.wait
          rw [hl]
          exact List.mem_map_of_mem hu
        · rw [hcpu u hu]
          exact Source.noConfusion
      obtain ⟨ready, hextract, hready⟩ := extract_invalidated hl2 (hf.front t (by rw [hl]; rfl)) htail
      rw [← hcmd] at hextract
      rw [promotes_loop_iff ha he hno hpromote hextract, loop_first_iff ha2 hl2 hready hpf herror]
      -- a whole-line write needs a writable block, so nothing has been moved before it is serviced
      have hstill : t.isLine = true → h2 = h := by
        intro hline
        have hneeds : (h m).targets.needsWritable = true := by
          rw [hv.wanted, hl]
          exact wanted_of_mem List.mem_cons_self (isLine_wants hline)
        refine hsame (Bool.eq_false_iff.2 fun hr => isClean_of_readable hr hcmd) ?_
        exact Bool.eq_false_iff.2 fun hwide => hbehind ⟨hwide, hneeds⟩
      have hnone : h2 = h → us = [] := by
        intro heq
        rw [heq] at hus
        exact List.append_right_eq_self.1 hus.symm
      constructor
      · rintro ⟨-, hline, hp, hw⟩
        have heq := hstill hline
        rw [hnone heq, List.append_nil] at hw
        rw [heq] at hp
        refine .invalidated hcmd hp ⟨t, by rw [hl]; rfl, hline⟩ ?_
        rw [hl]
        exact hw
      · intro hasserts
        cases hasserts with
        | behind hw hp hneeds => exact hnot hw hp hneeds
        | lines hcmd' => exact absurd hcmd hcmd'
        | invalidated _ hp hfront hw =>
          obtain ⟨f, hf', hline⟩ := hfront
          rw [hl] at hf' hw
          obtain rfl := Option.some.inj hf'
          have heq := hstill hline
          rw [hnone heq, List.append_nil, heq]
          exact ⟨herror, hline, hp, hw⟩
    · rw [promotes_loop_iff ha he hno hpromote (extract_all hcmd)]
      constructor
      · rintro ⟨herror, hloop⟩
        obtain ⟨hpost, htwo, hheld⟩ := (loop_all_iff ha2 hfinds hpf herror).1 hloop
        exact .lines hcmd herror hpost htwo hheld
      · intro hasserts
        cases hasserts with
        | behind hw hp hneeds => exact hnot hw hp hneeds
        | lines _ herror hpost htwo hheld =>
          exact ⟨herror, (loop_all_iff ha2 hfinds hpf herror).2 ⟨hpost, htwo, hheld⟩⟩
        | invalidated hcmd' => exact absurd hcmd' hcmd

/-! ## Why a promotion fails -/

/-- A writable block is needed behind targets that need one. -/
theorem maintenance_of_behind (hv : e.wait.Ok) (hin : e.inService = true) (hp : e.promotes = true)
    (hw : e.targets.needsWritable = true) : e.isForward = true ∨ ∃ t ∈ e.all, t.pkt.isCacheMaintenance = true := by
  obtain ⟨hneeds, hpost⟩ := Bool.and_eq_true_iff.1 hp
  rw [Bool.not_eq_true', Bool.or_eq_false_iff] at hpost
  have hfull : e.wait.deferred ≠ [] := by
    intro hnil
    have hflag := hv.deferredWritable
    rw [hnil] at hflag
    cases hneeds.symm.trans hflag
  have hmem : ∀ {ts : List (Target n)} {k : Kind}, k ∈ (ts.map Target.kind).head? →
      ∃ t ∈ ts, t.kind = k := by
    intro ts k hk
    exact List.mem_map.1 (List.mem_of_mem_head? hk)
  rcases hv.behind hin hfull hpost.1 hpost.2 hw with ⟨k, hk, hm⟩ | hforward
  · rcases hk with hk | hk
    · obtain ⟨t, ht, rfl⟩ := hmem hk
      exact .inr ⟨t, List.mem_append_right _ ht, hm⟩
    · obtain ⟨t, ht, rfl⟩ := hmem hk
      exact .inr ⟨t, List.mem_append_left _ ht, hm⟩
  · exact .inl hforward

theorem Resp.Asserts.cause (hr : r.Asserts e) (hv : e.wait.Ok) (hin : e.inService = true) :
    e.isForward = true ∨ ∃ t ∈ e.all, t.pkt.isCacheMaintenance = true := by
  cases hr with
  | behind _ hp hw => exact maintenance_of_behind hv hin hp hw
  | lines _ _ _ _ hheld =>
    -- the first request that is held is a cache invalidate
    obtain ⟨u, hu, -⟩ := List.any_eq_true.1 hheld
    obtain ⟨t, ts, hl⟩ := List.exists_cons_of_ne_nil (List.ne_nil_of_mem hu)
    have ht : t.pkt.promotable = false := by
      have hhead := List.head?_dropWhile_not (fun t : Target n => t.pkt.promotable) e.deferredTargets.list
      rw [show e.deferredTargets.list.dropWhile _ = t :: ts from hl] at hhead
      exact hhead
    have hinvalidate : t.pkt.reqInvalidate = true := by
      unfold Pkt.promotable Pkt.isCacheInvalidate at ht
      simpa using ht
    refine .inr ⟨t, List.mem_append_right _ ((held_sublist e).subset (hl ▸ List.mem_cons_self)), ?_⟩
    unfold Pkt.isCacheMaintenance
    rw [hinvalidate, Bool.or_true]
  | invalidated _ hp hfront _ =>
    obtain ⟨t, ht, hline⟩ := hfront
    refine maintenance_of_behind hv hin hp ?_
    rw [hv.wanted]
    exact wanted_of_mem (List.mem_of_mem_head? ht) (isLine_wants hline)

end Alpine.Mem.MSHR
