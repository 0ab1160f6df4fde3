import Alpine.Lib.Run
import Alpine.Mem.MSHRBare

/-!
# The flags of the target lists

The flags of a target list are cached.  `add` updates them and most movers recompute them; `promoteIf`
recomputes those of the deferred list only.

* `populateFlags_flag` — a flag that is recomputed tells whether a target sets it.
* `TargetList.Reports` — a flag is set if recomputing sets it.
* `flags_reported_iff` — the flags report in every run of the operations of MSHRs whose promotions move
  targets that set no new flag, and the first promotion that does leaves a flag unset.
-/

namespace Alpine.Mem.MSHR

open Alpine Alpine.Mem Alpine.Run

variable {n : Nat}

inductive Flag where
  | needsWritable
  | hasUpgrade
  | allocOnFill
  | hasFromCache
  deriving DecidableEq

instance : Fintype Flag where
  elems := {.needsWritable, .hasUpgrade, .allocOnFill, .hasFromCache}
  complete f := by cases f <;> decide

def TargetList.flag (l : TargetList n) : Flag → Bool
  | .needsWritable => l.needsWritable
  | .hasUpgrade => l.hasUpgrade
  | .allocOnFill => l.allocOnFill
  | .hasFromCache => l.hasFromCache

/-- What a target asks for; a snoop asks for nothing. -/
def Target.sets (t : Target n) (f : Flag) : Bool :=
  t.source ≠ .FromSnoop &&
    match f with
    | .needsWritable => t.pkt.needsWritable
    | .hasUpgrade => t.pkt.isUpgrade || t.pkt.cmd = .StoreCondReq
    | .allocOnFill => t.allocOnFill
    | .hasFromCache => t.source ≠ .FromPrefetcher && t.pkt.fromCache

/-- The flags are implied by recomputing them. -/
def TargetList.Reports (l : TargetList n) : Prop := ∀ f, l.populateFlags.flag f = true → l.flag f = true

theorem updateFlags_flag (l : TargetList n) (t : Target n) (f : Flag) :
    (l.updateFlags t.pkt t.source t.allocOnFill).flag f = (l.flag f || t.sets f) := by
  unfold TargetList.updateFlags Target.sets
  by_cases hs : t.source = .FromSnoop
  · rw [if_neg (not_not.2 hs), decide_eq_false (not_not.2 hs), Bool.false_and, Bool.or_false]
  · rw [if_pos hs, decide_eq_true hs, Bool.true_and]
    cases f <;> rfl

theorem foldl_updateFlags_flag (f : Flag) (ts : List (Target n)) : ∀ l : TargetList n,
    (ts.foldl (fun l t => l.updateFlags t.pkt t.source t.allocOnFill) l).flag f =
      (l.flag f || ts.any fun t => t.sets f) := by
  induction ts with
  | nil => exact fun l => (Bool.or_false _).symm
  | cons t ts ih =>
    intro l
    rw [List.foldl_cons, ih, updateFlags_flag, List.any_cons, Bool.or_assoc]

theorem populateFlags_flag (l : TargetList n) (f : Flag) : l.populateFlags.flag f = l.list.any fun t => t.sets f := by
  unfold TargetList.populateFlags
  rw [foldl_updateFlags_flag]
  cases f <;> rfl

variable {l : TargetList n}

theorem reports_iff : l.Reports ↔ ∀ t ∈ l.list, ∀ f, t.sets f = true → l.flag f = true := by
  unfold TargetList.Reports
  simp only [populateFlags_flag, List.any_eq_true, forall_exists_index, and_imp]
  exact ⟨fun h t ht f hf => h f t ht hf, fun h f t ht hf => h t ht f hf⟩

/-! ## The operations on one list -/

theorem reports_bare : l.bare.Reports ↔ l.Reports := by
  rw [reports_iff, reports_iff, TargetList.bare_list, List.forall_mem_map]
  exact Iff.rfl

theorem reports_nil (h : l.list = []) : l.Reports :=
  reports_iff.2 fun _ ht => absurd (h ▸ ht) List.not_mem_nil

theorem reports_populateFlags (l : TargetList n) : l.populateFlags.Reports := by
  refine reports_iff.2 fun t ht f hf => ?_
  rw [populateFlags_list] at ht
  rw [populateFlags_flag]
  exact List.any_eq_true.2 ⟨t, ht, hf⟩

theorem TargetList.Reports.push (h : l.Reports) (t : Target n) : (l.push t).Reports := by
  have hflag : ∀ f, (l.push t).flag f = (l.flag f || t.sets f) := fun f => by
    rw [← updateFlags_flag]
    cases f <;> rfl
  refine reports_iff.2 fun u hu f hf => ?_
  rw [hflag]
  rcases List.mem_append.1 hu with hu | hu
  · rw [reports_iff.1 h u hu f hf, Bool.true_or]
  · rw [← List.mem_singleton.1 hu, hf, Bool.or_true]

theorem TargetList.Reports.pushAll (ts : List (Target n)) : ∀ {l : TargetList n}, l.Reports →
    (l.pushAll ts).Reports := by
  induction ts with
  | nil => exact fun h => h
  | cons t ts ih => exact fun h => ih (h.push t)

/-- A replaced upgrade is no upgrade any more, and asks for nothing else than before. -/
theorem replaceUpgrade_sets (t : Target n) (f : Flag) :
    ({ t with pkt := replaceUpgrade t.pkt } : Target n).sets f = true → f ≠ .hasUpgrade ∧ t.sets f = true := by
  obtain ⟨⟨cmd⟩, source, _, _⟩ := t
  unfold Target.sets
  intro h
  obtain ⟨hs, hf⟩ := Bool.and_eq_true_iff.1 h
  cases f with
  | needsWritable =>
    refine ⟨Flag.noConfusion, Bool.and_eq_true_iff.2 ⟨hs, ?_⟩⟩
    revert hf
    cases cmd <;> exact fun hf => hf
  | hasUpgrade =>
    revert hf
    cases cmd <;> exact fun hf => (nomatch hf)
  | allocOnFill => exact ⟨Flag.noConfusion, Bool.and_eq_true_iff.2 ⟨hs, hf⟩⟩
  | hasFromCache =>
    refine ⟨Flag.noConfusion, Bool.and_eq_true_iff.2 ⟨hs, ?_⟩⟩
    revert hf
    cases cmd <;> exact fun hf => hf

theorem TargetList.Upgraded.reports {l' : TargetList n} (hup : l.Upgraded l') (h : l.Reports) : l'.Reports := by
  rcases hup with rfl | rfl
  · exact h
  · unfold TargetList.replaceUpgrades
    split
    · refine reports_iff.2 fun t ht f hf => ?_
      obtain ⟨u, hu, rfl⟩ := List.mem_map.1 ht
      obtain ⟨hne, hset⟩ := replaceUpgrade_sets u f hf
      have hflag := reports_iff.1 h u hu f hset
      cases f with
      | hasUpgrade => exact absurd rfl hne
      | needsWritable => exact hflag
      | allocOnFill => exact hflag
      | hasFromCache => exact hflag
    · exact h

/-- Targets that go to the end of a list without an update of its flags. -/
theorem reports_append (h : l.Reports) (ts : List (Target n)) :
    (l.withList (l.list ++ ts)).Reports ↔ ∀ t ∈ ts, ∀ f, t.sets f = true → l.flag f = true := by
  have hflag : ∀ f, (l.withList (l.list ++ ts)).flag f = l.flag f := fun f => by cases f <;> rfl
  rw [reports_iff]
  constructor
  · intro hall t ht f hf
    rw [← hflag]
    exact hall t (List.mem_append_right _ ht) f hf
  · intro hnew t ht f hf
    rw [hflag]
    rcases List.mem_append.1 ht with ht | ht
    · exact reports_iff.1 h t ht f hf
    · exact hnew t ht f hf

/-! ## Promotion -/

/-- The flags of both lists report. -/
def Entry.Reports (e : Entry n) : Prop := ∀ w, (e.list w).Reports

theorem Entry.reports_iff {e : Entry n} : e.Reports ↔ e.targets.Reports ∧ e.deferredTargets.Reports :=
  ⟨fun h => ⟨h .targets, h .deferredTargets⟩, fun h w => by
    cases w with
    | targets => exact h.1
    | deferredTargets => exact h.2⟩

theorem Entry.reports_bare {e : Entry n} : e.bare.Reports ↔ e.Reports := by
  unfold Entry.Reports
  simp only [Entry.bare_list, MSHR.reports_bare]

/-- The targets that are moved ask for nothing that the regular list does not ask for; `promoteWritable` has
asked for a writable block. -/
def Entry.Covers (e : Entry n) (f : Pkt n → Bool) (writable : Bool) : Prop :=
  ∀ t ∈ e.deferredTargets.list.takeWhile (fun t => f t.pkt), ∀ fl, t.sets fl = true →
    e.targets.flag fl = true ∨ (fl = .needsWritable ∧ writable = true)

theorem Entry.Promoted.reports_iff {e e' : Entry n} {f : Pkt n → Bool} {writable : Bool}
    (hr : e.Reports) (hp : e.Promoted e' f writable) : e'.Reports ↔ e.Covers f writable := by
  obtain ⟨htargets, -⟩ := Entry.reports_iff.1 hr
  let l : TargetList n := { e.bare.targets with needsWritable := e.bare.targets.needsWritable || writable }
  have hflag : ∀ fl, l.flag fl = true ↔
      e.targets.flag fl = true ∨ (fl = .needsWritable ∧ writable = true) := by
    intro fl
    cases fl with
    | needsWritable =>
      show (e.targets.needsWritable || writable) = true ↔ _
      rw [Bool.or_eq_true]
      exact or_congr Iff.rfl (and_iff_right rfl).symm
    | hasUpgrade => exact (or_iff_left fun h => Flag.noConfusion h.1).symm
    | allocOnFill => exact (or_iff_left fun h => Flag.noConfusion h.1).symm
    | hasFromCache => exact (or_iff_left fun h => Flag.noConfusion h.1).symm
  have hl : l.Reports := by
    refine MSHR.reports_iff.2 fun t ht fl hf => (hflag fl).2 (.inl ?_)
    obtain ⟨u, hu, rfl⟩ := List.mem_map.1 ht
    exact MSHR.reports_iff.1 htargets u hu fl hf
  have hmoved : e.bare.deferredTargets.list.take (e.prefixLength f) =
      (e.deferredTargets.list.takeWhile fun t => f t.pkt).map Target.unmark := by
    rw [show e.bare.deferredTargets.list = e.deferredTargets.list.map Target.unmark from rfl, ← List.map_take]
    exact congrArg _ (List.prefix_iff_eq_take.1 (List.takeWhile_prefix _)).symm
  have hdeferred : e'.deferredTargets.Reports := by
    rw [hp.eq]
    exact reports_populateFlags _
  have hsplit : e'.targets = l.withList (l.list ++
      (e.deferredTargets.list.takeWhile fun t => f t.pkt).map Target.unmark) := by
    rw [hp.eq, ← hmoved]
    rfl
  rw [Entry.reports_iff, and_iff_left hdeferred, hsplit, reports_append hl, List.forall_mem_map]
  exact forall₂_congr fun t _ => forall_congr' fun fl => imp_congr Iff.rfl (hflag fl)

/-! ## The system -/

/-- A call of an operation of one of the MSHRs, or of what the queue does with it. -/
inductive FlagOp (n : Nat) where
  | allocate (pkt : Pkt n) (alloc_on_fill : Bool)
  | deallocate
  | markInService (pending_modified_resp : Bool)
  | markPending
  | clearDownstreamPending
  | allocateTarget (pkt : Pkt n) (alloc_on_fill : Bool)
  | handleSnoop (pkt : Pkt n)
  | popTarget
  | extractServiceableTargets (cmd : MemCmd)
  | promoteDeferredTargets
  | promoteReadable
  | promoteWritable

/-- `MSHR::popTarget`, which nothing calls without a target. -/
def popTarget (e : Entry n) : Except Failure (Entry n) := do
  check (!e.targets.list.isEmpty)
  return { e with targets := e.targets.withList e.targets.list.tail }

def FlagOp.run (m : Fin n) (h : Heap n) : FlagOp n → Except Failure (Heap n)
  | .allocate pkt a => MSHR.allocate m pkt a h
  | .deallocate => do return h.set m (← MSHR.deallocate (h m))
  | .markInService b => MSHR.markInService m b h
  | .markPending => do return h.set m (← MSHR.markPending (h m))
  | .clearDownstreamPending => clear m h
  | .allocateTarget pkt a => MSHR.allocateTarget m pkt a h
  | .handleSnoop pkt => do return (← MSHR.handleSnoop m pkt h).1
  | .popTarget => do return h.set m (← MSHR.popTarget (h m))
  | .extractServiceableTargets cmd => do return h.set m (← MSHR.extractServiceableTargets cmd (h m)).2
  | .promoteDeferredTargets => .ok (h.set m (MSHR.promoteDeferredTargets (h m)).2)
  | .promoteReadable => MSHR.promoteReadable m h
  | .promoteWritable => MSHR.promoteWritable m h

def flagStep (h : Heap n) (c : Fin n × FlagOp n) : Option (Heap n) := (c.2.run c.1 h).toOption

/-- The targets that a promotion moves set no flag that the regular list does not have. -/
def Covered (h : Heap n) (c : Fin n × FlagOp n) : Prop :=
  match c.2 with
  | .promoteReadable => (h c.1).promotesReadable = true → (h c.1).Covers Pkt.readable false
  | .promoteWritable => (h c.1).promotes = true → (h c.1).Covers Pkt.promotable true
  | _ => True

/-- The flags of all lists report. -/
def Heap.Reports (h : Heap n) : Prop := ∀ m, (h m).Reports

variable {h h' : Heap n} {m : Fin n} {e e' : Entry n}

/-- One MSHR has changed, and marks. -/
theorem Heap.Reports.of_set (hr : h.Reports) (hbare : h'.bare = h.bare.set m e) : h'.Reports ↔ e.Reports := by
  have hat : ∀ x, (h' x).Reports ↔ (h.bare.set m e x).Reports := fun x => by
    rw [← hbare]
    exact Entry.reports_bare.symm
  constructor
  · intro h'r
    have hm := (hat m).1 (h'r m)
    rwa [Heap.set_same] at hm
  · intro her x
    rw [hat x]
    by_cases hx : x = m
    · rw [hx, Heap.set_same]
      exact her
    · rw [Heap.set_ne _ _ hx]
      exact Entry.reports_bare.2 (hr x)

theorem Heap.Reports.set (hr : h.Reports) (he : e.Reports) : (h.set m e).Reports :=
  (hr.of_set (Heap.bare_set h m e)).2 (Entry.reports_bare.2 he)

theorem allocate_reports {pkt : Pkt n} {a : Bool} (hr : h.Reports) (hok : MSHR.allocate m pkt a h = .ok h') :
    h'.Reports := by
  obtain ⟨-, -, hbare⟩ := allocate_bare hok
  have hm := Entry.reports_bare.2 (hr m)
  refine (hr.of_set hbare).2 (Entry.reports_iff.2 ⟨?_, (Entry.reports_iff.1 hm).2⟩)
  exact (Entry.reports_iff.1 hm).1.push _

theorem allocateTarget_reports {pkt : Pkt n} {a : Bool} (hr : h.Reports)
    (hok : MSHR.allocateTarget m pkt a h = .ok h') : h'.Reports := by
  obtain ⟨w, pkt', -, -, -, hbare⟩ := allocateTarget_bare hok
  have hm := Entry.reports_bare.2 (hr m)
  refine (hr.of_set hbare).2 (Entry.reports_iff.2 ?_)
  obtain ⟨htargets, hdeferred⟩ := Entry.reports_iff.1 hm
  cases w with
  | targets => exact ⟨htargets.push _, hdeferred⟩
  | deferredTargets => exact ⟨htargets, hdeferred.push _⟩

theorem handleSnoop_reports {pkt : Pkt n} {r : Heap n × Pkt n × Bool} (hr : h.Reports)
    (hok : MSHR.handleSnoop m pkt h = .ok r) : r.1.Reports := by
  obtain ⟨e', hbare, hsnooped⟩ := handleSnoop_bare hok
  obtain ⟨htargets, hdeferred⟩ := Entry.reports_iff.1 (Entry.reports_bare.2 (hr m))
  obtain ⟨l, hup, hl⟩ := hsnooped.targets
  refine (hr.of_set hbare).2 (Entry.reports_iff.2 ⟨?_, hsnooped.deferred.reports hdeferred⟩)
  rw [hl]
  exact (hup.reports htargets).pushAll _

theorem extractServiceableTargets_reports {cmd : MemCmd} {r : TargetList n × Entry n} (he : e.Reports)
    (hok : MSHR.extractServiceableTargets cmd e = .ok r) : r.2.Reports := by
  obtain ⟨-, hdeferred⟩ := Entry.reports_iff.1 he
  unfold extractServiceableTargets at hok
  split at hok
  · split at hok
    · cases hok
    · obtain ⟨_, -, hok⟩ := bind_ok_iff.1 hok
      obtain ⟨_, -, hok⟩ := bind_ok_iff.1 hok
      cases hok
      exact Entry.reports_iff.2 ⟨reports_populateFlags _, hdeferred⟩
  · cases hok
    exact Entry.reports_iff.2 ⟨reports_populateFlags _, hdeferred⟩

theorem promoteDeferredTargets_reports (he : e.Reports) : (MSHR.promoteDeferredTargets e).2.Reports := by
  unfold promoteDeferredTargets
  split
  · exact he
  · exact Entry.reports_iff.2 ⟨reports_populateFlags _, reports_populateFlags _⟩

/-- A target that is gone asks for nothing. -/
theorem popTarget_reports (he : e.Reports) (hok : MSHR.popTarget e = .ok e') : e'.Reports := by
  obtain ⟨htargets, hdeferred⟩ := Entry.reports_iff.1 he
  unfold popTarget at hok
  obtain ⟨_, -, hok⟩ := bind_ok_iff.1 hok
  cases hok
  refine Entry.reports_iff.2 ⟨MSHR.reports_iff.2 fun t ht fl hf => ?_, hdeferred⟩
  have hflag : ∀ ts, (e.targets.withList ts).flag fl = e.targets.flag fl := fun ts => by cases fl <;> rfl
  rw [hflag]
  exact MSHR.reports_iff.1 htargets t (List.mem_of_mem_tail ht) fl hf

theorem deallocate_reports (he : e.Reports) (hok : MSHR.deallocate e = .ok e') : e'.Reports := by
  unfold deallocate at hok
  obtain ⟨_, hempty, hok⟩ := bind_ok_iff.1 hok
  obtain ⟨_, -, hok⟩ := bind_ok_iff.1 hok
  cases hok
  exact Entry.reports_iff.2 ⟨reports_nil (List.isEmpty_iff.1 (check_ok hempty)), (Entry.reports_iff.1 he).2⟩

theorem promoteReadable_reports (hr : h.Reports) (hok : MSHR.promoteReadable m h = .ok h') :
    h'.Reports ↔ ((h m).promotesReadable = true → (h m).Covers Pkt.readable false) := by
  rcases promoteReadable_bare hok with ⟨hno, rfl⟩ | ⟨e, hbare, hyes, hpromoted⟩
  · exact iff_of_true hr fun hyes => absurd (hno.symm.trans hyes) Bool.false_ne_true
  · rw [hr.of_set hbare, hpromoted.reports_iff (hr m)]
    exact (imp_iff_right hyes).symm

theorem promoteWritable_reports (hr : h.Reports) (hok : MSHR.promoteWritable m h = .ok h') :
    h'.Reports ↔ ((h m).promotes = true → (h m).Covers Pkt.promotable true) := by
  rcases promoteWritable_bare hok with ⟨hno, rfl⟩ | ⟨e, hbare, hyes, hpromoted⟩
  · exact iff_of_true hr fun hyes => absurd (hno.symm.trans hyes) Bool.false_ne_true
  · rw [hr.of_set hbare, hpromoted.reports_iff (hr m)]
    exact (imp_iff_right hyes).symm

/-- **Step lemma.**  After a call the flags report exactly if a promotion has moved nothing that they do not
cover. -/
theorem flagStep_reports {c : Fin n × FlagOp n} (hr : h.Reports) (hstep : flagStep h c = some h') :
    h'.Reports ↔ Covered h c := by
  obtain ⟨m, c⟩ := c
  have hok : c.run m h = .ok h' := toOption_eq_some.1 hstep
  cases c with
  | promoteReadable => exact promoteReadable_reports hr hok
  | promoteWritable => exact promoteWritable_reports hr hok
  | allocate pkt a => exact iff_of_true (allocate_reports hr hok) trivial
  | deallocate =>
    obtain ⟨e, he, hok⟩ := bind_ok_iff.1 hok
    cases hok
    exact iff_of_true (hr.set (deallocate_reports (hr m) he)) trivial
  | markInService b =>
    refine iff_of_true ((hr.of_set (markInService_bare hok)).2 ?_) trivial
    exact Entry.reports_iff.2 (Entry.reports_iff.1 (Entry.reports_bare.2 (hr m)))
  | markPending =>
    obtain ⟨e, he, hok⟩ := bind_ok_iff.1 hok
    cases hok
    unfold MSHR.markPending at he
    obtain ⟨_, -, he⟩ := bind_ok_iff.1 he
    cases he
    exact iff_of_true (hr.set (Entry.reports_iff.2 (Entry.reports_iff.1 (hr m)))) trivial
  | clearDownstreamPending =>
    refine iff_of_true (fun x => ?_) trivial
    rw [← Entry.reports_bare, ← Heap.bare_apply, clear_bare hok]
    exact Entry.reports_bare.2 (hr x)
  | allocateTarget pkt a => exact iff_of_true (allocateTarget_reports hr hok) trivial
  | handleSnoop pkt =>
    obtain ⟨r, hsnoop, hok⟩ := bind_ok_iff.1 hok
    cases hok
    exact iff_of_true (handleSnoop_reports hr hsnoop) trivial
  | popTarget =>
    obtain ⟨e, he, hok⟩ := bind_ok_iff.1 hok
    cases hok
    exact iff_of_true (hr.set (popTarget_reports (hr m) he)) trivial
  | extractServiceableTargets cmd =>
    obtain ⟨r, he, hok⟩ := bind_ok_iff.1 hok
    cases hok
    exact iff_of_true (hr.set (extractServiceableTargets_reports (hr m) he)) trivial
  | promoteDeferredTargets =>
    cases hok
    exact iff_of_true (hr.set (promoteDeferredTargets_reports (hr m))) trivial

/-- The MSHRs as they are made. -/
def Heap.new : Heap n := fun _ => .new

theorem new_reports : (Heap.new : Heap n).Reports := fun _ => Entry.reports_iff.2
  ⟨reports_nil rfl, reports_nil rfl⟩

/-- **The flags do not under-report** in a run whose promotions all move targets that set no new flag of the
regular list; and the first promotion that moves another one makes a flag under-report. -/
theorem flags_reported_iff (hrun : Reaches flagStep Covered Heap.new h) :
    (∀ m w f, ((h m).list w).populateFlags.flag f = true → ((h m).list w).flag f = true) ∧
    ∀ c h', flagStep h c = some h' →
      ((∀ m w f, ((h' m).list w).populateFlags.flag f = true → ((h' m).list w).flag f = true) ↔ Covered h c) := by
  have hr : h.Reports := hrun.inv new_reports fun _ _ _ hr hcov hstep => (flagStep_reports hr hstep).2 hcov
  exact ⟨hr, fun c h' hstep => flagStep_reports hr hstep⟩

theorem readReq_isRequest : MemCmd.ReadReq.testCmdAttrib .IsRequest = true := rfl
theorem readExReq_isRequest : MemCmd.ReadExReq.testCmdAttrib .IsRequest = true := rfl
theorem writeReq_isRequest : MemCmd.WriteReq.testCmdAttrib .IsRequest = true := rfl

/-- A read is in service; then a request joins it that waits for a writable block. -/
def readMiss : FlagOp 1 := .allocate { cmd := .ReadReq, isRequest := readReq_isRequest, mshr := none } true
def readSent : FlagOp 1 := .markInService false
def writeJoins : FlagOp 1 :=
  .allocateTarget { cmd := .WriteReq, isRequest := writeReq_isRequest, mshr := none } true
def cacheJoins : FlagOp 1 :=
  .allocateTarget { cmd := .ReadExReq, isRequest := readExReq_isRequest, mshr := none } false

/-- The response is writable, and a write of the same master is promoted. -/
theorem flags_reported_writePromoted : ∃ h : Heap 1, Reaches flagStep Covered Heap.new h ∧
    (h 0).targets.list.length = 2 ∧
    (∀ m w f, ((h m).list w).populateFlags.flag f = true → ((h m).list w).flag f = true) ∧
    ∀ c h', flagStep h c = some h' →
      ((∀ m w f, ((h' m).list w).populateFlags.flag f = true → ((h' m).list w).flag f = true) ↔ Covered h c) := by
  have h0 : Reaches flagStep Covered (Heap.new : Heap 1) Heap.new := .refl
  have h1 := h0.step (i := (0, readMiss)) trivial rfl
  have h2 := h1.step (i := (0, readSent)) trivial rfl
  have h3 := h2.step (i := (0, writeJoins)) trivial rfl
  have h4 := h3.step (i := (0, .promoteWritable)) (fun _ => by unfold Entry.Covers; decide) rfl
  exact ⟨_, h4, by decide, flags_reported_iff h4⟩

/-- The response is writable, and the request of a cache is promoted: `hasFromCache` is not set. -/
theorem flags_under_report : ∃ h : Heap 1, Reaches flagStep (fun _ _ => True) Heap.new h ∧
    (h 0).targets.hasFromCache = false ∧ (h 0).targets.populateFlags.hasFromCache = true ∧
    ¬ ∀ m w f, ((h m).list w).populateFlags.flag f = true → ((h m).list w).flag f = true := by
  have h0 : Reaches flagStep (fun _ _ => True) (Heap.new : Heap 1) Heap.new := .refl
  have hfold : [(0, readMiss), (0, readSent), (0, cacheJoins), (0, .promoteWritable)].foldlM flagStep
      (Heap.new : Heap 1) = some _ := rfl
  have hrun := h0.foldlM (fun _ _ _ => trivial) hfold
  refine ⟨_, hrun, by decide, by decide, fun hall => ?_⟩
  exact absurd (hall 0 .targets .hasFromCache (by decide)) (by decide)

end Alpine.Mem.MSHR
