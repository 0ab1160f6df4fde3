import Alpine.Mem.MSHRPromotes
import Alpine.Mem.MSHRFlags

/-!
# Why deferred requests wait (`mem/cache/mshr.cc`)

A request that needs a writable block is deferred behind targets that need one themselves only if a cache
maintenance operation is in front, or if the MSHR forwards its request.

* `Wait` — what the promotions look at, and `Wait.Ok` — what holds of it between calls.
* One lemma for each way in which a call changes it.
* `Entry.Full` — an MSHR that is used has targets.
-/

namespace Alpine.Mem.MSHR

open Alpine Alpine.Mem

variable {n : Nat}

/-! ## What the promotions look at -/

structure Kind where
  source : Source
  needsWritable : Bool
  maintains : Bool
  prefetch : Bool

/-- The target makes its list need a writable block. -/
def Kind.wants (k : Kind) : Bool := k.source ≠ .FromSnoop && k.needsWritable

def Target.kind (t : Target n) : Kind :=
  ⟨t.source, t.pkt.needsWritable, t.pkt.isCacheMaintenance, t.pkt.cmd = .HardPFReq⟩

theorem kind_wants (t : Target n) : t.kind.wants = t.sets .needsWritable := rfl

structure Wait where
  targets : List Kind
  deferred : List Kind
  targetsWritable : Bool
  deferredWritable : Bool
  inService : Bool
  pendingModified : Bool
  postInvalidate : Bool
  postDowngrade : Bool
  isForward : Bool

def Entry.wait (e : Entry n) : Wait :=
  { targets := e.targets.list.map Target.kind
    deferred := e.deferredTargets.list.map Target.kind
    targetsWritable := e.targets.needsWritable
    deferredWritable := e.deferredTargets.needsWritable
    inService := e.inService
    pendingModified := e.pendingModified
    postInvalidate := e.postInvalidate
    postDowngrade := e.postDowngrade
    isForward := e.isForward }

theorem map_kind_unmark (ts : List (Target n)) : (ts.map Target.unmark).map Target.kind = ts.map Target.kind := by
  rw [List.map_map]
  rfl

@[simp] theorem bare_wait (e : Entry n) : e.bare.wait = e.wait := by
  have htargets := map_kind_unmark e.targets.list
  have hdeferred := map_kind_unmark e.deferredTargets.list
  unfold Entry.wait Entry.bare TargetList.bare TargetList.withList
  rw [htargets, hdeferred]

namespace Wait

variable {v : Wait}

/-- A maintenance operation is first on one of the lists. -/
def Leads (v : Wait) : Prop := ∃ k, (k ∈ v.deferred.head? ∨ k ∈ v.targets.head?) ∧ k.maintains = true

/-- What holds of an MSHR between calls. -/
structure Ok (v : Wait) : Prop where
  targetsWritable : v.targetsWritable = v.targets.any Kind.wants
  deferredWritable : v.deferredWritable = v.deferred.any Kind.wants
  front : ∀ k ∈ v.targets.head?, k.source = .FromPrefetcher →
    k.prefetch = true ∧ k.wants = false ∧ k.maintains = false
  tail : ∀ k ∈ v.targets.tail, k.source ≠ .FromPrefetcher
  queued : v.inService = false → v.deferred ≠ [] → v.Leads
  pending : v.inService = true → v.targetsWritable = true → v.pendingModified = true
  behind : v.inService = true → v.deferred ≠ [] → v.postInvalidate = false → v.postDowngrade = false →
    v.targetsWritable = true → v.Leads ∨ v.isForward = true

theorem Leads.mono {v' : Wait} (hl : v.Leads) (hdeferred : ∀ k ∈ v.deferred.head?, k ∈ v'.deferred.head?)
    (htargets : ∀ k ∈ v.targets.head?, k ∈ v'.targets.head?) : v'.Leads := by
  obtain ⟨k, hk, hm⟩ := hl
  exact ⟨k, hk.imp (hdeferred k) (htargets k), hm⟩

theorem head?_append {ks ls : List Kind} {k : Kind} (hk : k ∈ ks.head?) : k ∈ (ks ++ ls).head? := by
  cases ks with
  | nil => cases hk
  | cons a ks => exact hk

/-! ## What the calls do -/

theorem Ok.allocate (hv : v.Ok) (htargets : v.targets = []) (hdeferred : v.deferred = []) {k : Kind}
    (hk : k.source = .FromPrefetcher → k.prefetch = true ∧ k.wants = false ∧ k.maintains = false) : Ok { v with
      targets := v.targets ++ [k]
      targetsWritable := v.targetsWritable || k.wants
      isForward := false
      inService := false } := by
  refine ⟨?_, hv.deferredWritable, ?_, ?_, ?_, ?_, ?_⟩
  · rw [List.any_append, hv.targetsWritable, List.any_cons, List.any_nil, Bool.or_false]
  · intro j hj
    rw [htargets] at hj
    rw [← Option.some.inj hj]
    exact hk
  · intro j hj
    rw [htargets] at hj
    cases hj
  · exact fun _ hne => absurd hdeferred hne
  · exact fun hin => Bool.noConfusion hin
  · exact fun hin => Bool.noConfusion hin

/-- A request is deferred: it waits for others, for a maintenance operation, or because of a snoop or of
the request that is in service. -/
theorem Ok.defer (hv : v.Ok) {k : Kind}
    (hwhy : v.deferred = [] → k.maintains = true ∨ (∃ j ∈ v.targets.head?, j.maintains = true) ∨
      (v.inService = true ∧ (v.postInvalidate = true ∨ v.pendingModified = false ∨
        v.postDowngrade = true ∨ v.isForward = true))) :
    Ok { v with deferred := v.deferred ++ [k], deferredWritable := v.deferredWritable || k.wants } := by
  have hleads : v.Leads → Leads { v with
      deferred := v.deferred ++ [k], deferredWritable := v.deferredWritable || k.wants } := fun hl =>
    hl.mono (fun _ hj => head?_append hj) fun _ hj => hj
  refine ⟨hv.targetsWritable, ?_, hv.front, hv.tail, ?_, hv.pending, ?_⟩
  · rw [List.any_append, hv.deferredWritable, List.any_cons, List.any_nil, Bool.or_false]
  · intro hin _
    by_cases hnil : v.deferred = []
    · rcases hwhy hnil with hk | ⟨j, hj, hm⟩ | ⟨hserving, -⟩
      · exact ⟨k, .inl (by rw [hnil]; rfl), hk⟩
      · exact ⟨j, .inr hj, hm⟩
      · cases hserving.symm.trans hin
    · exact hleads (hv.queued hin hnil)
  · intro hin _ hinvalidate hdowngrade hwritable
    by_cases hnil : v.deferred = []
    · rcases hwhy hnil with hk | ⟨j, hj, hm⟩ | ⟨-, hpost | hpending | hpost | hforward⟩
      · exact .inl ⟨k, .inl (by rw [hnil]; rfl), hk⟩
      · exact .inl ⟨j, .inr hj, hm⟩
      · cases hpost.symm.trans hinvalidate
      · -- targets that need a writable block are answered with one
        cases hpending.symm.trans (hv.pending hin hwritable)
      · cases hpost.symm.trans hdowngrade
      · exact .inr hforward
    · exact (hv.behind hin hnil hinvalidate hdowngrade hwritable).imp_left hleads

theorem Ok.join (hv : v.Ok) (hdeferred : v.deferred = []) (hne : v.targets ≠ []) {k : Kind}
    (hk : k.source ≠ .FromPrefetcher) (hpending : v.inService = true → k.wants = true → v.pendingModified = true) :
    Ok { v with targets := v.targets ++ [k], targetsWritable := v.targetsWritable || k.wants } := by
  obtain ⟨f, ks, hf⟩ := List.exists_cons_of_ne_nil hne
  refine ⟨?_, hv.deferredWritable, ?_, ?_, ?_, ?_, ?_⟩
  · rw [List.any_append, hv.targetsWritable, List.any_cons, List.any_nil, Bool.or_false]
  · have hfront := hv.front
    rw [hf] at hfront ⊢
    exact hfront
  · intro j hj
    have htail := hv.tail
    rw [hf] at hj htail
    rcases List.mem_append.1 hj with hj | hj
    · exact htail j hj
    · rw [List.mem_singleton.1 hj]
      exact hk
  · exact fun _ hfull => absurd hdeferred hfull
  · intro hin hwritable
    rcases Bool.or_eq_true_iff.1 hwritable with hwritable | hwants
    · exact hv.pending hin hwritable
    · exact hpending hin hwants
  · exact fun _ hfull => absurd hdeferred hfull

theorem Ok.send (hv : v.Ok) (hin : v.inService = false) (b : Bool) : Ok { v with
      inService := true
      pendingModified := v.targetsWritable || b
      postInvalidate := false
      postDowngrade := false } := by
  refine ⟨hv.targetsWritable, hv.deferredWritable, hv.front, hv.tail, ?_, ?_, ?_⟩
  · exact fun hno => Bool.noConfusion hno
  · intro _ hwritable
    show (v.targetsWritable || b) = true
    rw [show v.targetsWritable = true from hwritable, Bool.true_or]
  · exact fun _ hne _ _ _ => .inl (hv.queued hin hne)

theorem Ok.forward (hv : v.Ok) (hin : v.inService = false) (b : Bool) : Ok { v with isForward := b } :=
  ⟨hv.targetsWritable, hv.deferredWritable, hv.front, hv.tail, hv.queued, hv.pending,
    fun hserving => absurd (hserving.symm.trans hin) Bool.noConfusion⟩

theorem Ok.snoop (hv : v.Ok) {ks : List Kind} (hks : ∀ k ∈ ks, k.source = .FromSnoop)
    (hne : ks ≠ [] → v.targets ≠ []) {i d : Bool} (hi : v.postInvalidate = true → i = true)
    (hd : v.postDowngrade = true → d = true) :
    Ok { v with targets := v.targets ++ ks, postInvalidate := i, postDowngrade := d } := by
  have hnone : ks.any Kind.wants = false := by
    refine List.any_eq_false.2 fun k hk => ?_
    unfold Kind.wants
    rw [hks k hk]
    exact Bool.false_ne_true
  have hhead : ∀ k ∈ (v.targets ++ ks).head?, k ∈ v.targets.head? := by
    intro k hk
    cases ht : v.targets with
    | nil =>
      rw [ht] at hk
      exact absurd ht (hne fun hnil => by rw [hnil] at hk; cases hk)
    | cons f fs =>
      rw [ht] at hk
      exact hk
  have hleads : v.Leads → Leads { v with
      targets := v.targets ++ ks, postInvalidate := i, postDowngrade := d } := fun hl =>
    hl.mono (fun _ hj => hj) fun _ hj => head?_append hj
  have hclear : ∀ {a b : Bool}, (a = true → b = true) → b = false → a = false := by
    intro a b hab hb
    cases a with
    | false => rfl
    | true => exact (hab rfl).symm.trans hb
  have hfront := fun k hk => hv.front k (hhead k hk)
  refine ⟨?_, hv.deferredWritable, hfront, ?_, fun hin hfull => ?_, hv.pending, ?_⟩
  · rw [List.any_append, hnone, Bool.or_false]
    exact hv.targetsWritable
  · intro k hk
    have hmem : k ∈ v.targets.tail ∨ k ∈ ks := by
      cases ht : v.targets with
      | nil =>
        rw [ht] at hk
        exact .inr (List.mem_of_mem_tail hk)
      | cons f fs =>
        rw [ht] at hk
        exact List.mem_append.1 hk
    rcases hmem with hmem | hmem
    · exact hv.tail k hmem
    · rw [hks k hmem]
      exact Source.noConfusion
  · exact hleads (hv.queued hin hfull)
  · intro hin hfull hinvalidate hdowngrade hwritable
    refine (hv.behind hin hfull ?_ ?_ hwritable).imp_left hleads
    · exact hclear hi hinvalidate
    · exact hclear hd hdowngrade

theorem ok_waiting (hin : v.inService = false) (htargets : v.targetsWritable = v.targets.any Kind.wants)
    (hdeferred : v.deferredWritable = v.deferred.any Kind.wants)
    (hcpu : ∀ k ∈ v.targets, k.source ≠ .FromPrefetcher) (hleads : v.deferred ≠ [] → v.Leads) : v.Ok := by
  have hno : v.inService ≠ true := fun h => Bool.noConfusion (h.symm.trans hin)
  refine ⟨htargets, hdeferred, fun k hk hpf => ?_, fun k hk => ?_, fun _ => hleads, ?_, ?_⟩
  · exact absurd hpf (hcpu k (List.mem_of_mem_head? hk))
  · exact hcpu k (List.mem_of_mem_tail hk)
  · exact fun hin => absurd hin hno
  · exact fun hin => absurd hin hno

theorem Ok.pop (hv : v.Ok) (hin : v.inService = false)
    (hpf : ∀ k ∈ v.targets.head?, k.source = .FromPrefetcher) : Ok { v with targets := v.targets.tail } := by
  refine ok_waiting hin ?_ hv.deferredWritable hv.tail fun hne => ?_
  · show v.targetsWritable = v.targets.tail.any Kind.wants
    rw [hv.targetsWritable]
    cases ht : v.targets with
    | nil => rfl
    | cons f fs =>
      have hf : f ∈ v.targets.head? := by rw [ht]; rfl
      rw [List.any_cons, (hv.front f hf (hpf f hf)).2.1, Bool.false_or, List.tail_cons]
  · obtain ⟨k, hk, hm⟩ := hv.queued hin hne
    refine ⟨k, .inl (hk.resolve_right fun hfront => ?_), hm⟩
    exact absurd (hm.symm.trans (hv.front k hfront (hpf k hfront)).2.2) Bool.noConfusion

end Wait

/-! ## The calls -/

variable {h h' : Heap n} {m : Fin n} {e e' : Entry n} {pkt : Pkt n} {a b : Bool}

theorem wait_of_set (hbare : h'.bare = h.bare.set m e) : (h' m).wait = e.wait := by
  have hm : (h' m).bare = e := by rw [← Heap.bare_apply, hbare, Heap.set_same]
  rw [← bare_wait, hm]

theorem push_wait (l : TargetList n) (t : Target n) : (l.push t).needsWritable = (l.needsWritable || t.kind.wants) ∧
      (l.push t).list.map Target.kind = l.list.map Target.kind ++ [t.kind] := by
  rw [kind_wants]
  exact ⟨updateFlags_flag l t .needsWritable, List.map_append⟩

theorem push_targets_wait (e : Entry n) (t : Target n) : (e.push .targets t).wait = { e.wait with
    targets := e.wait.targets ++ [t.kind]
    targetsWritable := e.wait.targetsWritable || t.kind.wants } := by
  obtain ⟨hflag, hlist⟩ := push_wait e.targets t
  unfold Entry.wait Entry.push Entry.setList Entry.list
  rw [hflag, hlist]

theorem push_deferred_wait (e : Entry n) (t : Target n) : (e.push .deferredTargets t).wait = { e.wait with
    deferred := e.wait.deferred ++ [t.kind]
    deferredWritable := e.wait.deferredWritable || t.kind.wants } := by
  obtain ⟨hflag, hlist⟩ := push_wait e.deferredTargets t
  unfold Entry.wait Entry.push Entry.setList Entry.list
  rw [hflag, hlist]

/-- A prefetch asks for no writable block. -/
theorem prefetch_wants {t : Target n} (ht : t.pkt.cmd = .HardPFReq) : t.kind.wants = false := by
  unfold Kind.wants Target.kind Pkt.needsWritable
  rw [ht]
  exact Bool.and_false _

theorem allocate_wait (hv : (h m).wait.Ok) (hpf : pkt.cmd = .HardPFReq → pkt.isCacheMaintenance = false)
    (hok : allocate m pkt a h = .ok h') : (h' m).wait.Ok := by
  obtain ⟨htargets, hdeferred, hbare⟩ := allocate_bare hok
  have hnil : ∀ {l : TargetList n}, l.list = [] → l.list.map Target.kind = [] := fun hl => by rw [hl]; rfl
  rw [wait_of_set hbare, push_targets_wait]
  rw [← bare_wait] at hv
  refine hv.allocate ?_ ?_ fun hsource => ?_
  · rw [bare_wait]
    exact hnil htargets
  · rw [bare_wait]
    exact hnil hdeferred
  · have hcmd : pkt.cmd = .HardPFReq := by
      by_contra hno
      have hcpu : (if pkt.cmd = .HardPFReq then Source.FromPrefetcher else .FromCPU) =
        .FromPrefetcher := hsource
      rw [if_neg hno] at hcpu
      cases hcpu
    exact ⟨decide_eq_true hcmd, prefetch_wants hcmd, hpf hcmd⟩

theorem replaceUpgrade_maintenance {pkt' : Pkt n} (hpkt : pkt' = pkt ∨ pkt' = replaceUpgrade pkt) :
    pkt'.isCacheMaintenance = pkt.isCacheMaintenance := by
  rcases hpkt with rfl | rfl
  · rfl
  · rfl

theorem allocateTarget_wait (hv : (h m).wait.Ok) (hok : allocateTarget m pkt a h = .ok h') : (h' m).wait.Ok := by
  obtain ⟨front, rest, hl, ⟨hdefers, pkt', hpkt, hbare⟩ | ⟨hno, hbare⟩⟩ := allocateTarget_cases hok
  · rw [wait_of_set hbare, push_deferred_wait, bare_wait]
    refine hv.defer fun hnil => ?_
    have hempty : (h m).deferredTargets.list = [] := List.map_eq_nil_iff.1 hnil
    unfold defers at hdefers
    simp only [hempty, List.isEmpty_nil, Bool.not_true, Bool.or_false, Bool.or_eq_true,
      Bool.and_eq_true, Bool.not_eq_true'] at hdefers
    rcases hdefers with (hm | hm) | ⟨hin, hwhy⟩
    · exact .inl ((replaceUpgrade_maintenance hpkt).trans hm)
    · refine .inr (.inl ⟨front.kind, ?_, hm⟩)
      unfold Entry.wait
      rw [hl]
      rfl
    · refine .inr (.inr ⟨hin, ?_⟩)
      rcases hwhy with hpost | ⟨-, (hpending | hpost) | hforward⟩
      · exact .inl hpost
      · exact .inr (.inl hpending)
      · exact .inr (.inr (.inl hpost))
      · exact .inr (.inr (.inr hforward))
  · rw [wait_of_set hbare, push_targets_wait, bare_wait]
    unfold defers at hno
    simp only [Bool.or_eq_false_iff, Bool.not_eq_false', List.isEmpty_iff] at hno
    obtain ⟨⟨-, hempty⟩, hwhy⟩ := hno
    refine hv.join ?_ ?_ Source.noConfusion fun hin hwants => ?_
    · exact List.map_eq_nil_iff.2 hempty
    · intro hnil
      rw [List.map_eq_nil_iff.1 hnil] at hl
      cases hl
    · have hin' : (h m).inService = true := hin
      have hwants' : pkt.needsWritable = true := (Bool.and_eq_true_iff.1 hwants).2
      rw [hin', hwants', Bool.true_and, Bool.true_and, Bool.or_eq_false_iff, Bool.or_eq_false_iff,
        Bool.or_eq_false_iff] at hwhy
      have hpending : (h m).pendingModified = true := by simpa using hwhy.2.1.1
      exact hpending

theorem markInService_wait (hv : (h m).wait.Ok) (hok : markInService m b h = .ok h') : (h' m).wait.Ok := by
  rw [wait_of_set (markInService_bare hok)]
  unfold markInService at hok
  obtain ⟨_, hwaits, -⟩ := bind_ok_iff.1 hok
  rw [← bare_wait] at hv
  have hin : (h m).inService = false := by simpa using check_ok hwaits
  exact hv.send hin b

theorem setForward_wait (hv : (h m).wait.Ok) (hin : (h m).inService = false) : (h.setForward m b m).wait.Ok := by
  unfold Heap.setForward
  rw [Heap.set_same]
  exact hv.forward hin b

/-- A replaced upgrade needs a writable block as before. -/
theorem replaceUpgrade_kind (t : Target n) : ({ t with pkt := replaceUpgrade t.pkt } : Target n).kind = t.kind := by
  obtain ⟨⟨cmd⟩, source, _, _⟩ := t
  unfold Target.kind
  cases cmd <;> rfl

theorem TargetList.Upgraded.kinds {l l' : TargetList n} (hup : l.Upgraded l') :
    l'.list.map Target.kind = l.list.map Target.kind := by
  rcases hup with rfl | rfl
  · rfl
  · unfold TargetList.replaceUpgrades
    split
    · rw [List.map_map]
      exact List.map_congr_left fun t _ => replaceUpgrade_kind t
    · rfl

theorem handleSnoop_wait {r : Heap n × Pkt n × Bool} (hv : (h m).wait.Ok)
    (hok : handleSnoop m pkt h = .ok r) : (r.1 m).wait.Ok := by
  obtain ⟨e', hbare, ⟨l, hup, htargets⟩, hdeferred, -⟩ := handleSnoop_bare hok
  have hkeeps := handleSnoop_keeps hok m
  have hwait := wait_of_set hbare
  have htkinds : (r.1 m).wait.targets = (h m).wait.targets ++ ((h m).saves pkt).map Target.kind := by
    rw [hwait]
    unfold Entry.wait
    rw [htargets, pushAll_list, List.map_append, hup.kinds]
    exact congrArg (· ++ _) (map_kind_unmark _)
  have hdkinds : (r.1 m).wait.deferred = (h m).wait.deferred := by
    rw [hwait]
    exact hdeferred.kinds.trans (map_kind_unmark _)
  have heq : (r.1 m).wait = { (h m).wait with
      targets := (h m).wait.targets ++ ((h m).saves pkt).map Target.kind
      postInvalidate := (r.1 m).postInvalidate
      postDowngrade := (r.1 m).postDowngrade } := by
    rw [← htkinds]
    have hw := hkeeps.needsWritable
    have htw : (r.1 m).wait.targetsWritable = (h m).wait.targetsWritable := hw .targets
    have hdw : (r.1 m).wait.deferredWritable = (h m).wait.deferredWritable := hw .deferredTargets
    have hin : (r.1 m).wait.inService = (h m).wait.inService := hkeeps.inService
    have hpm : (r.1 m).wait.pendingModified = (h m).wait.pendingModified := hkeeps.pendingModified
    have hfw : (r.1 m).wait.isForward = (h m).wait.isForward := hkeeps.isForward
    dsimp only
    rw [← hdkinds, ← htw, ← hdw, ← hin, ← hpm, ← hfw]
    rfl
  rw [heq]
  refine hv.snoop (fun k hk => ?_) (fun hne hnil => ?_) hkeeps.postInvalidate hkeeps.postDowngrade
  · obtain ⟨t, ht, rfl⟩ := List.mem_map.1 hk
    exact saves_source ht
  · have hsaves : (h m).saves pkt ≠ [] := fun hsaves => hne (by rw [hsaves]; rfl)
    exact (saves_inService hsaves).2 (List.map_eq_nil_iff.1 hnil)

/-! ## Responses -/

/-- The deferred list needs a writable block where one of its targets does. -/
def Entry.Exact (e : Entry n) : Prop := e.wait.deferredWritable = e.wait.deferred.any Kind.wants

/-- Only requests of the CPU side are left. -/
structure Entry.Left (e : Entry n) : Prop where
  targets : ∀ t ∈ e.targets.list, t.source = .FromCPU
  deferred : ∀ t ∈ e.deferredTargets.list, t.source = .FromCPU

theorem exact_blind : Blind (Entry.Exact : Entry n → Prop) := by
  intro e
  unfold Entry.Exact
  rw [bare_wait]

theorem left_blind : Blind (Entry.Left : Entry n → Prop) := by
  intro e
  have hunmark : ∀ {ts : List (Target n)}, (∀ t ∈ ts.map Target.unmark, t.source = .FromCPU) ↔
      ∀ t ∈ ts, t.source = .FromCPU := List.forall_mem_map
  constructor
  · exact fun hl => ⟨hunmark.1 hl.targets, hunmark.1 hl.deferred⟩
  · exact fun hl => ⟨hunmark.2 hl.targets, hunmark.2 hl.deferred⟩

theorem populateFlags_wants (l : TargetList n) :
    l.populateFlags.needsWritable = (l.populateFlags.list.map Target.kind).any Kind.wants := by
  have hflag : l.populateFlags.needsWritable = l.list.any fun t => t.sets .needsWritable :=
    populateFlags_flag l .needsWritable
  rw [populateFlags_list, hflag, List.any_map]
  rfl

theorem Entry.Promoted.exact {f : Pkt n → Bool} (hp : e.Promoted e' f b) : e'.Exact := by
  rw [hp.eq]
  exact populateFlags_wants _

theorem Entry.Promoted.left {f : Pkt n → Bool} (hp : e.Promoted e' f b) (hl : e.Left) : e'.Left := by
  have hunmark : ∀ {ts : List (Target n)}, (∀ t ∈ ts, t.source = .FromCPU) →
      ∀ t ∈ ts.map Target.unmark, t.source = .FromCPU := fun hts => List.forall_mem_map.2 hts
  constructor
  · rw [hp.targets]
    refine hunmark fun t ht => ?_
    rcases List.mem_append.1 ht with ht | ht
    · exact hl.targets t ht
    · exact hl.deferred t ((List.takeWhile_sublist _).subset ht)
  · rw [hp.deferred]
    exact hunmark fun t ht => hl.deferred t ((List.dropWhile_sublist _).subset ht)

/-- What `promoteDeferredTargets` leaves deferred waits for a maintenance operation. -/
theorem promoteDeferredTargets_leads (hne : (promoteDeferredTargets e).2.wait.deferred ≠ []) :
    (promoteDeferredTargets e).2.wait.Leads := by
  obtain ⟨k, htargets, hdeferred, ⟨-, hhead⟩ | ⟨hnil, t, hone, hm⟩⟩ := promoteDeferredTargets_moves e
  · cases hl : e.deferredTargets.list.drop k with
    | nil =>
      rw [hl] at hdeferred
      refine absurd ?_ hne
      unfold Entry.wait
      rw [hdeferred]
      rfl
    | cons t ts =>
      refine ⟨t.kind, .inl ?_, hhead t (by rw [hl]; rfl)⟩
      unfold Entry.wait
      rw [hdeferred, hl]
      rfl
  · refine ⟨t.kind, .inr ?_, hm⟩
    unfold Entry.wait
    rw [htargets, hnil, hone]
    rfl

theorem not_empty_of_all (hne : e.all ≠ []) :
    ¬ (e.targets.list.isEmpty && e.deferredTargets.list.isEmpty) = true := by
  intro hempty
  rw [Bool.and_eq_true, List.isEmpty_iff, List.isEmpty_iff] at hempty
  exact hne (List.append_eq_nil_iff.2 hempty)

theorem promoteDeferredTargets_inService (e : Entry n) : (promoteDeferredTargets e).2.inService = e.inService := by
  unfold promoteDeferredTargets
  split
  · rfl
  · rfl

theorem idle_wait (hin : e.inService = false) : ({ e with inService := false } : Entry n).wait = e.wait := by
  unfold Entry.wait
  rw [hin]

theorem promoteDeferredTargets_wait (hne : e.all ≠ []) (hl : e.Left) :
    ({ (promoteDeferredTargets e).2 with inService := false } : Entry n).wait.Ok := by
  have hflags : (promoteDeferredTargets e).2.wait.targetsWritable =
      (promoteDeferredTargets e).2.wait.targets.any Kind.wants ∧ (promoteDeferredTargets e).2.Exact := by
    unfold promoteDeferredTargets
    rw [if_neg (not_empty_of_all hne)]
    exact ⟨populateFlags_wants _, populateFlags_wants _⟩
  obtain ⟨k, htargets, -, -⟩ := promoteDeferredTargets_moves e
  refine Wait.ok_waiting rfl hflags.1 hflags.2 (fun j hj => ?_) promoteDeferredTargets_leads
  obtain ⟨t, ht, rfl⟩ := List.mem_map.1 hj
  have hcpu : t.source = .FromCPU := by
    have hmem : t ∈ (promoteDeferredTargets e).2.targets.list := ht
    rw [htargets] at hmem
    rcases List.mem_append.1 hmem with ht | ht
    · exact hl.targets t ht
    · exact hl.deferred t (List.mem_of_mem_take ht)
  rw [show t.kind.source = t.source from rfl, hcpu]
  exact Source.noConfusion

theorem empty_wait (htargets : e.targets.list = []) (hdeferred : e.deferredTargets.list = []) (he : e.Exact) :
    ({ e with
      targets := e.targets.resetFlags, inService := false, allocated := false } : Entry n).wait.Ok := by
  have hnil : ({ e with targets := e.targets.resetFlags, inService := false, allocated := false } :
      Entry n).wait.targets = [] := List.map_eq_nil_iff.2 htargets
  refine Wait.ok_waiting rfl ?_ he (fun k hk => ?_) fun hne => ?_
  · rw [hnil]
    rfl
  · rw [hnil] at hk
    cases hk
  · exact absurd (List.map_eq_nil_iff.2 hdeferred) hne

theorem recvTimingResp_wait {r : Resp} (hv : (h m).wait.Ok) (hf : (h m).Fronted)
    (hok : recvTimingResp r m h = .ok h') : (h' m).wait.Ok := by
  obtain ⟨h2, ready, e, h3, -, hpromote, hextract, hservice, hrequeue⟩ := recvTimingResp_ok hok
  have h2e : (h2 m).Exact := promotions_rule exact_blind hv.deferredWritable
    (fun _ _ _ _ _ _ hp => hp.exact) hpromote
  obtain ⟨hstay, he⟩ := extractServiceableTargets_stay hextract
  have hleft : e.Left := by
    refine ⟨fun t ht => ?_, ?_⟩
    · rw [hstay] at ht
      split at ht
      · exact of_decide_eq_true (List.mem_filter.1 ht).2
      · cases ht
    · rw [he]
      exact (promotions_fronted hf hpromote).deferred
  have hexact : e.Exact := by
    rw [he]
    exact h2e
  have h3l : (h3 m).Left := service_rule left_blind (fun _ _ hl _ hp => hp.left hl) hservice
    (by rwa [Heap.set_same])
  have h3e : (h3 m).Exact := service_rule exact_blind (fun _ _ _ _ hp => hp.exact) hservice
    (by rwa [Heap.set_same])
  rcases requeue_entry hrequeue with ⟨hne, heq⟩ | ⟨htargets, hdeferred, heq⟩
  · rw [heq]
    exact promoteDeferredTargets_wait hne h3l
  · rw [heq]
    exact empty_wait htargets hdeferred h3e

theorem forceDeallocateTarget_wait (hv : (h m).wait.Ok) (hf : (h m).Fronted) (hin : (h m).inService = false)
    (hpf : ∀ t ∈ (h m).targets.list.head?, t.source = .FromPrefetcher)
    (hok : forceDeallocateTarget m h = .ok h') : (h' m).wait.Ok := by
  have hpop : (h m).popped.wait.Ok := by
    have hwait : (h m).popped.wait = { (h m).wait with targets := (h m).wait.targets.tail } := by
      unfold Entry.wait Entry.popped TargetList.withList
      rw [List.map_tail]
    rw [hwait]
    refine hv.pop hin fun k hk => ?_
    unfold Entry.wait at hk
    rw [List.head?_map] at hk
    obtain ⟨t, ht, rfl⟩ := Option.mem_map.1 hk
    exact hpf t ht
  obtain ⟨-, -, ⟨-, heq⟩ | ⟨hnil, hfull, heq⟩ | ⟨hall, heq⟩⟩ := forceDeallocateTarget_cases hok
  · rw [heq]
    exact hpop
  · have hleft : (h m).popped.Left := by
      refine ⟨fun t ht => ?_, hf.deferred⟩
      rw [hnil] at ht
      cases ht
    rw [heq, ← idle_wait ((promoteDeferredTargets_inService (h m).popped).trans hin)]
    exact promoteDeferredTargets_wait (fun hall => hfull (List.append_eq_nil_iff.1 hall).2) hleft
  · rw [heq]
    obtain ⟨htargets, hdeferred⟩ := List.append_eq_nil_iff.1 hall
    exact empty_wait htargets hdeferred hpop.deferredWritable

/-! ## MSHRs that are used have targets -/

def Entry.Full (e : Entry n) : Prop := e.allocated = true → e.targets.list ≠ []

theorem full_blind : Blind (Entry.Full : Entry n → Prop) := by
  intro e
  have hnil : e.targets.list.map Target.unmark = [] ↔ e.targets.list = [] := List.map_eq_nil_iff
  constructor
  · exact fun hf hall hno => hf hall (hnil.2 hno)
  · exact fun hf hall hno => hf hall (hnil.1 hno)

theorem push_full (e : Entry n) (t : Target n) : (e.push .targets t).Full := fun _ =>
  List.append_ne_nil_of_right_ne_nil _ (List.cons_ne_nil t [])

theorem allocate_full (hok : allocate m pkt a h = .ok h') : (h' m).Full :=
  (full_blind.of_set (allocate_bare hok).2.2).2 (push_full _ _)

theorem allocateTarget_full (hf : (h m).Full) (hok : allocateTarget m pkt a h = .ok h') : (h' m).Full := by
  obtain ⟨w, pkt', -, -, -, hbare⟩ := allocateTarget_bare hok
  refine (full_blind.of_set hbare).2 ?_
  cases w with
  | targets => exact push_full _ _
  | deferredTargets => exact (full_blind (h m)).2 hf

theorem markInService_full (hf : (h m).Full) (hok : markInService m b h = .ok h') : (h' m).Full :=
  (full_blind.of_set (markInService_bare hok)).2 ((full_blind (h m)).2 hf)

theorem handleSnoop_full {r : Heap n × Pkt n × Bool} (hf : (h m).Full)
    (hok : handleSnoop m pkt h = .ok r) : (r.1 m).Full := by
  obtain ⟨e', hbare, ⟨l, hup, htargets⟩, -, hallocated⟩ := handleSnoop_bare hok
  refine (full_blind.of_set hbare).2 fun hall hnil => ?_
  rw [htargets, pushAll_list] at hnil
  have hkinds := hup.kinds
  rw [(List.append_eq_nil_iff.1 hnil).1] at hkinds
  refine hf (hallocated.symm.trans hall) ?_
  exact List.map_eq_nil_iff.1 (List.map_eq_nil_iff.1 hkinds.symm)

theorem promoteDeferredTargets_some (hne : e.all ≠ []) : (promoteDeferredTargets e).2.targets.list ≠ [] := by
  have hnot := not_empty_of_all hne
  unfold promoteDeferredTargets
  rw [if_neg hnot]
  dsimp only
  rw [populateFlags_list]
  intro hnil
  obtain ⟨htargets, htake⟩ := List.append_eq_nil_iff.1 hnil
  rw [htargets] at hnot htake
  have hdeferred : e.deferredTargets.list ≠ [] := by
    intro hdeferred
    rw [hdeferred] at hnot
    exact hnot rfl
  rcases List.take_eq_nil_iff.1 htake with hzero | hdeferred'
  · -- the first deferred target is taken in any case
    split at hzero
    · cases hzero
    · rename_i hpos
      exact hpos hzero
  · exact hdeferred hdeferred'

theorem recvTimingResp_full {r : Resp} (hok : recvTimingResp r m h = .ok h') : (h' m).Full := by
  obtain ⟨h2, ready, e, h3, -, -, -, -, hrequeue⟩ := recvTimingResp_ok hok
  rcases requeue_entry hrequeue with ⟨hne, heq⟩ | ⟨-, -, heq⟩
  · rw [heq]
    exact fun _ => promoteDeferredTargets_some hne
  · rw [heq]
    exact fun hall => Bool.noConfusion hall

theorem forceDeallocateTarget_full (hok : forceDeallocateTarget m h = .ok h') : (h' m).Full := by
  obtain ⟨-, -, ⟨hsome, heq⟩ | ⟨-, hdeferred, heq⟩ | ⟨-, heq⟩⟩ := forceDeallocateTarget_cases hok
  · rw [heq]
    exact fun _ => hsome
  · rw [heq]
    exact fun _ => promoteDeferredTargets_some fun hall => hdeferred (List.append_eq_nil_iff.1 hall).2
  · rw [heq]
    exact fun hall => Bool.noConfusion hall

theorem new_full : (Entry.new : Entry n).Full := fun hall => Bool.noConfusion hall

theorem new_wait : (Entry.new : Entry n).wait.Ok :=
  Wait.ok_waiting rfl rfl rfl (fun _ hk => absurd hk List.not_mem_nil) fun hne => absurd rfl hne

end Alpine.Mem.MSHR
