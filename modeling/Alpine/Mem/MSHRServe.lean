import Alpine.Lib.ClassFifo
import Alpine.Lib.Run
import Alpine.Mem.MSHRBare

/-!
# The order in which an MSHR serves its targets

The MSHRs of a memory system with what was added to each and what `extractServiceableTargets` has handed
out.  Every call may come at any time; a run ends where an assertion fails.

* `Serves` — a target that is handed out is one that was added, its packet as it was or with its upgrade
  replaced.
* `Entry.Shifts` — promotion moves targets between the lists and does not change their order.
* `served_in_order` — for each source the targets that were handed out, and after them those on the two
  lists, are the ones that were added, in order; every response hands out at least one; an MSHR is free
  exactly when both lists are empty.
-/

namespace Alpine.Mem.MSHR

open Alpine Alpine.Mem Alpine.Run Alpine.ClassFifo

variable {n : Nat}

/-- Both lists, in the order in which they are served. -/
def Entry.all (e : Entry n) : List (Target n) := e.targets.list ++ e.deferredTargets.list

/-- The target `t` is the target `a` that was added. -/
structure Serves (a t : Target n) : Prop where
  source : t.source = a.source
  allocOnFill : t.allocOnFill = a.allocOnFill
  pkt : t.pkt = a.pkt ∨ t.pkt = replaceUpgrade a.pkt

theorem Serves.key (a t : Target n) (h : Serves a t) : t.source = a.source := h.source

theorem replaceUpgrade_idem (pkt : Pkt n) : replaceUpgrade (replaceUpgrade pkt) = replaceUpgrade pkt := by
  obtain ⟨cmd⟩ := pkt
  unfold replaceUpgrade
  congr 1
  cases cmd <;> rfl

theorem Serves.refl (t : Target n) : Serves t t := ⟨rfl, rfl, .inl rfl⟩

theorem Serves.unmark (t : Target n) : Serves t t.unmark := ⟨rfl, rfl, .inl rfl⟩

theorem Serves.mark (t : Target n) : Serves t.unmark t := ⟨rfl, rfl, .inl rfl⟩

theorem Serves.trans (a b c : Target n) (hab : Serves a b) (hbc : Serves b c) : Serves a c := by
  refine ⟨hbc.source.trans hab.source, hbc.allocOnFill.trans hab.allocOnFill, ?_⟩
  rcases hab.pkt with hab | hab <;> rcases hbc.pkt with hbc | hbc
  · exact .inl (hbc.trans hab)
  · exact .inr (hbc.trans (congrArg replaceUpgrade hab))
  · exact .inr (hbc.trans hab)
  · exact .inr (hbc.trans ((congrArg replaceUpgrade hab).trans (replaceUpgrade_idem a.pkt)))

variable (ts : List (Target n))

theorem serves_unmark : List.Forall₂ Serves ts (ts.map Target.unmark) :=
  List.forall₂_map_right_iff.2 (List.forall₂_same.2 fun t _ => Serves.unmark t)

theorem serves_mark : List.Forall₂ Serves (ts.map Target.unmark) ts :=
  List.forall₂_map_left_iff.2 (List.forall₂_same.2 fun t _ => Serves.mark t)

theorem serves_refl : List.Forall₂ Serves ts ts :=
  List.forall₂_same.2 fun t _ => Serves.refl t

/-- Lists that are equal but for marks. -/
theorem serves_of_bare {ts us : List (Target n)} (h : us.map Target.unmark = ts.map Target.unmark) :
    List.Forall₂ Serves ts us :=
  ClassFifo.forall₂_trans Serves.trans (h ▸ serves_unmark ts) (serves_mark us)

theorem TargetList.Upgraded.serves {l l' : TargetList n} (h : l.Upgraded l') :
    List.Forall₂ Serves l.list l'.list := by
  rcases h with rfl | rfl
  · exact serves_refl _
  · unfold TargetList.replaceUpgrades
    split
    · exact List.forall₂_map_right_iff.2 (List.forall₂_same.2 fun t _ => ⟨rfl, rfl, .inr rfl⟩)
    · exact serves_refl _

/-! ## Promotion -/

/-- Deferred targets may have moved to the end of the regular list. -/
structure Entry.Shifts (e e' : Entry n) : Prop where
  all : e'.all.map Target.unmark = e.all.map Target.unmark
  deferred : e'.deferredTargets.list.map Target.unmark <:+ e.deferredTargets.list.map Target.unmark
  allocated : e'.allocated = e.allocated

theorem Entry.Shifts.refl (e : Entry n) : e.Shifts e := ⟨rfl, List.suffix_refl _, rfl⟩

theorem Entry.Shifts.trans {e e' e'' : Entry n} (h : e.Shifts e') (h' : e'.Shifts e'') : e.Shifts e'' :=
  ⟨h'.all.trans h.all, h'.deferred.trans h.deferred, h'.allocated.trans h.allocated⟩

theorem Entry.bare_all (e : Entry n) : e.bare.all = e.all.map Target.unmark := List.map_append.symm

theorem Entry.Shifts.of_bare {e e' : Entry n} (h : e'.bare = e.bare) : e.Shifts e' := by
  have halloc : e'.bare.allocated = e.bare.allocated := by rw [h]
  refine ⟨?_, ?_, halloc⟩
  · rw [← Entry.bare_all, ← Entry.bare_all, h]
  · have hdeferred : e'.bare.deferredTargets.list = e.bare.deferredTargets.list := by rw [h]
    rw [show e'.deferredTargets.list.map Target.unmark = e.deferredTargets.list.map Target.unmark from
      hdeferred]

theorem map_unmark_idem : (ts.map Target.unmark).map Target.unmark = ts.map Target.unmark := by
  rw [List.map_map]
  rfl

theorem Entry.promote_shifts (e : Entry n) (k : ℕ) : e.Shifts (e.promote k) := by
  refine ⟨?_, ?_, rfl⟩
  · unfold Entry.all Entry.promote
    simp [TargetList.withList, List.append_assoc]
  · unfold Entry.promote
    rw [populateFlags_list]
    exact (List.drop_suffix k _).map Target.unmark

theorem Entry.Promoted.shifts {e e1 : Entry n} {f : Pkt n → Bool} {b : Bool} (h : e.Promoted e1 f b) :
    e.Shifts e1 := by
  have hbare : e.Shifts (e.bare.setList .targets
      { e.bare.targets with needsWritable := e.bare.targets.needsWritable || b }) := by
    refine ⟨?_, ?_, rfl⟩
    · show e.bare.all.map Target.unmark = _
      rw [Entry.bare_all, map_unmark_idem]
    · show (e.deferredTargets.list.map Target.unmark).map Target.unmark <:+ _
      rw [map_unmark_idem]
  rw [h.eq]
  exact hbare.trans (Entry.promote_shifts _ _)

/-- Every MSHR has shifted. -/
def Heap.Shifts (h h' : Heap n) : Prop := ∀ x, (h x).Shifts (h' x)

theorem Heap.Shifts.refl (h : Heap n) : h.Shifts h := fun x => .refl (h x)

theorem Heap.Shifts.trans {h h' h'' : Heap n} (hs : h.Shifts h') (hs' : h'.Shifts h'') : h.Shifts h'' :=
  fun x => (hs x).trans (hs' x)

/-- One MSHR has shifted, and the others are the same but for marks. -/
theorem Heap.Shifts.of_set {h h' : Heap n} {m : Fin n} {e : Entry n} (hbare : h'.bare = h.bare.set m e)
    (he : (h m).Shifts e) : h.Shifts h' := by
  intro x
  by_cases hx : x = m
  · subst hx
    have hm : (h' x).bare = e := by rw [← Heap.bare_apply, hbare, Heap.set_same]
    refine he.trans ⟨?_, ?_, ?_⟩
    · rw [← hm, Entry.bare_all, map_unmark_idem]
    · rw [← hm]
      show _ <:+ ((h' x).deferredTargets.list.map Target.unmark).map Target.unmark
      rw [map_unmark_idem]
    · rw [← hm]
      rfl
  · refine .of_bare ?_
    rw [← Heap.bare_apply, hbare, Heap.set_ne _ _ hx, Heap.bare_apply]

theorem promoteReadable_shifts {h h' : Heap n} {m : Fin n} (hok : promoteReadable m h = .ok h') : h.Shifts h' := by
  rcases promoteReadable_bare hok with ⟨-, rfl⟩ | ⟨e, hbare, -, hpromoted⟩
  · exact .refl h'
  · exact .of_set hbare hpromoted.shifts

theorem promoteWritable_shifts {h h' : Heap n} {m : Fin n} (hok : promoteWritable m h = .ok h') : h.Shifts h' := by
  rcases promoteWritable_bare hok with ⟨-, rfl⟩ | ⟨e, hbare, -, hpromoted⟩
  · exact .refl h'
  · exact .of_set hbare hpromoted.shifts

theorem serviceTarget_shifts {r : Resp} {h h' : Heap n} {m : Fin n} {t : Target n}
    (hok : serviceTarget r m h t = .ok h') : h.Shifts h' := by
  unfold serviceTarget at hok
  split at hok
  · split at hok
    · cases hok
      exact .refl h
    · split at hok
      · obtain ⟨_, -, hok⟩ := bind_ok_iff.1 hok
        exact promoteWritable_shifts hok
      · cases hok
        exact .refl h
  · obtain ⟨_, -, hok⟩ := bind_ok_iff.1 hok
    cases hok
    exact .refl h
  · obtain ⟨_, -, hok⟩ := bind_ok_iff.1 hok
    cases hok
    exact .refl h

theorem service_shifts {r : Resp} {m : Fin n} : ∀ {ts : List (Target n)} {h h' : Heap n},
    ts.foldlM (serviceTarget r m) h = .ok h' → h.Shifts h'
  | [], h, h', hok => by
    cases hok
    exact .refl h
  | t :: ts, h, h', hok => by
    rw [List.foldlM_cons] at hok
    obtain ⟨h1, hfirst, hrest⟩ := bind_ok_iff.1 hok
    exact (serviceTarget_shifts hfirst).trans (service_shifts hrest)

/-! ## Extraction -/

/-- The targets behind the first that stay are the requests; the snoops are handed out. -/
theorem takeSnoops_class : ∀ {ts ready stay : List (Target n)}, takeSnoops ts = .ok (ready, stay) →
    ∀ s, class_ Target.source s (ready ++ stay) = class_ Target.source s ts
  | [], ready, stay, hok, s => by
    cases hok
    rfl
  | t :: ts, ready, stay, hok, s => by
    unfold takeSnoops at hok
    obtain ⟨⟨ready', stay'⟩, htake, hok⟩ := bind_ok_iff.1 hok
    have ih := takeSnoops_class htake s
    dsimp only at hok
    split at hok
    · rename_i hcpu
      cases hok
      have hnone : ∀ t ∈ ready, t.source ≠ .FromCPU := fun u hu => by
        rw [((takeSnoops_outcome ts).of_ok htake).2 u hu]
        exact Source.noConfusion
      rw [class_append] at ih ⊢
      rw [class_cons s t stay', class_cons s t ts, ← ih]
      by_cases hs : s = .FromCPU
      · rw [class_eq_nil (k := s) (l := ready) fun u hu => hs ▸ hnone u hu]
        rfl
      · rw [class_eq_nil (k := s) (l := [t]) fun u hu => by
          rw [List.mem_singleton.1 hu, hcpu]
          exact fun hc => hs hc.symm]
        rfl
    · obtain ⟨_, -, hok⟩ := bind_ok_iff.1 hok
      cases hok
      show class_ Target.source s (t :: (ready' ++ stay)) = _
      rw [class_cons s t (ready' ++ stay), class_cons s t ts, ih]

/-- At least one target is handed out, and of each source the first ones. -/
theorem extractServiceableTargets_class {cmd : MemCmd} {e e' : Entry n} {ready : TargetList n}
    (hok : extractServiceableTargets cmd e = .ok (ready, e')) :
    (∀ s, class_ Target.source s (ready.list ++ e'.targets.list) = class_ Target.source s e.targets.list) ∧
      (e.targets.list ≠ [] → ready.list ≠ []) ∧
      e'.deferredTargets = e.deferredTargets ∧ e'.allocated = e.allocated := by
  unfold extractServiceableTargets at hok
  split at hok
  · cases hl : e.targets.list with
    | nil =>
      rw [hl] at hok
      cases hok
    | cons t ts =>
      rw [hl] at hok
      obtain ⟨_, -, hok⟩ := bind_ok_iff.1 hok
      obtain ⟨⟨ready', stay⟩, htake, hok⟩ := bind_ok_iff.1 hok
      cases hok
      refine ⟨fun s => ?_, fun _ => ?_, rfl, rfl⟩
      · rw [populateFlags_list, populateFlags_list]
        show class_ Target.source s (t :: (ready' ++ stay)) = _
        rw [class_cons s t (ready' ++ stay), class_cons s t ts, takeSnoops_class htake s]
      · rw [populateFlags_list]
        exact List.cons_ne_nil _ _
  · cases hok
    refine ⟨fun s => ?_, fun hne => hne, rfl, rfl⟩
    rw [populateFlags_list]
    show class_ Target.source s (e.targets.list ++ []) = _
    rw [List.append_nil]

/-! ## The system -/

/-- The MSHRs, the targets added to each, and those handed out by each response. -/
structure Logged (n : Nat) where
  heap : Heap n
  added : Fin n → List (Target n)
  handed : Fin n → List (List (Target n))

def Logged.init : Logged n := ⟨fun _ => .new, fun _ => [], fun _ => []⟩

/-- A call has added targets to an MSHR. -/
def Logged.add (σ : Logged n) (m : Fin n) (h : Heap n) (ts : List (Target n)) : Logged n :=
  { σ with heap := h, added := Function.update σ.added m (σ.added m ++ ts) }

/-- The promotions of `recvTimingResp` before the targets are serviced. -/
def promotions (r : Resp) (m : Fin n) (h : Heap n) : Except Failure (Heap n) := do
  let h1 ← (if r.blkValid && r.isClean && !r.isInvalidate then promoteReadable m h else .ok h)
  (if r.blkWritable && !r.reqInvalidate then promoteWritable m h1 else .ok h1)

/-- What `recvTimingResp` hands to the service loop. -/
def readyTargets (r : Resp) (m : Fin n) (h : Heap n) : Except Failure (List (Target n)) := do
  let h2 ← promotions r m h
  let (ready, _) ← extractServiceableTargets r.cmd (h2 m)
  return ready.list

inductive Op (n : Nat) where
  | allocate (m : Fin n) (pkt : Pkt n) (alloc_on_fill : Bool)
  | allocateTarget (m : Fin n) (pkt : Pkt n) (alloc_on_fill : Bool)
  | handleSnoop (m : Fin n) (pkt : Pkt n)
  | markInService (m : Fin n) (pending_modified_resp : Bool)
  | recvTimingResp (r : Resp) (m : Fin n)

/-- A call, with what it adds or hands out. -/
def Op.run (σ : Logged n) : Op n → Except Failure (Logged n)
  | .allocate m pkt a => do
    let h ← MSHR.allocate m pkt a σ.heap
    return σ.add m h [⟨pkt, if pkt.cmd = .HardPFReq then .FromPrefetcher else .FromCPU, false, a⟩]
  | .allocateTarget m pkt a => do
    let h ← MSHR.allocateTarget m pkt a σ.heap
    return σ.add m h [⟨pkt, .FromCPU, false, a⟩]
  | .handleSnoop m pkt => do
    let r ← MSHR.handleSnoop m pkt σ.heap
    return σ.add m r.1 ((σ.heap m).saves pkt)
  | .markInService m b => do
    let h ← MSHR.markInService m b σ.heap
    return σ.add m h []
  | .recvTimingResp r m => do
    let ready ← readyTargets r m σ.heap
    let h ← MSHR.recvTimingResp r m σ.heap
    return { σ with heap := h, handed := Function.update σ.handed m (σ.handed m ++ [ready]) }

def Op.step (σ : Logged n) (c : Op n) : Option (Logged n) := (c.run σ).toOption

/-! ## The invariant -/

/-- What was added is what was handed out and, behind that, what is on the lists. -/
structure Ordered (e : Entry n) (added : List (Target n)) (handed : List (List (Target n))) : Prop where
  order : InOrder Target.source Serves added (handed.flatten ++ e.all)
  deferred : ∀ t ∈ e.deferredTargets.list, t.source = .FromCPU
  served : ∀ ready ∈ handed, ready ≠ []

/-- And the MSHR is free when there are no targets. -/
structure Fair (e : Entry n) (added : List (Target n)) (handed : List (List (Target n))) : Prop extends
    Ordered e added handed where
  allocated : e.allocated = false ↔ e.all = []

variable {h h' : Heap n} {m : Fin n} {e e' : Entry n} {added : List (Target n)}
  {handed : List (List (Target n))}

theorem Ordered.replace (hf : Ordered e added handed) {l d : List (Target n)} {new : List (Target n)}
    (hl : List.Forall₂ Serves e.targets.list l) (hd : List.Forall₂ Serves e.deferredTargets.list d)
    (ts : List (Target n)) (hnew : List.Forall₂ Serves new ts) (hother : d = [] ∨ ∀ t ∈ ts, t.source ≠ .FromCPU) :
    InOrder Target.source Serves (added ++ new) (handed.flatten ++ ((l ++ ts) ++ d)) ∧
      ∀ t ∈ d, t.source = .FromCPU := by
  have hcpu : ∀ t ∈ d, t.source = .FromCPU := by
    intro t ht
    obtain ⟨u, hu, hut⟩ := exists_of_forall₂ hd t ht
    exact hut.source.trans (hf.deferred u hu)
  refine ⟨?_, hcpu⟩
  have hout : InOrder Target.source Serves added ((handed.flatten ++ l) ++ d) := by
    refine hf.order.trans Serves.key Serves.trans ?_
    rw [List.append_assoc]
    exact List.rel_append (serves_refl _) (List.rel_append hl hd)
  rw [List.append_assoc l, ← List.append_assoc handed.flatten]
  refine hout.insert Serves.key hnew fun t ht u hu => ?_
  rcases hother with hnil | hsnoop
  · rw [hnil] at hu
    cases hu
  · rw [hcpu u hu]
    exact hsnoop t ht

/-- Only marks, the state and the order between the lists have changed. -/
theorem Ordered.shift (hf : Ordered e added handed) (hs : e.Shifts e') : Ordered e' added handed := by
  refine ⟨?_, ?_, hf.served⟩
  · refine hf.order.trans Serves.key Serves.trans ?_
    exact List.rel_append (serves_refl _) (serves_of_bare hs.all)
  · intro t ht
    have hmem : t.unmark ∈ e.deferredTargets.list.map Target.unmark :=
      hs.deferred.subset (List.mem_map_of_mem ht)
    obtain ⟨u, hu, heq⟩ := List.mem_map.1 hmem
    have hsource : u.unmark.source = t.unmark.source := by rw [heq]
    exact hsource.symm.trans (hf.deferred u hu)

theorem Entry.Shifts.nil_iff (hs : e.Shifts e') : e'.all = [] ↔ e.all = [] := by
  rw [← List.map_eq_nil_iff (f := Target.unmark), hs.all, List.map_eq_nil_iff]

theorem Entry.Shifts.targets_ne_nil (hs : e.Shifts e') (hne : e.targets.list ≠ []) : e'.targets.list ≠ [] := by
  have hall := congrArg List.length hs.all
  have hdeferred := hs.deferred.length_le
  have hpos := List.length_pos_iff.2 hne
  unfold Entry.all at hall
  simp only [List.length_map, List.length_append] at hall hdeferred
  exact List.length_pos_iff.1 (by omega)

theorem Fair.shift (hf : Fair e added handed) (hs : e.Shifts e') : Fair e' added handed := by
  refine ⟨hf.toOrdered.shift hs, ?_⟩
  rw [hs.allocated, hs.nil_iff]
  exact hf.allocated

theorem Entry.Shifts.erase (e : Entry n) : e.bare.Shifts e := by
  refine ⟨?_, ?_, rfl⟩
  · rw [Entry.bare_all, map_unmark_idem]
  · show _ <:+ (e.deferredTargets.list.map Target.unmark).map Target.unmark
    rw [map_unmark_idem]

/-- One MSHR has changed: what is to be shown of it, and that nothing is to be shown of the others. -/
theorem fair_set (hbare : h'.bare = h.bare.set m e') {added' : Fin n → List (Target n)}
    {handed' : Fin n → List (List (Target n))} (hothers : ∀ x, x ≠ m → Fair (h x) (added' x) (handed' x))
    (hm : Fair e' (added' m) (handed' m)) (x : Fin n) : Fair (h' x) (added' x) (handed' x) := by
  by_cases hx : x = m
  · subst hx
    have he : (h' x).bare = e' := by rw [← Heap.bare_apply, hbare, Heap.set_same]
    exact (he ▸ hm).shift (Entry.Shifts.erase (h' x))
  · refine (hothers x hx).shift (.of_bare ?_)
    rw [← Heap.bare_apply, hbare, Heap.set_ne _ _ hx, Heap.bare_apply]

theorem pushAll_list : ∀ l : TargetList n, (l.pushAll ts).list = l.list ++ ts := by
  induction ts with
  | nil => exact fun l => (List.append_nil l.list).symm
  | cons t ts ih =>
    intro l
    show ((l.push t).pushAll ts).list = _
    rw [ih, show (l.push t).list = l.list ++ [t] from rfl, List.append_assoc]
    rfl

theorem saves_source {pkt : Pkt n} {t : Target n} (ht : t ∈ e.saves pkt) : t.source = .FromSnoop := by
  unfold Entry.saves at ht
  split at ht
  · cases ht
  · split at ht
    · cases ht
    · split at ht
      · cases ht
      · split at ht
        · rw [List.mem_singleton.1 ht]
        · cases ht

theorem Fair.allocate {pkt : Pkt n} {a : Bool} (hf : Fair (h m) added handed)
    (hok : MSHR.allocate m pkt a h = .ok h') : ∃ e', h'.bare = h.bare.set m e' ∧
      Fair e' (added ++ [⟨pkt, if pkt.cmd = .HardPFReq then .FromPrefetcher else .FromCPU, false, a⟩]) handed := by
  obtain ⟨htargets, hdeferred, hbare⟩ := allocate_bare hok
  refine ⟨_, hbare, ?_⟩
  obtain ⟨horder, hcpu⟩ := hf.replace (serves_unmark _) (serves_unmark _)
    [⟨pkt, if pkt.cmd = .HardPFReq then .FromPrefetcher else .FromCPU, false, a⟩] (serves_refl _)
    (.inl (by rw [hdeferred]; rfl))
  refine ⟨⟨horder, hcpu, hf.served⟩, iff_of_false (fun hfree => (nomatch hfree)) fun hnil => ?_⟩
  have hlist := (List.append_eq_nil_iff.1 hnil).1
  exact List.cons_ne_nil _ _ (List.append_eq_nil_iff.1 hlist).2

theorem Fair.allocateTarget {pkt : Pkt n} {a : Bool} (hf : Fair (h m) added handed)
    (hok : MSHR.allocateTarget m pkt a h = .ok h') :
    ∃ e', h'.bare = h.bare.set m e' ∧ Fair e' (added ++ [⟨pkt, .FromCPU, false, a⟩]) handed := by
  obtain ⟨w, pkt', hpkt, hfront, hdeferred, hbare⟩ := allocateTarget_bare hok
  have hserves : List.Forall₂ Serves [(⟨pkt, .FromCPU, false, a⟩ : Target n)] [⟨pkt', .FromCPU, false, a⟩] :=
    .cons ⟨rfl, rfl, hpkt⟩ .nil
  have hallocated : (h m).allocated = true := by
    refine Bool.eq_true_of_not_eq_false fun hfree => hfront ?_
    exact (List.append_eq_nil_iff.1 (hf.allocated.1 hfree)).1
  refine ⟨_, hbare, ?_⟩
  cases w with
  | targets =>
    obtain ⟨horder, hcpu⟩ := hf.replace (serves_unmark _) (serves_unmark _) _ hserves
      (.inl (by rw [hdeferred rfl]; rfl))
    refine ⟨⟨horder, hcpu, hf.served⟩, iff_of_false (fun hfree => ?_) fun hnil => ?_⟩
    · exact Bool.false_ne_true (hfree.symm.trans hallocated)
    · have hlist := (List.append_eq_nil_iff.1 hnil).1
      exact List.cons_ne_nil _ _ (List.append_eq_nil_iff.1 hlist).2
  | deferredTargets =>
    refine ⟨⟨?_, ?_, hf.served⟩, iff_of_false (fun hfree => ?_) fun hnil => ?_⟩
    · have hold : InOrder Target.source Serves added ((handed.flatten ++ (h m).bare.all) ++ []) := by
        rw [List.append_nil, Entry.bare_all]
        exact hf.order.trans Serves.key Serves.trans (List.rel_append (serves_refl _) (serves_unmark _))
      have hnew := hold.insert Serves.key hserves fun t _ u hu => absurd hu List.not_mem_nil
      rw [List.append_nil, List.append_assoc] at hnew
      have hall : ((h m).bare.push .deferredTargets ⟨pkt', .FromCPU, false, a⟩).all =
          (h m).bare.all ++ [⟨pkt', .FromCPU, false, a⟩] := (List.append_assoc ..).symm
      rw [hall]
      exact hnew
    · intro t ht
      rcases List.mem_append.1 ht with ht | ht
      · obtain ⟨u, hu, rfl⟩ := List.mem_map.1 ht
        exact hf.deferred u hu
      · rw [List.mem_singleton.1 ht]
    · exact Bool.false_ne_true (hfree.symm.trans hallocated)
    · exact List.cons_ne_nil _ _ (List.append_eq_nil_iff.1 (List.append_eq_nil_iff.1 hnil).2).2

theorem Fair.handleSnoop {pkt : Pkt n} {r : Heap n × Pkt n × Bool} (hf : Fair (h m) added handed)
    (hok : MSHR.handleSnoop m pkt h = .ok r) :
    ∃ e', r.1.bare = h.bare.set m e' ∧ Fair e' (added ++ (h m).saves pkt) handed := by
  obtain ⟨e', hbare, ⟨l, hl, htargets⟩, hdeferred, hallocated⟩ := handleSnoop_bare hok
  have hls := ClassFifo.forall₂_trans Serves.trans (serves_unmark _) hl.serves
  have hds := ClassFifo.forall₂_trans Serves.trans (serves_unmark _) hdeferred.serves
  obtain ⟨horder, hcpu⟩ := hf.replace hls hds ((h m).saves pkt) (serves_refl _)
    (.inr fun t ht => by rw [saves_source ht]; exact Source.noConfusion)
  have hall : e'.all = (l.list ++ (h m).saves pkt) ++ e'.deferredTargets.list := by
    unfold Entry.all
    rw [htargets, pushAll_list]
  refine ⟨e', hbare, ⟨hall ▸ horder, hcpu, hf.served⟩, ?_⟩
  rw [hallocated, hf.allocated]
  constructor
  · intro hnil
    obtain ⟨ht, hd⟩ := List.append_eq_nil_iff.1 hnil
    have hsaves : (h m).saves pkt = [] := by
      unfold Entry.saves
      rw [ht]
      split
      · rfl
      · rfl
    rw [ht] at hls
    rw [hd] at hds
    rw [hall, hsaves, List.forall₂_nil_left_iff.1 hls, List.forall₂_nil_left_iff.1 hds]
    rfl
  · intro hnil
    rw [hall] at hnil
    obtain ⟨hlist, hd⟩ := List.append_eq_nil_iff.1 hnil
    rw [(List.append_eq_nil_iff.1 hlist).1] at hls
    rw [hd] at hds
    unfold Entry.all
    rw [List.forall₂_nil_right_iff.1 hls, List.forall₂_nil_right_iff.1 hds]
    rfl

theorem markInService_shifts {b : Bool} (hok : MSHR.markInService m b h = .ok h') : h.Shifts h' := by
  refine .of_set (markInService_bare hok) ⟨?_, ?_, rfl⟩
  · show (h m).bare.all.map Target.unmark = _
    rw [Entry.bare_all, map_unmark_idem]
  · show ((h m).deferredTargets.list.map Target.unmark).map Target.unmark <:+ _
    rw [map_unmark_idem]

/-! ## Responses -/

theorem promotions_shifts {r : Resp} (hok : promotions r m h = .ok h') : h.Shifts h' := by
  unfold promotions at hok
  obtain ⟨h1, hreadable, hwritable⟩ := bind_ok_iff.1 hok
  have h1shifts : h.Shifts h1 := by
    split at hreadable
    · exact promoteReadable_shifts hreadable
    · cases hreadable
      exact .refl h
  split at hwritable
  · exact h1shifts.trans (promoteWritable_shifts hwritable)
  · cases hwritable
    exact h1shifts

theorem promoteDeferredTargets_shifts (e : Entry n) :
    e.Shifts (promoteDeferredTargets e).2 ∧ ((promoteDeferredTargets e).1 = false ↔ e.all = []) := by
  have hempty : (e.targets.list.isEmpty && e.deferredTargets.list.isEmpty) = true ↔ e.all = [] := by
    unfold Entry.all
    rw [Bool.and_eq_true, List.isEmpty_iff, List.isEmpty_iff, List.append_eq_nil_iff]
  unfold promoteDeferredTargets
  split
  · rename_i hnil
    exact ⟨.refl e, iff_of_true rfl (hempty.1 hnil)⟩
  · rename_i hnil
    refine ⟨⟨?_, ?_, rfl⟩, iff_of_false (fun hfalse => (nomatch hfalse)) fun hall => hnil (hempty.2 hall)⟩
    · unfold Entry.all
      simp [List.append_assoc]
    · rw [populateFlags_list]
      exact (List.drop_suffix _ _).map Target.unmark

/-- The MSHR goes back to those that are to be sent, or is free. -/
theorem requeue_fair (hm : Ordered (h m) added handed) (hallocated : (h m).allocated = true)
    (hok : requeue m h = .ok h') : Fair (h' m) added handed ∧ ∀ x, x ≠ m → h' x = h x := by
  obtain ⟨hshifts, hnil⟩ := promoteDeferredTargets_shifts (h m)
  unfold requeue at hok
  generalize promoteDeferredTargets (h m) = q at hshifts hnil hok
  obtain ⟨promoted, e⟩ := q
  obtain ⟨e1, he1, hok⟩ := bind_ok_iff.1 hok
  cases hok
  refine ⟨?_, fun x hx => Function.update_of_ne hx ..⟩
  rw [Function.update_self]
  have he := hm.shift hshifts
  cases promoted with
  | true =>
    rw [if_pos rfl] at he1
    obtain ⟨_, -, he1⟩ := bind_ok_iff.1 he1
    cases he1
    refine ⟨⟨he.order, he.deferred, he.served⟩, iff_of_false (fun hfree => ?_) fun hall => ?_⟩
    · exact Bool.false_ne_true (hfree.symm.trans (hshifts.allocated.trans hallocated))
    · exact Bool.noConfusion (hnil.2 (hshifts.nil_iff.1 hall))
  | false =>
    rw [if_neg Bool.false_ne_true] at he1
    obtain ⟨_, -, he1⟩ := bind_ok_iff.1 he1
    obtain ⟨_, -, he1⟩ := bind_ok_iff.1 he1
    cases he1
    exact ⟨⟨he.order, he.deferred, he.served⟩, iff_of_true rfl (hshifts.nil_iff.2 (hnil.1 rfl))⟩

/-- `recvTimingResp` in four parts. -/
theorem recvTimingResp_ok {r : Resp} (hok : recvTimingResp r m h = .ok h') :
    ∃ h2 ready e h3, (h m).targets.list ≠ [] ∧ promotions r m h = .ok h2 ∧
      extractServiceableTargets r.cmd (h2 m) = .ok (ready, e) ∧
      ready.list.foldlM (serviceTarget r m) (h2.set m e) = .ok h3 ∧ requeue m h3 = .ok h' := by
  unfold recvTimingResp at hok
  obtain ⟨_, hne, hok⟩ := bind_ok_iff.1 hok
  obtain ⟨h1, hreadable, hok⟩ := bind_ok_iff.1 hok
  obtain ⟨h2, hwritable, hok⟩ := bind_ok_iff.1 hok
  obtain ⟨h3, hservice, hok⟩ := bind_ok_iff.1 hok
  unfold serviceMSHRTargets at hservice
  obtain ⟨⟨ready, e⟩, hextract, hservice⟩ := bind_ok_iff.1 hservice
  refine ⟨h2, ready, e, h3, fun hnil => ?_, bind_ok_iff.2 ⟨h1, hreadable, hwritable⟩, hextract, hservice, hok⟩
  have hfull := check_ok hne
  rw [hnil] at hfull
  cases hfull

theorem Fair.recvTimingResp {r : Resp} {ready : List (Target n)} (hf : Fair (h m) added handed)
    (hready : readyTargets r m h = .ok ready) (hok : MSHR.recvTimingResp r m h = .ok h') :
    Fair (h' m) added (handed ++ [ready]) ∧ ∀ x, x ≠ m → (h x).Shifts (h' x) := by
  obtain ⟨h2, l, e, h3, hne, hpromote, hextract, hservice, hrequeue⟩ := recvTimingResp_ok hok
  obtain rfl : l.list = ready := by
    unfold readyTargets at hready
    obtain ⟨h₂', hpromote', hready⟩ := bind_ok_iff.1 hready
    cases hpromote.symm.trans hpromote'
    obtain ⟨⟨l', e'⟩, hextract', hready⟩ := bind_ok_iff.1 hready
    cases hextract.symm.trans hextract'
    cases hready
    rfl
  have h2shifts := promotions_shifts hpromote
  have h3shifts := service_shifts hservice
  obtain ⟨hclass, hsome, hdeferred, hallocated⟩ := extractServiceableTargets_class hextract
  have he2 := hf.toOrdered.shift (h2shifts m)
  have hne2 : (h2 m).targets.list ≠ [] := (h2shifts m).targets_ne_nil hne
  have he : Ordered e added (handed ++ [l.list]) := by
    refine ⟨he2.order.reorder fun s => ?_, hdeferred ▸ he2.deferred, fun ts hts => ?_⟩
    · unfold Entry.all
      rw [List.flatten_append, hdeferred]
      simp only [List.flatten_cons, List.flatten_nil, List.append_nil, List.append_assoc, class_append]
      rw [← List.append_assoc (class_ Target.source s l.list), ← class_append, hclass]
    · rcases List.mem_append.1 hts with hts | hts
      · exact hf.served ts hts
      · rw [List.mem_singleton.1 hts]
        exact hsome hne2
  have hm : (h2.set m e).Shifts h3 := h3shifts
  have he3 : Ordered (h3 m) added (handed ++ [l.list]) := he.shift (Heap.set_same h2 m e ▸ hm m)
  have halloc3 : (h3 m).allocated = true := by
    have he3allocated := (hm m).allocated
    rw [Heap.set_same] at he3allocated
    rw [he3allocated, hallocated, (h2shifts m).allocated]
    refine Bool.eq_true_of_not_eq_false fun hfree => hne ?_
    exact (List.append_eq_nil_iff.1 (hf.allocated.1 hfree)).1
  obtain ⟨hfair, hothers⟩ := requeue_fair he3 halloc3 hrequeue
  refine ⟨hfair, fun x hx => ?_⟩
  rw [hothers x hx]
  exact (h2shifts x).trans (Heap.set_ne h2 e hx ▸ hm x)

/-! ## Runs -/

def Logged.Fair (σ : Logged n) : Prop := ∀ x, MSHR.Fair (σ.heap x) (σ.added x) (σ.handed x)

/-- A call that adds targets to one MSHR. -/
theorem Logged.Fair.add {σ : Logged n} (hf : σ.Fair) {ts : List (Target n)}
    (hbare : h'.bare = σ.heap.bare.set m e) (he : MSHR.Fair e (σ.added m ++ ts) (σ.handed m)) : (σ.add m h' ts).Fair := by
  have hadded : ∀ x, x ≠ m → (σ.add m h' ts).added x = σ.added x := fun x hx => Function.update_of_ne hx ..
  refine fun x => fair_set hbare (fun x hx => ?_) ?_ x
  · rw [hadded x hx]
    exact hf x
  · rw [show (σ.add m h' ts).added m = σ.added m ++ ts from Function.update_self ..]
    exact he

/-- **One step**: whatever the call, every MSHR serves its targets in order. -/
theorem Logged.Fair.step {σ σ' : Logged n} {c : Op n} (hf : σ.Fair) (hstep : c.step σ = some σ') : σ'.Fair := by
  have hrun : c.run σ = .ok σ' := toOption_eq_some.1 hstep
  cases c with
  | allocate m pkt a =>
    obtain ⟨h, hok, hrun⟩ := bind_ok_iff.1 hrun
    cases hrun
    obtain ⟨e, hbare, he⟩ := (hf m).allocate hok
    exact hf.add hbare he
  | allocateTarget m pkt a =>
    obtain ⟨h, hok, hrun⟩ := bind_ok_iff.1 hrun
    cases hrun
    obtain ⟨e, hbare, he⟩ := (hf m).allocateTarget hok
    exact hf.add hbare he
  | handleSnoop m pkt =>
    obtain ⟨r, hok, hrun⟩ := bind_ok_iff.1 hrun
    cases hrun
    obtain ⟨e, hbare, he⟩ := (hf m).handleSnoop hok
    exact hf.add hbare he
  | markInService m b =>
    obtain ⟨h, hok, hrun⟩ := bind_ok_iff.1 hrun
    cases hrun
    intro x
    have hadded : (σ.add m h []).added x = σ.added x := by
      unfold Logged.add
      rw [List.append_nil, Function.update_eq_self]
    rw [hadded]
    exact (hf x).shift (markInService_shifts hok x)
  | recvTimingResp r m =>
    obtain ⟨ready, hready, hrun⟩ := bind_ok_iff.1 hrun
    obtain ⟨h, hok, hrun⟩ := bind_ok_iff.1 hrun
    cases hrun
    obtain ⟨hm, hothers⟩ := (hf m).recvTimingResp hready hok
    intro x
    show MSHR.Fair (h x) (σ.added x) (Function.update σ.handed m (σ.handed m ++ [ready]) x)
    by_cases hx : x = m
    · subst hx
      rw [Function.update_self]
      exact hm
    · rw [Function.update_of_ne hx]
      exact (hf x).shift (hothers x hx)

theorem init_fair : (Logged.init : Logged n).Fair := fun _ =>
  ⟨⟨InOrder.nil, fun _ ht => (nomatch ht), fun _ hr => (nomatch hr)⟩, iff_of_true rfl rfl⟩

/-- **Service in order**, in every run: for each source, what was handed out and behind it what is on the two
lists are the targets that were added, in their order and each of them once; every response has handed out
a target; and an MSHR is free exactly when both lists are empty. -/
theorem served_in_order {σ : Logged n} (hrun : Reaches Op.step (fun _ _ => True) Logged.init σ) (m : Fin n) :
    (∀ s, List.Forall₂ Serves ((σ.added m).filter fun t => t.source = s)
      (((σ.handed m).flatten ++ ((σ.heap m).targets.list ++ (σ.heap m).deferredTargets.list)).filter
        fun t => t.source = s)) ∧
    (∀ ready ∈ σ.handed m, ready ≠ []) ∧
    ((σ.heap m).allocated = false ↔
      (σ.heap m).targets.list = [] ∧ (σ.heap m).deferredTargets.list = []) := by
  have hf : σ.Fair := hrun.inv init_fair fun _ _ _ hf _ hstep => hf.step hstep
  exact ⟨(hf m).order, (hf m).served, (hf m).allocated.trans List.append_eq_nil_iff⟩

/-- A read that misses is sent and answered; a second one has joined it. -/
def readPkt : Pkt 1 := { cmd := .ReadSharedReq, isRequest := rfl, mshr := none }

def readOps : List (Op 1) :=
  [.allocate 0 readPkt true, .markInService 0 false, .allocateTarget 0 readPkt true,
    .recvTimingResp ⟨.ReadRespWithInvalidate, false, true, false⟩ 0]

theorem served_in_order_reads : ∃ σ : Logged 1, Reaches Op.step (fun _ _ => True) Logged.init σ ∧
    ((σ.handed 0).map List.length = [1] ∧ (σ.heap 0).targets.list.length = 1) ∧
    (∀ s, List.Forall₂ Serves ((σ.added 0).filter fun t => t.source = s)
      (((σ.handed 0).flatten ++ ((σ.heap 0).targets.list ++ (σ.heap 0).deferredTargets.list)).filter
        fun t => t.source = s)) ∧
    (∀ ready ∈ σ.handed 0, ready ≠ []) ∧
    ((σ.heap 0).allocated = false ↔
      (σ.heap 0).targets.list = [] ∧ (σ.heap 0).deferredTargets.list = []) := by
  have h0 : Reaches Op.step (fun _ _ => True) (Logged.init : Logged 1) Logged.init := .refl
  have hfold : readOps.foldlM Op.step (Logged.init : Logged 1) = some _ := rfl
  have hrun := h0.foldlM (fun _ _ _ => trivial) hfold
  exact ⟨_, hrun, ⟨by decide, by decide⟩, served_in_order hrun 0⟩

end Alpine.Mem.MSHR
