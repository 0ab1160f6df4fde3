import Alpine.Mem.MSHRServe

/-!
# Entries through the operations of an MSHR

What the calls leave alone, and rules that carry a property of one MSHR through a response.

* `Heap.OnlyAt` — a call changes one MSHR and marks of the others.
* `Entry.Keeps` — a snoop may add to what a response has to apply, and changes nothing else of the state.
* `promoteReadable_rule`, `promoteWritable_rule`, `service_rule` — a property that does not see marks is
  shown for what a promotion moves.
* `Entry.Fronted` — deferred targets are requests, the first target is one, and snoops are on the list of an
  MSHR in service only; every call keeps it.
-/

namespace Alpine.Mem.MSHR

open Alpine Alpine.Mem

variable {n : Nat} {h h' h'' : Heap n} {m : Fin n} {e e' : Entry n}

/-- Whether the packet that is sent is that of the first target (`sendMSHRQueuePacket`). -/
def Heap.setForward (h : Heap n) (m : Fin n) (b : Bool) : Heap n := h.set m { h m with isForward := b }

/-! ## The other MSHRs -/

/-- Of the other MSHRs only marks have changed. -/
def Heap.OnlyAt (m : Fin n) (h h' : Heap n) : Prop := ∀ x, x ≠ m → (h' x).bare = (h x).bare

theorem Heap.OnlyAt.refl (m : Fin n) (h : Heap n) : h.OnlyAt m h := fun _ _ => rfl

theorem Heap.OnlyAt.trans (h1 : h.OnlyAt m h') (h2 : h'.OnlyAt m h'') : h.OnlyAt m h'' :=
  fun x hx => (h2 x hx).trans (h1 x hx)

theorem Heap.OnlyAt.of_bare (hbare : h'.bare = h.bare.set m e) : h.OnlyAt m h' := by
  intro x hx
  rw [← Heap.bare_apply, hbare, Heap.set_ne _ _ hx, Heap.bare_apply]

theorem Heap.OnlyAt.set (m : Fin n) (h : Heap n) (e : Entry n) : h.OnlyAt m (h.set m e) := by
  intro x hx
  rw [Heap.set_ne h e hx]

theorem promoteReadable_onlyAt (hok : promoteReadable m h = .ok h') : h.OnlyAt m h' := by
  rcases promoteReadable_bare hok with ⟨-, rfl⟩ | ⟨e, hbare, -⟩
  · exact .refl m h'
  · exact .of_bare hbare

theorem promoteWritable_onlyAt (hok : promoteWritable m h = .ok h') : h.OnlyAt m h' := by
  rcases promoteWritable_bare hok with ⟨-, rfl⟩ | ⟨e, hbare, -⟩
  · exact .refl m h'
  · exact .of_bare hbare

variable {r : Resp}

theorem promotions_onlyAt (hok : promotions r m h = .ok h') : h.OnlyAt m h' := by
  unfold promotions at hok
  obtain ⟨h1, hreadable, hwritable⟩ := bind_ok_iff.1 hok
  have hfirst : h.OnlyAt m h1 := by
    split at hreadable
    · exact promoteReadable_onlyAt hreadable
    · cases hreadable
      exact .refl m h
  split at hwritable
  · exact hfirst.trans (promoteWritable_onlyAt hwritable)
  · cases hwritable
    exact hfirst

/-- A target is serviced: either nothing happens to the MSHRs, or deferred targets are promoted. -/
theorem serviceTarget_cases {t : Target n} (hok : serviceTarget r m h t = .ok h') :
    h' = h ∨ (t.source = .FromCPU ∧ t.pkt.cmd = .WriteLineReq ∧ r.isError = false ∧
      promoteWritable m h = .ok h') := by
  unfold serviceTarget at hok
  split at hok
  · rename_i hcpu
    split at hok
    · cases hok
      exact .inl rfl
    · split at hok
      · rename_i hline
        obtain ⟨_, herror, hok⟩ := bind_ok_iff.1 hok
        exact .inr ⟨hcpu, hline, by simpa using check_ok herror, hok⟩
      · cases hok
        exact .inl rfl
  · obtain ⟨_, -, hok⟩ := bind_ok_iff.1 hok
    cases hok
    exact .inl rfl
  · obtain ⟨_, -, hok⟩ := bind_ok_iff.1 hok
    cases hok
    exact .inl rfl

theorem service_onlyAt : ∀ {ts : List (Target n)} {h h' : Heap n},
    ts.foldlM (serviceTarget r m) h = .ok h' → h.OnlyAt m h'
  | [], h, h', hok => by
    cases hok
    exact .refl m h
  | t :: ts, h, h', hok => by
    rw [List.foldlM_cons] at hok
    obtain ⟨h1, hfirst, hrest⟩ := bind_ok_iff.1 hok
    refine Heap.OnlyAt.trans ?_ (service_onlyAt hrest)
    rcases serviceTarget_cases hfirst with rfl | ⟨-, -, -, hpromote⟩
    · exact .refl m h1
    · exact promoteWritable_onlyAt hpromote

theorem requeue_onlyAt (hok : requeue m h = .ok h') : h.OnlyAt m h' := by
  unfold requeue at hok
  generalize promoteDeferredTargets (h m) = q at hok
  obtain ⟨promoted, e⟩ := q
  obtain ⟨e1, -, hok⟩ := bind_ok_iff.1 hok
  cases hok
  exact .set m h e1

theorem recvTimingResp_onlyAt (hok : recvTimingResp r m h = .ok h') : h.OnlyAt m h' := by
  obtain ⟨h2, ready, e, h3, -, hpromote, -, hservice, hrequeue⟩ := recvTimingResp_ok hok
  have hextract : h2.OnlyAt m (h2.set m e) := .set m h2 e
  exact (promotions_onlyAt hpromote).trans
    (hextract.trans ((service_onlyAt hservice).trans (requeue_onlyAt hrequeue)))

/-! ## Properties that do not see marks -/

/-- The property does not see marks. -/
def Blind (P : Entry n → Prop) : Prop := ∀ e, P e.bare ↔ P e

variable {P : Entry n → Prop}

theorem Blind.congr (hP : Blind P) (hbare : e'.bare = e.bare) : P e' ↔ P e := by
  rw [← hP e', hbare, hP e]

theorem Blind.of_set (hP : Blind P) (hbare : h'.bare = h.bare.set m e) : P (h' m) ↔ P e := by
  rw [← hP (h' m), ← Heap.bare_apply, hbare, Heap.set_same]

/-- What holds of every MSHR still does when it holds of the one that has changed. -/
theorem Blind.forall (hP : Blind P) (honly : h.OnlyAt m h') (hm : P (h' m)) (hold : ∀ x, P (h x)) :
    ∀ x, P (h' x) := by
  intro x
  by_cases hx : x = m
  · rw [hx]
    exact hm
  · exact (hP.congr (honly x hx)).2 (hold x)

theorem promoteReadable_rule (hP : Blind P) (hstay : P (h m))
    (hmove : ∀ e, (h m).promotesReadable = true → (h m).Promoted e Pkt.readable false → P e)
    (hok : promoteReadable m h = .ok h') : P (h' m) := by
  rcases promoteReadable_bare hok with ⟨-, rfl⟩ | ⟨e, hbare, hyes, hpromoted⟩
  · exact hstay
  · exact (hP.of_set hbare).2 (hmove e hyes hpromoted)

theorem promoteWritable_rule (hP : Blind P) (hstay : P (h m))
    (hmove : ∀ e, (h m).promotes = true → (h m).Promoted e Pkt.promotable true → P e)
    (hok : promoteWritable m h = .ok h') : P (h' m) := by
  rcases promoteWritable_bare hok with ⟨-, rfl⟩ | ⟨e, hbare, hyes, hpromoted⟩
  · exact hstay
  · exact (hP.of_set hbare).2 (hmove e hyes hpromoted)

/-- The service loop: the property is kept by a promotion. -/
theorem service_rule (hP : Blind P)
    (hstep : ∀ e e', P e → e.promotes = true → e.Promoted e' Pkt.promotable true → P e') :
    ∀ {ts : List (Target n)} {h h' : Heap n}, ts.foldlM (serviceTarget r m) h = .ok h' → P (h m) → P (h' m)
  | [], h, h', hok, hm => by
    cases hok
    exact hm
  | t :: ts, h, h', hok, hm => by
    rw [List.foldlM_cons] at hok
    obtain ⟨h1, hfirst, hrest⟩ := bind_ok_iff.1 hok
    refine service_rule hP hstep hrest ?_
    rcases serviceTarget_cases hfirst with rfl | ⟨-, -, -, hpromote⟩
    · exact hm
    · exact promoteWritable_rule hP hm (hstep (h m) · hm) hpromote

theorem promoteDeferredTargets_nil (htargets : e.targets.list = []) (hdeferred : e.deferredTargets.list = []) :
    promoteDeferredTargets e = (false, e) := by
  unfold promoteDeferredTargets
  rw [htargets, hdeferred]
  rfl

theorem promoteDeferredTargets_fst (hne : e.all ≠ []) : (promoteDeferredTargets e).1 = true := by
  refine Bool.eq_true_of_not_eq_false fun hfalse => hne ?_
  exact (promoteDeferredTargets_shifts e).2.1 hfalse

theorem requeue_entry (hok : requeue m h = .ok h') :
    ((h m).all ≠ [] ∧ h' m = { (promoteDeferredTargets (h m)).2 with inService := false }) ∨
      ((h m).targets.list = [] ∧ (h m).deferredTargets.list = [] ∧
        h' m = { h m with targets := (h m).targets.resetFlags, inService := false, allocated := false }) := by
  unfold requeue at hok
  by_cases hnil : (h m).all = []
  · obtain ⟨htargets, hdeferred⟩ := List.append_eq_nil_iff.1 hnil
    rw [promoteDeferredTargets_nil htargets hdeferred] at hok
    obtain ⟨e1, he1, hok⟩ := bind_ok_iff.1 hok
    unfold deallocate at he1
    obtain ⟨_, -, he1⟩ := bind_ok_iff.1 he1
    obtain ⟨_, -, he1⟩ := bind_ok_iff.1 he1
    cases he1
    cases hok
    exact .inr ⟨htargets, hdeferred, Function.update_self ..⟩
  · have hq := promoteDeferredTargets_fst hnil
    generalize promoteDeferredTargets (h m) = q at hok hq
    obtain ⟨promoted, e⟩ := q
    obtain rfl : promoted = true := hq
    obtain ⟨e1, he1, hok⟩ := bind_ok_iff.1 hok
    unfold markPending at he1
    obtain ⟨_, -, he1⟩ := bind_ok_iff.1 he1
    cases he1
    cases hok
    exact .inl ⟨hnil, Function.update_self ..⟩

theorem requeue_all (hok : requeue m h = .ok h') : (h' m).all.map Target.unmark = (h m).all.map Target.unmark := by
  rcases requeue_entry hok with ⟨-, heq⟩ | ⟨-, -, heq⟩
  · rw [heq]
    exact (promoteDeferredTargets_shifts (h m)).1.all
  · rw [heq]
    rfl

/-! ## What a snoop leaves alone -/

/-- A snoop may be applied after the response; the rest of the state is the same. -/
structure Entry.Keeps (e e' : Entry n) : Prop where
  inService : e'.inService = e.inService
  pendingModified : e'.pendingModified = e.pendingModified
  isForward : e'.isForward = e.isForward
  postInvalidate : e.postInvalidate = true → e'.postInvalidate = true
  postDowngrade : e.postDowngrade = true → e'.postDowngrade = true
  needsWritable : ∀ w, (e'.list w).needsWritable = (e.list w).needsWritable

theorem Entry.Keeps.refl (e : Entry n) : e.Keeps e := ⟨rfl, rfl, rfl, id, id, fun _ => rfl⟩

theorem Entry.Keeps.trans {e'' : Entry n} (h1 : e.Keeps e') (h2 : e'.Keeps e'') : e.Keeps e'' :=
  ⟨h2.inService.trans h1.inService, h2.pendingModified.trans h1.pendingModified,
    h2.isForward.trans h1.isForward, fun hp => h2.postInvalidate (h1.postInvalidate hp),
    fun hp => h2.postDowngrade (h1.postDowngrade hp),
    fun w => (h2.needsWritable w).trans (h1.needsWritable w)⟩

def Heap.Keeps (h h' : Heap n) : Prop := ∀ x, (h x).Keeps (h' x)

theorem Heap.Keeps.refl (h : Heap n) : h.Keeps h := fun x => .refl (h x)

theorem Heap.Keeps.trans (h1 : h.Keeps h') (h2 : h'.Keeps h'') : h.Keeps h'' :=
  fun x => (h1 x).trans (h2 x)

theorem Heap.Keeps.set (he : (h m).Keeps e) : h.Keeps (Function.update h m e) := by
  intro x
  by_cases hx : x = m
  · rw [hx, Function.update_self]
    exact he
  · rw [Function.update_of_ne hx]
    exact .refl (h x)

theorem setList_keeps {w : Which} {l : TargetList n}
    (hl : l.needsWritable = ((h m).list w).needsWritable) : h.Keeps (h.setList m w l) := by
  refine .set ⟨?_, ?_, ?_, ?_, ?_, fun v => ?_⟩
  · cases w <;> rfl
  · cases w <;> rfl
  · cases w <;> rfl
  · cases w <;> exact id
  · cases w <;> exact id
  · cases w <;> cases v <;> first | exact hl | rfl

theorem replaceUpgrades_keeps (h : Heap n) (m : Fin n) (w : Which) : h.Keeps (h.replaceUpgrades m w) := by
  refine setList_keeps ?_
  unfold TargetList.replaceUpgrades
  split
  · rfl
  · rfl

theorem setDownstreamPending_keeps (h : Heap n) (m : Fin n) (b : Bool) : h.Keeps (h.setDownstreamPending m b) :=
  .set ⟨rfl, rfl, rfl, id, id, fun w => by cases w <;> rfl⟩

variable {pkt : Pkt n}

theorem add_snoop_keeps {mark a : Bool} (hok : add h m .targets pkt .FromSnoop mark a = .ok h') : h.Keeps h' := by
  have hflags : ((h m).list .targets).updateFlags pkt .FromSnoop a = (h m).list .targets := if_neg (by simp)
  unfold add at hok
  rw [hflags] at hok
  split at hok
  · rename_i k _
    split at hok
    · cases hok
    · cases hok
      refine (setDownstreamPending_keeps h k true).trans (setList_keeps ?_)
      exact (((setDownstreamPending_keeps h k true) m).needsWritable .targets).symm
  · cases hok
    exact setList_keeps rfl

theorem saveSnoop_keeps {r : Heap n × Pkt n} (hok : saveSnoop m pkt h = .ok r) : h.Keeps r.1 := by
  unfold saveSnoop at hok
  obtain ⟨_, -, hok⟩ := bind_ok_iff.1 hok
  obtain ⟨h1, hadd, hok⟩ := bind_ok_iff.1 hok
  cases hok
  have h1keeps := add_snoop_keeps hadd
  dsimp only
  split
  · exact h1keeps.trans (.set ⟨rfl, rfl, rfl, fun _ => rfl, id, fun w => by cases w <;> rfl⟩)
  · exact h1keeps

theorem handleSnoop_keeps {r : Heap n × Pkt n × Bool} (hok : handleSnoop m pkt h = .ok r) : h.Keeps r.1 := by
  unfold handleSnoop at hok
  obtain ⟨_, -, hok⟩ := bind_ok_iff.1 hok
  dsimp only at hok
  split at hok
  · split at hok
    · cases hok
      exact (replaceUpgrades_keeps h m .targets).trans (replaceUpgrades_keeps _ m .deferredTargets)
    · cases hok
      exact .refl h
  · have h1keeps : h.Keeps (if (pkt.needsWritable || pkt.isCacheInvalidate) = true then
        h.replaceUpgrades m .deferredTargets else h) := by
      split
      · exact replaceUpgrades_keeps h m .deferredTargets
      · exact .refl h
    generalize (if (pkt.needsWritable || pkt.isCacheInvalidate) = true then
        h.replaceUpgrades m .deferredTargets else h) = h1 at h1keeps hok
    split at hok
    · cases hok
    · split at hok
      · cases hok
        exact h1keeps
      · obtain ⟨⟨h2, pkt2⟩, hsave, hok⟩ := bind_ok_iff.1 hok
        have h2keeps : h.Keeps h2 := by
          split at hsave
          · exact h1keeps.trans (saveSnoop_keeps hsave)
          · cases hsave
            exact h1keeps
        split at hok
        · cases hok
          exact h2keeps.trans (.set ⟨rfl, rfl, rfl, id, fun _ => rfl, fun w => by cases w <;> rfl⟩)
        · cases hok
          exact h2keeps

/-! ## Requests in front -/

/-- Only requests are deferred, the first target is a request, and before the request is sent there are no
snoops. -/
structure Entry.Fronted (e : Entry n) : Prop where
  deferred : ∀ t ∈ e.deferredTargets.list, t.source = .FromCPU
  front : ∀ t ∈ e.targets.list.head?, t.source ≠ .FromSnoop
  waiting : e.inService = false → ∀ t ∈ e.targets.list, t.source ≠ .FromSnoop

theorem fronted_blind : Blind (Entry.Fronted : Entry n → Prop) := by
  intro e
  constructor
  · intro hf
    refine ⟨fun t ht => ?_, fun t ht => ?_, fun hin t ht => ?_⟩
    · exact hf.deferred t.unmark (List.mem_map_of_mem ht)
    · refine hf.front t.unmark ?_
      show t.unmark ∈ (e.targets.list.map Target.unmark).head?
      rw [List.head?_map]
      exact Option.mem_map_of_mem Target.unmark ht
    · exact hf.waiting hin t.unmark (List.mem_map_of_mem ht)
  · intro hf
    refine ⟨fun t ht => ?_, fun t ht => ?_, fun hin t ht => ?_⟩
    · obtain ⟨u, hu, rfl⟩ := List.mem_map.1 ht
      exact hf.deferred u hu
    · have ht' : t ∈ (e.targets.list.map Target.unmark).head? := ht
      rw [List.head?_map] at ht'
      obtain ⟨u, hu, rfl⟩ := Option.mem_map.1 ht'
      exact hf.front u hu
    · obtain ⟨u, hu, rfl⟩ := List.mem_map.1 ht
      exact hf.waiting hin u hu

theorem mem_head?_append {ts us : List (Target n)} {t : Target n} (ht : t ∈ (ts ++ us).head?) :
    t ∈ ts.head? ∨ (ts = [] ∧ t ∈ us) := by
  cases ts with
  | nil => exact .inr ⟨rfl, List.mem_of_mem_head? ht⟩
  | cons u ts => exact .inl ht

theorem Entry.Fronted.append (hf : e.Fronted) {ts : List (Target n)}
    (htargets : e'.targets.list = e.targets.list ++ ts) (hts : ∀ t ∈ ts, t.source ≠ .FromSnoop)
    (hdeferred : ∀ t ∈ e'.deferredTargets.list, t.source = .FromCPU)
    (hin : e'.inService = e.inService) : e'.Fronted := by
  refine ⟨hdeferred, fun t ht => ?_, fun hwait t ht => ?_⟩
  · rw [htargets] at ht
    rcases mem_head?_append ht with ht | ⟨-, ht⟩
    · exact hf.front t ht
    · exact hts t ht
  · rw [htargets] at ht
    rcases List.mem_append.1 ht with ht | ht
    · exact hf.waiting (hin ▸ hwait) t ht
    · exact hts t ht

theorem Entry.Promoted.fronted {f : Pkt n → Bool} {b : Bool} (hp : e.Promoted e' f b) (hf : e.Fronted) :
    e'.Fronted := by
  have hbare := (fronted_blind e).2 hf
  rw [hp.eq]
  refine hbare.append rfl (fun t ht => ?_) (fun t ht => ?_) rfl
  · rw [hbare.deferred t (List.mem_of_mem_take ht)]
    exact Source.noConfusion
  · refine hbare.deferred t (List.mem_of_mem_drop (i := e.prefixLength f) ?_)
    unfold Entry.promote at ht
    rwa [populateFlags_list] at ht

theorem allocate_fronted {a : Bool} (hf : (h m).Fronted) (hok : allocate m pkt a h = .ok h') : (h' m).Fronted := by
  obtain ⟨htargets, -, hbare⟩ := allocate_bare hok
  refine (fronted_blind.of_set hbare).2 ?_
  have hm := (fronted_blind (h m)).2 hf
  refine Entry.Fronted.append (e := { (h m).bare with inService := false })
    ⟨hm.deferred, hm.front, fun _ t ht => ?_⟩ rfl (fun t ht => ?_) hm.deferred rfl
  · rw [show ({ (h m).bare with inService := false } : Entry n).targets.list =
      (h m).targets.list.map Target.unmark from rfl, htargets] at ht
    cases ht
  · rw [List.mem_singleton.1 ht]
    dsimp only
    split <;> exact Source.noConfusion

theorem allocateTarget_fronted {a : Bool} (hf : (h m).Fronted) (hok : allocateTarget m pkt a h = .ok h') :
    (h' m).Fronted := by
  obtain ⟨w, pkt', -, -, -, hbare⟩ := allocateTarget_bare hok
  refine (fronted_blind.of_set hbare).2 ?_
  have hm := (fronted_blind (h m)).2 hf
  cases w with
  | targets =>
    refine hm.append rfl (fun t ht => ?_) hm.deferred rfl
    rw [List.mem_singleton.1 ht]
    exact Source.noConfusion
  | deferredTargets =>
    refine hm.append (List.append_nil _).symm (fun t ht => absurd ht List.not_mem_nil) (fun t ht => ?_) rfl
    rcases List.mem_append.1 ht with ht | ht
    · exact hm.deferred t ht
    · rw [List.mem_singleton.1 ht]

theorem TargetList.Upgraded.source {l l' : TargetList n} (hup : l.Upgraded l') :
    l'.list.map Target.source = l.list.map Target.source := by
  rcases hup with rfl | rfl
  · rfl
  · unfold TargetList.replaceUpgrades
    split
    · rw [List.map_map]
      rfl
    · rfl

theorem Entry.Fronted.of_source (hf : e.Fronted)
    (htargets : e'.targets.list.map Target.source = e.targets.list.map Target.source)
    (hdeferred : e'.deferredTargets.list.map Target.source = e.deferredTargets.list.map Target.source)
    (hin : e'.inService = e.inService) : e'.Fronted := by
  have hmem : ∀ {ts us : List (Target n)}, us.map Target.source = ts.map Target.source → ∀ t ∈ us,
      ∃ u ∈ ts, u.source = t.source := fun hmap t ht =>
    List.mem_map.1 (hmap ▸ List.mem_map_of_mem (f := Target.source) ht)
  refine ⟨fun t ht => ?_, fun t ht => ?_, fun hwait t ht => ?_⟩
  · obtain ⟨u, hu, hs⟩ := hmem hdeferred t ht
    rw [← hs]
    exact hf.deferred u hu
  · have ht' : t.source ∈ (e'.targets.list.map Target.source).head? := by
      rw [List.head?_map]
      exact Option.mem_map_of_mem Target.source ht
    rw [htargets, List.head?_map] at ht'
    obtain ⟨u, hu, hs⟩ := Option.mem_map.1 ht'
    rw [← hs]
    exact hf.front u hu
  · obtain ⟨u, hu, hs⟩ := hmem htargets t ht
    rw [← hs]
    exact hf.waiting (hin ▸ hwait) u hu

/-- A snoop is saved behind a request that is in service. -/
theorem saves_inService (hsaves : e.saves pkt ≠ []) : e.inService = true ∧ e.targets.list ≠ [] := by
  unfold Entry.saves at hsaves
  split at hsaves
  · exact absurd rfl hsaves
  · rename_i hin
    rw [Bool.or_eq_true, not_or] at hin
    refine ⟨by simpa using hin.1, fun hnil => ?_⟩
    rw [hnil] at hsaves
    exact hsaves rfl

theorem handleSnoop_fronted {r : Heap n × Pkt n × Bool} (hf : (h m).Fronted)
    (hok : handleSnoop m pkt h = .ok r) : (r.1 m).Fronted := by
  obtain ⟨e', hbare, ⟨l, hup, htargets⟩, hdeferred, -⟩ := handleSnoop_bare hok
  have hm := (fronted_blind (h m)).2 hf
  have hin : e'.inService = (h m).inService := by
    rw [← (handleSnoop_keeps hok m).inService, ← Heap.set_same h.bare m e', ← hbare]
    rfl
  refine (fronted_blind.of_set hbare).2 ?_
  have hl : (({ (h m).bare with targets := l, deferredTargets := e'.deferredTargets } : Entry n)).Fronted :=
    hm.of_source hup.source hdeferred.source rfl
  have hlist : e'.targets.list = l.list ++ (h m).saves pkt := by rw [htargets, pushAll_list]
  by_cases hsaves : (h m).saves pkt = []
  · rw [hsaves, List.append_nil] at hlist
    exact hl.of_source (by rw [hlist]) rfl hin
  · obtain ⟨hserving, hne⟩ := saves_inService hsaves
    refine ⟨hl.deferred, fun t ht => ?_, fun hwait => ?_⟩
    · rw [hlist] at ht
      rcases mem_head?_append ht with ht | ⟨hnil, -⟩
      · exact hl.front t ht
      · refine absurd ?_ hne
        have hmap := hup.source
        rw [hnil] at hmap
        exact List.map_eq_nil_iff.1 (List.map_eq_nil_iff.1 hmap.symm)
    · rw [hin, hserving] at hwait
      cases hwait

theorem markInService_fronted {b : Bool} (hf : (h m).Fronted) (hok : markInService m b h = .ok h') :
    (h' m).Fronted := by
  refine (fronted_blind.of_set (markInService_bare hok)).2 ?_
  have hm := (fronted_blind (h m)).2 hf
  exact ⟨hm.deferred, hm.front, fun hwait => Bool.noConfusion hwait⟩

theorem setForward_fronted {b : Bool} (hf : (h m).Fronted) : (h.setForward m b m).Fronted := by
  unfold Heap.setForward
  rw [Heap.set_same]
  exact ⟨hf.deferred, hf.front, hf.waiting⟩

theorem promotions_fronted (hf : (h m).Fronted) (hok : promotions r m h = .ok h') : (h' m).Fronted := by
  unfold promotions at hok
  obtain ⟨h1, hreadable, hwritable⟩ := bind_ok_iff.1 hok
  have h1f : (h1 m).Fronted := by
    split at hreadable
    · exact promoteReadable_rule fronted_blind hf (fun _ _ hp => hp.fronted hf) hreadable
    · cases hreadable
      exact hf
  split at hwritable
  · exact promoteWritable_rule fronted_blind h1f (fun _ _ hp => hp.fronted h1f) hwritable
  · cases hwritable
    exact h1f

/-- After the targets are taken only requests are left. -/
theorem takeSnoops_stay : ∀ {ts ready stay : List (Target n)}, takeSnoops ts = .ok (ready, stay) →
    stay = ts.filter fun t => t.source = .FromCPU
  | [], ready, stay, hok => by
    cases hok
    rfl
  | t :: ts, ready, stay, hok => by
    unfold takeSnoops at hok
    obtain ⟨⟨ready', stay'⟩, htake, hok⟩ := bind_ok_iff.1 hok
    have ih := takeSnoops_stay htake
    dsimp only at hok
    split at hok
    · rename_i hcpu
      cases hok
      rw [List.filter_cons_of_pos (by simpa using hcpu), ih]
    · rename_i hcpu
      obtain ⟨_, -, hok⟩ := bind_ok_iff.1 hok
      cases hok
      rw [List.filter_cons_of_neg (by simpa using hcpu), ih]

theorem extractServiceableTargets_stay {cmd : MemCmd} {ready : TargetList n}
    (hok : extractServiceableTargets cmd e = .ok (ready, e')) :
    e'.targets.list = (if cmd = .ReadRespWithInvalidate then
        e.targets.list.tail.filter fun t => t.source = .FromCPU else []) ∧
      e' = { e with targets := e'.targets } := by
  unfold extractServiceableTargets at hok
  split at hok
  · rename_i hcmd
    rw [if_pos hcmd]
    cases hl : e.targets.list with
    | nil =>
      rw [hl] at hok
      cases hok
    | cons t ts =>
      rw [hl] at hok
      obtain ⟨_, -, hok⟩ := bind_ok_iff.1 hok
      obtain ⟨⟨ready', stay⟩, htake, hok⟩ := bind_ok_iff.1 hok
      cases hok
      refine ⟨?_, rfl⟩
      rw [populateFlags_list, List.tail_cons]
      exact takeSnoops_stay htake
  · rename_i hcmd
    rw [if_neg hcmd]
    cases hok
    exact ⟨populateFlags_list _, rfl⟩

theorem extractServiceableTargets_front {cmd : MemCmd} {ready : TargetList n}
    (hok : extractServiceableTargets cmd e = .ok (ready, e')) : ∀ t ∈ e.targets.list.head?, t ∈ ready.list := by
  intro t ht
  unfold extractServiceableTargets at hok
  split at hok
  · cases hl : e.targets.list with
    | nil =>
      rw [hl] at ht
      cases ht
    | cons u ts =>
      rw [hl] at hok ht
      obtain rfl := Option.some.inj ht
      obtain ⟨_, -, hok⟩ := bind_ok_iff.1 hok
      obtain ⟨⟨ready', stay⟩, -, hok⟩ := bind_ok_iff.1 hok
      cases hok
      rw [populateFlags_list]
      exact List.mem_cons_self
  · cases hok
    exact List.mem_of_mem_head? ht

/-- Only requests are on the lists. -/
structure Entry.Requests (e : Entry n) : Prop where
  deferred : ∀ t ∈ e.deferredTargets.list, t.source = .FromCPU
  targets : ∀ t ∈ e.targets.list, t.source ≠ .FromSnoop

theorem Entry.Requests.fronted (hr : e.Requests) : e.Fronted :=
  ⟨hr.deferred, fun t ht => hr.targets t (List.mem_of_mem_head? ht), fun _ => hr.targets⟩

theorem requests_iff : e.Requests ↔ ({ e with inService := false } : Entry n).Fronted :=
  ⟨fun hr => ⟨hr.deferred, fun t ht => hr.targets t (List.mem_of_mem_head? ht), fun _ => hr.targets⟩,
    fun hf => ⟨hf.deferred, hf.waiting rfl⟩⟩

theorem requests_blind : Blind (Entry.Requests : Entry n → Prop) := by
  intro e
  rw [requests_iff, requests_iff]
  exact fronted_blind { e with inService := false }

/-- Requests that move stay requests. -/
theorem Entry.Shifts.requests (hs : e.Shifts e') (hr : e.Requests) : e'.Requests := by
  have hsource : ∀ {t u : Target n}, u.unmark = t.unmark → u.source = t.source := fun hut => by
    injection hut
  refine ⟨fun t ht => ?_, fun t ht => ?_⟩
  · obtain ⟨u, hu, hut⟩ := List.mem_map.1 (hs.deferred.subset (List.mem_map_of_mem ht))
    rw [← hsource hut]
    exact hr.deferred u hu
  · have hmem : t.unmark ∈ e'.all.map Target.unmark := List.mem_map_of_mem (List.mem_append_left _ ht)
    rw [hs.all] at hmem
    obtain ⟨u, hu, hut⟩ := List.mem_map.1 hmem
    rw [← hsource hut]
    rcases List.mem_append.1 hu with hu | hu
    · exact hr.targets u hu
    · rw [hr.deferred u hu]
      exact Source.noConfusion

theorem Entry.Promoted.requests {f : Pkt n → Bool} {b : Bool} (hp : e.Promoted e' f b) (hr : e.Requests) :
    e'.Requests := hp.shifts.requests hr

theorem promoteDeferredTargets_requests (hr : e.Requests) : (promoteDeferredTargets e).2.Requests :=
  (promoteDeferredTargets_shifts e).1.requests hr

theorem requeue_fronted (hr : (h m).Requests) (hok : requeue m h = .ok h') : (h' m).Fronted := by
  rcases requeue_entry hok with ⟨-, heq⟩ | ⟨htargets, hdeferred, heq⟩
  · have hq := promoteDeferredTargets_requests hr
    rw [heq]
    exact requests_iff.1 hq
  · rw [heq]
    exact Entry.Requests.fronted ⟨hr.deferred, hr.targets⟩

theorem recvTimingResp_fronted (hf : (h m).Fronted) (hok : recvTimingResp r m h = .ok h') : (h' m).Fronted := by
  obtain ⟨h2, ready, e, h3, -, hpromote, hextract, hservice, hrequeue⟩ := recvTimingResp_ok hok
  have h2f := promotions_fronted hf hpromote
  obtain ⟨hstay, he⟩ := extractServiceableTargets_stay hextract
  have her : e.Requests := by
    refine ⟨?_, fun t ht => ?_⟩
    · rw [he]
      exact h2f.deferred
    · rw [hstay] at ht
      split at ht
      · rw [of_decide_eq_true (List.mem_filter.1 ht).2]
        exact Source.noConfusion
      · cases ht
  have h3r : (h3 m).Requests := service_rule requests_blind (fun _ _ hr _ hp => hp.requests hr) hservice
    (by rwa [Heap.set_same])
  exact requeue_fronted h3r hrequeue

/-- An MSHR without its first target. -/
def Entry.popped (e : Entry n) : Entry n :=
  { e with targets := e.targets.withList e.targets.list.tail }

/-- A prefetch that is not needed is dropped before it is sent. -/
theorem forceDeallocateTarget_cases (hok : forceDeallocateTarget m h = .ok h') :
    (h m).targets.list ≠ [] ∧ h.OnlyAt m h' ∧ (((h m).popped.targets.list ≠ [] ∧ h' m = (h m).popped) ∨
      ((h m).popped.targets.list = [] ∧ (h m).popped.deferredTargets.list ≠ [] ∧
        h' m = (promoteDeferredTargets (h m).popped).2) ∨ ((h m).popped.all = [] ∧ h' m = { (h m).popped with
        targets := (h m).popped.targets.resetFlags, inService := false, allocated := false })) := by
  unfold forceDeallocateTarget at hok
  obtain ⟨_, hfull, hok⟩ := bind_ok_iff.1 hok
  have hne : (h m).targets.list ≠ [] := fun hnil => by
    have hfull' := check_ok hfull
    rw [hnil] at hfull'
    cases hfull'
  refine ⟨hne, ?_⟩
  extract_lets old l e at hok
  rw [show (h m).popped = e from rfl]
  clear_value e
  split at hok
  · rename_i hnil
    have htargets := List.isEmpty_iff.1 hnil
    by_cases hdeferred : e.deferredTargets.list = []
    · rw [promoteDeferredTargets_nil htargets hdeferred] at hok
      obtain ⟨e2, he2, hok⟩ := bind_ok_iff.1 hok
      unfold deallocate at he2
      obtain ⟨_, -, he2⟩ := bind_ok_iff.1 he2
      obtain ⟨_, -, he2⟩ := bind_ok_iff.1 he2
      cases he2
      cases hok
      refine ⟨.set m h _, .inr (.inr ⟨?_, Function.update_self ..⟩)⟩
      unfold Entry.all
      rw [htargets, hdeferred]
      rfl
    · have hq := promoteDeferredTargets_fst (e := e) fun hall =>
        hdeferred (List.append_eq_nil_iff.1 hall).2
      generalize promoteDeferredTargets e = q at hok hq ⊢
      obtain ⟨promoted, e1⟩ := q
      obtain rfl : promoted = true := hq
      obtain ⟨e2, he2, hok⟩ := bind_ok_iff.1 hok
      cases he2
      cases hok
      exact ⟨.set m h e1, .inr (.inl ⟨htargets, hdeferred, Function.update_self ..⟩)⟩
  · rename_i hsome
    cases hok
    refine ⟨.set m h e, .inl ⟨fun hnil => hsome ?_, Function.update_self ..⟩⟩
    rw [hnil]
    rfl

theorem Entry.Fronted.popped (hf : e.Fronted) (hin : e.inService = false) : e.popped.Requests :=
  ⟨hf.deferred, fun t ht => hf.waiting hin t (List.mem_of_mem_tail ht)⟩

theorem forceDeallocateTarget_fronted (hf : (h m).Fronted) (hin : (h m).inService = false)
    (hok : forceDeallocateTarget m h = .ok h') : (h' m).Fronted := by
  have hr := hf.popped hin
  obtain ⟨-, -, ⟨-, heq⟩ | ⟨-, -, heq⟩ | ⟨-, heq⟩⟩ := forceDeallocateTarget_cases hok
  · rw [heq]
    exact hr.fronted
  · rw [heq]
    exact (promoteDeferredTargets_requests hr).fronted
  · rw [heq]
    exact Entry.Requests.fronted ⟨hr.deferred, hr.targets⟩

theorem new_fronted : (Entry.new : Entry n).Fronted :=
  Entry.Requests.fronted ⟨fun _ ht => absurd ht List.not_mem_nil, fun _ ht => absurd ht List.not_mem_nil⟩

end Alpine.Mem.MSHR
