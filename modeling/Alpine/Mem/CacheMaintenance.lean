import Alpine.Mem.MSHRPromotes

/-!
# Cache maintenance targets (`mem/cache/mshr.cc`)

The MSHRs of a memory system, with the calls that caches make.  A cache maintenance request waits until it
can be sent on its own.

* `Alone` — a maintenance request of the CPU side is the only request on a target list.
* `maintenance_alone` — between calls it is, in every run whose promotions move no maintenance request;
  while its response is handled `promoteReadable` and `promoteWritable` put deferred requests behind it;
  `promoteDeferredTargets` moves one to an empty list only.
* `promoted_together` — `promoteWritable` stops at cache invalidates only: a clean request that was deferred is put
  on the list together with a store.
-/

namespace Alpine.Mem.Maintenance

open Alpine Alpine.Mem Alpine.Mem.MSHR Alpine.Run

variable {n : Nat} {h h' : Heap n} {m : Fin n} {e e' : Entry n} {r : Resp}

/-! ## The calls of the caches -/

inductive Call (n : Nat) where
  | allocate (m : Fin n) (pkt : Pkt n) (alloc_on_fill : Bool)
  | allocateTarget (m : Fin n) (pkt : Pkt n) (alloc_on_fill : Bool)
  | setForward (m : Fin n) (b : Bool)
  | markInService (m : Fin n) (pending_modified_resp : Bool)
  | handleSnoop (m : Fin n) (pkt : Pkt n)
  | recvTimingResp (r : Resp) (m : Fin n)
  | forceDeallocateTarget (m : Fin n)

def Call.run (h : Heap n) : Call n → Except Failure (Heap n)
  | .allocate m pkt a => MSHR.allocate m pkt a h
  | .allocateTarget m pkt a => MSHR.allocateTarget m pkt a h
  | .setForward m b => .ok (h.setForward m b)
  | .markInService m b => MSHR.markInService m b h
  | .handleSnoop m pkt => do return (← MSHR.handleSnoop m pkt h).1
  | .recvTimingResp r m => MSHR.recvTimingResp r m h
  | .forceDeallocateTarget m => MSHR.forceDeallocateTarget m h

/-- A target is dropped before its MSHR is sent. -/
def Call.ok (h : Heap n) : Call n → Prop
  | .forceDeallocateTarget m => (h m).inService = false
  | _ => True

/-- The promotions of a response move no maintenance request. -/
def Call.stops (h : Heap n) : Call n → Prop
  | .recvTimingResp r m => ∀ b g, Promotes r m h b g → ∀ t ∈ (g m).moved b, t.pkt.isCacheMaintenance = false
  | _ => True

def step (h : Heap n) (c : Call n) : Option (Heap n) := (c.run h).toOption

/-- The MSHRs as they are made. -/
def init : Heap n := fun _ => .new

/-! ## Lists with a maintenance request -/

/-- A maintenance request of the CPU side. -/
def maintains (t : Target n) : Bool := t.source = .FromCPU && t.pkt.isCacheMaintenance

def nonSnoops (ts : List (Target n)) : Nat := ts.countP fun t => t.source ≠ .FromSnoop

/-- A maintenance request is the only request of the list. -/
def Alone (ts : List (Target n)) : Prop := ∀ t ∈ ts, maintains t = true → nonSnoops ts = 1

/-- There is no maintenance request. -/
def Plain (ts : List (Target n)) : Prop := ∀ t ∈ ts, maintains t = false

variable {ts : List (Target n)}

theorem Plain.alone (hp : Plain ts) : Alone ts :=
  fun t ht hm => absurd ((hp t ht).symm.trans hm) Bool.false_ne_true

theorem Plain.append {us : List (Target n)} (ht : Plain ts) (hu : Plain us) : Plain (ts ++ us) := by
  intro t hmem
  rcases List.mem_append.1 hmem with hmem | hmem
  · exact ht t hmem
  · exact hu t hmem

theorem plain_of_maintenance (hts : ∀ t ∈ ts, t.pkt.isCacheMaintenance = false) : Plain ts := by
  intro t ht
  unfold maintains
  rw [hts t ht, Bool.and_false]

theorem plain_unmark (ts : List (Target n)) : Plain (ts.map Target.unmark) ↔ Plain ts := by
  unfold Plain
  rw [List.forall_mem_map]
  exact Iff.rfl

theorem nonSnoops_unmark (ts : List (Target n)) : nonSnoops (ts.map Target.unmark) = nonSnoops ts := by
  unfold nonSnoops
  rw [List.countP_map]
  rfl

theorem alone_unmark (ts : List (Target n)) : Alone (ts.map Target.unmark) ↔ Alone ts := by
  unfold Alone
  rw [List.forall_mem_map, nonSnoops_unmark]
  exact Iff.rfl

theorem maintains_nonSnoop {t : Target n} (hm : maintains t = true) : t.source ≠ .FromSnoop := by
  unfold maintains at hm
  rw [of_decide_eq_true (Bool.and_eq_true_iff.1 hm).1]
  exact Source.noConfusion

theorem alone_singleton (t : Target n) : Alone [t] := by
  intro u hu hm
  rw [List.mem_singleton.1 hu] at hm
  unfold nonSnoops
  rw [List.countP_singleton, if_pos (decide_eq_true (maintains_nonSnoop hm))]

/-- Behind a request there is no maintenance request. -/
theorem Alone.tail (ha : Alone ts) (hfront : ∀ t ∈ ts.head?, t.source ≠ .FromSnoop) : Plain ts.tail := by
  intro t ht
  by_contra hno
  have hm : maintains t = true := Bool.eq_true_of_not_eq_false hno
  cases ts with
  | nil => cases ht
  | cons f ts =>
    have hone := ha t (List.mem_cons_of_mem f ht) hm
    unfold nonSnoops at hone
    rw [List.countP_cons, if_pos (decide_eq_true (hfront f rfl))] at hone
    have hpos : 0 < ts.countP fun t => t.source ≠ .FromSnoop :=
      List.countP_pos_iff.2 ⟨t, ht, decide_eq_true (maintains_nonSnoop hm)⟩
    omega

theorem alone_congr {us : List (Target n)} (hmap : us.map (fun t => (t.source, t.pkt.isCacheMaintenance)) =
      ts.map fun t => (t.source, t.pkt.isCacheMaintenance)) (snoops : List (Target n))
    (hs : ∀ t ∈ snoops, t.source = .FromSnoop) (ha : Alone ts) : Alone (us ++ snoops) := by
  have hcount : nonSnoops (us ++ snoops) = nonSnoops ts := by
    have hsource := congrArg (List.countP fun p : Source × Bool => p.1 ≠ .FromSnoop) hmap
    rw [List.countP_map, List.countP_map] at hsource
    have hnone : snoops.countP (fun t => t.source ≠ .FromSnoop) = 0 :=
      List.countP_eq_zero.2 fun t ht => by simpa using hs t ht
    unfold nonSnoops
    rw [List.countP_append, hnone]
    exact hsource
  intro t ht hm
  rw [hcount]
  rcases List.mem_append.1 ht with ht | ht
  · have hmem : (t.source, t.pkt.isCacheMaintenance) ∈
        us.map fun t => (t.source, t.pkt.isCacheMaintenance) := List.mem_map_of_mem ht
    rw [hmap] at hmem
    obtain ⟨u, hu, heq⟩ := List.mem_map.1 hmem
    obtain ⟨hsource, hmaint⟩ := Prod.mk.inj heq
    refine ha u hu ?_
    unfold maintains at hm ⊢
    rw [hsource, hmaint]
    exact hm
  · exact absurd (hs t ht) (maintains_nonSnoop hm)

/-! ## The calls on one MSHR -/

/-- What holds of an MSHR between calls. -/
structure Good (e : Entry n) : Prop where
  fronted : e.Fronted
  alone : Alone e.targets.list

theorem alone_blind : Blind fun e : Entry n => Alone e.targets.list := fun e =>
  alone_unmark e.targets.list

theorem plain_blind : Blind fun e : Entry n => Plain e.targets.list := fun e =>
  plain_unmark e.targets.list

theorem good_blind : Blind (Good : Entry n → Prop) := by
  intro e
  constructor
  · exact fun hg => ⟨(fronted_blind e).1 hg.fronted, (alone_blind e).1 hg.alone⟩
  · exact fun hg => ⟨(fronted_blind e).2 hg.fronted, (alone_blind e).2 hg.alone⟩

theorem allocate_alone {pkt : Pkt n} {a : Bool} (hok : allocate m pkt a h = .ok h') : Alone (h' m).targets.list := by
  obtain ⟨htargets, -, hbare⟩ := allocate_bare hok
  refine (alone_blind.of_set hbare).2 ?_
  have hlist : ∀ t : Target n, (({ (h m).bare with
      allocated := true, isForward := false, inService := false } : Entry n).push .targets t).targets.list =
        [t] := by
    intro t
    show (h m).targets.list.map Target.unmark ++ [t] = [t]
    rw [htargets]
    rfl
  rw [hlist]
  exact alone_singleton _

theorem not_defers {front pkt : Pkt n} (hno : defers e front pkt = false) :
    pkt.isCacheMaintenance = false ∧ front.isCacheMaintenance = false := by
  unfold defers at hno
  simp only [Bool.or_eq_false_iff] at hno
  exact ⟨hno.1.1.1, hno.1.1.2⟩

theorem allocateTarget_alone {pkt : Pkt n} {a : Bool} (hg : Good (h m))
    (hok : allocateTarget m pkt a h = .ok h') : Alone (h' m).targets.list := by
  obtain ⟨front, rest, hl, ⟨-, pkt', -, hbare⟩ | ⟨hno, hbare⟩⟩ := allocateTarget_cases hok
  · exact (alone_blind.of_set hbare).2 ((alone_blind (h m)).2 hg.alone)
  · refine (alone_blind.of_set hbare).2 (Plain.alone ?_)
    obtain ⟨hpkt, hfront⟩ := not_defers hno
    have htail := hg.alone.tail hg.fronted.front
    have hplain : Plain (h m).targets.list := by
      intro t ht
      rw [hl] at ht htail
      rcases List.mem_cons.1 ht with rfl | ht
      · unfold maintains
        rw [hfront, Bool.and_false]
      · exact htail t ht
    refine ((plain_unmark _).2 hplain).append fun t ht => ?_
    rw [List.mem_singleton.1 ht]
    unfold maintains
    rw [hpkt, Bool.and_false]

theorem Upgraded_maintenance {l l' : TargetList n} (hup : l.Upgraded l') :
    l'.list.map (fun t => (t.source, t.pkt.isCacheMaintenance)) =
      l.list.map fun t => (t.source, t.pkt.isCacheMaintenance) := by
  rcases hup with rfl | rfl
  · rfl
  · unfold TargetList.replaceUpgrades
    split
    · rw [List.map_map]
      rfl
    · rfl

theorem handleSnoop_alone {pkt : Pkt n} {q : Heap n × Pkt n × Bool} (ha : Alone (h m).targets.list)
    (hok : handleSnoop m pkt h = .ok q) : Alone (q.1 m).targets.list := by
  obtain ⟨e', hbare, ⟨l, hup, htargets⟩, -, -⟩ := handleSnoop_bare hok
  refine (alone_blind.of_set hbare).2 ?_
  rw [htargets, pushAll_list]
  exact alone_congr (Upgraded_maintenance hup) _ (fun t ht => saves_source ht)
    ((alone_blind (h m)).2 ha)

/-- Deferred targets behind a list without maintenance requests. -/
theorem promoteDeferredTargets_alone (hp : Plain e.targets.list) :
    Alone (promoteDeferredTargets e).2.targets.list := by
  obtain ⟨k, htargets, -, ⟨hmoved, -⟩ | ⟨hnil, t, hone, -⟩⟩ := promoteDeferredTargets_moves e
  · rw [htargets]
    exact (hp.append (plain_of_maintenance hmoved)).alone
  · rw [htargets, hnil, hone]
    exact alone_singleton t

theorem requeue_alone (hp : Plain (h m).targets.list) (hok : requeue m h = .ok h') : Alone (h' m).targets.list := by
  rcases requeue_entry hok with ⟨-, heq⟩ | ⟨htargets, -, heq⟩
  · rw [heq]
    exact promoteDeferredTargets_alone hp
  · rw [heq]
    exact hp.alone

theorem forceDeallocateTarget_alone (hg : Good (h m)) (hok : forceDeallocateTarget m h = .ok h') :
    Alone (h' m).targets.list := by
  have htail : Plain (h m).popped.targets.list := hg.alone.tail hg.fronted.front
  obtain ⟨-, -, ⟨-, heq⟩ | ⟨-, -, heq⟩ | ⟨-, heq⟩⟩ := forceDeallocateTarget_cases hok
  · rw [heq]
    exact htail.alone
  · rw [heq]
    exact promoteDeferredTargets_alone htail
  · rw [heq]
    exact htail.alone

/-! ## Responses -/

/-- What holds of an MSHR while its response promotes targets: only its first target may be a maintenance
request. -/
structure Opened (e : Entry n) : Prop where
  some : e.targets.list ≠ []
  tail : Plain e.targets.list.tail

theorem opened_blind : Blind (Opened : Entry n → Prop) := by
  have hlist : ∀ e : Entry n, e.bare.targets.list = e.targets.list.map Target.unmark := fun _ => rfl
  intro e
  constructor
  · rintro ⟨hsome, htail⟩
    rw [hlist] at hsome htail
    rw [← List.map_tail] at htail
    exact ⟨fun hnil => hsome (by rw [hnil]; rfl), (plain_unmark _).1 htail⟩
  · rintro ⟨hsome, htail⟩
    refine ⟨fun hnil => hsome (List.map_eq_nil_iff.1 hnil), ?_⟩
    rw [hlist, ← List.map_tail]
    exact (plain_unmark _).2 htail

theorem Opened.promoted {f : Pkt n → Bool} {b : Bool} (ho : Opened e) (hp : e.Promoted e' f b)
    (hmoved : ∀ t ∈ e.deferredTargets.list.takeWhile fun t => f t.pkt, t.pkt.isCacheMaintenance = false) :
    Opened e' := by
  cases hl : e.targets.list with
  | nil => exact absurd hl ho.some
  | cons t ts =>
    have htail := ho.tail
    rw [hl] at htail
    have hlist := hp.targets
    rw [hl, List.cons_append, List.map_cons] at hlist
    refine ⟨by rw [hlist]; exact List.cons_ne_nil _ _, ?_⟩
    rw [hlist, List.tail_cons, plain_unmark]
    exact Plain.append htail (plain_of_maintenance hmoved)

theorem Plain.promoted {f : Pkt n → Bool} {b : Bool} (hp : Plain e.targets.list) (hpromoted : e.Promoted e' f b)
    (hmoved : ∀ t ∈ e.deferredTargets.list.takeWhile fun t => f t.pkt, t.pkt.isCacheMaintenance = false) :
    Plain e'.targets.list := by
  rw [hpromoted.targets, plain_unmark]
  exact hp.append (plain_of_maintenance hmoved)

/-- A response whose promotions move no maintenance request. -/
theorem recvTimingResp_alone (hg : Good (h m))
    (hstops : ∀ b g, Promotes r m h b g → ∀ t ∈ (g m).moved b, t.pkt.isCacheMaintenance = false)
    (hok : recvTimingResp r m h = .ok h') : Alone (h' m).targets.list := by
  obtain ⟨h₂, ready, e, h3, hne, hpromote, hextract, hservice, hrequeue⟩ := recvTimingResp_ok hok
  have hmoved : ∀ {b g}, Promotes r m h b g → (g m).promoting b = true →
      ∀ t ∈ (g m).deferredTargets.list.takeWhile fun t => t.pkt.moves b,
        t.pkt.isCacheMaintenance = false := by
    intro b g hcall hyes
    have hstop := hstops b g hcall
    unfold Entry.moved at hstop
    rwa [if_pos hyes] at hstop
  have h2o : Opened (h₂ m) := promotions_rule opened_blind ⟨hne, hg.alone.tail hg.fronted.front⟩
    (fun b g e hcall ho hyes hp => ho.promoted hp (hmoved hcall hyes)) hpromote
  -- only requests behind the first are left
  have hleft : Plain e.targets.list := by
    rw [(extractServiceableTargets_stay hextract).1]
    split
    · exact fun t ht => h2o.tail t (List.mem_filter.1 ht).1
    · exact fun t ht => absurd ht List.not_mem_nil
  have h3p : Plain (h3 m).targets.list := by
    refine service_calls plain_blind ?_ hservice (by rwa [Heap.set_same])
    intro pre t post g e' hready hbefore hcpu hline herror hp hyes hpromoted
    exact hp.promoted hpromoted
      (hmoved (.line hpromote hextract hready hbefore hcpu hline herror) hyes)
  exact requeue_alone h3p hrequeue

/-- The first `k` deferred targets have been promoted, and no maintenance request is among them. -/
structure Joined (e e' : Entry n) (k : Nat) : Prop where
  targets : e'.targets.list.map Target.unmark =
    (e.targets.list ++ e.deferredTargets.list.take k).map Target.unmark
  deferred : e'.deferredTargets.list.map Target.unmark = (e.deferredTargets.list.drop k).map Target.unmark
  plain : ∀ t ∈ e.deferredTargets.list.take k, t.pkt.isCacheMaintenance = false

theorem joined_blind (e : Entry n) : Blind fun e' => ∃ k, Joined e e' k := by
  intro e'
  have hiff : ∀ k, Joined e e'.bare k ↔ Joined e e' k := by
    intro k
    have hlist : ∀ ts : List (Target n), (ts.map Target.unmark).map Target.unmark = ts.map Target.unmark :=
      map_unmark_idem
    constructor
    · exact fun hj => ⟨(hlist _).symm.trans hj.targets, (hlist _).symm.trans hj.deferred, hj.plain⟩
    · exact fun hj => ⟨(hlist _).trans hj.targets, (hlist _).trans hj.deferred, hj.plain⟩
  exact exists_congr hiff

theorem Joined.promoted {e1 e2 : Entry n} {k : Nat} {f : Pkt n → Bool} {b : Bool} (hj : Joined e e1 k)
    (hp : e1.Promoted e2 f b)
    (hmoved : ∀ t ∈ e1.deferredTargets.list.takeWhile fun t => f t.pkt, t.pkt.isCacheMaintenance = false) :
    ∃ k, Joined e e2 k := by
  -- marks do not matter for what is moved
  have htake : ∀ ts : List (Target n), (ts.map Target.unmark).takeWhile (fun t => f t.pkt) =
      (ts.takeWhile fun t => f t.pkt).map Target.unmark := fun ts => List.takeWhile_map ..
  have hdrop : ∀ ts : List (Target n), (ts.map Target.unmark).dropWhile (fun t => f t.pkt) =
      (ts.dropWhile fun t => f t.pkt).map Target.unmark := fun ts => List.dropWhile_map ..
  let rest := e.deferredTargets.list.drop k
  have hnow : (e1.deferredTargets.list.takeWhile fun t => f t.pkt).map Target.unmark =
      (rest.takeWhile fun t => f t.pkt).map Target.unmark := by
    rw [← htake, hj.deferred, htake]
  have hlen : rest.takeWhile (fun t => f t.pkt) = rest.take (rest.takeWhile fun t => f t.pkt).length :=
    List.prefix_iff_eq_take.1 (List.takeWhile_prefix _)
  have hleft : rest.dropWhile (fun t => f t.pkt) = rest.drop (rest.takeWhile fun t => f t.pkt).length := by
    have hsplit := rest.takeWhile_append_dropWhile (p := fun t => f t.pkt)
    nth_rewrite 3 [← hsplit]
    exact (List.drop_left' rfl).symm
  refine ⟨k + (rest.takeWhile fun t => f t.pkt).length, ?_, ?_, ?_⟩
  · rw [hp.targets, map_unmark_idem, List.map_append, hj.targets, hnow, List.take_add, ← hlen]
    simp only [List.map_append, List.append_assoc]
  · rw [hp.deferred, map_unmark_idem, ← hdrop, hj.deferred, hdrop, hleft, List.drop_drop]
  · intro t ht
    rw [List.take_add] at ht
    rcases List.mem_append.1 ht with ht | ht
    · exact hj.plain t ht
    · have hmem : t.unmark ∈ (rest.takeWhile fun t => f t.pkt).map Target.unmark := by
        rw [hlen]
        exact List.mem_map_of_mem ht
      rw [← hnow] at hmem
      obtain ⟨u, hu, hut⟩ := List.mem_map.1 hmem
      have hpkt : u.pkt = t.pkt := by
        have hunmark := congrArg Target.pkt hut
        exact hunmark
      rw [← hpkt]
      exact hmoved u hu

/-- What the promotions before the service loop do to the list. -/
theorem promotions_joined {h₂ : Heap n}
    (hstops : ∀ b g, Promotes r m h b g → ∀ t ∈ (g m).moved b, t.pkt.isCacheMaintenance = false)
    (hok : promotions r m h = .ok h₂) : ∃ k, Joined (h m) (h₂ m) k := by
  have hstart : Joined (h m) (h m) 0 :=
    ⟨by rw [List.take_zero, List.append_nil], rfl, fun t ht => absurd ht List.not_mem_nil⟩
  refine promotions_rule (joined_blind (h m)) ⟨0, hstart⟩ (fun b g e hcall hj hyes hp => ?_) hok
  obtain ⟨k, hj⟩ := hj
  refine hj.promoted hp ?_
  have hstop := hstops b g hcall
  unfold Entry.moved at hstop
  rwa [if_pos hyes] at hstop

/-! ## Runs -/

/-- **Step lemma.** -/
theorem step_good {c : Call n} (hg : ∀ m, Good (h m)) (hc : c.ok h) (hstops : c.stops h)
    (hstep : step h c = some h') : ∀ m, Good (h' m) := by
  have hok : c.run h = .ok h' := toOption_eq_some.1 hstep
  have hat : ∀ {m : Fin n}, Good (h' m) → h.OnlyAt m h' → ∀ x, Good (h' x) := fun hm honly =>
    good_blind.forall honly hm hg
  cases c with
  | allocate m pkt a =>
    obtain ⟨-, -, hbare⟩ := allocate_bare hok
    exact hat ⟨allocate_fronted (hg m).fronted hok, allocate_alone hok⟩ (.of_bare hbare)
  | allocateTarget m pkt a =>
    obtain ⟨w, pkt', -, -, -, hbare⟩ := allocateTarget_bare hok
    exact hat ⟨allocateTarget_fronted (hg m).fronted hok, allocateTarget_alone (hg m) hok⟩ (.of_bare hbare)
  | setForward m b =>
    cases hok
    refine hat ⟨setForward_fronted (hg m).fronted, ?_⟩ (.set m h _)
    unfold Heap.setForward
    rw [Heap.set_same]
    exact (hg m).alone
  | markInService m b =>
    have hbare := markInService_bare hok
    refine hat ⟨markInService_fronted (hg m).fronted hok, ?_⟩ (.of_bare hbare)
    exact (alone_blind.of_set hbare).2 ((alone_blind (h m)).2 (hg m).alone)
  | handleSnoop m pkt =>
    obtain ⟨q, hsnoop, hok⟩ := bind_ok_iff.1 hok
    cases hok
    obtain ⟨e', hbare, -⟩ := handleSnoop_bare hsnoop
    exact hat ⟨handleSnoop_fronted (hg m).fronted hsnoop, handleSnoop_alone (hg m).alone hsnoop⟩
      (.of_bare hbare)
  | recvTimingResp r m =>
    exact hat ⟨recvTimingResp_fronted (hg m).fronted hok, recvTimingResp_alone (hg m) hstops hok⟩
      (recvTimingResp_onlyAt hok)
  | forceDeallocateTarget m =>
    obtain ⟨-, honly, -⟩ := forceDeallocateTarget_cases hok
    exact hat ⟨forceDeallocateTarget_fronted (hg m).fronted hc hok, forceDeallocateTarget_alone (hg m) hok⟩
      honly

theorem init_good (m : Fin n) : Good ((init : Heap n) m) :=
  ⟨new_fronted, fun _ ht => absurd ht List.not_mem_nil⟩

/-- **Run lemma.** -/
theorem reaches_good (hrun : Reaches step (fun h c => c.ok h ∧ c.stops h) (init : Heap n) h) : ∀ m, Good (h m) := by
  induction hrun with
  | refl => exact init_good
  | step _ hc hstep ih => exact step_good ih hc.1 hc.2 hstep

/-- **Maintenance requests are sent alone** in every run whose promotions move none.  Between calls one is the
only request on its list; the promotions of a response put deferred requests behind it that are none; they
move nothing from the first cache invalidate on; `promoteDeferredTargets` moves one to an empty list only. -/
theorem maintenance_alone (hrun : Reaches step (fun h c => c.ok h ∧ c.stops h) (init : Heap n) h) :
    (∀ m, Alone (h m).targets.list) ∧ (∀ r m h₂, Call.stops h (.recvTimingResp r m) → promotions r m h = .ok h₂ →
      ∃ k, Joined (h m) (h₂ m) k) ∧
    (∀ r m b g, Promotes r m h b g → ∀ t ∈ (g m).moved b, t.pkt.isCacheInvalidate = false) ∧
    ∀ e : Entry n, ∀ t ∈ (promoteDeferredTargets e).2.targets.list.drop e.targets.list.length,
      t.pkt.isCacheMaintenance = true → e.targets.list = [] ∧ (promoteDeferredTargets e).2.targets.list = [t] := by
  have hg := reaches_good hrun
  refine ⟨fun m => (hg m).alone, fun r m h₂ hstops hok => promotions_joined hstops hok,
    fun r m b g _ t ht => moved_invalidate ht, fun e t ht hm => ?_⟩
  obtain ⟨k, htargets, -, ⟨hmoved, -⟩ | ⟨hnil, u, hone, -⟩⟩ := promoteDeferredTargets_moves e
  · rw [htargets, List.drop_left' rfl] at ht
    exact absurd ((hmoved t ht).symm.trans hm) Bool.false_ne_true
  · rw [htargets, List.drop_left' rfl, hone] at ht
    rw [htargets, hnil, hone, List.mem_singleton.1 ht]
    exact ⟨rfl, rfl⟩

theorem cleanReq_isRequest : MemCmd.CleanSharedReq.testCmdAttrib .IsRequest = true := rfl
theorem loadReq_isRequest : MemCmd.ReadReq.testCmdAttrib .IsRequest = true := rfl

def cleanPkt : Pkt 1 :=
  { cmd := .CleanSharedReq, isRequest := cleanReq_isRequest, mshr := none, reqClean := true }

def loadPkt : Pkt 1 := { cmd := .ReadReq, isRequest := loadReq_isRequest, mshr := none }

local instance neZeroOne : NeZero 1 := ⟨one_ne_zero⟩

def cleanMiss : Call 1 := .allocate 0 cleanPkt true
def missSent : Call 1 := .markInService 0 false
def loadMiss : Call 1 := .allocateTarget 0 loadPkt true

/-- A clean request is on its way, and a read waits for it. -/
theorem maintenance_alone_clean : ∃ h : Heap 1, Reaches step (fun h c => c.ok h ∧ c.stops h) init h ∧
    ((h 0).targets.list.map fun t => t.pkt) = [cleanPkt] ∧
    ((h 0).deferredTargets.list.map fun t => t.pkt) = [loadPkt] ∧
    (∀ m, Alone (h m).targets.list) ∧
    (∀ r m h₂, Call.stops h (.recvTimingResp r m) → promotions r m h = .ok h₂ →
      ∃ k, Joined (h m) (h₂ m) k) ∧
    (∀ r m b g, Promotes r m h b g → ∀ t ∈ (g m).moved b, t.pkt.isCacheInvalidate = false) ∧
    ∀ e : Entry 1, ∀ t ∈ (promoteDeferredTargets e).2.targets.list.drop e.targets.list.length,
      t.pkt.isCacheMaintenance = true →
        e.targets.list = [] ∧ (promoteDeferredTargets e).2.targets.list = [t] := by
  have h0 : Reaches step (fun h c => c.ok h ∧ c.stops h) (init : Heap 1) init := .refl
  have h1 := h0.step (i := cleanMiss) ⟨trivial, trivial⟩ rfl
  have h₂ := h1.step (i := missSent) ⟨trivial, trivial⟩ rfl
  have h3 := h₂.step (i := loadMiss) ⟨trivial, trivial⟩ rfl
  exact ⟨_, h3, rfl, rfl, maintenance_alone h3⟩

theorem lineReq_isRequest : MemCmd.WriteLineReq.testCmdAttrib .IsRequest = true := rfl
theorem storeReq_isRequest : MemCmd.WriteReq.testCmdAttrib .IsRequest = true := rfl

def linePkt : Pkt 1 := { cmd := .WriteLineReq, isRequest := lineReq_isRequest, mshr := none }
def storePkt : Pkt 1 := { cmd := .WriteReq, isRequest := storeReq_isRequest, mshr := none }

def lineMiss : Call 1 := .allocate 0 linePkt true
def cleanMissBehind : Call 1 := .allocateTarget 0 cleanPkt true
def storeMiss : Call 1 := .allocateTarget 0 storePkt true
def lineDone : Call 1 := .recvTimingResp ⟨.InvalidateResp, false, false, false⟩ 0

/-- **A clean request is promoted**: it waits behind a whole-line write, and a store behind it.  `promoteWritable`, which
the response of the line calls, stops at cache invalidates only and moves both; after the response both are on the
list. -/
theorem promoted_together : ∃ h h' : Heap 1, Reaches step (fun h c => c.ok h ∧ c.stops h) init h ∧
    ((h 0).targets.list.map fun t => t.pkt) = [linePkt] ∧
    ((h 0).deferredTargets.list.map fun t => t.pkt) = [cleanPkt, storePkt] ∧
    lineDone.ok h ∧ step h lineDone = some h' ∧ ((h' 0).targets.list.map fun t => t.pkt) = [cleanPkt, storePkt] ∧
    ¬ Alone (h' 0).targets.list := by
  have h0 : Reaches step (fun h c => c.ok h ∧ c.stops h) (init : Heap 1) init := .refl
  have h1 := h0.step (i := lineMiss) ⟨trivial, trivial⟩ rfl
  have h₂ := h1.step (i := missSent) ⟨trivial, trivial⟩ rfl
  have h3 := h₂.step (i := cleanMissBehind) ⟨trivial, trivial⟩ rfl
  have h4 := h3.step (i := storeMiss) ⟨trivial, trivial⟩ rfl
  refine ⟨_, _, h4, rfl, rfl, trivial, rfl, rfl, fun ha => ?_⟩
  exact absurd (ha ⟨cleanPkt, .FromCPU, false, true⟩ (by decide) rfl) (by decide)

end Alpine.Mem.Maintenance
