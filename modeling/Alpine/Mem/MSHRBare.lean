import Alpine.Mem.MSHRResp

/-!
# The operations of an MSHR without the marks (`mem/cache/mshr.cc`)

What the operations do to the target lists and their flags.  Which targets are marked, and which MSHRs are
pending, is left out: `bare` erases both, and a recursion of `clearDownstreamPending` is then the identity.

* `clear_bare`, `clearTargets_bare` — clearing changes nothing but marks.
* `add_bare`, `allocate_bare`, `markInService_bare`, `allocateTarget_bare`, `handleSnoop_bare`,
  `promoteIf_bare` — what a call that returns has done to the lists of its MSHR; the other MSHRs are
  the same.
-/

namespace Alpine.Mem.MSHR

open Alpine Alpine.Mem

variable {n : Nat}

/-! ## Erasing the marks -/

def TargetList.bare (l : TargetList n) : TargetList n := l.withList (l.list.map Target.unmark)

def Entry.bare (e : Entry n) : Entry n :=
  { e with
    downstreamPending := false
    targets := e.targets.bare
    deferredTargets := e.deferredTargets.bare }

def Heap.bare (h : Heap n) : Heap n := fun m => (h m).bare

theorem unmark_unmark (t : Target n) : t.unmark.unmark = t.unmark := rfl

variable (l : TargetList n)

@[simp] theorem TargetList.bare_list : l.bare.list = l.list.map Target.unmark := rfl

@[simp] theorem Entry.bare_list (e : Entry n) (w : Which) : e.bare.list w = (e.list w).bare := by
  cases w <;> rfl

theorem Heap.bare_update (h : Heap n) (m : Fin n) (e : Entry n) :
    Heap.bare (Function.update h m e) = Function.update h.bare m e.bare := by
  funext x
  unfold Heap.bare
  by_cases hx : x = m
  · rw [hx, Function.update_self, Function.update_self]
  · rw [Function.update_of_ne hx, Function.update_of_ne hx]

theorem Entry.bare_setList (e : Entry n) (w : Which) (l : TargetList n) :
    (e.setList w l).bare = e.bare.setList w l.bare := by cases w <;> rfl

theorem Heap.bare_setList (h : Heap n) (m : Fin n) (w : Which) (l : TargetList n) :
    (h.setList m w l).bare = h.bare.setList m w l.bare := by
  unfold Heap.setList
  rw [Heap.bare_update, Entry.bare_setList]
  rfl

theorem Heap.setList_self (h : Heap n) (m : Fin n) (w : Which) : h.setList m w ((h m).list w) = h := by
  unfold Heap.setList
  rw [show (h m).setList w ((h m).list w) = h m by cases w <;> rfl, Function.update_eq_self]

theorem Heap.bare_setDownstreamPending (h : Heap n) (m : Fin n) (b : Bool) :
    (h.setDownstreamPending m b).bare = h.bare := by
  unfold Heap.setDownstreamPending
  rw [Heap.bare_update]
  exact Function.update_eq_self m h.bare

/-! ## Clearing -/

theorem clearSender_bare {clear : Fin n → Heap n → Except Failure (Heap n)} {h h' : Heap n} {t : Target n}
    (hclear : ∀ {k h h'}, clear k h = .ok h' → h'.bare = h.bare) (hok : clearSender clear t h = .ok h') :
    h'.bare = h.bare := by
  unfold clearSender at hok
  split at hok
  · exact hclear hok
  · cases hok
    rfl

theorem clearTargets_bare {clear : Fin n → Heap n → Except Failure (Heap n)} {m : Fin n} {w : Which}
    {after : List (Target n)} (hclear : ∀ {k h h'}, clear k h = .ok h' → h'.bare = h.bare) :
    ∀ {todo before : List (Target n)} {h h' : Heap n}, clearTargets clear m w after before todo h = .ok h' →
      ((h m).list w).bare.list = (before ++ todo ++ after).map Target.unmark → h'.bare = h.bare
  | [], before, h, h', hok, _ => by
    cases hok
    rfl
  | t :: todo, before, h, h', hok, hlist => by
    rw [clearTargets] at hok
    obtain ⟨h1, hsender, hrest⟩ := bind_ok_iff.1 hok
    have h1bare := clearSender_bare hclear hsender
    -- the list is overwritten by what it was but for marks
    have hover : (h1.setList m w
        (((h1 m).list w).withList (before ++ t.unmark :: todo ++ after))).bare = h.bare := by
      have hsame : (((h1 m).list w).withList (before ++ t.unmark :: todo ++ after)).bare =
          (h.bare m).list w := by
        rw [← h1bare]
        have hl : ((h1 m).list w).bare.list = ((h m).list w).bare.list := by
          rw [← Entry.bare_list, ← Entry.bare_list]
          exact congrArg (fun h : Heap n => ((h m).list w).list) h1bare
        unfold Heap.bare
        rw [Entry.bare_list]
        unfold TargetList.bare at hl ⊢
        rw [show ((h1 m).list w).list.map Target.unmark =
          (before ++ t.unmark :: todo ++ after).map Target.unmark by
            rw [show ((h1 m).list w).list.map Target.unmark = _ from hl.trans hlist]
            simp [unmark_unmark]]
        rfl
      rw [Heap.bare_setList, h1bare, hsame, Heap.setList_self]
    rw [← hover]
    refine clearTargets_bare hclear hrest ?_
    unfold Heap.setList
    rw [Function.update_self, Entry.setList_list, if_pos rfl]
    show ((before ++ t.unmark :: todo ++ after).map Target.unmark) = _
    simp [unmark_unmark]

theorem clearDownstreamPending_bare : ∀ (fuel : Nat) {m : Fin n} {h h' : Heap n},
    clearDownstreamPending fuel m h = .ok h' → h'.bare = h.bare
  | 0, m, h, h', hok => by cases hok
  | fuel + 1, m, h, h', hok => by
    rw [clearDownstreamPending] at hok
    split at hok
    · rw [clearTargets_bare (clearDownstreamPending_bare fuel) hok ?_, Heap.bare_setDownstreamPending]
      unfold Heap.setDownstreamPending
      rw [Function.update_self]
      simp [Entry.list]
    · cases hok

theorem clear_bare {m : Fin n} {h h' : Heap n} (hok : clear m h = .ok h') : h'.bare = h.bare :=
  clearDownstreamPending_bare n hok

/-! ## Flags -/

/-- A target list with one more target. -/
def TargetList.push (l : TargetList n) (t : Target n) : TargetList n :=
  (l.updateFlags t.pkt t.source t.allocOnFill).withList (l.list ++ [t])

def Entry.push (e : Entry n) (w : Which) (t : Target n) : Entry n := e.setList w ((e.list w).push t)

theorem updateFlags_bare (pkt : Pkt n) (source : Source) (a : Bool) :
    (l.updateFlags pkt source a).bare = l.bare.updateFlags pkt source a := by
  unfold TargetList.updateFlags
  split
  · rfl
  · rfl

theorem updateFlags_withList (ts : List (Target n)) (pkt : Pkt n) (source : Source)
    (a : Bool) : (l.withList ts).updateFlags pkt source a = (l.updateFlags pkt source a).withList ts := by
  unfold TargetList.updateFlags
  split
  · rfl
  · rfl

theorem foldl_updateFlags_withList (ts us : List (Target n)) : ∀ l : TargetList n,
    (us.map Target.unmark).foldl (fun l t => l.updateFlags t.pkt t.source t.allocOnFill) (l.withList ts) =
      (us.foldl (fun l t => l.updateFlags t.pkt t.source t.allocOnFill) l).withList ts := by
  induction us with
  | nil => exact fun l => rfl
  | cons u us ih =>
    intro l
    rw [List.map_cons, List.foldl_cons, List.foldl_cons, updateFlags_withList]
    exact ih (l.updateFlags u.pkt u.source u.allocOnFill)

theorem populateFlags_bare : l.populateFlags.bare = l.bare.populateFlags := by
  have hfold := foldl_updateFlags_withList (l.list.map Target.unmark) l.list l.resetFlags
  unfold TargetList.bare
  rw [populateFlags_list]
  exact hfold.symm

theorem push_bare (t : Target n) : (l.push t).bare = l.bare.push t.unmark := by
  have hflags := updateFlags_bare l t.pkt t.source t.allocOnFill
  unfold TargetList.push
  show _ = (l.bare.updateFlags t.pkt t.source t.allocOnFill).withList _
  rw [← hflags, TargetList.bare_list, ← List.map_singleton, ← List.map_append]
  rfl

/-! ## Adding targets -/

variable {h h' : Heap n} {m : Fin n}

/-- One MSHR has changed. -/
def Heap.set (h : Heap n) (m : Fin n) (e : Entry n) : Heap n := Function.update h m e

@[simp] theorem Heap.set_same (h : Heap n) (m : Fin n) (e : Entry n) : h.set m e m = e := by
  unfold Heap.set
  exact Function.update_self ..

theorem Heap.set_ne (h : Heap n) {x : Fin n} (e : Entry n) (hx : x ≠ m) : h.set m e x = h x := by
  unfold Heap.set
  exact Function.update_of_ne hx ..

theorem Heap.bare_set (h : Heap n) (m : Fin n) (e : Entry n) : (h.set m e).bare = h.bare.set m e.bare :=
  Heap.bare_update h m e

@[simp] theorem Heap.set_set (h : Heap n) (m : Fin n) (e e' : Entry n) : (h.set m e).set m e' = h.set m e' := by
  unfold Heap.set
  exact Function.update_idem ..

theorem Heap.set_self (h : Heap n) (m : Fin n) : h.set m (h m) = h := Function.update_eq_self m h

@[simp] theorem Heap.bare_apply (h : Heap n) (m : Fin n) : h.bare m = (h m).bare := rfl

theorem check_ok {b : Bool} {u : Unit} (hok : check b = .ok u) : b = true := by
  unfold check at hok
  split at hok
  · assumption
  · cases hok

variable {pkt : Pkt n}

theorem add_bare {w : Which} {source : Source} {markPending a : Bool}
    (hok : add h m w pkt source markPending a = .ok h') :
    h'.bare = h.bare.set m ((h m).bare.push w ⟨pkt, source, false, a⟩) := by
  have hpush : ∀ (g : Heap n) (mark : Bool), g.bare = h.bare →
      (g.setList m w { ((h m).list w).updateFlags pkt source a with
        list := (((h m).list w).updateFlags pkt source a).list ++ [⟨pkt, source, mark, a⟩] }).bare =
        h.bare.set m ((h m).bare.push w ⟨pkt, source, false, a⟩) := by
    intro g mark hg
    rw [Heap.bare_setList, hg, updateFlags_list]
    have hl := push_bare ((h m).list w) ⟨pkt, source, mark, a⟩
    unfold Heap.setList Entry.push
    rw [Entry.bare_list]
    exact congrArg (fun l => Function.update h.bare m ((h m).bare.setList w l)) hl
  unfold add at hok
  dsimp only at hok
  split at hok
  · split at hok
    · cases hok
    · cases hok
      exact hpush _ true (Heap.bare_setDownstreamPending h _ true)
  · cases hok
    exact hpush h false rfl

theorem allocate_bare {a : Bool} (hok : allocate m pkt a h = .ok h') :
    (h m).targets.list = [] ∧ (h m).deferredTargets.list = [] ∧ h'.bare = h.bare.set m (({ (h m).bare with
        allocated := true, isForward := false, inService := false } : Entry n).push .targets
          ⟨pkt, if pkt.cmd = .HardPFReq then .FromPrefetcher else .FromCPU, false, a⟩) := by
  unfold allocate at hok
  obtain ⟨_, -, hok⟩ := bind_ok_iff.1 hok
  obtain ⟨_, hempty, hok⟩ := bind_ok_iff.1 hok
  obtain ⟨_, -, hok⟩ := bind_ok_iff.1 hok
  obtain ⟨h2, hadd, hok⟩ := bind_ok_iff.1 hok
  obtain ⟨_, -, hok⟩ := bind_ok_iff.1 hok
  cases hok
  have hlength := of_decide_eq_true (check_ok hempty)
  refine ⟨List.length_eq_zero_iff.1 (by omega), List.length_eq_zero_iff.1 (by omega), ?_⟩
  rw [add_bare hadd]
  rw [Function.update_self, Heap.bare_update]
  exact Function.update_idem _ _ _

theorem markInService_bare {b : Bool} (hok : markInService m b h = .ok h') : h'.bare = h.bare.set m { (h m).bare with
      inService := true
      pendingModified := (h m).targets.needsWritable || b
      postInvalidate := false
      postDowngrade := false } := by
  unfold markInService at hok
  obtain ⟨_, -, hok⟩ := bind_ok_iff.1 hok
  dsimp only at hok
  split at hok
  · rw [clearTargets_bare clear_bare hok]
    · exact Heap.bare_update h m _
    · rw [Function.update_self]
      simp [Entry.list]
  · cases hok
    exact Heap.bare_update h m _

/-- A request that goes to the regular list finds the deferred one empty. -/
theorem allocateTarget_bare {a : Bool} (hok : allocateTarget m pkt a h = .ok h') :
    ∃ w pkt', (pkt' = pkt ∨ pkt' = replaceUpgrade pkt) ∧ (h m).targets.list ≠ [] ∧
      (w = .targets → (h m).deferredTargets.list = []) ∧
      h'.bare = h.bare.set m ((h m).bare.push w ⟨pkt', .FromCPU, false, a⟩) := by
  unfold allocateTarget at hok
  obtain ⟨_, -, hok⟩ := bind_ok_iff.1 hok
  cases hl : (h m).targets.list with
  | nil =>
    rw [hl] at hok
    cases hok
  | cons front rest =>
    rw [hl] at hok
    dsimp only at hok
    split at hok
    · refine ⟨.deferredTargets, _, ?_, List.cons_ne_nil _ _, fun hw => (nomatch hw), add_bare hok⟩
      split
      · exact .inr rfl
      · exact .inl rfl
    · rename_i hdefers
      refine ⟨.targets, pkt, .inl rfl, List.cons_ne_nil _ _, fun _ => ?_, add_bare hok⟩
      unfold defers at hdefers
      by_contra hne
      have hfull : (h m).deferredTargets.list.isEmpty = false := by
        cases hd : (h m).deferredTargets.list with
        | nil => exact absurd hd hne
        | cons _ _ => rfl
      rw [hfull] at hdefers
      simp at hdefers

/-- The target that a snoop leaves. -/
def Entry.saves (e : Entry n) (pkt : Pkt n) : List (Target n) :=
  if !e.inService || (pkt.isExpressSnoop && e.downstreamPending) then []
  else
    match e.targets.list with
    | [] => []
    | front :: _ =>
      if e.postInvalidate || front.pkt.isCacheInvalidate then []
      else if e.pendingModified || pkt.isInvalidate then
        [⟨snoopCopy pkt (e.pendingModified && pkt.needsResponse && !pkt.isClean), .FromSnoop, false, false⟩]
      else []

/-- The list is the same, or its upgrades are replaced. -/
def TargetList.Upgraded (l l' : TargetList n) : Prop := l' = l ∨ l' = l.replaceUpgrades

def TargetList.pushAll (l : TargetList n) (ts : List (Target n)) : TargetList n := ts.foldl .push l

theorem replaceUpgrades_bare : l.replaceUpgrades.bare = l.bare.replaceUpgrades := by
  unfold TargetList.replaceUpgrades
  split
  · rename_i hup
    rw [if_pos (show l.bare.hasUpgrade = true from hup)]
    simp [TargetList.bare, TargetList.withList, Target.unmark]
  · rename_i hup
    rw [if_neg (show ¬ l.bare.hasUpgrade = true from hup)]

theorem saveSnoop_bare {r : Heap n × Pkt n} (hok : saveSnoop m pkt h = .ok r) :
    ∃ b, r.1.bare = h.bare.set m { ((h m).bare.push .targets
      ⟨snoopCopy pkt ((h m).pendingModified && pkt.needsResponse && !pkt.isClean), .FromSnoop, false, false⟩)
        with postInvalidate := b } := by
  unfold saveSnoop at hok
  obtain ⟨_, -, hok⟩ := bind_ok_iff.1 hok
  obtain ⟨h1, hadd, hok⟩ := bind_ok_iff.1 hok
  cases hok
  dsimp only
  split
  · refine ⟨true, ?_⟩
    have hset : (h1.setPostInvalidate m).bare = h1.bare.set m { h1.bare m with postInvalidate := true } :=
      Heap.bare_update h1 m _
    rw [hset, add_bare hadd, Heap.set_same, Heap.set_set]
  · exact ⟨_, add_bare hadd⟩

theorem TargetList.Upgraded.bare {l l' : TargetList n} (h : l.Upgraded l') : l.bare.Upgraded l'.bare := by
  rcases h with rfl | rfl
  · exact .inl rfl
  · exact .inr (replaceUpgrades_bare l)

/-- What a snoop does to its MSHR: the upgrades of a list may be replaced, and the snoop may be saved. -/
structure Entry.Snooped (e e' : Entry n) (pkt : Pkt n) : Prop where
  targets : ∃ l, TargetList.Upgraded e.bare.targets l ∧ e'.targets = l.pushAll (e.saves pkt)
  deferred : TargetList.Upgraded e.bare.deferredTargets e'.deferredTargets
  allocated : e'.allocated = e.allocated

/-- A snoop that finds the MSHR in service; the upgrades of the deferred list have been replaced. -/
theorem handleSnoop_inService {d : TargetList n} {r : Heap n × Pkt n × Bool}
    (hin : ¬ (!(h m).inService || (pkt.isExpressSnoop && (h m).downstreamPending)) = true)
    (hd : (h m).deferredTargets.Upgraded d) {e : Entry n} (he : e = { h m with deferredTargets := d })
    (hok : (match e.targets.list with
      | [] => .error .assertion
      | front :: _ =>
        if e.postInvalidate || front.pkt.isCacheInvalidate then .ok (h.set m e, pkt, true)
        else do
          let (h2, pkt2) ← (if e.pendingModified || pkt.isInvalidate then saveSnoop m pkt (h.set m e)
            else .ok (h.set m e, pkt))
          if !pkt.needsWritable && !pkt.reqUncacheable then
            return (h2.setPostDowngrade m, { pkt2 with hasSharers := true }, true)
          else return (h2, pkt2, true)) = (Except.ok r : Except Failure _)) :
    ∃ e', r.1.bare = h.bare.set m e' ∧ (h m).Snooped e' pkt := by
  have hdb : (h m).bare.deferredTargets.Upgraded e.bare.deferredTargets := by
    rw [he]
    exact hd.bare
  have htb : e.bare.targets = (h m).bare.targets := by rw [he]; rfl
  have hlist : e.targets.list = (h m).targets.list := by rw [he]
  have hset : (h.set m e).bare = h.bare.set m e.bare := Heap.bare_set h m e
  have hpost : e.postInvalidate = (h m).postInvalidate := by rw [he]
  have hmod : e.pendingModified = (h m).pendingModified := by rw [he]
  have halloc : e.allocated = (h m).allocated := by rw [he]
  rw [hlist, hpost, hmod] at hok
  cases hl : (h m).targets.list with
  | nil =>
    rw [hl] at hok
    cases hok
  | cons front rest =>
    rw [hl] at hok
    dsimp only at hok
    have hsaves : (h m).saves pkt = if (h m).postInvalidate || front.pkt.isCacheInvalidate then []
        else if (h m).pendingModified || pkt.isInvalidate then
          [⟨snoopCopy pkt ((h m).pendingModified && pkt.needsResponse && !pkt.isClean), .FromSnoop, false,
            false⟩]
        else [] := by
      unfold Entry.saves
      rw [if_neg hin, hl]
    split at hok
    · rename_i hinv
      cases hok
      rw [if_pos hinv] at hsaves
      exact ⟨e.bare, hset, ⟨_, .inl rfl, by rw [hsaves, htb]; rfl⟩, hdb, halloc⟩
    · rename_i hinv
      rw [if_neg hinv] at hsaves
      obtain ⟨⟨h2, pkt2⟩, hsave, hok⟩ := bind_ok_iff.1 hok
      obtain ⟨e2, h2bare, htargets, hdeferred, hallocated⟩ : ∃ e2, h2.bare = h.bare.set m e2 ∧
          e2.targets = (h m).bare.targets.pushAll ((h m).saves pkt) ∧
          e2.deferredTargets = e.bare.deferredTargets ∧ e2.allocated = (h m).allocated := by
        split at hsave
        · rename_i hsaved
          rw [if_pos hsaved] at hsaves
          obtain ⟨b, hb⟩ := saveSnoop_bare hsave
          rw [Heap.set_same, hset, Heap.set_set, hmod] at hb
          refine ⟨_, hb, ?_, rfl, halloc⟩
          rw [hsaves, ← htb]
          rfl
        · rename_i hsaved
          rw [if_neg hsaved] at hsaves
          cases hsave
          exact ⟨e.bare, hset, by rw [hsaves, htb]; rfl, rfl, halloc⟩
      split at hok
      · cases hok
        refine ⟨{ e2 with postDowngrade := true }, ?_, ⟨_, .inl rfl, htargets⟩, hdeferred ▸ hdb, hallocated⟩
        have hdown : (h2.setPostDowngrade m).bare =
            h2.bare.set m { h2.bare m with postDowngrade := true } := Heap.bare_update h2 m _
        rw [hdown, h2bare, Heap.set_same, Heap.set_set]
      · cases hok
        exact ⟨e2, h2bare, ⟨_, .inl rfl, htargets⟩, hdeferred ▸ hdb, hallocated⟩

theorem handleSnoop_bare {r : Heap n × Pkt n × Bool} (hok : handleSnoop m pkt h = .ok r) :
    ∃ e', r.1.bare = h.bare.set m e' ∧ (h m).Snooped e' pkt := by
  unfold handleSnoop at hok
  obtain ⟨_, -, hok⟩ := bind_ok_iff.1 hok
  dsimp only at hok
  split at hok
  · rename_i hout
    have hsaves : (h m).saves pkt = [] := if_pos hout
    split at hok
    · cases hok
      have hboth : (h.replaceUpgrades m .targets).replaceUpgrades m .deferredTargets =
          h.set m { h m with
            targets := (h m).targets.replaceUpgrades
            deferredTargets := (h m).deferredTargets.replaceUpgrades } := by
        unfold Heap.replaceUpgrades Heap.setList
        rw [Function.update_self]
        exact Function.update_idem ..
      dsimp only
      rw [hboth, Heap.bare_set]
      exact ⟨_, rfl, ⟨_, .inr (replaceUpgrades_bare _), by rw [hsaves]; rfl⟩,
        .inr (replaceUpgrades_bare _), rfl⟩
    · cases hok
      exact ⟨h.bare m, (Heap.set_self _ _).symm, ⟨_, .inl rfl, by rw [hsaves]; rfl⟩, .inl rfl, rfl⟩
  · rename_i hin
    by_cases hup : (pkt.needsWritable || pkt.isCacheInvalidate) = true
    · rw [if_pos hup] at hok
      have hset : h.replaceUpgrades m .deferredTargets =
          h.set m { h m with deferredTargets := (h m).deferredTargets.replaceUpgrades } := rfl
      rw [hset, Heap.set_same] at hok
      exact handleSnoop_inService hin (.inr rfl) rfl hok
    · rw [if_neg hup] at hok
      refine handleSnoop_inService (d := (h m).deferredTargets) hin (.inl rfl) rfl ?_
      rw [Heap.set_self]
      exact hok

/-! ## Promotion -/

theorem splitFromCPU_source (pred : Target n → Bool) : ∀ {ts pre rest : List (Target n)},
    splitFromCPU pred ts = .ok (pre, rest) → ∀ t ∈ pre, t.source = .FromCPU
  | [], pre, rest, hok, t, ht => by
    cases hok
    cases ht
  | t :: ts, pre, rest, hok, u, hu => by
    unfold splitFromCPU at hok
    obtain ⟨_, hsource, hok⟩ := bind_ok_iff.1 hok
    split at hok
    · obtain ⟨⟨pre', rest'⟩, hsplit, hok⟩ := bind_ok_iff.1 hok
      cases hok
      rcases List.mem_cons.1 hu with rfl | hu
      · exact of_decide_eq_true (check_ok hsource)
      · exact splitFromCPU_source pred hsplit u hu
    · cases hok
      cases hu

/-- The first `k` deferred targets move to the end of the regular list. -/
def Entry.promote (e : Entry n) (k : ℕ) : Entry n :=
  { e with
    targets := e.targets.withList (e.targets.list ++ e.deferredTargets.list.take k)
    deferredTargets := (e.deferredTargets.withList (e.deferredTargets.list.drop k)).populateFlags }

theorem Entry.bare_promote (e : Entry n) (k : ℕ) : (e.promote k).bare = e.bare.promote k := by
  have htargets : (e.promote k).targets.bare = (e.bare.promote k).targets := by
    unfold Entry.promote TargetList.bare TargetList.withList
    dsimp only
    rw [List.map_append, List.map_take]
    rfl
  have hdeferred : (e.promote k).deferredTargets.bare = (e.bare.promote k).deferredTargets := by
    show (TargetList.populateFlags _).bare = TargetList.populateFlags _
    rw [populateFlags_bare]
    unfold TargetList.bare TargetList.withList
    dsimp only
    rw [List.map_drop]
    rfl
  show ({ (e.promote k) with
      downstreamPending := false
      targets := (e.promote k).targets.bare
      deferredTargets := (e.promote k).deferredTargets.bare } : Entry n) = _
  rw [htargets, hdeferred]
  rfl

/-- How many deferred targets are moved. -/
def Entry.prefixLength (e : Entry n) (f : Pkt n → Bool) : ℕ :=
  (e.deferredTargets.list.takeWhile fun t => f t.pkt).length

theorem promoteIf_bare {f : Pkt n → Bool} (hok : promoteIf (fun t => f t.pkt) m h = .ok h') :
    (∀ t ∈ (h m).deferredTargets.list.take ((h m).prefixLength f), t.source = .FromCPU) ∧
      h'.bare = h.bare.set m ((h m).bare.promote ((h m).prefixLength f)) := by
  unfold promoteIf at hok
  obtain ⟨_, -, hrun⟩ := bind_ok_iff.1 hok
  obtain ⟨⟨pre, rest⟩, hsplit, hmove⟩ := bind_ok_iff.1 hrun
  obtain ⟨h1, hclear, hdone⟩ := bind_ok_iff.1 hmove
  have hcpu := splitFromCPU_source _ hsplit
  obtain ⟨rfl, rfl⟩ := Prod.mk.inj ((splitFromCPU_outcome _ _).of_ok hsplit)
  have h1bare : h1.bare = h.bare := clearTargets_bare clear_bare hclear (by
    simp [Entry.list, List.takeWhile_append_dropWhile])
  cases hdone
  refine ⟨?_, ?_⟩
  · have htake : (h m).deferredTargets.list.take ((h m).prefixLength f) =
        (h m).deferredTargets.list.takeWhile fun t => f t.pkt :=
      (List.prefix_iff_eq_take.1 (List.takeWhile_prefix _)).symm
    rw [htake]
    exact hcpu
  · have hset : h1.bare m = (h m).bare := congrFun h1bare m
    show Heap.bare (h1.set m ((h1 m).promote ((h m).prefixLength f))) = _
    rw [Heap.bare_set, Entry.bare_promote, ← Heap.bare_apply, hset, h1bare]

/-- A call that may move deferred targets to the regular list. -/
structure Entry.Promoted (e e' : Entry n) (f : Pkt n → Bool) (writable : Bool) : Prop where
  cpu : ∀ t ∈ e.deferredTargets.list.take (e.prefixLength f), t.source = .FromCPU
  eq : e' = (e.bare.setList .targets
    { e.bare.targets with needsWritable := e.bare.targets.needsWritable || writable }).promote
      (e.prefixLength f)

/-- The packets that `promoteReadable` and `promoteWritable` move. -/
def Pkt.readable (pkt : Pkt n) : Bool := !pkt.isCacheInvalidate && !pkt.needsWritable
def Pkt.promotable (pkt : Pkt n) : Bool := !pkt.isCacheInvalidate

/-- `promoteReadable` does something. -/
def Entry.promotesReadable (e : Entry n) : Bool := !e.deferredTargets.list.isEmpty && !e.postInvalidate

theorem promoteReadable_bare (hok : promoteReadable m h = .ok h') : ((h m).promotesReadable = false ∧ h' = h) ∨
      ∃ e', h'.bare = h.bare.set m e' ∧ (h m).promotesReadable = true ∧ (h m).Promoted e' Pkt.readable false := by
  unfold promoteReadable at hok
  split at hok
  · rename_i hp
    obtain ⟨hcpu, hbare⟩ := promoteIf_bare (f := Pkt.readable) hok
    refine .inr ⟨_, hbare, hp, hcpu, ?_⟩
    rw [Bool.or_false]
    rfl
  · rename_i hp
    cases hok
    exact .inl ⟨Bool.eq_false_iff.2 hp, rfl⟩

theorem promoteWritable_bare (hok : promoteWritable m h = .ok h') : ((h m).promotes = false ∧ h' = h) ∨
      ∃ e', h'.bare = h.bare.set m e' ∧ (h m).promotes = true ∧ (h m).Promoted e' Pkt.promotable true := by
  unfold promoteWritable at hok
  split at hok
  · rename_i hp
    obtain ⟨_, -, hok⟩ := bind_ok_iff.1 hok
    obtain ⟨hcpu, hbare⟩ := promoteIf_bare (f := Pkt.promotable) hok
    have hset : h.setList m .targets { (h m).targets with needsWritable := true } =
        h.set m { h m with targets := { (h m).targets with needsWritable := true } } := rfl
    rw [hset, Heap.set_same] at hcpu hbare
    rw [Heap.bare_set, Heap.set_set] at hbare
    refine .inr ⟨_, hbare, hp, hcpu, ?_⟩
    rw [Bool.or_true]
    rfl
  · rename_i hp
    cases hok
    exact .inl ⟨Bool.eq_false_iff.2 hp, rfl⟩

end Alpine.Mem.MSHR
