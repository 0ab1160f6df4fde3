import Alpine.Lib.Run
import Alpine.Mem.MSHRResp

/-!
# What `downstreamPending` tells the caches above

The MSHRs of a hierarchy of caches, each at its depth from memory, and the one whose packet is being
sent.  A packet that is sent is taken by one MSHR of a cache below, or snooped by the other caches on
the bus, before the next is sent; a response comes when no target holds the request any more.

* `downstreamPending_truthful` — the assertions in `TargetList::add` and `clearDownstreamPending` never
  fail; and in every run that appends no request unmarked to a pending MSHR and leaves none on the
  list after a response, `downstreamPending` of the MSHR above is true exactly while its target is
  deferred, or its MSHR is not in service or pending itself.
* `downstreamPending_lost` — a request coalesced with one in service that is buffered further down is
  not told.
-/

namespace Alpine.Mem.MSHR

open Alpine Alpine.Mem Alpine.Run

variable {n : Nat} {depth : Fin n → ℕ}

/-! ## The system -/

/-- `sending` is the MSHR whose packet is under way to the caches below, `sentAt` when each MSHR was
sent last. -/
structure Sys (n : Nat) where
  heap : Heap n
  sending : Option (Fin n)
  sentAt : Fin n → ℕ
  clock : ℕ

def Sys.init : Sys n := ⟨fun _ => .new, none, fun _ => 0, 1⟩

def Sys.setHeap (σ : Sys n) (h : Heap n) : Sys n := { σ with heap := h }

def Sys.sent (σ : Sys n) (h : Heap n) : Sys n := { σ with heap := h, sending := none }

inductive Call (n : Nat) where
  | allocate (m : Fin n) (pkt : Pkt n) (alloc_on_fill : Bool)
  | allocateTarget (m : Fin n) (pkt : Pkt n) (alloc_on_fill : Bool)
  | beginSend (m : Fin n)
  | abortSend (m : Fin n)
  | markInService (m : Fin n) (pending_modified_resp : Bool)
  | handleSnoop (m : Fin n) (pkt : Pkt n)
  | recvTimingResp (r : Resp) (m : Fin n)
  | forceDeallocateTarget (m : Fin n)

def Call.run (σ : Sys n) : Call n → Except Failure (Sys n)
  | .allocate m pkt a => (MSHR.allocate m pkt a σ.heap).map σ.setHeap
  | .allocateTarget m pkt a => (MSHR.allocateTarget m pkt a σ.heap).map σ.setHeap
  | .beginSend m =>
    .ok { σ with
      sending := some m
      sentAt := Function.update σ.sentAt m σ.clock
      clock := σ.clock + 1 }
  | .abortSend _ => .ok (σ.sent σ.heap)
  | .markInService m b => (MSHR.markInService m b σ.heap).map σ.sent
  | .handleSnoop m pkt => (MSHR.handleSnoop m pkt σ.heap).map fun r => σ.setHeap r.1
  | .recvTimingResp r m => (MSHR.recvTimingResp r m σ.heap).map σ.setHeap
  | .forceDeallocateTarget m => (MSHR.forceDeallocateTarget m σ.heap).map σ.setHeap

/-- No target holds the request of `k`, and no snoop waits to answer it. -/
def Sys.Untaken (σ : Sys n) (k : Fin n) : Prop :=
  ∀ m w, ∀ t ∈ ((σ.heap m).list w).list, t.pkt.mshr = some k → t.source = .FromSnoop ∧
    t.markedPending = false

/-- The MSHR a packet comes from has just been sent, and no target holds its request yet. -/
def Sys.Arrives (σ : Sys n) (pkt : Pkt n) : Prop :=
  ∀ k, pkt.mshr = some k → σ.sending = some k ∧ σ.Untaken k

/-- What the caches promise: a request comes from a cache above, a snoop from below or from a cache on
the same bus; a packet is sent for an MSHR that is waiting, one at a time; a response comes once
the request has left the targets it was in. -/
def Call.ok (depth : Fin n → ℕ) (σ : Sys n) : Call n → Prop
  | .allocate m pkt _ =>
    σ.Arrives pkt ∧ (∀ k, pkt.mshr = some k → depth m < depth k) ∧
      (pkt.cmd = .HardPFReq → pkt.mshr = none)
  | .allocateTarget m pkt _ => σ.Arrives pkt ∧ ∀ k, pkt.mshr = some k → depth m < depth k
  | .beginSend m =>
    σ.sending = none ∧ (σ.heap m).allocated = true ∧ (σ.heap m).inService = false
  | .abortSend m => σ.sending = some m ∧ σ.Untaken m
  | .markInService m _ => σ.sending = some m
  | .handleSnoop m pkt =>
    pkt.isExpressSnoop = true ∨ (σ.Arrives pkt ∧ ∀ k, pkt.mshr = some k → depth m = depth k)
  | .recvTimingResp _ m => σ.sending = none ∧ (σ.heap m).inService = true ∧ σ.Untaken m
  | .forceDeallocateTarget m =>
    σ.sending = none ∧ (σ.heap m).inService = false ∧
      ∀ t, (σ.heap m).targets.list.head? = some t → t.source = .FromPrefetcher

/-- The call tells the MSHRs above all that changes for them. -/
def Call.tells (σ : Sys n) : Call n → Prop
  | .allocateTarget m pkt _ => ¬Slips m pkt σ.heap
  | .recvTimingResp r m => r.Releases (σ.heap m)
  | _ => True

def step (σ : Sys n) (c : Call n) : Option (Sys n) := (c.run σ).toOption

/-! ## One step -/

theorem untaken_count {σ : Sys n} {k : Fin n} (hu : σ.Untaken k) :
    MSHR.count TargetView.links σ.heap.views k = 0 := by
  by_contra hne
  obtain ⟨m, w, t, ht, hk⟩ := exists_of_count_pos (Nat.pos_of_ne_zero hne)
  rw [Heap.views, view_list] at ht
  obtain ⟨u, hu', rfl⟩ := List.mem_map.1 ht
  unfold TargetView.links at hk
  split at hk
  · rename_i hor
    obtain ⟨hs, hm⟩ := hu m w u hu' hk
    rcases hor with hor | hor
    · exact hor hs
    · cases hm.symm.trans hor
  · cases hk

theorem Inv.beginSend {V : Views n} {sentAt : Fin n → ℕ} {clock : ℕ} {m : Fin n}
    (hi : Inv depth V none sentAt clock) (hal : (V m).allocated = true) (hin : (V m).inService = false) :
    Inv depth V (some m) (Function.update sentAt m clock) (clock + 1) := by
  refine ⟨?_, hi.marks, hi.links, ?_, ?_, ?_⟩
  · intro x
    have hx := hi.views x
    refine ⟨hx.deferred, ?_, hx.snooped, hx.waiting, hx.prefetch, hx.allocated⟩
    intro w t ht hmark
    obtain ⟨k, hk, habove⟩ := hx.marked w t ht hmark
    refine ⟨k, hk, ?_⟩
    unfold Above at *
    split
    · -- a marked snoop waits in an MSHR that is in service
      rename_i hs
      rw [if_pos hs] at habove
      have hxm : x ≠ m := by
        rintro rfl
        cases w with
        | targets => cases hin.symm.trans (hx.snooped t ht hs hmark).1
        | deferredTargets => cases (hx.deferred t ht).1.symm.trans hs
      rw [Function.update_of_ne hxm]
      refine ⟨habove.1, ?_⟩
      by_cases hkm : k = m
      · subst hkm
        rw [Function.update_self]
        exact hi.clock x
      · rw [Function.update_of_ne hkm]
        exact habove.2
    · rename_i hs
      rw [if_neg hs] at habove
      exact habove
  · intro k hk
    exact .inl ((hi.linked k hk).resolve_right (fun h => by cases h))
  · intro k hk
    obtain rfl := Option.some.inj hk
    refine ⟨hal, hin, fun x hx => ?_⟩
    rw [Function.update_of_ne hx, Function.update_self]
    exact hi.clock x
  · intro x
    by_cases hx : x = m
    · rw [hx, Function.update_self]
      exact Nat.lt_succ_self _
    · rw [Function.update_of_ne hx]
      exact Nat.lt_succ_of_lt (hi.clock x)

theorem Inv.abortSend {V : Views n} {sentAt : Fin n → ℕ} {clock : ℕ} {m : Fin n}
    (hi : Inv depth V (some m) sentAt clock) (hun : MSHR.count TargetView.links V m = 0) :
    Inv depth V none sentAt clock := by
  refine ⟨hi.views, hi.marks, hi.links, ?_, fun k hk => (nomatch hk), hi.clock⟩
  intro k hk
  refine .inl ((hi.linked k hk).resolve_right fun hs => ?_)
  obtain rfl := Option.some.inj hs
  omega

/-- The protocol is kept in a state; while `P` holds every target is told. -/
def Sys.Kept (depth : Fin n → ℕ) (P : Prop) (σ : Sys n) : Prop :=
  MSHR.Kept depth σ.sending σ.sentAt σ.clock P σ.heap

/-- **Step lemma.**  A call fails only with an assertion that is not about `downstreamPending`, and
keeps the protocol. -/
theorem run_kept {P : Prop} {σ : Sys n} {c : Call n} (hk : σ.Kept depth P) (hok : c.ok depth σ) :
    Outcome Elsewhere (Sys.Kept depth (P ∧ c.tells σ)) (c.run σ) := by
  have hfresh : ∀ {m pkt}, σ.Arrives pkt → (∀ k, pkt.mshr = some k → depth m < depth k) →
      Fresh depth σ.sending m σ.heap pkt := fun ha hd k hmshr =>
    ⟨(ha k hmshr).1, untaken_count (ha k hmshr).2, hd k hmshr⟩
  cases c with
  | allocate m pkt a =>
    refine (allocate_kept hk (hfresh hok.1 hok.2.1) hok.2.2).map fun h hk' => ?_
    exact MSHR.Kept.mono hk' fun hP => hP.1
  | allocateTarget m pkt a =>
    exact (allocateTarget_kept hk (hfresh hok.1 hok.2)).map fun h hk' => hk'
  | beginSend m =>
    obtain ⟨hs, hal, hin⟩ := hok
    unfold Sys.Kept at hk
    rw [hs] at hk
    exact ⟨hk.1.beginSend hal hin, fun hP => hk.2 hP.1⟩
  | abortSend m =>
    obtain ⟨hs, hun⟩ := hok
    unfold Sys.Kept at hk
    rw [hs] at hk
    exact ⟨hk.1.abortSend (untaken_count hun), fun hP => hk.2 hP.1⟩
  | markInService m b =>
    unfold Sys.Kept at hk
    rw [show σ.sending = some m from hok] at hk
    refine (markInService_kept hk).map fun h hk' => ?_
    exact MSHR.Kept.mono hk' fun hP => hP.1
  | handleSnoop m pkt =>
    have hs : Snoopable depth σ.sending m σ.heap pkt := by
      refine hok.imp_right fun ⟨ha, hd⟩ k hmshr => ?_
      exact ⟨(ha k hmshr).1, untaken_count (ha k hmshr).2, hd k hmshr⟩
    refine (handleSnoop_kept hk hs).map fun r hk' => ?_
    exact MSHR.Kept.mono hk' fun hP => hP.1
  | recvTimingResp r m =>
    obtain ⟨hs, hin, hun⟩ := hok
    have hcount := untaken_count hun
    have hserving : Serving m σ.heap := ⟨hin, hk.1.not_pending hcount, hcount⟩
    unfold Sys.Kept at hk
    rw [hs] at hk
    refine (recvTimingResp_kept (r := r) hk hserving).map fun h hk' => ?_
    show MSHR.Kept depth σ.sending σ.sentAt σ.clock _ h
    rw [hs]
    exact hk'
  | forceDeallocateTarget m =>
    obtain ⟨hs, hin, hpf⟩ := hok
    unfold Sys.Kept at hk
    rw [hs] at hk
    refine (forceDeallocateTarget_kept hk hin hpf).map fun h hk' => ?_
    show MSHR.Kept depth σ.sending σ.sentAt σ.clock _ h
    rw [hs]
    exact MSHR.Kept.mono hk' fun hP => hP.1

theorem init_kept (depth : Fin n → ℕ) (P : Prop) : (Sys.init : Sys n).Kept depth P := by
  have hcount : ∀ f k, MSHR.count f (Sys.init : Sys n).heap.views k = 0 := by
    intro f k
    by_contra hne
    obtain ⟨m, w, t, ht, _⟩ := exists_of_count_pos (Nat.pos_of_ne_zero hne)
    cases w <;> cases ht
  refine ⟨⟨?_, ?_, ?_, ?_, fun k hk => (nomatch hk), fun _ => Nat.one_pos⟩, fun _ m t ht => (nomatch ht)⟩
  · intro m
    refine ⟨fun t ht => (nomatch ht), fun w t ht => ?_, fun t ht => (nomatch ht),
      fun t ht => (nomatch ht), fun t ht => (nomatch ht), fun hin => (nomatch hin)⟩
    cases w <;> cases ht
  · exact fun k => hcount _ k
  · exact fun k => (hcount _ k).le.trans (Nat.zero_le 1)
  · intro k hk
    exact absurd hk (by rw [hcount]; exact lt_irrefl 0)

theorem step_kept {P : Prop} {σ σ' : Sys n} {c : Call n} (hk : σ.Kept depth P) (hok : c.ok depth σ)
    (htell : P → c.tells σ) (hs : step σ c = some σ') : σ'.Kept depth P := by
  have hout := run_kept hk hok
  exact MSHR.Kept.mono (hout.of_ok (toOption_eq_some.1 hs)) fun hP => ⟨hP, htell hP⟩

/-! ## Runs -/

theorem two_links {σ : Sys n} {m m' : Fin n} {w w' : Which} {t t' : TargetView n} {k : Fin n}
    (ht : t ∈ (σ.heap.views m).list w) (ht' : t' ∈ (σ.heap.views m').list w') (hne : t ≠ t')
    (hk : t.links = some k) (hk' : t'.links = some k) : 2 ≤ MSHR.count TargetView.links σ.heap.views k := by
  by_cases hp : ((m, w) : Fin n × Which) = (m', w')
  · cases hp
    have hle := Tokens.count_le
      (fun p : Fin n × Which => ((σ.heap.views p.1).list p.2).map TargetView.links) (m, w) (some k)
    refine le_trans ?_ hle
    -- two targets of one list
    obtain ⟨a, b, hab⟩ := List.append_of_mem ht
    simp only [hab] at ht' ⊢
    have hmem : t' ∈ a ++ b := by
      rcases List.mem_append.1 ht' with h | h
      · exact List.mem_append_left b h
      · rcases List.mem_cons.1 h with h | h
        · exact absurd h.symm hne
        · exact List.mem_append_right a h
    have hpos : 0 < ((a ++ b).map TargetView.links).count (some k) :=
      List.count_pos_iff.2 (hk' ▸ List.mem_map_of_mem hmem)
    simp only [List.map_append, List.map_cons, List.count_append, List.count_cons, hk] at hpos ⊢
    simp only [beq_self_eq_true, if_true]
    omega
  · exact Tokens.two_le_count hp (hk ▸ List.mem_map_of_mem ht) (hk' ▸ List.mem_map_of_mem ht')

/-- What `downstreamPending` of the MSHR `k` above tells, where its target `t` is on list `w` of `m`. -/
theorem Sys.Kept.truthful {P : Prop} {σ : Sys n} (hσ : σ.Kept depth P) (hP : P) {m k : Fin n}
    {w : Which} {t : Target n} (ht : t ∈ ((σ.heap m).list w).list) (hs : t.source = .FromCPU)
    (hk : t.pkt.mshr = some k) : (σ.heap k).downstreamPending = true ↔
      w = .deferredTargets ∨ (σ.heap m).inService = false ∨ (σ.heap m).downstreamPending = true := by
  obtain ⟨hi, hT⟩ := hσ
  have hmem : t.view ∈ (σ.heap.views m).list w := mem_views ht
  have hne : t.view.mshr ≠ none := by
    rw [show t.view.mshr = some k from hk]
    exact fun h => (nomatch h)
  have hcpu : t.view.source ≠ .FromSnoop := by
    rw [show t.view.source = .FromCPU from hs]
    decide
  have hlink : t.view.links = some k := (if_pos (.inl hcpu)).trans hk
  -- the mark of the target is the flag of the MSHR it points to
  have hflag : (σ.heap.views k).pending = true ↔ t.view.marked = true := by
    constructor
    · intro hp
      have hpos : 0 < MSHR.count TargetView.marks σ.heap.views k := by
        rw [hi.marks k, if_pos hp]
        exact Nat.one_pos
      obtain ⟨m', w', t', ht', hk'⟩ := exists_of_count_pos hpos
      by_cases heq : t.view = t'
      · rw [heq]
        exact (TargetView.marks_some hk').1
      · have htwo := two_links hmem ht' heq hlink (TargetView.links_of_marks hk')
        have hone := hi.links k
        omega
    · intro hm
      by_contra hp
      have hzero := hi.marks k
      rw [if_neg hp] at hzero
      have hmark : t.view.marks = some k := (if_pos hm).trans hk
      have hpos := count_pos hmem hmark
      omega
  show (σ.heap.views k).pending = true ↔ _
  rw [hflag]
  constructor
  · intro hm
    cases w with
    | targets => exact .inr ((hi.views m).waiting t.view hmem hm)
    | deferredTargets => exact .inl rfl
  · intro hw
    cases w with
    | targets =>
      rcases hw with hw | hw
      · cases hw
      · exact hT hP m t.view hmem hcpu hne hw
    | deferredTargets => exact ((hi.views m).deferred t.view hmem).2 hne

/-- **`downstreamPending` tells the truth** in every run whose calls tell the MSHRs above what changes
for them; its assertions hold in every run. -/
theorem downstreamPending_truthful (depth : Fin n → ℕ) (σ : Sys n) :
    (Reaches step (fun σ c => c.ok depth σ) Sys.init σ → ∀ c : Call n, c.ok depth σ → ∀ e, c.run σ = .error e →
        e ≠ .addPending ∧ e ≠ .clearPending ∧ e ≠ .depth) ∧
    (Reaches step (fun σ c => c.ok depth σ ∧ c.tells σ) Sys.init σ →
      ∀ m k w, ∀ t ∈ ((σ.heap m).list w).list, t.source = .FromCPU → t.pkt.mshr = some k →
        (σ.heap k).inService = true → ((σ.heap k).downstreamPending = true ↔ w = .deferredTargets ∨
          (σ.heap m).inService = false ∨ (σ.heap m).downstreamPending = true)) := by
  constructor
  · intro hrun c hok e he
    have hσ : σ.Kept depth False :=
      hrun.inv (init_kept depth False) fun _ _ _ hk hok hs => step_kept hk hok False.elim hs
    have helse : e = .assertion := (run_kept hσ hok).of_error he
    subst helse
    exact ⟨by decide, by decide, by decide⟩
  · intro hrun m k w t ht hs hk _
    have hσ : σ.Kept depth True :=
      hrun.inv (init_kept depth True) fun _ _ _ hk hok hs => step_kept hk hok.1 (fun _ => hok.2) hs
    exact hσ.truthful trivial ht hs hk

/-! ## Three levels of caches -/

instance (σ : Sys n) (k : Fin n) : Decidable (σ.Untaken k) :=
  inferInstanceAs (Decidable (∀ m w, ∀ t ∈ ((σ.heap m).list w).list, t.pkt.mshr = some k →
    t.source = .FromSnoop ∧ t.markedPending = false))

instance (σ : Sys n) (pkt : Pkt n) : Decidable (σ.Arrives pkt) :=
  inferInstanceAs (Decidable (∀ k, pkt.mshr = some k → σ.sending = some k ∧ σ.Untaken k))

/-- MSHR 0 of an L3, MSHR 1 of an L2 and MSHRs 2 and 3 of two L1 caches. -/
def levels (k : Fin 4) : ℕ := if k = 0 then 0 else if k = 1 then 1 else 2

def fromCPU : Pkt 4 := ⟨.ReadReq, by decide, none, false, false, false, false, false, false, false, false⟩

def fromMSHR (k : Fin 4) : Pkt 4 :=
  ⟨.ReadSharedReq, by decide, some k, false, false, false, false, false, false, false, false⟩

/-- The request of MSHR 2 reaches the L2 and is sent on to the L3. -/
def missAllocated : Sys 4 := (step Sys.init (.allocate 2 fromCPU true)).get (by decide)
def missSent : Sys 4 := (step missAllocated (.beginSend 2)).get (by decide)
def l2Allocated : Sys 4 := (step missSent (.allocate 1 (fromMSHR 2) true)).get (by decide)
def missInService : Sys 4 := (step l2Allocated (.markInService 2 false)).get (by decide)
def l2Sent : Sys 4 := (step missInService (.beginSend 1)).get (by decide)
def l3Allocated : Sys 4 := (step l2Sent (.allocate 0 (fromMSHR 1) true)).get (by decide)
def l2InService : Sys 4 := (step l3Allocated (.markInService 1 false)).get (by decide)

/-- The second L1 misses while the request is buffered in the L3. -/
def secondAllocated : Sys 4 := (step l2InService (.allocate 3 fromCPU true)).get (by decide)
def secondSent : Sys 4 := (step secondAllocated (.beginSend 3)).get (by decide)
def coalesced : Sys 4 := (step secondSent (.allocateTarget 1 (fromMSHR 3) true)).get (by decide)
def secondInService : Sys 4 := (step coalesced (.markInService 3 false)).get (by decide)

theorem l2InService_reached : Reaches step (fun σ c => c.ok levels σ ∧ c.tells σ) Sys.init l2InService := by
  have h0 : Reaches step (fun σ c => c.ok levels σ ∧ c.tells σ) Sys.init (Sys.init : Sys 4) := .refl
  have h1 : Reaches step _ Sys.init missAllocated :=
    h0.step (i := .allocate 2 fromCPU true) ⟨⟨by decide, by decide, by decide⟩, trivial⟩
      (Option.some_get _).symm
  have h2 : Reaches step _ Sys.init missSent :=
    h1.step (i := .beginSend 2) ⟨⟨by decide, by decide, by decide⟩, trivial⟩ (Option.some_get _).symm
  have h3 : Reaches step _ Sys.init l2Allocated :=
    h2.step (i := .allocate 1 (fromMSHR 2) true) ⟨⟨by decide, by decide, by decide⟩, trivial⟩
      (Option.some_get _).symm
  have h4 : Reaches step _ Sys.init missInService :=
    h3.step (i := .markInService 2 false) ⟨(by decide : l2Allocated.sending = some 2), trivial⟩
      (Option.some_get _).symm
  have h5 : Reaches step _ Sys.init l2Sent :=
    h4.step (i := .beginSend 1) ⟨⟨by decide, by decide, by decide⟩, trivial⟩ (Option.some_get _).symm
  have h6 : Reaches step _ Sys.init l3Allocated :=
    h5.step (i := .allocate 0 (fromMSHR 1) true) ⟨⟨by decide, by decide, by decide⟩, trivial⟩
      (Option.some_get _).symm
  exact h6.step (i := .markInService 1 false) ⟨(by decide : l3Allocated.sending = some 1), trivial⟩
    (Option.some_get _).symm

/-- Where MSHR 1 is buffered in the L3, MSHR 2 is told so. -/
theorem downstreamPending_truthful_levels : (∀ e, Call.run l2InService (.allocate 3 fromCPU true) = .error e →
      e ≠ .addPending ∧ e ≠ .clearPending ∧ e ≠ .depth) ∧
    ((l2InService.heap 2).downstreamPending = true ↔ Which.targets = .deferredTargets ∨
      (l2InService.heap 1).inService = false ∨ (l2InService.heap 1).downstreamPending = true) := by
  obtain ⟨hassert, htold⟩ := downstreamPending_truthful levels l2InService
  refine ⟨hassert (l2InService_reached.mono fun _ _ h => h.1) (.allocate 3 fromCPU true)
    ⟨by decide, by decide, by decide⟩, ?_⟩
  exact htold l2InService_reached 1 2 .targets ⟨fromMSHR 2, .FromCPU, true, true⟩ (by decide) rfl rfl
    (by decide)

/-- **A coalesced request is not told.**  MSHR 3 of the second L1 is in service and its request is on the
target list of MSHR 1, which is in service and pending: its own flag is false. -/
theorem downstreamPending_lost : Reaches step (fun σ c => c.ok levels σ) Sys.init secondInService ∧
    (secondInService.heap 3).inService = true ∧
    (∃ t ∈ ((secondInService.heap 1).list .targets).list, t.source = .FromCPU ∧ t.pkt.mshr = some 3) ∧
    ¬((secondInService.heap 3).downstreamPending = true ↔ Which.targets = .deferredTargets ∨
      (secondInService.heap 1).inService = false ∨ (secondInService.heap 1).downstreamPending = true) := by
  have h0 : Reaches step (fun σ c => c.ok levels σ) Sys.init l2InService :=
    l2InService_reached.mono fun _ _ h => h.1
  have h1 : Reaches step _ Sys.init secondAllocated :=
    h0.step (i := .allocate 3 fromCPU true) ⟨by decide, by decide, by decide⟩ (Option.some_get _).symm
  have h2 : Reaches step _ Sys.init secondSent :=
    h1.step (i := .beginSend 3) ⟨by decide, by decide, by decide⟩ (Option.some_get _).symm
  have h3 : Reaches step _ Sys.init coalesced :=
    h2.step (i := .allocateTarget 1 (fromMSHR 3) true) ⟨by decide, by decide⟩ (Option.some_get _).symm
  have h4 : Reaches step _ Sys.init secondInService :=
    h3.step (i := .markInService 3 false) (by decide : coalesced.sending = some 3)
      (Option.some_get _).symm
  exact ⟨h4, by decide, by decide, by decide⟩

end Alpine.Mem.MSHR
