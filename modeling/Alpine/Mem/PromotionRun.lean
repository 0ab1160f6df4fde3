import Alpine.Mem.MSHRAsserts
import Alpine.Mem.MSHRRun

/-!
# The assertions of promotions, over runs

The MSHRs of a hierarchy of caches, as in `MSHRRun`, with `BaseCache::sendMSHRQueuePacket` telling an MSHR
whether it forwards its request.

* `promotions_hold_iff` — in every state reached, a response makes no promotion fail, unless `Resp.Asserts`;
  and then a cache maintenance operation is on one of the lists, or the MSHR forwards its request.
* `clean_between_writes` — a write that waits behind a clean operation, for targets that write.
-/

namespace Alpine.Mem.Promotion

open Alpine Alpine.Mem Alpine.Mem.MSHR Alpine.Run

variable {n : Nat} {depth : Fin n → ℕ} {σ σ' : Sys n} {m : Fin n} {r : Resp}

/-! ## The system -/

inductive Event (n : Nat) where
  | call (c : MSHR.Call n)
  | setForward (m : Fin n) (b : Bool)

def step (σ : Sys n) : Event n → Option (Sys n)
  | .call c => MSHR.step σ c
  | .setForward m b => some (σ.setHeap (σ.heap.setForward m b))

/-- A prefetch is no maintenance operation. -/
def plain : MSHR.Call n → Prop
  | .allocate _ pkt _ => pkt.cmd = .HardPFReq → pkt.isCacheMaintenance = false
  | _ => True

/-- An MSHR is told that it forwards while its packet is made. -/
def Event.ok (depth : Fin n → ℕ) (σ : Sys n) : Event n → Prop
  | .call c => c.ok depth σ ∧ plain c
  | .setForward m _ => σ.sending = some m

/-! ## One step -/

/-- What holds between calls. -/
structure Good (depth : Fin n → ℕ) (σ : Sys n) : Prop where
  kept : σ.Kept depth False
  fronted : ∀ m, (σ.heap m).Fronted
  wait : ∀ m, (σ.heap m).wait.Ok
  full : ∀ m, (σ.heap m).Full

theorem wait_blind : Blind fun e : Entry n => e.wait.Ok := by
  intro e
  dsimp only
  rw [bare_wait]

theorem Good.of_onlyAt {h : Heap n} (hg : Good depth σ) (hk : σ'.Kept depth False)
    (honly : σ.heap.OnlyAt m h) (hheap : σ'.heap = h) (hf : (h m).Fronted) (hv : (h m).wait.Ok)
    (hfull : (h m).Full) : Good depth σ' := by
  rw [← hheap] at honly hf hv hfull
  exact ⟨hk, fronted_blind.forall honly hf hg.fronted, wait_blind.forall honly hv hg.wait,
    full_blind.forall honly hfull hg.full⟩

theorem sending_inService (hk : σ.Kept depth False) (hs : σ.sending = some m) :
    (σ.heap m).inService = false := (hk.1.sent m hs).2.1

theorem run_ok {α : Type} {f : α → Sys n} {x : Except Failure α} (hok : x.map f = .ok σ') :
    ∃ a, x = .ok a ∧ σ' = f a := by
  have hout : Outcome (fun _ => True) (fun τ => ∃ a, x = .ok a ∧ τ = f a) (x.map f) := by
    refine Outcome.map (P := fun a => x = .ok a) ?_ fun a ha => ⟨a, ha, rfl⟩
    cases hx : x with
    | error => exact trivial
    | ok a => exact rfl
  exact hout.of_ok hok

theorem call_good {c : MSHR.Call n} (hg : Good depth σ) (hc : c.ok depth σ) (hp : plain c)
    (hstep : MSHR.step σ c = some σ') : Good depth σ' := by
  have hk : σ'.Kept depth False := step_kept hg.kept hc False.elim hstep
  have hok : c.run σ = .ok σ' := toOption_eq_some.1 hstep
  cases c with
  | allocate m pkt a =>
    obtain ⟨h, hrun, rfl⟩ := run_ok hok
    obtain ⟨-, -, hbare⟩ := allocate_bare hrun
    exact hg.of_onlyAt hk (.of_bare hbare) rfl (allocate_fronted (hg.fronted m) hrun)
      (allocate_wait (hg.wait m) hp hrun) (allocate_full hrun)
  | allocateTarget m pkt a =>
    obtain ⟨h, hrun, rfl⟩ := run_ok hok
    obtain ⟨w, pkt', -, -, -, hbare⟩ := allocateTarget_bare hrun
    exact hg.of_onlyAt hk (.of_bare hbare) rfl (allocateTarget_fronted (hg.fronted m) hrun)
      (allocateTarget_wait (hg.wait m) hrun) (allocateTarget_full (hg.full m) hrun)
  | beginSend m =>
    cases hok
    exact ⟨hk, hg.fronted, hg.wait, hg.full⟩
  | abortSend m =>
    cases hok
    exact ⟨hk, hg.fronted, hg.wait, hg.full⟩
  | markInService m b =>
    obtain ⟨h, hrun, rfl⟩ := run_ok hok
    exact hg.of_onlyAt hk (.of_bare (markInService_bare hrun)) rfl
      (markInService_fronted (hg.fronted m) hrun) (markInService_wait (hg.wait m) hrun)
      (markInService_full (hg.full m) hrun)
  | handleSnoop m pkt =>
    obtain ⟨q, hrun, rfl⟩ := run_ok hok
    obtain ⟨e', hbare, -⟩ := handleSnoop_bare hrun
    exact hg.of_onlyAt hk (.of_bare hbare) rfl (handleSnoop_fronted (hg.fronted m) hrun)
      (handleSnoop_wait (hg.wait m) hrun) (handleSnoop_full (hg.full m) hrun)
  | recvTimingResp r m =>
    obtain ⟨h, hrun, rfl⟩ := run_ok hok
    exact hg.of_onlyAt hk (recvTimingResp_onlyAt hrun) rfl (recvTimingResp_fronted (hg.fronted m) hrun)
      (recvTimingResp_wait (hg.wait m) (hg.fronted m) hrun) (recvTimingResp_full hrun)
  | forceDeallocateTarget m =>
    obtain ⟨h, hrun, rfl⟩ := run_ok hok
    obtain ⟨-, hin, hpf⟩ := hc
    obtain ⟨-, honly, -⟩ := forceDeallocateTarget_cases hrun
    exact hg.of_onlyAt hk honly rfl (forceDeallocateTarget_fronted (hg.fronted m) hin hrun)
      (forceDeallocateTarget_wait (hg.wait m) (hg.fronted m) hin hpf hrun) (forceDeallocateTarget_full hrun)

/-- **Step lemma.** -/
theorem step_good {i : Event n} (hg : Good depth σ) (hi : i.ok depth σ) (hstep : step σ i = some σ') :
    Good depth σ' := by
  cases i with
  | call c => exact call_good hg hi.1 hi.2 hstep
  | setForward m b =>
    cases hstep
    have hviews : (σ.heap.setForward m b).views = σ.heap.views := views_update_same rfl
    refine hg.of_onlyAt (hg.kept.congr hviews) (.set m σ.heap _) rfl ?_ ?_ ?_
    · exact setForward_fronted (hg.fronted m)
    · exact setForward_wait (hg.wait m) (sending_inService hg.kept hi)
    · rw [Heap.set_same]
      exact hg.full m

/-! ## Runs -/

/-- **Run lemma.** -/
theorem reaches_good (hrun : Reaches step (Event.ok depth) Sys.init σ) : Good depth σ := by
  induction hrun with
  | refl => exact ⟨init_kept depth False, fun _ => new_fronted, fun _ => new_wait, fun _ => new_full⟩
  | step _ hi hstep ih => exact step_good ih hi hstep

/-- The MSHR whose response arrives. -/
theorem Good.answered (hg : Good depth σ) (hok : (MSHR.Call.recvTimingResp r m).ok depth σ) :
    Answered depth σ.sentAt σ.clock m σ.heap := by
  obtain ⟨hs, hin, hun⟩ := hok
  have hk : MSHR.Kept depth σ.sending σ.sentAt σ.clock False σ.heap := hg.kept
  rw [hs] at hk
  exact ⟨hk, hin, hg.kept.1.not_pending (untaken_count hun), untaken_count hun⟩

/-- **The assertions of `promoteWritable`, `promoteReadable` and `promoteIf` hold** for every response in
every run, but for those of `Resp.Asserts`; these need a maintenance operation on one of the lists, or an
MSHR that forwards its request. -/
theorem promotions_hold_iff (hrun : Reaches step (Event.ok depth) Sys.init σ)
    (hok : (MSHR.Call.recvTimingResp r m).ok depth σ) :
    ((∀ b g, Promotes r m σ.heap b g → promote b m g ≠ .error .assertion) ↔ ¬ r.Asserts (σ.heap m)) ∧
    (r.Asserts (σ.heap m) → (σ.heap m).isForward = true ∨ ∃ t ∈ (σ.heap m).all, t.pkt.isCacheMaintenance = true) := by
  have hg := reaches_good hrun
  have hne := hg.full m ((hg.kept.1.views m).allocated hok.2.1)
  have hiff := response_asserts_iff (r := r) (hg.answered hok) (hg.wait m) (hg.fronted m) hne
  refine ⟨?_, fun hasserts => hasserts.cause (hg.wait m) hok.2.1⟩
  rw [← hiff]
  constructor
  · rintro hno ⟨b, g, hcall, herr⟩
    exact hno b g hcall herr
  · exact fun hno b g hcall herr => hno ⟨b, g, hcall, herr⟩

/-! ### One MSHR -/

theorem loadReq_isRequest : MemCmd.ReadReq.testCmdAttrib .IsRequest = true := rfl
theorem storeReq_isRequest : MemCmd.WriteReq.testCmdAttrib .IsRequest = true := rfl
theorem cleanReq_isRequest : MemCmd.CleanSharedReq.testCmdAttrib .IsRequest = true := rfl

def load : Pkt 1 := { cmd := .ReadReq, isRequest := loadReq_isRequest, mshr := none }
def store : Pkt 1 := { cmd := .WriteReq, isRequest := storeReq_isRequest, mshr := none }
def clean : Pkt 1 :=
  { cmd := .CleanSharedReq, isRequest := cleanReq_isRequest, mshr := none, reqClean := true }

local instance neZeroOne : NeZero 1 := ⟨one_ne_zero⟩

def one (_ : Fin 1) : ℕ := 0

def miss (pkt : Pkt 1) : Event 1 := .call (.allocate 0 pkt true)
def joins (pkt : Pkt 1) : Event 1 := .call (.allocateTarget 0 pkt true)
def sends : Event 1 := .call (.beginSend 0)
def sent : Event 1 := .call (.markInService 0 false)

/-- A read finds the block writable. -/
def readDone : Resp := ⟨.ReadResp, false, true, true⟩

def writeDone : Resp := ⟨.ReadExResp, false, true, true⟩

theorem comes (σ : Sys 1) {pkt : Pkt 1} (hpkt : pkt.mshr = none) :
    σ.Arrives pkt ∧ ∀ k, pkt.mshr = some k → one 0 < one k := by
  rw [Sys.Arrives, hpkt]
  exact ⟨fun k hk => (nomatch hk), fun k hk => (nomatch hk)⟩

theorem first (σ : Sys 1) {pkt : Pkt 1} (hpkt : pkt.mshr = none) (hcmd : pkt.isCacheMaintenance = false)
    (hfree : pkt.cmd ≠ .HardPFReq) : Event.ok one σ (miss pkt) :=
  ⟨⟨(comes σ hpkt).1, (comes σ hpkt).2, fun hpf => absurd hpf hfree⟩, fun _ => hcmd⟩

/-- A write waits for a read that finds the block writable. -/
theorem promotions_hold_read : ∃ σ : Sys 1, Reaches step (Event.ok one) Sys.init σ ∧
    ((σ.heap 0).deferredTargets.list.map fun t => t.pkt) = [store] ∧
    (((∀ b g, Promotes readDone 0 σ.heap b g → promote b 0 g ≠ .error .assertion) ↔
        ¬ readDone.Asserts (σ.heap 0)) ∧
      (readDone.Asserts (σ.heap 0) → (σ.heap 0).isForward = true ∨
        ∃ t ∈ (σ.heap 0).all, t.pkt.isCacheMaintenance = true)) := by
  have h0 : Reaches step (Event.ok one) (Sys.init : Sys 1) Sys.init := .refl
  have h1 := h0.step (i := miss load) (first _ rfl rfl MemCmd.noConfusion) rfl
  have h2 := h1.step (i := sends) ⟨⟨rfl, rfl, rfl⟩, trivial⟩ rfl
  have h3 := h2.step (i := sent) ⟨rfl, trivial⟩ rfl
  have h4 := h3.step (i := joins store) ⟨comes _ rfl, trivial⟩ rfl
  exact ⟨_, h4, rfl, promotions_hold_iff h4 ⟨rfl, rfl, by decide⟩⟩

/-- **A write behind a clean operation.**  A write is sent, a clean operation is deferred, and a second write
behind it; the response finds the block writable, and `promoteWritable` fails. -/
theorem clean_between_writes : ∃ σ : Sys 1, Reaches step (Event.ok one) Sys.init σ ∧
    (MSHR.Call.recvTimingResp writeDone 0).ok one σ ∧ ((σ.heap 0).targets.list.map fun t => t.pkt) = [store] ∧
    ((σ.heap 0).deferredTargets.list.map fun t => t.pkt) = [clean, store] ∧
    Promotes writeDone 0 σ.heap true σ.heap ∧
    promoteWritable 0 σ.heap = .error .assertion ∧
    recvTimingResp writeDone 0 σ.heap = .error .assertion := by
  have h0 : Reaches step (Event.ok one) (Sys.init : Sys 1) Sys.init := .refl
  have h1 := h0.step (i := miss store) (first _ rfl rfl MemCmd.noConfusion) rfl
  have h2 := h1.step (i := sends) ⟨⟨rfl, rfl, rfl⟩, trivial⟩ rfl
  have h3 := h2.step (i := sent) ⟨rfl, trivial⟩ rfl
  have h4 := h3.step (i := joins clean) ⟨comes _ rfl, trivial⟩ rfl
  have h5 := h4.step (i := joins store) ⟨comes _ rfl, trivial⟩ rfl
  exact ⟨_, h5, ⟨rfl, rfl, by decide⟩, rfl, rfl, .writable rfl rfl, rfl, rfl⟩

end Alpine.Mem.Promotion
