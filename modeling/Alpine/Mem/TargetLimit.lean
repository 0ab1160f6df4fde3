import Alpine.Mem.MSHRCalls

/-!
# The limit on the targets of an MSHR (`mem/cache/base.{hh,cc}`, `mem/cache/cache.cc`)

The MSHRs of several caches, the causes for which each cache is blocked, and the MSHR that has no room for
more targets.  A packet that reaches a cache here misses in its tags; the queues answer whether they are
full, and `findMatch` and the free list give the MSHR.

* `missEffect` — what a miss does: it joins an MSHR, opens one, or leaves the MSHRs alone; and
  `recvTimingReq_done`.
* `Limited` — an MSHR holds at most `numTarget` requests, and the cache is blocked when one holds so many.
* `allocateTarget_requests`, `handleSnoop_requests`, `recvTimingResp_requests` — how many requests the
  operations of an MSHR leave: a snoop adds none, a response serves at least one.
-/

namespace Alpine.Mem.TargetLimit

open Alpine Alpine.Mem Alpine.Mem.MSHR Alpine.Run

variable {κ : Type} [DecidableEq κ] {n : Nat}

/-! ## Caches -/

inductive BlockedCause where
  | Blocked_NoMSHRs
  | Blocked_NoWBBuffers
  | Blocked_NoTargets
  deriving DecidableEq

/-- Whose queue an MSHR is in, and `tgts_per_mshr` of each cache. -/
structure Config (κ : Type) (n : Nat) where
  cache : Fin n → κ
  numTarget : κ → Nat

/-- `blocked` is the bit mask of each cache. -/
structure Caches (κ : Type) (n : Nat) where
  heap : Heap n
  blocked : κ → BlockedCause → Bool
  noTargetMSHR : κ → Option (Fin n)

def Caches.init : Caches κ n := ⟨fun _ => .new, fun _ _ => false, fun _ => none⟩

namespace Caches

def isBlocked (σ : Caches κ n) (k : κ) : Bool :=
  σ.blocked k .Blocked_NoMSHRs || σ.blocked k .Blocked_NoWBBuffers || σ.blocked k .Blocked_NoTargets

def setCause (σ : Caches κ n) (k : κ) (cause : BlockedCause) (b : Bool) : Caches κ n :=
  { σ with blocked := Function.update σ.blocked k (Function.update (σ.blocked k) cause b) }

def setBlocked (σ : Caches κ n) (k : κ) (cause : BlockedCause) : Caches κ n := σ.setCause k cause true

def clearBlocked (σ : Caches κ n) (k : κ) (cause : BlockedCause) : Caches κ n := σ.setCause k cause false

def setHeap (σ : Caches κ n) (h : Heap n) : Caches κ n := { σ with heap := h }

def setNoTargetMSHR (σ : Caches κ n) (k : κ) (m : Option (Fin n)) : Caches κ n :=
  { σ with noTargetMSHR := Function.update σ.noTargetMSHR k m }

end Caches

/-- `MSHR::getNumTargets`. -/
def getNumTargets (e : Entry n) : Nat := e.targets.list.length + e.deferredTargets.list.length

def isWrite (pkt : Pkt n) : Bool := pkt.cmd.testCmdAttrib .IsWrite
def isRead (pkt : Pkt n) : Bool := pkt.cmd.testCmdAttrib .IsRead
def isEviction (pkt : Pkt n) : Bool := pkt.cmd.testCmdAttrib .IsEviction
def isWriteback (pkt : Pkt n) : Bool := isEviction pkt && pkt.cmd.testCmdAttrib .HasData
def mustCheckAbove (pkt : Pkt n) : Bool := pkt.cmd = .HardPFReq || isEviction pkt

/-! ## Misses -/

/-- What a miss finds: the MSHR of `findMatch`, the front of the free list, `allocOnFill`, and whether the
queue it goes to is full afterwards. -/
structure Found (n : Nat) where
  mshr : Option (Fin n)
  free : Fin n
  allocOnFill : Bool
  full : Bool

/-- `allocateMissBuffer`. -/
def allocateMissBuffer (k : κ) (m : Fin n) (pkt : Pkt n) (a full : Bool) (σ : Caches κ n) :
    Except Failure (Caches κ n) := do
  let h ← allocate m pkt a σ.heap
  return if full then (σ.setHeap h).setBlocked k .Blocked_NoMSHRs else σ.setHeap h

/-- `allocateWriteBuffer`, as far as it blocks the cache. -/
def allocateWriteBuffer (k : κ) (pkt : Pkt n) (full : Bool) (σ : Caches κ n) : Except Failure (Caches κ n) := do
  check (isWrite pkt || pkt.cmd = .CleanEvict)
  return if full then σ.setBlocked k .Blocked_NoWBBuffers else σ

/-- The part of `BaseCache::handleTimingReqMiss` that coalesces. -/
def coalesce (numTarget : κ → Nat) (k : κ) (m : Fin n) (pkt : Pkt n) (a : Bool) (σ : Caches κ n) :
    Except Failure (Caches κ n) := do
  let h ← allocateTarget m pkt a σ.heap
  if getNumTargets (h m) = numTarget k then
    return ((σ.setHeap h).setNoTargetMSHR k (some m)).setBlocked k .Blocked_NoTargets
  else return σ.setHeap h

/-- `BaseCache::handleTimingReqMiss`; the packet is null for a software prefetch that found an MSHR. -/
def baseHandleTimingReqMiss (numTarget : κ → Nat) (k : κ) (pkt : Option (Pkt n)) (q : Found n)
    (σ : Caches κ n) : Except Failure (Caches κ n) :=
  match q.mshr, pkt with
  | some _, none => .ok σ
  | some m, some pkt => do
    check (!isWriteback pkt)
    if pkt.cmd = .CleanEvict then .ok σ
    else if pkt.cmd = .WriteClean then allocateWriteBuffer k pkt q.full σ
    else coalesce numTarget k m pkt q.allocOnFill σ
  | none, none => .error .assertion
  | none, some pkt =>
    if isEviction pkt || pkt.cmd = .WriteClean then allocateWriteBuffer k pkt q.full σ
    else allocateMissBuffer k q.free pkt q.allocOnFill q.full σ

/-- `Cache::handleTimingReqMiss`. -/
def handleTimingReqMiss (numTarget : κ → Nat) (k : κ) (pkt : Pkt n) (q : Found n) (σ : Caches κ n) :
    Except Failure (Caches κ n) :=
  if pkt.reqUncacheable then
    if isWrite pkt then allocateWriteBuffer k pkt q.full σ
    else do
      check (isRead pkt)
      allocateMissBuffer k q.free pkt q.allocOnFill q.full σ
  else if pkt.isSWPrefetch then do
    check pkt.needsResponse
    baseHandleTimingReqMiss numTarget k
      (if q.mshr.isSome then none
        else some
          { cmd := pkt.cmd
            isRequest := pkt.isRequest
            mshr := none
            reqClean := pkt.reqClean
            reqInvalidate := pkt.reqInvalidate }) q σ
  else baseHandleTimingReqMiss numTarget k (some pkt) q σ

/-- `CpuSidePort::recvTimingReq` and `Cache::recvTimingReq` for a packet that misses.  One that is refused
comes again. -/
def recvTimingReq (numTarget : κ → Nat) (k : κ) (pkt : Pkt n) (q : Found n) (σ : Caches κ n) :
    Except Failure (Caches κ n) :=
  if !pkt.isExpressSnoop && σ.isBlocked k then .ok σ
  else if pkt.cacheResponding then do
    check (pkt.needsWritable && !pkt.responderHadWritable)
    return σ
  else handleTimingReqMiss numTarget k pkt q σ

/-! ## Sending, snoops and responses -/

/-- What happens to a packet that is sent: the answers of the caches above to the snoop of a prefetch, then
whether it is sent as it is, and `pending_modified_resp` if the port takes it. -/
structure Send where
  forwardSnoops : Bool
  cacheResponding : Bool
  hasSharers : Bool
  isBlockCached : Bool
  isForward : Bool
  taken : Option Bool

/-- `BaseCache::sendMSHRQueuePacket` for an MSHR whose first target is `tgt_pkt`. -/
def baseSendMSHRQueuePacket (m : Fin n) (tgt_pkt : Pkt n) (q : Send) (h : Heap n) : Except Failure (Heap n) := do
  check (!(q.isForward && isWrite tgt_pkt))
  match q.taken with
  | some pending_modified_resp => markInService m pending_modified_resp (h.setForward m q.isForward)
  | none => return h.setForward m q.isForward

/-- `Cache::sendMSHRQueuePacket`. -/
def sendMSHRQueuePacket (m : Fin n) (q : Send) (h : Heap n) : Except Failure (Heap n) :=
  match (h m).targets.list with
  | [] => .error .assertion
  | t :: _ =>
    if t.pkt.cmd = .HardPFReq && q.forwardSnoops then
      if q.cacheResponding then markInService m (!q.hasSharers) h
      else if q.isBlockCached then forceDeallocateTarget m h
      else baseSendMSHRQueuePacket m t.pkt q h
    else baseSendMSHRQueuePacket m t.pkt q h

/-- `Cache::recvTimingSnoopReq`, for an MSHR that was found. -/
def recvTimingSnoopReq (m : Fin n) (pkt : Pkt n) (h : Heap n) : Except Failure (Heap n) :=
  if mustCheckAbove pkt then .ok h
  else if pkt.isCacheMaintenance && pkt.satisfied then .ok h
  else do
    let (h', _, _) ← handleSnoop m pkt h
    return h'

/-- The first lines of `BaseCache::recvTimingResp`: at least one target will be cleared. -/
def Caches.unblock (σ : Caches κ n) (k : κ) (m : Fin n) : Caches κ n :=
  if σ.noTargetMSHR k = some m then (σ.clearBlocked k .Blocked_NoTargets).setNoTargetMSHR k none else σ

/-- `BaseCache::recvTimingResp`; `drained` tells that the queue was full before and is not any more. -/
def recvTimingResp (k : κ) (r : Resp) (m : Fin n) (drained : Bool) (σ : Caches κ n) :
    Except Failure (Caches κ n) := do
  let σ1 := σ.unblock k m
  let h ← MSHR.recvTimingResp r m σ1.heap
  return if drained then (σ1.setHeap h).clearBlocked k .Blocked_NoMSHRs else σ1.setHeap h

inductive Call (κ : Type) (n : Nat) where
  | recvTimingReq (k : κ) (pkt : Pkt n) (q : Found n)
  /-- `getNextQueueEntry` takes a packet of the prefetcher. -/
  | prefetch (k : κ) (pkt : Pkt n) (q : Found n)
  | sendMSHRQueuePacket (m : Fin n) (q : Send) (drained : Bool)
  | recvTimingSnoopReq (m : Fin n) (pkt : Pkt n)
  | recvTimingResp (r : Resp) (m : Fin n) (drained : Bool)
  /-- A write buffer entry is allocated for an eviction, or is sent. -/
  | writeBuffer (k : κ) (full : Bool)

variable (cfg : Config κ n)

def Call.run (σ : Caches κ n) : Call κ n → Except Failure (Caches κ n)
  | .recvTimingReq k pkt q => TargetLimit.recvTimingReq cfg.numTarget k pkt q σ
  | .prefetch k pkt q => allocateMissBuffer k q.free pkt q.allocOnFill q.full σ
  | .sendMSHRQueuePacket m q drained => do
    let h ← TargetLimit.sendMSHRQueuePacket m q σ.heap
    return if drained then (σ.setHeap h).clearBlocked (cfg.cache m) .Blocked_NoMSHRs else σ.setHeap h
  | .recvTimingSnoopReq m pkt => do
    let h ← TargetLimit.recvTimingSnoopReq m pkt σ.heap
    return σ.setHeap h
  | .recvTimingResp r m drained => TargetLimit.recvTimingResp (cfg.cache m) r m drained σ
  | .writeBuffer k full => .ok (σ.setCause k .Blocked_NoWBBuffers full)

/-- An express snoop from above has a responder; a cache finds its own MSHRs, and sends one that waits. -/
def Call.ok (σ : Caches κ n) : Call κ n → Prop
  | .recvTimingReq k pkt q =>
    (pkt.isExpressSnoop = true → pkt.cacheResponding = true) ∧ (∀ m, q.mshr = some m → cfg.cache m = k) ∧
      cfg.cache q.free = k
  | .prefetch k _ q => cfg.cache q.free = k
  | .sendMSHRQueuePacket m _ _ => (σ.heap m).inService = false
  | .recvTimingSnoopReq _ _ => True
  | .recvTimingResp _ _ _ => True
  | .writeBuffer _ _ => True

def step (σ : Caches κ n) (c : Call κ n) : Option (Caches κ n) := (c.run cfg σ).toOption

/-! ## The limit -/

/-- The `FromCPU` and prefetch targets, and the saved snoops. -/
def requests (e : Entry n) : Nat := e.all.countP fun t => t.source ≠ .FromSnoop
def snoops (e : Entry n) : Nat := e.all.countP fun t => t.source = .FromSnoop

/-- No MSHR holds more requests than fit, and where one holds so many its cache is blocked. -/
def Limited (σ : Caches κ n) : Prop := ∀ m, requests (σ.heap m) ≤ cfg.numTarget (cfg.cache m) ∧
  (requests (σ.heap m) = cfg.numTarget (cfg.cache m) →
    σ.blocked (cfg.cache m) .Blocked_NoTargets = true)

/-- What a miss does to the MSHRs. -/
inductive Effect (n : Nat) where
  | none
  | joins (m : Fin n)
  | opens (m : Fin n)

def missEffect (σ : Caches κ n) (k : κ) (pkt : Pkt n) (q : Found n) : Effect n :=
  if (!pkt.isExpressSnoop && σ.isBlocked k) || pkt.cacheResponding then .none
  else if pkt.reqUncacheable then (if isWrite pkt then .none else .opens q.free)
  else
    match q.mshr with
    | some m => if pkt.isSWPrefetch || pkt.cmd = .CleanEvict || pkt.cmd = .WriteClean then .none else .joins m
    | none => if isEviction pkt || pkt.cmd = .WriteClean then .none else .opens q.free

def Call.effect (σ : Caches κ n) : Call κ n → Effect n
  | .recvTimingReq k pkt q => missEffect σ k pkt q
  | .prefetch _ _ q => .opens q.free
  | _ => .none

/-- The miss is the last that fits only where no snoop is saved, and one target is not the last. -/
def Call.fits (σ : Caches κ n) (c : Call κ n) : Prop :=
  match c.effect σ with
  | .none => True
  | .joins m => requests (σ.heap m) + 1 = cfg.numTarget (cfg.cache m) → snoops (σ.heap m) = 0
  | .opens m => cfg.numTarget (cfg.cache m) ≠ 1

/-! ## Counting -/

variable {h h' : Heap n} {m : Fin n} {e e' : Entry n}

theorem countP_unmark (p : Source → Bool) {ts us : List (Target n)}
    (hmap : us.map Target.unmark = ts.map Target.unmark) :
    (us.countP fun t => p t.source) = ts.countP fun t => p t.source := by
  have hcount := congrArg (List.countP fun t : Target n => p t.source) hmap
  rw [List.countP_map, List.countP_map] at hcount
  exact hcount

theorem requests_shift (hs : e.Shifts e') : requests e' = requests e :=
  countP_unmark (fun s => s ≠ .FromSnoop) hs.all

/-- A target is a request or a snoop. -/
theorem getNumTargets_eq (e : Entry n) : getNumTargets e = requests e + snoops e := by
  have hlength := List.length_eq_countP_add_countP (fun t : Target n => decide (t.source ≠ .FromSnoop))
    (l := e.all)
  unfold getNumTargets requests snoops
  rw [← List.length_append]
  simpa [Entry.all] using hlength

theorem requests_onlyAt (ho : h.OnlyAt m h') {x : Fin n} (hx : x ≠ m) : requests (h' x) = requests (h x) :=
  requests_shift (.of_bare (ho x hx))

variable {pkt : Pkt n}

theorem allocate_requests {a : Bool} (hok : allocate m pkt a h = .ok h') : requests (h' m) = 1 ∧ h.OnlyAt m h' := by
  obtain ⟨htargets, hdeferred, hbare⟩ := allocate_bare hok
  refine ⟨?_, .of_bare hbare⟩
  rw [requests_shift (Entry.Shifts.erase (h' m)), ← Heap.bare_apply, hbare, Heap.set_same]
  have hall : ∀ t : Target n, (({ (h m).bare with
      allocated := true, isForward := false, inService := false } : Entry n).push .targets t).all = [t] := by
    intro t
    show ((h m).targets.list.map Target.unmark ++ [t]) ++ (h m).deferredTargets.list.map Target.unmark = [t]
    rw [htargets, hdeferred]
    rfl
  unfold requests
  rw [hall, List.countP_singleton, if_pos]
  dsimp only
  split <;> decide

/-- A request that joins an MSHR finds a request there. -/
theorem allocateTarget_requests {a : Bool} (hf : (h m).Fronted) (hok : allocateTarget m pkt a h = .ok h') :
    requests (h' m) = requests (h m) + 1 ∧ snoops (h' m) = snoops (h m) ∧ 0 < requests (h m) ∧ h.OnlyAt m h' := by
  obtain ⟨w, pkt', -, hfront, -, hbare⟩ := allocateTarget_bare hok
  have hall : ∀ p : Source → Bool, ((h' m).all.countP fun t => p t.source) =
      ((h m).all.countP fun t => p t.source) + if p .FromCPU then 1 else 0 := by
    intro p
    have hm : (h' m).bare = (h m).bare.push w ⟨pkt', .FromCPU, false, a⟩ := by
      rw [← Heap.bare_apply, hbare, Heap.set_same]
    rw [← countP_unmark p (map_unmark_idem (h' m).all), ← countP_unmark p (map_unmark_idem (h m).all),
      ← Entry.bare_all, ← Entry.bare_all, hm]
    cases w with
    | targets =>
      show List.countP _ ((((h m).bare.targets.list ++ [_]) ++ (h m).bare.deferredTargets.list)) = _
      unfold Entry.all
      simp only [List.countP_append, List.countP_singleton]
      omega
    | deferredTargets =>
      show List.countP _ (((h m).bare.targets.list ++ ((h m).bare.deferredTargets.list ++ [_]))) = _
      unfold Entry.all
      simp only [List.countP_append, List.countP_singleton]
      omega
  refine ⟨hall fun s => s ≠ .FromSnoop, hall fun s => s = .FromSnoop, ?_, .of_bare hbare⟩
  cases hl : (h m).targets.list with
  | nil => exact absurd hl hfront
  | cons t ts =>
    refine List.countP_pos_iff.2 ⟨t, List.mem_append_left _ (hl ▸ List.mem_cons_self), ?_⟩
    exact decide_eq_true (hf.front t (by rw [hl]; rfl))

theorem handleSnoop_requests {r : Heap n × Pkt n × Bool} (hok : handleSnoop m pkt h = .ok r) (x : Fin n) :
    requests (r.1 x) = requests (h x) := by
  obtain ⟨e', hbare, ⟨l, hup, htargets⟩, hdeferred, -⟩ := handleSnoop_bare hok
  by_cases hx : x = m
  · subst hx
    have hm : (r.1 x).bare = e' := by rw [← Heap.bare_apply, hbare, Heap.set_same]
    have hlist : e'.targets.list = l.list ++ (h x).saves pkt := by rw [htargets, pushAll_list]
    have hsaves : ((h x).saves pkt).countP (fun t => t.source ≠ .FromSnoop) = 0 :=
      List.countP_eq_zero.2 fun t ht => by simpa using saves_source ht
    have hsource : ∀ {ts us : List (Target n)}, us.map Target.source = ts.map Target.source →
        (us.countP fun t => t.source ≠ .FromSnoop) = ts.countP fun t => t.source ≠ .FromSnoop := by
      intro ts us hmap
      have hcount := congrArg (List.countP fun s : Source => s ≠ .FromSnoop) hmap
      rwa [List.countP_map, List.countP_map] at hcount
    rw [requests_shift (Entry.Shifts.erase (r.1 x)), requests_shift (Entry.Shifts.erase (h x)), hm]
    unfold requests Entry.all
    rw [hlist, List.countP_append, List.countP_append, hsaves, Nat.add_zero, hsource hup.source,
      hsource hdeferred.source, List.countP_append]
  · exact requests_onlyAt (.of_bare hbare) hx

theorem countP_class (ts us : List (Target n))
    (hclass : ∀ s, ClassFifo.class_ Target.source s us = ClassFifo.class_ Target.source s ts) :
    (us.countP fun t => t.source ≠ .FromSnoop) = ts.countP fun t => t.source ≠ .FromSnoop := by
  have hsum : ∀ vs : List (Target n), (vs.countP fun t => t.source ≠ .FromSnoop) =
      (ClassFifo.class_ Target.source .FromCPU vs).length +
        (ClassFifo.class_ Target.source .FromPrefetcher vs).length := by
    intro vs
    induction vs with
    | nil => rfl
    | cons t vs ih =>
      rw [ClassFifo.class_cons, ClassFifo.class_cons, List.length_append, List.length_append, List.countP_cons, ih]
      unfold ClassFifo.class_
      cases hs : t.source <;> simp [hs] <;> omega
  rw [hsum, hsum, hclass, hclass]

/-- A response serves at least one request. -/
theorem recvTimingResp_requests {r : Resp} (hf : (h m).Fronted)
    (hok : MSHR.recvTimingResp r m h = .ok h') : requests (h' m) < requests (h m) := by
  obtain ⟨h2, ready, e, h3, hne, hpromote, hextract, hservice, hrequeue⟩ := recvTimingResp_ok hok
  have h2shifts := promotions_shifts hpromote m
  have h2f := promotions_fronted hf hpromote
  obtain ⟨hclass, -, hdeferred, -⟩ := extractServiceableTargets_class hextract
  have hne2 := h2shifts.targets_ne_nil hne
  -- the first target is a request, and it is handed out
  have hserved : 0 < ready.list.countP fun t => t.source ≠ .FromSnoop := by
    cases hl : (h2 m).targets.list with
    | nil => exact absurd hl hne2
    | cons t ts =>
      have hhead : t ∈ (h2 m).targets.list.head? := by rw [hl]; rfl
      exact List.countP_pos_iff.2
        ⟨t, extractServiceableTargets_front hextract t hhead, decide_eq_true (h2f.front t hhead)⟩
  have hcount : requests (h2 m) = (ready.list.countP fun t => t.source ≠ .FromSnoop) + requests e := by
    unfold requests Entry.all
    rw [List.countP_append, List.countP_append, ← countP_class _ _ hclass, List.countP_append, hdeferred]
    omega
  have h3shifts : e.Shifts (h3 m) := by
    have hs := service_shifts hservice m
    rwa [Heap.set_same] at hs
  have hback : requests (h' m) = requests (h3 m) :=
    countP_unmark (fun s => s ≠ .FromSnoop) (requeue_all hrequeue)
  rw [hback, requests_shift h3shifts, ← requests_shift h2shifts]
  omega

theorem forceDeallocateTarget_requests (hok : forceDeallocateTarget m h = .ok h') :
    requests (h' m) ≤ requests (h m) ∧ h.OnlyAt m h' := by
  obtain ⟨-, honly, hcases⟩ := forceDeallocateTarget_cases hok
  refine ⟨?_, honly⟩
  have hpopped : requests (h m).popped ≤ requests (h m) := by
    unfold requests Entry.all
    rw [List.countP_append, List.countP_append]
    have htail : ((h m).targets.list.tail.countP fun t => t.source ≠ .FromSnoop) ≤
        (h m).targets.list.countP fun t => t.source ≠ .FromSnoop :=
      (List.tail_sublist _).countP_le
    exact Nat.add_le_add_right htail _
  rcases hcases with ⟨-, heq⟩ | ⟨-, -, heq⟩ | ⟨-, heq⟩
  · rw [heq]
    exact hpopped
  · rw [heq, requests_shift (promoteDeferredTargets_shifts (h m).popped).1]
    exact hpopped
  · rw [heq]
    exact hpopped

/-- A request that is sent adds no target. -/
theorem sendMSHRQueuePacket_requests {q : Send} (hf : ∀ x, (h x).Fronted) (hin : (h m).inService = false)
    (hok : sendMSHRQueuePacket m q h = .ok h') : (∀ x, requests (h' x) ≤ requests (h x)) ∧ ∀ x, (h' x).Fronted := by
  have hset : ∀ b, (∀ x, requests (h.setForward m b x) = requests (h x)) ∧
      ∀ x, (h.setForward m b x).Fronted := by
    intro b
    refine ⟨fun x => ?_, ?_⟩
    · unfold Heap.setForward
      by_cases hx : x = m
      · subst hx
        rw [Heap.set_same]
        rfl
      · rw [Heap.set_ne h _ hx]
    · exact fronted_blind.forall (.set m h _) (setForward_fronted (hf m)) hf
  have hmark : ∀ {g : Heap n} {b : Bool}, (∀ x, (g x).Fronted) → markInService m b g = .ok h' →
      (∀ x, requests (h' x) = requests (g x)) ∧ ∀ x, (h' x).Fronted := by
    intro g b hg hok
    refine ⟨fun x => requests_shift (markInService_shifts hok x), ?_⟩
    exact fronted_blind.forall (.of_bare (markInService_bare hok)) (markInService_fronted (hg m) hok) hg
  have hbase : ∀ {tgt_pkt : Pkt n}, baseSendMSHRQueuePacket m tgt_pkt q h = .ok h' →
      (∀ x, requests (h' x) ≤ requests (h x)) ∧ ∀ x, (h' x).Fronted := by
    intro tgt_pkt hok
    unfold baseSendMSHRQueuePacket at hok
    obtain ⟨_, -, hok⟩ := bind_ok_iff.1 hok
    obtain ⟨hsame, hsetf⟩ := hset q.isForward
    split at hok
    · obtain ⟨hcount, hfront⟩ := hmark hsetf hok
      exact ⟨fun x => ((hcount x).trans (hsame x)).le, hfront⟩
    · cases hok
      exact ⟨fun x => (hsame x).le, hsetf⟩
  unfold sendMSHRQueuePacket at hok
  split at hok
  · cases hok
  · split at hok
    · split at hok
      · obtain ⟨hcount, hfront⟩ := hmark hf hok
        exact ⟨fun x => (hcount x).le, hfront⟩
      · split at hok
        · obtain ⟨hle, honly⟩ := forceDeallocateTarget_requests hok
          refine ⟨fun x => ?_, ?_⟩
          · by_cases hx : x = m
            · rw [hx]
              exact hle
            · exact (requests_onlyAt honly hx).le
          · exact fronted_blind.forall honly (forceDeallocateTarget_fronted (hf m) hin hok) hf
        · exact hbase hok
    · exact hbase hok

/-! ## The effect of a call -/

variable {σ σ' : Caches κ n} {k : κ}

theorem setCause_blocked (σ : Caches κ n) (k : κ) (cause : BlockedCause) (b : Bool) :
    (σ.setCause k cause b).blocked k cause = b := by
  show Function.update σ.blocked k (Function.update (σ.blocked k) cause b) k cause = b
  rw [Function.update_self, Function.update_self]

/-- The MSHRs that have no room, and the caches blocked for them, are the same. -/
structure Quiet (σ σ' : Caches κ n) : Prop where
  noTargets : ∀ k, σ'.blocked k .Blocked_NoTargets = σ.blocked k .Blocked_NoTargets
  noTargetMSHR : σ'.noTargetMSHR = σ.noTargetMSHR

omit [DecidableEq κ] in
theorem Quiet.setHeap (σ : Caches κ n) (h : Heap n) : Quiet σ (σ.setHeap h) := ⟨fun _ => rfl, rfl⟩

omit [DecidableEq κ] in
theorem Quiet.trans {σ'' : Caches κ n} (h1 : Quiet σ σ') (h2 : Quiet σ' σ'') : Quiet σ σ'' :=
  ⟨fun k => (h2.noTargets k).trans (h1.noTargets k), h2.noTargetMSHR.trans h1.noTargetMSHR⟩

theorem Quiet.setCause (σ : Caches κ n) (k : κ) {cause : BlockedCause} (b : Bool)
    (hne : cause ≠ .Blocked_NoTargets) : Quiet σ (σ.setCause k cause b) := by
  refine ⟨fun k' => ?_, rfl⟩
  show Function.update σ.blocked k (Function.update (σ.blocked k) cause b) k' _ = _
  by_cases hk : k' = k
  · rw [hk, Function.update_self, Function.update_of_ne hne.symm]
  · rw [Function.update_of_ne hk]

/-- What a miss that is taken has done. -/
def Effect.Done (numTarget : κ → Nat) (σ σ' : Caches κ n) (k : κ) : Effect n → Prop
  | .none => σ'.heap = σ.heap ∧ Quiet σ σ'
  | .joins m => σ.isBlocked k = false ∧ ∃ pkt a, coalesce numTarget k m pkt a σ = .ok σ'
  | .opens m => Quiet σ σ' ∧ ∃ pkt a, allocate m pkt a σ.heap = .ok σ'.heap

theorem allocateWriteBuffer_done {full : Bool} (hok : allocateWriteBuffer k pkt full σ = .ok σ') :
    σ'.heap = σ.heap ∧ Quiet σ σ' := by
  unfold allocateWriteBuffer at hok
  obtain ⟨_, -, hok⟩ := bind_ok_iff.1 hok
  cases hok
  split
  · exact ⟨rfl, .setCause σ k true (by decide)⟩
  · exact ⟨rfl, fun _ => rfl, rfl⟩

theorem allocateMissBuffer_done {a full : Bool} (hok : allocateMissBuffer k m pkt a full σ = .ok σ') :
    Quiet σ σ' ∧ ∃ pkt a, allocate m pkt a σ.heap = .ok σ'.heap := by
  unfold allocateMissBuffer at hok
  obtain ⟨h, hallocate, hok⟩ := bind_ok_iff.1 hok
  cases hok
  split
  · exact ⟨(Quiet.setHeap σ h).trans (.setCause _ k true (by decide)), pkt, a, hallocate⟩
  · exact ⟨.setHeap σ h, pkt, a, hallocate⟩

variable {numTarget : κ → Nat}

theorem baseHandleTimingReqMiss_opens {q : Found n} (hm : q.mshr = none)
    (hok : baseHandleTimingReqMiss numTarget k (some pkt) q σ = .ok σ') :
    (if isEviction pkt || pkt.cmd = .WriteClean then Effect.none else .opens q.free).Done numTarget σ σ' k := by
  unfold baseHandleTimingReqMiss at hok
  rw [hm] at hok
  dsimp only at hok
  split at hok
  · rename_i hout
    rw [if_pos hout]
    exact allocateWriteBuffer_done hok
  · rename_i hout
    rw [if_neg hout]
    exact allocateMissBuffer_done hok

theorem baseHandleTimingReqMiss_joins {q : Found n} (hm : q.mshr = some m) (hfree : σ.isBlocked k = false)
    (hok : baseHandleTimingReqMiss numTarget k (some pkt) q σ = .ok σ') :
    (if pkt.cmd = .CleanEvict ∨ pkt.cmd = .WriteClean then Effect.none else .joins m).Done numTarget σ σ' k := by
  unfold baseHandleTimingReqMiss at hok
  rw [hm] at hok
  obtain ⟨_, -, hok⟩ := bind_ok_iff.1 hok
  split at hok
  · rename_i hevict
    cases hok
    rw [if_pos (.inl hevict)]
    exact ⟨rfl, fun _ => rfl, rfl⟩
  · rename_i hevict
    split at hok
    · rename_i hclean
      rw [if_pos (.inr hclean)]
      exact allocateWriteBuffer_done hok
    · rename_i hclean
      rw [if_neg (not_or.2 ⟨hevict, hclean⟩)]
      exact ⟨hfree, pkt, q.allocOnFill, hok⟩

/-- **What a miss does.** -/
theorem recvTimingReq_done {q : Found n} (hexpress : pkt.isExpressSnoop = true → pkt.cacheResponding = true)
    (hok : recvTimingReq numTarget k pkt q σ = .ok σ') : (missEffect σ k pkt q).Done numTarget σ σ' k := by
  unfold recvTimingReq at hok
  unfold missEffect
  split at hok
  · rename_i hrefused
    cases hok
    rw [if_pos (by rw [hrefused]; rfl)]
    exact ⟨rfl, fun _ => rfl, rfl⟩
  · rename_i htaken
    split at hok
    · rename_i hresponding
      obtain ⟨_, -, hok⟩ := bind_ok_iff.1 hok
      cases hok
      rw [if_pos (by rw [hresponding, Bool.or_true])]
      exact ⟨rfl, fun _ => rfl, rfl⟩
    · rename_i hresponding
      have hfree : σ.isBlocked k = false := by
        have hsnoop : pkt.isExpressSnoop = false := Bool.eq_false_iff.2 fun he => hresponding (hexpress he)
        rw [hsnoop] at htaken
        simpa using htaken
      rw [if_neg (by rw [hfree, Bool.and_false, Bool.false_or]; exact hresponding)]
      unfold handleTimingReqMiss at hok
      split at hok
      · rename_i huncacheable
        rw [if_pos huncacheable]
        split at hok
        · rename_i hwrite
          rw [if_pos hwrite]
          exact allocateWriteBuffer_done hok
        · rename_i hwrite
          rw [if_neg hwrite]
          obtain ⟨_, -, hok⟩ := bind_ok_iff.1 hok
          exact allocateMissBuffer_done hok
      · rename_i hcacheable
        rw [if_neg hcacheable]
        cases hm : q.mshr with
        | some m =>
          split at hok
          · rename_i hprefetch
            obtain ⟨_, -, hok⟩ := bind_ok_iff.1 hok
            unfold baseHandleTimingReqMiss at hok
            rw [hm] at hok
            cases hok
            dsimp only
            rw [if_pos (by rw [hprefetch]; rfl)]
            exact ⟨rfl, fun _ => rfl, rfl⟩
          · rename_i hprefetch
            have hjoins := baseHandleTimingReqMiss_joins hm hfree hok
            simpa [hprefetch] using hjoins
        | none =>
          split at hok
          · obtain ⟨_, -, hok⟩ := bind_ok_iff.1 hok
            rw [if_neg (by rw [hm]; exact Bool.false_ne_true)] at hok
            have hopens := baseHandleTimingReqMiss_opens hm hok
            exact hopens
          · exact baseHandleTimingReqMiss_opens hm hok

end Alpine.Mem.TargetLimit
