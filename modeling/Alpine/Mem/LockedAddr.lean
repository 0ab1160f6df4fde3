import Alpine.Base.AddrRangeMerge
import Alpine.Lib.Run
import Alpine.Lib.Since
import Alpine.Mem.LlscPacket

/-!
# Locked addresses of a memory (`mem/abstract_mem.hh`, `mem/abstract_mem.cc`)

The load-locked records of an `AbstractMemory` under its accesses, next to the history of these accesses.  A
record is of a context and of a granule of 16 bytes.

* `trackLoadLocked`, `writeOK`, `access` as in the source.
* `ReservedGranule` — what a successful store conditional promises about the history.
* `GuardedStore` — an access does not store past the check of the records.
* `single_record` — a context never has two records.
* `access_sound_iff` — in a run whose accesses are guarded, the store conditionals that succeed after one more
  access are sound if and only if that access is guarded too.
-/

namespace Alpine.Mem.Llsc

/-! ## The records -/

/-- `LockedAddr`. -/
structure LockedAddr where
  addr : Nat
  contextId : Nat

/-- `LockedAddr::mask`, with `Addr_Mask`. -/
def LockedAddr.mask (paddr : Nat) : Nat := paddr - (paddr &&& 0xf)

def LockedAddr.ofReq (req : Request) : LockedAddr := ⟨mask req.paddr, req.contextId⟩

/-- `AbstractMemory`: its range, its bytes if it has any, and the records. -/
structure AbstractMemory where
  range : Base.AddrRange
  pmemAddr : Option Bytes
  lockedAddrList : List LockedAddr

namespace AbstractMemory

/-- The loop of `trackLoadLocked`: the first record of the context gets the new address. -/
def updateRecord (addr contextId : Nat) : List LockedAddr → Option (List LockedAddr)
  | [] => none
  | r :: rs =>
    if r.contextId = contextId then some (⟨addr, contextId⟩ :: rs)
    else (updateRecord addr contextId rs).map (r :: ·)

/-- `AbstractMemory::trackLoadLocked`, on the list. -/
def trackLoadLocked (list : List LockedAddr) (req : Request) : List LockedAddr :=
  (updateRecord (LockedAddr.mask req.paddr) req.contextId list).getD (LockedAddr.ofReq req :: list)

/-- `AbstractMemory::checkLockedAddrList`: whether the store is allowed, the records, and the packet. -/
def checkLockedAddrList (list : List LockedAddr) (pkt : Packet) : Bool × List LockedAddr × Packet :=
  let paddr := LockedAddr.mask pkt.req.paddr
  let allowStore := !pkt.isLLSC || list.any fun r => r.addr = paddr && r.contextId = pkt.req.contextId
  (allowStore, if allowStore then list.filter fun r => r.addr ≠ paddr else list,
    if pkt.isLLSC then { pkt with req := pkt.req.setExtraData (if allowStore then 1 else 0) } else pkt)

/-- `AbstractMemory::writeOK`. -/
def writeOK (list : List LockedAddr) (pkt : Packet) : Bool × List LockedAddr × Packet :=
  if list.isEmpty then
    (!pkt.isLLSC, list, if pkt.isLLSC then { pkt with req := pkt.req.setExtraData 0 } else pkt)
  else checkLockedAddrList list pkt

variable (m : AbstractMemory) (pkt : Packet)

/-- The place of the access in the bytes of the memory. -/
def hostAddr : Nat := pkt.req.paddr - m.range.start

/-- Whether the memory performs the access at all. -/
def performs (pkt : Packet) : Bool :=
  !(pkt.cacheResponding || pkt.cmd = .CleanEvict || pkt.cmd = .WritebackClean)

/-- `AddrRange::isSubset` of the range of the access. -/
def inRange : Bool :=
  if m.range.interleaved then
    m.range.contains pkt.req.paddr && m.range.contains pkt.req.high && pkt.req.size ≤ m.range.granularity
  else pkt.req.paddr ≥ m.range.start && pkt.req.high ≤ m.range.stop

/-- The branches of `access` on the command. -/
def perform : Option (Packet × AbstractMemory) :=
  if pkt.cmd = .SwapReq then
    match pkt.req.atomicOp, m.pmemAddr with
    | some op, some mem =>
      some (pkt.setData mem (m.hostAddr pkt),
        { m with pmemAddr := some (pkt.atomic op mem (m.hostAddr pkt)) })
    | some _, none => some (pkt, m)
    | none, none => none
    | none, some mem =>
      match pkt.overwriteMem mem (m.hostAddr pkt) with
      | none => none
      | some overwrite =>
        some (pkt.setData mem (m.hostAddr pkt),
          { m with pmemAddr := some (if overwrite then pkt.writeData mem (m.hostAddr pkt) else mem) })
  else if pkt.isRead then
    if pkt.isWrite then none
    else if pkt.isLLSC && pkt.fromCache then none
    else
      some (m.pmemAddr.elim pkt fun mem => pkt.setData mem (m.hostAddr pkt),
        if pkt.isLLSC then { m with lockedAddrList := trackLoadLocked m.lockedAddrList pkt.req } else m)
  else if pkt.isInvalidate || pkt.isClean then
    if pkt.isWrite then none else some (pkt, m)
  else if pkt.isWrite then
    let r := writeOK m.lockedAddrList pkt
    some (r.2.2, { m with
      pmemAddr := if r.1 then m.pmemAddr.map fun mem => pkt.writeData mem (m.hostAddr pkt) else m.pmemAddr
      lockedAddrList := r.2.1 })
  else none

/-- `AbstractMemory::access`: the packet and the memory after it; `none` is a panic or a failed assertion.
The exclusive monitors of the other contexts that lose a record are outside. -/
def access : Option (Packet × AbstractMemory) :=
  if !performs pkt then some (pkt, m)
  else if !m.inRange pkt then none
  else (m.perform pkt).map fun r => (if pkt.needsResponse then r.1.makeResponse else r.1, r.2)

/-- Whether the access stores its bytes. -/
def stores : Bool :=
  match m.pmemAddr with
  | none => false
  | some mem =>
    if pkt.cmd = .SwapReq then pkt.isAtomicOp || (pkt.overwriteMem mem (m.hostAddr pkt)).getD false
    else pkt.isWrite && (writeOK m.lockedAddrList pkt).1

end AbstractMemory

/-! ## Runs -/

/-- A memory and the history of the accesses it performed. -/
structure MemSys where
  mem : AbstractMemory
  history : List Event

def MemSys.step (s : MemSys) (pkt : Packet) : Option MemSys :=
  (s.mem.access pkt).map fun r => ⟨r.2, if AbstractMemory.performs pkt then
    pkt.event (s.mem.stores pkt) :: s.history else s.history⟩

/-- A memory without records. -/
def MemSys.Fresh (s : MemSys) : Prop := s.mem.lockedAddrList = [] ∧ s.history = []

/-- An event is a load-locked by context `c`. -/
def LocksFor (c : Nat) (e : Event) : Prop := e.isLoadLocked = true ∧ e.contextId = c

/-- An event stores to a byte of the granule `g`. -/
def StoresTo (g : Nat) (e : Event) : Prop := e.stored = true ∧ e.low < g + 16 ∧ g ≤ e.high

/-- The last load-locked of context `c` was to the granule `g`, to which nothing has been stored since. -/
def ReservedGranule (c g : Nat) (history : List Event) : Prop :=
  Since (fun e => ¬ LocksFor c e ∧ ¬ StoresTo g e) (fun e => LocksFor c e ∧ LockedAddr.mask e.low = g) history

/-- An access that stores to a granule with a record goes through the check of the records, and it starts in
that granule. -/
def GuardedStore (s : MemSys) (pkt : Packet) : Prop :=
  AbstractMemory.performs pkt = true → s.mem.stores pkt = true →
    ∀ r ∈ s.mem.lockedAddrList, pkt.req.paddr < r.addr + 16 → r.addr ≤ pkt.req.high →
      pkt.cmd ≠ .SwapReq ∧ r.addr = LockedAddr.mask pkt.req.paddr

/-- A context has one record at most, and every store conditional that succeeds now is sound. -/
def MemSys.Sound (s : MemSys) : Prop :=
  (s.mem.lockedAddrList.map LockedAddr.contextId).Nodup ∧
  ∀ pkt : Packet, pkt.isStoreCond = true → (AbstractMemory.writeOK s.mem.lockedAddrList pkt).1 = true →
    ReservedGranule pkt.req.contextId (LockedAddr.mask pkt.req.paddr) s.history

/-! ## One access -/

theorem LockedAddr.mask_eq (a : Nat) : mask a = a / 16 * 16 := by
  unfold mask
  rw [show (0xf : Nat) = 2 ^ 4 - 1 from rfl, Nat.and_two_pow_sub_one_eq_mod]
  omega

theorem LockedAddr.mask_mask (a : Nat) : mask (mask a) = mask a := by
  rw [mask_eq, mask_eq]
  omega

namespace AbstractMemory

variable {m m' : AbstractMemory} {pkt p' : Packet} {list list' : List LockedAddr}

theorem updateRecord_spec (addr c : Nat) : ∀ {list : List LockedAddr}, (list.map LockedAddr.contextId).Nodup →
    match updateRecord addr c list with
    | none => ∀ r ∈ list, r.contextId ≠ c
    | some list' => list'.map LockedAddr.contextId = list.map LockedAddr.contextId ∧
        ∀ r ∈ list', r = ⟨addr, c⟩ ∨ r ∈ list ∧ r.contextId ≠ c
  | [], _ => fun _ hr => absurd hr List.not_mem_nil
  | q :: list, hn => by
    obtain ⟨hq, hn⟩ := List.nodup_cons.1 hn
    unfold updateRecord
    by_cases hc : q.contextId = c
    · rw [if_pos hc]
      refine ⟨by rw [List.map_cons, List.map_cons, hc], fun r hr => ?_⟩
      rcases List.mem_cons.1 hr with rfl | hr
      · exact .inl rfl
      · refine .inr ⟨List.mem_cons_of_mem _ hr, fun hrc => hq ?_⟩
        rw [hc, ← hrc]
        exact List.mem_map_of_mem hr
    · rw [if_neg hc]
      have ih := updateRecord_spec addr c hn
      cases hu : updateRecord addr c list with
      | none =>
        rw [hu] at ih
        intro r hr
        rcases List.mem_cons.1 hr with rfl | hr
        · exact hc
        · exact ih r hr
      | some list' =>
        rw [hu] at ih
        refine ⟨by rw [List.map_cons, List.map_cons, ih.1], fun r hr => ?_⟩
        rcases List.mem_cons.1 hr with rfl | hr
        · exact .inr ⟨List.mem_cons_self, hc⟩
        · rcases ih.2 r hr with hr | ⟨hr, hne⟩
          · exact .inl hr
          · exact .inr ⟨List.mem_cons_of_mem _ hr, hne⟩

/-- After a load-locked the context has the new record, and no other. -/
theorem trackLoadLocked_spec (req : Request) (hn : (list.map LockedAddr.contextId).Nodup) :
    ((trackLoadLocked list req).map LockedAddr.contextId).Nodup ∧
      ∀ r ∈ trackLoadLocked list req, r = LockedAddr.ofReq req ∨ r ∈ list ∧ r.contextId ≠ req.contextId := by
  have hspec := updateRecord_spec (LockedAddr.mask req.paddr) req.contextId hn
  unfold trackLoadLocked
  cases hu : updateRecord (LockedAddr.mask req.paddr) req.contextId list with
  | none =>
    rw [hu] at hspec
    refine ⟨List.nodup_cons.2 ⟨fun hmem => ?_, hn⟩, fun r hr => ?_⟩
    · obtain ⟨r, hr, hrc⟩ := List.mem_map.1 hmem
      exact hspec r hr hrc
    · rcases List.mem_cons.1 hr with rfl | hr
      · exact .inl rfl
      · exact .inr ⟨hr, hspec r hr⟩
  | some list' =>
    rw [hu] at hspec
    exact ⟨hspec.1 ▸ hn, hspec.2⟩

theorem writeOK_sublist (list : List LockedAddr) (pkt : Packet) : (writeOK list pkt).2.1.Sublist list := by
  unfold writeOK
  split
  · exact List.Sublist.refl _
  · unfold checkLockedAddrList
    dsimp only
    split
    · exact List.filter_sublist
    · exact List.Sublist.refl _

theorem writeOK_clears (hok : (writeOK list pkt).1 = true) {r : LockedAddr} (hr : r ∈ (writeOK list pkt).2.1) :
    r.addr ≠ LockedAddr.mask pkt.req.paddr := by
  unfold writeOK at hok hr
  split at hr
  · rename_i hempty
    rw [List.isEmpty_iff.1 hempty] at hr
    exact absurd hr List.not_mem_nil
  · rename_i hempty
    rw [if_neg hempty] at hok
    unfold checkLockedAddrList at hok hr
    dsimp only at hok hr
    rw [if_pos hok] at hr
    exact of_decide_eq_true (List.mem_filter.1 hr).2

theorem writeOK_keeps {r : LockedAddr} (hr : r ∈ list) (hne : r.addr ≠ LockedAddr.mask pkt.req.paddr) :
    r ∈ (writeOK list pkt).2.1 := by
  unfold writeOK
  split
  · exact hr
  · unfold checkLockedAddrList
    dsimp only
    split
    · exact List.mem_filter.2 ⟨hr, decide_eq_true hne⟩
    · exact hr

/-- A store conditional is allowed exactly if the context has a record of the granule. -/
theorem writeOK_llsc (hsc : pkt.isLLSC = true) : (writeOK list pkt).1 = true ↔
    ⟨LockedAddr.mask pkt.req.paddr, pkt.req.contextId⟩ ∈ list := by
  unfold writeOK
  split
  · rename_i hempty
    rw [List.isEmpty_iff.1 hempty, hsc]
    exact ⟨fun h => absurd h Bool.false_ne_true, fun h => absurd h List.not_mem_nil⟩
  · unfold checkLockedAddrList
    dsimp only
    rw [hsc, Bool.not_true, Bool.false_or, List.any_eq_true]
    constructor
    · rintro ⟨r, hr, hmatch⟩
      obtain ⟨ha, hc⟩ := Bool.and_eq_true_iff.1 hmatch
      rwa [← of_decide_eq_true ha, ← of_decide_eq_true hc]
    · exact fun hr => ⟨_, hr, by simp⟩

/-- The bytes that an access changes are those it stores. -/
def Stored (m : AbstractMemory) (pkt : Packet) (m' : AbstractMemory) : Prop :=
  ∀ mem mem', m.pmemAddr = some mem → m'.pmemAddr = some mem' → ∀ x, mem' x ≠ mem x →
    m.stores pkt = true ∧ m.hostAddr pkt ≤ x ∧ x < m.hostAddr pkt + pkt.req.size

theorem Stored.of_eq (hsame : m'.pmemAddr = m.pmemAddr) : m.Stored pkt m' := by
  intro mem mem' hm hm' x hx
  rw [hm, hm'] at hsame
  cases hsame
  exact absurd rfl hx

theorem stores_of_some {mem : Bytes} (hm : m.pmemAddr = some mem) : m.stores pkt =
    if pkt.cmd = .SwapReq then pkt.isAtomicOp || (pkt.overwriteMem mem (m.hostAddr pkt)).getD false
    else pkt.isWrite && (writeOK m.lockedAddrList pkt).1 := by
  unfold stores
  rw [hm]

/-- **What an access that the memory performs does** to the records and the bytes. -/
theorem perform_cases (h : m.perform pkt = some (p', m')) :
    (pkt.cmd = .SwapReq ∧ m'.lockedAddrList = m.lockedAddrList ∧ m.Stored pkt m') ∨
    (pkt.cmd ≠ .SwapReq ∧ pkt.isRead = false ∧ pkt.isWrite = true ∧
      m'.lockedAddrList = (writeOK m.lockedAddrList pkt).2.1 ∧ m.Stored pkt m') ∨
    (pkt.cmd ≠ .SwapReq ∧ pkt.isWrite = false ∧ m'.pmemAddr = m.pmemAddr ∧
      (m'.lockedAddrList = m.lockedAddrList ∧ pkt.isLoadLocked = false ∨
        m'.lockedAddrList = trackLoadLocked m.lockedAddrList pkt.req ∧ pkt.isLoadLocked = true)) := by
  unfold perform at h
  split at h
  · rename_i hswap
    refine .inl ⟨hswap, ?_⟩
    split at h
    · rename_i op mem1 hop hmem
      cases h
      refine ⟨rfl, fun mem mem' hm hm' x hx => ?_⟩
      cases hm.symm.trans hmem
      cases hm'
      rw [stores_of_some hm, if_pos hswap]
      unfold Packet.isAtomicOp
      rw [hop]
      exact ⟨rfl, Packet.memcpy_changes hx⟩
    · cases h
      exact ⟨rfl, .of_eq rfl⟩
    · cases h
    · rename_i mem1 hop hmem
      split at h
      · cases h
      · rename_i overwrite hover
        cases h
        refine ⟨rfl, fun mem mem' hm hm' x hx => ?_⟩
        cases hm.symm.trans hmem
        cases hm'
        rw [stores_of_some hm, if_pos hswap, hover]
        cases overwrite with
        | false => exact absurd rfl hx
        | true => exact ⟨Bool.or_true _, Packet.memcpy_changes hx⟩
  rename_i hswap
  split at h
  · rename_i hread
    split at h
    · cases h
    rename_i hwrite
    split at h
    · cases h
    cases h
    have hload : pkt.isLoadLocked = pkt.isLLSC := by
      unfold Packet.isLoadLocked
      rw [hread, decide_eq_true hswap, Bool.true_and, Bool.true_and]
    refine .inr (.inr ⟨hswap, Bool.eq_false_iff.2 hwrite, ?_⟩)
    cases hllsc : pkt.isLLSC with
    | false => exact ⟨rfl, .inl ⟨rfl, hload.trans hllsc⟩⟩
    | true => exact ⟨rfl, .inr ⟨rfl, hload.trans hllsc⟩⟩
  rename_i hread
  have hload : pkt.isLoadLocked = false := by
    unfold Packet.isLoadLocked
    rw [Bool.eq_false_iff.2 hread, Bool.and_false, Bool.false_and]
  split at h
  · split at h
    · cases h
    rename_i hwrite
    cases h
    exact .inr (.inr ⟨hswap, Bool.eq_false_iff.2 hwrite, rfl, .inl ⟨rfl, hload⟩⟩)
  split at h
  · rename_i hwrite
    cases h
    refine .inr (.inl ⟨hswap, Bool.eq_false_iff.2 hread, hwrite, rfl, ?_⟩)
    cases hok : (writeOK m.lockedAddrList pkt).1 with
    | false => exact .of_eq rfl
    | true =>
      intro mem mem' hm hm' x hx
      dsimp only at hm'
      rw [if_pos rfl, hm] at hm'
      cases hm'
      rw [stores_of_some hm, if_neg hswap, hwrite, Bool.true_and, hok]
      exact ⟨rfl, Packet.memcpy_changes hx⟩
  · cases h

end AbstractMemory

/-! ## The invariant -/

/-- Each context has one record at most, its granule is aligned, and the last load-locked of the context was
to that granule, to which nothing has been stored since. -/
structure Recorded (s : MemSys) : Prop where
  single : (s.mem.lockedAddrList.map LockedAddr.contextId).Nodup
  aligned : ∀ r ∈ s.mem.lockedAddrList, LockedAddr.mask r.addr = r.addr
  since : ∀ r ∈ s.mem.lockedAddrList, ReservedGranule r.contextId r.addr s.history

section Invariant

variable {s s' : MemSys} {pkt : Packet}

theorem MemSys.step_cases (h : s.step pkt = some s') : (AbstractMemory.performs pkt = false ∧ s' = s) ∨
    (AbstractMemory.performs pkt = true ∧ ∃ p', s.mem.perform pkt = some (p', s'.mem) ∧
      s'.history = pkt.event (s.mem.stores pkt) :: s.history) := by
  obtain ⟨⟨p', m'⟩, ha, rfl⟩ := Option.map_eq_some_iff.1 h
  unfold AbstractMemory.access at ha
  cases hp : AbstractMemory.performs pkt with
  | false =>
    rw [hp] at ha
    cases ha
    exact .inl ⟨rfl, rfl⟩
  | true =>
    rw [hp, Bool.not_true, if_neg Bool.false_ne_true] at ha
    split at ha
    · cases ha
    · obtain ⟨⟨p1, m1⟩, hperf, heq⟩ := Option.map_eq_some_iff.1 ha
      cases heq
      exact .inr ⟨rfl, p1, hperf, rfl⟩

/-- Records that stay, of granules to which the access does not store, and not of its own load-locked. -/
theorem Recorded.sublist (h : Recorded s) {m' : AbstractMemory} {e : Event}
    (hsub : m'.lockedAddrList.Sublist s.mem.lockedAddrList) (hload : e.isLoadLocked = false)
    (hkeep : ∀ r ∈ m'.lockedAddrList, ¬ StoresTo r.addr e) : Recorded ⟨m', e :: s.history⟩ where
  single := h.single.sublist (hsub.map _)
  aligned r hr := h.aligned r (hsub.subset hr)
  since r hr := by
    refine since_cons.2 (.inr ⟨⟨?_, hkeep r hr⟩, h.since r (hsub.subset hr)⟩)
    rintro ⟨hl, -⟩
    rw [hload] at hl
    cases hl

theorem not_loadLocked_of_swap (h : pkt.cmd = .SwapReq) : pkt.isLoadLocked = false := by
  unfold Packet.isLoadLocked
  rw [decide_eq_false (not_not.2 h), Bool.false_and, Bool.false_and]

theorem not_stores_of_not_write (hswap : pkt.cmd ≠ .SwapReq) (hwrite : pkt.isWrite = false) :
    s.mem.stores pkt = false := by
  unfold AbstractMemory.stores
  split
  · rfl
  · rw [if_neg hswap, hwrite, Bool.false_and]

/-- **A guarded access keeps the invariant.** -/
theorem Recorded.step (h : Recorded s) (hg : GuardedStore s pkt) (hs : s.step pkt = some s') : Recorded s' := by
  rcases MemSys.step_cases hs with ⟨-, rfl⟩ | ⟨hperf, p', hb, hhist⟩
  · exact h
  obtain ⟨m', history⟩ := s'
  dsimp only at hhist hb
  subst hhist
  rcases AbstractMemory.perform_cases hb with ⟨hswap, hlist, -⟩ | ⟨hswap, hread, hwrite, hlist, -⟩ |
      ⟨hswap, hwrite, -, ⟨hlist, hload⟩ | ⟨hlist, hload⟩⟩
  · refine h.sublist (hlist ▸ List.Sublist.refl _) (not_loadLocked_of_swap hswap) fun r hr => ?_
    rintro ⟨hst, hlo, hhi⟩
    exact (hg hperf hst r (hlist ▸ hr) hlo hhi).1 hswap
  · refine h.sublist (hlist ▸ AbstractMemory.writeOK_sublist _ _) ?_ fun r hr => ?_
    · show pkt.isLoadLocked = false
      unfold Packet.isLoadLocked
      rw [hread, Bool.and_false, Bool.false_and]
    · rintro ⟨hst, hlo, hhi⟩
      rw [hlist] at hr
      have hok : (AbstractMemory.writeOK s.mem.lockedAddrList pkt).1 = true := by
        have hst' : s.mem.stores pkt = true := hst
        unfold AbstractMemory.stores at hst'
        split at hst'
        · cases hst'
        · rw [if_neg hswap, hwrite, Bool.true_and] at hst'
          exact hst'
      have hrec := (AbstractMemory.writeOK_sublist _ _).subset hr
      exact AbstractMemory.writeOK_clears hok hr (hg hperf hst r hrec hlo hhi).2
  · rw [not_stores_of_not_write hswap hwrite]
    refine h.sublist (hlist ▸ List.Sublist.refl _) hload fun r _ => ?_
    rintro ⟨hst, -⟩
    cases hst
  · rw [not_stores_of_not_write hswap hwrite]
    obtain ⟨hsingle, hmem⟩ := AbstractMemory.trackLoadLocked_spec pkt.req h.single
    refine ⟨hlist ▸ hsingle, fun r hr => ?_, fun r hr => ?_⟩
    · dsimp only at hr
      rw [hlist] at hr
      rcases hmem r hr with rfl | ⟨hr, -⟩
      · exact LockedAddr.mask_mask _
      · exact h.aligned r hr
    · dsimp only at hr
      rw [hlist] at hr
      rcases hmem r hr with rfl | ⟨hr, hne⟩
      · exact since_cons.2 (.inl ⟨⟨hload, rfl⟩, rfl⟩)
      · refine since_cons.2 (.inr ⟨⟨?_, ?_⟩, h.since r hr⟩)
        · rintro ⟨-, hc⟩
          exact hne hc.symm
        · rintro ⟨hst, -⟩
          cases hst

theorem Recorded.sound (h : Recorded s) : s.Sound := by
  refine ⟨h.single, fun pkt hsc hok => ?_⟩
  have hllsc : pkt.isLLSC = true := (Bool.and_eq_true_iff.1 hsc).2
  exact h.since _ ((AbstractMemory.writeOK_llsc hllsc).1 hok)

/-- After a store past the check of the records, the owner of one may store conditionally. -/
theorem not_sound_of_not_guardedStore (h : Recorded s) (hg : ¬ GuardedStore s pkt)
    (hs : s.step pkt = some s') : ¬ s'.Sound := by
  unfold GuardedStore at hg
  push Not at hg
  obtain ⟨hperf, hst, r, hr, hlo, hhi, hpast⟩ := hg
  rcases MemSys.step_cases hs with ⟨hno, -⟩ | ⟨-, p', hb, hhist⟩
  · rw [hperf] at hno
    cases hno
  obtain ⟨hstay, hload⟩ : r ∈ s'.mem.lockedAddrList ∧ pkt.isLoadLocked = false := by
    rcases AbstractMemory.perform_cases hb with ⟨hswap, hlist, -⟩ | ⟨hswap, hread, -, hlist, -⟩ |
        ⟨hswap, hwrite, -⟩
    · exact ⟨hlist ▸ hr, not_loadLocked_of_swap hswap⟩
    · refine ⟨hlist ▸ AbstractMemory.writeOK_keeps hr (hpast hswap), ?_⟩
      unfold Packet.isLoadLocked
      rw [hread, Bool.and_false, Bool.false_and]
    · rw [not_stores_of_not_write hswap hwrite] at hst
      cases hst
  -- the store conditional of the owner to the first byte of the granule
  let sc : Packet := { cmd := .StoreCondReq, req := { contextId := r.contextId, paddr := r.addr, size := 1,
                                                       size_pos := Nat.one_pos } }
  have hmask : LockedAddr.mask r.addr = r.addr := h.aligned r hr
  rintro ⟨-, hsound⟩
  have hsince : ReservedGranule r.contextId (LockedAddr.mask r.addr) s'.history := by
    refine hsound sc rfl ((AbstractMemory.writeOK_llsc rfl).2 ?_)
    show (⟨LockedAddr.mask r.addr, r.contextId⟩ : LockedAddr) ∈ s'.mem.lockedAddrList
    rw [hmask]
    exact hstay
  rw [hhist, hmask] at hsince
  rcases since_cons.1 hsince with ⟨⟨hl, -⟩, -⟩ | ⟨⟨-, hkeep⟩, -⟩
  · rw [show (pkt.event (s.mem.stores pkt)).isLoadLocked = pkt.isLoadLocked from rfl, hload] at hl
    cases hl
  · exact hkeep ⟨hst, hlo, hhi⟩

theorem MemSys.single_step (h : (s.mem.lockedAddrList.map LockedAddr.contextId).Nodup)
    (hs : s.step pkt = some s') : (s'.mem.lockedAddrList.map LockedAddr.contextId).Nodup := by
  rcases MemSys.step_cases hs with ⟨-, rfl⟩ | ⟨-, p', hb, -⟩
  · exact h
  rcases AbstractMemory.perform_cases hb with ⟨-, hlist, -⟩ | ⟨-, -, -, hlist, -⟩ |
      ⟨-, -, -, ⟨hlist, -⟩ | ⟨hlist, -⟩⟩
  · rw [hlist]
    exact h
  · rw [hlist]
    exact h.sublist ((AbstractMemory.writeOK_sublist _ _).map _)
  · rw [hlist]
    exact h
  · rw [hlist]
    exact (AbstractMemory.trackLoadLocked_spec _ h).1

end Invariant

/-- **A context never has two records**, whatever the accesses are. -/
theorem single_record {s0 s : MemSys} (h0 : s0.Fresh)
    (h : Run.Reaches MemSys.step (fun _ _ => True) s0 s) :
    (s.mem.lockedAddrList.map LockedAddr.contextId).Nodup := by
  refine h.inv (P := fun s => (s.mem.lockedAddrList.map LockedAddr.contextId).Nodup) ?_
    fun t _ t' ht _ hstep => MemSys.single_step ht hstep
  rw [h0.1]
  exact List.nodup_nil

/-- **Load-locked and store conditional in memory.**  In a run from a memory without records, all of whose
accesses were guarded, a context has one record at most and every store conditional that succeeds is sound;
and it stays so after one more access, of any kind, if and only if that access is guarded. -/
theorem access_sound_iff {s₀ s s' : MemSys} {pkt : Packet} (h₀ : s₀.Fresh)
    (h : Run.Reaches MemSys.step GuardedStore s₀ s) (hs : s.step pkt = some s') :
    s.Sound ∧ (s'.Sound ↔ GuardedStore s pkt) := by
  have hrec : Recorded s := by
    refine h.inv ?_ fun t pkt t' ht hg hstep => ht.step hg hstep
    have hnone : ∀ r, r ∉ s₀.mem.lockedAddrList := by
      rw [h₀.1]
      exact fun r => List.not_mem_nil
    refine ⟨?_, fun r hr => absurd hr (hnone r), fun r hr => absurd hr (hnone r)⟩
    rw [h₀.1]
    exact List.nodup_nil
  refine ⟨hrec.sound, fun hsound => ?_, fun hg => (hrec.step hg hs).sound⟩
  by_contra hg
  exact not_sound_of_not_guardedStore hrec hg hs hsound

/-! ## A memory of sixty-four bytes -/

theorem smallRange_fits : 0 < 2 ^ 64 ∧ 63 < 2 ^ 64 := ⟨by decide, by decide⟩

def zeroMem : MemSys := ⟨⟨Base.AddrRange.interval 0 63 smallRange_fits, some fun _ => 0, []⟩, []⟩

/-- The request of context `c` to the first byte of the second granule. -/
def secondReq (c : Nat) : Request := ⟨c, 16, 1, Nat.one_pos, false, none, 0⟩

def lockSecond (c : Nat) : Packet := ⟨.LoadLockedReq, secondReq c, fun _ => 0, false, false⟩

def storeSecond (c : Nat) : Packet := ⟨.StoreCondReq, secondReq c, fun _ => 1, false, false⟩

/-- Both contexts lock the second granule, and the store conditional of context 1 succeeds. -/
theorem access_sound_lockedTwice : ∃ s s' : MemSys, s.mem.lockedAddrList.map LockedAddr.contextId = [1, 0] ∧
    s.step (storeSecond 1) = some s' ∧ s'.mem.pmemAddr.map (· 16) = some 1 ∧ s.Sound ∧ s'.Sound := by
  have h1 := (Run.Reaches.refl : Run.Reaches MemSys.step GuardedStore zeroMem _).step
    (i := lockSecond 0) (fun _ h => by cases h) rfl
  have h2 := h1.step (i := lockSecond 1) (fun _ h => by cases h) rfl
  obtain ⟨hs, hs'⟩ : _ ∧ (_ ↔ GuardedStore _ (storeSecond 1)) := access_sound_iff ⟨rfl, rfl⟩ h2 rfl
  exact ⟨_, _, rfl, rfl, rfl, hs, hs'.2 fun _ _ => by decide⟩

/-- Context 0 locks the second granule, and context 1 writes both granules. -/
def lockThenWrite : Option MemSys := do
  let s ← zeroMem.step (lockSecond 0)
  s.step ⟨.WriteReq, ⟨1, 0, 32, Nat.succ_pos 31, false, none, 0⟩, fun _ => 7, false, false⟩

/-- **A write clears the records of its first granule only:** the store conditional of context 0 succeeds
after its granule was written. -/
theorem write_keeps_record : ∃ s', lockThenWrite = some s' ∧ s'.mem.pmemAddr.map (· 16) = some 7 ∧
    (AbstractMemory.writeOK s'.mem.lockedAddrList ⟨.StoreCondReq, secondReq 0, fun _ => 1, false, false⟩).1 = true ∧
    ¬ ReservedGranule 0 16 s'.history := by
  refine ⟨_, rfl, rfl, rfl, fun hsince => ?_⟩
  rcases since_cons.1 hsince with ⟨⟨hload, -⟩, -⟩ | ⟨⟨-, hkeep⟩, -⟩
  · cases hload
  · exact hkeep ⟨rfl, by decide, by decide⟩

end Alpine.Mem.Llsc
