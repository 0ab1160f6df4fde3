import Alpine.Lib.Run
import Alpine.Lib.Since
import Alpine.Mem.LlscPacket

/-!
# Locked ranges of a cache block (`mem/cache/blk.hh`, `mem/cache/base.cc`)

The list of load-locked ranges of one block under the accesses of `BaseCache::satisfyRequest`, next to the
history of these accesses.

* `checkWrite`, `trackLoadLocked`, `satisfyRequest` as in the source.
* `Reserved` — what a successful store conditional promises about the history.
* `Guarded` — an access does not store past the lock check into a range that another context has locked.
* `storeCond_sound_iff` — in a run whose accesses are guarded, a store conditional that succeeds after one
  more access is sound, whatever it is, if and only if that access is guarded too.
-/

namespace Alpine.Mem.Llsc

/-! ## The block -/

/-- `CacheBlk::Lock`. -/
structure Lock where
  contextId : Nat
  lowAddr : Nat
  highAddr : Nat
  low_le : lowAddr ≤ highAddr

namespace Lock

def ofReq (req : Request) : Lock := ⟨req.contextId, req.paddr, req.high, req.paddr_le_high⟩

def «matches» (l : Lock) (req : Request) : Bool :=
  l.contextId = req.contextId ∧ l.lowAddr ≤ req.paddr ∧ req.high ≤ l.highAddr

def intersects (l : Lock) (req : Request) : Bool := req.paddr ≤ l.highAddr ∧ l.lowAddr ≤ req.high

end Lock

/-- `CacheBlk`: its data by the offset in the block, the bits of its status, and the locks. -/
structure CacheBlk where
  data : Bytes
  valid : Bool
  writable : Bool
  readable : Bool
  dirty : Bool
  lockList : List Lock

/-- `CacheBlk::trackLoadLocked`, on the list. -/
def trackLoadLocked (lockList : List Lock) (req : Request) : List Lock :=
  Lock.ofReq req :: lockList.filter fun l => !l.intersects req

def clearLoadLocks (lockList : List Lock) (req : Request) : List Lock :=
  lockList.filter fun l => !(l.intersects req && l.contextId ≠ req.contextId)

/-- `CacheBlk::checkWrite`: whether the write may proceed, the locks, and the packet.  The loop erases the
first lock that matches a store conditional. -/
def checkWrite (lockList : List Lock) (pkt : Packet) : Bool × List Lock × Packet :=
  if !pkt.isLLSC && lockList.isEmpty then (true, lockList, pkt)
  else if pkt.isLLSC then
    let success := lockList.any (·.matches pkt.req)
    (success, clearLoadLocks (lockList.eraseP (·.matches pkt.req)) pkt.req,
      { pkt with req := pkt.req.setExtraData (if success then 1 else 0) })
  else (true, clearLoadLocks lockList pkt.req, pkt)

namespace CacheBlk

variable (blkSize : Nat) (blk : CacheBlk) (pkt : Packet)

/-- `Packet::getOffset`. -/
def offset : Nat := pkt.req.paddr &&& (blkSize - 1)

def isWritable : Bool := blk.writable && blk.valid

def invalidate : CacheBlk :=
  { blk with valid := false, writable := false, readable := false, dirty := false, lockList := [] }

/-- `BaseCache::cmpAndSwap`. -/
def cmpAndSwap : Option (Packet × CacheBlk) :=
  if 8 < pkt.req.size then none else
  match pkt.overwriteMem blk.data (offset blkSize pkt) with
  | none => none
  | some overwrite =>
    some (pkt.setData blk.data (offset blkSize pkt),
      if overwrite then
        { blk with data := pkt.writeData blk.data (offset blkSize pkt), dirty := true }
      else blk)

/-- `BaseCache::satisfyRequest`: the packet and the block after it; `none` is a failed assertion. -/
def satisfyRequest : Option (Packet × CacheBlk) :=
  if !(pkt.isRequest && blk.valid && offset blkSize pkt + pkt.req.size ≤ blkSize) then none
  else if pkt.cmd = .SwapReq then
    match pkt.req.atomicOp with
    | some op =>
      some (pkt.setData blk.data (offset blkSize pkt),
        { blk with data := pkt.atomic op blk.data (offset blkSize pkt), dirty := true })
    | none => cmpAndSwap blkSize blk pkt
  else if pkt.isWrite then
    if !blk.isWritable then none else
    let r := checkWrite blk.lockList pkt
    some (r.2.2, { blk with
      data := if r.1 then pkt.writeData blk.data (offset blkSize pkt) else blk.data
      lockList := r.2.1
      dirty := true })
  else if pkt.isRead then
    some (pkt.setData blk.data (offset blkSize pkt),
      if pkt.isLLSC then { blk with lockList := trackLoadLocked blk.lockList pkt.req } else blk)
  else if pkt.isUpgrade then
    if pkt.hasSharers then none
    else if blk.dirty then some ({ pkt with cacheResponding := true }, { blk with dirty := false })
    else some (pkt, blk)
  else if pkt.isClean then some (pkt, { blk with dirty := false })
  else if pkt.isInvalidate then some (pkt, blk.invalidate)
  else none

/-- Whether the access stores its bytes. -/
def stores : Bool :=
  if pkt.cmd = .SwapReq then
    pkt.isAtomicOp || (pkt.overwriteMem blk.data (offset blkSize pkt)).getD false
  else pkt.isWrite && (checkWrite blk.lockList pkt).1

end CacheBlk

/-! ## Runs -/

/-- A block and the history of the accesses to it. -/
structure BlkSys where
  blk : CacheBlk
  history : List Event

variable (blkSize : Nat)

def BlkSys.step (s : BlkSys) (pkt : Packet) : Option BlkSys :=
  (s.blk.satisfyRequest blkSize pkt).map fun r => ⟨r.2, pkt.event (s.blk.stores blkSize pkt) :: s.history⟩

/-- A block without locks, as it is filled. -/
def BlkSys.Filled (s : BlkSys) : Prop := s.blk.lockList = [] ∧ s.history = []

/-- An event is a load-locked by context `c` of the range from `lo` to `hi`. -/
def Locks (c lo hi : Nat) (e : Event) : Prop :=
  e.isLoadLocked = true ∧ e.contextId = c ∧ e.low = lo ∧ e.high = hi

/-- An event uses up a load-locked by `c` of the range: it is a successful store conditional of `c` inside it;
or another context stores to a byte of the range. -/
def Breaks (c lo hi : Nat) (e : Event) : Prop :=
  e.stored = true ∧ ((e.isStoreCond = true ∧ e.contextId = c ∧ lo ≤ e.low ∧ e.high ≤ hi) ∨
    (e.contextId ≠ c ∧ e.low ≤ hi ∧ lo ≤ e.high))

/-- The context of a request made a load-locked that covers the request, and nothing has broken that since. -/
def Reserved (history : List Event) (req : Request) : Prop :=
  ∃ lo hi, lo ≤ req.paddr ∧ req.high ≤ hi ∧
    Since (fun e => ¬ Breaks req.contextId lo hi e) (Locks req.contextId lo hi) history

/-- A swap or an atomic operation stores to no byte that another context has locked. -/
def Guarded (s : BlkSys) (pkt : Packet) : Prop :=
  pkt.cmd = .SwapReq → s.blk.stores blkSize pkt = true →
    ∀ l ∈ s.blk.lockList, l.contextId ≠ pkt.req.contextId → l.intersects pkt.req = false

/-- Every store conditional that succeeds now is sound. -/
def BlkSys.Sound (s : BlkSys) : Prop :=
  ∀ pkt : Packet, pkt.isStoreCond = true → (checkWrite s.blk.lockList pkt).1 = true →
    Reserved s.history pkt.req

/-! ## One access -/

section Access

variable {blkSize : Nat} {blk b' : CacheBlk} {pkt p' : Packet}

/-- The bytes that an access changes are those it stores. -/
def Stored (blkSize : Nat) (pkt : Packet) (blk b' : CacheBlk) : Prop :=
  ∀ x, b'.data x ≠ blk.data x → blk.stores blkSize pkt = true ∧
    CacheBlk.offset blkSize pkt ≤ x ∧ x < CacheBlk.offset blkSize pkt + pkt.req.size

theorem cmpAndSwap_spec (hswap : pkt.cmd = .SwapReq) (h : blk.cmpAndSwap blkSize pkt = some (p', b')) :
    b'.lockList = blk.lockList ∧ Stored blkSize pkt blk b' := by
  unfold CacheBlk.cmpAndSwap at h
  split at h
  · cases h
  split at h
  · cases h
  · rename_i overwrite hover
    cases h
    unfold Stored CacheBlk.stores
    rw [if_pos hswap, hover]
    cases overwrite with
    | false => exact ⟨rfl, fun x hx => absurd rfl hx⟩
    | true => exact ⟨rfl, fun x hx => ⟨Bool.or_true _, Packet.memcpy_changes hx⟩⟩

/-- **What an access does** to the locks and the bytes of the block. -/
theorem satisfyRequest_cases (h : blk.satisfyRequest blkSize pkt = some (p', b')) :
    (pkt.cmd = .SwapReq ∧ b'.lockList = blk.lockList ∧ Stored blkSize pkt blk b') ∨
    (pkt.cmd ≠ .SwapReq ∧ pkt.isWrite = true ∧ b'.lockList = (checkWrite blk.lockList pkt).2.1 ∧
      Stored blkSize pkt blk b') ∨ (pkt.cmd ≠ .SwapReq ∧ pkt.isWrite = false ∧ b'.data = blk.data ∧
      (b'.lockList = blk.lockList ∧ pkt.isLoadLocked = false ∨ b'.lockList = [] ∨
        b'.lockList = trackLoadLocked blk.lockList pkt.req ∧ pkt.isLoadLocked = true)) := by
  unfold CacheBlk.satisfyRequest at h
  split at h
  · cases h
  split at h
  · rename_i hswap
    refine .inl ⟨hswap, ?_⟩
    split at h
    · rename_i op hop
      cases h
      refine ⟨rfl, fun x hx => ⟨?_, Packet.memcpy_changes hx⟩⟩
      unfold CacheBlk.stores Packet.isAtomicOp
      rw [if_pos hswap, hop]
      rfl
    · exact cmpAndSwap_spec hswap h
  rename_i hswap
  split at h
  · rename_i hwrite
    refine .inr (.inl ⟨hswap, hwrite, ?_⟩)
    split at h
    · cases h
    · cases h
      refine ⟨rfl, fun x hx => ?_⟩
      unfold CacheBlk.stores
      rw [if_neg hswap, hwrite, Bool.true_and]
      dsimp only at hx
      cases hok : (checkWrite blk.lockList pkt).1 with
      | false =>
        rw [hok] at hx
        exact absurd rfl hx
      | true =>
        rw [hok] at hx
        exact ⟨rfl, Packet.memcpy_changes hx⟩
  rename_i hwrite
  refine .inr (.inr ⟨hswap, Bool.eq_false_iff.2 hwrite, ?_⟩)
  split at h
  · rename_i hread
    have hload : pkt.isLoadLocked = pkt.isLLSC := by
      unfold Packet.isLoadLocked
      rw [hread, decide_eq_true hswap, Bool.true_and, Bool.true_and]
    cases h
    cases hllsc : pkt.isLLSC with
    | false => exact ⟨rfl, .inl ⟨rfl, hload.trans hllsc⟩⟩
    | true => exact ⟨rfl, .inr (.inr ⟨rfl, hload.trans hllsc⟩)⟩
  rename_i hread
  have hload : pkt.isLoadLocked = false := by
    unfold Packet.isLoadLocked
    rw [Bool.eq_false_iff.2 hread, Bool.and_false, Bool.false_and]
  split at h
  · split at h
    · cases h
    split at h
    · cases h
      exact ⟨rfl, .inl ⟨rfl, hload⟩⟩
    · cases h
      exact ⟨rfl, .inl ⟨rfl, hload⟩⟩
  split at h
  · cases h
    exact ⟨rfl, .inl ⟨rfl, hload⟩⟩
  split at h
  · cases h
    exact ⟨rfl, .inr (.inl rfl)⟩
  · cases h

end Access

/-! ## The invariant -/

/-- The locks are of disjoint ranges, and each was made by a load-locked that nothing has broken since. -/
structure Held (s : BlkSys) : Prop where
  disjoint : s.blk.lockList.Pairwise fun l m => l.highAddr < m.lowAddr ∨ m.highAddr < l.lowAddr
  since : ∀ l ∈ s.blk.lockList,
    Since (fun e => ¬ Breaks l.contextId l.lowAddr l.highAddr e)
      (Locks l.contextId l.lowAddr l.highAddr) s.history

section Invariant

variable {s : BlkSys} {locks : List Lock} {pkt : Packet} {stored : Bool}

/-- What an access does to the locks keeps the invariant: it erases at least those that it breaks. -/
theorem Held.sublist (h : Held s) {b' : CacheBlk} (hsub : b'.lockList.Sublist s.blk.lockList) {e : Event}
    (hkeep : ∀ l ∈ b'.lockList, ¬ Breaks l.contextId l.lowAddr l.highAddr e) : Held ⟨b', e :: s.history⟩ where
  disjoint := h.disjoint.sublist hsub
  since l hl := since_cons.2 (.inr ⟨hkeep l hl, h.since l (hsub.subset hl)⟩)

theorem not_breaks_of_not_stored {c lo hi : Nat} {e : Event} (h : e.stored = false) : ¬ Breaks c lo hi e := by
  rintro ⟨hst, -⟩
  rw [h] at hst
  cases hst

/-- A lock that `clearLoadLocks` keeps is not broken by a store of another context. -/
theorem kept_by_clear {l : Lock} {req : Request} (h : l ∈ clearLoadLocks locks req)
    (hc : req.contextId ≠ l.contextId) (hlow : req.paddr ≤ l.highAddr) (hhigh : l.lowAddr ≤ req.high) : False := by
  have hkeep := (List.mem_filter.1 h).2
  have hint : l.intersects req = true := decide_eq_true ⟨hlow, hhigh⟩
  rw [hint, decide_eq_true hc.symm] at hkeep
  cases hkeep

/-- Of disjoint locks, no other than the first one that matches a request matches it. -/
theorem eraseP_no_match {req : Request} :
    ∀ {locks : List Lock}, locks.Pairwise (fun l m => l.highAddr < m.lowAddr ∨ m.highAddr < l.lowAddr) →
      ∀ l ∈ locks.eraseP (·.matches req), l.matches req = false
  | [], _, _, hl => absurd hl List.not_mem_nil
  | m :: locks, hd, l, hl => by
    obtain ⟨hm, hd⟩ := List.pairwise_cons.1 hd
    cases hmatch : m.matches req with
    | false =>
      rw [List.eraseP_cons_of_neg (by rw [hmatch]; decide)] at hl
      rcases List.mem_cons.1 hl with rfl | hl
      · exact hmatch
      · exact eraseP_no_match hd l hl
    | true =>
      rw [List.eraseP_cons_of_pos (p := fun m : Lock => m.matches req) hmatch] at hl
      obtain ⟨-, hlo, hhi⟩ := of_decide_eq_true hmatch
      refine decide_eq_false ?_
      rintro ⟨-, hlo', hhi'⟩
      have hreq := req.paddr_le_high
      rcases hm l hl with hlt | hlt
      · omega
      · omega

theorem checkWrite_sublist (locks : List Lock) (pkt : Packet) : (checkWrite locks pkt).2.1.Sublist locks := by
  unfold checkWrite
  split
  · exact List.Sublist.refl _
  split
  · exact List.filter_sublist.trans List.eraseP_sublist
  · exact List.filter_sublist

/-- The locks that `checkWrite` leaves are not broken by the write. -/
theorem checkWrite_keeps (hd : locks.Pairwise fun l m => l.highAddr < m.lowAddr ∨ m.highAddr < l.lowAddr)
    {l : Lock} (hl : l ∈ (checkWrite locks pkt).2.1) :
    ¬ Breaks l.contextId l.lowAddr l.highAddr (pkt.event stored) := by
  unfold checkWrite at hl
  split at hl
  · rename_i hempty
    rw [List.isEmpty_iff.1 (Bool.and_eq_true_iff.1 hempty).2] at hl
    exact absurd hl List.not_mem_nil
  split at hl
  · rintro ⟨-, ⟨-, hc, hlo, hhi⟩ | ⟨hc, hlo, hhi⟩⟩
    · have hmatch := eraseP_no_match hd l (List.mem_filter.1 hl).1
      exact absurd ⟨hc.symm, hlo, hhi⟩ (of_decide_eq_false hmatch)
    · exact kept_by_clear hl hc hlo hhi
  · rename_i hllsc
    rintro ⟨-, ⟨hsc, -⟩ | ⟨hc, hlo, hhi⟩⟩
    · exact hllsc (Bool.and_eq_true_iff.1 hsc).2
    · exact kept_by_clear hl hc hlo hhi

/-- A load-locked erases the locks it intersects and adds its own. -/
theorem Held.track (h : Held s) {b' : CacheBlk} (hb : b'.lockList = trackLoadLocked s.blk.lockList pkt.req)
    (hload : pkt.isLoadLocked = true) : Held ⟨b', pkt.event false :: s.history⟩ := by
  have hout : ∀ l ∈ s.blk.lockList.filter (fun l => !l.intersects pkt.req), l.intersects pkt.req = false :=
    fun l hl => Bool.not_eq_true' _ ▸ (List.mem_filter.1 hl).2
  refine ⟨?_, fun l hl => ?_⟩
  · dsimp only
    rw [hb]
    refine List.pairwise_cons.2 ⟨fun l hl => ?_, h.disjoint.sublist List.filter_sublist⟩
    have hnot := of_decide_eq_false (hout l hl)
    show pkt.req.high < l.lowAddr ∨ l.highAddr < pkt.req.paddr
    omega
  · dsimp only at hl ⊢
    rw [hb] at hl
    rcases List.mem_cons.1 hl with rfl | hl
    · exact since_cons.2 (.inl ⟨hload, rfl, rfl, rfl⟩)
    · exact since_cons.2 (.inr ⟨not_breaks_of_not_stored rfl, h.since l (List.mem_filter.1 hl).1⟩)

/-- **A guarded access keeps the invariant.** -/
theorem Held.step {blkSize : Nat} {s' : BlkSys} (h : Held s) (hg : Guarded blkSize s pkt)
    (hs : s.step blkSize pkt = some s') : Held s' := by
  obtain ⟨⟨p', b'⟩, hb, rfl⟩ := Option.map_eq_some_iff.1 hs
  rcases satisfyRequest_cases hb with ⟨hswap, hlocks, -⟩ | ⟨-, -, hlocks, -⟩ | ⟨hswap, hwrite, -, hlocks⟩
  · refine h.sublist (hlocks ▸ List.Sublist.refl _) fun l hl => ?_
    rintro ⟨hst, ⟨hsc, -⟩ | ⟨hc, hlo, hhi⟩⟩
    · unfold Packet.event Packet.isStoreCond at hsc
      rw [decide_eq_false (not_not.2 hswap)] at hsc
      cases hsc
    · have hno := hg hswap hst l (hlocks ▸ hl) (Ne.symm hc)
      exact of_decide_eq_false hno ⟨hlo, hhi⟩
  · exact h.sublist (hlocks ▸ checkWrite_sublist _ _) fun l hl => checkWrite_keeps h.disjoint (hlocks ▸ hl)
  · have hnot : s.blk.stores blkSize pkt = false := by
      unfold CacheBlk.stores
      rw [if_neg hswap, hwrite, Bool.false_and]
    dsimp only
    rw [hnot]
    rcases hlocks with ⟨hlocks, -⟩ | hlocks | ⟨hlocks, hload⟩
    · exact h.sublist (hlocks ▸ List.Sublist.refl _) fun l _ => not_breaks_of_not_stored rfl
    · refine h.sublist (hlocks ▸ List.nil_sublist _) fun l _ => not_breaks_of_not_stored rfl
    · exact h.track hlocks hload

/-- The invariant makes every successful store conditional sound. -/
theorem Held.sound (h : Held s) : s.Sound := by
  intro pkt hsc hok
  have hllsc : pkt.isLLSC = true := (Bool.and_eq_true_iff.1 hsc).2
  unfold checkWrite at hok
  rw [hllsc, Bool.not_true, Bool.false_and, if_neg Bool.false_ne_true, if_pos rfl] at hok
  obtain ⟨l, hl, hmatch⟩ := List.any_eq_true.1 hok
  obtain ⟨hc, hlo, hhi⟩ := of_decide_eq_true hmatch
  exact ⟨l.lowAddr, l.highAddr, hlo, hhi, hc ▸ h.since l hl⟩

/-- After a swap past the lock check, the owner of the lock may store conditionally. -/
theorem not_sound_of_not_guarded {blkSize : Nat} {s' : BlkSys} (hg : ¬ Guarded blkSize s pkt)
    (hs : s.step blkSize pkt = some s') : ¬ s'.Sound := by
  unfold Guarded at hg
  push Not at hg
  obtain ⟨hswap, hst, l, hl, hc, hint⟩ := hg
  obtain ⟨⟨p', b'⟩, hb, rfl⟩ := Option.map_eq_some_iff.1 hs
  have hlocks : b'.lockList = s.blk.lockList := by
    rcases satisfyRequest_cases hb with ⟨-, hlocks, -⟩ | ⟨hno, -⟩ | ⟨hno, -⟩
    · exact hlocks
    · exact absurd hswap hno
    · exact absurd hswap hno
  obtain ⟨hlo, hhi⟩ := of_decide_eq_true (Bool.ne_false_iff.1 hint)
  -- the store conditional of the owner to the whole locked range
  have hle := l.low_le
  let sc : Packet :=
    { cmd := .StoreCondReq
      req := { contextId := l.contextId, paddr := l.lowAddr, size := l.highAddr - l.lowAddr + 1,
               size_pos := Nat.succ_pos _ } }
  have hschigh : sc.req.high = l.highAddr := by
    show l.lowAddr + (l.highAddr - l.lowAddr + 1) - 1 = l.highAddr
    omega
  intro hsound
  have hok : (checkWrite b'.lockList sc).1 = true := by
    rw [hlocks]
    refine List.any_eq_true.2 ⟨l, hl, decide_eq_true ⟨rfl, Nat.le_refl _, ?_⟩⟩
    exact Nat.le_of_eq hschigh
  obtain ⟨lo, hi, hloR, hhiR, hsince⟩ := hsound sc rfl hok
  rcases since_cons.1 hsince with ⟨hload, -⟩ | ⟨hkeep, -⟩
  · unfold Packet.event Packet.isLoadLocked at hload
    rw [decide_eq_false (not_not.2 hswap)] at hload
    cases hload
  · refine hkeep ⟨hst, .inr ⟨Ne.symm hc, ?_, ?_⟩⟩
    · exact hlo.trans (hschigh ▸ hhiR)
    · exact hloR.trans hhi

end Invariant

/-- **Load-locked and store conditional in the cache.**  In a run from a filled block, all of whose accesses
were guarded, every store conditional that succeeds is sound; and it stays so after one more access, of any
kind, if and only if that access is guarded. -/
theorem storeCond_sound_iff {blkSize : Nat} {s₀ s s' : BlkSys} {pkt : Packet} (h₀ : s₀.Filled)
    (h : Run.Reaches (BlkSys.step blkSize) (Guarded blkSize) s₀ s) (hs : s.step blkSize pkt = some s') :
    s.Sound ∧ (s'.Sound ↔ Guarded blkSize s pkt) := by
  have hheld : Held s := by
    refine h.inv ⟨?_, fun l hl => ?_⟩ fun t pkt t' ht hg hstep => ht.step hg hstep
    · rw [h₀.1]
      exact .nil
    · rw [h₀.1] at hl
      exact absurd hl List.not_mem_nil
  refine ⟨hheld.sound, fun hsound => ?_, fun hg => (hheld.step hg hs).sound⟩
  by_contra hg
  exact not_sound_of_not_guarded hg hs hsound

/-! ## A block of eight bytes -/

/-- A filled block, writable and full of zeros. -/
def zeroBlk : CacheBlk := ⟨fun _ => 0, true, true, true, false, []⟩

/-- The accesses of context `c` to the first byte. -/
def byteReq (c : Nat) : Request := ⟨c, 0, 1, Nat.one_pos, false, none, 0⟩

/-- Context 0 locks the first byte, and context 1 swaps it. -/
def lockThenSwap : Option BlkSys := do
  let s ← BlkSys.step 8 ⟨zeroBlk, []⟩ ⟨.LoadLockedReq, byteReq 0, fun _ => 0, false, false⟩
  s.step 8 ⟨.SwapReq, byteReq 1, fun _ => 7, false, false⟩

/-- Context 0 locks the first byte and context 1 after it, whose store conditional succeeds. -/
theorem storeCond_sound_lockedTwice : ∃ s s' : BlkSys, s.blk.lockList.map Lock.contextId = [1] ∧
    s.step 8 ⟨.StoreCondReq, byteReq 1, fun _ => 1, false, false⟩ = some s' ∧ s'.blk.data 0 = 1 ∧ s.Sound ∧ s'.Sound := by
  have h1 := (Run.Reaches.refl : Run.Reaches (BlkSys.step 8) (Guarded 8) ⟨zeroBlk, []⟩ _).step
    (i := ⟨.LoadLockedReq, byteReq 0, fun _ => 0, false, false⟩) (fun h => by cases h) rfl
  have h2 := h1.step (i := ⟨.LoadLockedReq, byteReq 1, fun _ => 0, false, false⟩) (fun h => by cases h) rfl
  obtain ⟨hs, hs'⟩ : _ ∧ (_ ↔ Guarded 8 _ ⟨.StoreCondReq, byteReq 1, fun _ => 1, false, false⟩) :=
    storeCond_sound_iff ⟨rfl, rfl⟩ h2 rfl
  exact ⟨_, _, rfl, rfl, rfl, hs, hs'.2 fun h => by cases h⟩

/-- **A swap does not clear the locks of others:** the store conditional of context 0 succeeds after it. -/
theorem swap_keeps_lock : ∃ s', lockThenSwap = some s' ∧ s'.blk.data 0 = 7 ∧
    (checkWrite s'.blk.lockList ⟨.StoreCondReq, byteReq 0, fun _ => 1, false, false⟩).1 = true ∧
    ¬ Reserved s'.history (byteReq 0) := by
  refine ⟨_, rfl, rfl, rfl, ?_⟩
  rintro ⟨lo, hi, hlo, hhi, hsince⟩
  rcases since_cons.1 hsince with ⟨hload, -⟩ | ⟨hkeep, -⟩
  · cases hload
  · exact hkeep ⟨rfl, .inr ⟨Nat.one_ne_zero, hhi, hlo⟩⟩

end Alpine.Mem.Llsc
