import Alpine.Lib.Outcome
import Alpine.Lib.Run
import Alpine.Mem.SnoopFilter

/-!
# The snoop filter covers the holders

The history of a run is which ports have an unanswered request for a line and which ports hold it, as the
requests, responses and snoops that pass by tell.

* `Covers` — the invariant: the entry of a line has the requested bit of exactly the ports that wait for
  it, and the holder bit of every port that holds it.
* `Covers.request`, `Covers.snoop`, `Covers.snoopResponse`, `Covers.snoopForward`, `Covers.response` — each
  operation keeps it.
* `filter_covers` — in every run whose responses answer accepted requests, a lookup returns every port that
  waits for the line or holds it, except the port that asks.
-/

namespace Alpine.Mem

open Alpine.Run SnoopFilter

variable {p : SnoopFilterParams}

/-! ## Ports and masks -/

theorem localIds_snooping : ∀ (ports : List Bool) (id i : Nat), i < ports.length →
    (((localIds id ports)[i]?).join.isSome = ports[i]?.getD false)
  | true :: _, _, 0, _ => rfl
  | false :: _, _, 0, _ => rfl
  | true :: ports, id, i + 1, h => localIds_snooping ports (id + 1) i (Nat.lt_of_succ_lt_succ h)
  | false :: ports, id, i + 1, h => localIds_snooping ports id i (Nat.lt_of_succ_lt_succ h)

theorem localIds_range : ∀ (ports : List Bool) (id i k : Nat), ((localIds id ports)[i]?).join = some k →
    id ≤ k ∧ k < id + ports.count true
  | [], _, _, _, h => by simp [localIds] at h
  | true :: ports, id, 0, k, h => by
    simp [localIds] at h
    simp only [List.count_cons_self]
    omega
  | false :: ports, id, 0, k, h => by simp [localIds] at h
  | true :: ports, id, i + 1, k, h => by
    have ih := localIds_range ports (id + 1) i k h
    simp only [List.count_cons_self]
    omega
  | false :: ports, id, i + 1, k, h => by
    have ih := localIds_range ports id i k h
    rw [List.count_cons_of_ne (by decide)]
    exact ih

theorem localIds_inj : ∀ (ports : List Bool) (id i j k : Nat), ((localIds id ports)[i]?).join = some k →
    ((localIds id ports)[j]?).join = some k → i = j
  | [], _, _, _, _, h, _ => by simp [localIds] at h
  | b :: ports, id, 0, 0, _, _, _ => rfl
  | true :: ports, id, 0, j + 1, k, hi, hj => by
    have hj := (localIds_range ports (id + 1) j k hj).1
    simp [localIds] at hi
    omega
  | false :: ports, id, 0, j + 1, k, hi, _ => by simp [localIds] at hi
  | true :: ports, id, i + 1, 0, k, hi, hj => by
    have hi := (localIds_range ports (id + 1) i k hi).1
    simp [localIds] at hj
    omega
  | false :: ports, id, i + 1, 0, k, _, hj => by simp [localIds] at hj
  | true :: ports, id, i + 1, j + 1, k, hi, hj => by rw [localIds_inj ports (id + 1) i j k hi hj]
  | false :: ports, id, i + 1, j + 1, k, hi, hj => by rw [localIds_inj ports id i j k hi hj]

/-- The bit of a port. -/
def HasBit (ports : SlavePorts) (m : SnoopMask) (q : ports.Port) : Prop := m &&& ports.portToMask q ≠ 0

theorem hasBit_iff (ports : SlavePorts) (m : SnoopMask) (q : ports.Port) :
    HasBit ports m q ↔ ∃ id, ports.localId q = some id ∧ m.getLsbD id = true := by
  unfold HasBit SlavePorts.portToMask
  cases hq : ports.localId q with
  | none => simp
  | some id =>
    have hid : id < 64 := by
      have hrange := localIds_range ports.isSnooping 0 q id hq
      have := ports.fits
      omega
    have htwo : (1#64 <<< id) = BitVec.twoPow 64 id := rfl
    have hne : BitVec.twoPow 64 id ≠ 0 := by
      intro h0
      have hbit := congrArg (fun b => BitVec.getLsbD b id) h0
      simp [hid] at hbit
    simp only [htwo, BitVec.and_twoPow, Option.some.injEq, exists_eq_left']
    cases m.getLsbD id with
    | true => simpa using hne
    | false => simp

variable {ports : SlavePorts} {q : ports.Port}

theorem localId_inj {q' : ports.Port} {id : Nat} (h : ports.localId q = some id)
    (h' : ports.localId q' = some id) : q = q' :=
  Fin.ext (localIds_inj ports.isSnooping 0 q q' id h h')

theorem localId_snooping (ports : SlavePorts) (q : ports.Port) : (ports.localId q).isSome = ports.snooping q := by
  have h := localIds_snooping ports.isSnooping 0 q q.isLt
  rw [List.getElem?_eq_getElem q.isLt] at h
  exact h

theorem not_hasBit_zero (ports : SlavePorts) (q : ports.Port) : ¬ HasBit ports 0 q := by
  simp [HasBit]

theorem HasBit.snooping {m : SnoopMask} (h : HasBit ports m q) : ports.snooping q = true := by
  obtain ⟨id, hid, -⟩ := (hasBit_iff ports m q).1 h
  rw [← localId_snooping, hid]
  rfl

theorem hasBit_or {m m' : SnoopMask} : HasBit ports (m ||| m') q ↔ HasBit ports m q ∨ HasBit ports m' q := by
  simp only [hasBit_iff, BitVec.getLsbD_or, Bool.or_eq_true]
  constructor
  · rintro ⟨id, hid, h | h⟩
    · exact .inl ⟨id, hid, h⟩
    · exact .inr ⟨id, hid, h⟩
  · rintro (⟨id, hid, h⟩ | ⟨id, hid, h⟩)
    · exact ⟨id, hid, .inl h⟩
    · exact ⟨id, hid, .inr h⟩

theorem hasBit_portToMask {q' : ports.Port} :
    HasBit ports (ports.portToMask q') q ↔ q = q' ∧ ports.snooping q = true := by
  rw [hasBit_iff]
  unfold SlavePorts.portToMask
  constructor
  · rintro ⟨id, hid, hbit⟩
    cases hq' : ports.localId q' with
    | none => simp [hq'] at hbit
    | some id' =>
      rw [hq'] at hbit
      have htwo : (1#64 <<< id') = BitVec.twoPow 64 id' := rfl
      simp only [htwo, BitVec.getLsbD_twoPow, Bool.and_eq_true, decide_eq_true_eq] at hbit
      rw [← hbit.2] at hid
      refine ⟨localId_inj hid hq', ?_⟩
      rw [← localId_snooping, hid]
      rfl
  · rintro ⟨rfl, hs⟩
    rw [← localId_snooping, Option.isSome_iff_exists] at hs
    obtain ⟨id, hid⟩ := hs
    have hrange := localIds_range ports.isSnooping 0 q id hid
    have hfits := ports.fits
    refine ⟨id, hid, ?_⟩
    have htwo : (1#64 <<< id) = BitVec.twoPow 64 id := rfl
    simp only [hid, htwo, BitVec.getLsbD_twoPow, Bool.and_eq_true, decide_eq_true_eq, and_true]
    omega

theorem hasBit_clear {m : SnoopMask} {q' : ports.Port} :
    HasBit ports (m &&& ~~~ports.portToMask q') q ↔ HasBit ports m q ∧ q ≠ q' := by
  have hq : HasBit ports (ports.portToMask q') q ↔ q = q' ∧ ports.snooping q = true := hasBit_portToMask
  rw [hasBit_iff] at hq ⊢
  rw [hasBit_iff]
  simp only [BitVec.getLsbD_and, BitVec.getLsbD_not, Bool.and_eq_true, decide_eq_true_eq, Bool.not_eq_true']
  constructor
  · rintro ⟨id, hid, hm, hlt, hnot⟩
    refine ⟨⟨id, hid, hm⟩, ?_⟩
    rintro rfl
    have hs : ports.snooping q = true := by rw [← localId_snooping, hid]; rfl
    obtain ⟨id', hid', hbit⟩ := hq.2 ⟨rfl, hs⟩
    rw [hid] at hid'
    cases hid'
    rw [hnot] at hbit
    cases hbit
  · rintro ⟨⟨id, hid, hm⟩, hne⟩
    refine ⟨id, hid, hm, ?_, ?_⟩
    · have hrange := localIds_range ports.isSnooping 0 q id hid
      have hfits := ports.fits
      omega
    · refine Bool.eq_false_iff.2 fun hbit => hne (hq.1 ⟨id, hid, hbit⟩).1

theorem mem_maskToPortList {m : SnoopMask} : q ∈ ports.maskToPortList m ↔ HasBit ports m q := by
  unfold SlavePorts.maskToPortList
  simp only [List.mem_filter, List.mem_finRange, true_and, Bool.and_eq_true, decide_eq_true_eq]
  exact ⟨fun h => h.2, fun h => ⟨h.snooping, h⟩⟩

/-! ## Lines -/

/-- A line: its address and whether it is secure. -/
structure Line where
  addr : Nat
  secure : Bool
  deriving DecidableEq

def line (p : SnoopFilterParams) (addr : Nat) (secure : Bool) : Line := ⟨blockAddr p addr, secure⟩

theorem blockAddr_even (p : SnoopFilterParams) (addr : Nat) : blockAddr p addr % 2 = 0 := by
  obtain ⟨k, hk⟩ := Nat.exists_eq_succ_of_ne_zero (Nat.pos_iff_ne_zero.1 p.lineBits_pos)
  unfold blockAddr
  rw [hk, Nat.pow_succ, ← Nat.mul_assoc, Nat.mul_mod_left]

theorem lineAddr_eq (p : SnoopFilterParams) (addr : Nat) (secure : Bool) :
    lineAddr p addr secure = blockAddr p addr + secure.toNat := by
  unfold lineAddr
  cases secure with
  | false => rfl
  | true =>
    obtain ⟨m, hm⟩ := Nat.dvd_of_mod_eq_zero (blockAddr_even p addr)
    rw [if_pos rfl, hm]
    exact (Nat.two_pow_add_eq_or_of_lt (i := 1) (by decide) m).symm

theorem lineAddr_inj {addr addr' : Nat} {sec sec' : Bool} :
    lineAddr p addr sec = lineAddr p addr' sec' ↔ line p addr sec = line p addr' sec' := by
  have h := blockAddr_even p addr
  have h' := blockAddr_even p addr'
  rw [lineAddr_eq, lineAddr_eq]
  unfold line
  rw [Line.mk.injEq]
  cases sec with
  | false =>
    cases sec' with
    | false => simp
    | true =>
      simp
      omega
  | true =>
    cases sec' with
    | false =>
      simp
      omega
    | true => simp

/-- The entry of a key; no entry is an empty one. -/
def SnoopFilter.item (s : SnoopFilter) (line_addr : Nat) : SnoopItem :=
  (s.cachedLocations.lookup line_addr).getD {}

theorem item_put (s : SnoopFilter) (k : Nat) (it : SnoopItem) (k' : Nat) :
    (s.put k it).item k' = if k' = k then it else s.item k' := by
  unfold SnoopFilter.item SnoopFilter.put
  by_cases hk : k' = k
  · subst hk
    rw [if_pos rfl, Finmap.lookup_insert]
    rfl
  · rw [if_neg hk, Finmap.lookup_insert_of_ne _ hk]

theorem item_eraseIfNullEntry (s : SnoopFilter) (k k' : Nat) : (s.eraseIfNullEntry k).item k' = s.item k' := by
  unfold SnoopFilter.eraseIfNullEntry
  split
  · rfl
  · rename_i it hit
    split
    · rename_i hnull
      unfold SnoopFilter.item
      by_cases hk : k' = k
      · subst hk
        rw [Finmap.lookup_erase, hit]
        obtain ⟨hreq, hhold⟩ := BitVec.or_eq_zero_iff.1 hnull
        obtain ⟨requested, holder⟩ := it
        subst hreq
        subst hhold
        rfl
      · rw [Finmap.lookup_erase_ne hk]
    · rfl

/-! ## History -/

structure FilterRun (p : SnoopFilterParams) where
  filter : SnoopFilter := {}
  pending : Line → p.ports.Port → Bool := fun _ _ => false
  held : Line → p.ports.Port → Bool := fun _ _ => false

inductive FilterInput (p : SnoopFilterParams) where
  /-- `lookupRequest` and `finishRequest`. -/
  | request (cpkt : CohPacket) (slave_port : p.ports.Port) (will_retry : Bool)
  | snoop (cpkt : CohPacket)
  | snoopResponse (cpkt : CohPacket) (rsp_port req_port : p.ports.Port)
  | snoopForward (cpkt : CohPacket)
  | response (cpkt : CohPacket) (slave_port : p.ports.Port)

/-- The packet's line and the port. -/
def At (cpkt : CohPacket) (port : p.ports.Port) (l : Line) (q : p.ports.Port) : Bool :=
  l = line p cpkt.addr cpkt.isSecure && q = port

/-- The response concerns the filter. -/
def tracked (cpkt : CohPacket) (port : p.ports.Port) : Bool := !cpkt.isUncacheable && p.ports.snooping port

namespace FilterRun

variable (r : FilterRun p)

/-- A request was accepted: the port waits for the line, or an eviction says that it has it no longer. -/
def accept (cpkt : CohPacket) (port : p.ports.Port) : FilterRun p :=
  { r with
    pending := fun l q => r.pending l q ||
      (At cpkt port l q && allocates cpkt port && cpkt.needsResponse && !cpkt.cacheResponding)
    held := fun l q => r.held l q && !(At cpkt port l q && cpkt.isEviction && !cpkt.isBlockCached) }

/-- An invalidating snoop went to `snooped`. -/
def invalidate (cpkt : CohPacket) (snooped : List p.ports.Port) : FilterRun p :=
  { r with
    held := fun l q => r.held l q &&
      !(cpkt.isInvalidate && l = line p cpkt.addr cpkt.isSecure && snooped.contains q) }

/-- A cache answered the request of `port`; without sharers no other port keeps the line. -/
def supply (cpkt : CohPacket) (port : p.ports.Port) : FilterRun p :=
  { r with
    pending := fun l q => r.pending l q && !At cpkt port l q
    held := fun l q =>
      (r.held l q && !(l = line p cpkt.addr cpkt.isSecure && !cpkt.hasSharers && q ≠ port)) ||
        (At cpkt port l q && !cpkt.isCacheMaintenance) }

/-- A cache above answered a request from below; without sharers no port keeps the line. -/
def supplyBelow (cpkt : CohPacket) : FilterRun p :=
  { r with held := fun l q => r.held l q && !(l = line p cpkt.addr cpkt.isSecure && !cpkt.hasSharers) }

/-- The request of `port` was answered from below. -/
def answer (cpkt : CohPacket) (port : p.ports.Port) : FilterRun p :=
  { r with
    pending := fun l q => r.pending l q && !At cpkt port l q
    held := fun l q =>
      if cpkt.isCacheMaintenance then r.held l q && !(At cpkt port l q && cpkt.isInvalidate)
      else r.held l q || At cpkt port l q }

end FilterRun

def filterStep (p : SnoopFilterParams) (r : FilterRun p) : FilterInput p → Except FilterFault (FilterRun p)
  | .request cpkt slave_port will_retry => do
    let q ← r.filter.lookupRequest cpkt slave_port
    let s ← q.1.finishRequest p will_retry cpkt.addr cpkt.isSecure
    return { (if will_retry then r else r.accept cpkt slave_port) with filter := s }
  | .snoop cpkt => do
    let q ← r.filter.lookupSnoop (p := p) cpkt
    return { r.invalidate cpkt q.2.1 with filter := q.1 }
  | .snoopResponse cpkt rsp_port req_port => do
    let s ← r.filter.updateSnoopResponse cpkt rsp_port req_port
    return { (if tracked cpkt req_port then r.supply cpkt req_port else r) with filter := s }
  | .snoopForward cpkt => do
    let s ← r.filter.updateSnoopForward p cpkt
    return { r.supplyBelow cpkt with filter := s }
  | .response cpkt slave_port => do
    let s ← r.filter.updateResponse cpkt slave_port
    return { (if tracked cpkt slave_port then r.answer cpkt slave_port else r) with filter := s }

/-- Responses answer accepted requests. -/
def Matches (p : SnoopFilterParams) (r : FilterRun p) : FilterInput p → Prop
  | .snoopResponse cpkt _ req_port => tracked cpkt req_port = true →
      r.pending (line p cpkt.addr cpkt.isSecure) req_port = true
  | .response cpkt slave_port => tracked cpkt slave_port = true →
      r.pending (line p cpkt.addr cpkt.isSecure) slave_port = true
  | _ => True

/-! ## The invariant -/

structure Covers (r : FilterRun p) : Prop where
  requested : ∀ addr sec q, r.pending (line p addr sec) q = true ↔
    HasBit p.ports (r.filter.item (lineAddr p addr sec)).requested q
  holder : ∀ addr sec q, r.held (line p addr sec) q = true →
    HasBit p.ports (r.filter.item (lineAddr p addr sec)).holder q

theorem covers_init : Covers ({} : FilterRun p) where
  requested := fun _ _ q => ⟨fun h => (nomatch h), fun h => absurd h (not_hasBit_zero _ q)⟩
  holder := fun _ _ _ h => (nomatch h)

variable {r : FilterRun p}

/-- An operation that changes the entry of one line only. -/
theorem Covers.update {u : FilterRun p} (h : Covers r) {addr : Nat} {sec : Bool} {it : SnoopItem}
    (hitem : ∀ k, u.filter.item k = if k = lineAddr p addr sec then it else r.filter.item k)
    (hpending : ∀ l, l ≠ line p addr sec → u.pending l = r.pending l)
    (hheld : ∀ l, l ≠ line p addr sec → ∀ q, u.held l q = true → r.held l q = true)
    (hrequested : ∀ q, u.pending (line p addr sec) q = true ↔ HasBit p.ports it.requested q)
    (hholder : ∀ q, u.held (line p addr sec) q = true → HasBit p.ports it.holder q) : Covers u := by
  constructor
  · intro addu sec' q
    rw [hitem]
    by_cases hl : line p addu sec' = line p addr sec
    · rw [if_pos (lineAddr_inj.2 hl), hl]
      exact hrequested q
    · rw [if_neg fun hk => hl (lineAddr_inj.1 hk), hpending _ hl]
      exact h.requested addu sec' q
  · intro addu sec' q hq
    rw [hitem]
    by_cases hl : line p addu sec' = line p addr sec
    · rw [if_pos (lineAddr_inj.2 hl)]
      rw [hl] at hq
      exact hholder q hq
    · rw [if_neg fun hk => hl (lineAddr_inj.1 hk)]
      exact h.holder addu sec' q (hheld _ hl q hq)

/-- An operation that does nothing but to the history of holders. -/
theorem Covers.same {r' : FilterRun p} (h : Covers r) (hitem : ∀ k, r'.filter.item k = r.filter.item k)
    (hpending : r'.pending = r.pending) (hheld : ∀ l q, r'.held l q = true → r.held l q = true) : Covers r' := by
  constructor
  · intro addr sec q
    rw [hitem, hpending]
    exact h.requested addr sec q
  · intro addr sec q hq
    rw [hitem]
    exact h.holder addr sec q (hheld _ q hq)

/-! ## What the operations do to the entries -/

/-- The item that an accepted request leaves. -/
def tracks (cpkt : CohPacket) (port : p.ports.Port) (it it' : SnoopItem) : Prop :=
  if allocates cpkt port then track cpkt (p.ports.portToMask port) it = .ok it' else it' = it

variable {s s' : SnoopFilter} {cpkt : CohPacket} {port : p.ports.Port} {snoops : Snoops p}

theorem lookupRequest_locations (h : s.lookupRequest cpkt port = .ok (s', snoops)) :
    (s'.reqLookupResult = none ∧ s'.cachedLocations = s.cachedLocations ∧ allocates cpkt port = false ∧
      s.item (lineAddr p cpkt.addr cpkt.isSecure) = {}) ∨
    ∃ it, s'.reqLookupResult = some (lineAddr p cpkt.addr cpkt.isSecure) ∧
      s'.retryItem = s.item (lineAddr p cpkt.addr cpkt.isSecure) ∧
      s'.cachedLocations = s.cachedLocations.insert (lineAddr p cpkt.addr cpkt.isSecure) it ∧
      tracks cpkt port (s.item (lineAddr p cpkt.addr cpkt.isSecure)) it ∧
      snoops = snoopSelected (((s.item (lineAddr p cpkt.addr cpkt.isSecure)).holder |||
        (s.item (lineAddr p cpkt.addr cpkt.isSecure)).requested) &&& ~~~p.ports.portToMask port) := by
  unfold SnoopFilter.lookupRequest at h
  dsimp only at h
  split at h
  · rename_i hmiss
    cases h
    rw [Bool.and_eq_true, Bool.not_eq_true', Option.isNone_iff_eq_none] at hmiss
    refine .inl ⟨rfl, rfl, hmiss.2, ?_⟩
    unfold SnoopFilter.item
    rw [hmiss.1]
    rfl
  · split at h
    · rename_i halloc
      cases h
      refine .inr ⟨_, rfl, rfl, rfl, ?_, rfl⟩
      unfold tracks
      rw [if_neg (by simpa using halloc)]
      rfl
    · rename_i halloc
      obtain ⟨it, htrack, hok⟩ := bind_ok_iff.1 h
      cases hok
      refine .inr ⟨it, rfl, rfl, Finmap.insert_insert _, ?_, rfl⟩
      unfold tracks
      rw [if_pos (by simpa using halloc)]
      exact htrack

theorem item_congr (h : s'.cachedLocations = s.cachedLocations) (k : Nat) : s'.item k = s.item k := by
  unfold SnoopFilter.item
  rw [h]

theorem lookupRequest_spec (h : s.lookupRequest cpkt port = .ok (s', snoops)) :
    (s'.reqLookupResult = none ∧ (∀ k, s'.item k = s.item k) ∧ allocates cpkt port = false ∧
      s.item (lineAddr p cpkt.addr cpkt.isSecure) = {}) ∨
    ∃ it, s'.reqLookupResult = some (lineAddr p cpkt.addr cpkt.isSecure) ∧
      s'.retryItem = s.item (lineAddr p cpkt.addr cpkt.isSecure) ∧
      (∀ k, s'.item k = if k = lineAddr p cpkt.addr cpkt.isSecure then it else s.item k) ∧
      tracks cpkt port (s.item (lineAddr p cpkt.addr cpkt.isSecure)) it ∧
      snoops = snoopSelected (((s.item (lineAddr p cpkt.addr cpkt.isSecure)).holder |||
        (s.item (lineAddr p cpkt.addr cpkt.isSecure)).requested) &&& ~~~p.ports.portToMask port) := by
  rcases lookupRequest_locations h with ⟨hres, hsame, hrest⟩ | ⟨it, hres, hretry, hput, hrest⟩
  · exact .inl ⟨hres, item_congr hsame, hrest⟩
  · refine .inr ⟨it, hres, hretry, fun k => ?_, hrest⟩
    exact (item_congr (s := s.put _ it) hput k).trans (item_put s _ it k)

theorem request_spec {s'' : SnoopFilter} {will_retry : Bool} (h : s.lookupRequest cpkt port = .ok (s', snoops))
    (hfinish : s'.finishRequest p will_retry cpkt.addr cpkt.isSecure = .ok s'') :
    ∃ it, (∀ k, s''.item k = if k = lineAddr p cpkt.addr cpkt.isSecure then it else s.item k) ∧
      if will_retry then it = s.item (lineAddr p cpkt.addr cpkt.isSecure)
      else tracks cpkt port (s.item (lineAddr p cpkt.addr cpkt.isSecure)) it := by
  unfold SnoopFilter.finishRequest at hfinish
  rcases lookupRequest_spec h with ⟨hres, hitem, halloc, hempty⟩ | ⟨it, hres, hretry, hitem, htracks, -⟩
  · rw [hres] at hfinish
    cases hfinish
    refine ⟨s.item (lineAddr p cpkt.addr cpkt.isSecure), fun k => ?_, ?_⟩
    · rw [hitem]
      split
      · rename_i hk
        rw [hk]
      · rfl
    · unfold tracks
      rw [halloc]
      split
      · rfl
      · rfl
  · rw [hres] at hfinish
    dsimp only at hfinish
    rw [if_neg (fun hc => hc rfl), Except.ok.injEq] at hfinish
    subst hfinish
    cases will_retry with
    | true =>
      refine ⟨s.item (lineAddr p cpkt.addr cpkt.isSecure), fun k => ?_, rfl⟩
      rw [item_eraseIfNullEntry, if_pos rfl, item_put, hretry, hitem]
      split
      · rfl
      · rfl
    | false =>
      refine ⟨it, fun k => ?_, htracks⟩
      rw [item_eraseIfNullEntry]
      exact hitem k

theorem track_spec {it it' : SnoopItem} (hsnooping : p.ports.snooping port = true)
    (h : track cpkt (p.ports.portToMask port) it = .ok it') :
    (∀ q, HasBit p.ports it'.requested q ↔ HasBit p.ports it.requested q ∨
      (q = port ∧ cpkt.needsResponse = true ∧ cpkt.cacheResponding = false)) ∧ ∀ q, HasBit p.ports it.holder q →
      ¬ (q = port ∧ cpkt.isEviction = true ∧ cpkt.isBlockCached = false) → HasBit p.ports it'.holder q := by
  unfold track at h
  cases hneeds : cpkt.needsResponse with
  | true =>
    rw [hneeds, if_pos rfl] at h
    cases hresp : cpkt.cacheResponding with
    | false =>
      rw [hresp, Bool.not_false, if_pos rfl] at h
      split at h
      · cases h
      · cases h
        refine ⟨fun q => ?_, fun q hq _ => hq⟩
        rw [hasBit_or, hasBit_portToMask]
        refine or_congr Iff.rfl ⟨fun hq => ⟨hq.1, rfl, rfl⟩, fun hq => ⟨hq.1, ?_⟩⟩
        rw [hq.1]
        exact hsnooping
    | true =>
      rw [hresp, Bool.not_true, if_neg Bool.false_ne_true] at h
      split at h
      · cases h
      · cases h
        exact ⟨fun q => ⟨.inl, fun hq => hq.resolve_right fun hc => (nomatch hc.2.2)⟩, fun q hq _ => hq⟩
  | false =>
    rw [hneeds, if_neg Bool.false_ne_true] at h
    split at h
    · cases h
    · rename_i hevict
      split at h
      · cases h
      · split at h
        · rename_i hcached
          cases h
          refine ⟨fun q => ⟨.inl, fun hq => hq.resolve_right fun hc => (nomatch hc.2.1)⟩, fun q hq hno => ?_⟩
          refine hasBit_clear.2 ⟨hq, fun heq => hno ⟨heq, ?_, ?_⟩⟩
          · simpa using hevict
          · simpa using hcached
        · cases h
          exact ⟨fun q => ⟨.inl, fun hq => hq.resolve_right fun hc => (nomatch hc.2.1)⟩, fun q hq _ => hq⟩

theorem lookupSnoop_spec (h : s.lookupSnoop cpkt = .ok (s', snoops)) :
    snoops.1 = p.ports.maskToPortList ((s.item (lineAddr p cpkt.addr cpkt.isSecure)).holder |||
      (s.item (lineAddr p cpkt.addr cpkt.isSecure)).requested) ∧
    ∃ it, (∀ k, s'.item k = if k = lineAddr p cpkt.addr cpkt.isSecure then it else s.item k) ∧
      it.requested = (s.item (lineAddr p cpkt.addr cpkt.isSecure)).requested ∧
      (cpkt.isInvalidate = false → it = s.item (lineAddr p cpkt.addr cpkt.isSecure)) := by
  unfold SnoopFilter.lookupSnoop at h
  split at h
  · cases h
  · dsimp only at h
    split at h
    · rename_i hfind
      have hempty : s.item (lineAddr p cpkt.addr cpkt.isSecure) = {} := by
        unfold SnoopFilter.item
        rw [hfind]
        rfl
      split at h
      · cases h
      · cases h
        refine ⟨?_, s.item (lineAddr p cpkt.addr cpkt.isSecure), fun k => ?_, rfl, fun _ => rfl⟩
        · rw [hempty]
          refine (List.eq_nil_iff_forall_not_mem.2 fun q hq => ?_).symm
          exact not_hasBit_zero _ q (mem_maskToPortList.1 hq)
        · split
          · rename_i hk
            rw [hk]
          · rfl
    · rename_i it hfind
      have hitem : s.item (lineAddr p cpkt.addr cpkt.isSecure) = it := by
        unfold SnoopFilter.item
        rw [hfind]
        rfl
      split at h
      · cases h
      · cases h
        rw [hitem]
        refine ⟨rfl, _, fun k => (item_eraseIfNullEntry _ _ _).trans (item_put _ _ _ _), ?_, fun hinv => ?_⟩
        · split
          · rfl
          · rfl
        · rw [hinv, Bool.false_and, if_neg Bool.false_ne_true]

/-! ## Every operation keeps the invariant -/

theorem at_iff {l : Line} {q : p.ports.Port} :
    At cpkt port l q = true ↔ l = line p cpkt.addr cpkt.isSecure ∧ q = port := by
  simp [At]

theorem Covers.request (h : Covers r) {will_retry : Bool} {s'' : SnoopFilter}
    (hlookup : r.filter.lookupRequest cpkt port = .ok (s', snoops))
    (hfinish : s'.finishRequest p will_retry cpkt.addr cpkt.isSecure = .ok s'') :
    Covers { (if will_retry then r else r.accept cpkt port) with filter := s'' } := by
  obtain ⟨it, hitem, hit⟩ := request_spec hlookup hfinish
  cases will_retry with
  | true =>
    refine h.same (fun k => (hitem k).trans ?_) rfl fun _ _ hq => hq
    split
    · rename_i hk
      rw [hk]
      exact hit
    · rfl
  | false =>
    rw [if_neg Bool.false_ne_true] at hit ⊢
    refine h.update (u := { r.accept cpkt port with filter := s'' }) hitem (fun l hl => ?_)
      (fun l hl q hq => ?_) (fun q => ?_) (fun q hq => ?_)
    · funext q
      simp [FilterRun.accept, At, hl]
    · simp only [FilterRun.accept, Bool.and_eq_true] at hq
      exact hq.1
    · have hold := h.requested cpkt.addr cpkt.isSecure q
      simp only [FilterRun.accept, Bool.or_eq_true, Bool.and_eq_true, at_iff, true_and, Bool.not_eq_true', hold]
      unfold tracks at hit
      split at hit
      · rename_i halloc
        have hsnoop : p.ports.snooping port = true := by
          simp only [allocates, Bool.and_eq_true] at halloc
          exact halloc.1.2
        rw [(track_spec hsnoop hit).1 q]
        refine or_congr Iff.rfl ?_
        simp [halloc, and_assoc]
      · rename_i halloc
        rw [hit]
        simp [halloc]
    · simp only [FilterRun.accept, Bool.and_eq_true, Bool.not_eq_true'] at hq
      have hold := h.holder cpkt.addr cpkt.isSecure q hq.1
      unfold tracks at hit
      split at hit
      · rename_i halloc
        have hsnoop : p.ports.snooping port = true := by
          simp only [allocates, Bool.and_eq_true] at halloc
          exact halloc.1.2
        refine (track_spec hsnoop hit).2 q hold ?_
        rintro ⟨rfl, hev, hcached⟩
        simp [At, hev, hcached] at hq
      · rw [hit]
        exact hold

theorem Covers.snoop (h : Covers r) (hlookup : r.filter.lookupSnoop cpkt = .ok (s', snoops)) :
    Covers { r.invalidate cpkt snoops.1 with filter := s' } := by
  obtain ⟨hports, it, hitem, hreq, hsame⟩ := lookupSnoop_spec hlookup
  refine h.update (u := { r.invalidate cpkt snoops.1 with filter := s' }) hitem (fun _ _ => rfl)
    (fun l hl q hq => ?_) (fun q => ?_) (fun q hq => ?_)
  · simp only [FilterRun.invalidate, Bool.and_eq_true] at hq
    exact hq.1
  · rw [hreq]
    exact h.requested cpkt.addr cpkt.isSecure q
  · simp only [FilterRun.invalidate, Bool.and_eq_true, Bool.not_eq_true'] at hq
    have hold := h.holder cpkt.addr cpkt.isSecure q hq.1
    cases hinv : cpkt.isInvalidate with
    | false =>
      rw [hsame hinv]
      exact hold
    | true =>
      -- a port that holds the line is snooped
      have hmem : q ∈ snoops.1 := by
        rw [hports, mem_maskToPortList]
        exact hasBit_or.2 (.inl hold)
      simp [hinv, hmem] at hq

theorem updateSnoopResponse_spec {rsp_port req_port : p.ports.Port}
    (h : s.updateSnoopResponse cpkt rsp_port req_port = .ok s') : (tracked cpkt req_port = false ∧ s' = s) ∨
    (tracked cpkt req_port = true ∧ s' = s.put (lineAddr p cpkt.addr cpkt.isSecure)
      ⟨(s.item (lineAddr p cpkt.addr cpkt.isSecure)).requested &&& ~~~p.ports.portToMask req_port,
        (if !cpkt.hasSharers then 0 else (s.item (lineAddr p cpkt.addr cpkt.isSecure)).holder) |||
          p.ports.portToMask req_port⟩) := by
  unfold SnoopFilter.updateSnoopResponse at h
  split at h
  · cases h
  · split at h
    · rename_i hno
      cases h
      refine .inl ⟨?_, rfl⟩
      simp only [tracked, Bool.and_eq_false_iff, Bool.not_eq_false']
      simpa using hno
    · rename_i hyes
      refine .inr ⟨?_, ?_⟩
      · simpa [tracked] using hyes
      · dsimp only at h
        have hitem : (s.cachedLocations.lookup (lineAddr p cpkt.addr cpkt.isSecure)).getD {} =
            s.item (lineAddr p cpkt.addr cpkt.isSecure) := rfl
        rw [hitem] at h
        generalize s.item (lineAddr p cpkt.addr cpkt.isSecure) = it at h ⊢
        generalize (if !cpkt.hasSharers then 0 else it.holder) = holder at h ⊢
        split at h
        · cases h
        · split at h
          · cases h
          · split at h
            · cases h
            · split at h
              · cases h
              · cases h
                rfl

theorem Covers.snoopResponse (h : Covers r) {rsp_port req_port : p.ports.Port}
    (hupdate : r.filter.updateSnoopResponse cpkt rsp_port req_port = .ok s') :
    Covers { (if tracked cpkt req_port then r.supply cpkt req_port else r) with filter := s' } := by
  rcases updateSnoopResponse_spec hupdate with ⟨htracked, rfl⟩ | ⟨htracked, rfl⟩
  · rw [htracked]
    exact h
  · rw [htracked, if_pos rfl]
    have hsnooping : p.ports.snooping req_port = true := by
      simp only [tracked, Bool.and_eq_true] at htracked
      exact htracked.2
    refine h.update (u := { r.supply cpkt req_port with filter := _ })
      (fun k => item_put _ _ _ k) (fun l hl => ?_) (fun l hl q hq => ?_) (fun q => ?_) (fun q hq => ?_)
    · funext q
      simp [FilterRun.supply, At, hl]
    · simpa [FilterRun.supply, At, hl] using hq
    · rw [hasBit_clear, ← h.requested]
      simp [FilterRun.supply, At]
    · rw [hasBit_or, hasBit_portToMask]
      by_cases hport : q = req_port
      · refine .inr ⟨hport, ?_⟩
        rw [hport]
        exact hsnooping
      · refine .inl ?_
        simp only [FilterRun.supply, At, hport, decide_true, decide_false, Bool.and_false, Bool.false_and,
          Bool.or_false, Bool.and_eq_true, Bool.not_eq_true', Bool.true_and, ne_eq, not_false_eq_true,
          Bool.and_true] at hq
        rw [hq.2, if_neg Bool.false_ne_true]
        exact h.holder cpkt.addr cpkt.isSecure q hq.1

theorem Covers.snoopForward (h : Covers r) (hupdate : r.filter.updateSnoopForward p cpkt = .ok s') :
    Covers { r.supplyBelow cpkt with filter := s' } := by
  unfold SnoopFilter.updateSnoopForward at hupdate
  split at hupdate
  · cases hupdate
  · dsimp only at hupdate
    split at hupdate
    · cases hupdate
      refine h.same (fun _ => rfl) rfl fun l q hq => ?_
      simp only [FilterRun.supplyBelow, Bool.and_eq_true] at hq
      exact hq.1
    · rename_i it hfind
      cases hupdate
      have hit : r.filter.item (lineAddr p cpkt.addr cpkt.isSecure) = it := by
        unfold SnoopFilter.item
        rw [hfind]
        rfl
      refine h.update (u := { r.supplyBelow cpkt with filter := _ })
        (fun k => (item_eraseIfNullEntry _ _ _).trans (item_put _ _ _ _)) (fun _ _ => rfl)
        (fun l hl q hq => ?_) (fun q => ?_) (fun q hq => ?_)
      · simp only [FilterRun.supplyBelow, Bool.and_eq_true] at hq
        exact hq.1
      · have hold := h.requested cpkt.addr cpkt.isSecure q
        rw [hit] at hold
        split
        · exact hold
        · exact hold
      · simp only [FilterRun.supplyBelow, decide_true, Bool.true_and, Bool.and_eq_true, Bool.not_not] at hq
        have hold := h.holder cpkt.addr cpkt.isSecure q hq.1
        rw [hit] at hold
        rw [hq.2]
        exact hold

theorem Covers.response (h : Covers r) (hupdate : r.filter.updateResponse cpkt port = .ok s')
    (hmatch : tracked cpkt port = true → r.pending (line p cpkt.addr cpkt.isSecure) port = true) :
    Covers { (if tracked cpkt port then r.answer cpkt port else r) with filter := s' } := by
  unfold SnoopFilter.updateResponse at hupdate
  split at hupdate
  · cases hupdate
  · split at hupdate
    · rename_i hno
      cases hupdate
      have htracked : tracked cpkt port = false := by
        simp only [tracked, Bool.and_eq_false_iff, Bool.not_eq_false']
        simpa using hno
      rw [htracked]
      exact h
    · rename_i hyes
      have hcond : cpkt.isUncacheable = false ∧ p.ports.snooping port = true := by simpa using hyes
      have htracked : tracked cpkt port = true := by
        simp [tracked, hcond.1, hcond.2]
      have hpend := (h.requested cpkt.addr cpkt.isSecure port).1 (hmatch htracked)
      dsimp only at hupdate
      rw [htracked, if_pos rfl]
      split at hupdate
      · -- the request is outstanding, so there is an entry
        rename_i hfind
        unfold SnoopFilter.item at hpend
        rw [hfind] at hpend
        exact absurd hpend (not_hasBit_zero _ port)
      · rename_i it hfind
        have hit : r.filter.item (lineAddr p cpkt.addr cpkt.isSecure) = it := by
          unfold SnoopFilter.item
          rw [hfind]
          rfl
        have hreq : ∀ q, (r.answer cpkt port).pending (line p cpkt.addr cpkt.isSecure) q = true ↔
            HasBit p.ports (it.requested &&& ~~~p.ports.portToMask port) q := by
          intro q
          rw [hasBit_clear, ← hit, ← h.requested]
          simp [FilterRun.answer, At]
        have hother : ∀ l, l ≠ line p cpkt.addr cpkt.isSecure → (r.answer cpkt port).pending l = r.pending l := by
          intro l hl
          funext q
          simp [FilterRun.answer, At, hl]
        have hheld : ∀ l, l ≠ line p cpkt.addr cpkt.isSecure → ∀ q,
            (r.answer cpkt port).held l q = true → r.held l q = true := by
          intro l hl q hq
          simpa [FilterRun.answer, At, hl] using hq
        split at hupdate
        · cases hupdate
        · cases hm : cpkt.isCacheMaintenance with
          | true =>
            rw [hm, if_pos rfl] at hupdate
            cases hupdate
            refine h.update (u := { r.answer cpkt port with filter := _ })
              (fun k => (item_eraseIfNullEntry _ _ _).trans (item_put _ _ _ _)) hother hheld hreq
              fun q hq => ?_
            simp only [FilterRun.answer, hm, if_true, At, decide_true, Bool.true_and, Bool.and_eq_true,
              Bool.not_eq_true'] at hq
            have hold := h.holder cpkt.addr cpkt.isSecure q hq.1
            rw [hit] at hold
            split
            · rename_i hinv
              refine hasBit_clear.2 ⟨hold, fun heq => ?_⟩
              simp [heq, hinv] at hq
            · exact hold
          | false =>
            rw [hm, if_neg Bool.false_ne_true] at hupdate
            split at hupdate
            · cases hupdate
            · cases hupdate
              refine h.update (u := { r.answer cpkt port with filter := _ })
                (fun k => item_put _ _ _ k) hother hheld hreq fun q hq => ?_
              simp only [FilterRun.answer, hm, Bool.false_eq_true, if_false, Bool.or_eq_true, at_iff, true_and] at hq
              rw [hasBit_or, hasBit_portToMask]
              rcases hq with hq | hq
              · have hold := h.holder cpkt.addr cpkt.isSecure q hq
                rw [hit] at hold
                exact .inl hold
              · refine .inr ⟨hq, ?_⟩
                rw [hq]
                exact hcond.2

theorem Covers.step {r' : FilterRun p} (h : Covers r) {i : FilterInput p} (hmatch : Matches p r i)
    (hstep : filterStep p r i = .ok r') : Covers r' := by
  cases i with
  | request cpkt slave_port will_retry =>
    obtain ⟨⟨s', snoops⟩, hlookup, hstep⟩ := bind_ok_iff.1 hstep
    obtain ⟨s'', hfinish, hstep⟩ := bind_ok_iff.1 hstep
    cases hstep
    exact h.request hlookup hfinish
  | snoop cpkt =>
    obtain ⟨⟨s', snoops⟩, hlookup, hstep⟩ := bind_ok_iff.1 hstep
    cases hstep
    exact h.snoop hlookup
  | snoopResponse cpkt rsp_port req_port =>
    obtain ⟨s', hupdate, hstep⟩ := bind_ok_iff.1 hstep
    cases hstep
    exact h.snoopResponse hupdate
  | snoopForward cpkt =>
    obtain ⟨s', hupdate, hstep⟩ := bind_ok_iff.1 hstep
    cases hstep
    exact h.snoopForward hupdate
  | response cpkt slave_port =>
    obtain ⟨s', hupdate, hstep⟩ := bind_ok_iff.1 hstep
    cases hstep
    exact h.response hupdate hmatch

/-! ## Runs -/

/-- The calls of a run that return. -/
def filterNext (p : SnoopFilterParams) (r : FilterRun p) (i : FilterInput p) : Option (FilterRun p) :=
  (filterStep p r i).toOption

theorem reachable_covers (h : Reaches (filterNext p) (Matches p) {} r) : Covers r := by
  refine h.inv (P := Covers) covers_init ?_
  intro r i r' hr hmatch hnext
  exact hr.step hmatch (toOption_eq_some.1 hnext)

/-- **The snoop filter covers the holders.**  In every run whose responses answer accepted requests, the
requested bits of a line are those of the ports that wait for it, every port that holds the line has its
holder bit, and so both lookups return all these ports, the one that asks aside. -/
theorem filter_covers {r : FilterRun p} (h : Reaches (filterNext p) (Matches p) {} r) :
    (∀ addr sec q, r.pending (line p addr sec) q = true ↔
      (r.filter.item (lineAddr p addr sec)).requested &&& p.ports.portToMask q ≠ 0) ∧
    (∀ addr sec q, r.held (line p addr sec) q = true →
      (r.filter.item (lineAddr p addr sec)).holder &&& p.ports.portToMask q ≠ 0) ∧
    (∀ cpkt s' snoops, r.filter.lookupSnoop (p := p) cpkt = .ok (s', snoops) →
      ∀ q, r.pending (line p cpkt.addr cpkt.isSecure) q = true ∨
        r.held (line p cpkt.addr cpkt.isSecure) q = true → q ∈ snoops.1) ∧
    ∀ cpkt port s' snoops, r.filter.lookupRequest (p := p) cpkt port = .ok (s', snoops) →
      ∀ q, q ≠ port → r.pending (line p cpkt.addr cpkt.isSecure) q = true ∨
        r.held (line p cpkt.addr cpkt.isSecure) q = true → q ∈ snoops.1 := by
  have hcov := reachable_covers h
  have hinterested : ∀ addr sec q, r.pending (line p addr sec) q = true ∨ r.held (line p addr sec) q = true →
      HasBit p.ports ((r.filter.item (lineAddr p addr sec)).holder |||
        (r.filter.item (lineAddr p addr sec)).requested) q := by
    rintro addr sec q (hq | hq)
    · exact hasBit_or.2 (.inr ((hcov.requested addr sec q).1 hq))
    · exact hasBit_or.2 (.inl (hcov.holder addr sec q hq))
  refine ⟨hcov.requested, hcov.holder, ?_, ?_⟩
  · intro cpkt s' snoops hlookup q hq
    rw [(lookupSnoop_spec hlookup).1, mem_maskToPortList]
    exact hinterested _ _ q hq
  · intro cpkt port s' snoops hlookup q hne hq
    have hbit := hinterested _ _ q hq
    rcases lookupRequest_spec hlookup with ⟨-, -, -, hempty⟩ | ⟨it, -, -, -, -, hsnoops⟩
    · rw [hempty] at hbit
      exact absurd (hasBit_or.1 hbit) fun hc => hc.elim (not_hasBit_zero _ q) (not_hasBit_zero _ q)
    · rw [hsnoops]
      exact mem_maskToPortList.2 (hasBit_clear.2 ⟨hbit, hne⟩)

/-- Two caches and a port without one; lines of 64 bytes. -/
def filterParams : SnoopFilterParams where
  lineBits := 6
  lineBits_pos := by decide
  lookupLatency := 1
  maxEntryCount := 8
  ports := ⟨[true, false, true], by decide⟩

/-- A read of a line, and its response. -/
def fillReq : CohPacket :=
  { cmd := .ReadSharedReq, id := 0, req := ⟨0, 0, false, false⟩, addr := 64, size := 64 }

def fillResp : CohPacket := { fillReq with cmd := .ReadResp }

/-- Cache 0 has the line, cache 2 asks for it. -/
theorem filter_covers_two_caches :
    ∃ r : FilterRun filterParams, Reaches (filterNext filterParams) (Matches filterParams) {} r ∧
      r.held (line filterParams 64 false) (0 : Fin 3) = true ∧
      r.pending (line filterParams 64 false) (2 : Fin 3) = true ∧
      ∀ s' snoops, r.filter.lookupSnoop (p := filterParams) fillReq = .ok (s', snoops) →
        (0 : Fin 3) ∈ snoops.1 ∧ (2 : Fin 3) ∈ snoops.1 := by
  have h₀ : Reaches (filterNext filterParams) (Matches filterParams) {} {} := .refl
  have h1 := h₀.step (i := (.request fillReq (0 : Fin 3) false : FilterInput filterParams)) trivial rfl
  have h2 := h1.step (i := (.response fillResp (0 : Fin 3) : FilterInput filterParams)) (fun _ => rfl) rfl
  have h3 := h2.step (i := (.request fillReq (2 : Fin 3) false : FilterInput filterParams)) trivial rfl
  obtain ⟨-, -, hsnoop, -⟩ := filter_covers h3
  refine ⟨_, h3, rfl, rfl, fun s' snoops hlookup => ⟨?_, ?_⟩⟩
  · exact hsnoop fillReq s' snoops hlookup (0 : Fin 3) (.inr rfl)
  · exact hsnoop fillReq s' snoops hlookup (2 : Fin 3) (.inl rfl)

end Alpine.Mem
