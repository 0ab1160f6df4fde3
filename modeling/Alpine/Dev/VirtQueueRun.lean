import Alpine.Dev.VirtQueueWalk
import Alpine.Lib.Mask
import Alpine.Lib.Ring
import Alpine.Lib.Run

/-!
# A queue shared with a guest

The guest's driver, the device and checkpoints in any order.

* `Shared` — the queue and guest memory, the driver's index into the used ring, and what has been exposed, consumed,
  produced and read so far.
* `Call`, `step`, `Permitted` — the driver makes a chain available or reads a used entry; the device consumes a chain
  or produces one; the queue is restored from its own checkpoint into a new object.
* `Correct` — chains are consumed in the order they were exposed, each once, and a used entry stays in its slot until
  it has been read.
* `Covered` — when a chain is produced, the object's copy of the used ring has the entries that are still unread.
* `Inv`, `run_correct` — in every run of covered calls every state is correct; a call that is not covered destroys an
  entry.
-/

namespace Alpine.Dev

open Walk

namespace VirtQueue

/-- The state of both sides of a queue. -/
structure Shared (n : Nat) where
  q : VirtQueue n
  g : Guest n
  last_used : BitVec 16
  exposed : List (Fin n)
  consumed : List (Fin n)
  pending : List (Fin n)
  produced : List VringUsedElem
  got : List VringUsedElem

inductive Call (n : Nat) where
  | expose (head : Fin n) (table : Vector VringDesc n)
  | readUsed
  | consume
  | produce (d : Fin n) (len : BitVec 32)
  | restore

variable {n : Nat}

/-- A queue at its address and a guest that has not used it yet. -/
def start (address : Addr) (g : Guest n) : Shared n :=
  { q := (VirtQueue.new n).setAddress address,
    g := { g with avail := { g.avail with header := ⟨g.avail.header.flags, 0⟩ },
                  used := { g.used with header := ⟨g.used.header.flags, 0⟩ } },
    last_used := 0, exposed := [], consumed := [], pending := [], produced := [], got := [] }

/-- The driver puts a head into the next slot of the available ring; the descriptors are in the table by then. -/
def makeAvailable (g : Guest n) (head : Fin n) (table : Vector VringDesc n) : Guest n :=
  { g with table := table,
           avail := { header := { g.avail.header with index := g.avail.header.index + 1 },
                      ring := g.avail.ring.set (g.avail.header.index.toNat % n) (BitVec.ofNat 16 head)
                        (Nat.mod_lt _ head.pos) } }

def step (s : Shared n) : Call n → Option (Shared n)
  | .expose head table => some { s with g := makeAvailable s.g head table, exposed := s.exposed ++ [head] }
  | .readUsed =>
    if s.last_used = s.g.used.header.index then some s
    else (s.g.used.ring[s.last_used.toNat % n]?).map fun e =>
      { s with last_used := s.last_used + 1, got := s.got ++ [e] }
  | .consume =>
    match s.q.consumeDescriptor (n + 1) s.g with
    | .ok (q, none) => some { s with q := q }
    | .ok (q, some d) => some { s with q := q, consumed := s.consumed ++ [d], pending := s.pending ++ [d] }
    | .error _ => none
  | .produce d len =>
    match s.q.produceDescriptor s.g d len with
    | .ok (q, g) => some { s with q := q, g := g, pending := s.pending.erase d,
                                  produced := s.produced ++ [⟨BitVec.ofNat 32 d, len⟩] }
    | .error _ => none
  | .restore => some { s with q := (VirtQueue.new n).unserialize s.q.serialize }

/-- The chain from `head` ends inside the table. -/
def Closed (T : Vector VringDesc n) (head : Nat) : Prop :=
  (∃ k, node (link T) head k = none) ∧ ∀ i, Reach (link T) head i → i < n

/-- The driver has at most `n` chains outstanding, exposes chains that end, and leaves those alone that have not been
consumed; the device produces what it has consumed. -/
def Permitted (s : Shared n) : Call n → Prop
  | .expose head table => s.exposed.length < s.got.length + n ∧ Closed table head ∧
      ∀ h ∈ s.exposed.drop s.consumed.length, ∀ i, Reach (link s.g.table) h.val i → table[i]? = s.g.table[i]?
  | .readUsed => True
  | .consume => True
  | .produce d _ => d ∈ s.pending
  | .restore => True

/-- At a call of `produceDescriptor` the object's copy of the used ring has the entries that the guest has not read. -/
def Covered (s : Shared n) : Call n → Prop
  | .produce _ _ => ∀ k, s.got.length ≤ k → k < s.produced.length →
      s.q.used.ring[k % n]? = s.g.used.ring[k % n]?
  | _ => True

structure Correct (s : Shared n) : Prop where
  consumed : s.consumed <+: s.exposed
  unread : ∀ k, s.got.length ≤ k → k < s.produced.length → s.g.used.ring[k % n]? = s.produced[k]?
  got : s.got <+: s.produced

/-- The next call of `consumeDescriptor` returns the first chain that has not been consumed, or nothing. -/
def ConsumesNext (s : Shared n) : Prop :=
  ∃ s', step s .consume = some s' ∧ s'.consumed = s.consumed ++ (s.exposed[s.consumed.length]?).toList

/-! ### Addresses -/

def availAddr (n : Nat) (address : Addr) : Addr := address + BitVec.ofNat 64 n * 16

def usedAddr (n : Nat) (address : Addr) : Addr :=
  (availAddr n address + 4 + BitVec.ofNat 64 n * 2 + 2 + (ALIGN_SIZE - 1)) &&& ~~~ (ALIGN_SIZE - 1)

/-- An address that the guest can set: a page number times the size of a page. -/
def Paged (address : Addr) : Prop := ∃ pfn : BitVec 32, pfn ≠ 0 ∧ address = pfn.setWidth 64 * ALIGN_SIZE

variable {address : Addr}

theorem toNat_of_paged (h : Paged address) : 4096 ≤ address.toNat ∧ address.toNat < 2 ^ 44 := by
  obtain ⟨pfn, hne, rfl⟩ := h
  have hlt := pfn.isLt
  have hpos : pfn.toNat ≠ 0 := fun h0 => hne (BitVec.eq_of_toNat_eq h0)
  have hmul : (pfn.setWidth 64 * ALIGN_SIZE).toNat = pfn.toNat * 4096 := by
    rw [BitVec.toNat_mul, BitVec.toNat_setWidth]
    show pfn.toNat % 2 ^ 64 * 4096 % 2 ^ 64 = _
    omega
  rw [hmul]
  omega

theorem and_not_ne_zero {x : Addr} (h : 4096 ≤ x.toNat) : x &&& ~~~ (ALIGN_SIZE - 1) ≠ 0 := by
  intro hz
  have hx : x &&& (ALIGN_SIZE - 1) = x := by
    simpa using (and_not_eq_self_iff x (~~~ (ALIGN_SIZE - 1))).2 hz
  have hle : x.toNat ≤ 4095 := by
    rw [← hx, BitVec.toNat_and]
    exact Nat.and_le_right
  omega

theorem availAddr_ne_zero (h : Paged address) (hn : n ≤ 32768) : availAddr n address ≠ 0 := by
  obtain ⟨h1, h2⟩ := toNat_of_paged h
  intro hz
  have := congrArg BitVec.toNat hz
  rw [availAddr, BitVec.toNat_add, BitVec.toNat_mul, BitVec.toNat_ofNat] at this
  change (address.toNat + n % 2 ^ 64 * 16 % 2 ^ 64) % 2 ^ 64 = 0 at this
  omega

theorem usedAddr_ne_zero (h : Paged address) (hn : n ≤ 32768) : usedAddr n address ≠ 0 := by
  obtain ⟨h1, h2⟩ := toNat_of_paged h
  apply and_not_ne_zero
  unfold availAddr
  simp only [BitVec.toNat_add, BitVec.toNat_mul, BitVec.toNat_ofNat]
  change 4096 ≤ (((((address.toNat + n % 2 ^ 64 * 16 % 2 ^ 64) % 2 ^ 64 + 4) % 2 ^ 64 + n % 2 ^ 64 * 2 % 2 ^ 64) % 2 ^ 64
    + 2) % 2 ^ 64 + 4095) % 2 ^ 64
  simp (disch := omega) only [Nat.mod_eq_of_lt]
  omega

/-! ### The calls of the device -/

theorem updateChainLoop_frame (g : Guest n) (this : Fin n) : ∀ (fuel : Nat) (q q' : VirtQueue n) (d : Fin n),
    updateChainLoop g this fuel q d = .ok q' → ∃ ds, q' = { q with descriptors := ds }
  | 0, q, q', d, h => by cases h
  | fuel + 1, q, q', d, h => by
    have hup : ∃ ds, q.update g d = { q with descriptors := ds } := by
      unfold update
      split
      · exact ⟨q.descriptors, rfl⟩
      · exact ⟨_, rfl⟩
    obtain ⟨ds, hds⟩ := hup
    rw [updateChainLoop_succ] at h
    cases hl : link (q.table g) d with
    | none =>
      rw [hl] at h
      cases h
      exact ⟨ds, hds⟩
    | some j =>
      simp only [hl] at h
      by_cases hj : j < n
      · rw [dif_pos hj] at h
        by_cases hthis : (⟨j, hj⟩ : Fin n) = this
        · rw [if_pos hthis] at h
          cases h
        · rw [if_neg hthis] at h
          obtain ⟨ds', hds'⟩ := updateChainLoop_frame g this fuel _ q' _ h
          exact ⟨ds', by rw [hds', hds]⟩
      · rw [dif_neg hj] at h
        cases h

/-- A chain that ends inside the table is walked in at most `n` rounds. -/
theorem updateChain_of_closed {q : VirtQueue n} {g : Guest n} {head : Fin n} (h : Closed (q.table g) head) :
    ∃ ds, q.updateChain (n + 1) g head = .ok { q with descriptors := ds } := by
  obtain ⟨⟨m, hm⟩, hin⟩ := h
  have hfin : ∀ i, Reach (link (q.table g)) head.val i → i ∈ Finset.range n :=
    fun i hr => Finset.mem_range.2 (hin i hr)
  have hpos : 0 < m := by
    apply Nat.pos_of_ne_zero
    rintro rfl
    cases hm
  obtain ⟨k, hk⟩ := exists_stops hpos (.inl hm)
  have hle := hk.le_card _ hfin
  rw [Finset.card_range] at hle
  have hstops : StopsAt (q.table g) head head k :=
    ⟨hk.pos, hk.stop, hk.first, fun j _ i hi => hin i (reach_iff.2 ⟨j, hi⟩)⟩
  rcases updateChainLoop_complete g head k (n + 1) q head hstops (by omega) with ⟨-, hback⟩ | ⟨q', hok, -⟩
  · have hc : Cycle (link (q.table g)) head.val := cycle_iff.2 ⟨k, hk.pos, hback⟩
    exact absurd hm (node_of_cycle (i := 0) rfl hc m)
  · obtain ⟨ds, rfl⟩ := updateChainLoop_frame g head _ _ _ _ hok
    exact ⟨ds, hok⟩

/-- What `consumeDescriptor` returns when the next chain ends inside the table. -/
theorem consumeDescriptor_head {q : VirtQueue n} {g : Guest n} {head : Fin n} (hbase : q.avail._base ≠ 0)
    (haddr : q._address ≠ 0) (hne : q._last_avail ≠ g.avail.header.index)
    (hring : g.avail.ring[q._last_avail.toNat % n]? = some (BitVec.ofNat 16 head)) (hn : n ≤ 32768)
    (h : Closed g.table head) : ∃ ds, q.consumeDescriptor (n + 1) g = .ok ({ q with
      avail := { q.avail with header := g.avail.header, ring := g.avail.ring }, _last_avail := q._last_avail + 1,
      descriptors := ds }, some head) := by
  have hhead : (BitVec.ofNat 16 head.val).toNat = head.val := by
    rw [BitVec.toNat_ofNat, Nat.mod_eq_of_lt (by omega)]
  rw [consumeDescriptor_eq _ _ _ hbase]
  simp only [if_neg hne, hring, hhead, dif_pos head.isLt]
  generalize hq : ({ q with
    avail := { q.avail with header := g.avail.header, ring := g.avail.ring },
    _last_avail := q._last_avail + 1 } : VirtQueue n) = q1
  have htable : q1.table g = g.table := by
    subst hq
    exact if_neg haddr
  obtain ⟨ds, hds⟩ := @updateChain_of_closed _ q1 g head (by rw [htable]; exact h)
  refine ⟨ds, ?_⟩
  subst hq
  rw [hds]
  rfl

theorem consumeDescriptor_empty {q : VirtQueue n} {g : Guest n} (fuel : Nat) (hbase : q.avail._base ≠ 0)
    (heq : q._last_avail = g.avail.header.index) : q.consumeDescriptor fuel g =
      .ok ({ q with avail := { q.avail with header := g.avail.header, ring := g.avail.ring } }, none) := by
  rw [consumeDescriptor_eq _ _ _ hbase]
  simp only [if_pos heq]

/-- `produceDescriptor` writes the object's whole copy of the ring, with the new entry in it. -/
theorem produceDescriptor_eq {q : VirtQueue n} (g : Guest n) (d : Fin n) (len : BitVec 32)
    (hbase : q.used._base ≠ 0) : q.produceDescriptor g d len =
      let ring := q.used.ring.set (g.used.header.index.toNat % n) ⟨BitVec.ofNat 32 d, len⟩ (Nat.mod_lt _ d.pos)
      let header := { g.used.header with index := g.used.header.index + 1 }
      .ok ({ q with used := { q.used with header := header, ring := ring } },
        { g with used := { header := header, ring := ring } }) := by
  unfold produceDescriptor VirtRing.readHeader
  rw [if_neg hbase]
  simp only [pure_bind]
  rw [dif_pos (Nat.mod_lt _ d.pos)]
  simp only [VirtRing.write, VirtRing.writeHeader, if_neg hbase]
  rfl

/-! ### Free-running indices -/

theorem ofNat_inj_of_le {a b : Nat} (hab : a ≤ b) (hb : b ≤ a + 32768)
    (h : BitVec.ofNat 16 a = BitVec.ofNat 16 b) : a = b := by
  have := congrArg BitVec.toNat h
  rw [BitVec.toNat_ofNat, BitVec.toNat_ofNat] at this
  omega

theorem ofNat_succ (a : Nat) : BitVec.ofNat 16 a + 1 = BitVec.ofNat 16 (a + 1) := (BitVec.ofNat_add a 1).symm

/-- The slot of an index, for a size that divides the range of the index. -/
theorem toNat_ofNat_mod (hn : n ∣ 2 ^ 16) (a : Nat) : (BitVec.ofNat 16 a).toNat % n = a % n := by
  rw [BitVec.toNat_ofNat, Nat.mod_mod_of_dvd _ hn]

/-! ### The invariant -/

theorem link_eq (T : Vector VringDesc n) (i : Nat) :
    link T i = (T[i]?).bind fun d => if d.hasNext then some d.next.toNat else none := by
  unfold link
  by_cases h : i < n
  · rw [dif_pos h, Vector.getElem?_eq_getElem h, Option.bind_some]
  · rw [dif_neg h, Vector.getElem?_eq_none (Nat.le_of_not_lt h), Option.bind_none]

/-- A chain only depends on its own descriptors. -/
theorem Closed.congr {T T' : Vector VringDesc n} {head : Nat} (h : Closed T head)
    (heq : ∀ i, Reach (link T) head i → T'[i]? = T[i]?) : Closed T' head := by
  have hnode : ∀ k, node (link T') head k = node (link T) head k := by
    intro k
    induction k with
    | zero => rfl
    | succ k ih =>
      rw [node, node, ih]
      cases hk : node (link T) head k with
      | none => rfl
      | some i => rw [Option.bind_some, Option.bind_some, link_eq, link_eq, heq i (reach_iff.2 ⟨k, hk⟩)]
  obtain ⟨⟨k, hk⟩, hin⟩ := h
  refine ⟨⟨k, by rw [hnode, hk]⟩, fun i hr => hin i ?_⟩
  obtain ⟨j, hj⟩ := reach_iff.1 hr
  exact reach_iff.2 ⟨j, by rw [← hnode, hj]⟩

structure Inv (address : Addr) (s : Shared n) : Prop where
  queue_address : s.q._address = address
  avail_base : s.q.avail._base = availAddr n address
  used_base : s.q.used._base = usedAddr n address
  last_avail : s.q._last_avail = BitVec.ofNat 16 s.consumed.length
  avail_index : s.g.avail.header.index = BitVec.ofNat 16 s.exposed.length
  used_index : s.g.used.header.index = BitVec.ofNat 16 s.produced.length
  last_used : s.last_used = BitVec.ofNat 16 s.got.length
  outstanding : s.exposed.length ≤ s.got.length + n
  balance : s.produced.length + s.pending.length = s.consumed.length
  avail_ring : ∀ k, s.consumed.length ≤ k → ∀ h, s.exposed[k]? = some h →
    s.g.avail.ring[k % n]? = some (BitVec.ofNat 16 h)
  closed : ∀ h ∈ s.exposed.drop s.consumed.length, Closed s.g.table h
  correct : Correct s

theorem inv_start (address : Addr) (g : Guest n) : Inv address (start address g) where
  queue_address := rfl
  avail_base := rfl
  used_base := rfl
  last_avail := rfl
  avail_index := rfl
  used_index := rfl
  last_used := rfl
  outstanding := Nat.zero_le _
  balance := rfl
  avail_ring := fun _ _ _ h => by cases h
  closed := fun _ h => by cases h
  correct := ⟨List.prefix_refl _, fun _ _ h => absurd h (Nat.not_lt_zero _), List.prefix_refl _⟩

namespace Inv

variable {address : Addr} {s : Shared n}

theorem consumed_le (h : Inv address s) : s.consumed.length ≤ s.exposed.length := h.correct.consumed.length_le

theorem got_le (h : Inv address s) : s.got.length ≤ s.produced.length := h.correct.got.length_le

theorem makeAvailable_ring (g : Guest n) (head : Fin n) (table : Vector VringDesc n) (k : Nat) :
    (makeAvailable g head table).avail.ring[k]? =
      if g.avail.header.index.toNat % n = k then some (BitVec.ofNat 16 head) else g.avail.ring[k]? :=
  Vector.getElem?_set (Nat.mod_lt _ head.pos)

theorem expose (h : Inv address s) (hn : n ∣ 2 ^ 16) {head : Fin n} {table : Vector VringDesc n}
    (hp : Permitted s (.expose head table)) :
    Inv address { s with g := makeAvailable s.g head table, exposed := s.exposed ++ [head] } := by
  obtain ⟨hroom, hclosed, hkeep⟩ := hp
  have hc := h.consumed_le
  have hg := h.got_le
  have hb := h.balance
  constructor
  case queue_address => exact h.queue_address
  case avail_base => exact h.avail_base
  case used_base => exact h.used_base
  case last_avail => exact h.last_avail
  case avail_index =>
    show s.g.avail.header.index + 1 = _
    rw [h.avail_index, ofNat_succ, List.length_append, List.length_singleton]
  case used_index => exact h.used_index
  case last_used => exact h.last_used
  case outstanding =>
    show (s.exposed ++ [head]).length ≤ s.got.length + n
    rw [List.length_append, List.length_singleton]
    exact hroom
  case balance => exact hb
  case avail_ring =>
    intro k hk v hv
    show (makeAvailable s.g head table).avail.ring[k % n]? = _
    rw [makeAvailable_ring]
    have hslot : s.g.avail.header.index.toNat % n = s.exposed.length % n := by
      rw [h.avail_index, toNat_ofNat_mod hn]
    change (s.exposed ++ [head])[k]? = some v at hv
    by_cases hlt : k < s.exposed.length
    · rw [List.getElem?_append_left hlt] at hv
      have hne : s.g.avail.header.index.toNat % n ≠ k % n := by
        rw [hslot]
        intro heq
        have := @Ring.mod_inj n k _ _ (Nat.le_of_lt hlt)
          (by change s.consumed.length ≤ k at hk; omega) le_rfl (Nat.lt_add_of_pos_right head.pos) heq
        omega
      rw [if_neg hne]
      exact h.avail_ring k hk v hv
    · rw [List.getElem?_append_right (Nat.le_of_not_lt hlt)] at hv
      have hkz : k - s.exposed.length = 0 := by
        have := List.getElem?_eq_some_iff.1 hv
        obtain ⟨hlen, -⟩ := this
        rw [List.length_singleton] at hlen
        omega
      have hke : k = s.exposed.length := by omega
      rw [hkz] at hv
      cases hv
      have hk' : k % n = s.g.avail.header.index.toNat % n := by rw [hslot, hke]
      rw [if_pos hk'.symm]
  case closed =>
    intro v hv
    change v ∈ (s.exposed ++ [head]).drop s.consumed.length at hv
    rw [List.drop_append_of_le_length hc, List.mem_append, List.mem_singleton] at hv
    cases hv with
    | inl hv => exact (h.closed v hv).congr (hkeep v hv)
    | inr hv =>
      rw [hv]
      exact hclosed
  case correct =>
    exact ⟨h.correct.consumed.trans (List.prefix_append _ _), h.correct.unread, h.correct.got⟩

theorem unread_lt (h : Inv address s) (hne : s.last_used ≠ s.g.used.header.index) :
    s.got.length < s.produced.length := by
  apply Nat.lt_of_le_of_ne h.got_le
  intro heq
  exact hne (by rw [h.last_used, h.used_index, heq])

theorem readUsed (h : Inv address s) (hn : n ∣ 2 ^ 16) : ∃ s', step s .readUsed = some s' ∧ Inv address s' := by
  unfold step
  by_cases heq : s.last_used = s.g.used.header.index
  · exact ⟨s, by simp only [if_pos heq], h⟩
  · have hlt := h.unread_lt heq
    have hslot : s.last_used.toNat % n = s.got.length % n := by rw [h.last_used, toNat_ofNat_mod hn]
    have hring := h.correct.unread s.got.length le_rfl hlt
    rw [← hslot, List.getElem?_eq_getElem hlt] at hring
    refine ⟨{ s with last_used := s.last_used + 1, got := s.got ++ [s.produced[s.got.length]] },
      by simp only [if_neg heq, hring, Option.map_some], ?_⟩
    have hlen : (s.got ++ [s.produced[s.got.length]]).length = s.got.length + 1 := by simp
    constructor
    case queue_address => exact h.queue_address
    case avail_base => exact h.avail_base
    case used_base => exact h.used_base
    case last_avail => exact h.last_avail
    case avail_index => exact h.avail_index
    case used_index => exact h.used_index
    case last_used =>
      show s.last_used + 1 = _
      rw [h.last_used, ofNat_succ, hlen]
    case outstanding =>
      have := h.outstanding
      show s.exposed.length ≤ (s.got ++ [s.produced[s.got.length]]).length + n
      omega
    case balance => exact h.balance
    case avail_ring => exact h.avail_ring
    case closed => exact h.closed
    case correct =>
      refine ⟨h.correct.consumed, fun k hk hk' => h.correct.unread k ?_ hk', ?_⟩
      · change (s.got ++ [s.produced[s.got.length]]).length ≤ k at hk
        omega
      · show s.got ++ [s.produced[s.got.length]] <+: s.produced
        have htake := List.prefix_iff_eq_take.1 h.correct.got
        rw [List.prefix_iff_eq_take, hlen, List.take_add_one, ← htake, List.getElem?_eq_getElem hlt]
        rfl

theorem consume (h : Inv address s) (hn : n ∣ 2 ^ 16) (hn' : n ≤ 32768) (haddr : Paged address) :
    ∃ s', step s .consume = some s' ∧ Inv address s' ∧
      s'.consumed = s.consumed ++ (s.exposed[s.consumed.length]?).toList := by
  have hc := h.consumed_le
  have hg := h.got_le
  have hb := h.balance
  have ho := h.outstanding
  have hbase : s.q.avail._base ≠ 0 := by
    rw [h.avail_base]
    exact availAddr_ne_zero haddr hn'
  by_cases heq : s.q._last_avail = s.g.avail.header.index
  · have hlen : s.consumed.length = s.exposed.length := by
      rw [h.last_avail, h.avail_index] at heq
      exact ofNat_inj_of_le hc (by omega) heq
    refine ⟨_, by unfold step; rw [consumeDescriptor_empty _ hbase heq], ?_, ?_⟩
    · exact { h with correct := ⟨h.correct.consumed, h.correct.unread, h.correct.got⟩ }
    · rw [List.getElem?_eq_none (Nat.le_of_eq hlen.symm)]
      exact (List.append_nil _).symm
  · have hlt : s.consumed.length < s.exposed.length := by
      apply Nat.lt_of_le_of_ne hc
      intro hlen
      exact heq (by rw [h.last_avail, h.avail_index, hlen])
    have haddr0 : s.q._address ≠ 0 := by
      rw [h.queue_address]
      intro hz
      have := (toNat_of_paged haddr).1
      rw [hz] at this
      exact absurd this (by decide)
    have hring := h.avail_ring s.consumed.length le_rfl _ (List.getElem?_eq_getElem hlt)
    rw [← toNat_ofNat_mod hn, ← h.last_avail] at hring
    have hmem : s.exposed[s.consumed.length] ∈ s.exposed.drop s.consumed.length := by
      rw [List.drop_eq_getElem_cons hlt]
      exact List.mem_cons_self
    obtain ⟨ds, hds⟩ := consumeDescriptor_head hbase haddr0 heq hring hn' (h.closed _ hmem)
    refine ⟨_, by unfold step; rw [hds], ?_, ?_⟩
    · have hlen : (s.consumed ++ [s.exposed[s.consumed.length]]).length = s.consumed.length + 1 := by simp
      constructor
      case queue_address => exact h.queue_address
      case avail_base => exact h.avail_base
      case used_base => exact h.used_base
      case last_avail =>
        show s.q._last_avail + 1 = _
        rw [h.last_avail, ofNat_succ, hlen]
      case avail_index => exact h.avail_index
      case used_index => exact h.used_index
      case last_used => exact h.last_used
      case outstanding => exact ho
      case balance =>
        show s.produced.length + (s.pending ++ [_]).length = (s.consumed ++ [_]).length
        rw [hlen, List.length_append, List.length_singleton]
        omega
      case avail_ring =>
        intro k hk v hv
        change (s.consumed ++ [_]).length ≤ k at hk
        rw [hlen] at hk
        exact h.avail_ring k (by omega) v hv
      case closed =>
        intro v hv
        change v ∈ s.exposed.drop (s.consumed ++ [_]).length at hv
        rw [hlen] at hv
        refine h.closed v ?_
        rw [List.drop_eq_getElem_cons hlt]
        exact List.mem_cons_of_mem _ hv
      case correct =>
        refine ⟨?_, h.correct.unread, h.correct.got⟩
        show s.consumed ++ [s.exposed[s.consumed.length]] <+: s.exposed
        have htake := List.prefix_iff_eq_take.1 h.correct.consumed
        rw [List.prefix_iff_eq_take, hlen, List.take_add_one, ← htake, List.getElem?_eq_getElem hlt]
        rfl
    · rw [List.getElem?_eq_getElem hlt]
      rfl

theorem produced_ring {s' : Shared n} (h : Inv address s) (hn : n ∣ 2 ^ 16) (hn' : n ≤ 32768) (haddr : Paged address)
    {d : Fin n} {len : BitVec 32} (hs : step s (.produce d len) = some s') : (∀ k, s'.g.used.ring[k]? =
        if s.produced.length % n = k then some ⟨BitVec.ofNat 32 d, len⟩ else s.q.used.ring[k]?) ∧
      ∃ header ring, s' = { s with
        q := { s.q with used := { s.q.used with header := header, ring := ring } },
        g := { s.g with used := ⟨header, ring⟩ },
        pending := s.pending.erase d, produced := s.produced ++ [⟨BitVec.ofNat 32 d, len⟩] } ∧
      header.index = BitVec.ofNat 16 (s.produced.length + 1) := by
  have hbase : s.q.used._base ≠ 0 := by
    rw [h.used_base]
    exact usedAddr_ne_zero haddr hn'
  simp only [VirtQueue.step, produceDescriptor_eq _ _ _ hbase] at hs
  obtain rfl := Option.some.inj hs
  refine ⟨fun k => ?_, _, _, rfl, ?_⟩
  · show (s.q.used.ring.set _ _ (Nat.mod_lt _ d.pos))[k]? = _
    rw [Vector.getElem?_set, h.used_index, toNat_ofNat_mod hn]
  · show s.g.used.header.index + 1 = _
    rw [h.used_index, ofNat_succ]

theorem exists_produce (h : Inv address s) (hn' : n ≤ 32768) (haddr : Paged address) (d : Fin n) (len : BitVec 32) :
    ∃ s', step s (.produce d len) = some s' := by
  have hbase : s.q.used._base ≠ 0 := by
    rw [h.used_base]
    exact usedAddr_ne_zero haddr hn'
  simp only [VirtQueue.step, produceDescriptor_eq _ _ _ hbase]
  exact ⟨_, rfl⟩

theorem produced_room (h : Inv address s) {d : Fin n} (hd : d ∈ s.pending) : s.produced.length < s.got.length + n := by
  have hpos := List.length_pos_of_mem hd
  have hb := h.balance
  have hc := h.consumed_le
  have ho := h.outstanding
  omega

/-- The used ring in guest memory is right after a chain has been produced just if the call was covered. -/
theorem produce_correct_iff {s' : Shared n} (h : Inv address s) (hn : n ∣ 2 ^ 16) (hn' : n ≤ 32768)
    (haddr : Paged address) {d : Fin n} (hd : d ∈ s.pending) {len : BitVec 32}
    (hs : step s (.produce d len) = some s') : Correct s' ↔ Covered s (.produce d len) := by
  obtain ⟨hring, header, ring, rfl, -⟩ := h.produced_ring hn hn' haddr hs
  have hroom := h.produced_room hd
  have hne : ∀ k, s.got.length ≤ k → k < s.produced.length → s.produced.length % n ≠ k % n := by
    intro k hk hk' heq
    have := @Ring.mod_inj n k _ _ (Nat.le_of_lt hk') (by omega) le_rfl (Nat.lt_add_of_pos_right d.pos) heq
    omega
  constructor
  · intro hc k hk hk'
    have hu := hc.unread k hk (by
      show k < (s.produced ++ [_]).length
      rw [List.length_append]
      omega)
    rw [hring, if_neg (hne k hk hk')] at hu
    change s.q.used.ring[k % n]? = (s.produced ++ [_])[k]? at hu
    rw [hu, List.getElem?_append_left hk', h.correct.unread k hk hk']
  · intro hcov
    refine ⟨h.correct.consumed, ?_, h.correct.got.trans (List.prefix_append _ _)⟩
    intro k hk hk'
    rw [hring]
    change k < (s.produced ++ [_]).length at hk'
    show _ = (s.produced ++ [_])[k]?
    rw [List.length_append, List.length_singleton] at hk'
    by_cases hlt : k < s.produced.length
    · rw [if_neg (hne k hk hlt), hcov k hk hlt, List.getElem?_append_left hlt, h.correct.unread k hk hlt]
    · have hke : k = s.produced.length := by omega
      rw [hke, if_pos rfl, List.getElem?_append_right le_rfl, Nat.sub_self]
      rfl

theorem produce {s' : Shared n} (h : Inv address s) (hn : n ∣ 2 ^ 16) (hn' : n ≤ 32768) (haddr : Paged address)
    {d : Fin n} (hd : d ∈ s.pending) {len : BitVec 32} (hcov : Covered s (.produce d len))
    (hs : step s (.produce d len) = some s') : Inv address s' := by
  have hcorrect := (h.produce_correct_iff hn hn' haddr hd hs).2 hcov
  obtain ⟨-, header, ring, rfl, hindex⟩ := h.produced_ring hn hn' haddr hs
  constructor
  case queue_address => exact h.queue_address
  case avail_base => exact h.avail_base
  case used_base => exact h.used_base
  case last_avail => exact h.last_avail
  case avail_index => exact h.avail_index
  case used_index =>
    show header.index = BitVec.ofNat 16 (s.produced ++ [_]).length
    rw [hindex, List.length_append, List.length_singleton]
  case last_used => exact h.last_used
  case outstanding => exact h.outstanding
  case balance =>
    have hb := h.balance
    have hpos := List.length_pos_of_mem hd
    show (s.produced ++ [_]).length + (s.pending.erase d).length = s.consumed.length
    rw [List.length_append, List.length_singleton, List.length_erase_of_mem hd]
    omega
  case avail_ring => exact h.avail_ring
  case closed => exact h.closed
  case correct => exact hcorrect

theorem restore (h : Inv address s) : Inv address { s with q := (VirtQueue.new n).unserialize s.q.serialize } := by
  have haddr : s.q.serialize._address = address := h.queue_address
  constructor
  case queue_address => exact haddr
  case avail_base => exact congrArg (availAddr n) haddr
  case used_base => exact congrArg (usedAddr n) haddr
  case last_avail => exact h.last_avail
  case avail_index => exact h.avail_index
  case used_index => exact h.used_index
  case last_used => exact h.last_used
  case outstanding => exact h.outstanding
  case balance => exact h.balance
  case avail_ring => exact h.avail_ring
  case closed => exact h.closed
  case correct => exact ⟨h.correct.consumed, h.correct.unread, h.correct.got⟩

theorem step (h : Inv address s) (hn : n ∣ 2 ^ 16) (hn' : n ≤ 32768) (haddr : Paged address) {c : Call n}
    (hp : Permitted s c) : ∃ s', VirtQueue.step s c = some s' ∧ (Covered s c → Inv address s') := by
  cases c with
  | expose head table => exact ⟨_, rfl, fun _ => h.expose hn hp⟩
  | readUsed =>
    obtain ⟨s', hs, hi⟩ := h.readUsed hn
    exact ⟨s', hs, fun _ => hi⟩
  | consume =>
    obtain ⟨s', hs, hi, -⟩ := h.consume hn hn' haddr
    exact ⟨s', hs, fun _ => hi⟩
  | produce d len =>
    obtain ⟨s', hs⟩ := h.exists_produce hn' haddr d len
    exact ⟨s', hs, fun hcov => h.produce hn hn' haddr hp hcov hs⟩
  | restore => exact ⟨_, rfl, fun _ => h.restore⟩

end Inv

theorem inv_of_reaches {s : Shared n} (hn : n ∣ 2 ^ 16) (hn' : n ≤ 32768) (haddr : Paged address)
    (g : Guest n) (hrun : Run.Reaches step (fun s c => Permitted s c ∧ Covered s c) (start address g) s) :
    Inv address s := by
  refine hrun.inv (inv_start address g) ?_
  intro t c t' ht hok hstep
  obtain ⟨t'', hs, hi⟩ := ht.step hn hn' haddr hok.1
  rw [hstep] at hs
  obtain rfl := Option.some.inj hs
  exact hi hok.2

/-- In every run of covered calls every state is correct, the next chain is consumed next, and no permitted call fails;
and a call of `produceDescriptor` keeps the unread entries just if it is covered. -/
theorem run_correct (n : Nat) (hn : ∃ k ≤ 15, n = 2 ^ k) (address : Addr) (haddr : Paged address) (g : Guest n)
    (s : Shared n) (hrun : Run.Reaches step (fun s c => Permitted s c ∧ Covered s c) (start address g) s) :
    Correct s ∧ ConsumesNext s ∧ (∀ c, Permitted s c → ∃ s', step s c = some s') ∧
      ∀ d len s', Permitted s (.produce d len) → step s (.produce d len) = some s' →
        (Correct s' ↔ Covered s (.produce d len)) := by
  obtain ⟨k, hk, rfl⟩ := hn
  have hdvd : 2 ^ k ∣ 2 ^ 16 := Nat.pow_dvd_pow 2 (by omega)
  have hle : 2 ^ k ≤ 32768 := Nat.pow_le_pow_right (show 0 < 2 by decide) hk
  have hinv := inv_of_reaches hdvd hle haddr g hrun
  refine ⟨hinv.correct, ?_, ?_, ?_⟩
  · obtain ⟨s', hs, -, hc⟩ := hinv.consume hdvd hle haddr
    exact ⟨s', hs, hc⟩
  · intro c hp
    obtain ⟨s', hs, -⟩ := hinv.step hdvd hle haddr hp
    exact ⟨s', hs⟩
  · intro d len s' hp hs
    exact hinv.produce_correct_iff hdvd hle haddr hp hs

/-! ### A restore with an unread entry -/

theorem closed_of_last {T : Vector VringDesc n} (head : Fin n) (h : link T head = none) : Closed T head := by
  refine ⟨⟨1, by rw [node_succ, h, Option.bind_none]⟩, fun i hr => ?_⟩
  obtain heq | ⟨j, hj, -⟩ := Relation.ReflTransGen.cases_head hr
  · rw [← heq]
    exact head.isLt
  · rw [h] at hj
    cases hj

/-- A guest with two chains of one descriptor. -/
def pair : Guest 2 :=
  { table := #v[⟨0x8000, 16, 2, 0⟩, ⟨0x9000, 16, 2, 0⟩], avail := ⟨⟨0, 0⟩, .replicate 2 0⟩,
    used := ⟨⟨0, 0⟩, .replicate 2 ⟨0, 0⟩⟩, bytes := fun _ => 0 }

def atPage : Shared 2 := start 0x1000 pair

theorem paged : Paged 0x1000 := ⟨1, by decide, by decide⟩

theorem closed_pair (head : Fin 2) : Closed pair.table head :=
  closed_of_last head (by revert head; decide)

theorem permitted_expose (s : Shared 2) (head : Fin 2) (ht : s.g.table = pair.table)
    (hroom : s.exposed.length < s.got.length + 2) : Permitted s (.expose head pair.table) :=
  ⟨hroom, closed_pair head, fun _ _ _ _ => by rw [ht]⟩

/-- Both chains are exposed and consumed, and the first is produced. -/
theorem reaches_produced : ∃ s, Run.Reaches step (fun s c => Permitted s c ∧ Covered s c) atPage s ∧
    s.consumed = [0, 1] ∧ s.pending = [1] ∧ s.produced = [⟨0, 5⟩] ∧ s.got = [] ∧
      s.g.used.ring = #v[⟨0, 5⟩, ⟨0, 0⟩] := by
  have h1 : Run.Reaches step (fun s c => Permitted s c ∧ Covered s c) atPage _ :=
    .step .refl (i := Call.expose 0 pair.table) ⟨permitted_expose _ 0 rfl (by decide), trivial⟩ rfl
  have h2 := h1.step (i := Call.expose 1 pair.table) ⟨permitted_expose _ 1 rfl (by decide), trivial⟩ rfl
  have h3 := h2.step (i := Call.consume) ⟨trivial, trivial⟩ rfl
  have h4 := h3.step (i := Call.consume) ⟨trivial, trivial⟩ rfl
  have h5 := h4.step (i := Call.produce 0 5)
    ⟨List.mem_cons_self, fun _ _ hk => absurd hk (Nat.not_lt_zero _)⟩ rfl
  exact ⟨_, h5, rfl, rfl, rfl, rfl, by decide +kernel⟩

theorem run_correct_produced : ∃ s : Shared 2, s.consumed = [0, 1] ∧ s.produced = [⟨0, 5⟩] ∧
    Correct s ∧ ConsumesNext s ∧ (∀ c, Permitted s c → ∃ s', step s c = some s') ∧
      ∀ d len s', Permitted s (.produce d len) → step s (.produce d len) = some s' →
        (Correct s' ↔ Covered s (.produce d len)) := by
  obtain ⟨s, hrun, hc, -, hp, -⟩ := reaches_produced
  exact ⟨s, hc, hp, run_correct 2 ⟨1, by decide, rfl⟩ 0x1000 paged pair s hrun⟩

/-- After a restore the next chain that is produced takes the unread entry away. -/
theorem produce_after_restore : ∃ s s' : Shared 2, Run.Reaches step Permitted atPage s ∧
    Permitted s (.produce 1 7) ∧ step s (.produce 1 7) = some s' ∧ s'.produced = [⟨0, 5⟩, ⟨1, 7⟩] ∧ s'.got = [] ∧
      s'.g.used.ring[0] = ⟨0, 0⟩ ∧ ¬ Correct s' := by
  obtain ⟨s, hrun, -, hpend, hprod, hgot, -⟩ := reaches_produced
  have hinv : Inv 0x1000 s := inv_of_reaches (by decide) (by decide) paged pair hrun
  have hpaged : Run.Reaches step Permitted atPage s := hrun.mono fun _ _ h => h.1
  have hrestored : Run.Reaches step Permitted atPage { s with q := (VirtQueue.new 2).unserialize s.q.serialize } :=
    hpaged.step (i := Call.restore) trivial rfl
  have hperm : Permitted { s with q := (VirtQueue.new 2).unserialize s.q.serialize } (.produce 1 7) := by
    show (1 : Fin 2) ∈ s.pending
    rw [hpend]
    exact List.mem_cons_self
  obtain ⟨s', hs⟩ := hinv.restore.exists_produce (by decide) paged 1 7
  have hslot : s'.g.used.ring[0]? = some ⟨0, 0⟩ := by
    obtain ⟨hring, -⟩ := hinv.restore.produced_ring (by decide) (by decide) paged hs
    rw [hring 0, hprod]
    rfl
  obtain ⟨-, header, ring, heq, -⟩ := hinv.restore.produced_ring (by decide) (by decide) paged hs
  have hprod' : s'.produced = [⟨0, 5⟩, ⟨1, 7⟩] := by
    rw [heq]
    show s.produced ++ _ = _
    rw [hprod]
    rfl
  have hgot' : s'.got = [] := by
    rw [heq]
    exact hgot
  refine ⟨_, s', hrestored, hperm, hs, hprod', hgot', Option.some.inj hslot, ?_⟩
  intro hc
  have hunread := hc.unread 0 (by rw [hgot']; exact le_rfl) (by rw [hprod']; decide)
  rw [hprod', hslot] at hunread
  exact absurd hunread (by decide)

end VirtQueue

end Alpine.Dev
