import Alpine.Base.AddrRangeStripes
import Alpine.Mem.DRAMCtrl

/-!
# The bursts of a packet

* `Covers` — the bursts of a packet are exactly its bytes, in order and without overlap, and none of them
  crosses a burst boundary.
* `Fits` — the arithmetic does not wrap around: the packet ends in the last burst of the address space only
  if this is its only burst, and the sum that is divided for the number of bursts has 32 bits.
* `covers_iff` — the bursts cover the packet if and only if it fits.
-/

namespace Alpine.Mem.Dram

variable (p : Params)

/-- The burst ends where the next one starts, or before. -/
def Burst.InBlock (b : Burst) : Prop :=
  0 < b.size ∧ b.addr + b.size ≤ b.addr / p.burstSize * p.burstSize + p.burstSize

structure Covers (pkt : Packet) : Prop where
  bytes : (pkt.bursts p).flatMap (fun b => List.range' b.addr b.size) = List.range' pkt.addr pkt.size
  inBlock : ∀ b ∈ pkt.bursts p, b.InBlock p

def Fits (pkt : Packet) : Prop :=
  pkt.addr % p.burstSize + pkt.size + (p.burstSize - 1) < 2 ^ 32 ∧
    (pkt.addr + pkt.size + p.burstSize ≤ 2 ^ 64 ∨ pkt.addr + pkt.size = 2 ^ 64 ∧ pkt.size ≤ p.burstSize)

instance (pkt : Packet) : Decidable (Fits p pkt) := inferInstanceAs (Decidable (_ ∧ _))

variable {p} {pkt : Packet}

theorem burstSize_pos : 0 < p.burstSize := by
  obtain ⟨b, _, hb⟩ := p.burst_pow2
  rw [hb]
  exact Nat.two_pow_pos b

theorem burstSize_le : p.burstSize ≤ 2 ^ 31 := by
  obtain ⟨b, hlt, hb⟩ := p.burst_pow2
  rw [hb]
  exact Nat.pow_le_pow_right (by decide) (by omega)

theorem and_burstSize (a : Nat) : a &&& (p.burstSize - 1) = a % p.burstSize := by
  obtain ⟨b, _, hb⟩ := p.burst_pow2
  rw [hb, Nat.and_two_pow_sub_one_eq_mod]

theorem burstAlign_eq {a : Nat} (ha : a < 2 ^ 64) : burstAlign p a = a / p.burstSize * p.burstSize := by
  obtain ⟨b, _, hb⟩ := p.burst_pow2
  rw [burstAlign, hb]
  exact Base.Bitfield.and_not_mask ha

theorem or_burstSize (a : Nat) : (a ||| (p.burstSize - 1)) + 1 = a / p.burstSize * p.burstSize + p.burstSize := by
  obtain ⟨b, _, hb⟩ := p.burst_pow2
  have hpos := Nat.two_pow_pos b
  have hor : a ||| (2 ^ b - 1) = 2 ^ b * (a / 2 ^ b) ||| (2 ^ b - 1) := by
    refine Nat.eq_of_testBit_eq fun i => ?_
    rw [Nat.testBit_or, Nat.testBit_or, Nat.testBit_two_pow_sub_one, Nat.testBit_two_pow_mul, Nat.testBit_div_two_pow]
    by_cases hi : i < b
    · simp [hi]
    · have hsum : i - b + b = i := by omega
      simp [hi, Nat.not_lt.1 hi, hsum]
  rw [hb, hor, ← Nat.two_pow_add_eq_or_of_lt (Nat.sub_lt hpos Nat.one_pos), Nat.mul_comm]
  omega

theorem nextBurst_eq (a : Nat) : nextBurst p a = (a / p.burstSize * p.burstSize + p.burstSize) % 2 ^ 64 := by
  rw [nextBurst, or_burstSize]

theorem nextBurst_lt (a : Nat) : nextBurst p a < 2 ^ 64 := Nat.mod_lt _ (Nat.two_pow_pos 64)

theorem mem_bursts_addr {n a : Nat} (ha : a < 2 ^ 64) {b : Burst} (hb : b ∈ bursts p pkt n a) :
    b.addr < 2 ^ 64 ∧ b.size = burstLen p pkt b.addr := by
  induction n generalizing a with
  | zero => simp [bursts] at hb
  | succ n ih =>
    rcases List.mem_cons.1 hb with rfl | hb
    · exact ⟨ha, rfl⟩
    · exact ih (nextBurst_lt a) hb

theorem length_bursts (n a : Nat) : (bursts p pkt n a).length = n := by
  induction n generalizing a with
  | zero => rfl
  | succ n ih => simp [bursts, ih]

theorem block_le (a : Nat) : a / p.burstSize * p.burstSize ≤ a := Nat.div_mul_le_self _ _

theorem lt_block (a : Nat) : a < a / p.burstSize * p.burstSize + p.burstSize := by
  have hmod := Nat.mod_lt a (burstSize_pos (p := p))
  have hdiv := Nat.div_add_mod' a p.burstSize
  omega

/-- A block is the last one of the address space, or another one follows. -/
theorem block_end {a : Nat} (ha : a < 2 ^ 64) : a / p.burstSize * p.burstSize + p.burstSize = 2 ^ 64 ∨
      a / p.burstSize * p.burstSize + p.burstSize + p.burstSize ≤ 2 ^ 64 := by
  obtain ⟨b, hlt, hb⟩ := p.burst_pow2
  have hend : 2 ^ (64 - b) * 2 ^ b = 2 ^ 64 := by
    rw [← Nat.pow_add, Nat.sub_add_cancel (by omega)]
  have hdiv : a / 2 ^ b < 2 ^ (64 - b) := Nat.div_lt_of_lt_mul (by rw [Nat.mul_comm, hend]; exact ha)
  rw [hb, ← Nat.succ_mul, ← Nat.succ_mul, ← hend]
  rcases Nat.lt_or_eq_of_le (Nat.succ_le_of_lt hdiv) with hlt | heq
  · exact Or.inr (Nat.mul_le_mul_right _ hlt)
  · exact Or.inl (by rw [heq])

/-! ## Packets that fit -/

/-- `n` blocks after that of `a`, the block in which the packet ends. -/
theorem bursts_covers (hend : pkt.addr + pkt.size + p.burstSize ≤ 2 ^ 64) {n a : Nat} (ha : a < pkt.addr + pkt.size)
    (hlo : a / p.burstSize * p.burstSize + n * p.burstSize < pkt.addr + pkt.size)
    (hhi : pkt.addr + pkt.size ≤ a / p.burstSize * p.burstSize + n * p.burstSize + p.burstSize) :
    (bursts p pkt (n + 1) a).flatMap (fun b => List.range' b.addr b.size) = List.range' a (pkt.addr + pkt.size - a) ∧
      ∀ b ∈ bursts p pkt (n + 1) a, b.InBlock p := by
  have hpos := burstSize_pos (p := p)
  have hmax := burstSize_le (p := p)
  induction n generalizing a with
  | zero =>
    have hble := block_le (p := p) a
    have hlt := lt_block (p := p) a
    have hnext : nextBurst p a = a / p.burstSize * p.burstSize + p.burstSize := by
      rw [nextBurst_eq]
      exact Nat.mod_eq_of_lt (by omega)
    have hlen : burstLen p pkt a = pkt.addr + pkt.size - a := by
      rw [burstLen, hnext, Nat.mod_eq_of_lt (by omega : pkt.addr + pkt.size < 2 ^ 64)]
      omega
    constructor
    · simp [bursts, hlen]
    · intro b hb
      obtain rfl := List.mem_singleton.1 hb
      exact ⟨by simp only [hlen]; omega, by simp only [hlen]; omega⟩
  | succ n ih =>
    have hble := block_le (p := p) a
    have hlt := lt_block (p := p) a
    rw [Nat.succ_mul] at hlo hhi
    have hnext : nextBurst p a = a / p.burstSize * p.burstSize + p.burstSize := by
      rw [nextBurst_eq]
      exact Nat.mod_eq_of_lt (by omega)
    have hblock : nextBurst p a / p.burstSize * p.burstSize = a / p.burstSize * p.burstSize + p.burstSize := by
      rw [hnext, ← Nat.succ_mul, Nat.mul_div_cancel _ hpos]
    have hlen : burstLen p pkt a = nextBurst p a - a := by
      rw [burstLen, hnext, Nat.mod_eq_of_lt (by omega : pkt.addr + pkt.size < 2 ^ 64)]
      omega
    obtain ⟨hbytes, hin⟩ := ih (a := nextBurst p a) (by omega) (by omega) (by omega)
    constructor
    · have hcat := List.range'_append_1 (s := a) (m := nextBurst p a - a)
        (n := pkt.addr + pkt.size - nextBurst p a)
      rw [show a + (nextBurst p a - a) = nextBurst p a by omega] at hcat
      rw [bursts, List.flatMap_cons, hbytes, hlen, hcat]
      congr 1
      omega
    · intro b hb
      rcases List.mem_cons.1 hb with rfl | hb
      · exact ⟨by simp only [hlen]; omega, by simp only [hlen]; omega⟩
      · exact hin b hb

theorem dramPktCount_eq (h : pkt.addr % p.burstSize + pkt.size + (p.burstSize - 1) < 2 ^ 32) :
    dramPktCount p pkt = (pkt.addr % p.burstSize + pkt.size + (p.burstSize - 1)) / p.burstSize := by
  have hpos := burstSize_pos (p := p)
  rw [dramPktCount, and_burstSize, divCeil, Nat.mod_eq_of_lt (by omega : _ + pkt.size < 2 ^ 32),
    Nat.add_sub_assoc hpos, Nat.mod_eq_of_lt h]

theorem Fits.covers (hsize : pkt.size ≠ 0) (h : Fits p pkt) : Covers p pkt := by
  have hpos := burstSize_pos (p := p)
  have hmax := burstSize_le (p := p)
  obtain ⟨hsum, hend⟩ := h
  have haddr := pkt.fits.1
  have hblock := Nat.div_add_mod' pkt.addr p.burstSize
  have hcount := dramPktCount_eq hsum
  rcases hend with hend | ⟨hend, hone⟩
  · obtain ⟨n, hn⟩ : ∃ n, dramPktCount p pkt = n + 1 := by
      refine ⟨dramPktCount p pkt - 1, (Nat.sub_add_cancel ?_).symm⟩
      rw [hcount, Nat.le_div_iff_mul_le hpos]
      omega
    have hdiv := (Nat.div_eq_iff hpos).1 (hcount.symm.trans hn)
    rw [Nat.succ_mul] at hdiv
    obtain ⟨hbytes, hin⟩ := bursts_covers hend (n := n) (a := pkt.addr) (by omega) (by omega) (by omega)
    rw [Nat.add_sub_cancel_left] at hbytes
    exact ⟨by rw [Packet.bursts, hn]; exact hbytes, by rw [Packet.bursts, hn]; exact hin⟩
  · have hlt := lt_block (p := p) pkt.addr
    have hlast := block_end (p := p) haddr
    have hone : dramPktCount p pkt = 1 := by
      rw [hcount, Nat.div_eq_iff hpos]
      omega
    have hnext : nextBurst p pkt.addr = 0 := by
      rw [nextBurst_eq, show pkt.addr / p.burstSize * p.burstSize + p.burstSize = 2 ^ 64 by omega, Nat.mod_self]
    have hlen : burstLen p pkt pkt.addr = pkt.size := by
      rw [burstLen, hnext, hend]
      omega
    constructor
    · simp [Packet.bursts, hone, bursts, hlen]
    · intro b hb
      rw [Packet.bursts, hone, bursts, bursts, hlen] at hb
      obtain rfl := List.mem_singleton.1 hb
      exact ⟨by simp only; omega, by simp only; omega⟩

/-! ## Packets that are covered -/

theorem Covers.exists_burst (h : Covers p pkt) {x : Nat} :
    (pkt.addr ≤ x ∧ x < pkt.addr + pkt.size) ↔ ∃ b ∈ pkt.bursts p, b.addr ≤ x ∧ x < b.addr + b.size := by
  have hmem : x ∈ (pkt.bursts p).flatMap (fun b => List.range' b.addr b.size) ↔
      x ∈ List.range' pkt.addr pkt.size := by rw [h.bytes]
  simpa only [List.mem_flatMap, List.mem_range'_1] using hmem.symm

/-- A packet whose number of bursts is wrapped around has at most one, which is too small. -/
theorem Covers.sum_lt (h : Covers p pkt) : pkt.addr % p.burstSize + pkt.size + (p.burstSize - 1) < 2 ^ 32 := by
  have hpos := burstSize_pos (p := p)
  have hmax := burstSize_le (p := p)
  have hmod := Nat.mod_lt pkt.addr hpos
  have hfits := pkt.fits.2
  by_contra hwrap
  have hbytes := congrArg List.length h.bytes
  have hlen : (pkt.bursts p).length = dramPktCount p pkt := by rw [Packet.bursts, length_bursts]
  rw [dramPktCount, and_burstSize, divCeil] at hlen
  cases hbursts : pkt.bursts p with
  | nil =>
    rw [hbursts] at hbytes
    simp at hbytes
    omega
  | cons b l =>
    rw [hbursts, List.length_cons, eq_comm, Nat.div_eq_iff hpos, Nat.succ_mul] at hlen
    have hb := (h.inBlock b (by rw [hbursts]; exact List.mem_cons_self)).2
    have hble := block_le (p := p) b.addr
    obtain rfl : l = [] := by
      cases l with
      | nil => rfl
      | cons c l =>
        rw [List.length_cons, Nat.succ_mul] at hlen
        omega
    rw [hbursts] at hbytes
    simp at hbytes hlen
    omega

theorem Covers.fits (hsize : pkt.size ≠ 0) (h : Covers p pkt) : Fits p pkt := by
  have hpos := burstSize_pos (p := p)
  have hmax := burstSize_le (p := p)
  refine ⟨h.sum_lt, ?_⟩
  by_contra hend
  -- the burst of the last byte
  obtain ⟨b, hb, hle, hlt⟩ := (h.exists_burst (x := pkt.addr + pkt.size - 1)).1 (by omega)
  obtain ⟨haddr, hlen⟩ := mem_bursts_addr pkt.fits.1 hb
  obtain ⟨_, hin⟩ := h.inBlock b hb
  have hble := block_le (p := p) b.addr
  have hblt := lt_block (p := p) b.addr
  have hblock := (block_end (p := p) haddr).resolve_right (by omega)
  have hnext : nextBurst p b.addr = 0 := by rw [nextBurst_eq, hblock, Nat.mod_self]
  -- it is the last burst of the address space, and its size is computed up to the end
  have hsz : b.addr + b.size = 2 ^ 64 := by
    rw [hlen, burstLen, hnext, Nat.zero_min]
    omega
  have hmax := (h.exists_burst (x := 2 ^ 64 - 1)).2 ⟨b, hb, by omega, by omega⟩
  have hwhole : pkt.addr + pkt.size = 2 ^ 64 := by omega
  -- so is that of the first burst
  cases hbursts : pkt.bursts p with
  | nil => simp [hbursts] at hb
  | cons c l =>
    obtain ⟨_, hcin⟩ := h.inBlock c (by rw [hbursts]; exact List.mem_cons_self)
    obtain ⟨n, hn⟩ : ∃ n, dramPktCount p pkt = n + 1 := by
      refine ⟨l.length, ?_⟩
      rw [← @length_bursts p pkt (dramPktCount p pkt) pkt.addr]
      exact congrArg List.length hbursts
    obtain rfl : c = ⟨pkt.addr, burstLen p pkt pkt.addr⟩ := by
      rw [Packet.bursts, hn, bursts] at hbursts
      exact (List.cons.inj hbursts).1.symm
    have hfits := pkt.fits
    have hclt := block_le (p := p) pkt.addr
    have hclen : burstLen p pkt pkt.addr = pkt.size := by
      rw [burstLen, hwhole, Nat.mod_self, Nat.min_zero]
      omega
    simp only [hclen] at hcin
    omega

theorem covers_iff (hsize : pkt.size ≠ 0) : Covers p pkt ↔ Fits p pkt := ⟨Covers.fits hsize, Fits.covers hsize⟩

end Alpine.Mem.Dram
