import Alpine.Lib.Mask

/-!
# Splitting a region into chunks (`base/chunk_generator.hh`, `base/intmath.hh`)

A region of memory is cut at the multiples of the chunk size.  Addresses have 64 bits and wrap, sizes have 32.

* `loop` — the generator at each iteration of `for (gen; !gen.done(); gen.next())`.
* `roundUp_eq` — `roundUp` to a power of two, at the top of the address space too.
* `At` — the invariant: what the generator holds when a number of bytes has been generated.
* `Exact`, `chunks_exact` — the loop ends, and its chunks split the region exactly.
-/

namespace Alpine.Base

/-! ## `intmath.hh` -/

def leastSigBit {w : Nat} (n : BitVec w) : BitVec w := n &&& ~~~(n - 1)

def isPowerOf2 {w : Nat} (n : BitVec w) : Bool := n ≠ 0 && leastSigBit n = n

def roundUp (val : BitVec 64) (align : BitVec 32) : BitVec 64 :=
  let mask := align.setWidth 64 - 1
  (val + mask) &&& ~~~mask

/-! ## The generator -/

structure ChunkGenerator where
  curAddr : BitVec 64
  nextAddr : BitVec 64
  curSize : BitVec 32
  sizeLeft : BitVec 32
  startAddr : BitVec 64
  chunkSize : BitVec 32

/-- `std::min`. -/
def min32 (a b : BitVec 32) : BitVec 32 := if b < a then b else a

namespace ChunkGenerator

/-- The constructor, or `none` if its assertion fails. -/
def new (startAddr : BitVec 64) (totalSize chunkSize : BitVec 32) : Option ChunkGenerator :=
  if chunkSize = 0 ∨ isPowerOf2 chunkSize then
    let nextAddr :=
      if chunkSize = 0 then startAddr + totalSize.setWidth 64
      else
        let nextAddr := roundUp startAddr chunkSize
        if startAddr = nextAddr then nextAddr + chunkSize.setWidth 64 else nextAddr
    let left_in_chunk := (nextAddr - startAddr).setWidth 32
    let curSize := min32 totalSize left_in_chunk
    some {
      curAddr := startAddr
      nextAddr := nextAddr
      curSize := curSize
      sizeLeft := totalSize - curSize
      startAddr := startAddr
      chunkSize := chunkSize }
  else none

variable (gen : ChunkGenerator)

def addr : BitVec 64 := gen.curAddr

def size : BitVec 32 := gen.curSize

def complete : BitVec 32 := (gen.curAddr - gen.startAddr).setWidth 32

def done : Bool := gen.curSize = 0

def last : Bool := gen.sizeLeft = 0

def next : ChunkGenerator × Bool :=
  if gen.sizeLeft = 0 then ({ gen with curSize := 0 }, false)
  else
    let curSize := min32 gen.sizeLeft gen.chunkSize
    ({ gen with
        curAddr := gen.nextAddr
        curSize := curSize
        sizeLeft := gen.sizeLeft - curSize
        nextAddr := gen.nextAddr + curSize.setWidth 64 }, true)

/-- The generator at each iteration of the loop. -/
def loop : Nat → ChunkGenerator → Option (List ChunkGenerator)
  | 0, _ => none
  | fuel + 1, gen => if gen.done then some [] else (loop fuel gen.next.1).map (gen :: ·)

end ChunkGenerator

/-! ## Arithmetic -/

variable {k : Nat}

theorem isPowerOf2_of_eq {w : Nat} {n : BitVec w} (hn : n.toNat = 2 ^ k) : isPowerOf2 n = true := by
  have hne : n ≠ 0 := by
    rintro rfl
    exact (Nat.two_pow_pos k).ne hn
  unfold isPowerOf2
  rw [Bool.and_eq_true, decide_eq_true_iff, decide_eq_true_iff]
  exact ⟨hne, (and_not_pred_eq_self_iff hne).2 ⟨k, hn⟩⟩

theorem and_not_ones (x : BitVec 64) {mask : BitVec 64} (hmask : mask.toNat = 2 ^ k - 1) :
    (x &&& ~~~mask).toNat = x.toNat / 2 ^ k * 2 ^ k := by
  refine Nat.eq_of_testBit_eq fun i => ?_
  rw [Nat.testBit_mul_two_pow, Nat.testBit_div_two_pow]
  by_cases hi : i < 64
  · have hbit : mask.getLsbD i = decide (i < k) := by
      rw [BitVec.getLsbD, hmask, Nat.testBit_two_pow_sub_one]
    rw [← BitVec.getLsbD, BitVec.getLsbD_and, BitVec.getLsbD_not, decide_eq_true hi, Bool.true_and, hbit]
    by_cases hk : k ≤ i
    · simp [hk, BitVec.getLsbD]
    · simp [hk]
      omega
  · rw [← BitVec.getLsbD, BitVec.getLsbD_of_ge _ _ (by omega)]
    by_cases hk : k ≤ i
    · have hzero : x.getLsbD i = false := BitVec.getLsbD_of_ge x i (by omega)
      rw [BitVec.getLsbD] at hzero
      simp [hk, hzero]
    · simp [hk]

/-- Both wrap at the same multiple of the alignment. -/
theorem mod_div_mul {x : Nat} (hk : k ≤ 64) : x % 2 ^ 64 / 2 ^ k * 2 ^ k = x / 2 ^ k * 2 ^ k % 2 ^ 64 := by
  have hpow : 2 ^ 64 = 2 ^ k * 2 ^ (64 - k) := by rw [← Nat.pow_add, Nat.add_sub_cancel' hk]
  rw [hpow, Nat.mod_mul_right_div_self, Nat.mul_comm (2 ^ k) (2 ^ (64 - k)), Nat.mul_mod_mul_right]

theorem width_lt {c : BitVec 32} (hc : c.toNat = 2 ^ k) : k < 32 :=
  (Nat.pow_lt_pow_iff_right (by decide)).1 (hc ▸ c.isLt)

theorem roundUp_eq (val : BitVec 64) {c : BitVec 32} (hc : c.toNat = 2 ^ k) :
    (roundUp val c).toNat = (val.toNat + (2 ^ k - 1)) / 2 ^ k * 2 ^ k % 2 ^ 64 := by
  have hk := width_lt hc
  have hlt : 2 ^ k < 2 ^ 64 := Nat.pow_lt_pow_right (by decide) (by omega)
  have hwide : (c.setWidth 64).toNat = 2 ^ k := by
    rw [BitVec.toNat_setWidth, hc, Nat.mod_eq_of_lt hlt]
  have hmask : (c.setWidth 64 - 1).toNat = 2 ^ k - 1 := by
    have hone : (1 : BitVec 64).toNat = 1 := rfl
    rw [BitVec.toNat_sub_of_le (by rw [BitVec.le_def, hone, hwide]; exact Nat.one_le_two_pow), hwide, hone]
  unfold roundUp
  rw [and_not_ones _ hmask, BitVec.toNat_add, hmask, mod_div_mul (by omega)]

/-- How far it is to the next multiple, which is another one. -/
theorem next_multiple (s : Nat) {c : Nat} (hc : 0 < c) :
    (s + (c - 1)) / c * c = if s % c = 0 then s else s + (c - s % c) := by
  have hs := Nat.div_add_mod s c
  have hlt := Nat.mod_lt s hc
  have hmul := Nat.mul_comm c (s / c)
  split
  next hzero =>
    have heq : s + (c - 1) = c - 1 + c * (s / c) := by omega
    rw [heq, Nat.add_mul_div_left _ _ hc, Nat.div_eq_of_lt (by omega), Nat.zero_add]
    omega
  next hne =>
    have heq : s + (c - 1) = s % c - 1 + c * (s / c + 1) := by
      rw [Nat.mul_add, Nat.mul_one]
      omega
    rw [heq, Nat.add_mul_div_left _ _ hc, Nat.div_eq_of_lt (by omega), Nat.zero_add, Nat.add_mul, Nat.one_mul]
    omega

theorem boundary (start : BitVec 64) {c : BitVec 32} (hc : c.toNat = 2 ^ k) :
    (if start = roundUp start c then roundUp start c + c.setWidth 64 else roundUp start c) =
      start + BitVec.ofNat 64 (2 ^ k - start.toNat % 2 ^ k) := by
  have hpos := Nat.two_pow_pos k
  have hk : 2 ^ k < 2 ^ 32 := Nat.pow_lt_pow_right (by decide) (width_lt hc)
  have hstart := start.isLt
  have hround := roundUp_eq start hc
  rw [next_multiple _ hpos] at hround
  have hmod := Nat.mod_lt start.toNat hpos
  split at hround
  next hzero =>
    have heq : start = roundUp start c := BitVec.eq_of_toNat_eq (by rw [hround, Nat.mod_eq_of_lt hstart])
    rw [if_pos heq, ← heq, hzero, Nat.sub_zero]
    refine congrArg (start + ·) (BitVec.eq_of_toNat_eq ?_)
    rw [BitVec.toNat_setWidth, hc, BitVec.toNat_ofNat]
  next hne =>
    have hdist : start ≠ roundUp start c := by
      intro heq
      rw [← heq] at hround
      rcases Nat.lt_or_ge (start.toNat + (2 ^ k - start.toNat % 2 ^ k)) (2 ^ 64) with hlt | hge
      · rw [Nat.mod_eq_of_lt hlt] at hround
        omega
      · rw [Nat.mod_eq_sub_mod hge, Nat.mod_eq_of_lt (by omega)] at hround
        omega
    rw [if_neg hdist]
    apply BitVec.eq_of_toNat_eq
    rw [hround, BitVec.toNat_add, BitVec.toNat_ofNat, Nat.add_mod_mod]

theorem min32_toNat (a b : BitVec 32) : (min32 a b).toNat = min a.toNat b.toNat := by
  unfold min32
  split
  next hlt => exact (Nat.min_eq_right (BitVec.lt_def.1 hlt).le).symm
  next hge => exact (Nat.min_eq_left (Nat.le_of_not_lt hge)).symm

/-! ## The invariant -/

variable {startAddr : BitVec 64} {totalSize chunkSize : BitVec 32} {gen : ChunkGenerator} {d : Nat}

/-- The generator after `d` bytes, with a chunk to give out. -/
structure At (startAddr : BitVec 64) (totalSize chunkSize : BitVec 32) (d : Nat) (gen : ChunkGenerator) : Prop where
  start : gen.startAddr = startAddr
  chunk : gen.chunkSize = chunkSize
  addr : gen.curAddr = startAddr + BitVec.ofNat 64 d
  sizes : d + gen.curSize.toNat + gen.sizeLeft.toNat = totalSize.toNat
  pos : 0 < gen.curSize.toNat
  within : chunkSize ≠ 0 → gen.curAddr.toNat % chunkSize.toNat + gen.curSize.toNat ≤ chunkSize.toNat
  left : gen.sizeLeft ≠ 0 → chunkSize ≠ 0 ∧ gen.nextAddr = gen.curAddr + gen.curSize.setWidth 64 ∧
    gen.nextAddr.toNat % chunkSize.toNat = 0

/-- The chunks of a loop split the region. -/
structure Exact (startAddr : BitVec 64) (totalSize chunkSize : BitVec 32) (gens : List ChunkGenerator) : Prop where
  sum : (gens.map fun gen => gen.size.toNat).sum = totalSize.toNat
  nonempty : ∀ gen ∈ gens, 0 < gen.size.toNat
  consecutive : ∀ before gen after, gens = before ++ gen :: after →
    gen.addr = startAddr + BitVec.ofNat 64 (before.map fun gen => gen.size.toNat).sum
  within : chunkSize ≠ 0 → ∀ gen ∈ gens, gen.addr.toNat % chunkSize.toNat + gen.size.toNat ≤ chunkSize.toNat
  complete : ∀ before gen after, gens = before ++ gen :: after →
    gen.complete.toNat = (before.map fun gen => gen.size.toNat).sum
  last : ∀ before gen after, gens = before ++ gen :: after → (gen.last = true ↔ after = [])

theorem toNat_sub_min (a b : BitVec 32) : (a - min32 a b).toNat = a.toNat - min a.toNat b.toNat := by
  rw [BitVec.toNat_sub_of_le, min32_toNat]
  rw [BitVec.le_def, min32_toNat]
  exact Nat.min_le_left _ _

theorem toNat_ne_zero {w : Nat} {x : BitVec w} : x ≠ 0 ↔ 0 < x.toNat := by
  rw [Nat.pos_iff_ne_zero]
  exact not_congr BitVec.toNat_eq

/-- The address moves on by a size that is a multiple of the chunk size. -/
theorem mod_add_chunk (hchunk : chunkSize.toNat = 2 ^ k) (a : BitVec 64) :
    (a + chunkSize.setWidth 64).toNat % chunkSize.toNat = a.toNat % chunkSize.toNat := by
  have hk := width_lt hchunk
  have hdvd : 2 ^ k ∣ 2 ^ 64 := Nat.pow_dvd_pow 2 (by omega)
  have hwide : (chunkSize.setWidth 64).toNat = 2 ^ k := by
    rw [BitVec.toNat_setWidth, hchunk, Nat.mod_eq_of_lt (Nat.pow_lt_pow_right (by decide) (by omega))]
  rw [BitVec.toNat_add, hwide, hchunk, Nat.mod_mod_of_dvd _ hdvd, Nat.add_mod_right]

namespace At

/-- Where the first chunk ends, unless the region ends before. -/
theorem first (startAddr : BitVec 64) (totalSize : BitVec 32) (h : chunkSize = 0 ∨ ∃ k, chunkSize.toNat = 2 ^ k) :
    ∃ D < 2 ^ 32, (if chunkSize = 0 then startAddr + totalSize.setWidth 64
        else if startAddr = roundUp startAddr chunkSize then roundUp startAddr chunkSize + chunkSize.setWidth 64
        else roundUp startAddr chunkSize) = startAddr + BitVec.ofNat 64 D ∧ (chunkSize = 0 → D = totalSize.toNat) ∧
      (chunkSize ≠ 0 → 0 < D ∧ startAddr.toNat % chunkSize.toNat + D = chunkSize.toNat) := by
  by_cases hzero : chunkSize = 0
  · refine ⟨totalSize.toNat, totalSize.isLt, ?_, fun _ => rfl, fun hne => absurd hzero hne⟩
    rw [if_pos hzero]
    refine congrArg (startAddr + ·) (BitVec.eq_of_toNat_eq ?_)
    rw [BitVec.toNat_setWidth, BitVec.toNat_ofNat]
  · obtain ⟨k, hk⟩ := h.resolve_left hzero
    have hmod := Nat.mod_lt startAddr.toNat (Nat.two_pow_pos k)
    have hlt := hk ▸ chunkSize.isLt
    refine ⟨2 ^ k - startAddr.toNat % 2 ^ k, by omega, ?_, fun heq => absurd heq hzero, fun _ => ?_⟩
    · rw [if_neg hzero, boundary startAddr hk]
    · rw [hk]
      omega

theorem new (h : chunkSize = 0 ∨ ∃ k, chunkSize.toNat = 2 ^ k) :
    ∃ gen, ChunkGenerator.new startAddr totalSize chunkSize = some gen ∧
      (totalSize = 0 → gen.done = true) ∧ (totalSize ≠ 0 → At startAddr totalSize chunkSize 0 gen) := by
  have hassert : chunkSize = 0 ∨ isPowerOf2 chunkSize = true := h.imp_right fun ⟨_, hk⟩ => isPowerOf2_of_eq hk
  obtain ⟨D, hD, hnext, hzero, hne⟩ := first startAddr totalSize h
  have hleft : ((startAddr + BitVec.ofNat 64 D - startAddr).setWidth 32).toNat = D := by
    rw [BitVec.add_comm, BitVec.add_sub_cancel, BitVec.toNat_setWidth, BitVec.toNat_ofNat,
      Nat.mod_eq_of_lt (by omega : D < 2 ^ 64), Nat.mod_eq_of_lt hD]
  have hcur := min32_toNat totalSize ((startAddr + BitVec.ofNat 64 D - startAddr).setWidth 32)
  have hrest := toNat_sub_min totalSize ((startAddr + BitVec.ofNat 64 D - startAddr).setWidth 32)
  rw [hleft] at hcur hrest
  unfold ChunkGenerator.new
  rw [if_pos hassert]
  dsimp only
  rw [hnext]
  refine ⟨_, rfl, fun htotal => ?_, fun htotal => ?_⟩
  · refine decide_eq_true (BitVec.eq_of_toNat_eq ?_)
    rw [hcur, htotal]
    exact Nat.zero_min D
  · have htotal := toNat_ne_zero.1 htotal
    constructor
    · rfl
    · rfl
    · exact (BitVec.add_zero startAddr).symm
    · show 0 + (min32 totalSize _).toNat + (totalSize - min32 totalSize _).toNat = _
      rw [hcur, hrest]
      omega
    · show 0 < (min32 totalSize _).toNat
      rw [hcur]
      by_cases hc : chunkSize = 0
      · rw [hzero hc, Nat.min_self]
        exact htotal
      · exact Nat.lt_min.2 ⟨htotal, (hne hc).1⟩
    · intro hc
      show startAddr.toNat % _ + (min32 totalSize _).toNat ≤ _
      have hend := (hne hc).2
      rw [hcur]
      omega
    · intro hmore
      have hmore : 0 < (totalSize - min32 totalSize _).toNat := toNat_ne_zero.1 hmore
      rw [hrest] at hmore
      have hc : chunkSize ≠ 0 := by
        intro hc
        rw [hzero hc, Nat.min_self, Nat.sub_self] at hmore
        exact Nat.lt_irrefl 0 hmore
      obtain ⟨k, hk⟩ := h.resolve_left hc
      have hend := (hne hc).2
      refine ⟨hc, ?_, ?_⟩
      · refine congrArg (startAddr + ·) (BitVec.eq_of_toNat_eq ?_)
        rw [BitVec.toNat_setWidth, hcur, BitVec.toNat_ofNat, Nat.min_eq_right (by omega)]
      · show (startAddr + BitVec.ofNat 64 D).toNat % chunkSize.toNat = 0
        have hdvd : 2 ^ k ∣ 2 ^ 64 := Nat.pow_dvd_pow 2 (by have := width_lt hk; omega)
        rw [hk] at hend
        rw [BitVec.toNat_add, BitVec.toNat_ofNat, Nat.add_mod_mod, hk, Nat.mod_mod_of_dvd _ hdvd, ← Nat.mod_add_mod, hend,
          Nat.mod_self]

theorem next (h : At startAddr totalSize chunkSize d gen) (hpow : chunkSize = 0 ∨ ∃ k, chunkSize.toNat = 2 ^ k)
    (hleft : gen.sizeLeft ≠ 0) : At startAddr totalSize chunkSize (d + gen.size.toNat) gen.next.1 := by
  obtain ⟨hne, hnext, hmultiple⟩ := h.left hleft
  obtain ⟨k, hk⟩ := hpow.resolve_left hne
  have hpos : 0 < gen.sizeLeft.toNat := toNat_ne_zero.1 hleft
  have hsizes := h.sizes
  have hcur := min32_toNat gen.sizeLeft gen.chunkSize
  have hrest := toNat_sub_min gen.sizeLeft gen.chunkSize
  have hchunk : 0 < gen.chunkSize.toNat := by
    rw [h.chunk, hk]
    exact Nat.two_pow_pos k
  unfold ChunkGenerator.next ChunkGenerator.size
  rw [if_neg hleft]
  constructor
  · exact h.start
  · exact h.chunk
  · show gen.nextAddr = _
    rw [hnext, h.addr, BitVec.add_assoc, BitVec.ofNat_add]
    congr 2
    apply BitVec.eq_of_toNat_eq
    rw [BitVec.toNat_setWidth, BitVec.toNat_ofNat]
  · show d + gen.curSize.toNat + (min32 gen.sizeLeft gen.chunkSize).toNat +
      (gen.sizeLeft - min32 gen.sizeLeft gen.chunkSize).toNat = _
    rw [hcur, hrest]
    omega
  · show 0 < (min32 gen.sizeLeft gen.chunkSize).toNat
    rw [hcur]
    exact Nat.lt_min.2 ⟨hpos, hchunk⟩
  · intro _
    show gen.nextAddr.toNat % _ + (min32 gen.sizeLeft gen.chunkSize).toNat ≤ _
    rw [hmultiple, hcur, h.chunk, Nat.zero_add]
    exact Nat.min_le_right _ _
  · intro hmore
    have hfull : min32 gen.sizeLeft gen.chunkSize = chunkSize := by
      have hmore : 0 < (gen.sizeLeft - min32 gen.sizeLeft gen.chunkSize).toNat := toNat_ne_zero.1 hmore
      rw [hrest] at hmore
      apply BitVec.eq_of_toNat_eq
      rw [hcur, ← h.chunk]
      omega
    refine ⟨hne, rfl, ?_⟩
    show (gen.nextAddr + (min32 gen.sizeLeft gen.chunkSize).setWidth 64).toNat % _ = 0
    rw [hfull, mod_add_chunk hk, hmultiple]

/-- The state of the generator at every iteration from here on. -/
theorem loop (hpow : chunkSize = 0 ∨ ∃ k, chunkSize.toNat = 2 ^ k) :
    ∀ (n : Nat) (d : Nat) (gen : ChunkGenerator), gen.sizeLeft.toNat < n → At startAddr totalSize chunkSize d gen →
      ∃ fuel gens, gen.loop fuel = some gens ∧ d + (gens.map fun gen => gen.size.toNat).sum = totalSize.toNat ∧
        ∀ before gen after, gens = before ++ gen :: after →
          At startAddr totalSize chunkSize (d + (before.map fun gen => gen.size.toNat).sum) gen ∧
            (gen.last = true ↔ after = [])
  | 0, _, _, hn, _ => absurd hn (Nat.not_lt_zero _)
  | n + 1, d, gen, hn, h => by
    have hdone : gen.done = false := by
      refine decide_eq_false fun hzero => ?_
      have hpos := h.pos
      rw [hzero] at hpos
      exact Nat.lt_irrefl 0 hpos
    have hsizes := h.sizes
    by_cases hleft : gen.sizeLeft = 0
    · -- the last chunk
      refine ⟨2, [gen], ?_, ?_, fun before gen' after heq => ?_⟩
      · have hnext : gen.next.1.done = true := by
          unfold ChunkGenerator.next
          rw [if_pos hleft]
          exact decide_eq_true rfl
        rw [ChunkGenerator.loop, hdone, if_neg Bool.false_ne_true, ChunkGenerator.loop, hnext, if_pos rfl]
        rfl
      · have hzero : gen.sizeLeft.toNat = 0 := congrArg BitVec.toNat hleft
        simpa [ChunkGenerator.size, hzero] using hsizes
      · obtain ⟨rfl, rfl, rfl⟩ : before = [] ∧ gen' = gen ∧ after = [] := by
          cases before with
          | nil => cases heq; exact ⟨rfl, rfl, rfl⟩
          | cons x l => cases l <;> cases heq
        exact ⟨h, iff_of_true (decide_eq_true hleft) rfl⟩
    · have hpos : 0 < gen.next.1.curSize.toNat := (h.next hpow hleft).pos
      have hsizes' := (h.next hpow hleft).sizes
      obtain ⟨fuel, gens, hloop, hsum, hgens⟩ := loop hpow n (d + gen.size.toNat) gen.next.1
        (by unfold ChunkGenerator.size at hsizes'; omega) (h.next hpow hleft)
      refine ⟨fuel + 1, gen :: gens, ?_, ?_, fun before gen' after heq => ?_⟩
      · rw [ChunkGenerator.loop, hdone, if_neg Bool.false_ne_true, hloop]
        rfl
      · rw [List.map_cons, List.sum_cons, ← Nat.add_assoc]
        exact hsum
      · cases before with
        | nil =>
          cases heq
          refine ⟨h, iff_of_false (by simpa [ChunkGenerator.last] using hleft) ?_⟩
          rintro rfl
          -- there is a chunk left
          rw [List.map_nil, List.sum_nil] at hsum
          unfold ChunkGenerator.size at hsum hsizes'
          omega
        | cons x l =>
          cases heq
          rw [List.map_cons, List.sum_cons, ← Nat.add_assoc]
          exact hgens l gen' after rfl

theorem complete (h : At startAddr totalSize chunkSize d gen) : gen.complete.toNat = d := by
  have hsizes := h.sizes
  have hlt := totalSize.isLt
  unfold ChunkGenerator.complete
  rw [h.start, h.addr, BitVec.add_comm, BitVec.add_sub_cancel, BitVec.toNat_setWidth, BitVec.toNat_ofNat,
    Nat.mod_eq_of_lt (by omega : d < 2 ^ 64), Nat.mod_eq_of_lt (by omega)]

end At

/-- The loop ends, and its chunks split the region exactly. -/
theorem chunks_exact (startAddr : BitVec 64) (totalSize chunkSize : BitVec 32)
    (h : chunkSize = 0 ∨ ∃ k, chunkSize.toNat = 2 ^ k) :
    ∃ gen fuel gens, ChunkGenerator.new startAddr totalSize chunkSize = some gen ∧ gen.loop fuel = some gens ∧
      Exact startAddr totalSize chunkSize gens := by
  obtain ⟨gen, hnew, hdone, hat⟩ := @At.new startAddr totalSize chunkSize h
  by_cases htotal : totalSize = 0
  · refine ⟨gen, 1, [], hnew, ?_, ?_⟩
    · rw [ChunkGenerator.loop, hdone htotal, if_pos rfl]
    · constructor
      · rw [htotal]
        rfl
      · exact fun _ hmem => absurd hmem List.not_mem_nil
      · exact fun before _ _ heq => by cases before <;> cases heq
      · exact fun _ _ hmem => absurd hmem List.not_mem_nil
      · exact fun before _ _ heq => by cases before <;> cases heq
      · exact fun before _ _ heq => by cases before <;> cases heq
  · obtain ⟨fuel, gens, hloop, hsum, hgens⟩ := At.loop h _ 0 gen (Nat.lt_succ_self _) (hat htotal)
    simp only [Nat.zero_add] at hsum hgens
    have hmem : ∀ gen ∈ gens, ∃ d, At startAddr totalSize chunkSize d gen := by
      intro gen hgen
      obtain ⟨before, after, heq⟩ := List.append_of_mem hgen
      exact ⟨_, (hgens before gen after heq).1⟩
    refine ⟨gen, fuel, gens, hnew, hloop, ?_⟩
    constructor
    · exact hsum
    · intro gen hgen
      obtain ⟨d, hd⟩ := hmem gen hgen
      exact hd.pos
    · exact fun before gen after heq => (hgens before gen after heq).1.addr
    · intro hc gen hgen
      obtain ⟨d, hd⟩ := hmem gen hgen
      exact hd.within hc
    · exact fun before gen after heq => (hgens before gen after heq).1.complete
    · exact fun before gen after heq => (hgens before gen after heq).2

/-- A region that runs past the top of the address space. -/
theorem chunks_exact_wrap : ∃ gen fuel gens, ChunkGenerator.new 0xFFFFFFFFFFFFFFFD 10 4 = some gen ∧
    gen.loop fuel = some gens ∧ Exact 0xFFFFFFFFFFFFFFFD 10 4 gens :=
  chunks_exact 0xFFFFFFFFFFFFFFFD 10 4 (.inr ⟨2, rfl⟩)

example : ((ChunkGenerator.new 0xFFFFFFFFFFFFFFFD 10 4).bind (·.loop 4)).map (·.map fun gen => (gen.addr, gen.size)) =
    some [(0xFFFFFFFFFFFFFFFD, 3), (0, 4), (4, 3)] := by decide

end Alpine.Base
