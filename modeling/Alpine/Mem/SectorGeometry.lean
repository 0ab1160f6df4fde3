import Alpine.Lib.BitField
import Alpine.Mem.StackDistGrow

/-!
# The geometry of sectored tags (`mem/cache/tags/sector_tags.cc`)

An address is a tag, the number of a set, the offset of a block in its sector, and the offset of a byte in its
block.

* `Geometry` — the parameters that the constructor accepts, and the shifts it computes.
* `extractTag`, `extractSet`, `extractSectorOffset`, `regenerateAddr` as in the source.
* `regenerateAddr_iff` — the address regenerated from a tag, a set and an offset is the line of an address
  exactly if these are what is extracted from it.
-/

namespace Alpine.Mem.Sector

open StackDist (isPowerOf2 isPowerOf2_iff)

/-- The parameters of `SectorTags`, with the checks of the constructor. -/
structure Geometry where
  size : Nat
  blkSize : Nat
  assoc : Nat
  numBlocksPerSector : Nat
  size_lt : size < 2 ^ 32
  blkSize_ok : 4 ≤ blkSize ∧ blkSize < 2 ^ 32 ∧ isPowerOf2 blkSize = true
  numSets_ok : isPowerOf2 (size / blkSize / numBlocksPerSector / assoc) = true
  numBlocksPerSector_ok : numBlocksPerSector < 2 ^ 32 ∧ isPowerOf2 numBlocksPerSector = true
  assoc_pos : 0 < assoc

namespace Geometry

variable (g : Geometry)

def numBlocks : Nat := g.size / g.blkSize

def numSectors : Nat := g.numBlocks / g.numBlocksPerSector

def numSets : Nat := g.numSectors / g.assoc

/-- `floorLog2(blkSize)`, and so on. -/
def sectorShift : Nat := Nat.log2 g.blkSize

def setShift : Nat := g.sectorShift + Nat.log2 g.numBlocksPerSector

def tagShift : Nat := g.setShift + Nat.log2 g.numSets

/-! ## What the checks say -/

theorem log2_of_isPowerOf2 {n : Nat} (hn : n < 2 ^ 64) (h : isPowerOf2 n = true) : n = 2 ^ Nat.log2 n := by
  obtain ⟨k, rfl⟩ := (isPowerOf2_iff hn).1 h
  rw [Nat.log2_two_pow]

theorem blkSize_eq : g.blkSize = 2 ^ g.sectorShift :=
  log2_of_isPowerOf2 (g.blkSize_ok.2.1.trans (by decide)) g.blkSize_ok.2.2

theorem numBlocksPerSector_eq : g.numBlocksPerSector = 2 ^ Nat.log2 g.numBlocksPerSector :=
  log2_of_isPowerOf2 (g.numBlocksPerSector_ok.1.trans (by decide)) g.numBlocksPerSector_ok.2

theorem numSets_le : g.numSets ≤ g.size :=
  (Nat.div_le_self _ _).trans ((Nat.div_le_self _ _).trans (Nat.div_le_self _ _))

theorem numSets_eq : g.numSets = 2 ^ Nat.log2 g.numSets :=
  log2_of_isPowerOf2 (g.numSets_le.trans_lt (g.size_lt.trans (by decide))) g.numSets_ok

theorem setShift_eq : 2 ^ g.setShift = g.blkSize * g.numBlocksPerSector := by
  unfold setShift
  rw [Nat.pow_add, ← g.blkSize_eq, ← g.numBlocksPerSector_eq]

theorem tagShift_eq : 2 ^ g.tagShift = 2 ^ g.setShift * g.numSets := by
  unfold tagShift
  rw [Nat.pow_add, ← g.numSets_eq]

/-- The sets cover no more than the cache, so all shifts are of fewer than 32 bits. -/
theorem tagShift_lt : g.tagShift < 32 := by
  have hle : 2 ^ g.tagShift ≤ g.size := by
    rw [g.tagShift_eq, g.setShift_eq]
    calc g.blkSize * g.numBlocksPerSector * g.numSets
        ≤ g.blkSize * g.numBlocksPerSector * g.numSectors := Nat.mul_le_mul_left _ (Nat.div_le_self _ _)
      _ = g.blkSize * (g.numBlocksPerSector * (g.numBlocks / g.numBlocksPerSector)) := Nat.mul_assoc _ _ _
      _ ≤ g.blkSize * g.numBlocks := Nat.mul_le_mul_left _ (Nat.mul_div_le _ _)
      _ ≤ g.size := Nat.mul_div_le _ _
  exact (Nat.pow_lt_pow_iff_right (by decide)).1 (hle.trans_lt g.size_lt)

/-! ## The parts of an address -/

def extractTag (addr : Nat) : Nat := addr >>> g.tagShift

/-- Masking keeps a number below one more than the mask. -/
theorem mask_lt {n : Nat} (h : 0 < n) (a : Nat) : a &&& (n - 1) < n := by
  have hle : a &&& (n - 1) ≤ n - 1 := Nat.and_le_right
  omega

theorem numSets_pos : 0 < g.numSets := by
  rw [g.numSets_eq]
  exact Nat.two_pow_pos _

theorem numBlocksPerSector_pos : 0 < g.numBlocksPerSector := by
  rw [g.numBlocksPerSector_eq]
  exact Nat.two_pow_pos _

/-- `setMask` is `numSets - 1`. -/
def extractSet (addr : Nat) : Fin g.numSets :=
  ⟨(addr >>> g.setShift) &&& (g.numSets - 1), mask_lt g.numSets_pos _⟩

/-- `sectorMask` is `numBlocksPerSector - 1`. -/
def extractSectorOffset (addr : Nat) : Fin g.numBlocksPerSector :=
  ⟨(addr >>> g.sectorShift) &&& (g.numBlocksPerSector - 1), mask_lt g.numBlocksPerSector_pos _⟩

/-- `regenerateBlkAddr` of a block with this tag, set and sector offset. -/
def regenerateAddr (tag set offset : Nat) : Nat :=
  ((tag <<< g.tagShift) ||| (set <<< g.setShift) ||| (offset <<< g.sectorShift)) % 2 ^ 64

/-- The line of an address: the address of its block. -/
def line (addr : Nat) : Nat := addr >>> g.sectorShift <<< g.sectorShift

theorem extractTag_eq (addr : Nat) :
    g.extractTag addr = addr / 2 ^ g.sectorShift / g.numBlocksPerSector / g.numSets := by
  unfold extractTag
  rw [Nat.shiftRight_eq_div_pow, g.tagShift_eq, g.setShift_eq, Nat.div_div_eq_div_mul, Nat.div_div_eq_div_mul,
    ← g.blkSize_eq, Nat.mul_assoc]

theorem extractSet_eq (addr : Nat) :
    (g.extractSet addr).val = addr / 2 ^ g.sectorShift / g.numBlocksPerSector % g.numSets := by
  show (addr >>> g.setShift) &&& (g.numSets - 1) = _
  rw [Nat.shiftRight_eq_div_pow, g.setShift_eq, Nat.div_div_eq_div_mul, ← g.blkSize_eq]
  conv_lhs => rw [g.numSets_eq, Nat.and_two_pow_sub_one_eq_mod, ← g.numSets_eq]

theorem extractSectorOffset_eq (addr : Nat) :
    (g.extractSectorOffset addr).val = addr / 2 ^ g.sectorShift % g.numBlocksPerSector := by
  show (addr >>> g.sectorShift) &&& (g.numBlocksPerSector - 1) = _
  rw [Nat.shiftRight_eq_div_pow]
  conv_lhs => rw [g.numBlocksPerSector_eq, Nat.and_two_pow_sub_one_eq_mod, ← g.numBlocksPerSector_eq]

/-- A field above a lower one: their bits do not overlap, and the upper one bounds both. -/
theorem shift_or (low : Nat) {hi lo k : Nat} (hlo : lo < 2 ^ low) (hhi : hi < 2 ^ k) :
    hi <<< low ||| lo = hi * 2 ^ low + lo ∧ hi * 2 ^ low + lo < 2 ^ (low + k) := by
  refine ⟨?_, BitField.low_lt hhi hlo⟩
  rw [← Nat.shiftLeft_add_eq_or_of_lt hlo, Nat.shiftLeft_eq]

/-- The parts of a regenerated address do not overlap, and it does not wrap. -/
theorem regenerateAddr_eq {a : Nat} (ha : a < 2 ^ 64) (set : Fin g.numSets)
    (offset : Fin g.numBlocksPerSector) : g.regenerateAddr (g.extractTag a) set offset =
      ((g.extractTag a * g.numSets + set) * g.numBlocksPerSector + offset) * 2 ^ g.sectorShift := by
  have hoff : offset.val < 2 ^ Nat.log2 g.numBlocksPerSector := g.numBlocksPerSector_eq ▸ offset.isLt
  have hset : set.val < 2 ^ Nat.log2 g.numSets := g.numSets_eq ▸ set.isLt
  have hT : g.tagShift + (64 - g.tagShift) = 64 := Nat.add_sub_cancel' (by have := g.tagShift_lt; omega)
  have htag : g.extractTag a < 2 ^ (64 - g.tagShift) := by
    unfold extractTag
    rw [Nat.shiftRight_eq_div_pow, Nat.div_lt_iff_lt_mul (Nat.two_pow_pos _), ← Nat.pow_add, Nat.add_comm, hT]
    exact ha
  obtain ⟨hlow, hlow_lt⟩ := shift_or g.sectorShift (Nat.two_pow_pos _) hoff
  rw [Nat.or_zero, Nat.add_zero] at hlow
  rw [Nat.add_zero] at hlow_lt
  obtain ⟨hmid, hmid_lt⟩ := shift_or g.setShift hlow_lt hset
  obtain ⟨hall, hall_lt⟩ := shift_or g.tagShift hmid_lt htag
  rw [hT] at hall_lt
  unfold regenerateAddr
  rw [Nat.or_assoc, hlow, hmid, hall, Nat.mod_eq_of_lt hall_lt, g.tagShift_eq, g.setShift_eq, ← g.blkSize_eq]
  ring

/-- **Regeneration inverts the extraction**, whatever the geometry. -/
theorem regenerateAddr_iff {a a' : Nat} (ha : a < 2 ^ 64) (set : Fin g.numSets)
    (offset : Fin g.numBlocksPerSector) : g.regenerateAddr (g.extractTag a) set offset = g.line a' ↔
      g.extractTag a = g.extractTag a' ∧ set = g.extractSet a' ∧ offset = g.extractSectorOffset a' := by
  rw [g.regenerateAddr_eq ha, line, Nat.shiftRight_eq_div_pow, Nat.shiftLeft_eq,
    Nat.mul_left_inj (Nat.two_pow_pos _).ne', Fin.ext_iff, Fin.ext_iff, g.extractTag_eq a',
    g.extractSet_eq a', g.extractSectorOffset_eq a']
  generalize g.extractTag a = tag
  generalize a' / 2 ^ g.sectorShift = q
  have hset := set.isLt
  have hoff := offset.isLt
  constructor
  · rintro rfl
    have hq : ((tag * g.numSets + set) * g.numBlocksPerSector + offset) / g.numBlocksPerSector =
        tag * g.numSets + set := by
      rw [Nat.mul_comm, Nat.mul_add_div g.numBlocksPerSector_pos, Nat.div_eq_of_lt hoff, Nat.add_zero]
    refine ⟨?_, ?_, ?_⟩
    · rw [hq, Nat.mul_comm tag, Nat.mul_add_div g.numSets_pos, Nat.div_eq_of_lt hset, Nat.add_zero]
    · rw [hq, Nat.mul_comm tag, Nat.mul_add_mod, Nat.mod_eq_of_lt hset]
    · rw [Nat.mul_comm, Nat.mul_add_mod, Nat.mod_eq_of_lt hoff]
  · rintro ⟨rfl, hs, ho⟩
    rw [hs, ho, Nat.mul_comm _ g.numSets, Nat.div_add_mod, Nat.mul_comm _ g.numBlocksPerSector, Nat.div_add_mod]

/-- A regenerated address is that of a line. -/
theorem line_regenerateAddr {a : Nat} (ha : a < 2 ^ 64) (set : Fin g.numSets) (offset : Fin g.numBlocksPerSector) :
    g.line (g.regenerateAddr (g.extractTag a) set offset) = g.regenerateAddr (g.extractTag a) set offset := by
  rw [g.regenerateAddr_eq ha, line, Nat.shiftRight_eq_div_pow, Nat.shiftLeft_eq,
    Nat.mul_div_cancel _ (Nat.two_pow_pos _)]

end Geometry

end Alpine.Mem.Sector
