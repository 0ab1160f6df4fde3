import Alpine.Base.AddrRangeMerge
import Alpine.Lib.StripeOrder

/-!
# The decoding of DRAM addresses

The controller divides an address into the rank, the bank and the row, after the bits of the column and of
the channel, in one of three orders.

* `Accepted` — the checks of the constructors and of `init`; `decodeAddr` as in the source, with its 8-bit rank
  and bank, `none` for a division by zero or a failed assertion.
* `Decodes` — every burst of the range is decoded in bounds and without truncation, and no rank, bank and row
  get more bursts than a row buffer has columns.
* `Fits` — the bursts of the range are at most as many as the rows have columns, and the banks and ranks that
  they use have 8-bit numbers.
* `decodes_of_fits` — then they are decoded so; `fits_of_decodes` — and only then, if the channels are those of
  the interleaving and a row buffer has whole stripes.
-/

namespace Alpine.Mem.DramDecode

open Alpine.Base Alpine.BitField

inductive AddrMap where
  | RoRaBaChCo
  | RoRaBaCoCh
  | RoCoRaBaCh
deriving DecidableEq

/-- The parameters of the controller that the decoding depends on, and two of the system. -/
structure Params where
  range : AddrRange
  device_bus_width : Nat
  burst_length : Nat
  device_rowbuffer_size : Nat
  devices_per_rank : Nat
  ranks_per_channel : Nat
  bank_groups_per_rank : Nat
  banks_per_rank : Nat
  channels : Nat
  addr_mapping : AddrMap
  cacheLineSize : Nat
  pageBytes : Nat
  words : ∀ n ∈ [device_bus_width, burst_length, device_rowbuffer_size, devices_per_rank, ranks_per_channel,
    bank_groups_per_rank, banks_per_rank, channels], n < 2 ^ 32

structure Slot where
  rank : Nat
  bank : Nat
  row : Nat
deriving DecidableEq

/-- Division and remainder, which are undefined for 0. -/
def udiv (a b : Nat) : Option Nat := if b = 0 then none else some (a / b)

def umod (a b : Nat) : Option Nat := if b = 0 then none else some (a % b)

namespace Params

variable (p : Params)

def burstSize : Nat := p.devices_per_rank * p.burst_length * p.device_bus_width % 2 ^ 32 / 8

def rowBufferSize : Nat := p.devices_per_rank * p.device_rowbuffer_size % 2 ^ 32

def columnsPerRowBuffer : Nat := p.rowBufferSize / p.burstSize

def columnsPerStripe : Nat := if p.range.interleaved then p.range.granularity / p.burstSize % 2 ^ 32 else 1

/-- `ULL(1) << ceilLog2(AbstractMemory::size())`. -/
def capacity : Nat := 2 ^ Nat.clog 2 p.range.size

/-- The size of the rows with one number, a 32-bit product. -/
def rowsSize : Nat := p.rowBufferSize * p.banks_per_rank % 2 ^ 32 * p.ranks_per_channel % 2 ^ 32

def rowsPerBank : Nat := p.capacity / p.rowsSize % 2 ^ 32

/-- The checks of the constructors and of `init`; the divisions and the shift of the constructor are
defined. -/
structure Accepted : Prop where
  pages : p.range.size % p.pageBytes = 0
  ranks : ∃ k, p.ranks_per_channel = 2 ^ k
  burst : ∃ k, p.burstSize = 2 ^ k
  capacity : p.range.size ≠ 0 ∧ Nat.clog 2 p.range.size < 64
  rows : p.rowsSize ≠ 0
  bankGroups : p.bank_groups_per_rank > 0 →
    p.bank_groups_per_rank ≤ p.banks_per_rank ∧ p.banks_per_rank % p.bank_groups_per_rank = 0
  stripes : p.range.interleaved → p.channels = 2 ^ p.range.intlvBits % 2 ^ 32
  rowBuffer : p.range.interleaved → p.addr_mapping = .RoRaBaChCo → p.rowBufferSize = p.range.granularity
  striping : p.range.interleaved → p.addr_mapping ≠ .RoRaBaChCo →
    p.columnsPerStripe ≥ 1 ∧ p.cacheLineSize ≤ p.range.granularity ∧ p.range.granularity ≤ p.rowBufferSize ∧
      p.columnsPerStripe ≤ p.columnsPerRowBuffer

/-- The rank, the bank and the row before they are stored. -/
def decodeWide (dramPktAddr : Nat) : Option Slot := do
  let addr ← udiv dramPktAddr p.burstSize
  match p.addr_mapping with
  | .RoRaBaChCo =>
    let addr ← udiv addr p.columnsPerRowBuffer
    let addr ← udiv addr p.channels
    let bank ← umod addr p.banks_per_rank
    let addr ← udiv addr p.banks_per_rank
    let rank ← umod addr p.ranks_per_channel
    let addr ← udiv addr p.ranks_per_channel
    let row ← umod addr p.rowsPerBank
    pure ⟨rank, bank, row⟩
  | .RoRaBaCoCh =>
    let addr ← udiv addr p.columnsPerStripe
    let addr ← udiv addr p.channels
    let columns ← udiv p.columnsPerRowBuffer p.columnsPerStripe
    let addr ← udiv addr columns
    let bank ← umod addr p.banks_per_rank
    let addr ← udiv addr p.banks_per_rank
    let rank ← umod addr p.ranks_per_channel
    let addr ← udiv addr p.ranks_per_channel
    let row ← umod addr p.rowsPerBank
    pure ⟨rank, bank, row⟩
  | .RoCoRaBaCh =>
    let addr ← udiv addr p.columnsPerStripe
    let addr ← udiv addr p.channels
    let bank ← umod addr p.banks_per_rank
    let addr ← udiv addr p.banks_per_rank
    let rank ← umod addr p.ranks_per_channel
    let addr ← udiv addr p.ranks_per_channel
    let columns ← udiv p.columnsPerRowBuffer p.columnsPerStripe
    let addr ← udiv addr columns
    let row ← umod addr p.rowsPerBank
    pure ⟨rank, bank, row⟩

/-- The rank and the bank are stored in 8 bits; `Bank::NO_ROW` is the last 32-bit number. -/
def decodeAddr (dramPktAddr : Nat) : Option Slot := do
  let wide ← p.decodeWide dramPktAddr
  let slot : Slot := ⟨wide.rank % 256, wide.bank % 256, wide.row⟩
  if slot.rank < p.ranks_per_channel ∧ slot.bank < p.banks_per_rank ∧ slot.row < p.rowsPerBank ∧
      slot.row < 2 ^ 32 - 1 then
    some slot
  else none

/-- The numbers of the bursts of the range. -/
def bursts : Finset Nat :=
  ((Finset.Icc p.range.start p.range.stop).filter fun a => p.range.contains a).image (· / p.burstSize)

/-- The burst with a number is decoded from its first address. -/
def slot (x : Nat) : Option Slot := p.decodeAddr (x * p.burstSize)

structure Decodes : Prop where
  inBounds : ∀ x ∈ p.bursts, ∃ s, p.decodeWide (x * p.burstSize) = some s ∧ p.slot x = some s ∧
    s.rank < p.ranks_per_channel ∧ s.bank < p.banks_per_rank ∧ s.row < p.rowsPerBank
  rows : ∀ s, (p.bursts.filter fun x => p.slot x = some s).card ≤ p.columnsPerRowBuffer

/-- The number of a burst without the bits of the column and of the channel that are below the bank. -/
def bankIndex (x : Nat) : Nat :=
  match p.addr_mapping with
  | .RoRaBaChCo => x / p.columnsPerRowBuffer / p.channels
  | .RoRaBaCoCh => x / p.columnsPerStripe / p.channels / (p.columnsPerRowBuffer / p.columnsPerStripe)
  | .RoCoRaBaCh => x / p.columnsPerStripe / p.channels

/-- The channels are those of the interleaving. -/
def Interleaving : Prop := p.range.interleaved ∨ p.channels = 1

instance : Decidable p.Interleaving := inferInstanceAs (Decidable (_ ∨ _))

/-- How many bursts there is room for. -/
def room : Nat :=
  let rows := p.banks_per_rank * (p.ranks_per_channel * p.rowsPerBank)
  if p.channels = 0 then 0
  else if p.Interleaving then p.columnsPerStripe * (p.columnsPerRowBuffer / p.columnsPerStripe) * rows
  else if rows = 0 then 0
  else p.columnsPerRowBuffer

/-- The numbers are below 256, or they lie in one round of `n` and are among its first 256. -/
def Small (X : Finset Nat) (f : Nat → Nat) (n : Nat) : Prop := n ≤ 256 ∨ ∃ q, ∀ x ∈ X, q * n ≤ f x ∧ f x < q * n + 256

structure Fits : Prop where
  room : p.bursts.card ≤ p.room
  banks : Small p.bursts p.bankIndex p.banks_per_rank
  ranks : Small p.bursts (p.bankIndex · / p.banks_per_rank) p.ranks_per_channel

/-- A row buffer has whole stripes. -/
def Regular : Prop := p.Interleaving ∧ p.columnsPerStripe ∣ p.columnsPerRowBuffer

variable {p}

/-! ## The decoded slot -/

/-- The divisors of `decodeAddr`. -/
structure Divides (p : Params) : Prop where
  burst : p.burstSize ≠ 0
  columns : p.columnsPerRowBuffer ≠ 0
  channels : p.channels ≠ 0
  banks : p.banks_per_rank ≠ 0
  ranks : p.ranks_per_channel ≠ 0
  rows : p.rowsPerBank ≠ 0
  stripe : p.addr_mapping ≠ .RoRaBaChCo → p.columnsPerStripe ≠ 0 ∧ p.columnsPerRowBuffer / p.columnsPerStripe ≠ 0

/-- The number of a burst above the rank. -/
def rowIndex (p : Params) (x : Nat) : Nat :=
  let addr := p.bankIndex x / p.banks_per_rank / p.ranks_per_channel
  match p.addr_mapping with
  | .RoCoRaBaCh => addr / (p.columnsPerRowBuffer / p.columnsPerStripe)
  | _ => addr

def wideSlot (p : Params) (x : Nat) : Slot where
  rank := p.bankIndex x / p.banks_per_rank % p.ranks_per_channel
  bank := p.bankIndex x % p.banks_per_rank
  row := p.rowIndex x % p.rowsPerBank

theorem udiv_of_ne {a b : Nat} (h : b ≠ 0) : udiv a b = some (a / b) := if_neg h

theorem umod_of_ne {a b : Nat} (h : b ≠ 0) : umod a b = some (a % b) := if_neg h

theorem Divides.decodeWide (h : Divides p) (x : Nat) : p.decodeWide (x * p.burstSize) = some (p.wideSlot x) := by
  obtain ⟨hburst, hcolumns, hchannels, hbanks, hranks, hrows, hstripe⟩ := h
  have haddr : udiv (x * p.burstSize) p.burstSize = some x := by
    rw [udiv_of_ne hburst, Nat.mul_div_cancel _ (Nat.pos_of_ne_zero hburst)]
  cases hmap : p.addr_mapping with
  | RoRaBaChCo =>
    simp only [Params.decodeWide, haddr, hmap, udiv_of_ne hcolumns, udiv_of_ne hchannels, udiv_of_ne hbanks,
      udiv_of_ne hranks, umod_of_ne hbanks, umod_of_ne hranks, umod_of_ne hrows, Option.bind_eq_bind,
      Option.bind_some, wideSlot, rowIndex, bankIndex]
    rfl
  | RoRaBaCoCh =>
    obtain ⟨hD, hK⟩ := hstripe (by rw [hmap]; nofun)
    simp only [Params.decodeWide, haddr, hmap, udiv_of_ne hD, udiv_of_ne hK, udiv_of_ne hchannels, udiv_of_ne hbanks,
      udiv_of_ne hranks, umod_of_ne hbanks, umod_of_ne hranks, umod_of_ne hrows, Option.bind_eq_bind,
      Option.bind_some, wideSlot, rowIndex, bankIndex]
    rfl
  | RoCoRaBaCh =>
    obtain ⟨hD, hK⟩ := hstripe (by rw [hmap]; nofun)
    simp only [Params.decodeWide, haddr, hmap, udiv_of_ne hD, udiv_of_ne hK, udiv_of_ne hchannels, udiv_of_ne hbanks,
      udiv_of_ne hranks, umod_of_ne hbanks, umod_of_ne hranks, umod_of_ne hrows, Option.bind_eq_bind,
      Option.bind_some, wideSlot, rowIndex, bankIndex]
    rfl

theorem udiv_ne {a b c : Nat} (h : udiv a b = some c) : b ≠ 0 := fun hb => by simp [udiv, hb] at h

theorem umod_ne {a b c : Nat} (h : umod a b = some c) : b ≠ 0 := fun hb => by simp [umod, hb] at h

variable {x : Nat}

/-- A number that is divided by a quotient shows that the quotient is not 0. -/
theorem quotient_ne {a b K y : Nat} (hK : udiv a b = some K) (hy : udiv x K = some y) : a / b ≠ 0 := by
  rw [udiv_of_ne (udiv_ne hK)] at hK
  rw [Option.some.inj hK]
  exact udiv_ne hy

/-- A burst that is decoded shows that the divisors are not 0. -/
theorem divides_of_decodeWide {a : Nat} {s : Slot} (h : p.decodeWide a = some s) : Divides p := by
  unfold Params.decodeWide at h
  cases hmap : p.addr_mapping with
  | RoRaBaChCo =>
    simp only [hmap, Option.bind_eq_bind, Option.bind_eq_some_iff] at h
    obtain ⟨_, hburst, _, hcolumns, _, hchannels, _, hbanks, _, _, _, hranks, _, _, _, hrows, _⟩ := h
    exact ⟨udiv_ne hburst, udiv_ne hcolumns, udiv_ne hchannels, umod_ne hbanks, umod_ne hranks, umod_ne hrows,
      fun hne => absurd hmap hne⟩
  | RoRaBaCoCh =>
    simp only [hmap, Option.bind_eq_bind, Option.bind_eq_some_iff] at h
    obtain ⟨_, hburst, _, hD, _, hchannels, K, hK, _, hv, _, hbanks, _, _, _, hranks, _, _, _, hrows, _⟩ := h
    have hcolumns := quotient_ne hK hv
    exact ⟨udiv_ne hburst, fun h0 => hcolumns (by rw [h0, Nat.zero_div]), udiv_ne hchannels, umod_ne hbanks,
      umod_ne hranks, umod_ne hrows, fun _ => ⟨udiv_ne hD, hcolumns⟩⟩
  | RoCoRaBaCh =>
    simp only [hmap, Option.bind_eq_bind, Option.bind_eq_some_iff] at h
    obtain ⟨_, hburst, _, hD, _, hchannels, _, hbanks, _, _, _, hranks, _, _, K, hK, _, hv, _, hrows, _⟩ := h
    have hcolumns := quotient_ne hK hv
    exact ⟨udiv_ne hburst, fun h0 => hcolumns (by rw [h0, Nat.zero_div]), udiv_ne hchannels, umod_ne hbanks,
      umod_ne hranks, umod_ne hrows, fun _ => ⟨udiv_ne hD, hcolumns⟩⟩

/-- What is stored is what was computed if the rank and the bank have 8 bits. -/
theorem Divides.slot_iff (h : Divides p) :
    p.slot x = some (p.wideSlot x) ↔ (p.wideSlot x).rank < 256 ∧ (p.wideSlot x).bank < 256 := by
  have hrow : p.rowsPerBank < 2 ^ 32 := Nat.mod_lt _ (by decide)
  have hrank : (p.wideSlot x).rank < p.ranks_per_channel := Nat.mod_lt _ (Nat.pos_of_ne_zero h.ranks)
  have hbank : (p.wideSlot x).bank < p.banks_per_rank := Nat.mod_lt _ (Nat.pos_of_ne_zero h.banks)
  have hrows : (p.wideSlot x).row < p.rowsPerBank := Nat.mod_lt _ (Nat.pos_of_ne_zero h.rows)
  have hlerank := Nat.mod_le (p.wideSlot x).rank 256
  have hlebank := Nat.mod_le (p.wideSlot x).bank 256
  have hslot : p.slot x = some ⟨(p.wideSlot x).rank % 256, (p.wideSlot x).bank % 256, (p.wideSlot x).row⟩ := by
    simp only [Params.slot, Params.decodeAddr, h.decodeWide, Option.bind_eq_bind, Option.bind_some]
    exact if_pos ⟨by omega, by omega, hrows, by omega⟩
  rw [hslot, Option.some.injEq]
  constructor
  · intro heq
    have hr : (p.wideSlot x).rank % 256 = (p.wideSlot x).rank := congrArg Slot.rank heq
    have hb : (p.wideSlot x).bank % 256 = (p.wideSlot x).bank := congrArg Slot.bank heq
    omega
  · rintro ⟨hr, hb⟩
    rw [Nat.mod_eq_of_lt hr, Nat.mod_eq_of_lt hb]

/-! ## The bursts of a range -/

/-- The stripe of an address is the field above its granule, xored with a function of the bits above it. -/
theorem stripe_field {r : AddrRange} (hi : r.interleaved = true) : ∃ (g : Nat) (other : Nat → Nat),
    r.granularity = 2 ^ g ∧ (∀ a, r.stripe a = field g r.intlvBits a ^^^ other a) ∧ (∀ a, other a < 2 ^ r.intlvBits) ∧
        ∀ a b, a / 2 ^ (g + r.intlvBits) = b / 2 ^ (g + r.intlvBits) → other a = other b := by
  obtain ⟨-, hle, -⟩ := r.slice (AddrRange.intlvBits_ne hi)
  unfold AddrRange.granularity
  rw [hi, if_pos rfl]
  by_cases hh : r.hashed = true
  · have hx : r.xorHighBit ≠ 0 := by
      simp only [AddrRange.hashed, Bool.and_eq_true, decide_eq_true_eq] at hh
      exact hh.2
    obtain ⟨-, hxle, hapart⟩ := r.xorSlice (AddrRange.intlvBits_ne hi) hx
    have hstripe : ∀ a, r.stripe a = field (r.intlvHighBit + 1 - r.intlvBits) r.intlvBits a ^^^
        field (r.xorHighBit + 1 - r.intlvBits) r.intlvBits a := by
      intro a
      rw [AddrRange.stripe, if_pos hh, AddrRange.bits_eq_field _ _ _ hle, AddrRange.bits_eq_field _ _ _ hxle]
    rw [if_pos hh]
    rcases hapart with hbelow | habove
    · refine ⟨_, field (r.intlvHighBit + 1 - r.intlvBits) r.intlvBits, rfl, fun a => ?_, fun a => field_lt _ _ _,
        fun a b hab => field_block (by omega) hab⟩
      rw [hstripe, Nat.xor_comm, Nat.min_eq_right (by omega)]
    · refine ⟨_, field (r.xorHighBit + 1 - r.intlvBits) r.intlvBits, rfl, fun a => ?_, fun a => field_lt _ _ _,
        fun a b hab => field_block (by omega) hab⟩
      rw [hstripe, Nat.min_eq_left (by omega)]
  · refine ⟨_, fun _ => 0, by rw [if_neg hh], fun a => ?_, fun _ => Nat.two_pow_pos _, fun _ _ _ => rfl⟩
    rw [AddrRange.stripe, if_neg hh, AddrRange.bits_eq_field _ _ _ hle, Nat.xor_zero]

theorem two_pow_word {n : Nat} (h : 2 ^ n % 2 ^ 32 ≠ 0) : 2 ^ n % 2 ^ 32 = 2 ^ n := by
  by_cases hn : n < 32
  · exact Nat.mod_eq_of_lt (Nat.pow_lt_pow_right (by decide) hn)
  · exact absurd (Nat.mod_eq_zero_of_dvd (Nat.pow_dvd_pow 2 (Nat.not_lt.1 hn))) h

/-- The bursts of the range are the numbers of a stripe in an interval. -/
structure Geometry (p : Params) (d k m : Nat) (other : Nat → Nat) : Prop where
  striped : Striped d k m other
  stripe : p.columnsPerStripe = 2 ^ d
  channels : p.channels = 2 ^ k
  bursts : p.range.start ≤ p.range.stop →
    IsStripe d k m other (p.range.start / p.burstSize) (p.range.stop / p.burstSize) p.bursts

theorem mem_bursts : x ∈ p.bursts ↔
    ∃ a, (p.range.start ≤ a ∧ a ≤ p.range.stop) ∧ p.range.contains a = true ∧ a / p.burstSize = x := by
  simp only [Params.bursts, Finset.mem_image, Finset.mem_filter, Finset.mem_Icc, and_assoc]

/-- A burst between those of the ends has an address in the range. -/
theorem exists_addr (hburst : p.burstSize ≠ 0) (hvalid : p.range.start ≤ p.range.stop)
    (hlo : p.range.start / p.burstSize ≤ x) (hhi : x ≤ p.range.stop / p.burstSize) :
    ∃ a, (p.range.start ≤ a ∧ a ≤ p.range.stop) ∧ a / p.burstSize = x := by
  have hpos := Nat.pos_of_ne_zero hburst
  rcases Nat.lt_or_eq_of_le hlo with hlt | heq
  · refine ⟨x * p.burstSize, ⟨?_, ?_⟩, Nat.mul_div_cancel _ hpos⟩
    · exact ((Nat.div_lt_iff_lt_mul hpos).1 hlt).le
    · exact (Nat.le_div_iff_mul_le hpos).1 hhi
  · exact ⟨p.range.start, ⟨le_refl _, hvalid⟩, heq⟩

theorem geometry_interleaved (h : p.Accepted) (hdiv : Divides p) (hi : p.range.interleaved = true)
    (hD : p.columnsPerStripe ≠ 0) : ∃ d k m other, Geometry p d k m other := by
  obtain ⟨g, other, hg, hstripe, hlt, habove⟩ := stripe_field hi
  obtain ⟨b, hb⟩ := h.burst
  have hch : p.channels = 2 ^ p.range.intlvBits := by
    have hword := h.stripes hi
    rw [two_pow_word (by rw [← hword]; exact hdiv.channels)] at hword
    exact hword
  have hcol : p.columnsPerStripe = p.range.granularity / p.burstSize % 2 ^ 32 := if_pos hi
  have hle : b ≤ g := by
    by_contra hgb
    apply hD
    rw [hcol, hg, hb, Nat.div_eq_of_lt (Nat.pow_lt_pow_right (by decide) (Nat.not_le.1 hgb)), Nat.zero_mod]
  have hdivpow : ∀ a e : Nat, b ≤ e → a / 2 ^ b / 2 ^ (e - b) = a / 2 ^ e := by
    intro a e he
    rw [Nat.div_div_eq_div_mul, ← Nat.pow_add, Nat.add_sub_cancel' he]
  have hstripeD : p.columnsPerStripe = 2 ^ (g - b) := by
    rw [hg, hb, Nat.pow_div hle (by decide)] at hcol
    rw [two_pow_word (by rw [← hcol]; exact hD)] at hcol
    exact hcol
  -- the other bits, of the first address of a burst
  have hother : ∀ a, other (a / 2 ^ b * 2 ^ b) = other a := by
    intro a
    apply habove
    rw [← hdivpow _ _ (by omega : b ≤ g + p.range.intlvBits), Nat.mul_div_cancel _ (Nat.two_pow_pos b),
      hdivpow _ _ (by omega)]
  have hfield : ∀ a, field (g - b) p.range.intlvBits (a / 2 ^ b) = field g p.range.intlvBits a := by
    intro a
    rw [field, hdivpow a g hle, field]
  have hin : ∀ a, InStripe (g - b) p.range.intlvBits p.range.intlvMatch (fun x => other (x * 2 ^ b)) (a / 2 ^ b) ↔
      p.range.stripe a = p.range.intlvMatch := by
    intro a
    unfold InStripe
    simp only [hfield, hother, hstripe]
  refine ⟨g - b, p.range.intlvBits, p.range.intlvMatch, fun x => other (x * 2 ^ b), ⟨?_, fun x => hlt _, ?_⟩, hstripeD,
    hch, fun hvalid x => ?_⟩
  · exact (p.range.slice (AddrRange.intlvBits_ne hi)).2.2
  · intro x y hxy
    apply habove
    rw [← hdivpow _ _ (by omega : b ≤ g + p.range.intlvBits), ← hdivpow (y * 2 ^ b) _ (by omega : b ≤ g + _),
      Nat.mul_div_cancel _ (Nat.two_pow_pos b), Nat.mul_div_cancel _ (Nat.two_pow_pos b)]
    rw [show g + p.range.intlvBits - b = g - b + p.range.intlvBits by omega]
    exact hxy
  · rw [mem_bursts]
    constructor
    · rintro ⟨a, ⟨hlo, hhi⟩, hcontains, rfl⟩
      refine ⟨⟨Nat.div_le_div_right hlo, Nat.div_le_div_right hhi⟩, ?_⟩
      rw [hb]
      exact (hin a).2 (AddrRange.stripe_of_contains hi hcontains)
    · rintro ⟨⟨hlo, hhi⟩, hx⟩
      obtain ⟨a, ha, rfl⟩ := exists_addr hdiv.burst hvalid hlo hhi
      rw [hb] at hx
      exact ⟨a, ha, (AddrRange.contains_iff hi).2 ⟨ha, (hin a).1 hx⟩, rfl⟩

theorem geometry_plain (hdiv : Divides p) (hi : p.range.interleaved = false) (hch : p.channels = 1) :
    Geometry p 0 0 0 fun _ => 0 where
  striped := ⟨by decide, fun _ => by decide, fun _ _ _ => rfl⟩
  stripe := by simp [Params.columnsPerStripe, hi]
  channels := hch
  bursts hvalid x := by
    have hall : InStripe 0 0 0 (fun _ => 0) x := by simp [InStripe, field, Nat.mod_one]
    rw [mem_bursts]
    constructor
    · rintro ⟨a, ⟨hlo, hhi⟩, -, rfl⟩
      exact ⟨⟨Nat.div_le_div_right hlo, Nat.div_le_div_right hhi⟩, hall⟩
    · rintro ⟨⟨hlo, hhi⟩, -⟩
      obtain ⟨a, ha, hax⟩ := exists_addr hdiv.burst hvalid hlo hhi
      exact ⟨a, ha, (AddrRange.contains_plain hi).2 ha, hax⟩

/-! ## The bursts of a row -/

/-- The column of a burst in its row. -/
def column (p : Params) (x : Nat) : Nat :=
  match p.addr_mapping with
  | .RoCoRaBaCh => p.bankIndex x / p.banks_per_rank / p.ranks_per_channel %
      (p.columnsPerRowBuffer / p.columnsPerStripe) * p.columnsPerStripe + x % p.columnsPerStripe
  | _ => x / p.columnsPerStripe / p.channels % (p.columnsPerRowBuffer / p.columnsPerStripe) * p.columnsPerStripe +
      x % p.columnsPerStripe

theorem column_lt (hD : p.columnsPerStripe ≠ 0) (hK : p.columnsPerRowBuffer / p.columnsPerStripe ≠ 0) (x : Nat) :
    p.column x < p.columnsPerRowBuffer := by
  have hlow := Nat.mod_lt x (Nat.pos_of_ne_zero hD)
  have hle := Nat.div_mul_le_self p.columnsPerRowBuffer p.columnsPerStripe
  have hmul : ∀ v, v % (p.columnsPerRowBuffer / p.columnsPerStripe) * p.columnsPerStripe + p.columnsPerStripe ≤
      p.columnsPerRowBuffer / p.columnsPerStripe * p.columnsPerStripe := by
    intro v
    rw [← Nat.succ_mul]
    exact Nat.mul_le_mul_right _ (Nat.mod_lt v (Nat.pos_of_ne_zero hK))
  unfold column
  split
  · have hv := hmul (p.bankIndex x / p.banks_per_rank / p.ranks_per_channel)
    omega
  · have hv := hmul (x / p.columnsPerStripe / p.channels)
    omega

theorem eq_of_mul_add {D q q' r r' : Nat} (hr : r < D) (hr' : r' < D) (h : q * D + r = q' * D + r') :
    q = q' ∧ r = r' := by
  have hdiv := congrArg (· / D) h
  have hmod := congrArg (· % D) h
  have hpos : 0 < D := Nat.lt_of_le_of_lt (Nat.zero_le _) hr
  simp only [Nat.mul_comm _ D, Nat.mul_add_div hpos, Nat.div_eq_of_lt hr, Nat.div_eq_of_lt hr', Nat.add_zero,
    Nat.mul_add_mod, Nat.mod_eq_of_lt hr, Nat.mod_eq_of_lt hr'] at hdiv hmod
  exact ⟨hdiv, hmod⟩

/-- With the column bits below the bank, the bank index is what is above them. -/
theorem bankIndex_eq (h : p.Accepted) (hint : p.Interleaving) (hcolumns : p.columnsPerRowBuffer ≠ 0)
    (hmap : p.addr_mapping ≠ .RoCoRaBaCh) (x : Nat) : p.bankIndex x =
      x / p.columnsPerStripe / p.channels / (p.columnsPerRowBuffer / p.columnsPerStripe) := by
  cases hm : p.addr_mapping with
  | RoRaBaCoCh => simp only [bankIndex, hm]
  | RoCoRaBaCh => exact absurd hm hmap
  | RoRaBaChCo =>
    simp only [bankIndex, hm]
    by_cases hi : p.range.interleaved = true
    · have hword : p.rowBufferSize < 2 ^ 32 := Nat.mod_lt _ (by decide)
      have hsame : p.columnsPerStripe = p.columnsPerRowBuffer := by
        rw [columnsPerStripe, if_pos hi, ← h.rowBuffer hi hm]
        exact Nat.mod_eq_of_lt (Nat.lt_of_le_of_lt (Nat.div_le_self _ _) hword)
      rw [hsame, Nat.div_self (Nat.pos_of_ne_zero hcolumns), Nat.div_one]
    · have hone : p.columnsPerStripe = 1 := if_neg hi
      have hch : p.channels = 1 := hint.resolve_left hi
      rw [hone, hch, Nat.div_one, Nat.div_one, Nat.div_one, Nat.div_one]

/-- A rank, a bank, a row and a column determine a burst, up to the size of all rows. -/
theorem Geometry.cut_mod (h : p.Accepted) (hint : p.Interleaving) (hdiv : Divides p) {d k m : Nat}
    {other : Nat → Nat} (hg : Geometry p d k m other) {y : Nat} (hslot : p.wideSlot x = p.wideSlot y)
    (hcol : p.column x = p.column y) :
    cut d k x % (p.columnsPerStripe * (p.columnsPerRowBuffer / p.columnsPerStripe) *
        (p.banks_per_rank * (p.ranks_per_channel * p.rowsPerBank))) =
      cut d k y % (p.columnsPerStripe * (p.columnsPerRowBuffer / p.columnsPerStripe) *
        (p.banks_per_rank * (p.ranks_per_channel * p.rowsPerBank))) := by
  have hD : 0 < p.columnsPerStripe := by
    rw [hg.stripe]
    exact Nat.two_pow_pos d
  have hlow : ∀ z, cut d k z % p.columnsPerStripe = z % p.columnsPerStripe := by
    intro z
    rw [hg.stripe, BitField.cut_mod]
  have hhigh : ∀ z, cut d k z / p.columnsPerStripe = z / p.columnsPerStripe / p.channels := by
    intro z
    rw [hg.stripe, hg.channels, cut_div, Nat.div_div_eq_div_mul, ← Nat.pow_add]
  have hrank : p.bankIndex x / p.banks_per_rank % p.ranks_per_channel = _ := congrArg Slot.rank hslot
  have hbank : p.bankIndex x % p.banks_per_rank = _ := congrArg Slot.bank hslot
  have hrow : p.rowIndex x % p.rowsPerBank = _ := congrArg Slot.row hslot
  have hx := Nat.mod_lt x hD
  have hy := Nat.mod_lt y hD
  by_cases hm : p.addr_mapping = .RoCoRaBaCh
  · -- the column bits are above the rank
    have hidx : ∀ z, p.bankIndex z = z / p.columnsPerStripe / p.channels := by
      intro z
      simp only [bankIndex, hm]
    simp only [column, hm] at hcol
    simp only [rowIndex, hm] at hrow
    obtain ⟨hK, hl⟩ := eq_of_mul_add hx hy hcol
    have hcomm : p.columnsPerStripe * (p.columnsPerRowBuffer / p.columnsPerStripe) *
        (p.banks_per_rank * (p.ranks_per_channel * p.rowsPerBank)) =
      p.columnsPerStripe * (p.banks_per_rank * (p.ranks_per_channel *
        (p.columnsPerRowBuffer / p.columnsPerStripe * p.rowsPerBank))) := by ring
    rw [hcomm]
    simp only [Nat.mod_mul, hlow, hhigh, ← hidx, hl, hbank, hrank, hK, hrow]
    simp only [wideSlot, rowIndex, hm]
  · have hidx := bankIndex_eq h hint hdiv.columns hm
    have hcolumn : ∀ z, p.column z = z / p.columnsPerStripe / p.channels %
        (p.columnsPerRowBuffer / p.columnsPerStripe) * p.columnsPerStripe + z % p.columnsPerStripe := by
      intro z
      unfold column
      split
      · exact absurd ‹_› hm
      · rfl
    have hrowIndex : ∀ z, p.rowIndex z = p.bankIndex z / p.banks_per_rank / p.ranks_per_channel := by
      intro z
      unfold rowIndex
      split
      · exact absurd ‹_› hm
      · rfl
    rw [hcolumn, hcolumn] at hcol
    rw [hrowIndex] at hrow
    obtain ⟨hK, hl⟩ := eq_of_mul_add hx hy hcol
    rw [Nat.mul_assoc]
    simp only [Nat.mod_mul, hlow, hhigh, hl, hK, ← hidx, hbank, hrank, hrow]
    simp only [wideSlot, hrowIndex]

theorem Geometry.rows (h : p.Accepted) (hint : p.Interleaving) (hdiv : Divides p) {d k m : Nat}
    {other : Nat → Nat} (hg : Geometry p d k m other) (hvalid : p.range.start ≤ p.range.stop)
    (hroom : p.bursts.card ≤ p.columnsPerStripe * (p.columnsPerRowBuffer / p.columnsPerStripe) *
      (p.banks_per_rank * (p.ranks_per_channel * p.rowsPerBank)))
    (hK : p.columnsPerRowBuffer / p.columnsPerStripe ≠ 0) (s : Slot) :
    (p.bursts.filter fun x => p.wideSlot x = s).card ≤ p.columnsPerRowBuffer := by
  have hX := hg.bursts hvalid
  have hD : p.columnsPerStripe ≠ 0 := by
    rw [hg.stripe]
    exact (Nat.two_pow_pos d).ne'
  refine card_fiber_le (hg.striped.injOn hX) (fun x hx y hy => ?_) (fun x _ => column_lt hD hK x)
    (fun x _ y _ hslot hcol => hg.cut_mod h hint hdiv hslot hcol) s
  exact Nat.lt_of_lt_of_le (hg.striped.cut_sub_lt_card hX hx hy) (Nat.add_le_add_left hroom _)

/-! ## The 8-bit numbers -/

theorem Small.mod_lt {X : Finset Nat} {f : Nat → Nat} {n : Nat} (h : Small X f n) (hn : n ≠ 0) (hx : x ∈ X) :
    f x % n < 256 := by
  have hmod := Nat.mod_lt (f x) (Nat.pos_of_ne_zero hn)
  rcases h with hle | ⟨q, hq⟩
  · omega
  · by_cases hle : n ≤ 256
    · omega
    · obtain ⟨hlo, hhi⟩ := hq x hx
      obtain ⟨r, hr⟩ := Nat.exists_eq_add_of_le hlo
      rw [hr, Nat.mul_comm, Nat.mul_add_mod, Nat.mod_eq_of_lt (by omega)]
      omega

/-- If the values have no gaps and never leave the first 256 of a round, they are all in one round. -/
theorem small_of_mod_lt {X : Finset Nat} {f : Nat → Nat} {n : Nat}
    (hgap : ∀ x ∈ X, ∀ y ∈ X, ∀ v, f x ≤ v → v ≤ f y → ∃ z ∈ X, f z = v) (hmod : ∀ x ∈ X, f x % n < 256) :
    Small X f n := by
  by_cases hle : n ≤ 256
  · exact Or.inl hle
  have hn : 0 < n := by omega
  have hsame : ∀ x ∈ X, ∀ y ∈ X, f x / n ≤ f y / n := by
    intro x hx y hy
    by_contra hlt
    -- the number 256 of the round of `y` is between them
    have hy' := hmod y hy
    have hsplit := Nat.div_add_mod' (f y) n
    have hnext : f y / n * n + n ≤ f x := by
      rw [← Nat.succ_mul]
      exact (Nat.le_div_iff_mul_le hn).1 (Nat.not_le.1 hlt)
    obtain ⟨z, hz, hzv⟩ := hgap y hy x hx (f y / n * n + 256) (by omega) (by omega)
    have hzmod := hmod z hz
    rw [hzv, Nat.mul_comm, Nat.mul_add_mod, Nat.mod_eq_of_lt (by omega)] at hzmod
    omega
  rcases X.eq_empty_or_nonempty with rfl | ⟨x, hx⟩
  · exact Or.inr ⟨0, by simp⟩
  · refine Or.inr ⟨f x / n, fun y hy => ?_⟩
    have heq : f y / n = f x / n := Nat.le_antisymm (hsame y hy x hx) (hsame x hx y hy)
    have hsplit := Nat.div_add_mod' (f y) n
    have hlt := hmod y hy
    rw [heq] at hsplit
    omega

/-- The quotients of values without gaps have no gaps. -/
theorem gap_div {X : Finset Nat} {f : Nat → Nat} {n : Nat} (hn : 0 < n)
    (hgap : ∀ x ∈ X, ∀ y ∈ X, ∀ v, f x ≤ v → v ≤ f y → ∃ z ∈ X, f z = v) :
    ∀ x ∈ X, ∀ y ∈ X, ∀ v, f x / n ≤ v → v ≤ f y / n → ∃ z ∈ X, f z / n = v := by
  intro x hx y hy v hlo hhi
  rcases Nat.lt_or_eq_of_le hlo with hlt | rfl
  · have hle : v * n ≤ f y := (Nat.le_div_iff_mul_le hn).1 hhi
    have hge : f x ≤ v * n := ((Nat.div_lt_iff_lt_mul hn).1 hlt).le
    obtain ⟨z, hz, hzv⟩ := hgap x hx y hy (v * n) hge hle
    exact ⟨z, hz, by rw [hzv, Nat.mul_div_cancel _ hn]⟩
  · exact ⟨x, hx, rfl⟩

theorem Geometry.gap (h : p.Accepted) (hint : p.Interleaving) (hdiv : Divides p) {d k m : Nat}
    {other : Nat → Nat} (hg : Geometry p d k m other) (hvalid : p.range.start ≤ p.range.stop)
    (hK : 0 < p.columnsPerRowBuffer / p.columnsPerStripe) :
    ∀ x ∈ p.bursts, ∀ y ∈ p.bursts, ∀ v, p.bankIndex x ≤ v → v ≤ p.bankIndex y →
      ∃ z ∈ p.bursts, p.bankIndex z = v := by
  have hX := hg.bursts hvalid
  have hcut := gap_div (Nat.two_pow_pos d) fun x hx y hy v hlo hhi => hg.striped.exists_cut hX hx hy hlo hhi
  have hhigh : ∀ z, cut d k z / 2 ^ d = z / p.columnsPerStripe / p.channels := by
    intro z
    rw [hg.stripe, hg.channels, cut_div, Nat.div_div_eq_div_mul, ← Nat.pow_add]
  simp only [hhigh] at hcut
  by_cases hm : p.addr_mapping = .RoCoRaBaCh
  · simpa only [bankIndex, hm] using hcut
  · have hidx := bankIndex_eq h hint hdiv.columns hm
    simp only [hidx]
    exact gap_div hK hcut

/-! ## Decoding without aliases -/

theorem stripe_ne (h : p.Accepted) (hdiv : Divides p) :
    p.columnsPerStripe ≠ 0 ∧ p.columnsPerRowBuffer / p.columnsPerStripe ≠ 0 := by
  by_cases hm : p.addr_mapping = .RoRaBaChCo
  · by_cases hi : p.range.interleaved = true
    · have hword : p.rowBufferSize < 2 ^ 32 := Nat.mod_lt _ (by decide)
      have hsame : p.columnsPerStripe = p.columnsPerRowBuffer := by
        rw [columnsPerStripe, if_pos hi, ← h.rowBuffer hi hm]
        exact Nat.mod_eq_of_lt (Nat.lt_of_le_of_lt (Nat.div_le_self _ _) hword)
      rw [hsame, Nat.div_self (Nat.pos_of_ne_zero hdiv.columns)]
      exact ⟨hdiv.columns, one_ne_zero⟩
    · have hone : p.columnsPerStripe = 1 := if_neg hi
      rw [hone, Nat.div_one]
      exact ⟨one_ne_zero, hdiv.columns⟩
  · exact hdiv.stripe hm

theorem exists_geometry (h : p.Accepted) (hint : p.Interleaving) (hdiv : Divides p) :
    ∃ d k m other, Geometry p d k m other := by
  by_cases hi : p.range.interleaved = true
  · exact geometry_interleaved h hdiv hi (stripe_ne h hdiv).1
  · exact ⟨_, _, _, _, geometry_plain hdiv (Bool.eq_false_iff.2 hi) (hint.resolve_left hi)⟩

theorem valid_of_mem (hx : x ∈ p.bursts) : p.range.start ≤ p.range.stop := by
  obtain ⟨a, ⟨hlo, hhi⟩, -⟩ := mem_bursts.1 hx
  exact hlo.trans hhi

theorem divides_of_room (h : p.Accepted) (hroom : p.room ≠ 0) : Divides p := by
  obtain ⟨b, hb⟩ := h.burst
  have hburst : p.burstSize ≠ 0 := by
    rw [hb]
    exact (Nat.two_pow_pos b).ne'
  unfold room at hroom
  by_cases hch : p.channels = 0
  · exact absurd (if_pos hch) hroom
  · simp only [hch, if_false] at hroom
    by_cases hint : p.Interleaving
    · simp only [hint, if_true, ne_eq, Nat.mul_eq_zero, not_or] at hroom
      obtain ⟨⟨hD, hK⟩, hbanks, hranks, hrows⟩ := hroom
      exact ⟨hburst, fun h0 => hK (by rw [h0, Nat.zero_div]), hch, hbanks, hranks, hrows, fun _ => ⟨hD, hK⟩⟩
    · have hi : ¬ p.range.interleaved = true := fun hi => hint (Or.inl hi)
      have hone : p.columnsPerStripe = 1 := if_neg hi
      simp only [hint, if_false] at hroom
      by_cases hrows : p.banks_per_rank * (p.ranks_per_channel * p.rowsPerBank) = 0
      · exact absurd (if_pos hrows) hroom
      · simp only [hrows, if_false] at hroom
        simp only [Nat.mul_eq_zero, not_or] at hrows
        refine ⟨hburst, hroom, hch, hrows.1, hrows.2.1, hrows.2.2, fun _ => ?_⟩
        rw [hone, Nat.div_one]
        exact ⟨one_ne_zero, hroom⟩

/-- **The bursts of a range that fits are decoded in bounds, without truncation and without aliases.** -/
theorem decodes_of_fits (h : p.Accepted) (hfits : p.Fits) : p.Decodes := by
  rcases p.bursts.eq_empty_or_nonempty with hempty | ⟨x0, hx0⟩
  · exact ⟨by simp [hempty], by simp [hempty]⟩
  have hroom : p.room ≠ 0 := by
    have hpos := Finset.card_pos.2 ⟨x0, hx0⟩
    have hle := hfits.room
    omega
  have hdiv := divides_of_room h hroom
  have hslot : ∀ x ∈ p.bursts, p.slot x = some (p.wideSlot x) := fun x hx =>
    hdiv.slot_iff.2 ⟨hfits.ranks.mod_lt hdiv.ranks hx, hfits.banks.mod_lt hdiv.banks hx⟩
  refine ⟨fun x hx => ⟨p.wideSlot x, hdiv.decodeWide x, hslot x hx, ?_, ?_, ?_⟩, fun s => ?_⟩
  · exact Nat.mod_lt _ (Nat.pos_of_ne_zero hdiv.ranks)
  · exact Nat.mod_lt _ (Nat.pos_of_ne_zero hdiv.banks)
  · exact Nat.mod_lt _ (Nat.pos_of_ne_zero hdiv.rows)
  · have hsame : (p.bursts.filter fun x => p.slot x = some s) = p.bursts.filter fun x => p.wideSlot x = s := by
      apply Finset.filter_congr
      intro x hx
      rw [hslot x hx, Option.some.injEq]
    rw [hsame]
    by_cases hint : p.Interleaving
    · obtain ⟨d, k, m, other, hg⟩ := exists_geometry h hint hdiv
      refine hg.rows h hint hdiv (valid_of_mem hx0) ?_ (stripe_ne h hdiv).2 s
      have hle := hfits.room
      simpa only [room, hdiv.channels, if_false, hint, if_true] using hle
    · refine (Finset.card_filter_le _ _).trans (hfits.room.trans ?_)
      simp only [room, hdiv.channels, hint, if_false]
      split
      · exact Nat.zero_le _
      · exact le_refl _

theorem card_le_of_rows (hdecodes : p.Decodes) :
    p.bursts.card ≤ p.columnsPerRowBuffer * (p.banks_per_rank * (p.ranks_per_channel * p.rowsPerBank)) := by
  let slots : Finset Slot := (Finset.range p.banks_per_rank ×ˢ
    (Finset.range p.ranks_per_channel ×ˢ Finset.range p.rowsPerBank)).image fun t => ⟨t.2.1, t.1, t.2.2⟩
  have hmaps : ∀ x ∈ p.bursts, p.slot x ∈ slots.image some := by
    intro x hx
    obtain ⟨s, _, hs, hrank, hbank, hrow⟩ := hdecodes.inBounds x hx
    refine Finset.mem_image.2 ⟨s, Finset.mem_image.2 ⟨(s.bank, s.rank, s.row), ?_, rfl⟩, hs.symm⟩
    simp only [Finset.mem_product, Finset.mem_range]
    exact ⟨hbank, hrank, hrow⟩
  have hcard := Finset.card_le_mul_card_image_of_maps_to hmaps p.columnsPerRowBuffer fun s hs => by
    obtain ⟨t, _, rfl⟩ := Finset.mem_image.1 hs
    exact hdecodes.rows t
  refine hcard.trans (Nat.mul_le_mul_left _ (Finset.card_image_le.trans (Finset.card_image_le.trans ?_)))
  simp only [Finset.card_product, Finset.card_range, le_refl]

/-- **Only a range that fits is decoded so.** -/
theorem fits_of_decodes (h : p.Accepted) (hreg : p.Regular) (hdecodes : p.Decodes) : p.Fits := by
  obtain ⟨hint, hwhole⟩ := hreg
  rcases p.bursts.eq_empty_or_nonempty with hempty | ⟨x0, hx0⟩
  · exact ⟨by simp [hempty], Or.inr ⟨0, by simp [hempty]⟩, Or.inr ⟨0, by simp [hempty]⟩⟩
  obtain ⟨s0, hwide, -⟩ := hdecodes.inBounds x0 hx0
  have hdiv := divides_of_decodeWide hwide
  obtain ⟨d, k, m, other, hg⟩ := exists_geometry h hint hdiv
  have hbytes : ∀ x ∈ p.bursts, (p.wideSlot x).rank < 256 ∧ (p.wideSlot x).bank < 256 := by
    intro x hx
    obtain ⟨s, hs, hslot, -⟩ := hdecodes.inBounds x hx
    rw [hdiv.decodeWide] at hs
    rw [← Option.some.inj hs] at hslot
    exact hdiv.slot_iff.1 hslot
  have hgap := hg.gap h hint hdiv (valid_of_mem hx0) (Nat.pos_of_ne_zero (stripe_ne h hdiv).2)
  refine ⟨?_, small_of_mod_lt hgap fun x hx => (hbytes x hx).2,
    small_of_mod_lt (gap_div (Nat.pos_of_ne_zero hdiv.banks) hgap) fun x hx => (hbytes x hx).1⟩
  simp only [room, hdiv.channels, hint, if_false, if_true]
  rw [Nat.mul_div_cancel' hwhole]
  exact card_le_of_rows hdecodes

/-- **Rows are not aliased exactly when the bursts of the range fit in them:** this is always enough, and it is
needed if the channels are those of the interleaving and a row buffer has whole stripes. -/
theorem decodes_iff (h : p.Accepted) : (p.Fits → p.Decodes) ∧ (p.Regular → (p.Decodes ↔ p.Fits)) :=
  ⟨decodes_of_fits h, fun hreg => ⟨fits_of_decodes h hreg, decodes_of_fits h⟩⟩

/-! ## Four channels -/

/-- An interval of whole blocks has at most this many bursts. -/
theorem fits_of_blocks (h : p.Accepted) (hint : p.Interleaving) (hdiv : Divides p)
    (hvalid : p.range.start ≤ p.range.stop) (hbanks : p.banks_per_rank ≤ 256) (hranks : p.ranks_per_channel ≤ 256)
    (hblocks : (p.range.stop / p.burstSize / (p.columnsPerStripe * p.channels) + 1 -
      p.range.start / p.burstSize / (p.columnsPerStripe * p.channels)) * p.columnsPerStripe ≤ p.room) : p.Fits := by
  obtain ⟨d, k, m, other, hg⟩ := exists_geometry h hint hdiv
  have hcard := hg.striped.card_le (hg.bursts hvalid)
  rw [Nat.pow_add, ← hg.stripe, ← hg.channels] at hcard
  exact ⟨hcard.trans hblocks, Or.inl hbanks, Or.inl hranks⟩

/-- One of four hashed stripes of 4 GiB, in two ranks of eight banks with rows of 8 KiB. -/
def fourChannels : Params where
  range := { start := 0, stop := 2 ^ 32 - 1, intlvHighBit := 8, xorHighBit := 20, intlvBits := 2, intlvMatch := 1,
             fits := by decide, slice := by decide, xorSlice := by decide }
  device_bus_width := 8
  burst_length := 8
  device_rowbuffer_size := 1024
  devices_per_rank := 8
  ranks_per_channel := 2
  bank_groups_per_rank := 0
  banks_per_rank := 8
  channels := 4
  addr_mapping := .RoRaBaCoCh
  cacheLineSize := 64
  pageBytes := 4096
  words := by decide

theorem fourChannels_size : fourChannels.range.size = 2 ^ 30 := by decide

theorem fourChannels_clog : Nat.clog 2 fourChannels.range.size = 30 := by
  rw [fourChannels_size, Nat.clog_pow _ _ (by decide)]

theorem fourChannels_rows : fourChannels.rowsPerBank = 8192 := by
  rw [rowsPerBank, Params.capacity, fourChannels_clog]
  decide

theorem decodes_iff_fourChannels : fourChannels.Decodes := by
  have hacc : fourChannels.Accepted :=
    ⟨by decide, ⟨1, by decide⟩, ⟨6, by decide⟩, ⟨by decide, by rw [fourChannels_clog]; decide⟩, by decide, nofun,
      fun _ => by decide, fun _ => nofun, fun _ _ => by decide⟩
  have hdiv : Divides fourChannels := ⟨by decide, by decide, by decide, by decide, by decide,
    by rw [fourChannels_rows]; decide, fun _ => by decide⟩
  refine (decodes_iff hacc).1 (fits_of_blocks hacc (Or.inl (by decide)) hdiv (by decide) (by decide) (by decide) ?_)
  rw [room, fourChannels_rows]
  decide

/-! ## Three banks -/

/-- A capacity of 4 KiB in three banks of 21 rows, which are 64 bytes too small. -/
def threeBanks : Params where
  range := { start := 0, stop := 4095, fits := by decide, slice := AddrRange.plain_slice, xorSlice := AddrRange.plain_xorSlice }
  device_bus_width := 8
  burst_length := 8
  device_rowbuffer_size := 64
  devices_per_rank := 1
  ranks_per_channel := 1
  bank_groups_per_rank := 0
  banks_per_rank := 3
  channels := 1
  addr_mapping := .RoRaBaCoCh
  cacheLineSize := 64
  pageBytes := 4096
  words := by decide

theorem threeBanks_clog : Nat.clog 2 threeBanks.range.size = 12 := by
  rw [show threeBanks.range.size = 2 ^ 12 by decide, Nat.clog_pow _ _ (by decide)]

/-- **Three banks alias:** nine bursts of eight columns are in row 0 of bank 0, eight at the start of the range
and one of the last row, which is row 21 of 21. -/
theorem threeBanks_aliases : threeBanks.Accepted ∧ threeBanks.columnsPerRowBuffer = 8 ∧
    (∀ x ∈ [0, 1, 2, 3, 4, 5, 6, 7, 504], x ∈ threeBanks.bursts ∧ threeBanks.slot x = some ⟨0, 0, 0⟩) ∧
      ¬ threeBanks.Decodes := by
  have hrows : threeBanks.rowsPerBank = 21 := by
    rw [rowsPerBank, Params.capacity, threeBanks_clog]
    decide
  have hdiv : Divides threeBanks := ⟨by decide, by decide, by decide, by decide, by decide,
    by rw [hrows]; decide, fun _ => by decide⟩
  have hacc : threeBanks.Accepted := ⟨by decide, ⟨0, by decide⟩, ⟨3, by decide⟩,
    ⟨by decide, by rw [threeBanks_clog]; decide⟩, by decide, nofun, nofun, nofun, nofun⟩
  have hall : ∀ x ∈ [0, 1, 2, 3, 4, 5, 6, 7, 504],
      x ∈ threeBanks.bursts ∧ threeBanks.slot x = some ⟨0, 0, 0⟩ := by
    intro x hx
    have hwide : threeBanks.wideSlot x = ⟨0, 0, 0⟩ := by
      rw [wideSlot, hrows]
      revert x
      decide
    have hmem : x ≤ 511 := by
      revert x
      decide
    refine ⟨mem_bursts.2 ⟨x * 8, ⟨Nat.zero_le _, show x * 8 ≤ 4095 by omega⟩, ?_, Nat.mul_div_cancel _ (by decide)⟩, ?_⟩
    · exact (AddrRange.contains_plain rfl).2 ⟨Nat.zero_le _, show x * 8 ≤ 4095 by omega⟩
    · rw [← hwide]
      refine hdiv.slot_iff.2 ?_
      rw [hwide]
      decide
  refine ⟨hacc, by decide, hall, fun h => ?_⟩
  have hsub : [0, 1, 2, 3, 4, 5, 6, 7, 504].toFinset ⊆
      threeBanks.bursts.filter fun x => threeBanks.slot x = some ⟨0, 0, 0⟩ := by
    intro x hx
    exact Finset.mem_filter.2 (hall x (List.mem_toFinset.1 hx))
  have hcard := (Finset.card_le_card hsub).trans (h.rows ⟨0, 0, 0⟩)
  exact absurd hcard (by decide)

end Params

end Alpine.Mem.DramDecode
