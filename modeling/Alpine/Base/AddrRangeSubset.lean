import Alpine.Base.AddrRangeStripes

/-!
# Subsets of a range (`base/addr_range.hh`)

For an interleaved range the test looks at the two ends of the other range and compares its size with the
granularity.  An interval that is no longer than a block meets the blocks of its two ends only; but the size
of the range of all addresses wraps around to 0.

* `granularity`, `isSubset` as in the source.
* `SubsetRight` — the test is sound, and complete for ranges within one block.
* `WrapsAround` — all addresses, and the stripe 0 of a hash of all addresses.
* `isSubset_right_iff` — the test is right for every other pair of ranges.
-/

namespace Alpine.Base.RangeArgs

open Bitfield BitField

variable (p r : RangeArgs)

/-- The size of the regions; the position of a lowest bit is a byte. -/
def granularity : Except RangeError Nat :=
  if r.interleaved then
    let intlv_low_bit := r.intlvHighBit - r.intlvBits + 1
    if r.hashed then
      let xor_low_bit := r.xorHighBit - r.intlvBits + 1
      shl 1 (min intlv_low_bit.toNat xor_low_bit.toNat : Nat)
    else shl 1 intlv_low_bit.toNat
  else r.size

def isSubset : Except RangeError Bool :=
  if p.interleaved then throw (.panic "Cannot test subset of interleaved range %s\n")
  else if r.interleaved then do
    let first ← r.contains p.start
    if !first then return false
    let last ← r.contains p.stop
    if !last then return false
    let n ← p.size
    let g ← r.granularity
    return n ≤ g
  else return p.start ≥ r.start && p.stop ≤ r.stop

/-- The test says yes only for subsets, and for all of them that lie in one block of the other range. -/
structure SubsetRight : Prop where
  sound : p.isSubset r = .ok true → ∀ a, p.contains a = .ok true → r.contains a = .ok true
  complete : (r.interleaved = true → ∃ g, r.granularity = .ok g ∧ p.start / g = p.stop / g) →
    (∀ a, p.contains a = .ok true → r.contains a = .ok true) → p.isSubset r = .ok true

/-- All addresses, and the stripe 0 of a hash of all addresses by two fields that lie within an address. -/
structure WrapsAround : Prop where
  all : p.start = 0 ∧ p.stop = 2 ^ 64 - 1
  whole : r.start = 0 ∧ r.stop = 2 ^ 64 - 1
  hashed : r.hashed = true
  first : r.intlvMatch = 0
  slice : r.bitCount ≤ r.intlvHighBit.toNat + 1 ∧ r.intlvHighBit.toNat < 64
  xorSlice : r.bitCount ≤ r.xorHighBit.toNat + 1 ∧ r.xorHighBit.toNat < 64

variable {p r}

/-! ## What the constructor checks -/

theorem construct_checks (h : r.construct = .ok r) (hi : r.interleaved = true) :
    r.bitCount ≠ 0 ∧ r.bitCount < 64 ∧ r.checkXor = .ok () := by
  have hbits : r.intlvBits ≠ 0 := by simpa [interleaved] using hi
  obtain ⟨⟨⟩, hmatch, hrest⟩ := bind_ok_iff.1 h
  obtain ⟨⟨⟩, hxor, -⟩ := bind_ok_iff.1 hrest
  refine ⟨fun h0 => hbits (UInt8.toNat.inj h0), ?_, hxor⟩
  unfold checkMatch at hmatch
  rw [if_pos (by simpa using hbits)] at hmatch
  obtain ⟨n, hn, -⟩ := bind_ok_iff.1 hmatch
  unfold shl at hn
  split at hn
  · rename_i hcount
    unfold bitCount
    omega
  · cases hn

theorem contains_plain (hp : p.interleaved = false) (a : Nat) :
    p.contains a = .ok true ↔ p.start ≤ a ∧ a ≤ p.stop := by
  unfold contains
  rw [hp]
  dsimp only
  rw [Bool.not_false, if_pos rfl]
  show Except.ok _ = Except.ok true ↔ _
  rw [Except.ok.injEq, Bool.and_eq_true, decide_eq_true_eq, decide_eq_true_eq]

theorem size_plain (hp : p.interleaved = false) : p.size = .ok ((p.stop + 2 ^ 64 - p.start + 1) % 2 ^ 64) := by
  have hbits : p.intlvBits = 0 := by simpa [interleaved] using hp
  unfold size
  rw [hbits]
  exact (shr_nat (n := 0) (by decide)).trans (by rw [Nat.pow_zero, Nat.div_one])

/-- A range that contains an address has fields whose lowest bits are bits of the address. -/
theorem fields_of_contains (hr : r.construct = .ok r) (hi : r.interleaved = true) {a : Nat}
    (h : r.contains a = .ok true) : r.Fields := by
  obtain ⟨hbits, hcount, -⟩ := construct_checks hr hi
  have hbetween : r.start ≤ a ∧ a ≤ r.stop := by
    by_contra hout
    have hfalse : (decide (a ≥ r.start) && decide (a ≤ r.stop)) = false := by
      rw [Bool.and_eq_false_iff, decide_eq_false_iff_not, decide_eq_false_iff_not]
      omega
    unfold contains at h
    dsimp only at h
    rw [hi, hfalse, Bool.not_true, if_neg Bool.false_ne_true, if_neg Bool.false_ne_true] at h
    cases h
  obtain ⟨hslice, hxor⟩ := contains_defined hi hbetween.1 hbetween.2 h
  unfold lowBit at hslice hxor
  refine ⟨hbits, hcount, ?_, ?_, fun hx => ?_⟩
  · unfold bitCount
    omega
  · unfold low bitCount
    omega
  · have hbound := hxor hx
    unfold xorLow bitCount
    omega

/-! ## Blocks -/

/-- The block size of the stripes is `2 ^ block`. -/
def block (r : RangeArgs) : Nat := if r.xorHighBit ≠ 0 then min r.low r.xorLow else r.low

theorem stripe_block {a b : Nat} (hab : a / 2 ^ r.block = b / 2 ^ r.block) :
    field r.low r.bitCount a ^^^ r.other a = field r.low r.bitCount b ^^^ r.other b := by
  unfold other
  unfold block at hab
  by_cases hx : r.xorHighBit ≠ 0
  · rw [if_pos hx] at hab
    rw [if_pos hx, if_pos hx, field_block (Nat.min_le_left _ _) hab, field_block (Nat.min_le_right _ _) hab]
  · rw [if_neg hx] at hab
    rw [if_neg hx, if_neg hx, field_block (Nat.le_refl _) hab]

namespace Fields

variable (h : r.Fields)
include h

theorem block_lt : r.block < 64 := by
  have hlow := h.low_lt
  unfold block
  split
  · omega
  · exact hlow

theorem lowByte {high : UInt8} (hle : r.bitCount ≤ high.toNat + 1) :
    (high - r.intlvBits + 1).toNat = high.toNat + 1 - r.bitCount := by
  have hbits := h.bits
  have hhigh := high.toNat_lt
  unfold bitCount at *
  rw [UInt8.toNat_add, UInt8.toNat_sub]
  simp only [UInt8.reduceToNat]
  omega

theorem granularity_eq : r.granularity = .ok (2 ^ r.block) := by
  have hblock := h.block_lt
  have hpow : 1 * 2 ^ r.block % 2 ^ 64 = 2 ^ r.block := by
    rw [Nat.one_mul, Nat.mod_eq_of_lt (Nat.pow_lt_pow_right (by decide) hblock)]
  unfold granularity
  rw [h.interleaved, hashed_eq h.interleaved, if_pos rfl]
  dsimp only
  rw [h.lowByte h.slice]
  split
  · rename_i hx
    have hne : r.xorHighBit ≠ 0 := of_decide_eq_true hx
    have hblockEq : min (r.intlvHighBit.toNat + 1 - r.bitCount) (r.xorHighBit.toNat + 1 - r.bitCount) =
        r.block := by
      unfold block
      rw [if_pos hne]
      rfl
    rw [h.lowByte (h.xorSlice hne).1, hblockEq, shl_nat hblock, hpow]
  · rename_i hx
    have hblockEq : r.intlvHighBit.toNat + 1 - r.bitCount = r.block := by
      unfold block
      rw [if_neg (fun hne => hx (decide_eq_true hne))]
      rfl
    rw [hblockEq, shl_nat hblock, hpow]

theorem contains_iff (a : Nat) : r.contains a = .ok true ↔ (r.start ≤ a ∧ a ≤ r.stop) ∧
    field r.low r.bitCount a ^^^ r.other a = r.intlvMatch.toNat := by
  rw [h.contains_eq, Except.ok.injEq, Bool.and_eq_true, Bool.and_eq_true, decide_eq_true_eq, decide_eq_true_eq,
    decide_eq_true_eq]

end Fields

theorem isSubset_iff (hp : p.interleaved = false) (hr : r.construct = .ok r) (hi : r.interleaved = true) :
    p.isSubset r = .ok true ↔ r.contains p.start = .ok true ∧ r.contains p.stop = .ok true ∧
      (p.stop + 2 ^ 64 - p.start + 1) % 2 ^ 64 ≤ 2 ^ r.block := by
  unfold isSubset
  rw [hp, hi, if_neg Bool.false_ne_true, if_pos rfl]
  constructor
  · intro h
    obtain ⟨first, hfirst, h⟩ := bind_ok_iff.1 h
    cases first with
    | false => cases h
    | true =>
      obtain ⟨last, hlast, h⟩ := bind_ok_iff.1 h
      cases last with
      | false => cases h
      | true =>
        have hfields := fields_of_contains hr hi hfirst
        refine ⟨hfirst, hlast, ?_⟩
        obtain ⟨n, hn, h⟩ := bind_ok_iff.1 h
        obtain ⟨g, hg, h⟩ := bind_ok_iff.1 h
        rw [size_plain hp] at hn
        rw [hfields.granularity_eq] at hg
        cases hn
        cases hg
        cases hle : decide ((p.stop + 2 ^ 64 - p.start + 1) % 2 ^ 64 ≤ 2 ^ r.block) with
        | true => exact of_decide_eq_true hle
        | false =>
          have h : Except.ok (decide _) = Except.ok true := h
          rw [hle] at h
          cases h
  · rintro ⟨hfirst, hlast, hle⟩
    have hfields := fields_of_contains hr hi hfirst
    rw [hfirst, hlast, size_plain hp, hfields.granularity_eq]
    exact congrArg Except.ok (decide_eq_true hle)

theorem isSubset_plain_iff (hp : p.interleaved = false) (hi : r.interleaved = false) :
    p.isSubset r = .ok true ↔ r.start ≤ p.start ∧ p.stop ≤ r.stop := by
  unfold isSubset
  rw [hp, hi, if_neg Bool.false_ne_true, if_neg Bool.false_ne_true]
  show Except.ok _ = Except.ok true ↔ _
  rw [Except.ok.injEq, Bool.and_eq_true, decide_eq_true_eq, decide_eq_true_eq]

/-! ## The range of all addresses -/

/-- Both ends of the address space are in one stripe only if it is the stripe 0 of a hash. -/
theorem wrapsAround_of_ends (hr : r.construct = .ok r) (hi : r.interleaved = true)
    (hall : p.start = 0 ∧ p.stop = 2 ^ 64 - 1) (hfirst : r.contains 0 = .ok true)
    (hlast : r.contains (2 ^ 64 - 1) = .ok true) : WrapsAround p r := by
  have hfields := fields_of_contains hr hi hfirst
  obtain ⟨hbits, -, hxor⟩ := construct_checks hr hi
  have hlow := hfields.low_lt
  have hfits := r.fits
  obtain ⟨⟨hstart, -⟩, hzero⟩ := (hfields.contains_iff 0).1 hfirst
  obtain ⟨⟨-, hstop⟩, hones⟩ := (hfields.contains_iff _).1 hlast
  have hfieldZero : ∀ low, field low r.bitCount 0 = 0 := by
    intro low
    unfold field
    rw [Nat.zero_div, Nat.zero_mod]
  have hmatch : r.intlvMatch.toNat = 0 := by
    rw [← hzero, hfieldZero]
    unfold other
    split
    · rw [hfieldZero]
      rfl
    · rfl
  have hpow : 1 < 2 ^ min (64 - r.low) r.bitCount := Nat.one_lt_two_pow (by omega)
  rw [hmatch, field_ones (Nat.le_of_lt hlow)] at hones
  unfold other at hones
  by_cases hx : r.xorHighBit ≠ 0
  · rw [if_pos hx, field_ones (Nat.le_of_lt (hfields.xorSlice hx).2)] at hones
    obtain ⟨hxslice, hxlow⟩ := hfields.xorSlice hx
    have hapart := checkXor_apart hbits hxor hx
    have hlen : min (64 - r.low) r.bitCount = min (64 - r.xorLow) r.bitCount := by
      have hsame := Nat.xor_eq_zero_iff.1 hones
      have hpos := Nat.two_pow_pos (min (64 - r.xorLow) r.bitCount)
      exact Nat.pow_right_injective (Nat.le_refl 2) (by show 2 ^ _ = 2 ^ _; omega)
    have hslice := hfields.slice
    have hsum := hfields.low_add
    unfold xorLow at hlen hxlow
    exact {
      all := hall
      whole := ⟨by omega, by omega⟩
      hashed := by rw [hashed_eq hi, decide_eq_true hx]
      first := UInt8.toNat.inj hmatch
      slice := ⟨hslice, by omega⟩
      xorSlice := ⟨hxslice, by omega⟩ }
  · rw [if_neg hx, Nat.xor_zero] at hones
    omega

theorem WrapsAround.fields (h : WrapsAround p r) (hr : r.construct = .ok r) (hi : r.interleaved = true) :
    r.Fields := by
  obtain ⟨hbits, hcount, -⟩ := construct_checks hr hi
  have hslice := h.slice
  have hxslice := h.xorSlice
  refine ⟨hbits, hcount, hslice.1, ?_, fun _ => ⟨hxslice.1, ?_⟩⟩
  · unfold low
    omega
  · unfold xorLow
    omega

/-- The test says yes, but the address with only the lowest bit of the field is in stripe 1. -/
theorem WrapsAround.not_right (h : WrapsAround p r) (hp : p.interleaved = false) (hr : r.construct = .ok r) :
    ¬ SubsetRight p r := by
  have hi : r.interleaved = true := (Bool.and_eq_true _ _ ▸ h.hashed).1
  have hx : r.xorHighBit ≠ 0 := by
    have hhash := h.hashed
    rw [hashed_eq hi] at hhash
    exact of_decide_eq_true hhash
  have hfields := h.fields hr hi
  obtain ⟨hbits, -, hxor⟩ := construct_checks hr hi
  have hslice := h.slice
  have hxslice := h.xorSlice
  have hapart := checkXor_apart hbits hxor hx
  have hsum := hfields.low_add
  have hmatch : r.intlvMatch.toNat = 0 := by
    rw [h.first]
    rfl
  have hpow : 2 ^ r.low < 2 ^ 64 := Nat.pow_lt_pow_right (by decide) hfields.low_lt
  have hend : ∀ a, a / 2 ^ 64 = 0 → field r.low r.bitCount a ^^^ r.other a = 0 → r.contains a = .ok true := by
    intro a ha hstripe
    rw [hfields.contains_iff, h.whole.1, h.whole.2, hmatch]
    exact ⟨⟨Nat.zero_le _, by omega⟩, hstripe⟩
  intro hright
  have hsubset : p.isSubset r = .ok true := by
    rw [isSubset_iff hp hr hi, h.all.1, h.all.2]
    refine ⟨hend 0 rfl ?_, hend _ (by decide) ?_, ?_⟩
    · unfold other field
      rw [if_pos hx, Nat.zero_div, Nat.zero_mod, Nat.zero_div, Nat.zero_mod]
      rfl
    · unfold other
      rw [if_pos hx, field_ones (Nat.le_of_lt hfields.low_lt), field_ones (Nat.le_of_lt (hfields.xorSlice hx).2)]
      have hlen : min (64 - r.low) r.bitCount = min (64 - r.xorLow) r.bitCount := by
        unfold low xorLow
        omega
      rw [hlen, Nat.xor_self]
    · exact Nat.zero_le _
  have hin := hright.sound hsubset (2 ^ r.low) ((contains_plain hp _).2 (by
    rw [h.all.1, h.all.2]
    exact ⟨Nat.zero_le _, Nat.le_sub_one_of_lt hpow⟩))
  have hstripe := ((hfields.contains_iff _).1 hin).2
  have hone : field r.low r.bitCount (2 ^ r.low) = 1 := by
    unfold field
    rw [Nat.div_self (Nat.two_pow_pos _), Nat.mod_eq_of_lt (Nat.one_lt_two_pow hbits)]
  have hother : r.other (2 ^ r.low) = 0 := by
    unfold other
    rw [if_pos hx]
    refine field_two_pow ?_
    unfold low xorLow
    omega
  rw [hone, hother, hmatch] at hstripe
  exact absurd hstripe (by decide)

/-! ## When the test is right -/

theorem isSubset_sound (hp : p.interleaved = false) (hvalid : p.start ≤ p.stop) (hr : r.construct = .ok r)
    (hwrap : ¬ WrapsAround p r) (h : p.isSubset r = .ok true) {a : Nat} (ha : p.contains a = .ok true) :
    r.contains a = .ok true := by
  obtain ⟨h1, h2⟩ := (contains_plain hp a).1 ha
  cases hi : r.interleaved with
  | false =>
    have hends := (isSubset_plain_iff hp hi).1 h
    exact (contains_plain hi a).2 ⟨by omega, by omega⟩
  | true =>
    obtain ⟨hfirst, hlast, hsize⟩ := (isSubset_iff hp hr hi).1 h
    have hfields := fields_of_contains hr hi hfirst
    have hfits := p.fits
    have hnotAll : ¬ (p.start = 0 ∧ p.stop = 2 ^ 64 - 1) := by
      intro hall
      refine hwrap (wrapsAround_of_ends hr hi hall ?_ ?_)
      · rwa [hall.1] at hfirst
      · rwa [hall.2] at hlast
    have hshort : p.stop - p.start + 1 ≤ 2 ^ r.block := by omega
    obtain ⟨⟨hstart, -⟩, hs⟩ := (hfields.contains_iff _).1 hfirst
    obtain ⟨⟨-, hstop⟩, ht⟩ := (hfields.contains_iff _).1 hlast
    refine (hfields.contains_iff a).2 ⟨⟨by omega, by omega⟩, ?_⟩
    rcases block_of_short h1 h2 hshort with hblock | hblock
    · rw [stripe_block hblock, hs]
    · rw [stripe_block hblock, ht]

theorem isSubset_complete (hp : p.interleaved = false) (hvalid : p.start ≤ p.stop) (hr : r.construct = .ok r)
    (hblock : r.interleaved = true → ∃ g, r.granularity = .ok g ∧ p.start / g = p.stop / g)
    (h : ∀ a, p.contains a = .ok true → r.contains a = .ok true) : p.isSubset r = .ok true := by
  have hfirst := h p.start ((contains_plain hp _).2 ⟨Nat.le_refl _, hvalid⟩)
  have hlast := h p.stop ((contains_plain hp _).2 ⟨hvalid, Nat.le_refl _⟩)
  cases hi : r.interleaved with
  | false =>
    have h1 := (contains_plain hi _).1 hfirst
    have h2 := (contains_plain hi _).1 hlast
    exact (isSubset_plain_iff hp hi).2 ⟨h1.1, h2.2⟩
  | true =>
    have hfields := fields_of_contains hr hi hfirst
    obtain ⟨g, hg, hsame⟩ := hblock hi
    rw [hfields.granularity_eq] at hg
    cases hg
    refine (isSubset_iff hp hr hi).2 ⟨hfirst, hlast, ?_⟩
    -- both ends are in the block of the first
    have hpos := Nat.two_pow_pos r.block
    have hdiv := Nat.div_add_mod p.start (2 ^ r.block)
    have hdiv' := Nat.div_add_mod p.stop (2 ^ r.block)
    have hmod := Nat.mod_lt p.stop hpos
    rw [hsame] at hdiv
    have hlen : p.stop + 2 ^ 64 - p.start + 1 = 2 ^ 64 + (p.stop - p.start + 1) := by omega
    rw [hlen, Nat.add_mod_left]
    exact Nat.le_trans (Nat.mod_le _ _) (by omega)

/-- **When the subset test is right.**  For a valid range without interleaving and any range that the
constructor takes, a yes means that every address of the first is in the second, and every subset that lies
in one block of the second gets a yes, if and only if the two are not the range of all addresses and the
stripe 0 of a hash of all addresses. -/
theorem isSubset_right_iff (hp : p.interleaved = false) (hvalid : p.start ≤ p.stop)
    (hr : r.construct = .ok r) : SubsetRight p r ↔ ¬ WrapsAround p r := by
  constructor
  · exact fun hright hwrap => hwrap.not_right hp hr hright
  · intro hwrap
    constructor
    · exact fun h a ha => isSubset_sound hp hvalid hr hwrap h ha
    · exact fun hblock h => isSubset_complete hp hvalid hr hblock h

/-- A cache line of 64 bytes. -/
def cacheLine : RangeArgs where
  start := 0x80000080
  stop := 0x800000bf
  fits := by decide
  intlvHighBit := 0
  xorHighBit := 0
  intlvBits := 0
  intlvMatch := 0

theorem isSubset_right_cacheLine : SubsetRight cacheLine fourChannels :=
  (isSubset_right_iff (p := cacheLine) (r := fourChannels) rfl (by decide) rfl).2
    fun h => absurd h.all.1 (by decide)

theorem everything_fits : 0 < 2 ^ 64 ∧ 2 ^ 64 - 1 < 2 ^ 64 := ⟨by decide, by decide⟩

/-- All addresses, as one range. -/
def everything : RangeArgs where
  start := 0
  stop := 2 ^ 64 - 1
  fits := everything_fits
  intlvHighBit := 0
  xorHighBit := 0
  intlvBits := 0
  intlvMatch := 0

/-- All addresses, of which the even half of a hash of bits 7 and 20 is taken. -/
def hashedHalf : RangeArgs where
  start := 0
  stop := 2 ^ 64 - 1
  fits := everything_fits
  intlvHighBit := 7
  xorHighBit := 20
  intlvBits := 1
  intlvMatch := 0

/-- The range of all addresses passes for a subset of half of them. -/
theorem everything_not_right : ¬ ∀ p r : RangeArgs, p.interleaved = false → p.start ≤ p.stop →
    r.start ≤ r.stop → r.construct = .ok r → SubsetRight p r := by
  intro h
  have hright := h everything hashedHalf rfl (by decide) (by decide) rfl
  have hwrap : WrapsAround everything hashedHalf :=
    ⟨⟨rfl, rfl⟩, ⟨rfl, rfl⟩, rfl, rfl, ⟨by decide, by decide⟩, ⟨by decide, by decide⟩⟩
  exact hwrap.not_right rfl rfl hright

end Alpine.Base.RangeArgs
