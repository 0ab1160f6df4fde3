import Alpine.Base.AddrRange
import Alpine.Lib.BitField
import Alpine.Lib.Outcome

/-!
# The stripes of an interleaving (`base/addr_range.hh`, `base/bitfield.hh`)

The constructor takes the positions of the two fields as bytes, and the members shift by what follows from
them.

* `Bitfield.mask`, `Bitfield.bits`, `Bitfield.insertBits` — on 64-bit words; a shift by a negative count or
  by 64 or more is undefined.
* `RangeArgs` — a range as the constructor gets it; `construct`, `size`, `contains`, `removeIntlvBits`,
  `getOffset` as in the source.
* `contains_toAddrRange` — the ranges whose fields lie within an address are those of `AddrRange`.
* `Partitions` — the stripes partition the range, and the offset numbers the addresses of each from 0.
* `partitions_iff` — when they do.
-/

namespace Alpine.Base

/-- How an expression on a range can fail. -/
inductive RangeError where
  | fatal (msg : String)
  | panic (msg : String)
  | shift
  deriving DecidableEq

namespace Bitfield

/-- `val >> n` and `val << n` on 64 bits. -/
def shr (val : Nat) (n : Int) : Except RangeError Nat :=
  if 0 ≤ n ∧ n < 64 then .ok (val >>> n.toNat) else .error .shift

def shl (val : Nat) (n : Int) : Except RangeError Nat :=
  if 0 ≤ n ∧ n < 64 then .ok ((val <<< n.toNat) % 2 ^ 64) else .error .shift

def mask (nbits : Int) : Except RangeError Nat :=
  if nbits = 64 then .ok (2 ^ 64 - 1)
  else do
    let b ← shl 1 nbits
    return b - 1

def bits (val : Nat) (first last : Int) : Except RangeError Nat := do
  let nbits := first - last + 1
  let v ← shr val last
  let m ← mask nbits
  return v &&& m

def insertBits (val : Nat) (first last : Int) (bit_val : Nat) : Except RangeError Nat := do
  let m ← mask (first - last + 1)
  let bmask ← shl m last
  let t_bit_val ← shl bit_val last
  return t_bit_val &&& bmask ||| val &&& (bmask ^^^ (2 ^ 64 - 1))

end Bitfield

/-- The arguments of the constructor. -/
structure RangeArgs where
  start : Nat
  stop : Nat
  fits : start < 2 ^ 64 ∧ stop < 2 ^ 64
  intlvHighBit : UInt8
  xorHighBit : UInt8
  intlvBits : UInt8
  intlvMatch : UInt8

namespace RangeArgs

open Bitfield

variable (r : RangeArgs)

/-- The first of the sanity checks. -/
def checkMatch : Except RangeError Unit :=
  if r.intlvBits ≠ 0 then do
    let n ← shl 1 r.intlvBits.toNat
    if r.intlvMatch.toNat ≥ n then throw (.fatal "Match value %d does not fit in %d interleaving bits\n")
  else return

/-- The other checks: the fields are apart. -/
def checkXor : Except RangeError Unit :=
  if r.intlvBits ≠ 0 && r.xorHighBit ≠ 0 then
    if r.xorHighBit = r.intlvHighBit then
      throw (.fatal "XOR and interleave high bit must be different\n")
    else if r.xorHighBit > r.intlvHighBit then
      if (r.xorHighBit.toNat : Int) - r.intlvHighBit.toNat < r.intlvBits.toNat then
        throw (.fatal "XOR and interleave high bit must be at least %d bits apart\n")
      else return
    else if (r.intlvHighBit.toNat : Int) - r.xorHighBit.toNat < r.intlvBits.toNat then
      throw (.fatal "Interleave and XOR high bit must be at least %d bits apart\n")
    else return
  else return

def construct : Except RangeError RangeArgs := do
  r.checkMatch
  r.checkXor
  return r

def interleaved : Bool := r.intlvBits ≠ 0

def hashed : Bool := r.interleaved && r.xorHighBit ≠ 0

def size : Except RangeError Nat := shr ((r.stop + 2 ^ 64 - r.start + 1) % 2 ^ 64) r.intlvBits.toNat

/-- The position of the lowest bit of a field. -/
def lowBit (high : UInt8) : Int := (high.toNat : Int) - r.intlvBits.toNat + 1

def contains (a : Nat) : Except RangeError Bool :=
  let in_range := decide (a ≥ r.start) && decide (a ≤ r.stop)
  if !r.interleaved then return in_range
  else if in_range then
    if !r.hashed then do
      let b ← Bitfield.bits a r.intlvHighBit.toNat (r.lowBit r.intlvHighBit)
      return b = r.intlvMatch.toNat
    else do
      let b ← Bitfield.bits a r.intlvHighBit.toNat (r.lowBit r.intlvHighBit)
      let x ← Bitfield.bits a r.xorHighBit.toNat (r.lowBit r.xorHighBit)
      return (b ^^^ x) = r.intlvMatch.toNat
  else return false

def removeIntlvBits (a : Nat) : Except RangeError Nat := do
  let intlv_low_bit := r.lowBit r.intlvHighBit
  let v ← shr a r.intlvBits.toNat
  insertBits v (intlv_low_bit - 1) 0 a

/-- The offset of an address; `MaxAddr` outside of the range. -/
def getOffset (a : Nat) : Except RangeError Nat :=
  let in_range := decide (a ≥ r.start) && decide (a ≤ r.stop)
  if !in_range then return 2 ^ 64 - 1
  else if r.interleaved then do
    let x ← r.removeIntlvBits a
    let y ← r.removeIntlvBits r.start
    return (x + 2 ^ 64 - y) % 2 ^ 64
  else return (a + 2 ^ 64 - r.start) % 2 ^ 64

/-- The range with another value to match. -/
def stripe (m : Nat) : RangeArgs := { r with intlvMatch := UInt8.ofNat m }

end RangeArgs

/-! ## What the operations on bits compute -/

namespace Bitfield

theorem shr_nat {val n : Nat} (h : n < 64) : shr val n = .ok (val / 2 ^ n) := by
  unfold shr
  rw [if_pos (by omega), Int.toNat_natCast, Nat.shiftRight_eq_div_pow]

theorem shl_nat {val n : Nat} (h : n < 64) : shl val n = .ok (val * 2 ^ n % 2 ^ 64) := by
  unfold shl
  rw [if_pos (by omega), Int.toNat_natCast, Nat.shiftLeft_eq]

theorem mask_nat {n : Nat} (h : n < 64) : mask n = .ok (2 ^ n - 1) := by
  have hlt : 2 ^ n < 2 ^ 64 := Nat.pow_lt_pow_right (by decide) h
  unfold mask
  rw [if_neg (by omega), shl_nat h, Nat.one_mul, Nat.mod_eq_of_lt hlt]
  rfl

theorem bits_nat {val low k : Nat} (hlow : low < 64) (hk : k < 64) {first : Int} (hfirst : first = low + k - 1) :
    bits val first low = .ok (BitField.field low k val) := by
  have hnbits : first - low + 1 = (k : Int) := by omega
  unfold Bitfield.bits
  dsimp only
  rw [hnbits, shr_nat hlow, mask_nat hk]
  show Except.ok (val / 2 ^ low &&& (2 ^ k - 1)) = _
  rw [Nat.and_two_pow_sub_one_eq_mod]
  rfl

/-- The upper bits of a word. -/
theorem and_not_mask {v low : Nat} (hv : v < 2 ^ 64) :
    v &&& ((2 ^ low - 1) ^^^ (2 ^ 64 - 1)) = v / 2 ^ low * 2 ^ low := by
  rw [← Nat.shiftRight_eq_div_pow, ← Nat.shiftLeft_eq]
  refine Nat.eq_of_testBit_eq fun i => ?_
  rw [Nat.testBit_and, Nat.testBit_xor, Nat.testBit_two_pow_sub_one, Nat.testBit_two_pow_sub_one,
    Nat.testBit_shiftLeft, Nat.testBit_shiftRight]
  by_cases hi : i < 64
  · by_cases hlow : i < low
    · simp [hi, hlow]
    · have hsum : low + (i - low) = i := by omega
      simp [hi, hlow, hsum, Nat.not_lt.1 hlow]
  · have hbit : v.testBit i = false :=
      Nat.testBit_lt_two_pow (Nat.lt_of_lt_of_le hv (Nat.pow_le_pow_right (by decide) (Nat.not_lt.1 hi)))
    by_cases hlow : i < low
    · simp [hbit, hlow]
    · have hsum : low + (i - low) = i := by omega
      simp [hbit, hsum]

theorem insertBits_nat {a low k : Nat} (ha : a < 2 ^ 64) (hlow : low < 64) {first : Int} (hfirst : first = low - 1) :
    insertBits (a / 2 ^ k) first 0 a = .ok (BitField.cut low k a) := by
  have hnbits : first - 0 + 1 = (low : Int) := by omega
  have hmask : 2 ^ low - 1 < 2 ^ 64 :=
    Nat.lt_of_le_of_lt (Nat.sub_le _ _) (Nat.pow_lt_pow_right (by decide) hlow)
  have hv : a / 2 ^ k < 2 ^ 64 := Nat.lt_of_le_of_lt (Nat.div_le_self _ _) ha
  have hzero : ∀ b, b < 2 ^ 64 → shl b 0 = .ok b := by
    intro b hb
    rw [show (0 : Int) = ((0 : Nat) : Int) from rfl, shl_nat (by decide), Nat.pow_zero, Nat.mul_one,
      Nat.mod_eq_of_lt hb]
  unfold insertBits
  rw [hnbits, mask_nat hlow]
  show (do
    let bmask ← shl (2 ^ low - 1) 0
    let t_bit_val ← shl a 0
    return t_bit_val &&& bmask ||| a / 2 ^ k &&& (bmask ^^^ (2 ^ 64 - 1)) : Except RangeError Nat) = _
  rw [hzero _ hmask, hzero _ ha]
  show Except.ok (a &&& (2 ^ low - 1) ||| a / 2 ^ k &&& ((2 ^ low - 1) ^^^ (2 ^ 64 - 1))) = _
  rw [and_not_mask hv, Nat.and_two_pow_sub_one_eq_mod, Nat.div_div_eq_div_mul, ← Nat.pow_add, Nat.or_comm,
    ← Nat.shiftLeft_eq, ← Nat.shiftLeft_add_eq_or_of_lt (Nat.mod_lt _ (Nat.two_pow_pos low)), Nat.shiftLeft_eq,
    Nat.add_comm k low]
  rfl

end Bitfield

namespace RangeArgs

open Bitfield BitField

variable {r : RangeArgs}

/-! ## Fields that lie within a word -/

/-- The number of interleaving bits, and the lowest bits of the two fields. -/
def bitCount (r : RangeArgs) : Nat := r.intlvBits.toNat

def low (r : RangeArgs) : Nat := r.intlvHighBit.toNat + 1 - r.bitCount

def xorLow (r : RangeArgs) : Nat := r.xorHighBit.toNat + 1 - r.bitCount

/-- The shifts of a test are defined: the fields start at a bit of the address. -/
structure Fields (r : RangeArgs) : Prop where
  bits : r.bitCount ≠ 0
  count_lt : r.bitCount < 64
  slice : r.bitCount ≤ r.intlvHighBit.toNat + 1
  low_lt : r.low < 64
  xorSlice : r.xorHighBit ≠ 0 → r.bitCount ≤ r.xorHighBit.toNat + 1 ∧ r.xorLow < 64

theorem Fields.low_add (h : r.Fields) : r.low + r.bitCount = r.intlvHighBit.toNat + 1 := by
  have hslice := h.slice
  unfold low
  omega

/-- The first field lies below the highest bit of the address. -/
structure InWord (r : RangeArgs) : Prop where
  bits : r.bitCount ≠ 0
  slice : r.bitCount ≤ r.intlvHighBit.toNat + 1
  high : r.intlvHighBit.toNat < 63
  xorSlice : r.xorHighBit ≠ 0 → r.bitCount ≤ r.xorHighBit.toNat + 1 ∧ r.xorLow < 64

theorem InWord.low_add (h : r.InWord) : r.low + r.bitCount = r.intlvHighBit.toNat + 1 := by
  have hslice := h.slice
  unfold low
  omega

theorem InWord.count_lt (h : r.InWord) : r.bitCount < 64 := by
  have hslice := h.slice
  have hhigh := h.high
  omega

theorem InWord.low_lt (h : r.InWord) : r.low < 64 := by
  have hlow := h.low_add
  have hhigh := h.high
  omega

theorem intlvBits_ne (hbits : r.bitCount ≠ 0) : r.intlvBits ≠ 0 := by
  intro h0
  unfold bitCount at hbits
  rw [h0] at hbits
  exact hbits rfl

theorem InWord.fields (h : r.InWord) : r.Fields := ⟨h.bits, h.count_lt, h.slice, h.low_lt, h.xorSlice⟩

theorem Fields.interleaved (h : r.Fields) : r.interleaved = true := by
  unfold RangeArgs.interleaved
  rw [decide_eq_true_eq]
  exact intlvBits_ne h.bits

theorem InWord.interleaved (h : r.InWord) : r.interleaved = true := h.fields.interleaved

/-- The other field of the hash, if there is one. -/
def other (r : RangeArgs) (a : Nat) : Nat := if r.xorHighBit ≠ 0 then field r.xorLow r.bitCount a else 0

theorem other_lt (r : RangeArgs) (a : Nat) : r.other a < 2 ^ r.bitCount := by
  unfold other
  split
  · exact field_lt _ _ _
  · exact Nat.two_pow_pos _

theorem hashed_eq (hi : r.interleaved = true) : r.hashed = decide (r.xorHighBit ≠ 0) := by
  unfold hashed
  rw [hi, Bool.true_and]

theorem Fields.contains_eq (h : r.Fields) (a : Nat) :
    r.contains a = .ok (decide (r.start ≤ a) && decide (a ≤ r.stop) &&
      decide (field r.low r.bitCount a ^^^ r.other a = r.intlvMatch.toNat)) := by
  have hlow := h.low_add
  have hslice := h.slice
  have hlowBit : r.lowBit r.intlvHighBit = (r.low : Int) := by
    unfold lowBit
    unfold bitCount at hlow
    omega
  have hbits : Bitfield.bits a r.intlvHighBit.toNat (r.lowBit r.intlvHighBit) =
      .ok (field r.low r.bitCount a) := by
    rw [hlowBit]
    exact bits_nat h.low_lt h.count_lt (by omega)
  unfold contains other
  rw [h.interleaved, hashed_eq h.interleaved, hbits]
  dsimp only
  rw [Bool.not_true, if_neg Bool.false_ne_true]
  split
  · rename_i hin
    rw [show (decide (r.start ≤ a) && decide (a ≤ r.stop)) = true from hin, Bool.true_and]
    by_cases hx : r.xorHighBit = 0
    · rw [hx]
      simp
    · have hxor := h.xorSlice hx
      have hxlow : r.lowBit r.xorHighBit = (r.xorLow : Int) := by
        unfold lowBit xorLow
        unfold bitCount at hxor ⊢
        omega
      have hxbits : Bitfield.bits a r.xorHighBit.toNat (r.lowBit r.xorHighBit) =
          .ok (field r.xorLow r.bitCount a) := by
        rw [hxlow]
        refine bits_nat hxor.2 h.count_lt ?_
        unfold xorLow
        omega
      rw [hxbits, decide_eq_true hx, Bool.not_true, if_neg Bool.false_ne_true, if_pos hx]
      rfl
  · rename_i hout
    rw [show (decide (r.start ≤ a) && decide (a ≤ r.stop)) = false from Bool.eq_false_iff.2 hout, Bool.false_and]
    rfl

theorem InWord.contains_eq (h : r.InWord) (a : Nat) :
    r.contains a = .ok (decide (r.start ≤ a) && decide (a ≤ r.stop) &&
      decide (field r.low r.bitCount a ^^^ r.other a = r.intlvMatch.toNat)) := h.fields.contains_eq a

theorem InWord.removeIntlvBits_eq (h : r.InWord) {a : Nat} (ha : a < 2 ^ 64) :
    r.removeIntlvBits a = .ok (cut r.low r.bitCount a) := by
  have hlow := h.low_add
  unfold removeIntlvBits
  rw [show ((r.intlvBits.toNat : Nat) : Int) = (r.bitCount : Int) from rfl, shr_nat h.count_lt]
  show Bitfield.insertBits (a / 2 ^ r.bitCount) (r.lowBit r.intlvHighBit - 1) 0 a = _
  refine insertBits_nat ha h.low_lt ?_
  unfold lowBit
  unfold bitCount at hlow
  omega

/-- What the checks of the constructor mean. -/
theorem checkXor_apart (hbits : r.bitCount ≠ 0) (hxor : r.checkXor = .ok ()) (hx : r.xorHighBit ≠ 0) :
    r.xorHighBit.toNat + r.bitCount ≤ r.intlvHighBit.toNat ∨
      r.intlvHighBit.toNat + r.bitCount ≤ r.xorHighBit.toNat := by
  have hcond : (decide (r.intlvBits ≠ 0) && decide (r.xorHighBit ≠ 0)) = true := by
    rw [decide_eq_true hx, decide_eq_true (intlvBits_ne hbits), Bool.and_self]
  unfold checkXor at hxor
  rw [if_pos hcond] at hxor
  unfold bitCount
  split at hxor
  · cases hxor
  · split at hxor
    · split at hxor
      · cases hxor
      · omega
    · split at hxor
      · cases hxor
      · omega

theorem InWord.other_congr (h : r.InWord) (hxor : r.checkXor = .ok ()) {a b : Nat}
    (hcut : cut r.low r.bitCount a = cut r.low r.bitCount b) : r.other a = r.other b := by
  unfold other
  split
  · rename_i hx
    refine field_congr ?_ hcut
    have hlow := h.low_add
    have hslice := (h.xorSlice hx).1
    have hapart := checkXor_apart h.bits hxor hx
    unfold xorLow
    omega
  · rfl

/-- The range as one whose fields lie within an address. -/
def toAddrRange (r : RangeArgs) (h : r.InWord) (hxor : r.checkXor = .ok ()) (hhigh : r.xorHighBit.toNat < 64)
    (hmatch : r.intlvMatch.toNat < 2 ^ r.bitCount) : AddrRange where
  start := r.start
  stop := r.stop
  intlvHighBit := r.intlvHighBit.toNat
  xorHighBit := r.xorHighBit.toNat
  intlvBits := r.bitCount
  intlvMatch := r.intlvMatch.toNat
  fits := r.fits
  slice := fun _ => ⟨Nat.lt_succ_of_lt h.high, h.slice, hmatch⟩
  xorSlice := fun _ hx => by
    have hne : r.xorHighBit ≠ 0 := fun h0 => hx (by rw [h0]; rfl)
    exact ⟨hhigh, (h.xorSlice hne).1, checkXor_apart h.bits hxor hne⟩

theorem contains_toAddrRange (h : r.InWord) (hxor : r.checkXor = .ok ()) (hhigh : r.xorHighBit.toNat < 64)
    (hmatch : r.intlvMatch.toNat < 2 ^ r.bitCount) (a : Nat) :
    r.contains a = .ok ((r.toAddrRange h hxor hhigh hmatch).contains a) := by
  have hinter : (r.toAddrRange h hxor hhigh hmatch).interleaved = true := by
    unfold AddrRange.interleaved
    rw [decide_eq_true_eq]
    exact h.bits
  have hfield : ∀ high : Nat, r.bitCount ≤ high + 1 →
      bits a high (high + 1 - r.bitCount) = field (high + 1 - r.bitCount) r.bitCount a := by
    intro high hle
    unfold bits field
    rw [Nat.shiftRight_eq_div_pow, show high + 1 - (high + 1 - r.bitCount) = r.bitCount by omega]
  have hstripe : (r.toAddrRange h hxor hhigh hmatch).stripe a = field r.low r.bitCount a ^^^ r.other a := by
    unfold AddrRange.stripe AddrRange.hashed other
    rw [hinter, Bool.true_and]
    show (if decide (r.xorHighBit.toNat ≠ 0) = true then
        bits a r.intlvHighBit.toNat (r.intlvHighBit.toNat + 1 - r.bitCount) ^^^
          bits a r.xorHighBit.toNat (r.xorHighBit.toNat + 1 - r.bitCount)
      else bits a r.intlvHighBit.toNat (r.intlvHighBit.toNat + 1 - r.bitCount)) = _
    rw [hfield _ h.slice]
    by_cases hx : r.xorHighBit = 0
    · rw [hx]
      simp [low]
    · have hne : r.xorHighBit.toNat ≠ 0 := fun h0 => hx (UInt8.toNat.inj h0)
      rw [hfield _ (h.xorSlice hx).1, decide_eq_true hne, if_pos rfl, if_pos hx]
      rfl
  rw [h.contains_eq]
  unfold AddrRange.contains
  dsimp only
  rw [hinter, hstripe, Bool.not_true, if_neg Bool.false_ne_true]
  rfl

/-! ## The stripes partition the range -/

/-- The stripes of a range: the constructor takes each, every address is in exactly one, the offset numbers
the addresses of each from 0 to its size, and no subtraction or size wraps around. -/
structure Partitions (r : RangeArgs) : Prop where
  construct : ∀ m < 2 ^ r.bitCount, (r.stripe m).construct = .ok (r.stripe m)
  total : ∀ m < 2 ^ r.bitCount, ∀ a, r.start ≤ a → a ≤ r.stop → ∃ b, (r.stripe m).contains a = .ok b
  unique : ∀ a, r.start ≤ a → a ≤ r.stop → ∃! m, m < 2 ^ r.bitCount ∧ (r.stripe m).contains a = .ok true
  offset : ∀ m < 2 ^ r.bitCount, ∃ n, (r.stripe m).size = .ok n ∧
    Set.BijOn (r.stripe m).getOffset {a | (r.stripe m).contains a = .ok true} (Except.ok '' Set.Iio n)
  exact_size : ∃ n, r.size = .ok n ∧ n * 2 ^ r.bitCount = r.stop + 1 - r.start
  exact_offset : ∀ a, r.start ≤ a → a ≤ r.stop →
    ∃ x y, r.removeIntlvBits a = .ok x ∧ r.removeIntlvBits r.start = .ok y ∧ y ≤ x

/-- What the constructor does not check: the fields lie within an address, a stripe is a byte, and the size
is a 64-bit number.  An empty range only has to have a size. -/
def Stripeable (r : RangeArgs) : Prop :=
  (r.stop + 1 = r.start ∧ r.bitCount < 64) ∨
  (r.start ≤ r.stop ∧ r.stop + 1 - r.start < 2 ^ 64 ∧ r.bitCount ≤ 8 ∧
    r.bitCount ≤ r.intlvHighBit.toNat + 1 ∧
    (r.xorHighBit ≠ 0 → r.bitCount ≤ r.xorHighBit.toNat + 1 ∧ r.xorHighBit.toNat + 1 < 64 + r.bitCount))

theorem stripe_inWord (h : r.InWord) (m : Nat) : (r.stripe m).InWord := ⟨h.bits, h.slice, h.high, h.xorSlice⟩

theorem stripe_match {m : Nat} (hm : m < 256) : (r.stripe m).intlvMatch.toNat = m := by
  show (UInt8.ofNat m).toNat = m
  rw [UInt8.toNat_ofNat']
  exact Nat.mod_eq_of_lt hm

theorem checkMatch_ok (hbits : r.bitCount ≠ 0) (hlt : r.bitCount < 64)
    (hmatch : r.intlvMatch.toNat < 2 ^ r.bitCount) : r.checkMatch = .ok () := by
  have hpow : 2 ^ r.bitCount < 2 ^ 64 := Nat.pow_lt_pow_right (by decide) hlt
  unfold checkMatch
  rw [if_pos (intlvBits_ne hbits), show ((r.intlvBits.toNat : Nat) : Int) = (r.bitCount : Int) from rfl,
    shl_nat hlt, Nat.one_mul, Nat.mod_eq_of_lt hpow]
  show (if r.intlvMatch.toNat ≥ 2 ^ r.bitCount then _ else _) = _
  rw [if_neg (Nat.not_le.2 hmatch)]
  rfl

theorem stripe_construct (hbits : r.bitCount ≠ 0) (hlt : r.bitCount < 64) (hxor : r.checkXor = .ok ()) {m : Nat}
    (hm : m < 2 ^ r.bitCount) : (r.stripe m).construct = .ok (r.stripe m) := by
  have hbyte : (r.stripe m).intlvMatch.toNat < 2 ^ r.bitCount := by
    show (UInt8.ofNat m).toNat < _
    rw [UInt8.toNat_ofNat']
    exact Nat.lt_of_le_of_lt (Nat.mod_le _ _) hm
  have hmatch : (r.stripe m).checkMatch = .ok () := @checkMatch_ok (r.stripe m) hbits hlt hbyte
  have hxor : (r.stripe m).checkXor = .ok () := hxor
  unfold construct
  rw [hmatch, hxor]
  rfl

/-! ### When they do -/

theorem partitions_empty (hempty : r.stop + 1 = r.start) (hbits : r.bitCount ≠ 0) (hlt : r.bitCount < 64)
    (hxor : r.checkXor = .ok ()) : r.Partitions := by
  have hsize : r.size = .ok 0 := by
    have hfits := r.fits
    unfold size
    rw [show ((r.intlvBits.toNat : Nat) : Int) = (r.bitCount : Int) from rfl, shr_nat hlt]
    have hzero : (r.stop + 2 ^ 64 - r.start + 1) % 2 ^ 64 = 0 := by omega
    rw [hzero, Nat.zero_div]
  have hnone : ∀ m a, (r.stripe m).contains a = .ok true → False := by
    intro m a h
    have hout : (decide (a ≥ (r.stripe m).start) && decide (a ≤ (r.stripe m).stop)) = false := by
      show (decide (a ≥ r.start) && decide (a ≤ r.stop)) = false
      rw [Bool.and_eq_false_iff, decide_eq_false_iff_not, decide_eq_false_iff_not]
      omega
    unfold contains at h
    dsimp only at h
    rw [hout, if_neg Bool.false_ne_true] at h
    split at h
    · cases h
    · cases h
  refine ⟨fun m hm => stripe_construct hbits hlt hxor hm, fun m _ a h1 h2 => by omega, fun a h1 h2 => by omega,
    fun m _ => ⟨0, hsize, ?_⟩, ⟨0, hsize, by omega⟩, fun a h1 h2 => by omega⟩
  refine ⟨fun a ha => (hnone m a ha).elim, fun a ha => (hnone m a ha).elim, ?_⟩
  rintro _ ⟨o, ho, -⟩
  exact absurd ho (Nat.not_lt_zero o)

theorem InWord.size_eq (h : r.InWord) (hvalid : r.start ≤ r.stop) (hlt : r.stop + 1 - r.start < 2 ^ 64) :
    r.size = .ok ((r.stop + 1 - r.start) / 2 ^ r.bitCount) := by
  have hfits := r.fits
  unfold size
  rw [show ((r.intlvBits.toNat : Nat) : Int) = (r.bitCount : Int) from rfl, shr_nat h.count_lt]
  have hmod : (r.stop + 2 ^ 64 - r.start + 1) % 2 ^ 64 = r.stop + 1 - r.start := by omega
  rw [hmod]

/-- The offset is that of the rest of the bits. -/
theorem InWord.getOffset_eq (h : r.InWord) {A a : Nat} (hstart : r.start = A * 2 ^ (r.low + r.bitCount))
    (h1 : r.start ≤ a) (h2 : a ≤ r.stop) :
    r.getOffset a = .ok (cut r.low r.bitCount a - A * 2 ^ r.low) ∧ A * 2 ^ r.low ≤ cut r.low r.bitCount a ∧
      cut r.low r.bitCount r.start = A * 2 ^ r.low := by
  have hfits := r.fits
  have hcutStart : cut r.low r.bitCount r.start = A * 2 ^ r.low := by
    have hpos := Nat.two_pow_pos (r.low + r.bitCount)
    unfold cut
    rw [hstart, Nat.mul_div_cancel _ hpos, Nat.pow_add, ← Nat.mul_assoc, Nat.mul_right_comm,
      Nat.mul_mod_left, Nat.add_zero]
  have hle : A * 2 ^ r.low ≤ cut r.low r.bitCount a := by
    have hmem : a ∈ Set.Ico (A * 2 ^ (r.low + r.bitCount)) ((a + 1) * 2 ^ (r.low + r.bitCount)) := by
      rw [← hstart]
      refine ⟨h1, ?_⟩
      exact Nat.lt_of_lt_of_le (Nat.lt_succ_self a) (Nat.le_mul_of_pos_right _ (Nat.two_pow_pos _))
    exact (cut_mem_Ico.2 hmem).1
  have hcutLt : cut r.low r.bitCount a < 2 ^ 64 := by
    have hv : cut r.low r.bitCount a ≤ a := by
      unfold cut
      calc a / 2 ^ (r.low + r.bitCount) * 2 ^ r.low + a % 2 ^ r.low
          ≤ a / 2 ^ r.low * 2 ^ r.low + a % 2 ^ r.low := by
            refine Nat.add_le_add_right (Nat.mul_le_mul_right _ ?_) _
            exact Nat.div_le_div_left (Nat.pow_le_pow_right (by decide) (Nat.le_add_right _ _)) (Nat.two_pow_pos _)
        _ = a := by rw [Nat.mul_comm, Nat.div_add_mod]
    omega
  refine ⟨?_, hle, hcutStart⟩
  unfold getOffset
  have hin : (decide (a ≥ r.start) && decide (a ≤ r.stop)) = true := by
    rw [Bool.and_eq_true, decide_eq_true_eq, decide_eq_true_eq]
    exact ⟨h1, h2⟩
  dsimp only
  rw [hin, Bool.not_true, if_neg Bool.false_ne_true, h.interleaved, if_pos rfl,
    h.removeIntlvBits_eq (by omega), h.removeIntlvBits_eq hfits.1, hcutStart]
  show Except.ok ((cut r.low r.bitCount a + 2 ^ 64 - A * 2 ^ r.low) % 2 ^ 64) = _
  congr 1
  omega

theorem InWord.offset_bijOn (h : r.InWord) (hxor : r.checkXor = .ok ()) {A B : Nat}
    (hstart : r.start = A * 2 ^ (r.low + r.bitCount)) (hstop : r.stop + 1 = B * 2 ^ (r.low + r.bitCount))
    (hmatch : r.intlvMatch.toNat < 2 ^ r.bitCount) :
    Set.BijOn r.getOffset {a | r.contains a = .ok true} (Except.ok '' Set.Iio ((B - A) * 2 ^ r.low)) := by
  have hmem : ∀ a, r.contains a = .ok true ↔
      a ∈ Set.Ico (A * 2 ^ (r.low + r.bitCount)) (B * 2 ^ (r.low + r.bitCount)) ∧
        field r.low r.bitCount a ^^^ r.other a = r.intlvMatch.toNat := by
    intro a
    rw [h.contains_eq, Except.ok.injEq, Bool.and_eq_true, Bool.and_eq_true, decide_eq_true_eq, decide_eq_true_eq,
      decide_eq_true_eq, ← hstart, ← hstop, Set.mem_Ico, Nat.lt_succ_iff]
  have hset : {a | r.contains a = .ok true} =
      {a | a ∈ Set.Ico (A * 2 ^ (r.low + r.bitCount)) (B * 2 ^ (r.low + r.bitCount)) ∧
        field r.low r.bitCount a ^^^ r.other a = r.intlvMatch.toNat} := Set.ext hmem
  have hcut := bijOn_cut_blocks hmatch r.other_lt (fun a b => h.other_congr hxor) A B
  have hshift : Set.BijOn (fun c => (Except.ok (c - A * 2 ^ r.low) : Except RangeError Nat))
      (Set.Ico (A * 2 ^ r.low) (B * 2 ^ r.low)) (Except.ok '' Set.Iio ((B - A) * 2 ^ r.low)) := by
    rw [Nat.sub_mul]
    refine ⟨fun c hc => ⟨_, ?_, rfl⟩, fun c hc d hd hcd => ?_, ?_⟩
    · obtain ⟨h1, h2⟩ := hc
      show c - A * 2 ^ r.low < _
      omega
    · have hcd : c - A * 2 ^ r.low = d - A * 2 ^ r.low := Except.ok.inj hcd
      obtain ⟨h1, -⟩ := hc
      obtain ⟨h2, -⟩ := hd
      omega
    · rintro _ ⟨o, ho, rfl⟩
      have ho : o < B * 2 ^ r.low - A * 2 ^ r.low := ho
      refine ⟨A * 2 ^ r.low + o, ⟨Nat.le_add_right _ _, by omega⟩, ?_⟩
      show Except.ok _ = _
      rw [Nat.add_sub_cancel_left]
  rw [hset]
  refine (hshift.comp hcut).congr fun a ha => ?_
  have hbounds := (Set.mem_Ico.1 ha.1)
  rw [← hstart, ← hstop] at hbounds
  exact (h.getOffset_eq hstart hbounds.1 (by omega)).1.symm

theorem InWord.partitions (h : r.InWord) (hbyte : r.bitCount ≤ 8) (hxor : r.checkXor = .ok ())
    (hvalid : r.start ≤ r.stop) (hlt : r.stop + 1 - r.start < 2 ^ 64)
    (hstart : 2 ^ (r.intlvHighBit.toNat + 1) ∣ r.start)
    (hsize : 2 ^ (r.intlvHighBit.toNat + 1) ∣ r.stop + 1 - r.start) : r.Partitions := by
  have hlow := h.low_add
  rw [← hlow] at hstart hsize
  have hstop : 2 ^ (r.low + r.bitCount) ∣ r.stop + 1 := by
    have hsum := Nat.dvd_add hsize hstart
    rwa [Nat.sub_add_cancel (by omega)] at hsum
  obtain ⟨A, hA⟩ := hstart
  obtain ⟨B, hB⟩ := hstop
  rw [Nat.mul_comm] at hA hB
  have hpow : 2 ^ r.bitCount ≤ 256 := Nat.pow_le_pow_right (n := 2) (by decide) hbyte
  -- the size of a stripe
  have hdiff : r.stop + 1 - r.start = (B - A) * 2 ^ r.low * 2 ^ r.bitCount := by
    rw [hA, hB, ← Nat.sub_mul, Nat.mul_assoc, ← Nat.pow_add]
  have hsizeEq : r.size = .ok ((B - A) * 2 ^ r.low) := by
    rw [h.size_eq hvalid hlt, hdiff, Nat.mul_div_cancel _ (Nat.two_pow_pos _)]
  have hcontains : ∀ m < 2 ^ r.bitCount, ∀ a, r.start ≤ a → a ≤ r.stop →
      (r.stripe m).contains a = .ok (decide (field r.low r.bitCount a ^^^ r.other a = m)) := by
    intro m hm a h1 h2
    rw [(stripe_inWord h m).contains_eq, stripe_match (Nat.lt_of_lt_of_le hm hpow)]
    show Except.ok (decide (r.start ≤ a) && decide (a ≤ r.stop) &&
      decide (field r.low r.bitCount a ^^^ r.other a = m)) = _
    rw [decide_eq_true h1, decide_eq_true h2, Bool.true_and, Bool.true_and]
  constructor
  · exact fun m hm => stripe_construct h.bits h.count_lt hxor hm
  · exact fun m hm a h1 h2 => ⟨_, hcontains m hm a h1 h2⟩
  · intro a h1 h2
    have hm := Nat.xor_lt_two_pow (field_lt r.low r.bitCount a) (r.other_lt a)
    refine ⟨field r.low r.bitCount a ^^^ r.other a, ⟨hm, ?_⟩, fun m hm' => ?_⟩
    · rw [hcontains _ hm a h1 h2, decide_eq_true rfl]
    · have hin := hm'.2
      rw [hcontains m hm'.1 a h1 h2, Except.ok.injEq, decide_eq_true_eq] at hin
      exact hin.symm
  · intro m hm
    refine ⟨_, hsizeEq, (stripe_inWord h m).offset_bijOn hxor hA hB ?_⟩
    rw [stripe_match (Nat.lt_of_lt_of_le hm hpow)]
    exact hm
  · exact ⟨_, hsizeEq, hdiff.symm⟩
  · intro a h1 h2
    have hfits := r.fits
    obtain ⟨-, hle, hcut⟩ := h.getOffset_eq hA h1 h2
    refine ⟨_, _, h.removeIntlvBits_eq (by omega), h.removeIntlvBits_eq hfits.1, ?_⟩
    rw [hcut]
    exact hle

/-! ### When they do not -/

theorem bits_defined {val : Nat} {first last : Int} {b : Nat} (h : Bitfield.bits val first last = .ok b) :
    0 ≤ last ∧ last < 64 := by
  unfold Bitfield.bits at h
  dsimp only at h
  obtain ⟨v, hv, -⟩ := bind_ok_iff.1 h
  unfold shr at hv
  split at hv
  · rename_i hcount
    exact hcount
  · cases hv

/-- The fields lie within a word if the first address can be tested. -/
theorem contains_defined {a : Nat} {b : Bool} (hi : r.interleaved = true) (h1 : r.start ≤ a) (h2 : a ≤ r.stop)
    (h : r.contains a = .ok b) : (0 ≤ r.lowBit r.intlvHighBit ∧ r.lowBit r.intlvHighBit < 64) ∧
      (r.xorHighBit ≠ 0 → 0 ≤ r.lowBit r.xorHighBit ∧ r.lowBit r.xorHighBit < 64) := by
  have hin : (decide (a ≥ r.start) && decide (a ≤ r.stop)) = true := by
    rw [Bool.and_eq_true, decide_eq_true_eq, decide_eq_true_eq]
    exact ⟨h1, h2⟩
  unfold contains at h
  dsimp only at h
  rw [hi, hashed_eq hi, hin, Bool.not_true, if_neg Bool.false_ne_true, if_pos rfl] at h
  split at h
  · rename_i hplain
    obtain ⟨b', hb, -⟩ := bind_ok_iff.1 h
    refine ⟨bits_defined hb, fun hx => ?_⟩
    simp [hx] at hplain
  · obtain ⟨b', hb, hrest⟩ := bind_ok_iff.1 h
    obtain ⟨x', hx, -⟩ := bind_ok_iff.1 hrest
    exact ⟨bits_defined hb, fun _ => bits_defined hx⟩

theorem size_defined {n : Nat} (h : r.size = .ok n) : r.bitCount < 64 := by
  unfold size shr at h
  split at h
  · rename_i hcount
    unfold bitCount
    omega
  · cases h

/-- The range of all addresses has size 0. -/
theorem size_all {n : Nat} (hall : r.stop + 1 - r.start = 2 ^ 64) (h : r.size = .ok n) : n = 0 := by
  have hfits := r.fits
  have hlt := size_defined h
  have hzero : (r.stop + 2 ^ 64 - r.start + 1) % 2 ^ 64 = 0 := by omega
  unfold size at h
  rw [show ((r.intlvBits.toNat : Nat) : Int) = (r.bitCount : Int) from rfl, shr_nat hlt, hzero, Nat.zero_div] at h
  cases h
  rfl

theorem Partitions.stripeable (h : r.Partitions) (hbits : r.bitCount ≠ 0) (hrange : r.start ≤ r.stop + 1) :
    r.Stripeable := by
  obtain ⟨n, hn, hexact⟩ := h.exact_size
  have hlt := size_defined hn
  rcases Nat.lt_or_ge r.stop r.start with hempty | hvalid
  · exact .inl ⟨by omega, hlt⟩
  · have hi : r.interleaved = true := by
      unfold RangeArgs.interleaved
      rw [decide_eq_true_eq]
      exact intlvBits_ne hbits
    obtain ⟨b, hb⟩ := h.total 0 (Nat.two_pow_pos _) r.start (Nat.le_refl _) hvalid
    obtain ⟨hslice, hxor⟩ := contains_defined (r := r.stripe 0) hi (Nat.le_refl r.start) hvalid hb
    have hslice : 0 ≤ r.lowBit r.intlvHighBit := hslice.1
    refine .inr ⟨hvalid, ?_, ?_, ?_, fun hx => ?_⟩
    · -- the size is not 2 ^ 64
      have hfits := r.fits
      by_contra hbig
      have hall : r.stop + 1 - r.start = 2 ^ 64 := by omega
      rw [size_all hall hn, Nat.zero_mul, hall] at hexact
      exact absurd hexact (by decide)
    · -- a stripe and the one 256 further are the same
      by_contra hbig
      have hpow : 512 ≤ 2 ^ r.bitCount := by
        have hle : 2 ^ 9 ≤ 2 ^ r.bitCount := Nat.pow_le_pow_right (by decide) (by omega)
        exact hle
      obtain ⟨m, ⟨hm, hin⟩, huniq⟩ := h.unique r.start (Nat.le_refl _) hvalid
      have hsame : ∀ m', UInt8.ofNat m' = UInt8.ofNat m → m' < 2 ^ r.bitCount → m' = m := by
        intro m' hmatch hm'
        refine huniq m' ⟨hm', ?_⟩
        unfold stripe at hin ⊢
        rw [hmatch]
        exact hin
      rcases Nat.lt_or_ge m 256 with hsmall | hlarge
      · have heq := hsame (m + 256) (UInt8.toNat.inj (by simp)) (by omega)
        omega
      · have heq := hsame (m - 256) (UInt8.toNat.inj (by simp; omega)) (by omega)
        omega
    · unfold lowBit at hslice
      unfold bitCount
      omega
    · have hxor : 0 ≤ r.lowBit r.xorHighBit ∧ r.lowBit r.xorHighBit < 64 := hxor hx
      unfold lowBit at hxor
      unfold bitCount
      omega

/-- **When the stripes partition an interleaved range.**  For fields that the constructor takes, and a range
of whole blocks, every address is in exactly one stripe, and the offset is a bijection from each stripe to
its size, if and only if the fields lie within an address, there are at most 256 stripes, and the range is
not that of all addresses, whose size is 0. -/
theorem partitions_iff (hbits : r.bitCount ≠ 0) (hrange : r.start ≤ r.stop + 1) (hxor : r.checkXor = .ok ())
    (hstart : 2 ^ (r.intlvHighBit.toNat + 1) ∣ r.start)
    (hsize : 2 ^ (r.intlvHighBit.toNat + 1) ∣ r.stop + 1 - r.start) : r.Partitions ↔ r.Stripeable := by
  constructor
  · exact fun h => h.stripeable hbits hrange
  · rintro (⟨hempty, hlt⟩ | ⟨hvalid, hlt, hbyte, hslice, hx⟩)
    · exact partitions_empty hempty hbits hlt hxor
    · have hhigh : r.intlvHighBit.toNat < 63 := by
        have hle := Nat.le_of_dvd (by omega) hsize
        have hpow : 2 ^ (r.intlvHighBit.toNat + 1) < 2 ^ 64 := Nat.lt_of_le_of_lt hle hlt
        have := (Nat.pow_lt_pow_iff_right (by decide : 1 < 2)).1 hpow
        omega
      have hin : r.InWord := by
        refine ⟨hbits, hslice, hhigh, fun hne => ⟨(hx hne).1, ?_⟩⟩
        have hbound := hx hne
        unfold xorLow
        omega
      exact hin.partitions hbyte hxor hvalid hlt hstart hsize

/-- A gigabyte at 2 GB in four channels of 128 bytes, hashed with bits 20 and 21. -/
def fourChannels : RangeArgs where
  start := 0x80000000
  stop := 0xbfffffff
  fits := by decide
  intlvHighBit := 8
  xorHighBit := 21
  intlvBits := 2
  intlvMatch := 0

theorem partitions_iff_fourChannels : fourChannels.Partitions :=
  (partitions_iff (r := fourChannels) (by decide) (by decide) rfl (by decide) (by decide)).2
    (.inr ⟨by decide, by decide, by decide, by decide, fun _ => ⟨by decide, by decide⟩⟩)

/-- All addresses, in two channels. -/
def allAddresses : RangeArgs where
  start := 0
  stop := 2 ^ 64 - 1
  fits := by decide
  intlvHighBit := 7
  xorHighBit := 0
  intlvBits := 1
  intlvMatch := 0

/-- The stripes of the range of all addresses have size 0. -/
theorem allAddresses_not_partitions : ¬ ∀ r : RangeArgs, r.bitCount ≠ 0 → r.start ≤ r.stop + 1 → r.checkXor = .ok () →
      2 ^ (r.intlvHighBit.toNat + 1) ∣ r.start → 2 ^ (r.intlvHighBit.toNat + 1) ∣ r.stop + 1 - r.start →
      r.Partitions := by
  intro h
  have hall := h allAddresses (by decide) (by decide) rfl (by decide) (by decide)
  obtain ⟨n, hn, hbij⟩ := hall.offset 0 (by decide)
  have hzero : n = 0 := size_all (r := allAddresses.stripe 0) (by decide) hn
  have hin : (allAddresses.stripe 0).contains 0 = .ok true := rfl
  obtain ⟨o, ho, -⟩ := hbij.mapsTo hin
  rw [hzero] at ho
  exact Nat.not_lt_zero o ho

end RangeArgs

end Alpine.Base
