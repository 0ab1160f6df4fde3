import Alpine.Arm.CmInst
import Alpine.Lib.HighHalf
import Alpine.Lib.Mask

/-!
# The high half of a 64-bit product

The execute bodies of `smulh` and `umulh` (`isa/insts/data64.isa`), which put the product together from the four
products of 32-bit halves in arithmetic modulo `2 ^ 64`, and `ArmStaticInst::shiftReg64` (`insts/static_inst.cc`).

* `shiftReg64_asr` — an arithmetic shift of all 64 bits is one.
* `smulh_eq`, `umulh_eq` — the bodies on the numbers that the operands stand for.
* `mulh_exact` — the result is the high half of the 128-bit product.
-/

namespace Alpine.Arm

open HighHalf

inductive ArmShiftType where
  | LSL
  | LSR
  | ASR
  | ROR

/-- `shiftReg64` of an instruction object with the given `intWidth`. -/
def shiftReg64 (intWidth : Nat) (base : BitVec 64) (shiftAmt : Nat) (type : ArmShiftType) (width : Nat) : BitVec 64 :=
  let shiftAmt := shiftAmt % width
  match type with
  | .LSL => base <<< shiftAmt
  | .LSR => if shiftAmt = 0 then base else (base &&& mask width) >>> shiftAmt
  | .ASR =>
    if shiftAmt = 0 then base
    else
      let sign_bit := base.getLsbD (intWidth - 1)
      let base := base >>> shiftAmt
      let base := if sign_bit then base ||| ~~~mask (intWidth - shiftAmt) else base
      base &&& mask intWidth
  | .ROR => if shiftAmt = 0 then base else (base <<< (width - shiftAmt)) ||| (base >>> shiftAmt)

/-- The `intWidth` of an instruction on 64-bit registers. -/
def intWidth : Nat := 64

def smulh (XOp1 XOp2 : BitVec 64) : BitVec 64 :=
  let op1H := ((XOp1 >>> 32).setWidth 32).signExtend 64
  let op1L := (XOp1.setWidth 32).setWidth 64
  let op2H := ((XOp2 >>> 32).setWidth 32).signExtend 64
  let op2L := (XOp2.setWidth 32).setWidth 64
  let mid1 := ((op1L * op2L) >>> 32) + op1H * op2L
  let mid2 := op1L * op2H
  let result := ((mid1.setWidth 32).setWidth 64 + (mid2.setWidth 32).setWidth 64) >>> 32
  let result := result + shiftReg64 intWidth mid1 32 .ASR intWidth
  let result := result + shiftReg64 intWidth mid2 32 .ASR intWidth
  result + op1H * op2H

def umulh (XOp1 XOp2 : BitVec 64) : BitVec 64 :=
  let op1H := ((XOp1 >>> 32).setWidth 32).setWidth 64
  let op1L := (XOp1.setWidth 32).setWidth 64
  let op2H := ((XOp2 >>> 32).setWidth 32).setWidth 64
  let op2L := (XOp2.setWidth 32).setWidth 64
  let mid1 := ((op1L * op2L) >>> 32) + op1H * op2L
  let mid2 := op1L * op2H
  let result := ((mid1.setWidth 32).setWidth 64 + (mid2.setWidth 32).setWidth 64) >>> 32
  let result := result + mid1 >>> 32
  let result := result + mid2 >>> 32
  result + op1H * op2H

/-! ## The shift -/

theorem getLsbD_mask {n : Nat} (hn : n ≤ 64) (i : Nat) : (mask n).getLsbD i = decide (i < n) := by
  unfold mask
  split
  next heq => rw [BitVec.getLsbD_allOnes, heq]
  next => exact getLsbD_ones hn i

theorem shiftReg64_asr (v : BitVec 64) {n : Nat} (hn : n < 64) : shiftReg64 64 v n .ASR 64 = v.sshiftRight n := by
  refine BitVec.eq_of_getLsbD_eq fun i hi => ?_
  rw [BitVec.getLsbD_sshiftRight, decide_eq_false (by omega : ¬ 64 ≤ i), Bool.not_false, Bool.true_and, v.msb_eq_getLsbD_last]
  unfold shiftReg64
  dsimp only
  rw [Nat.mod_eq_of_lt hn]
  split
  next hzero => rw [hzero, Nat.zero_add, if_pos hi]
  next hpos =>
    rw [BitVec.getLsbD_and, getLsbD_mask (le_refl 64) i, decide_eq_true hi, Bool.and_true]
    have hhigh : (~~~mask (64 - n)).getLsbD i = decide (¬ n + i < 64) := by
      rw [BitVec.getLsbD_not, getLsbD_mask (by omega) i, decide_eq_true hi, Bool.true_and, ← decide_not]
      exact decide_eq_decide.2 (by omega)
    cases hsign : v.getLsbD (64 - 1) with
    | true =>
      rw [if_pos rfl, BitVec.getLsbD_or, BitVec.getLsbD_ushiftRight, hhigh]
      split
      next hlt => rw [decide_eq_false (not_not.2 hlt), Bool.or_false]
      next hge => rw [decide_eq_true hge, Bool.or_true]
    | false =>
      rw [if_neg Bool.false_ne_true, BitVec.getLsbD_ushiftRight]
      split
      next => rfl
      next hge => exact BitVec.getLsbD_of_ge v _ (by omega)

/-! ## The bodies -/

/-- The digits of an operand. -/
theorem digits (x : Int) : x / 2 ^ 32 * 2 ^ 32 + x % 2 ^ 32 = x := by
  have := Int.mul_ediv_add_emod x (2 ^ 32)
  rwa [Int.mul_comm] at this

theorem low_range (x : Int) : 0 ≤ x % 2 ^ 32 ∧ x % 2 ^ 32 < 2 ^ 32 :=
  ⟨Int.emod_nonneg _ (by decide), Int.emod_lt_of_pos _ (by decide)⟩

theorem low_eq {v : BitVec 64} {x : Int} (hx : v = BitVec.ofInt 64 x) :
    (v.setWidth 32).setWidth 64 = BitVec.ofInt 64 (x % 2 ^ 32) := by
  rw [hx]
  exact ofInt_low (by decide) x

/-- What both bodies compute, up to the shift of the middle sums and the extension of the high halves. -/
theorem body_eq {op1H op1L op2H op2L s1 s2 : BitVec 64} {aH aL bH bL : Int} (h1H : op1H = BitVec.ofInt 64 aH)
    (h1L : op1L = BitVec.ofInt 64 aL) (h2H : op2H = BitVec.ofInt 64 bH) (h2L : op2L = BitVec.ofInt 64 bL)
    (haL : 0 ≤ aL ∧ aL < 2 ^ 32) (hbL : 0 ≤ bL ∧ bL < 2 ^ 32)
    (hs1 : ((op1L * op2L) >>> 32) + op1H * op2L = BitVec.ofInt 64 (mid1 (2 ^ 32) aH aL bL) →
      s1 = BitVec.ofInt 64 (mid1 (2 ^ 32) aH aL bL / 2 ^ 32))
    (hs2 : op1L * op2H = BitVec.ofInt 64 (mid2 aL bH) → s2 = BitVec.ofInt 64 (mid2 aL bH / 2 ^ 32)) :
    ((((((op1L * op2L) >>> 32) + op1H * op2L).setWidth 32).setWidth 64 +
      ((op1L * op2H).setWidth 32).setWidth 64) >>> 32) + s1 + s2 + op1H * op2H =
      BitVec.ofInt 64 ((aH * 2 ^ 32 + aL) * (bH * 2 ^ 32 + bL) / 2 ^ 64) := by
  have hlow : (op1L * op2L) >>> 32 = BitVec.ofInt 64 (aL * bL / 2 ^ 32) := by
    obtain ⟨hmin, hmax⟩ := mul_low_range haL hbL
    rw [h1L, h2L, ← BitVec.ofInt_mul]
    exact ofInt_ushiftRight ⟨hmin, hmax⟩ 32
  have hmid1 : ((op1L * op2L) >>> 32) + op1H * op2L = BitVec.ofInt 64 (mid1 (2 ^ 32) aH aL bL) := by
    rw [hlow, h1H, h2L, ← BitVec.ofInt_mul, ← BitVec.ofInt_add]
    rfl
  have hmid2 : op1L * op2H = BitVec.ofInt 64 (mid2 aL bH) := by
    rw [h1L, h2H, ← BitVec.ofInt_mul]
    rfl
  have hcarry : ((BitVec.ofInt 64 (mid1 (2 ^ 32) aH aL bL % 2 ^ 32) + BitVec.ofInt 64 (mid2 aL bH % 2 ^ 32)) >>> 32) =
      BitVec.ofInt 64 (carry (2 ^ 32) (mid1 (2 ^ 32) aH aL bL) (mid2 aL bH)) := by
    have hx := low_range (mid1 (2 ^ 32) aH aL bL)
    have hy := low_range (mid2 aL bH)
    rw [← BitVec.ofInt_add]
    exact ofInt_ushiftRight ⟨by omega, by omega⟩ 32
  rw [low_eq hmid1, low_eq hmid2, hs1 hmid1, hs2 hmid2, hcarry, h1H, h2H, ← BitVec.ofInt_mul, ← BitVec.ofInt_add,
    ← BitVec.ofInt_add, ← BitVec.ofInt_add, ← highHalf_eq (by decide) aH aL bH bL]
  rfl

theorem umulh_eq (XOp1 XOp2 : BitVec 64) : umulh XOp1 XOp2 = BitVec.ofInt 64 (XOp1.toNat * XOp2.toNat / 2 ^ 64) := by
  have hhigh : ∀ v : BitVec 64, (0 : Int) ≤ v.toNat / 2 ^ 32 ∧ (v.toNat : Int) / 2 ^ 32 < 2 ^ 32 := by
    intro v
    have := v.isLt
    exact ⟨by omega, by omega⟩
  have hword : ∀ v : BitVec 64, v = BitVec.ofInt 64 v.toNat := by
    intro v
    rw [BitVec.ofInt_natCast, BitVec.ofNat_toNat, BitVec.setWidth_eq]
  have hshift : ∀ {v : BitVec 64} {x : Int}, 0 * 2 ^ 32 ≤ x ∧ x < 2 ^ 32 * 2 ^ 32 → v = BitVec.ofInt 64 x →
      v >>> 32 = BitVec.ofInt 64 (x / 2 ^ 32) := by
    rintro v x ⟨hmin, hmax⟩ rfl
    exact ofInt_ushiftRight ⟨by omega, by omega⟩ 32
  have hlow1 := low_range XOp1.toNat
  have hlow2 := low_range XOp2.toNat
  have hbody := body_eq (high_unsigned XOp1 (m := 32) (n := 32) (by decide)) (low_eq (hword XOp1))
    (high_unsigned XOp2 (m := 32) (n := 32) (by decide)) (low_eq (hword XOp2)) hlow1 hlow2
    (hshift (mid1_range (le_refl 0) (by decide) (hhigh XOp1) hlow1 hlow2))
    (hshift (mid2_range (le_refl 0) (by decide) hlow1 (hhigh XOp2)))
  rw [digits, digits] at hbody
  exact hbody

theorem smulh_eq (XOp1 XOp2 : BitVec 64) : smulh XOp1 XOp2 = BitVec.ofInt 64 (XOp1.toInt * XOp2.toInt / 2 ^ 64) := by
  have hhigh : ∀ v : BitVec 64, -2 ^ 31 ≤ v.toInt / 2 ^ 32 ∧ v.toInt / 2 ^ 32 < 2 ^ 31 := by
    intro v
    have hmin := v.le_toInt
    have hmax := v.toInt_lt
    exact ⟨by omega, by omega⟩
  have hword : ∀ v : BitVec 64, v = BitVec.ofInt 64 v.toInt := fun _ => BitVec.ofInt_toInt.symm
  have hshift : ∀ {v : BitVec 64} {x : Int}, -2 ^ 31 * 2 ^ 32 ≤ x ∧ x < 2 ^ 31 * 2 ^ 32 → v = BitVec.ofInt 64 x →
      shiftReg64 intWidth v 32 .ASR intWidth = BitVec.ofInt 64 (x / 2 ^ 32) := by
    rintro v x hx rfl
    rw [intWidth, shiftReg64_asr _ (by decide)]
    exact ofInt_sshiftRight (w := 63) hx 32
  have hlow1 := low_range XOp1.toInt
  have hlow2 := low_range XOp2.toInt
  have hbody := body_eq (high_signed XOp1 (m := 32) (n := 32) (by decide) rfl) (low_eq (hword XOp1))
    (high_signed XOp2 (m := 32) (n := 32) (by decide) rfl) (low_eq (hword XOp2)) hlow1 hlow2
    (hshift (mid1_range (by decide) (by decide) (hhigh XOp1) hlow1 hlow2))
    (hshift (mid2_range (by decide) (by decide) hlow1 (hhigh XOp2)))
  rw [digits, digits] at hbody
  exact hbody

/-- The results are the high 64 bits of the signed and of the unsigned 128-bit product. -/
theorem mulh_exact (XOp1 XOp2 : BitVec 64) :
    smulh XOp1 XOp2 = (XOp1.signExtend 128 * XOp2.signExtend 128).extractLsb' 64 64 ∧
      umulh XOp1 XOp2 = (XOp1.setWidth 128 * XOp2.setWidth 128).extractLsb' 64 64 := by
  constructor
  · have hext : ∀ v : BitVec 64, v.signExtend 128 = BitVec.ofInt 128 v.toInt := by
      intro v
      rw [← BitVec.ofInt_toInt (x := v.signExtend 128), BitVec.toInt_signExtend_of_le (by decide)]
    rw [smulh_eq, hext, hext, ← BitVec.ofInt_mul]
    exact (ofInt_highHalf (w := 64) _).symm
  · have hext : ∀ v : BitVec 64, v.setWidth 128 = BitVec.ofInt 128 v.toNat := by
      intro v
      rw [BitVec.ofInt_natCast, BitVec.ofNat_toNat]
    rw [umulh_eq, hext, hext, ← BitVec.ofInt_mul]
    exact (ofInt_highHalf (w := 64) _).symm

/-- The least number squared, where all the products of digits are at their limits. -/
example : smulh 0x8000000000000000 0x8000000000000000 = 0x4000000000000000 := by decide

end Alpine.Arm
