import Mathlib.Algebra.Order.Ring.Int
import Mathlib.Tactic.Positivity
import Mathlib.Tactic.Ring
import Mathlib.Tactic.Zify

/-!
# The high half of a product

A product of two numbers of two digits each, in base `B`, is made of four products of digits.

* `highHalf_eq` — the part of the product from `B * B` on is the product of the high digits, the high digits of two
  middle sums, and the carry out of their low digits.
* `mid1_range`, `mid2_range` — the middle sums have the range of a product of a high digit and `B`, whether the high
  digits have a sign or not.
* `ofInt_ushiftRight`, `ofInt_sshiftRight`, `ofInt_low`, `high_unsigned`, `high_signed`, `ofInt_highHalf` — shifts and
  truncations of a word that holds a number, as quotients and remainders of the number.
-/

namespace Alpine.HighHalf

variable {B aH aL bH bL lo hi : Int}

/-- The middle sum that takes up the product of the low digits. -/
def mid1 (B aH aL bL : Int) : Int := aL * bL / B + aH * bL

def mid2 (aL bH : Int) : Int := aL * bH

def carry (B x y : Int) : Int := (x % B + y % B) / B

theorem add_ediv (hB : 0 < B) (x y : Int) : (x + y) / B = x / B + y / B + carry B x y := by
  have hx := Int.mul_ediv_add_emod x B
  have hy := Int.mul_ediv_add_emod y B
  have hsum : x + y = x % B + y % B + (x / B + y / B) * B := by
    rw [Int.add_mul, Int.mul_comm (x / B), Int.mul_comm (y / B)]
    omega
  rw [hsum, Int.add_mul_ediv_right _ _ hB.ne', carry, Int.add_comm]

theorem highHalf_eq (hB : 0 < B) (aH aL bH bL : Int) : (aH * B + aL) * (bH * B + bL) / (B * B) =
      carry B (mid1 B aH aL bL) (mid2 aL bH) + mid1 B aH aL bL / B + mid2 aL bH / B + aH * bH := by
  have hprod : (aH * B + aL) * (bH * B + bL) = aL * bL + (aH * bL + aL * bH + aH * bH * B) * B := by ring
  have hinner : aL * bL / B + (aH * bL + aL * bH + aH * bH * B) =
      mid1 B aH aL bL + mid2 aL bH + aH * bH * B := by
    unfold mid1 mid2
    ring
  rw [← Int.ediv_ediv_of_nonneg hB.le, hprod, Int.add_mul_ediv_right _ _ hB.ne', hinner,
    Int.add_mul_ediv_right _ _ hB.ne', add_ediv hB]
  ring

/-! ## Ranges -/

theorem mul_range {x y : Int} (hlo : lo ≤ 0) (hhi : 0 < hi) (hx : lo ≤ x ∧ x < hi) (hy : 0 ≤ y ∧ y < B) :
    lo * B ≤ x * y ∧ x * y ≤ (hi - 1) * (B - 1) := by
  constructor
  · calc lo * B ≤ lo * y := Int.mul_le_mul_of_nonpos_left hlo hy.2.le
      _ ≤ x * y := Int.mul_le_mul_of_nonneg_right hx.1 hy.1
  · calc x * y ≤ (hi - 1) * y := Int.mul_le_mul_of_nonneg_right (by omega) hy.1
      _ ≤ (hi - 1) * (B - 1) := Int.mul_le_mul_of_nonneg_left (by omega) (by omega)

theorem lt_mul (hhi : 0 < hi) : (hi - 1) * (B - 1) + (B - 1) < hi * B := by
  have heq : (hi - 1) * (B - 1) + (B - 1) = hi * B - hi := by ring
  omega

theorem mid2_range (hlo : lo ≤ 0) (hhi : 0 < hi) (haL : 0 ≤ aL ∧ aL < B) (hbH : lo ≤ bH ∧ bH < hi) :
    lo * B ≤ mid2 aL bH ∧ mid2 aL bH < hi * B := by
  obtain ⟨hmin, hmax⟩ := mul_range hlo hhi hbH haL
  have hlt : (hi - 1) * (B - 1) + (B - 1) < hi * B := lt_mul hhi
  rw [mid2, Int.mul_comm aL]
  exact ⟨hmin, by omega⟩

theorem mul_low_range (haL : 0 ≤ aL ∧ aL < B) (hbL : 0 ≤ bL ∧ bL < B) : 0 ≤ aL * bL ∧ aL * bL < B * B := by
  obtain ⟨hmin, hmax⟩ := mul_range (le_refl 0) (by omega) haL hbL
  have hlt : (B - 1) * (B - 1) + (B - 1) < B * B := lt_mul (by omega)
  exact ⟨by omega, by omega⟩

theorem mid1_range (hlo : lo ≤ 0) (hhi : 0 < hi) (haH : lo ≤ aH ∧ aH < hi) (haL : 0 ≤ aL ∧ aL < B)
    (hbL : 0 ≤ bL ∧ bL < B) : lo * B ≤ mid1 B aH aL bL ∧ mid1 B aH aL bL < hi * B := by
  have hB : 0 < B := by omega
  obtain ⟨hmin, hmax⟩ := mul_range hlo hhi haH hbL
  obtain ⟨hpos, hsq⟩ := mul_low_range haL hbL
  have hquot : 0 ≤ aL * bL / B := Int.ediv_nonneg hpos hB.le
  have hquot' : aL * bL / B < B := Int.ediv_lt_of_lt_mul hB hsq
  have hlt : (hi - 1) * (B - 1) + (B - 1) < hi * B := lt_mul hhi
  unfold mid1
  exact ⟨by omega, by omega⟩

/-! ## Words -/

variable {w n m : Nat} {x : Int}

theorem toNat_ofInt (x : Int) : ((BitVec.ofInt w x).toNat : Int) = x % 2 ^ w := by
  rw [BitVec.toNat_ofInt, Int.toNat_of_nonneg (Int.emod_nonneg _ (by positivity))]
  push_cast
  rfl

theorem ofInt_ushiftRight (hx : 0 ≤ x ∧ x < 2 ^ w) (n : Nat) : BitVec.ofInt w x >>> n = BitVec.ofInt w (x / 2 ^ n) := by
  apply BitVec.eq_of_toNat_eq
  zify
  have hdiv : x / 2 ^ n ≤ x := Int.ediv_le_self _ hx.1
  have hpos : 0 ≤ x / 2 ^ n := Int.ediv_nonneg hx.1 (by positivity)
  rw [BitVec.toNat_ushiftRight, Nat.shiftRight_eq_div_pow]
  push_cast
  rw [toNat_ofInt, toNat_ofInt, Int.emod_eq_of_lt hx.1 hx.2, Int.emod_eq_of_lt hpos (by omega)]

theorem ofInt_sshiftRight (hx : -2 ^ w ≤ x ∧ x < 2 ^ w) (n : Nat) :
    (BitVec.ofInt (w + 1) x).sshiftRight n = BitVec.ofInt (w + 1) (x / 2 ^ n) := by
  apply BitVec.eq_of_toInt_eq
  have hpow : (2 : Int) ^ (w + 1) = 2 * 2 ^ w := pow_succ' 2 w
  have hbmod : ∀ y : Int, -2 ^ w ≤ y → y < 2 ^ w → y.bmod (2 ^ (w + 1)) = y := by
    intro y hlo hhi
    refine Int.bmod_eq_of_le ?_ ?_ <;> push_cast <;> omega
  have hquot : -2 ^ w ≤ x / 2 ^ n ∧ x / 2 ^ n < 2 ^ w := by
    have hone : (1 : Int) ≤ 2 ^ n := one_le_pow₀ (by decide)
    constructor
    · refine Int.le_ediv_of_mul_le (by omega) ?_
      calc -2 ^ w * 2 ^ n ≤ -2 ^ w * 1 := Int.mul_le_mul_of_nonpos_left (by simp) hone
        _ ≤ x := by rw [Int.mul_one]; exact hx.1
    · refine Int.ediv_lt_of_lt_mul (by omega) ?_
      calc x < 2 ^ w * 1 := by rw [Int.mul_one]; exact hx.2
        _ ≤ 2 ^ w * 2 ^ n := Int.mul_le_mul_of_nonneg_left hone (by positivity)
  rw [BitVec.toInt_sshiftRight, BitVec.toInt_ofInt, BitVec.toInt_ofInt, hbmod x hx.1 hx.2, hbmod _ hquot.1 hquot.2,
    Int.shiftRight_eq_div_pow]
  push_cast
  rfl

theorem ofInt_low (hn : n ≤ w) (x : Int) :
    ((BitVec.ofInt w x).setWidth n).setWidth w = BitVec.ofInt w (x % 2 ^ n) := by
  apply BitVec.eq_of_toNat_eq
  zify
  rw [BitVec.toNat_setWidth, BitVec.toNat_setWidth]
  push_cast
  rw [toNat_ofInt, toNat_ofInt, Int.emod_emod_of_dvd x (pow_dvd_pow 2 hn)]

theorem high_unsigned (v : BitVec w) (hm : w ≤ m + n) :
    ((v >>> n).setWidth m).setWidth w = BitVec.ofInt w (v.toNat / 2 ^ n) := by
  apply BitVec.eq_of_toNat_eq
  zify
  have hlt : v.toNat / 2 ^ n < 2 ^ m := by
    refine Nat.div_lt_of_lt_mul ?_
    calc v.toNat < 2 ^ w := v.isLt
      _ ≤ 2 ^ (n + m) := Nat.pow_le_pow_right (by decide) (by omega)
      _ = 2 ^ n * 2 ^ m := Nat.pow_add 2 n m
  rw [BitVec.toNat_setWidth, BitVec.toNat_setWidth, BitVec.toNat_ushiftRight, Nat.shiftRight_eq_div_pow,
    Nat.mod_eq_of_lt hlt, toNat_ofInt]
  push_cast
  rfl

theorem signExtend_high (v : BitVec w) (hpos : 0 < m) (hm : m + n = w) :
    ((v >>> n).setWidth m).signExtend w = v.sshiftRight n := by
  refine BitVec.eq_of_getLsbD_eq fun i hi => ?_
  rw [BitVec.getLsbD_signExtend, BitVec.getLsbD_sshiftRight, decide_eq_true hi, decide_eq_false (by omega : ¬ w ≤ i),
    Bool.not_false, Bool.true_and, Bool.true_and]
  split
  next him =>
    rw [if_pos (by omega), BitVec.getLsbD_setWidth, BitVec.getLsbD_ushiftRight, decide_eq_true him, Bool.true_and]
  next him =>
    -- the sign of the high half is that of the word
    rw [if_neg (by omega), BitVec.msb_eq_getLsbD_last, BitVec.msb_eq_getLsbD_last, BitVec.getLsbD_setWidth,
      BitVec.getLsbD_ushiftRight, decide_eq_true (by omega : m - 1 < m), Bool.true_and]
    congr 1
    omega

theorem high_signed (v : BitVec w) (hpos : 0 < m) (hm : m + n = w) :
    ((v >>> n).setWidth m).signExtend w = BitVec.ofInt w (v.toInt / 2 ^ n) := by
  have hshift : (v.sshiftRight n).toInt = v.toInt / 2 ^ n := by
    rw [BitVec.toInt_sshiftRight, Int.shiftRight_eq_div_pow]
    push_cast
    rfl
  rw [signExtend_high v hpos hm, ← hshift, BitVec.ofInt_toInt]

theorem ofInt_highHalf (x : Int) : (BitVec.ofInt (w + w) x).extractLsb' w w = BitVec.ofInt w (x / 2 ^ w) := by
  apply BitVec.eq_of_toNat_eq
  zify
  have hhigh : x % 2 ^ (w + w) / 2 ^ w % 2 ^ w = x / 2 ^ w % 2 ^ w := by
    have hsplit := Int.emod_add_mul_ediv x (2 ^ (w + w))
    have hpos : (2 : Int) ^ w ≠ 0 := by positivity
    conv_rhs => rw [← hsplit, pow_add, Int.mul_assoc, Int.add_mul_ediv_left _ _ hpos, Int.add_mul_emod_self_left]
    rw [pow_add]
  rw [BitVec.extractLsb'_toNat, Nat.shiftRight_eq_div_pow, toNat_ofInt]
  push_cast
  rw [toNat_ofInt, hhigh]

end Alpine.HighHalf
