import Mathlib

/-!
# Bit masks

The C++ idioms on masks: `1 << i` selects, `m & ~(1 << i)` clears and `m | (1 << i)` sets bit `i`.
-/

namespace Alpine

variable {w : Nat}

theorem getLsbD_one_shift {i : Nat} (h : i < w) (j : Nat) : (1#w <<< i).getLsbD j = decide (j = i) := by
  rw [← BitVec.twoPow_eq, BitVec.getLsbD_twoPow]
  by_cases e : j = i
  · subst e
    simp [h]
  · simp [e, Ne.symm e]

theorem one_shift_and_ne_zero {i : Nat} (h : i < w) (m : BitVec w) : 1#w <<< i &&& m ≠ 0 ↔ m.getLsbD i = true := by
  constructor
  · intro hne
    by_contra hm
    apply hne
    apply BitVec.eq_of_getLsbD_eq
    intro j hj
    rw [BitVec.getLsbD_and, getLsbD_one_shift h]
    by_cases e : j = i
    · subst e
      simpa using hm
    · simp [e]
  · intro hm h0
    have hbit := congrArg (fun b => BitVec.getLsbD b i) h0
    simp [getLsbD_one_shift h, hm] at hbit

theorem getLsbD_clear {i : Nat} (h : i < w) (m : BitVec w) (j : Nat) :
    (m &&& ~~~(1#w <<< i)).getLsbD j = (m.getLsbD j && decide (j ≠ i)) := by
  by_cases hj : j < w
  · rw [BitVec.getLsbD_and, BitVec.getLsbD_not, getLsbD_one_shift h]
    simp [hj]
  · rw [BitVec.getLsbD_of_ge _ _ (by omega), BitVec.getLsbD_of_ge m _ (by omega)]
    simp

theorem getLsbD_set {i : Nat} (h : i < w) (m : BitVec w) (j : Nat) :
    (m ||| 1#w <<< i).getLsbD j = (m.getLsbD j || decide (j = i)) := by
  rw [BitVec.getLsbD_or, getLsbD_one_shift h]

theorem getLsbD_ones {n : Nat} (h : n ≤ w) (j : Nat) : (BitVec.ofNat w (2 ^ n - 1)).getLsbD j = decide (j < n) := by
  rw [BitVec.getLsbD_ofNat, Nat.testBit_two_pow_sub_one]
  by_cases hj : j < n
  · simp [hj]
    omega
  · simp [hj]

theorem and_not_eq_self_iff (x y : BitVec w) : x &&& ~~~y = x ↔ x &&& y = 0#w := by
  constructor
  · intro h
    rw [← h, BitVec.and_assoc, BitVec.and_comm (~~~y), BitVec.and_not_self]
    exact BitVec.and_zero
  · intro h
    refine BitVec.eq_of_getLsbD_eq fun i hi => ?_
    have hbit := congrArg (fun z => z.getLsbD i) h
    simp only [BitVec.getLsbD_and, BitVec.getLsbD_zero] at hbit
    rw [BitVec.getLsbD_and, BitVec.getLsbD_not, decide_eq_true hi, Bool.true_and]
    revert hbit
    cases x.getLsbD i <;> cases y.getLsbD i <;> decide

/-- The numbers whose least set bit is the only one. -/
theorem and_not_pred_eq_self_iff {n : BitVec w} (hn : n ≠ 0#w) : n &&& ~~~(n - 1#w) = n ↔ ∃ k, n.toNat = 2 ^ k := by
  have hpos : n.toNat ≠ 0 := fun h => hn (BitVec.eq_of_toNat_eq h)
  have hone : (1#w).toNat = 1 := Nat.mod_eq_of_lt (by have hlt := n.isLt; omega)
  have hle : 1#w ≤ n := by
    rw [BitVec.le_def, hone]
    omega
  rw [and_not_eq_self_iff, ← BitVec.toNat_inj, BitVec.toNat_and, BitVec.toNat_sub_of_le hle, hone]
  exact Nat.and_sub_one_eq_zero_iff_isPowerOfTwo hpos

end Alpine
