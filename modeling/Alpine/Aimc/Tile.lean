import Mathlib
import Alpine.Lib.CInt

/-!
# The AIMC tile

`AnalogComputationalMemoryCore` (`aimclib/aimc_check.hh`) and `AIMCTile`
(`dev/arm/aimc_cluster.hh`) have the same fields: a crossbar of `crossbarWidth * crossbarHeight`
parameters stored row by row, an input memory of `crossbarHeight` and an output memory of
`crossbarWidth` values, all `int8_t`, and two `int` counters.  `Tile H W` is that record.

* `Tile.columnAcc` — the accumulator of one column of the matrix-vector product.  Both sources
  accumulate in a `double`; `columnAcc_natAbs_le` bounds every column by `H * 2 ^ 14`, below
  `2 ^ 53` for every height an `int` can hold, so the sum is exact and is read as an `Int`.
* `index1D` — `(y * width) + x` in `int` arithmetic.
* `TileOp`, `TileRet` — the five operations both interfaces offer and what they return.
-/

namespace Alpine.Aimc

/-- How many values one queue or dequeue transfers. -/
def vectorization : Nat := 4

structure Tile (H W : Nat) where
  crossbar : Vector (BitVec 8) (W * H)
  inputMemory : Vector (BitVec 8) H
  outputMemory : Vector (BitVec 8) W
  inputMemoryCounter : Int
  outputMemoryCounter : Int
  /-- The size of the crossbar is an `int` expression of the constructor. -/
  fits : W * H < 2147483648

variable {H W : Nat}

/-- `AnalogComputationalMemoryCore::AnalogComputationalMemoryCore`: allocate, then `std::fill` the
three memories with zeros. -/
def Tile.fresh (fits : W * H < 2147483648) : Tile H W where
  crossbar := Vector.replicate _ 0
  inputMemory := Vector.replicate _ 0
  outputMemory := Vector.replicate _ 0
  inputMemoryCounter := 0
  outputMemoryCounter := 0
  fits := fits

theorem fits_2000 : 2000 * 2000 < 2147483648 := by decide

theorem fits_4000 : 4000 * 4000 < 2147483648 := by decide

theorem cell_lt {j i : Nat} (hj : j < H) (hi : i < W) : j * W + i < W * H := by
  calc j * W + i < j * W + W := by omega
    _ = (j + 1) * W := by rw [Nat.succ_mul]
    _ ≤ H * W := Nat.mul_le_mul_right W hj
    _ = W * H := Nat.mul_comm H W

/-- Position of row `j`, column `i` in the crossbar. -/
def cellIdx (j : Fin H) (i : Fin W) : Fin (W * H) := ⟨j * W + i, cell_lt j.isLt i.isLt⟩

theorem cellIdx_inj {j j' : Fin H} {i i' : Fin W} (h : (cellIdx j i).val = (cellIdx j' i').val) :
    j = j' ∧ i = i' := by
  have h : j.val * W + i = j'.val * W + i' := h
  have hi : i.val = i' := by
    have hmod := congrArg (· % W) h
    simpa only [Nat.mul_add_mod_self_right, Nat.mod_eq_of_lt i.isLt, Nat.mod_eq_of_lt i'.isLt]
      using hmod
  have hj : j.val * W = j'.val * W := by omega
  have hW : 0 < W := Nat.lt_of_le_of_lt (Nat.zero_le _) i.isLt
  exact ⟨Fin.ext (Nat.eq_of_mul_eq_mul_right hW hj), Fin.ext hi⟩

/-- `acc` after the inner loop of `aimcProcess` for column `i`. -/
def Tile.columnAcc (t : Tile H W) (i : Fin W) : Int :=
  Fin.foldl H (fun acc j =>
    acc + (t.inputMemory.get j).toInt * (t.crossbar.get (cellIdx j i)).toInt) 0

theorem natAbs_toInt_le (b : BitVec 8) : b.toInt.natAbs ≤ 128 := by
  have h1 := BitVec.le_toInt b
  have h2 := BitVec.toInt_lt (x := b)
  simp at h1 h2
  omega

/-- Every partial sum of a column is an integer a `double` holds exactly. -/
theorem columnAcc_natAbs_le (t : Tile H W) (i : Fin W) : (t.columnAcc i).natAbs ≤ H * 16384 := by
  refine Loop.foldl_inv _ (fun k (acc : Int) => acc.natAbs ≤ k * 16384) (by simp) fun j acc h => ?_
  have hx := natAbs_toInt_le (t.inputMemory.get j)
  have hy := natAbs_toInt_le (t.crossbar.get (cellIdx j i))
  have hxy := Nat.mul_le_mul hx hy
  rw [← Int.natAbs_mul] at hxy
  have := Int.natAbs_add_le acc
    ((t.inputMemory.get j).toInt * (t.crossbar.get (cellIdx j i)).toInt)
  omega

/-- `(y * width) + x`. -/
def index1D (W : Nat) (x y : Int) : Option Int := do
  let row ← int? (y * W)
  int? (row + x)

/-- In-range coordinates give the row-major position. -/
theorem index1D_cell (t : Tile H W) {x y : Nat} (hx : x < W) (hy : y < H) :
    index1D W x y = some ((y * W + x : Nat) : Int) := by
  have hfit := t.fits
  have hlt := cell_lt hy hx
  unfold index1D
  rw [← Int.natCast_mul, int?_natCast (by omega)]
  rw [bind_some_eq, ← Int.natCast_add, int?_natCast (by omega)]

/-- Byte `i` of a packed word: `(val >> (8 * i)) & 0xff` stored in an `int8_t`. -/
def byteAt (val : BitVec 32) (i : Nat) : BitVec 8 := ((val >>> (8 * i)) &&& 0xff#32).setWidth 8

theorem byteAt_eq (val : BitVec 32) (k : Nat) : byteAt val k = (val >>> (8 * k)).setWidth 8 := by
  unfold byteAt
  rw [BitVec.setWidth_and]
  exact BitVec.and_allOnes

theorem getElem_mask8 {i : Nat} (h : i < 32) : (0xff#32)[i] = decide (i < 8) := by
  have := Nat.testBit_two_pow_sub_one 8 i
  rw [← BitVec.getLsbD_eq_getElem, BitVec.getLsbD_ofNat]
  simp at this ⊢
  rw [this]
  simp
  omega

theorem mask_setWidth (b : BitVec 8) : 0xff#32 &&& b.setWidth 32 = b.setWidth 32 := by
  ext i hi
  simp only [BitVec.getElem_and, getElem_mask8, BitVec.getElem_setWidth, Bool.and_eq_right_iff_imp, decide_eq_true_eq]
  exact BitVec.lt_of_getLsbD

theorem mask_signExtend (b : BitVec 8) : 0xff#32 &&& b.signExtend 32 = b.setWidth 32 := by
  ext i hi
  simp only [BitVec.getElem_and, getElem_mask8, BitVec.getElem_signExtend, BitVec.getElem_setWidth]
  grind

/-- The word whose byte `i` is the `i`-th argument, as the dequeue loop shifts it together. -/
def packWord (b0 b1 b2 b3 : BitVec 8) : BitVec 32 :=
  ((((((0#32 <<< 8) ||| b3.setWidth 32) <<< 8) ||| b2.setWidth 32) <<< 8) ||| b1.setWidth 32) <<< 8
    ||| b0.setWidth 32

theorem byteAt_packWord (b0 b1 b2 b3 : BitVec 8) :
    byteAt (packWord b0 b1 b2 b3) 0 = b0 ∧ byteAt (packWord b0 b1 b2 b3) 1 = b1 ∧
      byteAt (packWord b0 b1 b2 b3) 2 = b2 ∧ byteAt (packWord b0 b1 b2 b3) 3 = b3 := by
  refine ⟨?_, ?_, ?_, ?_⟩ <;> rw [byteAt_eq] <;> unfold packWord <;> ext i hi <;> simp <;> grind

/-- A word is the sum of its bytes. -/
theorem toNat_eq_bytes (r : BitVec 32) : r.toNat = ((((byteAt r 3).toNat * 256 + (byteAt r 2).toNat) * 256 +
    (byteAt r 1).toNat) * 256 + (byteAt r 0).toNat) := by
  have hr := r.isLt
  simp only [byteAt_eq, BitVec.toNat_setWidth, BitVec.toNat_ushiftRight, Nat.shiftRight_eq_div_pow]
  omega

theorem word_ext {r s : BitVec 32} (h : ∀ i < 4, byteAt r i = byteAt s i) : r = s := by
  apply BitVec.eq_of_toNat_eq
  rw [toNat_eq_bytes r, toNat_eq_bytes s, h 0 (by omega), h 1 (by omega), h 2 (by omega), h 3 (by omega)]

/-- A call of one of the five tile operations, with its arguments in their C++ types. -/
inductive TileOp where
  | aimcProcess
  | aimcQueue (val : BitVec 32)
  | aimcDequeue
  | aimcParamRead (x y : Int)
  | aimcParamWrite (x y : Int) (val : BitVec 8)
  deriving DecidableEq

/-- Returned value of a tile operation. -/
inductive TileRet where
  | void
  | word (v : BitVec 32)
  | param (v : BitVec 8)
  deriving DecidableEq

/-- Coordinates inside the crossbar. -/
def TileOp.InRange (H W : Nat) : TileOp → Prop
  | .aimcParamRead x y => (0 ≤ x ∧ x < W) ∧ 0 ≤ y ∧ y < H
  | .aimcParamWrite x y _ => (0 ≤ x ∧ x < W) ∧ 0 ≤ y ∧ y < H
  | _ => True

instance : (op : TileOp) → Decidable (op.InRange H W)
  | .aimcParamRead _ _ => inferInstanceAs (Decidable (_ ∧ _))
  | .aimcParamWrite _ _ _ => inferInstanceAs (Decidable (_ ∧ _))
  | .aimcProcess | .aimcQueue _ | .aimcDequeue => inferInstanceAs (Decidable True)

end Alpine.Aimc
