import Mathlib

/-!
# CRC-32 (`base/crc.hh`, `base/bitfield.hh`)

The left-shifting CRC between three bit reversals, and the instructions that call it.

* `reverseLookUpTable`, `reverseBits`, `crc32` as in the source.  The buffer is the list of its `size` bytes; no
  caller passes more than eight, far from the bound of the `int` index.
* `crc32_inst` — the body shared by `crc32b`, `crc32h`, `crc32w`, `crc32x` (`insts/data64.isa`) and the four with
  the other polynomial.
* `reflected` — the reflected CRC: shift right, and exclusive or with the reversed polynomial.
* `crc32_reflected` — `crc32` is the reflected CRC, it composes, and `crc32x` is two steps of `crc32w`.
-/

namespace Alpine.Base

/-- The table of `bitfield.cc`. -/
def reverseLookUpTable : List (BitVec 8) :=
  [0x00, 0x80, 0x40, 0xC0, 0x20, 0xA0, 0x60, 0xE0, 0x10, 0x90, 0x50, 0xD0,
    0x30, 0xB0, 0x70, 0xF0, 0x08, 0x88, 0x48, 0xC8, 0x28, 0xA8, 0x68, 0xE8,
    0x18, 0x98, 0x58, 0xD8, 0x38, 0xB8, 0x78, 0xF8, 0x04, 0x84, 0x44, 0xC4,
    0x24, 0xA4, 0x64, 0xE4, 0x14, 0x94, 0x54, 0xD4, 0x34, 0xB4, 0x74, 0xF4,
    0x0C, 0x8C, 0x4C, 0xCC, 0x2C, 0xAC, 0x6C, 0xEC, 0x1C, 0x9C, 0x5C, 0xDC,
    0x3C, 0xBC, 0x7C, 0xFC, 0x02, 0x82, 0x42, 0xC2, 0x22, 0xA2, 0x62, 0xE2,
    0x12, 0x92, 0x52, 0xD2, 0x32, 0xB2, 0x72, 0xF2, 0x0A, 0x8A, 0x4A, 0xCA,
    0x2A, 0xAA, 0x6A, 0xEA, 0x1A, 0x9A, 0x5A, 0xDA, 0x3A, 0xBA, 0x7A, 0xFA,
    0x06, 0x86, 0x46, 0xC6, 0x26, 0xA6, 0x66, 0xE6, 0x16, 0x96, 0x56, 0xD6,
    0x36, 0xB6, 0x76, 0xF6, 0x0E, 0x8E, 0x4E, 0xCE, 0x2E, 0xAE, 0x6E, 0xEE,
    0x1E, 0x9E, 0x5E, 0xDE, 0x3E, 0xBE, 0x7E, 0xFE, 0x01, 0x81, 0x41, 0xC1,
    0x21, 0xA1, 0x61, 0xE1, 0x11, 0x91, 0x51, 0xD1, 0x31, 0xB1, 0x71, 0xF1,
    0x09, 0x89, 0x49, 0xC9, 0x29, 0xA9, 0x69, 0xE9, 0x19, 0x99, 0x59, 0xD9,
    0x39, 0xB9, 0x79, 0xF9, 0x05, 0x85, 0x45, 0xC5, 0x25, 0xA5, 0x65, 0xE5,
    0x15, 0x95, 0x55, 0xD5, 0x35, 0xB5, 0x75, 0xF5, 0x0D, 0x8D, 0x4D, 0xCD,
    0x2D, 0xAD, 0x6D, 0xED, 0x1D, 0x9D, 0x5D, 0xDD, 0x3D, 0xBD, 0x7D, 0xFD,
    0x03, 0x83, 0x43, 0xC3, 0x23, 0xA3, 0x63, 0xE3, 0x13, 0x93, 0x53, 0xD3,
    0x33, 0xB3, 0x73, 0xF3, 0x0B, 0x8B, 0x4B, 0xCB, 0x2B, 0xAB, 0x6B, 0xEB,
    0x1B, 0x9B, 0x5B, 0xDB, 0x3B, 0xBB, 0x7B, 0xFB, 0x07, 0x87, 0x47, 0xC7,
    0x27, 0xA7, 0x67, 0xE7, 0x17, 0x97, 0x57, 0xD7, 0x37, 0xB7, 0x77, 0xF7,
    0x0F, 0x8F, 0x4F, 0xCF, 0x2F, 0xAF, 0x6F, 0xEF, 0x1F, 0x9F, 0x5F, 0xDF,
    0x3F, 0xBF, 0x7F, 0xFF]

/-- The loop of `reverseBits`, with `size` bytes to go. -/
def reverseBitsLoop {w : Nat} (output val : BitVec w) : Nat → BitVec w
  | 0 => output
  | size + 1 =>
    reverseBitsLoop ((output <<< 8) ||| (reverseLookUpTable.getD (val.toNat % 2 ^ 8) 0).setWidth w) (val >>> 8) size

def reverseBits {w : Nat} (val : BitVec w) (size : Nat) : BitVec w := reverseBitsLoop 0 val size

/-- One round of the inner loop of `crc32`, on `crc` and `byte`. -/
def crcBit (Poly : BitVec 32) : BitVec 32 × BitVec 32 → BitVec 32 × BitVec 32
  | (crc, byte) => (if (crc ^^^ byte).toInt < 0 then (crc <<< 1) ^^^ Poly else crc <<< 1, byte <<< 1)

/-- One round of the outer loop of `crc32`. -/
def crcByte (Poly crc : BitVec 32) (data : BitVec 8) : BitVec 32 :=
  ((crcBit Poly)^[8] (crc, reverseBits (data.setWidth 32) 4)).1

def crc32 (Poly : BitVec 32) (data : List (BitVec 8)) (crc : BitVec 32) : BitVec 32 :=
  reverseBits (data.foldl (crcByte Poly) (reverseBits crc 4)) 4

/-- The first `size` bytes of a register in memory, the least significant first. -/
def dataBuffer (op : BitVec 64) (size : Nat) : List (BitVec 8) :=
  (List.range size).map fun i => (op >>> (8 * i)).setWidth 8

/-- The value written.  With register 15 as the destination the source writes it by another path (`maybePCWrite`). -/
def crc32_inst (polynom : BitVec 32) (sz : Nat) (Op164 Op264 : BitVec 64) : BitVec 64 :=
  (crc32 polynom (dataBuffer Op264 sz) (Op164.setWidth 32)).setWidth 64

def crc32b : BitVec 64 → BitVec 64 → BitVec 64 := crc32_inst 0x04C11DB7 1
def crc32h : BitVec 64 → BitVec 64 → BitVec 64 := crc32_inst 0x04C11DB7 2
def crc32w : BitVec 64 → BitVec 64 → BitVec 64 := crc32_inst 0x04C11DB7 4
def crc32x : BitVec 64 → BitVec 64 → BitVec 64 := crc32_inst 0x04C11DB7 8
def crc32cb : BitVec 64 → BitVec 64 → BitVec 64 := crc32_inst 0x1EDC6F41 1
def crc32ch : BitVec 64 → BitVec 64 → BitVec 64 := crc32_inst 0x1EDC6F41 2
def crc32cw : BitVec 64 → BitVec 64 → BitVec 64 := crc32_inst 0x1EDC6F41 4
def crc32cx : BitVec 64 → BitVec 64 → BitVec 64 := crc32_inst 0x1EDC6F41 8

/-! ### The reflected CRC -/

def reflectedBit (Poly crc : BitVec 32) : BitVec 32 :=
  if crc.getLsbD 0 then (crc >>> 1) ^^^ Poly.reverse else crc >>> 1

def reflectedByte (Poly crc : BitVec 32) (data : BitVec 8) : BitVec 32 :=
  (reflectedBit Poly)^[8] (crc ^^^ data.setWidth 32)

def reflected (Poly : BitVec 32) (data : List (BitVec 8)) (crc : BitVec 32) : BitVec 32 :=
  data.foldl (reflectedByte Poly) crc

/-! ### The reversal -/

theorem reverseLookUpTable_eq (b : BitVec 8) : reverseLookUpTable.getD b.toNat 0 = b.reverse := by
  revert b
  decide +kernel

/-- The low bytes of `val` are reversed below the bits that `output` had. -/
theorem getLsbD_reverseBitsLoop {w : Nat} (output val : BitVec w) (size i : Nat) (hi : i < w) :
    (reverseBitsLoop output val size).getLsbD i =
      if i < 8 * size then val.getLsbD (8 * size - 1 - i) else output.getLsbD (i - 8 * size) := by
  induction size generalizing output val with
  | zero => simp [reverseBitsLoop]
  | succ size ih =>
    have hb : val.toNat % 2 ^ 8 = (val.setWidth 8).toNat := by simp
    rw [reverseBitsLoop, ih, hb, reverseLookUpTable_eq]
    by_cases h : i < 8 * size
    · have h' : i < 8 * (size + 1) := by omega
      have hk : 8 + (8 * size - 1 - i) = 8 * (size + 1) - 1 - i := by omega
      simp [h, h', hk]
    · have hw : i - 8 * size < w := by omega
      rw [if_neg h, BitVec.getLsbD_or, BitVec.getLsbD_shiftLeft, BitVec.getLsbD_setWidth, BitVec.getLsbD_reverse]
      by_cases h' : i < 8 * (size + 1)
      · have h8 : i - 8 * size < 8 := by omega
        have hk : 8 - 1 - (i - 8 * size) = 8 * (size + 1) - 1 - i := by omega
        have hk8 : 8 * (size + 1) - 1 - i < 8 := by omega
        simp [h', h8, hw, BitVec.getMsbD, hk, hk8]
      · have h8 : ¬ i - 8 * size < 8 := by omega
        have hk : i - 8 * size - 8 = i - 8 * (size + 1) := by omega
        simp [h', h8, hw, BitVec.getMsbD, hk]

/-- With all the bytes of the word the whole word is reversed. -/
theorem reverseBits_eq {w : Nat} (val : BitVec w) (size : Nat) (hw : w = 8 * size) :
    reverseBits val size = val.reverse := by
  apply BitVec.eq_of_getLsbD_eq
  intro i hi
  rw [reverseBits, getLsbD_reverseBitsLoop _ _ _ _ hi, if_pos (by omega), BitVec.getLsbD_reverse, BitVec.getMsbD, ← hw]
  simp [hi]

theorem reverse_xor {w : Nat} (x y : BitVec w) : (x ^^^ y).reverse = x.reverse ^^^ y.reverse := by
  apply BitVec.eq_of_getLsbD_eq
  intro i hi
  simp only [BitVec.getLsbD_reverse, BitVec.getLsbD_xor, BitVec.getMsbD_xor]

theorem reverse_shiftLeft_one {w : Nat} (x : BitVec w) : (x <<< 1).reverse = x.reverse >>> 1 := by
  apply BitVec.eq_of_getLsbD_eq
  intro i hi
  simp only [BitVec.getLsbD_reverse, BitVec.getLsbD_ushiftRight, BitVec.getMsbD_shiftLeft]
  rw [Nat.add_comm]

theorem getLsbD_reverse_zero {w : Nat} (x : BitVec w) : x.reverse.getLsbD 0 = x.msb := by
  rw [BitVec.getLsbD_reverse, BitVec.msb]

/-! ### The two registers -/

variable (Poly : BitVec 32)

/-- The code's two registers are one: their sum, reversed, takes the reflected step. -/
theorem crcBit_reverse (s : BitVec 32 × BitVec 32) :
    ((crcBit Poly s).1 ^^^ (crcBit Poly s).2).reverse = reflectedBit Poly (s.1 ^^^ s.2).reverse := by
  obtain ⟨crc, byte⟩ := s
  have hneg : (crc ^^^ byte).toInt < 0 ↔ (crc ^^^ byte).reverse.getLsbD 0 = true := by
    rw [getLsbD_reverse_zero, BitVec.msb_eq_toInt, decide_eq_true_iff]
  unfold crcBit reflectedBit
  by_cases h : (crc ^^^ byte).toInt < 0
  · rw [if_pos (hneg.1 h)]
    simp only [if_pos h]
    calc (((crc <<< 1) ^^^ Poly) ^^^ (byte <<< 1)).reverse
        = (((crc ^^^ byte) <<< 1) ^^^ Poly).reverse := by rw [BitVec.shiftLeft_xor_distrib]; ac_rfl
      _ = ((crc ^^^ byte).reverse >>> 1) ^^^ Poly.reverse := by rw [reverse_xor, reverse_shiftLeft_one]
  · rw [if_neg (mt hneg.2 h)]
    simp only [if_neg h]
    rw [← BitVec.shiftLeft_xor_distrib, reverse_shiftLeft_one]

theorem crcBit_iterate_reverse (n : Nat) (s : BitVec 32 × BitVec 32) :
    (((crcBit Poly)^[n] s).1 ^^^ ((crcBit Poly)^[n] s).2).reverse =
      (reflectedBit Poly)^[n] (s.1 ^^^ s.2).reverse := by
  induction n generalizing s with
  | zero => rfl
  | succ n ih => rw [Function.iterate_succ_apply, Function.iterate_succ_apply, ih, crcBit_reverse]

theorem crcBit_iterate_snd (n : Nat) (s : BitVec 32 × BitVec 32) : ((crcBit Poly)^[n] s).2 = s.2 <<< n := by
  induction n generalizing s with
  | zero => simp
  | succ n ih => rw [Function.iterate_succ_apply, ih, Nat.add_comm, BitVec.shiftLeft_add]; rfl

/-- The eight bits of the reversed byte have left the register after eight shifts. -/
theorem reverse_setWidth_shiftLeft (data : BitVec 8) : (data.setWidth 32).reverse <<< 8 = 0 := by
  apply BitVec.eq_of_getLsbD_eq
  intro i hi
  have h : 8 ≤ 32 - 1 - (i - 8) := by omega
  simp [BitVec.getLsbD_reverse, BitVec.getMsbD, BitVec.getLsbD_of_ge _ _ h]

theorem crcByte_reverse (Poly crc : BitVec 32) (data : BitVec 8) :
    (crcByte Poly crc data).reverse = reflectedByte Poly crc.reverse data := by
  have h := crcBit_iterate_reverse Poly 8 (crc, (data.setWidth 32).reverse)
  rw [crcBit_iterate_snd, reverse_setWidth_shiftLeft, reverse_xor, reverse_xor, BitVec.reverse_reverse_eq] at h
  have hz : BitVec.reverse (0 : BitVec 32) = 0#32 := by decide +kernel
  rw [crcByte, reverseBits_eq _ 4 rfl, reflectedByte, ← h, hz]
  exact BitVec.xor_zero.symm

theorem foldl_crcByte_reverse (data : List (BitVec 8)) (crc : BitVec 32) :
    (data.foldl (crcByte Poly) crc).reverse = reflected Poly data crc.reverse := by
  induction data generalizing crc with
  | nil => rfl
  | cons b data ih => rw [List.foldl_cons, ih, crcByte_reverse, reflected, reflected, List.foldl_cons]

theorem crc32_eq_reflected (data : List (BitVec 8)) (crc : BitVec 32) :
    crc32 Poly data crc = reflected Poly data crc := by
  rw [crc32, reverseBits_eq _ 4 rfl, reverseBits_eq _ 4 rfl, foldl_crcByte_reverse, BitVec.reverse_reverse_eq]

theorem crc32_append (a b : List (BitVec 8)) (crc : BitVec 32) :
    crc32 Poly (a ++ b) crc = crc32 Poly b (crc32 Poly a crc) := by
  simp only [crc32_eq_reflected, reflected, List.foldl_append]

/-! ### The instructions -/

theorem dataBuffer_add (op : BitVec 64) (m n : Nat) :
    dataBuffer op (m + n) = dataBuffer op m ++ dataBuffer (op >>> (8 * m)) n := by
  unfold dataBuffer
  rw [List.range_add, List.map_append, List.map_map]
  congr 1
  apply List.map_congr_left
  intro i _
  rw [Function.comp, ← BitVec.shiftRight_add, Nat.mul_add]

/-- `m + n` bytes of a register are `m` of them and then `n` of the register shifted. -/
theorem crc32_inst_add (m n : Nat) (acc op : BitVec 64) :
    crc32_inst Poly (m + n) acc op = crc32_inst Poly n (crc32_inst Poly m acc op) (op >>> (8 * m)) := by
  unfold crc32_inst
  rw [dataBuffer_add, crc32_append]
  congr 2
  simp

/-- `crc32` is the reflected CRC and composes, and the instruction on 64 bits is the one on 32 bits with the low
word and then with the high word. -/
theorem crc32_reflected : (∀ Poly data crc, crc32 Poly data crc = reflected Poly data crc) ∧
    (∀ Poly a b crc, crc32 Poly (a ++ b) crc = crc32 Poly b (crc32 Poly a crc)) ∧
    (∀ acc op, crc32x acc op = crc32w (crc32w acc op) (op >>> 32)) ∧
    ∀ acc op, crc32cx acc op = crc32cw (crc32cw acc op) (op >>> 32) :=
  ⟨crc32_eq_reflected, crc32_append, crc32_inst_add _ 4 4, crc32_inst_add _ 4 4⟩

/-- The check value of the CRC of the digits. -/
example : ~~~ (crc32 0x04C11DB7 [0x31, 0x32, 0x33, 0x34, 0x35, 0x36, 0x37, 0x38, 0x39] 0xFFFFFFFF) = 0xCBF43926#32 := by
  decide +kernel

end Alpine.Base
