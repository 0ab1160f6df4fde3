import Alpine.Aimc.Emulation

/-!
# The CM instructions of the simulated core

Decoding and execution of the five CM instructions: the decode block and `decodeCusDataProcImm`
(`isa/formats/aarch64.isa`), the constructor of a `DataX3RegOp` (`isa/templates/data64.isa`), the
execute bodies (`isa/insts/data64.isa`) and the operand accesses they expand to
(`isa/operands.isa`), for a core in AArch64 state.

The decoder passes its four register fields by position, `(rd, ra, rn, rm)`, to a constructor that
takes `(dest, op1, op2, op3)`; an execute body names the constructor's parameters.
-/

namespace Alpine.Arm

open Alpine.Aimc

/-! ## Instructions -/

/-- `IntRegIndex` of a register field. -/
abbrev IntRegIndex := BitVec 5

/-- The integer registers a five-bit field can name. -/
abbrev IntRegs := IntRegIndex → BitVec 64

def IntRegs.set (regs : IntRegs) (r : IntRegIndex) (v : BitVec 64) : IntRegs :=
  fun r' => if r' = r then v else regs r'

@[simp] theorem IntRegs.set_same (regs : IntRegs) (r : IntRegIndex) (v : BitVec 64) : regs.set r v r = v := if_pos rfl

theorem IntRegs.set_ne (regs : IntRegs) {r r' : IntRegIndex} (h : r' ≠ r) (v : BitVec 64) :
    regs.set r v r' = regs r' := if_neg h

/-- `bits(machInst, first, last)`. -/
abbrev bits (machInst : BitVec 32) (first last : Nat) : BitVec (first - last + 1) :=
  machInst.extractLsb first last

inductive CmOp where
  | cmprocess
  | cmqueue
  | cmdequeue
  | cmparamread
  | cmparamwrite
  deriving DecidableEq

/-- A CM instruction object. -/
structure CmInst where
  op : CmOp
  machInst : BitVec 32
  dest : IntRegIndex
  op1 : IntRegIndex
  op2 : IntRegIndex
  op3 : IntRegIndex
  deriving DecidableEq

/-- `ArmStaticInst::ArmStaticInst`. -/
def CmInst.intWidth (i : CmInst) : Nat :=
  if bits i.machInst 28 24 = 0x10#5 then 64
  else if bits i.machInst 31 31 = 1#1 then 64 else 32

/-- `decodeCusDataProcImm`; `none` is `Unknown64`. -/
def decodeCusDataProcImm (machInst : BitVec 32) : Option CmInst :=
  let rd : IntRegIndex := bits machInst 4 0
  let rn : IntRegIndex := bits machInst 9 5
  let rm : IntRegIndex := bits machInst 20 16
  let ra : IntRegIndex := bits machInst 14 10
  let opc := bits machInst 30 29
  let rwb := bits machInst 15 15
  if bits machInst 25 23 < 4#3 then
    if opc = 0#2 then some ⟨.cmprocess, machInst, rd, ra, rn, rm⟩
    else if opc = 1#2 then
      if rwb = 1#1 then some ⟨.cmqueue, machInst, rd, ra, rn, rm⟩
      else some ⟨.cmdequeue, machInst, rd, ra, rn, rm⟩
    else if opc = 2#2 then
      if rwb = 1#1 then some ⟨.cmparamread, machInst, rd, ra, rn, rm⟩
      else some ⟨.cmparamwrite, machInst, rd, ra, rn, rm⟩
    else none
  else none

/-- The decoder function the AArch64 decode block calls. -/
inductive Decoded where
  | cusDataProcImm (i : Option CmInst)
  | dataProcImm
  | branchExcSys
  | loadsStores
  | dataProcReg
  | gem5Ops
  | fpAdvSIMD
  deriving DecidableEq

/-- The AArch64 decode block. -/
def decode (machInst : BitVec 32) : Decoded :=
  if bits machInst 27 27 = 0#1 then
    if bits machInst 28 28 = 0#1 then .cusDataProcImm (decodeCusDataProcImm machInst)
    else if bits machInst 26 26 = 0#1 then .dataProcImm
    else .branchExcSys
  else if bits machInst 25 25 = 0#1 then .loadsStores
  else if bits machInst 26 26 = 0#1 then .dataProcReg
  else if bits machInst 24 24 = 1#1 ∧ bits machInst 31 28 = 0xf#4 then .gem5Ops
  else .fpAdvSIMD

/-! ## Execution -/

/-- `mask(nbits)`. -/
def mask (nbits : Nat) : BitVec 64 :=
  if nbits = 64 then BitVec.allOnes 64 else BitVec.ofNat 64 (2 ^ nbits - 1)

/-- `aarch64Read`. -/
def CmInst.read (i : CmInst) (regs : IntRegs) (r : IntRegIndex) : BitVec 64 :=
  regs r &&& mask i.intWidth

/-- `aarch64Write`. -/
def CmInst.write (i : CmInst) (regs : IntRegs) (v : BitVec 64) : IntRegs :=
  regs.set i.dest (v &&& mask i.intWidth)

/-- The cluster call of the execute body, with its operands converted to the `int` locals and then
to the parameter types. -/
def CmInst.tileOp (i : CmInst) (regs : IntRegs) : TileOp :=
  let Op164 := i.read regs i.op1
  let Op264 := i.read regs i.op2
  let Op364 := i.read regs i.op3
  match i.op with
  | .cmprocess => .aimcProcess
  | .cmqueue => .aimcQueue (Op264.setWidth 32)
  | .cmdequeue => .aimcDequeue
  | .cmparamread => .aimcParamRead (toInt32 Op264) (toInt32 Op164)
  | .cmparamwrite => .aimcParamWrite (toInt32 Op264) (toInt32 Op164) ((Op364.setWidth 32).setWidth 8)

/-- `Dest64 = ..` for the two bodies that have it: an unsigned word is zero extended, an `int8_t`
sign extended. -/
def CmInst.writeBack (i : CmInst) (regs : IntRegs) (r : TileRet) : IntRegs :=
  match i.op, r with
  | .cmdequeue, .word v => i.write regs (v.setWidth 64)
  | .cmparamread, .param v => i.write regs (v.signExtend 64)
  | _, _ => regs

/-- The execute body, on the tile numbered `tid`. -/
def CmInst.execute {H W n : Nat} (i : CmInst) (tid : Nat) (aimc : Cluster.AIMCCluster H W n)
    (regs : IntRegs) : Option (Cluster.AIMCCluster H W n × IntRegs) :=
  (Cluster.step aimc tid (i.tileOp regs)).map fun r => (r.1, i.writeBack regs r.2)

/-! ## Operand widths -/

theorem mask_setWidth_low {k : Nat} (hk : k ≤ 32) (x : BitVec 64) {w : Nat} (hw : w = 32 ∨ w = 64) :
    (x &&& mask w).setWidth k = x.setWidth k := by
  have hbit : ∀ j, j < 32 → (mask w).getLsbD j = true := by
    intro j hj
    rcases hw with rfl | rfl
    · have := Nat.testBit_two_pow_sub_one 32 j
      unfold mask
      rw [if_neg (by decide), BitVec.getLsbD_ofNat, this]
      simp
      omega
    · unfold mask
      rw [if_pos rfl, BitVec.getLsbD_allOnes]
      simp
      omega
  refine BitVec.eq_of_getLsbD_eq fun j hj => ?_
  rw [BitVec.getLsbD_setWidth, BitVec.getLsbD_setWidth, BitVec.getLsbD_and, hbit j (by omega), Bool.and_true]

theorem CmInst.intWidth_cases (i : CmInst) : i.intWidth = 32 ∨ i.intWidth = 64 := by
  unfold CmInst.intWidth
  split
  · exact Or.inr rfl
  · split
    · exact Or.inr rfl
    · exact Or.inl rfl

/-- The mask never reaches the low half of an operand. -/
theorem CmInst.read_setWidth (i : CmInst) (regs : IntRegs) (r : IntRegIndex) {k : Nat} (hk : k ≤ 32) :
    (i.read regs r).setWidth k = (regs r).setWidth k :=
  mask_setWidth_low hk (regs r) i.intWidth_cases

theorem CmInst.toInt32_read (i : CmInst) (regs : IntRegs) (r : IntRegIndex) :
    toInt32 (i.read regs r) = toInt32 (regs r) :=
  congrArg BitVec.toInt (i.read_setWidth regs r (Nat.le_refl 32))

/-- The cluster call in terms of the full registers. -/
theorem CmInst.tileOp_eq (i : CmInst) (regs : IntRegs) : i.tileOp regs = match i.op with
    | .cmprocess => .aimcProcess
    | .cmqueue => .aimcQueue ((regs i.op2).setWidth 32)
    | .cmdequeue => .aimcDequeue
    | .cmparamread => .aimcParamRead (toInt32 (regs i.op2)) (toInt32 (regs i.op1))
    | .cmparamwrite =>
      .aimcParamWrite (toInt32 (regs i.op2)) (toInt32 (regs i.op1)) ((regs i.op3).setWidth 8) := by
  have hval : ((i.read regs i.op3).setWidth 32).setWidth 8 = (regs i.op3).setWidth 8 := by
    rw [BitVec.setWidth_setWidth_of_le _ (by omega), i.read_setWidth regs i.op3 (by omega)]
  unfold CmInst.tileOp
  simp only [i.read_setWidth regs i.op2 (Nat.le_refl 32), i.toInt32_read, hval]

end Alpine.Arm
