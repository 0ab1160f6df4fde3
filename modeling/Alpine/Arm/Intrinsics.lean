import Alpine.Arm.CmInst

/-!
# The library's intrinsics on the simulated core

`aimclib/aimc_intrinsics.hh` moves the arguments of each intrinsic into fixed registers and emits one
instruction word; `aimclib/aimc_check.hh` offers functions of the same names that work on the host.

* `performed_eq_expected_iff` — the decoded instruction calls the tile operation of the intrinsic
  with the intrinsic's arguments, except that `aimcQueue` and the row index of `aimcParamRead` are
  taken from `X0`, which neither intrinsic sets.
* `checker_result_iff` — the value a checker function returns is the value the instruction leaves in
  `X10`, except for negative parameters, for crossbar indices below zero and for the success code of
  `aimcParamWrite`, which the instruction never writes.
-/

namespace Alpine.Arm

open Alpine.Aimc

/-! ## Operands -/

/-- A call of an intrinsic. -/
inductive Intrinsic where
  | aimcProcess
  | aimcQueue (rm : BitVec 64)
  | aimcDequeue
  | aimcParamRead (rm rn ra : BitVec 64)
  | aimcParamWrite (rm rn ra : BitVec 64)

/-- The `MOV` instructions before the instruction word. -/
def Intrinsic.movs : Intrinsic → List (IntRegIndex × BitVec 64)
  | .aimcProcess => []
  | .aimcQueue rm => [(9, rm)]
  | .aimcDequeue => []
  | .aimcParamRead rm rn _ => [(9, rm), (7, rn)]
  | .aimcParamWrite rm rn ra => [(8, ra), (9, rm), (7, rn)]

/-- The `.long` directive. -/
def Intrinsic.word : Intrinsic → BitVec 32
  | .aimcProcess => 0x01000000
  | .aimcQueue _ => 0x21088000
  | .aimcDequeue => 0x2100000A
  | .aimcParamRead _ _ _ => 0x4108812A
  | .aimcParamWrite _ _ _ => 0x41081D2A

/-- The registers when the instruction word is reached. -/
def Intrinsic.setup (c : Intrinsic) (regs : IntRegs) : IntRegs :=
  c.movs.foldl (fun regs m => regs.set m.1 m.2) regs

/-- The tile operation the decoded instruction calls. -/
def Intrinsic.performed (c : Intrinsic) (regs : IntRegs) : Option TileOp :=
  match decode c.word with
  | .cusDataProcImm (some i) => some (i.tileOp (c.setup regs))
  | _ => none

/-- The intrinsic's own operation, its arguments truncated to the parameter types. -/
def Intrinsic.expected : Intrinsic → TileOp
  | .aimcProcess => .aimcProcess
  | .aimcQueue rm => .aimcQueue (rm.setWidth 32)
  | .aimcDequeue => .aimcDequeue
  | .aimcParamRead rm rn _ => .aimcParamRead (toInt32 rm) (toInt32 rn)
  | .aimcParamWrite rm rn ra => .aimcParamWrite (toInt32 rm) (toInt32 rn) (ra.setWidth 8)

/-- What the instruction object of each intrinsic is. -/
def Intrinsic.inst : Intrinsic → CmInst
  | .aimcProcess => ⟨.cmprocess, 0x01000000, 0, 0, 0, 0⟩
  | .aimcQueue _ => ⟨.cmqueue, 0x21088000, 0, 0, 0, 8⟩
  | .aimcDequeue => ⟨.cmdequeue, 0x2100000A, 10, 0, 0, 0⟩
  | .aimcParamRead _ _ _ => ⟨.cmparamread, 0x4108812A, 10, 0, 9, 8⟩
  | .aimcParamWrite _ _ _ => ⟨.cmparamwrite, 0x41081D2A, 10, 7, 9, 8⟩

theorem decode_word (c : Intrinsic) : decode c.word = .cusDataProcImm (some c.inst) := by
  cases c with
  | aimcProcess => decide
  | aimcQueue rm =>
    show decode 0x21088000 = .cusDataProcImm (some ⟨.cmqueue, 0x21088000, 0, 0, 0, 8⟩)
    decide
  | aimcDequeue => decide
  | aimcParamRead rm rn ra =>
    show decode 0x4108812A = .cusDataProcImm (some ⟨.cmparamread, 0x4108812A, 10, 0, 9, 8⟩)
    decide
  | aimcParamWrite rm rn ra =>
    show decode 0x41081D2A = .cusDataProcImm (some ⟨.cmparamwrite, 0x41081D2A, 10, 7, 9, 8⟩)
    decide

theorem performed_eq (c : Intrinsic) (regs : IntRegs) : c.performed regs = some (c.inst.tileOp (c.setup regs)) := by
  unfold Intrinsic.performed
  rw [decode_word]

/-- Where an operand comes from a register the intrinsic does not set, that register already holds
the argument. -/
def Intrinsic.StrayOperandsOk (regs : IntRegs) : Intrinsic → Prop
  | .aimcQueue rm => (regs 0).setWidth 32 = rm.setWidth 32
  | .aimcParamRead _ rn _ => (regs 0).setWidth 32 = rn.setWidth 32
  | _ => True

/-- **Operands agree exactly when the stray register `X0` happens to hold the argument.** -/
theorem performed_eq_expected_iff (c : Intrinsic) (regs : IntRegs) :
    c.performed regs = some c.expected ↔ c.StrayOperandsOk regs := by
  rw [performed_eq, CmInst.tileOp_eq, Option.some_inj]
  cases c with
  | aimcProcess => exact ⟨fun _ => trivial, fun _ => rfl⟩
  | aimcQueue rm =>
    show TileOp.aimcQueue ((regs.set 9 rm 0).setWidth 32) = .aimcQueue (rm.setWidth 32) ↔ _
    rw [IntRegs.set_ne _ (by decide), TileOp.aimcQueue.injEq]
    exact Iff.rfl
  | aimcDequeue => exact ⟨fun _ => trivial, fun _ => rfl⟩
  | aimcParamRead rm rn ra =>
    show TileOp.aimcParamRead (toInt32 ((regs.set 9 rm).set 7 rn 9))
      (toInt32 ((regs.set 9 rm).set 7 rn 0)) = .aimcParamRead (toInt32 rm) (toInt32 rn) ↔ _
    rw [IntRegs.set_ne _ (by decide), IntRegs.set_same, IntRegs.set_ne _ (by decide),
      IntRegs.set_ne _ (by decide), TileOp.aimcParamRead.injEq]
    exact ⟨fun h => BitVec.eq_of_toInt_eq h.2, fun h => ⟨rfl, congrArg BitVec.toInt h⟩⟩
  | aimcParamWrite rm rn ra =>
    refine ⟨fun _ => trivial, fun _ => ?_⟩
    show TileOp.aimcParamWrite (toInt32 (((regs.set 8 ra).set 9 rm).set 7 rn 9))
      (toInt32 (((regs.set 8 ra).set 9 rm).set 7 rn 7))
      ((((regs.set 8 ra).set 9 rm).set 7 rn 8).setWidth 8) = _
    rw [IntRegs.set_ne _ (by decide), IntRegs.set_same, IntRegs.set_same,
      IntRegs.set_ne _ (by decide), IntRegs.set_ne _ (by decide), IntRegs.set_same]
    rfl

/-- With zeros in every register, `aimcQueue(1)` queues zero. -/
theorem aimcQueue_one_wrong : (Intrinsic.aimcQueue 1).performed (fun _ => 0) = some (.aimcQueue 0) ∧
      (Intrinsic.aimcQueue 1).performed (fun _ => 0) ≠ some (Intrinsic.aimcQueue 1).expected := by
  decide

/-! ## Results -/

/-- A call of a checker function that returns a result. -/
inductive ResultCall where
  | aimcDequeue
  | aimcParamRead (rm rn ra : BitVec 64)
  | aimcParamWrite (rm rn ra : BitVec 64)

section Results

variable {H W n : Nat}

/-- The value the checker function returns. -/
def ResultCall.checker (m : Check.AnalogComputationalMemory H W n) (tid : Nat) : ResultCall → Option (BitVec 64)
  | .aimcDequeue => (Check.Wrapper.aimcDequeue m tid).map (·.2)
  | .aimcParamRead rm rn ra => (Check.Wrapper.aimcParamRead m rm rn ra tid).map (·.2)
  | .aimcParamWrite rm rn ra => (Check.Wrapper.aimcParamWrite m rm rn ra tid).map (·.2)

/-- `X10` after the instruction. -/
def CmInst.result (i : CmInst) (aimc : Cluster.AIMCCluster H W n) (tid : Nat) (regs : IntRegs) : Option (BitVec 64) :=
  (i.execute tid aimc regs).map fun r => r.2 10

/-- The instruction that corresponds to the call: `rd` is `X10`, operands and result are 32 bits wide
and the operand registers hold the arguments. -/
structure ResultCall.Corresponds (c : ResultCall) (i : CmInst) (regs : IntRegs) : Prop where
  dest : i.dest = 10
  width : i.intWidth = 32
  args : match c with
    | .aimcDequeue => i.op = .cmdequeue
    | .aimcParamRead rm rn _ => i.op = .cmparamread ∧ regs i.op2 = rm ∧ regs i.op1 = rn
    | .aimcParamWrite rm rn ra =>
      i.op = .cmparamwrite ∧ regs i.op2 = rm ∧ regs i.op1 = rn ∧ regs i.op3 = ra

/-- The crossbar index of a parameter access is not negative (if its computation is defined) and
`P` holds of it. -/
def AtIndex (W : Nat) (rm rn : BitVec 64) (P : Nat → Prop) : Prop :=
  match index1D W (toInt32 rm) (toInt32 rn) with
  | none => True
  | some idx => 0 ≤ idx ∧ P idx.toNat

/-- When checker and instruction agree: a read parameter is not negative; a write finds zero in
`X10`. -/
def ResultCall.Agrees (t : Tile H W) (x10 : BitVec 64) : ResultCall → Prop
  | .aimcDequeue => True
  | .aimcParamRead rm rn _ => AtIndex W rm rn fun idx => ∀ h : idx < W * H, 0 ≤ t.crossbar[idx].toInt
  | .aimcParamWrite rm rn _ => AtIndex W rm rn fun _ => x10 = 0

theorem word_and_mask (v : BitVec 32) : v.setWidth 64 &&& mask 32 = v.setWidth 64 := by
  refine BitVec.eq_of_getLsbD_eq fun j hj => ?_
  have := Nat.testBit_two_pow_sub_one 32 j
  unfold mask
  rw [if_neg (by decide), BitVec.getLsbD_and, BitVec.getLsbD_setWidth, BitVec.getLsbD_ofNat, this]
  by_cases h : j < 32
  · simp [h, hj]
  · rw [BitVec.getLsbD_of_ge v j (by omega)]; simp

/-- Sign extension and the 32-bit mask agree on the non-negative parameters only. -/
theorem param_and_mask_iff : ∀ v : BitVec 8, v.signExtend 64 = v.signExtend 64 &&& mask 32 ↔ 0 ≤ v.toInt := by
  decide

theorem CmInst.result_eq (i : CmInst) (aimc : Cluster.AIMCCluster H W n) {k : Nat} (hk : k < n)
    (regs : IntRegs) : i.result aimc k regs =
      (Cluster.tileStep aimc[k] (i.tileOp regs)).map fun r => i.writeBack regs r.2 10 := by
  unfold CmInst.result CmInst.execute
  rw [cluster_step_valid aimc hk, Option.map_map, Option.map_map]
  rfl

theorem checker_aimcDequeue_eq (m : Check.AnalogComputationalMemory H W n) {k : Nat} (hk : k < n) :
    ResultCall.aimcDequeue.checker m k = (Check.coreDequeue m[k]).map fun r => r.2.setWidth 64 := by
  simp only [ResultCall.checker, Check.Wrapper.aimcDequeue, Check.aimcDequeue, onCore_valid m hk, Option.map_map]
  rfl

theorem checker_aimcParamRead_eq (m : Check.AnalogComputationalMemory H W n) {k : Nat} (hk : k < n)
    (rm rn ra : BitVec 64) : (ResultCall.aimcParamRead rm rn ra).checker m k =
      (Check.coreParamRead m[k] (toInt32 rm) (toInt32 rn)).map (·.signExtend 64) := by
  simp only [ResultCall.checker, Check.Wrapper.aimcParamRead, Check.aimcParamRead, onCore_valid m hk, Option.map_map]
  rfl

theorem checker_aimcParamWrite_eq (m : Check.AnalogComputationalMemory H W n) {k : Nat} (hk : k < n)
    (rm rn ra : BitVec 64) : (ResultCall.aimcParamWrite rm rn ra).checker m k =
      (Check.coreParamWrite m[k] (toInt32 rm) (toInt32 rn) (ra.setWidth 8)).map fun _ => 0 := by
  simp only [ResultCall.checker, Check.Wrapper.aimcParamWrite, Check.aimcParamWrite,
    onCore_valid m hk, Option.map_map]
  rfl

theorem paramRead_agree_iff (t : Tile H W) (rm rn : BitVec 64) :
    (Check.coreParamRead t (toInt32 rm) (toInt32 rn)).map (·.signExtend 64) =
        (Cluster.tileParamRead t (toInt32 rm) (toInt32 rn)).map (fun v => v.signExtend 64 &&& mask 32) ↔
      AtIndex W rm rn fun idx => ∀ h : idx < W * H, 0 ≤ t.crossbar[idx].toInt := by
  unfold Check.coreParamRead Cluster.tileParamRead AtIndex
  cases hidx : index1D W (toInt32 rm) (toInt32 rn) with
  | none => exact ⟨fun _ => trivial, fun _ => rfl⟩
  | some idx =>
    simp only [bind_some_eq]
    by_cases hneg : 0 ≤ idx
    · obtain ⟨k, rfl⟩ := Int.eq_ofNat_of_zero_le hneg
      by_cases hlt : k < W * H
      · rw [if_pos ⟨hneg, by omega⟩, if_pos (by omega), load_nat t.crossbar hlt, Option.map_some,
          Option.map_some, Option.some_inj, param_and_mask_iff]
        exact ⟨fun h => ⟨hneg, fun _ => h⟩, fun h => h.2 hlt⟩
      · rw [if_neg (by omega), if_neg (by omega)]
        exact ⟨fun _ => ⟨hneg, fun h => absurd h hlt⟩, fun _ => rfl⟩
    · rw [if_neg (fun h => hneg h.1), if_pos (by omega), load_none t.crossbar (fun h => hneg h.1)]
      exact ⟨fun h => absurd h (by simp), fun h => absurd h.1 hneg⟩

theorem paramWrite_agree_iff (t : Tile H W) (rm rn : BitVec 64) (val : BitVec 8) (x10 : BitVec 64) :
    ((Check.coreParamWrite t (toInt32 rm) (toInt32 rn) val).map fun _ => (0 : BitVec 64)) =
        (Cluster.tileParamWrite t (toInt32 rm) (toInt32 rn) val).map (fun _ => x10) ↔
      AtIndex W rm rn fun _ => x10 = 0 := by
  unfold Check.coreParamWrite Cluster.tileParamWrite AtIndex
  cases hidx : index1D W (toInt32 rm) (toInt32 rn) with
  | none => exact ⟨fun _ => trivial, fun _ => rfl⟩
  | some idx =>
    simp only [bind_some_eq]
    by_cases hneg : 0 ≤ idx
    · obtain ⟨k, rfl⟩ := Int.eq_ofNat_of_zero_le hneg
      by_cases hlt : k < W * H
      · rw [if_pos ⟨hneg, by omega⟩, if_pos (by omega), store_nat t.crossbar hlt]
        simp only [bind_some_eq, Option.map_some, Option.some_inj]
        exact ⟨fun h => ⟨hneg, h.symm⟩, fun h => h.2.symm⟩
      · rw [if_neg (by omega), if_neg (by omega), Option.map_some, Option.map_some, Option.some_inj]
        exact ⟨fun h => ⟨hneg, h.symm⟩, fun h => h.2.symm⟩
    · rw [if_neg (fun h => hneg h.1), if_pos (by omega), store_none t.crossbar (fun h => hneg h.1)]
      exact ⟨fun h => absurd h (by simp), fun h => absurd h.1 hneg⟩

/-- **Checker and simulator return the same value exactly on `Agrees`.** -/
theorem checker_result_iff (m : Check.AnalogComputationalMemory H W n) {k : Nat} (hk : k < n)
    (c : ResultCall) {i : CmInst} {regs : IntRegs} (hc : c.Corresponds i regs) :
    c.checker m k = i.result m k regs ↔ c.Agrees m[k] (regs 10) := by
  obtain ⟨hdest, hwidth, hargs⟩ := hc
  rw [CmInst.result_eq i m hk, CmInst.tileOp_eq]
  have hwrite : ∀ v, i.write regs v 10 = v &&& mask 32 := by
    intro v
    unfold CmInst.write
    rw [hwidth, ← hdest, IntRegs.set_same]
  cases c with
  | aimcDequeue =>
    have hop : i.op = .cmdequeue := hargs
    refine ⟨fun _ => trivial, fun _ => ?_⟩
    rw [checker_aimcDequeue_eq m hk, coreDequeue_eq_tileDequeue]
    simp only [hop, Cluster.tileStep, CmInst.writeBack, Option.map_map]
    congr 1
    funext r
    exact ((hwrite _).trans (word_and_mask r.2)).symm
  | aimcParamRead rm rn ra =>
    obtain ⟨hop, hrm, hrn⟩ := hargs
    have hsim : (fun v : BitVec 8 => i.write regs (v.signExtend 64) 10) =
        fun v => v.signExtend 64 &&& mask 32 := funext fun v => hwrite _
    rw [checker_aimcParamRead_eq m hk]
    simp only [hop, hrm, hrn, Cluster.tileStep, CmInst.writeBack, Option.map_map]
    show _ = Option.map (fun v : BitVec 8 => i.write regs (v.signExtend 64) 10) _ ↔ _
    rw [hsim]
    exact paramRead_agree_iff m[k] rm rn
  | aimcParamWrite rm rn ra =>
    obtain ⟨hop, hrm, hrn, hra⟩ := hargs
    rw [checker_aimcParamWrite_eq m hk]
    simp only [hop, hrm, hrn, hra, Cluster.tileStep, CmInst.writeBack, Option.map_map]
    exact paramWrite_agree_iff m[k] rm rn _ (regs 10)

/-- The instruction word of `aimcParamRead`. -/
def paramReadInst : CmInst := ⟨.cmparamread, 0x4108812A, 10, 0, 9, 8⟩

/-- Two cells with the parameters 5 and 7. -/
def twoCells : Tile 1 2 := ⟨#v[5, 7], #v[0], #v[0, 0], 0, 0, by decide⟩

theorem checker_result_twoCells : (ResultCall.aimcParamRead 1 0 0).checker #v[twoCells] 0 = some 7 ∧
    paramReadInst.result #v[twoCells] 0 (fun r => if r = 9 then 1 else 0) = some 7 := by
  have hchecker : (ResultCall.aimcParamRead 1 0 0).checker #v[twoCells] 0 = some 7 := by decide
  exact ⟨hchecker, ((checker_result_iff #v[twoCells] (k := 0) (by decide) (.aimcParamRead 1 0 0)
    ⟨rfl, by decide, by decide⟩).2 ⟨by decide, by decide⟩).symm.trans hchecker⟩

/-- A tile of the simulator's size with the parameter `-1` in its first cell. -/
def minusOne : Tile 2000 2000 where
  crossbar := (Vector.replicate (2000 * 2000) 0).set 0 255#8
  inputMemory := Vector.replicate 2000 0
  outputMemory := Vector.replicate 2000 0
  inputMemoryCounter := 0
  outputMemoryCounter := 0
  fits := fits_2000

theorem minusOne_cell : minusOne.crossbar.get (cellIdx ⟨0, by decide⟩ ⟨0, by decide⟩) = 255#8 :=
  Vector.getElem_set_self (by decide)

/-- The checker returns `0xffffffffffffffff`, the simulator leaves `0x00000000ffffffff`. -/
theorem checker_result_minus_one : (ResultCall.aimcParamRead 0 0 0).Corresponds paramReadInst (fun _ => 0) ∧
      (ResultCall.aimcParamRead 0 0 0).checker #v[minusOne] 0 = some 0xffffffffffffffff#64 ∧
      paramReadInst.result #v[minusOne] 0 (fun _ => 0) = some 0xffffffff#64 := by
  have hcore : Check.coreParamRead minusOne 0 0 = some 255#8 :=
    (Check.coreParamRead_cell minusOne (x := 0) (y := 0) (by decide) (by decide)).trans
      (congrArg some minusOne_cell)
  have hsim : Cluster.tileParamRead minusOne 0 0 = some 255#8 :=
    (tileParamRead_cell minusOne (x := 0) (y := 0) (by decide) (by decide)).trans
      (congrArg some minusOne_cell)
  refine ⟨⟨rfl, by decide, by decide⟩, ?_, ?_⟩
  · rw [checker_aimcParamRead_eq #v[minusOne] (k := 0) (by decide)]
    show Option.map _ (Check.coreParamRead minusOne 0 0) = _
    rw [hcore]
    decide
  · rw [CmInst.result_eq paramReadInst #v[minusOne] (k := 0) (by decide), CmInst.tileOp_eq]
    show Option.map _ (Cluster.tileStep minusOne (.aimcParamRead 0 0)) = _
    rw [Cluster.tileStep, hsim]
    decide

end Results

end Alpine.Arm
