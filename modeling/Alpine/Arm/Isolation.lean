import Alpine.Arm.CmInst

/-!
# Tiles and CPUs

The cluster holds one tile for each CPU, but the execute bodies select the tile by
`xc->tcBase()->threadId()`, the number of the hardware thread within its CPU, not by the CPU.

* `cpus_isolated` — in every interleaving in which no two CPUs execute CM instructions on threads of
  the same number, each CPU obtains the values it would obtain alone and finds its tiles as it would
  alone.
* `two_cpus_share_a_tile` — two single-threaded CPUs work on the same tile.
-/

namespace Alpine.Arm

open Alpine.Aimc Alpine.Aimc.Cluster

variable {H W n : Nat}

/-- A CM instruction executed by thread `threadId` of CPU `cpu`, with the registers it finds. -/
structure CmEvent where
  cpu : Nat
  threadId : Nat
  inst : CmInst
  regs : IntRegs

/-- Its effect on the tiles and the registers it leaves. -/
def cmStep (aimc : AIMCCluster H W n) (e : CmEvent) : Option (AIMCCluster H W n × IntRegs) :=
  e.inst.execute e.threadId aimc e.regs

/-- Instructions of different CPUs run on threads of different numbers. -/
def ThreadsApart (events : List CmEvent) : Prop :=
  ∀ a ∈ events, ∀ b ∈ events, a.cpu ≠ b.cpu → a.threadId ≠ b.threadId

/-- The two clusters agree on the tiles of `T`. -/
def AgreeOn (T : Nat → Prop) (s t : AIMCCluster H W n) : Prop :=
  ∀ k (hk : k < n), T k → s[k] = t[k]

variable {s : AIMCCluster H W n}

theorem cmStep_some {s' : AIMCCluster H W n} {e : CmEvent} {r : IntRegs} (h : cmStep s e = some (s', r)) :
    ∃ (hk : e.threadId < n) (t' : Tile H W) (v : TileRet),
      tileStep s[e.threadId] (e.inst.tileOp e.regs) = some (t', v) ∧ s' = s.set e.threadId t' ∧
        r = e.inst.writeBack e.regs v := by
  unfold cmStep CmInst.execute at h
  by_cases hk : e.threadId < n
  · rw [cluster_step_valid s hk, Option.map_map] at h
    obtain ⟨⟨t', v⟩, ht', hr⟩ := Option.map_eq_some_iff.1 h
    cases hr
    exact ⟨hk, t', v, ht', rfl, rfl⟩
  · unfold Cluster.step at h
    rw [load_none s (by omega)] at h
    cases h

theorem cmStep_eq {e : CmEvent} (hk : e.threadId < n) {t' : Tile H W} {v : TileRet}
    (ht : tileStep s[e.threadId] (e.inst.tileOp e.regs) = some (t', v)) :
    cmStep s e = some (s.set e.threadId t', e.inst.writeBack e.regs v) := by
  unfold cmStep CmInst.execute
  rw [cluster_step_valid s hk, ht]
  rfl

/-- A CPU's own instruction does the same on both sides. -/
theorem cmStep_own {T : Nat → Prop} {t s' : AIMCCluster H W n} {e : CmEvent} {r : IntRegs} (hT : T e.threadId)
    (hst : AgreeOn T s t) (h : cmStep s e = some (s', r)) : ∃ t', cmStep t e = some (t', r) ∧ AgreeOn T s' t' := by
  obtain ⟨hk, tile, v, htile, rfl, rfl⟩ := cmStep_some h
  rw [hst e.threadId hk hT] at htile
  refine ⟨t.set e.threadId tile, cmStep_eq hk htile, fun k hk' hTk => ?_⟩
  by_cases e' : e.threadId = k
  · subst e'
    rw [Vector.getElem_set_self, Vector.getElem_set_self]
  · rw [Vector.getElem_set_ne _ _ e', Vector.getElem_set_ne _ _ e']
    exact hst k hk' hTk

/-- Another CPU's instruction does not touch the tiles of `T`. -/
theorem cmStep_other {T : Nat → Prop} {t s' : AIMCCluster H W n} {e : CmEvent} {r : IntRegs}
    (hT : ¬ T e.threadId) (hst : AgreeOn T s t) (h : cmStep s e = some (s', r)) : AgreeOn T s' t := by
  obtain ⟨hk, tile, v, -, rfl, -⟩ := cmStep_some h
  intro k hk' hTk
  rw [Vector.getElem_set_ne _ _ (fun e' => hT (by rw [e']; exact hTk))]
  exact hst k hk' hTk

/-- **CPUs on threads of different numbers do not interfere.** -/
theorem cpus_isolated (aimc : AIMCCluster H W n) (events : List CmEvent) (hapart : ThreadsApart events)
    {aimc' : AIMCCluster H W n} {results : List IntRegs}
    (hrun : Run.run cmStep aimc events = some (aimc', results)) (cpu : Nat) : ∃ alone : AIMCCluster H W n,
      Run.run cmStep aimc (events.filter (·.cpu == cpu)) = some (alone, Run.select (·.cpu == cpu) events results) ∧
      ∀ e ∈ events, e.cpu = cpu → ∀ hk : e.threadId < n, alone[e.threadId] = aimc'[e.threadId] := by
  -- the tiles the CPU uses anywhere in the run
  let T : Nat → Prop := fun k => ∃ e ∈ events, e.cpu = cpu ∧ e.threadId = k
  have hother : ∀ e ∈ events, e.cpu ≠ cpu → ¬ T e.threadId := by
    rintro e he hne ⟨e', he', hcpu, htid⟩
    exact hapart e he e' he' (fun h => hne (h.trans hcpu)) htid.symm
  obtain ⟨alone, halone, hagree⟩ := Run.run_filter (·.cpu == cpu) (R := AgreeOn T)
    (Q := (· ∈ events))
    (fun s t e s' r hm he hst h => cmStep_own ⟨e, he, beq_iff_eq.1 hm, rfl⟩ hst h)
    (fun s t e s' r hm he hst h => cmStep_other (hother e he (by simpa using hm)) hst h)
    (t := aimc) (fun _ _ _ => rfl) (fun e he => he) hrun
  exact ⟨alone, halone, fun e he hcpu hk => (hagree e.threadId hk ⟨e, he, hcpu, rfl⟩).symm⟩

/-- Two CPUs that use threads 0 and 1. -/
def eventsApart : List CmEvent :=
  [⟨0, 0, ⟨.cmqueue, 0x21088000, 0, 0, 0, 8⟩, fun _ => 1⟩,
    ⟨1, 1, ⟨.cmdequeue, 0x2100000A, 10, 0, 0, 0⟩, fun _ => 7⟩]

/-- The cluster of a system with two CPUs. -/
def twoTiles (fits : W * H < 2147483648) : AIMCCluster H W 2 := Vector.replicate 2 (Tile.fresh fits)

theorem cpus_isolated_two_threads : ∃ results, ∃ alone : AIMCCluster 5 5 2,
    (Run.run cmStep (twoTiles (H := 5) (W := 5) (by decide)) eventsApart).map (·.2) = some results ∧
      Run.run cmStep (twoTiles (by decide)) (eventsApart.filter (·.cpu == 1)) =
        some (alone, Run.select (·.cpu == 1) eventsApart results) := by
  have hrun : ∃ r, Run.run cmStep (twoTiles (H := 5) (W := 5) (by decide)) eventsApart = some r :=
    ⟨_, rfl⟩
  obtain ⟨⟨aimc', results⟩, hrun⟩ := hrun
  have hapart : ThreadsApart eventsApart := by
    intro a ha b hb
    simp only [eventsApart, List.mem_cons, List.not_mem_nil, or_false] at ha hb
    rcases ha with rfl | rfl <;> rcases hb with rfl | rfl <;> decide
  obtain ⟨alone, halone, -⟩ := cpus_isolated _ _ hapart hrun 1
  exact ⟨results, alone, by rw [hrun]; rfl, halone⟩

/-! ## Single-threaded CPUs -/

/-- CPU 0 writes the parameter 5 at row 0, column 0. -/
def writeFive : CmEvent := ⟨0, 0, ⟨.cmparamwrite, 0x41081D2A, 10, 7, 9, 8⟩, fun r => if r = 8 then 5 else 0⟩

/-- CPU 1 reads the parameter at row 0, column 0. -/
def readFirst : CmEvent := ⟨1, 0, ⟨.cmparamread, 0x4108812A, 10, 0, 9, 8⟩, fun _ => 0⟩

/-- The first cell of the crossbar. -/
def firstCell (hH : 0 < H) (hW : 0 < W) : Fin (W * H) := cellIdx ⟨0, hH⟩ ⟨0, hW⟩

theorem cmStep_writeFive (hn : 0 < n) (hH : 0 < H) (hW : 0 < W) (m : AIMCCluster H W n) :
    cmStep m writeFive = some (m.set 0 { m[0] with
      crossbar := m[0].crossbar.set (firstCell hH hW) 5 }, writeFive.regs) := by
  have hop : writeFive.inst.tileOp writeFive.regs = .aimcParamWrite (0 : Nat) (0 : Nat) 5 := by decide
  have hstep : tileStep m[0] (writeFive.inst.tileOp writeFive.regs) = some ({ m[0] with
      crossbar := m[0].crossbar.set (firstCell hH hW) 5 }, .void) := by
    rw [hop, tileStep, tileParamWrite_cell m[0] hW hH 5]
    rfl
  exact cmStep_eq (e := writeFive) hn hstep

theorem cmStep_readFirst (hn : 0 < n) (hH : 0 < H) (hW : 0 < W) (m : AIMCCluster H W n) :
    cmStep m readFirst = some (m, readFirst.regs.set 10
      ((m[0].crossbar.get (firstCell hH hW)).signExtend 64 &&& mask 32)) := by
  have hop : readFirst.inst.tileOp readFirst.regs = .aimcParamRead (0 : Nat) (0 : Nat) := by decide
  have hstep : tileStep m[0] (readFirst.inst.tileOp readFirst.regs) =
      some (m[0], .param (m[0].crossbar.get (firstCell hH hW))) := by
    rw [hop, tileStep, tileParamRead_cell m[0] hW hH]
    rfl
  rw [cmStep_eq (e := readFirst) hn hstep]
  show some (m.set 0 m[0], _) = _
  rw [Vector.set_getElem_self hn]
  rfl

theorem twoTiles_firstCell (fits : W * H < 2147483648) (hH : 0 < H) (hW : 0 < W) :
    (twoTiles fits)[0].crossbar.get (firstCell hH hW) = 0 := by
  unfold twoTiles
  rw [Vector.getElem_replicate]
  exact Vector.getElem_replicate _

/-- What CPU 1 reads after CPU 0's write, and alone, for every crossbar size. -/
theorem read_after_write (fits : W * H < 2147483648) (hH : 0 < H) (hW : 0 < W) :
    (Run.run cmStep (twoTiles fits) [writeFive, readFirst]).map
        (fun r => (Run.select (·.cpu == 1) [writeFive, readFirst] r.2).map (· 10)) = some [5] ∧
      (Run.run cmStep (twoTiles fits) ([writeFive, readFirst].filter (·.cpu == 1))).map
        (fun r => r.2.map (· 10)) = some [0] := by
  have hset : ∀ m : AIMCCluster H W 2,
      (m.set 0 { m[0] with crossbar := m[0].crossbar.set (firstCell hH hW) 5 })[0].crossbar.get
        (firstCell hH hW) = 5 := by
    intro m
    rw [Vector.getElem_set_self]
    exact Vector.getElem_set_self (firstCell hH hW).isLt
  have hread := cmStep_readFirst (by decide : 0 < 2) hH hW
  have hboth := Run.run_cons.2 ⟨_, _, _, cmStep_writeFive (by decide : 0 < 2) hH hW (twoTiles fits),
    Run.run_cons.2 ⟨_, _, _, hread _, Run.run_nil, rfl⟩, rfl⟩
  have halone := Run.run_cons.2 ⟨_, _, _, hread (twoTiles fits), Run.run_nil, rfl⟩
  rw [hset] at hboth
  rw [twoTiles_firstCell] at halone
  refine ⟨?_, ?_⟩
  · rw [hboth, Option.map_some]
    show some [readFirst.regs.set 10 (BitVec.signExtend 64 5 &&& mask 32) 10] = some [5]
    decide
  · show Option.map _ (Run.run cmStep (twoTiles fits) [readFirst]) = _
    rw [halone, Option.map_some]
    show some [readFirst.regs.set 10 (BitVec.signExtend 64 0 &&& mask 32) 10] = some [0]
    decide

/-- CPU 1 reads 5 after CPU 0's write and 0 alone, on the simulator's tiles. -/
theorem two_cpus_share_a_tile :
    (Run.run cmStep (twoTiles (H := 2000) (W := 2000) (by decide)) [writeFive, readFirst]).map
        (fun r => (Run.select (·.cpu == 1) [writeFive, readFirst] r.2).map (· 10)) = some [5] ∧
      (Run.run cmStep (twoTiles (H := 2000) (W := 2000) (by decide))
        ([writeFive, readFirst].filter (·.cpu == 1))).map (fun r => r.2.map (· 10)) = some [0] :=
  read_after_write (by decide) (by decide) (by decide)

end Alpine.Arm
