import Alpine.Aimc.Check
import Alpine.Aimc.Cluster
import Alpine.Lib.Run

/-!
# The host checker emulates the simulator's tiles

The file comment of `aimc_check.hh` announces "classes functions for which we can emulate and check
the code in the associated gem5 model".  For one crossbar size the two implementations agree:

* `coreProcess_eq_tileProcess` and its siblings — one operation on one tile, for coordinates inside the crossbar
  (outside it the checker tests for a negative index and the simulator does not);
* `checker_emulates_cluster` — from freshly constructed objects, every list of calls with valid tile
  indices and coordinates gives the same outcome after every call: the same tiles and the same
  returned value, or undefined behaviour in both.  The only undefined outcome is the overflow of a
  counter, which takes at least `2 ^ 29 - 1` calls.
-/

namespace Alpine.Aimc

open Check Cluster

variable {H W n : Nat}

/-! ## One tile -/

theorem new_eq_fresh (fits : W * H < 2147483648) (raw : RawTile H W) : AIMCTile.new fits raw = Tile.fresh fits := by
  have hzero : ∀ {k : Nat} (v : Vector (BitVec 8) k),
      Fin.foldl k (fun v i => v.set i 0) v = Vector.replicate k 0 := fun v => by
    rw [Loop.foldl_set]; exact Vector.ext fun i hi => by simp
  have hxbar : Fin.foldl H (fun xbar i =>
      Fin.foldl W (fun xbar j => xbar.set (cellIdx i j) 0) xbar) raw.crossbar =
        Vector.replicate (W * H) (0 : BitVec 8) := by
    -- after `i` rows every cell of those rows is zero
    have hrows := Loop.foldl_inv (fun xbar i =>
        Fin.foldl W (fun (xbar : Vector (BitVec 8) (W * H)) j => xbar.set (cellIdx i j) 0) xbar)
      (fun r v => ∀ k (hk : k < W * H), k < r * W → v[k] = 0) (s := raw.crossbar)
      (fun k hk h => by omega)
      (fun i v hv => by
        have hrow := Loop.foldl_inv (fun (xbar : Vector (BitVec 8) (W * H)) j =>
            xbar.set (cellIdx i j) 0)
          (fun c v => ∀ k (hk : k < W * H), k < i * W + c → v[k] = 0) (s := v)
          (fun k hk h => hv k hk (by omega))
          (fun j v hv k hk h => by
            by_cases e : i * W + j = k
            · subst e; exact Vector.getElem_set_self _
            · rw [Vector.getElem_set_ne _ _ (show (cellIdx i j).val ≠ k from e)]
              exact hv k hk (by omega))
        intro k hk h
        exact hrow k hk (by rw [Nat.succ_mul] at h; exact h))
    refine Vector.ext fun k hk => ?_
    rw [hrows k hk (by rw [Nat.mul_comm]; exact hk), Vector.getElem_replicate]
  unfold AIMCTile.new Tile.fresh
  rw [hxbar, hzero, hzero]

theorem saturate_eq_clamp (acc : Int) : saturate acc = BitVec.ofInt 8 (clamp acc (-128) 127) := by
  unfold saturate clamp
  by_cases h1 : acc > 127
  · rw [if_pos h1, if_neg (by omega), if_pos (by omega)]
  · rw [if_neg h1]
    by_cases h2 : acc < -128
    · rw [if_pos h2, if_pos h2]
    · rw [if_neg h2, if_neg h2, if_neg (by omega)]

variable (t : Tile H W)

theorem coreProcess_eq_tileProcess : coreProcess t = tileProcess t := by
  unfold coreProcess tileProcess
  simp only [saturate_eq_clamp]

theorem coreQueue_eq_tileQueue (val : BitVec 32) : coreQueue t val = tileQueue t val :=
  rfl

theorem coreDequeue_eq_tileDequeue : coreDequeue t = tileDequeue t := by
  unfold coreDequeue tileDequeue
  simp only [mask_setWidth, mask_signExtend]

theorem coreParamRead_eq_tileParamRead {x y : Int} (hx : 0 ≤ x ∧ x < W)
    (hy : 0 ≤ y ∧ y < H) : coreParamRead t x y = tileParamRead t x y := by
  obtain ⟨x, rfl⟩ := Int.eq_ofNat_of_zero_le hx.1
  obtain ⟨y, rfl⟩ := Int.eq_ofNat_of_zero_le hy.1
  have hidx := index1D_cell t (x := x) (y := y) (by omega) (by omega)
  unfold coreParamRead tileParamRead
  simp only [hidx, bind_some_eq, Int.natCast_nonneg, true_and]

theorem coreParamWrite_eq_tileParamWrite {x y : Int} (hx : 0 ≤ x ∧ x < W)
    (hy : 0 ≤ y ∧ y < H) (val : BitVec 8) : coreParamWrite t x y val = tileParamWrite t x y val := by
  obtain ⟨x, rfl⟩ := Int.eq_ofNat_of_zero_le hx.1
  obtain ⟨y, rfl⟩ := Int.eq_ofNat_of_zero_le hy.1
  have hidx := index1D_cell t (x := x) (y := y) (by omega) (by omega)
  unfold coreParamWrite tileParamWrite
  simp only [hidx, bind_some_eq, Int.natCast_nonneg, true_and]

theorem tileParamRead_cell {x y : Nat} (hx : x < W) (hy : y < H) :
    tileParamRead t x y = some (t.crossbar.get (cellIdx ⟨y, hy⟩ ⟨x, hx⟩)) := by
  rw [← coreParamRead_eq_tileParamRead t (by omega) (by omega)]
  exact coreParamRead_cell t hx hy

theorem tileParamWrite_cell {x y : Nat} (hx : x < W) (hy : y < H) (val : BitVec 8) : tileParamWrite t x y val =
      some { t with crossbar := t.crossbar.set (cellIdx ⟨y, hy⟩ ⟨x, hx⟩) val (Fin.isLt _) } := by
  rw [← coreParamWrite_eq_tileParamWrite t (by omega) (by omega)]
  exact coreParamWrite_cell t hx hy val

/-! ## All tiles -/

theorem onCore_valid {α : Type} (m : AnalogComputationalMemory H W n) {k : Nat} (hk : k < n) (d : α)
    (f : Tile H W → Option (Tile H W × α)) : onCore m k d f = (f m[k]).map fun r => (m.set k r.1, r.2) := by
  unfold onCore
  rw [if_neg (by omega), load_nat m hk, bind_some_eq]
  cases f m[k] with
  | none => rfl
  | some r => simp only [bind_some_eq, store_nat m hk]; rfl

theorem cluster_step_valid (m : AIMCCluster H W n) {k : Nat} (hk : k < n) (op : TileOp) :
    Cluster.step m k op = (tileStep m[k] op).map fun r => (m.set k r.1, r.2) := by
  unfold Cluster.step
  rw [load_nat m hk, bind_some_eq]
  cases tileStep m[k] op with
  | none => rfl
  | some r => simp only [bind_some_eq, store_nat m hk]; rfl

/-- A call as the two interfaces receive it. -/
abbrev Call := Int × TileOp

/-- A valid tile index and coordinates inside the crossbar. -/
def Call.Valid (H W n : Nat) (c : Call) : Prop := (0 ≤ c.1 ∧ c.1 < n) ∧ c.2.InRange H W

instance (c : Call) : Decidable (c.Valid H W n) := inferInstanceAs (Decidable (_ ∧ _))

theorem check_step_eq (m : AnalogComputationalMemory H W n) {c : Call} (h : c.Valid H W n) :
    Check.step m c.1 c.2 = Cluster.step m c.1 c.2 := by
  obtain ⟨tid, op⟩ := c
  obtain ⟨⟨h0, hn⟩, hop⟩ := h
  obtain ⟨k, rfl⟩ := Int.eq_ofNat_of_zero_le h0
  have hk : k < n := by simp only at hn; omega
  rw [cluster_step_valid m hk]
  cases op with
  | aimcProcess =>
    simp only [Check.step, Check.aimcProcess, onCore_valid m hk, tileStep,
      coreProcess_eq_tileProcess, Option.map_some]
  | aimcQueue val =>
    simp only [Check.step, Check.aimcQueue, onCore_valid m hk, tileStep, coreQueue_eq_tileQueue, Option.map_map]
    rfl
  | aimcDequeue =>
    simp only [Check.step, Check.aimcDequeue, onCore_valid m hk, tileStep, coreDequeue_eq_tileDequeue, Option.map_map]
    rfl
  | aimcParamRead x y =>
    simp only [Check.step, Check.aimcParamRead, onCore_valid m hk, tileStep,
      coreParamRead_eq_tileParamRead _ hop.1 hop.2, Option.map_map]
    rfl
  | aimcParamWrite x y val =>
    simp only [Check.step, Check.aimcParamWrite, onCore_valid m hk, tileStep,
      coreParamWrite_eq_tileParamWrite _ hop.1 hop.2, Option.map_map]
    rfl

/-! ## Definedness -/

/-- Both counters are at most `4 * k`. -/
def CountersLe (k : Nat) (t : Tile H W) : Prop :=
  (∃ c : Nat, t.inputMemoryCounter = c ∧ c ≤ 4 * k) ∧ ∃ c : Nat, t.outputMemoryCounter = c ∧ c ≤ 4 * k

theorem tileStep_defined {k : Nat} {t : Tile H W} (ht : CountersLe k t) (hk : 4 * k + 4 < 2147483648)
    {op : TileOp} (hop : op.InRange H W) : ∃ t' r, tileStep t op = some (t', r) ∧ CountersLe (k + 1) t' := by
  obtain ⟨⟨ci, hci, hci'⟩, ⟨co, hco, hco'⟩⟩ := ht
  cases op with
  | aimcProcess => exact ⟨_, _, rfl, ⟨0, rfl, by omega⟩, ⟨0, rfl, by omega⟩⟩
  | aimcQueue val =>
    obtain ⟨mem, hq, _⟩ := coreQueue_spec t hci (by omega) val
    refine ⟨{ t with inputMemory := mem, inputMemoryCounter := (ci + 4 : Nat) }, .void, ?_,
      ⟨ci + 4, rfl, by omega⟩, ⟨co, hco, by omega⟩⟩
    rw [tileStep, ← coreQueue_eq_tileQueue, hq]
    rfl
  | aimcDequeue =>
    obtain ⟨r, hd, _⟩ := coreDequeue_spec t hco (by omega)
    refine ⟨{ t with outputMemoryCounter := (co + 4 : Nat) }, .word r, ?_, ⟨ci, hci, by omega⟩,
      ⟨co + 4, rfl, by omega⟩⟩
    rw [tileStep, ← coreDequeue_eq_tileDequeue, hd]
    rfl
  | aimcParamRead x y =>
    obtain ⟨x, rfl⟩ := Int.eq_ofNat_of_zero_le hop.1.1
    obtain ⟨y, rfl⟩ := Int.eq_ofNat_of_zero_le hop.2.1
    have hx : x < W := by have := hop.1.2; omega
    have hy : y < H := by have := hop.2.2; omega
    refine ⟨t, .param (t.crossbar.get (cellIdx ⟨y, hy⟩ ⟨x, hx⟩)), ?_, ⟨ci, hci, by omega⟩,
      ⟨co, hco, by omega⟩⟩
    rw [tileStep, tileParamRead_cell t hx hy]
    rfl
  | aimcParamWrite x y val =>
    obtain ⟨x, rfl⟩ := Int.eq_ofNat_of_zero_le hop.1.1
    obtain ⟨y, rfl⟩ := Int.eq_ofNat_of_zero_le hop.2.1
    have hx : x < W := by have := hop.1.2; omega
    have hy : y < H := by have := hop.2.2; omega
    refine ⟨{ t with crossbar := t.crossbar.set (cellIdx ⟨y, hy⟩ ⟨x, hx⟩) val }, .void, ?_,
      ⟨ci, hci, by omega⟩, ⟨co, hco, by omega⟩⟩
    rw [tileStep, tileParamWrite_cell t hx hy]
    rfl

theorem cluster_step_defined {k : Nat} {m : AIMCCluster H W n} (hm : ∀ i (hi : i < n), CountersLe k m[i])
    (hk : 4 * k + 4 < 2147483648) {call : Call} (hcall : call.Valid H W n) :
    ∃ m' r, Cluster.step m call.1 call.2 = some (m', r) ∧ ∀ i (hi : i < n), CountersLe (k + 1) m'[i] := by
  obtain ⟨tid, op⟩ := call
  obtain ⟨⟨h0, hn⟩, hop⟩ := hcall
  obtain ⟨j, rfl⟩ := Int.eq_ofNat_of_zero_le h0
  have hj : j < n := by simp only at hn; omega
  obtain ⟨t', r, ht', hle⟩ := tileStep_defined (hm j hj) hk hop
  refine ⟨m.set j t', r, by rw [cluster_step_valid m hj, ht']; rfl, fun i hi => ?_⟩
  by_cases e : j = i
  · subst e; rw [Vector.getElem_set_self]; exact hle
  · rw [Vector.getElem_set_ne _ _ e]
    obtain ⟨⟨ci, hci, hci'⟩, ⟨co, hco, hco'⟩⟩ := hm i hi
    exact ⟨⟨ci, hci, by omega⟩, ⟨co, hco, by omega⟩⟩

/-! ## Traces from fresh objects -/

/-- Outcomes of a list of calls on a new `AnalogComputationalMemory` of `n` cores. -/
def Check.freshTrace (H W n : Nat) (calls : List Call) :
    Option (List (Option (AnalogComputationalMemory H W n × TileRet))) :=
  (AnalogComputationalMemory.new H W n).map fun m =>
    Run.trace (fun m (c : Call) => Check.step m c.1 c.2) m calls

/-- Outcomes of a list of calls on a new `AIMCCluster` of `n` tiles. -/
def Cluster.freshTrace (raw : Fin n → RawTile H W) (calls : List Call) :
    Option (List (Option (AIMCCluster H W n × TileRet))) :=
  (AIMCCluster.new raw).map fun c =>
    Run.trace (fun c (call : Call) => Cluster.step c call.1 call.2) c calls

theorem new_eq_new (raw : Fin n → RawTile H W) : AIMCCluster.new raw = AnalogComputationalMemory.new H W n := by
  unfold AIMCCluster.new AnalogComputationalMemory.new
  by_cases fits : W * H < 2147483648
  · rw [dif_pos fits, dif_pos fits]
    simp only [new_eq_fresh]
    exact congrArg some (Vector.ext fun i hi => by simp)
  · rw [dif_neg fits, dif_neg fits]

/-- **The checker emulates the cluster**: same outcome after every call, and no outcome is undefined
before the `2 ^ 29 - 1`-st call. -/
theorem checker_emulates_cluster (raw : Fin n → RawTile H W) (calls : List Call)
    (hcalls : ∀ c ∈ calls, c.Valid H W n) : Check.freshTrace H W n calls = Cluster.freshTrace raw calls ∧
      (W * H < 2147483648 → calls.length < 536870911 → ∃ outcomes, Check.freshTrace H W n calls = some outcomes ∧
          outcomes.length = calls.length ∧ ∀ o ∈ outcomes, o.isSome) := by
  have hcongr : ∀ m : AnalogComputationalMemory H W n,
      Run.trace (fun m (c : Call) => Check.step m c.1 c.2) m calls =
        Run.trace (fun m (c : Call) => Cluster.step m c.1 c.2) m calls := fun m =>
    Run.trace_congr (Q := fun c => c.Valid H W n) (fun m c hc => check_step_eq m hc) calls m hcalls
  refine ⟨?_, fun fits hlen => ?_⟩
  · unfold Check.freshTrace Cluster.freshTrace
    rw [new_eq_new raw]
    exact congrArg (fun f => Option.map f _) (funext hcongr)
  · have hnew : AnalogComputationalMemory.new H W n = some (Vector.replicate n (Tile.fresh fits)) :=
      dif_pos fits
    have hdef := Run.trace_defined (N := 536870910) (Q := fun c => c.Valid H W n)
      (P := fun k (m : AIMCCluster H W n) => ∀ i (hi : i < n), CountersLe k m[i])
      (fun k m call hk hm hcall => cluster_step_defined hm (by omega) hcall)
      calls 0 (Vector.replicate n (Tile.fresh fits))
      (fun i hi => by rw [Vector.getElem_replicate]; exact ⟨⟨0, rfl, by omega⟩, ⟨0, rfl, by omega⟩⟩)
      (by omega) hcalls
    unfold Check.freshTrace
    rw [hnew, Option.map_some, hcongr]
    exact ⟨_, rfl, hdef⟩

/-- Two cores of a `5 × 6` crossbar through all five operations, one queue past the end included. -/
theorem checker_emulates_cluster_small : Check.freshTrace 5 6 2
        [(1, .aimcParamWrite 5 4 200#8), (0, .aimcQueue 0x04030201#32), (1, .aimcQueue 0xff000001#32),
          (1, .aimcQueue 7#32), (1, .aimcProcess), (1, .aimcDequeue), (1, .aimcParamRead 5 4)] =
      Cluster.freshTrace (fun _ => ⟨Vector.replicate 30 3, Vector.replicate 5 3, Vector.replicate 6 3⟩)
        [(1, .aimcParamWrite 5 4 200#8), (0, .aimcQueue 0x04030201#32), (1, .aimcQueue 0xff000001#32),
          (1, .aimcQueue 7#32), (1, .aimcProcess), (1, .aimcDequeue), (1, .aimcParamRead 5 4)] :=
  (checker_emulates_cluster _ _ (by decide)).1

end Alpine.Aimc
