import Alpine.Aimc.Tile

/-!
# The simulator's tiles (`dev/arm/aimc_cluster.cc`)

`AIMCCluster` holds one tile per CPU.  Its operations index `tiles[tid]` without a test, so an
index outside the vector is undefined, and so is a negative crossbar index in `aimcParamRead` and
`aimcParamWrite`, which only test the upper bound.
-/

namespace Alpine.Aimc.Cluster

variable {H W n : Nat}

/-! ## One tile -/

/-- The three arrays of a tile as `new` returns them, uninitialised. -/
structure RawTile (H W : Nat) where
  crossbar : Vector (BitVec 8) (W * H)
  inputMemory : Vector (BitVec 8) H
  outputMemory : Vector (BitVec 8) W

/-- `AIMCTile::AIMCTile`: the arrays are zeroed cell by cell. -/
def AIMCTile.new (fits : W * H < 2147483648) (raw : RawTile H W) : Tile H W where
  crossbar := Fin.foldl H (fun xbar i =>
    Fin.foldl W (fun xbar j => xbar.set (cellIdx i j) 0 (Fin.isLt _)) xbar) raw.crossbar
  inputMemory := Fin.foldl H (fun mem i => mem.set i 0 i.isLt) raw.inputMemory
  outputMemory := Fin.foldl W (fun mem i => mem.set i 0 i.isLt) raw.outputMemory
  inputMemoryCounter := 0
  outputMemoryCounter := 0
  fits := fits

/-- The branch chain that stores an accumulator in an `int8_t`. -/
def saturate (acc : Int) : BitVec 8 :=
  if acc > 127 then BitVec.ofInt 8 127
  else if acc < -128 then BitVec.ofInt 8 (-128)
  else BitVec.ofInt 8 acc

def tileProcess (t : Tile H W) : Tile H W :=
  { t with
    outputMemory := Fin.foldl W (fun out i => out.set i (saturate (t.columnAcc i)) i.isLt) t.outputMemory
    inputMemory := Fin.foldl H (fun mem i => mem.set i 0 i.isLt) t.inputMemory
    inputMemoryCounter := 0
    outputMemoryCounter := 0 }

def tileQueue (t : Tile H W) (val : BitVec 32) : Option (Tile H W) := do
  let idx := t.inputMemoryCounter
  let stop ← int? (idx + vectorization)
  let mem ←
    if stop < H then
      (List.range vectorization).foldlM (fun mem (i : Nat) => store mem (idx + i) (byteAt val i)) t.inputMemory
    else some t.inputMemory
  let counter ← int? (idx + vectorization)
  some { t with inputMemory := mem, inputMemoryCounter := counter }

def tileDequeue (t : Tile H W) : Option (Tile H W × BitVec 32) := do
  let idx := t.outputMemoryCounter
  let stop ← int? (idx + vectorization)
  let result ←
    if stop < W then
      (List.range vectorization).reverse.foldlM (fun (result : BitVec 32) (i : Nat) => do
        let b ← load t.outputMemory (idx + i)
        -- the `int8_t` is promoted to `int` before the mask
        some ((result <<< 8) ||| (0xff#32 &&& b.signExtend 32))) 0#32
    else some 0#32
  let counter ← int? (idx + vectorization)
  some ({ t with outputMemoryCounter := counter }, result)

def tileParamRead (t : Tile H W) (x y : Int) : Option (BitVec 8) := do
  let idx ← index1D W x y
  if idx < (W * H : Nat) then load t.crossbar idx else some 0

def tileParamWrite (t : Tile H W) (x y : Int) (val : BitVec 8) : Option (Tile H W) := do
  let idx ← index1D W x y
  if idx < (W * H : Nat) then
    let crossbar ← store t.crossbar idx val
    some { t with crossbar := crossbar }
  else some t

/-- One operation on a tile. -/
def tileStep (t : Tile H W) : TileOp → Option (Tile H W × TileRet)
  | .aimcProcess => some (tileProcess t, .void)
  | .aimcQueue val => (tileQueue t val).map (·, .void)
  | .aimcDequeue => (tileDequeue t).map fun r => (r.1, .word r.2)
  | .aimcParamRead x y => (tileParamRead t x y).map fun v => (t, .param v)
  | .aimcParamWrite x y val => (tileParamWrite t x y val).map (·, .void)

/-! ## The tiles of an `AIMCCluster` -/

abbrev AIMCCluster (H W n : Nat) := Vector (Tile H W) n

/-- `AIMCCluster::AIMCCluster`: one new tile for each of the `n` CPUs. -/
def AIMCCluster.new (raw : Fin n → RawTile H W) : Option (AIMCCluster H W n) :=
  if fits : W * H < 2147483648 then some (Vector.ofFn fun i => AIMCTile.new fits (raw i)) else none

/-- `AIMCCluster::aimcProcess(tid)` and its siblings: the operation on `tiles[tid]`. -/
def step (c : AIMCCluster H W n) (tid : Int) (op : TileOp) : Option (AIMCCluster H W n × TileRet) := do
  let t ← load c tid
  let (t', r) ← tileStep t op
  let c' ← store c tid t'
  some (c', r)

end Alpine.Aimc.Cluster
