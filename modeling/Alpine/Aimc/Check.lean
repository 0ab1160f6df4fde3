import Alpine.Aimc.Tile

/-!
# The host checker (`aimclib/aimc_check.hh`)

`AnalogComputationalMemory` holds a vector of cores; every member function first tests the core
index and then works on that core.  The five free functions at the end of the file are what a
program calls when it is compiled with the checker: they take and return `uint64_t` values and
convert them to the types of the member functions.
-/

namespace Alpine.Aimc.Check

variable {H W n : Nat}

/-- `std::clamp(v, lo, hi)`. -/
def clamp (v lo hi : Int) : Int := if v < lo then lo else if hi < v then hi else v

/-! ## One core -/

def coreProcess (t : Tile H W) : Tile H W :=
  { t with
    outputMemory := Fin.foldl W (fun out i =>
      out.set i (BitVec.ofInt 8 (clamp (t.columnAcc i) (-128) 127)) i.isLt) t.outputMemory
    inputMemory := Fin.foldl H (fun mem j => mem.set j 0 j.isLt) t.inputMemory
    inputMemoryCounter := 0
    outputMemoryCounter := 0 }

def coreQueue (t : Tile H W) (val : BitVec 32) : Option (Tile H W) := do
  let idx := t.inputMemoryCounter
  let stop ← int? (idx + vectorization)
  let mem ←
    if stop < H then
      (List.range vectorization).foldlM (fun mem (i : Nat) => store mem (idx + i) (byteAt val i)) t.inputMemory
    else some t.inputMemory
  let counter ← int? (idx + vectorization)
  some { t with inputMemory := mem, inputMemoryCounter := counter }

def coreDequeue (t : Tile H W) : Option (Tile H W × BitVec 32) := do
  let idx := t.outputMemoryCounter
  let stop ← int? (idx + vectorization)
  let result ←
    if stop < W then
      (List.range vectorization).reverse.foldlM (fun (result : BitVec 32) (i : Nat) => do
        let b ← load t.outputMemory (idx + i)
        -- `0xff & static_cast<uint8_t>(..)`
        some ((result <<< 8) ||| (0xff#32 &&& b.setWidth 32))) 0#32
    else some 0#32
  let counter ← int? (idx + vectorization)
  some ({ t with outputMemoryCounter := counter }, result)

def coreParamRead (t : Tile H W) (x y : Int) : Option (BitVec 8) := do
  let idx ← index1D W x y
  if 0 ≤ idx ∧ idx < (W * H : Nat) then load t.crossbar idx else some 0

def coreParamWrite (t : Tile H W) (x y : Int) (val : BitVec 8) : Option (Tile H W) := do
  let idx ← index1D W x y
  if 0 ≤ idx ∧ idx < (W * H : Nat) then
    let crossbar ← store t.crossbar idx val
    some { t with crossbar := crossbar }
  else some t

/-! ### Specifications -/

variable (t : Tile H W)

theorem coreProcess_eq : coreProcess t = { t with
      outputMemory := Vector.ofFn fun i => BitVec.ofInt 8 (clamp (t.columnAcc i) (-128) 127)
      inputMemory := Vector.ofFn fun _ => 0
      inputMemoryCounter := 0
      outputMemoryCounter := 0 } := by
  unfold coreProcess
  rw [Loop.foldl_set, Loop.foldl_set]

/-- A queue stores its four bytes at the counter if the block ends strictly inside the input
memory, drops them otherwise, and advances the counter in both cases. -/
theorem coreQueue_spec {c : Nat} (hc : t.inputMemoryCounter = c) (hb : c + 4 < 2147483648) (val : BitVec 32) :
    ∃ mem : Vector (BitVec 8) H,
      coreQueue t val = some { t with inputMemory := mem, inputMemoryCounter := (c + 4 : Nat) } ∧
      ∀ k (hk : k < H), mem[k] = if c + 4 < H ∧ c ≤ k ∧ k < c + 4 then byteAt val (k - c) else t.inputMemory[k] := by
  have hstop : int? ((c : Int) + vectorization) = some ((c + 4 : Nat) : Int) := int?_natCast hb
  unfold coreQueue
  rw [hc]
  simp only [hstop, bind_some_eq]
  by_cases h : c + 4 < H
  · obtain ⟨mem, hmem, hget⟩ := foldlM_store t.inputMemory c (byteAt val) 4 (by omega)
    refine ⟨mem, ?_, fun k hk => by rw [hget k hk]; simp [h]⟩
    rw [if_pos (by omega)]
    simp only [vectorization, hmem, bind_some_eq]
  · refine ⟨t.inputMemory, ?_, fun k hk => by simp [h]⟩
    rw [if_neg (by omega)]

/-- A dequeue returns the four bytes at the counter if the block ends strictly inside the output
memory, zeros otherwise, and advances the counter in both cases. -/
theorem coreDequeue_spec {c : Nat} (hc : t.outputMemoryCounter = c) (hb : c + 4 < 2147483648) : ∃ r : BitVec 32,
      coreDequeue t = some ({ t with outputMemoryCounter := (c + 4 : Nat) }, r) ∧
      ∀ i, i < 4 → byteAt r i = if h : c + 4 < W ∧ i < 4 then t.outputMemory[c + i] else 0 := by
  have hstop : int? ((c : Int) + vectorization) = some ((c + 4 : Nat) : Int) := int?_natCast hb
  unfold coreDequeue
  rw [hc]
  simp only [hstop, bind_some_eq]
  by_cases h : c + 4 < W
  · have hload : ∀ i : Nat, (hi : i < 4) → load t.outputMemory ((c : Int) + i) =
        some t.outputMemory[c + i] := fun i hi => load_nat _ (by omega)
    refine ⟨packWord t.outputMemory[c] t.outputMemory[c + 1] t.outputMemory[c + 2]
      t.outputMemory[c + 3], ?_, ?_⟩
    · rw [if_pos (by omega)]
      have hrange : (List.range vectorization).reverse = [3, 2, 1, 0] := rfl
      rw [hrange]
      simp only [List.foldlM_cons, List.foldlM_nil, hload 3 (by omega), hload 2 (by omega),
        hload 1 (by omega), hload 0 (by omega), bind_some_eq, mask_setWidth]
      rfl
    · obtain ⟨h0, h1, h2, h3⟩ := byteAt_packWord t.outputMemory[c] t.outputMemory[c + 1]
        t.outputMemory[c + 2] t.outputMemory[c + 3]
      intro i hi
      rw [dif_pos ⟨h, hi⟩]
      rcases (by omega : i = 0 ∨ i = 1 ∨ i = 2 ∨ i = 3) with rfl | rfl | rfl | rfl
      · exact h0
      · exact h1
      · exact h2
      · exact h3
  · refine ⟨0#32, ?_, fun i _ => ?_⟩
    · rw [if_neg (by omega)]
    · rw [dif_neg (fun e => h e.1), byteAt_eq]; simp

/-- A core operation on a counter that would overflow does not return. -/
theorem int?_vectorization {c : Nat} (h : ¬ c + 4 < 2147483648) : int? ((c : Int) + vectorization) = none :=
  if_neg fun hint => h (by have := hint.2; simp [vectorization] at this; omega)

theorem coreQueue_returns {t t' : Tile H W} {c : Nat} (hc : t.inputMemoryCounter = c) {val : BitVec 32}
    (hq : coreQueue t val = some t') : c + 4 < 2147483648 := by
  by_contra hb
  unfold coreQueue at hq
  simp only [hc, int?_vectorization hb] at hq
  cases hq

theorem coreDequeue_returns {t : Tile H W} {r : Tile H W × BitVec 32} {c : Nat}
    (hc : t.outputMemoryCounter = c) (hd : coreDequeue t = some r) : c + 4 < 2147483648 := by
  by_contra hb
  unfold coreDequeue at hd
  simp only [hc, int?_vectorization hb] at hd
  cases hd

theorem coreParamRead_cell {x y : Nat} (hx : x < W) (hy : y < H) :
    coreParamRead t x y = some (t.crossbar.get (cellIdx ⟨y, hy⟩ ⟨x, hx⟩)) := by
  have hlt := cell_lt hy hx
  unfold coreParamRead
  rw [index1D_cell t hx hy, bind_some_eq, if_pos ⟨by omega, by omega⟩]
  exact load_nat _ hlt

theorem coreParamWrite_cell {x y : Nat} (hx : x < W) (hy : y < H) (val : BitVec 8) : coreParamWrite t x y val =
      some { t with crossbar := t.crossbar.set (cellIdx ⟨y, hy⟩ ⟨x, hx⟩) val (Fin.isLt _) } := by
  have hlt := cell_lt hy hx
  unfold coreParamWrite
  rw [index1D_cell t hx hy, bind_some_eq, if_pos ⟨by omega, by omega⟩, store_nat _ hlt, bind_some_eq]
  rfl

/-! ## The cores of an `AnalogComputationalMemory` -/

abbrev AnalogComputationalMemory (H W n : Nat) := Vector (Tile H W) n

/-- `AnalogComputationalMemory::AnalogComputationalMemory(int numOfCores)`. -/
def AnalogComputationalMemory.new (H W n : Nat) : Option (AnalogComputationalMemory H W n) :=
  if fits : W * H < 2147483648 then some (Vector.replicate n (Tile.fresh fits)) else none

/-- A member function: nothing happens, and `dflt` is returned, for an invalid `tid`. -/
def onCore {α : Type} (m : AnalogComputationalMemory H W n) (tid : Int) (dflt : α)
    (f : Tile H W → Option (Tile H W × α)) : Option (AnalogComputationalMemory H W n × α) :=
  if tid < 0 ∨ n ≤ tid then some (m, dflt) else do
    let t ← load m tid
    let (t', r) ← f t
    let m' ← store m tid t'
    some (m', r)

def aimcProcess (m : AnalogComputationalMemory H W n) (tid : Int) : Option (AnalogComputationalMemory H W n × Unit) :=
  onCore m tid () fun t => some (coreProcess t, ())

def aimcQueue (m : AnalogComputationalMemory H W n) (tid : Int) (val : BitVec 32) :
    Option (AnalogComputationalMemory H W n × Unit) :=
  onCore m tid () fun t => (coreQueue t val).map (·, ())

def aimcDequeue (m : AnalogComputationalMemory H W n) (tid : Int) :
    Option (AnalogComputationalMemory H W n × BitVec 32) :=
  onCore m tid 0 coreDequeue

def aimcParamRead (m : AnalogComputationalMemory H W n) (tid x y : Int) :
    Option (AnalogComputationalMemory H W n × BitVec 8) :=
  onCore m tid 0 fun t => (coreParamRead t x y).map (t, ·)

def aimcParamWrite (m : AnalogComputationalMemory H W n) (tid x y : Int) (val : BitVec 8) :
    Option (AnalogComputationalMemory H W n × Unit) :=
  onCore m tid () fun t => (coreParamWrite t x y val).map (·, ())

/-- Dispatch on the operation. -/
def step (m : AnalogComputationalMemory H W n) (tid : Int) :
    TileOp → Option (AnalogComputationalMemory H W n × TileRet)
  | .aimcProcess => (aimcProcess m tid).map fun r => (r.1, .void)
  | .aimcQueue val => (aimcQueue m tid val).map fun r => (r.1, .void)
  | .aimcDequeue => (aimcDequeue m tid).map fun r => (r.1, .word r.2)
  | .aimcParamRead x y => (aimcParamRead m tid x y).map fun r => (r.1, .param r.2)
  | .aimcParamWrite x y val => (aimcParamWrite m tid x y val).map fun r => (r.1, .void)

/-! ## Intrinsics emulation -/

namespace Wrapper

def aimcProcess (m : AnalogComputationalMemory H W n) (tid : Int) :
    Option (AnalogComputationalMemory H W n × BitVec 64) :=
  (Check.aimcProcess m tid).map fun r => (r.1, 0)

/-- `rm` is narrowed to the `uint32_t` parameter. -/
def aimcQueue (m : AnalogComputationalMemory H W n) (rm : BitVec 64) (tid : Int) :
    Option (AnalogComputationalMemory H W n × BitVec 64) :=
  (Check.aimcQueue m tid (rm.setWidth 32)).map fun r => (r.1, 0)

def aimcDequeue (m : AnalogComputationalMemory H W n) (tid : Int) :
    Option (AnalogComputationalMemory H W n × BitVec 64) :=
  (Check.aimcDequeue m tid).map fun r => (r.1, r.2.setWidth 64)

/-- The `int8_t` result is sign extended to `uint64_t`. -/
def aimcParamRead (m : AnalogComputationalMemory H W n) (rm rn _ra : BitVec 64) (tid : Int) :
    Option (AnalogComputationalMemory H W n × BitVec 64) :=
  (Check.aimcParamRead m tid (toInt32 rm) (toInt32 rn)).map fun r => (r.1, r.2.signExtend 64)

def aimcParamWrite (m : AnalogComputationalMemory H W n) (rm rn ra : BitVec 64) (tid : Int) :
    Option (AnalogComputationalMemory H W n × BitVec 64) :=
  (Check.aimcParamWrite m tid (toInt32 rm) (toInt32 rn) (ra.setWidth 8)).map fun r => (r.1, 0)

end Wrapper

end Alpine.Aimc.Check
