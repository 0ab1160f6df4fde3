import Alpine.Aimc.Emulation

/-!
# Mapping matrices and transferring vectors

`mapMatrix` (`aimclib/aimc_tile.hh`, the overload for `int8_t` row pointers), `queueVector`
(`aimclib/aimc_queue.hh`) and `dequeueVector` (`aimclib/aimc_dequeue.hh`) for `int8_t` data, compiled
with the checker and without `LOOSELY_COUPLED_MMIO`.  A pointer is an `Option`; the array it points
to has the length the caller passes.

* `mapMatrix_spec` — the block of the crossbar at the given offset holds the matrix, every other cell
  is unchanged.
* `queueVector_spec` — the input memory holds the vector, zero padded to whole words, from the
  counter on, except for a word that does not end strictly inside the memory, which is dropped.
* `dequeueVector_spec` — the array receives the output memory from the counter on, with zeros for a
  word that does not end strictly inside the memory.
-/

namespace Alpine.Aimc

open Check

variable {H W n : Nat}

/-- Body of the inner loop of `mapMatrix`; the write goes to core 0. -/
def mapIter {height width : Nat} (m : Vector (Option (Vector (BitVec 8) width)) height)
    (aimc_x aimc_y : Int) (i : Fin width) (mem : AnalogComputationalMemory H W n) (j : Fin height) :
    Option (AnalogComputationalMemory H W n) :=
  match m.get j with
  | none => some mem
  | some row => do
    let x ← int? (i + aimc_x)
    let y ← int? (j + aimc_y)
    (Wrapper.aimcParamWrite mem (ofInt32 x) (ofInt32 y) ((row.get i).signExtend 64) 0).map (·.1)

/-- `mapMatrix(aimc_x, aimc_y, height, width, m)`. -/
def mapMatrix {height width : Nat} (mem : AnalogComputationalMemory H W n) (aimc_x aimc_y : Int)
    (m : Option (Vector (Option (Vector (BitVec 8) width)) height)) : Option (AnalogComputationalMemory H W n) :=
  match m with
  | none => some mem
  | some m =>
    if height = 0 ∨ width = 0 then some mem else
    Fin.foldlM width (fun mem i => Fin.foldlM height (mapIter m aimc_x aimc_y i) mem) mem

/-- One iteration of the packing loop of `queueVector`. -/
def queueIter {size : Nat} (v : Vector (BitVec 8) size) (tid : Int)
    (s : AnalogComputationalMemory H W n × BitVec 32) (i : Fin size) :
    Option (AnalogComputationalMemory H W n × BitVec 32) := do
  let s ←
    if i.val % 4 = 0 ∧ 0 < i.val then do
      let r ← Wrapper.aimcQueue s.1 (s.2.setWidth 64) tid
      some (r.1, 0#32)
    else some s
  some (s.1, s.2 ||| ((v.get i).setWidth 32 <<< (8 * (i.val % 4))))

/-- `queueVector(size, v, tid)`. -/
def queueVector {size : Nat} (mem : AnalogComputationalMemory H W n)
    (v : Option (Vector (BitVec 8) size)) (tid : Int) : Option (AnalogComputationalMemory H W n) :=
  match v with
  | none => some mem
  | some v =>
    if size = 0 then some mem else do
    let s ← Fin.foldlM size (queueIter v tid) (mem, 0#32)
    let r ← Wrapper.aimcQueue s.1 (s.2.setWidth 64) tid
    some r.1

/-- `if (i % 4 == 0) tmp = aimcDequeue(tid);`. -/
def dequeueWord (mem : AnalogComputationalMemory H W n) (tmp : BitVec 32) (tid : Int) (i : Nat) :
    Option (AnalogComputationalMemory H W n × BitVec 32) :=
  if i % 4 = 0 then (Wrapper.aimcDequeue mem tid).map fun r => (r.1, r.2.setWidth 32)
  else some (mem, tmp)

/-- One iteration of the unpacking loop of `dequeueVector`: the memory, `tmp` and the array. -/
def dequeueIter {size : Nat} (tid : Int)
    (s : AnalogComputationalMemory H W n × BitVec 32 × Vector (BitVec 8) size) (i : Fin size) :
    Option (AnalogComputationalMemory H W n × BitVec 32 × Vector (BitVec 8) size) := do
  let q ← dequeueWord s.1 s.2.1 tid i
  some (q.1, q.2 >>> 8, s.2.2.set i ((q.2 &&& 0xff#32).setWidth 8) i.isLt)

/-- `dequeueVector(size, v, tid)`. -/
def dequeueVector {size : Nat} (mem : AnalogComputationalMemory H W n)
    (v : Option (Vector (BitVec 8) size)) (tid : Int) :
    Option (AnalogComputationalMemory H W n × Option (Vector (BitVec 8) size)) :=
  match v with
  | none => some (mem, none)
  | some v =>
    if size = 0 then some (mem, some v) else do
    let s ← Fin.foldlM size (dequeueIter tid) (mem, 0#32, v)
    some (s.1, some s.2.2)

/-! ## Wrappers on a valid core -/

variable {k : Nat}

theorem wrapper_aimcProcess_eq (m : AnalogComputationalMemory H W n) (hk : k < n) :
    Wrapper.aimcProcess m k = some (m.set k (coreProcess m[k]), 0) := by
  simp only [Wrapper.aimcProcess, Check.aimcProcess, onCore_valid m hk, Option.map_some]

theorem wrapper_aimcQueue_eq (m : AnalogComputationalMemory H W n) (hk : k < n) (val : BitVec 32) :
    Wrapper.aimcQueue m (val.setWidth 64) k = (coreQueue m[k] val).map fun t => (m.set k t, 0) := by
  have hval : (val.setWidth 64).setWidth 32 = val := by simp
  simp only [Wrapper.aimcQueue, hval, Check.aimcQueue, onCore_valid m hk, Option.map_map]
  rfl

theorem wrapper_aimcDequeue_eq (m : AnalogComputationalMemory H W n) (hk : k < n) : Wrapper.aimcDequeue m k =
      (coreDequeue m[k]).map fun r => (m.set k r.1, r.2.setWidth 64) := by
  simp only [Wrapper.aimcDequeue, Check.aimcDequeue, onCore_valid m hk, Option.map_map]
  rfl

theorem wrapper_aimcParamWrite_eq (m : AnalogComputationalMemory H W n) (hk : k < n) {x y : Int}
    (hx : IsInt x) (hy : IsInt y) (b : BitVec 8) :
    Wrapper.aimcParamWrite m (ofInt32 x) (ofInt32 y) (b.signExtend 64) k =
      (coreParamWrite m[k] x y b).map fun t => (m.set k t, 0) := by
  have hb : (b.signExtend 64).setWidth 8 = b := by
    ext i hi; simp [BitVec.getLsbD_signExtend, hi]; grind
  simp only [Wrapper.aimcParamWrite, toInt32_ofInt32 hx, toInt32_ofInt32 hy, hb, Check.aimcParamWrite,
    onCore_valid m hk, Option.map_map]
  rfl

/-! ## Packed words -/

theorem byteAt_zero (k : Nat) : byteAt 0#32 k = 0 := by
  rw [byteAt_eq]; simp

theorem byteAt_or_shift (val : BitVec 32) (b : BitVec 8) {j : Nat} (hj : j < 4) (hk : k < 4) :
    byteAt (val ||| b.setWidth 32 <<< (8 * j)) k = if k = j then byteAt val k ||| b else byteAt val k := by
  rw [byteAt_eq, byteAt_eq]
  split
  · rename_i e
    subst e
    ext i hi
    simp [hi, show 8 * k + i < 32 by omega, show ¬ 8 * k + i < 8 * k by omega]
  · rename_i e
    ext i hi
    simp only [BitVec.getElem_setWidth, BitVec.getLsbD_ushiftRight, BitVec.getLsbD_or,
      BitVec.getLsbD_shiftLeft, BitVec.getLsbD_setWidth]
    rcases Nat.lt_or_gt_of_ne e with h | h
    · simp [show 8 * k + i < 8 * j by omega]
    · rw [BitVec.getLsbD_of_ge b _ (by omega)]; simp

theorem byteAt_ushiftRight (val : BitVec 32) (k : Nat) : byteAt (val >>> 8) k = byteAt val (k + 1) := by
  rw [byteAt_eq, byteAt_eq, ← BitVec.shiftRight_add, show 8 * (k + 1) = 8 + 8 * k by omega]

theorem byteAt_val_zero (val : BitVec 32) : (val &&& 0xff#32).setWidth 8 = byteAt val 0 := by
  unfold byteAt
  simp

theorem zero_or_byte (b : BitVec 8) : 0 ||| b = b := BitVec.zero_or

/-- The vector continued with zeros. -/
def pad {size : Nat} (v : Vector (BitVec 8) size) (k : Nat) : BitVec 8 :=
  if h : k < size then v[k] else 0

/-! ## Queueing -/

/-- The input memory after the first `b` words of `v` have been queued at counter `c`. -/
def Queued {size : Nat} (v : Vector (BitVec 8) size) (c b : Nat) (old mem : Vector (BitVec 8) H) : Prop :=
  ∀ p (hp : p < H), mem[p] =
    if c ≤ p ∧ p < c + 4 * b ∧ c + 4 * ((p - c) / 4) + 4 < H then pad v (p - c) else old[p]

variable {size c : Nat} {v : Vector (BitVec 8) size}

theorem coreQueue_queued {t : Tile H W} {b : Nat} {old : Vector (BitVec 8) H}
    (hc : t.inputMemoryCounter = (c + 4 * b : Nat)) (hfit : c + 4 * b + 4 < 2147483648)
    (hq : Queued v c b old t.inputMemory) {tmp : BitVec 32} (htmp : ∀ k, k < 4 → byteAt tmp k = pad v (4 * b + k)) :
    ∃ mem, coreQueue t tmp = some { t with
        inputMemory := mem, inputMemoryCounter := (c + 4 * (b + 1) : Nat) } ∧
      Queued v c (b + 1) old mem := by
  obtain ⟨mem, hmem, hget⟩ := coreQueue_spec t hc hfit tmp
  refine ⟨mem, hmem, fun p hp => ?_⟩
  rw [hget p hp]
  by_cases hin : c + 4 * b ≤ p ∧ p < c + 4 * b + 4
  · have hblock : (p - c) / 4 = b := by omega
    by_cases hH : c + 4 * b + 4 < H
    · rw [if_pos ⟨hH, hin⟩, if_pos (by rw [hblock]; omega), htmp _ (by omega)]
      congr 1
      omega
    · rw [if_neg (fun h => hH h.1), hq p hp, if_neg (by omega), if_neg (by rw [hblock]; omega)]
  · rw [if_neg (fun h => hin h.2), hq p hp]
    by_cases h : c ≤ p ∧ p < c + 4 * b ∧ c + 4 * ((p - c) / 4) + 4 < H
    · rw [if_pos h, if_pos (by omega)]
    · rw [if_neg h, if_neg (by omega)]

/-- State of the packing loop after `i` iterations: `(i - 1) / 4` words are queued and `tmp` holds
the values since. -/
def QueueInv {size : Nat} (v : Vector (BitVec 8) size) (m : AnalogComputationalMemory H W n) {k : Nat}
    (hk : k < n) (c i : Nat) (s : AnalogComputationalMemory H W n × BitVec 32) : Prop :=
  (∃ mem, s.1 = m.set k { m[k] with
      inputMemory := mem, inputMemoryCounter := (c + 4 * ((i - 1) / 4) : Nat) } ∧
    Queued v c ((i - 1) / 4) m[k].inputMemory mem) ∧
  ∀ j, j < 4 → byteAt s.2 j =
    if 4 * ((i - 1) / 4) + j < i then pad v (4 * ((i - 1) / 4) + j) else 0

variable {m : AnalogComputationalMemory H W n}

theorem aimcQueue_inv {hk : k < n} {i : Nat} {s : AnalogComputationalMemory H W n × BitVec 32}
    (h : QueueInv v m hk c i s) (hfit : c + 4 * ((i - 1) / 4) + 4 < 2147483648)
    (hfull : ∀ j, j < 4 → i ≤ 4 * ((i - 1) / 4) + j → pad v (4 * ((i - 1) / 4) + j) = 0) :
    ∃ mem, Wrapper.aimcQueue s.1 (s.2.setWidth 64) k = some (m.set k { m[k] with
        inputMemory := mem, inputMemoryCounter := (c + 4 * ((i - 1) / 4 + 1) : Nat) }, 0) ∧
      Queued v c ((i - 1) / 4 + 1) m[k].inputMemory mem := by
  obtain ⟨⟨mem, hs, hq⟩, htmp⟩ := h
  have hword : ∀ j, j < 4 → byteAt s.2 j = pad v (4 * ((i - 1) / 4) + j) := by
    intro j hj
    rw [htmp j hj]
    split
    · rfl
    · rw [hfull j hj (by omega)]
  obtain ⟨mem', hmem', hq'⟩ := coreQueue_queued (t := { m[k] with
    inputMemory := mem, inputMemoryCounter := (c + 4 * ((i - 1) / 4) : Nat) }) rfl hfit hq hword
  refine ⟨mem', ?_, hq'⟩
  rw [hs, wrapper_aimcQueue_eq _ hk, Vector.getElem_set_self, hmem']
  simp only [Option.map_some, Vector.set_set]

theorem queueIter_inv {hk : k < n} (hfit : c + 4 * ((size + 3) / 4) < 2147483648) (i : Fin size)
    (s : AnalogComputationalMemory H W n × BitVec 32) (h : QueueInv v m hk c i s) :
    ∃ s', queueIter v k s i = some s' ∧ QueueInv v m hk c (i + 1) s' := by
  unfold queueIter
  have hpad : pad v i = v.get i := dif_pos i.isLt
  by_cases hword : i.val % 4 = 0 ∧ 0 < i.val
  · obtain ⟨mem, hmem, hq⟩ := aimcQueue_inv h (by omega) fun j hj hle => by omega
    have hb : (i.val - 1) / 4 + 1 = (i.val + 1 - 1) / 4 := by omega
    rw [if_pos hword, hmem]
    refine ⟨_, rfl, ⟨mem, ?_, ?_⟩, ?_⟩
    · rw [hb]
    · rw [← hb]; exact hq
    · intro j hj
      show byteAt (0#32 ||| _) j = _
      rw [byteAt_or_shift _ _ (by omega) hj, byteAt_zero, hword.1]
      by_cases e : j = 0
      · rw [if_pos e, if_pos (by omega), zero_or_byte, ← hpad]
        congr 1
        omega
      · rw [if_neg e, if_neg (by omega)]
  · have hb : (i.val - 1) / 4 = (i.val + 1 - 1) / 4 := by omega
    obtain ⟨⟨mem, hs, hq⟩, htmp⟩ := h
    rw [if_neg hword]
    refine ⟨_, rfl, ⟨mem, ?_, ?_⟩, ?_⟩
    · rw [← hb]; exact hs
    · rw [← hb]; exact hq
    · intro j hj
      show byteAt (s.2 ||| _) j = _
      rw [byteAt_or_shift _ _ (by omega) hj, htmp j hj, ← hb]
      by_cases e : j = i.val % 4
      · rw [if_pos e, if_neg (by omega), if_pos (by omega), zero_or_byte, ← hpad]
        congr 1
        omega
      · rw [if_neg e]
        by_cases hlt : 4 * ((i.val - 1) / 4) + j < i.val
        · rw [if_pos hlt, if_pos (by omega)]
        · rw [if_neg hlt, if_neg (by omega)]

theorem queueVector_spec (m : AnalogComputationalMemory H W n) (hk : k < n) (hc : m[k].inputMemoryCounter = c)
    (hsize : 0 < size) (hfit : c + 4 * ((size + 3) / 4) < 2147483648) (v : Vector (BitVec 8) size) :
    ∃ mem, queueVector m (some v) k = some (m.set k { m[k] with
        inputMemory := mem, inputMemoryCounter := (c + 4 * ((size + 3) / 4) : Nat) }) ∧
      Queued v c ((size + 3) / 4) m[k].inputMemory mem := by
  have hinit : QueueInv v m hk c 0 (m, 0#32) := by
    refine ⟨⟨m[k].inputMemory, ?_, ?_⟩, ?_⟩
    · show m = m.set k { m[k] with inputMemory := _, inputMemoryCounter := (c : Int) }
      rw [← hc]
      exact (Vector.set_getElem_self hk).symm
    · intro p hp
      rw [if_neg (by omega)]
    · intro j hj
      rw [byteAt_zero, if_neg (by omega)]
  obtain ⟨s, hs, hinv⟩ := Loop.foldlM_inv _ _ hinit (queueIter_inv hfit)
  obtain ⟨mem, hmem, hq⟩ := aimcQueue_inv hinv (by omega) fun j hj hle => dif_neg (by omega)
  have hb : (size - 1) / 4 + 1 = (size + 3) / 4 := by omega
  refine ⟨mem, ?_, hb ▸ hq⟩
  simp only [queueVector]
  rw [if_neg (by omega), hs, bind_some_eq, hmem, bind_some_eq, hb]

/-! ## Dequeueing -/

/-- Value `j` of the sequence of bytes that dequeues from counter `c` on return. -/
def dequeued (out : Vector (BitVec 8) W) (c j : Nat) : BitVec 8 :=
  if h : c + 4 * (j / 4) + 4 < W then out[c + j] else 0

/-- State of the unpacking loop after `i` iterations: `(i + 3) / 4` words are dequeued, the first
`i` values are stored and `tmp` holds the rest of the last word. -/
def DequeueInv {size : Nat} (m : AnalogComputationalMemory H W n) {k : Nat} (hk : k < n) (c i : Nat)
    (s : AnalogComputationalMemory H W n × BitVec 32 × Vector (BitVec 8) size) : Prop :=
  s.1 = m.set k { m[k] with outputMemoryCounter := (c + 4 * ((i + 3) / 4) : Nat) } ∧
  (∀ j, 0 < i % 4 → i % 4 + j < 4 → byteAt s.2.1 j = dequeued m[k].outputMemory c (i + j)) ∧
  ∀ j (hj : j < size), j < i → s.2.2[j] = dequeued m[k].outputMemory c j

/-- The word an iteration reads from: a fresh one at a multiple of four, the pending one
otherwise. -/
theorem dequeueWord_spec {hk : k < n} {i : Nat}
    {s : AnalogComputationalMemory H W n × BitVec 32 × Vector (BitVec 8) size}
    (hfit : c + 4 * ((i + 4) / 4) < 2147483648) (h : DequeueInv m hk c i s) : ∃ w : BitVec 32,
      dequeueWord s.1 s.2.1 k i =
        some (m.set k { m[k] with outputMemoryCounter := (c + 4 * ((i + 4) / 4) : Nat) }, w) ∧
      ∀ j, i % 4 + j < 4 → byteAt w j = dequeued m[k].outputMemory c (i + j) := by
  obtain ⟨hs, hbytes, -⟩ := h
  unfold dequeueWord
  by_cases hword : i % 4 = 0
  · obtain ⟨w, hw, hget⟩ := coreDequeue_spec
      { m[k] with outputMemoryCounter := (c + 4 * ((i + 3) / 4) : Nat) } rfl (by omega)
    have hi : 4 * ((i + 3) / 4) = i := by omega
    refine ⟨w, ?_, ?_⟩
    · rw [if_pos hword, hs, wrapper_aimcDequeue_eq _ hk, Vector.getElem_set_self, hw]
      have hnext : c + 4 * ((i + 3) / 4) + 4 = c + 4 * ((i + 4) / 4) := by omega
      simp only [Option.map_some, Vector.set_set, hnext]
      rw [BitVec.setWidth_setWidth_of_le _ (by omega), BitVec.setWidth_eq]
    · intro j hj
      have hblock : 4 * ((i + j) / 4) = i := by omega
      rw [hget j (by omega)]
      unfold dequeued
      simp only [hi, hblock]
      by_cases hW : c + i + 4 < W
      · rw [dif_pos ⟨hW, by omega⟩, dif_pos hW]
        exact getElem_congr_idx (Nat.add_assoc c i j)
      · rw [dif_neg (fun e => hW e.1), dif_neg hW]
  · refine ⟨s.2.1, ?_, fun j hj => hbytes j (by omega) hj⟩
    rw [if_neg hword, hs, show (i + 3) / 4 = (i + 4) / 4 by omega]

theorem dequeueIter_inv {hk : k < n} (i : Fin size) (hfit : c + 4 * ((i.val + 4) / 4) < 2147483648)
    (s : AnalogComputationalMemory H W n × BitVec 32 × Vector (BitVec 8) size) (h : DequeueInv m hk c i s) :
    ∃ s', dequeueIter k s i = some s' ∧ DequeueInv m hk c (i + 1) s' := by
  obtain ⟨w, hw, hbytes⟩ := dequeueWord_spec hfit h
  obtain ⟨-, -, harr⟩ := h
  unfold dequeueIter
  rw [hw]
  refine ⟨_, rfl, ?_, ?_, ?_⟩
  · show m.set k _ = m.set k _
    rw [show i.val + 4 = i.val + 1 + 3 by omega]
  · intro j hpos hj
    show byteAt (w >>> 8) j = _
    rw [byteAt_ushiftRight, hbytes (j + 1) (by omega), show i.val + (j + 1) = i.val + 1 + j by omega]
  · intro j hj hlt
    show (s.2.2.set i _)[j] = _
    by_cases e : i.val = j
    · subst e
      rw [Vector.getElem_set_self]
      show ((w &&& 0xff#32).setWidth 8) = _
      rw [byteAt_val_zero, hbytes 0 (by omega), Nat.add_zero]
    · rw [Vector.getElem_set_ne _ _ e]
      exact harr j hj (by omega)

theorem dequeueInv_zero (m : AnalogComputationalMemory H W n) (hk : k < n) (hc : m[k].outputMemoryCounter = c)
    (v : Vector (BitVec 8) size) : DequeueInv m hk c 0 (m, 0#32, v) := by
  refine ⟨?_, fun j h => absurd h (by omega), fun j _ h => absurd h (by omega)⟩
  show m = m.set k { m[k] with outputMemoryCounter := (c : Int) }
  rw [← hc]
  exact (Vector.set_getElem_self hk).symm

theorem dequeueVector_spec (m : AnalogComputationalMemory H W n) (hk : k < n)
    (hc : m[k].outputMemoryCounter = c) (hsize : 0 < size) (hfit : c + 4 * ((size + 3) / 4) < 2147483648)
    (v : Vector (BitVec 8) size) : dequeueVector m (some v) k =
      some (m.set k { m[k] with outputMemoryCounter := (c + 4 * ((size + 3) / 4) : Nat) },
        some (Vector.ofFn fun i => dequeued m[k].outputMemory c i)) := by
  obtain ⟨s, hs, hmem, -, harr⟩ := Loop.foldlM_inv _ _ (dequeueInv_zero m hk hc v)
    fun i => dequeueIter_inv i (by omega)
  have hv : s.2.2 = Vector.ofFn fun i => dequeued m[k].outputMemory c i :=
    Vector.ext fun j hj => by rw [harr j hj hj, Vector.getElem_ofFn]
  simp only [dequeueVector]
  rw [if_neg (by omega), hs, bind_some_eq, hmem, hv]

/-- The counter of a call that returns has not overflowed. -/
theorem dequeueVector_fits (hk : k < n) (hc : m[k].outputMemoryCounter = c) (hsize : 0 < size)
    {r : AnalogComputationalMemory H W n × Option (Vector (BitVec 8) size)}
    (hr : dequeueVector m (some v) k = some r) : c + 4 * ((size + 3) / 4) < 2147483648 := by
  simp only [dequeueVector] at hr
  rw [if_neg (by omega)] at hr
  obtain ⟨s, hs, -⟩ := Option.bind_eq_some_iff.1 hr
  have hrun := Loop.foldlM_returns (dequeueIter (k : Int))
    (fun i s => DequeueInv m hk c i s ∧ (0 < i → c + 4 * ((i + 3) / 4) < 2147483648))
    ⟨dequeueInv_zero m hk hc v, fun h => absurd h (by omega)⟩
    (fun i s s' h hstep => by
      obtain ⟨hinv, hlt⟩ := h
      have hfit : c + 4 * ((i.val + 4) / 4) < 2147483648 := by
        by_cases hword : i.val % 4 = 0
        · obtain ⟨q, hq, -⟩ := Option.bind_eq_some_iff.1 hstep
          rw [dequeueWord, if_pos hword, hinv.1, wrapper_aimcDequeue_eq _ hk, Vector.getElem_set_self] at hq
          obtain ⟨q', hq', -⟩ := Option.map_eq_some_iff.1 hq
          obtain ⟨q'', hq'', -⟩ := Option.map_eq_some_iff.1 hq'
          have hcount := coreDequeue_returns rfl hq''
          omega
        · have hlt := hlt (by omega)
          omega
      obtain ⟨s'', hs'', hinv'⟩ := dequeueIter_inv i hfit s hinv
      rw [hstep] at hs''
      cases hs''
      exact ⟨hinv', fun _ => hfit⟩) hs
  exact hrun.2 hsize

/-! ## Mapping -/

/-- What the matrix puts at row `y`, column `x` of the crossbar: nothing outside the block and in
the rows of null pointers. -/
def blockAt {height width : Nat} (rows : Vector (Option (Vector (BitVec 8) width)) height)
    (x0 y0 : Nat) (y : Fin H) (x : Fin W) : Option (BitVec 8) :=
  if h : (x0 ≤ x ∧ x - x0 < width) ∧ y0 ≤ y ∧ y - y0 < height then
    (rows.get ⟨y - y0, h.2.2⟩).map fun row => row.get ⟨x - x0, h.1.2⟩
  else none

theorem blockAt_none {height width : Nat} (rows : Vector (Option (Vector (BitVec 8) width)) height)
    {x0 y0 : Nat} {y : Fin H} {x : Fin W} (h : ¬ ((x0 ≤ x ∧ x - x0 < width) ∧ y0 ≤ y ∧ y - y0 < height)) :
    blockAt rows x0 y0 y x = none := dif_neg h

theorem blockAt_block {height width : Nat} (rows : Vector (Option (Vector (BitVec 8) width)) height)
    {x0 y0 : Nat} {y : Fin H} {x : Fin W} (j : Fin height) (i : Fin width) (hy : y.val = y0 + j)
    (hx : x.val = x0 + i) : blockAt rows x0 y0 y x = (rows.get j).map fun row => row.get i := by
  have hj : (⟨y - y0, by omega⟩ : Fin height) = j := Fin.ext (by simp only; omega)
  have hi : (⟨x - x0, by omega⟩ : Fin width) = i := Fin.ext (by simp only; omega)
  unfold blockAt
  rw [dif_pos (by omega), hj, hi]

/-- State of the mapping loops after `i` columns and `j` rows of the next column. -/
def MapInv {height width : Nat} (rows : Vector (Option (Vector (BitVec 8) width)) height)
    (x0 y0 : Nat) (m : AnalogComputationalMemory H W n) (hn : 0 < n) (i j : Nat)
    (s : AnalogComputationalMemory H W n) : Prop :=
  ∃ xbar, s = m.set 0 { m[0] with crossbar := xbar } ∧ ∀ (y : Fin H) (x : Fin W),
    xbar.get (cellIdx y x) =
      if x < x0 + i ∨ x.val = x0 + i ∧ y < y0 + j then
        (blockAt rows x0 y0 y x).getD (m[0].crossbar.get (cellIdx y x))
      else m[0].crossbar.get (cellIdx y x)

section Mapping

variable {height width : Nat} {rows : Vector (Option (Vector (BitVec 8) width)) height} {x0 y0 : Nat}
  {m : AnalogComputationalMemory H W n} {hn : 0 < n}

theorem mapIter_inv (hx : x0 + width ≤ W) (hy : y0 + height ≤ H) (hW : W < 2147483648)
    (hH : H < 2147483648) (i : Fin width) (j : Fin height) (s : AnalogComputationalMemory H W n)
    (h : MapInv rows x0 y0 m hn i j s) :
    ∃ s', mapIter rows x0 y0 i s j = some s' ∧ MapInv rows x0 y0 m hn i (j + 1) s' := by
  obtain ⟨xbar, hs, hget⟩ := h
  have hxW : x0 + i.val < W := by omega
  have hyH : y0 + j.val < H := by omega
  unfold mapIter
  -- only the cell of this iteration can differ from the invariant at `j`
  have hother : ∀ (y : Fin H) (x : Fin W), ¬ (x.val = x0 + i ∧ y.val = y0 + j) →
      xbar.get (cellIdx y x) =
        if x < x0 + i ∨ x.val = x0 + i ∧ y < y0 + (j + 1) then
          (blockAt rows x0 y0 y x).getD (m[0].crossbar.get (cellIdx y x))
        else m[0].crossbar.get (cellIdx y x) := by
    intro y x e
    rw [hget y x]
    by_cases h : x < x0 + i ∨ x.val = x0 + i ∧ y < y0 + j
    · rw [if_pos h, if_pos (by omega)]
    · rw [if_neg h, if_neg (by omega)]
  cases hrow : rows.get j with
  | none =>
    refine ⟨s, rfl, xbar, hs, fun y x => ?_⟩
    by_cases e : x.val = x0 + i ∧ y.val = y0 + j
    · rw [hget y x, if_neg (by omega), if_pos (by omega), blockAt_block rows j i e.2 e.1, hrow]
      rfl
    · exact hother y x e
  | some row =>
    have hxi : int? (i + (x0 : Int)) = some ((x0 + i : Nat) : Int) := by
      rw [Int.add_comm, ← Int.natCast_add]; exact int?_natCast (by omega)
    have hyj : int? (j + (y0 : Int)) = some ((y0 + j : Nat) : Int) := by
      rw [Int.add_comm, ← Int.natCast_add]; exact int?_natCast (by omega)
    have hwrite := wrapper_aimcParamWrite_eq s hn (isInt_natCast (k := x0 + i) (by omega))
      (isInt_natCast (k := y0 + j) (by omega)) (row.get i)
    rw [coreParamWrite_cell s[0] hxW hyH] at hwrite
    simp only [hxi, hyj, bind_some_eq]
    refine ⟨_, congrArg (Option.map (·.1)) hwrite,
      xbar.set (cellIdx ⟨y0 + j, hyH⟩ ⟨x0 + i, hxW⟩) (row.get i), ?_, fun y x => ?_⟩
    · subst hs
      simp only [Vector.getElem_set_self, Vector.set_set]
    · by_cases e : x.val = x0 + i ∧ y.val = y0 + j
      · have hc : cellIdx y x = cellIdx ⟨y0 + j, hyH⟩ ⟨x0 + i, hxW⟩ := by
          rw [show y = ⟨y0 + j, hyH⟩ from Fin.ext e.2, show x = ⟨x0 + i, hxW⟩ from Fin.ext e.1]
        rw [if_pos (by omega), blockAt_block rows j i e.2 e.1, hrow, hc]
        exact Vector.getElem_set_self _
      · rw [← hother y x e]
        refine Vector.getElem_set_ne _ _ fun hc => e ?_
        obtain ⟨hy', hx'⟩ := cellIdx_inj hc
        exact ⟨(Fin.val_eq_of_eq hx').symm, (Fin.val_eq_of_eq hy').symm⟩

theorem mapColumn_inv (hx : x0 + width ≤ W) (hy : y0 + height ≤ H) (hW : W < 2147483648)
    (hH : H < 2147483648) (i : Fin width) (s : AnalogComputationalMemory H W n) (h : MapInv rows x0 y0 m hn i 0 s) :
    ∃ s', Fin.foldlM height (mapIter rows x0 y0 i) s = some s' ∧ MapInv rows x0 y0 m hn (i + 1) 0 s' := by
  obtain ⟨s', hs', xbar, hs, hget⟩ := Loop.foldlM_inv _ (MapInv rows x0 y0 m hn i) h
    (mapIter_inv hx hy hW hH i)
  refine ⟨s', hs', xbar, hs, fun y x => ?_⟩
  rw [hget y x]
  by_cases hin : (x0 ≤ x ∧ x - x0 < width) ∧ y0 ≤ y ∧ y - y0 < height
  · by_cases h : x < x0 + i ∨ x.val = x0 + i ∧ y < y0 + height
    · rw [if_pos h, if_pos (by omega)]
    · rw [if_neg h, if_neg (by omega)]
  · rw [blockAt_none rows hin, Option.getD_none, ite_self, ite_self]

theorem mapMatrix_spec (x0 y0 : Nat) (hx : x0 + width ≤ W) (hy : y0 + height ≤ H) (hn : 0 < n)
    (rows : Vector (Option (Vector (BitVec 8) width)) height) (m : AnalogComputationalMemory H W n)
    (hh : 0 < height) (hw : 0 < width) :
    ∃ xbar, mapMatrix m x0 y0 (some rows) = some (m.set 0 { m[0] with crossbar := xbar }) ∧
      ∀ (y : Fin H) (x : Fin W), xbar.get (cellIdx y x) =
        (blockAt rows x0 y0 y x).getD (m[0].crossbar.get (cellIdx y x)) := by
  have hfits := m[0].fits
  have hW : W ≤ W * H := Nat.le_mul_of_pos_right W (by omega)
  have hH : H ≤ W * H := Nat.le_mul_of_pos_left H (by omega)
  have hinit : MapInv rows x0 y0 m hn 0 0 m := by
    refine ⟨m[0].crossbar, (Vector.set_getElem_self hn).symm, fun y x => ?_⟩
    by_cases h : x < x0 + 0 ∨ x.val = x0 + 0 ∧ y < y0 + 0
    · rw [if_pos h, blockAt_none rows (by omega), Option.getD_none]
    · rw [if_neg h]
  obtain ⟨s, hs, xbar, hset, hget⟩ := Loop.foldlM_inv _ (fun i => MapInv rows x0 y0 m hn i 0) hinit
    (mapColumn_inv hx hy (by omega) (by omega))
  refine ⟨xbar, ?_, fun y x => ?_⟩
  · simp only [mapMatrix]
    rw [if_neg (by omega), hs, hset]
  · rw [hget y x]
    by_cases h : x < x0 + width ∨ x.val = x0 + width ∧ y < y0 + 0
    · rw [if_pos h]
    · rw [if_neg h, blockAt_none rows (by omega), Option.getD_none]

end Mapping

end Alpine.Aimc
