import Alpine.Aimc.Check
import Alpine.Lib.Run

/-!
# The Python checker (`aimclib_python3/aimclib/aimc_check.py`)

The cores of the Python port keep their values in NumPy arrays of type `int8`: storing a Python integer keeps
its low eight bits, the product of two elements is an `int8`, and a sum with a Python `float` is exact for the
values at hand.  Everything else is a Python integer without bounds.

* `PyCore` and its operations as in the source; `PyMemory` — the cores of an `AnalogComputationalMemory`.
* `Same` — equal crossbar, memories and counters; one lemma for each operation that it is kept and the results
  are equal, for `aimc_process` as long as the products fit an `int8`.
* `py_agrees` — equal states and results after any run whose products fit.
-/

namespace Alpine.Aimc.Py

variable {H W n : Nat}

/-- `AnalogComputationalMemoryCore`. -/
structure PyCore (H W : Nat) where
  crossbar : Vector (Vector (BitVec 8) W) H
  inputMemory : Vector (BitVec 8) H
  outputMemory : Vector (BitVec 8) W
  inputMemoryCounter : Nat
  outputMemoryCounter : Nat

/-- `__init__`. -/
def PyCore.fresh : PyCore H W where
  crossbar := Vector.replicate _ (Vector.replicate _ 0)
  inputMemory := Vector.replicate _ 0
  outputMemory := Vector.replicate _ 0
  inputMemoryCounter := 0
  outputMemoryCounter := 0

/-- A Python integer stored in an array of type `int8`. -/
def asInt8 (v : Int) : BitVec 8 := BitVec.ofInt 8 v

/-- `0xff & x` for an element of such an array. -/
def maskInt8 (x : BitVec 8) : Nat := (x.toInt % 256).toNat

/-- `acc` after the inner loop for column `i`: the product is taken in `int8`. -/
def columnAcc (p : PyCore H W) (i : Fin W) : Int :=
  Fin.foldl H (fun acc j => acc + (p.inputMemory.get j * (p.crossbar.get j).get i).toInt) 0

def coreProcess (p : PyCore H W) : PyCore H W :=
  { p with
    outputMemory := Fin.foldl W (fun out i =>
      let acc := columnAcc p i
      out.set i (if acc > 127 then asInt8 127 else if acc < -128 then asInt8 (-128) else asInt8 acc)
        i.isLt) p.outputMemory
    inputMemory := Vector.replicate H 0
    inputMemoryCounter := 0
    outputMemoryCounter := 0 }

def coreQueue (p : PyCore H W) (val : Nat) : PyCore H W :=
  let idx := p.inputMemoryCounter
  { p with
    inputMemory :=
      if h : idx + vectorization < H then
        Fin.foldl vectorization (fun mem i =>
          mem.set (idx + i) (asInt8 ((val >>> (8 * i.val)) &&& 0xff : Nat))
            (Nat.lt_trans (Nat.add_lt_add_left i.isLt idx) h)) p.inputMemory
      else p.inputMemory
    inputMemoryCounter := idx + vectorization }

def coreDequeue (p : PyCore H W) : PyCore H W × Nat :=
  let idx := p.outputMemoryCounter
  let result :=
    if h : idx + vectorization < W then
      (List.finRange vectorization).reverse.foldl (fun (result : Nat) (i : Fin vectorization) =>
        (result <<< 8) ||| maskInt8 (p.outputMemory.get
          ⟨idx + i, Nat.lt_trans (Nat.add_lt_add_left i.isLt idx) h⟩)) 0
    else 0
  ({ p with outputMemoryCounter := idx + vectorization }, result)

def coreParamRead (p : PyCore H W) (x y : Int) : Int :=
  if h : (0 ≤ x ∧ x < W) ∧ 0 ≤ y ∧ y < H then
    ((p.crossbar.get ⟨y.toNat, by omega⟩).get ⟨x.toNat, by omega⟩).toInt
  else 0

def coreParamWrite (p : PyCore H W) (x y val : Int) : PyCore H W :=
  if h : (0 ≤ x ∧ x < W) ∧ 0 ≤ y ∧ y < H then
    { p with
      crossbar := p.crossbar.set y.toNat
        ((p.crossbar.get ⟨y.toNat, by omega⟩).set x.toNat (asInt8 val) (by omega)) (by omega) }
  else p

/-! ## The cores of an `AnalogComputationalMemory` -/

abbrev PyMemory (H W n : Nat) := Vector (PyCore H W) n

def PyMemory.new (H W n : Nat) : PyMemory H W n := Vector.replicate n PyCore.fresh

theorem tid_lt {tid : Int} (h : 0 ≤ tid ∧ tid < n) : tid.toNat < n := by omega

/-- A member function: nothing happens, and `dflt` is returned, for an invalid `tid`. -/
def onCore {α : Type} (m : PyMemory H W n) (tid : Int) (dflt : α) (f : PyCore H W → PyCore H W × α) :
    PyMemory H W n × α :=
  if h : 0 ≤ tid ∧ tid < n then
    let r := f (m.get ⟨tid.toNat, tid_lt h⟩)
    (m.set tid.toNat r.1 (tid_lt h), r.2)
  else (m, dflt)

def aimcProcess (m : PyMemory H W n) (tid : Int) : PyMemory H W n × Unit :=
  onCore m tid () fun p => (coreProcess p, ())

def aimcQueue (m : PyMemory H W n) (tid : Int) (val : Nat) : PyMemory H W n × Unit :=
  onCore m tid () fun p => (coreQueue p val, ())

def aimcDequeue (m : PyMemory H W n) (tid : Int) : PyMemory H W n × Nat :=
  onCore m tid 0 coreDequeue

def aimcParamRead (m : PyMemory H W n) (tid x y : Int) : PyMemory H W n × Int :=
  onCore m tid 0 fun p => (p, coreParamRead p x y)

def aimcParamWrite (m : PyMemory H W n) (tid x y val : Int) : PyMemory H W n × Unit :=
  onCore m tid () fun p => (coreParamWrite p x y val, ())

/-- Dispatch on the operation; the result is a Python integer or `None`. -/
def step (m : PyMemory H W n) (tid : Int) : TileOp → PyMemory H W n × Option Int
  | .aimcProcess => ((aimcProcess m tid).1, none)
  | .aimcQueue val => ((aimcQueue m tid val.toNat).1, none)
  | .aimcDequeue => ((aimcDequeue m tid).1, some (aimcDequeue m tid).2)
  | .aimcParamRead x y => ((aimcParamRead m tid x y).1, some (aimcParamRead m tid x y).2)
  | .aimcParamWrite x y val => ((aimcParamWrite m tid x y val.toInt).1, none)

/-- The value of a C++ result. -/
def retInt : TileRet → Option Int
  | .void => none
  | .word v => some v.toNat
  | .param v => some v.toInt

/-! ## Equal cores -/

/-- Equal crossbar, memories and counters. -/
structure Same (p : PyCore H W) (t : Tile H W) : Prop where
  crossbar : ∀ (j : Fin H) (i : Fin W), (p.crossbar.get j).get i = t.crossbar.get (cellIdx j i)
  inputMemory : p.inputMemory = t.inputMemory
  outputMemory : p.outputMemory = t.outputMemory
  inputMemoryCounter : (p.inputMemoryCounter : Int) = t.inputMemoryCounter
  outputMemoryCounter : (p.outputMemoryCounter : Int) = t.outputMemoryCounter

/-- Every product that `aimc_process` takes is an `int8`. -/
def ProductsFit (t : Tile H W) : Prop :=
  ∀ (j : Fin H) (i : Fin W),
    -128 ≤ (t.inputMemory.get j).toInt * (t.crossbar.get (cellIdx j i)).toInt ∧
      (t.inputMemory.get j).toInt * (t.crossbar.get (cellIdx j i)).toInt ≤ 127

instance (t : Tile H W) : Decidable (ProductsFit t) :=
  inferInstanceAs (Decidable (∀ (_ : Fin H) (_ : Fin W), _ ∧ _))

theorem toInt_mul_of_fits {x y : BitVec 8} (h : -128 ≤ x.toInt * y.toInt ∧ x.toInt * y.toInt ≤ 127) :
    (x * y).toInt = x.toInt * y.toInt := by
  rw [BitVec.toInt_mul, Int.bmod_def]
  omega

variable {p : PyCore H W} {t : Tile H W}

theorem columnAcc_eq (h : Same p t) (hfit : ProductsFit t) (i : Fin W) : columnAcc p i = t.columnAcc i := by
  unfold columnAcc Tile.columnAcc
  congr 1
  funext acc j
  rw [h.inputMemory, h.crossbar j i, toInt_mul_of_fits (hfit j i)]

theorem clamp_eq (acc : Int) : (if acc > 127 then asInt8 127 else if acc < -128 then asInt8 (-128) else
    asInt8 acc) = BitVec.ofInt 8 (Check.clamp acc (-128) 127) := by
  unfold Check.clamp asInt8
  by_cases h : acc > 127
  · have h' : ¬ acc < -128 := by omega
    simp [h, h']
  · by_cases h' : acc < -128
    · simp [h, h']
    · simp [h, h']

theorem same_process (h : Same p t) (hfit : ProductsFit t) : Same (coreProcess p) (Check.coreProcess t) := by
  rw [Check.coreProcess_eq]
  refine ⟨h.crossbar, ?_, ?_, rfl, rfl⟩
  · ext k hk
    simp [coreProcess]
  · unfold coreProcess
    simp only [columnAcc_eq h hfit, clamp_eq]
    exact Loop.foldl_set _ _

theorem asInt8_byte (val : BitVec 32) (i : Nat) : asInt8 ((val.toNat >>> (8 * i)) &&& 0xff : Nat) = byteAt val i := by
  have hmask : (val.toNat >>> (8 * i)) &&& 0xff = (val.toNat >>> (8 * i)) % 2 ^ 8 :=
    Nat.and_two_pow_sub_one_eq_mod _ 8
  rw [byteAt_eq, hmask, asInt8, BitVec.ofInt_natCast]
  apply BitVec.eq_of_toNat_eq
  simp

/-- A loop that stores `f 0, f 1, ..` at the positions from `c` on. -/
theorem foldl_store {α : Type} (a : Vector α n) (c : Nat) (f : Nat → α) {len : Nat} (hlen : c + len ≤ n)
    (k : Nat) (hk : k < n) :
    (Fin.foldl len (fun (v : Vector α n) (i : Fin len) => v.set (c + i) (f i) (by omega)) a)[k] =
      if c ≤ k ∧ k < c + len then f (k - c) else a[k] := by
  have := Loop.foldl_inv (fun (v : Vector α n) (i : Fin len) => v.set (c + i) (f i) (by omega))
    (fun l v => ∀ k (hk : k < n), v[k] = if c ≤ k ∧ k < c + l then f (k - c) else a[k]) (s := a)
    (fun k hk => by rw [if_neg (by omega)]) (fun i v hv k hk => by
      by_cases e : c + i.val = k
      · subst e
        rw [Vector.getElem_set_self, if_pos (by omega), Nat.add_sub_cancel_left]
      · rw [Vector.getElem_set_ne _ _ e, hv k hk]
        by_cases h : c ≤ k ∧ k < c + i
        · rw [if_pos h, if_pos (by omega)]
        · rw [if_neg h, if_neg (by omega)])
  exact this k hk

theorem same_queue {t' : Tile H W} (h : Same p t) {val : BitVec 32} (hq : Check.coreQueue t val = some t') :
    Same (coreQueue p val.toNat) t' := by
  have hb := Check.coreQueue_returns h.inputMemoryCounter.symm hq
  obtain ⟨mem, hmem, hget⟩ := Check.coreQueue_spec t h.inputMemoryCounter.symm hb val
  rw [hmem] at hq
  cases hq
  refine ⟨h.crossbar, ?_, h.outputMemory, rfl, h.outputMemoryCounter⟩
  refine Vector.ext fun k hk => ?_
  rw [hget k hk]
  unfold coreQueue
  simp only [asInt8_byte]
  by_cases hlt : p.inputMemoryCounter + vectorization < H
  · simp only [dif_pos hlt]
    rw [foldl_store p.inputMemory p.inputMemoryCounter (byteAt val) (Nat.le_of_lt hlt) k hk]
    simp only [vectorization] at hlt ⊢
    simp [hlt, h.inputMemory]
  · simp only [dif_neg hlt]
    simp only [vectorization] at hlt
    simp [hlt, h.inputMemory]

theorem maskInt8_eq (x : BitVec 8) : maskInt8 x = x.toNat := by
  have hx := x.isLt
  unfold maskInt8
  rw [BitVec.toInt_eq_toNat_bmod, Int.bmod_def]
  omega

theorem shift_or (a : Nat) (b : BitVec 8) : (a <<< 8) ||| b.toNat = a * 256 + b.toNat := by
  rw [← Nat.shiftLeft_add_eq_or_of_lt b.isLt a, Nat.shiftLeft_eq]

theorem same_dequeue {t' : Tile H W} (h : Same p t) {r : BitVec 32} (hd : Check.coreDequeue t = some (t', r)) :
    Same (coreDequeue p).1 t' ∧ (coreDequeue p).2 = r.toNat := by
  have hb := Check.coreDequeue_returns h.outputMemoryCounter.symm hd
  obtain ⟨r', hr', hbytes⟩ := Check.coreDequeue_spec t h.outputMemoryCounter.symm hb
  rw [hr'] at hd
  cases hd
  refine ⟨⟨h.crossbar, h.inputMemory, h.outputMemory, h.inputMemoryCounter, rfl⟩, ?_⟩
  rw [toNat_eq_bytes, hbytes 0 (by decide), hbytes 1 (by decide), hbytes 2 (by decide), hbytes 3 (by decide)]
  unfold coreDequeue
  dsimp only
  split
  · rename_i hlt
    have hrange : (List.finRange vectorization).reverse =
        [⟨3, by decide⟩, ⟨2, by decide⟩, ⟨1, by decide⟩, ⟨0, by decide⟩] := by decide
    have hlt' : p.outputMemoryCounter + 4 < W := hlt
    rw [hrange, h.outputMemory]
    simp only [List.foldl_cons, List.foldl_nil, maskInt8_eq, shift_or]
    simp [hlt', Vector.get]
  · rename_i hlt
    have hlt' : ¬ p.outputMemoryCounter + 4 < W := hlt
    simp [hlt']

theorem same_paramRead (h : Same p t) {x y : Int} {v : BitVec 8} (hx : (0 ≤ x ∧ x < W) ∧ 0 ≤ y ∧ y < H)
    (hr : Check.coreParamRead t x y = some v) : coreParamRead p x y = v.toInt := by
  obtain ⟨a, rfl⟩ := Int.eq_ofNat_of_zero_le hx.1.1
  obtain ⟨b, rfl⟩ := Int.eq_ofNat_of_zero_le hx.2.1
  rw [Check.coreParamRead_cell t (by omega) (by omega)] at hr
  cases hr
  unfold coreParamRead
  rw [dif_pos hx, ← h.crossbar]
  rfl

theorem same_paramWrite {t' : Tile H W} (h : Same p t) {x y : Int} {val : BitVec 8}
    (hx : (0 ≤ x ∧ x < W) ∧ 0 ≤ y ∧ y < H) (hw : Check.coreParamWrite t x y val = some t') :
    Same (coreParamWrite p x y val.toInt) t' := by
  obtain ⟨a, rfl⟩ := Int.eq_ofNat_of_zero_le hx.1.1
  obtain ⟨b, rfl⟩ := Int.eq_ofNat_of_zero_le hx.2.1
  have ha : a < W := by omega
  have hb : b < H := by omega
  rw [Check.coreParamWrite_cell t ha hb] at hw
  cases hw
  unfold coreParamWrite
  rw [dif_pos hx]
  refine ⟨fun j i => ?_, h.inputMemory, h.outputMemory, h.inputMemoryCounter, h.outputMemoryCounter⟩
  have hji := h.crossbar j i
  simp only [Vector.get_eq_getElem, Int.toNat_natCast, asInt8, BitVec.ofInt_toInt] at hji ⊢
  by_cases hj : b = j.val
  · subst hj
    rw [Vector.getElem_set_self]
    by_cases hi : a = i.val
    · subst hi
      rw [Vector.getElem_set_self, Vector.getElem_set_self]
    · rw [Vector.getElem_set_ne _ _ hi, hji, Vector.getElem_set_ne]
      intro e
      exact hi (congrArg Fin.val (cellIdx_inj e).2)
  · rw [Vector.getElem_set_ne _ _ hj, hji, Vector.getElem_set_ne]
    intro e
    exact hj (congrArg Fin.val (cellIdx_inj e).1)

/-! ## Equal runs -/

/-- Equal cores. -/
def SameAll (p : PyMemory H W n) (m : Check.AnalogComputationalMemory H W n) : Prop :=
  ∀ k : Fin n, Same (p.get k) (m.get k)

variable {m : Check.AnalogComputationalMemory H W n}

theorem sameAll_new (h : Check.AnalogComputationalMemory.new H W n = some m) : SameAll (PyMemory.new H W n) m := by
  unfold Check.AnalogComputationalMemory.new at h
  split at h
  · cases h
    intro k
    refine ⟨fun j i => ?_, ?_, ?_, ?_, ?_⟩ <;>
      simp [PyMemory.new, Vector.get_eq_getElem, PyCore.fresh, Tile.fresh]
  · cases h

theorem sameAll_set {p : PyMemory H W n} (h : SameAll p m) {k : Nat} (hk : k < n) {q : PyCore H W}
    (hq : Same q t) : SameAll (p.set k q hk) (m.set k t hk) := by
  intro k'
  have hk' := h k'
  simp only [Vector.get_eq_getElem] at hk' ⊢
  by_cases e : k = k'.val
  · subst e
    rw [Vector.getElem_set_self, Vector.getElem_set_self]
    exact hq
  · rw [Vector.getElem_set_ne _ _ e, Vector.getElem_set_ne _ _ e]
    exact hk'

variable {m' : Check.AnalogComputationalMemory H W n}

theorem same_onCore {α β : Type} {p : PyMemory H W n} {tid : Int} {f : Tile H W → Option (Tile H W × α)}
    {g : PyCore H W → PyCore H W × β} {r dflt : α} {dflt' : β} {R : β → α → Prop} (h : SameAll p m)
    (hd : R dflt' dflt)
    (hfg : ∀ q t t' r, load m tid = some t → Same q t → f t = some (t', r) → Same (g q).1 t' ∧ R (g q).2 r)
    (hr : Check.onCore m tid dflt f = some (m', r)) :
    SameAll (onCore p tid dflt' g).1 m' ∧ R (onCore p tid dflt' g).2 r := by
  unfold Check.onCore at hr
  unfold onCore
  split at hr
  · rename_i hout
    cases hr
    rw [dif_neg (by omega)]
    exact ⟨h, hd⟩
  · rename_i hin
    have hin' : 0 ≤ tid ∧ tid < n := by omega
    rw [dif_pos hin']
    have hload : load m tid = some (m.get ⟨tid.toNat, by omega⟩) := dif_pos hin'
    rw [hload, bind_some_eq] at hr
    cases hf : f (m.get ⟨tid.toNat, by omega⟩) with
    | none =>
      rw [hf] at hr
      cases hr
    | some q =>
      obtain ⟨t1, r1⟩ := q
      have hstore : store m tid t1 = some (m.set tid.toNat t1 (by omega)) := dif_pos hin'
      rw [hf, bind_some_eq] at hr
      dsimp only at hr
      rw [hstore, bind_some_eq] at hr
      cases hr
      obtain ⟨hs, hR⟩ := hfg _ _ _ _ hload (h ⟨tid.toNat, by omega⟩) hf
      exact ⟨sameAll_set h _ hs, hR⟩

theorem same_aimcQueue {p : PyMemory H W n} {tid : Int} {val : BitVec 32} {u : Unit} (h : SameAll p m)
    (hr : Check.aimcQueue m tid val = some (m', u)) : SameAll (aimcQueue p tid val.toNat).1 m' := by
  refine (same_onCore (R := fun _ _ => True) h trivial ?_ hr).1
  intro q t t' r hload hq hf
  obtain ⟨t1, hf', he⟩ := Option.map_eq_some_iff.1 hf
  cases he
  exact ⟨same_queue hq hf', trivial⟩

theorem same_aimcDequeue {p : PyMemory H W n} {tid : Int} {w : BitVec 32} (h : SameAll p m)
    (hr : Check.aimcDequeue m tid = some (m', w)) :
    SameAll (aimcDequeue p tid).1 m' ∧ (aimcDequeue p tid).2 = w.toNat := by
  obtain ⟨hs, hw⟩ := same_onCore (g := coreDequeue) (R := fun (v : Nat) (w : BitVec 32) => v = w.toNat) h rfl
    (fun q t t' r _ hq hf => same_dequeue hq hf) hr
  exact ⟨hs, hw⟩

/-- The products of a process operation fit. -/
def OpFits (m : Check.AnalogComputationalMemory H W n) (tid : Int) : TileOp → Prop
  | .aimcProcess => ∀ t ∈ load m tid, ProductsFit t
  | _ => True

instance (m : Check.AnalogComputationalMemory H W n) (tid : Int) : (op : TileOp) → Decidable (OpFits m tid op)
  | .aimcProcess => inferInstanceAs (Decidable (∀ t ∈ load m tid, ProductsFit t))
  | .aimcQueue _ | .aimcDequeue | .aimcParamRead _ _ | .aimcParamWrite _ _ _ =>
    inferInstanceAs (Decidable True)

theorem same_step {p : PyMemory H W n} {tid : Int} {op : TileOp} {r : TileRet} (h : SameAll p m)
    (hop : op.InRange H W) (hfit : OpFits m tid op) (hr : Check.step m tid op = some (m', r)) :
    SameAll (step p tid op).1 m' ∧ (step p tid op).2 = retInt r := by
  cases op with
  | aimcProcess =>
    obtain ⟨⟨m1, u⟩, hr', he⟩ := Option.map_eq_some_iff.1 hr
    cases he
    refine ⟨(same_onCore (R := fun _ _ => True) h trivial ?_ hr').1, rfl⟩
    intro q t t' r hload hq hf
    cases hf
    exact ⟨same_process hq (hfit t hload), trivial⟩
  | aimcQueue val =>
    obtain ⟨⟨m1, u⟩, hr', he⟩ := Option.map_eq_some_iff.1 hr
    cases he
    exact ⟨same_aimcQueue h hr', rfl⟩
  | aimcDequeue =>
    obtain ⟨⟨m1, w⟩, hr', he⟩ := Option.map_eq_some_iff.1 hr
    cases he
    obtain ⟨hs, hw⟩ := same_aimcDequeue h hr'
    exact ⟨hs, congrArg (fun v : Nat => some (v : Int)) hw⟩
  | aimcParamRead x y =>
    obtain ⟨⟨m1, v⟩, hr', he⟩ := Option.map_eq_some_iff.1 hr
    cases he
    obtain ⟨hs, hv⟩ := same_onCore (g := fun p => (p, coreParamRead p x y))
      (R := fun z v => z = v.toInt) h rfl (fun q t t' r _ hq hf => by
        obtain ⟨v', hf', he⟩ := Option.map_eq_some_iff.1 hf
        cases he
        exact ⟨hq, same_paramRead hq hop hf'⟩) hr'
    exact ⟨hs, congrArg some hv⟩
  | aimcParamWrite x y val =>
    obtain ⟨⟨m1, u⟩, hr', he⟩ := Option.map_eq_some_iff.1 hr
    cases he
    refine ⟨(same_onCore (R := fun _ _ => True) h trivial ?_ hr').1, rfl⟩
    intro q t t' r hload hq hf
    obtain ⟨t1, hf', he⟩ := Option.map_eq_some_iff.1 hf
    cases he
    exact ⟨same_paramWrite hq hop hf', trivial⟩

/-- One operation on core `tid` of the C++ checker, as a step. -/
def cppStep (m : Check.AnalogComputationalMemory H W n) (i : Int × TileOp) :
    Option (Check.AnalogComputationalMemory H W n × TileRet) :=
  Check.step m i.1 i.2

/-- The same operation on the Python checker; it never fails. -/
def pyStep (m : PyMemory H W n) (i : Int × TileOp) : Option (PyMemory H W n × Option Int) :=
  some (step m i.1 i.2)

/-- Along a run of the C++ checker, the coordinates are in range and the products fit. -/
def RunFits : Check.AnalogComputationalMemory H W n → List (Int × TileOp) → Prop
  | _, [] => True
  | m, i :: is => i.2.InRange H W ∧ OpFits m i.1 i.2 ∧ ∀ q ∈ cppStep m i, RunFits q.1 is

instance decidableRunFits : ∀ (m : Check.AnalogComputationalMemory H W n) (is : List (Int × TileOp)),
    Decidable (RunFits m is)
  | _, [] => inferInstanceAs (Decidable True)
  | m, i :: is =>
    have : DecidablePred fun q : _ × TileRet => RunFits q.1 is := fun q => decidableRunFits q.1 is
    inferInstanceAs (Decidable (_ ∧ _ ∧ ∀ q ∈ cppStep m i, RunFits q.1 is))

theorem same_run : ∀ {is : List (Int × TileOp)} {p : PyMemory H W n}
    {m m' : Check.AnalogComputationalMemory H W n} {rs : List TileRet}, SameAll p m → RunFits m is →
    Run.run cppStep m is = some (m', rs) → ∃ p', Run.run pyStep p is = some (p', rs.map retInt) ∧ SameAll p' m'
  | [], p, m, m', rs, h, _, hrun => by
    cases hrun
    exact ⟨p, rfl, h⟩
  | i :: is, p, m, m', rs, h, hfit, hrun => by
    obtain ⟨hin, hop, hrest⟩ := hfit
    obtain ⟨m1, r, rs', hstep, hrun', rfl⟩ := Run.run_cons.1 hrun
    obtain ⟨hs, hr⟩ := same_step h hin hop hstep
    obtain ⟨p', hp', hsame⟩ := same_run hs (hrest _ hstep) hrun'
    refine ⟨p', Run.run_cons.2 ⟨(step p i.1 i.2).1, retInt r, rs'.map retInt, ?_, hp', List.map_cons⟩, hsame⟩
    unfold pyStep
    rw [← hr]

/-- **The Python checker behaves as the C++ checker as long as the products fit.** -/
theorem py_agrees {is : List (Int × TileOp)} {m m' : Check.AnalogComputationalMemory H W n}
    {rs : List TileRet} (hnew : Check.AnalogComputationalMemory.new H W n = some m) (hfit : RunFits m is)
    (hrun : Run.run cppStep m is = some (m', rs)) :
    ∃ p', Run.run pyStep (PyMemory.new H W n) is = some (p', rs.map retInt) ∧ SameAll p' m' :=
  same_run (sameAll_new hnew) hfit hrun

/-- Weight 2 in the corner of a crossbar, one input, the product and its first word. -/
def cornerRun (x : BitVec 32) : List (Int × TileOp) :=
  [(0, .aimcParamWrite 0 0 2), (0, .aimcQueue x), (0, .aimcProcess), (0, .aimcDequeue)]

theorem py_agrees_corner : ∃ p' m', Run.run pyStep (PyMemory.new 5 5 1) (cornerRun 50) =
    some (p', [none, none, none, some 100]) ∧ SameAll p' m' := by
  have hrun : (Run.run cppStep (Vector.replicate 1 (Tile.fresh (H := 5) (W := 5) (by decide)))
      (cornerRun 50)).map (·.2) = some [.void, .void, .void, .word 100] := by decide +kernel
  obtain ⟨⟨m', rs⟩, hrun, rfl⟩ := Option.map_eq_some_iff.1 hrun
  obtain ⟨p', hp', hs⟩ := py_agrees rfl (by decide +kernel) hrun
  exact ⟨p', m', hp', hs⟩

/-- The product `100 * 2` saturates in C++ and wraps in Python. -/
theorem py_product_wraps :
    (Run.run cppStep (Vector.replicate 1 (Tile.fresh (H := 5) (W := 5) (by decide))) (cornerRun 100)).map
        (fun q => q.2.map retInt) = some [none, none, none, some 127] ∧
      (Run.run pyStep (PyMemory.new 5 5 1) (cornerRun 100)).map (·.2) = some [none, none, none, some 200] := by
  decide +kernel

end Alpine.Aimc.Py
