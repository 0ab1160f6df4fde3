import Alpine.Aimc.PyCheck
import Alpine.Aimc.Scalar
import Alpine.Aimc.Transfer
import Alpine.Lib.Grid

/-!
# Mapping flattened matrices (`aimclib/aimc_tile.hh`, `aimclib_python3/aimclib/aimc_tile.py`)

`mapMatrix` has an overload for row pointers and one for a flattened matrix, each also with scaling, and the
Python library has the same four functions.  The flattened ones read element `i * width + j` for column `i` and
row `j`.

* `mapMatrixScaled`, `mapMatrixFlat`, `mapMatrixFlatScaled` and their Python versions as in the source.
* `FlatAgrees` — the flattened matrix holds at that index what is stored for column `i` of row `j`.
* `mapMatrix_flat_iff` — **where mapping the rows returns, mapping the flattened matrix does the same exactly
  when `FlatAgrees`**, in all four cases, and no index is outside exactly when no row is longer than a column.
-/

namespace Alpine.Aimc

open Check

variable {H W n : Nat} {α : Type} {height width size : Nat}

/-! ## The C++ functions -/

/-- The loops of the overloads: `elem i j` is what column `i` of row `j` is stored as, nothing in the row of a
null pointer. -/
def mapLoop (mem : AnalogComputationalMemory H W n) (aimc_x aimc_y : Int)
    (elem : Fin width → Fin height → Option (Option (BitVec 8))) : Option (AnalogComputationalMemory H W n) :=
  Fin.foldlM width (fun mem i => Fin.foldlM height (fun mem j => do
    match ← elem i j with
    | none => some mem
    | some val => do
      let x ← int? (i + aimc_x)
      let y ← int? (j + aimc_y)
      (Wrapper.aimcParamWrite mem (ofInt32 x) (ofInt32 y) (val.signExtend 64) 0).map (·.1)) mem) mem

/-- `m[i * width + j]`. -/
def flatElem (m : Vector α size) (width : Nat) (i j : Int) : Option α := do
  let row ← int? (i * width)
  let k ← int? (row + j)
  load m k

/-- `mapMatrix(aimc_x, aimc_y, height, width, max, m)` for row pointers. -/
def mapMatrixScaled [Scalar α] (mem : AnalogComputationalMemory H W n) (aimc_x aimc_y : Int) (max : α)
    (m : Option (Vector (Option (Vector α width)) height)) : Option (AnalogComputationalMemory H W n) :=
  match m with
  | none => some mem
  | some m =>
    if (height = 0 ∨ width = 0) ∨ Scalar.isZero max then some mem else
    mapLoop mem aimc_x aimc_y fun i j =>
      match m.get j with
      | none => some none
      | some row => (scaledVal max (row.get i)).map some

/-- `mapMatrix(aimc_x, aimc_y, height, width, m)` for a flattened matrix. -/
def mapMatrixFlat (mem : AnalogComputationalMemory H W n) (aimc_x aimc_y : Int) (height width : Nat)
    (m : Option (Vector (BitVec 8) size)) : Option (AnalogComputationalMemory H W n) :=
  match m with
  | none => some mem
  | some m =>
    if height = 0 ∨ width = 0 then some mem else
    mapLoop mem aimc_x aimc_y fun (i : Fin width) (j : Fin height) => (flatElem m width i j).map some

/-- `mapMatrix(aimc_x, aimc_y, height, width, max, m)` for a flattened matrix. -/
def mapMatrixFlatScaled [Scalar α] (mem : AnalogComputationalMemory H W n) (aimc_x aimc_y : Int)
    (height width : Nat) (max : α) (m : Option (Vector α size)) : Option (AnalogComputationalMemory H W n) :=
  match m with
  | none => some mem
  | some m =>
    if (height = 0 ∨ width = 0) ∨ Scalar.isZero max then some mem else
    mapLoop mem aimc_x aimc_y fun (i : Fin width) (j : Fin height) =>
      ((flatElem m width i j).bind (scaledVal max)).map some

/-! ## The Python functions -/

namespace Py

/-- The loops; an exception is `none`. -/
def mapLoop (mem : PyMemory H W n) (aimc_x aimc_y : Int) (elem : Fin width → Fin height → Option Int) :
    Option (PyMemory H W n) :=
  Fin.foldlM width (fun mem i => Fin.foldlM height (fun mem j => do
    let val ← elem i j
    some (aimcParamWrite mem 0 (i + aimc_x) (j + aimc_y) val).1) mem) mem

/-- `m[i * width + j]`. -/
def flatElem (m : Vector α size) (width i j : Nat) : Option α :=
  m[i * width + j]?

def mapMatrixInt8 (mem : PyMemory H W n) (aimc_x aimc_y : Int) (m : Vector (Vector Int width) height) :
    Option (PyMemory H W n) :=
  mapLoop mem aimc_x aimc_y fun i j => some ((m.get j).get i)

def mapMatrixScaled {F : Type} [PyScalar α F] (mem : PyMemory H W n) (aimc_x aimc_y : Int) (max_val : α)
    (m : Vector (Vector α width) height) : Option (PyMemory H W n) :=
  mapLoop mem aimc_x aimc_y fun i j => scaledVal max_val ((m.get j).get i)

def mapMatrixFlatInt8 (mem : PyMemory H W n) (aimc_x aimc_y : Int) (height width : Nat) (m : Vector Int size) :
    Option (PyMemory H W n) :=
  mapLoop mem aimc_x aimc_y fun (i : Fin width) (j : Fin height) => flatElem m width i j

def mapMatrixFlatScaled {F : Type} [PyScalar α F] (mem : PyMemory H W n) (aimc_x aimc_y : Int)
    (height width : Nat) (max_val : α) (m : Vector α size) : Option (PyMemory H W n) :=
  mapLoop mem aimc_x aimc_y fun (i : Fin width) (j : Fin height) =>
    (flatElem m width i j).bind (scaledVal max_val)

end Py

/-! ## Both as a grid -/

section Grids

variable {x₀ y₀ : Nat}

/-- The block of core 0 at an offset. -/
def blockGrid (hn : 0 < n) (hx : x₀ + width ≤ W) (hy : y₀ + height ≤ H) :
    Grid (AnalogComputationalMemory H W n) (BitVec 8) width height where
  get s i j := s[0].crossbar.get (cellIdx ⟨y₀ + j, by omega⟩ ⟨x₀ + i, by omega⟩)
  put s i j v := s.set 0 { s[0] with
    crossbar := s[0].crossbar.set (cellIdx ⟨y₀ + j, by omega⟩ ⟨x₀ + i, by omega⟩) v (Fin.isLt _) }
  get_put s i j v := by
    rw [Vector.getElem_set_self]
    exact Vector.getElem_set_self _
  get_put_ne s i j v i' j' h := by
    rw [Vector.getElem_set_self]
    have hne : (cellIdx (H := H) (W := W) ⟨y₀ + j, by omega⟩ ⟨x₀ + i, by omega⟩).val ≠
        (cellIdx (H := H) (W := W) ⟨y₀ + j', by omega⟩ ⟨x₀ + i', by omega⟩).val := by
      intro hc
      obtain ⟨hj, hi⟩ := cellIdx_inj hc
      have hj := Fin.val_eq_of_eq hj
      have hi := Fin.val_eq_of_eq hi
      simp only at hj hi
      exact h ⟨Fin.ext (by omega), Fin.ext (by omega)⟩
    exact Vector.getElem_set_ne (Fin.isLt _) (Fin.isLt _) hne

/-- One write inside the crossbar. -/
theorem write_eq_put (hn : 0 < n) (hx : x₀ + width ≤ W) (hy : y₀ + height ≤ H)
    (s : AnalogComputationalMemory H W n) (i : Fin width) (j : Fin height) (val : BitVec 8) :
    (do let x ← int? (i + (x₀ : Int))
        let y ← int? (j + (y₀ : Int))
        (Wrapper.aimcParamWrite s (ofInt32 x) (ofInt32 y) (val.signExtend 64) 0).map (·.1)) =
      some ((blockGrid hn hx hy).put s i j val) := by
  have hfits := s[0].fits
  have hi := i.isLt
  have hj := j.isLt
  have hW : W ≤ W * H := Nat.le_mul_of_pos_right W (by omega)
  have hH : H ≤ W * H := Nat.le_mul_of_pos_left H (by omega)
  have hxi : int? (i + (x₀ : Int)) = some ((x₀ + i : Nat) : Int) := by
    rw [Int.add_comm, ← Int.natCast_add]; exact int?_natCast (by omega)
  have hyj : int? (j + (y₀ : Int)) = some ((y₀ + j : Nat) : Int) := by
    rw [Int.add_comm, ← Int.natCast_add]; exact int?_natCast (by omega)
  have hwrite := wrapper_aimcParamWrite_eq s hn (isInt_natCast (k := x₀ + i) (by omega))
    (isInt_natCast (k := y₀ + j) (by omega)) val
  rw [coreParamWrite_cell s[0] (x := x₀ + i) (y := y₀ + j) (by omega) (by omega)] at hwrite
  simp only [hxi, hyj, bind_some_eq]
  exact congrArg (Option.map (·.1)) hwrite

theorem mapLoop_eq_fill (hn : 0 < n) (hx : x₀ + width ≤ W) (hy : y₀ + height ≤ H)
    (mem : AnalogComputationalMemory H W n) (elem : Fin width → Fin height → Option (BitVec 8)) :
    mapLoop mem x₀ y₀ (fun i j => (elem i j).map some) = (blockGrid hn hx hy).fill elem mem := by
  unfold mapLoop Grid.fill
  congr
  funext mem i
  congr
  funext mem j
  beta_reduce
  cases elem i j with
  | none => rfl
  | some val =>
    rw [Option.map_some, bind_some_eq]
    exact write_eq_put hn hx hy mem i j val

theorem mapMatrix_eq_fill (hn : 0 < n) (hx : x₀ + width ≤ W) (hy : y₀ + height ≤ H)
    (mem : AnalogComputationalMemory H W n) (M : Vector (Vector (BitVec 8) width) height) :
    mapMatrix mem x₀ y₀ (some (M.map some)) = (blockGrid hn hx hy).fill (fun i j => some ((M.get j).get i)) mem := by
  simp only [mapMatrix]
  by_cases h : height = 0 ∨ width = 0
  · rw [if_pos h, Grid.fill_empty _ _ _ h]
  · rw [if_neg h]
    unfold Grid.fill
    congr
    funext mem i
    congr
    funext mem j
    unfold mapIter
    have hrow : (M.map some).get j = some (M.get j) := by simp [Vector.get]
    simp only [hrow]
    exact write_eq_put hn hx hy mem i j _

theorem mapMatrixScaled_eq_fill [Scalar α] (hn : 0 < n) (hx : x₀ + width ≤ W) (hy : y₀ + height ≤ H)
    (mem : AnalogComputationalMemory H W n) (max : α) (M : Vector (Vector α width) height) :
    mapMatrixScaled mem x₀ y₀ max (some (M.map some)) = if Scalar.isZero max then some mem else
      (blockGrid hn hx hy).fill (fun i j => scaledVal max ((M.get j).get i)) mem := by
  simp only [mapMatrixScaled]
  by_cases hmax : Scalar.isZero max
  · rw [if_pos (Or.inr hmax), if_pos hmax]
  · rw [if_neg hmax]
    by_cases h : height = 0 ∨ width = 0
    · rw [if_pos (Or.inl h), Grid.fill_empty _ _ _ h]
    · rw [if_neg (fun e => e.elim h hmax), ← mapLoop_eq_fill]
      congr
      funext i j
      have hrow : (M.map some).get j = some (M.get j) := by simp [Vector.get]
      rw [hrow]

/-- Inside the matrix the index does not overflow, outside it the access is undefined anyway. -/
theorem flatElem_eq (m : Vector α size) (hsize : size < 2147483648) (i j : Nat) :
    flatElem m width i j = m[i * width + j]? := by
  unfold flatElem
  by_cases hlt : i * width + j < size
  · have hrow : int? ((i : Int) * width) = some ((i * width : Nat) : Int) := by
      rw [← Int.natCast_mul]; exact int?_natCast (by omega)
    have hk : int? (((i * width : Nat) : Int) + j) = some ((i * width + j : Nat) : Int) := by
      rw [← Int.natCast_add]; exact int?_natCast (by omega)
    rw [hrow, bind_some_eq, hk, bind_some_eq, load_nat m hlt, Vector.getElem?_eq_getElem hlt]
  · rw [Vector.getElem?_eq_none (by omega)]
    by_cases hrow : IsInt ((i : Int) * width)
    · rw [int?_some hrow, bind_some_eq]
      by_cases hk : IsInt ((i : Int) * width + j)
      · rw [int?_some hk, bind_some_eq, ← Int.natCast_mul, ← Int.natCast_add, load_none _ (by omega)]
      · rw [show int? ((i : Int) * width + j) = none from if_neg hk]
        rfl
    · rw [show int? ((i : Int) * width) = none from if_neg hrow]
      rfl

theorem block_size_lt (mem : AnalogComputationalMemory H W n) (hn : 0 < n) (hx : x₀ + width ≤ W)
    (hy : y₀ + height ≤ H) : height * width < 2147483648 := by
  have hfits := mem[0].fits
  calc height * width ≤ H * W := Nat.mul_le_mul (by omega) (by omega)
    _ = W * H := Nat.mul_comm H W
    _ < 2147483648 := hfits

theorem mapMatrixFlat_eq_fill (hn : 0 < n) (hx : x₀ + width ≤ W) (hy : y₀ + height ≤ H)
    (mem : AnalogComputationalMemory H W n) (m : Vector (BitVec 8) (height * width)) :
    mapMatrixFlat mem x₀ y₀ height width (some m) =
      (blockGrid hn hx hy).fill (fun i j => m[i.val * width + j.val]?) mem := by
  simp only [mapMatrixFlat]
  by_cases h : height = 0 ∨ width = 0
  · rw [if_pos h, Grid.fill_empty _ _ _ h]
  · rw [if_neg h, ← mapLoop_eq_fill]
    simp only [flatElem_eq m (block_size_lt mem hn hx hy)]

theorem mapMatrixFlatScaled_eq_fill [Scalar α] (hn : 0 < n) (hx : x₀ + width ≤ W) (hy : y₀ + height ≤ H)
    (mem : AnalogComputationalMemory H W n) (max : α) (m : Vector α (height * width)) :
    mapMatrixFlatScaled mem x₀ y₀ height width max (some m) = if Scalar.isZero max then some mem else
      (blockGrid hn hx hy).fill (fun i j => m[i.val * width + j.val]?.bind (scaledVal max)) mem := by
  simp only [mapMatrixFlatScaled]
  by_cases hmax : Scalar.isZero max
  · rw [if_pos (Or.inr hmax), if_pos hmax]
  · rw [if_neg hmax]
    by_cases h : height = 0 ∨ width = 0
    · rw [if_pos (Or.inl h), Grid.fill_empty _ _ _ h]
    · rw [if_neg (fun e => e.elim h hmax), ← mapLoop_eq_fill]
      simp only [flatElem_eq m (block_size_lt mem hn hx hy)]

namespace Py

/-- The block of the Python core 0 at an offset. -/
def blockGrid (hn : 0 < n) (hx : x₀ + width ≤ W) (hy : y₀ + height ≤ H) :
    Grid (PyMemory H W n) (BitVec 8) width height where
  get s i j := (s[0].crossbar.get ⟨y₀ + j, by omega⟩).get ⟨x₀ + i, by omega⟩
  put s i j v := s.set 0 { s[0] with
    crossbar := s[0].crossbar.set (y₀ + j) ((s[0].crossbar.get ⟨y₀ + j, by omega⟩).set (x₀ + i) v) }
  get_put s i j v := by
    rw [Vector.getElem_set_self]
    show ((s[0].crossbar.set (y₀ + j) _)[y₀ + j.val])[x₀ + i.val] = v
    rw [Vector.getElem_set_self, Vector.getElem_set_self]
  get_put_ne s i j v i' j' h := by
    rw [Vector.getElem_set_self]
    show ((s[0].crossbar.set (y₀ + j) _)[y₀ + j'.val])[x₀ + i'.val] = (s[0].crossbar[y₀ + j'.val])[x₀ + i'.val]
    by_cases hj : j' = j
    · subst hj
      have hi : x₀ + i.val ≠ x₀ + i'.val := fun e => h ⟨Fin.ext (by omega), rfl⟩
      rw [Vector.getElem_set_self, Vector.getElem_set_ne _ _ hi]
      rfl
    · have hj' : y₀ + j.val ≠ y₀ + j'.val := fun e => hj (Fin.ext (by omega))
      rw [Vector.getElem_set_ne _ _ hj']

theorem write_eq_put (hn : 0 < n) (hx : x₀ + width ≤ W) (hy : y₀ + height ≤ H) (s : PyMemory H W n)
    (i : Fin width) (j : Fin height) (val : Int) :
    (aimcParamWrite s 0 (i + x₀) (j + y₀) val).1 = (blockGrid hn hx hy).put s i j (asInt8 val) := by
  have hxi : (i : Int) + x₀ = ((x₀ + i : Nat) : Int) := by omega
  have hyj : (j : Int) + y₀ = ((y₀ + j : Nat) : Int) := by omega
  have hcore : coreParamWrite s[0] (x₀ + i : Nat) (y₀ + j : Nat) val = { s[0] with
      crossbar := s[0].crossbar.set (y₀ + j)
        ((s[0].crossbar.get ⟨y₀ + j, by omega⟩).set (x₀ + i) (asInt8 val)) } := by
    unfold coreParamWrite
    rw [dif_pos ⟨⟨by omega, by omega⟩, by omega, by omega⟩]
    rfl
  rw [hxi, hyj]
  unfold aimcParamWrite onCore
  rw [dif_pos ⟨le_rfl, by omega⟩]
  show s.set 0 (coreParamWrite s[0] (x₀ + i : Nat) (y₀ + j : Nat) val) = _
  rw [hcore]
  rfl

theorem mapLoop_eq_fill (hn : 0 < n) (hx : x₀ + width ≤ W) (hy : y₀ + height ≤ H)
    (mem : PyMemory H W n) (elem : Fin width → Fin height → Option Int) :
    mapLoop mem x₀ y₀ elem = (blockGrid hn hx hy).fill (fun i j => (elem i j).map asInt8) mem := by
  unfold mapLoop Grid.fill
  congr
  funext mem i
  congr
  funext mem j
  beta_reduce
  cases elem i j with
  | none => rfl
  | some val =>
    rw [bind_some_eq, write_eq_put hn hx hy, Option.map_some, Option.map_some]

end Py

/-! ## Agreement -/

/-- Where mapping the rows returns, mapping the flattened matrix returns the same. -/
def Refines {σ : Type} (rows flat : Option σ) : Prop :=
  ∀ r, rows = some r → flat = some r

/-- For every column `i` and row `j` the element at `i * width + j` of the flattened matrix exists and is stored
as what column `i` of row `j` is stored as, unless some element cannot be stored. -/
def FlatAgrees (conv : α → Option (BitVec 8)) (M : Vector (Vector α width) height) : Prop :=
  (∃ (i : Fin width) (j : Fin height), conv ((M.get j).get i) = none) ∨
    ∀ (i : Fin width) (j : Fin height), M.flatten[i.val * width + j.val]?.bind conv = conv ((M.get j).get i)

instance (conv : α → Option (BitVec 8)) (M : Vector (Vector α width) height) : Decidable (FlatAgrees conv M) :=
  inferInstanceAs (Decidable (_ ∨ _))

theorem fill_flat_iff {σ : Type} (g : Grid σ (BitVec 8) width height) (conv : α → Option (BitVec 8))
    (M : Vector (Vector α width) height) (s : σ) : Refines (g.fill (fun i j => conv ((M.get j).get i)) s)
        (g.fill (fun i j => M.flatten[i.val * width + j.val]?.bind conv) s) ↔ FlatAgrees conv M :=
  g.fill_refines_iff _ _ s

theorem flatAgrees_map {β : Type} (f : α → β) (conv : β → Option (BitVec 8)) (M : Vector (Vector α width) height) :
    FlatAgrees conv (M.map (Vector.map f)) ↔ FlatAgrees (fun a => conv (f a)) M := by
  unfold FlatAgrees
  rw [← Vector.map_flatten]
  have hget : ∀ (i : Fin width) (j : Fin height), ((M.map (Vector.map f)).get j).get i = f ((M.get j).get i) :=
    fun i j => by
      simp only [Vector.get, Vector.toArray_map, Array.getElem_map]
      rfl
  simp only [hget, Vector.getElem?_map, Option.bind_map]
  rfl

/-- No index is outside of the matrix exactly when no row is longer than a column. -/
theorem flat_index_iff : (∀ (i : Fin width) (j : Fin height), i.val * width + j.val < height * width) ↔
    height = 0 ∨ width ≤ height := by
  constructor
  · intro h
    by_contra hcon
    rw [not_or] at hcon
    obtain ⟨hh, hw⟩ := hcon
    -- the first row of column `height`
    have hlt := h ⟨height, by omega⟩ ⟨0, by omega⟩
    simp only [Nat.add_zero, lt_irrefl] at hlt
  · rintro (rfl | hle) i j
    · exact j.elim0
    · obtain ⟨d, rfl⟩ := Nat.exists_eq_add_of_le hle
      have hi := i.isLt
      have hj := j.isLt
      have hcol : (i.val + 1) * width ≤ width * width := Nat.mul_le_mul_right width hi
      have hd : d ≤ d * width := Nat.le_mul_of_pos_right d (by omega)
      rw [Nat.add_mul] at hcol ⊢
      omega

/-- **Mapping a flattened matrix is mapping its rows exactly when every element has the value of the one that
is read in its place**, for both C++ overloads and both Python functions; and every index is inside the matrix
exactly when no row is longer than a column. -/
theorem mapMatrix_flat_iff {T U F : Type} [Scalar T] [PyScalar U F] (hn : 0 < n) (hx : x₀ + width ≤ W)
    (hy : y₀ + height ≤ H) (mem : AnalogComputationalMemory H W n) (pmem : Py.PyMemory H W n)
    (M : Vector (Vector (BitVec 8) width) height) (max : T) (A : Vector (Vector T width) height) (max_val : U)
    (B : Vector (Vector U width) height) : (Refines (mapMatrix mem x₀ y₀ (some (M.map some)))
        (mapMatrixFlat mem x₀ y₀ height width (some M.flatten)) ↔ FlatAgrees some M) ∧
      (Refines (mapMatrixScaled mem x₀ y₀ max (some (A.map some)))
        (mapMatrixFlatScaled mem x₀ y₀ height width max (some A.flatten)) ↔
          Scalar.isZero max ∨ FlatAgrees (scaledVal max) A) ∧
      (Refines (Py.mapMatrixInt8 pmem x₀ y₀ (M.map (Vector.map BitVec.toInt)))
        (Py.mapMatrixFlatInt8 pmem x₀ y₀ height width (M.map (Vector.map BitVec.toInt)).flatten) ↔
          FlatAgrees some M) ∧ (Refines (Py.mapMatrixScaled pmem x₀ y₀ max_val B)
        (Py.mapMatrixFlatScaled pmem x₀ y₀ height width max_val B.flatten) ↔
          FlatAgrees (fun v => (Py.scaledVal max_val v).map Py.asInt8) B) ∧
      ((∀ (i : Fin width) (j : Fin height), i.val * width + j.val < height * width) ↔
        height = 0 ∨ width ≤ height) := by
  refine ⟨?_, ?_, ?_, ?_, flat_index_iff⟩
  · rw [mapMatrix_eq_fill hn hx hy, mapMatrixFlat_eq_fill hn hx hy, ← fill_flat_iff (blockGrid hn hx hy) some M mem]
    simp only [Option.bind_fun_some]
  · rw [mapMatrixScaled_eq_fill hn hx hy, mapMatrixFlatScaled_eq_fill hn hx hy]
    by_cases hmax : Scalar.isZero max
    · rw [if_pos hmax, if_pos hmax]
      exact iff_of_true (fun r hr => hr) (Or.inl hmax)
    · rw [if_neg hmax, if_neg hmax, fill_flat_iff]
      exact ⟨Or.inr, fun h => h.resolve_left hmax⟩
  · have hint8 : FlatAgrees some M ↔
        FlatAgrees (fun v => some (Py.asInt8 v)) (M.map (Vector.map BitVec.toInt)) := by
      rw [flatAgrees_map]
      have hround : ∀ b : BitVec 8, Py.asInt8 b.toInt = b := fun b => BitVec.ofInt_toInt
      simp only [hround]
    unfold Py.mapMatrixInt8 Py.mapMatrixFlatInt8
    rw [hint8, Py.mapLoop_eq_fill hn hx hy, Py.mapLoop_eq_fill hn hx hy,
      ← fill_flat_iff (Py.blockGrid hn hx hy) _ _ pmem]
    simp only [Py.flatElem, Option.map_eq_bind]
    rfl
  · unfold Py.mapMatrixScaled Py.mapMatrixFlatScaled
    rw [Py.mapLoop_eq_fill hn hx hy, Py.mapLoop_eq_fill hn hx hy, ← fill_flat_iff (Py.blockGrid hn hx hy) _ _ pmem]
    simp only [Py.flatElem, Option.map_bind]
    rfl

end Grids

/-- A symmetric matrix is mapped alike. -/
theorem mapMatrix_flat_iff_symmetric : Refines
      (mapMatrix (Vector.replicate 1 (Tile.fresh (H := 4) (W := 5) (by decide))) (1 : Nat) (2 : Nat)
        (some ((#v[#v[1, 2], #v[2, 3]] : Vector (Vector (BitVec 8) 2) 2).map some)))
      (mapMatrixFlat (Vector.replicate 1 (Tile.fresh (H := 4) (W := 5) (by decide))) (1 : Nat) (2 : Nat) 2 2
        (some (#v[#v[1, 2], #v[2, 3]] : Vector (Vector (BitVec 8) 2) 2).flatten)) :=
  (mapMatrix_flat_iff (T := Int) (U := ℚ) (by decide) (by decide) (by decide) _ (Py.PyMemory.new 4 5 1) _ 1
    #v[#v[1, 2], #v[2, 3]] 1 #v[#v[1, 2], #v[2, 3]]).1.2 (by decide +kernel)

/-- A square matrix is mapped transposed, and the matrix of one row is read outside. -/
theorem mapMatrix_flat_transposed : ¬ Refines
        (mapMatrix (Vector.replicate 1 (Tile.fresh (H := 4000) (W := 4000) fits_4000)) (0 : Nat) (0 : Nat)
          (some ((#v[#v[1, 2], #v[3, 4]] : Vector (Vector (BitVec 8) 2) 2).map some)))
        (mapMatrixFlat (Vector.replicate 1 (Tile.fresh (H := 4000) (W := 4000) fits_4000)) (0 : Nat) (0 : Nat)
          2 2 (some (#v[#v[1, 2], #v[3, 4]] : Vector (Vector (BitVec 8) 2) 2).flatten)) ∧
      ¬ ∀ (i : Fin 2) (j : Fin 1), i.val * 2 + j.val < 1 * 2 := by
  refine ⟨?_, by decide⟩
  rw [mapMatrix_eq_fill (by decide) (by omega) (by omega), mapMatrixFlat_eq_fill (by decide) (by omega) (by omega)]
  intro h
  have hagrees := (fill_flat_iff _ some _ _).1 (by simpa only [Option.bind_fun_some] using h)
  exact absurd hagrees (by decide +kernel)

end Alpine.Aimc
