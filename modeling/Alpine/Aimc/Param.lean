import Alpine.Aimc.Check
import Alpine.Aimc.Cluster

/-!
# Access to the parameters of the crossbar

`aimcParamRead` and `aimcParamWrite` of the host checker and of the simulator's tiles turn the coordinates into
one index and test that index only.

* `GetPut` — at some coordinates and a value, a write followed by a read is a put followed by a get of a
  two-dimensional array, and what is outside does nothing and reads as zero.
* `Exact` — when that is so: an access from outside that lands on a cell has to find there what it should.
* `getPut_iff` — **the checker is such an array exactly then**, and the cluster where no index is negative, too.
-/

namespace Alpine.Aimc

variable {H W : Nat}

/-- The coordinates of a cell. -/
def InCrossbar (H W : Nat) (x y : Int) : Prop :=
  (0 ≤ x ∧ x < W) ∧ 0 ≤ y ∧ y < H

instance (x y : Int) : Decidable (InCrossbar H W x y) := inferInstanceAs (Decidable (_ ∧ _))

/-- A write of `v` at `(x, y)` and then a read at `(x₂, y₂)` behave as on a two-dimensional array. -/
def GetPut (read : Tile H W → Int → Int → Option (BitVec 8))
    (write : Tile H W → Int → Int → BitVec 8 → Option (Tile H W)) (t : Tile H W) (x y : Int) (v : BitVec 8)
    (x₂ y₂ : Int) : Prop :=
  ∃ t' r, write t x y v = some t' ∧ read t x₂ y₂ = some r ∧
    (¬ InCrossbar H W x y → t' = t) ∧ (¬ InCrossbar H W x₂ y₂ → r = 0) ∧
    read t' x₂ y₂ = some (if InCrossbar H W x y ∧ x₂ = x ∧ y₂ = y then v else r)

/-- The index of the source, without overflow. -/
def NoOverflow (W : Nat) (x y : Int) : Prop :=
  IsInt (y * W) ∧ IsInt (y * W + x)

instance (x y : Int) : Decidable (NoOverflow W x y) := inferInstanceAs (Decidable (_ ∧ _))

/-- The value at an index, zero outside the array. -/
def Tile.cell (t : Tile H W) (i : Int) : BitVec 8 :=
  (load t.crossbar i).getD 0

/-- The conditions under which the accesses do not show that they test one index only: there is no overflow,
a write from outside hits no cell or one that holds its value, and a read from outside hits no cell or one
that is zero, and that the write leaves so. -/
def Exact (t : Tile H W) (x y : Int) (v : BitVec 8) (x₂ y₂ : Int) : Prop :=
  NoOverflow W x y ∧ NoOverflow W x₂ y₂ ∧
    (InCrossbar H W x y ∨ ((load t.crossbar (y * W + x)).isSome → t.cell (y * W + x) = v)) ∧
    (InCrossbar H W x₂ y₂ ∨
      (t.cell (y₂ * W + x₂) = 0 ∧ (InCrossbar H W x y → y₂ * W + x₂ = y * W + x → v = 0)))

theorem index1D_eq (x y : Int) : index1D W x y = if NoOverflow W x y then some (y * W + x) else none := by
  unfold index1D NoOverflow int?
  by_cases h : IsInt (y * W)
  · simp [h]
  · simp [h]

theorem load_isSome {α : Type} {n : Nat} (a : Vector α n) (i : Int) : (load a i).isSome = true ↔ 0 ≤ i ∧ i < n := by
  unfold load
  split <;> simp [*]

variable (t : Tile H W)

theorem coreParamRead_eq (x y : Int) :
    Check.coreParamRead t x y = if NoOverflow W x y then some (t.cell (y * W + x)) else none := by
  unfold Check.coreParamRead
  rw [index1D_eq]
  split
  · rw [bind_some_eq]
    unfold Tile.cell
    split
    · rename_i h
      obtain ⟨v, hv⟩ := Option.isSome_iff_exists.1 ((load_isSome t.crossbar _).2 h)
      rw [hv, Option.getD_some]
    · rename_i h
      rw [load_none t.crossbar h, Option.getD_none]
  · rfl

/-- A write with the index `i`. -/
def Tile.putCell (t : Tile H W) (i : Int) (v : BitVec 8) : Tile H W :=
  { t with crossbar := (store t.crossbar i v).getD t.crossbar }

theorem coreParamWrite_eq (x y : Int) (v : BitVec 8) :
    Check.coreParamWrite t x y v = if NoOverflow W x y then some (t.putCell (y * W + x) v) else none := by
  unfold Check.coreParamWrite
  rw [index1D_eq]
  split
  · rw [bind_some_eq]
    unfold Tile.putCell
    split
    · rename_i h
      have hs : store t.crossbar (y * W + x) v = some (t.crossbar.set (y * W + x).toNat v (by omega)) := by
        unfold store
        rw [dif_pos h]
      rw [hs]
      rfl
    · rename_i h
      rw [store_none t.crossbar h, Option.getD_none]
  · rfl

theorem cell_putCell (i j : Int) (v : BitVec 8) :
    (t.putCell i v).cell j = if (0 ≤ i ∧ i < (W * H : Nat)) ∧ j = i then v else t.cell j := by
  unfold Tile.putCell Tile.cell
  by_cases hi : 0 ≤ i ∧ i < (W * H : Nat)
  · have hs : store t.crossbar i v = some (t.crossbar.set i.toNat v (by omega)) := by
      unfold store
      rw [dif_pos hi]
    rw [hs, Option.getD_some]
    by_cases hj : 0 ≤ j ∧ j < (W * H : Nat)
    · unfold load
      rw [dif_pos hj, dif_pos hj, Option.getD_some, Option.getD_some]
      by_cases h : j = i
      · subst h
        rw [if_pos ⟨hi, rfl⟩]
        exact Vector.getElem_set_self _
      · rw [if_neg (fun e => h e.2)]
        have hne : i.toNat ≠ j.toNat := by omega
        exact Vector.getElem_set_ne (by omega) (by omega) hne
    · rw [load_none _ hj, load_none _ hj, if_neg]
      rintro ⟨_, rfl⟩
      exact hj hi
  · rw [store_none t.crossbar hi, Option.getD_none, if_neg (fun e => hi e.1)]

/-- A cell has one index, which no other coordinates in the crossbar have. -/
theorem InCrossbar.index {x y : Int} (t : Tile H W) (h : InCrossbar H W x y) :
    NoOverflow W x y ∧ 0 ≤ y * W + x ∧ y * W + x < (W * H : Nat) := by
  obtain ⟨⟨hx, hxW⟩, hy, hyH⟩ := h
  obtain ⟨x, rfl⟩ := Int.eq_ofNat_of_zero_le hx
  obtain ⟨y, rfl⟩ := Int.eq_ofNat_of_zero_le hy
  have hi := index1D_cell t (x := x) (y := y) (by omega) (by omega)
  have hlt := cell_lt (j := y) (i := x) (H := H) (W := W) (by omega) (by omega)
  rw [index1D_eq] at hi
  have hno : NoOverflow W x y := by
    by_contra hno
    rw [if_neg hno] at hi
    cases hi
  exact ⟨hno, by positivity, by exact_mod_cast hlt⟩

theorem InCrossbar.index_inj {x y x₂ y₂ : Int} (h : InCrossbar H W x y) (h2 : InCrossbar H W x₂ y₂)
    (heq : y₂ * W + x₂ = y * W + x) : x₂ = x ∧ y₂ = y := by
  obtain ⟨⟨hx, hxW⟩, hy, hyH⟩ := h
  obtain ⟨⟨hx2, hxW2⟩, hy2, hyH2⟩ := h2
  have hyy : y₂ = y := by
    rcases lt_trichotomy y₂ y with h | h | h
    · nlinarith
    · exact h
    · nlinarith
  subst hyy
  exact ⟨by omega, rfl⟩

/-! ## The checker -/

theorem putCell_self {i : Int} {v : BitVec 8}
    (h : (load t.crossbar i).isSome → t.cell i = v) : t.putCell i v = t := by
  unfold Tile.putCell
  by_cases hi : 0 ≤ i ∧ i < (W * H : Nat)
  · have hv := h ((load_isSome _ _).2 hi)
    unfold Tile.cell load at hv
    rw [dif_pos hi, Option.getD_some] at hv
    unfold store
    rw [dif_pos hi, Option.getD_some, ← hv]
    congr 1
    exact Vector.set_getElem_self _
  · rw [store_none _ hi, Option.getD_none]

theorem cell_of_putCell_eq {i : Int} {v : BitVec 8} (h : t.putCell i v = t)
    (hi : (load t.crossbar i).isSome = true) : t.cell i = v := by
  have hcell := cell_putCell t i i v
  rw [h, if_pos ⟨(load_isSome _ _).1 hi, rfl⟩] at hcell
  exact hcell

/-- **The checker is a two-dimensional array exactly where nothing shows that it tests one index.** -/
theorem checker_getPut_iff (x y : Int) (v : BitVec 8) (x₂ y₂ : Int) :
    GetPut Check.coreParamRead Check.coreParamWrite t x y v x₂ y₂ ↔ Exact t x y v x₂ y₂ := by
  unfold GetPut
  simp only [coreParamRead_eq, coreParamWrite_eq]
  constructor
  · rintro ⟨t', r, hwrite, hread, hout, hout2, hget⟩
    have hno : NoOverflow W x y := by
      by_contra hno
      rw [if_neg hno] at hwrite
      cases hwrite
    have hno2 : NoOverflow W x₂ y₂ := by
      by_contra hno2
      rw [if_neg hno2] at hread
      cases hread
    rw [if_pos hno] at hwrite
    rw [if_pos hno2] at hread hget
    cases hwrite
    cases hread
    refine ⟨hno, hno2, ?_, ?_⟩
    · by_cases hin : InCrossbar H W x y
      · exact .inl hin
      · exact .inr (cell_of_putCell_eq t (hout hin))
    · by_cases hin2 : InCrossbar H W x₂ y₂
      · exact .inl hin2
      · have hzero := hout2 hin2
        refine .inr ⟨hzero, fun hin heq => ?_⟩
        have hcell := Option.some.inj hget
        have hrange := (hin.index t).2
        rw [cell_putCell, if_pos ⟨hrange, heq⟩, if_neg, hzero] at hcell
        · exact hcell
        · rintro ⟨_, rfl, rfl⟩
          exact hin2 hin
  · rintro ⟨hno, hno2, hwrite, hread⟩
    rw [if_pos hno, if_pos hno2]
    refine ⟨_, _, rfl, rfl, ?_, ?_, ?_⟩
    · intro hout
      exact putCell_self t (hwrite.resolve_left hout)
    · intro hout2
      exact (hread.resolve_left hout2).1
    · rw [if_pos hno2, cell_putCell]
      congr 1
      by_cases hin : InCrossbar H W x y
      · by_cases hsame : x₂ = x ∧ y₂ = y
        · obtain ⟨rfl, rfl⟩ := hsame
          rw [if_pos ⟨(hin.index t).2, rfl⟩, if_pos ⟨hin, rfl, rfl⟩]
        · have hother : ¬ (InCrossbar H W x y ∧ x₂ = x ∧ y₂ = y) := fun e => hsame e.2
          rw [if_neg hother]
          by_cases heq : y₂ * W + x₂ = y * W + x
          · rcases hread with hin2 | ⟨hzero, hv⟩
            · exact (hsame (hin.index_inj hin2 heq)).elim
            · rw [if_pos ⟨(hin.index t).2, heq⟩, hzero, hv hin heq]
          · rw [if_neg (fun e => heq e.2)]
      · have hother : ¬ (InCrossbar H W x y ∧ x₂ = x ∧ y₂ = y) := fun e => hin e.1
        rw [if_neg hother]
        by_cases heq : (0 ≤ y * W + x ∧ y * W + x < (W * H : Nat)) ∧ y₂ * W + x₂ = y * W + x
        · rw [if_pos heq, heq.2]
          exact (hwrite.resolve_left hin ((load_isSome _ _).2 heq.1)).symm
        · rw [if_neg heq]

/-! ## The cluster -/

theorem tileParamRead_eq (x y : Int) :
    Cluster.tileParamRead t x y = if 0 ≤ y * W + x then Check.coreParamRead t x y else none := by
  unfold Cluster.tileParamRead Check.coreParamRead
  rw [index1D_eq]
  by_cases hno : NoOverflow W x y
  · rw [if_pos hno, bind_some_eq, bind_some_eq]
    by_cases h : 0 ≤ y * W + x
    · rw [if_pos h]
      simp only [h, true_and]
    · rw [if_neg h, if_pos (by omega), load_none _ (by omega)]
  · rw [if_neg hno]
    exact (ite_self none).symm

theorem tileParamWrite_eq (x y : Int) (v : BitVec 8) :
    Cluster.tileParamWrite t x y v = if 0 ≤ y * W + x then Check.coreParamWrite t x y v else none := by
  unfold Cluster.tileParamWrite Check.coreParamWrite
  rw [index1D_eq]
  by_cases hno : NoOverflow W x y
  · rw [if_pos hno, bind_some_eq, bind_some_eq]
    by_cases h : 0 ≤ y * W + x
    · rw [if_pos h]
      simp only [h, true_and]
    · rw [if_neg h, if_pos (by omega), store_none _ (by omega)]
      rfl
  · rw [if_neg hno]
    exact (ite_self none).symm

theorem cluster_getPut_iff (x y : Int) (v : BitVec 8) (x₂ y₂ : Int) :
    GetPut Cluster.tileParamRead Cluster.tileParamWrite t x y v x₂ y₂ ↔
      0 ≤ y * W + x ∧ 0 ≤ y₂ * W + x₂ ∧ Exact t x y v x₂ y₂ := by
  rw [← checker_getPut_iff]
  unfold GetPut
  simp only [tileParamRead_eq, tileParamWrite_eq]
  by_cases h : 0 ≤ y * W + x
  · by_cases h2 : 0 ≤ y₂ * W + x₂
    · simp only [h, h2, if_true, true_and]
    · simp only [h2, if_false, false_and, and_false, reduceCtorEq, exists_false]
  · simp only [h, if_false, reduceCtorEq, false_and, exists_false]

/-- **Parameter access is a two-dimensional get and put exactly where nothing shows that one index is
tested**, for the checker, and for the cluster with no negative index besides. -/
theorem getPut_iff (t : Tile H W) (x y : Int) (v : BitVec 8) (x₂ y₂ : Int) :
    (GetPut Check.coreParamRead Check.coreParamWrite t x y v x₂ y₂ ↔ Exact t x y v x₂ y₂) ∧
      (GetPut Cluster.tileParamRead Cluster.tileParamWrite t x y v x₂ y₂ ↔
        0 ≤ y * W + x ∧ 0 ≤ y₂ * W + x₂ ∧ Exact t x y v x₂ y₂) :=
  ⟨checker_getPut_iff t x y v x₂ y₂, cluster_getPut_iff t x y v x₂ y₂⟩

theorem fresh_cell (fits : W * H < 2147483648) (i : Int) : (Tile.fresh fits).cell i = 0 := by
  unfold Tile.cell load Tile.fresh
  split
  · simp [Vector.get]
  · rfl

/-- The column after the last one of a row is the first one of the next row, and the cluster also indexes
the column before the first one. -/
theorem getPut_outside :
    ¬ GetPut Check.coreParamRead Check.coreParamWrite (Tile.fresh (H := 4000) (W := 4000) fits_4000) 4000 0 7 0 1 ∧
      ¬ GetPut Cluster.tileParamRead Cluster.tileParamWrite (Tile.fresh (H := 2000) (W := 2000) fits_2000)
          2000 0 7 0 1 ∧ Cluster.tileParamRead (Tile.fresh (H := 2000) (W := 2000) fits_2000) (-1) 0 = none := by
  refine ⟨?_, ?_, ?_⟩
  · rw [checker_getPut_iff]
    rintro ⟨_, _, hin | hwrite, _⟩
    · exact absurd hin.1.2 (by omega)
    · rw [load_isSome, fresh_cell] at hwrite
      exact absurd (hwrite (by omega)) (by decide)
  · rw [cluster_getPut_iff]
    rintro ⟨_, _, _, _, hin | hwrite, _⟩
    · exact absurd hin.1.2 (by omega)
    · rw [load_isSome, fresh_cell] at hwrite
      exact absurd (hwrite (by omega)) (by decide)
  · rw [tileParamRead_eq]
    exact if_neg (by omega)

end Alpine.Aimc
