import Alpine.Aimc.Transfer

/-!
# The matrix-vector product through the checker

`mvm` maps a matrix, queues a vector, processes and dequeues the result, on the freshly constructed
checker.  A word whose four values do not end strictly inside a memory is dropped by `aimcQueue` and
read as zeros by `aimcDequeue` (`(idx + length) < crossbarHeight`), so the last word of a memory is
never usable.

* `mvm_eq` — the computed vector, for every crossbar size and every matrix that fits it: rows and
  columns in the last word count as zero.
* `mvm_correct_iff` — on the checker's own 4000 x 4000 crossbar the product is right for all data
  exactly for heights and widths up to 3996.
-/

namespace Alpine.Aimc

open Check

variable {H W n h w : Nat}

/-- `mapMatrix(0, 0, h, w, m); queueVector(h, v); aimcProcess(); dequeueVector(w, out);`. -/
def mvmOn (H W n : Nat) (m : Vector (Vector (BitVec 8) w) h) (v : Vector (BitVec 8) h)
    (out : Vector (BitVec 8) w) : Option (Option (Vector (BitVec 8) w)) := do
  let mem ← AnalogComputationalMemory.new H W n
  let mem ← mapMatrix mem 0 0 (some (m.map some))
  let mem ← queueVector mem (some v) 0
  let r ← Wrapper.aimcProcess mem 0
  let r ← dequeueVector r.1 (some out) 0
  some r.2

/-- On `AnalogComputationalMemory aimc{8}`, with its 4000 x 4000 crossbars. -/
def mvm (m : Vector (Vector (BitVec 8) w) h) (v : Vector (BitVec 8) h) (out : Vector (BitVec 8) w) :
    Option (Option (Vector (BitVec 8) w)) :=
  mvmOn 4000 4000 8 m v out

/-- `out[i] = clamp(sum over j of v[j] * m[j][i], -128, 127)` for every `i`. -/
def IsProduct (m : Vector (Vector (BitVec 8) w) h) (v : Vector (BitVec 8) h) (out : Vector (BitVec 8) w) : Prop :=
  ∀ i : Fin w, (out.get i).toInt =
    clamp (∑ j : Fin h, (v.get j).toInt * ((m.get j).get i).toInt) (-128) 127

/-! ## The column sums -/

theorem columnAcc_eq_sum (t : Tile H W) (i : Fin W) : t.columnAcc i =
    ∑ j : Fin H, (t.inputMemory.get j).toInt * (t.crossbar.get (cellIdx j i)).toInt := by
  have hfold : ∀ (k : Nat) (f : Fin k → Int) (a : Int),
      Fin.foldl k (fun acc j => acc + f j) a = a + ∑ j : Fin k, f j := by
    intro k
    induction k with
    | zero => intro f a; simp
    | succ k ih =>
      intro f a
      rw [Fin.foldl_succ, ih, Fin.sum_univ_succ, add_assoc]
  unfold Tile.columnAcc
  rw [hfold, zero_add]

theorem toInt_ofInt_clamp (a : Int) : (BitVec.ofInt 8 (clamp a (-128) 127)).toInt = clamp a (-128) 127 := by
  have hlo : -128 ≤ clamp a (-128) 127 ∧ clamp a (-128) 127 ≤ 127 := by
    unfold clamp
    split
    · omega
    · split <;> omega
  rw [BitVec.toInt_ofInt, Int.bmod_def]
  omega

/-- A row or column whose word ends strictly inside the memory. -/
def Usable (len k : Nat) : Prop := 4 * (k / 4) + 4 < len

instance (len k : Nat) : Decidable (Usable len k) := inferInstanceAs (Decidable (_ < _))

/-- Column `i` of the product over the usable rows. -/
def usableSum (H : Nat) (m : Vector (Vector (BitVec 8) w) h) (v : Vector (BitVec 8) h) (i : Fin w) : Int :=
  ∑ j : Fin h, if Usable H j then (v.get j).toInt * ((m.get j).get i).toInt else 0

/-- The processed column of a tile that holds the matrix and the queued vector. -/
theorem columnAcc_queued {m : Vector (Vector (BitVec 8) w) h} {v : Vector (BitVec 8) h} {t : Tile H W}
    (hh : h ≤ H) (hw : w ≤ W) (hx : ∀ (y : Fin H) (x : Fin W),
      t.crossbar.get (cellIdx y x) = (blockAt (m.map some) 0 0 y x).getD 0)
    (hq : Queued v 0 ((h + 3) / 4) (Vector.replicate H 0) t.inputMemory) (i : Fin w) :
    t.columnAcc (i.castLE hw) = usableSum H m v i := by
  let f : Nat → Int := fun p => if hp : p < h then
    if Usable H p then (v.get ⟨p, hp⟩).toInt * ((m.get ⟨p, hp⟩).get i).toInt else 0 else 0
  have hterm : ∀ p : Fin H, (t.inputMemory.get p).toInt *
      (t.crossbar.get (cellIdx p (i.castLE hw))).toInt = f p := by
    intro p
    have hin : t.inputMemory.get p =
        if 0 ≤ p.val ∧ p.val < 0 + 4 * ((h + 3) / 4) ∧ 0 + 4 * ((p.val - 0) / 4) + 4 < H
        then pad v (p.val - 0) else (Vector.replicate H 0)[p.val] := hq p p.isLt
    simp only [Nat.zero_le, Nat.zero_add, Nat.sub_zero, true_and, Vector.getElem_replicate] at hin
    by_cases hp : p.val < h
    · have hcell : t.crossbar.get (cellIdx p (i.castLE hw)) = (m.get ⟨p, hp⟩).get i := by
        have hrow : (m.map some).get ⟨p, hp⟩ = some (m.get ⟨p, hp⟩) := Vector.getElem_map _ _
        rw [hx, blockAt_block (m.map some) ⟨p, hp⟩ i (by simp) (by simp), hrow]
        rfl
      simp only [f, dif_pos hp, hcell, hin]
      by_cases hu : Usable H p
      · rw [if_pos ⟨by omega, hu⟩, if_pos hu, pad, dif_pos hp]
        rfl
      · rw [if_neg (fun e => hu e.2), if_neg hu]
        simp
    · have hpad : t.inputMemory.get p = 0 := by
        rw [hin, pad, dif_neg hp]
        exact ite_self _
      simp only [f, dif_neg hp, hpad]
      simp
  calc t.columnAcc (i.castLE hw) = ∑ p : Fin H, f p := by
        rw [columnAcc_eq_sum]
        exact Finset.sum_congr rfl fun p _ => hterm p
    _ = ∑ p ∈ Finset.range H, f p := Fin.sum_univ_eq_sum_range f H
    _ = ∑ p ∈ Finset.range h, f p := by
        refine (Finset.sum_subset (Finset.range_subset_range.mpr hh) fun p _ hp => ?_).symm
        exact dif_neg (by simpa using hp)
    _ = ∑ j : Fin h, f j := (Fin.sum_univ_eq_sum_range f h).symm
    _ = usableSum H m v i := Finset.sum_congr rfl fun j _ => by simp only [f, dif_pos j.isLt]

/-! ## The whole product -/

/-- The vector `mvmOn` computes. -/
def mvmResult (H W : Nat) (m : Vector (Vector (BitVec 8) w) h) (v : Vector (BitVec 8) h) : Vector (BitVec 8) w :=
  Vector.ofFn fun i =>
    if Usable W i then BitVec.ofInt 8 (clamp (usableSum H m v i) (-128) 127) else 0

/-- Processing followed by dequeueing, on any memory. -/
theorem process_dequeue_eq (mem : AnalogComputationalMemory H W n) (hn : 0 < n) (hw : 0 < w)
    (hwW : w ≤ W) (hsmall : W + 7 < 2147483648) (out : Vector (BitVec 8) w) :
    (do let r ← Wrapper.aimcProcess mem 0
        let r ← dequeueVector r.1 (some out) 0
        some r.2) =
      some (some (Vector.ofFn fun i => if Usable W i then
        BitVec.ofInt 8 (clamp (mem[0].columnAcc (i.castLE hwW)) (-128) 127) else 0)) := by
  have hproc := wrapper_aimcProcess_eq mem hn
  have hdeq := dequeueVector_spec (c := 0) (mem.set 0 (coreProcess mem[0])) hn
    (by rw [Vector.getElem_set_self]; rfl) hw (by omega) out
  rw [Nat.cast_zero] at hproc hdeq
  rw [hproc, bind_some_eq, hdeq, bind_some_eq]
  refine congrArg (fun v => some (some v)) (Vector.ext fun i hi => ?_)
  rw [Vector.getElem_ofFn, Vector.getElem_ofFn, Vector.getElem_set_self, coreProcess_eq]
  unfold dequeued
  simp only [Nat.zero_add, Vector.getElem_ofFn]
  rfl

theorem mvm_eq (hfits : W * H < 2147483648) (hH : H + 7 < 2147483648) (hW : W + 7 < 2147483648)
    (hn : 0 < n) (hh : 0 < h) (hhH : h ≤ H) (hw : 0 < w) (hwW : w ≤ W)
    (m : Vector (Vector (BitVec 8) w) h) (v : Vector (BitVec 8) h) (out : Vector (BitVec 8) w) :
    mvmOn H W n m v out = some (some (mvmResult H W m v)) := by
  have hnew : AnalogComputationalMemory.new H W n =
      some (Vector.replicate n (Tile.fresh hfits)) := dif_pos hfits
  obtain ⟨xbar, hmap, hxbar⟩ := mapMatrix_spec 0 0 (by omega) (by omega) hn
    (m.map some) (Vector.replicate n (Tile.fresh hfits)) hh hw
  obtain ⟨mem, hqueue, hmem⟩ := queueVector_spec (c := 0)
    ((Vector.replicate n (Tile.fresh hfits)).set 0
      { (Vector.replicate n (Tile.fresh hfits))[0] with crossbar := xbar }) hn
    (by rw [Vector.getElem_set_self, Vector.getElem_replicate]; rfl) hh (by omega) v
  unfold mvmOn mvmResult
  rw [Nat.cast_zero] at hmap hqueue
  rw [hnew, bind_some_eq, hmap, bind_some_eq, hqueue, bind_some_eq, process_dequeue_eq _ hn hw hwW hW out]
  refine congrArg (fun v => some (some v)) (Vector.ext fun i hi => ?_)
  rw [Vector.getElem_ofFn, Vector.getElem_ofFn, Vector.getElem_set_self]
  rw [columnAcc_queued hhH hwW (m := m) (v := v)]
  · intro y x
    rw [Vector.getElem_set_self, hxbar, Vector.getElem_replicate]
    simp [Tile.fresh, Vector.get]
  · simpa [Tile.fresh] using hmem

/-! ## The checker's crossbar -/

theorem mvm_eq_result (hh : 1 ≤ h ∧ h ≤ 4000) (hw : 1 ≤ w ∧ w ≤ 4000)
    (m : Vector (Vector (BitVec 8) w) h) (v : Vector (BitVec 8) h) (out : Vector (BitVec 8) w) :
    mvm m v out = some (some (mvmResult 4000 4000 m v)) :=
  mvm_eq (by omega) (by omega) (by omega) (by omega) hh.1 hh.2 hw.1 hw.2 m v out

theorem isProduct_mvmResult (hH : ∀ j : Fin h, Usable H j) (hW : ∀ i : Fin w, Usable W i)
    (m : Vector (Vector (BitVec 8) w) h) (v : Vector (BitVec 8) h) : IsProduct m v (mvmResult H W m v) := by
  intro i
  have hsum : usableSum H m v i = ∑ j : Fin h, (v.get j).toInt * ((m.get j).get i).toInt :=
    Finset.sum_congr rfl fun j _ => if_pos (hH j)
  have hget : (mvmResult H W m v).get i =
      BitVec.ofInt 8 (clamp (usableSum H m v i) (-128) 127) := by
    show (mvmResult H W m v)[i.val] = _
    unfold mvmResult
    rw [Vector.getElem_ofFn]
    exact if_pos (hW i)
  rw [hget, toInt_ofInt_clamp, hsum]

/-- A matrix of ones and a unit vector: every element of the product is one. -/
def onesMatrix (h w : Nat) : Vector (Vector (BitVec 8) w) h := Vector.replicate h (Vector.replicate w 1)

def unitVector (h : Nat) (j : Fin h) : Vector (BitVec 8) h := (Vector.replicate h 0).set j 1 j.isLt

theorem unitVector_get (j k : Fin h) : ((unitVector h j).get k).toInt = if k = j then 1 else 0 := by
  show ((Vector.replicate h (0 : BitVec 8)).set j.val 1)[k.val].toInt = _
  rw [Vector.getElem_set]
  by_cases e : k = j
  · subst e; simp
  · rw [if_neg (fun he => e (Fin.ext he.symm)), if_neg e]; simp

theorem onesMatrix_get (j : Fin h) (i : Fin w) : (((onesMatrix h w).get j).get i).toInt = 1 := by
  show ((onesMatrix h w)[j.val])[i.val].toInt = 1
  simp [onesMatrix]

theorem sum_ones_unit (j : Fin h) (i : Fin w) :
    ∑ k : Fin h, ((unitVector h j).get k).toInt * (((onesMatrix h w).get k).get i).toInt = 1 := by
  simp only [unitVector_get, onesMatrix_get, mul_one]
  exact Finset.sum_ite_eq' Finset.univ j _ |>.trans (by simp)

/-- An unusable row is lost: the computed element is zero. -/
theorem not_isProduct_of_row (j : Fin h) (i : Fin w) (hj : ¬ Usable H j) :
    ¬ IsProduct (onesMatrix h w) (unitVector h j) (mvmResult H W (onesMatrix h w) (unitVector h j)) := by
  intro hp
  have hsum : usableSum H (onesMatrix h w) (unitVector h j) i = 0 := by
    refine Finset.sum_eq_zero fun k _ => ?_
    rw [unitVector_get]
    by_cases e : k = j
    · rw [e, if_neg hj]
    · rw [if_neg e, zero_mul, ite_self]
  have hget : (mvmResult H W (onesMatrix h w) (unitVector h j)).get i = 0 := by
    show (mvmResult H W (onesMatrix h w) (unitVector h j))[i.val] = 0
    unfold mvmResult
    rw [Vector.getElem_ofFn, hsum]
    exact ite_self _
  have hi := hp i
  rw [hget, sum_ones_unit] at hi
  exact absurd hi (by decide)

/-- An unusable column is lost too. -/
theorem not_isProduct_of_column (j : Fin h) (i : Fin w) (hi : ¬ Usable W i) :
    ¬ IsProduct (onesMatrix h w) (unitVector h j) (mvmResult H W (onesMatrix h w) (unitVector h j)) := by
  intro hp
  have hget : (mvmResult H W (onesMatrix h w) (unitVector h j)).get i = 0 := by
    show (mvmResult H W (onesMatrix h w) (unitVector h j))[i.val] = 0
    unfold mvmResult
    rw [Vector.getElem_ofFn]
    exact if_neg hi
  have hi := hp i
  rw [hget, sum_ones_unit] at hi
  exact absurd hi (by decide)

/-- **The product is right up to 3996 rows and columns, and only then.** -/
theorem mvm_correct_iff (hh : 1 ≤ h ∧ h ≤ 4000) (hw : 1 ≤ w ∧ w ≤ 4000) :
    (∀ (m : Vector (Vector (BitVec 8) w) h) (v : Vector (BitVec 8) h) (out₀ : Vector (BitVec 8) w),
      ∃ out, mvm m v out₀ = some (some out) ∧ IsProduct m v out) ↔ h ≤ 3996 ∧ w ≤ 3996 := by
  constructor
  · intro hall
    have hones : ∀ j : Fin h, IsProduct (onesMatrix h w) (unitVector h j)
        (mvmResult 4000 4000 (onesMatrix h w) (unitVector h j)) := by
      intro j
      obtain ⟨out, hout, hp⟩ := hall (onesMatrix h w) (unitVector h j) (Vector.replicate w 0)
      rw [mvm_eq_result hh hw] at hout
      cases hout
      exact hp
    refine ⟨?_, ?_⟩
    · refine Nat.le_of_not_lt fun hlt => ?_
      exact not_isProduct_of_row ⟨h - 1, by omega⟩ ⟨0, by omega⟩ (by unfold Usable; simp only; omega)
        (hones _)
    · refine Nat.le_of_not_lt fun hlt => ?_
      exact not_isProduct_of_column ⟨0, by omega⟩ ⟨w - 1, by omega⟩
        (by unfold Usable; simp only; omega) (hones _)
  · rintro ⟨hh', hw'⟩ m v out₀
    refine ⟨_, mvm_eq_result hh hw m v out₀, isProduct_mvmResult ?_ ?_ m v⟩
    · intro j; unfold Usable; omega
    · intro i; unfold Usable; omega

theorem mvm_correct_small :
    ∃ out, mvm #v[#v[1#8, 2#8, 3#8], #v[4#8, 5#8, 100#8]] #v[255#8, 2#8] (Vector.replicate 3 7#8) = some (some out) ∧
      IsProduct #v[#v[1#8, 2#8, 3#8], #v[4#8, 5#8, 100#8]] #v[255#8, 2#8] out :=
  (mvm_correct_iff (h := 2) (w := 3) (by decide) (by decide)).mpr (by decide) _ _ _

/-- A full-height unit vector times a column of ones does not give one. -/
theorem mvm_full_height_wrong :
    ¬ ∃ out, mvm (onesMatrix 4000 1) (unitVector 4000 ⟨3999, by decide⟩) (Vector.replicate 1 0) =
        some (some out) ∧ IsProduct (onesMatrix 4000 1) (unitVector 4000 ⟨3999, by decide⟩) out := by
  rintro ⟨out, hout, hp⟩
  rw [mvm_eq_result (by decide) (by decide)] at hout
  cases hout
  exact not_isProduct_of_row _ ⟨0, by decide⟩ (by decide) hp

end Alpine.Aimc
