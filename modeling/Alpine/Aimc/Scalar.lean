import Mathlib

/-!
# Scaling to and from `int8_t`

* `Scalar` — the arithmetic that the templates of the C++ library use of their element type `T`, with an
  instance for exact rationals, which stand for the floating point types, and one for a wide signed integer.
* `PyScalar` — the same for the Python library, where a division always gives a `float`.
* `scaledVal` — the element scaled by a maximum, in both languages.
-/

namespace Alpine.Aimc

/-- An operation or conversion without a defined result is `none`. -/
class Scalar (T : Type) where
  /-- `x == 0` -/
  isZero : T → Bool
  div : T → T → Option T
  mul : T → T → Option T
  /-- `constexpr T scale_factor = 127` -/
  scaleFactor : T
  /-- `static_cast<int8_t>(x)` -/
  toInt8 : T → Option (BitVec 8)
  /-- `static_cast<T>(w)` of a `uint32_t` -/
  ofWord : BitVec 32 → T

/-- The value without its fraction. -/
def truncate (x : ℚ) : Int := x.num.tdiv x.den

/-- A floating point value that does not fit an `int8_t` has no defined conversion to it. -/
instance : Scalar ℚ where
  isZero x := decide (x = 0)
  div x y := if y = 0 then none else some (x / y)
  mul x y := some (x * y)
  scaleFactor := 127
  toInt8 x := if -128 ≤ truncate x ∧ truncate x ≤ 127 then some (BitVec.ofInt 8 (truncate x)) else none
  ofWord w := (w.toNat : ℚ)

/-- The division of integers truncates, and a conversion to `int8_t` keeps the low bits. -/
instance : Scalar Int where
  isZero x := decide (x = 0)
  div x y := if y = 0 then none else some (x.tdiv y)
  mul x y := some (x * y)
  scaleFactor := 127
  toInt8 x := some (BitVec.ofInt 8 x)
  ofWord w := (w.toNat : Int)

/-- `static_cast<int8_t>((v / max) * scale_factor)`. -/
def scaledVal {T : Type} [Scalar T] (max v : T) : Option (BitVec 8) := do
  let q ← Scalar.div v max
  let p ← Scalar.mul q Scalar.scaleFactor
  Scalar.toInt8 p

/-- `(static_cast<T>(w) / scale_factor) * max`. -/
def unscaledVal {T : Type} [Scalar T] (max : T) (w : BitVec 32) : Option T := do
  let q ← Scalar.div (Scalar.ofWord w) Scalar.scaleFactor
  Scalar.mul q max

/-- An exception is `none`. -/
class PyScalar (T : Type) (F : outParam Type) where
  truediv : T → T → Option F
  /-- `x * 127` -/
  mul127 : F → F
  /-- `int(x)` -/
  int : F → Option Int

instance : PyScalar ℚ ℚ where
  truediv x y := if y = 0 then none else some (x / y)
  mul127 x := x * 127
  int x := some (truncate x)

/-- `int(v / max_val * 127)`. -/
def Py.scaledVal {T F : Type} [PyScalar T F] (max_val v : T) : Option Int := do
  let q ← PyScalar.truediv v max_val
  PyScalar.int T (PyScalar.mul127 T q)

/-! ## Truncation -/

theorem truncate_of_nonneg {x : ℚ} (h : 0 ≤ x) : truncate x = ⌊x⌋ := by
  unfold truncate
  rw [Int.tdiv_eq_ediv_of_nonneg (Rat.num_nonneg.2 h), Rat.floor_def']

theorem truncate_neg (x : ℚ) : truncate (-x) = -truncate x := by
  unfold truncate
  rw [Rat.neg_num, Rat.neg_den, Int.neg_tdiv]

theorem truncate_mem {x : ℚ} (h : 0 ≤ x) (hle : x ≤ 127) : 0 ≤ truncate x ∧ truncate x ≤ 127 := by
  rw [truncate_of_nonneg h]
  refine ⟨Int.floor_nonneg.2 h, ?_⟩
  have hfloor := Int.floor_le_floor hle
  simpa using hfloor

/-- The byte of a small integer, read without sign. -/
theorem toNat_ofInt8 {z : Int} (hlo : -128 ≤ z) (hhi : z ≤ 127) :
    (((BitVec.ofInt 8 z).toNat : Nat) : Int) = if 0 ≤ z then z else z + 256 := by
  rw [BitVec.toNat_ofInt]
  split <;> omega

/-! ## Rationals -/

section Rational

variable {max v : ℚ}

theorem abs_scaled_le (hmax : 0 < max) (hv : |v| ≤ max) : |v / max * 127| ≤ 127 := by
  have hq : |v| / max ≤ 1 := (div_le_one hmax).2 hv
  rw [abs_mul, abs_div, abs_of_pos hmax, abs_of_pos (by norm_num : (0 : ℚ) < 127)]
  linarith

theorem truncate_scaled (hmax : 0 < max) (hv : |v| ≤ max) :
    -127 ≤ truncate (v / max * 127) ∧ truncate (v / max * 127) ≤ 127 := by
  obtain ⟨hlo, hhi⟩ := abs_le.1 (abs_scaled_le hmax hv)
  rcases le_total 0 (v / max * 127) with hpos | hneg
  · have hbound := truncate_mem hpos hhi
    omega
  · have hbound := truncate_mem (x := -(v / max * 127)) (by linarith) (by linarith)
    rw [truncate_neg] at hbound
    omega

theorem scaledVal_rat (hmax : 0 < max) (hv : |v| ≤ max) :
    scaledVal max v = some (BitVec.ofInt 8 (truncate (v / max * 127))) := by
  have hbound := truncate_scaled hmax hv
  show (if max = 0 then none else some (v / max)).bind (fun q => (some (q * 127)).bind _) = _
  rw [if_neg hmax.ne', Option.bind_some, Option.bind_some]
  exact if_pos ⟨by omega, hbound.2⟩

theorem unscaledVal_rat (max : ℚ) (w : BitVec 32) : unscaledVal max w = some ((w.toNat : ℚ) / 127 * max) := by
  show (if (127 : ℚ) = 0 then none else some ((w.toNat : ℚ) / 127)).bind (fun q => some (q * max)) = _
  rw [if_neg (by norm_num), Option.bind_some]

/-- At most one quantisation step from the value, and of its sign if the value is larger than a step. -/
def RatKept (max out v : ℚ) : Prop :=
  |out - v| ≤ max / 127 ∧ (max / 127 < |v| → 0 < out * v)

/-- In units of a step, what is left of `y` after its fraction is cut. -/
theorem ratKept_step {y z : ℚ} (hmax : 0 < max) (hle : z ≤ y) (hlt : y < z + 1) (hsign : 1 < |y| → 0 < z * y) :
    RatKept max (z / 127 * max) (y / 127 * max) := by
  have hstep : 0 < max / 127 := by positivity
  constructor
  · have hdiff : z / 127 * max - y / 127 * max = -((y - z) * (max / 127)) := by ring
    rw [hdiff, abs_neg, abs_of_nonneg (mul_nonneg (by linarith) hstep.le)]
    exact mul_le_of_le_one_left hstep.le (by linarith)
  · intro hlarge
    have habs : |y / 127 * max| = |y| * (max / 127) := by
      rw [show y / 127 * max = y * (max / 127) by ring, abs_mul, abs_of_pos hstep]
    rw [habs] at hlarge
    have hy : 1 < |y| := by
      by_contra hy
      have hle := mul_le_mul_of_nonneg_right (not_lt.1 hy) hstep.le
      linarith
    have hprod : z / 127 * max * (y / 127 * max) = z * y * (max / 127 * (max / 127)) := by ring
    rw [hprod]
    exact mul_pos (hsign hy) (mul_pos hstep hstep)

theorem scaled_back (hmax : 0 < max) : v / max * 127 / 127 * max = v := by
  field_simp

/-- A value that is not negative loses its fraction of a step. -/
theorem ratKept_of_nonneg (hmax : 0 < max) (hv : |v| ≤ max) (hpos : 0 ≤ v) :
    RatKept max (((BitVec.ofInt 8 (truncate (v / max * 127))).toNat : ℚ) / 127 * max) v := by
  have hy : 0 ≤ v / max * 127 := by positivity
  obtain ⟨hlo, hhi⟩ := truncate_mem hy (abs_le.1 (abs_scaled_le hmax hv)).2
  have hbyte := toNat_ofInt8 (z := truncate (v / max * 127)) (by omega) hhi
  rw [if_pos hlo, truncate_of_nonneg hy] at hbyte
  have hcast : ((BitVec.ofInt 8 ⌊v / max * 127⌋).toNat : ℚ) = (⌊v / max * 127⌋ : ℚ) := by
    exact_mod_cast hbyte
  rw [truncate_of_nonneg hy, hcast]
  have hkept := ratKept_step (z := (⌊v / max * 127⌋ : ℚ)) hmax (Int.floor_le _) (Int.lt_floor_add_one _)
    (fun hlarge => by
      rw [abs_of_nonneg hy] at hlarge
      have hone : 1 ≤ ⌊v / max * 127⌋ := Int.le_floor.2 (by push_cast; linarith)
      have hone' : (1 : ℚ) ≤ (⌊v / max * 127⌋ : ℚ) := by exact_mod_cast hone
      exact mul_pos (by linarith) (by linarith))
  rw [scaled_back hmax] at hkept
  exact hkept

theorem truncate_negative (hmax : 0 < max) (hneg : v ≤ 0) : truncate (v / max * 127) = -⌊-v / max * 127⌋ := by
  have hx : 0 ≤ -v / max * 127 := by
    have hnv : 0 ≤ -v := by linarith
    positivity
  rw [show v / max * 127 = -(-v / max * 127) by ring, truncate_neg, truncate_of_nonneg hx]

/-- A negative value below one step is lost. -/
theorem ratKept_of_small (hmax : 0 < max) (hneg : v < 0) (hsmall : -max < 127 * v) :
    RatKept max (((BitVec.ofInt 8 (truncate (v / max * 127))).toNat : ℚ) / 127 * max) v := by
  have hx : 0 ≤ -v / max * 127 := by
    have hnv : 0 ≤ -v := by linarith
    positivity
  have hlt : -v / max * 127 < 1 := by
    rw [div_mul_eq_mul_div, div_lt_one hmax]
    linarith
  have hzero : ⌊-v / max * 127⌋ = 0 := Int.floor_eq_zero_iff.2 ⟨hx, hlt⟩
  rw [truncate_negative hmax hneg.le, hzero]
  have hbyte : (BitVec.ofInt 8 (-0)).toNat = 0 := by decide
  rw [hbyte]
  have hstep : |v| < max / 127 := by
    rw [abs_of_neg hneg]
    linarith
  constructor
  · rw [Nat.cast_zero, zero_div, zero_mul, zero_sub, abs_neg]
    exact hstep.le
  · intro hlarge
    exact absurd hlarge (not_lt.2 hstep.le)

/-- A negative value of a step or more comes back positive. -/
theorem not_ratKept (hmax : 0 < max) (hv : |v| ≤ max) (hlarge : 127 * v ≤ -max) :
    ¬ RatKept max (((BitVec.ofInt 8 (truncate (v / max * 127))).toNat : ℚ) / 127 * max) v := by
  have hneg : v < 0 := by linarith
  have hbound := truncate_scaled hmax hv
  have hone : 1 ≤ ⌊-v / max * 127⌋ := by
    refine Int.le_floor.2 ?_
    rw [div_mul_eq_mul_div, Int.cast_one, one_le_div hmax]
    linarith
  have hz := truncate_negative hmax hneg.le
  have hbyte := toNat_ofInt8 (z := truncate (v / max * 127)) (by omega) hbound.2
  rw [if_neg (by omega)] at hbyte
  have hbig : 129 ≤ (BitVec.ofInt 8 (truncate (v / max * 127))).toNat := by omega
  have hcast : (129 : ℚ) ≤ ((BitVec.ofInt 8 (truncate (v / max * 127))).toNat : ℚ) := by exact_mod_cast hbig
  have hout : max < ((BitVec.ofInt 8 (truncate (v / max * 127))).toNat : ℚ) / 127 * max := by
    have hone : 1 < ((BitVec.ofInt 8 (truncate (v / max * 127))).toNat : ℚ) / 127 := by
      rw [one_lt_div (by norm_num)]
      linarith
    exact lt_mul_of_one_lt_left hmax hone
  rintro ⟨hclose, _⟩
  have hle := (abs_le.1 hclose).2
  linarith

/-- A scaled value comes back exactly when it is not negative by a step or more. -/
theorem ratKept_iff (hmax : 0 < max) (hv : |v| ≤ max) :
    RatKept max (((BitVec.ofInt 8 (truncate (v / max * 127))).toNat : ℚ) / 127 * max) v ↔ -max < 127 * v := by
  constructor
  · intro h
    by_contra hlarge
    exact not_ratKept hmax hv (not_lt.1 hlarge) h
  · intro h
    rcases le_or_gt 0 v with hpos | hneg
    · exact ratKept_of_nonneg hmax hv hpos
    · exact ratKept_of_small hmax hneg h

end Rational

/-! ## Integers -/

section Integer

variable {max v : Int}

/-- The integer nearest to zero of what is left of the value: `max`, `-max` or zero. -/
theorem scaledVal_int (hmax : 0 < max) : scaledVal max v = some (BitVec.ofInt 8 (v.tdiv max * 127)) := by
  show (if max = 0 then none else some (v.tdiv max)).bind (fun q => (some (q * 127)).bind _) = _
  rw [if_neg hmax.ne', Option.bind_some, Option.bind_some]
  rfl

theorem unscaledVal_int (max : Int) (w : BitVec 32) : unscaledVal max w = some ((w.toNat : Int).tdiv 127 * max) := by
  show (if (127 : Int) = 0 then none else some ((w.toNat : Int).tdiv 127)).bind (fun q => some (q * max)) = _
  rw [if_neg (by norm_num), Option.bind_some]

/-- At most one quantisation step and one unit of rounding from the value. -/
def IntClose (max out v : Int) : Prop :=
  127 * (|out - v| - 1) ≤ max

/-- And of its sign if the value is larger than a step. -/
def IntKept (max out v : Int) : Prop :=
  IntClose max out v ∧ (max < 127 * |v| → 0 < out * v)

/-- What comes back of `v`. -/
def intBack (max v : Int) : Int :=
  ((BitVec.ofInt 8 (v.tdiv max * 127)).toNat : Int).tdiv 127 * max

theorem intBack_max (hmax : 0 < max) : intBack max max = max := by
  unfold intBack
  rw [Int.tdiv_self hmax.ne']
  norm_num

theorem intBack_neg_max (hmax : 0 < max) : intBack max (-max) = max := by
  have hone : ((BitVec.ofInt 8 (-1 * 127)).toNat : Int).tdiv 127 = 1 := by decide
  unfold intBack
  rw [Int.neg_tdiv, Int.tdiv_self hmax.ne', hone, one_mul]

theorem intBack_small (hlt : |v| < max) : intBack max v = 0 := by
  have hzero : v.tdiv max = 0 := by
    rcases le_total 0 v with hpos | hneg
    · rw [abs_of_nonneg hpos] at hlt
      exact Int.tdiv_eq_zero_of_lt hpos hlt
    · rw [abs_of_nonpos hneg] at hlt
      rw [← neg_neg v, Int.neg_tdiv, Int.tdiv_eq_zero_of_lt (by omega) hlt, neg_zero]
  unfold intBack
  rw [hzero]
  norm_num

/-- What comes back of a value is the maximum, or zero. -/
theorem intBack_cases (hmax : 0 < max) (hv : |v| ≤ max) :
    (v = max ∧ intBack max v = max) ∨ (v = -max ∧ intBack max v = max) ∨ (|v| < max ∧ intBack max v = 0) := by
  rcases hv.lt_or_eq with hlt | heq
  · exact Or.inr (Or.inr ⟨hlt, intBack_small hlt⟩)
  · rcases (abs_eq hmax.le).1 heq with rfl | rfl
    · exact Or.inl ⟨rfl, intBack_max hmax⟩
    · exact Or.inr (Or.inl ⟨rfl, intBack_neg_max hmax⟩)

theorem intClose_iff (hmax : 0 < max) (hv : |v| ≤ max) :
    IntClose max (intBack max v) v ↔ v = max ∨ (|v| < max ∧ 127 * (|v| - 1) ≤ max) := by
  unfold IntClose
  rcases intBack_cases hmax hv with ⟨rfl, hback⟩ | ⟨rfl, hback⟩ | ⟨hlt, hback⟩
  · rw [hback, sub_self, abs_zero]
    exact iff_of_true (by omega) (Or.inl rfl)
  · rw [hback, abs_neg, abs_of_pos hmax, sub_neg_eq_add, abs_of_pos (by omega)]
    refine iff_of_false (by omega) ?_
    rintro (h | ⟨h, _⟩)
    · omega
    · omega
  · rw [hback, zero_sub, abs_neg]
    refine ⟨fun h => Or.inr ⟨hlt, h⟩, ?_⟩
    rintro (rfl | ⟨_, h⟩)
    · rw [abs_of_pos hmax] at hlt
      omega
    · exact h

theorem intKept_iff (hmax : 0 < max) (hv : |v| ≤ max) :
    IntKept max (intBack max v) v ↔ v = max ∨ 127 * |v| ≤ max := by
  unfold IntKept
  rw [intClose_iff hmax hv]
  rcases intBack_cases hmax hv with ⟨rfl, hback⟩ | ⟨rfl, hback⟩ | ⟨hlt, hback⟩
  · rw [hback]
    exact iff_of_true ⟨Or.inl rfl, fun _ => mul_pos hmax hmax⟩ (Or.inl rfl)
  · rw [abs_neg, abs_of_pos hmax]
    refine iff_of_false ?_ (by omega)
    rintro ⟨h | ⟨h, _⟩, _⟩
    · omega
    · omega
  · rw [hback, zero_mul]
    have hne : v ≠ max := by
      rintro rfl
      rw [abs_of_pos hmax] at hlt
      omega
    constructor
    · rintro ⟨_, hsign⟩
      by_contra h
      exact absurd (hsign (by omega)) (lt_irrefl 0)
    · intro h
      have hsmall := h.resolve_left hne
      exact ⟨Or.inr ⟨hlt, by omega⟩, fun hlarge => absurd hlarge (by omega)⟩

end Integer

end Alpine.Aimc
