import Alpine.Aimc.Scalar
import Alpine.Aimc.Transfer

/-!
# Scaled transfers (`aimclib/aimc_queue.hh`, `aimclib/aimc_dequeue.hh`)

The overloads of `queueVector` and `dequeueVector` for an element type `T` scale to `int8_t` and back.

* `queueVectorScaled`, `dequeueVectorScaled` as in the source.
* `queueVectorScaled_eq`, `dequeueVectorScaled_spec` — beside the overloads for `int8_t`: the scaled bytes are
  queued, and the dequeued bytes are scaled back without their sign.
* `roundTrip_iff` — what is queued comes back as it should exactly when every element does.
* `scaled_roundTrip_iff` — **rationals come back up to one step exactly when none is negative by a step or
  more, integers exactly when each is the maximum or at most a step.**
-/

namespace Alpine.Aimc

open Check

variable {H W n size : Nat} {T : Type} [Scalar T]

/-- One iteration of the packing loop of the scaled `queueVector`. -/
def queueScaledIter (max : T) (v : Vector T size) (tid : Int)
    (s : AnalogComputationalMemory H W n × BitVec 32) (i : Fin size) :
    Option (AnalogComputationalMemory H W n × BitVec 32) := do
  let s ←
    if i.val % 4 = 0 ∧ 0 < i.val then do
      let r ← Wrapper.aimcQueue s.1 (s.2.setWidth 64) tid
      some (r.1, 0#32)
    else some s
  let scaled_val ← scaledVal max (v.get i)
  some (s.1, s.2 ||| (scaled_val.setWidth 32 <<< (8 * (i.val % 4))))

/-- `queueVector(size, max, v, tid)`. -/
def queueVectorScaled (mem : AnalogComputationalMemory H W n) (max : T) (v : Option (Vector T size)) (tid : Int) :
    Option (AnalogComputationalMemory H W n) :=
  match v with
  | none => some mem
  | some v =>
    if size = 0 ∨ Scalar.isZero max then some mem else do
    let s ← Fin.foldlM size (queueScaledIter max v tid) (mem, 0#32)
    let r ← Wrapper.aimcQueue s.1 (s.2.setWidth 64) tid
    some r.1

/-- One iteration of the unpacking loop of the scaled `dequeueVector`. -/
def dequeueScaledIter (max : T) (tid : Int)
    (s : AnalogComputationalMemory H W n × BitVec 32 × Vector T size) (i : Fin size) :
    Option (AnalogComputationalMemory H W n × BitVec 32 × Vector T size) := do
  let q ← dequeueWord s.1 s.2.1 tid i
  let val ← unscaledVal max (q.2 &&& 0xff#32)
  some (q.1, q.2 >>> 8, s.2.2.set i val i.isLt)

/-- `dequeueVector(size, max, v, tid)`. -/
def dequeueVectorScaled (mem : AnalogComputationalMemory H W n) (max : T) (v : Option (Vector T size)) (tid : Int) :
    Option (AnalogComputationalMemory H W n × Option (Vector T size)) :=
  match v with
  | none => some (mem, none)
  | some v =>
    if size = 0 ∨ Scalar.isZero max then some (mem, some v) else do
    let s ← Fin.foldlM size (dequeueScaledIter max tid) (mem, 0#32, v)
    some (s.1, some s.2.2)

/-! ## Beside the transfers of bytes -/

theorem queueVectorScaled_eq (m : AnalogComputationalMemory H W n) {max : T} (hmax : Scalar.isZero max = false)
    (v : Vector T size) (bytes : Vector (BitVec 8) size)
    (hbytes : ∀ i : Fin size, scaledVal max (v.get i) = some (bytes.get i)) (tid : Int) :
    queueVectorScaled m max (some v) tid = queueVector m (some bytes) tid := by
  have hiter : queueScaledIter (H := H) (W := W) (n := n) max v tid = queueIter bytes tid := by
    funext s i
    unfold queueScaledIter queueIter
    simp only [hbytes i, bind_some_eq]
  simp only [queueVectorScaled, queueVector, hmax, hiter, Bool.false_eq_true, or_false]

theorem mask_byte (w : BitVec 32) : ((w &&& 0xff#32).setWidth 8).setWidth 32 = w &&& 0xff#32 := by
  ext i hi
  simp only [BitVec.getElem_setWidth, BitVec.getLsbD_setWidth, BitVec.getLsbD_and, BitVec.getElem_and]
  rw [BitVec.getLsbD_eq_getElem hi, BitVec.getLsbD_eq_getElem hi, getElem_mask8 hi]
  by_cases h : i < 8
  · simp [h]
  · simp [h]

/-- The same memory and packed value, and the first `i` bytes scaled back. -/
def ScaledBack (max : T) (i : Nat) (s : AnalogComputationalMemory H W n × BitVec 32 × Vector (BitVec 8) size)
    (t : AnalogComputationalMemory H W n × BitVec 32 × Vector T size) : Prop :=
  t.1 = s.1 ∧ t.2.1 = s.2.1 ∧
    ∀ j (hj : j < size), j < i → unscaledVal max (s.2.2[j].setWidth 32) = some t.2.2[j]

theorem scaledBack_iter {max : T} (hdef : ∀ w, (unscaledVal max w).isSome) {tid : Int} (i : Fin size)
    (s s' : AnalogComputationalMemory H W n × BitVec 32 × Vector (BitVec 8) size)
    (t : AnalogComputationalMemory H W n × BitVec 32 × Vector T size) (h : ScaledBack max i s t)
    (hs : dequeueIter tid s i = some s') :
    ∃ t', dequeueScaledIter max tid t i = some t' ∧ ScaledBack max (i + 1) s' t' := by
  obtain ⟨hmem, htmp, hval⟩ := h
  obtain ⟨q, hq, hs⟩ := Option.bind_eq_some_iff.1 hs
  cases hs
  obtain ⟨x, hx⟩ := Option.isSome_iff_exists.1 (hdef (q.2 &&& 0xff#32))
  refine ⟨(q.1, q.2 >>> 8, t.2.2.set i x i.isLt), ?_, rfl, rfl, fun j hj hlt => ?_⟩
  · unfold dequeueScaledIter
    rw [hmem, htmp, hq, bind_some_eq, hx, bind_some_eq]
  · show unscaledVal max (((s.2.2.set i _)[j]).setWidth 32) = some (t.2.2.set i x)[j]
    by_cases e : i.val = j
    · subst e
      rw [Vector.getElem_set_self, Vector.getElem_set_self, mask_byte]
      exact hx
    · rw [Vector.getElem_set_ne _ _ e, Vector.getElem_set_ne _ _ e]
      exact hval j hj (by omega)

/-- A scaled dequeue scales back what a dequeue of bytes returns. -/
theorem dequeueVectorScaled_spec {m m' : AnalogComputationalMemory H W n} {max : T}
    (hmax : Scalar.isZero max = false) (hdef : ∀ w, (unscaledVal max w).isSome) (hsize : 0 < size)
    (v : Vector T size) {out out' : Vector (BitVec 8) size} {tid : Int}
    (hr : dequeueVector m (some out) tid = some (m', some out')) :
    ∃ v', dequeueVectorScaled m max (some v) tid = some (m', some v') ∧
      ∀ i (hi : i < size), unscaledVal max (out'[i].setWidth 32) = some v'[i] := by
  simp only [dequeueVector] at hr
  rw [if_neg (by omega)] at hr
  obtain ⟨s, hs, hr⟩ := Option.bind_eq_some_iff.1 hr
  cases hr
  obtain ⟨t, ht, hmem, -, hval⟩ := Loop.foldlM_sim (t := (m, 0#32, v)) (dequeueIter tid)
    (dequeueScaledIter max tid) (ScaledBack max) ⟨rfl, rfl, fun j _ hlt => absurd hlt (by omega)⟩
    (scaledBack_iter hdef) hs
  refine ⟨t.2.2, ?_, fun i hi => hval i hi hi⟩
  simp only [dequeueVectorScaled]
  rw [if_neg (by simp [hmax]; omega), ht, bind_some_eq, hmem]

/-! ## There and back -/

/-- The values queued at counter `c` are in the output memory from its counter `d` on, in words that a dequeue
returns. -/
def Arrived (size c d : Nat) (inp : Vector (BitVec 8) H) (out : Vector (BitVec 8) W) : Prop :=
  d + 4 * ((size + 3) / 4) < W ∧ ∀ i < size, out[d + i]? = inp[c + i]?

/-- Once the bytes that are queued for `v` have arrived unchanged in the output memory, what is dequeued is as
`kept` says. -/
def RoundTrip (kept : T → T → Prop) (m : AnalogComputationalMemory H W n) {k : Nat} (hk : k < n) (max : T)
    (v : Vector T size) : Prop :=
  ∀ (m1 m2 : AnalogComputationalMemory H W n) (c d : Nat) (out : Vector T size),
    m[k].inputMemoryCounter = c → queueVectorScaled m max (some v) k = some m1 →
    m2[k].outputMemoryCounter = d → Arrived size c d m1[k].inputMemory m2[k].outputMemory →
    ∃ m3 out', dequeueVectorScaled m2 max (some out) k = some (m3, some out') ∧
      ∀ i (hi : i < size), kept out'[i] v[i]

/-- What comes back of an element. -/
def Back (kept : T → T → Prop) (max v : T) : Prop :=
  ∃ b out, scaledVal max v = some b ∧ unscaledVal max (b.setWidth 32) = some out ∧ kept out v

section RoundTrips

variable {m : AnalogComputationalMemory H W n} {k : Nat} {hk : k < n} {c : Nat} {max : T} {v : Vector T size}

theorem queueVectorScaled_bytes (hk : k < n) (hc : m[k].inputMemoryCounter = c) (hin : c + 4 * ((size + 3) / 4) < H)
    (hfit : c + 4 * ((size + 3) / 4) < 2147483648) (hsize : 0 < size) (hmax : Scalar.isZero max = false)
    (bytes : Vector (BitVec 8) size) (hbytes : ∀ i : Fin size, scaledVal max (v.get i) = some (bytes.get i)) :
    ∃ m1, queueVectorScaled m max (some v) k = some m1 ∧
      ∀ i (hi : i < size), m1[k].inputMemory[c + i]? = some bytes[i] := by
  obtain ⟨mem, hmem, hq⟩ := queueVector_spec m hk hc hsize hfit bytes
  refine ⟨_, (queueVectorScaled_eq m hmax v bytes hbytes k).trans hmem, fun i hi => ?_⟩
  rw [Vector.getElem_set_self]
  show mem[c + i]? = _
  rw [Vector.getElem?_eq_getElem (by omega), hq (c + i) (by omega), if_pos ⟨by omega, by omega, by omega⟩,
    Nat.add_sub_cancel_left]
  exact congrArg some (dif_pos hi)

theorem dequeueVector_arrived {m2 : AnalogComputationalMemory H W n} {inp : Vector (BitVec 8) H} {d : Nat}
    (hd : m2[k].outputMemoryCounter = d) (hW : W < 2147483648) (hsize : 0 < size)
    (harr : Arrived size c d inp m2[k].outputMemory) (out : Vector (BitVec 8) size) :
    ∃ m3 out', dequeueVector m2 (some out) k = some (m3, some out') ∧
      ∀ i (hi : i < size), some out'[i] = inp[c + i]? := by
  obtain ⟨hroom, hsame⟩ := harr
  refine ⟨_, _, dequeueVector_spec m2 hk hd hsize (by omega) out, fun i hi => ?_⟩
  rw [← hsame i hi, Vector.getElem_ofFn, Vector.getElem?_eq_getElem (by omega)]
  exact congrArg some (dif_pos (by omega))

/-- The scaled bytes, where they are defined. -/
def scaledBytes (max : T) (v : Vector T size) (h : ∀ i : Fin size, (scaledVal max (v.get i)).isSome) :
    Vector (BitVec 8) size :=
  Vector.ofFn fun i => (scaledVal max (v.get i)).get (h i)

theorem scaledBytes_get (h : ∀ i : Fin size, (scaledVal max (v.get i)).isSome) (i : Fin size) :
    scaledVal max (v.get i) = some ((scaledBytes max v h).get i) := by
  have hget : (scaledBytes max v h).get i = (scaledVal max (v.get i)).get (h i) := by
    rw [Vector.get_eq_getElem, scaledBytes, Vector.getElem_ofFn]
  rw [hget, Option.some_get]

/-- What is dequeued after the bytes have arrived. -/
theorem dequeueVectorScaled_arrived {m1 m2 : AnalogComputationalMemory H W n} {d : Nat}
    (hd : m2[k].outputMemoryCounter = d) (hW : W < 2147483648) (hsize : 0 < size)
    (hmax : Scalar.isZero max = false) (hdef : ∀ w, (unscaledVal max w).isSome) {bytes : Vector (BitVec 8) size}
    (hinp : ∀ i (hi : i < size), m1[k].inputMemory[c + i]? = some bytes[i])
    (harr : Arrived size c d m1[k].inputMemory m2[k].outputMemory) (out : Vector T size) :
    ∃ m3 out', dequeueVectorScaled m2 max (some out) k = some (m3, some out') ∧
      ∀ i (hi : i < size), unscaledVal max (bytes[i].setWidth 32) = some out'[i] := by
  obtain ⟨m3, bytes', hr, hbytes'⟩ := dequeueVector_arrived hd hW hsize harr (Vector.replicate size 0)
  obtain ⟨out', hout', hval⟩ := dequeueVectorScaled_spec hmax hdef hsize out hr
  refine ⟨m3, out', hout', fun i hi => ?_⟩
  have hsame := hbytes' i hi
  rw [hinp i hi] at hsame
  rw [← Option.some.inj hsame]
  exact hval i hi

/-- Bytes can arrive at the start of an output memory with room for them. -/
theorem exists_arrived {m1 : AnalogComputationalMemory H W n} {bytes : Vector (BitVec 8) size} (hk : k < n)
    (hinp : ∀ i (hi : i < size), m1[k].inputMemory[c + i]? = some bytes[i])
    (hout : 4 * ((size + 3) / 4) < W) : ∃ m2 : AnalogComputationalMemory H W n,
      m2[k].outputMemoryCounter = (0 : Nat) ∧ Arrived size c 0 m1[k].inputMemory m2[k].outputMemory := by
  refine ⟨m1.set k { m1[k] with
    outputMemory := Vector.ofFn fun p => (m1[k].inputMemory[c + p.val]?).getD 0
    outputMemoryCounter := (0 : Nat) }, by rw [Vector.getElem_set_self], by omega, fun i hi => ?_⟩
  rw [Vector.getElem_set_self, Nat.zero_add, hinp i hi]
  show (Vector.ofFn _)[i]? = _
  rw [Vector.getElem?_eq_getElem (by omega), Vector.getElem_ofFn, hinp i hi]
  rfl

theorem roundTrip_iff (kept : T → T → Prop) (hc : m[k].inputMemoryCounter = c)
    (hin : c + 4 * ((size + 3) / 4) < H) (hH : H < 2147483648) (hout : 4 * ((size + 3) / 4) < W)
    (hW : W < 2147483648) (hmax : Scalar.isZero max = false) (hdef : ∀ w, (unscaledVal max w).isSome)
    (hscaled : ∀ i : Fin size, (scaledVal max (v.get i)).isSome) :
    RoundTrip kept m hk max v ↔ ∀ i (hi : i < size), Back kept max v[i] := by
  by_cases hsize : size = 0
  · refine iff_of_true ?_ fun i hi => absurd hi (by omega)
    intro m1 m2 c' d out _ _ _ _
    refine ⟨m2, out, ?_, fun i hi => absurd hi (by omega)⟩
    simp only [dequeueVectorScaled]
    rw [if_pos (Or.inl hsize)]
  · obtain ⟨m1, hqueue, hinp⟩ := queueVectorScaled_bytes hk hc hin (by omega) (by omega) hmax
      (scaledBytes max v hscaled) (scaledBytes_get hscaled)
    constructor
    · intro htrip i hi
      obtain ⟨m2, hd, harr⟩ := exists_arrived hk hinp hout
      obtain ⟨m3, out', hr, hkept⟩ := htrip m1 m2 c 0 v hc hqueue hd harr
      obtain ⟨m₃', out'', hr', hback⟩ := dequeueVectorScaled_arrived hd hW (by omega) hmax hdef hinp harr v
      rw [hr] at hr'
      cases hr'
      exact ⟨_, out'[i], scaledBytes_get hscaled ⟨i, hi⟩, hback i hi, hkept i hi⟩
    · intro hall m₁' m2 c' d out hc' hqueue' hd harr
      rw [hqueue] at hqueue'
      cases hqueue'
      obtain rfl : c' = c := by omega
      obtain ⟨m3, out', hr, hback⟩ := dequeueVectorScaled_arrived hd hW (by omega) hmax hdef hinp harr out
      refine ⟨m3, out', hr, fun i hi => ?_⟩
      obtain ⟨b, x, hb, hx, hkept⟩ := hall i hi
      have hbyte := scaledBytes_get hscaled ⟨i, hi⟩
      have hb' : scaledVal max (v.get ⟨i, hi⟩) = some b := hb
      rw [hb'] at hbyte
      have hval := hback i hi
      rw [Option.some.inj hbyte] at hx
      rw [show (scaledBytes max v hscaled)[i] = (scaledBytes max v hscaled).get ⟨i, hi⟩ from rfl, hx] at hval
      rw [← Option.some.inj hval]
      exact hkept

end RoundTrips

section Instances

variable {m : AnalogComputationalMemory H W n} {k c : Nat} {hk : k < n}

/-- The sizes of a crossbar with a cell are `int`s. -/
theorem sizes_lt (t : Tile H W) (hH : 0 < H) (hW : 0 < W) : H < 2147483648 ∧ W < 2147483648 := by
  have hfits := t.fits
  have hle : H ≤ W * H := Nat.le_mul_of_pos_left H hW
  have hle' : W ≤ W * H := Nat.le_mul_of_pos_right W hH
  omega

theorem back_rat {max v : ℚ} (hmax : 0 < max) (hv : |v| ≤ max) : Back (RatKept max) max v ↔ -max < 127 * v := by
  have hb := scaledVal_rat hmax hv
  have hx := unscaledVal_rat max ((BitVec.ofInt 8 (truncate (v / max * 127))).setWidth 32)
  rw [BitVec.toNat_setWidth_of_le (by omega)] at hx
  rw [← ratKept_iff hmax hv]
  constructor
  · rintro ⟨b, out, hb', hx', hkept⟩
    rw [hb] at hb'
    cases hb'
    rw [hx] at hx'
    cases hx'
    exact hkept
  · exact fun hkept => ⟨_, _, hb, hx, hkept⟩

theorem back_int {max v : Int} (hmax : 0 < max) (kept : Int → Int → Prop) :
    Back kept max v ↔ kept (intBack max v) v := by
  have hb := scaledVal_int (v := v) hmax
  have hx := unscaledVal_int max ((BitVec.ofInt 8 (v.tdiv max * 127)).setWidth 32)
  rw [BitVec.toNat_setWidth_of_le (by omega)] at hx
  constructor
  · rintro ⟨b, out, hb', hx', hkept⟩
    rw [hb] at hb'
    cases hb'
    rw [hx] at hx'
    cases hx'
    exact hkept
  · exact fun hkept => ⟨_, _, hb, hx, hkept⟩

theorem rat_roundTrip_iff (hc : m[k].inputMemoryCounter = c) (hin : c + 4 * ((size + 3) / 4) < H)
    (hout : 4 * ((size + 3) / 4) < W) {max : ℚ} (hmax : 0 < max) {v : Vector ℚ size}
    (hv : ∀ i (hi : i < size), |v[i]| ≤ max) :
    RoundTrip (RatKept max) m hk max v ↔ ∀ i (hi : i < size), -max < 127 * v[i] := by
  obtain ⟨hH, hW⟩ := sizes_lt m[k] (by omega) (by omega)
  rw [roundTrip_iff (RatKept max) hc hin hH hout hW (decide_eq_false hmax.ne')
    (fun w => by rw [unscaledVal_rat]; rfl)
    (fun i => by rw [Vector.get_eq_getElem, scaledVal_rat hmax (hv i i.isLt)]; rfl)]
  exact forall_congr' fun i => forall_congr' fun hi => back_rat hmax (hv i hi)

theorem int_roundTrip_iff (kept : Int → Int → Prop) (hc : m[k].inputMemoryCounter = c)
    (hin : c + 4 * ((size + 3) / 4) < H) (hout : 4 * ((size + 3) / 4) < W) {max : Int} (hmax : 0 < max)
    {v : Vector Int size} : RoundTrip kept m hk max v ↔ ∀ i (hi : i < size), kept (intBack max v[i]) v[i] := by
  obtain ⟨hH, hW⟩ := sizes_lt m[k] (by omega) (by omega)
  rw [roundTrip_iff kept hc hin hH hout hW (decide_eq_false hmax.ne')
    (fun w => by rw [unscaledVal_int]; rfl) (fun i => by rw [scaledVal_int hmax]; rfl)]
  exact forall_congr' fun i => forall_congr' fun hi => back_int hmax kept

/-- **Rationals come back up to one step, with their sign, exactly when none is negative by a step or more;
integers come back up to a step and a unit of rounding, with their sign, exactly when each is the maximum or at
most a step**; and without the sign exactly when each is the maximum or at most a step and a unit. -/
theorem scaled_roundTrip_iff (hc : m[k].inputMemoryCounter = c) (hin : c + 4 * ((size + 3) / 4) < H)
    (hout : 4 * ((size + 3) / 4) < W) {max : ℚ} (hmax : 0 < max) {v : Vector ℚ size}
    (hv : ∀ i (hi : i < size), |v[i]| ≤ max) {imax : Int} (himax : 0 < imax) {u : Vector Int size}
    (hu : ∀ i (hi : i < size), |u[i]| ≤ imax) :
    (RoundTrip (RatKept max) m hk max v ↔ ∀ i (hi : i < size), -max < 127 * v[i]) ∧
      (RoundTrip (IntKept imax) m hk imax u ↔ ∀ i (hi : i < size), u[i] = imax ∨ 127 * |u[i]| ≤ imax) ∧
      (RoundTrip (IntClose imax) m hk imax u ↔
        ∀ i (hi : i < size), u[i] = imax ∨ (|u[i]| < imax ∧ 127 * (|u[i]| - 1) ≤ imax)) := by
  refine ⟨rat_roundTrip_iff hc hin hout hmax hv, ?_, ?_⟩
  · rw [int_roundTrip_iff _ hc hin hout himax]
    exact forall_congr' fun i => forall_congr' fun hi => intKept_iff himax (hu i hi)
  · rw [int_roundTrip_iff _ hc hin hout himax]
    exact forall_congr' fun i => forall_congr' fun hi => intClose_iff himax (hu i hi)

end Instances

/-- A positive value and a small negative one. -/
theorem scaled_roundTrip_iff_small :
    RoundTrip (RatKept 200) (Vector.replicate 1 (Tile.fresh (H := 8) (W := 8) (by decide))) (k := 0) (by decide)
      200 #v[150, -1] :=
  (scaled_roundTrip_iff (c := 0) (u := #v[1, 1]) rfl (by decide) (by decide) (by norm_num)
    (fun i hi => by
      rcases (by omega : i = 0 ∨ i = 1) with rfl | rfl
      · norm_num
      · norm_num) (by decide : (0 : Int) < 1) (by decide)).1.2 fun i hi => by
    rcases (by omega : i = 0 ∨ i = 1) with rfl | rfl
    · norm_num
    · norm_num

/-- The minimum comes back positive, and an integer below the maximum as zero. -/
theorem scaled_roundTrip_negative :
    ¬ RoundTrip (RatKept 1) (Vector.replicate 1 (Tile.fresh (H := 4000) (W := 4000) fits_4000)) (k := 0)
        (by decide) 1 #v[-1] ∧
      ¬ RoundTrip (IntClose 10) (Vector.replicate 1 (Tile.fresh (H := 4000) (W := 4000) fits_4000)) (k := 0)
        (by decide) 10 #v[5] := by
  refine ⟨fun h => ?_, fun h => ?_⟩
  · have hall := (rat_roundTrip_iff (c := 0) (by rw [Vector.getElem_replicate]; rfl) (by omega) (by omega)
      (by norm_num) (fun i hi => by
        obtain rfl : i = 0 := by omega
        norm_num)).1 h
    exact absurd (hall 0 (by omega)) (by norm_num)
  · have hall := (int_roundTrip_iff (IntClose 10) (c := 0) (by rw [Vector.getElem_replicate]; rfl) (by omega)
      (by omega) (by norm_num)).1 h
    exact absurd (hall 0 (by omega)) (by unfold IntClose; decide)

end Alpine.Aimc
