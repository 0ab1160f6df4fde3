import Alpine.Aimc.PyCheck
import Alpine.Aimc.Transfer

/-!
# The vector transfers of the Python library (`aimc_queue.py`, `aimc_dequeue.py`)

* `queueVector`, `dequeueVector`, `dequeueNumpyVector` as in the source; an exception is `none`.
* `same_queueVector`, `same_dequeueVector` — beside the C++ functions on equal cores: a vector with elements
  is queued alike, and the dequeued bytes are the same without their sign.
* `transfers_iff` — **the values are the C++ ones exactly when none of them is negative**, those in the NumPy
  array exactly when all of them are zero, and the queued memory exactly when the vector is not empty.
-/

namespace Alpine.Aimc.Py

open Check (AnalogComputationalMemory)

variable {H W n : Nat} {size : Nat}

/-- One iteration of the loop of `queue_vector`: the memory and `tmp`. -/
def queueIter (v : List Int) (tid : Int) (s : PyMemory H W n × Nat) (i : Fin size) :
    Option (PyMemory H W n × Nat) := do
  let s := if i.val % 4 = 0 ∧ 0 < i.val then ((aimcQueue s.1 tid s.2).1, 0) else s
  let x ← v[i.val]?
  -- `(v[i] & 0xff) << (8 * (i % 4))`
  some (s.1, s.2 ||| ((x % 256).toNat <<< (8 * (i.val % 4))))

/-- `queue_vector(size, v, tid)`. -/
def queueVector (mem : PyMemory H W n) (size : Nat) (v : List Int) (tid : Int) : Option (PyMemory H W n) := do
  let s ← Fin.foldlM size (queueIter v tid) (mem, 0)
  some (aimcQueue s.1 tid s.2).1

/-- One iteration of the loop of `dequeue_vector`: the memory, `ptmp` and the list. -/
def dequeueIter (tid : Int) (s : PyMemory H W n × Nat × List Int) (i : Fin size) :
    Option (PyMemory H W n × Nat × List Int) :=
  let r := if i.val % 4 = 0 then aimcDequeue s.1 tid else (s.1, s.2.1)
  if i.val < s.2.2.length then some (r.1, r.2 >>> 8, s.2.2.set i ((r.2 &&& 0xff : Nat) : Int)) else none

/-- `dequeue_vector(size, v, tid)`. -/
def dequeueVector (mem : PyMemory H W n) (size : Nat) (v : List Int) (tid : Int) :
    Option (PyMemory H W n × List Int) := do
  let s ← Fin.foldlM size (dequeueIter tid) (mem, 0, v)
  some (s.1, s.2.2)

/-- `dequeue_numpy_vector(size, tid)`: the loop writes to the list that `tolist` returns. -/
def dequeueNumpyVector (mem : PyMemory H W n) (size : Nat) (tid : Int) :
    Option (PyMemory H W n × Vector (BitVec 8) size) := do
  let v : Vector (BitVec 8) size := Vector.replicate size 0
  let r ← dequeueVector mem size (v.toList.map BitVec.toInt) tid
  some (r.1, v)

/-! ## Queueing -/

theorem shift_toNat (b : BitVec 8) {s : Nat} (hs : s ≤ 24) : (b.setWidth 32 <<< s).toNat = b.toNat <<< s := by
  have hb := b.isLt
  have hlt : b.toNat <<< s < 2 ^ 32 := by
    rw [Nat.shiftLeft_eq]
    calc b.toNat * 2 ^ s < 2 ^ 8 * 2 ^ s := Nat.mul_lt_mul_of_pos_right hb (by positivity)
      _ ≤ 2 ^ 8 * 2 ^ 24 := Nat.mul_le_mul_left _ (Nat.pow_le_pow_right (by omega) hs)
      _ = 2 ^ 32 := by norm_num
  rw [BitVec.toNat_shiftLeft, BitVec.toNat_setWidth, Nat.mod_eq_of_lt (a := b.toNat) (by omega), Nat.mod_eq_of_lt hlt]

/-- `x & 0xff` of a negative number is its byte without sign. -/
theorem toInt_emod (b : BitVec 8) : (b.toInt % 256).toNat = b.toNat := by
  have hb := b.isLt
  rw [BitVec.toInt_eq_toNat_bmod, Int.bmod_def]
  omega

variable {m m' : AnalogComputationalMemory H W n} {tid : Int}

theorem queue_of_wrapper {val : BitVec 32} {w : BitVec 64}
    (h : Check.Wrapper.aimcQueue m (val.setWidth 64) tid = some (m', w)) :
    Check.aimcQueue m tid val = some (m', ()) := by
  have hval : (val.setWidth 64).setWidth 32 = val := by simp
  obtain ⟨⟨m1, u⟩, hm, he⟩ := Option.map_eq_some_iff.1 h
  rw [hval] at hm
  cases he
  exact hm

/-- Equal cores and equal packed values. -/
def SameQueue (s : AnalogComputationalMemory H W n × BitVec 32) (t : PyMemory H W n × Nat) : Prop :=
  SameAll t.1 s.1 ∧ t.2 = s.2.toNat

theorem same_queueIter {v : Vector (BitVec 8) size} (i : Fin size)
    (s s' : AnalogComputationalMemory H W n × BitVec 32) (t : PyMemory H W n × Nat) (h : SameQueue s t)
    (hs : Aimc.queueIter v tid s i = some s') :
    ∃ t', queueIter (v.toList.map BitVec.toInt) tid t i = some t' ∧ SameQueue s' t' := by
  obtain ⟨hmem, htmp⟩ := h
  have hx : (v.toList.map BitVec.toInt)[i.val]? = some (v.get i).toInt := by
    simp [Vector.get]
  have hpacked : ∀ w : BitVec 32, (w ||| ((v.get i).setWidth 32 <<< (8 * (i.val % 4)))).toNat =
      w.toNat ||| (((v.get i).toInt % 256).toNat <<< (8 * (i.val % 4))) := fun w => by
    rw [BitVec.toNat_or, shift_toNat _ (by omega), toInt_emod]
  unfold Aimc.queueIter at hs
  unfold queueIter
  by_cases hword : i.val % 4 = 0 ∧ 0 < i.val
  · rw [if_pos hword] at hs
    obtain ⟨⟨m', w⟩, hq, hs⟩ := Option.bind_eq_some_iff.1 hs
    cases hs
    have hsame := same_aimcQueue hmem (queue_of_wrapper hq)
    refine ⟨((aimcQueue t.1 tid t.2).1, 0 ||| (((v.get i).toInt % 256).toNat <<< (8 * (i.val % 4)))), ?_, ?_, ?_⟩
    · rw [if_pos hword, hx]
      rfl
    · rw [htmp]
      exact hsame
    · rw [hpacked]
      rfl
  · rw [if_neg hword] at hs
    cases hs
    refine ⟨(t.1, t.2 ||| (((v.get i).toInt % 256).toNat <<< (8 * (i.val % 4)))), ?_, hmem, ?_⟩
    · rw [if_neg hword, hx]
      rfl
    · rw [hpacked, htmp]

theorem same_queueVector {p : PyMemory H W n} (h : SameAll p m) (hsize : 0 < size)
    (v : Vector (BitVec 8) size) (hr : Aimc.queueVector m (some v) tid = some m') :
    ∃ p', queueVector p size (v.toList.map BitVec.toInt) tid = some p' ∧ SameAll p' m' := by
  simp only [Aimc.queueVector] at hr
  rw [if_neg (by omega)] at hr
  obtain ⟨s, hs, hr⟩ := Option.bind_eq_some_iff.1 hr
  obtain ⟨⟨m1, w⟩, hq, hr⟩ := Option.bind_eq_some_iff.1 hr
  cases hr
  obtain ⟨t, ht, hmem, htmp⟩ := Loop.foldlM_sim (t := (p, 0)) (Aimc.queueIter v tid)
    (queueIter (v.toList.map BitVec.toInt) tid) (fun _ => SameQueue) ⟨h, rfl⟩ same_queueIter hs
  refine ⟨(aimcQueue t.1 tid t.2).1, ?_, ?_⟩
  · unfold queueVector
    rw [ht]
    rfl
  · rw [htmp]
    exact same_aimcQueue hmem (queue_of_wrapper hq)

/-! ## Dequeueing -/

theorem dequeue_of_wrapper {w : BitVec 64} (h : Check.Wrapper.aimcDequeue m tid = some (m', w)) :
    Check.aimcDequeue m tid = some (m', w.setWidth 32) := by
  obtain ⟨⟨m1, r⟩, hm, he⟩ := Option.map_eq_some_iff.1 h
  cases he
  rw [hm, BitVec.setWidth_setWidth_of_le _ (by omega), BitVec.setWidth_eq]

/-- Equal cores and packed values, and the first `i` values without their sign in a list that is long enough. -/
def SameDequeue (i : Nat) (s : AnalogComputationalMemory H W n × BitVec 32 × Vector (BitVec 8) size)
    (t : PyMemory H W n × Nat × List Int) : Prop :=
  SameAll t.1 s.1 ∧ t.2.1 = s.2.1.toNat ∧ size ≤ t.2.2.length ∧
    ∀ j (hj : j < size), j < i → t.2.2[j]? = some ((s.2.2[j].toNat : Nat) : Int)

theorem same_dequeueWord {i : Nat} {s q : AnalogComputationalMemory H W n × BitVec 32}
    {t : PyMemory H W n × Nat} (hmem : SameAll t.1 s.1) (htmp : t.2 = s.2.toNat)
    (hq : Aimc.dequeueWord s.1 s.2 tid i = some q) : SameAll (if i % 4 = 0 then aimcDequeue t.1 tid else t).1 q.1 ∧
      (if i % 4 = 0 then aimcDequeue t.1 tid else t).2 = q.2.toNat := by
  unfold Aimc.dequeueWord at hq
  by_cases hword : i % 4 = 0
  · rw [if_pos hword] at hq ⊢
    obtain ⟨⟨m', w⟩, hw, he⟩ := Option.map_eq_some_iff.1 hq
    cases he
    exact same_aimcDequeue hmem (dequeue_of_wrapper hw)
  · rw [if_neg hword] at hq ⊢
    cases hq
    exact ⟨hmem, htmp⟩

theorem same_dequeueIter (i : Fin size) (s s' : AnalogComputationalMemory H W n × BitVec 32 × Vector (BitVec 8) size)
    (t : PyMemory H W n × Nat × List Int) (h : SameDequeue i s t) (hs : Aimc.dequeueIter tid s i = some s') :
    ∃ t', dequeueIter tid t i = some t' ∧ SameDequeue (i + 1) s' t' := by
  obtain ⟨hmem, htmp, hlen, hval⟩ := h
  obtain ⟨q, hq, hs⟩ := Option.bind_eq_some_iff.1 hs
  cases hs
  obtain ⟨hmem', htmp'⟩ := same_dequeueWord (s := (s.1, s.2.1)) (t := (t.1, t.2.1)) hmem htmp hq
  refine ⟨_, if_pos (by omega), hmem', ?_, ?_, ?_⟩
  · show _ >>> 8 = (q.2 >>> 8).toNat
    rw [htmp', BitVec.toNat_ushiftRight]
  · show size ≤ (t.2.2.set _ _).length
    rw [List.length_set]
    exact hlen
  · intro j hj hlt
    show (t.2.2.set i _)[j]? = some (((s.2.2.set i _)[j].toNat : Nat) : Int)
    by_cases e : i.val = j
    · subst e
      rw [List.getElem?_set_self (by omega), Vector.getElem_set_self, htmp', BitVec.toNat_setWidth, BitVec.toNat_and]
      have hmask : q.2.toNat &&& 0xff = q.2.toNat % 2 ^ 8 := Nat.and_two_pow_sub_one_eq_mod _ 8
      simp [hmask]
    · rw [List.getElem?_set_ne e, Vector.getElem_set_ne _ _ e]
      exact hval j hj (by omega)

/-- The dequeued bytes of C++ without their sign. -/
theorem same_dequeueVector {p : PyMemory H W n} (h : SameAll p m) {v : List Int} (hlen : size ≤ v.length)
    {out out' : Vector (BitVec 8) size} (hr : Aimc.dequeueVector m (some out) tid = some (m', some out')) :
    ∃ p' v', dequeueVector p size v tid = some (p', v') ∧ SameAll p' m' ∧
      ∀ j (hj : j < size), v'[j]? = some ((out'[j].toNat : Nat) : Int) := by
  simp only [Aimc.dequeueVector] at hr
  by_cases hsize : size = 0
  · rw [if_pos hsize] at hr
    cases hr
    subst hsize
    exact ⟨p, v, by unfold dequeueVector; rw [Fin.foldlM_zero]; rfl, h, fun j hj => absurd hj (by omega)⟩
  · rw [if_neg hsize] at hr
    obtain ⟨s, hs, hr⟩ := Option.bind_eq_some_iff.1 hr
    cases hr
    obtain ⟨t, ht, hmem, -, -, hval⟩ := Loop.foldlM_sim (t := (p, 0, v)) (Aimc.dequeueIter tid)
      (dequeueIter tid) SameDequeue ⟨h, rfl, hlen, fun j _ hlt => absurd hlt (by omega)⟩ same_dequeueIter hs
    refine ⟨t.1, t.2.2, ?_, hmem, fun j hj => hval j hj hj⟩
    unfold dequeueVector
    rw [ht]
    rfl

/-! ## The same values and the same memory -/

/-- Where C++ `dequeueVector` returns, the list starts with the values it has written. -/
def DequeueSame (p : PyMemory H W n) (m : AnalogComputationalMemory H W n) (k size : Nat) (v : List Int) : Prop :=
  ∀ (out out' : Vector (BitVec 8) size) (m' : AnalogComputationalMemory H W n),
    Aimc.dequeueVector m (some out) k = some (m', some out') →
    ∃ p' v', dequeueVector p size v k = some (p', v') ∧ v'.take size = out'.toList.map BitVec.toInt

/-- Where C++ `dequeueVector` returns, the NumPy array has the values it has written. -/
def NumpySame (p : PyMemory H W n) (m : AnalogComputationalMemory H W n) (k size : Nat) : Prop :=
  ∀ (out out' : Vector (BitVec 8) size) (m' : AnalogComputationalMemory H W n),
    Aimc.dequeueVector m (some out) k = some (m', some out') →
    ∃ p', dequeueNumpyVector p size k = some (p', out')

/-- Where C++ `queueVector` returns, input memory and counter are the same. -/
def QueueSame (p : PyMemory H W n) (m : AnalogComputationalMemory H W n) {k : Nat} (hk : k < n)
    (v : Vector (BitVec 8) size) : Prop :=
  ∀ m', Aimc.queueVector m (some v) k = some m' →
    ∃ p', queueVector p size (v.toList.map BitVec.toInt) k = some p' ∧
      p'[k].inputMemory = m'[k].inputMemory ∧ (p'[k].inputMemoryCounter : Int) = m'[k].inputMemoryCounter

/-- All values that a dequeue of `size` values takes from the output memory have a property, unless its counter
overflows in C++. -/
def AllDequeued (P : BitVec 8 → Prop) (p : PyCore H W) (size : Nat) : Prop :=
  p.outputMemoryCounter + 4 * ((size + 3) / 4) < 2147483648 →
    ∀ i < size, P (dequeued p.outputMemory p.outputMemoryCounter i)

section Agreement

variable {p : PyMemory H W n} {m : AnalogComputationalMemory H W n} {k : Nat}

theorem SameAll.at (h : SameAll p m) (hk : k < n) : Same p[k] m[k] :=
  h ⟨k, hk⟩

theorem dequeueVector_returns (h : SameAll p m) (hk : k < n)
    (hfit : p[k].outputMemoryCounter + 4 * ((size + 3) / 4) < 2147483648) (out : Vector (BitVec 8) size) :
    ∃ m' out', Aimc.dequeueVector m (some out) k = some (m', some out') ∧
      ∀ i (hi : i < size), out'[i] = dequeued p[k].outputMemory p[k].outputMemoryCounter i := by
  by_cases hsize : 0 < size
  · have hrun := dequeueVector_spec m hk (h.at hk).outputMemoryCounter.symm hsize hfit out
    refine ⟨_, _, hrun, fun i hi => ?_⟩
    rw [Vector.getElem_ofFn, (h.at hk).outputMemory]
  · refine ⟨m, out, ?_, fun i hi => absurd hi (by omega)⟩
    simp only [Aimc.dequeueVector]
    rw [if_pos (by omega)]

/-- What a C++ call that returns has written. -/
theorem dequeueVector_values (h : SameAll p m) (hk : k < n) {out out' : Vector (BitVec 8) size}
    (hr : Aimc.dequeueVector m (some out) k = some (m', some out')) (i : Nat) (hi : i < size) :
    p[k].outputMemoryCounter + 4 * ((size + 3) / 4) < 2147483648 ∧
      out'[i] = dequeued p[k].outputMemory p[k].outputMemoryCounter i := by
  have hfit := dequeueVector_fits hk (h.at hk).outputMemoryCounter.symm (by omega) hr
  obtain ⟨m'', out'', hrun, hval⟩ := dequeueVector_returns h hk hfit out
  rw [hr] at hrun
  cases hrun
  exact ⟨hfit, hval i hi⟩

theorem toNat_eq_toInt_iff (b : BitVec 8) : ((b.toNat : Nat) : Int) = b.toInt ↔ 0 ≤ b.toInt := by
  have hb := b.isLt
  rw [BitVec.toInt_eq_toNat_bmod, Int.bmod_def]
  omega

theorem dequeueSame_iff (h : SameAll p m) (hk : k < n) {v : List Int} (hlen : size ≤ v.length) :
    DequeueSame p m k size v ↔ AllDequeued (fun b => 0 ≤ b.toInt) p[k] size := by
  constructor
  · intro hsame hfit i hi
    obtain ⟨m', out', hr, hval⟩ := dequeueVector_returns h hk hfit (Vector.replicate size 0)
    obtain ⟨p', v', hpy, hv'⟩ := hsame _ _ _ hr
    obtain ⟨p'', v'', hpy', -, hbyte⟩ := same_dequeueVector h hlen hr
    rw [hpy] at hpy'
    cases hpy'
    have htake : (v'.take size)[i]? = some (out'[i].toInt) := by
      rw [hv']
      simp [hi]
    rw [List.getElem?_take_of_lt hi, hbyte i hi] at htake
    rw [← hval i hi]
    exact (toNat_eq_toInt_iff _).1 (Option.some.inj htake)
  · intro hall out out' m' hr
    obtain ⟨p', v', hpy, -, hbyte⟩ := same_dequeueVector h hlen hr
    refine ⟨p', v', hpy, List.ext_getElem? fun i => ?_⟩
    by_cases hi : i < size
    · obtain ⟨hfit, hval⟩ := dequeueVector_values h hk hr i hi
      rw [List.getElem?_take_of_lt hi, hbyte i hi, (toNat_eq_toInt_iff _).2 (hval ▸ hall hfit i hi)]
      simp [hi]
    · rw [List.getElem?_eq_none (by rw [List.length_take]; omega), List.getElem?_eq_none (by simp; omega)]

/-- The NumPy array stays zero. -/
theorem numpySame_iff (h : SameAll p m) (hk : k < n) :
    NumpySame p m k size ↔ AllDequeued (fun b => b = 0) p[k] size := by
  have hzero : ∀ {p' : PyMemory H W n} {v : Vector (BitVec 8) size},
      dequeueNumpyVector p size k = some (p', v) → v = Vector.replicate size 0 := by
    intro p' v hv
    obtain ⟨r, -, hr⟩ := Option.bind_eq_some_iff.1 hv
    cases hr
    rfl
  constructor
  · intro hsame hfit i hi
    obtain ⟨m', out', hr, hval⟩ := dequeueVector_returns h hk hfit (Vector.replicate size 0)
    obtain ⟨p', hpy⟩ := hsame _ _ _ hr
    rw [← hval i hi, hzero hpy]
    exact Vector.getElem_replicate _
  · intro hall out out' m' hr
    obtain ⟨p', v', hpy, -, -⟩ := same_dequeueVector
      (v := (Vector.replicate size (0 : BitVec 8)).toList.map BitVec.toInt) h (by simp) hr
    have hout : out' = Vector.replicate size 0 := Vector.ext fun i hi => by
      obtain ⟨hfit, hval⟩ := dequeueVector_values h hk hr i hi
      rw [hval, hall hfit i hi, Vector.getElem_replicate]
    refine ⟨p', ?_⟩
    unfold dequeueNumpyVector
    simp only [hpy, hout, bind_some_eq]

theorem aimcQueue_counter (p : PyMemory H W n) (hk : k < n) (val : Nat) :
    (aimcQueue p k val).1[k].inputMemoryCounter = p[k].inputMemoryCounter + 4 := by
  unfold aimcQueue onCore
  rw [dif_pos ⟨by omega, by omega⟩]
  simp only [Int.toNat_natCast, Vector.getElem_set_self]
  rfl

/-- The empty vector is queued as a word of zeros. -/
theorem queueSame_iff (h : SameAll p m) (hk : k < n) (v : Vector (BitVec 8) size) :
    QueueSame p m hk v ↔ 0 < size := by
  constructor
  · intro hsame
    by_contra hsize
    obtain rfl : size = 0 := by omega
    have hcpp : Aimc.queueVector m (some v) k = some m := rfl
    obtain ⟨p', hpy, -, hcounter⟩ := hsame m hcpp
    unfold queueVector at hpy
    rw [Fin.foldlM_zero, pure, Applicative.toPure] at hpy
    cases hpy
    rw [aimcQueue_counter p hk, ← (h.at hk).inputMemoryCounter] at hcounter
    omega
  · intro hsize m' hr
    obtain ⟨p', hpy, hsame⟩ := same_queueVector h hsize v hr
    exact ⟨p', hpy, (hsame.at hk).inputMemory, (hsame.at hk).inputMemoryCounter⟩

/-- **The Python vector transfers do what the C++ ones do exactly when** no dequeued value is negative, all of
them are zero (for the NumPy array), and the queued vector is not empty. -/
theorem transfers_iff (h : SameAll p m) (hk : k < n) {v : List Int} (hlen : size ≤ v.length)
    (w : Vector (BitVec 8) size) : (DequeueSame p m k size v ↔ AllDequeued (fun b => 0 ≤ b.toInt) p[k] size) ∧
      (NumpySame p m k size ↔ AllDequeued (fun b => b = 0) p[k] size) ∧ (QueueSame p m hk w ↔ 0 < size) :=
  ⟨dequeueSame_iff h hk hlen, numpySame_iff h hk, queueSame_iff h hk w⟩

theorem transfers_iff_fresh :
    QueueSame (PyMemory.new 8 8 1) (Vector.replicate 1 (Tile.fresh (H := 8) (W := 8) (by decide))) (k := 0)
      (by decide) #v[1, 255, 3] :=
  (transfers_iff (v := [0, 0, 0]) (sameAll_new rfl) (by decide) (by decide) #v[1, 255, 3]).2.2.2 (by decide)

end Agreement

/-- A core whose output memory is full of the value -1, in both languages. -/
def minusOnes : PyCore 4000 4000 :=
  { PyCore.fresh with outputMemory := Vector.replicate 4000 255 }

def cppMinusOnes : Tile 4000 4000 :=
  { Tile.fresh (H := 4000) (W := 4000) fits_4000 with outputMemory := Vector.replicate 4000 255 }

theorem sameAll_minusOnes : SameAll #v[minusOnes] #v[cppMinusOnes] := by
  intro k
  obtain rfl : k = 0 := Subsingleton.elim _ _
  refine ⟨fun j i => ?_, rfl, rfl, rfl, rfl⟩
  show ((Vector.replicate 4000 (Vector.replicate 4000 (0 : BitVec 8))).get j).get i =
    (Vector.replicate (4000 * 4000) (0 : BitVec 8)).get (cellIdx j i)
  simp only [Vector.get_eq_getElem, Vector.getElem_replicate]

/-- -1 is dequeued as 255, in the NumPy array as 0; the empty vector moves the counter. -/
theorem transfers_differ :
    ¬ DequeueSame #v[minusOnes] #v[cppMinusOnes] 0 1 [0] ∧ ¬ NumpySame #v[minusOnes] #v[cppMinusOnes] 0 1 ∧
      ¬ QueueSame #v[minusOnes] #v[cppMinusOnes] (k := 0) (by decide) (#v[] : Vector (BitVec 8) 0) := by
  have hvalue : dequeued minusOnes.outputMemory minusOnes.outputMemoryCounter 0 = 255 := by
    unfold dequeued
    rw [dif_pos (by decide)]
    exact Vector.getElem_replicate _
  refine ⟨fun h => ?_, fun h => ?_, fun h => ?_⟩
  · have hall := (dequeueSame_iff sameAll_minusOnes (k := 0) (by decide) (by decide)).1 h (by decide) 0 (by decide)
    have hneg : 0 ≤ (dequeued minusOnes.outputMemory minusOnes.outputMemoryCounter 0).toInt := hall
    rw [hvalue] at hneg
    exact absurd hneg (by decide)
  · have hall := (numpySame_iff sameAll_minusOnes (k := 0) (by decide)).1 h (by decide) 0 (by decide)
    have hzero : dequeued minusOnes.outputMemory minusOnes.outputMemoryCounter 0 = 0 := hall
    rw [hvalue] at hzero
    exact absurd hzero (by decide)
  · exact absurd ((queueSame_iff sameAll_minusOnes (k := 0) (by decide) _).1 h) (by decide)

end Alpine.Aimc.Py
