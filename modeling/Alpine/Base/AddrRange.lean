import Mathlib

/-!
# Address ranges (`base/addr_range.hh`)

A range of 64-bit addresses, possibly one stripe of an interleaving: of the addresses between `start` and
`stop` it has those whose slice of bits, possibly xored with another slice, is `intlvMatch`.

* `contains`, `intersects`, `mergesWith`, `isSubset`, `size`, `granularity`, `operator<` as in the source;
  a test that the source refuses to make is a panic.
* `Intersects` — what the word means: there is a common address.
* `Apart` — two ranges that are far from each other or different stripes of one interleaving.
-/

namespace Alpine.Base

/-- `bits(val, first, last)`. -/
def bits (val first last : Nat) : Nat := (val >>> last) % 2 ^ (first + 1 - last)

/-- A range that the constructor accepts and whose slices lie within an address. -/
structure AddrRange where
  start : Nat
  stop : Nat
  intlvHighBit : Nat := 0
  xorHighBit : Nat := 0
  intlvBits : Nat := 0
  intlvMatch : Nat := 0
  fits : start < 2 ^ 64 ∧ stop < 2 ^ 64
  slice : intlvBits ≠ 0 → intlvHighBit < 64 ∧ intlvBits ≤ intlvHighBit + 1 ∧ intlvMatch < 2 ^ intlvBits
  xorSlice : intlvBits ≠ 0 → xorHighBit ≠ 0 → xorHighBit < 64 ∧ intlvBits ≤ xorHighBit + 1 ∧
    (xorHighBit + intlvBits ≤ intlvHighBit ∨ intlvHighBit + intlvBits ≤ xorHighBit)

/-- What a test on ranges does when it is not implemented. -/
inductive RangeFault where
  | panic (msg : String)
  | danglingIterator

namespace AddrRange

variable (r r' : AddrRange)

def interleaved : Bool := r.intlvBits ≠ 0

def hashed : Bool := r.interleaved && r.xorHighBit ≠ 0

def size : Nat := ((r.stop + 2 ^ 64 - r.start + 1) % 2 ^ 64) >>> r.intlvBits

def granularity : Nat :=
  if r.interleaved then
    if r.hashed then
      2 ^ min (r.intlvHighBit + 1 - r.intlvBits) (r.xorHighBit + 1 - r.intlvBits)
    else 2 ^ (r.intlvHighBit + 1 - r.intlvBits)
  else r.size

def mergesWith : Bool :=
  r'.start = r.start && r'.stop = r.stop && r'.intlvHighBit = r.intlvHighBit &&
    r'.xorHighBit = r.xorHighBit && r'.intlvBits = r.intlvBits

/-- The bits of an address that select the stripe. -/
def stripe (a : Nat) : Nat :=
  if r.hashed then
    bits a r.intlvHighBit (r.intlvHighBit + 1 - r.intlvBits) ^^^
      bits a r.xorHighBit (r.xorHighBit + 1 - r.intlvBits)
  else bits a r.intlvHighBit (r.intlvHighBit + 1 - r.intlvBits)

def contains (a : Nat) : Bool :=
  let in_range := decide (r.start ≤ a) && decide (a ≤ r.stop)
  if !r.interleaved then in_range else in_range && r.stripe a = r.intlvMatch

def intersects : Except RangeFault Bool :=
  if r.start > r'.stop || r.stop < r'.start then .ok false
  else if !r.interleaved && !r'.interleaved then .ok true
  else if r'.size = 1 then .ok (r.contains r'.start)
  else if r.mergesWith r' then .ok (r.intlvMatch = r'.intlvMatch)
  else .error (.panic "Cannot test intersection of %s and %s\n")

def isSubset : Except RangeFault Bool :=
  if r.interleaved then .error (.panic "Cannot test subset of interleaved range %s\n")
  else if r'.interleaved then
    .ok (r'.contains r.start && r'.contains r.stop && r.size ≤ r'.granularity)
  else .ok (r.start ≥ r'.start && r.stop ≤ r'.stop)

/-- `operator<`. -/
def lt : Bool := if r.start ≠ r'.start then r.start < r'.start else r.intlvMatch < r'.intlvMatch

theorem plain_slice : (0 : Nat) ≠ 0 → 0 < 64 ∧ 0 ≤ 0 + 1 ∧ 0 < 2 ^ 0 := fun h => absurd rfl h

theorem plain_xorSlice : (0 : Nat) ≠ 0 → (0 : Nat) ≠ 0 → 0 < 64 ∧ 0 ≤ 0 + 1 ∧ (0 + 0 ≤ 0 ∨ 0 + 0 ≤ 0) :=
  fun h => absurd rfl h

/-- `RangeSize(a, 1)`. -/
def single (a : Nat) (h : a < 2 ^ 64) : AddrRange where
  start := a
  stop := a
  fits := ⟨h, h⟩
  slice := fun h => absurd rfl h
  xorSlice := fun h => absurd rfl h

/-! ## What ranges are -/

variable {r r'}

/-- There is an address in both. -/
def Intersects (r r' : AddrRange) : Prop := ∃ a, r.contains a = true ∧ r'.contains a = true

theorem Intersects.symm (h : Intersects r r') : Intersects r' r := by
  obtain ⟨a, ha, ha'⟩ := h
  exact ⟨a, ha', ha⟩

theorem between_of_contains {a : Nat} (h : r.contains a = true) : r.start ≤ a ∧ a ≤ r.stop := by
  unfold contains at h
  dsimp only at h
  split at h
  · simpa using h
  · simp only [Bool.and_eq_true, decide_eq_true_eq] at h
    exact h.1

theorem contains_plain {a : Nat} (h : r.interleaved = false) : r.contains a = true ↔ r.start ≤ a ∧ a ≤ r.stop := by
  simp [contains, h]

theorem stripe_of_contains {a : Nat} (hi : r.interleaved = true) (h : r.contains a = true) :
    r.stripe a = r.intlvMatch := by
  simp only [contains, hi, Bool.not_true, Bool.false_eq_true, if_false, Bool.and_eq_true, decide_eq_true_eq] at h
  exact h.2

theorem mergesWith_iff : r.mergesWith r' = true ↔ r'.start = r.start ∧ r'.stop = r.stop ∧
    r'.intlvHighBit = r.intlvHighBit ∧ r'.xorHighBit = r.xorHighBit ∧ r'.intlvBits = r.intlvBits := by
  simp [mergesWith, and_assoc]

theorem interleaved_of_merges (h : r.mergesWith r' = true) : r'.interleaved = r.interleaved := by
  obtain ⟨-, -, -, -, hb⟩ := mergesWith_iff.1 h
  unfold interleaved
  rw [hb]

theorem stripe_of_merges (h : r.mergesWith r' = true) (a : Nat) : r'.stripe a = r.stripe a := by
  obtain ⟨-, -, hh, hx, hb⟩ := mergesWith_iff.1 h
  unfold stripe hashed interleaved
  rw [hh, hx, hb]

theorem mergesWith_symm (h : r.mergesWith r' = true) : r'.mergesWith r = true := by
  obtain ⟨h1, h2, h3, h4, h5⟩ := mergesWith_iff.1 h
  exact mergesWith_iff.2 ⟨h1.symm, h2.symm, h3.symm, h4.symm, h5.symm⟩

theorem mergesWith_trans {r'' : AddrRange} (h : r.mergesWith r' = true) (h' : r'.mergesWith r'' = true) :
    r.mergesWith r'' = true := by
  obtain ⟨h1, h2, h3, h4, h5⟩ := mergesWith_iff.1 h
  obtain ⟨h₁', h₂', h₃', h₄', h₅'⟩ := mergesWith_iff.1 h'
  exact mergesWith_iff.2
    ⟨h₁'.trans h1, h₂'.trans h2, h₃'.trans h3, h₄'.trans h4, h₅'.trans h5⟩

/-- Different stripes of one interleaving. -/
def Stripes (r r' : AddrRange) : Prop :=
  r.mergesWith r' = true ∧ r.interleaved = true ∧ r.intlvMatch ≠ r'.intlvMatch

theorem Stripes.symm (h : Stripes r r') : Stripes r' r :=
  ⟨mergesWith_symm h.1, (interleaved_of_merges h.1).trans h.2.1, h.2.2.symm⟩

/-- Far from each other, or different stripes of one interleaving. -/
def Apart (r r' : AddrRange) : Prop := r.stop < r'.start ∨ r'.stop < r.start ∨ Stripes r r'

theorem Apart.symm (h : Apart r r') : Apart r' r := by
  rcases h with h | h | h
  · exact .inr (.inl h)
  · exact .inl h
  · exact .inr (.inr h.symm)

theorem Apart.not_intersects (h : Apart r r') : ¬ Intersects r r' := by
  rintro ⟨a, ha, ha'⟩
  have hb := between_of_contains ha
  have hb' := between_of_contains ha'
  rcases h with h | h | ⟨hm, hi, hne⟩
  · omega
  · omega
  · have hs := stripe_of_contains hi ha
    have hs' := stripe_of_contains ((interleaved_of_merges hm).trans hi) ha'
    rw [stripe_of_merges hm] at hs'
    exact hne (hs.symm.trans hs')

/-- The range has an address. -/
def Inhabited (r : AddrRange) : Prop := ∃ a, r.contains a = true

theorem Inhabited.valid (h : r.Inhabited) : r.start ≤ r.stop := by
  obtain ⟨a, ha⟩ := h
  have := between_of_contains ha
  omega

theorem size_one_iff (hv : r.start ≤ r.stop) (hi : r.interleaved = false) : r.size = 1 ↔ r.stop = r.start := by
  have hb : r.intlvBits = 0 := by simpa [interleaved] using hi
  have hfits := r.fits
  unfold size
  rw [hb, Nat.shiftRight_zero]
  omega

/-- The test of `r` against `r'` asks for the first address of `r'` only. -/
def TestsOne (r r' : AddrRange) : Prop :=
  r.start ≤ r'.stop ∧ r'.start ≤ r.stop ∧ (r.interleaved = true ∨ r'.interleaved = true) ∧ r'.size = 1

/-- What the test says about ranges that have addresses: it is right, or it is not made. -/
theorem intersects_cases (hr : r.Inhabited) (hr' : r'.Inhabited) (hone : ¬ TestsOne r r') :
    (r.intersects r' = .ok true ∧ Intersects r r') ∨ (r.intersects r' = .ok false ∧ Apart r r') ∨
      ∃ f, r.intersects r' = .error f := by
  have hv := hr.valid
  have hv' := hr'.valid
  unfold intersects
  split
  · rename_i hfar
    simp only [gt_iff_lt, Bool.or_eq_true, decide_eq_true_eq] at hfar
    refine .inr (.inl ⟨rfl, ?_⟩)
    rcases hfar with hfar | hfar
    · exact .inr (.inl hfar)
    · exact .inl hfar
  · rename_i hnear
    simp only [gt_iff_lt, Bool.or_eq_true, decide_eq_true_eq, not_or, Nat.not_lt] at hnear
    split
    · rename_i hplain
      simp only [Bool.and_eq_true, Bool.not_eq_true'] at hplain
      refine .inl ⟨rfl, max r.start r'.start, ?_, ?_⟩
      · exact (contains_plain hplain.1).2 ⟨Nat.le_max_left _ _, Nat.max_le.2 ⟨hv, hnear.2⟩⟩
      · exact (contains_plain hplain.2).2 ⟨Nat.le_max_right _ _, Nat.max_le.2 ⟨hnear.1, hv'⟩⟩
    · rename_i hinter
      split
      · rename_i hsize
        refine absurd ⟨hnear.1, hnear.2, ?_, hsize⟩ hone
        cases hi : r.interleaved with
        | true => exact .inl rfl
        | false => exact .inr (by simpa [hi] using hinter)
      · split
        · rename_i hm
          by_cases hmatch : r.intlvMatch = r'.intlvMatch
          · obtain ⟨a, ha⟩ := hr
            refine .inl ⟨by simp [hmatch], a, ha, ?_⟩
            obtain ⟨h1, h2, -, -, -⟩ := mergesWith_iff.1 hm
            have hstripe := stripe_of_merges hm a
            have hinterl := interleaved_of_merges hm
            unfold contains at ha ⊢
            rw [h1, h2, hstripe, hinterl, ← hmatch]
            exact ha
          · refine .inr (.inl ⟨by simp [hmatch], .inr (.inr ⟨hm, ?_, hmatch⟩)⟩)
            have hinterl := interleaved_of_merges hm
            cases hi : r.interleaved with
            | true => rfl
            | false =>
              rw [hi] at hinterl
              simp [hi, hinterl] at hinter
        · exact .inr (.inr ⟨_, rfl⟩)

theorem single_isSubset {a : Nat} (ha : a < 2 ^ 64) : (single a ha).isSubset r = .ok (r.contains a) := by
  have hplain : (single a ha).interleaved = false := rfl
  have hsize : (single a ha).size = 1 := (size_one_iff (Nat.le_refl a) hplain).2 rfl
  unfold isSubset
  rw [hplain, if_neg Bool.false_ne_true, hsize]
  split
  · rename_i hi
    have hgran : 1 ≤ r.granularity := by
      unfold granularity
      rw [hi, if_pos rfl]
      split
      · exact Nat.one_le_two_pow
      · exact Nat.one_le_two_pow
    show Except.ok (r.contains a && r.contains a && decide (1 ≤ r.granularity)) = _
    rw [Bool.and_self, decide_eq_true hgran, Bool.and_true]
  · rename_i hi
    have hplain' : r.interleaved = false := Bool.eq_false_iff.2 hi
    unfold contains
    rw [hplain']
    rfl

/-! ## The order -/

theorem lt_iff : r.lt r' = true ↔ r.start < r'.start ∨ (r.start = r'.start ∧ r.intlvMatch < r'.intlvMatch) := by
  unfold lt
  split
  · rename_i h
    simp [h]
  · rename_i h
    rw [not_not] at h
    simp [h]

theorem lt_trans' {r'' : AddrRange} (h : r.lt r' = true) (h' : r'.lt r'' = true) : r.lt r'' = true := by
  rw [lt_iff] at h h' ⊢
  omega

end AddrRange

end Alpine.Base
