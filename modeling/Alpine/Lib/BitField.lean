import Mathlib.Data.Nat.Bitwise
import Mathlib.Data.Set.Function
import Mathlib.Order.Interval.Set.Defs
import Mathlib.Tactic.Ring

/-!
# A field of bits in a number

A number is a field of `k` bits at position `low` and the rest, which closes up when the field is taken out.

* `field`, `cut`, `splice` — the field, the rest, and the number from both.
* `field_splice`, `cut_splice`, `splice_cut` — numbers are pairs of a field and a rest.
* `field_congr` — another field that does not overlap is a function of the rest.
* `field_block` — a field is a function of the block of any size up to `2 ^ low`; `block_of_short` — a short
  interval has numbers of two blocks only.
* `field_ones`, `field_two_pow` — the field of a number of ones, and of one bit.
* `bijOn_cut` — the numbers whose field, xored with a function of the rest, has a given value correspond to
  their rests; also between two multiples of the size of the field's block.
-/

namespace Alpine.BitField

variable {low k : Nat}

/-- Bits `low`, ..., `low + k - 1`. -/
def field (low k a : Nat) : Nat := a / 2 ^ low % 2 ^ k

/-- The other bits, closed up. -/
def cut (low k a : Nat) : Nat := a / 2 ^ (low + k) * 2 ^ low + a % 2 ^ low

def splice (low k rest f : Nat) : Nat := rest / 2 ^ low * 2 ^ (low + k) + (f * 2 ^ low + rest % 2 ^ low)

theorem field_lt (low k a : Nat) : field low k a < 2 ^ k := Nat.mod_lt _ (Nat.two_pow_pos k)

theorem cut_div (low k a : Nat) : cut low k a / 2 ^ low = a / 2 ^ (low + k) := by
  unfold cut
  rw [Nat.mul_comm, Nat.mul_add_div (Nat.two_pow_pos low), Nat.div_eq_of_lt (Nat.mod_lt _ (Nat.two_pow_pos low)),
    Nat.add_zero]

theorem cut_mod (low k a : Nat) : cut low k a % 2 ^ low = a % 2 ^ low := by
  unfold cut
  rw [Nat.mul_comm, Nat.mul_add_mod, Nat.mod_mod]

theorem low_lt {f r : Nat} (hf : f < 2 ^ k) (hr : r < 2 ^ low) : f * 2 ^ low + r < 2 ^ (low + k) := by
  calc f * 2 ^ low + r < f * 2 ^ low + 2 ^ low := Nat.add_lt_add_left hr _
    _ = (f + 1) * 2 ^ low := by ring
    _ ≤ 2 ^ k * 2 ^ low := Nat.mul_le_mul_right _ hf
    _ = 2 ^ (low + k) := by rw [Nat.pow_add, Nat.mul_comm]

theorem splice_div {rest f : Nat} (hf : f < 2 ^ k) : splice low k rest f / 2 ^ (low + k) = rest / 2 ^ low := by
  have hlt := low_lt hf (Nat.mod_lt rest (Nat.two_pow_pos low))
  unfold splice
  rw [Nat.mul_comm, Nat.mul_add_div (Nat.two_pow_pos _), Nat.div_eq_of_lt hlt, Nat.add_zero]

theorem splice_low (rest f : Nat) : splice low k rest f = 2 ^ low * (rest / 2 ^ low * 2 ^ k + f) + rest % 2 ^ low := by
  unfold splice
  rw [Nat.pow_add]
  ring

theorem field_splice {rest f : Nat} (hf : f < 2 ^ k) : field low k (splice low k rest f) = f := by
  unfold field
  rw [splice_low, Nat.mul_add_div (Nat.two_pow_pos low), Nat.div_eq_of_lt (Nat.mod_lt _ (Nat.two_pow_pos low)),
    Nat.add_zero, Nat.mul_comm, Nat.mul_add_mod, Nat.mod_eq_of_lt hf]

theorem cut_splice {rest f : Nat} (hf : f < 2 ^ k) : cut low k (splice low k rest f) = rest := by
  unfold cut
  rw [splice_div hf, splice_low, Nat.mul_add_mod, Nat.mod_mod, Nat.mul_comm, Nat.div_add_mod]

theorem splice_cut (low k a : Nat) : splice low k (cut low k a) (field low k a) = a := by
  rw [splice_low, cut_div, cut_mod]
  have hhigh : a / 2 ^ (low + k) * 2 ^ k + field low k a = a / 2 ^ low := by
    unfold field
    rw [Nat.pow_add, ← Nat.div_div_eq_div_mul, Nat.mul_comm, Nat.div_add_mod]
  rw [hhigh, Nat.div_add_mod]

theorem eq_of_cut_field {a b : Nat} (hcut : cut low k a = cut low k b) (hfield : field low k a = field low k b) :
    a = b := by
  rw [← splice_cut low k a, ← splice_cut low k b, hcut, hfield]

theorem field_congr {low' k' a b : Nat} (happart : low' + k' ≤ low ∨ low + k ≤ low')
    (hcut : cut low k a = cut low k b) : field low' k' a = field low' k' b := by
  unfold field
  rcases happart with hbelow | habove
  · have hmod : a % 2 ^ low = b % 2 ^ low := by rw [← cut_mod low k a, ← cut_mod low k b, hcut]
    have hfield : ∀ c : Nat, c / 2 ^ low' % 2 ^ k' = c % 2 ^ low / 2 ^ low' % 2 ^ k' := by
      intro c
      obtain ⟨d, rfl⟩ := Nat.exists_eq_add_of_le hbelow
      rw [Nat.add_assoc, Nat.pow_add 2 low', Nat.mod_mul_right_div_self, Nat.pow_add, Nat.mod_mul_right_mod]
    rw [hfield a, hfield b, hmod]
  · have hdiv : a / 2 ^ (low + k) = b / 2 ^ (low + k) := by rw [← cut_div low k a, ← cut_div low k b, hcut]
    obtain ⟨d, rfl⟩ := Nat.exists_eq_add_of_le habove
    rw [Nat.pow_add, ← Nat.div_div_eq_div_mul, ← Nat.div_div_eq_div_mul, hdiv]

/-! ## Blocks -/

theorem field_block {j a b : Nat} (hj : j ≤ low) (h : a / 2 ^ j = b / 2 ^ j) : field low k a = field low k b := by
  obtain ⟨d, rfl⟩ := Nat.exists_eq_add_of_le hj
  unfold field
  rw [Nat.pow_add, ← Nat.div_div_eq_div_mul, ← Nat.div_div_eq_div_mul, h]

/-- An interval of at most `g` numbers meets the blocks of its two ends only. -/
theorem block_of_short {g x y a : Nat} (hx : x ≤ a) (hy : a ≤ y) (hshort : y - x + 1 ≤ g) :
    a / g = x / g ∨ a / g = y / g := by
  have hg : 0 < g := Nat.lt_of_lt_of_le (Nat.succ_pos _) hshort
  by_contra hne
  obtain ⟨hnx, hny⟩ := not_or.1 hne
  have hlow : x / g + 1 ≤ a / g := Nat.lt_of_le_of_ne (Nat.div_le_div_right hx) (Ne.symm hnx)
  have hhigh : a / g + 1 ≤ y / g := Nat.lt_of_le_of_ne (Nat.div_le_div_right hy) hny
  have hend : (x / g + 2) * g ≤ y := by
    calc (x / g + 2) * g ≤ y / g * g := Nat.mul_le_mul_right g (by omega)
      _ ≤ y := Nat.div_mul_le_self y g
  have hstart : x < (x / g + 1) * g := by
    rw [Nat.mul_comm]
    exact Nat.lt_mul_div_succ x hg
  have hsum : (x / g + 2) * g = (x / g + 1) * g + g := by ring
  omega

theorem field_ones {w : Nat} (hlow : low ≤ w) : field low k (2 ^ w - 1) = 2 ^ min (w - low) k - 1 := by
  obtain ⟨d, rfl⟩ := Nat.exists_eq_add_of_le hlow
  unfold field
  rw [← Nat.shiftRight_eq_div_pow, Nat.add_sub_cancel_left]
  refine Nat.eq_of_testBit_eq fun i => ?_
  rw [Nat.testBit_mod_two_pow, Nat.testBit_shiftRight, Nat.testBit_two_pow_sub_one, Nat.testBit_two_pow_sub_one]
  have hiff : (i < k ∧ low + i < low + d) ↔ i < min d k := by omega
  rw [← Bool.decide_and, decide_eq_decide]
  exact hiff

theorem field_two_pow {j : Nat} (hj : low + k ≤ j ∨ j < low) : field low k (2 ^ j) = 0 := by
  unfold field
  rcases hj with habove | hbelow
  · obtain ⟨d, rfl⟩ := Nat.exists_eq_add_of_le habove
    rw [Nat.add_assoc, Nat.pow_add, Nat.mul_div_cancel_left _ (Nat.two_pow_pos low), Nat.pow_add]
    exact Nat.mul_mod_right _ _
  · rw [Nat.div_eq_of_lt (Nat.pow_lt_pow_right (by decide) hbelow), Nat.zero_mod]

/-! ## Stripes -/

theorem bijOn_cut {other : Nat → Nat} {m : Nat} (hm : m < 2 ^ k) (hother : ∀ a, other a < 2 ^ k)
    (hcongr : ∀ a b, cut low k a = cut low k b → other a = other b) :
    Set.BijOn (cut low k) {a | field low k a ^^^ other a = m} Set.univ := by
  refine ⟨fun a _ => Set.mem_univ _, fun a ha b hb hcut => ?_, fun rest _ => ?_⟩
  · have ha : field low k a ^^^ other a = m := ha
    have hb : field low k b ^^^ other b = m := hb
    refine eq_of_cut_field hcut ?_
    rw [hcongr a b hcut, ← hb] at ha
    exact Nat.xor_left_inj.1 ha
  · -- the field that gives the stripe
    have hf : m ^^^ other (splice low k rest 0) < 2 ^ k := Nat.xor_lt_two_pow hm (hother _)
    refine ⟨splice low k rest (m ^^^ other (splice low k rest 0)), ?_, cut_splice hf⟩
    have hsame : other (splice low k rest (m ^^^ other (splice low k rest 0))) =
        other (splice low k rest 0) := by
      apply hcongr
      rw [cut_splice hf, cut_splice (Nat.two_pow_pos k)]
    show field low k _ ^^^ other _ = m
    rw [field_splice hf, hsame, Nat.xor_assoc, Nat.xor_self, Nat.xor_zero]

/-- Whole blocks of numbers have whole blocks of rests. -/
theorem cut_mem_Ico {A B a : Nat} :
    cut low k a ∈ Set.Ico (A * 2 ^ low) (B * 2 ^ low) ↔ a ∈ Set.Ico (A * 2 ^ (low + k)) (B * 2 ^ (low + k)) := by
  rw [Set.mem_Ico, Set.mem_Ico, ← Nat.le_div_iff_mul_le (Nat.two_pow_pos _),
    ← Nat.le_div_iff_mul_le (Nat.two_pow_pos _), ← Nat.div_lt_iff_lt_mul (Nat.two_pow_pos _),
    ← Nat.div_lt_iff_lt_mul (Nat.two_pow_pos _), cut_div]

theorem bijOn_cut_blocks {other : Nat → Nat} {m : Nat} (hm : m < 2 ^ k) (hother : ∀ a, other a < 2 ^ k)
    (hcongr : ∀ a b, cut low k a = cut low k b → other a = other b) (A B : Nat) : Set.BijOn (cut low k)
      {a | a ∈ Set.Ico (A * 2 ^ (low + k)) (B * 2 ^ (low + k)) ∧ field low k a ^^^ other a = m}
      (Set.Ico (A * 2 ^ low) (B * 2 ^ low)) := by
  have hall := bijOn_cut hm hother hcongr
  refine ⟨fun a ha => cut_mem_Ico.2 ha.1, hall.injOn.mono fun a ha => ha.2, fun rest hrest => ?_⟩
  obtain ⟨a, ha, rfl⟩ := hall.surjOn (Set.mem_univ rest)
  exact ⟨a, ⟨cut_mem_Ico.1 hrest, ha⟩, rfl⟩

end Alpine.BitField
