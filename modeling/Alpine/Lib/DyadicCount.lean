import Mathlib

/-!
# Counting in dyadic blocks

The numbers `x` with `x / 2 ^ l = j` are the `j`-th block of level `l`; a block of the next level is two
neighbours.  A tree of partial sums keeps for every block how many elements of a set are in it.

* `count_succ`, `count_le` — a block is its two halves, and has room for `2 ^ l` elements.
* `above_left`, `above_right` — the elements above a number, collected from level to level: coming from a left
  half the right one is added.
* `above_top` — at the top these are all elements above it.
-/

namespace Alpine.Dyadic

/-- How many elements of the set are in the `j`-th block of level `l`. -/
def count (S : Finset ℕ) (l j : ℕ) : ℕ := (S.filter fun x => x / 2 ^ l = j).card

/-- How many of the block of `i` are above `i`. -/
def above (S : Finset ℕ) (l i : ℕ) : ℕ := (S.filter fun x => i < x ∧ x / 2 ^ l = i / 2 ^ l).card

variable {S T : Finset ℕ} {l i j : ℕ}

theorem div_pow_succ (x l : ℕ) : x / 2 ^ (l + 1) = x / 2 ^ l / 2 := by
  rw [pow_succ, Nat.div_div_eq_div_mul]

theorem count_eq_zero : count S l j = 0 ↔ ∀ x ∈ S, x / 2 ^ l ≠ j := by
  unfold count
  rw [Finset.card_eq_zero, Finset.filter_eq_empty_iff]

theorem count_congr (h : ∀ x, x / 2 ^ l = j → (x ∈ S ↔ x ∈ T)) : count S l j = count T l j := by
  unfold count
  congr 1
  ext x
  rw [Finset.mem_filter, Finset.mem_filter]
  exact and_congr_left (h x)

theorem count_mono (h : S ⊆ T) (l j : ℕ) : count S l j ≤ count T l j :=
  Finset.card_le_card (Finset.filter_subset_filter _ h)

theorem count_zero (S : Finset ℕ) (j : ℕ) : count S 0 j = if j ∈ S then 1 else 0 := by
  unfold count
  simp only [pow_zero, Nat.div_one]
  rw [Finset.filter_eq']
  split
  · exact Finset.card_singleton j
  · exact Finset.card_empty

theorem count_succ (S : Finset ℕ) (l j : ℕ) : count S (l + 1) j = count S l (2 * j) + count S l (2 * j + 1) := by
  have hdisjoint : Disjoint (S.filter fun x => x / 2 ^ l = 2 * j)
      (S.filter fun x => x / 2 ^ l = 2 * j + 1) := by
    refine Finset.disjoint_filter.2 fun x _ hleft hright => ?_
    omega
  unfold count
  rw [← Finset.card_union_of_disjoint hdisjoint, ← Finset.filter_or]
  congr 1
  ext x
  rw [Finset.mem_filter, Finset.mem_filter, div_pow_succ]
  refine and_congr_right fun _ => ?_
  omega

theorem count_le (S : Finset ℕ) (l : ℕ) : ∀ j, count S l j ≤ 2 ^ l := by
  induction l with
  | zero =>
    intro j
    refine (Finset.card_le_card (t := {j}) fun x hx => ?_).trans (Finset.card_singleton j).le
    have hj := (Finset.mem_filter.1 hx).2
    rw [pow_zero, Nat.div_one] at hj
    exact Finset.mem_singleton.2 hj
  | succ l ih =>
    intro j
    rw [count_succ, pow_succ]
    have hleft := ih (2 * j)
    have hright := ih (2 * j + 1)
    omega

theorem count_succ_eq_zero : count S (l + 1) j = 0 ↔ count S l (2 * j) = 0 ∧ count S l (2 * j + 1) = 0 := by
  rw [count_succ, Nat.add_eq_zero_iff]

theorem count_top (h : ∀ x ∈ S, x < 2 ^ l) : count S l 0 = S.card := by
  unfold count
  rw [Finset.filter_true_of_mem fun x hx => Nat.div_eq_of_lt (h x hx)]

/-! ## The elements above a number -/

theorem above_zero (S : Finset ℕ) (i : ℕ) : above S 0 i = 0 := by
  refine Finset.card_eq_zero.2 (Finset.filter_eq_empty_iff.2 fun x _ hx => ?_)
  rw [pow_zero, Nat.div_one, Nat.div_one] at hx
  omega

/-- Coming from the left, everything on the right is above. -/
theorem above_left (h : i / 2 ^ l % 2 = 0) : above S (l + 1) i = above S l i + count S l (i / 2 ^ l + 1) := by
  have hdisjoint : Disjoint (S.filter fun x => i < x ∧ x / 2 ^ l = i / 2 ^ l)
      (S.filter fun x => x / 2 ^ l = i / 2 ^ l + 1) := by
    refine Finset.disjoint_filter.2 fun x _ hleft hright => ?_
    omega
  unfold above count
  rw [← Finset.card_union_of_disjoint hdisjoint, ← Finset.filter_or]
  congr 1
  ext x
  rw [Finset.mem_filter, Finset.mem_filter, div_pow_succ, div_pow_succ]
  refine and_congr_right fun _ => ?_
  have hle : x ≤ i → x / 2 ^ l ≤ i / 2 ^ l := fun hxi => Nat.div_le_div_right hxi
  omega

/-- Coming from the right, nothing on the left is above. -/
theorem above_right (h : i / 2 ^ l % 2 = 1) : above S (l + 1) i = above S l i := by
  unfold above
  congr 1
  ext x
  rw [Finset.mem_filter, Finset.mem_filter, div_pow_succ, div_pow_succ]
  refine and_congr_right fun _ => ?_
  have hle : i ≤ x → i / 2 ^ l ≤ x / 2 ^ l := fun hix => Nat.div_le_div_right hix
  omega

theorem above_top (h : ∀ x ∈ S, x < 2 ^ l) (hi : i < 2 ^ l) : above S l i = (S.filter fun x => i < x).card := by
  unfold above
  congr 1
  ext x
  rw [Finset.mem_filter, Finset.mem_filter, Nat.div_eq_of_lt hi]
  refine and_congr_right fun hx => and_iff_left (Nat.div_eq_of_lt (h x hx))

end Alpine.Dyadic
