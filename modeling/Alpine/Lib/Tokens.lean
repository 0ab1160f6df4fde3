import Mathlib

/-!
# Tokens in a family of lists

A finite family of lists holds tokens; a move takes a token from one list and puts it into another.

* `count` — how often a value stands in the family.
* `count_update` — what replacing one list does to the count.
* `existsUnique_of_count` — a value counted once stands in exactly one place, a list and a position.
* `count_pos_of_mem`, `exists_mem_of_count_pos`, `two_le_count` — a value is counted where it stands.
-/

namespace Alpine.Tokens

variable {ι α : Type} [Fintype ι] [BEq α] {l : ι → List α} {a : α}

def count (l : ι → List α) (a : α) : ℕ := ∑ i, (l i).count a

theorem count_update [DecidableEq ι] (l : ι → List α) (i : ι) (xs : List α) (a : α) :
    count (Function.update l i xs) a + (l i).count a = count l a + xs.count a := by
  unfold count
  rw [← Finset.add_sum_erase _ _ (Finset.mem_univ i), ← Finset.add_sum_erase _ _ (Finset.mem_univ i)]
  have hrest : ∑ j ∈ Finset.univ.erase i, (Function.update l i xs j).count a =
      ∑ j ∈ Finset.univ.erase i, (l j).count a := by
    apply Finset.sum_congr rfl
    intro j hj
    rw [Function.update_of_ne (Finset.ne_of_mem_erase hj)]
  rw [hrest, Function.update_self]
  omega

theorem count_le (l : ι → List α) (i : ι) (a : α) : (l i).count a ≤ count l a :=
  Finset.single_le_sum (f := fun i => (l i).count a) (fun _ _ => Nat.zero_le _) (Finset.mem_univ i)

variable [LawfulBEq α]

theorem count_pos_of_mem {i : ι} (h : a ∈ l i) : 0 < count l a :=
  lt_of_lt_of_le (List.count_pos_iff.2 h) (count_le l i a)

theorem exists_mem_of_count_pos (h : 0 < count l a) : ∃ i, a ∈ l i := by
  by_contra hnone
  have hzero : count l a = 0 :=
    Finset.sum_eq_zero fun i _ => List.count_eq_zero.2 fun hi => hnone ⟨i, hi⟩
  omega

/-- Two lists of the family that both hold a value count it twice. -/
theorem two_le_count [DecidableEq ι] {i j : ι} (hij : i ≠ j) (hi : a ∈ l i) (hj : a ∈ l j) : 2 ≤ count l a := by
  have hsum : (l i).count a + (l j).count a ≤ count l a := by
    rw [← Finset.sum_pair hij (f := fun i => (l i).count a)]
    exact Finset.sum_le_sum_of_subset (Finset.subset_univ _)
  have hi := List.count_pos_iff.2 hi
  have hj := List.count_pos_iff.2 hj
  omega

theorem getElem?_unique : ∀ {xs : List α} {j k : ℕ}, xs.count a ≤ 1 → xs[j]? = some a → xs[k]? = some a → j = k
  | [], _, _, _, hj, _ => by simp at hj
  | x :: xs, 0, 0, _, _, _ => rfl
  | x :: xs, 0, k + 1, h, hj, hk => by
    have hx : x = a := by simpa using hj
    have hmem : a ∈ xs := List.mem_of_getElem? (by simpa using hk)
    have hpos := List.count_pos_iff.2 hmem
    rw [List.count_cons, hx, beq_self_eq_true, if_pos rfl] at h
    omega
  | x :: xs, j + 1, 0, h, hj, hk => by
    have hx : x = a := by simpa using hk
    have hmem : a ∈ xs := List.mem_of_getElem? (by simpa using hj)
    have hpos := List.count_pos_iff.2 hmem
    rw [List.count_cons, hx, beq_self_eq_true, if_pos rfl] at h
    omega
  | x :: xs, j + 1, k + 1, h, hj, hk => by
    rw [List.count_cons] at h
    have hjk : j = k :=
      getElem?_unique (by omega : xs.count a ≤ 1) (by simpa using hj) (by simpa using hk)
    rw [hjk]

/-- **A value counted once stands in exactly one place.** -/
theorem existsUnique_of_count [DecidableEq ι] (h : count l a = 1) : ∃! p : ι × ℕ, (l p.1)[p.2]? = some a := by
  obtain ⟨i, hi⟩ := exists_mem_of_count_pos (by omega : 0 < count l a)
  obtain ⟨k, hk⟩ := List.mem_iff_getElem?.1 hi
  refine ⟨(i, k), hk, ?_⟩
  rintro ⟨j, m⟩ hm
  have hji : j = i := by
    by_contra hji
    have htwo := two_le_count hji (List.mem_of_getElem? hm) hi
    omega
  subst hji
  have hle := count_le l j a
  have hmk : m = k := getElem?_unique (by omega : (l j).count a ≤ 1) hm hk
  rw [hmk]

end Alpine.Tokens
