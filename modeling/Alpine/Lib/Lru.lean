import Mathlib

/-!
# LRU caches and the stack property

A fully associative LRU cache of `c` entries, as the list of its keys, most recently used first.

* `lruAccess`, `lruRun` — one access, and the contents and hits after a sequence of accesses.
* `recency` — all keys of a sequence, most recently used first.
* `lruRun_eq_take` — the stack property: the cache of `c` entries holds the first `c` of them, so that a larger
  cache holds what a smaller one holds.
-/

namespace Alpine

variable {α : Type} [DecidableEq α]

/-- One access: the new contents and whether it is a hit. -/
def lruAccess (c : Nat) (l : List α) (a : α) : List α × Bool :=
  if a ∈ l then (a :: l.erase a, true) else ((a :: l).take c, false)

/-- The contents and the number of hits after a sequence of accesses, from empty. -/
def lruRun (c : Nat) (as : List α) : List α × Nat :=
  as.foldl (fun q a => ((lruAccess c q.1 a).1, q.2 + (lruAccess c q.1 a).2.toNat)) ([], 0)

theorem lruRun_concat (c : Nat) (as : List α) (a : α) : lruRun c (as ++ [a]) =
    ((lruAccess c (lruRun c as).1 a).1, (lruRun c as).2 + (lruAccess c (lruRun c as).1 a).2.toNat) := by
  unfold lruRun
  rw [List.foldl_append]
  rfl

theorem lruRun_hit {c : Nat} {as : List α} {a : α} (ha : a ∈ (lruRun c as).1) :
    lruRun c (as ++ [a]) = (a :: (lruRun c as).1.erase a, (lruRun c as).2 + 1) := by
  rw [lruRun_concat]
  simp [lruAccess, ha]

theorem lruRun_hit_idx {c q : Nat} {as : List α} {a : α} (hnodup : (lruRun c as).1.Nodup)
    (ha : (lruRun c as).1[q]? = some a) : (lruRun c (as ++ [a])).1 = a :: (lruRun c as).1.eraseIdx q := by
  obtain ⟨hq, rfl⟩ := List.getElem?_eq_some_iff.1 ha
  rw [lruRun_hit (List.getElem_mem hq), hnodup.erase_getElem]

theorem lruRun_miss {c : Nat} {as : List α} {a : α} (ha : a ∉ (lruRun c as).1) :
    lruRun c (as ++ [a]) = ((a :: (lruRun c as).1).take c, (lruRun c as).2) := by
  rw [lruRun_concat]
  simp [lruAccess, ha]

/-- The keys of a sequence, most recently used first. -/
def recency (as : List α) : List α := as.foldl (fun R a => a :: R.erase a) []

theorem recency_concat (as : List α) (a : α) : recency (as ++ [a]) = a :: (recency as).erase a := by
  unfold recency
  rw [List.foldl_append]
  rfl

theorem take_erase_of_not_mem {a : α} : ∀ {R : List α} {c : Nat}, a ∉ R.take (c + 1) → (R.erase a).take c = R.take c
  | [], _, _ => rfl
  | x :: R, 0, _ => by rw [List.take_zero, List.take_zero]
  | x :: R, c + 1, h => by
    rw [List.take_succ_cons, List.mem_cons, not_or] at h
    rw [List.erase_cons_tail (by simpa using Ne.symm h.1), List.take_succ_cons, List.take_succ_cons,
      take_erase_of_not_mem h.2]

theorem take_erase_of_mem {a : α} : ∀ {R : List α} {c : Nat}, a ∈ R.take (c + 1) →
    (R.erase a).take c = (R.take (c + 1)).erase a
  | x :: R, c, h => by
    by_cases hx : x = a
    · subst hx
      rw [List.erase_cons_head, List.take_succ_cons, List.erase_cons_head]
    · rw [List.take_succ_cons, List.mem_cons] at h
      have hmem := h.resolve_left fun e => hx e.symm
      cases c with
      | zero => exact absurd hmem (by simp)
      | succ c =>
        rw [List.erase_cons_tail (by simpa using hx), List.take_succ_cons, List.take_succ_cons,
          List.erase_cons_tail (by simpa using hx), take_erase_of_mem hmem]

theorem lruAccess_take (c : Nat) (R : List α) (a : α) : (lruAccess c (R.take c) a).1 = (a :: R.erase a).take c := by
  unfold lruAccess
  cases c with
  | zero => simp
  | succ c =>
    split
    · rename_i h
      rw [List.take_succ_cons, take_erase_of_mem h]
    · rename_i h
      rw [List.take_succ_cons, List.take_succ_cons, List.take_take, take_erase_of_not_mem h,
        Nat.min_eq_left (Nat.le_succ c)]

theorem lruRun_eq_take (c : Nat) (as : List α) : (lruRun c as).1 = (recency as).take c := by
  induction as using List.reverseRecOn with
  | nil => simp [lruRun, recency]
  | append_singleton as a ih => rw [lruRun_concat, recency_concat, ih, lruAccess_take]

/-- A larger cache holds what a smaller one holds, in the same order. -/
theorem lruRun_take {c c' : Nat} (h : c ≤ c') (as : List α) : (lruRun c as).1 = (lruRun c' as).1.take c := by
  rw [lruRun_eq_take, lruRun_eq_take, List.take_take, Nat.min_eq_left h]

end Alpine
