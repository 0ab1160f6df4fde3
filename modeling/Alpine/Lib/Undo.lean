import Mathlib.Data.List.DropRight

/-!
# Undoing operations in flight

A component starts operations and keeps an entry for each, the youngest first.  It takes back the youngest ones, or
settles the oldest ones.  The moment of an entry is the state in which its operation left the component.

* `top` — the moment of the youngest entry, the base if there is none.
* `Chain` — each entry is linked to the moment before it.
* `Chain.undo` — if undoing an entry takes the component back from its moment to the one before it, then undoing the
  youngest entries takes it back to the moment of the youngest one that is left.
* `Chain.append` — the oldest entries can be settled: the moment of the youngest of them is the base of the others.
-/

namespace Alpine.Undo

variable {ε μ σ : Type*} (moment : ε → μ) (Link : μ → ε → Prop) (base : μ)

def top : List ε → μ
  | [] => base
  | e :: _ => moment e

def Chain : List ε → Prop
  | [] => True
  | e :: es => Link (top moment base es) e ∧ Chain es

variable {moment Link base} {es : List ε} {q : ε → Bool}

theorem top_append (xs ys : List ε) : top moment base (xs ++ ys) = top moment (top moment base ys) xs := by
  cases xs with
  | nil => rfl
  | cons x xs => rfl

theorem Chain.dropWhile (h : Chain moment Link base es) : Chain moment Link base (es.dropWhile q) := by
  induction es with
  | nil => exact h
  | cons e es ih =>
    rw [List.dropWhile_cons]
    split
    · exact ih h.2
    · exact h

theorem Chain.append {xs ys : List ε} :
    Chain moment Link base (xs ++ ys) ↔ Chain moment Link (top moment base ys) xs ∧ Chain moment Link base ys := by
  induction xs with
  | nil => exact ⟨fun h => ⟨trivial, h⟩, fun h => h.2⟩
  | cons x xs ih =>
    simp only [List.cons_append, Chain, top_append, ih]
    exact and_assoc.symm

theorem Chain.undo {At : σ → μ → Prop} {Sound : ε → Prop} {undo : σ → ε → σ}
    (hundo : ∀ s m e, Link m e → Sound e → At s (moment e) → At (undo s e) m) {s : σ} (h : Chain moment Link base es)
    (hat : At s (top moment base es)) (hsound : ∀ e ∈ es.takeWhile q, Sound e) :
    At ((es.takeWhile q).foldl undo s) (top moment base (es.dropWhile q)) := by
  induction es generalizing s with
  | nil => exact hat
  | cons e es ih =>
    rw [List.dropWhile_cons]
    by_cases he : q e = true
    · rw [List.takeWhile_cons_of_pos he] at hsound ⊢
      rw [if_pos he, List.foldl_cons]
      exact ih h.2 (hundo _ _ _ h.1 (hsound e List.mem_cons_self) hat)
        fun e' he' => hsound e' (List.mem_cons_of_mem e he')
    · rw [List.takeWhile_cons_of_neg he, if_neg he]
      exact hat

end Alpine.Undo
