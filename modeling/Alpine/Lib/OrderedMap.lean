import Mathlib.Data.List.Basic
import Mathlib.Order.Defs.Unbundled

/-!
# Ordered maps

An ordered map with a comparison `r` of the keys, as `std::map` has one: the list of its entries in the order of
iteration.  Two keys are the same if neither comes before the other.

* `assign` — `m[k] = v`; `mem_assign`, `sorted_assign`.
* `filter_of_head` — once the first entry passes a test that holds from some key on, all entries do.
-/

namespace Alpine.OrderedMap

variable {κ β : Type} (r : κ → κ → Prop)

/-- The keys come in order. -/
def Sorted (m : List (κ × β)) : Prop := m.Pairwise fun e e' => r e.1 e'.1

def assign [DecidableRel r] (k : κ) (v : β) : List (κ × β) → List (κ × β)
  | [] => [(k, v)]
  | e :: m => if r k e.1 then (k, v) :: e :: m else if r e.1 k then e :: assign k v m else (k, v) :: m

variable {r} {k : κ} {v : β} {e : κ × β} {m : List (κ × β)}

theorem filter_of_head {p : κ → Bool} (hp : ∀ k k', r k k' → p k = true → p k' = true) (h : Sorted r (e :: m))
    (he : p e.1 = true) : (e :: m).filter (fun e => p e.1) = e :: m := by
  refine List.filter_eq_self.2 fun e' he' => ?_
  rcases List.mem_cons.1 he' with rfl | he'
  · exact he
  · exact hp _ _ (List.rel_of_pairwise_cons h he') he

variable [DecidableRel r]

theorem mem_assign (h : e ∈ assign r k v m) : e = (k, v) ∨ e ∈ m := by
  induction m with
  | nil => exact .inl (List.mem_singleton.1 h)
  | cons e' m ih =>
    unfold assign at h
    split at h
    · exact List.mem_cons.1 h
    · split at h
      · rcases List.mem_cons.1 h with rfl | h
        · exact .inr List.mem_cons_self
        · exact (ih h).imp_right (List.mem_cons_of_mem e')
      · exact (List.mem_cons.1 h).imp_right (List.mem_cons_of_mem e')

theorem sorted_assign [IsStrictTotalOrder κ r] (h : Sorted r m) : Sorted r (assign r k v m) := by
  induction m with
  | nil => exact List.pairwise_singleton _ _
  | cons e m ih =>
    obtain ⟨hhead, htail⟩ := List.pairwise_cons.1 h
    unfold assign
    split
    next hlt =>
      refine List.pairwise_cons.2 ⟨fun e' he' => ?_, h⟩
      rcases List.mem_cons.1 he' with rfl | he'
      · exact hlt
      · exact trans_of r hlt (hhead e' he')
    next hge =>
      split
      next hgt =>
        refine List.pairwise_cons.2 ⟨fun e' he' => ?_, ih htail⟩
        rcases mem_assign he' with rfl | he'
        · exact hgt
        · exact hhead e' he'
      next hle =>
        -- the key of the first entry
        have heq : k = e.1 := ((trichotomous_of r k e.1).resolve_left hge).resolve_right hle
        exact List.pairwise_cons.2 ⟨fun e' he' => heq ▸ hhead e' he', htail⟩

end Alpine.OrderedMap
