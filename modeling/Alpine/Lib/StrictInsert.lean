import Mathlib.Data.List.Nodup
import Mathlib.Data.List.Sort

/-!
# Strictly sorted lists

Insertion into a list that is strictly sorted by a key, where the key of the new element is not among those
of the list.  Whether the test of the insertion is strict does then not matter.

* `pairwise_orderedInsert` — the list stays strictly sorted.
* `orderedInsert_append` — insertion behind a part of the list.
* `pairwise_unique` — no two elements have the same key.
-/

namespace Alpine

variable {α β : Type} [LinearOrder β] {key : α → β} {l : List α}

/-- The test has to be right for the elements of the list only. -/
theorem pairwise_orderedInsert {r : α → α → Prop} [DecidableRel r] {x : α}
    (h : l.Pairwise fun a b => key a < key b) (hr : ∀ a ∈ l, r x a ↔ key x < key a) (hne : ∀ a ∈ l, key a ≠ key x) :
    (l.orderedInsert r x).Pairwise fun a b => key a < key b := by
  induction l with
  | nil => simp
  | cons a l ih =>
    have hall := List.pairwise_cons.1 h
    rw [List.orderedInsert_cons]
    split
    · rename_i hstop
      have hlt := (hr a List.mem_cons_self).1 hstop
      refine List.pairwise_cons.2 ⟨fun b hb => ?_, h⟩
      rcases List.mem_cons.1 hb with rfl | hb
      · exact hlt
      · exact hlt.trans (hall.1 b hb)
    · rename_i hgo
      have hle : key a < key x := by
        have hnot : ¬ key x < key a := fun hlt => hgo ((hr a List.mem_cons_self).2 hlt)
        exact lt_of_le_of_ne (not_lt.1 hnot) (hne a List.mem_cons_self)
      refine List.pairwise_cons.2 ⟨fun b hb => ?_, ?_⟩
      · rcases (List.mem_orderedInsert r).1 hb with rfl | hb
        · exact hle
        · exact hall.1 b hb
      · exact ih hall.2 (fun b hb => hr b (List.mem_cons_of_mem a hb))
          fun b hb => hne b (List.mem_cons_of_mem a hb)

/-- The elements that do not stop the insertion stay in front. -/
theorem orderedInsert_append {r : α → α → Prop} [DecidableRel r] {x : α} {m : List α}
    (hgo : ∀ a ∈ l, ¬ r x a) : (l ++ m).orderedInsert r x = l ++ m.orderedInsert r x := by
  induction l with
  | nil => rfl
  | cons a l ih =>
    rw [List.cons_append, List.orderedInsert_cons, if_neg (hgo a List.mem_cons_self),
      ih fun b hb => hgo b (List.mem_cons_of_mem a hb)]
    rfl

theorem pairwise_unique (h : l.Pairwise fun a b => key a < key b) {a b : α} (ha : a ∈ l) (hb : b ∈ l)
    (hab : key a = key b) : a = b := by
  have hnodup : (l.map key).Nodup := List.pairwise_map.2 (h.imp fun hlt => hlt.ne)
  exact List.inj_on_of_nodup_map hnodup ha hb hab

end Alpine
