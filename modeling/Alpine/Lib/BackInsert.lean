import Mathlib.Data.List.DropRight

/-!
# Insertion from the back

A new element of a list passes the elements at the end that it may pass, but never the first one.

* `insertBehind` — the insertion; `insertBehind_cons` — where the element comes to stand.
* `pairwise_insertBehind` — an order that needs the elements passed to come after the new one only.
* `pairwise_insertBehind_iff` — for a transitive order: the list stays in order if and only if the first
  element need not be passed.
-/

namespace Alpine

variable {α : Type} {pass : α → Bool} {R : α → α → Prop} {front x : α} {l : List α}

def insertBehind (pass : α → Bool) (x : α) : List α → List α
  | [] => [x]
  | front :: l => front :: (l.rdropWhile pass ++ x :: l.rtakeWhile pass)

theorem insertBehind_cons (pass : α → Bool) (front x : α) (l : List α) :
    ∃ a b, l = a ++ b ∧ insertBehind pass x (front :: l) = front :: (a ++ x :: b) ∧
      (∀ y ∈ b, pass y = true) ∧ ∀ h : a ≠ [], pass (a.getLast h) = false := by
  refine ⟨l.rdropWhile pass, l.rtakeWhile pass, (List.rdropWhile_append_rtakeWhile ..).symm, rfl, ?_, ?_⟩
  · exact fun y hy => List.mem_rtakeWhile_imp hy
  · exact fun h => Bool.eq_false_iff.2 (List.rdropWhile_last_not pass l h)

theorem perm_insertBehind (pass : α → Bool) (x : α) (l : List α) : (insertBehind pass x l).Perm (x :: l) := by
  cases l with
  | nil => exact .refl _
  | cons front l =>
    obtain ⟨a, b, rfl, h, -, -⟩ := insertBehind_cons pass front x l
    rw [h]
    exact (List.perm_middle.cons front).trans (.swap x front _)

/-- An element between two parts of a list in order. -/
theorem pairwise_between {a b : List α} (h : (a ++ b).Pairwise R) (ha : ∀ y ∈ a, R y x)
    (hb : ∀ y ∈ b, R x y) : (a ++ x :: b).Pairwise R := by
  obtain ⟨hfirst, hsecond, hcross⟩ := List.pairwise_append.1 h
  refine List.pairwise_append.2 ⟨hfirst, List.pairwise_cons.2 ⟨hb, hsecond⟩, fun y hy z hz => ?_⟩
  rcases List.mem_cons.1 hz with rfl | hz
  · exact ha y hy
  · exact hcross y hy z hz

theorem pairwise_insertBehind (h : l.Pairwise R) (hbefore : ∀ y ∈ l, R y x)
    (hafter : ∀ y ∈ l, pass y = true → R x y) : (insertBehind pass x l).Pairwise R := by
  cases l with
  | nil => exact List.pairwise_singleton R x
  | cons front l =>
    obtain ⟨a, b, rfl, hinsert, hpassed, -⟩ := insertBehind_cons pass front x l
    rw [hinsert]
    refine pairwise_between (a := front :: a) h (fun y hy => hbefore y ?_) fun y hy => ?_
    · exact List.mem_append_left b hy
    · exact hafter y (List.mem_append_right (front :: a) hy) (hpassed y hy)

theorem pairwise_insertBehind_iff (htrans : ∀ {a b c}, R a b → R b c → R a c) (h : l.Pairwise R)
    (hpass : ∀ y ∈ l, pass y = true → R x y) (hstay : ∀ y ∈ l, pass y = false ↔ R y x) :
    (insertBehind pass x l).Pairwise R ↔ ∀ y ∈ l.head?, pass y = false := by
  cases l with
  | nil => exact iff_of_true (List.pairwise_singleton R x) fun y hy => by cases hy
  | cons front l =>
    obtain ⟨a, b, rfl, hinsert, hpassed, hlast⟩ := insertBehind_cons pass front x l
    have hall : ∀ y ∈ front :: (a ++ b), y = front ∨ y ∈ a ∨ y ∈ b := fun y hy =>
      (List.mem_cons.1 hy).imp_right List.mem_append.1
    rw [hinsert]
    constructor
    · rintro hsorted y hy
      obtain rfl : front = y := Option.some.inj hy
      exact (hstay front List.mem_cons_self).2 ((List.pairwise_cons.1 hsorted).1 x
        (List.mem_append_right a List.mem_cons_self))
    · intro hfront
      have hx : R front x := (hstay front List.mem_cons_self).1 (hfront front rfl)
      refine pairwise_between (a := front :: a) h (fun y hy => ?_) fun y hy => ?_
      · rcases List.mem_cons.1 hy with rfl | hy
        · exact hx
        · -- the last element of `a` is not passed, and the others are before it
          have hne : a ≠ [] := List.ne_nil_of_mem hy
          have hx : R (a.getLast hne) x := (hstay _ (List.mem_cons_of_mem front
            (List.mem_append_left b (List.getLast_mem hne)))).1 (hlast hne)
          rw [← List.dropLast_append_getLast hne] at hy
          rcases List.mem_append.1 hy with hy | hy
          · have ha : a.Pairwise R := (List.pairwise_append.1 (List.pairwise_cons.1 h).2).1
            rw [← List.dropLast_append_getLast hne] at ha
            exact htrans ((List.pairwise_append.1 ha).2.2 y hy _ (List.mem_singleton.2 rfl)) hx
          · exact List.mem_singleton.1 hy ▸ hx
      · exact hpass y (List.mem_cons_of_mem front (List.mem_append_right a hy)) (hpassed y hy)

end Alpine
