import Mathlib.Data.List.Forall2

/-!
# Queues that keep the order within each class

What goes into a system and what comes out of it or waits in it, where each item has a key: the items of
one key come out in the order in which they went in, each of them once.  `R a b` says that `b` is what has
become of `a`.

* `InOrder` — for each key the outgoing items correspond, one by one, to those that went in.
* `InOrder.insert` — new items are placed before waiting ones of other keys.
* `InOrder.reorder` — items of different keys change places.
* `InOrder.trans` — the outgoing items change.
-/

namespace Alpine.ClassFifo

open List

variable {α κ : Type} [DecidableEq κ] {key : α → κ} {R : α → α → Prop} {added new out out' rest : List α}

/-- The items with one key. -/
def class_ (key : α → κ) (k : κ) (xs : List α) : List α := xs.filter fun x => key x = k

def InOrder (key : α → κ) (R : α → α → Prop) (added out : List α) : Prop :=
  ∀ k, Forall₂ R (class_ key k added) (class_ key k out)

theorem class_append (k : κ) (xs ys : List α) :
    class_ key k (xs ++ ys) = class_ key k xs ++ class_ key k ys := List.filter_append xs ys

theorem class_cons (k : κ) (x : α) (xs : List α) :
    class_ key k (x :: xs) = class_ key k [x] ++ class_ key k xs := class_append k [x] xs

theorem class_eq_nil {k : κ} {l : List α} (h : ∀ x ∈ l, key x ≠ k) : class_ key k l = [] :=
  List.filter_eq_nil_iff.2 fun x hx hk => h x hx (of_decide_eq_true hk)

/-- Corresponding lists correspond in each class. -/
theorem forall₂_class (hkey : ∀ a b, R a b → key b = key a) {xs ys : List α} (h : Forall₂ R xs ys)
    (k : κ) : Forall₂ R (class_ key k xs) (class_ key k ys) := by
  refine List.rel_filter (fun a b hab => ?_) h
  show decide (key a = k) = true ↔ decide (key b = k) = true
  rw [hkey a b hab]

theorem exists_of_forall₂ {xs ys : List α} (h : Forall₂ R xs ys) : ∀ y ∈ ys, ∃ x ∈ xs, R x y := by
  induction h with
  | nil => exact fun y hy => absurd hy List.not_mem_nil
  | @cons x z xs ys hxz _ ih =>
    intro y hy
    rcases List.mem_cons.1 hy with rfl | hy
    · exact ⟨x, List.mem_cons_self, hxz⟩
    · obtain ⟨x', hx', hx'y⟩ := ih y hy
      exact ⟨x', List.mem_cons_of_mem x hx', hx'y⟩

theorem InOrder.nil : InOrder key R [] [] := fun _ => .nil

theorem InOrder.reorder (h : InOrder key R added out) (hout : ∀ k, class_ key k out' = class_ key k out) :
    InOrder key R added out' := fun k => hout k ▸ h k

theorem InOrder.insert (hkey : ∀ a b, R a b → key b = key a) (h : InOrder key R added (out ++ rest))
    (hnew : Forall₂ R new out') (hother : ∀ x ∈ out', ∀ y ∈ rest, key x ≠ key y) :
    InOrder key R (added ++ new) (out ++ (out' ++ rest)) := by
  intro k
  have hk := h k
  have hnewk := forall₂_class hkey hnew k
  rw [class_append] at hk
  rw [class_append, class_append, class_append]
  by_cases hmem : ∃ x ∈ out', key x = k
  · obtain ⟨x, hx, rfl⟩ := hmem
    have hrest : class_ key (key x) rest = [] := class_eq_nil fun y hy => (hother x hx y hy).symm
    rw [hrest, List.append_nil] at hk ⊢
    exact List.rel_append hk hnewk
  · have hnone : class_ key k out' = [] := class_eq_nil fun x hx hk => hmem ⟨x, hx, hk⟩
    rw [hnone] at hnewk ⊢
    rw [List.forall₂_nil_right_iff.1 hnewk, List.append_nil]
    exact hk

theorem forall₂_trans (htrans : ∀ a b c, R a b → R b c → R a c) : ∀ {xs ys zs : List α},
    Forall₂ R xs ys → Forall₂ R ys zs → Forall₂ R xs zs
  | [], [], [], .nil, .nil => .nil
  | _ :: _, _ :: _, _ :: _, .cons hab h, .cons hbc h' =>
    .cons (htrans _ _ _ hab hbc) (forall₂_trans htrans h h')

theorem InOrder.trans (hkey : ∀ a b, R a b → key b = key a) (htrans : ∀ a b c, R a b → R b c → R a c)
    (h : InOrder key R added out) (hout : Forall₂ R out out') : InOrder key R added out' :=
  fun k => forall₂_trans htrans (h k) (forall₂_class hkey hout k)

end Alpine.ClassFifo
