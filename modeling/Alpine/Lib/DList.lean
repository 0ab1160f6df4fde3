import Mathlib
import Alpine.Lib.Chain

/-!
# Doubly linked lists in a heap

`Links α` are the two pointer fields of the nodes `α` and the two ends of a list.  `Linked l L` says that the
list runs through the nodes of `L`: along `next` from the head, and along `prev` from the tail.

* `moveToHead`, `moveToTail` — take a node out and put it at an end, with the pointer writes that an intrusive
  list does; following a null pointer is `none`.
* `flip` — the list read from the other end; `moveToTail` is `moveToHead` of the flipped list.
* `Linked.moveToHead`, `Linked.moveToTail` — on a list without repetition the moves return, and the node is
  first, or last, among the others in their old order.
* `Linked.next_eq`, `Linked.prev_eq` — the fields by position; `linked_of_getElem` — the converse.
-/

namespace Alpine

structure Links (α : Type) where
  next : α → Option α
  prev : α → Option α
  head : α
  tail : α

namespace Links

variable {α : Type} [DecidableEq α]

def flip (l : Links α) : Links α := ⟨l.prev, l.next, l.tail, l.head⟩

/-- Take a node that is not the head out of the list. -/
def unlink (l : Links α) (b : α) : Option (Links α) :=
  if b = l.tail then
    if l.next b = none then do
      let a ← l.prev b
      some { l with tail := a, next := Function.update l.next a none }
    else none
  else do
    let a ← l.prev b
    let c ← l.next b
    some { l with next := Function.update l.next a (l.next b), prev := Function.update l.prev c (l.prev b) }

/-- Put a node before the head. -/
def pushFront (l : Links α) (b : α) : Links α :=
  { l with
    next := Function.update l.next b (some l.head)
    prev := Function.update (Function.update l.prev b none) l.head (some b)
    head := b }

def moveToHead (l : Links α) (b : α) : Option (Links α) :=
  if b = l.head then some l else (l.unlink b).map (·.pushFront b)

/-- Take a node that is not the tail out of the list. -/
def unlinkLast (l : Links α) (b : α) : Option (Links α) :=
  if b = l.head then
    if l.prev b = none then do
      let a ← l.next b
      some { l with head := a, prev := Function.update l.prev a none }
    else none
  else do
    let a ← l.next b
    let c ← l.prev b
    some { l with prev := Function.update l.prev a (l.prev b), next := Function.update l.next c (l.next b) }

/-- Put a node after the tail. -/
def pushBack (l : Links α) (b : α) : Links α :=
  { l with
    prev := Function.update l.prev b (some l.tail)
    next := Function.update (Function.update l.next b none) l.tail (some b)
    tail := b }

def moveToTail (l : Links α) (b : α) : Option (Links α) :=
  if b = l.tail then some l else (l.unlinkLast b).map (·.pushBack b)

/-! ## Lists -/

structure Linked (l : Links α) (L : List α) : Prop where
  forth : Chain l.next (some l.head) L none
  back : Chain l.prev (some l.tail) L.reverse none

variable {l : Links α} {L : List α} {b : α}

omit [DecidableEq α] in
theorem Linked.flip (h : Linked l L) : Linked l.flip L.reverse :=
  ⟨h.back, by rw [List.reverse_reverse]; exact h.forth⟩

omit [DecidableEq α] in
theorem Linked.head_eq (h : Linked l L) : L.head? = some l.head := h.forth.head_eq.symm

omit [DecidableEq α] in
theorem Linked.tail_eq (h : Linked l L) : L.getLast? = some l.tail := by
  rw [List.getLast?_eq_head?_reverse]
  exact h.back.head_eq.symm

theorem moveToTail_eq (l : Links α) (b : α) : l.moveToTail b = (l.flip.moveToHead b).map flip := by
  unfold moveToTail moveToHead
  split
  · rename_i h
    rw [if_pos (show b = l.flip.head from h)]
    rfl
  · rename_i h
    rw [if_neg (show ¬ b = l.flip.head from h)]
    have hunlink : l.unlinkLast b = (l.flip.unlink b).map flip := by
      unfold unlinkLast unlink
      by_cases hb : b = l.head
      · rw [if_pos hb, if_pos (show b = l.flip.tail from hb)]
        cases hn : l.next b <;> by_cases hp : l.prev b = none <;> simp [flip, hn, hp]
      · rw [if_neg hb, if_neg (show ¬ b = l.flip.tail from hb)]
        cases hn : l.next b <;> cases hp : l.prev b <;> simp [flip, hn, hp]
    rw [hunlink]
    cases l.flip.unlink b with
    | none => rfl
    | some l' => rfl

omit [DecidableEq α] in
theorem last_ne {A B : List α} {c : α} (hnodup : (A ++ b :: c :: B).Nodup) :
    (A ++ b :: c :: B).getLast? ≠ some b := by
  intro h
  rw [List.getLast?_append_cons, List.getLast?_cons_cons] at h
  have hmem := List.mem_of_getLast? h
  exact (List.nodup_cons.1 (List.nodup_append.1 hnodup).2.1).1 hmem

/-- A node that is not first is taken out. -/
theorem Linked.unlink {A B : List α} (h : Linked l (A ++ b :: B)) (hnodup : (A ++ b :: B).Nodup)
    (hA : A ≠ []) : ∃ l', l.unlink b = some l' ∧ l'.head = l.head ∧ Linked l' (A ++ B) := by
  obtain ⟨A, a, rfl⟩ : ∃ A' a, A = A' ++ [a] :=
    ⟨A.dropLast, A.getLast hA, (List.dropLast_append_getLast hA).symm⟩
  have hnodup' : (A ++ [a] ++ B).Nodup := hnodup.sublist (by simp)
  have hback := h.back
  rw [List.reverse_append, List.reverse_cons, List.append_assoc] at hback
  obtain ⟨m, hB, hm, hb⟩ := chain_append.1 hback
  obtain rfl : m = some b := hm
  change Chain l.prev (l.prev b) (A ++ [a]).reverse none at hb
  rw [List.reverse_concat] at hb
  obtain ⟨hprev, hA0⟩ := hb
  obtain ⟨m, hforth, hm, hnext⟩ := chain_append.1 h.forth
  obtain rfl : m = some b := hm
  have haA : a ∉ A := by
    have := (List.nodup_append.1 (List.nodup_append.1 hnodup').1).2.2
    intro hmem
    exact this a hmem a List.mem_cons_self rfl
  unfold Links.unlink
  cases B with
  | nil =>
    have htail : b = l.tail := by simpa [Chain] using hB.symm
    rw [if_pos htail, if_pos (show l.next b = none from hnext), hprev]
    refine ⟨_, rfl, rfl, ?_, ?_⟩
    · rw [List.append_nil]
      refine hforth.relink (fun x hx => Function.update_of_ne ?_ _ _) (Function.update_self _ _ _)
      rintro rfl
      exact haA hx
    · rw [List.append_nil, List.reverse_concat]
      exact ⟨rfl, hA0⟩
  | cons c B =>
    have htail : ¬ b = l.tail := fun e => last_ne hnodup (e ▸ h.tail_eq)
    rw [if_neg htail, hprev, hnext.1]
    refine ⟨_, rfl, rfl, ?_, ?_⟩
    · refine h.forth.skip List.getLast?_concat hnodup' (fun x hx => Function.update_of_ne hx _ _) ?_
      exact (Function.update_self _ _ _).trans hnext.1.symm
    · have hrev : (A ++ [a] ++ b :: c :: B).reverse = (c :: B).reverse ++ b :: (A ++ [a]).reverse := by simp
      rw [List.reverse_append]
      refine (hrev ▸ h.back).skip (a := c) (by simp) ?_ (fun x hx => Function.update_of_ne hx _ _) ?_
      · rw [← List.reverse_append]
        exact List.nodup_reverse.2 hnodup'
      · exact (Function.update_self _ _ _).trans hprev.symm

theorem Linked.pushFront (h : Linked l L) (hb : b ∉ L) (hnodup : L.Nodup) : Linked (l.pushFront b) (b :: L) := by
  have hhead := h.head_eq
  obtain ⟨L, rfl⟩ : ∃ L', L = l.head :: L' := by
    cases L with
    | nil => cases hhead
    | cons c L =>
      cases hhead
      exact ⟨L, rfl⟩
  have hne : l.head ≠ b := fun e => hb (e ▸ List.mem_cons_self)
  refine ⟨⟨rfl, ?_⟩, ?_⟩
  · show Chain (Function.update l.next b _) (Function.update l.next b (some l.head) b) _ _
    rw [Function.update_self]
    refine h.forth.congr fun x hx => Function.update_of_ne ?_ _ _
    rintro rfl
    exact hb hx
  · have hback := h.back
    rw [List.reverse_cons] at hback ⊢
    rw [List.reverse_cons, chain_snoc]
    constructor
    · refine hback.relink (fun x hx => ?_) (Function.update_self _ _ _)
      have hxL : x ∈ L := List.mem_reverse.1 hx
      have hxh : x ≠ l.head := by
        rintro rfl
        exact (List.nodup_cons.1 hnodup).1 hxL
      have hxb : x ≠ b := by
        rintro rfl
        exact hb (List.mem_cons_of_mem _ hxL)
      show Function.update (Function.update l.prev b none) l.head (some b) x = l.prev x
      rw [Function.update_of_ne hxh, Function.update_of_ne hxb]
    · show Function.update (Function.update l.prev b none) l.head (some b) b = none
      rw [Function.update_of_ne hne.symm, Function.update_self]

/-- **A node of the list becomes its head.** -/
theorem Linked.moveToHead {q : Nat} (h : Linked l L) (hnodup : L.Nodup) (hb : L[q]? = some b) :
    ∃ l', l.moveToHead b = some l' ∧ Linked l' (b :: L.eraseIdx q) := by
  obtain ⟨hq, hbq⟩ := List.getElem?_eq_some_iff.1 hb
  have hL : L = L.take q ++ b :: L.drop (q + 1) := by
    rw [← hbq, List.getElem_cons_drop, List.take_append_drop]
  rw [List.eraseIdx_eq_take_drop_succ]
  unfold Links.moveToHead
  cases q with
  | zero =>
    have hhead : b = l.head := by
      have := h.head_eq
      rw [hL] at this
      simpa using this
    rw [if_pos hhead]
    refine ⟨l, rfl, ?_⟩
    rw [List.take_zero, List.nil_append] at hL ⊢
    exact hL ▸ h
  | succ q =>
    have hA : L.take (q + 1) ≠ [] := by
      rw [Ne, List.take_eq_nil_iff]
      rintro (e | rfl)
      · cases e
      · cases hb
    rw [hL] at h hnodup
    have hne : ¬ b = l.head := by
      have hhead := h.head_eq
      rw [List.head?_append_of_ne_nil _ hA] at hhead
      rintro rfl
      exact (List.nodup_append.1 hnodup).2.2 _ (List.mem_of_mem_head? hhead) _ List.mem_cons_self rfl
    rw [if_neg hne]
    obtain ⟨l', hl', hhead, hlinked⟩ := h.unlink hnodup hA
    rw [hl']
    refine ⟨_, rfl, hlinked.pushFront ?_ ?_⟩
    · exact (List.nodup_middle.1 hnodup |> List.nodup_cons.1).1
    · exact (List.nodup_middle.1 hnodup |> List.nodup_cons.1).2

/-- **A node of the list becomes its tail.** -/
theorem Linked.moveToTail {q : Nat} (h : Linked l L) (hnodup : L.Nodup) (hb : L[q]? = some b) :
    ∃ l', l.moveToTail b = some l' ∧ Linked l' (L.eraseIdx q ++ [b]) := by
  obtain ⟨hq, hbq⟩ := List.getElem?_eq_some_iff.1 hb
  have hrev : L.reverse[L.length - 1 - q]? = some b := by
    rw [List.getElem?_reverse (by omega)]
    rw [show L.length - 1 - (L.length - 1 - q) = q from by omega]
    exact hb
  obtain ⟨l', hl', hlinked⟩ := h.flip.moveToHead (List.nodup_reverse.2 hnodup) hrev
  refine ⟨l'.flip, by rw [moveToTail_eq, hl']; rfl, ?_⟩
  have herase : (L.reverse.eraseIdx (L.length - 1 - q)).reverse = L.eraseIdx q := by
    rw [List.eraseIdx_eq_take_drop_succ, List.eraseIdx_eq_take_drop_succ, List.take_reverse,
      List.drop_reverse, ← List.reverse_append, List.reverse_reverse]
    congr 2 <;> omega
  have hflip := hlinked.flip
  rw [List.reverse_cons, herase] at hflip
  exact hflip

/-! ## Positions -/

omit [DecidableEq α] in
theorem chain_getElem : ∀ {next : α → Option α} {p : Option α} {L : List α} {k : Nat} {x : α},
    Chain next p L none → L[k]? = some x → next x = L[k + 1]?
  | next, p, y :: L, 0, x, h, hx => by
    cases hx
    rw [List.getElem?_cons_succ, ← List.head?_eq_getElem?]
    exact h.2.head_eq
  | next, p, y :: L, k + 1, x, h, hx => by
    rw [List.getElem?_cons_succ] at hx ⊢
    exact chain_getElem h.2 hx

omit [DecidableEq α] in
theorem Linked.next_eq {k : Nat} {x : α} (h : Linked l L) (hx : L[k]? = some x) : l.next x = L[k + 1]? :=
  chain_getElem h.forth hx

omit [DecidableEq α] in
theorem Linked.prev_eq {k : Nat} {x : α} (h : Linked l L) (hx : L[k + 1]? = some x) : l.prev x = L[k]? := by
  obtain ⟨hk, -⟩ := List.getElem?_eq_some_iff.1 hx
  have hrev : L.reverse[L.length - 1 - (k + 1)]? = some x := by
    rw [List.getElem?_reverse (by omega)]
    rw [show L.length - 1 - (L.length - 1 - (k + 1)) = k + 1 from by omega]
    exact hx
  rw [chain_getElem h.back hrev, List.getElem?_reverse (by omega)]
  congr 1
  omega

omit [DecidableEq α] in
theorem chain_of_getElem {next : α → Option α} : ∀ {L : List α},
    (∀ k x, L[k]? = some x → next x = L[k + 1]?) → Chain next L.head? L none
  | [], _ => rfl
  | y :: L, h => by
    refine ⟨rfl, ?_⟩
    have hy := h 0 y rfl
    rw [List.getElem?_cons_succ, ← List.head?_eq_getElem?] at hy
    rw [hy]
    exact chain_of_getElem fun k x hx => h (k + 1) x hx

omit [DecidableEq α] in
/-- A list is linked if every field leads to its neighbour. -/
theorem linked_of_getElem (hhead : L.head? = some l.head) (htail : L.getLast? = some l.tail)
    (hnext : ∀ k x, L[k]? = some x → l.next x = L[k + 1]?)
    (hprev : ∀ k x, L[k + 1]? = some x → l.prev x = L[k]?) (hfirst : l.prev l.head = none) : Linked l L := by
  refine ⟨hhead ▸ chain_of_getElem hnext, ?_⟩
  rw [List.getLast?_eq_head?_reverse] at htail
  rw [← htail]
  apply chain_of_getElem
  intro k x hx
  obtain ⟨hk, -⟩ := List.getElem?_eq_some_iff.1 hx
  rw [List.length_reverse] at hk
  rw [List.getElem?_reverse hk] at hx
  by_cases hlast : k + 1 < L.length
  · rw [List.getElem?_reverse hlast]
    apply hprev
    rw [← hx]
    congr 1
    omega
  · have hx0 : x = l.head := by
      rw [show L.length - 1 - k = 0 by omega, ← List.head?_eq_getElem?, hhead] at hx
      exact (Option.some.inj hx).symm
    rw [hx0, hfirst, List.getElem?_eq_none (by rw [List.length_reverse]; omega)]

end Links

end Alpine
