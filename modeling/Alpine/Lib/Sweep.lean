import Mathlib

/-!
# Finding clashing time slots in one sweep

Slots are half-open intervals of a linear order.  They are entered at any time, never starting in the
past, and each is decided at the moment it ends, in the order of the ends.  Whether a slot met another
one is found by looking in one direction only: the slot that is decided is compared with the slots that
are still pending, and a pending slot that meets it is marked.

* `insertSched` — insertion into a list sorted by a key, walking back from its end.
* `Inv` — the invariant: the marks, and the decisions, are those of the definition of a clash.
* `Inv.enter`, `Inv.check`, `Inv.advance` — it is kept by a new slot, by a decision and by time.
-/

namespace Alpine.Sweep

variable {τ α : Type} [LinearOrder τ]

/-! ## Sorted insertion from the back -/

/-- `x` goes after the last element whose key is not greater, found from the end of the list. -/
def insertSched (key : α → τ) (x : α) (l : List α) : List α :=
  (l.reverse.orderedInsert (fun a b => key b ≤ key a) x).reverse

theorem insertSched_perm (key : α → τ) (x : α) (l : List α) : (insertSched key x l).Perm (x :: l) := by
  unfold insertSched
  refine (List.reverse_perm _).trans ((List.perm_orderedInsert _ x _).trans ?_)
  exact (List.reverse_perm l).cons x

theorem insertSched_sorted (key : α → τ) (x : α) {l : List α} (h : l.Pairwise fun a b => key a ≤ key b) :
    (insertSched key x l).Pairwise fun a b => key a ≤ key b := by
  have : Std.Total fun a b : α => key b ≤ key a := ⟨fun a b => le_total (key b) (key a)⟩
  have : IsTrans α fun a b => key b ≤ key a := ⟨fun _ _ _ hab hbc => hbc.trans hab⟩
  unfold insertSched
  rw [List.pairwise_reverse]
  exact List.Pairwise.orderedInsert x _ (List.pairwise_reverse.2 h)

/-! ## Slots -/

structure Slot (τ : Type) where
  start : τ
  stop : τ
  deriving DecidableEq

def Slot.interval (a : Slot τ) : Set τ := Set.Ico a.start a.stop

theorem Slot.disjoint_of_stop_le {a b : Slot τ} (h : a.stop ≤ b.start) : Disjoint a.interval b.interval := by
  unfold Slot.interval
  rw [Set.Ico_disjoint_Ico]
  exact (min_le_left _ _).trans (h.trans (le_max_right _ _))

/-- The one-directional test: for the slot that ends first it is enough to look at the start of the
other. -/
theorem Slot.disjoint_iff {a b : Slot τ} (ha : a.start < a.stop) (h : a.stop ≤ b.stop) :
    Disjoint a.interval b.interval ↔ ¬ b.start < a.stop := by
  constructor
  · intro hd hlt
    have hmem : max a.start b.start ∈ a.interval := ⟨le_max_left _ _, max_lt ha hlt⟩
    exact Set.disjoint_left.1 hd hmem ⟨le_max_right _ _, (max_lt ha hlt).trans_le h⟩
  · intro hle
    exact disjoint_of_stop_le (not_lt.1 hle)

/-! ## The invariant -/

/-- At time `now`, all slots entered so far are `made`; the `decided` ones carry the decision (`true`: no
clash), the `pending` ones their mark. -/
structure Inv (now : τ) (made : List (Slot τ)) (decided pending : List (Slot τ × Bool)) : Prop where
  perm : (decided.map Prod.fst ++ pending.map Prod.fst).Perm made
  pos : ∀ a ∈ made, a.start < a.stop
  sorted : pending.Pairwise fun p q => p.1.stop ≤ q.1.stop
  past : ∀ d ∈ decided, d.1.stop ≤ now
  marked : ∀ p ∈ pending, p.2 = true ↔ ∃ d ∈ decided, ¬ Disjoint d.1.interval p.1.interval
  verdict : ∀ d ∈ decided, d.2 = true ↔ ∀ b ∈ made.erase d.1, Disjoint d.1.interval b.interval

variable {now : τ} {made : List (Slot τ)} {decided pending : List (Slot τ × Bool)}

theorem Inv.init (now : τ) : Inv now [] [] [] where
  perm := .refl _
  pos := fun _ h => absurd h List.not_mem_nil
  sorted := .nil
  past := fun _ h => absurd h List.not_mem_nil
  marked := fun _ h => absurd h List.not_mem_nil
  verdict := fun _ h => absurd h List.not_mem_nil

theorem Inv.advance (h : Inv now made decided pending) {later : τ} (hle : now ≤ later) :
    Inv later made decided pending :=
  { h with past := fun d hd => (h.past d hd).trans hle }

/-- A new slot that does not start in the past meets no decided slot. -/
theorem Inv.enter (h : Inv now made decided pending) {a : Slot τ} (hnow : now ≤ a.start)
    (ha : a.start < a.stop) {pending' : List (Slot τ × Bool)} (hperm : pending'.Perm ((a, false) :: pending))
    (hsorted : pending'.Pairwise fun p q => p.1.stop ≤ q.1.stop) : Inv now (made ++ [a]) decided pending' := by
  have hpast : ∀ d ∈ decided, d.1.stop ≤ a.start := fun d hd => (h.past d hd).trans hnow
  refine ⟨?_, ?_, hsorted, h.past, ?_, ?_⟩
  · calc (decided.map Prod.fst ++ pending'.map Prod.fst).Perm
          (decided.map Prod.fst ++ a :: pending.map Prod.fst) := (hperm.map Prod.fst).append_left _
      _ |>.Perm (a :: (decided.map Prod.fst ++ pending.map Prod.fst)) := List.perm_middle
      _ |>.Perm (a :: made) := h.perm.cons a
      _ |>.Perm (made ++ [a]) := (List.perm_append_singleton a made).symm
  · intro b hb
    rcases List.mem_append.1 hb with hb | hb
    · exact h.pos b hb
    · rw [List.mem_singleton.1 hb]
      exact ha
  · intro p hp
    rcases List.mem_cons.1 (hperm.subset hp) with rfl | hp
    · refine ⟨fun hf => absurd hf Bool.false_ne_true, ?_⟩
      rintro ⟨d, hd, hclash⟩
      exact absurd (Slot.disjoint_of_stop_le (hpast d hd)) hclash
    · exact h.marked p hp
  · intro d hd
    have hmem : d.1 ∈ made :=
      h.perm.subset (List.mem_append_left _ (List.mem_map_of_mem hd))
    rw [h.verdict d hd, List.erase_append_left _ hmem]
    constructor
    · intro hall b hb
      rcases List.mem_append.1 hb with hb | hb
      · exact hall b hb
      · rw [List.mem_singleton.1 hb]
        exact Slot.disjoint_of_stop_le (hpast d hd)
    · intro hall b hb
      exact hall b (List.mem_append_left _ hb)

/-- What the sweep does when the first pending slot `a` ends: a pending slot that starts before is
marked. -/
def mark (a : Slot τ) (q : Slot τ × Bool) : Slot τ × Bool := (q.1, q.2 || decide (q.1.start < a.stop))

/-- The decision on the first pending slot `a`, marked or not. -/
def free (a : Slot τ) (marked : Bool) (rest : List (Slot τ × Bool)) : Bool :=
  !(marked || rest.any fun q => decide (q.1.start < a.stop))

theorem Inv.check {a : Slot τ} {f : Bool} {rest : List (Slot τ × Bool)}
    (h : Inv now made decided ((a, f) :: rest)) (hnow : now ≤ a.stop) :
    Inv a.stop made (decided ++ [(a, free a f rest)]) (rest.map (mark a)) := by
  obtain ⟨hfirst, hsorted⟩ := List.pairwise_cons.1 h.sorted
  have hperm : (a :: (decided.map Prod.fst ++ rest.map Prod.fst)).Perm made :=
    List.perm_middle.symm.trans h.perm
  have ha : a.start < a.stop := h.pos a (hperm.subset List.mem_cons_self)
  have hmeet : ∀ q ∈ rest, (¬ Disjoint a.interval q.1.interval) ↔ q.1.start < a.stop := by
    intro q hq
    rw [Slot.disjoint_iff ha (hfirst q hq), not_not]
  refine ⟨?_, h.pos, ?_, ?_, ?_, ?_⟩
  · have hmap : (rest.map (mark a)).map Prod.fst = rest.map Prod.fst := by
      rw [List.map_map]
      rfl
    rw [hmap, List.map_append, List.append_assoc]
    exact h.perm
  · rw [List.pairwise_map]
    exact hsorted
  · intro d hd
    rcases List.mem_append.1 hd with hd | hd
    · exact (h.past d hd).trans hnow
    · rw [List.mem_singleton.1 hd]
  · intro p hp
    obtain ⟨q, hq, rfl⟩ := List.mem_map.1 hp
    have hold := h.marked q (List.mem_cons_of_mem _ hq)
    simp only [mark, Bool.or_eq_true, decide_eq_true_eq, hold, ← hmeet q hq, List.mem_append,
      List.mem_singleton, or_and_right, exists_or, exists_eq_left]
  · intro d hd
    rcases List.mem_append.1 hd with hd | hd
    · exact h.verdict d hd
    · rw [List.mem_singleton.1 hd]
      have herase : (made.erase a).Perm (decided.map Prod.fst ++ rest.map Prod.fst) := by
        have := hperm.erase a
        rw [List.erase_cons_head] at this
        exact this.symm
      have hmark : f = true ↔ ∃ d ∈ decided, ¬ Disjoint d.1.interval a.interval :=
        h.marked (a, f) List.mem_cons_self
      simp only [free, Bool.not_eq_true', Bool.or_eq_false_iff, List.any_eq_false, decide_eq_true_eq, herase.mem_iff]
      rw [← Bool.not_eq_true, hmark]
      constructor
      · rintro ⟨hdec, hrest⟩ b hb
        rcases List.mem_append.1 hb with hb | hb
        · obtain ⟨d, hd, rfl⟩ := List.mem_map.1 hb
          exact (not_not.1 fun hno => hdec ⟨d, hd, hno⟩ : Disjoint d.1.interval a.interval).symm
        · obtain ⟨q, hq, rfl⟩ := List.mem_map.1 hb
          exact not_not.1 fun hno => hrest q hq ((hmeet q hq).1 hno)
      · intro hall
        refine ⟨?_, fun q hq hlt => ?_⟩
        · rintro ⟨d, hd, hclash⟩
          exact hclash (hall d.1 (List.mem_append_left _ (List.mem_map_of_mem hd))).symm
        · exact (hmeet q hq).2 hlt (hall q.1 (List.mem_append_right _ (List.mem_map_of_mem hq)))

end Alpine.Sweep
