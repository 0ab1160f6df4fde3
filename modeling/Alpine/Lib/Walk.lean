import Mathlib.Logic.Relation
import Mathlib.Data.Nat.Find
import Mathlib.Data.Finset.Card
import Mathlib.Data.Finset.Range
import Alpine.Lib.Chain

/-!
# Walks along pointers

`next : α → Option α` is a pointer field, and any graph it may form.

* `node next h k` — where a walk from `h` is after `k` steps; `Reach` and `Cycle` — the nodes that are reached, and
  those that reach themselves.
* `Stops next h k` — the walk that only remembers `h` stops after `k` steps: it left the graph or is at `h` again.
* `exists_stops_iff` — in a finite part of the graph it stops just if every cycle it can reach contains `h`.
* `Stops.reach` — it has then seen all it can reach.
-/

namespace Alpine.Walk

variable {α : Type} (next : α → Option α)

def node (h : α) : Nat → Option α
  | 0 => some h
  | k + 1 => (node h k).bind next

def Reach (a b : α) : Prop := Relation.ReflTransGen (fun a b => next a = some b) a b

def Cycle (a : α) : Prop := Relation.TransGen (fun a b => next a = some b) a a

structure Stops (h : α) (k : Nat) : Prop where
  pos : 0 < k
  stop : node next h k = none ∨ node next h k = some h
  first : ∀ j, 0 < j → j < k → node next h j ≠ none ∧ node next h j ≠ some h

variable {next} {h a b : α} {i j k m : Nat}

theorem node_add (h : α) (i j : Nat) : node next h (i + j) = (node next h i).bind fun a => node next a j := by
  induction j with
  | zero => simp [node]
  | succ j ih =>
    rw [← Nat.add_assoc, node, ih, Option.bind_assoc]
    rfl

theorem node_add_of (hi : node next h i = some a) (j : Nat) : node next h (i + j) = node next a j := by
  rw [node_add, hi, Option.bind_some]

theorem node_succ (h : α) (k : Nat) : node next h (k + 1) = (next h).bind fun a => node next a k := by
  rw [Nat.add_comm, node_add]
  rfl

theorem node_none (hi : node next h i = none) (hij : i ≤ j) : node next h j = none := by
  obtain ⟨k, rfl⟩ := Nat.exists_eq_add_of_le hij
  rw [node_add, hi, Option.bind_none]

theorem node_mul (hm : node next h m = some h) (k : Nat) : node next h (m * k) = some h := by
  induction k with
  | zero => rfl
  | succ k ih => rw [Nat.mul_succ, node_add_of ih, hm]

theorem node_mod (hm : node next h m = some h) (j : Nat) : node next h (j % m) = node next h j := by
  conv_rhs => rw [← Nat.div_add_mod j m, node_add_of (node_mul hm (j / m))]

theorem reach_iff : Reach next a b ↔ ∃ k, node next a k = some b := by
  constructor
  · intro hr
    induction hr with
    | refl => exact ⟨0, rfl⟩
    | tail _ hbc ih =>
      obtain ⟨k, hk⟩ := ih
      exact ⟨k + 1, by rw [node, hk, Option.bind_some, hbc]⟩
  · rintro ⟨k, hk⟩
    induction k generalizing b with
    | zero =>
      cases hk
      exact .refl
    | succ k ih =>
      obtain ⟨c, hc, hcb⟩ := Option.bind_eq_some_iff.1 hk
      exact (ih hc).tail hcb

theorem cycle_iff : Cycle next a ↔ ∃ k, 0 < k ∧ node next a k = some a := by
  constructor
  · intro hc
    obtain ⟨b, hb, hr⟩ := Relation.TransGen.head'_iff.1 hc
    obtain ⟨k, hk⟩ := reach_iff.1 hr
    exact ⟨k + 1, Nat.succ_pos k, by rw [node_succ, hb, Option.bind_some, hk]⟩
  · rintro ⟨k, hpos, hk⟩
    obtain ⟨k, rfl⟩ := Nat.exists_eq_add_of_lt hpos
    rw [Nat.zero_add, node_succ] at hk
    obtain ⟨b, hb, hba⟩ := Option.bind_eq_some_iff.1 hk
    exact Relation.TransGen.head' hb (reach_iff.2 ⟨k, hba⟩)

/-- A walk that meets a cycle goes on. -/
theorem node_of_cycle (hi : node next h i = some a) (hc : Cycle next a) (j : Nat) : node next h j ≠ none := by
  obtain ⟨m, hm, hma⟩ := cycle_iff.1 hc
  intro hj
  have hle : j ≤ i + m * j := le_trans (Nat.le_mul_of_pos_left j hm) (Nat.le_add_left _ _)
  have := node_none hj hle
  rw [node_add_of hi, node_mul hma] at this
  cases this

theorem Stops.reach (hs : Stops next h k) (hr : Reach next h a) : ∃ j < k, node next h j = some a := by
  obtain ⟨j, hj⟩ := reach_iff.1 hr
  cases hs.stop with
  | inl hnone =>
    refine ⟨j, ?_, hj⟩
    by_contra hkj
    rw [node_none hnone (Nat.le_of_not_lt hkj)] at hj
    cases hj
  | inr hhead => exact ⟨j % k, Nat.mod_lt j hs.pos, by rw [node_mod hhead, hj]⟩

/-- A walk that stops returns to its start from every node, or leaves the graph. -/
theorem Stops.returns (hs : Stops next h k) (hr : Reach next h a) (hc : Cycle next a) : Reach next a h := by
  obtain ⟨j, hj⟩ := reach_iff.1 hr
  cases hs.stop with
  | inl hnone => exact absurd hnone (node_of_cycle hj hc k)
  | inr hhead =>
    have hle : j ≤ k * j := Nat.le_mul_of_pos_left j hs.pos
    have hmul := node_mul hhead j
    rw [← Nat.add_sub_cancel' hle, node_add_of hj] at hmul
    exact reach_iff.2 ⟨_, hmul⟩

/-- Up to there no node is met twice. -/
theorem Stops.inj (hs : Stops next h k) (hij : i < j) (hjk : j < k) : node next h i ≠ node next h j := by
  intro heq
  obtain ⟨a, ha⟩ := Option.ne_none_iff_exists'.1 (hs.first j (Nat.zero_lt_of_lt hij) hjk).1
  have hi : node next h i = some a := by rw [heq, ha]
  have hc : Cycle next a := by
    refine cycle_iff.2 ⟨j - i, Nat.sub_pos_of_lt hij, ?_⟩
    rw [← node_add_of hi, Nat.add_sub_cancel' (Nat.le_of_lt hij), ha]
  cases hs.stop with
  | inl hnone => exact node_of_cycle hi hc k hnone
  | inr hhead =>
    -- the walk would have been at its start already
    have hback : node next h (i + (k - j)) = some h := by
      rw [node_add_of hi, ← node_add_of ha, Nat.add_sub_cancel' (Nat.le_of_lt hjk), hhead]
    exact (hs.first (i + (k - j)) (by omega) (by omega)).2 hback

theorem Stops.le_card (hs : Stops next h k) (s : Finset α) (hin : ∀ a, Reach next h a → a ∈ s) : k ≤ s.card := by
  have hnode : ∀ j < k, ∃ a, node next h j = some a := by
    intro j hj
    by_cases h0 : j = 0
    · exact ⟨h, by rw [h0]; rfl⟩
    · exact Option.ne_none_iff_exists'.1 (hs.first j (Nat.pos_of_ne_zero h0) hj).1
  have : Nonempty α := ⟨h⟩
  choose! f hf using hnode
  have hmaps : ∀ j ∈ Finset.range k, f j ∈ s := fun j hj =>
    hin _ (reach_iff.2 ⟨j, hf j (Finset.mem_range.1 hj)⟩)
  have hinj : ∀ i j, i < j → j < k → f i ≠ f j := fun i j hij hjk heq =>
    hs.inj hij hjk (by rw [hf i (hij.trans hjk), hf j hjk, heq])
  have hcard := Finset.card_le_card_of_injOn f hmaps fun i hi j hj heq => by
    rw [Finset.coe_range, Set.mem_Iio] at hi hj
    rcases Nat.lt_trichotomy i j with hlt | heq' | hlt
    · exact absurd heq (hinj i j hlt hj)
    · exact heq'
    · exact absurd heq.symm (hinj j i hlt hi)
  rwa [Finset.card_range] at hcard

/-- The first index where the walk stops, if there is one. -/
theorem exists_stops (hk : 0 < k) (hstop : node next h k = none ∨ node next h k = some h) : ∃ m, Stops next h m := by
  classical
  have hex : ∃ k, 0 < k ∧ (node next h k = none ∨ node next h k = some h) := ⟨k, hk, hstop⟩
  refine ⟨Nat.find hex, (Nat.find_spec hex).1, (Nat.find_spec hex).2, ?_⟩
  intro j hj hlt
  exact ⟨fun hn => Nat.find_min hex hlt ⟨hj, .inl hn⟩, fun hh => Nat.find_min hex hlt ⟨hj, .inr hh⟩⟩

/-- In a finite graph a walk that does not end meets a cycle. -/
theorem exists_cycle (s : Finset α) (hs : ∀ a, Reach next h a → a ∈ s) (hnone : ∀ k, node next h k ≠ none) :
    ∃ a, Reach next h a ∧ Cycle next a := by
  classical
  have hnode : ∀ k, ∃ a, node next h k = some a := fun k => Option.ne_none_iff_exists'.1 (hnone k)
  choose f hf using hnode
  have hmaps : ∀ k ∈ Finset.range (s.card + 1), f k ∈ s := fun k _ => hs _ (reach_iff.2 ⟨k, hf k⟩)
  obtain ⟨i, -, j, -, hne, hij⟩ :=
    Finset.exists_ne_map_eq_of_card_lt_of_maps_to (by rw [Finset.card_range]; exact Nat.lt_succ_self _) hmaps
  have key : ∀ i j, i < j → f i = f j → Cycle next (f i) := by
    intro i j hlt heq
    refine cycle_iff.2 ⟨j - i, Nat.sub_pos_of_lt hlt, ?_⟩
    rw [← node_add_of (hf i), Nat.add_sub_cancel' (Nat.le_of_lt hlt), heq, hf j]
  cases Nat.lt_or_gt_of_ne hne with
  | inl hlt => exact ⟨f i, reach_iff.2 ⟨i, hf i⟩, key i j hlt hij⟩
  | inr hlt => exact ⟨f j, reach_iff.2 ⟨j, hf j⟩, key j i hlt hij.symm⟩

theorem exists_stops_iff (s : Finset α) (hs : ∀ a, Reach next h a → a ∈ s) :
    (∃ k, Stops next h k) ↔ ∀ a, Reach next h a → Cycle next a → Reach next a h := by
  constructor
  · rintro ⟨k, hk⟩ a hr hc
    exact hk.returns hr hc
  · intro hret
    by_cases hnone : ∃ k, node next h k = none
    · obtain ⟨k, hk⟩ := hnone
      have hpos : 0 < k := by
        apply Nat.pos_of_ne_zero
        rintro rfl
        cases hk
      exact exists_stops hpos (.inl hk)
    · rw [not_exists] at hnone
      obtain ⟨a, hr, hc⟩ := exists_cycle s hs hnone
      obtain ⟨i, hi⟩ := reach_iff.1 hr
      obtain ⟨m, hm, hma⟩ := cycle_iff.1 hc
      obtain ⟨j, hj⟩ := reach_iff.1 (hret a hr hc)
      -- once around the cycle, and on to the start
      have hloop : node next h (i + (m + j)) = some h := by rw [node_add_of hi, node_add_of hma, hj]
      exact exists_stops (by omega) (.inr hloop)

end Alpine.Walk
