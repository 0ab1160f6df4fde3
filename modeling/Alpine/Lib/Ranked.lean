import Mathlib

/-!
# Recency by numbers

A list of keys, most recent first, and the number under which each key was used last.  The position of a key
is how many numbers are above its own.

* `Ranked` — the numbers decrease along the list.
* `Ranked.erase`, `Ranked.touch` — a key is taken out, or used under a new number.
* `Ranked.idxOf_eq` — the position of a key.
-/

namespace Alpine

variable {α : Type}

def Ranked (num : α → ℕ) (L : List α) : Prop := L.Pairwise fun a b => num b < num a

/-- The numbers that are in use. -/
def nums (num : α → ℕ) (L : List α) : Finset ℕ := (L.map num).toFinset

variable {num : α → ℕ} {L : List α} {a : α}

theorem mem_nums {i : ℕ} : i ∈ nums num L ↔ ∃ a ∈ L, num a = i := by
  unfold nums
  rw [List.mem_toFinset, List.mem_map]

theorem Ranked.nodup (h : Ranked num L) : L.Nodup := h.imp fun hlt heq => by
  rw [heq] at hlt
  exact Nat.lt_irrefl _ hlt

/-- Two keys are not used under one number. -/
theorem Ranked.inj (h : Ranked num L) : ∀ a ∈ L, ∀ b ∈ L, num a = num b → a = b := by
  have hnodup : (L.map num).Nodup := List.pairwise_map.2 (h.imp fun hlt => hlt.ne')
  exact fun a ha b hb heq => List.inj_on_of_nodup_map hnodup ha hb heq

variable [DecidableEq α]

theorem Ranked.erase (h : Ranked num L) (a : α) : Ranked num (L.erase a) :=
  List.Pairwise.sublist List.erase_sublist h

theorem Ranked.nums_erase (h : Ranked num L) (ha : a ∈ L) : nums num (L.erase a) = (nums num L).erase (num a) := by
  ext i
  rw [Finset.mem_erase, mem_nums, mem_nums]
  constructor
  · rintro ⟨b, hb, rfl⟩
    obtain ⟨hne, hb⟩ := h.nodup.mem_erase_iff.1 hb
    exact ⟨fun heq => hne (h.inj b hb a ha heq), b, hb, rfl⟩
  · rintro ⟨hne, b, hb, rfl⟩
    exact ⟨b, h.nodup.mem_erase_iff.2 ⟨fun heq => hne (heq ▸ rfl), hb⟩, rfl⟩

/-- A key of which there is no entry is used under a number that is above all. -/
theorem Ranked.touch (h : Ranked num L) {i : ℕ} (ha : a ∉ L) (hi : ∀ b ∈ L, num b < i) :
    Ranked (Function.update num a i) (a :: L) := by
  have hother : ∀ b ∈ L, Function.update num a i b = num b := fun b hb =>
    Function.update_of_ne (fun heq : b = a => ha (heq ▸ hb)) i num
  refine List.pairwise_cons.2 ⟨fun b hb => ?_, ?_⟩
  · rw [Function.update_self, hother b hb]
    exact hi b hb
  · refine List.Pairwise.imp_of_mem (fun {b c} hb hc hlt => ?_) h
    rw [hother b hb, hother c hc]
    exact hlt

theorem nums_touch {i : ℕ} (ha : a ∉ L) : nums (Function.update num a i) (a :: L) = insert i (nums num L) := by
  have hmap : L.map (Function.update num a i) = L.map num :=
    List.map_congr_left fun b hb => Function.update_of_ne (fun heq : b = a => ha (heq ▸ hb)) i num
  unfold nums
  rw [List.map_cons, Function.update_self, hmap, List.toFinset_cons]

theorem Ranked.idxOf_eq : ∀ {L : List α}, Ranked num L → a ∈ L →
    L.idxOf a = ((nums num L).filter fun i => num a < i).card
  | b :: L, h, ha => by
    obtain ⟨hfirst, hrest⟩ := List.pairwise_cons.1 h
    have hcons : nums num (b :: L) = insert (num b) (nums num L) := List.toFinset_cons
    rw [hcons]
    by_cases hab : b = a
    · subst hab
      rw [List.idxOf_cons_self, eq_comm, Finset.card_eq_zero, Finset.filter_eq_empty_iff]
      intro i hi hlt
      rcases Finset.mem_insert.1 hi with rfl | hi
      · exact Nat.lt_irrefl _ hlt
      · obtain ⟨c, hc, rfl⟩ := mem_nums.1 hi
        exact Nat.lt_asymm hlt (hfirst c hc)
    · have haL : a ∈ L := (List.mem_cons.1 ha).resolve_left fun heq => hab heq.symm
      have hnot : num b ∉ (nums num L).filter fun i => num a < i := fun hmem => by
        obtain ⟨c, hc, heq⟩ := mem_nums.1 (Finset.mem_filter.1 hmem).1
        have hlt := hfirst c hc
        omega
      rw [List.idxOf_cons_ne _ hab, Ranked.idxOf_eq hrest haL, Finset.filter_insert, if_pos (hfirst a haL),
        Finset.card_insert_of_notMem hnot]

end Alpine
