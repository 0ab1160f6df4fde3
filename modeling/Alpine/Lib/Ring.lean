import Mathlib.Logic.Function.Basic
import Mathlib.Data.Nat.ModEq

/-!
# Circular arrays

A queue in an array of `n` slots: the items have positions that are never used again, and the item at position
`a` is in slot `a % n`.

* `next`, `prev` — the steps of an index round the array; `next_mod`, `prev_mod`, `add_mod_of_lt`.
* `Holds` — the array holds the items at the positions from `lo` to `hi`; it is kept by an update of one of them
  (`Holds.update`) and by a push (`Holds.push`), if no more than `n` positions are held.
-/

namespace Alpine.Ring

variable {α : Type} {n lo hi a b : Nat}

/-- The slot after `i`. -/
def next (n i : Nat) : Nat := if n ≤ i + 1 then 0 else i + 1

/-- The slot before `i`. -/
def prev (n i : Nat) : Nat := if i = 0 then n - 1 else i - 1

theorem next_mod (hn : 0 < n) (a : Nat) : next n (a % n) = (a + 1) % n := by
  have hlt := Nat.mod_lt a hn
  rw [← Nat.mod_add_mod]
  unfold next
  split
  next hle =>
    have heq : a % n + 1 = n := by omega
    rw [heq, Nat.mod_self]
  next hlt' => exact (Nat.mod_eq_of_lt (by omega)).symm

theorem prev_mod (hn : 0 < n) (a : Nat) : prev n ((a + 1) % n) = a % n := by
  have hlt := Nat.mod_lt a hn
  rw [← next_mod hn]
  unfold next prev
  split
  · rw [if_pos rfl]
    omega
  · rw [if_neg (Nat.succ_ne_zero _)]
    rfl

/-- The slot `k` steps after that of position `a`. -/
theorem add_mod_of_lt {k : Nat} (hk : k < n) (a : Nat) :
    (a + k) % n = if a % n + k < n then a % n + k else a % n + k - n := by
  have hlt := Nat.mod_lt a (Nat.zero_lt_of_lt hk)
  rw [← Nat.mod_add_mod]
  split
  next h => exact Nat.mod_eq_of_lt h
  next h => rw [Nat.mod_eq_sub_mod (by omega), Nat.mod_eq_of_lt (by omega)]

/-- Positions that are less than `n` apart are in different slots. -/
theorem mod_inj (ha : lo ≤ a) (ha' : a < lo + n) (hb : lo ≤ b) (hb' : b < lo + n) (h : a % n = b % n) : a = b := by
  rcases Nat.le_total a b with hab | hab
  · have hd : n ∣ b - a := (Nat.modEq_iff_dvd' hab).1 h
    have hzero := Nat.eq_zero_of_dvd_of_lt hd (by omega)
    omega
  · have hd : n ∣ a - b := (Nat.modEq_iff_dvd' hab).1 h.symm
    have hzero := Nat.eq_zero_of_dvd_of_lt hd (by omega)
    omega

/-- The array holds the items `e` at the positions from `lo` on and before `hi`. -/
def Holds (n : Nat) (arr e : Nat → α) (lo hi : Nat) : Prop := ∀ a, lo ≤ a → a < hi → arr (a % n) = e a

variable {arr e : Nat → α}

theorem Holds.mono (h : Holds n arr e lo hi) {lo' hi' : Nat} (hlo : lo ≤ lo') (hhi : hi' ≤ hi) :
    Holds n arr e lo' hi' :=
  fun a ha ha' => h a (hlo.trans ha) (Nat.lt_of_lt_of_le ha' hhi)

theorem Holds.update (h : Holds n arr e lo hi) (hn : hi ≤ lo + n) (ha : lo ≤ a) (ha' : a < hi) (x : α) :
    Holds n (Function.update arr (a % n) x) (Function.update e a x) lo hi := by
  intro b hb hb'
  by_cases hab : b = a
  · rw [hab, Function.update_self, Function.update_self]
  · have hslot : b % n ≠ a % n := fun heq => hab (mod_inj hb (by omega) ha (by omega) heq)
    rw [Function.update_of_ne hslot, Function.update_of_ne hab]
    exact h b hb hb'

theorem Holds.push (h : Holds n arr e lo hi) (hn : hi < lo + n) (x : α) :
    Holds n (Function.update arr (hi % n) x) (Function.update e hi x) lo (hi + 1) := by
  intro b hb hb'
  by_cases hbh : b = hi
  · rw [hbh, Function.update_self, Function.update_self]
  · have hslot : b % n ≠ hi % n := fun heq => hbh (mod_inj hb (by omega) (by omega) (by omega) heq)
    rw [Function.update_of_ne hslot, Function.update_of_ne hbh]
    exact h b hb (by omega)

end Alpine.Ring
