import Alpine.Mem.MemChecker
import Alpine.Lib.Register

/-!
# Histories of one byte

A history is a list of calls; the position of a call is its place in time, its tick need not tell it from
the calls around it.

* `History.Wf` — ticks do not decrease, serials are handed out in order, and every completion and abort has
  its start.
* `Linearization` — an atomic register that explains a history: each completed operation takes effect
  between its start and its completion, a write that has not completed may, an aborted one does not, and
  every completed read returns what the register holds.
* `Linearization.before` — a write that completes before another starts takes effect before it.
-/

namespace Alpine.Mem

namespace MemCall

/-- The serial that a call is the start of. -/
def starts : MemCall → Option Nat
  | .startRead σ _ => some σ
  | .startWrite σ _ _ => some σ
  | _ => none

/-- The serial that a call is the end of. -/
def ends : MemCall → Option Nat
  | .completeRead σ _ _ => some σ
  | .completeWrite σ _ => some σ
  | .abortWrite σ _ => some σ
  | _ => none

/-- The first call is the start of what the second one ends. -/
def opens : MemCall → MemCall → Bool
  | .startRead σ _, .completeRead τ _ _ => σ == τ
  | .startWrite σ _ _, .completeWrite τ _ => σ == τ
  | .startWrite σ _ _, .abortWrite τ _ => σ == τ
  | _, _ => false

end MemCall

namespace History

/-- The call at a place of the history. -/
abbrev At (H : List MemCall) (i : Nat) (c : MemCall) : Prop :=
  H[i]? = some c

/-- The calls of the byte's users: in time order, with the serials that `MemChecker` hands out. -/
structure Wf (H : List MemCall) : Prop where
  mono : ∀ {i j : Nat} {c d : MemCall}, i ≤ j → At H i c → At H j d → c.tick ≤ d.tick
  bound : ∀ {i : Nat} {c : MemCall}, At H i c → c.tick < tickFuture
  starts : ∀ {i j : Nat} {c d : MemCall} {σ τ : Nat}, i < j → At H i c → At H j d →
    c.starts = some σ → d.starts = some τ → σ < τ
  readEnd : ∀ {j σ t v}, At H j (.completeRead σ t v) → ∃ i < j, ∃ t', At H i (.startRead σ t')
  writeEnd : ∀ {j σ t}, At H j (.completeWrite σ t) →
    ∃ i < j, ∃ t' v, At H i (.startWrite σ t' v)
  abortEnd : ∀ {j σ t}, At H j (.abortWrite σ t) → ∃ i < j, ∃ t' v, At H i (.startWrite σ t' v)
  ends : ∀ {i j : Nat} {c d : MemCall} {σ : Nat}, At H i c → At H j d → c.ends = some σ →
    d.ends = some σ → i = j

/-- An atomic register that explains the history. -/
structure Linearization (H : List MemCall) (ρ : Register Nat UInt8) : Prop where
  started : ∀ {σ}, σ ∈ ρ.writes → ∃ i t, At H i (.startWrite σ t (ρ.data σ)) ∧ (i : ℚ) < ρ.at_ σ
  completed : ∀ {j σ t}, At H j (.completeWrite σ t) → σ ∈ ρ.writes ∧ ρ.at_ σ < j
  aborted : ∀ {j σ t}, At H j (.abortWrite σ t) → σ ∉ ρ.writes
  read : ∀ {i j σ t t' v}, At H i (.startRead σ t) → At H j (.completeRead σ t' v) →
    (i : ℚ) < ρ.at_ σ ∧ ρ.at_ σ < j ∧ ρ.Reads (ρ.at_ σ) v

/-- The history of an atomic register. -/
def Linearizable (H : List MemCall) : Prop :=
  ∃ ρ, Linearization H ρ

variable {H : List MemCall}

/-- A history can be checked. -/
theorem wf_of_check (h : ∀ j : Fin H.length, H[j].tick < tickFuture ∧
    (∀ i : Fin H.length, i ≤ j → H[i].tick ≤ H[j].tick) ∧
    (∀ i : Fin H.length, i < j → ∀ σ ∈ H[i].starts, ∀ τ ∈ H[j].starts, σ < τ) ∧
    (∀ i : Fin H.length, i < j → ∀ σ ∈ H[i].ends, σ ∉ H[j].ends) ∧
    (H[j].ends = none ∨ ∃ i : Fin H.length, i < j ∧ H[i].opens H[j])) : Wf H := by
  have hget : ∀ {i c}, At H i c → ∃ hi : i < H.length, H[i] = c := fun h => List.getElem?_eq_some_iff.1 h
  have hopen : ∀ {j d}, At H j d → d.ends ≠ none → ∃ i < j, ∃ c, At H i c ∧ c.opens d := by
    intro j d hj hd
    obtain ⟨hlt, rfl⟩ := hget hj
    rcases (h ⟨j, hlt⟩).2.2.2.2 with hnone | ⟨i, hij, hi⟩
    · exact (hd hnone).elim
    · exact ⟨i, hij, H[i], List.getElem?_eq_getElem i.2, hi⟩
  have hends : ∀ {i j c d σ}, At H i c → At H j d → c.ends = some σ → d.ends = some σ → ¬ i < j := by
    intro i j c d σ hi hj hc hd hij
    obtain ⟨hil, rfl⟩ := hget hi
    obtain ⟨hjl, rfl⟩ := hget hj
    exact (h ⟨j, hjl⟩).2.2.2.1 ⟨i, hil⟩ hij σ hc hd
  constructor
  · intro i j c d hij hi hj
    obtain ⟨hil, rfl⟩ := hget hi
    obtain ⟨hjl, rfl⟩ := hget hj
    exact (h ⟨j, hjl⟩).2.1 ⟨i, hil⟩ hij
  · intro i c hi
    obtain ⟨hil, rfl⟩ := hget hi
    exact (h ⟨i, hil⟩).1
  · intro i j c d σ τ hij hi hj hc hd
    obtain ⟨hil, rfl⟩ := hget hi
    obtain ⟨hjl, rfl⟩ := hget hj
    exact (h ⟨j, hjl⟩).2.2.1 ⟨i, hil⟩ hij σ hc τ hd
  · intro j σ t v hj
    obtain ⟨i, hij, c, hi, hc⟩ := hopen hj (Option.some_ne_none σ)
    cases c <;> simp [MemCall.opens] at hc
    subst hc
    exact ⟨i, hij, _, hi⟩
  · intro j σ t hj
    obtain ⟨i, hij, c, hi, hc⟩ := hopen hj (Option.some_ne_none σ)
    cases c <;> simp [MemCall.opens] at hc
    subst hc
    exact ⟨i, hij, _, _, hi⟩
  · intro j σ t hj
    obtain ⟨i, hij, c, hi, hc⟩ := hopen hj (Option.some_ne_none σ)
    cases c <;> simp [MemCall.opens] at hc
    subst hc
    exact ⟨i, hij, _, _, hi⟩
  · intro i j c d σ hi hj hc hd
    have h1 := hends hi hj hc hd
    have h2 := hends hj hi hd hc
    omega

theorem Wf.start_unique (hw : Wf H) {i j σ : Nat} {c d : MemCall} (hi : At H i c)
    (hj : At H j d) (hc : c.starts = some σ) (hd : d.starts = some σ) : i = j ∧ c = d := by
  have hij : i = j := by
    rcases Nat.lt_trichotomy i j with h | h | h
    · exact absurd (hw.starts h hi hj hc hd) (Nat.lt_irrefl _)
    · exact h
    · exact absurd (hw.starts h hj hi hd hc) (Nat.lt_irrefl _)
  subst hij
  have hcd := hi.symm.trans hj
  cases hcd
  exact ⟨rfl, rfl⟩

theorem Wf.lt_of_tick (hw : Wf H) {i j : Nat} {c d : MemCall} (hi : At H i c) (hj : At H j d)
    (ht : c.tick < d.tick) : i < j := by
  by_contra hge
  have := hw.mono (Nat.le_of_not_lt hge) hj hi
  omega

section Linearization

variable {ρ : Register Nat UInt8} (hw : Wf H) (hl : Linearization H ρ)

include hw hl

theorem Linearization.start {i σ t : Nat} {v : UInt8} (hi : At H i (.startWrite σ t v))
    (hσ : σ ∈ ρ.writes) : (i : ℚ) < ρ.at_ σ ∧ v = ρ.data σ := by
  obtain ⟨j, t', hj, hlt⟩ := hl.started hσ
  obtain ⟨rfl, heq⟩ := hw.start_unique hi hj rfl rfl
  cases heq
  exact ⟨hlt, rfl⟩

/-- A write that completes before another starts takes effect before it. -/
theorem Linearization.before {i j σ τ t t' : Nat} {v : UInt8} (hj : At H j (.completeWrite σ t))
    (hi : At H i (.startWrite τ t' v)) (hτ : τ ∈ ρ.writes) (hlt : j < i) : ρ.at_ σ < ρ.at_ τ := by
  have h1 := (hl.completed hj).2
  have h2 := (hl.start hw hi hτ).1
  exact h1.trans (lt_trans (Nat.cast_lt.2 hlt) h2)

end Linearization

end History

end Alpine.Mem
