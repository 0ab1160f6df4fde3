import Alpine.Lib.Loop

/-!
# Filling a grid column by column

* `Grid` — a state with cells that are set one by one, by the laws of a two-dimensional array.
* `Grid.fill` — two nested loops that set every cell, column by column; an element may be undefined.
* `Grid.fill_get` — what a loop that returns has put into every cell.
* `Grid.fill_refines_iff` — two such loops agree exactly when their elements do.
-/

namespace Alpine

structure Grid (σ V : Type) (width height : Nat) where
  get : σ → Fin width → Fin height → V
  put : σ → Fin width → Fin height → V → σ
  get_put : ∀ s i j v, get (put s i j v) i j = v
  get_put_ne : ∀ s i j v i' j', ¬ (i' = i ∧ j' = j) → get (put s i j v) i' j' = get s i' j'

namespace Grid

variable {σ V : Type} {width height : Nat}

/-- `for i { for j { put(i, j, elem(i, j)) } }`. -/
def fill (g : Grid σ V width height) (elem : Fin width → Fin height → Option V) (s : σ) : Option σ :=
  Fin.foldlM width (fun s i => Fin.foldlM height (fun s j => (elem i j).map (g.put s i j)) s) s

/-- The cells of `i` columns and of `j` rows of the next column hold their elements. -/
def Filled (g : Grid σ V width height) (elem : Fin width → Fin height → Option V) (i j : Nat) (s : σ) : Prop :=
  ∀ (i' : Fin width) (j' : Fin height), (i' < i ∨ i'.val = i ∧ j' < j) → elem i' j' = some (g.get s i' j')

variable {elem : Fin width → Fin height → Option V} (g : Grid σ V width height)

theorem filled_put (i : Fin width) (j : Fin height) {s s' : σ}
    (h : g.Filled elem i j s) (hs : (elem i j).map (g.put s i j) = some s') : g.Filled elem i (j + 1) s' := by
  obtain ⟨v, hv, rfl⟩ := Option.map_eq_some_iff.1 hs
  intro i' j' hin
  by_cases e : i' = i ∧ j' = j
  · obtain ⟨rfl, rfl⟩ := e
    rw [hv, g.get_put]
  · rw [g.get_put_ne s i j v i' j' e]
    refine h i' j' ?_
    rcases hin with hlt | ⟨hi, hj⟩
    · exact Or.inl hlt
    · have hne : j'.val ≠ j.val := fun hj' => e ⟨Fin.ext hi, Fin.ext hj'⟩
      exact Or.inr ⟨hi, by omega⟩

/-- A loop that returns has put every element into its cell. -/
theorem fill_get {s r : σ} (h : g.fill elem s = some r) (i : Fin width)
    (j : Fin height) : elem i j = some (g.get r i j) := by
  have hfilled := Loop.foldlM_returns _ (fun i => g.Filled elem i 0)
    (fun i' j' hin => absurd hin (by omega))
    (fun i s s' hs hcol => by
      have hrows := Loop.foldlM_returns _ (g.Filled elem i) hs (fun j s s' hs => filled_put g i j hs) hcol
      intro i' j' hin
      refine hrows i' j' ?_
      rcases Nat.lt_or_ge i' i with hlt | hge
      · exact Or.inl hlt
      · exact Or.inr ⟨by omega, j'.isLt⟩) h
  exact hfilled i j (Or.inl i.isLt)

theorem fill_defined (h : ∀ i j, (elem i j).isSome) (s : σ) : ∃ r, g.fill elem s = some r := by
  obtain ⟨r, hr, _⟩ := Loop.foldlM_inv (s := s)
    (fun s i => Fin.foldlM height (fun s j => (elem i j).map (g.put s i j)) s) (fun _ _ => True) trivial
    (fun i s _ => by
      obtain ⟨s', hs', _⟩ := Loop.foldlM_inv (s := s) (fun s j => (elem i j).map (g.put s i j))
        (fun _ _ => True) trivial (fun j s _ => by
          obtain ⟨v, hv⟩ := Option.isSome_iff_exists.1 (h i j)
          exact ⟨g.put s i j v, by rw [hv]; rfl, trivial⟩)
      exact ⟨s', hs', trivial⟩)
  exact ⟨r, hr⟩

theorem fill_empty (elem : Fin width → Fin height → Option V) (s : σ)
    (h : height = 0 ∨ width = 0) : g.fill elem s = some s := by
  obtain ⟨r, hr, rfl⟩ := Loop.foldlM_inv (s := s)
    (fun s i => Fin.foldlM height (fun s j => (elem i j).map (g.put s i j)) s) (fun _ t => t = s) rfl
    (fun i t ht => by
      rcases h with rfl | rfl
      · exact ⟨t, by rw [Fin.foldlM_zero]; rfl, ht⟩
      · exact i.elim0)
  exact hr

/-- Where one loop returns another one has the same result exactly when the elements are the same, or the
first one never returns. -/
theorem fill_refines_iff (elem elem' : Fin width → Fin height → Option V) (s : σ) :
    (∀ r, g.fill elem s = some r → g.fill elem' s = some r) ↔
      (∃ i j, elem i j = none) ∨ ∀ i j, elem' i j = elem i j := by
  constructor
  · intro h
    refine Classical.or_iff_not_imp_left.2 fun hdef i j => ?_
    have hsome : ∀ i j, (elem i j).isSome := fun i j => by
      rw [Option.isSome_iff_ne_none]
      exact fun hnone => hdef ⟨i, j, hnone⟩
    obtain ⟨r, hr⟩ := fill_defined g hsome s
    rw [fill_get g hr, fill_get g (h r hr)]
  · rintro (⟨i, j, hnone⟩ | hsame) r hr
    · have hsome := fill_get g hr i j
      rw [hnone] at hsome
      cases hsome
    · rw [show elem' = elem from funext fun i => funext fun j => hsame i j]
      exact hr

end Grid

end Alpine
