/-!
# Counted loops

A C++ loop `for (int i = 0; i < n; i++)` is `Fin.foldl n` when its body always returns and
`Fin.foldlM n` in `Option` when its body may run into undefined behaviour (`none`).

* `foldl_inv`, `foldlM_inv` — the invariant rules: a property indexed by the number of finished
  iterations, true at entry and carried by the body, holds with index `n` at exit; for the partial
  loop the rule also gives that the loop returns.
* `foldlM_sim`, `foldlM_returns` — the simulation rule and the invariant rule for a loop that is known to
  return.
* `foldl_set` — a loop that stores `f i` in element `i` of a vector builds `Vector.ofFn f`.
-/

namespace Alpine.Loop

variable {σ α : Type} {n : Nat}

theorem foldl_inv : ∀ {n : Nat} (f : σ → Fin n → σ) (P : Nat → σ → Prop) {s : σ}, P 0 s →
    (∀ (i : Fin n) (s : σ), P i s → P (i + 1) (f s i)) → P n (Fin.foldl n f s)
  | 0, _, _, _, h0, _ => by simpa using h0
  | n + 1, f, P, s, h0, hs => by
    rw [Fin.foldl_succ_last]
    exact hs (Fin.last n) _ (foldl_inv (fun s i => f s i.castSucc) P h0 fun i s h => hs i.castSucc s h)

theorem foldlM_inv : ∀ {n : Nat} (f : σ → Fin n → Option σ) (P : Nat → σ → Prop) {s : σ}, P 0 s →
    (∀ (i : Fin n) (s : σ), P i s → ∃ s', f s i = some s' ∧ P (i + 1) s') → ∃ s', Fin.foldlM n f s = some s' ∧ P n s'
  | 0, _, _, s, h0, _ => ⟨s, by simp, h0⟩
  | n + 1, f, P, s, h0, hs => by
    obtain ⟨t, ht, hP⟩ := foldlM_inv (fun s i => f s i.castSucc) P h0 fun i s h => hs i.castSucc s h
    obtain ⟨t', ht', hP'⟩ := hs (Fin.last n) t hP
    refine ⟨t', ?_, hP'⟩
    rw [Fin.foldlM_succ_last]
    simp only [ht]
    exact ht'

/-- A loop simulates another one that returns if every iteration does. -/
theorem foldlM_sim {τ : Type} : ∀ {n : Nat} (f : σ → Fin n → Option σ) (g : τ → Fin n → Option τ)
    (R : Nat → σ → τ → Prop) {s r : σ} {t : τ}, R 0 s t →
    (∀ (i : Fin n) (s s' : σ) (t : τ), R i s t → f s i = some s' → ∃ t', g t i = some t' ∧ R (i + 1) s' t') →
    Fin.foldlM n f s = some r → ∃ u, Fin.foldlM n g t = some u ∧ R n r u
  | 0, _, _, _, _, _, t, h0, _, hr => by
    rw [Fin.foldlM_zero] at hr
    cases hr
    exact ⟨t, by rw [Fin.foldlM_zero]; rfl, h0⟩
  | n + 1, f, g, R, s, r, t, h0, hs, hr => by
    simp only [Fin.foldlM_succ_last] at hr ⊢
    cases hinit : Fin.foldlM n (fun s (i : Fin n) => f s i.castSucc) s with
    | none =>
      rw [hinit] at hr
      cases hr
    | some s' =>
      rw [hinit] at hr
      obtain ⟨u, hu, hR⟩ := foldlM_sim (fun s i => f s i.castSucc) (fun t i => g t i.castSucc) R h0
        (fun i s s' t h => hs i.castSucc s s' t h) hinit
      obtain ⟨u', hu', hR'⟩ := hs (Fin.last n) s' r u hR hr
      refine ⟨u', ?_, hR'⟩
      rw [hu]
      exact hu'

/-- The rule for a loop that is known to return. -/
theorem foldlM_returns (f : σ → Fin n → Option σ) (P : Nat → σ → Prop) {s r : σ} (h0 : P 0 s)
    (hs : ∀ (i : Fin n) (s s' : σ), P i s → f s i = some s' → P (i + 1) s')
    (hr : Fin.foldlM n f s = some r) : P n r := by
  obtain ⟨-, -, hP⟩ := foldlM_sim (t := ()) f (fun _ _ => some ()) (fun i s _ => P i s) h0
    (fun i s s' _ h hf => ⟨(), rfl, hs i s s' h hf⟩) hr
  exact hP

theorem foldl_set (f : Fin n → α) (v : Vector α n) :
    Fin.foldl n (fun v i => v.set i (f i) i.isLt) v = Vector.ofFn f := by
  have := foldl_inv (fun (v : Vector α n) i => v.set i (f i))
    (fun k v => ∀ i (hi : i < n), i < k → v[i] = f ⟨i, hi⟩) (s := v)
    (fun i _ h => absurd h (Nat.not_lt_zero i)) (fun i v hv j hj hlt => by
      by_cases e : i.val = j
      · subst e; simp
      · rw [Vector.getElem_set_ne _ _ e]; exact hv j hj (by omega))
  exact Vector.ext fun i hi => by rw [this i hi hi, Vector.getElem_ofFn]

end Alpine.Loop
